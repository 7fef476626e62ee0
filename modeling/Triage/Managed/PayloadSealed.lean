import Triage.Managed.PayloadReads

/-!
# Payloads after the migration

The migration is complete when every row is marked encrypted, and a row is marked when what it has
is ciphertext. A conversion that was told before activation that the encryption is disabled puts a
compressed copy in plaintext where there is none; if the migration of the row is past that path by
then, nobody looks there again.

## Main results

* `payloads_sealed` : in a run without such a put, a complete migration leaves only ciphertext.
* `PayloadStore.plain_after_migration` : a run with one.
-/

namespace Triage.Managed

open PayloadDb

variable {Id Bytes Hash : Type} [DecidableEq Id] {C : PayloadCodec Bytes Hash}
  {db : PayloadDb Id Bytes Hash}

/-- Under the strict invariant, the objects of rows that are marked encrypted open with their data
keys. -/
theorem PayloadDb.Inv.opens_of_encrypted (h : db.Inv C False) {ref : PayloadRef Id}
    {row : PayloadRow Hash} (hrow : db.rows ref = some row) (henc : row.encrypted = true)
    {path : PayloadPath Id} (howner : path.owner = ref) {object : StoredPayload Id Bytes}
    (ho : db.objects path = some object) :
    ∃ dataKey bytes, row.dataKey = some dataKey ∧ object.body.opens dataKey path = some bytes := by
  subst howner
  have hsealed : object.Sealed := by
    rcases (h.encrypted _ row hrow henc).2.2 path object rfl ho with hs | ⟨hno, -⟩
    · exact hs
    · exact hno.elim
  exact OpenCall.opens_of_sealed h ho hsealed hrow

variable [DecidableEq Bytes] [DecidableEq Hash]

/-- **A complete migration leaves no plaintext**, in every run whose steps are careful: every row is
marked encrypted, and every object at a path of its payload opens with its data key. -/
theorem payloads_sealed {legacy : FMap (PayloadRef Id) (LegacyPayload Bytes)}
    {s : PayloadStore Id Bytes Hash}
    (h : (payloadStore C).ReachableUnder PayloadStore.Careful (PayloadStore.start C legacy) s)
    (hcomplete : s.db.complete = true) {ref : PayloadRef Id} {row : PayloadRow Hash}
    (hrow : s.db.rows ref = some row) :
    row.encrypted = true ∧ ∀ path ∈ ref.paths row.sourcemap, ∀ object,
      s.db.objects path = some object → ∃ dataKey bytes, row.dataKey = some dataKey ∧
        object.body.opens dataKey path = some bytes := by
  have hinv := PayloadStore.Inv.reachableUnder h
  have henc := (hinv.db.complete hcomplete).2 ref row hrow
  refine ⟨henc, fun path hmem object ho => ?_⟩
  exact hinv.db.opens_of_encrypted hrow henc (PayloadRef.mem_paths.1 hmem).1 ho

namespace PayloadStore

/-- The migration of the report, by an instance with the key. -/
def migrateReport (w : ℕ) : List (PayloadLabel ℕ (ℕ × ℕ)) :=
  .enter w true (.migrate ⟨.report, 0⟩) :: List.replicate 7 (.answer w true false)

theorem payloads_sealed_one : ∃ s, (payloadStore plainCodec).run (start plainCodec oneReport)
    (.enable :: migrateReport 0 ++ [.advance true false]) = some s ∧ s.db.complete = true ∧
      s.db.rows ⟨.report, 0⟩ = some ⟨some 0, true, (7, 0), false⟩ ∧
      ∀ path ∈ PayloadRef.paths (⟨.report, 0⟩ : PayloadRef ℕ) false, ∀ object,
        s.db.objects path = some object → ∃ dataKey bytes, some 0 = some dataKey ∧
          object.body.opens dataKey path = some bytes := by
  obtain ⟨s, hrun, hcomplete, hrow⟩ : ∃ s, (payloadStore plainCodec).run
      (start plainCodec oneReport) (.enable :: migrateReport 0 ++ [.advance true false]) = some s ∧
        s.db.complete = true ∧ s.db.rows ⟨.report, 0⟩ = some ⟨some 0, true, (7, 0), false⟩ :=
    ⟨_, rfl, by decide, rfl⟩
  have hcareful : (payloadStore plainCodec).RunMeets Careful (start plainCodec oneReport)
      (.enable :: migrateReport 0 ++ [.advance true false]) :=
    ⟨trivial, trivial, trivial, trivial, trivial, trivial, trivial, trivial, trivial, trivial,
      trivial⟩
  exact ⟨s, hrun, hcomplete, hrow,
    (payloads_sealed (Machine.reachableUnder_of_run hrun hcareful) hcomplete hrow).2⟩

/-- Worker 0, of an instance without the key, is about to put the compressed copy when the
encryption is activated and the report is migrated. -/
theorem plain_after_migration : ∃ s,
    (payloadStore plainCodec).Reachable (start plainCodec oneReport) s ∧
      s.db.complete = true ∧ (s.db.rows ⟨.report, 0⟩).isSome ∧
      s.db.objects (reportPath 0 true) = some ⟨2, .plain (7, 1), true⟩ := by
  obtain ⟨s, hrun, hend⟩ : ∃ s, (payloadStore plainCodec).run (start plainCodec oneReport)
      ((readReport 0).take 11 ++ .enable :: migrateReport 1 ++
        [.advance true false, .answer 0 true false]) = some s ∧
        s.db.complete = true ∧ (s.db.rows ⟨.report, 0⟩).isSome ∧
        s.db.objects (reportPath 0 true) = some ⟨2, .plain (7, 1), true⟩ :=
    ⟨_, rfl, by decide, rfl, rfl⟩
  exact ⟨s, Machine.reachable_of_run hrun, hend⟩

end PayloadStore

end Triage.Managed
