import Triage.Managed.PayloadWorkers

/-!
# Reads of payloads

Whatever the other workers are at, a read that yields bytes yields those that were uploaded, and
never ciphertext. It may find nothing though the row is there, when a conversion moves the payload
from one of the two paths to the other between its looks at them. What a row has is never lost:
one of its objects can be opened.

## Main results

* `payload_reads_exact` : reads are exact, and every row keeps an object that opens.
* `PayloadStore.read_missing` : a read that finds nothing.
-/

namespace Triage.Managed

open PayloadDb Option OpenCall StoredBody

variable {Id Bytes Hash : Type} [DecidableEq Id] [DecidableEq Hash] {C : PayloadCodec Bytes Hash}
  {lax : Prop} {db : PayloadDb Id Bytes Hash} {keyed stale : Bool} {path : PayloadPath Id}

/-! ### Opening an object while nothing else happens -/

namespace OpenCall

/-- The call comes to content while nothing else happens. -/
def Yields (C : PayloadCodec Bytes Hash) (db : PayloadDb Id Bytes Hash) (path : PayloadPath Id)
    (n : ℕ) (call : OpenCall Id Bytes Hash) : Prop :=
  ∃ content, alone C db true false path call n = .done (.stored content)

theorem yields_done (content : StoredBody Id Bytes) (n : ℕ) :
    Yields C db path n (.done (.stored content)) := by
  induction n with
  | zero => exact ⟨content, rfl⟩
  | succ n ih => exact ih

variable {call : OpenCall Id Bytes Hash}

theorem Yields.step {n : ℕ} (next : OpenCall Id Bytes Hash)
    (h : call.answer C db true false path = next) (hnext : Yields C db path n next) :
    Yields C db path (n + 1) call := by
  obtain ⟨content, hcontent⟩ := hnext
  refine ⟨content, ?_⟩
  rw [alone, h, hcontent]

theorem fact_alone (h : db.Inv C lax) (hf : call.Fact C db path)
    (n : ℕ) : (alone C db keyed stale path call n).Fact C db path := by
  induction n generalizing call with
  | zero => exact hf
  | succ n ih => exact ih (fact_answer h hf)

variable {row : PayloadRow Hash} {object : StoredPayload Id Bytes}

theorem yields_verified (left n : ℕ) (ho : db.objects path = some object) :
    Yields C db path (n + 1) (.verified left object) := by
  refine .step _ ?_ (yields_done object.body n)
  simp only [answer, openObjectVersion, ho, if_true]

theorem yields_verifyOriginal (left n : ℕ) (ho : db.objects path = some object)
    (hverify : C.verifyRaw path row object.body = true) :
    Yields C db path (n + 1) (verifyOriginal C path left row object) := by
  rw [verifyOriginal, if_pos hverify]
  exact yields_verified left n ho

omit [DecidableEq Id] in
/-- Plaintext of a row passes its verification. -/
theorem verifyRaw_of_plain (h : db.Inv C lax) (ho : db.objects path = some object)
    (hplain : ¬object.Sealed) (hrow : db.rows path.owner = some row) :
    C.verifyRaw path row object.body = true := by
  obtain ⟨bytes, hraw⟩ := ne_none_iff_exists'.1 hplain
  obtain ⟨upload, hup, hdecode, -⟩ := h.objects path object ho
  obtain ⟨⟨upload', hup', hhash, -⟩, -⟩ := h.rows _ row hrow
  rw [hup, Option.some.injEq] at hup'
  subst hup'
  rw [payload_of_raw hraw] at hdecode
  rw [PayloadCodec.verifyRaw, hraw]
  exact PayloadCodec.verify_iff.2 ⟨_, hdecode, hhash.symm⟩

omit [DecidableEq Hash] in
/-- A ciphertext opens with the data key of its row. -/
theorem opens_of_sealed (h : db.Inv C lax) (ho : db.objects path = some object)
    (hsealed : object.Sealed) (hrow : db.rows path.owner = some row) :
    ∃ dataKey bytes, row.dataKey = some dataKey ∧ object.body.opens dataKey path = some bytes := by
  obtain ⟨dataKey, path', bytes, hbody⟩ := raw_eq_none.1 hsealed
  obtain ⟨rfl, -, hkey⟩ := h.sealings path object dataKey path' bytes ho hbody
  exact ⟨dataKey, bytes, hkey row hrow, opens_eq_some.2 hbody⟩

/-- The object is inspected, and gives its content. -/
theorem yields_inspect (h : db.Inv C lax) (left n : ℕ) {complete : Bool}
    (hcomplete : complete = true → row.encrypted = true) (ho : db.objects path = some object)
    (hsolid : object.Solid) (hrow : db.rows path.owner = some row) :
    Yields C db path (n + 2) (inspect C path left row complete object) := by
  rw [inspect]
  by_cases henc : row.encrypted = true
  · -- a row that is marked has ciphertext, or what was put after activation
    have hsealed : object.Sealed := by
      rcases (h.encrypted _ row hrow henc).2.2 path object rfl ho with hs | ⟨-, hlate⟩
      · exact hs
      · rcases hsolid with hs | hearly
        · exact hs
        · rw [hlate] at hearly
          exact absurd hearly (by simp)
    obtain ⟨dataKey, bytes, hkey, hopen⟩ := opens_of_sealed h ho hsealed hrow
    simp only [henc, Bool.true_or, if_true, decryptOwned, hkey, hopen]
    exact yields_done _ _
  · have hnot : complete = false := by
      rw [← Bool.not_eq_true]
      exact fun hc => henc (hcomplete hc)
    rw [Bool.not_eq_true] at henc
    simp only [henc, hnot, Bool.or_false, Bool.false_eq_true, if_false]
    by_cases hsealed : object.Sealed
    · obtain ⟨dataKey, bytes, hkey, hopen⟩ := opens_of_sealed h ho hsealed hrow
      have hmagic : object.body.encrypted C = true := by
        obtain ⟨_, _, _, hbody⟩ := raw_eq_none.1 hsealed
        rw [hbody]
        rfl
      simp only [hmagic, if_true, hkey, hopen]
      exact yields_done _ _
    · have hverify := verifyRaw_of_plain h ho hsealed hrow
      cases hmagic : object.body.encrypted C with
      | true =>
        simp only [if_true]
        cases hkey : row.dataKey with
        | none =>
          refine .step (verifyOriginal C path left row object) ?_
            (yields_verifyOriginal left n ho hverify)
          simp only [answer, hrow, hkey, isSome_none, if_false, Bool.false_eq_true]
        | some dataKey =>
          have hopen : object.body.opens dataKey path = none := by
            rw [eq_none_iff_forall_ne_some]
            intro bytes hopen
            exact hsealed (raw_eq_none.2 ⟨_, _, _, opens_eq_some.1 hopen⟩)
          simp only [hopen]
          refine .step (verifyOriginal C path left row object) ?_
            (yields_verifyOriginal left n ho hverify)
          simp only [answer, openObjectVersion, ho, if_true]
      | false => exact yields_verifyOriginal left (n + 1) ho hverify

end OpenCall

/-- **Every row keeps an object that opens**: with the key, and while nothing else happens. -/
theorem PayloadDb.Inv.opens_alone (h : db.Inv C lax) {ref : PayloadRef Id} {row : PayloadRow Hash}
    (hrow : db.rows ref = some row) : ∃ path ∈ ref.paths row.sourcemap, ∃ bytes,
      alone C db true false path .mode 6 = .done (.stored (.plain bytes)) ∧
        db.StandsFor C path bytes := by
  obtain ⟨path, object, rfl, ho, hsolid⟩ := h.kept ref row hrow
  have hmem : path ∈ path.owner.paths row.sourcemap := by
    obtain ⟨upload, hup, -, hsource⟩ := h.objects path object ho
    obtain ⟨⟨upload', hup', -, hsource'⟩, -⟩ := h.rows _ row hrow
    rw [hup, Option.some.injEq] at hup'
    subst hup'
    exact PayloadRef.mem_paths.2 ⟨rfl, fun htype => (hsource htype).trans hsource'.symm⟩
  -- before activation what is stored is plain, after it the row has the key:
  have hyields : OpenCall.Yields C db path 6 .mode := by
    cases hon : db.enabled with
    | false =>
      have hplain : ¬object.Sealed := by
        intro hsealed
        rw [(h.seen ho).enabled hsealed] at hon
        exact absurd hon (by simp)
      refine .step .disabled (by simp [answer, mode, hon]) ?_
      cases hmagic : object.body.encrypted C with
      | false =>
        exact .step _ (by simp [answer, ho, hmagic]; rfl) (yields_done _ _)
      | true =>
        refine .step (.recheck object) (by simp [answer, ho, hmagic]) ?_
        exact .step _ (by simp [answer, mode, hon]; rfl) (yields_done _ _)
    | true =>
      refine .step (.getRow 3) (by simp [answer, mode, hon]) ?_
      cases henc : row.encrypted with
      | true =>
        refine .step (.raw 2 row false) (by simp [answer, hrow, hmem, henc]) ?_
        refine .step (inspect C path 2 row false object)
          (by simp [answer, ho]) ?_
        exact yields_inspect h 2 1 (by simp) ho hsolid hrow
      | false =>
        refine .step (.state 2 row) (by simp [answer, hrow, hmem, henc]) ?_
        refine .step (.raw 2 row db.complete) rfl ?_
        refine .step (inspect C path 2 row db.complete object)
          (by simp [answer, ho]) ?_
        refine yields_inspect h 2 0 (fun hdone => ?_) ho hsolid hrow
        exact (h.complete hdone).2 _ row hrow
  obtain ⟨content, hcontent⟩ := hyields
  have hfact : (alone C db true false path .mode 6).Fact C db path :=
    fact_alone h (show OpenCall.Fact C db path .mode from trivial) 6
  rw [hcontent] at hfact
  obtain ⟨bytes, rfl, hstands⟩ := hfact
  exact ⟨path, hmem, bytes, hcontent, hstands⟩

variable [DecidableEq Bytes]

/-- **Reads of payloads are exact.**  In every state that any number of instances reach, a read of a
report that has come to bytes has come to the bytes that were uploaded, and a read of a bundle to
bytes that stand for them, compressed for a sourcemap and else as they were; neither is ever
ciphertext.  And every row has a path from which an instance with the key opens such bytes. -/
theorem payload_reads_exact {legacy : FMap (PayloadRef Id) (LegacyPayload Bytes)}
    {s : PayloadStore Id Bytes Hash}
    (h : (payloadStore C).Reachable (PayloadStore.start C legacy) s) :
    (∀ w id content, (s.workers w).call = .read id (.done (.stored content)) →
      ∃ upload, s.db.uploads ⟨.report, id⟩ = some upload ∧ content = .plain upload.bytes) ∧
    (∀ w id sourcemap content,
      (s.workers w).call = .read id (.bundle sourcemap (.done (.stored content))) →
        ∃ upload bytes, s.db.uploads ⟨.bundle, id⟩ = some upload ∧ content = .plain bytes ∧
          C.decode ⟨⟨.bundle, id⟩, upload.sourcemap⟩ bytes = some upload.bytes) ∧
    ∀ ref row, s.db.rows ref = some row → ∃ upload, s.db.uploads ref = some upload ∧
      ∃ path ∈ ref.paths row.sourcemap, ∃ bytes,
        OpenCall.alone C s.db true false path .mode 6 = .done (.stored (.plain bytes)) ∧
          C.decode path bytes = some upload.bytes := by
  have hinv := PayloadStore.Inv.reachable h
  refine ⟨fun w id content hcall => ?_, fun w id sourcemap content hcall => ?_,
    fun ref row hrow => ?_⟩
  · have hfact := hinv.fact w
    rw [hcall] at hfact
    obtain ⟨bytes, rfl, upload, hup, hdecode, -⟩ := hfact
    have hbytes : bytes = upload.bytes := by
      simpa [PayloadCodec.decode, reportPath] using hdecode
    exact ⟨upload, hup, by rw [hbytes]⟩
  · have hfact := hinv.fact w
    rw [hcall] at hfact
    obtain ⟨bytes, rfl, upload, hup, hdecode, hsource⟩ := hfact
    refine ⟨upload, bytes, hup, rfl, ?_⟩
    rw [← hsource rfl]
    exact hdecode
  · obtain ⟨path, hmem, bytes, hopen, upload, hup, hdecode, -⟩ := hinv.db.opens_alone hrow
    rw [(PayloadRef.mem_paths.1 hmem).1] at hup
    exact ⟨upload, hup, path, hmem, bytes, hopen, hdecode⟩

/-! ### A read that finds nothing -/

namespace PayloadStore

/-- Bytes with the number of times they were compressed, in the place of Brotli; those of content 7
begin with the magic bytes. -/
def plainCodec : PayloadCodec (ℕ × ℕ) (ℕ × ℕ) where
  encodeBrotli bytes _ := (bytes.1, bytes.2 + 1)
  decodeBrotli
    | (_, 0) => none
    | (content, n + 1) => some (content, n)
  hash _ bytes := bytes
  looksEncrypted bytes := bytes.1 = 7 && bytes.2 = 0
  decode_encode _ _ := rfl
  hash_injective _ _ _ h := h

/-- One report from before, of content 7, stored as it was uploaded. -/
def oneReport : FMap (PayloadRef ℕ) (LegacyPayload (ℕ × ℕ)) :=
  (∅ : FMap (PayloadRef ℕ) (LegacyPayload (ℕ × ℕ))).insert ⟨.report, 0⟩ ⟨⟨(7, 0), false⟩, .original⟩

/-- A read of the report from beginning to end, in which it is compressed. -/
def readReport (w : ℕ) : List (PayloadLabel ℕ (ℕ × ℕ)) :=
  .enter w false (.report 0 false) :: List.replicate 3 (.answer w true false) ++
    List.replicate 2 (.answer w false false) ++ List.replicate 11 (.answer w true false)

theorem payload_reads_exact_one : ∃ s, (payloadStore plainCodec).run (start plainCodec oneReport)
    (readReport 0) = some s ∧ (s.workers 0).call = .read 0 (.done (.stored (.plain (7, 0)))) ∧
      ∃ upload, s.db.uploads ⟨.report, 0⟩ = some upload ∧
        StoredBody.plain (7, 0) = (.plain upload.bytes : StoredBody ℕ (ℕ × ℕ)) := by
  obtain ⟨s, hrun, hcall⟩ : ∃ s, (payloadStore plainCodec).run (start plainCodec oneReport)
      (readReport 0) = some s ∧
        (s.workers 0).call = .read 0 (.done (.stored (.plain (7, 0)))) := ⟨_, rfl, rfl⟩
  exact ⟨s, hrun, hcall,
    (payload_reads_exact (Machine.reachable_of_run hrun)).1 0 0 (.plain (7, 0)) hcall⟩

/-- Worker 0 asks for the compressed copy before worker 1 puts it, and for the original after
worker 1 has removed it. -/
theorem read_missing : ∃ s, (payloadStore plainCodec).Reachable (start plainCodec oneReport) s ∧
    (s.workers 0).call = .read 0 (.done .missing) ∧ (s.db.rows ⟨.report, 0⟩).isSome := by
  obtain ⟨s, hrun, hend⟩ : ∃ s, (payloadStore plainCodec).run (start plainCodec oneReport)
      ([.enter 0 false (.report 0 false), .answer 0 false false, .answer 0 false false] ++
        readReport 1 ++ [.answer 0 true false, .answer 0 true false, .answer 0 true false]) =
          some s ∧
        (s.workers 0).call = .read 0 (.done .missing) ∧ (s.db.rows ⟨.report, 0⟩).isSome :=
    ⟨_, rfl, rfl, rfl⟩
  exact ⟨s, Machine.reachable_of_run hrun, hend⟩

end PayloadStore

end Triage.Managed
