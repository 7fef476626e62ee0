import Triage.Managed.Triage
import Mathlib.Data.List.Chain

/-!
# The trail of a finding and its row

However the tables are written to, deleted from and started up with, the newest event of a trail is
the row as it was last written, and a bounded trail is the end of the one that would have been kept
without the bound. A comment on a row is left from before comments were records of their own; where
a startup takes one off, the row and its newest event part, and not otherwise.

## Main results

* `managed_triage` : rows and trails agree, bounded trails are the newest events, and a batch is
  written as its entries would be.
-/

namespace Triage.Managed

open List Function TriageDb Option

/-- The operations on the triage tables, and on those that an event copies from. -/
inductive TriageOp
  | setTriage (id : String) (entry : Option TriageEntryPatch) (w : TriageWrite)
  | setTriageEntries (entries : List (String × Option TriageEntryPatch)) (w : TriageWrite)
  | deleteTriage (ids : List String)
  | removeUser (user : String)
  | startup
  | others (reports : String → Option (String × Option ℕ)) (repos : ℕ → Option String)

/-- The tables after an operation; a write of one entry is for no report. -/
def TriageOp.perform (historyLimit : ℕ) (db : TriageDb) : TriageOp → TriageDb
  | setTriage id entry w => db.writeEntry historyLimit { w with reportId := none } (id, entry)
  | setTriageEntries entries w => db.setTriageEntries historyLimit w entries
  | deleteTriage ids => db.deleteTriage ids
  | removeUser user => db.removeUser user
  | startup => db.initComments
  | others reports repos => { db with reports := reports, repos := repos }

/-- A server that keeps `historyLimit` events of a finding; `0` keeps them all. -/
def triageMachine (historyLimit : ℕ) : Machine TriageDb TriageOp where
  step db op := some (op.perform historyLimit db)

/-- The trail of a finding. -/
def TriageDb.trail (db : TriageDb) (id : String) : List (Journal.Entry String TriageEvent) :=
  db.events.trail id

/-- A row is what an event has written, up to a comment that was taken off. -/
structure Agrees (row : TriageRow) (event : TriageEvent) : Prop where
  updatedBy : row.updatedBy = event.actorId
  updatedByLogin : row.updatedByLogin = event.actorLogin
  updatedAt : row.updatedAt = event.at'
  state : row.state = event.state ∨ row.state = { event.state with comment := none }

/-- Every row agrees with the newest event of its trail, and a trail belongs to a row. -/
structure RowsAgree (db : TriageDb) : Prop where
  none : ∀ id, db.rows id = none → db.trail id = []
  some : ∀ id row, db.rows id = some row →
    ∃ event ∈ (db.trail id).getLast?, Agrees row event.value

/-- The rows are what the newest events have written, and no event repeats the one before. -/
structure Exact (db : TriageDb) : Prop where
  state : ∀ id row, db.rows id = some row →
    ∃ event ∈ (db.trail id).getLast?, row.state = event.value.state
  changes : ∀ id, (db.trail id).IsChain fun a b => a.value.state ≠ b.value.state

/-! ### What an operation does -/

section Perform

variable {historyLimit : ℕ} {w : TriageWrite} {db : TriageDb}

/-- What is kept of a trail when an event is added. -/
def bounded {α : Type} (historyLimit : ℕ) (trail : List α) : List α :=
  if 0 < historyLimit then trail.drop (trail.length - historyLimit) else trail

theorem trail_writeState (x : String × TriageStateDbRow) (id : String) :
    (db.writeState historyLimit w x).trail id = if id = x.1 then
      bounded historyLimit (db.trail id ++ [⟨db.events.next, id, db.triageEvent w x.2⟩])
    else db.trail id := by
  unfold trail writeState bounded
  by_cases hid : id = x.1
  · subst hid
    rw [if_pos rfl]
    by_cases hlimit : 0 < historyLimit
    · simp only [hlimit, if_true]
      rw [Journal.trim_eq_trimAll, Journal.trail_trimAll, if_pos (mem_singleton.2 rfl),
        Journal.trail_append_self]
    · simp only [hlimit, if_false]
      exact Journal.trail_append_self ..
  · rw [if_neg hid]
    by_cases hlimit : 0 < historyLimit
    · simp only [hlimit, if_true]
      rw [Journal.trim_eq_trimAll, Journal.trail_trimAll, if_neg (by simpa using hid),
        Journal.trail_append_of_ne _ hid]
    · simp only [hlimit, if_false]
      exact Journal.trail_append_of_ne _ hid _

theorem bounded_append {α : Type} (historyLimit : ℕ) (trail : List α) (x : α) :
    bounded historyLimit (bounded historyLimit trail ++ [x]) =
      bounded historyLimit (trail ++ [x]) := by
  unfold bounded
  split_ifs with hlimit
  · rw [← drop_append_of_le_length (Nat.sub_le ..), drop_drop]
    congr 1
    rw [length_drop, length_append, length_singleton]
    omega
  · rfl

theorem map_bounded {α β : Type} (historyLimit : ℕ) (f : α → β) (trail : List α) :
    (bounded historyLimit trail).map f = bounded historyLimit (trail.map f) := by
  unfold bounded
  split_ifs
  · rw [map_drop, length_map]
  · rfl

/-- The newest event stays. -/
theorem getLast?_bounded {α : Type} (historyLimit : ℕ) (trail : List α) :
    (bounded historyLimit trail).getLast? = trail.getLast? := by
  unfold bounded
  split_ifs with hlimit
  · rcases eq_nil_or_concat trail with rfl | ⟨front, last, rfl⟩
    · rw [drop_nil]
    · rw [concat_eq_append, drop_append_of_le_length
        (by rw [length_append, length_singleton]; omega), getLast?_append,
        getLast?_append]
      rfl
  · rfl

theorem getLast?_bounded_concat {α : Type} (historyLimit : ℕ) (trail : List α) (x : α) :
    (bounded historyLimit (trail ++ [x])).getLast? = some x := by
  rw [getLast?_bounded, getLast?_concat]

theorem trail_removeUser (user id : String) : (db.removeUser user).trail id =
    (db.trail id).map fun e =>
      ⟨e.seq, e.key, { e.value with actorId := setNull user e.value.actorId }⟩ :=
  Journal.trail_mapValues ..

theorem trail_deleteTriage (ids : List String) (id : String) :
    (db.deleteTriage ids).trail id = if id ∈ ids then [] else db.trail id :=
  Journal.trail_purge ..

theorem rows_deleteTriage {ids : List String} {id : String} {row : TriageRow}
    (h : (db.deleteTriage ids).rows id = some row) : id ∉ ids ∧ db.rows id = some row := by
  unfold deleteTriage at h
  by_cases hid : id ∈ ids
  · simp [hid] at h
  · exact ⟨hid, by simpa [hid] using h⟩

theorem RowsAgree.writeEntry (h : RowsAgree db) (x : String × Option TriageEntryPatch) :
    RowsAgree (db.writeEntry historyLimit w x) := by
  unfold TriageDb.writeEntry
  split_ifs
  · exact h
  · refine ⟨fun id hrow => ?_, fun id row hrow => ?_⟩
    · rw [rows_writeState, upsertTriage] at hrow
      rw [trail_writeState]
      split_ifs with hid
      · rw [hid, update_self] at hrow
        cases hrow
      · rw [update_of_ne hid] at hrow
        exact h.none id hrow
    · rw [rows_writeState, upsertTriage] at hrow
      rw [trail_writeState]
      split_ifs with hid
      · rw [hid, update_self] at hrow
        cases hrow
        exact ⟨_, getLast?_bounded_concat .., rfl, rfl, rfl, .inl rfl⟩
      · rw [update_of_ne hid] at hrow
        exact h.some id row hrow

theorem Exact.writeEntry (h : RowsAgree db) (he : Exact db)
    (x : String × Option TriageEntryPatch) : Exact (db.writeEntry historyLimit w x) := by
  unfold TriageDb.writeEntry
  split_ifs with hholds
  · exact he
  · refine ⟨fun id row hrow => ?_, fun id => ?_⟩
    · rw [rows_writeState, upsertTriage] at hrow
      rw [trail_writeState]
      split_ifs with hid
      · rw [hid, update_self] at hrow
        cases hrow
        exact ⟨_, getLast?_bounded_concat .., rfl⟩
      · rw [update_of_ne hid] at hrow
        exact he.state id row hrow
    · rw [trail_writeState]
      split_ifs with hid
      · subst hid
        -- the entry differs from the row, which is what the newest event has written
        have hlast : ∀ event ∈ (db.trail x.1).getLast?, event.value.state ≠ .next x.2 := by
          intro event hevent heq
          cases hrow : db.rows x.1 with
          | none =>
            rw [h.none x.1 hrow] at hevent
            cases hevent
          | some row =>
            obtain ⟨event', hevent', hstate⟩ := he.state x.1 row hrow
            obtain rfl := mem_unique hevent hevent'
            refine hholds ?_
            rw [holds, hrow]
            simp [hstate, heq]
        have hchain : (db.trail x.1 ++
            [Journal.Entry.mk db.events.next x.1 (db.triageEvent w (.next x.2))]).IsChain
              fun a b => a.value.state ≠ b.value.state := by
          refine (he.changes x.1).append (isChain_singleton _) fun a ha b hb => ?_
          rw [head?_cons] at hb
          cases hb
          exact hlast a ha
        unfold bounded
        split_ifs
        · exact hchain.drop _
        · exact hchain
      · exact he.changes id

theorem RowsAgree.perform (h : RowsAgree db) (op : TriageOp) :
    RowsAgree (op.perform historyLimit db) := by
  cases op with
  | setTriage id entry w => exact h.writeEntry _
  | setTriageEntries entries w =>
    show RowsAgree (db.setTriageEntries historyLimit w entries)
    rw [setTriageEntries_eq]
    induction entries generalizing db with
    | nil => exact h
    | cons x entries ih => exact ih (h.writeEntry x)
  | deleteTriage ids =>
    refine ⟨fun id hrow => ?_, fun id row hrow => ?_⟩
    · show (db.deleteTriage ids).trail id = []
      rw [trail_deleteTriage]
      split_ifs with hid
      · rfl
      · exact h.none id (by simpa [TriageOp.perform, deleteTriage, hid] using hrow)
    · obtain ⟨hid, hrow'⟩ := rows_deleteTriage hrow
      show ∃ event ∈ ((db.deleteTriage ids).trail id).getLast?, _
      rw [trail_deleteTriage, if_neg hid]
      exact h.some id row hrow'
  | removeUser user =>
    refine ⟨fun id hrow => ?_, fun id row hrow => ?_⟩
    · show (db.removeUser user).trail id = []
      rw [trail_removeUser, map_eq_nil_iff]
      exact h.none id (map_eq_none_iff.1 hrow)
    · obtain ⟨row', hrow', rfl⟩ := map_eq_some_iff.1 hrow
      obtain ⟨event, hevent, hagrees⟩ := h.some id row' hrow'
      show ∃ event ∈ ((db.removeUser user).trail id).getLast?, _
      rw [trail_removeUser, getLast?_map, mem_def.1 hevent]
      exact ⟨_, rfl, congrArg (setNull user) hagrees.updatedBy, hagrees.updatedByLogin,
        hagrees.updatedAt, hagrees.state⟩
  | startup =>
    refine ⟨fun id hrow => h.none id (map_eq_none_iff.1 hrow), fun id row hrow => ?_⟩
    obtain ⟨row', hrow', rfl⟩ := map_eq_some_iff.1 hrow
    obtain ⟨event, hevent, hagrees⟩ := h.some id row' hrow'
    refine ⟨event, hevent, hagrees.updatedBy, hagrees.updatedByLogin, hagrees.updatedAt, .inr ?_⟩
    rcases hagrees.state with hstate | hstate
    · rw [hstate]
    · rw [hstate]
  | others reports repos => exact ⟨h.none, h.some⟩

/-- A startup finds no comment on a row. -/
def NoLegacyComment (db : TriageDb) (op : TriageOp) : Prop :=
  op = .startup → ∀ id row, db.rows id = some row → row.state.comment = none

theorem Exact.perform (h : RowsAgree db) (he : Exact db) {op : TriageOp}
    (hop : NoLegacyComment db op) : Exact (op.perform historyLimit db) := by
  cases op with
  | setTriage id entry w => exact he.writeEntry h _
  | setTriageEntries entries w =>
    show Exact (db.setTriageEntries historyLimit w entries)
    rw [setTriageEntries_eq]
    clear hop
    induction entries generalizing db with
    | nil => exact he
    | cons x entries ih => exact ih (h.writeEntry x) (he.writeEntry h x)
  | deleteTriage ids =>
    refine ⟨fun id row hrow => ?_, fun id => ?_⟩
    · obtain ⟨hid, hrow'⟩ := rows_deleteTriage hrow
      show ∃ event ∈ ((db.deleteTriage ids).trail id).getLast?, _
      rw [trail_deleteTriage, if_neg hid]
      exact he.state id row hrow'
    · show ((db.deleteTriage ids).trail id).IsChain _
      rw [trail_deleteTriage]
      split_ifs
      · exact isChain_nil
      · exact he.changes id
  | removeUser user =>
    refine ⟨fun id row hrow => ?_, fun id => ?_⟩
    · obtain ⟨row', hrow', rfl⟩ := map_eq_some_iff.1 hrow
      obtain ⟨event, hevent, hstate⟩ := he.state id row' hrow'
      show ∃ event ∈ ((db.removeUser user).trail id).getLast?, _
      rw [trail_removeUser, getLast?_map, mem_def.1 hevent]
      exact ⟨_, rfl, hstate⟩
    · show ((db.removeUser user).trail id).IsChain _
      rw [trail_removeUser, isChain_map]
      exact he.changes id
  | startup =>
    refine ⟨fun id row hrow => ?_, he.changes⟩
    obtain ⟨row', hrow', rfl⟩ := map_eq_some_iff.1 hrow
    obtain ⟨event, hevent, hstate⟩ := he.state id row' hrow'
    refine ⟨event, hevent, ?_⟩
    show { row'.state with comment := none } = event.value.state
    rw [← hstate, ← hop rfl id row' hrow']
  | others reports repos => exact ⟨he.state, he.changes⟩

/-! ### With a bound and without -/

/-- Tables kept with a bound, beside the same tables without one. -/
structure Bounded (historyLimit : ℕ) (db full : TriageDb) : Prop where
  rows : db.rows = full.rows
  reports : db.reports = full.reports
  repos : db.repos = full.repos
  trail : ∀ id, db.trail id = bounded historyLimit (full.trail id)

variable {full : TriageDb}

section

variable (h : Bounded historyLimit db full)
include h

theorem Bounded.next : db.events.next = full.events.next := by
  refine Journal.next_congr fun id => ?_
  show (db.trail id).getLast? = (full.trail id).getLast?
  rw [h.trail, getLast?_bounded]

theorem Bounded.writeEntry (x : String × Option TriageEntryPatch) :
    Bounded historyLimit (db.writeEntry historyLimit w x) (full.writeEntry 0 w x) := by
  have hholds : ∀ id state, db.holds id state = full.holds id state := by
    intro id state
    rw [holds, holds, h.rows]
  have hevent : ∀ state, db.triageEvent w state = full.triageEvent w state := by
    intro state
    rw [triageEvent, triageEvent, h.reports, h.repos]
  unfold TriageDb.writeEntry
  rw [hholds]
  split_ifs
  · exact h
  · refine ⟨?_, h.reports, h.repos, fun id => ?_⟩
    · rw [rows_writeState, rows_writeState, upsertTriage, h.rows]
      rfl
    · rw [trail_writeState, trail_writeState]
      split_ifs
      · rw [h.trail, h.next, hevent, bounded_append]
        rfl
      · exact h.trail id

theorem Bounded.perform (op : TriageOp) :
    Bounded historyLimit (op.perform historyLimit db) (op.perform 0 full) := by
  cases op with
  | setTriage id entry w => exact h.writeEntry _
  | setTriageEntries entries w =>
    show Bounded historyLimit (db.setTriageEntries historyLimit w entries)
      (full.setTriageEntries 0 w entries)
    rw [setTriageEntries_eq, setTriageEntries_eq]
    induction entries generalizing db full with
    | nil => exact h
    | cons x entries ih => exact ih (h.writeEntry x)
  | deleteTriage ids =>
    refine ⟨?_, h.reports, h.repos, fun id => ?_⟩
    · show (fun id => if id ∈ ids then none else db.rows id) = _
      rw [h.rows]
      rfl
    · show (db.deleteTriage ids).trail id = bounded historyLimit ((full.deleteTriage ids).trail id)
      rw [trail_deleteTriage, trail_deleteTriage]
      split_ifs
      · simp [bounded]
      · exact h.trail id
  | removeUser user =>
    refine ⟨?_, h.reports, h.repos, fun id => ?_⟩
    · show (fun id => (db.rows id).map _) = _
      rw [h.rows]
      rfl
    · show (db.removeUser user).trail id = bounded historyLimit ((full.removeUser user).trail id)
      rw [trail_removeUser, trail_removeUser, h.trail, map_bounded]
  | startup =>
    refine ⟨?_, h.reports, h.repos, h.trail⟩
    show (fun id => (db.rows id).map _) = _
    rw [h.rows]
    rfl
  | others reports repos => exact ⟨h.rows, rfl, rfl, h.trail⟩

end

end Perform

/-! ### Runs -/

theorem run_triageMachine (historyLimit : ℕ) (db : TriageDb) (ops : List TriageOp) :
    (triageMachine historyLimit).run db ops =
      some (ops.foldl (TriageOp.perform historyLimit) db) := by
  induction ops generalizing db with
  | nil => rfl
  | cons op ops ih => exact ih _

/-- **Rows, trails and batches.**  In every state the newest event of a trail is the row as it was
last written, up to a comment that a startup has taken off; where no startup has taken one off, it
is the row, and no event repeats the one before.  With a limit the newest events of every trail are
kept, up to that number.  A batch leaves what its entries would, one after another. -/
theorem managed_triage (historyLimit : ℕ) :
    (∀ db, (triageMachine historyLimit).Reachable .empty db → RowsAgree db) ∧
    (∀ db, (triageMachine historyLimit).ReachableUnder NoLegacyComment .empty db → Exact db) ∧
    (∀ ops db full, (triageMachine historyLimit).run .empty ops = some db →
      (triageMachine 0).run .empty ops = some full → 0 < historyLimit →
        ∀ id, db.trail id = (full.trail id).drop ((full.trail id).length - historyLimit)) ∧
    ∀ db w entries, TriageDb.setTriageEntries historyLimit w db entries =
      entries.foldl (TriageDb.writeEntry historyLimit w) db := by
  have hempty : RowsAgree .empty := ⟨fun _ _ => rfl, nofun⟩
  refine ⟨fun db h => ?_, fun db h => ?_, fun ops db full hdb hfull hlimit id => ?_,
    fun db w entries => TriageDb.setTriageEntries_eq ..⟩
  · refine h.invariant hempty fun db op db' hI hstep => ?_
    cases hstep
    exact hI.perform op
  · have key : RowsAgree db ∧ Exact db := by
      refine h.invariant (I := fun db => RowsAgree db ∧ Exact db)
        ⟨hempty, nofun, fun _ => isChain_nil⟩ fun db op db' hI hC hstep => ?_
      cases hstep
      exact ⟨hI.1.perform op, hI.2.perform hI.1 hC⟩
    exact key.2
  · rw [run_triageMachine] at hdb hfull
    cases hdb
    cases hfull
    have hbounded : ∀ db full, Bounded historyLimit db full → Bounded historyLimit
        (ops.foldl (TriageOp.perform historyLimit) db) (ops.foldl (TriageOp.perform 0) full) := by
      induction ops with
      | nil => exact fun db full h => h
      | cons op ops ih => exact fun db full h => ih _ _ (h.perform op)
    have hstart : Bounded historyLimit .empty .empty :=
      ⟨rfl, rfl, rfl, fun id => by simp [bounded, TriageDb.trail, TriageDb.empty, Journal.trail]⟩
    have htrail := (hbounded _ _ hstart).trail id
    rwa [bounded, if_pos hlimit] at htrail

/-- A write for no report. -/
def plainWrite (batchId : String) : TriageWrite := ⟨batchId, some "u", some "ada", 1, none⟩

/-- An entry with a comment, then a startup, then the same entry without it. -/
def commentedOps : List TriageOp :=
  [.setTriage "f" (some { color := some "red", comment := some "x" }) (plainWrite "1"), .startup]

def commentedDb : TriageDb := commentedOps.foldl (TriageOp.perform 0) .empty

/-- A startup takes a comment off its row, and the newest event keeps it. -/
theorem cleared_comment : (triageMachine 0).Reachable .empty commentedDb ∧
    ∃ row event, commentedDb.rows "f" = some row ∧
      (commentedDb.trail "f").getLast? = some event ∧ row.state ≠ event.value.state :=
  ⟨Machine.reachable_of_run (run_triageMachine 0 .empty commentedOps), _, _, rfl, rfl, by decide⟩

/-- Two writes of a finding, the second one its tombstone. -/
def limitedOps : List TriageOp :=
  [.setTriage "f" (some { color := some "red" }) (plainWrite "1"),
    .setTriage "f" none (plainWrite "2")]

/-- Under a limit of one event the second is left. -/
theorem managed_triage_limited :
    ((limitedOps.foldl (TriageOp.perform 1) .empty).trail "f").map (·.value.batchId) = ["2"] := by
  have h := (managed_triage 1).2.2.1 limitedOps _ _ (run_triageMachine 1 _ _)
    (run_triageMachine 0 _ _) Nat.one_pos "f"
  rw [h]
  decide

end Triage.Managed
