import Triage.Relay.Revision

/-!
# Committing revisions concurrently

Any number of `commitRevision` calls run against one table: from sockets, REST handlers and other
relay replicas, on SQLite (`commitRevisionSqlite`) or on Neon (`tryCommitNeon`), several of them
possibly for the same revision. A call performs one SQL statement at a time and the calls
interleave between statements. On SQLite the gated insert reads and writes one state of the table;
on Neon (READ COMMITTED) it reads the snapshot taken when the statement started and is checked
against the unique indexes of the table as it is when the row lands. A call can be cut off at any
point: its driver throws, or its process dies.

## Main results

* `commitSimulation` : for each workspace the table refines the linked log of
  `Triage.LinkedLog`, whatever the interleaving.
* `chain_linear` : **no interleaving forks a chain or loses a revision of it**, and a call that does
  not report `inserted` has not changed the table.
* `acknowledged_stored` : **a revision that is acknowledged is stored for good**.
-/

namespace Triage.Relay

open List Option Function Prod

/-- `CommitResult`. -/
inductive CommitResult
  | inserted
  | duplicate
  | staleBase (head : Option String)
  deriving DecidableEq, Repr

/-- The database behind `handle.tryCommit`. -/
inductive Backend
  | sqlite
  | neon
  deriving DecidableEq, Repr

/-- Where a call stands: the statement it performs next, or how it ended. -/
inductive Stage
  /-- Not called yet. -/
  | idle
  /-- SQLite: the gated insert. -/
  | sqliteInsert (input : RevisionInsert)
  /-- SQLite, nothing inserted: `revisionExists`, then `headFor`. -/
  | sqliteExists (input : RevisionInsert)
  | sqliteHead (input : RevisionInsert)
  /-- Neon: the insert's statement snapshot is taken, then its row lands. -/
  | neonSnapshot (input : RevisionInsert)
  | neonInsert (input : RevisionInsert) (snapshot : List WorkspaceRevision)
  /-- Neon: the two reads of the transaction; `inserted` says whether the insert returned a row. -/
  | neonExists (input : RevisionInsert) (inserted : Bool)
  | neonHead (input : RevisionInsert) (inserted dup : Bool)
  /-- Both, after a unique violation: read back, then refetch the head. -/
  | recoverExists (input : RevisionInsert)
  | recoverHead (input : RevisionInsert)
  /-- The call has returned. -/
  | done (result : CommitResult)
  /-- The call was cut off or threw. -/
  | failed
  deriving DecidableEq, Repr

/-- What the gated insert did. -/
inductive InsertOutcome
  | gateClosed
  | violation
  | row (db : List WorkspaceRevision)

/-- The gated insert, computed from `snapshot` and landing in `db`. -/
def insertInto (db snapshot : List WorkspaceRevision) (input : RevisionInsert) : InsertOutcome :=
  match gatedInsert snapshot input with
  | none => .gateClosed
  | some r => if uniqueViolation db r then .violation else .row (db ++ [r])

/-- Performing the next statement of a call: the table and the stage after it. -/
def perform (db : List WorkspaceRevision) : Stage → Option (List WorkspaceRevision × Stage)
  | .idle | .done _ | .failed => none
  | .sqliteInsert input =>
    match insertInto db db input with
    | .gateClosed => some (db, .sqliteExists input)
    | .violation => some (db, .recoverExists input)
    | .row db' => some (db', .done .inserted)
  | .sqliteExists input =>
    some (db, if revisionExists db input.tag input.id then .done .duplicate else .sqliteHead input)
  | .sqliteHead input => some (db, .done (.staleBase (headFor db input.tag)))
  | .neonSnapshot input => some (db, .neonInsert input db)
  | .neonInsert input snapshot =>
    match insertInto db snapshot input with
    | .gateClosed => some (db, .neonExists input false)
    | .violation => some (db, .recoverExists input)
    | .row db' => some (db', .neonExists input true)
  | .neonExists input ins => some (db, .neonHead input ins (revisionExists db input.tag input.id))
  | .neonHead input ins dup =>
    some (db, .done (if ins then .inserted else if dup then .duplicate
      else .staleBase (headFor db input.tag)))
  | .recoverExists input =>
    some (db, if revisionExists db input.tag input.id then .done .inserted else .recoverHead input)
  | .recoverHead input => some (db, .done (.staleBase (headFor db input.tag)))

/-- The table and the calls made so far, by number. -/
structure CommitState where
  rows : List WorkspaceRevision
  calls : ℕ → Stage

/-- What happens next. -/
inductive CommitLabel
  /-- Call `p` starts. -/
  | commitRevision (p : ℕ) (backend : Backend) (input : RevisionInsert)
  /-- Call `p` performs its next statement. -/
  | statement (p : ℕ)
  /-- Call `p` is cut off. -/
  | fail (p : ℕ)
  deriving DecidableEq, Repr

/-- An empty table and no call. -/
def CommitState.init : CommitState where
  rows := []
  calls _ := .idle

/-- The first stage of a call. -/
def Stage.start : Backend → RevisionInsert → Stage
  | .sqlite, input => .sqliteInsert input
  | .neon, input => .neonSnapshot input

/-- All interleavings of the calls. -/
def commitMachine : Machine CommitState CommitLabel where
  step s
    | .commitRevision p backend input =>
      if s.calls p = .idle then
        some { s with calls := update s.calls p (.start backend input) }
      else none
    | .statement p =>
      (perform s.rows (s.calls p)).map fun r =>
        { rows := r.1, calls := update s.calls p r.2 }
    | .fail p =>
      (perform s.rows (s.calls p)).map fun _ =>
        { s with calls := update s.calls p .failed }

/-! ### What a statement can do -/

variable {db db' : List WorkspaceRevision} {s s' : CommitState} {a : CommitLabel}

variable {snapshot : List WorkspaceRevision}

theorem insertInto_row {input : RevisionInsert} (h : insertInto db snapshot input = .row db') :
    ∃ row, gatedInsert snapshot input = some row ∧ uniqueViolation db row = false ∧
      db' = db ++ [row] := by
  unfold insertInto at h
  cases hg : gatedInsert snapshot input with
  | none => simp [hg] at h
  | some row =>
    simp only [hg] at h
    split_ifs at h with hu
    cases h
    exact ⟨row, rfl, by simpa using hu, rfl⟩

/-- A call in one of these stages has inserted its row. -/
def Stage.Accepted : Stage → Prop
  | .neonExists _ ins => ins = true
  | .neonHead _ ins _ => ins = true
  | .done r => r = .inserted
  | .failed => True
  | _ => False

/-- Everything one statement can do: it leaves the table alone, or it is a gated insert whose row
lands, and then the call counts as accepted. -/
theorem perform_cases {st st' : Stage} (h : perform db st = some (db', st')) :
    (db' = db ∧ ∀ input snapshot, st' = .neonInsert input snapshot → snapshot = db) ∨
    ∃ input snapshot row, (st = .sqliteInsert input ∧ snapshot = db ∨
        st = .neonInsert input snapshot) ∧
      gatedInsert snapshot input = some row ∧ uniqueViolation db row = false ∧
      db' = db ++ [row] ∧ st'.Accepted ∧ ∀ i d, st' ≠ .neonInsert i d := by
  cases st with
  | idle => cases h
  | done => cases h
  | failed => cases h
  | sqliteInsert input =>
    simp only [perform] at h
    split at h
    · simp only [Option.some.injEq, mk.injEq] at h
      exact .inl ⟨h.1.symm, by simp [← h.2]⟩
    · simp only [Option.some.injEq, mk.injEq] at h
      exact .inl ⟨h.1.symm, by simp [← h.2]⟩
    · rename_i db₁ hins
      simp only [Option.some.injEq, mk.injEq] at h
      obtain ⟨rfl, rfl⟩ := h
      obtain ⟨row, hrow, huniq, rfl⟩ := insertInto_row hins
      exact .inr ⟨input, db, row, .inl ⟨rfl, rfl⟩, hrow, huniq, rfl, rfl, by simp⟩
  | neonInsert input snapshot =>
    simp only [perform] at h
    split at h
    · simp only [Option.some.injEq, mk.injEq] at h
      exact .inl ⟨h.1.symm, by simp [← h.2]⟩
    · simp only [Option.some.injEq, mk.injEq] at h
      exact .inl ⟨h.1.symm, by simp [← h.2]⟩
    · rename_i db₁ hins
      simp only [Option.some.injEq, mk.injEq] at h
      obtain ⟨rfl, rfl⟩ := h
      obtain ⟨row, hrow, huniq, rfl⟩ := insertInto_row hins
      exact .inr ⟨input, snapshot, row, .inr rfl, hrow, huniq, rfl, rfl, by simp⟩
  | sqliteExists input =>
    simp only [perform, Option.some.injEq, mk.injEq] at h
    refine .inl ⟨h.1.symm, fun i d hd => ?_⟩
    rw [← h.2] at hd
    split at hd <;> cases hd
  | recoverExists input =>
    simp only [perform, Option.some.injEq, mk.injEq] at h
    refine .inl ⟨h.1.symm, fun i d hd => ?_⟩
    rw [← h.2] at hd
    split at hd <;> cases hd
  | neonSnapshot input =>
    simp only [perform, Option.some.injEq, mk.injEq] at h
    refine .inl ⟨h.1.symm, fun i d hd => ?_⟩
    rw [← h.2, Stage.neonInsert.injEq] at hd
    exact hd.2.symm
  | sqliteHead | neonExists | neonHead | recoverHead =>
    simp only [perform, Option.some.injEq, mk.injEq] at h
    exact .inl ⟨h.1.symm, by simp [← h.2]⟩

/-- An accepted call stays accepted. -/
theorem perform_accepted {st st' : Stage}
    (hacc : st.Accepted) (h : perform db st = some (db', st')) : st'.Accepted := by
  cases st with
  | neonExists input ins =>
    simp only [perform, Option.some.injEq, mk.injEq] at h
    rw [← h.2]
    exact hacc
  | neonHead input ins dup =>
    simp only [perform, Option.some.injEq, mk.injEq] at h
    have hins : ins = true := hacc
    rw [← h.2, if_pos hins]
    exact rfl
  | done => cases h
  | failed => cases h
  | idle | sqliteInsert | sqliteExists | sqliteHead | neonSnapshot | neonInsert | recoverExists
  | recoverHead => exact hacc.elim

/-! ### The invariant and the refinement -/

/-- The table is numbered, and the snapshot of an insert under way is an earlier state of it. -/
structure CommitInv (s : CommitState) : Prop where
  table : TableInv s.rows
  snapshot : ∀ p input snapshot, s.calls p = .neonInsert input snapshot →
    TableInv snapshot ∧ snapshot <+: s.rows

theorem rowsOf_mono (h : db <+: db') (tag : String) : rowsOf db tag <+: rowsOf db' tag := h.filter _

theorem commitInv_init : CommitInv .init where
  table := tableInv_nil
  snapshot p input snapshot h := by simp [CommitState.init] at h

/-- Call `p` has put `row` on top of the chain of its workspace. -/
structure Landed (s s' : CommitState) (p : ℕ) (row : WorkspaceRevision) : Prop where
  rows : s'.rows = s.rows ++ [row]
  table : TableInv s'.rows
  id_new : row.id ∉ (rowsOf s.rows row.workspaceTag).map (·.id)
  base_eq : row.base =
    LinkedLog.lastKey WorkspaceRevision.id none (rowsOf s.rows row.workspaceTag)
  accepted : (s'.calls p).Accepted
  /-- No insert starts in this step. -/
  calls : ∀ q input snapshot, s'.calls q = .neonInsert input snapshot →
    s.calls q = .neonInsert input snapshot

/-- Everything a step of the machine can do: the table is as it was, or one call's row has landed
in it. -/
theorem commit_step_cases (hinv : CommitInv s) (h : commitMachine.step s a = some s') :
    (s'.rows = s.rows ∧ ∀ q input snapshot, s'.calls q = .neonInsert input snapshot →
      s.calls q = .neonInsert input snapshot ∨ snapshot = s.rows) ∨
    ∃ p row, a = .statement p ∧ Landed s s' p row := by
  cases a with
  | commitRevision p backend input =>
    simp only [commitMachine] at h
    split_ifs at h with hidle
    cases h
    refine .inl ⟨rfl, fun q i d hq => ?_⟩
    rcases eq_or_ne q p with rfl | hqp
    · cases backend <;> simp [Stage.start] at hq
    · exact .inl (by simpa [update_of_ne hqp] using hq)
  | fail p =>
    simp only [commitMachine, map_eq_some_iff] at h
    obtain ⟨-, -, rfl⟩ := h
    refine .inl ⟨rfl, fun q i d hq => ?_⟩
    rcases eq_or_ne q p with rfl | hqp
    · simp at hq
    · exact .inl (by simpa [update_of_ne hqp] using hq)
  | statement p =>
    simp only [commitMachine, map_eq_some_iff] at h
    obtain ⟨⟨db', st'⟩, hperf, rfl⟩ := h
    rcases perform_cases hperf with
      ⟨rfl, hsnap⟩ | ⟨input, snapshot, row, hst, hrow, huniq, rfl, hacc, hnot⟩
    · refine .inl ⟨rfl, fun q i d hq => ?_⟩
      rcases eq_or_ne q p with rfl | hqp
      · exact .inr (hsnap i d (by simpa using hq))
      · exact .inl (by simpa [update_of_ne hqp] using hq)
    · have hold : TableInv snapshot ∧ snapshot <+: s.rows := by
        rcases hst with ⟨-, rfl⟩ | hst
        · exact ⟨hinv.table, prefix_rfl⟩
        · exact hinv.snapshot p input snapshot hst
      obtain ⟨hsame, htable⟩ := hinv.table.insert hold.1 (rowsOf_mono hold.2 input.tag) hrow huniq
      obtain ⟨htag, hid, hbase, -, hnew, hhead⟩ := gatedInsert_spec hold.1 hrow
      rw [hsame] at hnew hhead
      refine .inr ⟨p, row, rfl, rfl, htable, ?_, ?_, by simpa using hacc, fun q i d hq => ?_⟩
      · rwa [htag, hid]
      · rw [htag, hbase, hhead]
      · rcases eq_or_ne q p with rfl | hqp
        · exact absurd (by simpa using hq) (hnot i d)
        · simpa [update_of_ne hqp] using hq

theorem commitInv_step (hinv : CommitInv s)
    (h : commitMachine.step s a = some s') : CommitInv s' := by
  rcases commit_step_cases hinv h with ⟨hrows, hcalls⟩ | ⟨p, row, -, hland⟩
  · refine ⟨hrows ▸ hinv.table, fun q i d hq => ?_⟩
    rw [hrows]
    rcases hcalls q i d hq with hold | rfl
    · exact hinv.snapshot q i d hold
    · exact ⟨hinv.table, prefix_rfl⟩
  · refine ⟨hland.table, fun q i d hq => ?_⟩
    obtain ⟨hs, hpre⟩ := hinv.snapshot q i d (hland.calls q i d hq)
    exact ⟨hs, hland.rows ▸ hpre.trans (prefix_append _ _)⟩

/-- **The table refines the linked log.**  Seen from one workspace, each step of the commits either
does nothing or appends a row naming the current head. -/
def commitSimulation (tag : String) :
    Machine.Simulation commitMachine
      (LinkedLog.machine WorkspaceRevision.id WorkspaceRevision.base) where
  inv := CommitInv
  abs s := rowsOf s.rows tag
  inv_step := commitInv_step
  abs_step {s a s'} hinv h := by
    rcases commit_step_cases hinv h with ⟨hrows, -⟩ | ⟨p, row, -, hland⟩
    · exact .inl (by rw [hrows])
    · by_cases ht : row.workspaceTag = tag
      · subst ht
        refine .inr ⟨row, ?_⟩
        rw [hland.rows, rowsOf_append, if_pos rfl, LinkedLog.machine]
        exact if_pos ⟨hland.base_eq, hland.id_new⟩
      · exact .inl (by rw [hland.rows, rowsOf_append, if_neg ht, append_nil])

/-- An accepted call stays accepted, whatever happens next. -/
theorem accepted_reachable {p : ℕ} (hacc : (s.calls p).Accepted)
    (h : commitMachine.Reachable s s') : (s'.calls p).Accepted := by
  refine h.invariant (I := fun s => (s.calls p).Accepted) hacc fun s a s' hs hst => ?_
  cases a with
  | commitRevision q backend input =>
    simp only [commitMachine] at hst
    split_ifs at hst with hidle
    cases hst
    rcases eq_or_ne p q with rfl | hpq
    · rw [hidle] at hs
      exact hs.elim
    · simpa [update_of_ne hpq] using hs
  | fail q =>
    simp only [commitMachine, map_eq_some_iff] at hst
    obtain ⟨-, -, rfl⟩ := hst
    rcases eq_or_ne p q with rfl | hpq
    · simp [Stage.Accepted]
    · simpa [update_of_ne hpq] using hs
  | statement q =>
    simp only [commitMachine, map_eq_some_iff] at hst
    obtain ⟨⟨db', st'⟩, hperf, rfl⟩ := hst
    rcases eq_or_ne p q with rfl | hpq
    · simpa using perform_accepted hs hperf
    · simpa [update_of_ne hpq] using hs

/-! ### Chain linearity -/

/-- The rows of a workspace form one chain, and the recorded head is its end. -/
structure ChainLinear (db : List WorkspaceRevision) (tag : String) : Prop where
  /-- At most one row has a null base. -/
  root : ∀ a ∈ rowsOf db tag, ∀ b ∈ rowsOf db tag, a.base = none → b.base = none → a = b
  /-- A base is the id of exactly one row. -/
  prev : ∀ a ∈ rowsOf db tag, ∀ k, a.base = some k → ∃! b, b ∈ rowsOf db tag ∧ b.id = k
  /-- No two rows share a base. -/
  fork : ∀ a ∈ rowsOf db tag, ∀ b ∈ rowsOf db tag, a.base = b.base → a = b
  /-- The head is null on an empty chain only, and it is the row no row names as its base. -/
  head_isSome : (headFor db tag).isSome ↔ rowsOf db tag ≠ []
  head_iff : ∀ a ∈ rowsOf db tag,
    headFor db tag = some a.id ↔ ∀ b ∈ rowsOf db tag, b.base ≠ some a.id
  head_unique : ∀ k, headFor db tag = some k → ∃! a, a ∈ rowsOf db tag ∧ a.id = k

theorem TableInv.chainLinear (h : TableInv db) {tag : String}
    (hlin : LinkedLog.Linear WorkspaceRevision.id WorkspaceRevision.base (rowsOf db tag)) :
    ChainLinear db tag where
  root _ ha _ hb := hlin.root_unique ha hb
  prev _ ha _ := hlin.existsUnique_prev ha
  fork _ ha _ hb := hlin.prev_inj ha hb
  head_isSome := by
    rw [h.headFor_eq, LinkedLog.lastKey_eq_getLast?]
    simp
  head_iff a ha := by
    rw [h.headFor_eq, hlin.unnamed_iff ha]
  head_unique k hk := by
    rw [h.headFor_eq] at hk
    obtain ⟨a, ha, rfl⟩ := List.mem_map.mp (LinkedLog.lastKey_mem hk)
    exact ⟨a, ⟨ha, rfl⟩, fun b hb => hlin.key_inj hb.1 ha hb.2⟩

/-- **Chain linearity.**  Whatever the interleaving of commits, the rows of every workspace form one
chain; and a step that changes the table belongs to a call that can only report `inserted`, so a
call that reports anything else has left the table as it was. -/
theorem chain_linear {s : CommitState} (h : commitMachine.Reachable .init s) :
    (∀ tag, ChainLinear s.rows tag) ∧
      ∀ a s', commitMachine.step s a = some s' → s'.rows ≠ s.rows →
        ∃ p, a = .statement p ∧ ∀ s'' r, commitMachine.Reachable s' s'' →
          s''.calls p = .done r → r = .inserted := by
  have hinv : CommitInv s := (commitSimulation "").inv_reachable commitInv_init h
  constructor
  · intro tag
    have hlog := (commitSimulation tag).reachable commitInv_init h
    exact hinv.table.chainLinear (LinkedLog.linear_reachable hlog LinkedLog.linear_nil)
  · intro a s' hst hne
    rcases commit_step_cases hinv hst with ⟨hrows, -⟩ | ⟨p, row, rfl, hland⟩
    · exact absurd hrows hne
    · refine ⟨p, rfl, fun s'' r hreach hdone => ?_⟩
      have hacc := accepted_reachable hland.accepted hreach
      rwa [hdone] at hacc

/-- Two Neon replicas race on an empty workspace from the same snapshot. -/
def raceLabels : List CommitLabel :=
  [.commitRevision 0 .neon ⟨"ws", "a", none, false, "n", "c", "s"⟩,
   .commitRevision 1 .neon ⟨"ws", "b", none, false, "n", "c", "s"⟩,
   .statement 0, .statement 1, .statement 1, .statement 0, .statement 0, .statement 0]

/-- The state the race ends in. -/
def raceEnd : CommitState := (commitMachine.run .init raceLabels).getD .init

theorem raceEnd_run : commitMachine.run .init raceLabels = some raceEnd := rfl

/-- The race: replica `1` has inserted, replica `0` is told that its base is stale. -/
theorem chain_linear_race :
    raceEnd.rows.map (·.id) = ["b"] ∧ raceEnd.calls 0 = .done (.staleBase (some "b")) ∧
      ∀ tag, ChainLinear raceEnd.rows tag :=
  ⟨by decide, by decide, (chain_linear (Machine.reachable_of_run raceEnd_run)).1⟩

/-! ### Acknowledged revisions -/

/-- What a call made with an input knows of the table. -/
def Stage.Knows (db : List WorkspaceRevision) (input : RevisionInsert) : Stage → Prop
  | .idle => False
  | .sqliteInsert i | .sqliteExists i | .sqliteHead i | .neonSnapshot i | .neonInsert i _
  | .recoverExists i | .recoverHead i => i = input
  | .neonExists i ins => i = input ∧ (ins = true → revisionExists db input.tag input.id)
  | .neonHead i ins dup =>
    i = input ∧ (ins = true ∨ dup = true → revisionExists db input.tag input.id)
  | .done r => r = .inserted ∨ r = .duplicate → revisionExists db input.tag input.id
  | .failed => True

variable {input : RevisionInsert} {st st' : Stage}

theorem revisionExists_mono {tag id : String} (h : db <+: db') (hid : revisionExists db tag id) :
    revisionExists db' tag id := by
  rw [revisionExists_iff] at hid ⊢
  exact ((rowsOf_mono h tag).map _).subset hid

/-- Rows are only added. -/
theorem Stage.Knows.mono (h : db <+: db') (hst : st.Knows db input) : st.Knows db' input := by
  cases st with
  | neonExists => exact ⟨hst.1, fun hins => revisionExists_mono h (hst.2 hins)⟩
  | neonHead => exact ⟨hst.1, fun hins => revisionExists_mono h (hst.2 hins)⟩
  | done => exact fun hr => revisionExists_mono h (hst hr)
  | _ => exact hst

theorem perform_mono (h : perform db st = some (db', st')) : db <+: db' := by
  rcases perform_cases h with ⟨rfl, -⟩ | ⟨-, -, row, -, -, -, rfl, -⟩
  · exact prefix_rfl
  · exact prefix_append ..

theorem revisionExists_insertInto
    (h : insertInto db snapshot input = .row db') : revisionExists db' input.tag input.id := by
  obtain ⟨row, hrow, -, rfl⟩ := insertInto_row h
  obtain ⟨-, hrow⟩ := ite_none_right_eq_some.1 hrow
  cases hrow
  simp [revisionExists, rowsOf]

theorem perform_knows (hst : st.Knows db input) (h : perform db st = some (db', st')) :
    st'.Knows db' input := by
  cases st with
  | idle => exact hst.elim
  | done => cases h
  | failed => cases h
  | sqliteInsert i =>
    obtain rfl : i = input := hst
    simp only [perform] at h
    split at h <;> cases h
    · rfl
    · rfl
    · exact fun _ => revisionExists_insertInto ‹_›
  | neonInsert i snapshot =>
    obtain rfl : i = input := hst
    simp only [perform] at h
    split at h <;> cases h
    · exact ⟨rfl, nofun⟩
    · rfl
    · exact ⟨rfl, fun _ => revisionExists_insertInto ‹_›⟩
  | sqliteExists i | recoverExists i =>
    obtain rfl : i = input := hst
    cases h
    split
    · exact fun _ => ‹_›
    · rfl
  | sqliteHead i | recoverHead i =>
    cases h
    exact nofun
  | neonSnapshot i =>
    cases h
    exact hst
  | neonExists i ins =>
    obtain ⟨rfl, hins⟩ := hst
    cases h
    exact ⟨rfl, fun h => h.elim hins id⟩
  | neonHead i ins dup =>
    cases h
    refine fun hr => hst.2 ?_
    grind

/-- A step adds rows at most, and what a call knows stays true. -/
theorem commit_step_knows (hst : commitMachine.step s a = some s') : s.rows <+: s'.rows ∧
    ∀ {i} p, (s.calls p).Knows s.rows i → (s'.calls p).Knows s'.rows i := by
  cases a with
  | commitRevision q backend i =>
    simp only [commitMachine] at hst
    split_ifs at hst with hidle
    cases hst
    refine ⟨prefix_rfl, fun p h => ?_⟩
    have hpq : p ≠ q := by
      rintro rfl
      rwa [hidle] at h
    simpa [update_of_ne hpq] using h
  | fail q =>
    simp only [commitMachine, map_eq_some_iff] at hst
    obtain ⟨-, -, rfl⟩ := hst
    refine ⟨prefix_rfl, fun p h => ?_⟩
    rcases eq_or_ne p q with rfl | hpq
    · simp [Stage.Knows]
    · simpa [update_of_ne hpq] using h
  | statement q =>
    simp only [commitMachine, map_eq_some_iff] at hst
    obtain ⟨⟨db', st'⟩, hperf, rfl⟩ := hst
    have hrows := perform_mono hperf
    refine ⟨hrows, fun p h => ?_⟩
    rcases eq_or_ne p q with rfl | hpq
    · simpa using perform_knows h hperf
    · simpa [update_of_ne hpq] using h.mono hrows

theorem knows_run {as : List CommitLabel} (h : commitMachine.run .init as = some s) {p : ℕ}
    {backend : Backend} (hcall : .commitRevision p backend input ∈ as) :
    (s.calls p).Knows s.rows input := by
  induction as using List.reverseRecOn generalizing s with
  | nil => cases hcall
  | append_singleton as a ih =>
    obtain ⟨t, ht, hst⟩ := (commitMachine.run_concat_eq_some).1 h
    rcases mem_append.1 hcall with hcall | hcall
    · exact (commit_step_knows hst).2 p (ih ht hcall)
    · obtain rfl := mem_singleton.1 hcall
      simp only [commitMachine] at hst
      split_ifs at hst
      cases hst
      cases backend <;> simp [Stage.start, Stage.Knows]

/-- **A revision that is acknowledged is stored for good**: once a call reports that its revision
was inserted or is a duplicate, it is in the table, whatever other calls do and whichever fail. -/
theorem acknowledged_stored {as : List CommitLabel} (h : commitMachine.run .init as = some s)
    {p : ℕ} {backend : Backend} (hcall : .commitRevision p backend input ∈ as)
    {r : CommitResult} (hdone : s.calls p = .done r) (hr : r = .inserted ∨ r = .duplicate)
    (h' : commitMachine.Reachable s s') : revisionExists s'.rows input.tag input.id := by
  have hknows := knows_run h hcall
  rw [hdone] at hknows
  exact h'.invariant (I := fun t => revisionExists t.rows input.tag input.id) (hknows hr)
    fun _ _ _ ht hst => revisionExists_mono (commit_step_knows hst).1 ht

/-- The replica that won the race is told so. -/
theorem acknowledged_stored_race : ∃ s,
    commitMachine.run .init (raceLabels ++ [.statement 1, .statement 1]) = some s ∧
      revisionExists s.rows "ws" "b" :=
  have h : commitMachine.run .init (raceLabels ++ [.statement 1, .statement 1]) = some _ := rfl
  ⟨_, h, acknowledged_stored h (.tail _ (.head _)) (show _ = Stage.done _ from rfl) (.inl rfl)
    (.refl _)⟩

end Triage.Relay
