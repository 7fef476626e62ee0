import Triage.Objstore.Store

/-!
# Concurrent puts and deletes

Any number of `beginPut`, `commitPut`, `abortPut` and `deleteObject` calls run against one pair of
tables, from any number of replicas, while the reaper drops stale staging rows and uploads refresh
theirs. An await can throw, with or without its statement having been applied, and a process can
die between two awaits.

## Main results

* `storeSimulation` : the history of the live table refines the versioned log of
  `Triage.VersionedLog`, whatever the interleaving.
* `objects_linearizable` : **every reachable state is linearizable, and every step changes at most
  one live row**.
-/

namespace Triage.Objstore

open List Option Function Store VersionedLog

/-- The tables and the calls made so far, by number. -/
structure StoreState where
  db : Store
  calls : ℕ → Stage

/-- What happens next. -/
inductive StoreLabel
  | beginPut (p : ℕ) (input : BeginPutInput)
  | commitPut (p : ℕ) (input : CommitPutInput)
  | abortPut (p : ℕ) (key : Key) (stagingId : String)
  | deleteObject (p : ℕ) (key : Key) (prevVersion : Option ℤ) (prevIncarnation : Option String)
  /-- Call `p` makes its next await, with this answer. -/
  | await (p : ℕ) (a : Answer)
  /-- The next await of call `p` throws, after its statement was applied or without it. -/
  | throws (p : ℕ) (a : Answer) (applied : Bool)
  /-- The process of call `p` dies. -/
  | cutOff (p : ℕ)
  /-- An upload has finished and restamps its staging row. -/
  | refreshStaging (begunAt : ℤ) (key : Key) (stagingId : String)
  /-- The reaper drops a staging row if it is stale. -/
  | reapStaging (key : Key) (stagingId : String) (staleBefore : ℤ)
  deriving DecidableEq, Repr

/-- Empty tables and no call. -/
def StoreState.init : StoreState := ⟨.empty, fun _ => .idle⟩

/-- Call `p` moves to stage `st`. -/
def StoreState.setCall (s : StoreState) (p : ℕ) (st : Stage) : StoreState :=
  { s with calls := update s.calls p st }

/-- A call that has not been made yet starts at stage `st`. -/
def StoreState.start (s : StoreState) (p : ℕ) (st : Stage) : Option StoreState :=
  if s.calls p = .idle then some (s.setCall p st) else none

/-- All interleavings of the calls. -/
def storeMachine : Machine StoreState StoreLabel where
  step s
    | .beginPut p input => s.start p (.beginGetLive input)
    | .commitPut p input => s.start p (.commitSelectStaging input)
    | .abortPut p key stagingId => s.start p (.abortUnlinkStaging key stagingId)
    | .deleteObject p key prevVersion prevIncarnation =>
      s.start p (.deleteGetLive key prevVersion prevIncarnation)
    | .await p a =>
      (perform p s.db a (s.calls p)).map fun r => { s with db := r.1 }.setCall p r.2
    | .throws p a applied =>
      (perform p s.db a (s.calls p)).map fun r =>
        { s with db := if applied then r.1 else s.db }.setCall p (s.calls p).thrown
    | .cutOff p => some (s.setCall p .failed)
    | .refreshStaging begunAt key stagingId =>
      some { s with db := s.db.refreshStagingBegunAt begunAt key stagingId }
    | .reapStaging key stagingId staleBefore =>
      some { s with db := (s.db.deleteStagingIfStale key stagingId staleBefore).1 }

/-- Incarnation and version of a live row. -/
def rowStamp : VersionedLog.Stamp ObjectRow String where
  incarnation := ObjectRow.incarnation
  version := ObjectRow.version

/-! ### What the calls know -/

/-- What a staging id stands for: the resource and the precondition it was staged against. -/
structure Staged where
  key : Key
  prevVersion : Option ℤ
  prevIncarnation : Option String
  deriving DecidableEq, Repr

/-- A precondition names a version and an incarnation, or neither. -/
def Paired (prevVersion : Option ℤ) (prevIncarnation : Option String) : Prop :=
  prevVersion.isSome = prevIncarnation.isSome

/-- What a put that began with `input` is staged as. -/
def BeginPutInput.staged (input : BeginPutInput) : Staged :=
  ⟨input.key, input.prevVersion, input.prevIncarnation⟩

/-- What a staging row of `key` is staged as. -/
def StagingRow.staged (row : StagingRow) (key : Key) : Staged :=
  ⟨key, row.prevVersion, row.prevIncarnation⟩

/-- The staging id a call holds and what it believes it stands for. -/
def Stage.staged : Stage → Option (String × Staged)
  | .beginInsertStaging input stagingId _ => some (stagingId, input.staged)
  | .beginOk input stagingId => some (stagingId, input.staged)
  | .commitStatStaging input staging => some (input.stagingId, staging.staged input.key)
  | .commitGetLive input staging => some (input.stagingId, staging.staged input.key)
  | .commitPromote input staging _ => some (input.stagingId, staging.staged input.key)
  | .commitCAS input staging _ _ _ => some (input.stagingId, staging.staged input.key)
  | .commitUnlinkStaging input staging _ => some (input.stagingId, staging.staged input.key)
  | .commitDeleteStaging input staging _ => some (input.stagingId, staging.staged input.key)
  | .commitOk input staging _ => some (input.stagingId, staging.staged input.key)
  | _ => none

/-- Some call or the staging table takes `stagingId` to stand for `x`. -/
inductive Named (s : StoreState) (stagingId : String) (x : Staged) : Prop
  | call (p : ℕ) (h : (s.calls p).staged = some (stagingId, x))
  | row (r : StagingRow) (h : s.db.staging (x.key, stagingId) = some r) (hx : r.staged x.key = x)

/-- The incarnation a call has drawn for a row it has not inserted yet. -/
def Stage.pending : Stage → Option String
  | .commitCAS _ _ _ freshIncarnation _ => some freshIncarnation
  | _ => none

/-- A call's changes of the live table. -/
abbrev Changes := List (VersionedLog.Entry Key ObjectRow)

/-- The one change of a successful `commitPut`: the row went from exactly what the put was staged
against to the next version. -/
structure Committed (changes : Changes) (input : CommitPutInput) (staging : StagingRow)
    (row : ObjectRow) : Prop where
  changes : ∃ before, changes = [⟨input.key, before, some row⟩] ∧
    matchesPrev before staging.prevVersion staging.prevIncarnation
  version : row.version = staging.prevVersion.getD 0 + 1
  incarnation : ∀ i, staging.prevIncarnation = some i → row.incarnation = i

/-- What a successful `deleteObject` has done: nothing when there was nothing to delete and nothing
was expected, else it removed the row its precondition names. -/
inductive Deleted (changes : Changes) (key : Key) (prevVersion : Option ℤ)
    (prevIncarnation : Option String) (deletedVersion : ℤ) : Prop
  | nothing (h : changes = []) (hprev : prevVersion = none) (hver : deletedVersion = 0)
  | removed (row : ObjectRow) (h : changes = [⟨key, some row, none⟩])
      (hprev : matchesPrev (some row) prevVersion prevIncarnation)
      (hver : deletedVersion = row.version)

/-- What a call that has made `changes` has established at its stage. -/
def Stage.Holds (changes : Changes) : Stage → Prop
  | .beginCountLive input | .beginEnsureWorkspace input =>
    Paired input.prevVersion input.prevIncarnation
  | .idle | .commitSelectStaging .. | .commitStatStaging .. | .commitGetLive ..
  | .deleteGetLive .. => changes = []
  | .commitPromote _ staging liveVersion => changes = [] ∧ liveVersion = staging.prevVersion
  | .commitCAS _ staging nextVersion _ _ =>
    changes = [] ∧ nextVersion = staging.prevVersion.getD 0 + 1
  | .commitUnlinkStaging input staging row | .commitDeleteStaging input staging row
  | .commitOk input staging row => Committed changes input staging row
  | .deleteCAS _ prevVersion prevIncarnation live =>
    changes = [] ∧ matchesPrev (some live) prevVersion prevIncarnation
  | .deleteOk key prevVersion prevIncarnation deletedVersion =>
    Deleted changes key prevVersion prevIncarnation deletedVersion
  | _ => True

/-- What holds of every reachable state. -/
structure StoreInv (s : StoreState) : Prop where
  live : ∀ key, s.db.live key = VersionedLog.current s.db.entries key
  lawful : VersionedLog.Lawful rowStamp s.db.entries
  /-- The incarnations of the history have been drawn. -/
  produced_drawn : ∀ r ∈ VersionedLog.produced s.db.entries, r.incarnation ∈ s.db.drawn
  named_drawn : ∀ sid x, Named s sid x → sid ∈ s.db.drawn
  named_paired : ∀ sid x, Named s sid x → Paired x.prevVersion x.prevIncarnation
  named_inj : ∀ sid x y, Named s sid x → Named s sid y → x = y
  pending_drawn : ∀ p i, (s.calls p).pending = some i → i ∈ s.db.drawn
  pending_fresh : ∀ p i, (s.calls p).pending = some i →
    ∀ r ∈ VersionedLog.produced s.db.entries, r.incarnation ≠ i
  pending_inj : ∀ p q i, (s.calls p).pending = some i → (s.calls q).pending = some i → p = q
  holds : ∀ p, (s.calls p).Holds (s.db.changesOf p)

theorem storeInv_init : StoreInv .init where
  live key := rfl
  lawful := lawful_nil
  produced_drawn r h := by simp [StoreState.init, empty, entries] at h
  named_drawn sid x h := by
    cases h with
    | call p h => cases h
    | row r h => cases h
  named_paired sid x h := by
    cases h with
    | call p h => cases h
    | row r h => cases h
  named_inj sid x y h := by
    cases h with
    | call p h => cases h
    | row r h => cases h
  pending_drawn p i h := by cases h
  pending_fresh p i h := by cases h
  pending_inj p q i h := by cases h
  holds p := rfl

/-! ### One step -/

namespace Store

variable (db : Store) (p q : ℕ) (key : Key) (after : Option ObjectRow)

@[simp] theorem entries_setLive :
    (db.setLive p key after).entries = db.entries ++ [⟨key, db.live key, after⟩] := by
  simp [setLive, entries]

theorem live_setLive (k : Key) :
    (db.setLive p key after).live k = if key = k then after else db.live k := by
  cases after with
  | none => rw [setLive, FMap.erase_apply]; simp only [eq_comm]
  | some row => rw [setLive, FMap.insert_apply]; simp only [eq_comm]

theorem changesOf_setLive_self :
    (db.setLive p key after).changesOf p = db.changesOf p ++ [⟨key, db.live key, after⟩] := by
  simp [setLive, changesOf]

theorem changesOf_setLive_of_ne (h : q ≠ p) :
    (db.setLive p key after).changesOf q = db.changesOf q := by
  simp [setLive, changesOf, h.symm]

end Store

/-- What a step does to the live table: nothing, or one legal change by the call that moves. -/
inductive LiveStep (s : StoreState) (p : ℕ) (db' : Store) (st' : Stage) : Prop
  | same (hlive : db'.live = s.db.live) (hlog : db'.log = s.db.log)
  | change (key : Key) (after : Option ObjectRow)
      (hlive : db'.live = (s.db.setLive p key after).live)
      (hlog : db'.log = (s.db.setLive p key after).log)
      (hlegal : VersionedLog.Legal rowStamp s.db.entries ⟨key, s.db.live key, after⟩)
      (hinc : ∀ r, after = some r →
        (∃ r' ∈ VersionedLog.produced s.db.entries, r'.incarnation = r.incarnation) ∨
          (s.calls p).pending = some r.incarnation)
      (hpending : st'.pending = none)

/-- What a step does to what staging ids stand for and to the ids drawn. -/
structure NameStep (s : StoreState) (p : ℕ) (db' : Store) (st' : Stage) : Prop where
  drawn : s.db.drawn ⊆ db'.drawn
  rows : ∀ key sid r, db'.staging (key, sid) = some r → Named s sid (r.staged key)
  staged : ∀ sid x, st'.staged = some (sid, x) → Named s sid x ∨
    sid ∉ s.db.drawn ∧ sid ∈ db'.drawn ∧ Paired x.prevVersion x.prevIncarnation
  pending : ∀ i, st'.pending = some i →
    (s.calls p).pending = some i ∨ i ∉ s.db.drawn ∧ i ∈ db'.drawn

section Move

variable {s : StoreState} {p : ℕ} {db' : Store} {st' : Stage}

theorem calls_setCall_self : ({ s with db := db' }.setCall p st').calls p = st' :=
  update_self ..

theorem calls_setCall_of_ne {q : ℕ} (hq : q ≠ p) :
    ({ s with db := db' }.setCall p st').calls q = s.calls q :=
  update_of_ne hq _ _

/-- A name after the step is an old one, or the one drawn in the step. -/
theorem NameStep.named (hn : NameStep s p db' st') {sid : String} {x : Staged}
    (hx : Named ({ s with db := db' }.setCall p st') sid x) : Named s sid x ∨
      sid ∉ s.db.drawn ∧ sid ∈ db'.drawn ∧ Paired x.prevVersion x.prevIncarnation ∧
        st'.staged = some (sid, x) := by
  cases hx with
  | call q hq =>
    by_cases hqp : q = p
    · subst hqp
      rw [calls_setCall_self] at hq
      rcases hn.staged sid x hq with h | ⟨h₁, h₂, h₃⟩
      · exact .inl h
      · exact .inr ⟨h₁, h₂, h₃, hq⟩
    · rw [calls_setCall_of_ne hqp] at hq
      exact .inl (.call q hq)
  | row r hr hx =>
    have h := hn.rows x.key sid r hr
    rw [hx] at h
    exact .inl h

/-- An incarnation pending after the step is an old one, or the one drawn in the step. -/
theorem NameStep.pending_call (hn : NameStep s p db' st') {q : ℕ} {i : String}
    (hq : (({ s with db := db' }.setCall p st').calls q).pending = some i) :
    (s.calls q).pending = some i ∨ q = p ∧ i ∉ s.db.drawn ∧ i ∈ db'.drawn := by
  by_cases hqp : q = p
  · subst hqp
    rw [calls_setCall_self] at hq
    rcases hn.pending i hq with h | h
    · exact .inl h
    · exact .inr ⟨rfl, h⟩
  · rw [calls_setCall_of_ne hqp] at hq
    exact .inl hq

section

variable (hl : LiveStep s p db' st')
include hl

/-- A row of the history is an old one, has the incarnation that the call had pending, or that of
an old row. -/
theorem LiveStep.produced {r : ObjectRow} (hr : r ∈ produced db'.entries) :
    r ∈ produced s.db.entries ∨
      (s.calls p).pending = some r.incarnation ∧ st'.pending = none ∨
      ∃ r' ∈ produced s.db.entries, r'.incarnation = r.incarnation := by
  cases hl with
  | same _ hlog =>
    rw [entries, hlog] at hr
    exact .inl hr
  | change key after _ hlog _ hinc hp =>
    rw [entries, hlog, ← entries, entries_setLive] at hr
    rcases mem_produced_snoc hr with hr | hr
    · exact .inl hr
    · rcases hinc r hr with h | h
      · exact .inr (.inr h)
      · exact .inr (.inl ⟨h, hp⟩)

theorem LiveStep.live_current (hinv : StoreInv s) (key : Key) :
    db'.live key = current db'.entries key := by
  cases hl with
  | same hlive hlog => rw [hlive, hinv.live key, entries, entries, hlog]
  | change key' after hlive hlog hlegal _ _ =>
    rw [entries, hlog, ← entries, entries_setLive, current_append,
      hlive, live_setLive, hinv.live key]

theorem LiveStep.lawful (hinv : StoreInv s) : VersionedLog.Lawful rowStamp db'.entries := by
  cases hl with
  | same _ hlog =>
    rw [entries, hlog]
    exact hinv.lawful
  | change key after _ hlog hlegal _ _ =>
    rw [entries, hlog, ← entries, entries_setLive]
    exact hinv.lawful.snoc hlegal

theorem LiveStep.changesOf_of_ne {q : ℕ} (hq : q ≠ p) : db'.changesOf q = s.db.changesOf q := by
  cases hl with
  | same _ hlog => rw [changesOf, hlog, ← changesOf]
  | change key after _ hlog _ _ _ =>
    rw [changesOf, hlog, ← changesOf]
    exact s.db.changesOf_setLive_of_ne p q key after hq

end

/-- **The step lemma.**  A move of one call that changes the live table legally and keeps the names
apart preserves the invariant. -/
theorem StoreInv.move (hinv : StoreInv s) (hl : LiveStep s p db' st') (hn : NameStep s p db' st')
    (hh : st'.Holds (db'.changesOf p)) : StoreInv ({ s with db := db' }.setCall p st') where
  live := hl.live_current hinv
  lawful := hl.lawful hinv
  produced_drawn r hr := by
    rcases hl.produced hr with h | ⟨h, -⟩ | ⟨r', hr', h⟩
    · exact hn.drawn (hinv.produced_drawn r h)
    · exact hn.drawn (hinv.pending_drawn p _ h)
    · rw [← h]
      exact hn.drawn (hinv.produced_drawn r' hr')
  named_drawn sid x hx := by
    rcases hn.named hx with h | ⟨-, h, -⟩
    · exact hn.drawn (hinv.named_drawn sid x h)
    · exact h
  named_paired sid x hx := by
    rcases hn.named hx with h | ⟨-, -, h, -⟩
    · exact hinv.named_paired sid x h
    · exact h
  named_inj sid x y hx hy := by
    rcases hn.named hx with h | ⟨hnew, -, -, h⟩ <;>
      rcases hn.named hy with h' | ⟨hnew', -, -, h'⟩
    · exact hinv.named_inj sid x y h h'
    · exact absurd (hinv.named_drawn sid x h) hnew'
    · exact absurd (hinv.named_drawn sid y h') hnew
    · rw [h] at h'
      exact (Prod.mk.inj (some.inj h')).2
  pending_drawn q i hq := by
    rcases hn.pending_call hq with h | ⟨-, -, h⟩
    · exact hn.drawn (hinv.pending_drawn q i h)
    · exact h
  pending_fresh q i hq r hr := by
    intro heq
    rcases hn.pending_call hq with hold | ⟨-, hnew, -⟩
    · rcases hl.produced hr with h | ⟨h, hp⟩ | ⟨r', hr', h⟩
      · exact hinv.pending_fresh q i hold r h heq
      -- the call that inserted the row has nothing pending any more
      · rw [heq] at h
        have hqp := hinv.pending_inj q p i hold h
        subst hqp
        rw [calls_setCall_self, hp] at hq
        cases hq
      · exact hinv.pending_fresh q i hold r' hr' (h.trans heq)
    · rcases hl.produced hr with h | ⟨h, -⟩ | ⟨r', hr', h⟩
      · exact hnew (heq ▸ hinv.produced_drawn r h)
      · exact hnew (heq ▸ hinv.pending_drawn p _ h)
      · exact hnew (heq ▸ h ▸ hinv.produced_drawn r' hr')
  pending_inj q q' i hq hq' := by
    rcases hn.pending_call hq with h | ⟨rfl, hnew, -⟩ <;>
      rcases hn.pending_call hq' with h' | ⟨rfl, hnew', -⟩
    · exact hinv.pending_inj q q' i h h'
    · exact absurd (hinv.pending_drawn q i h) hnew'
    · exact absurd (hinv.pending_drawn q' i h') hnew
    · rfl
  holds q := by
    by_cases hqp : q = p
    · subst hqp
      rw [calls_setCall_self]
      exact hh
    · rw [calls_setCall_of_ne hqp]
      change (s.calls q).Holds (db'.changesOf q)
      rw [hl.changesOf_of_ne hqp]
      exact hinv.holds q

end Move

/-! ### What an await does -/

/-- A call that has come to its end without a change. -/
inductive Stage.Refused : Stage → Prop
  | begin (r : BeginPutFailure) : Refused (.beginRefused r)
  | commit (input : CommitPutInput) (r : CommitPutFailure) : Refused (.commitRefused input r)
  | delete (r : DeleteFailure) : Refused (.deleteRefused r)
  | failed : Refused .failed

/-- The moves of a call, with what each has found in the tables. -/
inductive Performed (p : ℕ) (db : Store) (a : Answer) : Stage → Store → Stage → Prop
  | refused (st : Stage) {st' : Stage} (h : st'.Refused) : Performed p db a st db st'
  | counting (input : BeginPutInput)
      (h : matchesPrev (db.getLive input.key) input.prevVersion input.prevIncarnation) :
      Performed p db a (.beginGetLive input) db (.beginCountLive input)
  | matched (input : BeginPutInput)
      (h : matchesPrev (db.getLive input.key) input.prevVersion input.prevIncarnation) :
      Performed p db a (.beginGetLive input) db (.beginEnsureWorkspace input)
  | counted (input : BeginPutInput) :
      Performed p db a (.beginCountLive input) db (.beginEnsureWorkspace input)
  | minted (input : BeginPutInput) (hfresh : a.id ∉ db.drawn) :
      Performed p db a (.beginEnsureWorkspace input) (db.draw a.id)
        (.beginInsertStaging input a.id a.now)
  | inserted (input : BeginPutInput) (stagingId : String) (begunAt : ℤ) :
      Performed p db a (.beginInsertStaging input stagingId begunAt)
        { db with staging := db.staging.insert (input.key, stagingId) (input.row begunAt) }
        (.beginOk input stagingId)
  | selected (input : CommitPutInput) (staging : StagingRow)
      (hrow : db.selectStaging input.key input.stagingId = some staging) :
      Performed p db a (.commitSelectStaging input) db (.commitStatStaging input staging)
  | observed (input : CommitPutInput) (staging : StagingRow)
      (hrow : db.selectStaging input.key input.stagingId = some staging) :
      Performed p db a (.commitSelectStaging input) db (.commitGetLive input staging)
  | sized (input : CommitPutInput) (staging : StagingRow) :
      Performed p db a (.commitStatStaging input staging) db (.commitGetLive input staging)
  | current (input : CommitPutInput) (staging : StagingRow)
      (h : matchesPrev (db.getLive input.key) staging.prevVersion staging.prevIncarnation) :
      Performed p db a (.commitGetLive input staging) db
        (.commitPromote input staging ((db.getLive input.key).map (·.version)))
  | promoted (input : CommitPutInput) (staging : StagingRow) (liveVersion : Option ℤ)
      (hok : a.ok = true) (hfresh : a.id ∉ db.drawn) :
      Performed p db a (.commitPromote input staging liveVersion) (db.draw a.id)
        (.commitCAS input staging (liveVersion.getD 0 + 1) a.id a.now)
  | lost (input : CommitPutInput) (staging : StagingRow) (nextVersion : ℤ)
      (freshIncarnation : String) (putAt : ℤ) :
      Performed p db a (.commitCAS input staging nextVersion freshIncarnation putAt) db
        (.commitReread input)
  | won (input : CommitPutInput) (staging : StagingRow) (nextVersion : ℤ)
      (freshIncarnation : String) (putAt : ℤ) (row : ObjectRow) (db' : Store)
      (h : commitStatement p db input staging nextVersion freshIncarnation putAt =
        some (db', row)) :
      Performed p db a (.commitCAS input staging nextVersion freshIncarnation putAt) db'
        (.commitUnlinkStaging input staging row)
  | unlinked (input : CommitPutInput) (staging : StagingRow) (row : ObjectRow) :
      Performed p db a (.commitUnlinkStaging input staging row) db
        (.commitDeleteStaging input staging row)
  | unstaged (input : CommitPutInput) (staging : StagingRow) (row : ObjectRow) :
      Performed p db a (.commitDeleteStaging input staging row)
        (db.deleteStaging input.key input.stagingId) (.commitOk input staging row)
  | aborting (key : Key) (stagingId : String) :
      Performed p db a (.abortUnlinkStaging key stagingId) db (.abortDeleteStaging key stagingId)
  | aborted (key : Key) (stagingId : String) :
      Performed p db a (.abortDeleteStaging key stagingId) (db.deleteStaging key stagingId)
        .abortDone
  | absent (key : Key) (prevIncarnation : Option String) :
      Performed p db a (.deleteGetLive key none prevIncarnation) db
        (.deleteOk key none prevIncarnation 0)
  | found (key : Key) (prevVersion : Option ℤ) (prevIncarnation : Option String)
      (live : ObjectRow) (h : matchesPrev (some live) prevVersion prevIncarnation) :
      Performed p db a (.deleteGetLive key prevVersion prevIncarnation) db
        (.deleteCAS key prevVersion prevIncarnation live)
  | changed (key : Key) (prevVersion : Option ℤ) (prevIncarnation : Option String)
      (live : ObjectRow) :
      Performed p db a (.deleteCAS key prevVersion prevIncarnation live) db (.deleteReread key)
  | deleted (key : Key) (prevVersion : Option ℤ) (prevIncarnation : Option String)
      (live : ObjectRow) (db' : Store)
      (h : db.deleteLiveCAS p key live.version live.incarnation = some db') :
      Performed p db a (.deleteCAS key prevVersion prevIncarnation live) db'
        (.deleteOk key prevVersion prevIncarnation live.version)

variable {st : Stage} {input : CommitPutInput} {staging : StagingRow} {freshIncarnation i : String}
  {l : StoreLabel} {db db' : Store} {p : ℕ}

/-- **What an await does**, once for all that is proved of it. -/
theorem performed {a : Answer} {st' : Stage}
    (h : perform p db a st = some (db', st')) : Performed p db a st db' st' := by
  cases st with
  | beginGetLive input =>
    simp only [perform] at h
    split_ifs at h with hmatch
    · cases h
      exact .counting input hmatch
    · cases h
      exact .matched input hmatch
    · cases h
      exact .refused _ (.begin _)
  | beginCountLive input =>
    simp only [perform] at h
    split_ifs at h
    · cases h
      exact .refused _ (.begin _)
    · cases h
      exact .counted input
  | beginEnsureWorkspace input =>
    simp only [perform] at h
    split_ifs at h with hfresh
    cases h
    exact .minted input hfresh
  | beginInsertStaging input stagingId begunAt =>
    simp only [perform, insertStaging] at h
    split_ifs at h
    · cases h
      exact .refused _ .failed
    · cases h
      exact .inserted input stagingId begunAt
  | commitSelectStaging input =>
    simp only [perform] at h
    split at h
    · cases h
      exact .refused _ (.commit _ _)
    · rename_i staging hrow
      split at h
      · cases h
        exact .selected input staging hrow
      · simp only [commitSized] at h
        split_ifs at h
        · cases h
          exact .observed input staging hrow
        · cases h
          exact .refused _ (.commit _ _)
  | commitStatStaging input staging =>
    simp only [perform] at h
    split at h
    · cases h
      exact .refused _ (.commit _ _)
    · simp only [commitSized] at h
      split_ifs at h
      · cases h
        exact .sized input staging
      · cases h
        exact .refused _ (.commit _ _)
  | commitGetLive input staging =>
    simp only [perform] at h
    split_ifs at h with hmatch
    · cases h
      exact .current input staging hmatch
    · cases h
      exact .refused _ (.commit _ _)
  | commitPromote input staging liveVersion =>
    simp only [perform] at h
    split_ifs at h with hok hfresh
    · cases h
      exact .promoted input staging liveVersion hok hfresh
    · cases h
      exact .refused _ (.commit _ _)
  | commitCAS input staging nextVersion freshIncarnation putAt =>
    simp only [perform] at h
    split at h
    · cases h
      exact .lost input staging nextVersion freshIncarnation putAt
    · rename_i hcas
      cases h
      exact .won input staging nextVersion freshIncarnation putAt _ _ hcas
  | commitReread input =>
    cases h
    exact .refused _ (.commit _ _)
  | commitUnlinkStaging input staging row =>
    cases h
    exact .unlinked input staging row
  | commitDeleteStaging input staging row =>
    cases h
    exact .unstaged input staging row
  | abortUnlinkStaging key stagingId =>
    cases h
    exact .aborting key stagingId
  | abortDeleteStaging key stagingId =>
    cases h
    exact .aborted key stagingId
  | deleteGetLive key prevVersion prevIncarnation =>
    simp only [perform] at h
    split at h
    · split_ifs at h with hprev
      · cases h
        subst hprev
        exact .absent key prevIncarnation
      · cases h
        exact .refused _ (.delete _)
    · rename_i live _
      split_ifs at h with hmatch
      · cases h
        exact .found key prevVersion prevIncarnation live hmatch
      · cases h
        exact .refused _ (.delete _)
  | deleteCAS key prevVersion prevIncarnation live =>
    simp only [perform] at h
    split at h
    · cases h
      exact .changed key prevVersion prevIncarnation live
    · rename_i hcas
      cases h
      exact .deleted key prevVersion prevIncarnation live _ hcas
  | deleteReread key =>
    simp only [perform] at h
    split at h
    · cases h
      exact .refused _ (.delete _)
    · cases h
      exact .refused _ (.delete _)
  | idle | beginOk | beginRefused | commitOk | commitRefused | abortDone | deleteOk
  | deleteRefused | failed => cases h

/-- What an await does to the tables. -/
inductive TableStep (p : ℕ) (db : Store) (a : Answer) (st : Stage) : Store → Prop
  | read : TableStep p db a st db
  | draw (hfresh : a.id ∉ db.drawn) : TableStep p db a st (db.draw a.id)
  | stage (input : BeginPutInput) (stagingId : String) (begunAt : ℤ)
      (hst : st = .beginInsertStaging input stagingId begunAt) :
      TableStep p db a st
        { db with staging := db.staging.insert (input.key, stagingId) (input.row begunAt) }
  | unstage (key : Key) (stagingId : String) : TableStep p db a st (db.deleteStaging key stagingId)
  | commit (input : CommitPutInput) (staging : StagingRow) (nextVersion : ℤ)
      (freshIncarnation : String) (putAt : ℤ) (row : ObjectRow) (db' : Store)
      (hst : st = .commitCAS input staging nextVersion freshIncarnation putAt)
      (h : commitStatement p db input staging nextVersion freshIncarnation putAt =
        some (db', row)) : TableStep p db a st db'
  | delete (key : Key) (prevVersion : Option ℤ) (prevIncarnation : Option String)
      (live : ObjectRow) (db' : Store) (hst : st = .deleteCAS key prevVersion prevIncarnation live)
      (h : db.deleteLiveCAS p key live.version live.incarnation = some db') :
      TableStep p db a st db'

theorem perform_tableStep {a : Answer} {st' : Stage}
    (h : perform p db a st = some (db', st')) : TableStep p db a st db' := by
  cases performed h with
  | minted input hfresh => exact .draw hfresh
  | inserted input stagingId begunAt => exact .stage input stagingId begunAt rfl
  | promoted input staging liveVersion hok hfresh => exact .draw hfresh
  | won input staging nextVersion freshIncarnation putAt row _ hcas =>
    exact .commit input staging nextVersion freshIncarnation putAt row db' rfl hcas
  | deleted key prevVersion prevIncarnation live _ hcas =>
    exact .delete key prevVersion prevIncarnation live db' rfl hcas
  | unstaged input staging row => exact .unstage input.key input.stagingId
  | aborted key stagingId => exact .unstage key stagingId
  | _ => exact .read

/-- A commit writes nothing but the live row. -/
theorem commitStatement_frame {nextVersion : ℤ} {putAt : ℤ} {row : ObjectRow}
    (h : commitStatement p db input staging nextVersion freshIncarnation putAt = some (db', row)) :
    db'.staging = db.staging ∧ db'.drawn = db.drawn := by
  unfold commitStatement insertLiveIfAbsent updateLiveCAS at h
  repeat' split at h
  all_goals cases h
  all_goals exact ⟨rfl, rfl⟩

/-- The winner of the version-CAS found exactly the row its put was staged against. -/
theorem commitStatement_spec {nextVersion : ℤ} {putAt : ℤ}
    {row : ObjectRow} (hpair : Paired staging.prevVersion staging.prevIncarnation)
    (hnext : nextVersion = staging.prevVersion.getD 0 + 1)
    (h : commitStatement p db input staging nextVersion freshIncarnation putAt = some (db', row)) :
    db' = db.setLive p input.key (some row) ∧ row.version = nextVersion ∧
      matchesPrev (db.live input.key) staging.prevVersion staging.prevIncarnation ∧
      (db.live input.key = none ∧ row.incarnation = freshIncarnation ∨
        ∃ r, db.live input.key = some r ∧ row.incarnation = r.incarnation) := by
  unfold commitStatement at h
  split at h
  · rename_i hv
    rw [insertLiveIfAbsent] at h
    split_ifs at h with hsome
    · cases h
    · have hnone : db.live input.key = none := by simpa using hsome
      have hi : staging.prevIncarnation = none := by simpa [Paired, hv] using hpair
      simp only [map_some, Option.some.injEq, Prod.mk.injEq] at h
      obtain ⟨rfl, rfl⟩ := h
      have hone : nextVersion = 1 := by simp [hnext, hv]
      subst hone
      exact ⟨rfl, rfl, by simp [matchesPrev, hnone, hv, hi], .inl ⟨hnone, rfl⟩⟩
  · rename_i v i hv hi
    rw [updateLiveCAS] at h
    split at h
    · cases h
    · rename_i r hr
      split_ifs at h with hmatch
      · obtain ⟨rfl, rfl⟩ := hmatch
        simp only [map_some, Option.some.injEq, Prod.mk.injEq] at h
        obtain ⟨rfl, rfl⟩ := h
        exact ⟨rfl, rfl, by simp [matchesPrev, hr, hv, hi], .inr ⟨r, hr, rfl⟩⟩
      · cases h
  · cases h

theorem deleteLiveCAS_spec {key : Key} {v : ℤ} (h : db.deleteLiveCAS p key v i = some db') :
    db' = db.setLive p key none ∧
      ∃ r, db.live key = some r ∧ r.version = v ∧ r.incarnation = i := by
  unfold deleteLiveCAS at h
  split at h
  · cases h
  · rename_i r hr
    split_ifs at h with hmatch
    cases h
    exact ⟨rfl, r, hr, hmatch⟩

variable {s s' : StoreState} {p : ℕ} {a : Answer} {db' : Store} {st' : Stage}

/-- The staging row of a commit under way is paired. -/
theorem StoreInv.paired (hinv : StoreInv s)
    (h : (s.calls p).staged = some (input.stagingId, staging.staged input.key)) :
    Paired staging.prevVersion staging.prevIncarnation :=
  hinv.named_paired _ _ (.call p h)

theorem perform_liveStep (hinv : StoreInv s)
    (h : perform p s.db a (s.calls p) = some (db', st')) : LiveStep s p db' st' := by
  cases perform_tableStep h with
  | read => exact .same rfl rfl
  | draw _ => exact .same rfl rfl
  | stage => exact .same rfl rfl
  | unstage => exact .same rfl rfl
  | commit input staging nextVersion freshIncarnation putAt row _ hst hcas =>
    have hholds := hinv.holds p
    rw [hst] at hholds
    obtain ⟨-, hnext⟩ : s.db.changesOf p = [] ∧ nextVersion = staging.prevVersion.getD 0 + 1 :=
      hholds
    have hstaged : (s.calls p).staged = some (input.stagingId, staging.staged input.key) := by
      rw [hst]
      rfl
    have hpair := hinv.paired hstaged
    obtain ⟨rfl, hver, hprev, hinc⟩ := commitStatement_spec hpair hnext hcas
    have hst' : st' = .commitUnlinkStaging input staging row := by
      rw [hst] at h
      simp only [perform, hcas, Option.some.injEq, Prod.mk.injEq] at h
      exact h.2.symm
    have hpending : (s.calls p).pending = some freshIncarnation := by
      rw [hst]
      rfl
    refine .change input.key (some row) rfl rfl ?_ ?_ (by rw [hst']; rfl)
    · rcases hinc with ⟨hnone, hinc⟩ | ⟨r, hr, hinc⟩
      · rw [hnone]
        refine .create ?_ ?_ fun r' hr' => ?_
        · rw [← hinv.live, hnone]
        · have hv : staging.prevVersion = none := by simpa [hnone] using hprev.1.symm
          simp [rowStamp, hver, hnext, hv]
        · change r'.incarnation ≠ row.incarnation
          rw [hinc]
          exact hinv.pending_fresh p _ hpending r' hr'
      · rw [hr]
        refine .update ?_ ?_ hinc
        · rw [← hinv.live, hr]
        · have hv : staging.prevVersion = some r.version := by simpa [hr] using hprev.1.symm
          simp [rowStamp, hver, hnext, hv]
    · rintro r hr
      cases hr
      rcases hinc with ⟨-, hinc⟩ | ⟨r, hr, hinc⟩
      · exact .inr (hinc ▸ hpending)
      · refine .inl ⟨r, hinv.lawful.latest.mem input.key r ?_, hinc.symm⟩
        rw [← hinv.live, hr]
  | delete key prevVersion prevIncarnation live _ hst hcas =>
    obtain ⟨rfl, r, hr, -⟩ := deleteLiveCAS_spec hcas
    have hst' : st' = .deleteOk key prevVersion prevIncarnation live.version := by
      rw [hst] at h
      simp only [perform, hcas, Option.some.injEq, Prod.mk.injEq] at h
      exact h.2.symm
    refine .change key none rfl rfl ?_ (by simp) (by rw [hst']; rfl)
    rw [hr]
    exact .remove (by rw [← hinv.live, hr])

section

variable (h : perform p s.db a (s.calls p) = some (db', st'))
include h

theorem perform_rows (key : Key)
    (sid : String) (r : StagingRow) (hr : db'.staging (key, sid) = some r) :
    Named s sid (r.staged key) := by
  have hold : ∀ db : Store, db.staging = s.db.staging → db.staging (key, sid) = some r →
      Named s sid (r.staged key) := fun db hdb hdr => .row r (by rw [← hdb]; exact hdr) rfl
  cases perform_tableStep h with
  | read => exact hold _ rfl hr
  | draw _ => exact hold _ rfl hr
  | stage input stagingId begunAt hst =>
    rw [FMap.insert_apply] at hr
    split_ifs at hr with hk
    · cases hr
      cases hk
      exact .call p (by rw [hst]; rfl)
    · exact hold s.db rfl hr
  | unstage key' stagingId =>
    rw [deleteStaging, FMap.erase_apply] at hr
    split_ifs at hr
    exact hold s.db rfl hr
  | commit input staging nextVersion freshIncarnation putAt row _ hst hcas =>
    exact hold db' (commitStatement_frame hcas).1 hr
  | delete key' prevVersion prevIncarnation live _ hst hcas =>
    obtain ⟨rfl, -⟩ := deleteLiveCAS_spec hcas
    exact hold _ rfl hr

theorem perform_drawn : s.db.drawn ⊆ db'.drawn := by
  cases perform_tableStep h with
  | read => exact subset_rfl
  | draw _ => exact Finset.subset_insert _ _
  | stage => exact subset_rfl
  | unstage => exact subset_rfl
  | commit input staging nextVersion freshIncarnation putAt row _ hst hcas =>
    rw [(commitStatement_frame hcas).2]
  | delete key' prevVersion prevIncarnation live _ hst hcas =>
    obtain ⟨rfl, -⟩ := deleteLiveCAS_spec hcas
    exact subset_rfl

end

theorem Stage.Refused.staged (h : st.Refused) : st.staged = none := by
  cases h <;> rfl

theorem Stage.Refused.pending (h : st.Refused) : st.pending = none := by
  cases h <;> rfl

theorem Stage.Refused.holds (h : st.Refused) (changes : Changes) : st.Holds changes := by
  cases h <;> trivial

/-- A stage that holds a staging id has it from the stage before, from the table, or has just drawn
it. -/
theorem perform_staged (hinv : StoreInv s) (h : perform p s.db a (s.calls p) = some (db', st'))
    {sid : String} {x : Staged} (hx : st'.staged = some (sid, x)) :
    Named s sid x ∨
      sid ∉ s.db.drawn ∧ sid ∈ db'.drawn ∧ Paired x.prevVersion x.prevIncarnation := by
  have hholds := hinv.holds p
  have hcall : (s.calls p).staged = some (sid, x) → Named s sid x := fun h => .call p h
  generalize s.calls p = st at h hholds hcall
  cases performed h with
  | refused _ hrefused =>
    rw [hrefused.staged] at hx
    cases hx
  | minted input hfresh =>
    cases hx
    exact .inr ⟨hfresh, Finset.mem_insert_self _ _, hholds⟩
  | selected input staging hrow | observed input staging hrow =>
    cases hx
    exact .inl (.row staging hrow rfl)
  | inserted | sized | current | promoted | won | unlinked | unstaged =>
    cases hx
    exact .inl (hcall rfl)
  | _ => cases hx

/-- Only a promotion draws an incarnation. -/
theorem perform_pending {db : Store} (h : perform p db a st = some (db', st'))
    (hi : st'.pending = some i) : i ∉ db.drawn ∧ i ∈ db'.drawn := by
  cases performed h with
  | refused _ hrefused =>
    rw [hrefused.pending] at hi
    cases hi
  | promoted input staging liveVersion hok hfresh =>
    cases hi
    exact ⟨hfresh, Finset.mem_insert_self _ _⟩
  | _ => cases hi

theorem perform_nameStep (hinv : StoreInv s)
    (h : perform p s.db a (s.calls p) = some (db', st')) : NameStep s p db' st' where
  drawn := perform_drawn h
  rows := perform_rows h
  staged _ _ hx := perform_staged hinv h hx
  pending _ hi := .inr (perform_pending h hi)

theorem perform_holds (hinv : StoreInv s) (h : perform p s.db a (s.calls p) = some (db', st')) :
    st'.Holds (db'.changesOf p) := by
  have hholds := hinv.holds p
  have hpair : ∀ input staging, (s.calls p).staged =
      some (input.stagingId, StagingRow.staged staging (CommitPutInput.key input)) →
      Paired staging.prevVersion staging.prevIncarnation := fun _ _ h => hinv.paired h
  generalize s.calls p = st at h hholds hpair
  cases performed h with
  | refused _ hrefused => exact hrefused.holds _
  | counting input hmatch | matched input hmatch =>
    change Paired input.prevVersion input.prevIncarnation
    rw [Paired, ← hmatch.1, ← hmatch.2, isSome_map, isSome_map]
  | current input staging hmatch => exact ⟨hholds, hmatch.1⟩
  | promoted input staging liveVersion hok hfresh =>
    obtain ⟨hnil, hlv⟩ : s.db.changesOf p = [] ∧ liveVersion = staging.prevVersion := hholds
    exact ⟨hnil, by rw [hlv]⟩
  | won input staging nextVersion freshIncarnation putAt row _ hcas =>
    obtain ⟨hnil, hnext⟩ : s.db.changesOf p = [] ∧ nextVersion = staging.prevVersion.getD 0 + 1 :=
      hholds
    obtain ⟨rfl, hver, hprev, hinc⟩ := commitStatement_spec (hpair input staging rfl) hnext hcas
    refine ⟨⟨s.db.live input.key, ?_, hprev⟩, hver.trans hnext, fun i hi => ?_⟩
    · rw [changesOf_setLive_self, hnil, nil_append]
    · rcases hinc with ⟨hnone, -⟩ | ⟨r, hr, hinc⟩
      · rw [hnone, hi] at hprev
        cases hprev.2
      · rw [hr, hi] at hprev
        rw [hinc]
        exact some.inj hprev.2
  | absent key prevIncarnation => exact .nothing hholds rfl rfl
  | found key prevVersion prevIncarnation live hmatch => exact ⟨hholds, hmatch⟩
  | deleted key prevVersion prevIncarnation live _ hcas =>
    obtain ⟨hnil, hprev⟩ :
      s.db.changesOf p = [] ∧ matchesPrev (some live) prevVersion prevIncarnation := hholds
    obtain ⟨rfl, r, hr, hver, hinc⟩ := deleteLiveCAS_spec hcas
    refine .removed r ?_ ?_ hver.symm
    · rw [changesOf_setLive_self, hnil, nil_append, hr]
    · rw [matchesPrev, map_some, map_some, hver, hinc]
      exact hprev
  | counted | selected | observed | sized | unlinked | unstaged => exact hholds
  | minted | inserted | lost | aborting | aborted | changed => trivial

/-! ### Every step -/

/-- A stage that holds no staging id, no incarnation and no fact. -/
structure Stage.Silent (st : Stage) : Prop where
  staged : st.staged = none
  pending : st.pending = none

theorem thrown_silent (st : Stage) : st.thrown.Silent := by
  cases st <;> exact ⟨rfl, rfl⟩

theorem thrown_holds (st : Stage) (changes : Changes) : st.thrown.Holds changes := by
  cases st <;> trivial

theorem LiveStep.silent {st'' : Stage} (h : LiveStep s p db' st') (hs : st''.Silent) :
    LiveStep s p db' st'' := by
  cases h with
  | same hlive hlog => exact .same hlive hlog
  | change key after hlive hlog hlegal hinc _ =>
    exact .change key after hlive hlog hlegal hinc hs.pending

theorem NameStep.silent {st'' : Stage} (h : NameStep s p db' st') (hs : st''.Silent) :
    NameStep s p db' st'' where
  drawn := h.drawn
  rows := h.rows
  staged sid x hx := by
    rw [hs.staged] at hx
    cases hx
  pending i hi := by
    rw [hs.pending] at hi
    cases hi

theorem nameStep_refl (s : StoreState) (p : ℕ) : NameStep s p s.db (s.calls p) where
  drawn := subset_rfl
  rows _ _ r hr := .row r hr rfl
  staged _ _ hx := .inl (.call p hx)
  pending _ hi := .inl hi

/-- What any step is: one call moves (or, for the steps of no call, stays where it is). -/
inductive Move (s : StoreState) : StoreState → Prop
  | mk (p : ℕ) (db' : Store) (st' : Stage) (live : LiveStep s p db' st')
      (name : NameStep s p db' st') (holds : st'.Holds (db'.changesOf p)) :
      Move s ({ s with db := db' }.setCall p st')

section

variable (hinv : StoreInv s)
include hinv

/-- A call that has not been made yet starts. -/
theorem StoreInv.start (h : s.start p st = some s')
    (hs : st.Silent) (hh : st.Holds []) : Move s s' := by
  unfold StoreState.start at h
  split_ifs at h with hidle
  cases h
  -- a call that was not made has changed nothing:
  have hnil : s.db.changesOf p = [] := by
    have hholds := hinv.holds p
    rw [hidle] at hholds
    exact hholds
  exact .mk p s.db st (.same rfl rfl) ((nameStep_refl s p).silent hs) (by rw [hnil]; exact hh)

/-- The calls stay where they are, and the staging rows stand for what they stood for. -/
theorem StoreInv.restage {staging : FMap (Key × String) StagingRow}
    (h : ∀ key sid r, staging (key, sid) = some r →
      ∃ r₀, s.db.staging (key, sid) = some r₀ ∧ r₀.staged key = r.staged key) :
    Move s { s with db := { s.db with staging := staging } } := by
  have hs : ({ s with db := { s.db with staging := staging } } : StoreState) =
      { s with db := { s.db with staging := staging } }.setCall 0 (s.calls 0) := by
    simp [StoreState.setCall]
  rw [hs]
  refine .mk 0 _ _ (.same rfl rfl) ⟨subset_rfl, fun key sid r hr => ?_, ?_, ?_⟩ (hinv.holds 0)
  · obtain ⟨r₀, hr₀, heq⟩ := h key sid r hr
    rw [← heq]
    exact .row r₀ hr₀ rfl
  · exact (nameStep_refl s 0).staged
  · exact (nameStep_refl s 0).pending

theorem store_step_move (h : storeMachine.step s l = some s') : Move s s' := by
  cases l with
  | beginPut p input => exact hinv.start h ⟨rfl, rfl⟩ trivial
  | commitPut p input => exact hinv.start h ⟨rfl, rfl⟩ rfl
  | abortPut p key stagingId => exact hinv.start h ⟨rfl, rfl⟩ trivial
  | deleteObject p key prevVersion prevIncarnation => exact hinv.start h ⟨rfl, rfl⟩ rfl
  | await p a =>
    simp only [storeMachine, map_eq_some_iff] at h
    obtain ⟨⟨db', st'⟩, hperf, rfl⟩ := h
    exact .mk p db' st' (perform_liveStep hinv hperf) (perform_nameStep hinv hperf)
      (perform_holds hinv hperf)
  | throws p a applied =>
    simp only [storeMachine, map_eq_some_iff] at h
    obtain ⟨⟨db', st'⟩, hperf, rfl⟩ := h
    have hs := thrown_silent (s.calls p)
    cases applied with
    | false =>
      exact .mk p s.db _ (.same rfl rfl) ((nameStep_refl s p).silent hs) (thrown_holds _ _)
    | true =>
      exact .mk p db' _ ((perform_liveStep hinv hperf).silent hs)
        ((perform_nameStep hinv hperf).silent hs) (thrown_holds _ _)
  | cutOff p =>
    cases h
    exact .mk p s.db .failed (.same rfl rfl) ((nameStep_refl s p).silent ⟨rfl, rfl⟩) trivial
  | refreshStaging begunAt key stagingId =>
    cases h
    unfold refreshStagingBegunAt
    split
    · exact hinv.restage fun _ _ r hr => ⟨r, hr, rfl⟩
    · rename_i row hrow
      refine hinv.restage fun key' sid r hr => ?_
      rw [FMap.insert_apply] at hr
      split_ifs at hr with hk
      · cases hr
        cases hk
        exact ⟨row, hrow, rfl⟩
      · exact ⟨r, hr, rfl⟩
  | reapStaging key stagingId staleBefore =>
    cases h
    unfold deleteStagingIfStale
    split
    · exact hinv.restage fun _ _ r hr => ⟨r, hr, rfl⟩
    · split_ifs
      · refine hinv.restage fun key' sid r hr => ?_
        rw [FMap.erase_apply] at hr
        split_ifs at hr
        exact ⟨r, hr, rfl⟩
      · exact hinv.restage fun _ _ r hr => ⟨r, hr, rfl⟩

theorem storeInv_step (h : storeMachine.step s l = some s') : StoreInv s' := by
  obtain ⟨p, db', st', hl, hn, hh⟩ := store_step_move hinv h
  exact hinv.move hl hn hh

end

/-- A step leaves the live table alone, or replaces one row and records it. -/
inductive Atomic (s s' : StoreState) : Prop
  | same (hlive : s'.db.live = s.db.live) (hlog : s'.db.log = s.db.log)
  | change (p : ℕ) (key : Key) (after : Option ObjectRow)
      (hlive : ∀ k, s'.db.live k = if key = k then after else s.db.live k)
      (hlog : s'.db.log = s.db.log ++ [⟨p, ⟨key, s.db.live key, after⟩⟩])
      (hlegal : VersionedLog.Legal rowStamp s.db.entries ⟨key, s.db.live key, after⟩)

theorem store_step_atomic (hinv : StoreInv s)
    (h : storeMachine.step s l = some s') : Atomic s s' := by
  obtain ⟨p, db', st', hl, -, -⟩ := store_step_move hinv h
  cases hl with
  | same hlive hlog => exact .same hlive hlog
  | change key after hlive hlog hlegal _ _ =>
    refine .change p key after (fun k => ?_) hlog hlegal
    change db'.live k = _
    rw [hlive, live_setLive]

/-- **The live table refines the versioned log.** -/
noncomputable def storeSimulation :
    Machine.Simulation storeMachine (VersionedLog.machine (K := Key) rowStamp) where
  inv := StoreInv
  abs s := s.db.entries
  inv_step hinv h := storeInv_step hinv h
  abs_step {s a s'} hinv h := by
    cases store_step_atomic hinv h with
    | same _ hlog => exact .inl (by rw [Store.entries, hlog, Store.entries])
    | change p key after _ hlog hlegal =>
      refine .inr ⟨⟨key, s.db.live key, after⟩, ?_⟩
      rw [Store.entries, Store.entries, hlog, map_append, VersionedLog.machine]
      exact if_pos hlegal

/-! ### Linearizability -/

/-- What the calls that have returned success have done. -/
structure Linearizable (s : StoreState) : Prop where
  /-- The recorded changes replay to the live table. -/
  live : ∀ key, s.db.live key = VersionedLog.current s.db.entries key
  /-- Each change creates a row at version one under a fresh incarnation, or raises the version of
  a row by one within its incarnation, or removes a row. -/
  lawful : VersionedLog.Lawful rowStamp s.db.entries
  /-- A commit made one change, from exactly the precondition in its staging row. -/
  commit : ∀ p input staging row, s.calls p = .commitOk input staging row →
    Committed (s.db.changesOf p) input staging row
  /-- Its staging row is the one the begin with its staging id has written. -/
  staged : ∀ p q input staging row binput sid, s.calls p = .commitOk input staging row →
    s.calls q = .beginOk binput sid → input.stagingId = sid →
    staging.staged input.key = binput.staged
  /-- No two commits produced the same incarnation and version. -/
  distinct : ∀ p q input staging row input' staging' row', p ≠ q →
    s.calls p = .commitOk input staging row → s.calls q = .commitOk input' staging' row' →
    (row.incarnation, row.version) ≠ (row'.incarnation, row'.version)
  /-- A delete that returned a version other than `0` made one change: it removed exactly the row
  its precondition names, and that was its version. -/
  delete : ∀ p key prevVersion prevIncarnation deletedVersion,
    s.calls p = .deleteOk key prevVersion prevIncarnation deletedVersion → deletedVersion ≠ 0 →
    ∃ row, s.db.changesOf p = [⟨key, some row, none⟩] ∧
      matchesPrev (some row) prevVersion prevIncarnation ∧ deletedVersion = row.version
  /-- A delete that returned `0` was given the null precondition and changed nothing. -/
  delete_nothing : ∀ p key prevVersion prevIncarnation,
    s.calls p = .deleteOk key prevVersion prevIncarnation 0 →
    prevVersion = none ∧ s.db.changesOf p = []

theorem mem_of_changesOf {db : Store} {e : VersionedLog.Entry Key ObjectRow}
    (h : db.changesOf p = [e]) : ∃ c ∈ db.log, c.call = p ∧ c.entry = e := by
  have hmem : e ∈ db.changesOf p := by
    rw [h]
    exact mem_singleton_self e
  obtain ⟨c, hc, rfl⟩ := List.mem_map.mp hmem
  obtain ⟨hc, hcall⟩ := mem_filter.mp hc
  exact ⟨c, hc, by simpa using hcall, rfl⟩

/-- Changes made by different calls produce different incarnations or versions. -/
theorem StoreInv.stamp_ne (hinv : StoreInv s) {c c' : Change} (hc : c ∈ s.db.log)
    (hc' : c' ∈ s.db.log) (hne : c.call ≠ c'.call) {row row' : ObjectRow}
    (hrow : c.entry.after = some row) (hrow' : c'.entry.after = some row') :
    (row.incarnation, row.version) ≠ (row'.incarnation, row'.version) := by
  have hnodup := hinv.lawful.produced_nodup
  rw [produced, entries, filterMap_map, map_filterMap] at hnodup
  intro heq
  refine hne (congrArg Change.call (eq_of_nodup_filterMap hnodup hc hc'
    (b := (row.incarnation, row.version)) ?_ ?_))
  · simp [hrow, rowStamp]
  · simp [hrow', rowStamp, heq]

theorem StoreInv.linearizable (hinv : StoreInv s) : Linearizable s where
  live := hinv.live
  lawful := hinv.lawful
  commit p input staging row hp := by
    have hholds := hinv.holds p
    rw [hp] at hholds
    exact hholds
  staged p q input staging row binput sid hp hq hsid := by
    subst hsid
    refine hinv.named_inj input.stagingId _ _ (.call p ?_) (.call q ?_)
    · rw [hp]
      rfl
    · rw [hq]
      rfl
  distinct p q input staging row input' staging' row' hpq hp hq := by
    have hcp := hinv.holds p
    have hcq := hinv.holds q
    rw [hp] at hcp
    rw [hq] at hcq
    obtain ⟨before, hbefore, -⟩ := Committed.changes hcp
    obtain ⟨before', hbefore', -⟩ := Committed.changes hcq
    obtain ⟨c, hc, rfl, hentry⟩ := mem_of_changesOf hbefore
    obtain ⟨c', hc', rfl, hentry'⟩ := mem_of_changesOf hbefore'
    exact hinv.stamp_ne hc hc' hpq (by rw [hentry]) (by rw [hentry'])
  delete p key prevVersion prevIncarnation deletedVersion hp hne := by
    have hholds := hinv.holds p
    rw [hp] at hholds
    cases hholds with
    | nothing _ _ hver => exact absurd hver hne
    | removed row h hprev hver => exact ⟨row, h, hprev, hver⟩
  delete_nothing p key prevVersion prevIncarnation hp := by
    have hholds := hinv.holds p
    rw [hp] at hholds
    cases hholds with
    | nothing h hprev _ => exact ⟨hprev, h⟩
    | removed row h _ hver =>
      obtain ⟨c, hc, -, hentry⟩ := mem_of_changesOf h
      have hle := hinv.lawful.one_le_version (hinv.lawful.before_mem_produced
        (List.mem_map_of_mem hc) (r := row) (by rw [hentry]))
      exact absurd hver (by simp only [rowStamp] at hle; omega)

/-- **The object store is linearizable.**  Whatever the interleaving, in every reachable state the
puts and deletes that have returned success have done what their preconditions say, and every step
replaces at most one live row, at once. -/
theorem objects_linearizable (h : storeMachine.Reachable .init s) :
    Linearizable s ∧ ∀ l s', storeMachine.step s l = some s' → Atomic s s' := by
  have hinv : StoreInv s := storeSimulation.inv_reachable storeInv_init h
  exact ⟨hinv.linearizable, fun l s' hst => store_step_atomic hinv hst⟩

/-- A resource of a workspace. -/
def sampleKey : Key := ⟨"ws", "r"⟩

/-- A put of three bytes. -/
def samplePut (prevVersion : Option ℤ) (prevIncarnation : Option String) (hash : String) :
    BeginPutInput := ⟨sampleKey, prevVersion, prevIncarnation, 3, hash, "sig"⟩

/-- The next await of call `p`; `id` is what it draws. -/
def next (p : ℕ) (id : String) : StoreLabel := .await p ⟨id, 0, none, true⟩

/-- A row is created and a second put is staged against it; before that put's version-CAS the row is
deleted and created again. -/
def recreateLabels : List StoreLabel :=
  [.beginPut 0 (samplePut none none "h0"), next 0 "", next 0 "", next 0 "s0", next 0 "",
   .commitPut 1 ⟨sampleKey, "s0", some 3⟩, next 1 "", next 1 "", next 1 "i0", next 1 "", next 1 "",
   next 1 "",
   .beginPut 2 (samplePut (some 1) (some "i0") "h1"), next 2 "", next 2 "s1", next 2 "",
   .commitPut 3 ⟨sampleKey, "s1", some 3⟩, next 3 "", next 3 "", next 3 "i1",
   .deleteObject 4 sampleKey (some 1) (some "i0"), next 4 "", next 4 "",
   .beginPut 5 (samplePut none none "h2"), next 5 "", next 5 "", next 5 "s2", next 5 "",
   .commitPut 6 ⟨sampleKey, "s2", some 3⟩, next 6 "", next 6 "", next 6 "i2", next 6 "", next 6 "",
   next 6 "",
   next 3 "", next 3 ""]

/-- The state the re-creation ends in. -/
def recreateEnd : StoreState := (storeMachine.run .init recreateLabels).getD .init

theorem recreateEnd_run : storeMachine.run .init recreateLabels = some recreateEnd := rfl

/-- The put staged against the deleted row is refused, though the new row has the same version. -/
theorem objects_linearizable_recreate :
    recreateEnd.calls 3 = .commitRefused ⟨sampleKey, "s1", some 3⟩
        (.conflict (some ⟨1, "i2", "h2", 3, "sig", 0⟩)) ∧
      recreateEnd.db.changesOf 3 = [] ∧ Linearizable recreateEnd :=
  ⟨by decide, by decide, (objects_linearizable (Machine.reachable_of_run recreateEnd_run)).1⟩

/-- Deleting what was never there. -/
def deleteAbsentLabels : List StoreLabel := [.deleteObject 0 sampleKey none none, next 0 ""]

/-- The state it ends in. -/
def deleteAbsentEnd : StoreState := (storeMachine.run .init deleteAbsentLabels).getD .init

theorem deleteAbsentEnd_run :
    storeMachine.run .init deleteAbsentLabels = some deleteAbsentEnd := rfl

/-- **A delete can return success without having removed a row.** -/
theorem delete_ok_without_row :
    ¬∀ s, storeMachine.Reachable .init s → ∀ p key prevVersion prevIncarnation deletedVersion,
      s.calls p = .deleteOk key prevVersion prevIncarnation deletedVersion →
      ∃ row, s.db.changesOf p = [⟨key, some row, none⟩] ∧
        matchesPrev (some row) prevVersion prevIncarnation := by
  intro h
  obtain ⟨row, hrow, -⟩ := h deleteAbsentEnd (Machine.reachable_of_run deleteAbsentEnd_run) 0
    sampleKey none none 0 rfl
  have hnil : deleteAbsentEnd.db.changesOf 0 = [] := by decide
  rw [hnil] at hrow
  cases hrow

end Triage.Objstore
