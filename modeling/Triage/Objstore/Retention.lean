import Triage.Objstore.Sweep

/-!
# Live rows have their bytes

A commit promotes its blob before it writes the row, and a sweep may find the blob in between. It
leaves it alone as long as the blob is younger than the grace period, whose age is measured from the
modification time in the listing. On the file system that is the time of the upload, not of the
promotion; and a listing that was made before a blob is promoted once more has its old time.

## Main results

* `live_blob_exists` : **in a run whose steps meet the conditions, every live row has its blob**.
* `upload_time_loses_blob` : it does not when only the time since the promotion is bounded.
-/

namespace Triage.Objstore

open Option Function PlaneState BlobStore FMap Stage

/-! ### Conditions -/

/-- A put that mints a staging id brings a content hash its workspace has not staged before. -/
def FreshHash (s : PlaneState) : PlaneLabel → Prop
  | .call (.await p _) _ =>
    match s.store.calls p with
    | .beginEnsureWorkspace input => s.minted (input.key.workspaceTag, input.contentHash) = none
    | _ => True
  | _ => True

/-- The version-CAS of a commit lands less than the grace period after `since`. -/
def InTime (grace : ℤ) (since : PlaneState → ℕ → ℤ) (s : PlaneState) : PlaneLabel → Prop
  | .call (.await p _) _ | .call (.throws p _ true) _ =>
    match s.store.calls p with
    | .commitCAS .. => s.clock < since s p + grace
    | _ => True
  | _ => True

instance (s : PlaneState) : ∀ l, Decidable (FreshHash s l) := by
  intro l
  unfold FreshHash
  split
  · split <;> infer_instance
  · infer_instance

instance (grace : ℤ) (since : PlaneState → ℕ → ℤ) (s : PlaneState) :
    ∀ l, Decidable (InTime grace since s l) := by
  intro l
  unfold InTime
  split
  · split <;> infer_instance
  · split <;> infer_instance
  · infer_instance

/-- No sweep has found the blob a commit is about to promote past the grace period. -/
def NotSwept (grace : ℤ) (s : PlaneState) : PlaneLabel → Prop
  | .call (.await p a) _ =>
    match s.store.calls p with
    | .commitPromote input staging _ => a.ok = true → ∀ w m,
      ¬(s.sweeps w).Holds grace input.key.workspaceTag staging.contentHash m
    | _ => True
  | _ => True

/-! ### The invariant -/

/-- What holds of a commit between its promotion and its version-CAS: until the grace period after
the modification time of the blob is over, the blob is there, and no sweep has found it older. -/
structure Awaiting (backend : Backend) (grace : ℤ) (s : PlaneState) (p : ℕ)
    (tag hash stagingId : String) : Prop where
  past : s.promoted p ≤ s.clock
  /-- What is promoted to the same address later has been modified later. -/
  staged : backend = .fs → ∀ f, s.blobs.staging (tag, stagingId) = some f →
    s.promoted p ≤ f.modified
  kept : s.promoted p + grace ≤ s.clock ∨
    (∃ m, s.blobs.live (tag, hash) = some m ∧ s.promoted p ≤ m) ∧
      ∀ w m, (s.sweeps w).Holds grace tag hash m → s.promoted p ≤ m

/-- What holds of every state reached under the conditions. -/
structure PlaneInv (backend : Backend) (grace : ℤ) (s : PlaneState) : Prop where
  minted_call : ∀ p k sid, (s.store.calls p).minted = some (k, sid) → s.minted k = some sid
  minted_row : ∀ key sid r, s.store.db.staging (key, sid) = some r →
    s.minted (key.workspaceTag, r.contentHash) = some sid
  staged_le : ∀ k f, s.blobs.staging k = some f → f.modified ≤ s.clock
  started_le : ∀ w now, (s.sweeps w).started = some now → now ≤ s.clock
  due : ∀ w plan tag hash m, (s.sweeps w).due = some (plan, tag, hash, m) →
    grace ≤ plan.now - m
  awaiting : ∀ p key hash sid, (s.store.calls p).writes = some (key, hash, sid) →
    Awaiting backend grace s p key.workspaceTag hash sid
  live : ∀ key row, s.store.db.live key = some row →
    (s.blobs.live (key.workspaceTag, row.contentHash)).isSome
  unreferenced : ∀ w tag hash, (s.sweeps w).unlinks = some (tag, hash) →
    hash ∉ liveHashSet s.store.db tag

theorem planeInv_init (backend : Backend) (grace : ℤ) : PlaneInv backend grace .init where
  minted_call p k sid h := by cases h
  minted_row key sid r h := by cases h
  staged_le k f h := by cases h
  started_le w now h := by cases h
  due w plan tag hash m h := by cases h
  awaiting p key hash sid h := by cases h
  live key row h := by cases h
  unreferenced w tag hash h := by cases h

variable {backend : Backend} {grace : ℤ} {s s' : PlaneState} {p : ℕ}

theorem Awaiting.step {tag hash sid : String} (h : Awaiting backend grace s p tag hash sid)
    (hpromoted : s'.promoted p = s.promoted p) (hclock : s.clock ≤ s'.clock)
    (hstaged : ∀ f, s'.blobs.staging (tag, sid) = some f →
      s.blobs.staging (tag, sid) = some f ∨ s.clock ≤ f.modified)
    (hlive : s.promoted p + grace ≤ s'.clock ∨ ∀ m, s.blobs.live (tag, hash) = some m →
      s.promoted p ≤ m → ∃ m', s'.blobs.live (tag, hash) = some m' ∧ s.promoted p ≤ m')
    (hholds : ∀ w m, (s'.sweeps w).Holds grace tag hash m →
      (s.sweeps w).Holds grace tag hash m ∨ s.blobs.live (tag, hash) = some m) :
    Awaiting backend grace s' p tag hash sid := by
  have hpast := h.past
  refine ⟨by omega, fun hfs f hf => ?_, ?_⟩
  · rw [hpromoted]
    rcases hstaged f hf with hold | hnew
    · exact h.staged hfs f hold
    · exact hpast.trans hnew
  · rw [hpromoted]
    rcases h.kept with hover | ⟨⟨m, hm, hle⟩, hheld⟩
    · exact .inl (hover.trans hclock)
    rcases hlive with hover | hlive
    · exact .inl hover
    · refine .inr ⟨hlive m hm hle, fun w m' hw => ?_⟩
      rcases hholds w m' hw with hold | hnew
      · exact hheld w m' hold
      · rw [hm, Option.some.injEq] at hnew
        exact hnew ▸ hle

variable {hash sid : String} {a : Answer} {db' : Store}

/-- **A commit in time finds its blob.**  Its blob is there, and no sweep is about to unlink it. -/
theorem PlaneInv.in_time (hinv : PlaneInv backend grace s) {key : Key}
    (hw : (s.store.calls p).writes = some (key, hash, sid))
    (htime : s.clock < s.promoted p + grace) :
    (s.blobs.live (key.workspaceTag, hash)).isSome ∧
      ∀ w, (s.sweeps w).unlinks ≠ some (key.workspaceTag, hash) := by
  rcases (hinv.awaiting p key hash sid hw).kept with hover | ⟨⟨m, hm, -⟩, hheld⟩
  · omega
  refine ⟨by rw [hm]; rfl, fun w hunlinks => ?_⟩
  -- a sweep that unlinks the blob found it older than it can be
  cases hsw : s.sweeps w <;> rw [hsw] at hunlinks <;> cases hunlinks
  rename_i plan referenced m' blobs
  have hage : grace ≤ plan.now - m' := hinv.due w plan key.workspaceTag hash m' (by rw [hsw]; rfl)
  have hnow : plan.now ≤ s.clock := hinv.started_le w plan.now (by rw [hsw]; rfl)
  have hle := hheld w m' (by rw [hsw]; exact ⟨rfl, .inl rfl, hage⟩)
  omega

/-! ### Steps of the calls -/

/-- What the blob operation of a call does. -/
theorem BlobStore.effect_cases (b : BlobStore) (backend : Backend) (now : ℤ) (st : Stage) :
    (∀ k f, (b.effect backend now st).staging k = some f → b.staging k = some f) ∧
      ((b.effect backend now st).live = b.live ∨
        ∃ input staging liveVersion f, st = .commitPromote input staging liveVersion ∧
          b.staging (input.key.workspaceTag, input.stagingId) = some f ∧
          (b.effect backend now st).live =
            b.live.insert (input.key.workspaceTag, staging.contentHash) (match backend with
                | .fs => f.modified
                | .vercel => now)) := by
  cases st with
  | commitPromote input staging liveVersion =>
    cases hf : b.staging (input.key.workspaceTag, input.stagingId) with
    | none => simp [effect, promote, hf]
    | some f =>
      cases backend with
      | fs =>
        refine ⟨fun k f' hk => ?_, .inr ⟨input, staging, liveVersion, f, rfl, hf, ?_⟩⟩
        · simp only [effect, promote, hf, map_some, getD_some] at hk
          rw [erase_apply] at hk
          split_ifs at hk
          exact hk
        · simp [effect, promote, hf]
      | vercel =>
        refine ⟨fun k f' hk => ?_, .inr ⟨input, staging, liveVersion, f, rfl, hf, ?_⟩⟩
        · simpa [effect, promote, hf] using hk
        · simp [effect, promote, hf]
  | commitUnlinkStaging input staging row =>
    exact ⟨fun _ _ => staging_unlinkStaging, .inl rfl⟩
  | abortUnlinkStaging key sid => exact ⟨fun _ _ => staging_unlinkStaging, .inl rfl⟩
  | _ => exact ⟨fun _ _ h => h, .inl rfl⟩

theorem PlaneState.blobsAfter_cases (s : PlaneState) (backend : Backend) (p : ℕ) (applied : Bool) :
    (∀ k f, (s.blobsAfter backend p applied).staging k = some f → s.blobs.staging k = some f) ∧
      ((s.blobsAfter backend p applied).live = s.blobs.live ∨
        ∃ input staging liveVersion f, s.store.calls p = .commitPromote input staging liveVersion ∧
          s.blobs.staging (input.key.workspaceTag, input.stagingId) = some f ∧
          (s.blobsAfter backend p applied).live =
            s.blobs.live.insert (input.key.workspaceTag, staging.contentHash) (match backend with
                | .fs => f.modified
                | .vercel => s.clock)) := by
  unfold blobsAfter
  split_ifs
  · exact s.blobs.effect_cases backend s.clock (s.store.calls p)
  · exact ⟨fun _ _ h => h, .inl rfl⟩

theorem PlaneState.isSome_blobsAfter {k : String × String} {applied : Bool}
    (h : (s.blobs.live k).isSome) : ((s.blobsAfter backend p applied).live k).isSome := by
  rcases (s.blobsAfter_cases backend p applied).2 with hsame | ⟨input, staging, -, f, -, -, hins⟩
  · rwa [hsame]
  · rw [hins, insert_apply]
    split_ifs
    · rfl
    · exact h

/-- **Promoting once more.**  A commit that waits for its version-CAS sees its blob at most get
younger. -/
theorem PlaneInv.awaiting_blobsAfter (hinv : PlaneInv backend grace s) {q : ℕ} {key : Key}
    {applied : Bool} (hq : (s.store.calls q).writes = some (key, hash, sid)) (m : ℤ)
    (hm : s.blobs.live (key.workspaceTag, hash) = some m) (hle : s.promoted q ≤ m) :
    ∃ m', (s.blobsAfter backend p applied).live (key.workspaceTag, hash) = some m' ∧
      s.promoted q ≤ m' := by
  rcases (s.blobsAfter_cases backend p applied).2 with
    hsame | ⟨input, staging, liveVersion, f, hp, hf, hins⟩
  · exact ⟨m, by rw [hsame, hm], hle⟩
  rw [hins, insert_apply]
  by_cases hk : (key.workspaceTag, hash) = (input.key.workspaceTag, staging.contentHash)
  · rw [if_pos hk]
    refine ⟨_, rfl, ?_⟩
    have hawait := hinv.awaiting q key hash sid hq
    cases backend with
    | vercel => exact hawait.past
    | fs =>
      -- the content hash stands for one staging id
      have hsid : some sid = some input.stagingId := by
        rw [← hinv.minted_call q _ _ (minted_of_writes hq),
          ← hinv.minted_call p _ _ (by rw [hp]; rfl), hk]
      rw [Option.some.injEq] at hsid
      rw [Prod.mk.injEq] at hk
      exact hawait.staged rfl f (by rw [hk.1, hsid]; exact hf)
  · rw [if_neg hk]
    exact ⟨m, hm, hle⟩

/-- What a move of call `p` leaves alone. -/
structure CallMove (backend : Backend) (s s' : PlaneState) (p : ℕ) (db' : Store) (st' : Stage)
    (applied : Bool) : Prop where
  store : s'.store = { s.store with db := db' }.setCall p st'
  clock : s'.clock = s.clock
  sweeps : s'.sweeps = s.sweeps
  blobs : s'.blobs = s.blobsAfter backend p applied
  minted : ∀ k sid, s.minted k = some sid → s'.minted k = some sid
  promoted : ∀ q, q ≠ p → s'.promoted q = s.promoted q

/-- A move of a call preserves the invariant, when a row it writes is written in time. -/
theorem PlaneInv.callMove (hinv : PlaneInv backend grace s) (db' : Store) (st' : Stage)
    (applied : Bool) (h : CallMove backend s s' p db' st' applied)
    (hrows : ∀ key sid r, db'.staging (key, sid) = some r →
      s.store.db.staging (key, sid) = some r ∨
        (s.store.calls p).minted = some ((key.workspaceTag, r.contentHash), sid))
    (hlive : ∀ key r, db'.live key = some r → s.store.db.live key = some r ∨
      ∃ sid, (s.store.calls p).writes = some (key, r.contentHash, sid) ∧
        s.clock < s.promoted p + grace)
    (hminted : ∀ k sid, st'.minted = some (k, sid) → s'.minted k = some sid)
    (hwrites : ∀ key hash sid, st'.writes = some (key, hash, sid) →
      Awaiting backend grace s' p key.workspaceTag hash sid) :
    PlaneInv backend grace s' := by
  have hself : s'.store.calls p = st' := by
    rw [h.store]
    exact update_self ..
  have hother : ∀ q, q ≠ p → s'.store.calls q = s.store.calls q := by
    intro q hq
    rw [h.store]
    exact update_of_ne hq ..
  have hdb : s'.store.db = db' := by
    rw [h.store]
    rfl
  refine ⟨fun q k sid hq => ?_, fun key sid r hr => ?_, fun k f hf => ?_, fun w now hw => ?_,
    fun w => ?_, fun q key hash sid hq => ?_, fun key row hrow => ?_, fun w tag hash hw hmem => ?_⟩
  · by_cases hqp : q = p
    · rw [hqp, hself] at hq
      exact hminted k sid hq
    · rw [hother q hqp] at hq
      exact h.minted k sid (hinv.minted_call q k sid hq)
  · rw [hdb] at hr
    rcases hrows key sid r hr with hold | hnew
    · exact h.minted _ _ (hinv.minted_row key sid r hold)
    · exact h.minted _ _ (hinv.minted_call p _ _ hnew)
  · rw [h.blobs] at hf
    rw [h.clock]
    exact hinv.staged_le k f ((s.blobsAfter_cases backend p applied).1 k f hf)
  · rw [h.sweeps] at hw
    rw [h.clock]
    exact hinv.started_le w now hw
  · rw [h.sweeps]
    exact hinv.due w
  · by_cases hqp : q = p
    · rw [hqp, hself] at hq
      rw [hqp]
      exact hwrites key hash sid hq
    · rw [hother q hqp] at hq
      refine (hinv.awaiting q key hash sid hq).step (h.promoted q hqp) h.clock.ge (fun f hf => ?_)
        (.inr fun m hm hle => ?_) fun w m hw => ?_
      · rw [h.blobs] at hf
        exact .inl ((s.blobsAfter_cases backend p applied).1 _ f hf)
      · rw [h.blobs]
        exact hinv.awaiting_blobsAfter hq m hm hle
      · rw [h.sweeps] at hw
        exact .inl hw
  · rw [hdb] at hrow
    rw [h.blobs]
    refine isSome_blobsAfter ?_
    rcases hlive key row hrow with hold | ⟨sid, hw, htime⟩
    · exact hinv.live key row hold
    · exact (hinv.in_time hw htime).1
  · rw [h.sweeps] at hw
    rw [hdb] at hmem
    obtain ⟨key, row, hrow, rfl, rfl⟩ := mem_liveHashSet.mp hmem
    rcases hlive key row hrow with hold | ⟨sid, hwr, htime⟩
    · exact hinv.unreferenced w _ _ hw (mem_liveHashSet.mpr ⟨key, row, hold, rfl, rfl⟩)
    · exact (hinv.in_time hwr htime).2 w hw

/-- What holds right after a promotion. -/
theorem PlaneInv.awaiting_promote (hinv : PlaneInv backend grace s) {input : CommitPutInput}
    {staging : StagingRow} {liveVersion : Option ℤ}
    (hp : s.store.calls p = .commitPromote input staging liveVersion)
    (hstaged : (s.blobs.staging (input.key.workspaceTag, input.stagingId)).isSome)
    (hclock : s'.clock = s.clock) (hsweeps : s'.sweeps = s.sweeps)
    (hblobs : s'.blobs = s.blobsAfter backend p true)
    (hpromoted : s'.promoted p = (((s.blobsAfter backend p true).live
      (input.key.workspaceTag, staging.contentHash)).getD 0))
    (hheld : ∀ w m, ¬(s.sweeps w).Holds grace input.key.workspaceTag staging.contentHash m) :
    Awaiting backend grace s' p input.key.workspaceTag staging.contentHash input.stagingId := by
  obtain ⟨f, hf⟩ := isSome_iff_exists.mp hstaged
  have hle := hinv.staged_le _ f hf
  have hnone : ∀ w m, ¬(s'.sweeps w).Holds grace input.key.workspaceTag staging.contentHash m := by
    rw [hsweeps]
    exact hheld
  cases backend with
  | fs =>
    have hafter : s.blobsAfter .fs p true =
        { live := s.blobs.live.insert (input.key.workspaceTag, staging.contentHash) f.modified
          staging := s.blobs.staging.erase (input.key.workspaceTag, input.stagingId) } := by
      simp [blobsAfter, effect, hp, promote, hf]
    rw [hafter] at hpromoted hblobs
    have hprom : s'.promoted p = f.modified := by simpa using hpromoted
    refine ⟨by rw [hprom, hclock]; exact hle, fun _ f' hf' => ?_,
      .inr ⟨⟨f.modified, by simp [hblobs], hprom.le⟩, fun w m hw => absurd hw (hnone w m)⟩⟩
    -- the rename has taken the staging blob away
    simp [hblobs] at hf'
  | vercel =>
    have hafter : s.blobsAfter .vercel p true =
        { s.blobs with
          live := s.blobs.live.insert (input.key.workspaceTag, staging.contentHash) s.clock } := by
      simp [blobsAfter, effect, hp, promote, hf]
    rw [hafter] at hpromoted hblobs
    have hprom : s'.promoted p = s.clock := by simpa using hpromoted
    exact ⟨by rw [hprom, hclock], nofun,
      .inr ⟨⟨s.clock, by simp [hblobs], hprom.le⟩, fun w m hw => absurd hw (hnone w m)⟩⟩

/-- What the step of a call writes down. -/
theorem PlaneState.record_cases (s : PlaneState) (backend : Backend) (p : ℕ) (a : Answer) :
    (s.record backend p a).clock = s.clock ∧ (s.record backend p a).sweeps = s.sweeps ∧
      (∀ q, q ≠ p → (s.record backend p a).promoted q = s.promoted q) ∧
      (∀ input, s.store.calls p = .beginEnsureWorkspace input →
        (s.record backend p a).minted = update s.minted
          (input.key.workspaceTag, input.contentHash) (some a.id)) ∧
      ((∀ input, s.store.calls p ≠ .beginEnsureWorkspace input) →
        (s.record backend p a).minted = s.minted) := by
  unfold record
  split
  · rename_i input hp
    refine ⟨rfl, rfl, fun _ _ => rfl, fun input' hp' => ?_, fun h => absurd hp (h input)⟩
    rw [hp] at hp'
    cases hp'
    rfl
  · rename_i input staging liveVersion hp
    refine ⟨rfl, rfl, fun q hq => update_of_ne hq .., fun input' hp' => ?_, fun _ => rfl⟩
    rw [hp] at hp'
    cases hp'
  · rename_i hbegin _
    exact ⟨rfl, rfl, fun _ _ => rfl, fun input' hp' => absurd hp' (hbegin input'), fun _ => rfl⟩

theorem PlaneInv.await (hinv : PlaneInv backend grace s) {applied : Bool} {st' : Stage}
    (h : perform p s.store.db a (s.store.calls p) = some (db', st'))
    (hgives : s.blobs.Gives s.clock (s.store.calls p) a applied)
    (hfresh : FreshHash s (.call (.await p a) applied))
    (htime : InTime grace promoted s (.call (.await p a) applied))
    (hswept : NotSwept grace s (.call (.await p a) applied)) :
    PlaneInv backend grace { s.record backend p a with
      store := { s.store with db := db' }.setCall p st'
      blobs := s.blobsAfter backend p applied } := by
  obtain ⟨hclock, hsweeps, hpromoted, hmint, hsame⟩ := s.record_cases backend p a
  have hminted : ∀ k sid, s.minted k = some sid →
      (s.record backend p a).minted k = some sid := by
    intro k sid hk
    by_cases hbegin : ∃ input, s.store.calls p = .beginEnsureWorkspace input
    · obtain ⟨input, hbegin⟩ := hbegin
      -- the hash is fresh, so no entry is overwritten
      have hnone : s.minted (input.key.workspaceTag, input.contentHash) = none := by
        simpa only [FreshHash, hbegin] using hfresh
      rw [hmint input hbegin]
      refine (update_of_ne ?_ ..).trans hk
      rintro rfl
      rw [hnone] at hk
      cases hk
    · rw [hsame fun input hp => hbegin ⟨input, hp⟩, hk]
  refine hinv.callMove db' st' applied
    ⟨rfl, hclock, hsweeps, rfl, hminted, hpromoted⟩ (fun key sid r hr => perform_stagingRow h hr)
    (fun key r hr => ?_) (fun k sid hk => ?_) fun key hash sid hw => ?_
  · refine (perform_live h hr).imp id fun ⟨sid, hw⟩ => ⟨sid, hw, ?_⟩
    obtain ⟨input, staging, v, i, t, hst⟩ := exists_of_writes hw
    simpa only [InTime, hst] using htime
  · rcases perform_minted h hk with hold | ⟨key, r, hr, rfl⟩ | ⟨input, hbegin, rfl, rfl⟩
    · exact hminted k sid (hinv.minted_call p k sid hold)
    · exact hminted _ _ (hinv.minted_row key sid r hr)
    · change (s.record backend p a).minted _ = _
      rw [hmint input hbegin, update_self]
  · obtain ⟨input, staging, liveVersion, hp, hok, rfl, rfl, rfl⟩ := perform_writes h hw
    obtain ⟨-, hgives⟩ := hgives
    rw [hp] at hgives
    obtain ⟨rfl, hstaged⟩ := hgives hok
    refine hinv.awaiting_promote hp hstaged hclock hsweeps rfl ?_ ?_
    · change (s.record backend p a).promoted p = _
      simp only [record, hp, update_self]
    · have hnot := hswept
      simp only [NotSwept, hp] at hnot
      exact hnot hok

theorem Stage.minted_thrown (st : Stage) : st.thrown.minted = none := by
  cases st <;> rfl

theorem Stage.writes_thrown (st : Stage) : st.thrown.writes = none := by
  cases st <;> rfl

section

variable (hinv : PlaneInv backend grace s)
include hinv

theorem PlaneInv.throws {applied happened : Bool} {st' : Stage}
    (h : perform p s.store.db a (s.store.calls p) = some (db', st'))
    (htime : InTime grace promoted s (.call (.throws p a happened) applied)) :
    PlaneInv backend grace { s with
      store := { s.store with db := if happened then db' else s.store.db }.setCall p
        (s.store.calls p).thrown
      blobs := s.blobsAfter backend p applied } := by
  refine hinv.callMove (if happened then db' else s.store.db) _ applied
    ⟨rfl, rfl, rfl, rfl, fun _ _ h => h, fun _ _ => rfl⟩ (fun key sid r hr => ?_)
    (fun key r hr => ?_) (fun k sid hk => ?_) fun key hash sid hw => ?_
  · split_ifs at hr
    · exact perform_stagingRow h hr
    · exact .inl hr
  · split_ifs at hr with hhappened
    · subst hhappened
      refine (perform_live h hr).imp id fun ⟨sid, hw⟩ => ⟨sid, hw, ?_⟩
      obtain ⟨input, staging, v, i, t, hst⟩ := exists_of_writes hw
      simpa only [InTime, hst] using htime
    · exact .inl hr
  · rw [minted_thrown] at hk
    cases hk
  · rw [writes_thrown] at hw
    cases hw

/-- A step of the calls that leaves the live rows and the blobs alone. -/
theorem PlaneInv.quietCall {store : StoreState}
    (hlive : store.db.live = s.store.db.live) (hrows : ∀ k r, store.db.staging k = some r →
      ∃ r', s.store.db.staging k = some r' ∧ r'.contentHash = r.contentHash)
    (hcalls : ∀ q, store.calls q = s.store.calls q ∨
      (store.calls q).minted = none ∧ (store.calls q).writes = none) :
    PlaneInv backend grace { s with store := store } := by
  refine ⟨fun q k sid hq => ?_, fun key sid r hr => ?_, hinv.staged_le, hinv.started_le, hinv.due,
    fun q key hash sid hq => ?_, fun key row hrow => ?_, fun w tag hash hw hmem => ?_⟩
  · rcases hcalls q with heq | ⟨hnone, -⟩
    · exact hinv.minted_call q k sid (heq ▸ hq)
    · exact absurd (hnone.symm.trans hq) nofun
  · obtain ⟨r', hr', hhash⟩ := hrows (key, sid) r hr
    rw [← hhash]
    exact hinv.minted_row key sid r' hr'
  · rcases hcalls q with heq | ⟨-, hnone⟩
    · have h := hinv.awaiting q key hash sid (heq ▸ hq)
      exact ⟨h.past, h.staged, h.kept⟩
    · exact absurd (hnone.symm.trans hq) nofun
  · rw [hlive] at hrow
    exact hinv.live key row hrow
  · obtain ⟨key, row, hrow, rfl, rfl⟩ := mem_liveHashSet.mp hmem
    rw [hlive] at hrow
    exact hinv.unreferenced w _ _ hw (mem_liveHashSet.mpr ⟨key, row, hrow, rfl, rfl⟩)

theorem PlaneInv.start {st : Stage} {store : StoreState}
    (hst : st.minted = none ∧ st.writes = none) (h : s.store.start p st = some store) :
    PlaneInv backend grace { s with store := store } := by
  unfold StoreState.start at h
  split_ifs at h
  cases h
  refine hinv.quietCall rfl (fun _ r hr => ⟨r, hr, rfl⟩) fun q => ?_
  by_cases hq : q = p
  · subst hq
    have hself : (s.store.setCall q st).calls q = st := update_self ..
    exact .inr (by rw [hself]; exact hst)
  · exact .inl (update_of_ne hq ..)

end

/-! ### Uploads, the clock and sweeps -/

namespace PlaneState

@[simp] theorem sweeps_setSweep_self (s : PlaneState) (w : ℕ) (sw : Sweep) :
    (s.setSweep w sw).sweeps w = sw := update_self ..

theorem sweeps_setSweep_of_ne {s : PlaneState} {v w : ℕ} {sw : Sweep} (h : ¬v = w) :
    (s.setSweep w sw).sweeps v = s.sweeps v := update_of_ne h ..

end PlaneState

section

variable (hinv : PlaneInv backend grace s)
include hinv

theorem PlaneInv.write (tag sid : String) (size : ℤ) :
    PlaneInv backend grace { s with blobs := s.blobs.write s.clock tag sid size } := by
  have hfile : ∀ k f, (s.blobs.write s.clock tag sid size).staging k = some f →
      s.blobs.staging k = some f ∨ f.modified = s.clock := by
    intro k f hf
    rw [BlobStore.write, insert_apply] at hf
    split_ifs at hf
    · cases hf
      exact .inr rfl
    · exact .inl hf
  refine ⟨hinv.minted_call, hinv.minted_row, fun k f hf => ?_, hinv.started_le, hinv.due,
    fun q key hash sid' hq => ?_, hinv.live, hinv.unreferenced⟩
  · rcases hfile k f hf with hold | hnew
    · exact hinv.staged_le k f hold
    · exact hnew.le
  · exact (hinv.awaiting q key hash sid' hq).step rfl le_rfl
      (fun f hf => (hfile _ f hf).imp id fun hnew => hnew.ge)
      (.inr fun m hm hle => ⟨m, hm, hle⟩) fun _ _ h => .inl h

theorem PlaneInv.tick {now : ℤ} (hle : s.clock ≤ now) :
    PlaneInv backend grace { s with clock := now } := by
  refine ⟨hinv.minted_call, hinv.minted_row, fun k f hf => (hinv.staged_le k f hf).trans hle,
    fun w n hw => (hinv.started_le w n hw).trans hle, hinv.due, fun q key hash sid hq => ?_,
    hinv.live, hinv.unreferenced⟩
  exact (hinv.awaiting q key hash sid hq).step rfl hle (fun _ => .inl)
    (.inr fun m hm hle => ⟨m, hm, hle⟩) fun _ _ h => .inl h

/-- **A step of a sweep.**  It unlinks no blob that a row references, and none that a commit has
promoted less than the grace period ago. -/
theorem PlaneInv.sweep {w : ℕ} {b' : BlobStore}
    {sw' : Sweep} (h : SweepStep grace s.store.db s.blobs (s.sweeps w) db' b' sw') :
    PlaneInv backend grace
      ({ s with store := { s.store with db := db' }, blobs := b' }.setSweep w sw') := by
  have hlive : ∀ {tag hash}, hash ∈ liveHashSet db' tag ↔ hash ∈ liveHashSet s.store.db tag := by
    intro tag hash
    rw [mem_liveHashSet, mem_liveHashSet, h.live]
  refine ⟨hinv.minted_call, fun key sid r hr => hinv.minted_row key sid r (h.rows _ r hr),
    fun k f hf => hinv.staged_le k f (h.staged k f hf), fun v now hv => ?_,
    fun v plan tag hash m hv => ?_, fun q key hash sid hq => ?_, fun key row hrow => ?_,
    fun v tag hash hv => ?_⟩
  · by_cases hvw : v = w
    · subst hvw
      rw [sweeps_setSweep_self] at hv
      exact hinv.started_le v now (h.started now hv)
    · rw [sweeps_setSweep_of_ne hvw] at hv
      exact hinv.started_le v now hv
  · by_cases hvw : v = w
    · subst hvw
      rw [sweeps_setSweep_self] at hv
      exact h.due (hinv.due v) plan tag hash m hv
    · rw [sweeps_setSweep_of_ne hvw] at hv
      exact hinv.due v plan tag hash m hv
  · refine (hinv.awaiting q key hash sid hq).step rfl le_rfl
      (fun f hf => .inl (h.staged _ f hf)) ?_ fun v m hv => ?_
    · rcases h.blobs with hsame | ⟨tag, hash', hunlinks, herase⟩
      · exact .inr fun m hm hle => ⟨m, by change b'.live _ = _; rw [hsame, hm], hle⟩
      by_cases hk : (key.workspaceTag, hash) = (tag, hash')
      · by_cases hover : s.promoted q + grace ≤ s.clock
        · exact .inl hover
        · cases hk
          exact absurd hunlinks ((hinv.in_time hq (by omega)).2 w)
      · refine .inr fun m hm hle => ⟨m, ?_, hle⟩
        change b'.live _ = _
        rw [herase, erase_of_ne _ hk, hm]
    · by_cases hvw : v = w
      · subst hvw
        rw [sweeps_setSweep_self] at hv
        exact h.holds _ _ m hv
      · rw [sweeps_setSweep_of_ne hvw] at hv
        exact .inl hv
  · change db'.live key = some row at hrow
    rw [h.live] at hrow
    have hblob := hinv.live key row hrow
    change (b'.live _).isSome
    rcases h.blobs with hsame | ⟨tag, hash, hunlinks, herase⟩
    · rwa [hsame]
    · rw [herase, erase_of_ne]
      · exact hblob
      · intro heq
        rw [Prod.mk.injEq] at heq
        exact hinv.unreferenced w tag hash hunlinks
          (mem_liveHashSet.mpr ⟨key, row, hrow, heq.1, heq.2⟩)
  · change hash ∉ liveHashSet db' tag
    rw [hlive]
    by_cases hvw : v = w
    · subst hvw
      rw [sweeps_setSweep_self] at hv
      exact h.unlinks tag hash hv
    · rw [sweeps_setSweep_of_ne hvw] at hv
      exact hinv.unreferenced v tag hash hv

/-- A sweep that starts or ends changes nothing else. -/
theorem PlaneInv.setSweep {w : ℕ} {sw : Sweep}
    (hsw : (∀ grace tag hash m, ¬sw.Holds grace tag hash m) ∧ sw.due = none ∧ sw.unlinks = none)
    (hstarted : ∀ now, sw.started = some now → now ≤ s.clock) :
    PlaneInv backend grace (s.setSweep w sw) := by
  refine ⟨hinv.minted_call, hinv.minted_row, hinv.staged_le, fun v now hv => ?_,
    fun v plan tag hash m hv => ?_, fun q key hash sid hq => ?_, hinv.live,
    fun v tag hash hv => ?_⟩
  · by_cases hvw : v = w
    · rw [hvw, sweeps_setSweep_self] at hv
      exact hstarted now hv
    · rw [sweeps_setSweep_of_ne hvw] at hv
      exact hinv.started_le v now hv
  · by_cases hvw : v = w
    · rw [hvw, sweeps_setSweep_self, hsw.2.1] at hv
      cases hv
    · rw [sweeps_setSweep_of_ne hvw] at hv
      exact hinv.due v plan tag hash m hv
  · refine (hinv.awaiting q key hash sid hq).step rfl le_rfl (fun _ => .inl)
      (.inr fun m hm hle => ⟨m, hm, hle⟩) fun v m hv => ?_
    by_cases hvw : v = w
    · rw [hvw, sweeps_setSweep_self] at hv
      exact absurd hv (hsw.1 _ _ _ _)
    · rw [sweeps_setSweep_of_ne hvw] at hv
      exact .inl hv
  · by_cases hvw : v = w
    · rw [hvw, sweeps_setSweep_self, hsw.2.2] at hv
      cases hv
    · rw [sweeps_setSweep_of_ne hvw] at hv
      exact hinv.unreferenced v tag hash hv

theorem PlaneInv.failSweep (w : ℕ) : PlaneInv backend grace (s.setSweep w .failed) :=
  hinv.setSweep ⟨fun _ _ _ _ => id, rfl, rfl⟩ nofun

/-- **Every step that meets the conditions preserves the invariant.** -/
theorem planeInv_step {l : PlaneLabel} (hfresh : FreshHash s l)
    (htime : InTime grace promoted s l) (hswept : NotSwept grace s l)
    (h : (planeMachine backend grace).step s l = some s') : PlaneInv backend grace s' := by
  cases l with
  | call a applied =>
    cases a with
    | await p a =>
      simp only [planeMachine, storeMachine, map_map] at h
      split_ifs at h with hgives
      rw [map_eq_some_iff] at h
      obtain ⟨⟨db', st'⟩, hperf, rfl⟩ := h
      exact hinv.await hperf hgives hfresh htime hswept
    | throws p a happened =>
      simp only [planeMachine, storeMachine, map_map, map_eq_some_iff] at h
      obtain ⟨⟨db', st'⟩, hperf, rfl⟩ := h
      exact hinv.throws hperf htime
    | reapStaging key sid before => cases h
    | cutOff p =>
      cases h
      refine hinv.quietCall rfl (fun _ r hr => ⟨r, hr, rfl⟩) fun q => ?_
      by_cases hq : q = p
      · have hself : (s.store.setCall p .failed).calls q = .failed := by
          rw [hq]
          exact update_self ..
        exact .inr (by rw [hself]; exact ⟨rfl, rfl⟩)
      · exact .inl (update_of_ne hq ..)
    | refreshStaging begunAt key sid =>
      cases h
      refine hinv.quietCall ?_ (fun k r hr => ?_) fun q => .inl rfl
      · change (s.store.db.refreshStagingBegunAt begunAt key sid).live = _
        unfold Store.refreshStagingBegunAt
        split <;> rfl
      · change (s.store.db.refreshStagingBegunAt begunAt key sid).staging k = some r at hr
        unfold Store.refreshStagingBegunAt at hr
        split at hr
        · exact ⟨r, hr, rfl⟩
        · rename_i row hrow
          rw [insert_apply] at hr
          split_ifs at hr with hk
          · cases hr
            exact ⟨row, by rw [hk, hrow], rfl⟩
          · exact ⟨r, hr, rfl⟩
    | beginPut p input | commitPut p input | abortPut p key sid | deleteObject p key v i =>
      simp only [planeMachine, storeMachine, map_eq_some_iff] at h
      obtain ⟨store, hstart, rfl⟩ := h
      exact hinv.start ⟨rfl, rfl⟩ hstart
  | write tag sid size =>
    cases h
    exact hinv.write tag sid size
  | tick now =>
    simp only [planeMachine] at h
    split_ifs at h with hle
    cases h
    exact hinv.tick hle
  | reapOrphans w =>
    simp only [planeMachine] at h
    split at h <;> cases h
    refine hinv.setSweep ⟨fun _ _ _ _ => id, rfl, rfl⟩ fun now hnow => ?_
    cases hnow
    exact le_rfl
  | reap w l applied =>
    simp only [planeMachine, map_eq_some_iff] at h
    obtain ⟨⟨db', b', sw'⟩, hperf, rfl⟩ := h
    exact hinv.sweep (sweep_perform_step hperf)
  | reapThrows w l applied =>
    simp only [planeMachine, map_eq_some_iff] at h
    obtain ⟨⟨db', b', sw'⟩, hperf, rfl⟩ := h
    split_ifs
    · -- as if it had gone on, and then stopped
      have hdone := (hinv.sweep (sweep_perform_step hperf)).failSweep w
      simpa only [setSweep, update_idem] using hdone
    · exact hinv.failSweep w
  | reapCutOff w =>
    cases h
    exact hinv.failSweep w

end

/-- The conditions on a step under which no live row loses its bytes: the content hash of a begin is
fresh, the version-CAS of a commit lands less than the grace period after the modification time of
the blob it promoted, and no sweep has found the blob of a commit that is about to promote it. -/
def Timely (grace : ℤ) (s : PlaneState) (l : PlaneLabel) : Prop :=
  FreshHash s l ∧ InTime grace PlaneState.promoted s l ∧ NotSwept grace s l

/-- **A live row never points at missing bytes**, in a run whose steps are all timely. -/
theorem live_blob_exists (h : (planeMachine backend grace).ReachableUnder (Timely grace) .init s) :
    ∀ key row, s.store.db.live key = some row →
      (s.blobs.live (key.workspaceTag, row.contentHash)).isSome :=
  (h.invariant (planeInv_init backend grace) fun _ _ _ hinv hC hst =>
    planeInv_step hinv hC.1 hC.2.1 hC.2.2 hst).live

/-- An answer that draws the id `id`. -/
def answerAt (now : ℤ) (id : String) : Answer := ⟨id, now, none, true⟩

/-- A put is staged and uploaded. -/
def uploadLabels : List PlaneLabel :=
  [.call (.beginPut 0 ⟨⟨"ws", "r"⟩, none, none, 3, "hash", "sig"⟩) false,
   .call (.await 0 (answerAt 0 "")) false, .call (.await 0 (answerAt 0 "")) false,
   .call (.await 0 (answerAt 0 "sid")) false, .call (.await 0 (answerAt 0 "")) false,
   .write "ws" "sid" 3, .call (.refreshStaging 0 ⟨"ws", "r"⟩ "sid") false,
   .call (.commitPut 1 ⟨⟨"ws", "r"⟩, "sid", some 3⟩) false,
   .call (.await 1 (answerAt 0 "")) false]

/-- The commit goes on at once; a sweep finds the blob referenced. -/
def promptLabels : List PlaneLabel :=
  uploadLabels ++
  [.call (.await 1 (answerAt 0 "")) false, .call (.await 1 (answerAt 0 "inc")) true,
   .call (.await 1 (answerAt 0 "")) false, .tick 10, .reapOrphans 0, .reap 0 ⟨["ws"], []⟩ true,
   .reap 0 ⟨["hash"], []⟩ true, .reap 0 ⟨[], []⟩ true, .reap 0 ⟨[], []⟩ true]

/-- The state it ends in. -/
def promptEnd : PlaneState := ((planeMachine .fs 10).run .init promptLabels).getD .init

theorem promptEnd_run : (planeMachine .fs 10).run .init promptLabels = some promptEnd := rfl

/-- A step that the conditions say nothing about. -/
theorem timely_trivial {l : PlaneLabel} (hfresh : FreshHash s l = True)
    (htime : InTime grace promoted s l = True) (hswept : NotSwept grace s l = True) :
    Timely grace s l := ⟨hfresh ▸ trivial, htime ▸ trivial, hswept ▸ trivial⟩

theorem live_blob_exists_prompt :
    (promptEnd.store.db.live ⟨"ws", "r"⟩).isSome ∧
      ∀ key row, promptEnd.store.db.live key = some row →
        (promptEnd.blobs.live (key.workspaceTag, row.contentHash)).isSome := by
  refine ⟨by decide, live_blob_exists (Machine.reachableUnder_of_run promptEnd_run ?_)⟩
  have quiet {s : PlaneState} {l : PlaneLabel} := @timely_trivial 10 s l
  exact ⟨quiet rfl rfl rfl, quiet rfl rfl rfl, quiet rfl rfl rfl, ⟨rfl, trivial, trivial⟩,
    quiet rfl rfl rfl, quiet rfl rfl rfl, quiet rfl rfl rfl, quiet rfl rfl rfl,
    quiet rfl rfl rfl, quiet rfl rfl rfl,
    -- the promotion: no sweep has started
    ⟨trivial, trivial, fun _ _ _ => id⟩,
    -- the version-CAS
    ⟨trivial, by decide, trivial⟩,
    quiet rfl rfl rfl, quiet rfl rfl rfl, quiet rfl rfl rfl, quiet rfl rfl rfl,
    quiet rfl rfl rfl, quiet rfl rfl rfl, trivial⟩

/-- The commit stalls for the grace period after the upload, and goes on while a sweep runs. -/
def stallLabels : List PlaneLabel :=
  uploadLabels ++
  [.tick 10, .call (.await 1 (answerAt 10 "")) false, .call (.await 1 (answerAt 10 "inc")) true,
   .reapOrphans 0, .reap 0 ⟨[], []⟩ true, .reap 0 ⟨["ws"], []⟩ true, .reap 0 ⟨["hash"], []⟩ true,
   .reap 0 ⟨[], []⟩ true, .reap 0 ⟨[], []⟩ true, .reap 0 ⟨[], []⟩ true,
   .call (.await 1 (answerAt 10 "")) false, .reap 0 ⟨[], []⟩ true]

/-- The state it ends in. -/
def stallEnd : PlaneState := ((planeMachine .fs 10).run .init stallLabels).getD .init

theorem stallEnd_run : (planeMachine .fs 10).run .init stallLabels = some stallEnd := rfl

/-- **A live row without its bytes.**  The content hash is fresh and the row is written right after
the promotion, but the file has the modification time of the upload. -/
theorem upload_time_loses_blob :
    (planeMachine .fs 10).ReachableUnder
        (fun s l => FreshHash s l ∧ InTime 10 PlaneState.promotedAt s l) .init stallEnd ∧
      ∃ key row, stallEnd.store.db.live key = some row ∧
        stallEnd.blobs.live (key.workspaceTag, row.contentHash) = none :=
  ⟨Machine.reachableUnder_of_run stallEnd_run (by decide), ⟨"ws", "r"⟩,
    ⟨1, "inc", "hash", 3, "sig", 10⟩, by decide, by decide⟩

end Triage.Objstore
