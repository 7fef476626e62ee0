import Triage.Managed.FeedFresh

/-!
# The feed never rests on stale data

A feed rests when the counters are those it remembers. Then it has told the client the revisions
of the present tables; and in quiet tables the next poll brings it to rest.

## Main results

* `feed_fresh` : a feed that rests has told the client the revisions of the present tables, a poll
  in quiet tables brings it to rest, and annotations are published only under the snapshot of the
  team they were read under.
-/

namespace Triage.Managed

open TeamFeed

variable {α β Snapshot Annotation Revision : Type}

section Runs

variable [DecidableEq Snapshot] [DecidableEq Revision]
  {cfg : FeedConfig α β Snapshot Annotation Revision} {s s' : TeamFeed α β Snapshot Revision}

/-! ### Frames -/

/-- A step sends one frame at most, and annotations only under the present snapshot of the team. -/
def TeamFeed.FrameOk (cfg : FeedConfig α β Snapshot Annotation Revision)
    (past : (AnnotationTable → β) → Prop) (s s' : TeamFeed α β Snapshot Revision) : Prop :=
  s'.frames = s.frames ∨ ∃ event r, s'.frames = s.frames ++ [(event, r)] ∧
    (event = .triage → ∃ tables, past tables ∧
      cfg.triageRevision (cfg.teamSnapshot s.db.catalogTables) tables = some r)

omit [DecidableEq Snapshot] [DecidableEq Revision] in
@[simp] theorem TeamFeed.remember_frames (state : FeedState) (unmoved : Prop)
    [Decidable unmoved] : (s.remember state unmoved).frames = s.frames := by
  unfold remember
  split_ifs <;> rfl

omit [DecidableEq Snapshot] in
theorem TeamFeed.publish_triage_frameOk {past : (AnnotationTable → β) → Prop}
    {triage : Option Revision} {drained : Bool} (htri : ∀ r, triage = some r → ∃ tables,
      past tables ∧ cfg.triageRevision (cfg.teamSnapshot s.db.catalogTables) tables = some r) :
    FrameOk cfg past s (s.publish .triage triage drained).2 := by
  rcases s.publish_frames .triage triage drained with h | ⟨r, hr, h⟩
  · exact .inl h
  · exact .inr ⟨.triage, r, h, fun _ => htri r hr⟩

theorem TeamFeed.Inv.frameOk_answerCall {past : (AnnotationTable → β) → Prop}
    {loaded drained : Bool} (h : s.Inv cfg past)
    (hst : s.answerCall cfg loaded drained = some s') : FrameOk cfg past s s' := by
  obtain ⟨-, hcall⟩ := h
  unfold TeamFeed.answerCall at hst
  split at hst <;> rename_i hs <;> cases hst <;> rw [hs] at hcall
  · unfold pollStep
    split_ifs
    · exact .inl rfl
    · exact .inl rfl
  · exact .inl rfl
  -- the annotations were read under the catalog as it is:
  · obtain ⟨hb, -, tables, hpast, -, hcat⟩ := hcall
    unfold recheckAnnotationsStep
    split_ifs with hmoved
    · exact .inl rfl
    · unfold FrameOk
      rw [remember_frames]
      apply publish_triage_frameOk
      rintro r ⟨⟩
      exact ⟨tables, hpast, (hcat (not_not.mp hmoved).symm).symm⟩
  · exact .inl rfl
  · rename_i revision
    unfold recheckUserStep
    have hsent : FrameOk cfg past s (s.publish .teams (some revision) drained).2 := by
      rcases s.publish_frames .teams (some revision) drained with h | ⟨r, -, h⟩
      · exact .inl h
      · exact .inr ⟨.teams, r, h, fun hne => absurd hne (by decide)⟩
    dsimp only
    split_ifs
    · exact hsent
    · exact hsent
    · exact hsent
  · exact .inl (remember_frames ..)
  · unfold snapshotStep
    dsimp only
    split_ifs
    · exact .inl rfl
    · exact .inl rfl
    · exact .inl rfl
  · unfold findingIdsStep
    split_ifs
    · exact .inl rfl
    · exact publish_triage_frameOk (fun r hr => absurd hr (by simp))
  · exact .inl rfl
  -- they were read under a snapshot that still is the team's:
  · obtain ⟨-, -, -, -, -, tables, hpast, -, rfl⟩ := hcall
    rename_i snapshot
    unfold recheckSnapshotStep
    by_cases hmoved : cfg.reads.teamSnapshot cfg.user s.db.catalogTables ≠ snapshot
    · rw [if_pos hmoved]
      exact .inl rfl
    · rw [if_neg hmoved]
      have hsame : cfg.teamSnapshot s.db.catalogTables = snapshot := not_not.mp hmoved
      have hsent : FrameOk cfg past s
          (s.publish .triage (cfg.triageRevision snapshot tables) drained).2 := by
        apply publish_triage_frameOk
        intro r hr
        exact ⟨tables, hpast, hsame ▸ hr⟩
      exact hsent
  · exact .inl (remember_frames ..)

/-- **Annotations are published only under the snapshot they were read under.** -/
theorem TeamFeed.Inv.frameOk {past : (AnnotationTable → β) → Prop} {a : FeedLabel α β}
    (h : s.Inv cfg past) (hst : (teamFeed cfg).step s a = some s') : FrameOk cfg past s s' := by
  cases a with
  | commit changes =>
    cases hst
    exact .inl rfl
  | session user =>
    cases hst
    exact .inl rfl
  | stop =>
    cases hst
    exact .inl rfl
  | answer loaded drained =>
    change s.answerStep cfg loaded drained = some s' at hst
    unfold answerStep at hst
    split_ifs at hst
    · cases hst
      exact .inl rfl
    · exact h.frameOk_answerCall hst

/-! ### A poll in quiet tables -/

/-- The tables stay as they are, the session is that of the user, the reports can be read, and the
response takes every frame. -/
def TeamFeed.quietAnswer : FeedLabel α β := .answer true true

/-- A feed at rest, that remembers the counters of the tables of `s`. -/
def TeamFeed.Rested (cfg : FeedConfig α β Snapshot Annotation Revision)
    (s s' : TeamFeed α β Snapshot Revision) : Prop :=
  s'.call = .poll ∧ s'.db = s.db ∧ s'.stopped = false ∧ ∃ p, s'.previousState = some p ∧
    p.catalog = s.db.catalog ∧ (cfg.team → p.annotations = s.db.annotations)

/-- Quiet answers bring the feed to rest. -/
def TeamFeed.Rests (cfg : FeedConfig α β Snapshot Annotation Revision)
    (s : TeamFeed α β Snapshot Revision) : Prop :=
  ∃ n s', (teamFeed cfg).run s (List.replicate n quietAnswer) = some s' ∧ Rested cfg s s'

/-- The stream is open, for the user it was opened for. -/
def TeamFeed.Open (cfg : FeedConfig α β Snapshot Annotation Revision)
    (s : TeamFeed α β Snapshot Revision) : Prop :=
  s.stopped = false ∧ s.checkUser cfg = true

namespace TeamFeed.Rests

theorem step_quiet (h : Open cfg s) :
    (teamFeed cfg).step s quietAnswer = s.answerCall cfg true true := by
  have hends : s.ends cfg = false := by
    unfold ends
    split <;> simp [h.1, h.2]
  show s.answerStep cfg true true = s.answerCall cfg true true
  unfold answerStep
  rw [hends, if_neg Bool.false_ne_true]

variable {s₁ : TeamFeed α β Snapshot Revision}

section

variable (h : Open cfg s)
include h

/-- The feed is at rest after the next answer. -/
theorem last (hst : s.answerCall cfg true true = some s₁) (hrest : Rested cfg s s₁) :
    Rests cfg s := by
  refine ⟨1, s₁, ?_, hrest⟩
  show ((teamFeed cfg).step s quietAnswer).bind _ = some s₁
  rw [step_quiet h, hst]
  rfl

/-- The feed comes to rest from where the next answer leads. -/
theorem head (hst : s.answerCall cfg true true = some s₁) (hdb : s₁.db = s.db)
    (hrest : Rests cfg s₁) : Rests cfg s := by
  obtain ⟨n, s', hrun, hrested⟩ := hrest
  refine ⟨n + 1, s', ?_, ?_⟩
  · show ((teamFeed cfg).step s quietAnswer).bind
      (fun t => (teamFeed cfg).run t (List.replicate n quietAnswer)) = some s'
    rw [step_quiet h, hst]
    exact hrun
  · unfold Rested at hrested ⊢
    rw [hdb] at hrested
    exact hrested

omit [DecidableEq Snapshot] [DecidableEq Revision] in
theorem open_of_db (hdb : s₁.db = s.db) (hopen : s₁.stopped = false) : Open cfg s₁ := by
  refine ⟨hopen, ?_⟩
  unfold checkUser
  rw [hdb]
  exact h.2

theorem of_poll_next (hst : s.answerCall cfg true true =
    some { s with call := .poll, previousState := some s.db.state }) : Rests cfg s :=
  last h hst ⟨rfl, rfl, h.1, s.db.state, rfl, rfl, fun _ => rfl⟩

theorem of_recheckState (hcall : s.call = .recheckState s.db.state) : Rests cfg s := by
  refine of_poll_next h ?_
  unfold answerCall
  rw [hcall]
  exact congrArg some (if_pos rfl)

theorem of_recheckCatalog (hcall : s.call = .recheckCatalog s.db.state) : Rests cfg s := by
  refine of_poll_next h ?_
  unfold answerCall
  rw [hcall]
  exact congrArg some (if_pos rfl)

theorem of_recheckAnnotations {triage : Revision}
    (hcall : s.call = .recheckAnnotations s.db.state triage) : Rests cfg s := by
  have hst : s.answerCall cfg true true = some { (s.publish .triage (some triage) true).2 with
      call := .poll, previousState := some s.db.state } := by
    unfold answerCall
    rw [hcall]
    show some (s.recheckAnnotationsStep s.db.state triage true) = _
    unfold recheckAnnotationsStep
    rw [if_neg (fun hne => hne rfl)]
    exact congrArg some (if_pos rfl)
  exact last h hst ⟨rfl, publish_db .., s.publish_drained _ _ h.1, s.db.state, rfl, rfl,
    fun _ => rfl⟩

theorem of_annotationsOnly {focused : Snapshot}
    (hcall : s.call = .annotationsOnly s.db.state focused) : Rests cfg s := by
  have hst : s.answerCall cfg true true =
      some { s with call := .recheckAnnotations s.db.state (s.triageOf cfg focused) } := by
    unfold answerCall
    rw [hcall]
  exact head h hst rfl (of_recheckAnnotations h rfl)

theorem of_recheckSnapshot {triage : Option Revision}
    (hcall : s.call = .recheckSnapshot s.db.state (cfg.teamSnapshot s.db.catalogTables) triage) :
    Rests cfg s := by
  have hst : s.answerCall cfg true true = some (s.recheckSnapshotStep cfg s.db.state
      (cfg.teamSnapshot s.db.catalogTables) triage true) := by
    unfold answerCall
    rw [hcall]
  unfold recheckSnapshotStep at hst
  rw [if_neg (fun hne => hne rfl)] at hst
  have hdb : (s.publish .triage triage true).2.db = s.db := publish_db ..
  refine head h hst hdb (of_recheckState (open_of_db h hdb (s.publish_drained _ _ h.1)) ?_)
  show FeedCall.recheckState s.db.state = .recheckState (s.publish .triage triage true).2.db.state
  rw [hdb]

theorem of_annotations
    (hcall : s.call = .annotations s.db.state (cfg.teamSnapshot s.db.catalogTables)) :
    Rests cfg s := by
  have hst : s.answerCall cfg true true = some (s.annotationsStep cfg s.db.state
      (cfg.teamSnapshot s.db.catalogTables)) := by
    unfold answerCall
    rw [hcall]
  exact head h hst rfl (of_recheckSnapshot h rfl)

theorem of_findingIds
    (hcall : s.call = .findingIds s.db.state (cfg.teamSnapshot s.db.catalogTables)) :
    Rests cfg s := by
  have hst : s.answerCall cfg true true = some (s.findingIdsStep cfg s.db.state
      (cfg.teamSnapshot s.db.catalogTables) true) := by
    unfold answerCall
    rw [hcall]
  unfold findingIdsStep at hst
  rw [if_pos rfl] at hst
  exact head h hst rfl (of_annotations h rfl)

theorem of_snapshot (hcall : s.call = .snapshot s.db.state) : Rests cfg s := by
  have hst : s.answerCall cfg true true = some (s.snapshotStep cfg s.db.state) := by
    unfold answerCall
    rw [hcall]
  unfold snapshotStep at hst
  dsimp only at hst
  split_ifs at hst
  · exact head h hst rfl (of_annotations h rfl)
  · exact head h hst rfl (of_findingIds h rfl)
  · exact head h hst rfl (of_annotations h rfl)

theorem of_recheckUser {revision : Revision}
    (hcall : s.call = .recheckUser s.db.state revision) : Rests cfg s := by
  have hst : s.answerCall cfg true true =
      some (s.recheckUserStep cfg s.db.state revision true) := by
    unfold answerCall
    rw [hcall]
  have hopen := s.publish_drained .teams (some revision) h.1
  have hdb : (s.publish .teams (some revision) true).2.db = s.db := publish_db ..
  have hout := (s.publish_open .teams (some revision) true hopen).1
  unfold recheckUserStep at hst
  dsimp only at hst
  rw [if_neg (by simp [hout])] at hst
  split_ifs at hst
  · refine head h hst hdb (of_snapshot (open_of_db h hdb hopen) ?_)
    show FeedCall.snapshot s.db.state = .snapshot (s.publish _ _ _).2.db.state
    rw [hdb]
  · refine head h hst hdb (of_recheckCatalog (open_of_db h hdb hopen) ?_)
    show FeedCall.recheckCatalog s.db.state = .recheckCatalog (s.publish _ _ _).2.db.state
    rw [hdb]

theorem of_catalog (hcall : s.call = .catalog s.db.state) : Rests cfg s := by
  have hst : s.answerCall cfg true true = some { s with
      call := .recheckUser s.db.state (cfg.catalogRevision s.db.catalogTables) } := by
    unfold answerCall
    rw [hcall]
    rfl
  exact head h hst rfl (of_recheckUser h rfl)

/-- **A poll in quiet tables brings the feed to rest.** -/
theorem of_poll (hcall : s.call = .poll) : Rests cfg s := by
  have hst : s.answerCall cfg true true = some (s.pollStep cfg) := by
    unfold answerCall
    rw [hcall]
  unfold pollStep at hst
  split_ifs at hst with hsame
  · obtain ⟨p, hp⟩ : ∃ p, s.previousState = some p := by
      cases hprev : s.previousState with
      | none => exact absurd hsame.1 (by simp [sameCatalog, hprev])
      | some p => exact ⟨p, rfl⟩
    refine last h hst ⟨hcall, rfl, h.1, p, hp, (sameCatalog_iff hp).mp hsame.1, ?_⟩
    intro hteam
    rcases hsame.2 with hf | ha
    · exact absurd (hf.symm.trans hteam) (by simp)
    · exact (sameAnnotations_iff hp).mp ha
  · refine head h hst rfl ?_
    unfold firstCall
    split
    · split_ifs
      · exact of_annotationsOnly h rfl
      · exact of_catalog h rfl
    · exact of_catalog h rfl

end

end TeamFeed.Rests

/-! ### The feed never rests on stale data -/

/-- What a client has been told, if the last frames of the feed are those of the present tables. -/
def TeamFeed.Current (cfg : FeedConfig α β Snapshot Annotation Revision)
    (s : TeamFeed α β Snapshot Revision) : Prop :=
  s.lastFrame .teams = some (cfg.catalogRevision s.db.catalogTables) ∧
    (cfg.team → s.stopped = false → ∀ r,
      cfg.triageRevision (cfg.teamSnapshot s.db.catalogTables) s.db.annotationTables = some r →
        s.lastFrame .triage = some r)

/-- The counters remembered are those of the tables: both of them, for a focused team. -/
def TeamFeed.Resting (cfg : FeedConfig α β Snapshot Annotation Revision)
    (s : TeamFeed α β Snapshot Revision) : Prop :=
  ∃ p, s.previousState = some p ∧ p.catalog = s.db.catalog ∧
    (cfg.team → p.annotations = s.db.annotations)

omit [DecidableEq Snapshot] [DecidableEq Revision] in
theorem TeamFeed.Inv.current {past : (AnnotationTable → β) → Prop} (h : s.Inv cfg past)
    (hrest : s.Resting cfg) : s.Current cfg := by
  obtain ⟨p, hp, hc, ha⟩ := hrest
  obtain ⟨-, hteams, hteam⟩ := h.core.remembered p hp
  refine ⟨h.core.framed _ _ (hteams hc), ?_⟩
  intro ht hopen r hr
  apply h.core.framed
  rw [(hteam ht).1 hc (ha ht) hopen]
  exact hr

/-- **The feed never rests on stale data.**  In every state of every run, for any interleaving with
the writers: a feed that remembers the present counters has told the client the revision of the
present catalog, and of the present annotations of its team unless its response is closed; the polls
of an open stream whose reports can be read bring it to that once writes have stopped; and a step
sends annotations only under the snapshot of the team that they were read under. -/
theorem feed_fresh {db : FeedDb α β} (h : (teamFeed cfg).Reachable (TeamFeed.start db) s) :
    (s.Resting cfg → s.Current cfg) ∧
    (s.call = .poll → s.Open cfg → ∃ n s',
      (teamFeed cfg).run s (List.replicate n TeamFeed.quietAnswer) = some s' ∧
        s'.call = .poll ∧ s'.db = s.db ∧ s'.stopped = false ∧ s'.Resting cfg ∧ s'.Current cfg) ∧
    ∀ a s', (teamFeed cfg).step s a = some s' →
      TeamFeed.FrameOk cfg (PastAnnotations cfg (TeamFeed.start db) s) s s' := by
  have hinv := TeamFeed.inv_of_reachable h
  refine ⟨hinv.current, ?_, fun a s' hst => hinv.frameOk hst⟩
  intro hcall hopen
  obtain ⟨n, s', hrun, hpoll, hdb, hs', p, hp, hc, ha⟩ := TeamFeed.Rests.of_poll hopen hcall
  have hrest : s'.Resting cfg := ⟨p, hp, by rw [hdb]; exact hc, by rw [hdb]; exact ha⟩
  have hreach := h.trans (Machine.reachable_of_run hrun)
  exact ⟨n, s', hrun, hpoll, hdb, hs', hrest, (TeamFeed.inv_of_reachable hreach).current hrest⟩

end Runs

/-! ### A feed that is closed, and a catalog that moves -/

namespace TeamFeed

/-- A user of a team with one report and one annotated finding: each revision is the number of rows
of its tables. -/
def small : FeedConfig ℕ ℕ ℕ ℕ (ℕ × ℕ) where
  reads := {
    catalogRevision := fun _ tables => (tables .team, tables .report)
    teamSnapshot := fun _ tables => tables .report
    member := fun _ => true
    findingIds := fun _ => ["finding"]
    annotationRevision := fun _ tables => tables .findingTriage
    teamAnnotationRevision := fun snapshot annotations => (snapshot, annotations) }
  user := ⟨"user", .view⟩
  team := true

def smallDb : FeedDb ℕ ℕ := ⟨fun _ => 1, fun _ => 1, 0, 0, some small.user⟩

/-- The eight answers of a poll, with what happens before the last `n` of them. -/
def smallPoll (between : List (FeedLabel ℕ ℕ)) (n : ℕ) : List (FeedLabel ℕ ℕ) :=
  List.replicate (8 - n) quietAnswer ++ between ++ List.replicate n quietAnswer

/-- A poll in quiet tables. -/
theorem feed_fresh_small : ∃ s : TeamFeed ℕ ℕ ℕ (ℕ × ℕ),
    s.Resting small ∧ s.Current small ∧ s.frames = [(.teams, (1, 1)), (.triage, (1, 1))] := by
  obtain ⟨s, hrun, hrest, hframes⟩ : ∃ s : TeamFeed ℕ ℕ ℕ (ℕ × ℕ),
      (teamFeed small).run (start smallDb) (smallPoll [] 0) = some s ∧ s.Resting small ∧
        s.frames = [(.teams, (1, 1)), (.triage, (1, 1))] :=
    ⟨_, rfl, ⟨_, rfl, rfl, fun _ => rfl⟩, rfl⟩
  exact ⟨s, hrest, (feed_fresh (Machine.reachable_of_run hrun)).1 hrest, hframes⟩

/-- A response that is closed before the annotations are published: the poll ends with the counters
remembered, and they were never told.  And a poll whose catalog moves before the snapshot is read
again, for rows the team's snapshot does not show: its annotations are published. -/
theorem closed_response :
    (∃ s : TeamFeed ℕ ℕ ℕ (ℕ × ℕ), (teamFeed small).Reachable (start smallDb) s ∧
      s.call = .poll ∧ s.previousState = some s.db.state ∧ s.focused = some 1 ∧
      s.lastFrame .triage = none ∧
      small.triageRevision (small.teamSnapshot s.db.catalogTables) s.db.annotationTables =
        some (1, 1)) ∧
    ∃ s s' : TeamFeed ℕ ℕ ℕ (ℕ × ℕ), ∃ state triage,
      (teamFeed small).Reachable (start smallDb) s ∧
      s.call = .recheckSnapshot state 1 (some triage) ∧ s.db.catalog ≠ state.catalog ∧
      (teamFeed small).step s quietAnswer = some s' ∧
      s'.frames = s.frames ++ [(.triage, triage)] := by
  constructor
  · obtain ⟨s, hrun, hs⟩ : ∃ s : TeamFeed ℕ ℕ ℕ (ℕ × ℕ),
        (teamFeed small).run (start smallDb) (smallPoll [.stop] 2) = some s ∧
        s.call = .poll ∧ s.previousState = some s.db.state ∧ s.focused = some 1 ∧
        s.lastFrame .triage = none ∧
        small.triageRevision (small.teamSnapshot s.db.catalogTables) s.db.annotationTables =
          some (1, 1) :=
      ⟨_, rfl, rfl, rfl, rfl, rfl, rfl⟩
    exact ⟨s, Machine.reachable_of_run hrun, hs⟩
  · obtain ⟨s, s', hrun, hcall, hmoved, hst, hframes⟩ : ∃ s s' : TeamFeed ℕ ℕ ℕ (ℕ × ℕ),
        (teamFeed small).run (start smallDb)
          (List.replicate 6 quietAnswer ++ [.commit [.catalog .team 2]]) = some s ∧
        s.call = .recheckSnapshot ⟨0, 0⟩ 1 (some (1, 1)) ∧ s.db.catalog ≠ 0 ∧
        (teamFeed small).step s quietAnswer = some s' ∧
        s'.frames = s.frames ++ [(.triage, (1, 1))] :=
      ⟨_, _, rfl, rfl, by decide, rfl, rfl⟩
    exact ⟨s, s', ⟨0, 0⟩, (1, 1), Machine.reachable_of_run hrun, hcall, hmoved, hst, hframes⟩

end TeamFeed

end Triage.Managed
