import Triage.Managed.TeamFeed
import Mathlib.Data.Nat.Basic

/-!
# What a feed knows between two calls

What a call reads is that of the counters a poll began with, as long as they have not moved. This
is kept while writers move them, and it is what the feed relies on when it remembers them.

## Main results

* `TeamFeed.Inv.step` : every step of a feed and its writers keeps the invariant.
* `TeamFeed.inv_of_reachable` : so it holds in every state of every run.
-/

namespace Triage.Managed

open Function TeamFeed

variable {α β Snapshot Annotation Revision : Type}

/-! ### Counters and tables -/

instance : LE FeedState := ⟨fun a b => a.catalog ≤ b.catalog ∧ a.annotations ≤ b.annotations⟩

namespace FeedDb

/-- `P` holds of the catalog tables if their counter is `c`. -/
def AtCatalog (db : FeedDb α β) (c : ℕ) (P : (CatalogTable → α) → Prop) : Prop :=
  c = db.catalog → P db.catalogTables

/-- `P` holds of the annotation tables if their counter is `a`. -/
def AtAnnotations (db : FeedDb α β) (a : ℕ) (P : (AnnotationTable → β) → Prop) : Prop :=
  a = db.annotations → P db.annotationTables

/-- `P` holds of the tables if both counters are those of `state`. -/
def AtState (db : FeedDb α β) (state : FeedState)
    (P : (CatalogTable → α) → (AnnotationTable → β) → Prop) : Prop :=
  db.AtCatalog state.catalog fun tables => db.AtAnnotations state.annotations (P tables)

/-- `db'` comes after `db`: no counter goes back, and a table changes only with its counter. -/
structure Later (db db' : FeedDb α β) : Prop where
  state_le : db.state ≤ db'.state
  catalog : db.AtCatalog db'.catalog (db'.catalogTables = ·)
  annotations : db.AtAnnotations db'.annotations (db'.annotationTables = ·)

variable {db db' db'' : FeedDb α β}

theorem Later.refl (db : FeedDb α β) : db.Later db :=
  ⟨⟨le_rfl, le_rfl⟩, fun _ => rfl, fun _ => rfl⟩

theorem Later.trans (h : db.Later db') (h' : db'.Later db'') : db.Later db'' where
  state_le := ⟨h.state_le.1.trans h'.state_le.1, h.state_le.2.trans h'.state_le.2⟩
  catalog := by
    intro heq
    have heq' : db''.catalog = db'.catalog := le_antisymm (heq.trans_le h.state_le.1) h'.state_le.1
    exact (h'.catalog heq').trans (h.catalog (heq'.symm.trans heq))
  annotations := by
    intro heq
    have heq' : db''.annotations = db'.annotations :=
      le_antisymm (heq.trans_le h.state_le.2) h'.state_le.2
    exact (h'.annotations heq').trans (h.annotations (heq'.symm.trans heq))

/-- A trigger counts every change of a row. -/
theorem later_change (db : FeedDb α β) (change : RowChange α β) : db.Later (db.change change) := by
  cases change with
  | catalog table rows =>
    refine ⟨⟨Nat.le_succ _, le_rfl⟩, ?_, fun _ => rfl⟩
    intro heq
    exact absurd heq (Nat.succ_ne_self _)
  | annotations table rows =>
    refine ⟨⟨le_rfl, Nat.le_succ _⟩, fun _ => rfl, ?_⟩
    intro heq
    exact absurd heq (Nat.succ_ne_self _)

theorem later_commit (changes : List (RowChange α β)) :
    ∀ db : FeedDb α β, db.Later (changes.foldl FeedDb.change db) := by
  induction changes with
  | nil =>
    intro db
    exact .refl db
  | cons change changes ih =>
    intro db
    exact (db.later_change change).trans (ih _)

theorem later_session (db : FeedDb α β) (user : Option FeedUser) :
    db.Later { db with session := user } :=
  ⟨⟨le_rfl, le_rfl⟩, fun _ => rfl, fun _ => rfl⟩

theorem AtCatalog.later {c : ℕ} {P : (CatalogTable → α) → Prop} (h : db.AtCatalog c P)
    (hl : db.Later db') (hle : c ≤ db.catalog) : db'.AtCatalog c P := by
  intro heq
  have heq' : db'.catalog = db.catalog := le_antisymm (heq ▸ hle) hl.state_le.1
  rw [hl.catalog heq']
  exact h (heq.trans heq')

theorem AtAnnotations.later {a : ℕ} {P : (AnnotationTable → β) → Prop}
    (h : db.AtAnnotations a P) (hl : db.Later db') (hle : a ≤ db.annotations) :
    db'.AtAnnotations a P := by
  intro heq
  have heq' : db'.annotations = db.annotations := le_antisymm (heq ▸ hle) hl.state_le.2
  rw [hl.annotations heq']
  exact h (heq.trans heq')

theorem AtState.later {state : FeedState} {P : (CatalogTable → α) → (AnnotationTable → β) → Prop}
    (h : db.AtState state P) (hl : db.Later db') (hle : state ≤ db.state) :
    db'.AtState state P := by
  intro hc ha
  exact ((AtCatalog.later h hl hle.1) hc).later hl hle.2 ha

end FeedDb

theorem FeedState.trans_le {a b c : FeedState} (h : a ≤ b) (h' : b ≤ c) : a ≤ c :=
  ⟨h.1.trans h'.1, h.2.trans h'.2⟩

/-! ### What a client should be told -/

namespace FeedConfig

variable (cfg : FeedConfig α β Snapshot Annotation Revision)

/-- The revision of the catalog. -/
def catalogRevision (tables : CatalogTable → α) : Revision :=
  cfg.reads.catalogRevision cfg.user tables

/-- The snapshot of the team. -/
def teamSnapshot (tables : CatalogTable → α) : Snapshot :=
  cfg.reads.teamSnapshot cfg.user tables

/-- The findings of a snapshot: none for a user who is not in the team. -/
def findings (snapshot : Snapshot) : List String :=
  if cfg.reads.member snapshot then cfg.reads.findingIds snapshot else []

/-- The revision of a team's annotations, for a user of the team. -/
def triageRevision (snapshot : Snapshot) (tables : AnnotationTable → β) : Option Revision :=
  if cfg.reads.member snapshot then
    some (cfg.reads.teamAnnotationRevision snapshot
      (cfg.reads.annotationRevision (cfg.reads.findingIds snapshot) tables))
  else none

end FeedConfig

namespace TeamFeed

/-- The last frame of an event. -/
def lastFrame (s : TeamFeed α β Snapshot Revision) (event : FeedEvent) : Option Revision :=
  ((s.frames.filter fun frame => frame.1 = event).getLast?).map Prod.snd

variable (cfg : FeedConfig α β Snapshot Annotation Revision)
  (s : TeamFeed α β Snapshot Revision)

/-- What is told of each event is its last frame. -/
def Framed : Prop := ∀ e r, s.previous e = some r → s.lastFrame e = some r

/-- The client has been told the revision of the catalog at the counter. -/
def ToldTeams (state : FeedState) : Prop :=
  s.db.AtCatalog state.catalog fun tables => s.previous .teams = some (cfg.catalogRevision tables)

/-- The client has been told the revision of the team's annotations at the counters, unless its
response has been closed. -/
def ToldTriage (state : FeedState) : Prop :=
  s.db.AtState state fun catalog annotations => s.stopped = false →
    s.previous .triage = cfg.triageRevision (cfg.teamSnapshot catalog) annotations

/-- The focused snapshot is that of the team at the counter, and its findings are known. -/
def Focused (state : FeedState) : Prop :=
  s.db.AtCatalog state.catalog fun tables => ∀ snapshot, s.focused = some snapshot →
    snapshot = cfg.teamSnapshot tables ∧ cfg.reads.member snapshot ∧
      s.visibilityKey = some snapshot

/-- What the client has been told of the tables at the counters. -/
def Told (state : FeedState) : Prop :=
  s.ToldTeams cfg state ∧ (cfg.team → s.ToldTriage cfg state ∧ s.Focused cfg state)

/-- What a poll knows of the counters it began with: they do not run ahead of the tables, nor
behind those remembered, and one that matters has moved. -/
def Began (state : FeedState) : Prop :=
  state ≤ s.db.state ∧ ∀ p, s.previousState = some p → p ≤ state ∧
    ¬(p.catalog = state.catalog ∧ (cfg.team = false ∨ p.annotations = state.annotations))

/-- A poll that reads the catalog: it has moved, or no team is focused. -/
def Slow (state : FeedState) : Prop :=
  ∀ p, s.previousState = some p → p.catalog = state.catalog → s.focused = none

/-- A poll that reads annotations alone: the catalog has not moved. -/
def Quick (state : FeedState) (focused : Snapshot) : Prop :=
  cfg.team ∧ s.focused = some focused ∧
    ∃ p, s.previousState = some p ∧ p.catalog = state.catalog

/-- What each call of a poll may rely on.  `past` holds of the annotation tables of every state so
far. -/
def CallInv (past : (AnnotationTable → β) → Prop) : FeedCall Snapshot Revision → Prop
  | .poll | .ended => True
  | .annotationsOnly state focused => s.Began cfg state ∧ s.Quick cfg state focused
  | .recheckAnnotations state triage =>
    s.Began cfg state ∧ (∃ focused, s.Quick cfg state focused) ∧
      ∃ tables, past tables ∧ s.db.AtAnnotations state.annotations (tables = ·) ∧
        s.db.AtCatalog state.catalog fun catalog =>
          some triage = cfg.triageRevision (cfg.teamSnapshot catalog) tables
  | .catalog state => s.Began cfg state ∧ s.Slow state
  | .recheckUser state revision =>
    s.Began cfg state ∧ s.Slow state ∧
      s.db.AtCatalog state.catalog fun tables => revision = cfg.catalogRevision tables
  | .recheckCatalog state => s.Began cfg state ∧ cfg.team = false ∧ s.ToldTeams cfg state
  | .snapshot state => s.Began cfg state ∧ cfg.team ∧ s.Slow state ∧ s.ToldTeams cfg state
  | .findingIds state snapshot =>
    s.Began cfg state ∧ cfg.team ∧ s.Slow state ∧ s.ToldTeams cfg state ∧
      cfg.reads.member snapshot
  | .annotations state snapshot =>
    s.Began cfg state ∧ cfg.team ∧ s.Slow state ∧ s.ToldTeams cfg state ∧
      s.visibilityKey = some snapshot
  | .recheckSnapshot state snapshot triage =>
    s.Began cfg state ∧ cfg.team ∧ s.Slow state ∧ s.ToldTeams cfg state ∧
      s.visibilityKey = some snapshot ∧
      ∃ tables, past tables ∧ s.db.AtAnnotations state.annotations (tables = ·) ∧
        triage = cfg.triageRevision snapshot tables
  | .recheckState state => s.Began cfg state ∧ s.Told cfg state

/-- What holds of a feed between any two calls, whatever call comes next. -/
structure Core : Prop where
  cache : ∀ snapshot, s.visibilityKey = some snapshot → s.ids = cfg.findings snapshot
  framed : s.Framed
  remembered : ∀ p, s.previousState = some p → p ≤ s.db.state ∧ s.Told cfg p

/-- **The invariant of a feed.** -/
structure Inv (past : (AnnotationTable → β) → Prop) : Prop where
  core : s.Core cfg
  call : s.CallInv cfg past s.call

end TeamFeed

namespace TeamFeed

/-! ### Publishing -/

section Publish

variable [DecidableEq Revision] (s : TeamFeed α β Snapshot Revision) (event : FeedEvent)
  (revision : Option Revision) (drained : Bool)

/-- The outcomes of `publish`: the stream is closed, nothing is current, the revision is told
already, it is sent, or the response is closed for being full. -/
theorem publish_cases :
    (s.stopped = true ∧ s.publish event revision drained = (false, s)) ∨
    (s.stopped = false ∧ revision = none ∧ s.publish event revision drained =
      (true, { s with previous := update s.previous event none })) ∨
    (s.stopped = false ∧ s.previous event = revision ∧
      s.publish event revision drained = (true, s)) ∨
    (s.stopped = false ∧ ∃ r, revision = some r ∧ s.publish event revision drained =
      (true, { s with
        previous := update s.previous event (some r)
        frames := s.frames ++ [(event, r)] })) ∨
    (drained = false ∧ s.publish event revision drained = (false, { s with stopped := true })) := by
  unfold publish
  cases hstop : s.stopped with
  | true => exact .inl ⟨rfl, if_pos rfl⟩
  | false =>
    rw [if_neg Bool.false_ne_true]
    cases revision with
    | none => exact .inr (.inl ⟨rfl, rfl, rfl⟩)
    | some r =>
      dsimp only
      split_ifs with hsame hdrained
      · exact .inr (.inr (.inl ⟨rfl, hsame, rfl⟩))
      · exact .inr (.inr (.inr (.inl ⟨rfl, r, rfl, rfl⟩)))
      · exact .inr (.inr (.inr (.inr ⟨by simpa using hdrained, rfl⟩)))

/-- What `publish` leaves alone. -/
theorem publish_frame {γ : Type} (f : TeamFeed α β Snapshot Revision → γ)
    (hf : ∀ previous frames stopped,
      f { s with previous := previous, frames := frames, stopped := stopped } = f s) :
    f (s.publish event revision drained).2 = f s := by
  rcases s.publish_cases event revision drained with
    ⟨-, h⟩ | ⟨-, -, h⟩ | ⟨-, -, h⟩ | ⟨-, r, -, h⟩ | ⟨-, h⟩
  · rw [h]
  · rw [h]
    exact hf _ s.frames s.stopped
  · rw [h]
  · rw [h]
    exact hf _ _ s.stopped
  · rw [h]
    exact hf s.previous s.frames true

@[simp] theorem publish_db : (s.publish event revision drained).2.db = s.db :=
  s.publish_frame event revision drained (·.db) fun _ _ _ => rfl

@[simp] theorem publish_ids : (s.publish event revision drained).2.ids = s.ids :=
  s.publish_frame event revision drained (·.ids) fun _ _ _ => rfl

@[simp] theorem publish_visibilityKey :
    (s.publish event revision drained).2.visibilityKey = s.visibilityKey :=
  s.publish_frame event revision drained (·.visibilityKey) fun _ _ _ => rfl

@[simp] theorem publish_focused : (s.publish event revision drained).2.focused = s.focused :=
  s.publish_frame event revision drained (·.focused) fun _ _ _ => rfl

@[simp] theorem publish_previousState :
    (s.publish event revision drained).2.previousState = s.previousState :=
  s.publish_frame event revision drained (·.previousState) fun _ _ _ => rfl

/-- An event that has been published is told. -/
theorem publish_told (hout : (s.publish event revision drained).1 = true) :
    (s.publish event revision drained).2.previous event = revision := by
  rcases s.publish_cases event revision drained with
    ⟨-, h⟩ | ⟨-, rfl, h⟩ | ⟨-, hsame, h⟩ | ⟨-, r, rfl, h⟩ | ⟨-, h⟩
  · rw [h] at hout
    exact absurd hout Bool.false_ne_true
  · rw [h]
    exact update_self event none s.previous
  · rw [h]
    exact hsame
  · rw [h]
    exact update_self event (some r) s.previous
  · rw [h] at hout
    exact absurd hout Bool.false_ne_true

/-- A stream that is open after publishing was open before, and has been told. -/
theorem publish_open (hopen : (s.publish event revision drained).2.stopped = false) :
    (s.publish event revision drained).1 = true ∧ s.stopped = false := by
  rcases s.publish_cases event revision drained with
    ⟨hstop, h⟩ | ⟨hs, -, h⟩ | ⟨hs, -, h⟩ | ⟨hs, r, -, h⟩ | ⟨-, h⟩
  · rw [h] at hopen
    exact absurd (hstop.symm.trans hopen) (by simp)
  · exact ⟨by rw [h], hs⟩
  · exact ⟨by rw [h], hs⟩
  · exact ⟨by rw [h], hs⟩
  · rw [h] at hopen
    exact absurd hopen (by simp)

theorem publish_other {event' : FeedEvent} (hne : event' ≠ event) :
    (s.publish event revision drained).2.previous event' = s.previous event' := by
  rcases s.publish_cases event revision drained with
    ⟨-, h⟩ | ⟨-, -, h⟩ | ⟨-, -, h⟩ | ⟨-, r, -, h⟩ | ⟨-, h⟩ <;> rw [h]
  · exact update_of_ne hne none s.previous
  · exact update_of_ne hne (some r) s.previous

theorem publish_previous : (s.publish event revision drained).2.previous event = s.previous event ∨
    (s.publish event revision drained).2.previous event = revision := by
  cases hout : (s.publish event revision drained).1 with
  | true => exact .inr (s.publish_told event revision drained hout)
  | false =>
    rcases s.publish_cases event revision drained with
      ⟨-, h⟩ | ⟨-, -, h⟩ | ⟨-, -, h⟩ | ⟨-, r, -, h⟩ | ⟨-, h⟩
    · exact .inl (by rw [h])
    · exact absurd (hout.symm.trans (by rw [h])) Bool.false_ne_true
    · exact .inl (by rw [h])
    · exact absurd (hout.symm.trans (by rw [h])) Bool.false_ne_true
    · exact .inl (by rw [h])

/-- A drained response stays open. -/
theorem publish_drained (hopen : s.stopped = false) :
    (s.publish event revision true).2.stopped = false := by
  rcases s.publish_cases event revision true with
    ⟨-, h⟩ | ⟨-, -, h⟩ | ⟨-, -, h⟩ | ⟨-, r, -, h⟩ | ⟨hd, -⟩
  · rw [h]
    exact hopen
  · rw [h]
    exact hopen
  · rw [h]
    exact hopen
  · rw [h]
    exact hopen
  · exact absurd hd (by simp)

/-- The frames that `publish` sends: none, or the revision. -/
theorem publish_frames : (s.publish event revision drained).2.frames = s.frames ∨
    ∃ r, revision = some r ∧
      (s.publish event revision drained).2.frames = s.frames ++ [(event, r)] := by
  rcases s.publish_cases event revision drained with
    ⟨-, h⟩ | ⟨-, -, h⟩ | ⟨-, -, h⟩ | ⟨-, r, hr, h⟩ | ⟨-, h⟩
  · exact .inl (by rw [h])
  · exact .inl (by rw [h])
  · exact .inl (by rw [h])
  · exact .inr ⟨r, hr, by rw [h]⟩
  · exact .inl (by rw [h])

theorem Framed.publish (hs : s.Framed) : (s.publish event revision drained).2.Framed := by
  rcases s.publish_cases event revision drained with
    ⟨-, h⟩ | ⟨-, -, h⟩ | ⟨-, -, h⟩ | ⟨-, r, -, h⟩ | ⟨-, h⟩
  · rw [h]
    exact hs
  · rw [h]
    -- nothing is current, so nothing is told of the event:
    intro e r htold
    by_cases he : e = event
    · subst he
      have hnone : none = some r := (update_self e none s.previous).symm.trans htold
      exact absurd hnone (by simp)
    · exact hs e r ((update_of_ne he none s.previous).symm.trans htold)
  · rw [h]
    exact hs
  · rw [h]
    -- the frame that is sent is the last one:
    intro e r' htold
    unfold lastFrame
    by_cases he : e = event
    · subst he
      have heq : some r = some r' := (update_self e (some r) s.previous).symm.trans htold
      simpa [List.filter_append] using heq
    · have hlast := hs e r' ((update_of_ne he (some r) s.previous).symm.trans htold)
      simpa [List.filter_append, lastFrame, Ne.symm he] using hlast
  · rw [h]
    exact hs

end Publish

/-! ### Facts that survive -/

section Facts

variable {cfg : FeedConfig α β Snapshot Annotation Revision} {s : TeamFeed α β Snapshot Revision}
  {state : FeedState} {past past' : (AnnotationTable → β) → Prop} {db' : FeedDb α β}

theorem Told.later (h : s.Told cfg state) (hl : s.db.Later db') (hle : state ≤ s.db.state) :
    Told cfg { s with db := db' } state := by
  refine ⟨FeedDb.AtCatalog.later h.1 hl hle.1, ?_⟩
  intro hteam
  exact ⟨FeedDb.AtState.later (h.2 hteam).1 hl hle, FeedDb.AtCatalog.later (h.2 hteam).2 hl hle.1⟩

theorem Began.later (h : s.Began cfg state) (hl : s.db.Later db') :
    Began cfg { s with db := db' } state :=
  ⟨FeedState.trans_le h.1 hl.state_le, h.2⟩

theorem Core.later (h : s.Core cfg) (hl : s.db.Later db') : Core cfg { s with db := db' } where
  cache := h.cache
  framed := h.framed
  remembered := by
    intro p hp
    obtain ⟨hle, htold⟩ := h.remembered p hp
    exact ⟨FeedState.trans_le hle hl.state_le, htold.later hl hle⟩

/-- Writers may move the tables between any two calls. -/
theorem CallInv.later {call : FeedCall Snapshot Revision} (h : s.CallInv cfg past call)
    (hl : s.db.Later db') : CallInv cfg { s with db := db' } past call := by
  cases call with
  | poll => trivial
  | ended => trivial
  | annotationsOnly state focused => exact ⟨h.1.later hl, h.2⟩
  | recheckAnnotations state triage =>
    obtain ⟨hb, hq, tables, hpast, hann, hcat⟩ := h
    exact ⟨hb.later hl, hq, tables, hpast, hann.later hl hb.1.2, hcat.later hl hb.1.1⟩
  | catalog state => exact ⟨h.1.later hl, h.2⟩
  | recheckUser state revision =>
    obtain ⟨hb, hslow, hrev⟩ := h
    exact ⟨hb.later hl, hslow, hrev.later hl hb.1.1⟩
  | recheckCatalog state =>
    obtain ⟨hb, hteam, htold⟩ := h
    exact ⟨hb.later hl, hteam, FeedDb.AtCatalog.later htold hl hb.1.1⟩
  | snapshot state =>
    obtain ⟨hb, hteam, hslow, htold⟩ := h
    exact ⟨hb.later hl, hteam, hslow, FeedDb.AtCatalog.later htold hl hb.1.1⟩
  | findingIds state snapshot =>
    obtain ⟨hb, hteam, hslow, htold, hmem⟩ := h
    exact ⟨hb.later hl, hteam, hslow, FeedDb.AtCatalog.later htold hl hb.1.1, hmem⟩
  | annotations state snapshot =>
    obtain ⟨hb, hteam, hslow, htold, hkey⟩ := h
    exact ⟨hb.later hl, hteam, hslow, FeedDb.AtCatalog.later htold hl hb.1.1, hkey⟩
  | recheckSnapshot state snapshot triage =>
    obtain ⟨hb, hteam, hslow, htold, hkey, tables, hpast, hann, htri⟩ := h
    exact ⟨hb.later hl, hteam, hslow, FeedDb.AtCatalog.later htold hl hb.1.1, hkey, tables, hpast,
      hann.later hl hb.1.2, htri⟩
  | recheckState state => exact ⟨h.1.later hl, h.2.later hl h.1.1⟩

theorem CallInv.mono {call : FeedCall Snapshot Revision} (h : s.CallInv cfg past call)
    (hp : ∀ tables, past tables → past' tables) : s.CallInv cfg past' call := by
  cases call with
  | recheckAnnotations state triage =>
    obtain ⟨hb, hq, tables, hpast, hrest⟩ := h
    exact ⟨hb, hq, tables, hp tables hpast, hrest⟩
  | recheckSnapshot state snapshot triage =>
    obtain ⟨hb, hteam, hslow, htold, hkey, tables, hpast, hrest⟩ := h
    exact ⟨hb, hteam, hslow, htold, hkey, tables, hp tables hpast, hrest⟩
  | _ => exact h

/-- A closed response is owed no annotations. -/
theorem Told.stop (h : s.Told cfg state) : Told cfg { s with stopped := true } state := by
  refine ⟨h.1, fun hteam => ⟨?_, (h.2 hteam).2⟩⟩
  intro _ _ hopen
  exact absurd hopen (by simp)

theorem Core.stop (h : s.Core cfg) : Core cfg { s with stopped := true } where
  cache := h.cache
  framed := h.framed
  remembered := by
    intro p hp
    exact ⟨(h.remembered p hp).1, (h.remembered p hp).2.stop⟩

theorem CallInv.stop {call : FeedCall Snapshot Revision} (h : s.CallInv cfg past call) :
    CallInv cfg { s with stopped := true } past call := by
  cases call with
  | recheckState state => exact ⟨h.1, h.2.stop⟩
  | _ => exact h

theorem Core.call (h : s.Core cfg) (call : FeedCall Snapshot Revision) :
    Core cfg { s with call := call } :=
  ⟨h.cache, h.framed, h.remembered⟩

/-- A poll that ends without remembering anything. -/
theorem Core.rest (h : s.Core cfg) : s.rest.Inv cfg past := ⟨h.call .poll, trivial⟩

/-- A poll may remember counters that are told. -/
theorem Core.remember (h : s.Core cfg) (hle : state ≤ s.db.state) (htold : s.Told cfg state)
    (unmoved : Prop) [Decidable unmoved] : (s.remember state unmoved).Inv cfg past := by
  unfold TeamFeed.remember
  split_ifs
  · refine ⟨⟨h.cache, h.framed, ?_⟩, trivial⟩
    intro p hp
    cases hp
    exact ⟨hle, htold⟩
  · exact h.rest

/-! ### Each call keeps the invariant -/

theorem sameCatalog_iff {p : FeedState} (hp : s.previousState = some p) :
    s.sameCatalog = true ↔ p.catalog = s.db.catalog := by
  simp [sameCatalog, hp]

theorem sameAnnotations_iff {p : FeedState} (hp : s.previousState = some p) :
    s.sameAnnotations = true ↔ p.annotations = s.db.annotations := by
  simp [sameAnnotations, hp]

theorem Core.pollStep (h : s.Core cfg) (hcall : s.call = .poll) :
    (s.pollStep cfg).Inv cfg past := by
  unfold TeamFeed.pollStep
  by_cases hsame : s.sameCatalog ∧ (cfg.team = false ∨ s.sameAnnotations)
  · rw [if_pos hsame]
    refine ⟨h, ?_⟩
    rw [hcall]
    trivial
  · rw [if_neg hsame]
    have hb : s.Began cfg s.db.state := by
      refine ⟨⟨le_rfl, le_rfl⟩, ?_⟩
      intro p hp
      refine ⟨(h.remembered p hp).1, ?_⟩
      rintro ⟨hc, ha⟩
      apply hsame
      rw [sameCatalog_iff hp, sameAnnotations_iff hp]
      exact ⟨hc, ha⟩
    refine ⟨h.call _, ?_⟩
    show s.CallInv cfg past (s.firstCall cfg)
    unfold firstCall
    split
    · rename_i focused hfocus
      split_ifs with hquick
      · refine ⟨hb, hquick.1, hfocus, ?_⟩
        obtain ⟨p, hp⟩ : ∃ p, s.previousState = some p := by
          cases hprev : s.previousState with
          | none => exact absurd hquick.2 (by simp [sameCatalog, hprev])
          | some p => exact ⟨p, rfl⟩
        exact ⟨p, hp, (sameCatalog_iff hp).mp hquick.2⟩
      · refine ⟨hb, ?_⟩
        intro p hp hc
        have hcat : s.sameCatalog = true := (sameCatalog_iff hp).mpr hc
        have hteam : cfg.team = false := by simpa [hcat] using hquick
        exact absurd ⟨hcat, .inl hteam⟩ hsame
    · rename_i hfocus
      refine ⟨hb, ?_⟩
      intro p _ _
      exact hfocus

variable {snapshot : Snapshot}

theorem triageRevision_of_findings (hids : s.ids = cfg.findings snapshot) :
    cfg.triageRevision snapshot s.db.annotationTables =
      if cfg.reads.member snapshot then some (s.triageOf cfg snapshot) else none := by
  unfold FeedConfig.triageRevision triageOf
  split_ifs with hmem
  · rw [hids, FeedConfig.findings, if_pos hmem]
  · rfl

section

variable (h : s.Core cfg)
include h

/-- The annotations alone are read: their findings are those of the team, if the catalog has not
moved. -/
theorem Core.annotationsOnlyStep (hpast : past s.db.annotationTables)
    (hcall : s.CallInv cfg past (.annotationsOnly state snapshot)) :
    Inv cfg { s with call := .recheckAnnotations state (s.triageOf cfg snapshot) } past := by
  obtain ⟨hb, hteam, hfocus, p, hp, hpc⟩ := hcall
  refine ⟨h.call _, hb, ⟨snapshot, hteam, hfocus, p, hp, hpc⟩, s.db.annotationTables, hpast,
    fun _ => rfl, ?_⟩
  intro hc
  obtain ⟨heq, hmem, hkey⟩ := ((h.remembered p hp).2.2 hteam).2 (hpc.trans hc) snapshot hfocus
  rw [← heq, triageRevision_of_findings (h.cache snapshot hkey), if_pos hmem]

/-- The findings of a snapshot are learnt.  No team is focused then, if the catalog is still that
of the counters remembered. -/
theorem Core.learn {ids : List String}
    (hb : s.Began cfg state) (hslow : s.Slow state) (hids : ids = cfg.findings snapshot)
    (call : FeedCall Snapshot Revision) :
    Core cfg { s with ids := ids, visibilityKey := some snapshot, call := call } where
  cache := by
    intro key hkey
    cases hkey
    exact hids
  framed := h.framed
  remembered := by
    intro p hp
    obtain ⟨hle, hteams, hteam⟩ := h.remembered p hp
    refine ⟨hle, hteams, fun ht => ⟨(hteam ht).1, ?_⟩⟩
    intro hc focused hfocus
    have hstate : p.catalog = state.catalog := le_antisymm (hb.2 p hp).1.1 (hc ▸ hb.1.1)
    exact absurd ((hslow p hp hstate).symm.trans hfocus) (by simp)

theorem Core.annotationsStep (hpast : past s.db.annotationTables)
    (hcall : s.CallInv cfg past (.annotations state snapshot)) :
    (s.annotationsStep cfg state snapshot).Inv cfg past := by
  obtain ⟨hb, hteam, hslow, htold, hkey⟩ := hcall
  refine ⟨h.call _, hb, hteam, hslow, htold, hkey, s.db.annotationTables, hpast, fun _ => rfl, ?_⟩
  exact (triageRevision_of_findings (h.cache snapshot hkey)).symm

theorem Core.snapshotStep [DecidableEq Snapshot] (hcall : s.CallInv cfg past (.snapshot state)) :
    (s.snapshotStep cfg state).Inv cfg past := by
  obtain ⟨hb, hteam, hslow, htold⟩ := hcall
  unfold TeamFeed.snapshotStep
  dsimp only
  split_ifs with hkey hmem
  · exact ⟨h.call _, hb, hteam, hslow, htold, hkey⟩
  · exact ⟨h.call _, hb, hteam, hslow, htold, hmem⟩
  · have hids : [] = cfg.findings (cfg.reads.teamSnapshot cfg.user s.db.catalogTables) :=
      (if_neg hmem).symm
    exact ⟨h.learn hb hslow hids _, hb, hteam, hslow, htold, rfl⟩

end

section Steps

variable [DecidableEq Revision] {revision : Revision} {snapshot : Snapshot}
  {triage : Option Revision} {drained : Bool}

/-- The catalog is told as of the counters the poll began with, so of those remembered only if
they are the same. -/
theorem Core.publish_teams (h : s.Core cfg) (hb : s.Began cfg state)
    (hrev : s.db.AtCatalog state.catalog fun tables => revision = cfg.catalogRevision tables) :
    (s.publish .teams (some revision) drained).2.Core cfg where
  cache := by simpa using h.cache
  framed := Framed.publish s .teams (some revision) drained h.framed
  remembered := by
    intro p hp
    rw [publish_previousState] at hp
    obtain ⟨hle, hteams, hteam⟩ := h.remembered p hp
    refine ⟨by simpa using hle, ?_, ?_⟩
    · unfold ToldTeams
      rw [publish_db]
      intro heq
      rcases s.publish_previous .teams (some revision) drained with hold | hnew
      · rw [hold]
        exact hteams heq
      · have hstate : state.catalog = s.db.catalog :=
          le_antisymm hb.1.1 (heq ▸ (hb.2 p hp).1.1)
        rw [hnew, hrev hstate]
    · intro ht
      obtain ⟨htriage, hfocus⟩ := hteam ht
      refine ⟨?_, by simpa [Focused] using hfocus⟩
      unfold ToldTriage
      rw [publish_db]
      intro hc ha hopen
      rw [s.publish_other .teams (some revision) drained (by decide)]
      exact htriage hc ha (s.publish_open .teams (some revision) drained hopen).2

/-- The annotations are not those of the counters remembered, which have moved. -/
theorem Core.publish_triage (h : s.Core cfg) (hb : s.Began cfg state) :
    (s.publish .triage triage drained).2.Core cfg where
  cache := by simpa using h.cache
  framed := Framed.publish s .triage triage drained h.framed
  remembered := by
    intro p hp
    rw [publish_previousState] at hp
    obtain ⟨hle, hteams, hfocus⟩ := h.remembered p hp
    refine ⟨by simpa using hle, ?_, ?_⟩
    · unfold ToldTeams
      rw [publish_db, s.publish_other .triage triage drained (by decide)]
      exact hteams
    · intro ht
      refine ⟨?_, by simpa [Focused] using (hfocus ht).2⟩
      unfold ToldTriage
      rw [publish_db]
      intro hc ha
      obtain ⟨hps, hnews⟩ := hb.2 p hp
      have hcat : p.catalog = state.catalog := le_antisymm hps.1 (hc ▸ hb.1.1)
      have hann : p.annotations = state.annotations := le_antisymm hps.2 (ha ▸ hb.1.2)
      exact absurd ⟨hcat, .inr hann⟩ hnews

theorem ToldTeams.publish_triage (h : s.ToldTeams cfg state) :
    (s.publish .triage triage drained).2.ToldTeams cfg state := by
  unfold ToldTeams
  rw [publish_db, s.publish_other .triage triage drained (by decide)]
  exact h

theorem began_publish {event : FeedEvent} (h : s.Began cfg state) :
    (s.publish event triage drained).2.Began cfg state := by
  simpa [Began] using h

theorem slow_publish {event : FeedEvent} (h : s.Slow state) :
    (s.publish event triage drained).2.Slow state := by
  simpa [Slow] using h

theorem Core.recheckAnnotationsStep {triage : Revision} (h : s.Core cfg)
    (hcall : s.CallInv cfg past (.recheckAnnotations state triage)) :
    (s.recheckAnnotationsStep state triage drained).Inv cfg past := by
  obtain ⟨hb, ⟨focused, hteam, -, p, hp, hpc⟩, tables, -, hann, hcat⟩ := hcall
  unfold TeamFeed.recheckAnnotationsStep
  split_ifs
  · exact h.rest
  · have hb' : (s.publish .triage (some triage) drained).2.Began cfg state := began_publish hb
    apply (h.publish_triage hb).remember hb'.1
    obtain ⟨hteams, hrest⟩ := (h.remembered p hp).2
    unfold ToldTeams at hteams
    rw [hpc] at hteams
    refine ⟨ToldTeams.publish_triage hteams, fun _ => ⟨?_, ?_⟩⟩
    · unfold ToldTriage
      rw [publish_db]
      intro hc ha hopen
      rw [s.publish_told _ _ _ (s.publish_open _ _ _ hopen).1, ← hann ha]
      exact hcat hc
    · have hfocus := (hrest hteam).2
      unfold Focused at hfocus ⊢
      rw [hpc] at hfocus
      simpa using hfocus

/-- The catalog is published before any report is read. -/
theorem Core.recheckUserStep (h : s.Core cfg)
    (hcall : s.CallInv cfg past (.recheckUser state revision)) :
    (s.recheckUserStep cfg state revision drained).Inv cfg past := by
  obtain ⟨hb, hslow, hrev⟩ := hcall
  have hcore : (s.publish .teams (some revision) drained).2.Core cfg := h.publish_teams hb hrev
  have hb' : (s.publish .teams (some revision) drained).2.Began cfg state := began_publish hb
  unfold TeamFeed.recheckUserStep
  dsimp only
  split_ifs with hout hteam
  · exact hcore.rest
  all_goals
    have htold : (s.publish .teams (some revision) drained).2.ToldTeams cfg state := by
      unfold ToldTeams
      rw [publish_db]
      intro hc
      rw [s.publish_told _ _ _ (by simpa using hout), hrev hc]
  · exact ⟨hcore.call _, hb', hteam, slow_publish hslow, htold⟩
  · exact ⟨hcore.call _, hb', by simpa using hteam, htold⟩

theorem Core.findingIdsStep {loaded : Bool} (h : s.Core cfg)
    (hcall : s.CallInv cfg past (.findingIds state snapshot)) :
    (s.findingIdsStep cfg state snapshot loaded).Inv cfg past := by
  obtain ⟨hb, hteam, hslow, htold, hmem⟩ := hcall
  unfold TeamFeed.findingIdsStep
  split_ifs
  · have hids : cfg.reads.findingIds snapshot = cfg.findings snapshot := (if_pos hmem).symm
    exact ⟨h.learn hb hslow hids _, hb, hteam, hslow, htold, rfl⟩
  · exact (h.publish_triage hb).rest

variable [DecidableEq Snapshot]

/-- The annotations are published under the snapshot they were read under, and it is focused. -/
theorem Core.recheckSnapshotStep (h : s.Core cfg)
    (hcall : s.CallInv cfg past (.recheckSnapshot state snapshot triage)) :
    (s.recheckSnapshotStep cfg state snapshot triage drained).Inv cfg past := by
  obtain ⟨hb, hteam, hslow, htold, hkey, tables, -, hann, rfl⟩ := hcall
  unfold recheckSnapshotStep
  by_cases hmoved : cfg.reads.teamSnapshot cfg.user s.db.catalogTables ≠ snapshot
  · rw [if_pos hmoved]
    exact h.rest
  · rw [if_neg hmoved]
    have hcore : (s.publish .triage (cfg.triageRevision snapshot tables) drained).2.Core cfg :=
      h.publish_triage hb
    have hsame : cfg.teamSnapshot s.db.catalogTables = snapshot := not_not.mp hmoved
    have hfocus : ∀ focused, (if cfg.reads.member snapshot then some snapshot else none) =
        some focused → focused = cfg.teamSnapshot s.db.catalogTables ∧
          cfg.reads.member focused ∧ s.visibilityKey = some focused := by
      intro focused hf
      by_cases hmem : cfg.reads.member snapshot = true
      · rw [if_pos hmem] at hf
        cases hf
        exact ⟨hsame.symm, hmem, hkey⟩
      · rw [if_neg hmem] at hf
        exact absurd hf (by simp)
    refine ⟨⟨hcore.cache, hcore.framed, ?_⟩, began_publish hb, ?_, fun _ => ⟨?_, ?_⟩⟩
    · intro p hp
      obtain ⟨hle, hteams, hrest⟩ := hcore.remembered p hp
      refine ⟨hle, hteams, fun ht => ⟨(hrest ht).1, ?_⟩⟩
      exact fun _ => by rw [publish_db, publish_visibilityKey]; exact hfocus
    · exact ToldTeams.publish_triage htold
    · intro hc ha hopen
      rw [publish_db] at hc ha
      have htri := s.publish_told _ _ _ (s.publish_open _ _ _ hopen).1
      obtain rfl := hann ha
      show _ = cfg.triageRevision (cfg.teamSnapshot (s.publish _ _ _).2.db.catalogTables)
        (s.publish _ _ _).2.db.annotationTables
      rw [publish_db, hsame]
      exact htri
    · intro _
      simpa using hfocus

theorem Inv.answerCall {loaded : Bool} {s' : TeamFeed α β Snapshot Revision}
    (h : s.Inv cfg past) (hpast : past s.db.annotationTables)
    (hst : s.answerCall cfg loaded drained = some s') : s'.Inv cfg past := by
  obtain ⟨hcore, hcall⟩ := h
  unfold TeamFeed.answerCall at hst
  split at hst <;> rename_i hs <;> cases hst <;> rw [hs] at hcall
  · exact hcore.pollStep hs
  · exact hcore.annotationsOnlyStep hpast hcall
  · exact hcore.recheckAnnotationsStep hcall
  · exact ⟨hcore.call _, hcall.1, hcall.2, fun _ => rfl⟩
  · exact hcore.recheckUserStep hcall
  · obtain ⟨hb, hteam, htold⟩ := hcall
    exact hcore.remember hb.1 ⟨htold, fun ht => absurd (hteam.symm.trans ht) (by simp)⟩ _
  · exact hcore.snapshotStep hcall
  · exact hcore.findingIdsStep hcall
  · exact hcore.annotationsStep hpast hcall
  · exact hcore.recheckSnapshotStep hcall
  · exact hcore.remember hcall.1.1 hcall.2 _

end Steps

end Facts

end TeamFeed

section Runs

variable [DecidableEq Snapshot] [DecidableEq Revision]
  {cfg : FeedConfig α β Snapshot Annotation Revision} {s s' : TeamFeed α β Snapshot Revision}

/-- **Each step of a feed and its writers keeps the invariant.** -/
theorem TeamFeed.Inv.step {past : (AnnotationTable → β) → Prop} {a : FeedLabel α β}
    (h : s.Inv cfg past) (hpast : past s.db.annotationTables)
    (hst : (teamFeed cfg).step s a = some s') : s'.Inv cfg past := by
  cases a with
  | commit changes =>
    cases hst
    have hl := FeedDb.later_commit changes s.db
    exact ⟨h.core.later hl, h.call.later hl⟩
  | session user =>
    cases hst
    have hl := FeedDb.later_session s.db user
    exact ⟨h.core.later hl, h.call.later hl⟩
  | stop =>
    cases hst
    exact ⟨h.core.stop, h.call.stop⟩
  | answer loaded drained =>
    change s.answerStep cfg loaded drained = some s' at hst
    unfold answerStep at hst
    split_ifs at hst
    · cases hst
      exact ⟨h.core.call _, trivial⟩
    · exact h.answerCall hpast hst

/-- The annotation tables of the states of a run so far. -/
def PastAnnotations (cfg : FeedConfig α β Snapshot Annotation Revision)
    (s₀ s : TeamFeed α β Snapshot Revision) (tables : AnnotationTable → β) : Prop :=
  ∃ s₁, (teamFeed cfg).Reachable s₀ s₁ ∧ (teamFeed cfg).Reachable s₁ s ∧
    s₁.db.annotationTables = tables

omit [DecidableEq Snapshot] [DecidableEq Revision] in
theorem TeamFeed.start_inv (db : FeedDb α β) (past : (AnnotationTable → β) → Prop) :
    (start db : TeamFeed α β Snapshot Revision).Inv cfg past where
  core := {
    cache := by
      intro _ h
      cases h
    framed := by
      intro _ _ h
      cases h
    remembered := by
      intro _ h
      cases h }
  call := trivial

/-- **The invariant holds in every state of every run.** -/
theorem TeamFeed.inv_of_reachable {db : FeedDb α β} (h : (teamFeed cfg).Reachable (start db) s) :
    s.Inv cfg (PastAnnotations cfg (start db) s) := by
  have key : (teamFeed cfg).Reachable (start db) s ∧
      s.Inv cfg (PastAnnotations cfg (start db) s) := by
    refine h.invariant (I := fun s => (teamFeed cfg).Reachable (start db) s ∧
      s.Inv cfg (PastAnnotations cfg (start db) s)) ⟨.refl _, start_inv db _⟩ ?_
    rintro s a s' ⟨hr, hinv⟩ hst
    refine ⟨hr.tail hst, ?_⟩
    have hinv' := hinv.step ⟨s, hr, .refl s, rfl⟩ hst
    refine ⟨hinv'.core, hinv'.call.mono ?_⟩
    rintro tables ⟨s₁, hr₁, hr₂, heq⟩
    exact ⟨s₁, hr₁, hr₂.tail hst, heq⟩
  exact key.2

end Runs

end Triage.Managed
