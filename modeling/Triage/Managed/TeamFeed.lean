import Triage.Machine.Basic
import Triage.Managed.Access

/-!
# The feed of a user's teams

A feed polls: it reads the change counters, and if they have moved, the user's catalog and the
annotations of one team, and tells the client their revisions. Every read is a statement of its
own, and writes fall between them; the feed remembers the counters it began with, if they have not
moved by the end.

## Main results

* `FeedDb.change`, `TeamFeed.publish`, `TeamFeed.answerStep` : the steps of the writers and of the
  feed.
-/

namespace Triage.Managed

open Function

/-- The tables that count as catalog. -/
inductive CatalogTable
  | linkReport | team | teamUser | teamRepo | report | bundle | selectedRepo
  deriving DecidableEq

/-- The tables that count as annotations. -/
inductive AnnotationTable
  | findingTriage | findingTriageEvent | findingComment | findingIssue
  deriving DecidableEq

structure FeedUser where
  id : String
  role : Role
  deriving DecidableEq

/-- The counters, as a poll reads them. -/
structure FeedState where
  catalog : ℕ
  annotations : ℕ
  deriving DecidableEq

/-- The tables, their counters, and the user of the session. -/
structure FeedDb (α β : Type) where
  catalogTables : CatalogTable → α
  annotationTables : AnnotationTable → β
  catalog : ℕ
  annotations : ℕ
  session : Option FeedUser

/-- A row is inserted, updated or deleted. -/
inductive RowChange (α β : Type)
  | catalog (table : CatalogTable) (rows : α)
  | annotations (table : AnnotationTable) (rows : β)

/-- What the statements of a feed compute from the tables: the revision of a user's catalog, the
snapshot of the team as its key tells it and whether the user is in the team, the findings of a
snapshot, the revision of their annotations, and the two of them as one revision. -/
structure FeedReads (α β Snapshot Annotation Revision : Type) where
  catalogRevision : FeedUser → (CatalogTable → α) → Revision
  teamSnapshot : FeedUser → (CatalogTable → α) → Snapshot
  member : Snapshot → Bool
  findingIds : Snapshot → List String
  annotationRevision : List String → (AnnotationTable → β) → Annotation
  teamAnnotationRevision : Snapshot → Annotation → Revision

inductive FeedEvent
  | teams | triage
  deriving DecidableEq

/-- The call a feed makes next. -/
inductive FeedCall (Snapshot Revision : Type)
  /-- The counters, at the start of a poll. -/
  | poll
  /-- The annotations of the focused team, when they alone have moved. -/
  | annotationsOnly (state : FeedState) (focused : Snapshot)
  | recheckAnnotations (state : FeedState) (triage : Revision)
  | catalog (state : FeedState)
  | recheckUser (state : FeedState) (revision : Revision)
  /-- The counters again, where no team is focused. -/
  | recheckCatalog (state : FeedState)
  | snapshot (state : FeedState)
  | findingIds (state : FeedState) (snapshot : Snapshot)
  | annotations (state : FeedState) (snapshot : Snapshot)
  | recheckSnapshot (state : FeedState) (snapshot : Snapshot) (triage : Option Revision)
  | recheckState (state : FeedState)
  /-- The stream has ended. -/
  | ended
  deriving DecidableEq

/-- A feed, with its tables and what it has sent. -/
structure TeamFeed (α β Snapshot Revision : Type) where
  db : FeedDb α β
  call : FeedCall Snapshot Revision
  ids : List String
  visibilityKey : Option Snapshot
  focused : Option Snapshot
  previousState : Option FeedState
  /-- What `publish` has told of each event. -/
  previous : FeedEvent → Option Revision
  frames : List (FeedEvent × Revision)
  stopped : Bool

/-- A step: writers commit, the session or its user changes, the response is closed, or the feed
gets the answer to its call.  The labels of the last say whether the findings of a snapshot could be
read, and whether the response took a frame. -/
inductive FeedLabel (α β : Type)
  | commit (changes : List (RowChange α β))
  | session (user : Option FeedUser)
  | stop
  | answer (loaded drained : Bool)

variable {α β Snapshot Annotation Revision : Type}

/-- A change of a row, and the trigger of its table. -/
def FeedDb.change (db : FeedDb α β) : RowChange α β → FeedDb α β
  | .catalog table rows =>
    { db with
      catalogTables := update db.catalogTables table rows
      catalog := db.catalog + 1 }
  | .annotations table rows =>
    { db with
      annotationTables := update db.annotationTables table rows
      annotations := db.annotations + 1 }

/-- `getFeedState`. -/
def FeedDb.state (db : FeedDb α β) : FeedState := ⟨db.catalog, db.annotations⟩

/-- A feed of one user, and whether it has a focused team. -/
structure FeedConfig (α β Snapshot Annotation Revision : Type) where
  reads : FeedReads α β Snapshot Annotation Revision
  user : FeedUser
  team : Bool

namespace TeamFeed

variable [DecidableEq Snapshot] [DecidableEq Revision]
  (cfg : FeedConfig α β Snapshot Annotation Revision) (s : TeamFeed α β Snapshot Revision)

/-- `checkUser`: the session is that of the same user, in the same role. -/
def checkUser : Bool := s.db.session = some cfg.user && cfg.user.role ≠ .none

/-- `publish`: whether the stream goes on, and the feed. -/
def publish (event : FeedEvent) (revision : Option Revision) (drained : Bool) :
    Bool × TeamFeed α β Snapshot Revision :=
  if s.stopped then (false, s)
  else match revision with
    | none => (true, { s with previous := update s.previous event none })
    | some r =>
      if s.previous event = some r then (true, s)
      else if drained then
        (true, { s with
          previous := update s.previous event (some r)
          frames := s.frames ++ [(event, r)] })
      else (false, { s with stopped := true })

/-- The poll is over. -/
def rest : TeamFeed α β Snapshot Revision := { s with call := .poll }

/-- The poll is over, and the counters are remembered if nothing has moved them. -/
def remember (state : FeedState) (unmoved : Prop) [Decidable unmoved] :
    TeamFeed α β Snapshot Revision :=
  if unmoved then { s with call := .poll, previousState := some state } else s.rest

/-- The counters are those remembered, of the catalog and of the annotations. -/
def sameCatalog : Bool := s.previousState.map FeedState.catalog = some s.db.catalog

def sameAnnotations : Bool := s.previousState.map FeedState.annotations = some s.db.annotations

/-- What a poll reads first: the annotations of the focused team, if the catalog has not moved. -/
def firstCall : FeedCall Snapshot Revision :=
  match s.focused with
  | some focused =>
    if cfg.team ∧ s.sameCatalog then .annotationsOnly s.db.state focused else .catalog s.db.state
  | none => .catalog s.db.state

/-- The counters are read at the start of a poll. -/
def pollStep : TeamFeed α β Snapshot Revision :=
  if s.sameCatalog ∧ (cfg.team = false ∨ s.sameAnnotations) then s
  else { s with call := s.firstCall cfg }

/-- The annotations have been read on their own. -/
def recheckAnnotationsStep (state : FeedState) (triage : Revision) (drained : Bool) :
    TeamFeed α β Snapshot Revision :=
  if s.db.catalog ≠ state.catalog then s.rest
  else (s.publish .triage (some triage) drained).2.remember state
    (s.db.annotations = state.annotations)

/-- The catalog is published before any report is read. -/
def recheckUserStep (state : FeedState) (revision : Revision) (drained : Bool) :
    TeamFeed α β Snapshot Revision :=
  have out := s.publish .teams (some revision) drained
  if out.1 = false then out.2.rest
  else if cfg.team then { out.2 with call := .snapshot state }
  else { out.2 with call := .recheckCatalog state }

/-- The team's snapshot is read; its findings are known, or none, or read next. -/
def snapshotStep (state : FeedState) : TeamFeed α β Snapshot Revision :=
  have snapshot := cfg.reads.teamSnapshot cfg.user s.db.catalogTables
  if s.visibilityKey = some snapshot then { s with call := .annotations state snapshot }
  else if cfg.reads.member snapshot then { s with call := .findingIds state snapshot }
  else { s with
    ids := [], visibilityKey := some snapshot, call := .annotations state snapshot }

/-- The findings are read from the reports, or could not be. -/
def findingIdsStep (state : FeedState) (snapshot : Snapshot) (loaded : Bool) :
    TeamFeed α β Snapshot Revision :=
  if loaded then { s with
    ids := cfg.reads.findingIds snapshot
    visibilityKey := some snapshot
    call := .annotations state snapshot }
  else (s.publish .triage none true).2.rest

/-- The annotations of the findings, with the key of their snapshot. -/
def triageOf (snapshot : Snapshot) : Revision :=
  cfg.reads.teamAnnotationRevision snapshot
    (cfg.reads.annotationRevision s.ids s.db.annotationTables)

/-- The annotations are read for a user of the team. -/
def annotationsStep (state : FeedState) (snapshot : Snapshot) : TeamFeed α β Snapshot Revision :=
  have triage := if cfg.reads.member snapshot then some (s.triageOf cfg snapshot) else none
  { s with call := .recheckSnapshot state snapshot triage }

/-- The snapshot is read again, and what was read under it is published if it is the same. -/
def recheckSnapshotStep (state : FeedState) (snapshot : Snapshot) (triage : Option Revision)
    (drained : Bool) : TeamFeed α β Snapshot Revision :=
  if cfg.reads.teamSnapshot cfg.user s.db.catalogTables ≠ snapshot then s.rest
  else { (s.publish .triage triage drained).2 with
    focused := if cfg.reads.member snapshot then some snapshot else none
    call := .recheckState state }

/-- Whether the stream ends at the answer: the response is closed before a poll, or the call reads
the session, and its user has changed. -/
def ends : Bool :=
  match s.call with
  | .poll => s.stopped || !s.checkUser cfg
  | .annotationsOnly .. | .findingIds .. | .annotations .. | .ended => false
  | _ => !s.checkUser cfg

/-- The answer to a call on a stream that goes on. -/
def answerCall (loaded drained : Bool) : Option (TeamFeed α β Snapshot Revision) :=
  match s.call with
  | .poll => some (s.pollStep cfg)
  | .annotationsOnly state focused =>
    some { s with call := .recheckAnnotations state (s.triageOf cfg focused) }
  | .recheckAnnotations state triage => some (s.recheckAnnotationsStep state triage drained)
  | .catalog state =>
    some { s with
      call := .recheckUser state (cfg.reads.catalogRevision cfg.user s.db.catalogTables) }
  | .recheckUser state revision => some (s.recheckUserStep cfg state revision drained)
  | .recheckCatalog state => some (s.remember state (s.db.catalog = state.catalog))
  | .snapshot state => some (s.snapshotStep cfg state)
  | .findingIds state snapshot => some (s.findingIdsStep cfg state snapshot loaded)
  | .annotations state snapshot => some (s.annotationsStep cfg state snapshot)
  | .recheckSnapshot state snapshot triage =>
    some (s.recheckSnapshotStep cfg state snapshot triage drained)
  | .recheckState state => some (s.remember state (s.db.state = state))
  | .ended => none

/-- The answer to a call. -/
def answerStep (loaded drained : Bool) : Option (TeamFeed α β Snapshot Revision) :=
  if s.ends cfg then some { s with call := .ended } else s.answerCall cfg loaded drained

end TeamFeed

/-- One feed among the writers. -/
def teamFeed [DecidableEq Snapshot] [DecidableEq Revision]
    (cfg : FeedConfig α β Snapshot Annotation Revision) :
    Machine (TeamFeed α β Snapshot Revision) (FeedLabel α β) where
  step s
    | .commit changes => some { s with db := changes.foldl FeedDb.change s.db }
    | .session user => some { s with db := { s.db with session := user } }
    | .stop => some { s with stopped := true }
    | .answer loaded drained => s.answerStep cfg loaded drained

/-- A feed that has been connected to some tables. -/
def TeamFeed.start (db : FeedDb α β) : TeamFeed α β Snapshot Revision :=
  ⟨db, .poll, [], none, none, none, fun _ => none, [], false⟩

end Triage.Managed
