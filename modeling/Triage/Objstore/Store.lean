import Triage.Machine.VersionedLog
import Triage.Data.FMap

/-!
# The object store

The tables of the `v1.objstore` plane and the calls of `store.ts` on them. A call is a sequence of
awaits: one SQL statement or one blob operation each. Between two of them any other call of any
replica may run, so a call is modelled by the await it makes next together with the values it has
read, and `perform` says what that await does. The statements are the same on SQLite and on Neon,
and each is atomic.

What a call does not compute itself comes with the step as an `Answer`: the id drawn by
`randomId()`, the clock, and what the blob backend replies.
-/

namespace Triage.Objstore

/-- The primary key of `workspace_object`. -/
structure Key where
  workspaceTag : String
  resourceTag : String
  deriving DecidableEq, Repr

/-- A live row; its resource tag is in the key. -/
structure ObjectRow where
  version : ℤ
  incarnation : String
  contentHash : String
  contentLength : ℤ
  signature : String
  putAt : ℤ
  deriving DecidableEq, Repr

/-- A row of `workspace_object_staging`; the rest of its primary key is in the key. -/
structure StagingRow where
  prevVersion : Option ℤ
  prevIncarnation : Option String
  expectedLength : ℤ
  contentHash : String
  signature : String
  begunAt : ℤ
  deriving DecidableEq, Repr

/-- A change of a live row and the call that made it. -/
structure Change where
  call : ℕ
  entry : VersionedLog.Entry Key ObjectRow
  deriving DecidableEq, Repr

/-- The tables, the ids drawn so far, and the history of the live table. -/
structure Store where
  live : FMap Key ObjectRow
  staging : FMap (Key × String) StagingRow
  /-- What `randomId()` has returned; sixteen random bytes do not repeat. -/
  drawn : Finset String
  /-- Every change of `live` so far.  The program does not have it; results are stated with it. -/
  log : List Change

/-- Two empty tables. -/
def Store.empty : Store := ⟨∅, ∅, ∅, []⟩

/-- `MAX_RESOURCES_PER_WORKSPACE`. -/
def maxResourcesPerWorkspace : ℕ := 100

/-! ### Statements -/

namespace Store

variable (db : Store)

/-- `getLive`, the statement `selectLiveOne`. -/
def getLive (key : Key) : Option ObjectRow := db.live key

/-- `countLive`. -/
def countLive (tag : String) : ℕ := (db.live.keys.filter fun k => k.workspaceTag = tag).card

/-- `selectStaging`. -/
def selectStaging (key : Key) (stagingId : String) : Option StagingRow :=
  db.staging (key, stagingId)

/-- `insertStaging`; `none` when the primary key is taken. -/
def insertStaging (key : Key) (stagingId : String) (row : StagingRow) : Option Store :=
  if (db.staging (key, stagingId)).isSome then none
  else some { db with staging := db.staging.insert (key, stagingId) row }

/-- `refreshStagingBegunAt`. -/
def refreshStagingBegunAt (begunAt : ℤ) (key : Key) (stagingId : String) : Store :=
  match db.staging (key, stagingId) with
  | none => db
  | some row =>
    { db with staging := db.staging.insert (key, stagingId) { row with begunAt := begunAt } }

/-- `deleteStaging`. -/
def deleteStaging (key : Key) (stagingId : String) : Store :=
  { db with staging := db.staging.erase (key, stagingId) }

/-- `deleteStagingIfStale`; the flag says whether a row was deleted. -/
def deleteStagingIfStale (key : Key) (stagingId : String) (staleBefore : ℤ) : Store × Bool :=
  match db.staging (key, stagingId) with
  | none => (db, false)
  | some row =>
    if row.begunAt < staleBefore then (db.deleteStaging key stagingId, true) else (db, false)

/-- Replacing the row at `key`. -/
def setLive (call : ℕ) (key : Key) (after : Option ObjectRow) : Store where
  live := match after with
    | none => db.live.erase key
    | some row => db.live.insert key row
  staging := db.staging
  drawn := db.drawn
  log := db.log ++ [⟨call, ⟨key, db.live key, after⟩⟩]

/-- `insertLiveIfAbsent`; `none` when no row was inserted. -/
def insertLiveIfAbsent (call : ℕ) (key : Key) (row : ObjectRow) : Option Store :=
  if (db.live key).isSome then none else some (db.setLive call key (some row))

/-- `updateLiveCAS` writing `row`; `none` when no row has the expected version and incarnation. -/
def updateLiveCAS (call : ℕ) (key : Key) (row : ObjectRow) (expectedVersion : ℤ)
    (expectedIncarnation : String) : Option Store :=
  match db.live key with
  | none => none
  | some r =>
    if r.version = expectedVersion ∧ r.incarnation = expectedIncarnation then
      some (db.setLive call key (some { row with incarnation := r.incarnation }))
    else none

/-- `deleteLiveCAS`; `none` when no row has the expected version and incarnation. -/
def deleteLiveCAS (call : ℕ) (key : Key) (expectedVersion : ℤ) (expectedIncarnation : String) :
    Option Store :=
  match db.live key with
  | none => none
  | some r =>
    if r.version = expectedVersion ∧ r.incarnation = expectedIncarnation then
      some (db.setLive call key none)
    else none

/-- `randomId()` returns `id`. -/
def draw (id : String) : Store := { db with drawn := insert id db.drawn }

/-- The changes a call has made. -/
def changesOf (call : ℕ) : List (VersionedLog.Entry Key ObjectRow) :=
  (db.log.filter fun c => c.call = call).map (·.entry)

/-- The history of the live table, whoever made it. -/
def entries : List (VersionedLog.Entry Key ObjectRow) := db.log.map (·.entry)

end Store

/-! ### Calls -/

/-- `BeginPutInput`. -/
structure BeginPutInput where
  key : Key
  prevVersion : Option ℤ
  prevIncarnation : Option String
  expectedLength : ℤ
  contentHash : String
  signature : String
  deriving DecidableEq, Repr

/-- The staging row of a put that began at `begunAt`. -/
def BeginPutInput.row (input : BeginPutInput) (begunAt : ℤ) : StagingRow where
  prevVersion := input.prevVersion
  prevIncarnation := input.prevIncarnation
  expectedLength := input.expectedLength
  contentHash := input.contentHash
  signature := input.signature
  begunAt := begunAt

/-- `CommitPutInput`. -/
structure CommitPutInput where
  key : Key
  stagingId : String
  observedSize : Option ℤ
  deriving DecidableEq, Repr

/-- Why `beginPut` did not stage. -/
inductive BeginPutFailure
  | conflict (live : Option ObjectRow)
  | workspaceFull
  deriving DecidableEq, Repr

/-- Why `commitPut` did not commit. -/
inductive CommitPutFailure
  | noStaging
  | sizeMismatch
  | ioError
  | conflict (current : Option ObjectRow)
  deriving DecidableEq, Repr

/-- Why `deleteObject` did not delete. -/
inductive DeleteFailure
  | notFound
  | conflict (current : ObjectRow)
  deriving DecidableEq, Repr

/-- Where a call stands: the await it makes next, with what it has read, or how it ended. -/
inductive Stage
  /-- Not called yet. -/
  | idle
  /-- `beginPut` -/
  | beginGetLive (input : BeginPutInput)
  | beginCountLive (input : BeginPutInput)
  | beginEnsureWorkspace (input : BeginPutInput)
  | beginInsertStaging (input : BeginPutInput) (stagingId : String) (begunAt : ℤ)
  | beginOk (input : BeginPutInput) (stagingId : String)
  | beginRefused (reason : BeginPutFailure)
  /-- `commitPut` -/
  | commitSelectStaging (input : CommitPutInput)
  | commitStatStaging (input : CommitPutInput) (staging : StagingRow)
  | commitGetLive (input : CommitPutInput) (staging : StagingRow)
  | commitPromote (input : CommitPutInput) (staging : StagingRow) (liveVersion : Option ℤ)
  | commitCAS (input : CommitPutInput) (staging : StagingRow) (nextVersion : ℤ)
      (freshIncarnation : String) (putAt : ℤ)
  | commitReread (input : CommitPutInput)
  | commitUnlinkStaging (input : CommitPutInput) (staging : StagingRow) (row : ObjectRow)
  | commitDeleteStaging (input : CommitPutInput) (staging : StagingRow) (row : ObjectRow)
  | commitOk (input : CommitPutInput) (staging : StagingRow) (row : ObjectRow)
  | commitRefused (input : CommitPutInput) (reason : CommitPutFailure)
  /-- `abortPut` -/
  | abortUnlinkStaging (key : Key) (stagingId : String)
  | abortDeleteStaging (key : Key) (stagingId : String)
  | abortDone
  /-- `deleteObject` -/
  | deleteGetLive (key : Key) (prevVersion : Option ℤ) (prevIncarnation : Option String)
  | deleteCAS (key : Key) (prevVersion : Option ℤ) (prevIncarnation : Option String)
      (live : ObjectRow)
  | deleteReread (key : Key)
  | deleteOk (key : Key) (prevVersion : Option ℤ) (prevIncarnation : Option String)
      (deletedVersion : ℤ)
  | deleteRefused (reason : DeleteFailure)
  /-- The call threw, or its process died. -/
  | failed
  deriving DecidableEq, Repr

/-- What the next await of a call gets from outside the database. -/
structure Answer where
  /-- `randomId()` -/
  id : String
  /-- `Date.now()` -/
  now : ℤ
  /-- `statStaging`: the size of the staged blob, `none` when it is gone or the backend failed. -/
  size : Option ℤ
  /-- `promoteStagingToLive` -/
  ok : Bool
  deriving DecidableEq, Repr

/-- Whether the live row is the one the precondition names. -/
def matchesPrev (live : Option ObjectRow) (prevVersion : Option ℤ)
    (prevIncarnation : Option String) : Prop :=
  live.map (·.version) = prevVersion ∧ live.map (·.incarnation) = prevIncarnation

instance (live : Option ObjectRow) (v : Option ℤ) (i : Option String) :
    Decidable (matchesPrev live v i) := instDecidableAnd

/-- `commitPut` after the staged size is known. -/
def commitSized (input : CommitPutInput) (staging : StagingRow) (stagedSize : ℤ) : Stage :=
  if stagedSize = staging.expectedLength then .commitGetLive input staging
  else .commitRefused input .sizeMismatch

/-- The row a commit writes; `updateLiveCAS` keeps the incarnation it finds. -/
def committedRow (staging : StagingRow) (version : ℤ) (incarnation : String) (putAt : ℤ) :
    ObjectRow where
  version := version
  incarnation := incarnation
  contentHash := staging.contentHash
  contentLength := staging.expectedLength
  signature := staging.signature
  putAt := putAt

/-- The version-CAS of `commitPut`: what the winner leaves behind, and the row it returns. -/
def commitStatement (p : ℕ) (db : Store) (input : CommitPutInput) (staging : StagingRow)
    (nextVersion : ℤ) (freshIncarnation : String) (putAt : ℤ) : Option (Store × ObjectRow) :=
  match staging.prevVersion, staging.prevIncarnation with
  | none, _ =>
    -- the literal version of `insertLiveIfAbsent`; the row returned says `nextVersion`
    (db.insertLiveIfAbsent p input.key (committedRow staging 1 freshIncarnation putAt)).map
      fun db' => (db', committedRow staging nextVersion freshIncarnation putAt)
  | some v, some i =>
    (db.updateLiveCAS p input.key (committedRow staging nextVersion i putAt) v i).map
      fun db' => (db', committedRow staging nextVersion i putAt)
  -- `incarnation = NULL` holds of no row
  | some _, none => none

/-- Performing the next await of call `p`: the tables and the stage after it. -/
def perform (p : ℕ) (db : Store) (a : Answer) : Stage → Option (Store × Stage)
  | .beginGetLive input =>
    have live := db.getLive input.key
    some (db,
      if ¬matchesPrev live input.prevVersion input.prevIncarnation then
        .beginRefused (.conflict live)
      else if live.isNone then .beginCountLive input
      else .beginEnsureWorkspace input)
  | .beginCountLive input =>
    some (db,
      if db.countLive input.key.workspaceTag ≥ maxResourcesPerWorkspace then
        .beginRefused .workspaceFull
      else .beginEnsureWorkspace input)
  | .beginEnsureWorkspace input =>
    if a.id ∈ db.drawn then none
    else some (db.draw a.id, .beginInsertStaging input a.id a.now)
  | .beginInsertStaging input stagingId begunAt =>
    match db.insertStaging input.key stagingId (input.row begunAt) with
    | none => some (db, .failed)
    | some db' => some (db', .beginOk input stagingId)
  | .commitSelectStaging input =>
    match db.selectStaging input.key input.stagingId with
    | none => some (db, .commitRefused input .noStaging)
    | some staging =>
      match input.observedSize with
      | none => some (db, .commitStatStaging input staging)
      | some size => some (db, commitSized input staging size)
  | .commitStatStaging input staging =>
    match a.size with
    | none => some (db, .commitRefused input .ioError)
    | some size => some (db, commitSized input staging size)
  | .commitGetLive input staging =>
    have live := db.getLive input.key
    some (db,
      if ¬matchesPrev live staging.prevVersion staging.prevIncarnation then
        .commitRefused input (.conflict live)
      else .commitPromote input staging (live.map (·.version)))
  | .commitPromote input staging liveVersion =>
    if a.ok then
      if a.id ∈ db.drawn then none
      else some (db.draw a.id, .commitCAS input staging (liveVersion.getD 0 + 1) a.id a.now)
    else some (db, .commitRefused input .ioError)
  | .commitCAS input staging nextVersion freshIncarnation putAt =>
    match commitStatement p db input staging nextVersion freshIncarnation putAt with
    | none => some (db, .commitReread input)
    | some (db', row) => some (db', .commitUnlinkStaging input staging row)
  | .commitReread input =>
    some (db, .commitRefused input (.conflict (db.getLive input.key)))
  | .commitUnlinkStaging input staging row => some (db, .commitDeleteStaging input staging row)
  | .commitDeleteStaging input staging row =>
    some (db.deleteStaging input.key input.stagingId, .commitOk input staging row)
  | .abortUnlinkStaging key stagingId => some (db, .abortDeleteStaging key stagingId)
  | .abortDeleteStaging key stagingId => some (db.deleteStaging key stagingId, .abortDone)
  | .deleteGetLive key prevVersion prevIncarnation =>
    match db.getLive key with
    | none =>
      -- already deleted or never there
      some (db,
        if prevVersion = none then .deleteOk key prevVersion prevIncarnation 0
        else .deleteRefused .notFound)
    | some live =>
      some (db,
        if matchesPrev (some live) prevVersion prevIncarnation then
          .deleteCAS key prevVersion prevIncarnation live
        else .deleteRefused (.conflict live))
  | .deleteCAS key prevVersion prevIncarnation live =>
    match db.deleteLiveCAS p key live.version live.incarnation with
    | none => some (db, .deleteReread key)
    | some db' => some (db', .deleteOk key prevVersion prevIncarnation live.version)
  | .deleteReread key =>
    match db.getLive key with
    | none => some (db, .deleteRefused .notFound)
    | some current => some (db, .deleteRefused (.conflict current))
  | .idle | .beginOk .. | .beginRefused .. | .commitOk .. | .commitRefused .. | .abortDone
  | .deleteOk .. | .deleteRefused .. | .failed => none

/-- Where a call goes when its await throws: `commitPut` catches twice, nothing else does. -/
def Stage.thrown : Stage → Stage
  | .commitStatStaging input _ => .commitRefused input .ioError
  | .commitCAS input .. => .commitRefused input .ioError
  | _ => .failed

end Triage.Objstore
