import Mathlib.Data.Finset.Option
import Triage.Objstore.Linearizable

/-!
# Blobs and the reaper

The byte plane under the object store. An upload writes a staging blob, `commitPut` promotes it to
the address of its content hash and only then changes the live row, and the reaper unlinks live
blobs that no row references. Uploads, calls and sweeps of any number of replicas interleave at
every await, and any of them can throw or be cut off.

A sweep lists the blobs of a workspace, skips those the live rows reference and those younger than
the grace period, reads the references again right before it unlinks one, and then drops stale
staging rows and staging blobs without a row. Its clock is read once, when it starts.
-/

namespace Triage.Objstore

open Function

/-! ### Blobs -/

/-- `blob-fs.ts` and `blob-vercel.ts`. -/
inductive Backend
  | fs
  | vercel
  deriving DecidableEq, Repr

/-- The bytes staged so far and the time they were last written. -/
structure StagedBlob where
  size : ℤ
  modified : ℤ
  deriving DecidableEq, Repr

/-- The bytes of all workspaces. -/
structure BlobStore where
  /-- `${tag}/${contentHash}.bin`, with the time of modification a listing shows. -/
  live : FMap (String × String) ℤ
  /-- `${tag}/.staging/${stagingId}.bin` -/
  staging : FMap (String × String) StagedBlob

namespace BlobStore

variable (b : BlobStore)

/-- No bytes. -/
def empty : BlobStore := ⟨∅, ∅⟩

/-- An upload has written `size` bytes. -/
def write (now : ℤ) (tag stagingId : String) (size : ℤ) : BlobStore :=
  { b with staging := b.staging.insert (tag, stagingId) ⟨size, now⟩ }

/-- `promoteStagingToLive`; `none` when there is no staging blob.  `rename` moves the file with the
time of its last write, `copy` makes a new blob. -/
def promote (backend : Backend) (now : ℤ) (tag stagingId contentHash : String) :
    Option BlobStore :=
  (b.staging (tag, stagingId)).map fun staged =>
    match backend with
    | .fs =>
      { live := b.live.insert (tag, contentHash) staged.modified
        staging := b.staging.erase (tag, stagingId) }
    | .vercel => { b with live := b.live.insert (tag, contentHash) now }

/-- `unlinkStaging` -/
def unlinkStaging (tag stagingId : String) : BlobStore :=
  { b with staging := b.staging.erase (tag, stagingId) }

/-- `unlinkLive` -/
def unlinkLive (tag contentHash : String) : BlobStore :=
  { b with live := b.live.erase (tag, contentHash) }

/-- The second components of the keys of a workspace: content hashes or staging ids. -/
def namesOf (keys : Finset (String × String)) (tag : String) : Finset String :=
  (keys.filter fun k => k.1 = tag).image Prod.snd

/-- What the blob operation of a call does, if its next await is one. -/
def effect (backend : Backend) (now : ℤ) : Stage → BlobStore
  | .commitPromote input staging _ =>
    (b.promote backend now input.key.workspaceTag input.stagingId staging.contentHash).getD b
  | .commitUnlinkStaging input _ _ => b.unlinkStaging input.key.workspaceTag input.stagingId
  | .abortUnlinkStaging key stagingId => b.unlinkStaging key.workspaceTag stagingId
  | _ => b

/-- Whether the clock and the backend can give a call this answer, when its blob operation takes
effect or not. -/
def Gives (now : ℤ) (st : Stage) (a : Answer) (applied : Bool) : Prop :=
  a.now = now ∧
    match st with
    | .commitStatStaging input _ =>
      a.size = none ∨
        a.size = (b.staging (input.key.workspaceTag, input.stagingId)).map (·.size)
    | .commitPromote input _ _ =>
      a.ok = true →
        applied = true ∧ (b.staging (input.key.workspaceTag, input.stagingId)).isSome
    | _ => True

instance (now : ℤ) (st : Stage) (a : Answer) (applied : Bool) :
    Decidable (b.Gives now st a applied) := by
  unfold Gives
  cases st <;> infer_instance

end BlobStore

/-- `liveHashSet` -/
def liveHashSet (db : Store) (tag : String) : Finset String :=
  (db.live.keys.filter fun k => k.workspaceTag = tag).biUnion fun k =>
    ((db.live k).map (·.contentHash)).toFinset

/-- `selectStagingByWsSid` -/
def selectStagingByWsSid (db : Store) (tag stagingId : String) : Bool :=
  decide (∃ k ∈ db.staging.keys, k.1.workspaceTag = tag ∧ k.2 = stagingId)

/-- `listAllStaging` -/
def staleStaging (db : Store) (staleBefore : ℤ) : Finset (Key × String) :=
  db.staging.keys.filter fun k => ((db.staging k).any fun row => row.begunAt < staleBefore) = true

/-! ### Sweeps -/

/-- What the first pass of a sweep has still to do. -/
structure Plan where
  /-- The clock when the sweep started. -/
  now : ℤ
  /-- The workspaces to do in this round. -/
  tags : List String
  /-- The workspaces of the live table, done in the first round. -/
  liveTags : List String
  /-- The workspaces of the blob store, once listed; the second round does those without rows. -/
  topLevel : Option (List String)
  deriving DecidableEq, Repr

/-- The await `reapOrphans` makes next, with what it has read. -/
inductive Sweep
  | idle
  | listLiveTags (now : ℤ)
  /-- `listLiveBlobs`: the names, and then each blob. -/
  | readLiveBlobs (plan : Plan) (tag : String)
  | statLiveBlob (plan : Plan) (tag name : String) (names : List String)
      (blobs : List (String × ℤ))
  | liveHashSet (plan : Plan) (tag : String) (blobs : List (String × ℤ))
  /-- `gcBlobIfUnreferenced`, for a blob past the grace period. -/
  | recheck (plan : Plan) (tag : String) (referenced : Finset String) (hash : String)
      (modified : ℤ) (blobs : List (String × ℤ))
  | unlinkLive (plan : Plan) (tag : String) (referenced : Finset String) (hash : String)
      (modified : ℤ) (blobs : List (String × ℤ))
  | listWorkspaceTags (plan : Plan)
  /-- `reapStaleStagingRows` -/
  | listAllStaging (now : ℤ) (topLevel : List String)
  | deleteStagingIfStale (now : ℤ) (topLevel : List String) (row : Key × String)
      (rows : List (Key × String))
  | unlinkStale (now : ℤ) (topLevel : List String) (row : Key × String)
      (rows : List (Key × String))
  /-- `reapOrphanedStagingFiles` -/
  | listStagingIds (tag : String) (tags : List String)
  | selectStagingByWsSid (tag stagingId : String) (ids : List String) (tags : List String)
  | unlinkOrphan (tag stagingId : String) (ids : List String) (tags : List String)
  | done
  /-- It threw, or its process died. -/
  | failed

/-- What a listing returns; the order is the backend's. -/
structure Listing where
  names : List String
  rows : List (Key × String)
  deriving DecidableEq, Repr

namespace Sweep

/-- The rest of the first pass. -/
def next (plan : Plan) : Sweep :=
  match plan.tags with
  | tag :: tags => .readLiveBlobs { plan with tags := tags } tag
  | [] =>
    match plan.topLevel with
    | none => .listWorkspaceTags plan
    | some topLevel => .listAllStaging plan.now topLevel

/-- The rest of `listLiveBlobs`. -/
def listing (plan : Plan) (tag : String) (blobs : List (String × ℤ)) : List String → Sweep
  | name :: names => .statLiveBlob plan tag name names blobs
  | [] => if blobs = [] then next plan else .liveHashSet plan tag blobs

/-- The loop of `reapUnreferencedForTag`, up to the next blob to read the references for. -/
def scan (grace : ℤ) (plan : Plan) (tag : String) (referenced : Finset String) :
    List (String × ℤ) → Sweep
  | [] => next plan
  | (hash, modified) :: blobs =>
    if hash ∈ referenced ∨ plan.now - modified < grace then scan grace plan tag referenced blobs
    else .recheck plan tag referenced hash modified blobs

/-- The rest of `reapOrphans` after the stale rows. -/
def orphans : List String → Sweep
  | tag :: tags => .listStagingIds tag tags
  | [] => .done

/-- The loop of `reapStaleStagingRows`. -/
def stale (now : ℤ) (topLevel : List String) : List (Key × String) → Sweep
  | row :: rows => .deleteStagingIfStale now topLevel row rows
  | [] => orphans topLevel

/-- The loop of `reapOrphanedStagingFiles`. -/
def orphanIds (tag : String) (tags : List String) : List String → Sweep
  | stagingId :: ids => .selectStagingByWsSid tag stagingId ids tags
  | [] => orphans tags

/-- Performing the next await of a sweep; `applied` says whether an unlink takes effect. -/
def perform (grace : ℤ) (db : Store) (b : BlobStore) (l : Listing) (applied : Bool) :
    Sweep → Option (Store × BlobStore × Sweep)
  | .listLiveTags now =>
    if l.names.toFinset = db.live.keys.image (·.workspaceTag) then
      some (db, b, next ⟨now, l.names, l.names, none⟩)
    else none
  | .readLiveBlobs plan tag =>
    if l.names.toFinset = BlobStore.namesOf b.live.keys tag then
      some (db, b, listing plan tag [] l.names)
    else none
  | .statLiveBlob plan tag name names blobs =>
    match b.live (tag, name) with
    -- gone since the names were read
    | none => some (db, b, listing plan tag blobs names)
    | some modified => some (db, b, listing plan tag (blobs ++ [(name, modified)]) names)
  | .liveHashSet plan tag blobs =>
    some (db, b, scan grace plan tag (Objstore.liveHashSet db tag) blobs)
  | .recheck plan tag referenced hash modified blobs =>
    if hash ∈ Objstore.liveHashSet db tag then some (db, b, scan grace plan tag referenced blobs)
    else some (db, b, .unlinkLive plan tag referenced hash modified blobs)
  | .unlinkLive plan tag referenced hash _ blobs =>
    some (db, if applied then b.unlinkLive tag hash else b, scan grace plan tag referenced blobs)
  | .listWorkspaceTags plan =>
    some (db, b, next { plan with
      tags := l.names.filter fun tag => tag ∉ plan.liveTags
      topLevel := some l.names })
  | .listAllStaging now topLevel =>
    if l.rows.toFinset = staleStaging db (now - grace) then some (db, b, stale now topLevel l.rows)
    else none
  | .deleteStagingIfStale now topLevel row rows =>
    have deleted := db.deleteStagingIfStale row.1 row.2 (now - grace)
    some (deleted.1, b,
      if deleted.2 then .unlinkStale now topLevel row rows else stale now topLevel rows)
  | .unlinkStale now topLevel row rows =>
    some (db, if applied then b.unlinkStaging row.1.workspaceTag row.2 else b,
      stale now topLevel rows)
  | .listStagingIds tag tags =>
    if l.names.toFinset = BlobStore.namesOf b.staging.keys tag then
      some (db, b, orphanIds tag tags l.names)
    else none
  | .selectStagingByWsSid tag stagingId ids tags =>
    some (db, b,
      if Objstore.selectStagingByWsSid db tag stagingId then orphanIds tag tags ids
      else .unlinkOrphan tag stagingId ids tags)
  | .unlinkOrphan tag stagingId ids tags =>
    some (db, if applied then b.unlinkStaging tag stagingId else b, orphanIds tag tags ids)
  | .idle | .done | .failed => none

end Sweep

/-! ### All replicas -/

/-- The tables with their calls, the blobs, the clock and the sweeps. -/
structure PlaneState where
  store : StoreState
  blobs : BlobStore
  /-- `Date.now()` -/
  clock : ℤ
  sweeps : ℕ → Sweep
  /-- The staging id minted for a content hash of a workspace.  The program does not have it. -/
  minted : String × String → Option String
  /-- The modification time of the blob as a commit promoted it, and the time it did so.  The
  program does not have them. -/
  promoted : ℕ → ℤ
  promotedAt : ℕ → ℤ

/-- What happens next. -/
inductive PlaneLabel
  /-- A step of the calls; `applied` says whether a blob operation takes effect. -/
  | call (a : StoreLabel) (applied : Bool)
  /-- An upload writes bytes. -/
  | write (tag stagingId : String) (size : ℤ)
  | tick (now : ℤ)
  /-- `reapOrphans` starts. -/
  | reapOrphans (w : ℕ)
  | reap (w : ℕ) (l : Listing) (applied : Bool)
  /-- The next await of a sweep throws, after it took effect or without it. -/
  | reapThrows (w : ℕ) (l : Listing) (applied : Bool)
  | reapCutOff (w : ℕ)
  deriving DecidableEq, Repr

namespace PlaneState

variable (s : PlaneState)

/-- Nothing stored and nothing under way. -/
def init : PlaneState :=
  ⟨.init, .empty, 0, fun _ => .idle, fun _ => none, fun _ => 0, fun _ => 0⟩

/-- Sweep `w` moves. -/
def setSweep (w : ℕ) (sw : Sweep) : PlaneState :=
  { s with sweeps := update s.sweeps w sw }

/-- The blobs after the next await of call `p`. -/
def blobsAfter (backend : Backend) (p : ℕ) (applied : Bool) : BlobStore :=
  if applied then s.blobs.effect backend s.clock (s.store.calls p) else s.blobs

/-- What is recorded of the next await of call `p`. -/
def record (backend : Backend) (p : ℕ) (a : Answer) : PlaneState :=
  match s.store.calls p with
  | .beginEnsureWorkspace input =>
    { s with
      minted :=
        update s.minted (input.key.workspaceTag, input.contentHash) (some a.id) }
  | .commitPromote input staging _ =>
    { s with
      promoted := update s.promoted p
        (((s.blobsAfter backend p true).live
          (input.key.workspaceTag, staging.contentHash)).getD 0)
      promotedAt := update s.promotedAt p s.clock }
  | _ => s

end PlaneState

/-- All interleavings, on one of the two backends. -/
def planeMachine (backend : Backend) (grace : ℤ) : Machine PlaneState PlaneLabel where
  step s
    | .call (.await p a) applied =>
      if s.blobs.Gives s.clock (s.store.calls p) a applied then
        (storeMachine.step s.store (.await p a)).map fun store =>
          { s.record backend p a with store := store, blobs := s.blobsAfter backend p applied }
      else none
    | .call (.throws p a happened) applied =>
      (storeMachine.step s.store (.throws p a happened)).map fun store =>
        { s with store := store, blobs := s.blobsAfter backend p applied }
    -- only a sweep drops a stale row
    | .call (.reapStaging ..) _ => none
    | .call a _ => (storeMachine.step s.store a).map fun store => { s with store := store }
    | .write tag stagingId size =>
      some { s with blobs := s.blobs.write s.clock tag stagingId size }
    | .tick now => if s.clock ≤ now then some { s with clock := now } else none
    | .reapOrphans w =>
      match s.sweeps w with
      | .idle => some (s.setSweep w (.listLiveTags s.clock))
      | _ => none
    | .reap w l applied =>
      ((s.sweeps w).perform grace s.store.db s.blobs l applied).map fun r =>
        { s with store := { s.store with db := r.1 }, blobs := r.2.1 }.setSweep w r.2.2
    | .reapThrows w l applied =>
      ((s.sweeps w).perform grace s.store.db s.blobs l applied).map fun r =>
        (if applied then { s with store := { s.store with db := r.1 }, blobs := r.2.1 }
          else s).setSweep w .failed
    | .reapCutOff w => some (s.setSweep w .failed)

end Triage.Objstore
