import Mathlib.Algebra.Order.Ring.Int
import Triage.Machine.Basic
import Triage.Data.Listing
import Triage.Managed.StoragePaths

/-!
# The removal of legacy objects

Workers list the prefixes of the store page by page, look at the objects of a page one after
another, remove the legacy ones, and then advance a cursor they share, with a count of what they
found. A pass that has found nothing is the last. The cursor is advanced only by a worker that
read it as it still is.
-/

namespace Triage.Managed

open Function

/-- The time an upload may be in stage: a day, in milliseconds. -/
def storageUploadTtlMs : ℤ := 86400000

/-- `CLEANUP_PREFIXES` -/
def cleanupPrefixes : List ObjectKey :=
  ["cache/".toList, "reports/".toList, "bundles/".toList, encryptedCachePrefix]

/-- The prefix a key is under, by its index. -/
def prefixIndex (key : ObjectKey) : Option ℕ := cleanupPrefixes.findIdx? (· <+: key)

/-- An object, and whether it begins with the magic bytes. -/
structure CleanupObject where
  version : ℕ
  modifiedAt : ℤ
  encrypted : Bool
  deriving DecidableEq

/-- `cleanup_cursor`: the index of a prefix, and the cursor of its listing; `none` is the start. -/
abbrev CleanupCursor (Cursor : Type) := Option (ℕ × Option Cursor)

/-- `cleanupPosition` -/
def cleanupPosition {Cursor : Type} (cursor : CleanupCursor Cursor) : ℕ × Option Cursor :=
  cursor.getD (0, none)

/-- The store, the rows and the state of the cleanup.  `rows` tells of a row whether it is of a
sourcemap.  `pass` and `old` are not stored: they number the passes, and name the objects that have
been legacy ever since the pass began. -/
structure CleanupDb (Cursor : Type) where
  /-- The objects, in the order the store lists them. -/
  objects : List (ObjectKey × CleanupObject)
  nextVersion : ℕ
  rows : StorageRowKind → List Char → Option Bool
  now : ℤ
  enabledAt : ℤ
  cleanupCursor : CleanupCursor Cursor
  cleanupFound : ℕ
  cleanupComplete : Bool
  pass : ℕ
  old : List (ObjectKey × ℕ)

/-- A page that a worker is at: the cursor it was listed at and in which pass, its keys, those still
to come, and what was found among the others. -/
structure CleanupPage (Cursor : Type) where
  expected : CleanupCursor Cursor
  pass : ℕ
  keys : List ObjectKey
  todo : List ObjectKey
  cursor : Option Cursor
  found : ℕ
  retryAt : Option ℤ

/-- The call a worker makes next. -/
inductive CleanupCall (Cursor : Type)
  /-- The worker is not at work. -/
  | out
  | state
  | list (expected : CleanupCursor Cursor) (pass : ℕ)
  | row (page : CleanupPage Cursor) (key : ObjectKey) (target : CleanupTarget)
  | head (page : CleanupPage Cursor) (key : ObjectKey) (target : CleanupTarget)
  | openObject (page : CleanupPage Cursor) (key : ObjectKey) (target : CleanupTarget)
      (stored : CleanupObject)
  | delete (page : CleanupPage Cursor) (key : ObjectKey) (stored : CleanupObject)
  | advance (page : CleanupPage Cursor)

variable {Cursor : Type}

namespace CleanupDb

variable (db : CleanupDb Cursor)

/-- The object of a key. -/
def object (key : ObjectKey) : Option CleanupObject :=
  (db.objects.find? fun object => object.1 = key).map Prod.snd

/-- The keys under a prefix, in the order of the store. -/
def keysUnder (i : ℕ) : List ObjectKey :=
  (db.objects.map Prod.fst).filter fun key => prefixIndex key = some i

/-- A row refers to the object of a key. -/
def referenced (key : ObjectKey) (target : CleanupTarget) : Bool :=
  match target.owner with
  | none => false
  | some (type, id) =>
    match db.rows type id with
    | none => false
    | some sourcemap => key ∈ storageRowPaths type id sourcemap

/-- What cleanup calls legacy: temporary files past their time, caches, and payloads that no row
refers to, from before activation or in plaintext. -/
def legacy (key : ObjectKey) (object : CleanupObject) : Bool :=
  match cleanupTarget key with
  | none => false
  | some target =>
    if target.temporary then object.modifiedAt ≤ db.now - storageUploadTtlMs
    else target.cache || !db.referenced key target &&
      (object.modifiedAt < db.enabledAt - storageUploadTtlMs || !object.encrypted)

/-- The legacy objects under the prefixes, by key and version. -/
def legacyObjects : List (ObjectKey × ℕ) :=
  (db.objects.filter fun object =>
    (prefixIndex object.1).isSome && db.legacy object.1 object.2).map
      fun object => (object.1, object.2.version)

/-- An object is put, in the place of the one of its key, or where the store lists it. -/
def put (key : ObjectKey) (modifiedAt : ℤ) (encrypted : Bool) (position : ℕ) :
    CleanupDb Cursor :=
  have object : CleanupObject := ⟨db.nextVersion, modifiedAt, encrypted⟩
  { db with
    nextVersion := db.nextVersion + 1
    objects := if (db.object key).isSome then
        db.objects.map fun other => if other.1 = key then (key, object) else other
      else db.objects.take position ++ (key, object) :: db.objects.drop position }

/-- The object of a key is removed. -/
def remove (key : ObjectKey) : CleanupDb Cursor :=
  { db with objects := db.objects.filter fun object => object.1 ≠ key }

/-- The cursor after a page. -/
def nextCursor (index : ℕ) : Option Cursor → CleanupCursor Cursor
  | some cursor => some (index, some cursor)
  | none => if index + 1 < cleanupPrefixes.length then some (index + 1, none) else none

/-- `advanceStorageCleanup` -/
def advanceStorageCleanup [DecidableEq Cursor] (expected next : CleanupCursor Cursor)
    (removed : ℕ) : CleanupDb Cursor :=
  have found := db.cleanupFound + removed
  if db.cleanupCursor = expected then
    { db with
      cleanupCursor := next
      cleanupFound := if next = none then 0 else found
      cleanupComplete := next = none && found = 0
      pass := if next = none then db.pass + 1 else db.pass
      old := if next = none then db.legacyObjects else db.old }
  else db

/-- An object that is not legacy any more has not been legacy ever since. -/
def refresh : CleanupDb Cursor :=
  { db with old := db.old.filter fun entry =>
      match db.object entry.1 with
      | none => false
      | some object => object.version = entry.2 && db.legacy entry.1 object }

end CleanupDb

namespace CleanupPage

variable (page : CleanupPage Cursor)

/-- The next object of the page that is the store's own, and what is asked of it first. -/
def look (page : CleanupPage Cursor) : List ObjectKey → CleanupCall Cursor
  | [] => .advance { page with todo := [] }
  | key :: todo =>
    match cleanupTarget key with
    | none => look page todo
    | some target =>
      if target.temporary || target.cache then .head { page with todo := todo } key target
      else .row { page with todo := todo } key target

/-- The page goes on with the next object. -/
def next : CleanupCall Cursor := page.look page.todo

/-- One more object was found. -/
def count : CleanupPage Cursor := { page with found := page.found + 1 }

/-- The object is staged, and can be removed later. -/
def defer (modifiedAt : ℤ) : CleanupPage Cursor :=
  have retryAt := modifiedAt + storageUploadTtlMs
  { page.count with retryAt := some (page.retryAt.elim retryAt (min retryAt)) }

end CleanupPage

/-! ### A worker's calls -/

namespace CleanupCall

variable (L : Listing ObjectKey Cursor) (db : CleanupDb Cursor)

/-- `getStorageEncryption`, and the condition of the loop. -/
def stateStep : CleanupCall Cursor :=
  if db.cleanupComplete then .out else .list db.cleanupCursor db.pass

/-- `raw.list`, of 16 objects at most. -/
def listStep (expected : CleanupCursor Cursor) (pass limit : ℕ) : CleanupCall Cursor :=
  have position := cleanupPosition expected
  if position.1 < cleanupPrefixes.length then
    have page := L.page (db.keysUnder position.1) position.2 (min limit 16)
    CleanupPage.look ⟨expected, pass, page.1, page.1, page.2, 0, none⟩ page.1
  else .out

/-- `getStorageRow`: a payload of a row is not looked at. -/
def rowStep (page : CleanupPage Cursor) (key : ObjectKey) (target : CleanupTarget) :
    CleanupCall Cursor :=
  if db.referenced key target then page.next else .head page key target

/-- `raw.head` -/
def headStep (page : CleanupPage Cursor) (key : ObjectKey) (target : CleanupTarget) :
    CleanupCall Cursor :=
  match db.object key with
  | none => page.next
  | some stored =>
    if target.temporary && stored.modifiedAt > db.now - storageUploadTtlMs then
      (page.defer stored.modifiedAt).next
    else if target.temporary || target.cache ||
        stored.modifiedAt < db.enabledAt - storageUploadTtlMs then .delete page.count key stored
    else .openObject page key target stored

/-- `raw.open`: only ciphertext is kept.  Another version is an error. -/
def openStep (page : CleanupPage Cursor) (key : ObjectKey) (stored : CleanupObject) :
    CleanupCall Cursor :=
  match db.object key with
  | none => page.next
  | some source =>
    if source.version ≠ stored.version then .out
    else if source.encrypted then page.next
    else .delete page.count key stored

/-- `raw.delete`, of the version seen.  Another version is an error. -/
def deleteStep (page : CleanupPage Cursor) (key : ObjectKey) (stored : CleanupObject) :
    CleanupDb Cursor × CleanupCall Cursor :=
  match db.object key with
  | none => (db, page.next)
  | some object =>
    if object.version = stored.version then (db.remove key, page.next) else (db, .out)

/-- `advanceStorageCleanup`, and the condition of the loop. -/
def advanceStep [DecidableEq Cursor] (page : CleanupPage Cursor) :
    CleanupDb Cursor × CleanupCall Cursor :=
  have index := (cleanupPosition page.expected).1
  (db.advanceStorageCleanup page.expected (CleanupDb.nextCursor index page.cursor) page.found,
    if page.retryAt = none then .state else .out)

/-- The answer to a call. -/
def answer [DecidableEq Cursor] (limit : ℕ) :
    CleanupCall Cursor → Option (CleanupDb Cursor × CleanupCall Cursor)
  | .out => none
  | .state => some (db, stateStep db)
  | .list expected pass =>
    if 0 < limit then some (db, listStep L db expected pass limit) else none
  | .row page key target => some (db, rowStep db page key target)
  | .head page key target => some (db, headStep db page key target)
  | .openObject page key _ stored => some (db, openStep db page key stored)
  | .delete page key stored => some (deleteStep db page key stored)
  | .advance page => some (advanceStep db page)

end CleanupCall

/-! ### The workers -/

/-- The store and its workers. -/
structure Cleanup (Cursor : Type) where
  db : CleanupDb Cursor
  workers : ℕ → CleanupCall Cursor

/-- A worker begins, gets an answer or leaves; or, elsewhere, an object is put or removed, a row
changes, or time passes. -/
inductive CleanupLabel
  | enter (worker : ℕ)
  | answer (worker limit : ℕ)
  | leave (worker : ℕ)
  | put (key : ObjectKey) (modifiedAt : ℤ) (encrypted : Bool) (position : ℕ)
  | remove (key : ObjectKey)
  | row (type : StorageRowKind) (id : List Char) (row : Option Bool)
  | tick (ms : ℕ)

/-- The state after a step, before it is noted which objects are still legacy. -/
def Cleanup.move [DecidableEq Cursor] (L : Listing ObjectKey Cursor) (s : Cleanup Cursor) :
    CleanupLabel → Option (Cleanup Cursor)
  | .enter w => match s.workers w with
    | .out => some { s with workers := update s.workers w .state }
    | _ => none
  | .answer w limit => (s.workers w).answer L s.db limit |>.map fun next =>
      ⟨next.1, update s.workers w next.2⟩
  | .leave w => some { s with workers := update s.workers w .out }
  | .put key modifiedAt encrypted position =>
    some { s with db := s.db.put key modifiedAt encrypted position }
  | .remove key => some { s with db := s.db.remove key }
  | .row type id row => some { s with db := { s.db with
      rows := update s.db.rows type (update (s.db.rows type) id row) } }
  | .tick ms => some { s with db := { s.db with now := s.db.now + ms } }

/-- Any number of workers among the writers. -/
def cleanup [DecidableEq Cursor] (L : Listing ObjectKey Cursor) :
    Machine (Cleanup Cursor) CleanupLabel where
  step s a := (s.move L a).map fun s' => { s' with db := s'.db.refresh }

/-- No worker has begun, over some objects. -/
def Cleanup.start (objects : List (ObjectKey × CleanupObject)) (nextVersion : ℕ)
    (rows : StorageRowKind → List Char → Option Bool) (now enabledAt : ℤ) : Cleanup Cursor where
  db :=
    have db : CleanupDb Cursor :=
      ⟨objects, nextVersion, rows, now, enabledAt, none, 0, false, 0, []⟩
    { db with old := db.legacyObjects }
  workers := fun _ => .out

end Triage.Managed
