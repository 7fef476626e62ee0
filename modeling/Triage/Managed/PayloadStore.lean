import Triage.Data.FMap
import Triage.Managed.StoragePaths

/-!
# The payloads of managed storage

Reports and bundles are rows, and their payloads are objects: as they were uploaded or compressed,
in plaintext or sealed under the data key of the row. Sealed bytes open under their key and at
their path, and nothing else opens; the hash of an upload tells it from any other.
-/

namespace Triage.Managed

open Function

/-- A row, by its kind and its id. -/
structure PayloadRef (Id : Type) where
  type : StorageRowKind
  id : Id
  deriving DecidableEq

/-- A path of a payload: the compressed one ends in `.br`, or in `.map.br` for a sourcemap. -/
structure PayloadPath (Id : Type) where
  owner : PayloadRef Id
  compressed : Bool
  deriving DecidableEq

/-- `storageRowPaths`, in the order of the source. -/
def PayloadRef.paths {Id : Type} (ref : PayloadRef Id) (sourcemap : Bool) :
    List (PayloadPath Id) :=
  match ref.type with
  | .report => [⟨ref, true⟩, ⟨ref, false⟩]
  | .bundle => [⟨ref, sourcemap⟩]

/-- The key of an object. -/
def PayloadPath.key (path : PayloadPath (List Char)) : ObjectKey :=
  match path.owner.type with
  | .report => "reports/".toList ++ path.owner.id ++ if path.compressed then ".br".toList else []
  | .bundle =>
    "bundles/".toList ++ path.owner.id ++ if path.compressed then ".map.br".toList else []

/-- Brotli, by quality, the hash of an upload, and whether bytes begin with the magic ones. -/
structure PayloadCodec (Bytes Hash : Type) where
  encodeBrotli : Bytes → ℕ → Bytes
  decodeBrotli : Bytes → Option Bytes
  hash : StorageRowKind → Bytes → Hash
  looksEncrypted : Bytes → Bool
  decode_encode : ∀ bytes quality, decodeBrotli (encodeBrotli bytes quality) = some bytes
  /-- No two uploads have one hash. -/
  hash_injective : ∀ type, Function.Injective (hash type)

/-- The bytes of an object: as they are, or sealed under a data key for a path. -/
inductive StoredBody (Id Bytes : Type)
  | plain (bytes : Bytes)
  | sealed (dataKey : ℕ) (path : PayloadPath Id) (bytes : Bytes)
  deriving DecidableEq

/-- An object.  `late` is not stored: the object was put after activation. -/
structure StoredPayload (Id Bytes : Type) where
  version : ℕ
  body : StoredBody Id Bytes
  late : Bool
  deriving DecidableEq

structure PayloadRow (Hash : Type) where
  dataKey : Option ℕ
  encrypted : Bool
  hash : Hash
  sourcemap : Bool
  deriving DecidableEq

/-- What a row was uploaded with. -/
structure PayloadUpload (Bytes : Type) where
  bytes : Bytes
  sourcemap : Bool
  deriving DecidableEq

/-- What became of an id: not used yet, being uploaded by a worker, a row, or deleted. -/
inductive PayloadStage
  | fresh
  | staged (worker : ℕ)
  | live
  | gone
  deriving DecidableEq

/-- The store and the database.  `uploads` and `stage` are not stored. -/
structure PayloadDb (Id Bytes Hash : Type) where
  objects : PayloadPath Id → Option (StoredPayload Id Bytes)
  nextVersion : ℕ
  rows : FMap (PayloadRef Id) (PayloadRow Hash)
  nextKey : ℕ
  enabled : Bool
  complete : Bool
  uploads : PayloadRef Id → Option (PayloadUpload Bytes)
  stage : PayloadRef Id → PayloadStage

variable {Id Bytes Hash : Type}

/-! ### Bytes -/

namespace StoredBody

/-- The object begins with the magic bytes. -/
def encrypted (C : PayloadCodec Bytes Hash) : StoredBody Id Bytes → Bool
  | plain bytes => C.looksEncrypted bytes
  | sealed _ _ _ => true

/-- What was put, before sealing. -/
def payload : StoredBody Id Bytes → Bytes
  | plain bytes => bytes
  | sealed _ _ bytes => bytes

/-- The stored bytes, if they can be those of an upload; a ciphertext is none. -/
def raw : StoredBody Id Bytes → Option Bytes
  | plain bytes => some bytes
  | sealed _ _ _ => none

variable [DecidableEq Id]

/-- `decryptStorageStream`: what is sealed opens under its key and at its path. -/
def opens (dataKey : ℕ) (path : PayloadPath Id) : StoredBody Id Bytes → Option Bytes
  | plain _ => none
  | sealed dataKey' path' bytes => if dataKey' = dataKey ∧ path' = path then some bytes else none

end StoredBody

namespace PayloadCodec

variable (C : PayloadCodec Bytes Hash)

/-- What is uploaded is stored as. -/
def stored (type : StorageRowKind) (upload : PayloadUpload Bytes) : Bytes :=
  match type with
  | .report => C.encodeBrotli upload.bytes 9
  | .bundle => if upload.sourcemap then C.encodeBrotli upload.bytes 4 else upload.bytes

/-- The upload that the stored bytes of a path stand for. -/
def decode (path : PayloadPath Id) (bytes : Bytes) : Option Bytes :=
  if path.compressed then C.decodeBrotli bytes else some bytes

/-- `verifyStoragePayload` -/
def verify [DecidableEq Hash] (path : PayloadPath Id) (row : PayloadRow Hash) (bytes : Bytes) :
    Bool :=
  match C.decode path bytes with
  | none => false
  | some upload => C.hash path.owner.type upload = row.hash

/-- `verifyStoragePayload` of what is stored, without decryption. -/
def verifyRaw [DecidableEq Hash] (path : PayloadPath Id) (row : PayloadRow Hash)
    (body : StoredBody Id Bytes) : Bool :=
  match body.raw with
  | none => false
  | some bytes => C.verify path row bytes

end PayloadCodec

/-- The path an upload is put at. -/
def PayloadRef.uploadPath (ref : PayloadRef Id) (sourcemap : Bool) : PayloadPath Id :=
  match ref.type with
  | .report => ⟨ref, true⟩
  | .bundle => ⟨ref, sourcemap⟩

/-! ### Operations -/

namespace PayloadDb

variable [DecidableEq Id] (db : PayloadDb Id Bytes Hash)

/-- `storagePolicy`: whether the encryption is enabled, or an error.  An instance without the key
may answer from what it read before, unless asked for a fresh answer. -/
def mode (keyed fresh stale : Bool) : Option Bool :=
  if !keyed && !fresh && stale then some false
  else if db.enabled && !keyed then none
  else some db.enabled

/-- `raw.put` -/
def put (path : PayloadPath Id) (body : StoredBody Id Bytes) : PayloadDb Id Bytes Hash :=
  { db with
    objects := update db.objects path (some ⟨db.nextVersion, body, db.enabled⟩)
    nextVersion := db.nextVersion + 1 }

/-- The version of the object of a path. -/
def version (path : PayloadPath Id) : Option ℕ := (db.objects path).map StoredPayload.version

/-- `raw.put` in the place of a version, or of nothing. -/
def putIf (path : PayloadPath Id) (body : StoredBody Id Bytes) (expected : Option ℕ) :
    PayloadDb Id Bytes Hash × Bool :=
  if db.version path = expected then (db.put path body, true) else (db, false)

/-- `raw.delete` -/
def remove (path : PayloadPath Id) : PayloadDb Id Bytes Hash :=
  { db with objects := update db.objects path none }

/-- `raw.delete` of a version. -/
def removeIf (path : PayloadPath Id) (expected : ℕ) : PayloadDb Id Bytes Hash :=
  if db.version path = some expected then db.remove path else db

/-- `ensureStorageDataKey`: a row without a data key gets a new one. -/
def ensureStorageDataKey (ref : PayloadRef Id) :
    PayloadDb Id Bytes Hash × Option (PayloadRow Hash) :=
  match db.rows ref with
  | none => (db, none)
  | some row =>
    match row.dataKey with
    | some _ => (db, some row)
    | none =>
      have row' : PayloadRow Hash := { row with dataKey := some db.nextKey }
      ({ db with rows := db.rows.insert ref row', nextKey := db.nextKey + 1 }, some row')

/-- `markStorageEncrypted` -/
def markStorageEncrypted (ref : PayloadRef Id) (dataKey : ℕ) : PayloadDb Id Bytes Hash :=
  match db.rows ref with
  | none => db
  | some row =>
    if row.dataKey = some dataKey then
      { db with rows := db.rows.insert ref { row with encrypted := true } }
    else db

/-- A row is not encrypted yet. -/
def pending (ref : PayloadRef Id) : Bool :=
  match db.rows ref with
  | none => false
  | some row => !row.encrypted

/-- `advanceStorageMigration`; `last` tells that no row is behind the cursor, and `tokens` that
tokens of users are still to be encrypted. -/
def advanceStorageMigration (last tokens : Bool) : PayloadDb Id Bytes Hash :=
  if db.enabled then
    { db with complete := last && !tokens && decide (∀ ref ∈ db.rows.keys, db.pending ref = false) }
  else db

/-- The row of an upload is inserted. -/
def insertRow (ref : PayloadRef Id) (row : PayloadRow Hash) : PayloadDb Id Bytes Hash :=
  { db with
    rows := db.rows.insert ref row
    stage := update db.stage ref .live }

/-- There is no row of an id, and there will be none. -/
def close (ref : PayloadRef Id) : PayloadDb Id Bytes Hash :=
  { db with
    rows := db.rows.erase ref
    stage := update db.stage ref .gone }

/-- An upload begins. -/
def begin (ref : PayloadRef Id) (upload : PayloadUpload Bytes) (worker : ℕ) :
    PayloadDb Id Bytes Hash :=
  { db with
    uploads := update db.uploads ref (some upload)
    stage := update db.stage ref (.staged worker) }

end PayloadDb

end Triage.Managed
