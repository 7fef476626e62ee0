import Triage.Machine.Basic
import Triage.Managed.PayloadStore

/-!
# The calls on payloads

Any number of instances upload payloads, read them, compress reports that were stored as uploaded,
delete rows, and migrate rows to encrypted storage once that is activated. Each awaits one
operation of the store or of the database after another, and may fail or crash between any two.
-/

namespace Triage.Managed

variable {Id Bytes Hash : Type}

/-! ### Opening an object -/

/-- How opening an object ends; the content of an object that opens is plaintext. -/
inductive OpenResult (Id Bytes : Type)
  | error
  | missing
  | stored (content : StoredBody Id Bytes)
  deriving DecidableEq

/-- `open` of `createEncryptedObjectStorage`, and `openEncrypted` of an owned object; `left` counts
the attempts left. -/
inductive OpenCall (Id Bytes Hash : Type)
  | mode
  | disabled
  | recheck (object : StoredPayload Id Bytes)
  | getRow (left : ℕ)
  | state (left : ℕ) (row : PayloadRow Hash)
  | raw (left : ℕ) (row : PayloadRow Hash) (complete : Bool)
  | key (left : ℕ) (row : PayloadRow Hash) (object : StoredPayload Id Bytes)
  | legacy (left : ℕ) (row : PayloadRow Hash) (object : StoredPayload Id Bytes)
  | verified (left : ℕ) (object : StoredPayload Id Bytes)
  | done (result : OpenResult Id Bytes)

section Open

variable [DecidableEq Id] [DecidableEq Hash] (C : PayloadCodec Bytes Hash)
  (db : PayloadDb Id Bytes Hash) (keyed stale : Bool) (path : PayloadPath Id)

/-- `openObjectVersion` -/
def PayloadDb.openObjectVersion (object : StoredPayload Id Bytes) :
    Option (StoredPayload Id Bytes) :=
  match db.objects path with
  | none => none
  | some current => if current.version = object.version then some current else none

namespace OpenCall

/-- `decryptOwned` -/
def decryptOwned (row : PayloadRow Hash) (object : StoredPayload Id Bytes) :
    OpenCall Id Bytes Hash :=
  match row.dataKey with
  | none => .done .error
  | some dataKey =>
    match object.body.opens dataKey path with
    | none => .done .error
    | some bytes => .done (.stored (.plain bytes))

/-- A pending row may read plaintext, and only the original upload. -/
def verifyOriginal (left : ℕ) (row : PayloadRow Hash) (object : StoredPayload Id Bytes) :
    OpenCall Id Bytes Hash :=
  if C.verifyRaw path row object.body then .verified left object else .done .error

/-- The row says what is to be done with the object. -/
def inspect (left : ℕ) (row : PayloadRow Hash) (complete : Bool)
    (object : StoredPayload Id Bytes) : OpenCall Id Bytes Hash :=
  if row.encrypted || complete then decryptOwned path row object
  else if object.body.encrypted C then
    match row.dataKey with
    | none => .key left row object
    | some dataKey =>
      match object.body.opens dataKey path with
      | none => .legacy left row object
      | some bytes => .done (.stored (.plain bytes))
  else verifyOriginal C path left row object

/-- The next operation. -/
def answer : OpenCall Id Bytes Hash → OpenCall Id Bytes Hash
  | .mode =>
    match db.mode keyed false stale with
    | none => .done .error
    | some false => .disabled
    | some true => .getRow 3
  | .disabled =>
    match db.objects path with
    | none => .done .missing
    | some object =>
      if object.body.encrypted C then .recheck object else .done (.stored object.body)
  | .recheck object =>
    match db.mode keyed true stale with
    | none => .done .error
    | some false => .done (.stored object.body)
    | some true => .getRow 3
  | .getRow 0 => .done .error
  | .getRow (left + 1) =>
    match db.rows path.owner with
    | none => .done .missing
    | some row =>
      if path ∈ path.owner.paths row.sourcemap then
        if row.encrypted then .raw left row false else .state left row
      else .done .missing
  | .state left row => .raw left row db.complete
  | .raw left row complete =>
    match db.objects path with
    | none => .done .missing
    | some object => inspect C path left row complete object
  | .key left row object =>
    match db.rows path.owner with
    | none => verifyOriginal C path left row object
    | some row' =>
      if row'.dataKey.isSome then .getRow left else verifyOriginal C path left row object
  | .legacy left row object =>
    match db.openObjectVersion path object with
    | none => .getRow left
    | some current => verifyOriginal C path left row current
  | .verified left object =>
    match db.openObjectVersion path object with
    | none => .getRow left
    | some current => .done (.stored current.body)
  | .done result => .done result

/-- What opening an object ends in if nothing else happens. -/
def alone (call : OpenCall Id Bytes Hash) : ℕ → OpenCall Id Bytes Hash
  | 0 => call
  | n + 1 => alone (call.answer C db keyed stale path) n

end OpenCall

end Open

/-! ### Compressing a stored report -/

/-- `convertStoredReport` -/
inductive ConvertCall (Hash : Type)
  | verify
  | mode (left : ℕ)
  | getRow (left : ℕ) (enabled : Bool)
  | existing (left : ℕ) (enabled : Bool) (row : PayloadRow Hash)
  | publish (left : ℕ) (enabled : Bool) (row : PayloadRow Hash) (expected : Option ℕ)
  | recheck (left : ℕ)
  | finish (enabled : Bool)
  | discard
  | remove (enabled : Bool) (row : PayloadRow Hash)
  | mark (row : PayloadRow Hash)
  | done
  | failed

section Convert

variable [DecidableEq Id] [DecidableEq Hash] (C : PayloadCodec Bytes Hash)
  (db : PayloadDb Id Bytes Hash) (keyed stale : Bool)

/-- The paths of a report. -/
def reportPath (id : Id) (compressed : Bool) : PayloadPath Id := ⟨⟨.report, id⟩, compressed⟩

namespace ConvertCall

/-- `existingReportConversion`, and whether it is to be published over. -/
def existingStep (path : PayloadPath Id) (left : ℕ) (enabled : Bool) (row : PayloadRow Hash) :
    ConvertCall Hash :=
  match db.objects path with
  | none => .publish left enabled row none
  | some object =>
    if object.body.encrypted C then
      match row.dataKey with
      | none => .mode left
      | some dataKey =>
        if enabled then
          match object.body.opens dataKey path with
          | none => .failed
          | some bytes => if C.verify path row bytes then .finish true else .failed
        else .mode left
    else if C.verifyRaw path row object.body then
      if enabled then .publish left true row (some object.version) else .recheck left
    else .failed

/-- `publishReportConversion` -/
def publishStep (path : PayloadPath Id) (bytes : Bytes) (left : ℕ) (enabled : Bool)
    (row : PayloadRow Hash) (expected : Option ℕ) : PayloadDb Id Bytes Hash × ConvertCall Hash :=
  if enabled then
    match row.dataKey with
    | none => (db, .failed)
    | some dataKey =>
      match db.putIf path (.sealed dataKey path bytes) expected with
      | (db', true) => (db', .finish true)
      | (db', false) => (db', .mode left)
  else
    match db.putIf path (.plain bytes) expected with
    | (db', true) => (db', .recheck left)
    | (db', false) => (db', .mode left)

/-- The next operation, for the compressed bytes of a report. -/
def answer (id : Id) (bytes : Bytes) : ConvertCall Hash → PayloadDb Id Bytes Hash × ConvertCall Hash
  | .verify =>
    match db.rows ⟨.report, id⟩ with
    | none => (db, .failed)
    | some row =>
      if C.verify (reportPath id true) row bytes then (db, .mode 3) else (db, .failed)
  | .mode 0 => (db, .failed)
  | .mode (left + 1) =>
    match db.mode keyed true stale with
    | none => (db, .failed)
    | some enabled => (db, .getRow left enabled)
  | .getRow left true =>
    match db.ensureStorageDataKey ⟨.report, id⟩ with
    | (db', none) => (db', .failed)
    | (db', some row) => (db', .existing left true row)
  | .getRow left false =>
    match db.rows ⟨.report, id⟩ with
    | none => (db, .failed)
    | some row => (db, .existing left false row)
  | .existing left enabled row => (db, existingStep C db (reportPath id true) left enabled row)
  | .publish left enabled row expected =>
    publishStep db (reportPath id true) bytes left enabled row expected
  | .recheck left =>
    match db.mode keyed true stale with
    | none => (db, .failed)
    | some true => (db, .mode left)
    | some false => (db, .finish false)
  | .finish enabled =>
    match db.rows ⟨.report, id⟩ with
    | none => (db, .discard)
    | some row => (db, .remove enabled row)
  | .discard => (db.remove (reportPath id true), .failed)
  | .remove enabled row =>
    (db.remove (reportPath id false), if enabled then .mark row else .done)
  | .mark row =>
    match row.dataKey with
    | none => (db, .failed)
    | some dataKey => (db.markStorageEncrypted ⟨.report, id⟩ dataKey, .done)
  | .done => (db, .done)
  | .failed => (db, .failed)

end ConvertCall

end Convert

/-! ### Reading -/

/-- `open` of the report store and of the bundle store; a report known to be compressed is looked
for there first.  What a bundle is stored as is sent as it is, with its encoding. -/
inductive ReadCall (Id Bytes Hash : Type)
  | known (compressed : OpenCall Id Bytes Hash)
  | both (original compressed : OpenCall Id Bytes Hash)
  | convert (bytes : Bytes) (call : ConvertCall Hash)
  | bundle (sourcemap : Bool) (call : OpenCall Id Bytes Hash)
  | done (result : OpenResult Id Bytes)

section Read

variable [DecidableEq Id] [DecidableEq Hash] (C : PayloadCodec Bytes Hash)
  (db : PayloadDb Id Bytes Hash) (keyed stale : Bool)

/-- `decoded`; a ciphertext does not decompress. -/
def decodedReport : StoredBody Id Bytes → OpenResult Id Bytes
  | .sealed _ _ _ => .error
  | .plain bytes =>
    match C.decodeBrotli bytes with
    | none => .error
    | some report => .stored (.plain report)

namespace ReadCall

/-- Both copies were asked for, and the original answers where it is still there. -/
def settle : OpenResult Id Bytes → OpenResult Id Bytes → ReadCall Id Bytes Hash
  | .error, _ => .done .error
  | .stored (.plain bytes), _ => .convert bytes .verify
  | .stored (.sealed _ _ _), _ => .done .error
  | .missing, .error => .done .error
  | .missing, .missing => .done .missing
  | .missing, .stored content => .done (decodedReport C content)

/-- The next operation; `side` tells which of two copies answers. -/
def answer (side : Bool) (id : Id) :
    ReadCall Id Bytes Hash → PayloadDb Id Bytes Hash × ReadCall Id Bytes Hash
  | .known (.done .error) => (db, .done .error)
  | .known (.done .missing) => (db, .both .mode .mode)
  | .known (.done (.stored content)) => (db, .done (decodedReport C content))
  | .known call => (db, .known (call.answer C db keyed stale (reportPath id true)))
  | .both (.done original) (.done compressed) => (db, settle C original compressed)
  | .both original compressed =>
    if side then (db, .both (original.answer C db keyed stale (reportPath id false)) compressed)
    else (db, .both original (compressed.answer C db keyed stale (reportPath id true)))
  | .convert bytes .done => (db, .done (.stored (.plain bytes)))
  | .convert _ .failed => (db, .done .error)
  | .convert bytes call =>
    have next := call.answer C db keyed stale id (C.encodeBrotli bytes 9)
    (next.1, .convert bytes next.2)
  | .bundle sourcemap call =>
    (db, .bundle sourcemap (call.answer C db keyed stale ⟨⟨.bundle, id⟩, sourcemap⟩))
  | .done result => (db, .done result)

end ReadCall

end Read

/-! ### Uploading -/

/-- `put` of the stores, the insertion of the row, and what is undone if that fails. -/
inductive UploadCall
  | mode
  | putPlain
  | recheck
  | discardOpen
  | discardDelete (version : ℕ)
  | checkRow
  | putSealed
  | insert (dataKey : Option ℕ)
  | inserted
  | resolve
  | remove
  | out

section Upload

variable [DecidableEq Id] [DecidableEq Bytes] (C : PayloadCodec Bytes Hash)
  (db : PayloadDb Id Bytes Hash) (keyed stale : Bool)

namespace UploadCall

/-- The insertion, if `validateStorageUpload` lets it through. -/
def insertStep (ref : PayloadRef Id) (upload : PayloadUpload Bytes) (dataKey : Option ℕ) :
    PayloadDb Id Bytes Hash × UploadCall :=
  if dataKey.isSome = db.enabled ∧ (keyed ∨ db.enabled = false) then
    (db.insertRow ref ⟨dataKey, dataKey.isSome, C.hash ref.type upload.bytes, upload.sourcemap⟩,
      .inserted)
  else (db.close ref, .resolve)

/-- The next operation; `side` chooses among the paths to remove. -/
def answer (side : Bool) (ref : PayloadRef Id) (upload : PayloadUpload Bytes) :
    UploadCall → PayloadDb Id Bytes Hash × UploadCall
  | .mode =>
    match db.mode keyed false stale with
    | none => (db, .out)
    | some false => (db, .putPlain)
    | some true => (db, .checkRow)
  | .putPlain =>
    (db.put (ref.uploadPath upload.sourcemap) (.plain (C.stored ref.type upload)), .recheck)
  | .recheck =>
    match db.mode keyed true stale with
    | some false => (db, .insert none)
    | _ => (db, .discardOpen)
  | .discardOpen =>
    match db.objects (ref.uploadPath upload.sourcemap) with
    | none => (db, .out)
    | some current =>
      if current.body.raw = some (C.stored ref.type upload) then
        (db, .discardDelete current.version)
      else (db, .out)
  | .discardDelete version => (db.removeIf (ref.uploadPath upload.sourcemap) version, .out)
  | .checkRow =>
    match db.rows ref with
    | none => (db, .putSealed)
    | some _ => (db, .out)
  | .putSealed =>
    have path := ref.uploadPath upload.sourcemap
    ({ db.put path (.sealed db.nextKey path (C.stored ref.type upload)) with
      nextKey := db.nextKey + 1 }, .insert (some db.nextKey))
  | .insert dataKey => insertStep C db keyed ref upload dataKey
  | .inserted => (db, .out)
  | .resolve =>
    match db.rows ref with
    | none => (db, .remove)
    | some _ => (db, .out)
  | .remove => (db.remove ⟨ref, side⟩, .remove)
  | .out => (db, .out)

/-- An operation fails, perhaps after it took effect. -/
def throws (ref : PayloadRef Id) : UploadCall → PayloadDb Id Bytes Hash × UploadCall
  | .putPlain => (db, .discardOpen)
  | .recheck => (db, .discardOpen)
  | .insert _ => (db.close ref, .resolve)
  | .inserted => (db, .resolve)
  | _ => (db, .out)

end UploadCall

end Upload

/-! ### Migrating a row -/

/-- `migrateRow`, with the paths still to come, and `migratePayload` of the first of them. -/
inductive MigrateCall (Id Bytes Hash : Type)
  | key
  | look (row : PayloadRow Hash) (todo : List (PayloadPath Id)) (found : Bool)
  | legacy (row : PayloadRow Hash) (path : PayloadPath Id) (todo : List (PayloadPath Id))
      (object : StoredPayload Id Bytes)
  | put (row : PayloadRow Hash) (path : PayloadPath Id) (todo : List (PayloadPath Id))
      (version : ℕ) (bytes : Bytes)
  | check (row : PayloadRow Hash) (path : PayloadPath Id) (todo : List (PayloadPath Id))
  | out

section Migrate

variable [DecidableEq Id] [DecidableEq Hash] (C : PayloadCodec Bytes Hash)
  (db : PayloadDb Id Bytes Hash)

namespace MigrateCall

/-- The object opens with the data key of its row, to what was uploaded. -/
def authentic (path : PayloadPath Id) (row : PayloadRow Hash) (body : StoredBody Id Bytes) : Bool :=
  match row.dataKey with
  | none => false
  | some dataKey =>
    match body.opens dataKey path with
    | none => false
    | some bytes => C.verify path row bytes

/-- Plaintext is sealed if it is what was uploaded. -/
def encryptUpload (row : PayloadRow Hash) (path : PayloadPath Id) (todo : List (PayloadPath Id))
    (object : StoredPayload Id Bytes) : MigrateCall Id Bytes Hash :=
  match object.body.raw with
  | none => .out
  | some bytes => if C.verify path row bytes then .put row path todo object.version bytes else .out

/-- The next operation. -/
def answer (ref : PayloadRef Id) :
    MigrateCall Id Bytes Hash → PayloadDb Id Bytes Hash × MigrateCall Id Bytes Hash
  | .key =>
    if db.enabled then
      match db.ensureStorageDataKey ref with
      | (db', none) => (db', .out)
      | (db', some row) =>
        (db', if row.encrypted then .out else .look row (ref.paths row.sourcemap) false)
    else (db, .out)
  | .look row [] found =>
    match row.dataKey with
    | none => (db, .out)
    | some dataKey =>
      if found then (db.markStorageEncrypted ref dataKey, .out) else (db, .out)
  | .look row (path :: todo) found =>
    match db.objects path with
    | none => (db, .look row todo found)
    | some object =>
      if object.body.encrypted C then
        if authentic C path row object.body then (db, .look row todo true)
        else (db, .legacy row path todo object)
      else (db, encryptUpload C row path todo object)
  | .legacy row path todo object =>
    match db.openObjectVersion path object with
    | none => (db, .out)
    | some current => (db, encryptUpload C row path todo current)
  | .put row path todo version bytes =>
    match row.dataKey with
    | none => (db, .out)
    | some dataKey =>
      match db.putIf path (.sealed dataKey path bytes) (some version) with
      | (db', true) => (db', .check row path todo)
      | (db', false) => (db', .out)
  | .check row path todo =>
    match db.objects path with
    | none => (db, .out)
    | some object =>
      (db, if authentic C path row object.body then .look row todo true else .out)
  | .out => (db, .out)

end MigrateCall

end Migrate

/-! ### The workers -/

/-- What a worker is at. -/
inductive PayloadCall (Id Bytes Hash : Type)
  | out
  | upload (ref : PayloadRef Id) (upload : PayloadUpload Bytes) (call : UploadCall)
  | delete (ref : PayloadRef Id)
  | remove (ref : PayloadRef Id)
  | migrate (ref : PayloadRef Id) (call : MigrateCall Id Bytes Hash)
  | read (id : Id) (call : ReadCall Id Bytes Hash)

/-- What a worker begins. -/
inductive PayloadTask (Id Bytes : Type)
  | upload (ref : PayloadRef Id) (upload : PayloadUpload Bytes)
  | delete (ref : PayloadRef Id)
  | migrate (ref : PayloadRef Id)
  | report (id : Id) (known : Bool)
  | bundle (id : Id) (sourcemap : Bool)

/-- A worker, and whether its instance has the key. -/
structure PayloadWorker (Id Bytes Hash : Type) where
  keyed : Bool
  call : PayloadCall Id Bytes Hash

structure PayloadStore (Id Bytes Hash : Type) where
  db : PayloadDb Id Bytes Hash
  workers : ℕ → PayloadWorker Id Bytes Hash

/-- A worker begins a task, gets an answer or an error that it handles, or ends; or encryption is
activated, or the migration ends a pass. -/
inductive PayloadLabel (Id Bytes : Type)
  | enter (worker : ℕ) (keyed : Bool) (task : PayloadTask Id Bytes)
  | answer (worker : ℕ) (side stale : Bool)
  | throws (worker : ℕ)
  | leave (worker : ℕ)
  | enable
  | advance (last tokens : Bool)

section Machine

variable [DecidableEq Id] [DecidableEq Bytes] [DecidableEq Hash] (C : PayloadCodec Bytes Hash)

/-- A task begins; the id of an upload is a new one. -/
def PayloadDb.start (db : PayloadDb Id Bytes Hash) (worker : ℕ) :
    PayloadTask Id Bytes → Option (PayloadDb Id Bytes Hash × PayloadCall Id Bytes Hash)
  | .upload ref upload =>
    match db.stage ref with
    | .fresh => some (db.begin ref upload worker, .upload ref upload .mode)
    | _ => none
  | .delete ref => some (db, .delete ref)
  | .migrate ref => some (db, .migrate ref .key)
  | .report id known => some (db, .read id (if known then .known .mode else .both .mode .mode))
  | .bundle id sourcemap => some (db, .read id (.bundle sourcemap .mode))

/-- The operation a worker awaits is answered. -/
def PayloadCall.answer (db : PayloadDb Id Bytes Hash) (keyed side stale : Bool) :
    PayloadCall Id Bytes Hash → PayloadDb Id Bytes Hash × PayloadCall Id Bytes Hash
  | .out => (db, .out)
  | .upload ref payload call =>
    have next := call.answer C db keyed stale side ref payload
    (next.1, .upload ref payload next.2)
  | .delete ref =>
    match db.rows ref with
    | none => (db, .out)
    | some _ => (db.close ref, .remove ref)
  | .remove ref => (db.remove ⟨ref, side⟩, .remove ref)
  | .migrate ref call =>
    have next := call.answer C db ref
    (next.1, .migrate ref next.2)
  | .read id call =>
    have next := call.answer C db keyed stale side id
    (next.1, .read id next.2)

/-- The operation a worker awaits fails. -/
def PayloadCall.throws (db : PayloadDb Id Bytes Hash) :
    PayloadCall Id Bytes Hash → PayloadDb Id Bytes Hash × PayloadCall Id Bytes Hash
  | .upload ref payload call =>
    have next := call.throws db ref
    (next.1, .upload ref payload next.2)
  | _ => (db, .out)

/-- The store after a worker's step. -/
def PayloadStore.set (s : PayloadStore Id Bytes Hash) (worker : ℕ) (keyed : Bool)
    (next : PayloadDb Id Bytes Hash × PayloadCall Id Bytes Hash) : PayloadStore Id Bytes Hash :=
  ⟨next.1, Function.update s.workers worker ⟨keyed, next.2⟩⟩

/-- Any number of workers. -/
def payloadStore : Machine (PayloadStore Id Bytes Hash) (PayloadLabel Id Bytes) where
  step s
    | .enter w keyed task =>
      match (s.workers w).call with
      | .out => (s.db.start w task).map (s.set w keyed)
      | _ => none
    | .answer w side stale =>
      some (s.set w (s.workers w).keyed
        ((s.workers w).call.answer C s.db (s.workers w).keyed side stale))
    | .throws w => some (s.set w (s.workers w).keyed ((s.workers w).call.throws s.db))
    | .leave w => some (s.set w (s.workers w).keyed (s.db, .out))
    | .enable => some { s with db := { s.db with enabled := true } }
    | .advance last tokens =>
      some { s with db := s.db.advanceStorageMigration last tokens }

/-! ### The start -/

/-- The copies of a report that an earlier version of the program left. -/
inductive ReportCopies
  | original | compressed | both
  deriving DecidableEq

/-- A payload from before. -/
structure LegacyPayload (Bytes : Type) where
  upload : PayloadUpload Bytes
  copies : ReportCopies

/-- The bytes of a path from before. -/
def LegacyPayload.stored (legacy : LegacyPayload Bytes) (path : PayloadPath Id) : Option Bytes :=
  match path.owner.type, path.compressed with
  | .report, true =>
    if legacy.copies = .original then none else some (C.stored .report legacy.upload)
  | .report, false => if legacy.copies = .compressed then none else some legacy.upload.bytes
  | .bundle, compressed =>
    if compressed = legacy.upload.sourcemap then some (C.stored .bundle legacy.upload) else none

/-- A store with some payloads, none of them encrypted, and no worker. -/
def PayloadStore.start (legacy : FMap (PayloadRef Id) (LegacyPayload Bytes)) :
    PayloadStore Id Bytes Hash where
  db :=
    { objects := fun path => (legacy path.owner).bind fun payload =>
        (payload.stored C path).map fun bytes => ⟨0, .plain bytes, false⟩
      nextVersion := 1
      rows := FMap.ofKeys legacy.keys fun ref => (legacy ref).map fun payload =>
        ⟨none, false, C.hash ref.type payload.upload.bytes, payload.upload.sourcemap⟩
      nextKey := 0
      enabled := false
      complete := false
      uploads := fun ref => (legacy ref).map LegacyPayload.upload
      stage := fun ref => if (legacy ref).isSome then .live else .fresh }
  workers := fun _ => ⟨false, .out⟩

end Machine

end Triage.Managed
