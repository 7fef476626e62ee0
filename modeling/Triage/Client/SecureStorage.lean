import Triage.Machine.Basic
import Mathlib.Data.List.Basic

/-!
# The secure storage of a tab

`secure-storage.js` keeps a cache over the keys that are encrypted at rest. `setItem` and
`removeItem` change the cache at once and write to the disk in a queue for each key; `hydrate`
reads the disk into the cache and waits while it opens envelopes.
-/

namespace Triage.SecureStorage

/-- A value, or what the disk holds. -/
abbrev Text := List Char

/-- `SECURE_KEYS` -/
inductive SecureKey
  | workspaces
  | syncSessions
  | syncUserEnabled
  | syncPassword
  | repoUrls
  | fileCounts
  | workspaceApp
  | lastFile
  | scanAccess
  deriving DecidableEq

/-- The name of a key in `localStorage`. -/
def SecureKey.name : SecureKey → String
  | workspaces => "deepview.workspaces"
  | syncSessions => "deepview.sync.sessions"
  | syncUserEnabled => "deepview.sync.userEnabled"
  | syncPassword => "deepview.sync.password"
  | repoUrls => "deepview.repoUrls"
  | fileCounts => "deepview.fileCounts"
  | workspaceApp => "deepview.workspaceApp"
  | lastFile => "deepview.lastFile"
  | scanAccess => "deepview.scan.access"

/-- The keys in the order of `SECURE_KEYS`. -/
def secureKeys : List SecureKey :=
  [.workspaces, .syncSessions, .syncUserEnabled, .syncPassword, .repoUrls, .fileCounts,
    .workspaceApp, .lastFile, .scanAccess]

theorem mem_secureKeys (key : SecureKey) : key ∈ secureKeys := by
  cases key <;> decide

/-- `VAULT_KEY` -/
def vaultKey : String := "deepview.passkey.v1"

/-- The sealing of values under the session key, and whether metadata enables the vault. -/
structure Envelopes where
  tryDecodeEnvelope : Text → Bool
  /-- The base64 of the envelope of a value under a key and a nonce. -/
  sealEnvelope : SecureKey → Text → ℕ → Text
  openEnvelope : SecureKey → Text → Option Text
  readMetadata : Text → Bool
  tryDecodeEnvelope_seal : ∀ key value nonce,
    tryDecodeEnvelope (sealEnvelope key value nonce) = true
  openEnvelope_seal : ∀ key value nonce,
    openEnvelope key (sealEnvelope key value nonce) = some value

/-! ### One key -/

/-- A call that writes. -/
inductive Op
  | set (value : Text)
  /-- The removal of a call has a symbol of its own. -/
  | remove (tombstone : ℕ)
  deriving DecidableEq

/-- How far the front of a queue is: `persist` has begun, has stored or has thrown. -/
inductive Phase
  | waiting
  | storing (raw : Text)
  | stored
  | failed
  deriving DecidableEq

/-- A call in the queue of its key. -/
structure Pending where
  op : Op
  /-- What the cache held before the call. -/
  previous : Option Text
  phase : Phase
  deriving DecidableEq

/-- What the tab holds of a key. -/
structure Slot where
  cache : Option Text
  /-- `pendingValues` -/
  pin : Option Op
  disk : Option Text
  /-- `writeChain` -/
  queue : List Pending
  /-- Every call so far. -/
  calls : List Op
  /-- The calls that have settled, and whether they succeeded. -/
  settled : List (Op × Bool)
  deriving DecidableEq

namespace Slot

variable (slot : Slot)

/-- The part of `setItem` before its first await. -/
def setItem (value : Text) : Slot :=
  { slot with
    cache := some value
    pin := some (.set value)
    queue := slot.queue ++ [⟨.set value, slot.cache, .waiting⟩]
    calls := slot.calls ++ [.set value] }

/-- The part of `removeItem` before its first await. -/
def removeItem : Slot :=
  { slot with
    cache := none
    pin := some (.remove slot.calls.length)
    queue := slot.queue ++ [⟨.remove slot.calls.length, none, .waiting⟩]
    calls := slot.calls ++ [.remove slot.calls.length] }

/-- `persist` up to the store: what it seals is `raw` of the value. -/
def start (raw : Text → Text) : Option Slot :=
  match slot.queue with
  | ⟨.set value, previous, .waiting⟩ :: rest =>
    some { slot with queue := ⟨.set value, previous, .storing (raw value)⟩ :: rest }
  | _ => none

/-- `sealEnvelope` throws. -/
def sealFails : Option Slot :=
  match slot.queue with
  | ⟨.set value, previous, .waiting⟩ :: rest =>
    some { slot with queue := ⟨.set value, previous, .failed⟩ :: rest }
  | _ => none

/-- `localStorage.setItem`, which may throw. -/
def store (ok : Bool) : Option Slot :=
  match slot.queue with
  | ⟨.set value, previous, .storing raw⟩ :: rest =>
    some (if ok then
        { slot with disk := some raw, queue := ⟨.set value, previous, .stored⟩ :: rest }
      else { slot with queue := ⟨.set value, previous, .failed⟩ :: rest })
  | _ => none

/-- `clearPendingIfMine` -/
def clearPendingIfMine (value : Text) : Option Op :=
  if slot.pin = some (.set value) then none else slot.pin

/-- `finishRemoval` -/
def finishRemoval (tombstone : ℕ) : Slot :=
  { slot with
    disk := none
    pin := if slot.pin = some (.remove tombstone) then none else slot.pin
    cache := if slot.pin = some (.remove tombstone) then none else slot.cache }

/-- What follows a store that succeeded or threw, and the removal. -/
def finish : Option Slot :=
  match slot.queue with
  | ⟨.set value, _, .stored⟩ :: rest =>
    some
      { slot with
        pin := slot.clearPendingIfMine value
        queue := rest
        settled := slot.settled ++ [(.set value, true)] }
  | ⟨.set value, previous, .failed⟩ :: rest =>
    some
      { slot with
        pin := slot.clearPendingIfMine value
        cache := if slot.cache = some value then previous else slot.cache
        queue := rest
        settled := slot.settled ++ [(.set value, false)] }
  | ⟨.remove tombstone, _, _⟩ :: rest =>
    some
      { slot.finishRemoval tombstone with
        queue := rest
        settled := slot.settled ++ [(.remove tombstone, true)] }
  | _ => none

/-- What `hydrate` drops first. -/
def clear : Slot := if slot.pin = none then { slot with cache := none } else slot

end Slot

/-! ### The storage -/

/-- A hydration at an await. -/
inductive Hydrate
  /-- It opens what a key holds, with the keys after it and what is to be sealed. -/
  | opening (key : SecureKey) (raw : Text) (todo : List SecureKey) (heal : List (SecureKey × Text))
  /-- Its microtask is to seal plaintext. -/
  | healing (heal : List (SecureKey × Text))
  deriving DecidableEq

/-- The storage of a tab. -/
structure Storage where
  slots : SecureKey → Slot
  /-- What `localStorage` holds under other names. -/
  others : String → Option Text
  hydrates : List Hydrate
  /-- Whether `getSessionKey()` has a key. -/
  session : Bool
  /-- `wipingInThisTab` -/
  wiping : ℕ
  hydratedOnce : Bool

/-- `getItem` -/
def getItem (s : Storage) (key : SecureKey) : Option Text := (s.slots key).cache

section

variable (E : Envelopes)

/-- What the disk says of a key: the value of the envelope where there is one. -/
def decode (session : Bool) (key : SecureKey) (disk : Option Text) : Option Text :=
  disk.bind fun raw =>
    if E.tryDecodeEnvelope raw then
      if session then E.openEnvelope key raw else none
    else some raw

/-- What a turn of `hydrateKeys` finds. -/
inductive Reading
  /-- The key is pinned, absent or locked. -/
  | skip
  | envelope (raw : Text)
  | plain (raw : Text)

/-- A turn of `hydrateKeys` up to its await. -/
def Slot.read (session : Bool) (slot : Slot) : Reading :=
  if slot.pin ≠ none then .skip
  else
    match slot.disk with
    | none => .skip
    | some raw =>
      if E.tryDecodeEnvelope raw then
        if session then .envelope raw else .skip
      else .plain raw

/-- The loop of `hydrateKeys` to its end or its next await. -/
def walk (session enabled : Bool) : List SecureKey → List (SecureKey × Text) → (SecureKey → Slot) →
    (SecureKey → Slot) × Option Hydrate
  | [], heal, slots => (slots, if heal = [] then none else some (.healing heal))
  | key :: todo, heal, slots =>
    match (slots key).read E session with
    | .skip => walk session enabled todo heal slots
    | .envelope raw => (slots, some (.opening key raw todo heal))
    | .plain raw =>
      walk session enabled todo (if session && enabled then heal ++ [(key, raw)] else heal)
        (Function.update slots key { slots key with cache := some raw })

namespace Storage

variable (s : Storage)

/-- `isEncryptionEnabled` -/
def isEncryptionEnabled : Bool := (s.others vaultKey).any E.readMetadata

/-- A key is written. -/
def update (key : SecureKey) (slot : Slot) : Storage :=
  { s with slots := Function.update s.slots key slot }

/-- Whether `setItem` throws at once. -/
def refuses : Bool := (s.isEncryptionEnabled E && !s.session) || decide (0 < s.wiping)

/-- `setItem` -/
def setItem (key : SecureKey) (value : Text) : Storage :=
  if s.refuses E then s else s.update key ((s.slots key).setItem value)

/-- `hydrateKeys` from the keys that are left. -/
def hydrateKeys (session : Bool) (todo : List SecureKey) (heal : List (SecureKey × Text))
    (slots : SecureKey → Slot) : Storage :=
  { s with
    slots := (walk E session (s.isEncryptionEnabled E) todo heal slots).1
    hydrates := s.hydrates ++
      (walk E session (s.isEncryptionEnabled E) todo heal slots).2.toList }

/-- `hydrate` -/
def hydrate : Storage :=
  { s with hydratedOnce := true }.hydrateKeys E s.session secureKeys []
    fun key => (s.slots key).clear

/-- `hydrateKey` -/
def hydrateKey (key : SecureKey) : Storage :=
  s.hydrateKeys E s.session [key] [] (Function.update s.slots key (s.slots key).clear)

/-- What the cache is given once an envelope has been opened. -/
def opened (key : SecureKey) (raw : Text) : SecureKey → Slot :=
  match E.openEnvelope key raw with
  | none => s.slots
  | some value =>
    if (s.slots key).pin ≠ none then s.slots
    else Function.update s.slots key { s.slots key with cache := some value }

/-- The microtask of a hydration. -/
def healAll (heal : List (SecureKey × Text)) : Storage :=
  heal.foldl (fun s item => if getItem s item.1 = some item.2 then s.setItem E item.1 item.2 else s)
    s

end Storage

/-- What happens in a tab between two awaits. -/
inductive Action
  | setItem (key : SecureKey) (value : Text)
  | removeItem (key : SecureKey)
  | hydrate
  | hydrateKey (key : SecureKey)
  /-- An envelope has been opened, or could not be. -/
  | resume (h : Hydrate)
  | start (key : SecureKey) (nonce : ℕ)
  | sealFails (key : SecureKey)
  | store (key : SecureKey) (ok : Bool)
  | finish (key : SecureKey)
  deriving DecidableEq

/-- One step of the tab. -/
def step (s : Storage) : Action → Option Storage
  | .setItem key value => some (s.setItem E key value)
  | .removeItem key => some (s.update key (s.slots key).removeItem)
  | .hydrate => some (s.hydrate E)
  | .hydrateKey key => some (s.hydrateKey E key)
  | .resume h =>
    if h ∈ s.hydrates then
      match h with
      | .opening key raw todo heal =>
        some ({ s with hydrates := s.hydrates.erase h }.hydrateKeys E true todo heal
          (s.opened E key raw))
      | .healing heal => some ({ s with hydrates := s.hydrates.erase h }.healAll E heal)
    else none
  | .start key nonce =>
    ((s.slots key).start fun value =>
      if s.session then E.sealEnvelope key value nonce else value).map (s.update key)
  | .sealFails key => if s.session then (s.slots key).sealFails.map (s.update key) else none
  | .store key ok => ((s.slots key).store ok).map (s.update key)
  | .finish key => (s.slots key).finish.map (s.update key)

/-- The machine of a tab. -/
def machine : Machine Storage Action := ⟨step E⟩

end

/-! ### What the calls ask for -/

/-- What a call makes of a key's value. -/
def Op.effect : Op → Option Text
  | .set value => some value
  | .remove _ => none

/-- The value of the last call that succeeded, of calls in their order. -/
def lastSucceeded (initial : Option Text) (settled : List (Op × Bool)) : Option Text :=
  settled.foldl (fun value call => if call.2 then call.1.effect else value) initial

/-- A storage at rest that has been hydrated. -/
structure Storage.Initial (E : Envelopes) (s : Storage) : Prop where
  hydrates : s.hydrates = []
  agree : ∀ key, (s.slots key).cache = decode E s.session key (s.slots key).disk
  pin : ∀ key, (s.slots key).pin = none
  queue : ∀ key, (s.slots key).queue = []
  calls : ∀ key, (s.slots key).calls = [] ∧ (s.slots key).settled = []

/-- Whether nothing is under way for a key. -/
def Storage.SettledAt (s : Storage) (key : SecureKey) : Prop :=
  s.hydrates = [] ∧ (s.slots key).queue = []

end Triage.SecureStorage
