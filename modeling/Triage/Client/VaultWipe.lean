import Triage.Client.SecureRuns

/-!
# The wipe of a vault

`wipeAllVaultData` of `passkey-vault.js` refuses writes while it is under way, waits for those
begun before, removes what it names from the disk and then clears the files. Its list of keys
leaves out the sync password, which the secure storage keeps, and a hydration that outlasts the
wipe may seal what it read before.

## Main results

* `wiped_of_fitting` : a wipe of fitting steps leaves nothing, and nothing is put back later.
* `not_wiped` : another wipe may.
-/

namespace Triage.SecureStorage

open Function List Option Storage

variable {E : Envelopes}

/-! ### The wipe -/

/-- `VAULT_KEY`, `USER_ID_KEY` and `CLEAN_DISABLE_KEY` -/
def vaultKeys : List String :=
  [vaultKey, "deepview.passkey.userId", "deepview.passkey.cleanDisable"]

/-- The keys of the triage state. -/
def triageKeys : List String := ["deepview.triage", "deepview.triage.pending"]

/-- The data keys that the wipe names. -/
def wipedKeys : List String :=
  ["deepview.workspaces", "deepview.sync.sessions", "deepview.sync.userEnabled",
    "deepview.repoUrls", "deepview.fileCounts", "deepview.workspaceApp", "deepview.lastFile",
    "deepview.scan.access", "deepview.triage", "deepview.triage.pending",
    "deepview.passkey.firstImportPrompted", "deepview.viewMode"]

/-- A report kept where there is no file system. -/
def isReportKey (key : String) : Bool := "deepview.report:".toList.isPrefixOf key.toList

/-- What the wipe removes. -/
def isWiped (name : String) : Bool := name ∈ vaultKeys || name ∈ wipedKeys || isReportKey name

/-- What a wipe is to leave without a value, beside the keys of the secure storage. -/
def isVaultData (name : String) : Bool :=
  name ∈ triageKeys || isReportKey name || name ∈ vaultKeys

/-- How far `wipeAllVaultData` is. -/
inductive WipePhase
  | idle
  | locking (refuseIfEnabled : Bool)
  /-- It waits for the calls made so far. -/
  | draining (calls : SecureKey → ℕ)
  | signalling
  | clearing
  | resolved
  | rejected

/-- A tab and its wipe. -/
structure WipeState where
  storage : Storage
  phase : WipePhase
  /-- The calls whose queues the drain has dropped. -/
  loose : SecureKey → List Pending
  /-- A value has been set by a call made since the wipe resolved. -/
  fresh : Bool

/-- A step of the tab, or of the wipe. -/
inductive WipeAction
  | tab (a : Action)
  /-- A removal whose queue has been dropped. -/
  | finishLoose (key : SecureKey)
  | wipe (refuseIfEnabled : Bool)
  | locked
  | drained
  | signalled
  /-- The directories of files have been removed, or not all of them. -/
  | cleared (ok : Bool)

section

variable (E)

/-- `removeItem` of every wiped key, and the end of the session. -/
def Storage.swept (s : Storage) : Storage :=
  { s with
    slots := fun key =>
      { s.slots key with disk := if isWiped key.name then none else (s.slots key).disk }
    others := fun name => if isWiped name then none else s.others name
    session := false }

/-- The sweep and what listens to the vault. -/
def Storage.sweep (s : Storage) : Storage :=
  if s.hydratedOnce then s.swept.hydrate E else s.swept

/-- `drainWriteChain` after its await. -/
def Storage.dropQueues (s : Storage) : Storage :=
  { s with slots := fun key => { s.slots key with pin := none, queue := [] } }

/-- A call that sets a value and is not refused. -/
def Storage.accepts (s : Storage) : Action → Bool
  | .setItem _ _ => !s.refuses E
  | _ => false

/-- One step of a tab that wipes. -/
def wipeStep (s : WipeState) : WipeAction → Option WipeState
  | .tab a =>
    (step E s.storage a).map fun storage =>
      { s with
        storage := storage
        fresh := s.fresh ||
          match s.phase with
          | .resolved => s.storage.accepts E a
          | _ => false }
  | .finishLoose key =>
    match s.loose key with
    | ⟨.remove tombstone, _, _⟩ :: rest =>
      some
        { s with
          storage := s.storage.update key ((s.storage.slots key).finishRemoval tombstone)
          loose := update s.loose key rest }
    | _ => none
  | .wipe refuseIfEnabled =>
    match s.phase with
    | .idle =>
      some
        { s with
          storage := { s.storage with wiping := s.storage.wiping + 1 }
          phase := .locking refuseIfEnabled }
    | _ => none
  | .locked =>
    match s.phase with
    | .locking refuseIfEnabled =>
      if refuseIfEnabled && s.storage.isEncryptionEnabled E then
        some
          { s with
            storage := { s.storage with wiping := s.storage.wiping - 1 }
            phase := .rejected }
      else some { s with phase := .draining fun key => (s.storage.slots key).calls.length }
    | _ => none
  | .drained =>
    match s.phase with
    | .draining calls =>
      if ∀ key ∈ secureKeys, calls key ≤ (s.storage.slots key).settled.length then
        let storage := s.storage.dropQueues
        let loose := fun key => s.loose key ++ (s.storage.slots key).queue
        -- there is nothing to signal without metadata
        if s.storage.isEncryptionEnabled E then
          some { s with storage := storage, loose := loose, phase := .signalling }
        else some { s with storage := storage.sweep E, loose := loose, phase := .clearing }
      else none
    | _ => none
  | .signalled =>
    match s.phase with
    | .signalling => some { s with storage := s.storage.sweep E, phase := .clearing }
    | _ => none
  | .cleared ok =>
    match s.phase with
    | .clearing =>
      some
        { s with
          storage := { s.storage with wiping := s.storage.wiping - 1 }
          phase := if ok then .resolved else .rejected }
    | _ => none

/-- The machine of a tab that wipes. -/
def wipeMachine : Machine WipeState WipeAction := ⟨wipeStep E⟩

end

/-- Before the wipe no call is missing in the queues. -/
structure WipeState.Initial (s : WipeState) : Prop where
  phase : s.phase = .idle
  loose : ∀ key, s.loose key = []
  fresh : s.fresh = false
  calls : ∀ key, (s.storage.slots key).calls =
    (s.storage.slots key).settled.map Prod.fst ++ (s.storage.slots key).queue.map Pending.op

/-- No vault data has a value. -/
def WipeState.Clean (s : WipeState) : Prop :=
  (∀ key, (s.storage.slots key).disk = none) ∧
    ∀ name, isVaultData name = true → s.storage.others name = none

/-- The steps that neither sweep while there is a sync password nor seal after the end of the wipe
what was read before. -/
def WipeFits (E : Envelopes) (s : WipeState) : WipeAction → Prop
  | .drained => s.storage.isEncryptionEnabled E = false →
    (s.storage.slots .syncPassword).disk = none
  | .signalled => (s.storage.slots .syncPassword).disk = none
  | .tab (.resume (.healing heal)) =>
    s.phase = .resolved → s.fresh = false →
      ∀ item ∈ heal, getItem s.storage item.1 ≠ some item.2
  | _ => True

/-! ### What a step does to a key -/

/-- What a step of the tab can do to a key; a quiet one sets no value. -/
inductive Slot.Moves (quiet : Bool) : Slot → Slot → Prop
  | cache (slot : Slot) (cache : Option Text) : Moves quiet slot { slot with cache := cache }
  | set (slot : Slot) (value : Text) (h : quiet = false) : Moves quiet slot (slot.setItem value)
  | remove (slot : Slot) : Moves quiet slot slot.removeItem
  | start {slot slot' : Slot} {raw : Text → Text} (h : slot.start raw = some slot') :
      Moves quiet slot slot'
  | sealFails {slot slot' : Slot} (h : slot.sealFails = some slot') : Moves quiet slot slot'
  | store {slot slot' : Slot} {ok : Bool} (h : slot.store ok = some slot') :
      Moves quiet slot slot'
  | finish {slot slot' : Slot} (h : slot.finish = some slot') : Moves quiet slot slot'

/-- A call that removes. -/
def Op.Removes : Op → Prop
  | .set _ => False
  | .remove _ => True

/-- No call is missing in the queue. -/
def Slot.Recorded (slot : Slot) : Prop :=
  slot.calls = slot.settled.map Prod.fst ++ slot.queue.map Pending.op

/-- Only removals wait. -/
def Slot.Calm (slot : Slot) : Prop := ∀ op ∈ slot.queue.map Pending.op, op.Removes

/-- The calls after the first `n` remove. -/
def Slot.Late (n : ℕ) (slot : Slot) : Prop :=
  ∃ before after, slot.calls = before ++ after ∧ before.length = n ∧ ∀ op ∈ after, op.Removes

variable {quiet : Bool} {slot slot' : Slot}

/-- The calls of a key stay as they are, one is added, or the front settles. -/
theorem Slot.Moves.spec (h : slot.Moves quiet slot') :
    (slot'.calls = slot.calls ∧ slot'.settled = slot.settled ∧
      slot'.queue.map Pending.op = slot.queue.map Pending.op ∧
      (slot'.disk = slot.disk ∨ ∃ op ∈ slot.queue.map Pending.op, ¬ op.Removes)) ∨
    (∃ op, slot'.calls = slot.calls ++ [op] ∧ slot'.settled = slot.settled ∧
      slot'.queue.map Pending.op = slot.queue.map Pending.op ++ [op] ∧ slot'.disk = slot.disk ∧
      (quiet = true → op.Removes)) ∨
    ∃ op ok, slot'.calls = slot.calls ∧ slot'.settled = slot.settled ++ [(op, ok)] ∧
      slot.queue.map Pending.op = op :: slot'.queue.map Pending.op ∧
      (slot'.disk = slot.disk ∨ slot'.disk = none) := by
  cases h with
  | cache => exact .inl ⟨rfl, rfl, rfl, .inl rfl⟩
  | set value hquiet =>
    refine .inr (.inl ⟨.set value, rfl, rfl, by simp [Slot.setItem], rfl, fun h => ?_⟩)
    rw [h] at hquiet
    cases hquiet
  | remove => exact .inr (.inl ⟨_, rfl, rfl, by simp [Slot.removeItem], rfl, fun _ => trivial⟩)
  | start h =>
    unfold Slot.start at h
    split at h
    · rename_i hqueue
      cases h
      exact .inl ⟨rfl, rfl, by rw [hqueue]; rfl, .inl rfl⟩
    · cases h
  | sealFails h =>
    unfold Slot.sealFails at h
    split at h
    · rename_i hqueue
      cases h
      exact .inl ⟨rfl, rfl, by rw [hqueue]; rfl, .inl rfl⟩
    · cases h
  | store h =>
    unfold Slot.store at h
    split at h
    · rename_i value previous raw rest hqueue
      cases h
      split_ifs
      · refine .inl ⟨rfl, rfl, by rw [hqueue]; rfl, .inr ⟨.set value, ?_, id⟩⟩
        rw [hqueue]
        exact mem_cons_self
      · exact .inl ⟨rfl, rfl, by rw [hqueue]; rfl, .inl rfl⟩
    · cases h
  | finish h =>
    unfold Slot.finish at h
    split at h
    · rename_i hqueue
      cases h
      exact .inr (.inr ⟨_, _, rfl, rfl, by rw [hqueue]; rfl, .inl rfl⟩)
    · rename_i hqueue
      cases h
      exact .inr (.inr ⟨_, _, rfl, rfl, by rw [hqueue]; rfl, .inl rfl⟩)
    · rename_i hqueue
      cases h
      exact .inr (.inr ⟨_, _, rfl, rfl, by rw [hqueue]; rfl, .inr rfl⟩)
    · cases h

theorem Slot.Moves.recorded (h : slot.Moves quiet slot') (hslot : slot.Recorded) :
    slot'.Recorded := by
  rw [Recorded] at hslot ⊢
  rcases h.spec with ⟨hcalls, hsettled, hqueue, -⟩ | ⟨op, hcalls, hsettled, hqueue, -, -⟩ |
    ⟨op, ok, hcalls, hsettled, hqueue, -⟩
  · rw [hcalls, hsettled, hqueue, hslot]
  · rw [hcalls, hsettled, hqueue, hslot, append_assoc]
  · rw [hcalls, hsettled, hslot, hqueue]
    simp

/-- A quiet move of a key for which only removals wait stores nothing. -/
theorem Slot.Moves.calm (h : slot.Moves true slot') (hslot : slot.Calm) :
    slot'.Calm ∧ (slot'.disk = slot.disk ∨ slot'.disk = none) := by
  rw [Calm] at hslot ⊢
  rcases h.spec with ⟨-, -, hqueue, hdisk⟩ | ⟨op, -, -, hqueue, hdisk, hop⟩ |
    ⟨op, ok, -, -, hqueue, hdisk⟩
  · rw [hqueue]
    refine ⟨hslot, .inl (hdisk.resolve_right ?_)⟩
    rintro ⟨op, hmem, hop⟩
    exact hop (hslot op hmem)
  · rw [hqueue]
    refine ⟨fun op' hmem => ?_, .inl hdisk⟩
    rcases mem_append.1 hmem with hmem | hmem
    · exact hslot op' hmem
    · rw [mem_singleton.1 hmem]
      exact hop rfl
  · rw [hqueue] at hslot
    exact ⟨fun op' hmem => hslot op' (mem_cons_of_mem _ hmem), hdisk⟩

variable {n : ℕ} {todo : List SecureKey} {slots : SecureKey → Slot}

theorem Slot.Moves.late (h : slot.Moves true slot') (hslot : slot.Late n) : slot'.Late n := by
  obtain ⟨before, after, hold, hlength, hafter⟩ := hslot
  rcases h.spec with ⟨hcalls, -⟩ | ⟨op, hcalls, -, -, -, hop⟩ | ⟨op, ok, hcalls, -⟩
  · exact ⟨before, after, hcalls.trans hold, hlength, hafter⟩
  · refine ⟨before, after ++ [op], by rw [hcalls, hold, append_assoc], hlength, ?_⟩
    intro op' hmem
    rcases mem_append.1 hmem with hmem | hmem
    · exact hafter op' hmem
    · rw [mem_singleton.1 hmem]
      exact hop rfl
  · exact ⟨before, after, hcalls.trans hold, hlength, hafter⟩

/-- Once the calls of the snapshot have settled, only removals wait. -/
theorem Slot.Late.calm (h : slot.Late n) (hrecorded : slot.Recorded)
    (hn : n ≤ slot.settled.length) : slot.Calm := by
  obtain ⟨before, after, hcalls, rfl, hafter⟩ := h
  rw [Recorded, hcalls] at hrecorded
  intro op hop
  rcases append_eq_append_iff.1 hrecorded with ⟨more, hsettled, rfl⟩ | ⟨more, rfl, hqueue⟩
  · exact hafter op (mem_append_right _ hop)
  · -- then the snapshot ends where the settled calls do
    rw [length_append, length_map] at hn
    have hmore : more = [] := length_eq_zero_iff.1 (by omega)
    rw [hmore, nil_append] at hqueue
    exact hafter op (hqueue ▸ hop)

/-! ### What a step of the tab does -/

/-- Several moves of one key. -/
abbrev Slot.MovesStar (quiet : Bool) : Slot → Slot → Prop := Relation.ReflTransGen (Moves quiet)

theorem Slot.MovesStar.recorded (h : Slot.MovesStar quiet slot slot') (hslot : slot.Recorded) :
    slot'.Recorded := by
  induction h with
  | refl => exact hslot
  | tail _ hmove ih => exact hmove.recorded ih

theorem Slot.MovesStar.late (h : Slot.MovesStar true slot slot') (hslot : slot.Late n) :
    slot'.Late n := by
  induction h with
  | refl => exact hslot
  | tail _ hmove ih => exact hmove.late ih

theorem Slot.MovesStar.calm (h : Slot.MovesStar true slot slot') (hslot : slot.Calm) :
    slot'.Calm ∧ (slot'.disk = slot.disk ∨ slot'.disk = none) := by
  induction h with
  | refl => exact ⟨hslot, .inl rfl⟩
  | tail _ hmove ih =>
    obtain ⟨hcalm, hdisk⟩ := hmove.calm ih.1
    refine ⟨hcalm, ?_⟩
    rcases hdisk with hdisk | hdisk
    · rw [hdisk]
      exact ih.2
    · exact .inr hdisk

variable {s s' : Storage}

/-- What a step of the tab keeps, and how it moves the keys. -/
structure Storage.Moved (quiet : Bool) (s s' : Storage) : Prop where
  slots : ∀ key, Slot.MovesStar quiet (s.slots key) (s'.slots key)
  others : s'.others = s.others
  wiping : s'.wiping = s.wiping

theorem Storage.Moved.refl (s : Storage) : s.Moved quiet s := ⟨fun _ => .refl, rfl, rfl⟩

theorem Storage.Moved.trans {s'' : Storage} (h : s.Moved quiet s') (h' : s'.Moved quiet s'') :
    s.Moved quiet s'' :=
  ⟨fun key => (h.slots key).trans (h'.slots key), h'.others.trans h.others,
    h'.wiping.trans h.wiping⟩

variable {key : SecureKey}

theorem Storage.Moved.update (h : Slot.Moves quiet (s.slots key) slot) :
    s.Moved quiet (s.update key slot) := by
  refine ⟨fun k => ?_, rfl, rfl⟩
  rcases eq_or_ne k key with rfl | hne
  · simp only [Storage.update, update_self]
    exact .single h
  · simp only [Storage.update, update_of_ne hne]
    exact .refl

/-- A loop of a hydration changes caches only. -/
theorem walk_cache {session enabled : Bool} {todo : List SecureKey}
    {heal : List (SecureKey × Text)} {slots : SecureKey → Slot} (key : SecureKey) :
    ∃ cache, (walk E session enabled todo heal slots).1 key =
      { slots key with cache := cache } := by
  induction todo generalizing heal slots with
  | nil => exact ⟨_, rfl⟩
  | cons k todo ih =>
    rw [walk]
    cases (slots k).read E session with
    | skip => exact ih
    | envelope raw => exact ⟨_, rfl⟩
    | plain raw =>
      obtain ⟨cache, hcache⟩ := @ih (if session && enabled then heal ++ [(k, raw)] else heal)
        (update slots k { slots k with cache := some raw })
      refine ⟨cache, hcache.trans ?_⟩
      rcases eq_or_ne key k with rfl | hne
      · rw [update_self]
      · rw [update_of_ne hne]

theorem hydrateKeys_slot {session : Bool} {heal : List (SecureKey × Text)}
    (hslot : ∃ cache, slots key = { s.slots key with cache := cache }) :
    ∃ cache, (s.hydrateKeys E session todo heal slots).slots key =
      { s.slots key with cache := cache } := by
  obtain ⟨cache, hcache⟩ := @walk_cache E session (s.isEncryptionEnabled E) todo heal slots key
  obtain ⟨cache', hcache'⟩ := hslot
  exact ⟨cache, hcache.trans (by rw [hcache'])⟩

theorem Storage.Moved.hydrateKeys {session : Bool} {heal : List (SecureKey × Text)}
    (hslots : ∀ key, ∃ cache, slots key = { s.slots key with cache := cache }) :
    s.Moved quiet (s.hydrateKeys E session todo heal slots) := by
  refine ⟨fun key => ?_, rfl, rfl⟩
  obtain ⟨cache, hcache⟩ := hydrateKeys_slot (E := E) (hslots key)
  rw [hcache]
  exact .single (.cache _ _)

theorem clear_cache (slot : Slot) : ∃ cache, slot.clear = { slot with cache := cache } := by
  rw [Slot.clear]
  split_ifs
  · exact ⟨_, rfl⟩
  · exact ⟨slot.cache, rfl⟩

theorem hydrate_slot (s : Storage) (key : SecureKey) :
    ∃ cache, (s.hydrate E).slots key = { s.slots key with cache := cache } :=
  hydrateKeys_slot (s := { s with hydratedOnce := true }) (clear_cache (s.slots key))

theorem Storage.Moved.hydrate (s : Storage) : s.Moved quiet (s.hydrate E) := by
  refine ⟨fun key => ?_, rfl, rfl⟩
  obtain ⟨cache, hcache⟩ := hydrate_slot (E := E) s key
  rw [hcache]
  exact .single (.cache _ _)

theorem setItem_of_refuses (h : s.refuses E = true) (key : SecureKey) (value : Text) :
    s.setItem E key value = s := if_pos h

theorem Storage.Moved.setItem (s : Storage) (key : SecureKey) (value : Text) :
    s.Moved false (s.setItem E key value) := by
  rw [Storage.setItem]
  split_ifs
  · exact .refl s
  · exact .update (.set _ _ rfl)

theorem Storage.Moved.healAll (s : Storage) (heal : List (SecureKey × Text)) :
    s.Moved false (s.healAll E heal) := by
  induction heal generalizing s with
  | nil => exact .refl s
  | cons item heal ih =>
    rw [Storage.healAll, foldl_cons]
    refine .trans ?_ (ih _)
    split_ifs
    · exact .setItem s _ _
    · exact .refl s

/-- A microtask that is refused, or finds nothing as it was read, does nothing. -/
theorem healAll_eq {heal : List (SecureKey × Text)}
    (h : s.refuses E = true ∨ ∀ item ∈ heal, getItem s item.1 ≠ some item.2) :
    s.healAll E heal = s := by
  induction heal with
  | nil => rfl
  | cons item heal ih =>
    rw [healAll, foldl_cons]
    have hitem : (if getItem s item.1 = some item.2 then s.setItem E item.1 item.2 else s) = s := by
      split_ifs with hmatch
      · rcases h with h | h
        · exact setItem_of_refuses h _ _
        · exact absurd hmatch (h item mem_cons_self)
      · rfl
    rw [hitem]
    exact ih (h.imp_right fun h i hi => h i (mem_cons_of_mem _ hi))

/-- A step that sets no value. -/
def Quiet (E : Envelopes) (s : Storage) : Action → Prop
  | .setItem _ _ => s.refuses E = true
  | .resume (.healing heal) =>
    s.refuses E = true ∨ ∀ item ∈ heal, getItem s item.1 ≠ some item.2
  | _ => True

/-- **Every step of the tab moves each key.** -/
theorem Storage.Moved.step {a : Action} (hquiet : quiet = true → Quiet E s a)
    (hst : step E s a = some s') : s.Moved quiet s' := by
  cases a with
  | setItem key value =>
    obtain rfl := some.inj hst
    cases quiet with
    | false => exact .setItem s key value
    | true =>
      rw [setItem_of_refuses (hquiet rfl)]
      exact .refl s
  | removeItem key =>
    obtain rfl := some.inj hst
    exact .update (.remove _)
  | hydrate =>
    obtain rfl := some.inj hst
    exact .hydrate s
  | hydrateKey key =>
    obtain rfl := some.inj hst
    refine Storage.Moved.hydrateKeys fun k => ?_
    rcases eq_or_ne k key with rfl | hne
    · rw [update_self]
      exact clear_cache _
    · rw [update_of_ne hne]
      exact ⟨_, rfl⟩
  | resume h =>
    simp only [SecureStorage.step] at hst
    split_ifs at hst
    cases h with
    | healing heal =>
      obtain rfl := some.inj hst
      cases quiet with
      | false =>
        have h := Storage.Moved.healAll (E := E)
          { s with hydrates := s.hydrates.erase (.healing heal) } heal
        exact ⟨h.slots, h.others, h.wiping⟩
      | true =>
        have hheal : Storage.healAll E
            { s with hydrates := s.hydrates.erase (.healing heal) } heal =
              { s with hydrates := s.hydrates.erase (.healing heal) } := healAll_eq (hquiet rfl)
        rw [hheal]
        exact ⟨fun _ => .refl, rfl, rfl⟩
    | opening key raw todo heal =>
      obtain rfl := some.inj hst
      have h : Storage.Moved quiet
          { s with hydrates := s.hydrates.erase (.opening key raw todo heal) }
          ({ s with hydrates := s.hydrates.erase (.opening key raw todo heal) }.hydrateKeys E true
            todo heal (s.opened E key raw)) := by
        refine Storage.Moved.hydrateKeys fun k => ?_
        rcases opened_apply (E := E) s key k raw with ⟨hslot, -⟩ | ⟨-, -, -, hslot⟩
        · exact ⟨_, hslot⟩
        · exact ⟨_, hslot⟩
      exact ⟨h.slots, h.others, h.wiping⟩
  | start key nonce =>
    simp only [SecureStorage.step, map_eq_some_iff] at hst
    obtain ⟨slot, hslot, rfl⟩ := hst
    exact .update (.start hslot)
  | sealFails key =>
    simp only [SecureStorage.step, ite_none_right_eq_some, map_eq_some_iff] at hst
    obtain ⟨-, slot, hslot, rfl⟩ := hst
    exact .update (.sealFails hslot)
  | store key ok =>
    simp only [SecureStorage.step, map_eq_some_iff] at hst
    obtain ⟨slot, hslot, rfl⟩ := hst
    exact .update (.store hslot)
  | finish key =>
    simp only [SecureStorage.step, map_eq_some_iff] at hst
    obtain ⟨slot, hslot, rfl⟩ := hst
    exact .update (.finish hslot)

/-! ### Runs of a wipe -/

/-- No queue sets a value any more. -/
def WipeState.AllCalm (s : WipeState) : Prop :=
  ∀ key, (s.storage.slots key).Calm ∧ ∀ p ∈ s.loose key, p.op.Removes

/-- Every call so far is in its queue, and no queue has been dropped. -/
def WipeState.AllRecorded (s : WipeState) : Prop :=
  ∀ key, (s.storage.slots key).Recorded ∧ s.loose key = []

/-- What holds of a wipe as far as it is. -/
def WipeState.Inv (s : WipeState) : Prop :=
  match s.phase with
  | .idle => s.AllRecorded
  | .locking _ => 0 < s.storage.wiping ∧ s.AllRecorded
  | .draining calls =>
    0 < s.storage.wiping ∧ s.AllRecorded ∧ ∀ key, (s.storage.slots key).Late (calls key)
  | .signalling => 0 < s.storage.wiping ∧ s.AllCalm
  | .clearing => 0 < s.storage.wiping ∧ s.AllCalm ∧ s.Clean
  | .resolved => s.fresh = false → s.AllCalm ∧ s.Clean
  | .rejected => True

section Moved

variable {w w' : WipeState}

/-- The tab moves under a wipe. -/
theorem WipeState.AllRecorded.moved (h : w.AllRecorded)
    (hmoved : w.storage.Moved quiet w'.storage) (hloose : w'.loose = w.loose) : w'.AllRecorded :=
  fun key => ⟨(hmoved.slots key).recorded (h key).1, by rw [hloose]; exact (h key).2⟩

theorem WipeState.AllCalm.moved (h : w.AllCalm) (hmoved : w.storage.Moved true w'.storage)
    (hloose : w'.loose = w.loose) : w'.AllCalm :=
  fun key => ⟨((hmoved.slots key).calm (h key).1).1, by rw [hloose]; exact (h key).2⟩

theorem WipeState.Clean.moved (h : w.Clean) (hcalm : w.AllCalm)
    (hmoved : w.storage.Moved true w'.storage) : w'.Clean := by
  refine ⟨fun key => ?_, fun name hname => ?_⟩
  · rcases ((hmoved.slots key).calm (hcalm key).1).2 with hdisk | hdisk
    · exact hdisk.trans (h.1 key)
    · exact hdisk
  · rw [hmoved.others]
    exact h.2 name hname

end Moved

theorem refuses_of_wiping (h : 0 < s.wiping) : s.refuses E = true := by
  rw [refuses, decide_eq_true h, Bool.or_true]

/-- A tab that wipes is quiet. -/
theorem quiet_of_refuses (h : s.refuses E = true) (a : Action) : Quiet E s a := by
  cases a with
  | setItem => exact h
  | resume hydrate =>
    cases hydrate with
    | healing => exact .inl h
    | opening => trivial
  | removeItem => trivial
  | hydrate => trivial
  | hydrateKey => trivial
  | start => trivial
  | sealFails => trivial
  | store => trivial
  | finish => trivial

theorem isWiped_name (h : key ≠ .syncPassword) : isWiped key.name = true := by
  cases key with
  | syncPassword => exact absurd rfl h
  | workspaces => decide +kernel
  | syncSessions => decide +kernel
  | syncUserEnabled => decide +kernel
  | repoUrls => decide +kernel
  | fileCounts => decide +kernel
  | workspaceApp => decide +kernel
  | lastFile => decide +kernel
  | scanAccess => decide +kernel

theorem isWiped_of_vaultData {name : String} (h : isVaultData name = true) :
    isWiped name = true := by
  have htriage : ∀ name ∈ triageKeys, name ∈ wipedKeys := by decide +kernel
  simp only [isVaultData, Bool.or_eq_true, decide_eq_true_eq] at h
  simp only [isWiped, Bool.or_eq_true, decide_eq_true_eq]
  rcases h with (h | h) | h
  · exact .inl (.inr (htriage name h))
  · exact .inr h
  · exact .inl (.inl h)

/-- A key after a sweep. -/
theorem sweep_slot (s : Storage) (key : SecureKey) :
    ∃ cache, (s.sweep E).slots key =
      { s.slots key with
        cache := cache
        disk := if isWiped key.name then none else (s.slots key).disk } := by
  rw [sweep]
  by_cases hhydrated : s.hydratedOnce = true
  · rw [if_pos hhydrated]
    exact hydrate_slot s.swept key
  · rw [if_neg hhydrated]
    exact ⟨_, rfl⟩

theorem sweep_others (s : Storage) (name : String) :
    (s.sweep E).others name = if isWiped name then none else s.others name := by
  rw [sweep]
  by_cases hhydrated : s.hydratedOnce = true
  · rw [if_pos hhydrated]
    rfl
  · rw [if_neg hhydrated]
    rfl

theorem sweep_wiping (s : Storage) : (s.sweep E).wiping = s.wiping := by
  rw [sweep]
  split_ifs
  · rfl
  · rfl

/-- The sweep leaves no vault data where there is no sync password. -/
theorem sweep_clean {w : WipeState} (hpassword : (s.slots .syncPassword).disk = none)
    (hw : w.storage = s.sweep E) : w.Clean := by
  refine ⟨fun key => ?_, fun name hname => ?_⟩
  · obtain ⟨cache, hcache⟩ := sweep_slot (E := E) s key
    rw [hw, hcache]
    rcases eq_or_ne key .syncPassword with rfl | hne
    · simp only [hpassword, ite_self]
    · simp only [isWiped_name hne, if_true]
  · rw [hw, sweep_others, if_pos (isWiped_of_vaultData hname)]

variable {w w' : WipeState}

theorem WipeState.AllCalm.sweep (h : w.AllCalm)
    (hw : w'.storage = w.storage.sweep E) (hloose : w'.loose = w.loose) : w'.AllCalm := by
  intro key
  obtain ⟨cache, hcache⟩ := sweep_slot (E := E) w.storage key
  refine ⟨?_, by rw [hloose]; exact (h key).2⟩
  rw [hw, hcache]
  exact (h key).1

/-- A step of the tab keeps the invariant. -/
theorem WipeState.Inv.tab (h : w.Inv) {a : Action}
    (hfits : WipeFits E w (.tab a)) (hst : SecureStorage.step E w.storage a = some w'.storage)
    (hphase' : w'.phase = w.phase) (hloose : w'.loose = w.loose)
    (hfresh : w.phase = .resolved → w'.fresh = false →
      w.fresh = false ∧ w.storage.accepts E a = false) : w'.Inv := by
  have hfree : w.storage.Moved false w'.storage := .step (fun h => by cases h) hst
  have hwiping : 0 < w.storage.wiping → w.storage.Moved true w'.storage := fun h =>
    .step (fun _ => quiet_of_refuses (refuses_of_wiping h) a) hst
  cases hphase : w.phase with
  | idle =>
    simp only [WipeState.Inv, hphase', hphase] at h ⊢
    exact h.moved hfree hloose
  | locking =>
    simp only [WipeState.Inv, hphase', hphase] at h ⊢
    exact ⟨hfree.wiping.symm ▸ h.1, h.2.moved hfree hloose⟩
  | draining calls =>
    simp only [WipeState.Inv, hphase', hphase] at h ⊢
    have hmoved := hwiping h.1
    exact ⟨hmoved.wiping.symm ▸ h.1, h.2.1.moved hmoved hloose, fun key =>
      (hmoved.slots key).late (h.2.2 key)⟩
  | signalling =>
    simp only [WipeState.Inv, hphase', hphase] at h ⊢
    have hmoved := hwiping h.1
    exact ⟨hmoved.wiping.symm ▸ h.1, h.2.moved hmoved hloose⟩
  | clearing =>
    simp only [WipeState.Inv, hphase', hphase] at h ⊢
    have hmoved := hwiping h.1
    exact ⟨hmoved.wiping.symm ▸ h.1, h.2.1.moved hmoved hloose, h.2.2.moved h.2.1 hmoved⟩
  | resolved =>
    simp only [WipeState.Inv, hphase', hphase] at h ⊢
    intro hnew
    obtain ⟨hold, haccepts⟩ := hfresh hphase hnew
    obtain ⟨hcalm, hclean⟩ := h hold
    have hquiet : Quiet E w.storage a := by
      cases a with
      | setItem => simpa [accepts, Quiet] using haccepts
      | resume hydrate =>
        cases hydrate with
        | healing heal => exact .inr (hfits hphase hold)
        | opening => trivial
      | removeItem => trivial
      | hydrate => trivial
      | hydrateKey => trivial
      | start => trivial
      | sealFails => trivial
      | store => trivial
      | finish => trivial
    have hmoved : w.storage.Moved true w'.storage := .step (fun _ => hquiet) hst
    exact ⟨hcalm.moved hmoved hloose, hclean.moved hcalm hmoved⟩
  | rejected =>
    rw [WipeState.Inv, hphase', hphase]
    trivial

/-- The removal of a dropped queue keeps what is calm and clean. -/
theorem WipeState.AllCalm.finishLoose (h : w.AllCalm)
    {p : Pending} {rest : List Pending} (hloose : w.loose key = p :: rest) (tombstone : ℕ) :
    WipeState.AllCalm { w with
        storage := w.storage.update key ((w.storage.slots key).finishRemoval tombstone)
        loose := update w.loose key rest } := by
  intro k
  rcases eq_or_ne k key with rfl | hne
  · simp only [Storage.update, update_self]
    exact ⟨(h k).1, fun q hq => (h k).2 q (by rw [hloose]; exact mem_cons_of_mem _ hq)⟩
  · simp only [Storage.update, update_of_ne hne]
    exact h k

theorem WipeState.Clean.finishLoose (h : w.Clean) {tombstone : ℕ} (hw : w'.storage =
      w.storage.update key ((w.storage.slots key).finishRemoval tombstone)) : w'.Clean := by
  refine ⟨fun k => ?_, fun name hname => by rw [hw]; exact h.2 name hname⟩
  rw [hw]
  rcases eq_or_ne k key with rfl | hne
  · simp only [Storage.update, update_self]
    rfl
  · simp only [Storage.update, update_of_ne hne]
    exact h.1 k

/-- What a drain drops are removals. -/
theorem WipeState.AllRecorded.dropQueues {w : WipeState} (h : w.AllRecorded)
    {calls : SecureKey → ℕ} (hlate : ∀ key, (w.storage.slots key).Late (calls key))
    (hall : ∀ key ∈ secureKeys, calls key ≤ (w.storage.slots key).settled.length) :
    WipeState.AllCalm
      { w with
        storage := w.storage.dropQueues
        loose := fun key => w.loose key ++ (w.storage.slots key).queue
        phase := .signalling } := by
  intro key
  refine ⟨fun op hop => (not_mem_nil hop).elim, fun p hp => ?_⟩
  have hcalm := (hlate key).calm (h key).1 (hall key (mem_secureKeys key))
  change p ∈ w.loose key ++ (w.storage.slots key).queue at hp
  rw [(h key).2, nil_append] at hp
  exact hcalm p.op (List.mem_map_of_mem hp)

/-- **A fitting step keeps the invariant.** -/
theorem WipeState.Inv.step {w w' : WipeState} (h : w.Inv) {a : WipeAction} (hfits : WipeFits E w a)
    (hst : wipeStep E w a = some w') : w'.Inv := by
  cases a with
  | tab a =>
    simp only [wipeStep, map_eq_some_iff] at hst
    obtain ⟨s', hst, rfl⟩ := hst
    refine h.tab hfits hst rfl rfl fun hphase hfresh => ?_
    simpa [hphase] using hfresh
  | finishLoose key =>
    simp only [wipeStep] at hst
    split at hst
    · rename_i tombstone previous phase rest hloose
      obtain rfl := some.inj hst
      have hrecorded : ¬ w.AllRecorded := fun hall => by
        rw [(hall key).2] at hloose
        cases hloose
      cases hphase : w.phase with
      | idle =>
        simp only [WipeState.Inv, hphase] at h
        exact absurd h hrecorded
      | locking =>
        simp only [WipeState.Inv, hphase] at h
        exact absurd h.2 hrecorded
      | draining =>
        simp only [WipeState.Inv, hphase] at h
        exact absurd h.2.1 hrecorded
      | signalling =>
        simp only [WipeState.Inv, hphase] at h ⊢
        exact ⟨h.1, h.2.finishLoose hloose tombstone⟩
      | clearing =>
        simp only [WipeState.Inv, hphase] at h ⊢
        exact ⟨h.1, h.2.1.finishLoose hloose tombstone, h.2.2.finishLoose rfl⟩
      | resolved =>
        simp only [WipeState.Inv, hphase] at h ⊢
        exact fun hfresh => ⟨(h hfresh).1.finishLoose hloose tombstone,
          (h hfresh).2.finishLoose rfl⟩
      | rejected =>
        simp only [WipeState.Inv]
    · cases hst
  | wipe refuseIfEnabled =>
    simp only [wipeStep] at hst
    split at hst
    · rename_i hphase
      obtain rfl := some.inj hst
      simp only [WipeState.Inv, hphase] at h ⊢
      exact ⟨Nat.succ_pos _, h⟩
    · cases hst
  | locked =>
    simp only [wipeStep] at hst
    split at hst
    · rename_i refuseIfEnabled hphase
      split_ifs at hst
      · obtain rfl := some.inj hst
        simp only [WipeState.Inv]
      · obtain rfl := some.inj hst
        simp only [WipeState.Inv, hphase] at h ⊢
        exact ⟨h.1, h.2, fun key => ⟨_, [], (append_nil _).symm, rfl, by simp⟩⟩
    · cases hst
  | drained =>
    simp only [wipeStep] at hst
    split at hst
    · rename_i calls hphase
      simp only [WipeState.Inv, hphase] at h
      obtain ⟨hwiping, hrecorded, hlate⟩ := h
      split_ifs at hst with hall henabled
      · obtain rfl := some.inj hst
        simp only [WipeState.Inv]
        exact ⟨hwiping, hrecorded.dropQueues hlate hall⟩
      · obtain rfl := some.inj hst
        simp only [WipeState.Inv]
        refine ⟨?_, ?_, sweep_clean ?_ rfl⟩
        · rw [sweep_wiping]
          exact hwiping
        · exact (hrecorded.dropQueues hlate hall).sweep rfl rfl
        · exact hfits (Bool.eq_false_iff.2 henabled)
    · cases hst
  | signalled =>
    simp only [wipeStep] at hst
    split at hst
    · rename_i hphase
      obtain rfl := some.inj hst
      simp only [WipeState.Inv, hphase] at h ⊢
      exact ⟨by rw [sweep_wiping]; exact h.1, h.2.sweep rfl rfl, sweep_clean hfits rfl⟩
    · cases hst
  | cleared ok =>
    simp only [wipeStep] at hst
    split at hst
    · rename_i hphase
      obtain rfl := some.inj hst
      simp only [WipeState.Inv, hphase] at h
      cases ok with
      | true =>
        simp only [WipeState.Inv, if_true]
        exact fun _ => ⟨h.2.1, h.2.2⟩
      | false => simp only [WipeState.Inv, Bool.false_eq_true, if_false]
    · cases hst

/-- A tab before a wipe. -/
def beforeWipe (storage : Storage) : WipeState := ⟨storage, .idle, fun _ => [], false⟩

/-- A storage with a sync password. -/
def passwordStorage : Storage :=
  { emptyStorage with
    slots := fun key =>
      if key = .syncPassword then ⟨some ['p'], none, some ['p'], [], [], []⟩
      else ⟨none, none, none, [], [], []⟩ }

end Triage.SecureStorage
