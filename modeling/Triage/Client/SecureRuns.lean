import Triage.Client.SecureSlots

/-!
# Runs of the secure storage

A call that fails puts back what the cache held when it was made, and a hydration gives the cache
what it read before it waited. Where each rollback restores what is stored, and no hydration gives
a key what has since been overwritten, cache and disk agree once everything has settled; the last
call that succeeded is on both. Two calls that both fail leave the first one's value in the cache.

## Main results

* `agrees_of_fitting` : they agree in every settled state of a run of fitting steps.
* `not_agrees` : they need not in others.
-/

namespace Triage.SecureStorage

open Function List Option Storage

variable {E : Envelopes} {session enabled : Bool} {key : SecureKey} {initial : Option Text}

/-- A hydration is still to read a key, or to give it what it opens. -/
def Hydrate.Visits (E : Envelopes) (key : SecureKey) : Hydrate → Prop
  | .opening k raw todo _ => key ∈ todo ∨ k = key ∧ E.openEnvelope key raw ≠ none
  | .healing _ => False

/-- What a hydration is to seal. -/
def Hydrate.heal : Hydrate → List (SecureKey × Text)
  | .opening _ _ _ heal => heal
  | .healing heal => heal

/-! ### The loop of a hydration -/

variable {slot : Slot}

theorem read_of_pinned (h : slot.pin ≠ none) : slot.read E session = .skip :=
  if_pos h

theorem pin_of_read {s : Bool} (h : slot.read E s ≠ .skip) : slot.pin = none := by
  by_contra hpin
  exact h (read_of_pinned hpin)

/-- What is skipped has no value to read. -/
theorem decode_of_skip (key : SecureKey) (hpin : slot.pin = none)
    (h : slot.read E session = .skip) : decode E session key slot.disk = none := by
  rw [Slot.read, if_neg (not_not.2 hpin)] at h
  split at h
  · rename_i hdisk
    rw [hdisk, decode_none]
  · rename_i raw hdisk
    split_ifs at h with henvelope hsession
    rw [hdisk, decode_of_locked henvelope (Bool.eq_false_iff.2 hsession)]

theorem decode_of_envelope_read (key : SecureKey) {raw : Text}
    (h : slot.read E session = .envelope raw) :
    session = true ∧ decode E session key slot.disk = E.openEnvelope key raw := by
  have hpin : slot.pin = none := pin_of_read (E := E) (s := session) (by rw [h]; simp)
  rw [Slot.read, if_neg (not_not.2 hpin)] at h
  split at h
  · cases h
  · rename_i hdisk
    split_ifs at h with henvelope hsession
    cases h
    exact ⟨hsession, by rw [hdisk, decode_of_envelope henvelope hsession]⟩

theorem decode_of_plain_read (key : SecureKey) {raw : Text} (h : slot.read E session = .plain raw) :
    E.tryDecodeEnvelope raw = false ∧ decode E session key slot.disk = some raw := by
  have hpin : slot.pin = none := pin_of_read (E := E) (s := session) (by rw [h]; simp)
  rw [Slot.read, if_neg (not_not.2 hpin)] at h
  split at h
  · cases h
  · rename_i hdisk
    split_ifs at h with henvelope
    cases h
    have hplain := Bool.eq_false_iff.2 henvelope
    exact ⟨hplain, by rw [hdisk, decode_of_plain hplain]⟩

variable {todo : List SecureKey} {slots : SecureKey → Slot} {k : SecureKey}

/-- The loop leaves alone what is pinned and what is not its own. -/
theorem walk_other {heal : List (SecureKey × Text)} (h : (slots key).pin ≠ none ∨ key ∉ todo) :
    (walk E session enabled todo heal slots).1 key = slots key := by
  induction todo generalizing heal slots with
  | nil => rfl
  | cons k todo ih =>
    have h' : (slots key).pin ≠ none ∨ key ∉ todo := h.imp_right fun h hmem =>
      h (mem_cons_of_mem _ hmem)
    rw [walk]
    cases hread : (slots k).read E session with
    | skip => exact ih h'
    | envelope raw => rfl
    | plain raw =>
      have hne : key ≠ k := by
        rintro rfl
        rcases h with h | h
        · rw [read_of_pinned h] at hread
          cases hread
        · exact h mem_cons_self
      have hsame := update_of_ne hne { slots k with cache := some raw } slots
      exact (ih (by rw [hsame]; exact h')).trans hsame

/-- The loop leaves alone a key whose cache shows the disk. -/
theorem walk_agree {heal : List (SecureKey × Text)}
    (h : (slots key).cache = decode E session key (slots key).disk) :
    (walk E session enabled todo heal slots).1 key = slots key := by
  induction todo generalizing heal slots with
  | nil => rfl
  | cons k todo ih =>
    rw [walk]
    cases hread : (slots k).read E session with
    | skip => exact ih h
    | envelope raw => rfl
    | plain raw =>
      have hsame : update slots k { slots k with cache := some raw } key = slots key := by
        rcases eq_or_ne key k with rfl | hne
        · rw [update_self, ← (decode_of_plain_read key hread).2, ← h]
        · exact update_of_ne hne _ _
      exact (ih (by rw [hsame]; exact h)).trans hsame

/-- The loop reads a key that has been dropped, or stops while it is still to be read. -/
theorem walk_reads {todo : List SecureKey} {heal : List (SecureKey × Text)}
    {slots : SecureKey → Slot} (hpin : (slots key).pin = none)
    (hcache : (slots key).cache = none) (hmem : key ∈ todo) :
    (walk E session enabled todo heal slots).1 key =
        { slots key with cache := decode E session key (slots key).disk } ∨
      (walk E session enabled todo heal slots).1 key = slots key ∧
        ∃ h ∈ (walk E session enabled todo heal slots).2, h.Visits E key := by
  induction todo generalizing heal slots with
  | nil => cases hmem
  | cons k todo ih =>
    rw [walk]
    rcases eq_or_ne k key with rfl | hne
    · cases hread : (slots k).read E session with
      | skip =>
        have hnone := decode_of_skip k hpin hread
        left
        rw [walk_agree (by rw [hcache, hnone]), hnone, ← hcache]
      | envelope raw =>
        have hdecode := (decode_of_envelope_read k hread).2
        by_cases hopen : E.openEnvelope k raw = none
        · left
          rw [hdecode, hopen, ← hcache]
        · exact .inr ⟨rfl, _, rfl, .inr ⟨rfl, hopen⟩⟩
      | plain raw =>
        have hdecode := (decode_of_plain_read k hread).2
        have hself := update_self k { slots k with cache := some raw } slots
        left
        rw [hdecode]
        exact (walk_agree (by rw [hself]; exact hdecode.symm)).trans hself
    · have hmem' : key ∈ todo := (mem_cons.1 hmem).resolve_left hne.symm
      cases hread : (slots k).read E session with
      | skip => exact ih hpin hcache hmem'
      | envelope raw => exact .inr ⟨rfl, _, rfl, .inl hmem'⟩
      | plain raw =>
        have hsame := update_of_ne hne.symm { slots k with cache := some raw } slots
        have hwalk := @ih (if session && enabled then heal ++ [(k, raw)] else heal)
          (update slots k { slots k with cache := some raw })
          (by rw [hsame]; exact hpin) (by rw [hsame]; exact hcache) hmem'
        rw [hsame] at hwalk
        exact hwalk

/-- What a loop stops at and what it is to seal. -/
structure Hydrate.Sound (E : Envelopes) (session : Bool) (h : Hydrate) : Prop where
  opening : ∀ key raw todo heal, h = .opening key raw todo heal → session = true
  heal : ∀ item ∈ h.heal, E.tryDecodeEnvelope item.2 = false

theorem walk_sound {heal : List (SecureKey × Text)}
    (hheal : ∀ item ∈ heal, E.tryDecodeEnvelope item.2 = false) :
    ∀ h ∈ (walk E session enabled todo heal slots).2, h.Sound E session := by
  induction todo generalizing heal slots with
  | nil =>
    intro h hh
    rw [walk] at hh
    split_ifs at hh
    · cases hh
    · cases hh
      exact ⟨fun _ _ _ _ heq => (by cases heq), hheal⟩
  | cons k todo ih =>
    rw [walk]
    cases hread : (slots k).read E session with
    | skip => exact ih hheal
    | envelope raw =>
      rintro h ⟨⟩
      exact ⟨fun _ _ _ _ _ => (decode_of_envelope_read k hread).1, hheal⟩
    | plain raw =>
      refine ih fun item hitem => ?_
      split_ifs at hitem
      · rcases mem_append.1 hitem with hitem | hitem
        · exact hheal item hitem
        · rw [mem_singleton.1 hitem]
          exact (decode_of_plain_read k hread).1
      · exact hheal item hitem

/-! ### Steps -/

/-- What holds of a key, and of the hydrations under way. -/
structure Storage.Inv (E : Envelopes) (session : Bool) (key : SecureKey) (initial : Option Text)
    (s : Storage) : Prop where
  session_eq : s.session = session
  sound : ∀ h ∈ s.hydrates, h.Sound E session
  slot : (s.slots key).Inv E session key initial (∃ h ∈ s.hydrates, h.Visits E key)

open Storage.Inv

/-- A key that is not pinned has no call under way. -/
def Slot.Free (slot : Slot) : Prop := slot.pin = none → slot.queue = []

/-- The steps that neither roll back to nor read what is no longer stored. -/
def Fits (E : Envelopes) (key : SecureKey) (s : Storage) : Action → Prop
  | .setItem k value => k = key → Plain E s.session value
  | .finish k => k = key → (s.slots key).RollbackFits E s.session key
  | .hydrate => (s.slots key).Free
  | .hydrateKey k => k = key → (s.slots key).Free
  | .resume (.opening k raw todo _) =>
    (key ∈ k :: todo → (s.slots key).Free) ∧
      (k = key → (s.slots key).pin = none → E.openEnvelope key raw = none ∨
        E.openEnvelope key raw = decode E s.session key (s.slots key).disk)
  | _ => True

variable {s s' : Storage}

/-- A hydration that goes on keeps the invariant of a key that is free where it is to be read. -/
theorem Storage.Inv.hydrateKeys {pending : Prop}
    {heal : List (SecureKey × Text)} (hsession : s.session = session)
    (hsound : ∀ h ∈ s.hydrates, h.Sound E session)
    (hheal : ∀ item ∈ heal, E.tryDecodeEnvelope item.2 = false)
    (hslot : (slots key).Inv E session key initial pending)
    (hpending : pending → (∃ h ∈ s.hydrates, h.Visits E key) ∨ key ∈ todo)
    (hfree : key ∈ todo → (slots key).Free) :
    (s.hydrateKeys E session todo heal slots).Inv E session key initial where
  session_eq := hsession
  sound h hh := by
    rcases mem_append.1 hh with hh | hh
    · exact hsound h hh
    · have hwalk := mem_toList.1 hh
      exact walk_sound hheal h hwalk
  slot := by
    rw [Storage.hydrateKeys]
    simp only [mem_append, mem_toList]
    by_cases hread : (slots key).pin = none ∧ key ∈ todo
    · obtain ⟨hpin, hmem⟩ := hread
      have hqueue := hfree hmem hpin
      rcases (hslot.quiet hqueue).2 with hcache | ⟨hcache, -⟩
      · rw [walk_agree hcache]
        exact hslot.cache (.inl ⟨hqueue, .inl hcache⟩)
      · rcases @walk_reads E session (s.isEncryptionEnabled E) key todo heal slots hpin hcache hmem
          with hwalk | ⟨hwalk, h, hh, hvisits⟩
        · rw [hwalk]
          exact hslot.cache (.inl ⟨hqueue, .inl rfl⟩)
        · rw [hwalk]
          exact hslot.cache (.inl ⟨hqueue, .inr ⟨hcache, h, .inr hh, hvisits⟩⟩)
    · have hother : (slots key).pin ≠ none ∨ key ∉ todo := by
        by_cases hpin : (slots key).pin = none
        · exact .inr fun hmem => hread ⟨hpin, hmem⟩
        · exact .inl hpin
      rw [walk_other hother]
      by_cases hqueue : (slots key).queue = []
      · obtain ⟨hpin, hcache⟩ := hslot.quiet hqueue
        refine hslot.cache (.inl ⟨hqueue, hcache.imp_right fun ⟨hnone, hp⟩ => ⟨hnone, ?_⟩⟩)
        obtain ⟨h, hh, hvisits⟩ := (hpending hp).resolve_right fun hmem => hread ⟨hpin, hmem⟩
        exact ⟨h, .inl hh, hvisits⟩
      · exact hslot.cache (.inr ⟨hqueue, rfl⟩)

section

variable (h : s.Inv E session key initial)
include h

/-- A step on a key keeps the invariant where the key's own part does. -/
theorem Storage.Inv.update
    (hslot : k = key → slot.Inv E session key initial (∃ h ∈ s.hydrates, h.Visits E key)) :
    (s.update k slot).Inv E session key initial where
  session_eq := h.session_eq
  sound := h.sound
  slot := by
    rcases eq_or_ne key k with rfl | hne
    · simp only [update, update_self]
      exact hslot rfl
    · simp only [Storage.update, update_of_ne hne]
      exact h.slot

theorem Storage.Inv.setItem {value : Text} (hplain : k = key → Plain E session value) :
    (s.setItem E k value).Inv E session key initial := by
  rw [Storage.setItem]
  split_ifs
  · exact h
  · exact h.update fun hk => by
      subst hk
      exact h.slot.setItem (hplain rfl)

theorem Storage.Inv.healAll {heal : List (SecureKey × Text)}
    (hheal : ∀ item ∈ heal, E.tryDecodeEnvelope item.2 = false) :
    (s.healAll E heal).Inv E session key initial := by
  induction heal generalizing s with
  | nil => exact h
  | cons item heal ih =>
    rw [healAll, foldl_cons]
    refine ih ?_ fun i hi => hheal i (mem_cons_of_mem _ hi)
    split_ifs
    · exact h.setItem fun _ _ => hheal item mem_cons_self
    · exact h

end

/-- What a hydration was to read is still to be read by another, or was its own. -/
theorem visits_erase {h : Hydrate} (hv : ∃ h' ∈ s.hydrates, h'.Visits E key) :
    (∃ h' ∈ s.hydrates.erase h, h'.Visits E key) ∨ h.Visits E key := by
  obtain ⟨h', hmem, hv⟩ := hv
  rcases eq_or_ne h' h with rfl | hne
  · exact .inr hv
  · exact .inl ⟨h', (mem_erase_of_ne hne).2 hmem, hv⟩

theorem clear_free (h : slot.Free) : slot.clear.Free := by
  rw [Slot.clear]
  split_ifs
  · exact h
  · exact h

/-- What a hydration drops is still to be read. -/
theorem Slot.Inv.clear {pending : Prop}
    (h : slot.Inv E session key initial pending) (hfree : slot.Free) :
    slot.clear.Inv E session key initial True := by
  rw [Slot.clear]
  split_ifs with hpin
  · exact h.cache (.inl ⟨hfree hpin, .inr ⟨rfl, trivial⟩⟩)
  · exact h.mono fun _ => trivial

/-- What has been opened is given to a key that is not pinned. -/
theorem opened_apply (s : Storage) (k key : SecureKey) (raw : Text) :
    s.opened E k raw key = s.slots key ∧
        (k = key → (s.slots key).pin = none → E.openEnvelope key raw = none) ∨
      k = key ∧ (s.slots key).pin = none ∧ E.openEnvelope key raw ≠ none ∧
        s.opened E k raw key = { s.slots key with cache := E.openEnvelope key raw } := by
  cases hopen : E.openEnvelope k raw with
  | none =>
    refine .inl ⟨by simp only [opened, hopen], ?_⟩
    rintro rfl -
    exact hopen
  | some value =>
    by_cases hpin : (s.slots k).pin = none
    · rcases eq_or_ne key k with rfl | hne
      · refine .inr ⟨rfl, hpin, by simp [hopen], ?_⟩
        simp only [opened, hopen, hpin, ne_eq, not_true_eq_false, if_false, update_self]
      · refine .inl ⟨?_, fun heq => absurd heq.symm hne⟩
        simp only [opened, hopen, hpin, ne_eq, not_true_eq_false, if_false, update_of_ne hne]
    · refine .inl ⟨?_, ?_⟩
      · simp only [opened, hopen, ne_eq, hpin, not_false_eq_true, if_true]
      · rintro rfl hnone
        exact absurd hnone hpin

/-- **A fitting step keeps the invariant.** -/
theorem Storage.Inv.step (h : s.Inv E session key initial) {a : Action}
    (hfits : Fits E key s a) (hst : step E s a = some s') : s'.Inv E session key initial := by
  have hsession := h.session_eq
  cases a with
  | setItem k value =>
    obtain rfl := some.inj hst
    exact h.setItem fun hk => hsession ▸ hfits hk
  | removeItem k =>
    obtain rfl := some.inj hst
    exact h.update fun hk => by
      subst hk
      exact h.slot.removeItem
  | hydrate =>
    obtain rfl := some.inj hst
    have hclear := h.slot.clear hfits
    rw [← hsession] at hclear ⊢
    refine hydrateKeys rfl ?_ (by simp) hclear (fun _ => .inr (mem_secureKeys key))
      fun _ => clear_free hfits
    rw [hsession]
    exact h.sound
  | hydrateKey k =>
    obtain rfl := some.inj hst
    rw [hydrateKey, hsession]
    rcases eq_or_ne key k with rfl | hne
    · have hself := update_self key (s.slots key).clear s.slots
      have hclear := h.slot.clear (hfits rfl)
      rw [← hself] at hclear
      refine hydrateKeys hsession h.sound (by simp) hclear
        (fun _ => .inr (mem_singleton.2 rfl)) fun _ => ?_
      rw [hself]
      exact clear_free (hfits rfl)
    · have hslot := h.slot
      rw [← update_of_ne hne (s.slots k).clear s.slots] at hslot
      exact hydrateKeys hsession h.sound (by simp) hslot .inl fun hmem =>
        absurd (mem_singleton.1 hmem) hne
  | resume hydrate =>
    simp only [SecureStorage.step] at hst
    split_ifs at hst with hmem
    have hsound := fun h' (hh' : h' ∈ s.hydrates.erase hydrate) => h.sound h' (mem_of_mem_erase hh')
    cases hydrate with
    | healing heal =>
      obtain rfl := some.inj hst
      have hslot := h.slot.mono fun hv => (visits_erase (h := .healing heal) hv).resolve_right id
      refine healAll ?_ (h.sound _ hmem).heal
      exact { session_eq := hsession, sound := hsound, slot := hslot }
    | opening k raw todo heal =>
      obtain rfl := some.inj hst
      obtain ⟨hfree, hfresh⟩ := hfits
      obtain rfl := (h.sound _ hmem).opening _ _ _ _ rfl
      have hslots := opened_apply (E := E) s k key raw
      have hold : (s.opened E k raw key).Inv E true key initial
          ((∃ h' ∈ s.hydrates.erase (.opening k raw todo heal), h'.Visits E key) ∨
            key ∈ todo) := by
        rcases hslots with ⟨hslots, hclosed⟩ | ⟨rfl, hpin, hopen, hslots⟩
        · rw [hslots]
          by_cases hqueue : (s.slots key).queue = []
          · obtain ⟨hpin, hcache⟩ := h.slot.quiet hqueue
            refine h.slot.cache (.inl ⟨hqueue, hcache.imp_right fun ⟨hnone, hv⟩ => ⟨hnone, ?_⟩⟩)
            rcases visits_erase (h := .opening k raw todo heal) hv with hv | hv | ⟨hk, hopen⟩
            · exact .inl hv
            · exact .inr hv
            · exact absurd (hclosed hk hpin) hopen
          · exact h.slot.cache (.inr ⟨hqueue, rfl⟩)
        · rw [hslots]
          have hqueue := hfree mem_cons_self hpin
          refine h.slot.cache (.inl ⟨hqueue, .inl ?_⟩)
          rw [← hsession]
          exact (hfresh rfl hpin).resolve_left hopen
      refine hydrateKeys hsession hsound (h.sound _ hmem).heal hold id fun hin => ?_
      have hfree' := hfree (mem_cons_of_mem _ hin)
      rcases hslots with ⟨hslots, -⟩ | ⟨-, -, -, hslots⟩
      · rw [hslots]
        exact hfree'
      · rw [hslots]
        exact hfree'
  | start k nonce =>
    simp only [SecureStorage.step, map_eq_some_iff] at hst
    obtain ⟨slot, hslot, rfl⟩ := hst
    exact h.update fun hk => by
      subst hk
      rw [hsession] at hslot
      exact h.slot.start hslot
  | sealFails k =>
    simp only [SecureStorage.step, ite_none_right_eq_some, map_eq_some_iff] at hst
    obtain ⟨-, slot, hslot, rfl⟩ := hst
    exact h.update fun hk => by
      subst hk
      exact h.slot.sealFails hslot
  | store k ok =>
    simp only [SecureStorage.step, map_eq_some_iff] at hst
    obtain ⟨slot, hslot, rfl⟩ := hst
    exact h.update fun hk => by
      subst hk
      exact h.slot.store hslot
  | finish k =>
    simp only [SecureStorage.step, map_eq_some_iff] at hst
    obtain ⟨slot, hslot, rfl⟩ := hst
    exact h.update fun hk => by
      subst hk
      exact h.slot.finish (hsession ▸ hfits rfl) hslot

/-! ### Runs -/

/-- Cache, disk and calls agree on a key. -/
structure Agrees (E : Envelopes) (s₀ s : Storage) (key : SecureKey) : Prop where
  disk : getItem s key = decode E s.session key (s.slots key).disk
  last : getItem s key = lastSucceeded (getItem s₀ key) (s.slots key).settled
  /-- Every call has settled, in the order of the calls. -/
  calls : (s.slots key).settled.map Prod.fst = (s.slots key).calls

theorem Storage.Initial.inv {s₀ : Storage} (h : s₀.Initial E) (key : SecureKey) :
    s₀.Inv E s₀.session key (getItem s₀ key) where
  session_eq := rfl
  sound := by simp [h.hydrates]
  slot :=
    { calls := by rw [(h.calls key).1, (h.calls key).2, h.queue key]; rfl
      quiet := fun _ => ⟨h.pin key, .inl (h.agree key)⟩
      busy := by simp [h.queue key]
      stored := by
        rw [Slot.done, h.queue key, (h.calls key).2, ← h.agree key]
        rfl
      waiting := by simp [h.queue key]
      plain := by simp [h.queue key]
      storing := by simp [h.queue key] }

/-- **Cache and disk agree once everything has settled, in a run of fitting steps.** -/
theorem agrees_of_fitting {s₀ : Storage} (h₀ : s₀.Initial E)
    (h : (machine E).ReachableUnder (Fits E key) s₀ s) (hsettled : s.SettledAt key) :
    Agrees E s₀ s key := by
  have hinv := h.invariant (I := Storage.Inv E s₀.session key (getItem s₀ key)) (h₀.inv key)
    fun t a t' ht hfits hst => ht.step hfits hst
  obtain ⟨hhydrates, hqueue⟩ := hsettled
  have hdisk : getItem s key = decode E s.session key (s.slots key).disk := by
    rw [hinv.session_eq]
    refine (hinv.slot.quiet hqueue).2.resolve_right ?_
    rintro ⟨-, h, hmem, -⟩
    rw [hhydrates] at hmem
    cases hmem
  refine ⟨hdisk, ?_, ?_⟩
  · rw [hdisk, hinv.session_eq, hinv.slot.stored, Slot.done, hqueue]
  · rw [hinv.slot.calls, hqueue, map_nil, append_nil]

/-- Envelopes marked by their first character. -/
def markedEnvelopes : Envelopes where
  tryDecodeEnvelope raw := raw.head? = some '!'
  sealEnvelope _ value _ := '!' :: value
  openEnvelope _ raw := some raw.tail
  readMetadata _ := false
  tryDecodeEnvelope_seal _ _ _ := rfl
  openEnvelope_seal _ _ _ := rfl

/-- The storage of a first visit. -/
def emptyStorage : Storage where
  slots _ := ⟨none, none, none, [], [], []⟩
  others _ := none
  hydrates := []
  session := false
  wiping := 0
  hydratedOnce := true

theorem emptyStorage_initial : emptyStorage.Initial markedEnvelopes where
  hydrates := rfl
  agree _ := rfl
  pin _ := rfl
  queue _ := rfl
  calls _ := ⟨rfl, rfl⟩

/-- A call and the steps of its store. -/
def storeOnce : List Action :=
  [.setItem .lastFile ['a'], .start .lastFile 0,
    .store .lastFile true, .finish .lastFile]

theorem agrees_of_fitting_storeOnce : ∃ s, (machine markedEnvelopes).run emptyStorage storeOnce =
    some s ∧ Agrees markedEnvelopes emptyStorage s .lastFile := by
  refine ⟨_, rfl, agrees_of_fitting emptyStorage_initial ?_ ⟨rfl, rfl⟩⟩
  refine .head (a := .setItem .lastFile ['a']) (fun _ _ => by decide) rfl ?_
  refine .head (a := .start .lastFile 0) trivial rfl ?_
  refine .head (a := .store .lastFile true) trivial rfl ?_
  refine .head (a := .finish .lastFile) ?_ rfl .refl
  rintro - p rest hqueue hphase
  cases hqueue
  cases hphase

/-- Two calls that both fail. -/
def failTwice : List Action :=
  [.setItem .lastFile ['a'], .setItem .lastFile ['b'],
    .start .lastFile 0, .store .lastFile false, .finish .lastFile,
    .start .lastFile 0, .store .lastFile false, .finish .lastFile]

theorem not_agrees : ¬ ∀ (E : Envelopes) (s₀ s : Storage) (key : SecureKey), s₀.Initial E →
    (machine E).Reachable s₀ s → s.SettledAt key → Agrees E s₀ s key := by
  intro h
  obtain ⟨s, hrun, hsettled, hcache, hdisk⟩ :
      ∃ s, (machine markedEnvelopes).run emptyStorage failTwice = some s ∧
        s.SettledAt .lastFile ∧ getItem s .lastFile = some ['a'] ∧
        (s.slots .lastFile).disk = none := ⟨_, rfl, ⟨rfl, rfl⟩, rfl, rfl⟩
  have hagrees := (h markedEnvelopes emptyStorage s .lastFile emptyStorage_initial
    (Machine.reachable_of_run hrun) hsettled).disk
  rw [hcache, hdisk] at hagrees
  cases hagrees

end Triage.SecureStorage
