import Triage.Client.SecureStorage

/-!
# What holds of one key of the secure storage

A key's queue is worked off in the order of the calls. While it is not empty the cache shows the
last call, and once it is empty the cache shows the disk, unless a hydration has dropped the value
and is still to read it.

## Main results

* `Slot.Inv.setItem`, `Slot.Inv.removeItem`, `Slot.Inv.start`, `Slot.Inv.sealFails`,
  `Slot.Inv.store`, `Slot.Inv.finish`, `Slot.Inv.cache` : every step on a key keeps it.
-/

namespace Triage.SecureStorage

open List Option

variable {E : Envelopes} {session : Bool} {key : SecureKey} {initial : Option Text}

theorem decode_none : decode E session key none = none := rfl

theorem decode_of_plain {raw : Text} (h : E.tryDecodeEnvelope raw = false) :
    decode E session key (some raw) = some raw := by
  simp [decode, h]

theorem decode_of_envelope {raw : Text} (h : E.tryDecodeEnvelope raw = true)
    (hsession : session = true) : decode E session key (some raw) = E.openEnvelope key raw := by
  simp [decode, h, hsession]

theorem decode_of_locked {raw : Text} (h : E.tryDecodeEnvelope raw = true)
    (hsession : session = false) : decode E session key (some raw) = none := by
  simp [decode, h, hsession]

/-- What `persist` stores of a value, by the vault's state. -/
def rawOf (E : Envelopes) (session : Bool) (key : SecureKey) (nonce : ℕ) (value : Text) : Text :=
  if session then E.sealEnvelope key value nonce else value

/-- A value that is told from an envelope where it is stored as it is. -/
def Plain (E : Envelopes) (session : Bool) (value : Text) : Prop :=
  session = false → E.tryDecodeEnvelope value = false

theorem decode_rawOf {value : Text} (h : Plain E session value) (nonce : ℕ) :
    decode E session key (some (rawOf E session key nonce value)) = some value := by
  cases session with
  | true =>
    rw [rawOf, if_pos rfl, decode_of_envelope (E.tryDecodeEnvelope_seal ..) rfl,
      E.openEnvelope_seal]
  | false =>
    rw [rawOf, if_neg Bool.false_ne_true, decode_of_plain (h rfl)]

theorem lastSucceeded_append (settled : List (Op × Bool)) (call : Op × Bool) :
    lastSucceeded initial (settled ++ [call]) =
      if call.2 then call.1.effect else lastSucceeded initial settled := by
  rw [lastSucceeded, foldl_append]
  rfl

namespace Slot

/-- The calls whose store has been made. -/
def done (slot : Slot) : List (Op × Bool) :=
  match slot.queue with
  | ⟨op, _, .stored⟩ :: _ => slot.settled ++ [(op, true)]
  | _ => slot.settled

/-- The invariant of a key; `pending` says that a hydration is still to read it. -/
structure Inv (E : Envelopes) (session : Bool) (key : SecureKey) (initial : Option Text)
    (pending : Prop) (slot : Slot) : Prop where
  calls : slot.calls = slot.settled.map Prod.fst ++ slot.queue.map Pending.op
  quiet : slot.queue = [] → slot.pin = none ∧ (slot.cache = decode E session key slot.disk ∨
    slot.cache = none ∧ pending)
  busy : ∀ last, slot.queue.getLast? = some last →
    slot.cache = last.op.effect ∧ (slot.pin = none ∨ slot.pin = some last.op)
  stored : decode E session key slot.disk = lastSucceeded initial slot.done
  waiting : ∀ p ∈ slot.queue.tail, p.phase = .waiting
  plain : ∀ p ∈ slot.queue, ∀ value, p.op = .set value → Plain E session value
  storing : ∀ p ∈ slot.queue, ∀ raw, p.phase = .storing raw →
    decode E session key (some raw) = p.op.effect

/-- Where the front's failure would put back another value than what is there: a later call waits
and the cached value is not the front's own, or none waits and the disk holds another. -/
def RollbackFits (E : Envelopes) (session : Bool) (key : SecureKey) (slot : Slot) : Prop :=
  ∀ p rest, slot.queue = p :: rest → p.phase = .failed → slot.cache = p.op.effect →
    if rest = [] then p.previous = decode E session key slot.disk else p.previous = slot.cache

variable {pending pending' : Prop} {slot : Slot}

theorem Inv.mono (h : slot.Inv E session key initial pending) (hp : pending → pending') :
    slot.Inv E session key initial pending' :=
  { h with quiet := fun hq => ⟨(h.quiet hq).1, (h.quiet hq).2.imp_right (And.imp_right hp)⟩ }

/-- A call added to the queue shows in the cache. -/
theorem Inv.add (h : slot.Inv E session key initial pending) (op : Op) (previous : Option Text)
    (hplain : ∀ value, op = .set value → Plain E session value) :
    Inv E session key initial pending
      { slot with
        cache := op.effect
        pin := some op
        queue := slot.queue ++ [⟨op, previous, .waiting⟩]
        calls := slot.calls ++ [op] } where
  calls := by
    simp only [h.calls, map_append, map_cons, map_nil, append_assoc]
  quiet hq := by simp at hq
  busy last hlast := by
    rw [getLast?_append, getLast?_singleton, Option.some_or, Option.some.injEq] at hlast
    subst hlast
    exact ⟨rfl, .inr rfl⟩
  stored := by
    rw [h.stored, done, done]
    cases hqueue : slot.queue with
    | nil => rfl
    | cons p rest =>
      obtain ⟨op', previous', phase⟩ := p
      cases phase <;> rfl
  waiting p hp := by
    cases hqueue : slot.queue with
    | nil =>
      rw [hqueue] at hp
      cases hp
    | cons q rest =>
      have hw := h.waiting
      rw [hqueue] at hp hw
      rcases mem_append.1 hp with hp | hp
      · exact hw p hp
      · rw [mem_singleton.1 hp]
  plain p hp value hop := by
    rcases mem_append.1 hp with hp | hp
    · exact h.plain p hp value hop
    · rw [mem_singleton.1 hp] at hop
      exact hplain value hop
  storing p hp raw hraw := by
    rcases mem_append.1 hp with hp | hp
    · exact h.storing p hp raw hraw
    · rw [mem_singleton.1 hp] at hraw
      cases hraw

theorem Inv.setItem (h : slot.Inv E session key initial pending) {value : Text}
    (hplain : Plain E session value) : (slot.setItem value).Inv E session key initial pending :=
  h.add (.set value) slot.cache fun value' heq => by
    cases heq
    exact hplain

theorem Inv.removeItem (h : slot.Inv E session key initial pending) :
    slot.removeItem.Inv E session key initial pending :=
  h.add (.remove slot.calls.length) none fun _ heq => by cases heq

/-- The front of the queue goes on to another phase, and the disk with it. -/
theorem Inv.front (h : slot.Inv E session key initial pending) {op : Op}
    {previous : Option Text} {phase phase' : Phase} {rest : List Pending}
    (hqueue : slot.queue = ⟨op, previous, phase⟩ :: rest) {disk : Option Text}
    (hstored : decode E session key disk = lastSucceeded initial
      ({ slot with disk := disk, queue := ⟨op, previous, phase'⟩ :: rest } : Slot).done)
    (hstoring : ∀ raw, phase' = .storing raw → decode E session key (some raw) = op.effect) :
    Inv E session key initial pending
      { slot with disk := disk, queue := ⟨op, previous, phase'⟩ :: rest } where
  calls := by rw [h.calls, hqueue]; rfl
  quiet hq := by cases hq
  busy last hlast := by
    cases rest with
    | nil =>
      obtain rfl := some.inj hlast
      exact h.busy ⟨op, previous, phase⟩ (by rw [hqueue]; rfl)
    | cons p rest => exact h.busy last (by rw [hqueue]; exact hlast)
  stored := hstored
  waiting := by
    have hw := h.waiting
    rw [hqueue] at hw
    exact hw
  plain p hp value hop := by
    rcases mem_cons.1 hp with rfl | hp
    · exact h.plain ⟨op, previous, phase⟩ (by rw [hqueue]; exact mem_cons_self) value hop
    · exact h.plain p (by rw [hqueue]; exact mem_cons_of_mem _ hp) value hop
  storing p hp raw hraw := by
    rcases mem_cons.1 hp with rfl | hp
    · exact hstoring raw hraw
    · exact h.storing p (by rw [hqueue]; exact mem_cons_of_mem _ hp) raw hraw

/-- What is stored while the front has not been. -/
theorem Inv.stored_settled (h : slot.Inv E session key initial pending)
    (hfront : ∀ p rest, slot.queue = p :: rest → p.phase ≠ .stored) :
    decode E session key slot.disk = lastSucceeded initial slot.settled := by
  rw [h.stored, done]
  cases hqueue : slot.queue with
  | nil => rfl
  | cons p rest =>
    obtain ⟨op, previous, phase⟩ := p
    cases phase with
    | stored => exact absurd rfl (hfront _ _ hqueue)
    | waiting => rfl
    | storing raw => rfl
    | failed => rfl

variable {slot' : Slot}

theorem Inv.start (h : slot.Inv E session key initial pending) {nonce : ℕ}
    (hst : slot.start (rawOf E session key nonce) = some slot') :
    slot'.Inv E session key initial pending := by
  unfold Slot.start at hst
  split at hst
  · rename_i value previous rest hqueue
    obtain rfl := some.inj hst
    refine h.front hqueue ?_ fun raw hraw => ?_
    · exact h.stored_settled fun p rest' hq => by
        rw [hqueue] at hq
        cases hq
        simp
    · cases hraw
      exact decode_rawOf (h.plain _ (by rw [hqueue]; exact mem_cons_self) value rfl) nonce
  · cases hst

theorem Inv.sealFails (h : slot.Inv E session key initial pending)
    (hst : slot.sealFails = some slot') : slot'.Inv E session key initial pending := by
  unfold Slot.sealFails at hst
  split at hst
  · rename_i value previous rest hqueue
    obtain rfl := some.inj hst
    refine h.front hqueue ?_ fun raw hraw => by cases hraw
    exact h.stored_settled fun p rest' hq => by
      rw [hqueue] at hq
      cases hq
      simp
  · cases hst

theorem Inv.store (h : slot.Inv E session key initial pending) {ok : Bool}
    (hst : slot.store ok = some slot') : slot'.Inv E session key initial pending := by
  unfold Slot.store at hst
  split at hst
  · rename_i value previous raw rest hqueue
    obtain rfl := some.inj hst
    cases ok with
    | true =>
      refine h.front hqueue ?_ fun raw hraw => by cases hraw
      rw [h.storing _ (by rw [hqueue]; exact mem_cons_self) raw rfl]
      exact (lastSucceeded_append slot.settled (.set value, true)).symm
    | false =>
      refine h.front hqueue ?_ fun raw hraw => by cases hraw
      exact h.stored_settled fun p rest' hq => by
        rw [hqueue] at hq
        cases hq
        simp
  · cases hst

/-- The front leaves the queue. -/
theorem Inv.pop (h : slot.Inv E session key initial pending) {p : Pending} {rest : List Pending}
    (hqueue : slot.queue = p :: rest) {ok : Bool} {disk cache : Option Text} {pin : Option Op}
    (hstored : decode E session key disk = lastSucceeded initial (slot.settled ++ [(p.op, ok)]))
    (hquiet : rest = [] → pin = none ∧ cache = decode E session key disk)
    (hbusy : ∀ last, rest.getLast? = some last →
      cache = slot.cache ∧ (pin = none ∨ pin = slot.pin)) :
    Inv E session key initial pending
      { slot with
        disk := disk
        cache := cache
        pin := pin
        queue := rest
        settled := slot.settled ++ [(p.op, ok)] } where
  calls := by rw [h.calls, hqueue]; simp
  quiet hq := ⟨(hquiet hq).1, .inl (hquiet hq).2⟩
  busy last hlast := by
    obtain ⟨hcache, hpin⟩ := hbusy last hlast
    have hold := h.busy last (by
      rw [hqueue]
      cases rest with
      | nil => cases hlast
      | cons q rest => exact hlast)
    exact ⟨hcache.trans hold.1, hpin.elim .inl fun hpin => hpin ▸ hold.2⟩
  stored := by
    rw [hstored, done]
    cases hrest : rest with
    | nil => rfl
    | cons q rest' =>
      have hq := h.waiting q (by rw [hqueue, hrest]; exact mem_cons_self)
      obtain ⟨op, previous, phase⟩ := q
      cases hq
      rfl
  waiting q hq := h.waiting q (by rw [hqueue]; exact mem_of_mem_tail hq)
  plain q hq := h.plain q (by rw [hqueue]; exact mem_cons_of_mem _ hq)
  storing q hq := h.storing q (by rw [hqueue]; exact mem_cons_of_mem _ hq)

/-- The pin after the front's own has gone. -/
theorem Inv.unpin (h : slot.Inv E session key initial pending) {p : Pending}
    {rest : List Pending} (hqueue : slot.queue = p :: rest) :
    (rest = [] → (if slot.pin = some p.op then none else slot.pin) = none) ∧
      ((if slot.pin = some p.op then none else slot.pin) = none ∨
        (if slot.pin = some p.op then none else slot.pin) = slot.pin) := by
  refine ⟨fun hrest => ?_, ?_⟩
  · rcases (h.busy p (by rw [hqueue, hrest]; rfl)).2 with hpin | hpin
    · rw [hpin, if_neg (by simp)]
    · rw [if_pos hpin]
  · split_ifs
    · exact .inl rfl
    · exact .inr rfl

/-- The end of the front keeps the invariant where a rollback fits. -/
theorem Inv.finish (h : slot.Inv E session key initial pending)
    (hfits : slot.RollbackFits E session key) (hst : slot.finish = some slot') :
    slot'.Inv E session key initial pending := by
  unfold Slot.finish at hst
  split at hst
  · -- the value is stored
    rename_i value previous rest hqueue
    obtain rfl := some.inj hst
    have hvalue : decode E session key slot.disk = some value := by
      rw [h.stored, done, hqueue]
      exact lastSucceeded_append slot.settled (.set value, true)
    obtain ⟨hnone, hpin⟩ := h.unpin hqueue
    refine h.pop hqueue (hvalue.trans (lastSucceeded_append slot.settled (.set value, true)).symm)
      (fun hrest => ⟨hnone hrest, ?_⟩) fun last hlast => ⟨rfl, hpin⟩
    rw [hvalue]
    exact (h.busy ⟨.set value, previous, .stored⟩ (by rw [hqueue, hrest]; rfl)).1
  · -- the store has failed
    rename_i value previous rest hqueue
    obtain rfl := some.inj hst
    obtain ⟨hnone, hpin⟩ := h.unpin hqueue
    have hfit := hfits _ _ hqueue rfl
    have hsettled : decode E session key slot.disk = lastSucceeded initial slot.settled :=
      h.stored_settled fun p rest' hq => by
        rw [hqueue] at hq
        cases hq
        simp
    refine h.pop hqueue (hsettled.trans
        (lastSucceeded_append slot.settled (.set value, false)).symm)
      (fun hrest => ⟨hnone hrest, ?_⟩) fun last hlast => ⟨?_, hpin⟩
    · have hcache : slot.cache = some value :=
        (h.busy ⟨.set value, previous, .failed⟩ (by rw [hqueue, hrest]; rfl)).1
      rw [if_pos hcache]
      simpa [hrest] using hfit hcache
    · split_ifs with hcache
      · rw [if_neg (by rintro rfl; cases hlast)] at hfit
        exact hfit hcache
      · rfl
  · -- the removal
    rename_i tombstone previous phase rest hqueue
    obtain rfl := some.inj hst
    obtain ⟨hnone, hpin⟩ := h.unpin hqueue
    refine h.pop hqueue (lastSucceeded_append slot.settled (.remove tombstone, true)).symm
      (fun hrest => ⟨hnone hrest, ?_⟩) fun last hlast => ⟨?_, hpin⟩
    · have hcache : slot.cache = none :=
        (h.busy ⟨.remove tombstone, previous, phase⟩ (by rw [hqueue, hrest]; rfl)).1
      change (if slot.pin = some (.remove tombstone) then none else slot.cache) = none
      split_ifs
      · rfl
      · exact hcache
    · -- the pin is the last call's, which is then a removal too
      change (if slot.pin = some (.remove tombstone) then none else slot.cache) = slot.cache
      split_ifs with hown
      · have hlast' := h.busy last (by
          rw [hqueue]
          cases rest with
          | nil => cases hlast
          | cons q rest => exact hlast)
        rw [hown] at hlast'
        obtain ⟨hcache, hlast' | hlast'⟩ := hlast'
        · cases hlast'
        · rw [hcache, ← some.inj hlast']
          rfl
      · rfl
  · cases hst

/-- A hydration sets the cache of a key that is not pinned. -/
theorem Inv.cache (h : slot.Inv E session key initial pending) {cache : Option Text}
    (hcache : slot.queue = [] ∧ (cache = decode E session key slot.disk ∨
      cache = none ∧ pending') ∨ slot.queue ≠ [] ∧ cache = slot.cache) :
    Inv E session key initial pending' { slot with cache := cache } where
  calls := h.calls
  quiet hq := by
    rcases hcache with ⟨-, hcache⟩ | ⟨hne, -⟩
    · exact ⟨(h.quiet hq).1, hcache⟩
    · exact absurd hq hne
  busy last hlast := by
    rcases hcache with ⟨hq, -⟩ | ⟨-, rfl⟩
    · rw [hq] at hlast
      cases hlast
    · exact h.busy last hlast
  stored := h.stored
  waiting := h.waiting
  plain := h.plain
  storing := h.storing

end Slot

end Triage.SecureStorage
