import Triage.Machine.Basic
import Triage.Data.FMap
import Mathlib.Algebra.Order.BigOperators.Group.Finset
import Mathlib.Algebra.Order.Ring.Nat
import Mathlib.Order.Lattice.Nat

/-!
# Loads shared by their readers

`sharedLoad` of `npm-loads.ts` starts the work of a load, or shares the one under way, and counts
it until its work is done and each reader has released it. Loads of one slot count as one: a slot
takes as many places as its first load asked for, and a load of a new slot is refused where the
places do not suffice.

## Main results

* `LoadsState.Inv.step` : every step keeps the counts right.
* `respects_of_fitting` : the places suffice where no load asks for more than its slot has.
-/

namespace Triage.Managed

open List Option FMap

/-- `MAX_ACTIVE_LOADS` -/
def maxActiveLoads : ℕ := 4

/-- A load, and what it was asked with. -/
structure Load (Key Slot : Type*) where
  key : Key
  slot : Slot
  /-- The places it was asked with. -/
  places : ℕ
  readers : ℕ
  settled : Bool
  deriving DecidableEq

/-- How many loads hold a slot, and the places it takes. -/
structure SlotPlaces where
  holding : ℕ
  places : ℕ
  deriving DecidableEq

/-- The maps of `npm-loads.ts`, with every load so far and every reader. -/
structure LoadsState (Key Slot : Type*) where
  /-- The loads created so far, by their number. -/
  created : List (Load Key Slot)
  loads : FMap Key ℕ
  slots : FMap Slot SlotPlaces
  /-- The readers so far: the load of each, and whether it has released it. -/
  handles : List (ℕ × Bool)

/-- What happens next. -/
inductive LoadLabel (Key Slot : Type*)
  /-- `sharedLoad` is called. -/
  | call (key : Key) (slot : Slot) (places : ℕ)
  /-- The work of a load ends, in an error or not. -/
  | settle (load : ℕ)
  /-- A reader calls its `release`, perhaps not for the first time. -/
  | release (handle : ℕ)

set_option linter.unusedSectionVars false

variable {Key Slot : Type*} [DecidableEq Key] [DecidableEq Slot]

namespace LoadsState

/-- No load yet. -/
def init : LoadsState Key Slot := ⟨[], ∅, ∅, []⟩

/-- The places a slot takes. -/
def placesOf (slots : FMap Slot SlotPlaces) (slot : Slot) : ℕ :=
  ((slots slot).map SlotPlaces.places).getD 0

/-- `placesTaken` -/
def placesTaken (slots : FMap Slot SlotPlaces) : ℕ := ∑ slot ∈ slots.keys, placesOf slots slot

/-- The end of `done`: a slot is given up with its last load. -/
def leave (slots : FMap Slot SlotPlaces) (slot : Slot) : FMap Slot SlotPlaces :=
  match slots slot with
  | none => slots
  | some taken =>
    if taken.holding = 1 then slots.erase slot
    else slots.insert slot { taken with holding := taken.holding - 1 }

variable (s : LoadsState Key Slot)

/-- `sharedLoad` where it starts a load: the places of a slot are those its first load asked for. -/
def create (key : Key) (slot : Slot) (places : ℕ) : LoadsState Key Slot :=
  { s with
    created := s.created ++ [⟨key, slot, places, 0, false⟩]
    loads := s.loads.insert key s.created.length
    slots := s.slots.insert slot
      { holding := ((s.slots slot).map SlotPlaces.holding).getD 0 + 1
        places := ((s.slots slot).map SlotPlaces.places).getD places } }

/-- `sharedLoad` where it hands out a load. -/
def read (load : ℕ) : LoadsState Key Slot :=
  { s with
    created := s.created.modify load fun l => { l with readers := l.readers + 1 }
    handles := s.handles ++ [(load, false)] }

/-- `sharedLoad` -/
def sharedLoad (key : Key) (slot : Slot) (places : ℕ) : LoadsState Key Slot :=
  match s.loads key with
  | some load => s.read load
  | none =>
    if s.slots slot = none ∧ maxActiveLoads < placesTaken s.slots + places then s
    else (s.create key slot places).read s.created.length

/-- `done`: a load is gone once its work is done and its readers have released it. -/
def done (load : ℕ) : LoadsState Key Slot :=
  match s.created[load]? with
  | none => s
  | some l =>
    if l.readers ≠ 0 ∨ l.settled = false ∨ s.loads l.key ≠ some load then s
    else { s with loads := s.loads.erase l.key, slots := leave s.slots l.slot }

/-- `settle` -/
def settle (load : ℕ) : LoadsState Key Slot :=
  done { s with created := s.created.modify load fun l => { l with settled := true } } load

/-- `release` of a reader that has not released its load yet. -/
def release (handle load : ℕ) : LoadsState Key Slot :=
  done { s with
    created := s.created.modify load fun l => { l with readers := l.readers - 1 }
    handles := s.handles.set handle (load, true) } load

/-- The loads under any order of calls, ends of work and releases. -/
def machine : Machine (LoadsState Key Slot) (LoadLabel Key Slot) where
  step s
    | .call key slot places => some (s.sharedLoad key slot places)
    | .settle load =>
      match s.created[load]? with
      | some ⟨_, _, _, _, false⟩ => some (s.settle load)
      | _ => none
    | .release handle =>
      match s.handles[handle]? with
      | none => none
      | some (_, true) => some s
      | some (load, false) => some (s.release handle load)

/-! ### What is counted -/

/-- The slot of a live load and the places it was asked with. -/
def infoAt (key : Key) : Option (Slot × ℕ) :=
  (s.loads key).bind fun load => (s.created[load]?).map fun l => (l.slot, l.places)

/-- The live loads of a slot, by their keys. -/
def liveKeys (slot : Slot) : Finset Key :=
  s.loads.keys.filter fun key => (s.infoAt key).map Prod.fst = some slot

/-- The most places any live load of a slot was asked with. -/
def neededOf (slot : Slot) : ℕ :=
  (s.liveKeys slot).sup fun key => ((s.infoAt key).map Prod.snd).getD 0

/-- The places the live loads need between them. -/
def neededPlaces : ℕ := ∑ slot ∈ s.slots.keys, s.neededOf slot

/-- The loads respect their places. -/
structure Respects : Prop where
  places : s.neededPlaces ≤ maxActiveLoads
  holding : ∀ slot, ((s.slots slot).map SlotPlaces.holding).getD 0 = (s.liveKeys slot).card
  /-- A load is live until its work is done and no reader holds it. -/
  live : ∀ load l, s.created[load]? = some l →
    (s.loads l.key = some load ↔ ¬ (l.settled = true ∧ (load, false) ∉ s.handles))
  rest : (∀ l ∈ s.created, l.settled = true) → (∀ handle ∈ s.handles, handle.2 = true) →
    placesTaken s.slots = 0 ∧ s.slots = ∅ ∧ s.loads = ∅

/-! ### The invariant -/

/-- What holds of the maps at every moment. -/
structure Counted : Prop where
  known : ∀ key load, s.loads key = some load → ∃ l, s.created[load]? = some l ∧ l.key = key
  readers : ∀ load l, s.created[load]? = some l → l.readers = s.handles.count (load, false)
  held : ∀ handle ∈ s.handles, handle.1 < s.created.length
  holding : ∀ slot, ((s.slots slot).map SlotPlaces.holding).getD 0 = (s.liveKeys slot).card
  positive : ∀ slot taken, s.slots slot = some taken → 0 < taken.holding
  placed : placesTaken s.slots ≤ maxActiveLoads

/-- A load is live until its work is done and its readers have released it. -/
def LiveAt (load : ℕ) : Prop :=
  ∀ l, s.created[load]? = some l →
    (s.loads l.key = some load ↔ ¬ (l.settled = true ∧ l.readers = 0))

/-- What holds of every state reached. -/
structure Inv : Prop where
  counted : s.Counted
  live : ∀ load, s.LiveAt load

variable {s}

theorem inv_init : (init : LoadsState Key Slot).Inv where
  counted :=
    { known := by simp [init]
      readers := by simp [init]
      held := by simp [init]
      holding := fun _ => by simp [init, liveKeys, infoAt]
      positive := by simp [init]
      placed := Nat.zero_le _ }
  live := fun _ => by simp [init, LiveAt]

variable {f : Load Key Slot → Load Key Slot} {load : ℕ} {l : Load Key Slot}
  {slots : FMap Slot SlotPlaces}

/-- What is known of the live loads does not change with their readers and their work. -/
theorem infoAt_modify (s : LoadsState Key Slot)
    (hf : ∀ l, ((f l).slot, (f l).places) = (l.slot, l.places)) (load : ℕ)
    (handles : List (ℕ × Bool)) (key : Key) :
    infoAt { s with created := s.created.modify load f, handles := handles } key =
      s.infoAt key := by
  simp only [infoAt]
  congr 1
  funext i
  rw [getElem?_modify]
  cases s.created[i]? with
  | none => rfl
  | some l =>
    simp only [Option.map_eq_map, map_some, Option.some.injEq]
    split_ifs
    · exact hf l
    · rfl

theorem liveKeys_modify (s : LoadsState Key Slot)
    (hf : ∀ l, ((f l).slot, (f l).places) = (l.slot, l.places)) (load : ℕ)
    (handles : List (ℕ × Bool)) (slot : Slot) :
    liveKeys { s with created := s.created.modify load f, handles := handles } slot =
      s.liveKeys slot := by
  simp only [liveKeys, infoAt_modify s hf]

/-- A load whose readers or whose work have changed. -/
theorem exists_of_modify {created : List (Load Key Slot)}
    {i : ℕ} (h : (created.modify load f)[i]? = some l) :
    ∃ old, created[i]? = some old ∧ l = if load = i then f old else old := by
  rw [getElem?_modify, Option.map_eq_map, map_eq_some_iff] at h
  obtain ⟨old, hold, rfl⟩ := h
  exact ⟨old, hold, rfl⟩

/-- The readers or the work of one load change. -/
theorem Counted.modify (h : s.Counted)
    (hf : ∀ l, (f l).key = l.key ∧ (f l).slot = l.slot ∧ (f l).places = l.places)
    {handles : List (ℕ × Bool)}
    (hreaders : ∀ l, s.created[load]? = some l → (f l).readers = handles.count (load, false))
    (hothers : ∀ i ≠ load, handles.count (i, false) = s.handles.count (i, false))
    (hheld : ∀ handle ∈ handles, handle.1 < s.created.length) :
    Counted { s with created := s.created.modify load f, handles := handles } where
  known key i hi := by
    obtain ⟨l, hl, hkey⟩ := h.known key i hi
    refine ⟨if load = i then f l else l, ?_, ?_⟩
    · simp [getElem?_modify, hl]
    · split_ifs
      · rw [(hf l).1, hkey]
      · exact hkey
  readers i l hl := by
    obtain ⟨old, hold, rfl⟩ := exists_of_modify hl
    split_ifs with heq
    · subst heq
      exact hreaders old hold
    · rw [h.readers i old hold]
      exact (hothers i fun he => heq he.symm).symm
  held handle hmem := by
    rw [length_modify]
    exact hheld handle hmem
  holding slot := by
    rw [liveKeys_modify s (fun l => by rw [(hf l).2.1, (hf l).2.2])]
    exact h.holding slot
  positive := h.positive
  placed := h.placed

theorem LiveAt.modify {i : ℕ} (h : s.LiveAt i) (hne : load ≠ i) (handles : List (ℕ × Bool)) :
    LiveAt { s with created := s.created.modify load f, handles := handles } i := by
  intro l hl
  obtain ⟨old, hold, rfl⟩ := exists_of_modify hl
  rw [if_neg hne]
  exact h old hold

/-! ### A load that is gone -/

variable {slot : Slot} {key : Key}

theorem mem_liveKeys : key ∈ s.liveKeys slot ↔ ∃ places, s.infoAt key = some (slot, places) := by
  rw [liveKeys, Finset.mem_filter, FMap.mem_keys, map_eq_some_iff]
  constructor
  · rintro ⟨-, ⟨slot', places⟩, hinfo, rfl⟩
    exact ⟨places, hinfo⟩
  · rintro ⟨places, hinfo⟩
    refine ⟨?_, _, hinfo, rfl⟩
    rw [infoAt, bind_eq_some_iff] at hinfo
    obtain ⟨load, hload, -⟩ := hinfo
    rw [hload]
    rfl

theorem infoAt_erase (s : LoadsState Key Slot) (key key' : Key) (slots : FMap Slot SlotPlaces) :
    infoAt { s with loads := s.loads.erase key, slots := slots } key' =
      if key' = key then none else s.infoAt key' := by
  simp only [infoAt, erase_apply]
  split_ifs <;> rfl

theorem liveKeys_erase (s : LoadsState Key Slot) (key : Key) (slots : FMap Slot SlotPlaces)
    (slot : Slot) :
    liveKeys { s with loads := s.loads.erase key, slots := slots } slot =
      (s.liveKeys slot).erase key := by
  ext key'
  rw [mem_liveKeys, Finset.mem_erase, mem_liveKeys, infoAt_erase]
  split_ifs with heq
  · simp [heq]
  · simp [heq]

/-- Fewer places are taken where a slot keeps its places or is given up. -/
theorem placesTaken_le {slots' : FMap Slot SlotPlaces} (hkeys : slots'.keys ⊆ slots.keys)
    (h : ∀ slot ∈ slots'.keys, placesOf slots' slot = placesOf slots slot) :
    placesTaken slots' ≤ placesTaken slots :=
  calc placesTaken slots' = ∑ slot ∈ slots'.keys, placesOf slots slot := Finset.sum_congr rfl h
    _ ≤ placesTaken slots := Finset.sum_le_sum_of_subset hkeys

theorem leave_of_none (h : slots slot = none) : leave slots slot = slots := by
  rw [leave, h]

theorem leave_of_ne (slots : FMap Slot SlotPlaces) {slot slot' : Slot} (h : slot' ≠ slot) :
    leave slots slot slot' = slots slot' := by
  rw [leave]
  cases slots slot with
  | none => rfl
  | some taken =>
    simp only
    split_ifs
    · exact erase_of_ne _ h
    · exact insert_of_ne _ h _

theorem leave_self {taken : SlotPlaces} (h : slots slot = some taken) : leave slots slot slot =
      if taken.holding = 1 then none else some { taken with holding := taken.holding - 1 } := by
  rw [leave, h]
  simp only
  split_ifs
  · exact erase_self _ _
  · exact insert_self _ _ _

theorem placesOf_leave {slot slot' : Slot} (h : slot' ∈ (leave slots slot).keys) :
    placesOf (leave slots slot) slot' = placesOf slots slot' := by
  rw [placesOf, placesOf]
  by_cases hne : slot' = slot
  · subst hne
    cases hslot : slots slot' with
    | none => rw [leave_of_none hslot, hslot]
    | some taken =>
      rw [FMap.mem_keys, leave_self hslot] at h
      rw [leave_self hslot]
      split_ifs at h ⊢
      · cases h
      · rfl
  · rw [leave_of_ne slots hne]

theorem keys_leave (slots : FMap Slot SlotPlaces) (slot : Slot) :
    (leave slots slot).keys ⊆ slots.keys := by
  intro slot' hmem
  rw [FMap.mem_keys] at hmem ⊢
  by_cases hne : slot' = slot
  · subst hne
    cases hslot : slots slot' with
    | none =>
      rw [leave_of_none hslot, hslot] at hmem
      exact hmem
    | some taken => rfl
  · rwa [leave_of_ne slots hne] at hmem

section

variable (h : s.Counted)
include h

/-- A load that is done leaves its slot. -/
theorem Counted.erase (hl : s.created[load]? = some l) (hload : s.loads l.key = some load) :
    Counted { s with loads := s.loads.erase l.key, slots := leave s.slots l.slot } where
  known key i hi := by
    rw [erase_apply] at hi
    split_ifs at hi
    exact h.known key i hi
  readers := h.readers
  held := h.held
  holding slot := by
    have hmem : l.key ∈ s.liveKeys l.slot :=
      mem_liveKeys.2 ⟨l.places, by rw [infoAt, hload, bind_some, hl]; rfl⟩
    have hcard := h.holding slot
    rw [liveKeys_erase]
    by_cases hne : slot = l.slot
    · subst hne
      have hpos := Finset.card_pos.2 ⟨_, hmem⟩
      rw [Finset.card_erase_of_mem hmem, ← hcard]
      cases hslot : s.slots l.slot with
      | none => simp [hslot] at hcard; omega
      | some taken =>
        rw [leave_self hslot]
        split_ifs with hone
        · simp [hone]
        · rfl
    · rw [leave_of_ne _ hne, Finset.erase_eq_of_notMem, hcard]
      intro hkey
      obtain ⟨places, hinfo⟩ := mem_liveKeys.1 hkey
      rw [infoAt, hload, bind_some, hl] at hinfo
      simp only [map_some, Option.some.injEq, Prod.mk.injEq] at hinfo
      exact hne hinfo.1.symm
  positive slot taken htaken := by
    by_cases hne : slot = l.slot
    · subst hne
      cases hslot : s.slots l.slot with
      | none =>
        rw [leave_of_none hslot, hslot] at htaken
        cases htaken
      | some old =>
        rw [leave_self hslot] at htaken
        have := h.positive _ _ hslot
        split_ifs at htaken with hone
        rw [Option.some.injEq] at htaken
        subst htaken
        simp only
        omega
    · rw [leave_of_ne _ hne] at htaken
      exact h.positive _ _ htaken
  placed := (placesTaken_le (keys_leave _ _) fun _ => placesOf_leave).trans h.placed

/-- `done` restores the invariant where it may fail for one load only: a load counted as live
although its work is done and its readers have released it. -/
theorem Counted.done (hlive : ∀ i ≠ load, s.LiveAt i)
    (hload : ∀ l, s.created[load]? = some l → ¬ (l.settled = true ∧ l.readers = 0) →
      s.loads l.key = some load) : (s.done load).Inv := by
  rw [LoadsState.done]
  cases hl : s.created[load]? with
  | none =>
    refine ⟨h, fun i => ?_⟩
    rcases eq_or_ne i load with rfl | hne
    · intro l hl'
      rw [hl] at hl'
      cases hl'
    · exact hlive i hne
  | some l =>
    simp only
    split_ifs with hstays
    · refine ⟨h, fun i => ?_⟩
      rcases eq_or_ne i load with rfl | hne
      · intro l' hl'
        rw [hl, Option.some.injEq] at hl'
        subst hl'
        refine ⟨fun hkey hdone => ?_, hload l hl⟩
        rcases hstays with hreaders | hsettled | hgone
        · exact hreaders hdone.2
        · rw [hdone.1] at hsettled
          cases hsettled
        · exact hgone hkey
      · exact hlive i hne
    · push Not at hstays
      obtain ⟨hreaders, hsettled, hkey⟩ := hstays
      refine ⟨h.erase hl hkey, fun i l' hl' => ?_⟩
      simp only [erase_apply]
      rcases eq_or_ne i load with rfl | hne
      · rw [hl, Option.some.injEq] at hl'
        subst hl'
        simp [hreaders, hsettled]
      · rw [← hlive i hne l' hl']
        split_ifs with heq
        · rw [heq, hkey, Option.some.injEq]
          simp [Ne.symm hne]
        · rfl

/-! ### A load that starts -/

theorem infoAt_create (key : Key) (slot : Slot) (places : ℕ) (key' : Key) :
    (s.create key slot places).infoAt key' =
      if key' = key then some (slot, places) else s.infoAt key' := by
  simp only [infoAt, create, insert_apply]
  split_ifs
  · simp
  · cases hload : s.loads key' with
    | none => rfl
    | some load =>
      obtain ⟨l, hl, -⟩ := h.known key' load hload
      have hlt := (List.getElem?_eq_some_iff.1 hl).1
      rw [bind_some, bind_some, getElem?_append_left hlt]

theorem liveKeys_create (hkey : s.loads key = none) (slot : Slot) (places : ℕ) (slot' : Slot) :
    (s.create key slot places).liveKeys slot' =
      if slot' = slot then insert key (s.liveKeys slot') else s.liveKeys slot' := by
  ext key'
  have hnone : s.infoAt key = none := by rw [infoAt, hkey]; rfl
  rw [mem_liveKeys, infoAt_create h]
  by_cases hk : key' = key
  · subst hk
    have hnot : key' ∉ s.liveKeys slot' := by
      rw [mem_liveKeys, hnone]
      simp
    rw [if_pos rfl]
    split_ifs with hs
    · simp [hs]
    · simp [hnot, Ne.symm hs]
  · rw [if_neg hk]
    split_ifs
    · rw [Finset.mem_insert, mem_liveKeys]
      simp [hk]
    · rw [mem_liveKeys]

end

theorem placesOf_create (s : LoadsState Key Slot) (key : Key) (slot : Slot) (places : ℕ)
    (slot' : Slot) : placesOf (s.create key slot places).slots slot' =
      if slot' = slot ∧ s.slots slot = none then places else placesOf s.slots slot' := by
  simp only [placesOf, create, insert_apply]
  by_cases heq : slot' = slot
  · subst heq
    cases s.slots slot' <;> simp
  · simp [heq]

/-- A load starts where the places suffice, or in a slot that has its places already. -/
theorem Counted.create (h : s.Counted) (hkey : s.loads key = none)
    {places : ℕ} (hroom : s.slots slot = none → placesTaken s.slots + places ≤ maxActiveLoads) :
    (s.create key slot places).Counted where
  known key' load hload := by
    simp only [LoadsState.create, insert_apply] at hload ⊢
    split_ifs at hload with heq
    · rw [Option.some.injEq] at hload
      subst hload
      exact ⟨⟨key, slot, places, 0, false⟩, by simp, heq.symm⟩
    · obtain ⟨l, hl, hk⟩ := h.known key' load hload
      exact ⟨l, by rw [getElem?_append_left (List.getElem?_eq_some_iff.1 hl).1, hl], hk⟩
  readers load l hl := by
    simp only [LoadsState.create] at hl ⊢
    rw [getElem?_append] at hl
    split_ifs at hl with hlt
    · exact h.readers load l hl
    · rw [getElem?_singleton] at hl
      split_ifs at hl with hzero
      rw [Option.some.injEq] at hl
      subst hl
      refine (count_eq_zero.2 fun hmem => ?_).symm
      have := h.held _ hmem
      simp only at this
      omega
  held handle hmem := by
    have := h.held handle hmem
    simp only [LoadsState.create, length_append]
    omega
  holding slot' := by
    rw [liveKeys_create h hkey]
    have hcard := h.holding slot'
    simp only [LoadsState.create, insert_apply]
    split_ifs with heq
    · subst heq
      have hnot : key ∉ s.liveKeys slot' := by
        rw [mem_liveKeys, infoAt, hkey]
        simp
      rw [Finset.card_insert_of_notMem hnot, ← hcard]
      rfl
    · exact hcard
  positive slot' taken htaken := by
    simp only [LoadsState.create, insert_apply] at htaken
    split_ifs at htaken
    · rw [Option.some.injEq] at htaken
      subst htaken
      exact Nat.succ_pos _
    · exact h.positive slot' taken htaken
  placed := by
    have hkeys : (s.create key slot places).slots.keys = insert slot s.slots.keys := rfl
    have hplaced := h.placed
    rw [placesTaken] at hplaced ⊢
    rw [hkeys]
    simp only [placesOf_create]
    cases hslot : s.slots slot with
    | none =>
      have hnot : slot ∉ s.slots.keys := eq_none_iff.1 hslot
      have hsum := hroom hslot
      rw [placesTaken] at hsum
      rw [Finset.sum_insert hnot, if_pos ⟨rfl, rfl⟩, Nat.add_comm]
      refine le_of_eq_of_le (congrArg (· + places) (Finset.sum_congr rfl fun slot' hmem => ?_)) hsum
      rw [if_neg]
      rintro ⟨rfl, -⟩
      exact hnot hmem
    | some taken =>
      rw [Finset.insert_eq_of_mem (isSome_of_eq hslot)]
      simpa using hplaced

theorem LiveAt.create (h : s.Inv) (hkey : s.loads key = none) (slot : Slot)
    (places : ℕ) (hne : load ≠ s.created.length) : (s.create key slot places).LiveAt load := by
  intro l hl
  simp only [LoadsState.create] at hl
  rw [getElem?_append] at hl
  split_ifs at hl with hlt
  · rw [← h.live load l hl]
    simp only [LoadsState.create, insert_apply]
    split_ifs with heq
    · rw [heq, hkey, Option.some.injEq]
      simp [Ne.symm hne]
    · rfl
  · have := (List.getElem?_eq_some_iff.1 hl).1
    simp only [length_singleton] at this
    omega

/-- A reader is handed a load that is live. -/
theorem inv_read (h : s.Counted) (hl : s.created[load]? = some l)
    (hload : s.loads l.key = some load) (hlive : ∀ i ≠ load, s.LiveAt i) : (s.read load).Inv := by
  refine ⟨h.modify (f := fun l => { l with readers := l.readers + 1 }) (fun _ => ⟨rfl, rfl, rfl⟩)
    (fun l' hl' => ?_) (fun i hne => ?_) ?_, fun i => ?_⟩
  · have := h.readers load l' hl'
    simp only [count_append, count_singleton, beq_self_eq_true, if_true]
    omega
  · simp [count_append, Ne.symm hne]
  · intro handle hmem
    rcases mem_append.1 hmem with hmem | hmem
    · exact h.held handle hmem
    · rw [mem_singleton] at hmem
      subst hmem
      exact (List.getElem?_eq_some_iff.1 hl).1
  · rcases eq_or_ne i load with rfl | hne
    · intro l' hl'
      obtain ⟨old, hold, rfl⟩ := exists_of_modify hl'
      rw [hl, Option.some.injEq] at hold
      subst hold
      simp [LoadsState.read, hload]
    · exact (hlive i hne).modify (Ne.symm hne) _

theorem Inv.sharedLoad (h : s.Inv) (key : Key) (slot : Slot) (places : ℕ) :
    (s.sharedLoad key slot places).Inv := by
  rw [LoadsState.sharedLoad]
  cases hkey : s.loads key with
  | some load =>
    obtain ⟨l, hl, rfl⟩ := h.counted.known key load hkey
    exact inv_read h.counted hl hkey fun i _ => h.live i
  | none =>
    simp only
    split_ifs with hbusy
    · exact h
    · have hcounted : (s.create key slot places).Counted := h.counted.create hkey fun hslot => by
        by_contra hlt
        exact hbusy ⟨hslot, by omega⟩
      refine inv_read (l := ⟨key, slot, places, 0, false⟩) hcounted ?_ ?_ fun i hne =>
        LiveAt.create h hkey slot places hne
      · simp [create]
      · simp [create]

/-! ### Runs -/

theorem Inv.settle (h : s.Inv) (load : ℕ) : (s.settle load).Inv := by
  refine (h.counted.modify (f := fun l => { l with settled := true }) (fun _ => ⟨rfl, rfl, rfl⟩)
    (fun l hl => h.counted.readers load l hl) (fun _ _ => rfl) h.counted.held).done
      (fun i hne => (h.live i).modify (Ne.symm hne) _) ?_
  intro l hl hnot
  obtain ⟨old, hold, rfl⟩ := exists_of_modify hl
  rw [if_pos rfl] at hnot ⊢
  refine (h.live load old hold).2 fun hdone => hnot ⟨rfl, hdone.2⟩

theorem Inv.release (h : s.Inv) {handle : ℕ}
    (hhandle : s.handles[handle]? = some (load, false)) : (s.release handle load).Inv := by
  obtain ⟨hlt, hget⟩ := List.getElem?_eq_some_iff.1 hhandle
  have hcount : ∀ i, (s.handles.set handle (load, true)).count (i, false) =
      s.handles.count (i, false) - if i = load then 1 else 0 := by
    intro i
    rw [count_set hlt, hget]
    by_cases heq : i = load
    · simp [heq]
    · simp [heq, Ne.symm heq]
  have hpos : 0 < s.handles.count (load, false) := count_pos_iff.2 (mem_of_getElem? hhandle)
  refine (h.counted.modify (f := fun l => { l with readers := l.readers - 1 })
    (fun _ => ⟨rfl, rfl, rfl⟩) (fun l hl => ?_) (fun i hne => ?_) fun p hmem => ?_).done
      (fun i hne => (h.live i).modify (Ne.symm hne) _) ?_
  · rw [hcount, if_pos rfl, ← h.counted.readers load l hl]
  · rw [hcount, if_neg hne, Nat.sub_zero]
  · rcases mem_or_eq_of_mem_set hmem with hmem | rfl
    · exact h.counted.held p hmem
    · have hbound := h.counted.held _ (mem_of_getElem? hhandle)
      exact hbound
  · intro l hl _
    obtain ⟨old, hold, rfl⟩ := exists_of_modify hl
    rw [if_pos rfl]
    refine (h.live load old hold).2 fun hdone => ?_
    have := h.counted.readers load old hold
    omega

variable {label : LoadLabel Key Slot} {s' : LoadsState Key Slot}

/-- Every step keeps the counts right. -/
theorem Inv.step (h : s.Inv) (hst : machine.step s label = some s') : s'.Inv := by
  cases label with
  | call key slot places =>
    simp only [machine, Option.some.injEq] at hst
    exact hst ▸ h.sharedLoad key slot places
  | settle load =>
    simp only [machine] at hst
    split at hst
    · rw [Option.some.injEq] at hst
      exact hst ▸ h.settle load
    · cases hst
  | release handle =>
    simp only [machine] at hst
    split at hst
    · cases hst
    · rw [Option.some.injEq] at hst
      exact hst ▸ h
    · rename_i load hhandle
      rw [Option.some.injEq] at hst
      exact hst ▸ h.release hhandle

/-! ### The places -/

/-- A call that starts a load in a slot already held asks for no more places than it takes. -/
def FitsSlot (s : LoadsState Key Slot) : LoadLabel Key Slot → Prop
  | .call key slot places =>
    s.loads key = none → s.slots slot ≠ none → places ≤ placesOf s.slots slot
  | _ => True

instance (s : LoadsState Key Slot) (label : LoadLabel Key Slot) : Decidable (s.FitsSlot label) :=
  match label with
  | .call key slot places => inferInstanceAs
      (Decidable (s.loads key = none → s.slots slot ≠ none → places ≤ placesOf s.slots slot))
  | .settle _ => instDecidableTrue
  | .release _ => instDecidableTrue

/-- Every live load asked for no more places than its slot takes. -/
def Fit (s : LoadsState Key Slot) : Prop :=
  ∀ key slot places, s.infoAt key = some (slot, places) → places ≤ placesOf s.slots slot

section

variable (h : s.Fit)
include h

theorem Fit.modify (hf : ∀ l, ((f l).slot, (f l).places) = (l.slot, l.places)) (load : ℕ)
    (handles : List (ℕ × Bool)) :
    Fit { s with created := s.created.modify load f, handles := handles } := by
  intro key slot places hinfo
  rw [infoAt_modify s hf] at hinfo
  exact h key slot places hinfo

theorem Fit.done (hinv : (s.done load).Inv) : (s.done load).Fit := by
  intro key slot places hinfo
  -- a slot with a live load is held
  have hheld : slot ∈ (s.done load).slots.keys := by
    by_contra hnot
    have hcard := hinv.counted.holding slot
    rw [eq_none_iff.2 hnot] at hcard
    exact (Finset.card_pos.2 ⟨key, mem_liveKeys.2 ⟨places, hinfo⟩⟩).ne hcard
  revert hinfo hheld
  rw [LoadsState.done]
  cases s.created[load]? with
  | none => exact fun hinfo _ => h key slot places hinfo
  | some l =>
    simp only
    split_ifs
    · exact fun hinfo _ => h key slot places hinfo
    · intro hinfo hheld
      rw [infoAt_erase] at hinfo
      split_ifs at hinfo
      rw [placesOf_leave hheld]
      exact h key slot places hinfo

theorem Fit.create (hcounted : s.Counted) {places : ℕ}
    (hfits : s.slots slot ≠ none → places ≤ placesOf s.slots slot) :
    (s.create key slot places).Fit := by
  intro key' slot' places' hinfo
  rw [infoAt_create hcounted] at hinfo
  rw [placesOf_create]
  split_ifs at hinfo with heq
  · simp only [Option.some.injEq, Prod.mk.injEq] at hinfo
    obtain ⟨rfl, rfl⟩ := hinfo
    split_ifs with hslot
    · exact le_rfl
    · exact hfits fun hnone => hslot ⟨rfl, hnone⟩
  · have hold := h key' slot' places' hinfo
    split_ifs with hslot
    · obtain ⟨rfl, hnone⟩ := hslot
      rw [placesOf, hnone] at hold
      exact hold.trans (Nat.zero_le _)
    · exact hold

theorem Fit.read (load : ℕ) : (s.read load).Fit :=
  h.modify (f := fun l => { l with readers := l.readers + 1 }) (fun _ => rfl) _ _

theorem Fit.sharedLoad (hinv : s.Inv) {places : ℕ}
    (hfits : s.FitsSlot (.call key slot places)) : (s.sharedLoad key slot places).Fit := by
  rw [LoadsState.sharedLoad]
  cases hkey : s.loads key with
  | some load => exact h.read load
  | none =>
    simp only
    split_ifs
    · exact h
    · exact (h.create hinv.counted (hfits hkey)).read _

theorem Fit.step (hinv : s.Inv) (hfits : s.FitsSlot label)
    (hst : machine.step s label = some s') : s'.Fit := by
  cases label with
  | call key slot places =>
    simp only [machine, Option.some.injEq] at hst
    exact hst ▸ h.sharedLoad hinv hfits
  | settle load =>
    simp only [machine] at hst
    split at hst
    · rw [Option.some.injEq] at hst
      subst hst
      exact (h.modify (f := fun l => { l with settled := true }) (fun _ => rfl) _ _).done
        (hinv.settle load)
    · cases hst
  | release handle =>
    simp only [machine] at hst
    split at hst
    · cases hst
    · rw [Option.some.injEq] at hst
      exact hst ▸ h
    · rename_i load hhandle
      rw [Option.some.injEq] at hst
      subst hst
      exact (h.modify (f := fun l => { l with readers := l.readers - 1 }) (fun _ => rfl) _ _).done
        (hinv.release hhandle)

/-- What is counted for a slot suffices for each of its loads. -/
theorem neededPlaces_le : s.neededPlaces ≤ placesTaken s.slots := by
  refine Finset.sum_le_sum fun slot _ => Finset.sup_le fun key hkey => ?_
  obtain ⟨places, hinfo⟩ := mem_liveKeys.1 hkey
  rw [hinfo]
  exact h key slot places hinfo

end

theorem Inv.mem_handles (h : s.Inv)
    (hl : s.created[load]? = some l) : l.readers = 0 ↔ (load, false) ∉ s.handles := by
  rw [h.counted.readers load l hl, count_eq_zero]

/-- Once every load is settled and released, none is counted. -/
theorem Inv.rest (h : s.Inv) (hsettled : ∀ l ∈ s.created, l.settled = true)
    (hreleased : ∀ handle ∈ s.handles, handle.2 = true) :
    placesTaken s.slots = 0 ∧ s.slots = ∅ ∧ s.loads = ∅ := by
  have hloads : s.loads = ∅ := by
    ext1 key
    cases hkey : s.loads key with
    | none => rfl
    | some load =>
      obtain ⟨l, hl, rfl⟩ := h.counted.known key load hkey
      refine absurd ⟨hsettled l (mem_of_getElem? hl), ?_⟩ ((h.live load l hl).1 hkey)
      rw [h.mem_handles hl]
      intro hmem
      cases hreleased _ hmem
  have hslots : s.slots = ∅ := by
    ext1 slot
    cases hslot : s.slots slot with
    | none => rfl
    | some taken =>
      have hcard := h.counted.holding slot
      have hpos := h.counted.positive slot taken hslot
      rw [hslot, liveKeys, hloads] at hcard
      simp only [map_some, getD_some] at hcard
      have hzero : taken.holding = 0 := hcard.trans (by rfl)
      omega
  exact ⟨by rw [hslots]; rfl, hslots, hloads⟩

theorem Inv.respects (h : s.Inv) (hfit : s.Fit) : s.Respects where
  places := (neededPlaces_le hfit).trans h.counted.placed
  holding := h.counted.holding
  live load l hl := by
    rw [h.live load l hl, h.mem_handles hl]
  rest := h.rest

end LoadsState

open LoadsState

/-- **The loads respect their places in every run whose calls fit their slots**: one that starts a
load in a slot already held asks for no more places than the slot took with its first load. -/
theorem respects_of_fitting {s : LoadsState Key Slot}
    (h : machine.ReachableUnder FitsSlot .init s) : s.Respects := by
  have hboth : s.Inv ∧ s.Fit := by
    refine h.invariant (I := fun t => t.Inv ∧ t.Fit) ⟨inv_init, fun _ _ _ hinfo => ?_⟩
      fun t label t' ht hfits hst => ⟨ht.1.step hst, ht.2.step ht.1 hfits hst⟩
    simp [infoAt, init] at hinfo
  exact hboth.1.respects hboth.2

/-- Two loads of one slot, one of them done and released. -/
theorem respects_of_fitting_shared : ∃ s : LoadsState ℕ ℕ,
    machine.run .init [.call 1 1 1, .call 2 1 1, .settle 0, .release 0] = some s ∧ s.Respects := by
  have hrun : (machine.run (.init : LoadsState ℕ ℕ)
      [.call 1 1 1, .call 2 1 1, .settle 0, .release 0]).isSome = true := by decide +kernel
  obtain ⟨s, hs⟩ := isSome_iff_exists.1 hrun
  exact ⟨s, hs, respects_of_fitting (Machine.reachableUnder_of_run hs (by decide +kernel))⟩

/-- A load of four places that joins a slot of one is counted as one, so another load is started
beside them. -/
theorem not_respects_joined : ∃ s : LoadsState ℕ ℕ, machine.Reachable .init s ∧ ¬ s.Respects := by
  have hrun : ((machine.run (.init : LoadsState ℕ ℕ)
      [.call 1 1 1, .call 2 1 4, .call 3 3 1]).map neededPlaces) = some 5 := by decide +kernel
  obtain ⟨s, hs, hneeded⟩ := map_eq_some_iff.1 hrun
  refine ⟨s, Machine.reachable_of_run hs, fun h => ?_⟩
  have := h.places
  rw [hneeded] at this
  exact absurd this (by decide)

end Triage.Managed
