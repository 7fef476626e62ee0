import Mathlib.Data.Finset.Union
import Mathlib.Data.Fintype.Card

/-!
# Finite maps

A finite map is a function into an option type together with the finite set of keys where it has a
value. The key set is determined by the function, so two finite maps with the same values are
equal; and it is data, so emptiness, counting and equality of maps can be computed.

## Main results

* `FMap.ext` : a finite map is determined by its values.
-/

namespace Triage

/-- A finite map from `K` to `V`. -/
structure FMap (K : Type*) (V : Type*) where
  /-- The value at a key. -/
  get : K → Option V
  /-- The keys that have one. -/
  keys : Finset K
  mem_keys : ∀ k, k ∈ keys ↔ (get k).isSome

namespace FMap

variable {K V : Type*}

instance : CoeFun (FMap K V) fun _ => K → Option V := ⟨FMap.get⟩

@[ext] theorem ext {m m' : FMap K V} (h : ∀ k, m k = m' k) : m = m' := by
  obtain ⟨f, s, hs⟩ := m
  obtain ⟨f', s', hs'⟩ := m'
  have hf : f = f' := funext h
  subst hf
  have hss : s = s' := Finset.ext fun k => (hs k).trans (hs' k).symm
  subst hss
  rfl

/-- The map without values. -/
def empty : FMap K V where
  get _ := none
  keys := ∅
  mem_keys k := by simp

instance : EmptyCollection (FMap K V) := ⟨empty⟩

instance : Inhabited (FMap K V) := ⟨∅⟩

@[simp] theorem get_empty (k : K) : (∅ : FMap K V) k = none := rfl

theorem isSome_of_eq {m : FMap K V} {k : K} {v : V} (h : m k = some v) : k ∈ m.keys := by
  rw [m.mem_keys, h]
  rfl

theorem eq_none_iff {m : FMap K V} {k : K} : m k = none ↔ k ∉ m.keys := by
  rw [m.mem_keys, Option.not_isSome_iff_eq_none]

variable [DecidableEq K]

/-- The map with the value `v` at `k`. -/
def insert (m : FMap K V) (k : K) (v : V) : FMap K V where
  get := Function.update m.get k (some v)
  keys := Insert.insert k m.keys
  mem_keys k' := by
    rcases eq_or_ne k' k with rfl | h
    · simp
    · simp [h, m.mem_keys]

/-- The map without a value at `k`. -/
def erase (m : FMap K V) (k : K) : FMap K V where
  get := Function.update m.get k none
  keys := m.keys.erase k
  mem_keys k' := by
    rcases eq_or_ne k' k with rfl | h
    · simp
    · simp [h, m.mem_keys]

/-- The map with the values of `f` on the keys `s`. -/
def ofKeys (s : Finset K) (f : K → Option V) : FMap K V where
  get k := if k ∈ s then f k else none
  keys := s.filter fun k => (f k).isSome
  mem_keys k := by
    by_cases h : k ∈ s <;> simp [h]

variable (m : FMap K V)

@[simp] theorem insert_self (k : K) (v : V) : m.insert k v k = some v := by simp [insert]

@[simp] theorem erase_self (k : K) : m.erase k k = none := by simp [erase]

theorem insert_of_ne {k k' : K} (h : k' ≠ k) (v : V) : m.insert k v k' = m k' := by
  simp [insert, h]

theorem erase_of_ne {k k' : K} (h : k' ≠ k) : m.erase k k' = m k' := by simp [erase, h]

theorem insert_apply (k k' : K) (v : V) : m.insert k v k' = if k' = k then some v else m k' := by
  split_ifs with h
  · rw [h, insert_self]
  · exact insert_of_ne m h v

theorem erase_apply (k k' : K) : m.erase k k' = if k' = k then none else m k' := by
  split_ifs with h
  · rw [h, erase_self]
  · exact erase_of_ne m h

theorem ofKeys_apply (s : Finset K) (f : K → Option V) (k : K) :
    ofKeys s f k = if k ∈ s then f k else none := rfl

instance [DecidableEq V] : DecidableEq (FMap K V) := fun m m' =>
  decidable_of_iff (∀ k ∈ m.keys ∪ m'.keys, m k = m' k) <| by
    constructor
    · intro h
      ext1 k
      by_cases hk : k ∈ m.keys ∪ m'.keys
      · exact h k hk
      · rw [Finset.mem_union, not_or] at hk
        rw [eq_none_iff.mpr hk.1, eq_none_iff.mpr hk.2]
    · rintro rfl k -
      rfl

end FMap

end Triage
