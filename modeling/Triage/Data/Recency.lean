import Mathlib.Algebra.Order.BigOperators.Group.List
import Mathlib.Algebra.Order.Ring.Nat
import Mathlib.Data.List.Nodup

/-!
# Entries by recency

Entries by key in the order of their last use, with the total of what they weigh. One that is used
goes to the end, and room is made from the front.

## Main results

* `evict_spec` : what goes is no more than has to, from the front.
-/

namespace Triage

open List Option Function

structure Recency (K E : Type*) where
  entries : List (K × E)
  total : ℕ

namespace Recency

variable {K E : Type*} [DecidableEq K] (weight : E → ℕ)

def lookup (r : Recency K E) (key : K) : Option E :=
  (r.entries.find? (·.1 = key)).map Prod.snd

/-- The entries of all other keys. -/
def others (key : K) (entries : List (K × E)) : List (K × E) := entries.filter (·.1 ≠ key)

def forget (key : K) (r : Recency K E) : Recency K E :=
  match r.lookup key with
  | none => r
  | some e => ⟨others key r.entries, r.total - weight e⟩

def touch (key : K) (r : Recency K E) : Recency K E :=
  match r.lookup key with
  | none => r
  | some e => { r with entries := others key r.entries ++ [(key, e)] }

def add (key : K) (e : E) (r : Recency K E) : Recency K E :=
  ⟨r.entries ++ [(key, e)], r.total + weight e⟩

/-- The keys go one after another, until it is enough. -/
def evict (enough : Recency K E → Bool) : List K → Recency K E → Recency K E
  | [], r => r
  | key :: keys, r => if enough r then r else evict enough keys (forget weight key r)

def weightOf (entries : List (K × E)) : ℕ := (entries.map fun x => weight x.2).sum

structure Sound (r : Recency K E) : Prop where
  nodup : (r.entries.map Prod.fst).Nodup
  total : r.total = weightOf weight r.entries

/-- The entries are in the order of their last use. -/
def Recent (used : K → ℕ) (r : Recency K E) : Prop :=
  r.entries.Pairwise fun a b => used a.1 < used b.1

variable {weight} {r : Recency K E} {key : K} {e : E}

theorem lookup_eq_some (h : Sound weight r) : r.lookup key = some e ↔ (key, e) ∈ r.entries := by
  rw [lookup, map_eq_some_iff]
  constructor
  · rintro ⟨x, hx, rfl⟩
    have hkey : x.1 = key := by simpa only [decide_eq_true_eq] using find?_some hx
    rw [← hkey]
    exact mem_of_find?_eq_some hx
  · intro hmem
    have hsome : (r.entries.find? (·.1 = key)).isSome :=
      find?_isSome.2 ⟨(key, e), hmem, decide_eq_true rfl⟩
    obtain ⟨x, hx⟩ := isSome_iff_exists.1 hsome
    have hkey : x.1 = key := by simpa only [decide_eq_true_eq] using find?_some hx
    refine ⟨x, hx, ?_⟩
    rw [inj_on_of_nodup_map h.nodup (mem_of_find?_eq_some hx) hmem hkey]

theorem mem_others {x : K × E} {entries : List (K × E)} :
    x ∈ others key entries ↔ x ∈ entries ∧ x.1 ≠ key := by
  rw [others, mem_filter, decide_eq_true_eq]

theorem others_of_lookup_eq_none (h : Sound weight r) (hnone : r.lookup key = none) :
    others key r.entries = r.entries := by
  refine List.filter_eq_self.2 fun x hx => decide_eq_true fun hkey => ?_
  have hsome : r.lookup key = some x.2 := (lookup_eq_some h).2 (hkey ▸ hx)
  exact some_ne_none _ (hsome.symm.trans hnone)

/-- The entries with one of them at the end. -/
theorem perm_others (h : Sound weight r) (hsome : r.lookup key = some e) :
    (others key r.entries ++ [(key, e)]).Perm r.entries := by
  obtain ⟨before, after, hsplit⟩ := append_of_mem ((lookup_eq_some h).1 hsome)
  have hnodup := h.nodup
  rw [hsplit, map_append, map_cons, nodup_middle, ← map_append] at hnodup
  have hkeep : ∀ part : List (K × E), part ⊆ before ++ after → others key part = part := by
    intro part hpart
    refine List.filter_eq_self.2 fun x hx => decide_eq_true fun hkey => ?_
    exact (nodup_cons.1 hnodup).1 (List.mem_map.2 ⟨x, hpart hx, hkey⟩)
  have hothers : others key r.entries = before ++ after := by
    rw [hsplit, others, filter_append, filter_cons_of_neg (by simp)]
    exact congrArg₂ _ (hkeep before (subset_append_left _ _))
      (hkeep after (subset_append_right _ _))
  rw [hothers, hsplit, append_assoc]
  exact (perm_append_singleton _ _).append_left _

omit [DecidableEq K] in
theorem weightOf_append (a b : List (K × E)) :
    weightOf weight (a ++ b) = weightOf weight a + weightOf weight b := by
  rw [weightOf, map_append, sum_append, weightOf, weightOf]

section

variable (h : Sound weight r)
include h

theorem weightOf_others (hsome : r.lookup key = some e) :
    weightOf weight (others key r.entries) + weight e = weightOf weight r.entries := by
  have hperm : weightOf weight (others key r.entries ++ [(key, e)]) = weightOf weight r.entries :=
    ((perm_others h hsome).map _).sum_eq
  rw [← hperm, weightOf_append]
  rfl

theorem nodup_others : ((others key r.entries).map Prod.fst).Nodup :=
  h.nodup.sublist (filter_sublist.map _)

/-- What goes is the one entry. -/
theorem forget_eq (key : K) :
    forget weight key r = ⟨others key r.entries, weightOf weight (others key r.entries)⟩ := by
  rw [forget]
  cases hlookup : r.lookup key with
  | none =>
    rw [others_of_lookup_eq_none h hlookup, ← h.total]
  | some e =>
    rw [h.total, ← weightOf_others h hlookup]
    dsimp only
    rw [Nat.add_sub_cancel]

theorem Sound.forget (key : K) : Sound weight (forget weight key r) := by
  rw [forget_eq h]
  exact ⟨nodup_others h, rfl⟩

theorem Sound.touch (key : K) : Sound weight (touch key r) := by
  rw [Recency.touch]
  split
  · exact h
  · rename_i e hsome
    have hperm := perm_others h hsome
    exact ⟨(hperm.map _).nodup_iff.2 h.nodup, h.total.trans (hperm.map _).sum_eq.symm⟩

omit [DecidableEq K] in
theorem Sound.add (hkey : ∀ x ∈ r.entries, x.1 ≠ key) : Sound weight (add weight key e r) := by
  refine ⟨?_, ?_⟩
  · rw [Recency.add, map_append]
    refine h.nodup.append (nodup_singleton _) fun k hk hk' => ?_
    obtain ⟨x, hx, rfl⟩ := List.mem_map.1 hk
    exact hkey x hx (mem_singleton.1 hk')
  · rw [Recency.add, weightOf_append, ← h.total]
    rfl

end

/-- **What goes** is no more than has to, from the front. -/
theorem evict_spec (enough : Recency K E → Bool) (h : Sound weight r) :
    ∃ n, evict weight enough (r.entries.map Prod.fst) r =
        ⟨r.entries.drop n, weightOf weight (r.entries.drop n)⟩ ∧
      (∀ m < n, enough ⟨r.entries.drop m, weightOf weight (r.entries.drop m)⟩ = false) ∧
      (enough ⟨r.entries.drop n, weightOf weight (r.entries.drop n)⟩ = true ∨
        r.entries.drop n = []) := by
  obtain ⟨entries, total⟩ := r
  induction entries generalizing total with
  | nil =>
    refine ⟨0, ?_, fun m hm => absurd hm (Nat.not_lt_zero m), .inr rfl⟩
    rw [map_nil, evict]
    exact congrArg _ h.total
  | cons x rest ih =>
    rw [map_cons, evict]
    split
    · rename_i henough
      refine ⟨0, congrArg _ h.total, fun m hm => absurd hm (Nat.not_lt_zero m), .inl ?_⟩
      rw [drop_zero, ← h.total]
      exact henough
    · rename_i hmore
      have hforget := forget_eq h x.1
      have hrest : others x.1 (x :: rest) = rest := by
        have hnodup := h.nodup
        rw [map_cons, nodup_cons] at hnodup
        rw [others, filter_cons_of_neg (by simp)]
        refine List.filter_eq_self.2 fun y hy => decide_eq_true fun hkey => hnodup.1 ?_
        rw [← hkey]
        exact List.mem_map_of_mem hy
      dsimp only at hforget
      rw [hrest] at hforget
      have hsound := h.forget x.1
      rw [hforget] at hsound ⊢
      obtain ⟨n, heq, hmin, hend⟩ := ih _ hsound
      refine ⟨n + 1, heq, fun m hm => ?_, hend⟩
      cases m with
      | zero =>
        rw [drop_zero, ← h.total]
        exact Bool.eq_false_iff.2 hmore
      | succ m => exact hmin m (by omega)

/-- One that is used is the last, then. -/
theorem Recent.use {entries : List (K × E)} {used : K → ℕ} {now : ℕ}
    (h : (others key entries).Pairwise fun a b => used a.1 < used b.1)
    (hnow : ∀ x ∈ entries, used x.1 < now) :
    (others key entries ++ [(key, e)]).Pairwise fun a b =>
      update used key now a.1 < update used key now b.1 := by
  refine pairwise_append.2 ⟨h.imp_of_mem fun {a b} ha hb hab => ?_,
    pairwise_singleton _ _, fun a ha b hb => ?_⟩
  · rw [update_of_ne (mem_others.1 ha).2, update_of_ne (mem_others.1 hb).2]
    exact hab
  · rw [mem_singleton.1 hb, update_self, update_of_ne (mem_others.1 ha).2]
    exact hnow a (mem_others.1 ha).1

end Recency

end Triage
