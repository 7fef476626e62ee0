import Triage.Data.Grouping
import Mathlib.Algebra.BigOperators.Group.List.Lemmas
import Mathlib.Algebra.Order.BigOperators.Group.List
import Mathlib.Data.List.Perm.Lattice
import Mathlib.Tactic.Linarith

/-!
# Counting by key

A loop that adds a weight to the count of each element's key counts, for every key, the weights of
its elements. Sets and maps keep the order in which their keys were first seen.

## Main results

* `get_tally` : the count of a key is the sum of its weights.
* `perm_removed`, `sum_removed` : what is left of a list without some of its elements.
-/

namespace Triage.Grouping

open List Prod

variable {K V α : Type*} [DecidableEq K] [DecidableEq α]

/-! ### Sets and maps of a list -/

/-- The elements of a list, each where it first occurs. -/
def newSet (xs : List α) : List α := xs.foldl (fun s x => if x ∈ s then s else s ++ [x]) []

theorem newSet_append_singleton (xs : List α) (x : α) :
    newSet (xs ++ [x]) = if x ∈ newSet xs then newSet xs else newSet xs ++ [x] := by
  rw [newSet, foldl_append]
  rfl

variable {xs ys : List α} {w : α → ℤ}

theorem mem_newSet {x : α} : x ∈ newSet xs ↔ x ∈ xs := by
  induction xs using reverseRecOn with
  | nil => rfl
  | append_singleton xs y ih =>
    rw [newSet_append_singleton, mem_append, mem_singleton, ← ih]
    split
    · rename_i hy
      exact ⟨.inl, fun h => h.elim id fun h => h ▸ hy⟩
    · rw [mem_append, mem_singleton]

/-- The first element comes first. -/
theorem head?_newSet (xs : List α) : (newSet xs).head? = xs.head? := by
  induction xs using reverseRecOn with
  | nil => rfl
  | append_singleton xs x ih =>
    have hhead : ((newSet xs) ++ [x]).head? = (xs ++ [x]).head? := by
      rw [head?_append, head?_append, ih]
    rw [newSet_append_singleton]
    split
    · rename_i hmem
      have hne : xs ≠ [] := ne_nil_of_mem (mem_newSet.1 hmem)
      rw [ih, head?_append_of_ne_nil _ hne]
    · exact hhead

theorem nodup_newSet (xs : List α) : (newSet xs).Nodup := by
  induction xs using reverseRecOn with
  | nil => exact nodup_nil
  | append_singleton xs y ih =>
    rw [newSet_append_singleton]
    split
    · exact ih
    · rename_i hy
      exact ih.append (nodup_singleton y) (by simpa using hy)

/-- The map of a list of pairs; the last pair of a key gives its value. -/
def newMap (es : List (K × V)) : List (K × V) :=
  es.foldl (fun m e => alter e.1 (fun _ => e.2) m) []

theorem alter_of_notMem {k : K} {f : Option V → V} {m : List (K × V)}
    (h : k ∉ m.map fst) : alter k f m = m ++ [(k, f none)] := by
  induction m with
  | nil => rfl
  | cons e m ih =>
    obtain ⟨l, v⟩ := e
    rw [map_cons, mem_cons, not_or] at h
    rw [alter, if_neg (Ne.symm h.1), ih h.2, cons_append]

variable {es : List (K × V)}

/-- A list that repeats no key is its map. -/
theorem newMap_eq_self (h : (es.map fst).Nodup) : newMap es = es := by
  induction es using reverseRecOn with
  | nil => rfl
  | append_singleton es e ih =>
    rw [map_append, nodup_append] at h
    have hnew : e.1 ∉ es.map fst := fun hmem => h.2.2 e.1 hmem e.1 (by simp) rfl
    rw [newMap, foldl_append, ← newMap, ih h.1]
    exact alter_of_notMem hnew

/-! ### Tallies -/

section Tally

variable [AddMonoid V]

/-- The sums of weights by key. -/
def tally (es : List (K × V)) : List (K × V) :=
  es.foldl (fun m e => alter e.1 (fun v => v.getD 0 + e.2) m) []

theorem tally_append (es fs : List (K × V)) :
    tally (es ++ fs) = fs.foldl (fun m e => alter e.1 (fun v => v.getD 0 + e.2) m) (tally es) := by
  rw [tally, foldl_append]
  rfl

/-- A tally is a collection of the weights. -/
theorem tally_eq_collect (es : List (K × V)) :
    tally es = collect fst (fun e => e.2) (fun e v => v + e.2) es := by
  have hstep : (fun (m : List (K × V)) (e : K × V) => alter e.1 (fun v => v.getD 0 + e.2) m) =
      fun m e => alter e.1 (gather (fun e => e.2) (fun e v => v + e.2) e) m := by
    funext m e
    congr 1
    funext v
    cases v with
    | none => exact zero_add e.2
    | some v => rfl
  rw [tally, hstep, collect]

theorem nodup_keys_tally (es : List (K × V)) : ((tally es).map fst).Nodup := by
  rw [tally_eq_collect]
  exact nodup_keys_collect es

theorem mem_keys_tally {k : K} : k ∈ (tally es).map fst ↔ k ∈ es.map fst := by
  rw [tally_eq_collect, mem_keys_collect, mem_map]

/-- **The count of a key** is the sum of its weights. -/
theorem get_tally (es : List (K × V)) (k : K) :
    (get k (tally es)).getD 0 = ((es.filter (·.1 = k)).map snd).sum := by
  induction es using reverseRecOn with
  | nil => rfl
  | append_singleton es e ih =>
    rw [tally_append, foldl_cons, foldl_nil, get_alter, filter_append, map_append, sum_append, ← ih]
    by_cases hk : k = e.1
    · subst hk
      simp
    · simp [hk, Ne.symm hk]

/-- An entry of a tally is the sum of the weights of its key. -/
theorem eq_sum_of_mem_tally {k : K} {v : V} (h : (k, v) ∈ tally es) :
    v = ((es.filter (·.1 = k)).map snd).sum := by
  rw [← get_tally, get_eq_of_mem (nodup_keys_tally es) h, Option.getD_some]

end Tally

/-! ### Taking elements out -/

/-- Some elements of a list and the rest of it. -/
theorem perm_removed (hxs : xs.Nodup) (hys : ys.Nodup) (h : ys ⊆ xs) :
    (ys ++ xs.filter (· ∉ ys)).Perm xs := by
  have hin : (xs.filter (· ∈ ys)).Perm ys := by
    rw [perm_ext_iff_of_nodup (hxs.filter _) hys]
    intro x
    simp only [mem_filter, decide_eq_true_eq]
    exact and_iff_right_of_imp fun hx => h hx
  have hsplit := filter_append_perm (fun x => decide (x ∈ ys)) xs
  have hnot : xs.filter (fun x => !decide (x ∈ ys)) = xs.filter (· ∉ ys) := by
    simp only [decide_not]
  rw [hnot] at hsplit
  exact (hin.symm.append_right _).trans hsplit

section

omit [DecidableEq α]

/-- What a test leaves out does not count if it weighs nothing. -/
theorem sum_filter_of_zero {f : α → Bool}
    (h : ∀ x ∈ xs, f x = false → w x = 0) : ((xs.filter f).map w).sum = (xs.map w).sum := by
  induction xs with
  | nil => rfl
  | cons x xs ih =>
    have hrest := ih fun y hy => h y (mem_cons_of_mem _ hy)
    rcases hx : f x with _ | _
    · rw [filter_cons_of_neg (by simp [hx]), map_cons, sum_cons, hrest,
        h x mem_cons_self hx, zero_add]
    · rw [filter_cons_of_pos hx, map_cons, sum_cons, hrest, map_cons, sum_cons]

/-- The sum over a list does not depend on its order. -/
theorem sum_eq_of_perm (h : xs.Perm ys) (w : α → ℤ) :
    (xs.map w).sum = (ys.map w).sum := (h.map w).sum_eq

/-- Weights that are not negative and sum to nothing are zero. -/
theorem eq_zero_of_sum_le (hw : ∀ x, 0 ≤ w x) (h : (xs.map w).sum ≤ 0) : ∀ x ∈ xs, w x = 0 := by
  have hsum : ∀ ys : List α, 0 ≤ (ys.map w).sum := by
    intro ys
    induction ys with
    | nil => exact le_rfl
    | cons y ys ih =>
      rw [map_cons, sum_cons]
      exact add_nonneg (hw y) ih
  induction xs with
  | nil => exact fun x hx => absurd hx not_mem_nil
  | cons y ys ih =>
    rw [map_cons, sum_cons] at h
    have hy := hw y
    have hys := hsum ys
    intro x hx
    rcases mem_cons.mp hx with rfl | hx
    · omega
    · exact ih (by omega) x hx

/-- What two tests that exclude each other pick out is what either does. -/
theorem filter_or_perm {p q : α → Bool} (xs : List α) (h : ∀ x, p x = true → q x = false) :
    (xs.filter p ++ xs.filter q).Perm (xs.filter fun x => p x || q x) := by
  induction xs with
  | nil => exact .refl _
  | cons x xs ih =>
    rcases hp : p x with _ | _
    · rcases hq : q x with _ | _
      · simpa only [filter_cons, hp, hq, Bool.or_false, Bool.false_eq_true, if_false] using ih
      · simp only [filter_cons, hp, hq, Bool.or_true, Bool.false_eq_true, if_false, if_true]
        exact perm_middle.trans (ih.cons x)
    · simp only [filter_cons, hp, h x hp, Bool.or_false, Bool.false_eq_true, if_false,
        if_true, cons_append]
      exact ih.cons x

end

/-- The sum over the rest is the sum without theirs. -/
theorem sum_removed (hxs : xs.Nodup) (hys : ys.Nodup) (h : ys ⊆ xs) (f : α → ℤ) :
    ((xs.filter (· ∉ ys)).map f).sum = (xs.map f).sum - (ys.map f).sum := by
  have hsum := ((perm_removed hxs hys h).map f).sum_eq
  rw [map_append, sum_append] at hsum
  omega

end Triage.Grouping
