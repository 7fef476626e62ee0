import Mathlib.Algebra.BigOperators.Group.List.Basic
import Mathlib.Algebra.Ring.Int.Defs
import Mathlib.Data.List.Rotate
import Mathlib.Data.Nat.Cast.Basic

/-!
# Weights above the diagonal

The rows and columns of a matrix are put in one order; what is above its diagonal is the weight of
each row in the columns after it. Two neighbours that change places change just their own weights,
and a first row that becomes the last changes those of its row and its column.

## Main results

* `Diagonal.above_swap`, `Diagonal.above_rotate` : neighbours change places, the first comes last.
* `Diagonal.above_eq_sum` : the weights by the places of their rows and columns.
-/

namespace Triage.Diagonal

open List

variable {V : Type*} (c : V → V → ℕ)

def above : List V → ℕ
  | [] => 0
  | v :: vs => (vs.map (c v)).sum + above vs

def balance (vs : List V) (v : V) : ℤ := (vs.map (c v)).sum - (vs.map fun w => c w v).sum

variable {c} {vs ws pre post : List V} {a b v : V}

theorem above_append : above c (vs ++ ws) =
    above c vs + above c ws + (vs.map fun v => (ws.map (c v)).sum).sum := by
  induction vs with
  | nil => simp [above]
  | cons v vs ih =>
    rw [cons_append, above, ih, above, map_append, sum_append, map_cons, sum_cons]
    omega

theorem above_swap (c : V → V → ℕ) (pre : List V) (a b : V) (post : List V) :
    above c (pre ++ b :: a :: post) + c a b = above c (pre ++ a :: b :: post) + c b a := by
  rw [above_append, above_append]
  have hcross : (pre.map fun v => ((b :: a :: post).map (c v)).sum) =
      pre.map fun v => ((a :: b :: post).map (c v)).sum := by
    refine map_congr_left fun v _ => ?_
    simp only [map_cons, sum_cons]
    omega
  rw [hcross]
  simp only [above, map_cons, sum_cons]
  omega

/-- The first comes last. -/
theorem above_rotate : (above c (vs ++ [v]) : ℤ) = above c (v :: vs) - balance c vs v := by
  have hlast : (vs.map fun w => ([v].map (c w)).sum) = vs.map fun w => c w v := by
    refine map_congr_left fun w _ => ?_
    rw [map_singleton, sum_singleton]
  rw [above_append, hlast, balance, above, above, above, map_nil, sum_nil]
  push_cast
  omega

theorem above_congr {c' : V → V → ℕ} (hvs : vs.Nodup)
    (hc : ∀ v ∈ vs, ∀ w ∈ vs, v ≠ w → c v w = c' v w) : above c vs = above c' vs := by
  induction vs with
  | nil => rfl
  | cons v vs ih =>
    rw [nodup_cons] at hvs
    rw [above, above, ih hvs.2 fun v hv w hw =>
      hc v (mem_cons_of_mem _ hv) w (mem_cons_of_mem _ hw)]
    congr 2
    refine map_congr_left fun w hw => hc v mem_cons_self w (mem_cons_of_mem _ hw) ?_
    rintro rfl
    exact hvs.1 hw

theorem balance_perm (h : vs.Perm ws) : balance c vs v = balance c ws v := by
  rw [balance, balance, (h.map (c v)).sum_eq, (h.map fun w => c w v).sum_eq]

theorem balance_cons : balance c (a :: vs) v = c v a - c a v + balance c vs v := by
  rw [balance, balance, map_cons, sum_cons, map_cons, sum_cons]
  push_cast
  omega

variable [DecidableEq V]

theorem above_eq_sum (hvs : vs.Nodup) : above c vs = (vs.map fun v =>
    (vs.map fun w => if vs.idxOf v < vs.idxOf w then c v w else 0).sum).sum := by
  induction vs with
  | nil => rfl
  | cons v vs ih =>
    rw [nodup_cons] at hvs
    have hne : ∀ w ∈ vs, v ≠ w := by
      rintro w hw rfl
      exact hvs.1 hw
    have hfirst : (vs.map fun w =>
        if (v :: vs).idxOf v < (v :: vs).idxOf w then c v w else 0) = vs.map (c v) := by
      refine map_congr_left fun w hw => if_pos ?_
      rw [idxOf_cons_self, idxOf_cons_ne _ (hne w hw)]
      exact Nat.succ_pos _
    have hrest : (vs.map fun u => ((v :: vs).map fun w =>
        if (v :: vs).idxOf u < (v :: vs).idxOf w then c u w else 0).sum) =
        vs.map fun u => (vs.map fun w => if vs.idxOf u < vs.idxOf w then c u w else 0).sum := by
      refine map_congr_left fun u hu => ?_
      rw [map_cons, sum_cons, idxOf_cons_self, if_neg (Nat.not_lt_zero _), Nat.zero_add]
      congr 1
      refine map_congr_left fun w hw => ?_
      rw [idxOf_cons_ne _ (hne u hu), idxOf_cons_ne _ (hne w hw)]
      exact if_congr Nat.succ_lt_succ_iff rfl rfl
    rw [above, ih hvs.2, map_cons, sum_cons, hrest, map_cons, sum_cons, hfirst,
      if_neg (Nat.lt_irrefl _), Nat.zero_add]

/-! ### Weights by key -/

/-- What is listed under a key. -/
def keySum (l : List (V × ℕ)) (v : V) : ℕ := ((l.filter (·.1 = v)).map Prod.snd).sum

theorem keySum_cons (e : V × ℕ) (l : List (V × ℕ)) :
    keySum (e :: l) v = (if e.1 = v then e.2 else 0) + keySum l v := by
  rw [keySum, keySum, filter_cons]
  split
  · rename_i he
    rw [decide_eq_true_iff] at he
    rw [if_pos he, map_cons, sum_cons]
  · rename_i he
    rw [decide_eq_true_iff] at he
    rw [if_neg he, Nat.zero_add]

theorem keySum_append (l m : List (V × ℕ)) : keySum (l ++ m) v = keySum l v + keySum m v := by
  rw [keySum, filter_append, map_append, sum_append, ← keySum, ← keySum]

/-- A list under one key. -/
theorem keySum_map (l : List (V × ℕ)) :
    keySum (l.map fun e => (a, e.2)) v = if a = v then (l.map Prod.snd).sum else 0 := by
  induction l with
  | nil => simp [keySum]
  | cons e l ih =>
    rw [map_cons, keySum_cons, ih, map_cons, sum_cons]
    split <;> rfl

theorem sum_filter_ne (f g : V → ℕ) (hfg : ∀ w, w ≠ v → f w = g w) (hv : f v = 0)
    (vs : List V) : (vs.map f).sum = ((vs.filter (· ≠ v)).map g).sum := by
  induction vs with
  | nil => rfl
  | cons w vs ih =>
    rw [map_cons, sum_cons, filter_cons, ih]
    by_cases hw : w = v
    · subst hw
      rw [if_neg (by simp), hv, Nat.zero_add]
    · rw [if_pos (decide_eq_true hw), map_cons, sum_cons, hfg w hw]

theorem sum_single {x : V → ℕ} (hvs : vs.Nodup) :
    (vs.map fun w => if a = w then x w else 0).sum = if a ∈ vs then x a else 0 := by
  induction vs with
  | nil => rfl
  | cons v vs ih =>
    rw [nodup_cons] at hvs
    rw [map_cons, sum_cons, ih hvs.2]
    by_cases hav : a = v
    · subst hav
      rw [if_pos rfl, if_neg hvs.1, if_pos mem_cons_self, Nat.add_zero]
    · rw [if_neg hav, Nat.zero_add]
      exact if_congr (by rw [mem_cons, or_iff_right hav]) rfl rfl

/-- What is listed under some of the keys. -/
theorem sum_keySum {P : V → Prop} [DecidablePred P] (hvs : vs.Nodup) (l : List (V × ℕ))
    (hl : ∀ e ∈ l, P e.1 → e.1 ∈ vs) : (l.map fun e => if P e.1 then e.2 else 0).sum =
      (vs.map fun v => if P v then keySum l v else 0).sum := by
  induction l with
  | nil => simp [keySum]
  | cons e l ih =>
    have hsplit : (vs.map fun v => if P v then keySum (e :: l) v else 0) = vs.map fun v =>
        (if e.1 = v then if P v then e.2 else 0 else 0) + if P v then keySum l v else 0 := by
      refine map_congr_left fun v _ => ?_
      rw [keySum_cons]
      split_ifs <;> rfl
    rw [map_cons, sum_cons, ih fun e he => hl e (mem_cons_of_mem _ he), hsplit,
      sum_map_add, sum_single hvs]
    congr 1
    by_cases hP : P e.1
    · rw [if_pos (hl e mem_cons_self hP)]
    · rw [if_neg hP]
      split <;> rfl

end Triage.Diagonal
