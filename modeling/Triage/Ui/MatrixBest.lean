import Triage.Ui.MatrixGreedy

/-!
# The best order of a cyclic group

Each swap of neighbours puts more imports above the diagonal, and of the rotations of an order the
one with the most is found by a running difference; an order takes the place of the given one only
where it has more.

## Main results

* `forwardImports_eq` : the imports that are counted are those above the diagonal.
* `rotateOrder_spec` : no rotation has more above the diagonal.
* `cyclic_ordered` : the order is one of the given rows, and no worse.
-/

namespace Triage.MatrixOrder

open Diagonal List Option

variable {V : Type*} [DecidableEq V] {ids order : List V} {cells : Cells V} {u v w : V}

/-- The imports that are counted are those above the diagonal. -/
theorem forwardImports_eq (cells : Cells V) (hids : ids.Nodup) (horder : order.Perm ids) :
    forwardImports ids cells order = above (links cells) order := by
  have hrow : ∀ v, ((outgoing ids cells v).map fun e =>
      if order.idxOf v < order.idxOf e.1 then e.2 else 0).sum =
      (order.map fun w => if order.idxOf v < order.idxOf w then links cells v w else 0).sum := by
    intro v
    rw [sum_outgoing v (P := fun w => order.idxOf v < order.idxOf w) hids]
    exact ((horder.map _).sum_eq).symm
  rw [forwardImports, above_eq_sum (horder.nodup_iff.2 hids)]
  simp only [hrow]
  exact ((horder.map _).sum_eq).symm

theorem above_count (horder : order.Nodup) :
    above (count cells) order = above (links cells) order :=
  above_congr horder fun _ _ _ _ hne => (if_neg hne).symm

/-! ### Neighbours -/

/-- An order with more above the diagonal, or with as much. -/
structure Improved (cells : Cells V) (order order' : List V) : Prop where
  perm : order'.Perm order
  le : above (links cells) order ≤ above (links cells) order'

theorem Improved.refl (order : List V) : Improved cells order order :=
  ⟨List.Perm.refl _, le_rfl⟩

theorem Improved.trans {a b c : List V} (h : Improved cells a b) (h' : Improved cells b c) :
    Improved cells a c :=
  ⟨h'.perm.trans h.perm, h.le.trans h'.le⟩

theorem improveStep_spec {s : List V × Bool} (hs : s.1.Nodup) (i : ℕ) :
    Improved cells s.1 (improveStep cells s i).1 := by
  rw [improveStep.eq_def]
  split
  · rename_i a b ha hb
    split
    · exact .refl s.1
    · rename_i hlt
      obtain ⟨hi, rfl⟩ := List.getElem?_eq_some_iff.1 ha
      obtain ⟨hi', rfl⟩ := List.getElem?_eq_some_iff.1 hb
      have hne : s.1[i] ≠ s.1[i + 1] := fun heq => by
        have hidx := (List.Nodup.getElem_inj_iff hs).1 heq
        omega
      have hold : s.1 = s.1.take i ++ s.1[i] :: s.1[i + 1] :: s.1.drop (i + 2) := by
        rw [← drop_eq_getElem_cons hi', ← drop_eq_getElem_cons hi, take_append_drop]
      have hnew : (s.1.set i s.1[i + 1]).set (i + 1) s.1[i] =
          s.1.take i ++ s.1[i + 1] :: s.1[i] :: s.1.drop (i + 2) := by
        have hlength : (s.1.take i).length = i := length_take_of_le hi.le
        have hset : s.1.set i s.1[i + 1] = s.1.take i ++ s.1[i + 1] :: s.1.drop (i + 1) := by
          rw [set_eq_take_append_cons_drop, if_pos hi]
        rw [hset, drop_eq_getElem_cons hi', set_append_right (i + 1) _ (by omega),
          hlength, Nat.add_sub_cancel_left]
        rfl
      have hswap := above_swap (links cells) (s.1.take i) s.1[i] s.1[i + 1] (s.1.drop (i + 2))
      rw [← hold, ← hnew, links, if_neg hne, links, if_neg hne.symm] at hswap
      refine ⟨?_, ?_⟩
      · dsimp only
        exact set_set_perm hi hi'
      · dsimp only
        omega
  · exact .refl s.1

theorem improvePass_spec (cells : Cells V) (horder : order.Nodup) (pass : ℕ) :
    Improved cells order (improvePass cells pass order).1 := by
  rw [improvePass]
  induction List.range (order.length - 1) using reverseRecOn with
  | nil => exact .refl order
  | append_singleton steps step ih =>
    rw [foldl_append, foldl_cons, foldl_nil]
    exact ih.trans (improveStep_spec (ih.perm.nodup_iff.2 horder) _)

theorem improveFrom_spec (cells : Cells V) (horder : order.Nodup) (n pass : ℕ) :
    Improved cells order (improveFrom cells n pass order) := by
  induction n generalizing pass order with
  | zero => exact .refl order
  | succ n ih =>
    have hpass := improvePass_spec cells horder pass
    rw [improveFrom]
    split
    · exact hpass.trans (ih (hpass.perm.nodup_iff.2 horder) (pass + 1))
    · exact hpass

/-! ### Rotations -/

/-- What holds of the rotations that were tried. -/
structure Rotating (cells : Cells V) (order : List V) (k : ℕ) (r : Rotation) : Prop where
  count : r.count = above (links cells) (order.rotate k)
  best : r.best = above (links cells) (order.rotate r.start)
  start : r.start ≤ k
  most : ∀ j ≤ k, (above (links cells) (order.rotate j) : ℤ) ≤ r.best

theorem above_rotate_succ (hids : ids.Nodup) (horder : order.Perm ids) {k : ℕ}
    (hk : k < order.length) : (above (links cells) (order.rotate (k + 1)) : ℤ) =
      above (links cells) (order.rotate k) - originalBalance ids cells order[k] := by
  have hrotate : order.rotate k = order[k] :: (order.drop (k + 1) ++ order.take k) := by
    rw [rotate_eq_drop_append_take hk.le, drop_eq_getElem_cons hk, cons_append]
  have hnext : order.rotate (k + 1) = order.drop (k + 1) ++ order.take k ++ [order[k]] := by
    rw [← rotate_rotate, hrotate, rotate_cons_succ, rotate_zero]
  have hperm : ids.Perm (order[k] :: (order.drop (k + 1) ++ order.take k)) := by
    rw [← hrotate]
    exact horder.symm.trans (rotate_perm order k).symm
  have hmem : order[k] ∈ ids := horder.mem_iff.1 (getElem_mem hk)
  rw [hnext, above_rotate, hrotate, originalBalance_eq hids hmem, balance_perm hperm, balance_cons,
    sub_self, zero_add]

theorem Rotating.next (hids : ids.Nodup) (horder : order.Perm ids) {k : ℕ}
    (hk : k + 1 < order.length) {r : Rotation} (hr : Rotating cells order k r) :
    Rotating cells order (k + 1) (r.next ids cells order k) := by
  obtain ⟨hcount, hbest, hstart, hmost⟩ := hr
  have hnext : r.count - (order[k]?.map (originalBalance ids cells)).getD 0 =
      above (links cells) (order.rotate (k + 1)) := by
    rw [getElem?_eq_getElem (by omega), map_some, getD_some, hcount, above_rotate_succ hids horder]
  rw [Rotation.next, hnext]
  split
  · rename_i hlt
    refine ⟨rfl, rfl, le_rfl, fun j hj => ?_⟩
    dsimp only
    rcases Nat.lt_or_eq_of_le hj with hj | rfl
    · exact (hmost j (by omega)).trans hlt.le
    · exact le_rfl
  · rename_i hge
    refine ⟨rfl, hbest, by dsimp only; omega, fun j hj => ?_⟩
    dsimp only
    rcases Nat.lt_or_eq_of_le hj with hj | rfl
    · exact hmost j (by omega)
    · exact not_lt.1 hge

/-- A rotation of an order, than which none has more above the diagonal. -/
theorem rotateOrder_spec (cells : Cells V) (hids : ids.Nodup) (horder : order.Perm ids) :
    (rotateOrder ids cells order).Perm order ∧ ∀ k, above (links cells) (order.rotate k) ≤
      above (links cells) (rotateOrder ids cells order) := by
  have hall : ∀ n ≤ order.length - 1, Rotating cells order n
      ((List.range n).foldl (Rotation.next ids cells order)
        ⟨forwardImports ids cells order, forwardImports ids cells order, 0⟩) := by
    intro n hn
    induction n with
    | zero =>
      rw [forwardImports_eq cells hids horder, range_zero, foldl_nil]
      refine ⟨?_, ?_, le_rfl, fun j hj => ?_⟩
      · rw [rotate_zero]
      · rw [rotate_zero]
      · rw [Nat.le_zero.1 hj, rotate_zero]
    | succ n ih =>
      rw [range_succ, foldl_append, foldl_cons, foldl_nil]
      exact (ih (by omega)).next hids horder (by omega)
  obtain ⟨-, hbest, hstart, hmost⟩ := hall _ le_rfl
  rw [rotateOrder]
  generalize (List.range (order.length - 1)).foldl (Rotation.next ids cells order) _ = r at *
  have heq : order.drop r.start ++ order.take r.start = order.rotate r.start :=
    (rotate_eq_drop_append_take (by omega)).symm
  rw [heq]
  refine ⟨rotate_perm order r.start, fun k => ?_⟩
  cases hlength : order.length with
  | zero => rw [eq_nil_of_length_eq_zero hlength, rotate_nil, rotate_nil]
  | succ n =>
    have hk := hmost (k % order.length) (by
      have hlt := Nat.mod_lt k (by omega : 0 < order.length)
      omega)
    rw [rotate_mod, hbest] at hk
    exact_mod_cast hk

/-! ### The order -/

theorem sortedTargets_mem : ∀ v ∈ ids, ∀ w ∈ sortedTargets ids cells v, w ∈ ids := by
  intro v _ w hw
  obtain ⟨e, he, rfl⟩ := List.mem_map.1 hw
  exact (mem_outgoing (mem_mergeSort.1 he)).1

theorem candidates_perm (cells : Cells V) (hids : ids.Nodup) :
    ∀ order ∈ candidates ids cells, order.Perm ids := by
  have hdependency : (dependencyOrder ids cells).Perm ids :=
    (reverse_perm _).trans (DepthFirst.order_spec hids sortedTargets_mem).1
  intro order horder
  simp only [candidates, mem_cons, not_mem_nil, or_false] at horder
  rcases horder with rfl | rfl | rfl | rfl
  · exact Greedy.order_perm hids
  · exact hdependency
  · exact List.Perm.refl _
  · exact reverse_perm _

/-- What holds of the best order so far. -/
structure Best (ids : List V) (cells : Cells V) (tried : List (List V)) (best : List V × ℕ) :
    Prop where
  perm : best.1.Perm ids
  count : best.2 = above (links cells) best.1
  least : above (links cells) ids ≤ best.2
  most : ∀ order ∈ tried, above (links cells) (rotateOrder ids cells order) ≤ best.2

theorem best_spec (cells : Cells V) (hids : ids.Nodup) {tried : List (List V)}
    (htried : ∀ order ∈ tried, order.Perm ids) :
    Best ids cells tried (tried.foldl (fun (best : List V × ℕ) candidate =>
      have improved := improveAdjacent cells (rotateOrder ids cells candidate)
      have next := forwardImports ids cells improved
      if best.2 < next then (improved, next) else best) (ids, forwardImports ids cells ids)) := by
  induction tried using reverseRecOn with
  | nil =>
    have hcount := forwardImports_eq cells hids (List.Perm.refl ids)
    exact ⟨List.Perm.refl ids, hcount, hcount.ge, fun order horder => (nomatch horder)⟩
  | append_singleton tried order ih =>
    obtain ⟨hperm, hcount, hleast, hmost⟩ :=
      ih fun order horder => htried order (mem_append_left _ horder)
    have horder := htried order (by simp)
    obtain ⟨hrotate, -⟩ := rotateOrder_spec cells hids horder
    have hrotated := hrotate.trans horder
    have himproved := improveFrom_spec cells (hrotated.nodup_iff.2 hids) 8 0
    have hnext := forwardImports_eq cells hids (himproved.perm.trans hrotated)
    rw [← improveAdjacent] at himproved hnext
    rw [foldl_append, foldl_cons, foldl_nil]
    dsimp only
    have hle := himproved.le
    split
    · rename_i hlt
      refine ⟨himproved.perm.trans hrotated, hnext, hleast.trans hlt.le, fun c hc => ?_⟩
      rw [hnext] at hlt ⊢
      rcases mem_append.1 hc with hc | hc
      · exact (hmost c hc).trans hlt.le
      · rw [mem_singleton.1 hc]
        exact hle
    · rename_i hge
      refine ⟨hperm, hcount, hleast, fun c hc => ?_⟩
      rcases mem_append.1 hc with hc | hc
      · exact hmost c hc
      · rw [mem_singleton.1 hc]
        rw [hnext] at hge
        exact hle.trans (not_lt.1 hge)

/-- The order of a cyclic group. -/
structure Ordered (ids : List V) (cells : Cells V) : Prop where
  perm : (orderCyclicGroup ids cells).Perm ids
  least : above (count cells) ids ≤ above (count cells) (orderCyclicGroup ids cells)
  more : ∀ order ∈ candidates ids cells,
    above (count cells) ids < above (count cells) (rotateOrder ids cells order) →
      above (count cells) ids < above (count cells) (orderCyclicGroup ids cells)
  /-- Each candidate is rotated to where none of its rotations has more. -/
  rotated : ∀ order ∈ candidates ids cells, ∀ k, above (count cells) (order.rotate k) ≤
    above (count cells) (rotateOrder ids cells order)
  /-- At each step of the greedy pass the balances are those among the rows that are left. -/
  balance : ∀ n, ∀ v ∈ (loop (Greedy.body ids cells) n (Greedy.start ids cells)).queue.nodes,
    (loop (Greedy.body ids cells) n (Greedy.start ids cells)).balance v =
      Diagonal.balance (count cells)
        ((loop (Greedy.body ids cells) n (Greedy.start ids cells)).queue.nodes.filter (· ≠ v)) v
  /-- The row taken comes before all others that are left. -/
  first : ∀ n v queue, (loop (Greedy.body ids cells) n (Greedy.start ids cells)).queue.take
      (before (loop (Greedy.body ids cells) n (Greedy.start ids cells)).balance ids.idxOf) =
        some (v, queue) →
    v ∈ (loop (Greedy.body ids cells) n (Greedy.start ids cells)).queue.nodes ∧
      ∀ w ∈ (loop (Greedy.body ids cells) n (Greedy.start ids cells)).queue.nodes, w ≠ v →
        Greedy.First ids (loop (Greedy.body ids cells) n (Greedy.start ids cells)).balance v w

/-- Fewer than two rows have nothing above the diagonal. -/
theorem above_of_length_lt (horder : order.length < 2) : above (links cells) order = 0 := by
  match order, horder with
  | [], _ => rfl
  | [v], _ => rfl

/-- **The order of a cyclic group** is one of its rows, and no worse than the one given. -/
theorem cyclic_ordered (cells : Cells V) (hids : ids.Nodup) : Ordered ids cells := by
  have hcandidates := candidates_perm cells hids
  have habove : ∀ order : List V, order.Perm ids →
      above (count cells) order = above (links cells) order :=
    fun order horder => above_count (horder.nodup_iff.2 hids)
  have hrotate := fun order horder =>
    rotateOrder_spec cells hids (hcandidates order horder)
  have hbest := best_spec cells hids hcandidates
  have hresult : (orderCyclicGroup ids cells).Perm ids ∧
      above (links cells) ids ≤ above (links cells) (orderCyclicGroup ids cells) ∧
      ∀ order ∈ candidates ids cells, above (links cells) (rotateOrder ids cells order) ≤
        above (links cells) (orderCyclicGroup ids cells) := by
    rw [orderCyclicGroup]
    split
    · rename_i hlength
      refine ⟨List.Perm.refl _, le_rfl, fun order horder => ?_⟩
      have hperm := (hrotate order horder).1.trans (hcandidates order horder)
      rw [above_of_length_lt (hperm.length_eq ▸ hlength)]
      exact Nat.zero_le _
    · obtain ⟨hperm, hcount, hleast, hmost⟩ := hbest
      rw [hcount] at hleast hmost
      exact ⟨hperm, hleast, hmost⟩
  obtain ⟨hperm, hleast, hmost⟩ := hresult
  refine ⟨hperm, ?_, fun order horder hlt => ?_, fun order horder k => ?_, fun n v hv => ?_,
    fun n v queue htake => (Greedy.right_run hids n).first htake⟩
  · rw [habove _ (List.Perm.refl _), habove _ hperm]
    exact hleast
  · rw [habove _ (List.Perm.refl _), habove _ ((hrotate order horder).1.trans
      (hcandidates order horder))] at hlt
    rw [habove _ (List.Perm.refl _), habove _ hperm]
    exact hlt.trans_le (hmost order horder)
  · rw [habove _ ((rotate_perm order k).trans (hcandidates order horder)),
      habove _ ((hrotate order horder).1.trans (hcandidates order horder))]
    exact (hrotate order horder).2 k
  · rw [(Greedy.right_run hids n).balance v hv, Greedy.balance_others]

/-- Three rows that import each other in a circle, the other way round. -/
def circle : Cells ℕ where
  row v := if v = 0 then [(2, 3)] else if v = 1 then [(0, 2)] else [(1, 1)]
  nodup v := by
    split_ifs
    · decide
    · decide
    · decide

theorem cyclic_ordered_circle : Ordered [0, 1, 2] circle := cyclic_ordered circle (by decide)

end Triage.MatrixOrder
