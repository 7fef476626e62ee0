import Triage.Ui.MatrixOrder

/-!
# The greedy order of a cyclic group

Each row taken gives back to the balances of those that are left what it had part in, so that they
stay those among the rows that are left; the heap is in order by them.

## Main results

* `Greedy.right_run` : what holds after any number of steps.
-/

namespace Triage.MatrixOrder

open Diagonal List Function LinkedHeap Bool Prod

variable {V : Type*} [DecidableEq V] {ids : List V} {cells : Cells V} {u v w : V}

/-! ### Imports -/

/-- The imports of one row by another, none by itself. -/
def links (cells : Cells V) (u v : V) : ℕ := if u = v then 0 else count cells u v

theorem keySum_row {l : List (V × ℕ)} (hl : (l.map fst).Nodup) :
    keySum l v = ((l.find? (·.1 = v)).map snd).getD 0 := by
  induction l with
  | nil => rfl
  | cons e l ih =>
    rw [map_cons, nodup_cons] at hl
    rw [keySum_cons, find?_cons]
    by_cases he : e.1 = v
    · have hrest : keySum l v = 0 := by
        rw [keySum, filter_eq_nil_iff.2, map_nil, sum_nil]
        intro e' he' heq
        rw [decide_eq_true_iff] at heq
        exact hl.1 (he.trans heq.symm ▸ mem_map_of_mem he')
      rw [if_pos he, hrest, decide_eq_true he]
      rfl
    · rw [if_neg he, decide_eq_false he, Nat.zero_add]
      exact ih hl.2

/-- What is listed for a row is its imports. -/
theorem keySum_outgoing (hv : v ∈ ids) : keySum (outgoing ids cells u) v = links cells u v := by
  have hfilter : ∀ l : List (V × ℕ),
      keySum (l.filter fun e => ids.contains e.1 ∧ e.1 ≠ u ∧ e.2 ≠ 0) v =
        if u = v then 0 else keySum l v := by
    intro l
    induction l with
    | nil => simp [keySum]
    | cons e l ih =>
      rw [filter_cons, keySum_cons]
      split
      · rename_i he
        rw [decide_eq_true_iff] at he
        rw [keySum_cons, ih]
        split_ifs with hev huv huv
        · exact absurd (hev.trans huv.symm) he.2.1
        · rfl
        · rfl
        · rfl
      · rename_i he
        rw [decide_eq_true_iff] at he
        rw [ih]
        split_ifs with huv hev
        · rfl
        · by_contra hne
          refine he ⟨?_, ?_, ?_⟩
          · rw [hev]
            exact contains_iff_mem.2 hv
          · rw [hev]
            exact Ne.symm huv
          · omega
        · rw [Nat.zero_add]
  rw [outgoing, hfilter, keySum_row (cells.nodup u), links, count]

theorem mem_outgoing {e : V × ℕ} (he : e ∈ outgoing ids cells u) : e.1 ∈ ids ∧ e.1 ≠ u := by
  obtain ⟨-, hmem⟩ := mem_filter.1 he
  rw [decide_eq_true_iff, contains_iff_mem] at hmem
  exact ⟨hmem.1, hmem.2.1⟩

/-- The imports of a row, or those of some of the rows, by the rows. -/
theorem sum_outgoing (u : V) {P : V → Prop} [DecidablePred P] (hids : ids.Nodup) :
    ((outgoing ids cells u).map fun e => if P e.1 then e.2 else 0).sum =
      (ids.map fun w => if P w then links cells u w else 0).sum := by
  rw [sum_keySum hids _ fun e he _ => (mem_outgoing he).1]
  congr 1
  refine map_congr_left fun w hw => ?_
  rw [keySum_outgoing hw]

theorem keySum_incoming (hids : ids.Nodup) (hv : v ∈ ids) (hu : u ∈ ids) :
    keySum (incoming ids cells u) v = links cells v u := by
  have hfold : ∀ vs : List V, vs.Nodup → keySum (vs.flatMap fun w =>
      ((outgoing ids cells w).filter (·.1 = u)).map fun e => (w, e.2)) v =
        if v ∈ vs then keySum (outgoing ids cells v) u else 0 := by
    intro vs hvs
    induction vs with
    | nil => rfl
    | cons w vs ih =>
      rw [nodup_cons] at hvs
      rw [flatMap_cons, keySum_append, keySum_map, ih hvs.2]
      by_cases hwv : w = v
      · subst hwv
        rw [if_pos rfl, if_neg hvs.1, if_pos mem_cons_self, Nat.add_zero, keySum]
      · rw [if_neg hwv, Nat.zero_add]
        exact if_congr (by rw [mem_cons, or_iff_right (Ne.symm hwv)]) rfl rfl
  rw [incoming, hfold ids hids, if_pos hv, keySum_outgoing hu]

theorem mem_incoming {e : V × ℕ} (he : e ∈ incoming ids cells u) : e.1 ∈ ids ∧ e.1 ≠ u := by
  obtain ⟨w, hw, he⟩ := mem_flatMap.1 he
  obtain ⟨e', he', rfl⟩ := mem_map.1 he
  obtain ⟨he', heq⟩ := mem_filter.1 he'
  refine ⟨hw, fun hwu => (mem_outgoing he').2 ?_⟩
  exact (of_decide_eq_true heq).trans hwu.symm

theorem originalBalance_eq (hids : ids.Nodup) (hu : u ∈ ids) :
    originalBalance ids cells u = balance (links cells) ids u := by
  have hout : ((outgoing ids cells u).map snd).sum = (ids.map (links cells u)).sum := by
    have hall : ((outgoing ids cells u).map fun e => if True then e.2 else 0).sum =
        (ids.map fun w => if True then links cells u w else 0).sum :=
      sum_outgoing u (P := fun _ => True) hids
    simpa only [if_true] using hall
  have hin : ((incoming ids cells u).map snd).sum =
      (ids.map fun w => links cells w u).sum := by
    have hall := sum_keySum (P := fun _ => True) hids (incoming ids cells u)
      fun e he _ => (mem_incoming he).1
    simp only [if_true] at hall
    rw [show (fun e : V × ℕ => e.2) = snd from rfl] at hall
    rw [hall]
    congr 1
    exact map_congr_left fun w hw => keySum_incoming hids hw hu
  rw [originalBalance, balance, hout, hin]

/-! ### The heap -/

omit [DecidableEq V] in
theorem ranking (balance : V → ℤ) (tie : V → ℕ) : Ranking (before balance tie) where
  asymm a b := by
    simp only [before, or_eq_true, and_eq_true, decide_eq_true_iff, eq_false_iff, ne_eq]
    omega
  trans a b c := by
    simp only [before, or_eq_true, and_eq_true, decide_eq_true_iff, eq_false_iff, ne_eq]
    omega

namespace Greedy

variable {s s' : Greedy V}

/-- The queue is a heap by the balances. -/
structure Heap (ids : List V) (s : Greedy V) : Prop where
  linked : s.queue.Linked
  order : s.queue.InOrder (before s.balance ids.idxOf) 0

theorem beforeAt_update {h : LinkedHeap V} (hlinked : h.Linked) {balance : V → ℤ} {tie : V → ℕ}
    {i j k : ℕ} {x : ℤ} (hi : h.position v = some i) (hj : j ≠ i) (hk : k ≠ i) :
    h.beforeAt (before (update balance v x) tie) j k = h.beforeAt (before balance tie) j k := by
  have hne : ∀ j, j ≠ i → ∀ w, h.nodes[j]? = some w → w ≠ v := by
    rintro j hj w hw rfl
    rw [← hlinked.position, hi, Option.some_inj] at hw
    exact hj hw.symm
  rw [beforeAt.eq_def, beforeAt.eq_def]
  cases hjw : h.nodes[j]? with
  | none => rfl
  | some a =>
    cases hkw : h.nodes[k]? with
    | none => rfl
    | some b =>
      dsimp only
      rw [before, before, update_of_ne (hne j hj a hjw), update_of_ne (hne k hk b hkw)]

/-- What a change of a balance leaves. -/
structure Adjusted (ids : List V) (s s' : Greedy V) (change : V → ℤ) : Prop where
  heap : s'.Heap ids
  nodes : s'.queue.nodes.Perm s.queue.nodes
  left : s'.left = s.left
  right : s'.right = s.right
  balance : ∀ w ∈ s.queue.nodes, s'.balance w = s.balance w + change w

theorem adjust_spec (h : s.Heap ids) (v : V) (x : ℤ) :
    Adjusted ids s (s.adjust ids v x) fun w => if v = w then x else 0 := by
  rw [adjust]
  split
  · rename_i hnone
    refine ⟨h, List.Perm.refl _, rfl, rfl, fun w hw => ?_⟩
    rw [if_neg, add_zero]
    rintro rfl
    obtain ⟨i, hi⟩ := mem_iff_getElem?.1 hw
    rw [← h.linked.position, hnone] at hi
    cases hi
  · rename_i hsome
    have hbefore := ranking (update s.balance v (s.balance v + x)) ids.idxOf
    have hoff : ∀ i, s.queue.position v = some i → s.queue.Off
        (before (update s.balance v (s.balance v + x)) ids.idxOf) 0 i := by
      -- the heap is in order but for the row whose balance has changed
      intro i hi
      have hlt : i < s.queue.nodes.length :=
        (List.getElem?_eq_some_iff.1 ((h.linked.position v i).1 hi)).1
      obtain ⟨horder, hgrand⟩ := h.order.off (ranking s.balance ids.idxOf) hlt
      refine ⟨fun j hj hji hp hk => ?_, fun j hj hp hi0 hk => ?_⟩
      · rw [beforeAt_update h.linked hi hji hp]
        exact horder j hj hji hp hk
      · have hpj := parent_lt hj
        have hpi := parent_lt hi0
        rw [beforeAt_update h.linked hi (by omega) (by omega)]
        exact hgrand j hj hp hi0 hk
    obtain ⟨hmoved, horder⟩ := update_spec hbefore h.linked hoff
      fun hnone => absurd hnone hsome
    refine ⟨⟨hmoved.linked, horder⟩, hmoved.perm, rfl, rfl, fun w _ => ?_⟩
    dsimp only
    rw [update_apply]
    split_ifs with hwv hvw hvw
    · rw [hwv]
    · exact absurd hwv.symm hvw
    · exact absurd hvw.symm hwv
    · rw [add_zero]

/-- Balances rise or fall by what is listed under their rows. -/
theorem foldl_adjust (h : s.Heap ids) (l : List (V × ℕ)) (x : ℤ) :
    Adjusted ids s (l.foldl (fun s e => s.adjust ids e.1 (x * e.2)) s) fun w => x * keySum l w := by
  induction l generalizing s with
  | nil =>
    refine ⟨h, List.Perm.refl _, rfl, rfl, fun w _ => ?_⟩
    simp [keySum]
  | cons e l ih =>
    have hfirst := adjust_spec h e.1 (x * e.2)
    have hrest := ih hfirst.heap
    refine ⟨hrest.heap, hrest.nodes.trans hfirst.nodes, hrest.left.trans hfirst.left,
      hrest.right.trans hfirst.right, fun w hw => ?_⟩
    rw [foldl_cons, hrest.balance w (hfirst.nodes.mem_iff.2 hw), hfirst.balance w hw, keySum_cons]
    split_ifs
    · rw [Nat.cast_add, mul_add, add_assoc]
    · rw [Nat.zero_add, add_zero]

/-! ### The pass -/

/-- What holds before each row is taken. -/
structure Right (ids : List V) (cells : Cells V) (s : Greedy V) : Prop where
  heap : s.Heap ids
  perm : (s.left ++ s.right ++ s.queue.nodes).Perm ids
  balance : ∀ v ∈ s.queue.nodes, s.balance v = Diagonal.balance (links cells) s.queue.nodes v

section

variable (hids : ids.Nodup)
include hids

/-- A row that is taken gives back what it had part in. -/
theorem Right.body (h : s.Right ids cells)
    (hbody : Greedy.body ids cells s = some s') : s'.Right ids cells ∧
      s'.queue.nodes.length < s.queue.nodes.length := by
  obtain ⟨⟨u, queue⟩, htake, rfl⟩ := Option.map_eq_some_iff.1 hbody
  obtain ⟨hperm, hlinked, horder, -⟩ :=
    take_spec (ranking s.balance ids.idxOf) h.heap.linked h.heap.order htake
  dsimp only
  generalize htaken : (⟨queue, s.balance, if 0 ≤ s.balance u then s.left ++ [u] else s.left,
    if 0 ≤ s.balance u then s.right else s.right ++ [u]⟩ : Greedy V) = taken
  have hheap : taken.Heap ids := by
    subst htaken
    exact ⟨hlinked, horder⟩
  have hraised := foldl_adjust hheap (outgoing ids cells u) 1
  simp only [one_mul] at hraised
  generalize (outgoing ids cells u).foldl (fun s e => s.adjust ids e.1 e.2) taken = raised
    at hraised
  have hlowered := foldl_adjust hraised.heap (incoming ids cells u) (-1)
  simp only [neg_one_mul] at hlowered
  generalize (incoming ids cells u).foldl (fun s e => s.adjust ids e.1 (-e.2)) raised = lowered
    at hlowered
  have hnodes : lowered.queue.nodes.Perm queue.nodes := by
    have hall := hlowered.nodes.trans hraised.nodes
    subst htaken
    exact hall
  have hsides : (taken.left ++ taken.right ++ queue.nodes).Perm
      (s.left ++ s.right ++ s.queue.nodes) := by
    subst htaken
    refine List.Perm.trans ?_ (hperm.symm.append_left _)
    dsimp only
    split
    · rw [append_assoc s.left [u], append_assoc, append_assoc, append_assoc]
      refine List.Perm.append_left _ ?_
      rw [singleton_append]
      exact perm_middle.symm
    · rw [append_assoc, append_assoc, append_assoc]
      exact List.Perm.refl _
  have hin : ∀ v ∈ s.queue.nodes, v ∈ ids := fun v hv => h.perm.mem_iff.1 (mem_append_right _ hv)
  refine ⟨⟨hlowered.heap, ?_, fun v hv => ?_⟩, ?_⟩
  · rw [hlowered.left, hlowered.right, hraised.left, hraised.right]
    exact (hnodes.append_left _).trans (hsides.trans h.perm)
  · have hv' : v ∈ queue.nodes := hnodes.mem_iff.1 hv
    have hvs : v ∈ s.queue.nodes := hperm.mem_iff.2 (mem_cons_of_mem _ hv')
    have hus : u ∈ s.queue.nodes := hperm.mem_iff.2 mem_cons_self
    have hold := h.balance v hvs
    rw [Diagonal.balance_perm hperm, Diagonal.balance_cons] at hold
    have hstart : taken.balance = s.balance := by rw [← htaken]
    have hstart' : taken.queue.nodes = queue.nodes := by rw [← htaken]
    rw [hlowered.balance v (hraised.nodes.mem_iff.2 (hstart' ▸ hv')),
      hraised.balance v (hstart' ▸ hv'), hstart, hold, keySum_outgoing (hin v hvs),
      keySum_incoming hids (hin v hvs) (hin u hus), Diagonal.balance_perm hnodes]
    omega
  · rw [hnodes.length_eq, hperm.length_eq]
    exact Nat.lt_succ_self _

theorem right_start : (start ids cells).Right ids cells := by
  obtain ⟨hperm, hlinked, horder⟩ := build_spec (ranking (originalBalance ids cells) ids.idxOf) hids
  refine ⟨⟨hlinked, horder⟩, hperm, fun v hv => ?_⟩
  have hv' : v ∈ ids := hperm.mem_iff.1 hv
  exact (originalBalance_eq hids hv').trans (Diagonal.balance_perm hperm).symm

/-- **What holds of the greedy pass** holds after any number of its steps. -/
theorem right_run (n : ℕ) : (loop (body ids cells) n (start ids cells)).Right ids cells :=
  loop_invariant (fun _ _ h hbody => (h.body hids hbody).1) n (right_start hids)

theorem order_perm : (order ids cells).Perm ids := by
  have hlength : (start ids cells).queue.nodes.length ≤ ids.length :=
    (build_spec (ranking (originalBalance ids cells) ids.idxOf) hids).1.length_eq.le
  obtain ⟨hright, hend⟩ := loop_spec (fun _ _ h hbody => Right.body hids h hbody)
    (right_start hids) hlength
  rw [order]
  generalize loop (body ids cells) ids.length (start ids cells) = s at hright hend
  have hnil : s.queue.nodes = [] := take_eq_none (Option.map_eq_none_iff.1 hend)
  have hperm := hright.perm
  rw [hnil, append_nil] at hperm
  exact ((reverse_perm s.right).append_left s.left).trans hperm

end

/-- A row that is to be taken before another: it has the greater balance either way, the larger
where both are as great, and else comes earlier. -/
def First (ids : List V) (balance : V → ℤ) (v w : V) : Prop :=
  (balance w).natAbs < (balance v).natAbs ∨ (balance w).natAbs = (balance v).natAbs ∧
    (balance w < balance v ∨ balance w = balance v ∧ ids.idxOf v < ids.idxOf w)

theorem Right.first (h : s.Right ids cells) {queue : LinkedHeap V}
    (htake : s.queue.take (before s.balance ids.idxOf) = some (v, queue)) :
    v ∈ s.queue.nodes ∧ ∀ w ∈ s.queue.nodes, w ≠ v → First ids s.balance v w := by
  obtain ⟨hperm, -, -, hfirst⟩ :=
    take_spec (ranking s.balance ids.idxOf) h.heap.linked h.heap.order htake
  have hin : ∀ v ∈ s.queue.nodes, v ∈ ids := fun v hv => h.perm.mem_iff.1 (mem_append_right _ hv)
  have hv : v ∈ s.queue.nodes := hperm.mem_iff.2 mem_cons_self
  refine ⟨hv, fun w hw hne => ?_⟩
  have hnot := hfirst w ((mem_cons.1 (hperm.mem_iff.1 hw)).resolve_left hne)
  have hidx : ids.idxOf v ≠ ids.idxOf w := fun heq => hne ((idxOf_inj (hin v hv)).1 heq).symm
  rw [before, or_eq_false_iff, and_eq_false_iff, or_eq_false_iff, and_eq_false_iff] at hnot
  simp only [decide_eq_false_iff_not] at hnot
  rw [First]
  omega

/-- The balance of a row is that among the others. -/
theorem balance_others (vs : List V) :
    Diagonal.balance (links cells) vs v = Diagonal.balance (count cells) (vs.filter (· ≠ v)) v := by
  have hself : links cells v v = 0 := if_pos rfl
  have hrow : (vs.map (links cells v)).sum =
      ((vs.filter (· ≠ v)).map (count cells v)).sum :=
    sum_filter_ne (links cells v) (count cells v) (fun _ hw => if_neg (Ne.symm hw)) hself vs
  have hcolumn : (vs.map fun w => links cells w v).sum =
      ((vs.filter (· ≠ v)).map fun w => count cells w v).sum := by
    exact sum_filter_ne (fun w => links cells w v) (fun w => count cells w v)
      (fun _ hw => if_neg hw) hself vs
  rw [Diagonal.balance, Diagonal.balance, hrow, hcolumn]

end Greedy

end Triage.MatrixOrder
