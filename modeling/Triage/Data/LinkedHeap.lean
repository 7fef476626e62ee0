import Mathlib.Data.List.Nodup
import Triage.Data.Loops

/-!
# Heaps with positions

A binary heap in a list, each element with its position in it, so that an element whose rank has
changed is found and moved up or down to where it belongs.

## Main results

* `LinkedHeap.build_spec`, `LinkedHeap.update_spec`, `LinkedHeap.take_spec` : the operations keep
  the heap, and the first element comes before all others.
-/

namespace Triage

open List Option Nat

structure LinkedHeap (V : Type*) where
  nodes : List V
  position : V → Option ℕ

/-- What is a strict order, up to what it does not tell apart. -/
structure Ranking {V : Type*} (before : V → V → Bool) : Prop where
  asymm : ∀ a b, before a b = true → before b a = false
  trans : ∀ a b c, before a b = false → before b c = false → before a c = false

namespace LinkedHeap

variable {V : Type*} [DecidableEq V] (before : V → V → Bool) (h : LinkedHeap V)

def beforeAt (i j : ℕ) : Bool :=
  match h.nodes[i]?, h.nodes[j]? with
  | some a, some b => before a b
  | _, _ => false

def swap (a b : ℕ) : LinkedHeap V :=
  match h.nodes[a]?, h.nodes[b]? with
  | some x, some y =>
    { nodes := (h.nodes.set a y).set b x
      position := Function.update (Function.update h.position y (some a)) x (some b) }
  | _, _ => h

/-- The child that is before the other. -/
def child (i : ℕ) : ℕ := if h.beforeAt before (2 * i + 2) (2 * i + 1) then 2 * i + 2 else 2 * i + 1

def downBody (s : LinkedHeap V × ℕ) : Option (LinkedHeap V × ℕ) :=
  if s.1.beforeAt before (s.1.child before s.2) s.2 then
    some (s.1.swap s.2 (s.1.child before s.2), s.1.child before s.2)
  else none

def down (i : ℕ) : LinkedHeap V := (loop (downBody before) h.nodes.length (h, i)).1

def parent (i : ℕ) : ℕ := (i - 1) / 2

def upBody (s : LinkedHeap V × ℕ) : Option (LinkedHeap V × ℕ) :=
  if 0 < s.2 && s.1.beforeAt before s.2 (parent s.2) then
    some (s.1.swap s.2 (parent s.2), parent s.2)
  else none

/-- An element whose rank has changed is moved. -/
def update (v : V) : LinkedHeap V :=
  match h.position v with
  | none => h
  | some i =>
    have s := loop (upBody before) i (h, i)
    s.1.down before s.2

/-- The first element, and what is left; the last element goes down from its place. -/
def take : Option (V × LinkedHeap V) :=
  h.nodes.head?.map fun first =>
    have rest := h.nodes.dropLast
    match rest, h.nodes.getLast? with
    | _ :: _, some last =>
      (first, (LinkedHeap.mk (rest.set 0 last)
        (Function.update (Function.update h.position first none) last (some 0))).down before 0)
    | _, _ => (first, ⟨rest, Function.update h.position first none⟩)

def build (nodes : List V) : LinkedHeap V :=
  (List.range (nodes.length / 2)).reverse.foldl (fun h i => h.down before i)
    ⟨nodes, fun v => if nodes.contains v then some (nodes.idxOf v) else none⟩

/-- Each element is there once, and has its position. -/
structure Linked : Prop where
  nodup : h.nodes.Nodup
  position : ∀ v i, h.position v = some i ↔ h.nodes[i]? = some v

/-- From a position on, no child is before its parent. -/
def InOrder (k : ℕ) : Prop := ∀ i, 0 < i → k ≤ parent i → h.beforeAt before i (parent i) = false

/-- The same, except around one position, whose children are not before its parent. -/
structure Off (k p : ℕ) : Prop where
  order : ∀ i, 0 < i → i ≠ p → parent i ≠ p → k ≤ parent i → h.beforeAt before i (parent i) = false
  grand : ∀ i, 0 < i → parent i = p → 0 < p → k ≤ parent p → h.beforeAt before i (parent p) = false

variable {before h} {h' : LinkedHeap V} {i j k p a b : ℕ} {v : V}

/-! ### Positions -/

theorem parent_lt (hi : 0 < i) : parent i < i := by
  rw [parent]
  omega

theorem parent_eq_iff (hi : 0 < i) : parent i = j ↔ i = 2 * j + 1 ∨ i = 2 * j + 2 := by
  rw [parent]
  omega

/-- A position after two are swapped. -/
def swapped (a b i : ℕ) : ℕ := if i = a then b else if i = b then a else i

theorem getElem?_swap (ha : a < h.nodes.length) (hb : b < h.nodes.length) (hab : a ≠ b) :
    (h.swap a b).nodes[i]? = h.nodes[swapped a b i]? := by
  rw [swap, getElem?_eq_getElem ha, getElem?_eq_getElem hb, swapped]
  simp only [getElem?_set, length_set]
  by_cases hia : i = a
  · subst hia
    simp [hab.symm, ha, hb]
  · by_cases hib : i = b
    · subst hib
      simp [hab.symm, ha, hb]
    · simp [hia, hib, Ne.symm hia, Ne.symm hib]

theorem perm_swap (ha : a < h.nodes.length) (hb : b < h.nodes.length) :
    (h.swap a b).nodes.Perm h.nodes := by
  rw [swap, getElem?_eq_getElem ha, getElem?_eq_getElem hb]
  exact set_set_perm ha hb

theorem swapped_swapped (a b i : ℕ) : swapped a b (swapped a b i) = i := by
  rw [swapped, swapped]
  split_ifs with h₁ h₂ h₃ h₄ h₅ <;> omega

theorem swapped_eq_iff : swapped a b i = j ↔ i = swapped a b j := by
  constructor
  · rintro rfl
    exact (swapped_swapped a b i).symm
  · rintro rfl
    exact swapped_swapped a b j

omit [DecidableEq V] in
theorem Linked.getElem?_eq_iff (hlinked : h.Linked) (hi : i < h.nodes.length) :
    h.nodes[j]? = some h.nodes[i] ↔ j = i := by
  rw [← getElem?_eq_getElem hi]
  refine ⟨fun heq => ?_, fun heq => heq ▸ rfl⟩
  exact ((getElem?_inj hi hlinked.nodup).1 heq.symm).symm

theorem Linked.swap (hlinked : h.Linked) (ha : a < h.nodes.length) (hb : b < h.nodes.length)
    (hab : a ≠ b) : (h.swap a b).Linked := by
  refine ⟨(perm_swap ha hb).nodup_iff.2 hlinked.nodup, fun v i => ?_⟩
  rw [getElem?_swap ha hb hab, LinkedHeap.swap, getElem?_eq_getElem ha, getElem?_eq_getElem hb]
  dsimp only
  rw [Function.update_apply]
  split
  · rename_i hv
    rw [hv, hlinked.getElem?_eq_iff ha, swapped_eq_iff, swapped, if_pos rfl, some_inj, eq_comm]
  rename_i hva
  rw [Function.update_apply]
  split
  · rename_i hv
    rw [hv, hlinked.getElem?_eq_iff hb, swapped_eq_iff, swapped, if_neg hab.symm, if_pos rfl,
      some_inj, eq_comm]
  · rename_i hvb
    rw [hlinked.position]
    have hat : ∀ c (hc : c < h.nodes.length), v ≠ h.nodes[c] → h.nodes[c]? ≠ some v := by
      intro c hc hne heq
      rw [getElem?_eq_getElem hc, some_inj] at heq
      exact hne heq.symm
    rw [swapped]
    split_ifs with hia hib
    · subst hia
      exact iff_of_false (hat i ha hva) (hat b hb hvb)
    · subst hib
      exact iff_of_false (hat i hb hvb) (hat a ha hva)
    · exact Iff.rfl

/-! ### Order -/

theorem beforeAt_swap (ha : a < h.nodes.length) (hb : b < h.nodes.length) (hab : a ≠ b) :
    (h.swap a b).beforeAt before i j = h.beforeAt before (swapped a b i) (swapped a b j) := by
  rw [beforeAt, getElem?_swap ha hb hab, getElem?_swap ha hb hab, ← beforeAt]

omit [DecidableEq V] in
theorem lt_of_beforeAt (hij : h.beforeAt before i j = true) :
    i < h.nodes.length ∧ j < h.nodes.length := by
  rw [beforeAt.eq_def] at hij
  split at hij
  · rename_i hi hj
    exact ⟨(List.getElem?_eq_some_iff.1 hi).1, (List.getElem?_eq_some_iff.1 hj).1⟩
  · cases hij

omit [DecidableEq V] in
section

variable (hbefore : Ranking before)
include hbefore

theorem beforeAt_asymm (hij : h.beforeAt before i j = true) : h.beforeAt before j i = false := by
  obtain ⟨hi, hj⟩ := lt_of_beforeAt hij
  rw [beforeAt, getElem?_eq_getElem hi, getElem?_eq_getElem hj] at hij ⊢
  exact hbefore.asymm _ _ hij

omit [DecidableEq V] in
theorem beforeAt_trans (hj : j < h.nodes.length)
    (hij : h.beforeAt before i j = false) (hjk : h.beforeAt before j k = false) :
    h.beforeAt before i k = false := by
  rw [beforeAt, getElem?_eq_getElem hj] at hij hjk
  rw [beforeAt.eq_def]
  split
  · rename_i hi hk
    rw [hi] at hij
    rw [hk] at hjk
    exact hbefore.trans _ _ _ hij hjk
  · rfl

omit [DecidableEq V] in
/-- No child is before the one that is chosen. -/
theorem child_spec (hi : 0 < i) (hij : parent i = j) :
    h.beforeAt before i (h.child before j) = false := by
  have hself : ∀ k, h.beforeAt before k k = false := by
    intro k
    cases hk : h.beforeAt before k k with
    | false => rfl
    | true =>
      have hasymm := beforeAt_asymm hbefore hk
      rw [hk] at hasymm
      cases hasymm
  rw [child]
  rcases (parent_eq_iff hi).1 hij with rfl | rfl
  · split
    · rename_i hsecond
      exact beforeAt_asymm hbefore hsecond
    · exact hself _
  · split
    · exact hself _
    · rename_i hsecond
      exact Bool.eq_false_iff.2 hsecond

end

section

omit [DecidableEq V]

theorem parent_child : parent (h.child before i) = i ∧ i < h.child before i := by
  rw [child, parent]
  split
  · omega
  · omega

theorem child_lt (hi : 2 * i + 1 < h.nodes.length) : h.child before i < h.nodes.length := by
  rw [child]
  split
  · rename_i hsecond
    exact (lt_of_beforeAt hsecond).1
  · exact hi

theorem InOrder.off (hin : h.InOrder before k) (hbefore : Ranking before)
    (hp : p < h.nodes.length) : h.Off before k p := by
  refine ⟨fun i hi _ _ hk => hin i hi hk, fun i hi hip hp0 hk => ?_⟩
  have hkp : k ≤ parent i := by
    rw [hip]
    exact Nat.le_trans hk (Nat.le_of_lt (parent_lt hp0))
  have hip' := hin i hi hkp
  rw [hip] at hip'
  exact beforeAt_trans hbefore hp hip' (hin p hp0 hk)

end

/-! ### Down -/

/-- The element that goes down is not before its parent. -/
def Settled (before : V → V → Bool) (h : LinkedHeap V) (k p : ℕ) : Prop :=
  0 < p → k ≤ parent p → h.beforeAt before p (parent p) = false

theorem Off.down (hbefore : Ranking before) (hoff : h.Off before k i) (hk : k ≤ i)
    (hlt : h.beforeAt before (h.child before i) i = true) :
    (h.swap i (h.child before i)).Off before k (h.child before i) ∧
      Settled before (h.swap i (h.child before i)) k (h.child before i) := by
  have hchild : ∀ j, 0 < j → parent j = i → h.beforeAt before j (h.child before i) = false :=
    fun j hj hij => child_spec hbefore hj hij
  obtain ⟨hparent, hic⟩ : parent (h.child before i) = i ∧ i < h.child before i := parent_child
  obtain ⟨hc, hi⟩ := lt_of_beforeAt hlt
  generalize h.child before i = c at *
  have hne : i ≠ c := Nat.ne_of_lt hic
  have hsi : swapped i c i = c := by rw [swapped, if_pos rfl]
  have hsc : swapped i c c = i := by rw [swapped, if_neg hne.symm, if_pos rfl]
  have hsj : ∀ j, j ≠ i → j ≠ c → swapped i c j = j := by
    intro j hji hjc
    rw [swapped, if_neg hji, if_neg hjc]
  refine ⟨⟨fun j hj hjc hpj hkj => ?_, fun j hj hpj _ _ => ?_⟩, fun _ _ => ?_⟩
  · rw [beforeAt_swap hi hc hne]
    by_cases hji : j = i
    · subst hji
      have hpj' := parent_lt hj
      rw [hsi, hsj (parent j) (by omega) (by omega)]
      exact hoff.grand c (by omega) hparent hj hkj
    · rw [hsj j hji hjc]
      by_cases hpi : parent j = i
      · rw [hpi, hsi]
        exact hchild j hj hpi
      · rw [hsj (parent j) hpi hpj]
        exact hoff.order j hj hji hpi hkj
  · have hpj' := parent_lt hj
    rw [beforeAt_swap hi hc hne, hparent, hsi, hsj j (by omega) (by omega)]
    have horder := hoff.order j hj (by omega) (by omega) (by omega)
    rwa [hpj] at horder
  · rw [beforeAt_swap hi hc hne, hparent, hsi, hsc]
    exact beforeAt_asymm hbefore hlt

omit [DecidableEq V] in
theorem Off.inOrder (hbefore : Ranking before) (hoff : h.Off before k i)
    (hsettled : Settled before h k i) (hend : h.beforeAt before (h.child before i) i = false) :
    h.InOrder before k := by
  intro j hj hkj
  by_cases hji : j = i
  · subst hji
    exact hsettled hj hkj
  · by_cases hpi : parent j = i
    · rw [hpi]
      by_cases hc : 2 * i + 1 < h.nodes.length
      · exact beforeAt_trans hbefore (child_lt hc) (child_spec hbefore hj hpi) hend
      · refine Bool.eq_false_iff.2 fun hbefore' => hc ?_
        have hlt := (lt_of_beforeAt hbefore').1
        rcases (parent_eq_iff hj).1 hpi with rfl | rfl
        · exact hlt
        · omega
    · exact hoff.order j hj hji hpi hkj

/-- What goes on as an element is moved: the elements, each at its position. -/
structure Moved (h h' : LinkedHeap V) : Prop where
  perm : h'.nodes.Perm h.nodes
  linked : h'.Linked

theorem Moved.swap (hmoved : Moved h h') (ha : a < h'.nodes.length) (hb : b < h'.nodes.length)
    (hab : a ≠ b) : Moved h (h'.swap a b) :=
  ⟨(perm_swap ha hb).trans hmoved.perm, hmoved.linked.swap ha hb hab⟩

section

variable (hbefore : Ranking before)
include hbefore

theorem down_spec (hlinked : h.Linked) (hoff : h.Off before k i)
    (hk : k ≤ i) (hsettled : Settled before h k i) :
    Moved h (h.down before i) ∧ (h.down before i).InOrder before k := by
  have hstep : ∀ s s' : LinkedHeap V × ℕ,
      (Moved h s.1 ∧ s.1.Off before k s.2 ∧ k ≤ s.2 ∧ Settled before s.1 k s.2) →
      downBody before s = some s' →
      (Moved h s'.1 ∧ s'.1.Off before k s'.2 ∧ k ≤ s'.2 ∧ Settled before s'.1 k s'.2) ∧
        s'.1.nodes.length - s'.2 < s.1.nodes.length - s.2 := by
    rintro s s' ⟨hmoved, hoff', hk', -⟩ hbody
    rw [downBody.eq_def] at hbody
    split at hbody
    · rename_i hlt
      cases hbody
      obtain ⟨hc, hi⟩ := lt_of_beforeAt hlt
      obtain ⟨-, hic⟩ : parent (s.1.child before s.2) = s.2 ∧ s.2 < s.1.child before s.2 :=
        parent_child
      obtain ⟨hoff'', hsettled''⟩ := hoff'.down hbefore hk' hlt
      have hmoved' := hmoved.swap hi hc (Nat.ne_of_lt hic)
      refine ⟨⟨hmoved', hoff'', Nat.le_trans hk' (Nat.le_of_lt hic), hsettled''⟩, ?_⟩
      dsimp only
      rw [(perm_swap hi hc).length_eq]
      omega
    · cases hbody
  have hbound : h.nodes.length - i ≤ h.nodes.length := sub_le _ _
  obtain ⟨⟨hmoved, hoff', -, hsettled'⟩, hend⟩ :=
    loop_spec hstep (s := (h, i)) ⟨⟨List.Perm.refl _, hlinked⟩, hoff, hk, hsettled⟩ hbound
  refine ⟨hmoved, hoff'.inOrder hbefore hsettled' ?_⟩
  rw [downBody.eq_def] at hend
  split at hend
  · cases hend
  · rename_i hnot
    exact Bool.eq_false_iff.2 hnot

/-! ### Up -/

theorem Off.up (hoff : h.Off before 0 i) (hi0 : 0 < i)
    (hlt : h.beforeAt before i (parent i) = true) :
    (h.swap i (parent i)).Off before 0 (parent i) := by
  obtain ⟨hi, hp⟩ := lt_of_beforeAt hlt
  have hpi := parent_lt hi0
  have hne : i ≠ parent i := Nat.ne_of_gt hpi
  have hsi : swapped i (parent i) i = parent i := by rw [swapped, if_pos rfl]
  have hsp : swapped i (parent i) (parent i) = i := by rw [swapped, if_neg hne.symm, if_pos rfl]
  have hsj : ∀ j, j ≠ i → j ≠ parent i → swapped i (parent i) j = j := by
    intro j hji hjp
    rw [swapped, if_neg hji, if_neg hjp]
  refine ⟨fun j hj hjp hpj _ => ?_, fun j hj hpj hp0 _ => ?_⟩
  · rw [beforeAt_swap hi hp hne]
    have hji : j ≠ i := fun heq => hpj (heq ▸ rfl)
    rw [hsj j hji hjp]
    by_cases hpji : parent j = i
    · rw [hpji, hsi]
      exact hoff.grand j hj hpji hi0 (zero_le _)
    · rw [hsj (parent j) hpji hpj]
      exact hoff.order j hj hji hpji (zero_le _)
  · rw [beforeAt_swap hi hp hne]
    have hpp := parent_lt hp0
    have hgrand := hoff.order (parent i) hp0 hne.symm (by omega) (zero_le _)
    rw [hsj (parent (parent i)) (by omega) (by omega)]
    by_cases hji : j = i
    · rw [hji, hsi]
      exact hgrand
    · have hpj' := parent_lt hj
      rw [hsj j hji (by omega)]
      have horder := hoff.order j hj hji (by omega) (zero_le _)
      rw [hpj] at horder
      exact beforeAt_trans hbefore hp horder hgrand

theorem update_spec (hlinked : h.Linked) {v : V}
    (hoff : ∀ i, h.position v = some i → h.Off before 0 i)
    (hnone : h.position v = none → h.InOrder before 0) :
    Moved h (h.update before v) ∧ (h.update before v).InOrder before 0 := by
  rw [update]
  cases hv : h.position v with
  | none => exact ⟨⟨List.Perm.refl _, hlinked⟩, hnone hv⟩
  | some i =>
    have hstep : ∀ s s' : LinkedHeap V × ℕ, (Moved h s.1 ∧ s.1.Off before 0 s.2) →
        upBody before s = some s' → (Moved h s'.1 ∧ s'.1.Off before 0 s'.2) ∧ s'.2 < s.2 := by
      rintro s s' ⟨hmoved, hoff'⟩ hbody
      rw [upBody.eq_def] at hbody
      split at hbody
      · rename_i hlt
        rw [Bool.and_eq_true, decide_eq_true_iff] at hlt
        cases hbody
        obtain ⟨hi, hp⟩ := lt_of_beforeAt hlt.2
        have hpi := parent_lt hlt.1
        exact ⟨⟨hmoved.swap hi hp (Nat.ne_of_gt hpi), hoff'.up hbefore hlt.1 hlt.2⟩, hpi⟩
      · cases hbody
    obtain ⟨⟨hmoved, hoff'⟩, hend⟩ :=
      loop_spec hstep (s := (h, i)) ⟨⟨List.Perm.refl _, hlinked⟩, hoff i hv⟩ (Nat.le_refl i)
    dsimp only
    generalize loop (upBody before) i (h, i) = s at hmoved hoff' hend
    have hsettled : Settled before s.1 0 s.2 := by
      intro hi0 _
      rw [upBody.eq_def] at hend
      split at hend
      · cases hend
      · rename_i hnot
        rw [Bool.and_eq_true, decide_eq_true_iff, not_and] at hnot
        exact Bool.eq_false_iff.2 (hnot hi0)
    obtain ⟨hmoved', hin⟩ := down_spec hbefore hmoved.linked hoff' (zero_le _) hsettled
    exact ⟨⟨hmoved'.perm.trans hmoved.perm, hmoved'.linked⟩, hin⟩

/-! ### The first element -/

omit [DecidableEq V] in
/-- No element is before the first. -/
theorem InOrder.first (hin : h.InOrder before 0)
    (hi : i < h.nodes.length) (hi0 : 0 < i) : h.beforeAt before i 0 = false := by
  induction i using Nat.strongRecOn with
  | ind i ih =>
    have hp := parent_lt hi0
    have hstep := hin i hi0 (zero_le _)
    by_cases hp0 : parent i = 0
    · rwa [hp0] at hstep
    · exact beforeAt_trans hbefore (by omega) hstep
        (ih (parent i) hp (by omega) (Nat.pos_of_ne_zero hp0))

end

/-- The elements and their positions, from a list. -/
theorem linked_list {nodes : List V} (hnodes : nodes.Nodup) : Linked
    (⟨nodes, fun v => if nodes.contains v then some (nodes.idxOf v) else none⟩ : LinkedHeap V) where
  nodup := hnodes
  position v i := by
    dsimp only
    split
    · rename_i hv
      have hlt := idxOf_lt_length_iff.2 (contains_iff_mem.1 hv)
      have hat : nodes[nodes.idxOf v]? = some v := by
        rw [getElem?_eq_getElem hlt, getElem_idxOf]
      rw [some_inj]
      refine ⟨fun heq => heq ▸ hat, fun heq => ?_⟩
      exact (getElem?_inj hlt hnodes).1 (hat.trans heq.symm)
    · rename_i hv
      refine iff_of_false (fun heq => (nomatch heq)) fun heq => hv ?_
      exact contains_iff_mem.2 (mem_of_getElem? heq)

theorem build_spec (hbefore : Ranking before) {nodes : List V} (hnodes : nodes.Nodup) :
    (build before nodes).nodes.Perm nodes ∧ (build before nodes).Linked ∧
      (build before nodes).InOrder before 0 := by
  have hall : ∀ (n : ℕ) (h : LinkedHeap V), h.Linked → h.nodes.Perm nodes → h.InOrder before n →
      ((List.range n).reverse.foldl (fun h i => h.down before i) h).nodes.Perm nodes ∧
        ((List.range n).reverse.foldl (fun h i => h.down before i) h).Linked ∧
        ((List.range n).reverse.foldl (fun h i => h.down before i) h).InOrder before 0 := by
    intro n
    induction n with
    | zero => exact fun h hlinked hperm hin => ⟨hperm, hlinked, hin⟩
    | succ n ih =>
      intro h hlinked hperm hin
      rw [range_succ, reverse_append, reverse_singleton, singleton_append, foldl_cons]
      have hoff : h.Off before n n := by
        refine ⟨fun i hi _ hpn hn => hin i hi (by omega), fun i _ _ hn0 hn => ?_⟩
        have hlt := parent_lt hn0
        omega
      have hsettled : Settled before h n n := by
        intro hn0 hn
        have hlt := parent_lt hn0
        omega
      obtain ⟨hmoved, hin'⟩ := down_spec hbefore hlinked hoff (Nat.le_refl n) hsettled
      exact ih _ hmoved.linked (hmoved.perm.trans hperm) hin'
  refine hall _ _ (linked_list hnodes) (List.Perm.refl _) fun i hi hk => ?_
  -- the second half has no children
  refine Bool.eq_false_iff.2 fun hlt => ?_
  have hlt' := (lt_of_beforeAt hlt).1
  rw [parent] at hk
  dsimp only at hlt'
  omega

/-- The last element is put first. -/
theorem linked_replace {first last : V} {mid : List V} (hlinked : h.Linked)
    (hnodes : h.nodes = first :: (mid ++ [last])) : Linked (⟨last :: mid, Function.update
      (Function.update h.position first none) last (some 0)⟩ : LinkedHeap V) where
  nodup := by
    have hnodup := hlinked.nodup
    rw [hnodes, nodup_cons] at hnodup
    exact (perm_append_singleton last mid).nodup_iff.1 hnodup.2
  position v i := by
    have hnodup := hlinked.nodup
    rw [hnodes, nodup_cons, mem_append, mem_singleton, not_or] at hnodup
    obtain ⟨⟨hfirst, hne⟩, hrest⟩ := hnodup
    have hlast : last ∉ mid := by
      rw [nodup_append] at hrest
      exact fun hmem => hrest.2.2 last hmem last (mem_singleton_self last) rfl
    dsimp only
    rw [Function.update_apply]
    split
    · rename_i hv
      subst hv
      cases i with
      | zero => simp
      | succ i =>
        refine iff_of_false (by simp) fun heq => hlast ?_
        exact mem_of_getElem? (getElem?_cons_succ.symm.trans heq)
    rename_i hvl
    rw [Function.update_apply]
    split
    · rename_i hv
      subst hv
      refine iff_of_false (by simp) fun heq => ?_
      rcases mem_cons.1 (mem_of_getElem? heq) with heq | hmem
      · exact hne heq
      · exact hfirst hmem
    · rename_i hvf
      rw [hlinked.position, hnodes]
      cases i with
      | zero =>
        refine iff_of_false (fun heq => hvf ?_) fun heq => hvl ?_
        · exact (some_inj.1 heq).symm
        · exact (some_inj.1 heq).symm
      | succ i =>
        rw [getElem?_cons_succ, getElem?_cons_succ, getElem?_append]
        split
        · exact Iff.rfl
        · rename_i hge
          rw [getElem?_eq_none (Nat.le_of_not_lt hge)]
          refine iff_of_false (fun heq => hvl ?_) (by simp)
          exact mem_singleton.1 (mem_of_getElem? heq)

/-- What is taken is the first element, and the rest is a heap again. -/
theorem take_spec (hbefore : Ranking before) (hlinked : h.Linked) (hin : h.InOrder before 0)
    (htake : h.take before = some (v, h')) :
    h.nodes.Perm (v :: h'.nodes) ∧ h'.Linked ∧ h'.InOrder before 0 ∧
      ∀ w ∈ h'.nodes, before w v = false := by
  obtain ⟨first, rest, hnodes⟩ : ∃ first rest, h.nodes = first :: rest := by
    cases hnodes : h.nodes with
    | nil =>
      rw [take, hnodes] at htake
      cases htake
    | cons first rest => exact ⟨first, rest, rfl⟩
  have hall : ∀ w ∈ rest, before w first = false := by
    intro w hw
    obtain ⟨i, hi⟩ := mem_iff_getElem?.1 hw
    have hat : h.nodes[i + 1]? = some w := by
      rw [hnodes, getElem?_cons_succ, hi]
    have hzero : h.nodes[0]? = some first := by
      rw [hnodes]
      rfl
    have hlt := hin.first hbefore (List.getElem?_eq_some_iff.1 hat).1 (succ_pos i)
    rwa [beforeAt, hat, hzero] at hlt
  rcases eq_nil_or_concat' rest with rfl | ⟨mid, last, rfl⟩
  · have heq : h.take before = some (first, ⟨[], Function.update h.position first none⟩) := by
      rw [take, hnodes]
      rfl
    rw [heq, some_inj, Prod.mk.injEq] at htake
    obtain ⟨rfl, rfl⟩ := htake
    rw [hnodes]
    refine ⟨List.Perm.refl _, ⟨nodup_nil, fun w i => ?_⟩, fun i _ _ => rfl, hall⟩
    refine iff_of_false (fun hw => ?_) (by simp)
    dsimp only at hw
    rw [Function.update_apply] at hw
    split at hw
    · cases hw
    · rename_i hne
      rw [hlinked.position, hnodes] at hw
      exact hne (mem_singleton.1 (mem_of_getElem? hw))
  · have heq : h.take before = some (first, (LinkedHeap.mk (last :: mid) (Function.update
        (Function.update h.position first none) last (some 0))).down before 0) := by
      have hdrop : (first :: (mid ++ [last])).dropLast = first :: mid := by
        rw [← cons_append, dropLast_concat]
      have hlast : (first :: (mid ++ [last])).getLast? = some last := by
        rw [← cons_append, getLast?_concat]
      rw [take, hnodes, hdrop, hlast]
      rfl
    rw [heq, some_inj, Prod.mk.injEq] at htake
    obtain ⟨rfl, rfl⟩ := htake
    have hoff : Off before (LinkedHeap.mk (last :: mid) (Function.update
        (Function.update h.position first none) last (some 0))) 0 0 := by
      refine ⟨fun i hi _ hp0 _ => ?_, fun i _ _ h0 _ => absurd h0 (Nat.lt_irrefl 0)⟩
      have hat : ∀ i, 0 < i → i < (last :: mid).length → (last :: mid)[i]? = h.nodes[i]? := by
        intro i hi hlt
        obtain ⟨j, rfl⟩ := Nat.exists_eq_succ_of_ne_zero (Nat.ne_of_gt hi)
        rw [hnodes, getElem?_cons_succ, getElem?_cons_succ,
          getElem?_append_left (lt_of_succ_lt_succ hlt)]
      refine Bool.eq_false_iff.2 fun hlt => ?_
      obtain ⟨hi', hp'⟩ := lt_of_beforeAt hlt
      have horder := hin i hi (zero_le _)
      rw [beforeAt] at hlt horder
      dsimp only at hlt hi' hp'
      rw [hat i hi hi', hat (parent i) (Nat.pos_of_ne_zero hp0) hp', horder] at hlt
      cases hlt
    obtain ⟨hmoved, hin'⟩ := down_spec hbefore (linked_replace hlinked hnodes) hoff
      (Nat.le_refl 0) fun h0 _ => absurd h0 (Nat.lt_irrefl 0)
    have hperm : (LinkedHeap.mk (last :: mid) (Function.update
        (Function.update h.position first none) last (some 0))).nodes.Perm (mid ++ [last]) :=
      (perm_append_singleton last mid).symm
    refine ⟨?_, hmoved.linked, hin', fun w hw => ?_⟩
    · rw [hnodes]
      exact (hperm.symm.trans hmoved.perm.symm).cons first
    · exact hall w (hperm.mem_iff.1 (hmoved.perm.mem_iff.1 hw))

theorem take_eq_none (htake : h.take before = none) : h.nodes = [] := by
  rwa [take, map_eq_none_iff, head?_eq_none_iff] at htake

end LinkedHeap

end Triage
