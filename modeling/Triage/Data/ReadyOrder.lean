import Mathlib.Data.Set.Finite.Lemmas
import Mathlib.Data.Finite.Prod

/-!
# Orders that list what is ready

Nodes of an acyclic graph are listed one at a time, each once all its children are listed and, of
those that are ready, the one of the highest rank. There is one such order; a listing goes on until
nothing is ready, and then every node is listed. What is ready can be kept sorted by inserting a
node where a bisection says.

## Main results

* `ReadyGraph.Greedy.concat` : one more node, the highest of those that are ready.
* `ReadyGraph.Greedy.perm` : nothing is ready only where every node is listed.
* `insertIdx_bisect_pairwise` : insertion by bisection keeps a list sorted.
-/

namespace Triage

open List

/-! ### Bisection -/

section Bisect

variable {α : Type*}

/-- The position between `low` and `high` where `p` ends to hold. -/
def bisect (p : α → Bool) (xs : List α) (low high : ℕ) : ℕ :=
  if low < high then
    let middle := (low + high) / 2
    if (xs[middle]?).any p then bisect p xs (middle + 1) high else bisect p xs low middle
  else low
termination_by high - low

/-- A list in which `p` holds up to some position and nowhere after it. -/
theorem bisect_eq {p : α → Bool} {front back : List α} (hfront : ∀ x ∈ front, p x = true)
    (hback : ∀ x ∈ back, p x = false) {low high : ℕ} (hlow : low ≤ front.length)
    (hhigh : front.length ≤ high) (hlength : high ≤ (front ++ back).length) :
    bisect p (front ++ back) low high = front.length := by
  induction low, high using bisect.induct p (front ++ back) with
  | case1 low high hlt middle hany ih =>
    rw [bisect, if_pos hlt]
    change (if ((front ++ back)[middle]?).any p = true then _ else _) = _
    rw [if_pos hany]
    refine ih ?_ hhigh hlength
    by_contra hle
    rw [getElem?_append_right (by omega), Option.any_eq_true] at hany
    obtain ⟨x, hx, hp⟩ := hany
    rw [hback x (mem_of_getElem? hx)] at hp
    cases hp
  | case2 low high hlt middle hany ih =>
    rw [bisect, if_pos hlt]
    change (if ((front ++ back)[middle]?).any p = true then _ else _) = _
    have hmid : middle < high := by omega
    rw [if_neg hany]
    refine ih hlow ?_ (by omega)
    by_contra hle
    have hmem : middle < front.length := by omega
    refine hany ?_
    rw [getElem?_append_left hmem, getElem?_eq_getElem hmem, Option.any_some]
    exact hfront _ (getElem_mem hmem)
  | case3 low high hge =>
    rw [bisect, if_neg hge]
    omega

theorem insertIdx_length (front back : List α) (n : α) :
    (front ++ back).insertIdx front.length n = front ++ n :: back := by
  induction front with
  | nil => simp
  | cons x front ih =>
    rw [cons_append, length_cons, insertIdx_succ_cons, ih, cons_append]

variable {R : Type*} [LinearOrder R] {rank : α → R}

variable {xs : List α} {n : α}

section

variable (h : xs.Pairwise fun a b => rank a < rank b)
include h

/-- A sorted list splits at a rank. -/
theorem exists_split (r : R) :
    ∃ front back, xs = front ++ back ∧ (∀ x ∈ front, rank x < r) ∧ ∀ x ∈ back, r ≤ rank x := by
  induction xs with
  | nil => exact ⟨[], [], rfl, by simp, by simp⟩
  | cons x xs ih =>
    obtain ⟨hx, hxs⟩ := pairwise_cons.1 h
    by_cases hlt : rank x < r
    · obtain ⟨front, back, rfl, hfront, hback⟩ := ih hxs
      refine ⟨x :: front, back, rfl, fun y hy => ?_, hback⟩
      rcases mem_cons.1 hy with rfl | hy
      · exact hlt
      · exact hfront y hy
    · refine ⟨[], x :: xs, rfl, by simp, fun y hy => ?_⟩
      rcases mem_cons.1 hy with rfl | hy
      · exact not_lt.1 hlt
      · exact (not_lt.1 hlt).trans (hx y hy).le

/-- A node is inserted where a bisection says, before all that are not below it. -/
theorem insertIdx_bisect :
    ∃ front back, xs = front ++ back ∧ (∀ x ∈ front, rank x < rank n) ∧
      (∀ x ∈ back, rank n ≤ rank x) ∧
      xs.insertIdx (bisect (fun x => decide (rank x < rank n)) xs 0 xs.length) n =
        front ++ n :: back := by
  obtain ⟨front, back, rfl, hfront, hback⟩ := exists_split h (rank n)
  refine ⟨front, back, rfl, hfront, hback, ?_⟩
  rw [bisect_eq (fun x hx => decide_eq_true (hfront x hx))
    (fun x hx => decide_eq_false (not_lt.2 (hback x hx))) (Nat.zero_le _) (by simp) le_rfl]
  exact insertIdx_length front back n

theorem mem_insertIdx_bisect {x : α} :
    x ∈ xs.insertIdx (bisect (fun x => decide (rank x < rank n)) xs 0 xs.length) n ↔
      x = n ∨ x ∈ xs := by
  obtain ⟨front, back, hxs, -, -, heq⟩ := insertIdx_bisect (n := n) h
  rw [heq, hxs, mem_append, mem_append, mem_cons]
  exact or_left_comm

/-- Insertion by bisection keeps a list sorted. -/
theorem insertIdx_bisect_pairwise (hn : ∀ x ∈ xs, rank x ≠ rank n) :
    (xs.insertIdx (bisect (fun x => decide (rank x < rank n)) xs 0 xs.length) n).Pairwise
      fun a b => rank a < rank b := by
  obtain ⟨front, back, hxs, hfront, hback, heq⟩ := insertIdx_bisect (n := n) h
  rw [heq]
  rw [hxs] at h hn
  obtain ⟨hf, hb, hfb⟩ := pairwise_append.1 h
  refine pairwise_append.2 ⟨hf, pairwise_cons.2 ⟨fun x hx => ?_, hb⟩, ?_⟩
  · exact lt_of_le_of_ne (hback x hx) (hn x (mem_append_right _ hx)).symm
  · intro x hx y hy
    rcases mem_cons.1 hy with rfl | hy
    · exact hfront x hx
    · exact hfb x hx y hy

end

end Bisect

/-! ### What is ready -/

/-- Nodes, which of them are children of which, and a rank. -/
structure ReadyGraph (N R : Type*) where
  nodes : List N
  /-- `child c n` : `c` is listed before `n`. -/
  child : N → N → Prop
  rank : N → R

namespace ReadyGraph

variable {N R : Type*} [LinearOrder R] (G : ReadyGraph N R)

/-- A node not listed yet, all of whose children are. -/
structure Ready (listed : List N) (n : N) : Prop where
  mem : n ∈ G.nodes
  new : n ∉ listed
  children : ∀ c ∈ G.nodes, G.child c n → c ∈ listed

/-- Each node was ready when it was listed, and above all others that were. -/
def Greedy (listed : List N) : Prop :=
  ∀ front n back, listed = front ++ n :: back →
    G.Ready front n ∧ ∀ m, G.Ready front m → m = n ∨ G.rank m < G.rank n

/-- No node is below itself. -/
def Acyclic : Prop :=
  ∀ n, ¬ Relation.TransGen (fun c m => c ∈ G.nodes ∧ m ∈ G.nodes ∧ G.child c m) n n

variable {G} {listed : List N}

theorem Greedy.nil : G.Greedy [] := by
  intro front n back h
  simp at h

section

variable (h : G.Greedy listed)
include h

/-- One more node is listed. -/
theorem Greedy.concat {n : N} (hn : G.Ready listed n)
    (hmax : ∀ m, G.Ready listed m → m = n ∨ G.rank m < G.rank n) : G.Greedy (listed ++ [n]) := by
  intro front m back heq
  rcases eq_nil_or_concat back with rfl | ⟨back, last, rfl⟩
  · obtain ⟨rfl, hm⟩ := append_inj' heq rfl
    rw [List.cons.injEq] at hm
    obtain ⟨rfl, -⟩ := hm
    exact ⟨hn, hmax⟩
  · rw [concat_eq_append, ← cons_append, ← append_assoc] at heq
    obtain ⟨hfront, -⟩ := append_inj' heq rfl
    exact h front m back hfront

/-- A listed node was ready. -/
theorem Greedy.ready_of_mem {n : N} (hn : n ∈ listed) :
    ∃ front back, listed = front ++ n :: back ∧ G.Ready front n := by
  obtain ⟨front, back, rfl⟩ := append_of_mem hn
  exact ⟨front, back, rfl, (h front n back rfl).1⟩

theorem Greedy.subset {n : N} (hn : n ∈ listed) : n ∈ G.nodes := by
  obtain ⟨_, _, _, hready⟩ := h.ready_of_mem hn
  exact hready.mem

/-- The children of a listed node are listed. -/
theorem Greedy.children {n c : N} (hn : n ∈ listed) (hc : c ∈ G.nodes)
    (hchild : G.child c n) : c ∈ listed := by
  obtain ⟨front, back, rfl, hready⟩ := h.ready_of_mem hn
  exact mem_append_left _ (hready.children c hc hchild)

theorem Greedy.nodup : listed.Nodup := by
  induction listed using reverseRecOn with
  | nil => exact nodup_nil
  | append_singleton listed n ih =>
    have hlast := (h listed n [] rfl).1
    refine (ih fun front m back heq => ?_).append (nodup_singleton n) ?_
    · exact h front m (back ++ [n]) (by rw [heq]; simp)
    · simpa using hlast.new

end

omit [LinearOrder R] in
/-- A graph has no cycle where a number grows from each child to its node. -/
theorem acyclic_of_lt (f : N → ℕ) (hf : ∀ c ∈ G.nodes, ∀ n ∈ G.nodes, G.child c n → f c < f n) :
    G.Acyclic := by
  have key : ∀ c n, Relation.TransGen (fun c m => c ∈ G.nodes ∧ m ∈ G.nodes ∧ G.child c m) c n →
      f c < f n := by
    intro c n h
    induction h with
    | single h => exact hf _ h.1 _ h.2.1 h.2.2
    | tail _ h ih => exact ih.trans (hf _ h.1 _ h.2.1 h.2.2)
  exact fun n h => lt_irrefl _ (key n n h)

omit [LinearOrder R] in
/-- Where some node is not listed, one is ready: the graph is finite and has no cycle. -/
theorem exists_ready (hacyclic : G.Acyclic) {n : N} (hn : n ∈ G.nodes) (hnew : n ∉ listed) :
    ∃ m, G.Ready listed m := by
  let below : {m // m ∈ G.nodes} → {m // m ∈ G.nodes} → Prop := fun c m =>
    Relation.TransGen (fun c m => c ∈ G.nodes ∧ m ∈ G.nodes ∧ G.child c m) c.1 m.1
  have hfinite : Finite {m // m ∈ G.nodes} := finite_toSet G.nodes
  have htrans : IsTrans {m // m ∈ G.nodes} below := ⟨fun _ _ _ => Relation.TransGen.trans⟩
  have hirrefl : Std.Irrefl below := ⟨fun m => hacyclic m.1⟩
  have hwf : WellFounded below := Finite.wellFounded_of_trans_of_irrefl below
  obtain ⟨m, hm, hmin⟩ := hwf.has_min {m | m.1 ∉ listed} ⟨⟨n, hn⟩, hnew⟩
  refine ⟨m.1, m.2, hm, fun c hc hchild => ?_⟩
  by_contra hcnew
  exact hmin ⟨c, hc⟩ hcnew (.single ⟨hc, m.2, hchild⟩)

/-- **Where nothing is ready every node is listed.** -/
theorem Greedy.perm (h : G.Greedy listed) (hnodup : G.nodes.Nodup) (hacyclic : G.Acyclic)
    (hnone : ∀ n, ¬ G.Ready listed n) : listed.Perm G.nodes := by
  refine (perm_ext_iff_of_nodup h.nodup hnodup).2 fun n => ⟨h.subset, fun hn => ?_⟩
  by_contra hnew
  obtain ⟨m, hm⟩ := exists_ready hacyclic hn hnew
  exact hnone m hm

end ReadyGraph

end Triage
