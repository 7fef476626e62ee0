import Mathlib.Data.Fintype.EquivFin
import Triage.Data.Links

/-!
# Orders by arrival

The vertices of an acyclic graph are listed once all that links to them was listed: each has the
number of links that are still to arrive, and what has none waits in a queue. Something is carried
along the links as they arrive.

## Main results

* `Arrivals.settle_spec` : the loop ends, and has listed an acyclic graph.
-/

namespace Triage

open List

structure Arrivals (P : Type*) where
  indegree : ℕ → ℕ
  ready : List ℕ
  order : List ℕ
  carried : P

/-- All vertices below a number, none before one that links to it. -/
structure Topological (n : ℕ) (next : ℕ → List ℕ) (order : List ℕ) : Prop where
  perm : order.Perm (List.range n)
  sorted : order.Pairwise fun a b => a ∉ next b

namespace Arrivals

variable {P : Type*} (next : ℕ → List ℕ) (carry : ℕ → P → ℕ → P)

/-- A link arrives, and its vertex waits if that was the last. -/
def arrive (v : ℕ) (s : Arrivals P) (w : ℕ) : Arrivals P where
  indegree := Function.update s.indegree w (s.indegree w - 1)
  ready := if s.indegree w - 1 = 0 then s.ready ++ [w] else s.ready
  order := s.order
  carried := carry v s.carried w

def body (s : Arrivals P) : Option (Arrivals P) :=
  s.ready.head?.map fun v => (next v).foldl (arrive carry v)
    { s with ready := s.ready.tail, order := s.order ++ [v] }

/-- The loop over what is ready, from the numbers of links. -/
def settle (n : ℕ) (indegree : ℕ → ℕ) (carried : P) : Arrivals P :=
  loop (body next carry) n ⟨indegree, (List.range n).filter (indegree · = 0), [], carried⟩

/-- The links to a vertex, from those that are not listed. -/
def open_ (n : ℕ) (order : List ℕ) (w : ℕ) : ℕ :=
  (List.range n).countP fun a => decide (w ∈ next a ∧ a ∉ order)

/-- What was carried along the links of some vertices, in their order. -/
def carryAll (order : List ℕ) (carried : P) : P :=
  order.foldl (fun p v => (next v).foldl (carry v) p) carried

/-- What holds while links arrive. -/
structure Arriving (n : ℕ) (carried : P) (s : Arrivals P) : Prop where
  nodup : (s.order ++ s.ready).Nodup
  within : ∀ v ∈ s.order ++ s.ready, v < n
  indegree : ∀ v < n, s.indegree v = open_ next n s.order v
  ready : ∀ v < n, v ∈ s.order ++ s.ready ↔ s.indegree v = 0
  sorted : s.order.Pairwise fun a b => a ∉ next b
  carried : s.carried = carryAll next carry s.order carried

/-- Links between the vertices below a number, at most one from each to another. -/
structure Numbered (n : ℕ) (next : ℕ → List ℕ) : Prop where
  nodup : ∀ v, (next v).Nodup
  closed : ∀ v < n, ∀ w ∈ next v, w < n

variable {next carry} {n v w : ℕ} {s s' : Arrivals P} {ws order : List ℕ} {carried : P}

/-- The links of one vertex arrive. -/
theorem foldl_arrive (hws : ws.Nodup) : ws.foldl (arrive carry v) s =
    { indegree := fun w => if w ∈ ws then s.indegree w - 1 else s.indegree w
      ready := s.ready ++ ws.filter fun w => s.indegree w - 1 = 0
      order := s.order
      carried := ws.foldl (carry v) s.carried } := by
  induction ws using reverseRecOn with
  | nil => simp
  | append_singleton ws u ih =>
    obtain ⟨hnd, -, hapart⟩ := nodup_append.1 hws
    have hu : u ∉ ws := fun hmem => hapart u hmem u (by simp) rfl
    rw [foldl_append, ih hnd, foldl_cons, foldl_nil, arrive]
    simp only [if_neg hu, filter_append, foldl_append, foldl_cons, foldl_nil,
      Arrivals.mk.injEq, and_true]
    constructor
    · funext w
      by_cases hw : w = u
      · subst hw
        simp
      · rw [Function.update_of_ne hw]
        simp [hw]
    · by_cases hzero : s.indegree u - 1 = 0
      · simp [hzero]
      · simp [hzero]

/-- A vertex that is listed takes its links out of those that are still to arrive. -/
theorem open_append (hv : v < n) (hnot : v ∉ order) :
    open_ next n order w = open_ next n (order ++ [v]) w + if w ∈ next v then 1 else 0 := by
  rw [open_, open_, countP_eq_length_filter, countP_eq_length_filter]
  have hmem : ∀ a, a ∉ order ++ [v] ↔ a ∉ order ∧ a ≠ v := by
    intro a
    simp
  split
  · rename_i hw
    have hperm : ((List.range n).filter fun a => decide (w ∈ next a ∧ a ∉ order)).Perm
        (v :: (List.range n).filter fun a => decide (w ∈ next a ∧ a ∉ order ++ [v])) := by
      rw [perm_ext_iff_of_nodup (nodup_range.filter _)
        (nodup_cons.2 ⟨by simp, nodup_range.filter _⟩)]
      intro a
      simp only [mem_filter, mem_range, mem_cons, decide_eq_true_eq, hmem]
      constructor
      · rintro ⟨ha, hwa, horder⟩
        by_cases hav : a = v
        · exact .inl hav
        · exact .inr ⟨ha, hwa, horder, hav⟩
      · rintro (rfl | ⟨ha, hwa, horder, -⟩)
        · exact ⟨hv, hw, hnot⟩
        · exact ⟨ha, hwa, horder⟩
    rw [hperm.length_eq, length_cons]
  · rename_i hw
    rw [Nat.add_zero]
    refine congrArg List.length (List.filter_congr fun a _ => ?_)
    rw [decide_eq_decide, hmem]
    refine and_congr_right fun hwa => (and_iff_left ?_).symm
    rintro rfl
    exact hw hwa

theorem open_eq_zero : open_ next n order w = 0 ↔ ∀ a < n, w ∈ next a → a ∈ order := by
  rw [open_, countP_eq_zero]
  refine ⟨fun h a ha hw => ?_, fun h a ha => ?_⟩
  · by_contra hnot
    exact h a (mem_range.2 ha) (decide_eq_true ⟨hw, hnot⟩)
  · rw [mem_range] at ha
    rw [decide_eq_true_iff]
    exact fun hw => hw.2 (h a ha hw.1)

/-- The vertex at the front is listed, and its links arrive. -/
theorem Arriving.body (hnumbered : Numbered n next) (hs : Arriving next carry n carried s)
    (hbody : Arrivals.body next carry s = some s') :
    Arriving next carry n carried s' ∧ n - s'.order.length < n - s.order.length := by
  obtain ⟨v, hv, rfl⟩ := Option.map_eq_some_iff.1 hbody
  obtain ⟨rest, hrest⟩ := head?_eq_some_iff.1 hv
  rw [hrest, tail_cons, foldl_arrive (hnumbered.nodup v)]
  obtain ⟨hnodup, hwithin, hindegree, hready, hsorted, hcarried⟩ := hs
  rw [hrest] at hnodup hwithin hready
  have hvn : v < n := hwithin v (by simp)
  have hvnot : v ∉ s.order := fun hmem => disjoint_of_nodup_append hnodup hmem (by simp)
  -- what `v` links to still waits for that link
  have hpos : ∀ w ∈ next v, s.indegree w ≠ 0 := by
    intro w hw hzero
    rw [hindegree w (hnumbered.closed v hvn w hw), open_eq_zero] at hzero
    exact hvnot (hzero v hvn hw)
  have hmove : ∀ new, s.order ++ [v] ++ (rest ++ new) = s.order ++ v :: rest ++ new := by simp
  have hnext : ∀ w < n, (if w ∈ next v then s.indegree w - 1 else s.indegree w) =
      open_ next n (s.order ++ [v]) w := by
    intro w hw
    rw [hindegree w hw, open_append hvn hvnot]
    split <;> simp
  have hnew : ∀ w, w ∈ (next v).filter (fun w => s.indegree w - 1 = 0) →
      w < n ∧ w ∉ s.order ++ v :: rest := by
    intro w hw
    have hlink := mem_of_mem_filter hw
    have hwn := hnumbered.closed v hvn w hlink
    exact ⟨hwn, fun hmem => hpos w hlink ((hready w hwn).1 hmem)⟩
  have hlength : (s.order ++ v :: rest).length ≤ n := by
    have hsub : (s.order ++ v :: rest).Subperm (List.range n) :=
      hnodup.subperm fun w hw => mem_range.2 (hwithin w hw)
    simpa using hsub.length_le
  rw [length_append, length_cons] at hlength
  refine ⟨⟨?_, fun w hw => ?_, hnext, fun w hw => ?_, ?_, ?_⟩, ?_⟩
  · rw [hmove]
    exact hnodup.append ((hnumbered.nodup v).filter _) fun w hw hw' => (hnew w hw').2 hw
  · rw [hmove, mem_append] at hw
    exact hw.elim (hwithin w) fun hw => (hnew w hw).1
  · rw [hmove, mem_append, hready w hw, mem_filter, decide_eq_true_iff]
    by_cases hlink : w ∈ next v
    · have hne := hpos w hlink
      simp only [hlink, hne, true_and, false_or, if_true]
    · simp only [hlink, false_and, or_false, if_false]
  · refine pairwise_append.2 ⟨hsorted, pairwise_singleton _ _, fun a ha b hb => ?_⟩
    rw [mem_singleton.1 hb]
    intro hlink
    have hold : a ∈ s.order ++ v :: rest := mem_append_left _ ha
    exact hpos a hlink ((hready a (hwithin a hold)).1 hold)
  · change (next v).foldl (carry v) s.carried = _
    rw [hcarried, carryAll, carryAll, foldl_append]
    rfl
  · dsimp only
    rw [length_append, length_singleton]
    omega

/-- **The loop ends**, and where no vertex leads back to itself it has listed all of them. -/
theorem settle_spec (carry : ℕ → P → ℕ → P) (carried : P) (hnumbered : Numbered n next)
    {indegree : ℕ → ℕ} (hindegree : ∀ v < n, indegree v = open_ next n [] v)
    (hacyclic : ∀ v, ¬Relation.TransGen (fun a b => b ∈ next a) v v) :
    Topological n next (settle next carry n indegree carried).order ∧
      (settle next carry n indegree carried).carried =
        carryAll next carry (settle next carry n indegree carried).order carried := by
  have hbegun : Arriving next carry n carried
      ⟨indegree, (List.range n).filter (indegree · = 0), [], carried⟩ := by
    refine ⟨nodup_range.filter _, fun v hv => ?_, hindegree, fun v hv => ?_, List.Pairwise.nil, rfl⟩
    · exact mem_range.1 (mem_of_mem_filter hv)
    · simp [hv]
  obtain ⟨hs, hnone⟩ := loop_spec (I := Arriving next carry n carried)
    (fun _ _ hs hbody => hs.body hnumbered hbody) hbegun (Nat.sub_le n _)
  rw [settle]
  generalize loop (body next carry) n _ = s at hs hnone
  have hempty : s.ready = [] := by
    rwa [body, Option.map_eq_none_iff, head?_eq_none_iff] at hnone
  obtain ⟨hnodup, hwithin, hindegree', hready, hsorted, hcarried⟩ := hs
  rw [hempty, append_nil] at hnodup hwithin hready
  refine ⟨⟨(perm_ext_iff_of_nodup hnodup nodup_range).2 fun v => ?_, hsorted⟩, hcarried⟩
  rw [mem_range]
  refine ⟨hwithin v, fun hv => ?_⟩
  -- the links go round in no cycle, so each vertex comes after those that lead to it
  let before (a b : Fin n) : Prop := Relation.TransGen (fun a b => b ∈ next a) a.1 b.1
  have : IsTrans (Fin n) before := ⟨fun a b c hab hbc => hab.trans hbc⟩
  have : Std.Irrefl before := ⟨fun a => hacyclic a.1⟩
  have hall : ∀ a : Fin n, a.1 ∈ s.order := by
    intro a
    induction a using (Finite.wellFounded_of_trans_of_irrefl before).induction with
    | _ a ih =>
      rw [hready a.1 a.2, hindegree' a.1 a.2, open_eq_zero]
      exact fun b hb hlink => ih ⟨b, hb⟩ (Relation.TransGen.single hlink)
  exact hall ⟨v, hv⟩

end Arrivals

end Triage
