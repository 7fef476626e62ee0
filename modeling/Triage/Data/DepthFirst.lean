import Mathlib.Algebra.Order.BigOperators.Group.List
import Mathlib.Algebra.Order.Ring.Nat
import Mathlib.Data.List.Induction
import Triage.Data.Links

/-!
# Depth-first orders

A depth-first walk enters each vertex once, follows its links in their order and finishes it when
all of them were followed. In the order in which they finish, a vertex that leads to one that
finishes later leads, round a cycle, to one that holds it back.

## Main results

* `DepthFirst.order_spec` : the walk ends, and its order lists each vertex once.
-/

namespace Triage

open List

structure DepthFirst (V : Type*) where
  stack : List (V × List V)
  seen : List V
  finish : List V

/-- What a vertex leads to has finished with it, or else a vertex of a cycle of its own has not. -/
def Finishing {V : Type*} (next : V → List V) (finish : List V) : Prop :=
  ∀ pre y post, finish = pre ++ y :: post → ∀ x, Links.Leads next y x →
    x ∈ pre ++ [y] ∨ ∃ t, t ∉ pre ++ [y] ∧ Links.Leads next y t ∧ Links.Leads next t y

namespace DepthFirst

variable {V : Type*} [DecidableEq V] (next : V → List V)

def body (s : DepthFirst V) : Option (DepthFirst V) :=
  match s.stack with
  | [] => none
  | (v, []) :: rest => some { s with stack := rest, finish := s.finish ++ [v] }
  | (v, w :: ws) :: rest =>
    if w ∈ s.seen then some { s with stack := (v, ws) :: rest }
    else some { s with stack := (w, next w) :: (v, ws) :: rest, seen := s.seen ++ [w] }

/-- The walk from a vertex that was not seen. -/
def visit (bound : ℕ) (s : DepthFirst V) (v : V) : DepthFirst V :=
  if v ∈ s.seen then s
  else loop (body next) bound { s with stack := [(v, next v)], seen := s.seen ++ [v] }

/-- The steps that a vertex takes: to enter and to finish it, and one for each link. -/
def steps (v : V) : ℕ := 2 + (next v).length

def order (vertices : List V) : List V :=
  (vertices.foldl (visit next (vertices.map (steps next)).sum) ⟨[], [], []⟩).finish

/-- What holds while the walk goes on. -/
structure Walking (vertices : List V) (s : DepthFirst V) : Prop where
  seen : s.seen.Perm (s.finish ++ s.stack.map Prod.fst)
  nodup : s.seen.Nodup
  within : ∀ v ∈ s.seen, v ∈ vertices
  chain : s.stack.Pairwise fun above below => Links.Leads next below.1 above.1
  follow : ∀ p ∈ s.stack, (∀ w ∈ p.2, w ∈ next p.1) ∧ ∀ w ∈ next p.1, w ∈ p.2 ∨ w ∈ s.seen
  closed : ∀ v ∈ s.finish, ∀ w ∈ next v, w ∈ s.seen
  finishing : Finishing next s.finish

/-- The steps that are left: those of the stack, and those of what is not seen. -/
def left (vertices : List V) (s : DepthFirst V) : ℕ :=
  (s.stack.map fun p => 1 + p.2.length).sum +
    ((vertices.filter fun v => v ∉ s.seen).map (steps next)).sum

variable {next} {vertices : List V} {s s' : DepthFirst V} {v w : V} {ws : List V}
  {rest : List (V × List V)}

/-! ### Steps -/

/-- A vertex that is entered takes its steps out of what is not seen. -/
theorem sum_unseen {seen : List V} (hvertices : vertices.Nodup) (hw : w ∈ vertices)
    (hnot : w ∉ seen) :
    ((vertices.filter fun v => v ∉ seen).map (steps next)).sum =
      steps next w + ((vertices.filter fun v => v ∉ seen ++ [w]).map (steps next)).sum := by
  have hperm : (vertices.filter fun v => v ∉ seen).Perm
      (w :: vertices.filter fun v => v ∉ seen ++ [w]) := by
    rw [perm_ext_iff_of_nodup (hvertices.filter _)
      (nodup_cons.2 ⟨by simp, hvertices.filter _⟩)]
    intro v
    simp only [mem_filter, mem_cons, mem_append, decide_eq_true_eq, not_mem_nil, or_false, not_or]
    constructor
    · rintro ⟨hv, hseen⟩
      by_cases hvw : v = w
      · exact .inl hvw
      · exact .inr ⟨hv, hseen, hvw⟩
    · rintro (rfl | ⟨hv, hseen, -⟩)
      · exact ⟨hw, hnot⟩
      · exact ⟨hv, hseen⟩
  rw [(hperm.map _).sum_eq, map_cons, sum_cons]

section

omit [DecidableEq V]

/-- A vertex whose links were all followed finishes. -/
theorem Walking.finish (hs : Walking next vertices s) (hstack : s.stack = (v, []) :: rest) :
    Walking next vertices { s with stack := rest, finish := s.finish ++ [v] } := by
  obtain ⟨hseen, hnodup, hwithin, hchain, hfollow, hclosed, hfinishing⟩ := hs
  rw [hstack] at hseen hchain hfollow
  have hperm : s.seen.Perm (s.finish ++ [v] ++ rest.map Prod.fst) := by
    rw [append_assoc]
    exact hseen
  have hv := (hfollow (v, []) mem_cons_self).2
  have hclosed' : ∀ u ∈ s.finish ++ [v], ∀ w ∈ next u, w ∈ s.seen := by
    intro u hu w hw
    rcases mem_append.1 hu with hu | hu
    · exact hclosed u hu w hw
    · rw [mem_singleton.1 hu] at hw
      exact (hv w hw).resolve_left not_mem_nil
  refine ⟨hperm, hnodup, hwithin, (pairwise_cons.1 hchain).2,
    fun p hp => hfollow p (mem_cons_of_mem _ hp), hclosed', fun pre y post heq x hx => ?_⟩
  rcases eq_nil_or_concat post with rfl | ⟨post, z, rfl⟩
  · obtain ⟨rfl, hy⟩ := append_inj' heq rfl
    obtain rfl : v = y := by simpa using hy
    -- along a path, what has finished is left to what is still below on the stack
    induction hx with
    | refl => exact .inl (by simp)
    | tail hlead hw ih =>
      rename_i u w
      rcases ih with hu | hex
      · have hmem := hperm.mem_iff.1 (hclosed' u hu w hw)
        rcases mem_append.1 hmem with hmem | hmem
        · exact .inl hmem
        · obtain ⟨p, hp, rfl⟩ := mem_map.1 hmem
          refine .inr ⟨p.1, fun hfin => ?_, hlead.tail hw, (pairwise_cons.1 hchain).1 p hp⟩
          have hnd := hperm.nodup_iff.1 hnodup
          exact disjoint_of_nodup_append hnd hfin hmem
      · exact .inr hex
  · rw [concat_eq_append, ← cons_append, ← append_assoc] at heq
    obtain ⟨hfin, -⟩ := append_inj' heq rfl
    exact hfinishing pre y post hfin x hx

/-- A vertex that was not seen is entered. -/
theorem Walking.enter (hclosed : ∀ v ∈ vertices, ∀ w ∈ next v, w ∈ vertices)
    (hs : Walking next vertices s) (hstack : s.stack = (v, w :: ws) :: rest) (hw : w ∉ s.seen) :
    Walking next vertices
      { s with stack := (w, next w) :: (v, ws) :: rest, seen := s.seen ++ [w] } := by
  obtain ⟨hseen, hnodup, hwithin, hchain, hfollow, hdone, hfinishing⟩ := hs
  rw [hstack] at hseen hchain hfollow
  have hv := hfollow (v, w :: ws) mem_cons_self
  have hlink : w ∈ next v := hv.1 w mem_cons_self
  have hvseen : v ∈ s.seen := hseen.mem_iff.2 (by simp)
  have hleads : ∀ p ∈ (v, ws) :: rest, Links.Leads next p.1 w := by
    intro p hp
    rcases mem_cons.1 hp with rfl | hp
    · exact Relation.ReflTransGen.single hlink
    · exact ((pairwise_cons.1 hchain).1 p hp).tail hlink
  refine ⟨?_, ?_, fun u hu => ?_, ?_, fun p hp => ?_, fun u hu x hx => ?_, hfinishing⟩
  · refine (hseen.append_right [w]).trans ?_
    rw [append_assoc]
    exact List.Perm.append_left _ perm_append_comm
  · exact hnodup.append (nodup_singleton w) (by simpa using hw)
  · rcases mem_append.1 hu with hu | hu
    · exact hwithin u hu
    · rw [mem_singleton.1 hu]
      exact hclosed v (hwithin v hvseen) w hlink
  · exact pairwise_cons.2 ⟨hleads, pairwise_cons.2 (pairwise_cons.1 hchain)⟩
  · rcases mem_cons.1 hp with rfl | hp
    · exact ⟨fun x hx => hx, fun x hx => .inl hx⟩
    · rcases mem_cons.1 hp with rfl | hp
      · refine ⟨fun x hx => hv.1 x (mem_cons_of_mem w hx), fun x hx => ?_⟩
        rcases hv.2 x hx with hmem | hmem
        · rcases mem_cons.1 hmem with rfl | hmem
          · exact .inr (by simp)
          · exact .inl hmem
        · exact .inr (mem_append_left _ hmem)
      · have hold := hfollow p (mem_cons_of_mem _ hp)
        exact ⟨hold.1, fun x hx => (hold.2 x hx).imp_right (mem_append_left _)⟩
  · exact mem_append_left _ (hdone u hu x hx)

/-- A link to a vertex that was seen is passed over. -/
theorem Walking.skip (hs : Walking next vertices s) (hstack : s.stack = (v, w :: ws) :: rest)
    (hw : w ∈ s.seen) : Walking next vertices { s with stack := (v, ws) :: rest } := by
  obtain ⟨hseen, hnodup, hwithin, hchain, hfollow, hdone, hfinishing⟩ := hs
  rw [hstack] at hseen hchain hfollow
  refine ⟨hseen, hnodup, hwithin, pairwise_cons.2 (pairwise_cons.1 hchain),
    fun p hp => ?_, hdone, hfinishing⟩
  rcases mem_cons.1 hp with rfl | hp
  · have hv := hfollow (v, w :: ws) mem_cons_self
    refine ⟨fun x hx => hv.1 x (mem_cons_of_mem w hx), fun x hx => ?_⟩
    rcases hv.2 x hx with hmem | hmem
    · rcases mem_cons.1 hmem with rfl | hmem
      · exact .inr hw
      · exact .inl hmem
    · exact .inr hmem
  · exact hfollow p (mem_cons_of_mem _ hp)

end

/-- One step of the walk. -/
theorem Walking.body (hvertices : vertices.Nodup)
    (hclosed : ∀ v ∈ vertices, ∀ w ∈ next v, w ∈ vertices) (hs : Walking next vertices s)
    (hbody : DepthFirst.body next s = some s') :
    Walking next vertices s' ∧ left next vertices s' < left next vertices s := by
  rw [DepthFirst.body.eq_def] at hbody
  split at hbody
  · cases hbody
  · rename_i v rest hstack
    cases hbody
    refine ⟨hs.finish hstack, ?_⟩
    rw [left, left, hstack, map_cons, sum_cons]
    dsimp only
    omega
  · rename_i v w ws rest hstack
    split at hbody
    · rename_i hw
      cases hbody
      refine ⟨hs.skip hstack hw, ?_⟩
      rw [left, left, hstack, map_cons, map_cons, sum_cons, sum_cons, length_cons]
      dsimp only
      omega
    · rename_i hw
      cases hbody
      have hv : v ∈ vertices := hs.within v (hs.seen.mem_iff.2 (by simp [hstack]))
      have hlink : w ∈ next v := (hs.follow (v, w :: ws) (by simp [hstack])).1 w (by simp)
      refine ⟨hs.enter hclosed hstack hw, ?_⟩
      rw [left, left, sum_unseen hvertices (hclosed v hv w hlink) hw, hstack, steps]
      simp only [map_cons, sum_cons, length_cons]
      omega

theorem seen_of_body (hbody : body next s = some s') (h : v ∈ s.seen) : v ∈ s'.seen := by
  rw [body.eq_def] at hbody
  split at hbody
  · cases hbody
  · cases hbody
    exact h
  · split at hbody
    · cases hbody
      exact h
    · cases hbody
      exact mem_append_left _ h

theorem stack_eq_nil (h : body next s = none) : s.stack = [] := by
  rw [body.eq_def] at h
  split at h
  · assumption
  · cases h
  · split at h <;> cases h

/-! ### Walks -/

/-- A walk from a vertex ends with the vertex seen. -/
theorem Walking.visit (hvertices : vertices.Nodup)
    (hclosed : ∀ v ∈ vertices, ∀ w ∈ next v, w ∈ vertices) (hs : Walking next vertices s)
    (hstack : s.stack = []) (hv : v ∈ vertices) {bound : ℕ}
    (hbound : (vertices.map (steps next)).sum ≤ bound) :
    Walking next vertices (DepthFirst.visit next bound s v) ∧
      (DepthFirst.visit next bound s v).stack = [] ∧
      v ∈ (DepthFirst.visit next bound s v).seen ∧
      ∀ u ∈ s.seen, u ∈ (DepthFirst.visit next bound s v).seen := by
  rw [DepthFirst.visit]
  split
  · rename_i hseen
    exact ⟨hs, hstack, hseen, fun u hu => hu⟩
  · rename_i hseen
    have hperm : s.seen.Perm s.finish := by
      have hall := hs.seen
      rwa [hstack, map_nil, append_nil] at hall
    have hbegun : Walking next vertices
        { s with stack := [(v, next v)], seen := s.seen ++ [v] } := by
      refine ⟨hperm.append_right [v],
        hs.nodup.append (nodup_singleton v) (by simpa using hseen), fun u hu => ?_,
        pairwise_singleton _ _, fun p hp => ?_,
        fun u hu w hw => mem_append_left _ (hs.closed u hu w hw), hs.finishing⟩
      · rcases mem_append.1 hu with hu | hu
        · exact hs.within u hu
        · rw [mem_singleton.1 hu]
          exact hv
      · rw [mem_singleton.1 hp]
        exact ⟨fun w hw => hw, fun w hw => .inl hw⟩
    have hleft : left next vertices { s with stack := [(v, next v)], seen := s.seen ++ [v] } ≤
        bound := by
      have hsum : _ = steps next v + _ := sum_unseen hvertices hv hseen
      have hle : ((vertices.filter fun v => v ∉ s.seen).map (steps next)).sum ≤
          (vertices.map (steps next)).sum :=
        (filter_sublist.map _).sum_le_sum fun _ _ => Nat.zero_le _
      rw [left]
      simp only [map_cons, map_nil, sum_cons, sum_nil]
      rw [steps] at hsum
      omega
    obtain ⟨⟨hwalk, hmono⟩, hnone⟩ := loop_spec
      (I := fun s' => Walking next vertices s' ∧ ∀ u ∈ s.seen ++ [v], u ∈ s'.seen)
      (fun _ _ ⟨hwalk, hmono⟩ hbody =>
        have hstep := hwalk.body hvertices hclosed hbody
        ⟨⟨hstep.1, fun u hu => seen_of_body hbody (hmono u hu)⟩, hstep.2⟩)
      ⟨hbegun, fun u hu => hu⟩ hleft
    exact ⟨hwalk, stack_eq_nil hnone, hmono v (by simp), fun u hu => hmono u (mem_append_left _ hu)⟩

/-- **The walk ends**, and lists each vertex once, as it finishes. -/
theorem order_spec (hvertices : vertices.Nodup)
    (hclosed : ∀ v ∈ vertices, ∀ w ∈ next v, w ∈ vertices) :
    (order next vertices).Perm vertices ∧ Finishing next (order next vertices) := by
  have hall : ∀ vs : List V, (∀ v ∈ vs, v ∈ vertices) →
      Walking next vertices (vs.foldl (visit next (vertices.map (steps next)).sum) ⟨[], [], []⟩) ∧
      (vs.foldl (visit next (vertices.map (steps next)).sum) ⟨[], [], []⟩).stack = [] ∧
      ∀ v ∈ vs, v ∈ (vs.foldl (visit next (vertices.map (steps next)).sum) ⟨[], [], []⟩).seen := by
    intro vs hvs
    induction vs using reverseRecOn with
    | nil =>
      refine ⟨⟨List.Perm.nil, nodup_nil, fun v hv => (nomatch hv), List.Pairwise.nil,
        fun p hp => (nomatch hp), fun v hv => (nomatch hv), fun pre y post heq => ?_⟩, rfl,
        fun v hv => (nomatch hv)⟩
      exact absurd heq (by simp)
    | append_singleton vs v ih =>
      obtain ⟨hwalk, hstack, hseen⟩ := ih fun u hu => hvs u (mem_append_left _ hu)
      obtain ⟨hwalk', hstack', hv, hmono⟩ :=
        hwalk.visit hvertices hclosed hstack (hvs v (by simp)) le_rfl
      rw [foldl_append]
      refine ⟨hwalk', hstack', fun u hu => ?_⟩
      rcases mem_append.1 hu with hu | hu
      · exact hmono u (hseen u hu)
      · rw [mem_singleton.1 hu]
        exact hv
  obtain ⟨hwalk, hstack, hseen⟩ := hall vertices fun v hv => hv
  refine ⟨?_, hwalk.finishing⟩
  have hperm := hwalk.seen
  rw [hstack, map_nil, append_nil] at hperm
  refine hperm.symm.trans ((perm_ext_iff_of_nodup hwalk.nodup hvertices).2 fun v => ?_)
  exact ⟨hwalk.within v, hseen v⟩

end DepthFirst

end Triage
