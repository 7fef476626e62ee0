import Triage.Ui.HistoryLayout

/-!
# The lanes of a history's graph

What one turn of the layout does to the lanes: what waits stays where it is, but for the commit
whose row it is; its parents wait in lanes whose lines begin at its node or are joined from it; and
nothing but the trunk's commits takes a lane kept for them.

## Main results

* `Joins.foldl` : the lines of all parents.
* `laid_linesFrom` : the lanes after a turn.
-/

namespace Triage.HistoryGraph

open Grouping Lanes List Option

set_option linter.unusedSectionVars false

variable {Sha T : Type*} [DecidableEq Sha] {o : LayoutOptions Sha}

/-! ### The trunk's lane -/

theorem onTrunk_iff {sha : Sha} : o.onTrunk sha = true ↔ sha ∈ o.trunk.getD [] := by
  rw [LayoutOptions.onTrunk, contains_iff_mem]

theorem reserved_of_onTrunk {sha : Sha} (h : o.onTrunk sha = true) : o.reserved = 1 := by
  rw [LayoutOptions.reserved, if_neg]
  exact ne_nil_of_mem (onTrunk_iff.1 h)

/-! ### The lines of the parents -/

variable (o) in
/-- What laying the lines of some parents does to the lanes. -/
structure Joins (parents : List Sha) (j j' : Joining Sha) : Prop where
  keep : ∀ k p, content j.lanes k = some p → content j'.lanes k = some p
  only : ∀ k p, content j'.lanes k = some p → content j.lanes k = some p ∨ p ∈ parents
  fresh : ∀ k ∈ j'.fromNode, k ∈ j.fromNode ∨ content j.lanes k = none
  fromNode : ∀ k ∈ j.fromNode, k ∈ j'.fromNode
  merges : ∀ k ∈ j.merges, k ∈ j'.merges
  reach : ∀ p ∈ parents, ∃ k, content j'.lanes k = some p ∧ (k ∈ j'.fromNode ∨ k ∈ j'.merges)
  length : j.lanes.length ≤ j'.lanes.length
  zero : o.reserved ≠ 0 → content j'.lanes 0 = content j.lanes 0

theorem Joins.refl (j : Joining Sha) : Joins o [] j j where
  keep _ _ h := h
  only _ _ h := .inl h
  fresh _ h := .inl h
  fromNode _ h := h
  merges _ h := h
  reach _ h := absurd h not_mem_nil
  length := le_rfl
  zero _ := rfl

theorem Joins.trans {parents parents' : List Sha} {j j' j'' : Joining Sha}
    (h : Joins o parents j j') (h' : Joins o parents' j' j'') :
    Joins o (parents ++ parents') j j'' where
  keep k p hk := h'.keep k p (h.keep k p hk)
  only k p hk := by
    rcases h'.only k p hk with hk | hp
    · exact (h.only k p hk).imp_right (mem_append_left _)
    · exact .inr (mem_append_right _ hp)
  fresh k hk := by
    rcases h'.fresh k hk with hk | hk
    · exact h.fresh k hk
    · refine .inr ?_
      cases hj : content j.lanes k with
      | none => rfl
      | some p =>
        rw [h.keep k p hj] at hk
        cases hk
  fromNode k hk := h'.fromNode k (h.fromNode k hk)
  merges k hk := h'.merges k (h.merges k hk)
  reach p hp := by
    rcases mem_append.1 hp with hp | hp
    · obtain ⟨k, hk, hlane⟩ := h.reach p hp
      exact ⟨k, h'.keep k p hk, hlane.imp (h'.fromNode k) (h'.merges k)⟩
    · exact h'.reach p hp
  length := h.length.trans h'.length
  zero hreserved := (h'.zero hreserved).trans (h.zero hreserved)

theorem joins_joinParent (j : Joining Sha) (parent : Sha) :
    Joins o [parent] j (joinParent o j parent) := by
  rw [joinParent]
  split
  · -- a lane waits for the parent
    rename_i lane hlane
    have hwaits := (filter_eq_some_iff.1 hlane).2
    refine ⟨fun _ _ h => h, fun _ _ h => .inl h, fun _ h => .inl h, fun _ h => h,
      fun _ h => mem_append_left _ h, fun p hp => ?_, le_rfl, fun _ => rfl⟩
    rw [mem_singleton.1 hp]
    exact ⟨lane, of_decide_eq_true hwaits, .inr (mem_append_right _ (mem_singleton_self _))⟩
  · -- it takes a free one
    have hfree := content_freeLane o.reserved j.lanes
    have hreserved := le_freeLane o.reserved j.lanes
    refine ⟨fun k p hk => ?_, fun k p hk => ?_, fun k hk => ?_,
      fun k hk => mem_append_left _ hk, fun k hk => hk, fun p hp => ?_, length_le_put,
      fun hne => ?_⟩
    · dsimp only
      rw [content_put, if_neg, hk]
      rintro rfl
      rw [hfree] at hk
      cases hk
    · dsimp only at hk
      rw [content_put] at hk
      split at hk
      · cases hk
        exact .inr (mem_singleton_self _)
      · exact .inl hk
    · rcases mem_append.1 hk with hk | hk
      · exact .inl hk
      · rw [mem_singleton.1 hk]
        exact .inr hfree
    · rw [mem_singleton.1 hp]
      refine ⟨freeLane o.reserved j.lanes, ?_, .inl (mem_append_right _ (mem_singleton_self _))⟩
      dsimp only
      rw [content_put, if_pos rfl]
    · dsimp only
      rw [content_put, if_neg]
      omega

theorem Joins.foldl (parents : List Sha) (j : Joining Sha) :
    Joins o parents j (parents.foldl (joinParent o) j) := by
  induction parents generalizing j with
  | nil => exact .refl j
  | cons parent parents ih =>
    rw [foldl_cons]
    exact (joins_joinParent j parent).trans (ih _)

/-! ### One turn -/

variable {s : Layout Sha T} {sha : Sha} {parents : List Sha}

variable (o s sha) in
/-- Nothing but the commit whose row it is waits on the trunk's lane, if it is the trunk's. -/
def TrunkReady : Prop := o.onTrunk sha = true → ∀ x, content s.lanes 0 = some x → x = sha

theorem laneOf_eq_some {lanes : List (Option Sha)} {k : ℕ} (h : laneOf o lanes sha = some k) :
    o.onTrunk sha = true ∧ k = 0 ∨ content lanes k = some sha := by
  rw [laneOf] at h
  split at h
  · rename_i htrunk
    exact .inl ⟨htrunk, (some.inj h).symm⟩
  · exact .inr (content_waiting h)

/-- Nothing else waits where a commit's node goes. -/
theorem content_nodeLane (h : TrunkReady o s sha) {p : Sha}
    (hp : content s.lanes (nodeLane o s sha) = some p) : p = sha := by
  rw [nodeLane] at hp
  cases hlane : laneOf o s.lanes sha with
  | none =>
    rw [hlane, getD_none, content_freeLane] at hp
    cases hp
  | some k =>
    rw [hlane, getD_some] at hp
    rcases laneOf_eq_some hlane with ⟨htrunk, rfl⟩ | hk
    · exact h htrunk p hp
    · rw [hk] at hp
      exact (some.inj hp).symm

variable (o s sha) in
/-- What a turn does to the lanes. -/
structure Laid (parents : List Sha) (j : Joining Sha) : Prop where
  keep : ∀ k p, content s.lanes k = some p → p ≠ sha →
    content j.lanes k = some p ∧ k ∉ j.fromNode
  only : ∀ k p, content j.lanes k = some p → content s.lanes k = some p ∧ p ≠ sha ∨ p ∈ parents
  reach : ∀ p ∈ parents, ∃ k, content j.lanes k = some p ∧ (k ∈ j.fromNode ∨ k ∈ j.merges)
  node : nodeLane o s sha < j.lanes.length
  zero : o.reserved ≠ 0 → content j.lanes 0 =
    if nodeLane o s sha = 0 then parents.head? else content (release s.lanes sha) 0

theorem laid_linesFrom (h : TrunkReady o s sha) :
    Laid o s sha parents (linesFrom o s sha parents) := by
  have hjoins := Joins.foldl (o := o) parents.tail
    { lanes := put (release s.lanes sha) (nodeLane o s sha) parents.head?
      colors := Function.update s.colors (nodeLane o s sha) (nodeColor o s sha).1
      turn := (nodeColor o s sha).2
      fromNode := if parents = [] then [] else [nodeLane o s sha]
      merges := [] }
  have hkeep : ∀ k p, content s.lanes k = some p → p ≠ sha → k ≠ nodeLane o s sha ∧
      content (put (release s.lanes sha) (nodeLane o s sha) parents.head?) k = some p := by
    intro k p hk hp
    have hne : k ≠ nodeLane o s sha := by
      rintro rfl
      exact hp (content_nodeLane h hk)
    refine ⟨hne, ?_⟩
    rw [content_put, if_neg hne, content_release, if_neg, hk]
    rw [hk]
    exact fun heq => hp (some.inj heq)
  refine ⟨fun k p hk hp => ?_, fun k p hk => ?_, fun p hp => ?_,
    lt_length_put.trans_le hjoins.length, fun hreserved => ?_⟩
  · obtain ⟨hne, hput⟩ := hkeep k p hk hp
    refine ⟨hjoins.keep k p hput, fun hmem => ?_⟩
    rcases hjoins.fresh k hmem with hmem | hfree
    · dsimp only at hmem
      split at hmem
      · cases hmem
      · exact hne (mem_singleton.1 hmem)
    · dsimp only at hfree
      rw [hput] at hfree
      cases hfree
  · rcases hjoins.only k p hk with hk | hp
    · dsimp only at hk
      rw [content_put] at hk
      split at hk
      · exact .inr (mem_of_head? hk)
      · rw [content_release] at hk
        split at hk
        · cases hk
        · rename_i hother
          exact .inl ⟨hk, fun hp => hother (hp ▸ hk)⟩
    · exact .inr (mem_of_mem_tail hp)
  · cases parents with
    | nil => cases hp
    | cons first others =>
      rcases mem_cons.1 hp with rfl | hp
      · refine ⟨nodeLane o s sha, hjoins.keep _ _ ?_, .inl (hjoins.fromNode _ ?_)⟩
        · dsimp only
          rw [content_put, if_pos rfl]
          rfl
        · dsimp only
          rw [if_neg (cons_ne_nil _ _)]
          exact mem_singleton_self _
      · exact hjoins.reach p hp
  · rw [linesFrom, hjoins.zero hreserved]
    dsimp only
    rw [content_put]
    split
    · rename_i hzero
      rw [if_pos hzero.symm]
    · rename_i hzero
      rw [if_neg fun heq => hzero heq.symm]

end Triage.HistoryGraph
