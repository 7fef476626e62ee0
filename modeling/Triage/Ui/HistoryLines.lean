import Triage.Ui.HistoryFirstParents
import Triage.Ui.HistoryLanes

/-!
# The lines of a history's graph

Every line that has been begun leads to its commit: to the node of it, once that is drawn, and until
then to the lane that waits for it. One turn of the layout keeps this, so at the end every commit
is connected with its parents.

## Main results

* `Drawn.layoutRow` : a turn keeps it.
-/

namespace Triage.HistoryGraph

open Grouping Lanes List Option Commit

set_option linter.unusedSectionVars false

variable {Sha T : Type*} [DecidableEq Sha] {o : LayoutOptions Sha}

/-! ### Segments -/

/-- Segments of the line to a commit, one after another, from a lane at a row on. -/
inductive Line (drawn : List (Segment × Sha)) (sha : Sha) (row lane : ℕ) : ℕ → ℕ → Prop
  | start : Line drawn sha row lane row lane
  | next {g : Segment} : Line drawn sha row lane g.row g.fromLane → (g, sha) ∈ drawn →
      Line drawn sha row lane (g.row + 1) g.toLane

theorem Line.mono {drawn drawn' : List (Segment × Sha)} {sha : Sha} {row lane row' lane' : ℕ}
    (hsub : ∀ d ∈ drawn, d ∈ drawn') (h : Line drawn sha row lane row' lane') :
    Line drawn' sha row lane row' lane' := by
  induction h with
  | start => exact .start
  | next _ hmem ih => exact .next ih (hsub _ hmem)

/-- The segments from a row: those of the lanes, and those into the lanes that are joined. -/
theorem mem_segmentsTo {row col : ℕ} {j : Joining Sha} {next : Commit Sha T}
    {d : Segment × Sha} : d ∈ segmentsTo o row col j next ↔
      ∃ lane, content j.lanes lane = some d.2 ∧
        (d.1 = ⟨row, if lane ∈ j.fromNode then col else lane, laneAt o j.lanes next d.2 lane,
            j.colors lane⟩ ∨
          lane ∈ j.merges ∧ d.1 = ⟨row, col, laneAt o j.lanes next d.2 lane, j.colors lane⟩) := by
  rw [segmentsTo, mem_append, List.mem_filterMap, List.mem_filterMap]
  constructor
  · rintro (⟨lane, -, hd⟩ | ⟨lane, hlane, hd⟩)
    · obtain ⟨sha, hsha, rfl⟩ := map_eq_some_iff.1 hd
      exact ⟨lane, hsha, .inl rfl⟩
    · obtain ⟨sha, hsha, rfl⟩ := map_eq_some_iff.1 hd
      exact ⟨lane, hsha, .inr ⟨hlane, rfl⟩⟩
  · rintro ⟨lane, hsha, hd | ⟨hlane, hd⟩⟩
    · refine .inl ⟨lane, mem_range.2 (lt_of_content hsha), ?_⟩
      rw [hsha, map_some, ← hd]
    · refine .inr ⟨lane, hlane, ?_⟩
      rw [hsha, map_some, ← hd]

section LaneAt

variable {lanes : List (Option Sha)} {next : Commit Sha T} {p p' : Sha} {k k' : ℕ}

theorem laneAt_of_ne (h : p ≠ next.sha) : laneAt o lanes next p k = k := if_neg h

/-- The lane of a commit that something waits for. -/
theorem exists_laneOf (h : content lanes k = some p) : ∃ lane, laneOf o lanes p = some lane := by
  rw [laneOf]
  split
  · exact ⟨0, rfl⟩
  · exact exists_waiting h

/-- Lines that end in the same lane lead to the same commit. -/
theorem laneAt_inj
    (htrunk : o.onTrunk next.sha = true → ∀ x, content lanes 0 = some x → x = next.sha)
    (hk : content lanes k = some p) (hk' : content lanes k' = some p')
    (h : laneAt o lanes next p k = laneAt o lanes next p' k') : p = p' := by
  -- a lane that is not the next commit's is not where its node goes
  have hnode : ∀ {q q' : Sha} {l l' : ℕ}, content lanes l = some q → content lanes l' = some q' →
      q = next.sha → q' ≠ next.sha → laneAt o lanes next q l ≠ l' := by
    rintro q q' l l' hl hl' rfl hq' heq
    obtain ⟨lane, hlane⟩ := exists_laneOf (o := o) hl
    rw [laneAt, if_pos rfl, hlane, getD_some] at heq
    subst heq
    rcases laneOf_eq_some hlane with ⟨hon, rfl⟩ | hcontent
    · exact hq' (htrunk hon q' hl')
    · rw [hcontent] at hl'
      exact hq' (some.inj hl').symm
  by_cases hp : p = next.sha
  · by_cases hp' : p' = next.sha
    · rw [hp, hp']
    · rw [laneAt_of_ne hp'] at h
      exact absurd h (hnode hk hk' hp hp')
  · by_cases hp' : p' = next.sha
    · rw [laneAt_of_ne hp] at h
      exact absurd h.symm (hnode hk' hk hp' hp)
    · rw [laneAt_of_ne hp, laneAt_of_ne hp'] at h
      rw [h, hk'] at hk
      exact (some.inj hk).symm

theorem laneAt_lt (hk : content lanes k = some p) : laneAt o lanes next p k < lanes.length := by
  have hlt := lt_of_content hk
  rw [laneAt]
  split
  · rename_i hp
    obtain ⟨lane, hlane⟩ := exists_laneOf (o := o) hk
    rw [← hp, hlane, getD_some]
    rcases laneOf_eq_some hlane with ⟨-, rfl⟩ | hcontent
    · omega
    · exact lt_of_content hcontent
  · exact hlt

theorem laneOf_trim : laneOf o (trim lanes) p = laneOf o lanes p := by
  rw [laneOf, laneOf, waiting_trim]

theorem laneAt_trim : laneAt o (trim lanes) next p k = laneAt o lanes next p k := by
  rw [laneAt, laneAt, laneOf_trim]

end LaneAt

/-! ### What holds before a turn -/

variable (o) in
/-- A line to a commit has come to its node, or to a lane that waits for it at the next row. -/
def Leads (i : ℕ) (rest : List (Commit Sha T)) (s : Layout Sha T) (p : Sha) (row lane : ℕ) : Prop :=
  (∃ (j : ℕ) (node : Row Sha T), s.rows[j]? = some node ∧ node.commit.sha = p ∧
    Line s.drawn p row lane j node.col) ∨
  ∃ k next, rest.head? = some next ∧ content s.lanes k = some p ∧
    Line s.drawn p row lane i (laneAt o s.lanes next p k)

variable (o) in
/-- What holds before the turn of a row. -/
structure Drawn (ordered : List (Commit Sha T)) (i : ℕ) (rest : List (Commit Sha T))
    (s : Layout Sha T) : Prop where
  rows : s.rows.map Row.commit ++ rest = ordered
  length : s.rows.length = i
  waits : ∀ k p, content s.lanes k = some p → p ∈ rest.map Commit.sha
  parents : ∀ row node, s.rows[row]? = some node → ∀ p ∈ node.commit.parents,
    p ∈ ordered.map Commit.sha → Leads o i rest s p row node.col
  lines : ∀ d ∈ s.drawn, Leads o i rest s d.2 (d.1.row + 1) d.1.toLane
  before : ∀ d ∈ s.drawn, d.1.row < i
  apart : ∀ d ∈ s.drawn, ∀ d' ∈ s.drawn, d.1.row = d'.1.row → d.1.toLane = d'.1.toLane →
    d.2 = d'.2
  cols : ∀ node ∈ s.rows, node.col < s.width
  ends : ∀ d ∈ s.drawn, d.1.fromLane < s.width ∧ d.1.toLane < s.width

/-! ### A turn keeps it -/

section Turn

variable {ordered rest : List (Commit Sha T)} {c : Commit Sha T} {s : Layout Sha T} {i : ℕ}

/-- The parents that are listed are still to come. -/
theorem Drawn.parent_mem (h : Drawn o ordered i (c :: rest) s) (hafter : ParentsAfter ordered)
    {p : Sha} (hp : p ∈ c.parents) (hlisted : p ∈ ordered.map sha) : p ∈ rest.map sha := by
  rw [← h.rows] at hafter hlisted
  rw [map_append, mem_append, map_cons, mem_cons] at hlisted
  obtain ⟨-, hcons, hearlier⟩ := pairwise_append.1 hafter.later
  rcases hlisted with hdone | rfl | hrest
  · obtain ⟨a, ha, rfl⟩ := List.mem_map.1 hdone
    exact absurd hp (hearlier a ha c (mem_cons_self ..))
  · exact absurd hp (hafter.self c (mem_append_right _ (mem_cons_self ..)))
  · exact hrest

variable (o ordered rest c s) in
/-- The lanes after a turn. -/
def turnLanes : Joining Sha :=
  linesFrom o s c.sha ((drawnParents o c rest.head?).filter (ordered.map Commit.sha).contains)

variable (o ordered rest c s i) in
/-- The state after a turn. -/
def afterTurn : Layout Sha T := layoutRow o (ordered.map Commit.sha) i c rest.head? s

theorem mem_parents (hlinear : o.linear = false) {p : Sha} :
    p ∈ (drawnParents o c rest.head?).filter (ordered.map sha).contains ↔
      p ∈ c.parents ∧ p ∈ ordered.map sha := by
  have hall : drawnParents o c rest.head? = newSet c.parents := by
    rw [drawnParents.eq_def, hlinear]
    exact if_neg Bool.false_ne_true
  rw [hall, mem_filter, mem_newSet, contains_iff_mem]

variable (o ordered rest c s i) in
theorem content_afterTurn (k : ℕ) : content (afterTurn o ordered rest c s i).lanes k =
    content (turnLanes o ordered rest c s).lanes k := content_trim _ _

theorem laneAt_afterTurn (next : Commit Sha T) (p : Sha) (k : ℕ) :
    laneAt o (afterTurn o ordered rest c s i).lanes next p k =
      laneAt o (turnLanes o ordered rest c s).lanes next p k := laneAt_trim

variable (o ordered rest c s i) in
/-- The node that a turn draws. -/
theorem rows_afterTurn : ∃ node : Row Sha T, node.commit = c ∧ node.col = nodeLane o s c.sha ∧
    (afterTurn o ordered rest c s i).rows = s.rows ++ [node] :=
  ⟨⟨c, nodeLane o s c.sha, (nodeColor o s c.sha).1⟩, rfl, rfl, rfl⟩

variable (o ordered rest c s i) in
/-- The segments that a turn draws. -/
theorem drawn_afterTurn : (afterTurn o ordered rest c s i).drawn = s.drawn ++
    (rest.head?.map (segmentsTo o i (nodeLane o s c.sha) (turnLanes o ordered rest c s))).getD [] :=
  rfl

/-- What has come to the node of its commit stays there, and what waits goes on to its lane. -/
theorem Leads.afterTurn (hlaid : Laid o s c.sha
      ((drawnParents o c rest.head?).filter (ordered.map sha).contains)
      (turnLanes o ordered rest c s)) (hlength : s.rows.length = i)
    (hwaits : ∀ k p, content s.lanes k = some p → p ∈ (c :: rest).map sha)
    {p : Sha} {row lane : ℕ} (h : Leads o i (c :: rest) s p row lane) :
    Leads o (i + 1) rest (afterTurn o ordered rest c s i) p row lane := by
  have hmono : ∀ d ∈ s.drawn, d ∈ (HistoryGraph.afterTurn o ordered rest c s i).drawn :=
    fun d hd => drawn_afterTurn o ordered rest c s i ▸ mem_append_left _ hd
  obtain ⟨node, hcommit, hcol, hrows⟩ := rows_afterTurn o ordered rest c s i
  rcases h with ⟨j, node', hj, hsha, hline⟩ | ⟨k, next, hnext, hk, hline⟩
  · refine .inl ⟨j, node', ?_, hsha, hline.mono hmono⟩
    rw [hrows, getElem?_append_left (List.getElem?_eq_some_iff.1 hj).1, hj]
  · cases hnext
    by_cases hp : p = c.sha
    · -- the commit is drawn where its lane goes
      obtain ⟨k', hk'⟩ := exists_laneOf (o := o) hk
      have hlane : laneAt o s.lanes c p k = node.col := by
        rw [hp] at hk'
        rw [laneAt, if_pos hp, hcol, nodeLane, hk', getD_some, getD_some]
      refine .inl ⟨i, node, ?_, by rw [hcommit, hp], hlane ▸ hline.mono hmono⟩
      rw [hrows, ← hlength, getElem?_concat_length]
    · obtain ⟨hkeep, hfrom⟩ := hlaid.keep k p hk hp
      have hrest : p ∈ rest.map sha := by
        have hmem := hwaits k p hk
        rw [map_cons] at hmem
        exact (mem_cons.1 hmem).resolve_left hp
      obtain ⟨next, hhead⟩ : ∃ next, rest.head? = some next := by
        cases rest with
        | nil => cases hrest
        | cons next rest => exact ⟨next, rfl⟩
      rw [laneAt_of_ne hp] at hline
      have hdrawn : ((⟨i, k, laneAt o (turnLanes o ordered rest c s).lanes next p k,
          (turnLanes o ordered rest c s).colors k⟩ : Segment), p) ∈
          (HistoryGraph.afterTurn o ordered rest c s i).drawn := by
        rw [drawn_afterTurn, hhead]
        refine mem_append_right _ (mem_segmentsTo.2 ⟨k, hkeep, .inl ?_⟩)
        rw [if_neg hfrom]
      refine .inr ⟨k, next, hhead, by rw [content_afterTurn, hkeep], ?_⟩
      rw [laneAt_afterTurn]
      exact .next (g := ⟨i, k, _, _⟩) (hline.mono hmono) hdrawn

/-- A segment that a turn draws leads to where the lane of its commit is at the next row. -/
theorem mem_turn {d : Segment × Sha} (hd : d ∈ (afterTurn o ordered rest c s i).drawn) :
    d ∈ s.drawn ∨ ∃ next k, rest.head? = some next ∧
      content (turnLanes o ordered rest c s).lanes k = some d.2 ∧ d.1.row = i ∧
      d.1.toLane = laneAt o (turnLanes o ordered rest c s).lanes next d.2 k ∧
      (d.1.fromLane = nodeLane o s c.sha ∨ d.1.fromLane = k) := by
  rw [drawn_afterTurn, mem_append] at hd
  refine hd.imp_right fun hd => ?_
  cases hnext : rest.head? with
  | none =>
    rw [hnext] at hd
    cases hd
  | some next =>
    rw [hnext] at hd
    obtain ⟨k, hk, hsegment⟩ := mem_segmentsTo.1 hd
    refine ⟨next, k, rfl, hk, ?_⟩
    rcases hsegment with hsegment | ⟨-, hsegment⟩
    · rw [hsegment]
      refine ⟨rfl, rfl, ?_⟩
      dsimp only
      split
      · exact .inl rfl
      · exact .inr rfl
    · rw [hsegment]
      exact ⟨rfl, rfl, .inl rfl⟩

theorem Drawn.afterTurn (h : Drawn o ordered i (c :: rest) s) (hafter : ParentsAfter ordered)
    (hlinear : o.linear = false) (hready : TrunkReady o s c.sha)
    (hnext : ∀ next, rest.head? = some next →
      TrunkReady o (afterTurn o ordered rest c s i) next.sha) :
    Drawn o ordered (i + 1) rest (afterTurn o ordered rest c s i) := by
  have hlaid : Laid o s c.sha
      ((drawnParents o c rest.head?).filter (ordered.map sha).contains)
      (turnLanes o ordered rest c s) := laid_linesFrom hready
  have hparents : ∀ p, p ∈ c.parents → p ∈ ordered.map sha →
      p ∈ (drawnParents o c rest.head?).filter (ordered.map sha).contains :=
    fun p hp hlisted => (mem_parents hlinear).2 ⟨hp, hlisted⟩
  obtain ⟨node, hcommit, hcol, hrows⟩ := rows_afterTurn o ordered rest c s i
  have hwidth : s.width ≤ (HistoryGraph.afterTurn o ordered rest c s i).width := le_max_left ..
  have hlanes : (turnLanes o ordered rest c s).lanes.length ≤
      (HistoryGraph.afterTurn o ordered rest c s i).width := le_max_right ..
  refine ⟨?_, ?_, fun k p hk => ?_, fun row node' hnode p hp hlisted => ?_, fun d hd => ?_,
    fun d hd => ?_, fun d hd d' hd' hrow hlane => ?_, fun node' hnode => ?_, fun d hd => ?_⟩
  · rw [hrows, map_append, append_assoc, ← h.rows, ← hcommit]
    rfl
  · rw [hrows, length_append, h.length]
    rfl
  · rw [content_afterTurn] at hk
    rcases hlaid.only k p hk with ⟨hk, hne⟩ | hp
    · have hmem := h.waits k p hk
      rw [map_cons] at hmem
      exact (mem_cons.1 hmem).resolve_left hne
    · obtain ⟨hp, hlisted⟩ := (mem_parents hlinear).1 hp
      exact h.parent_mem hafter hp hlisted
  · rw [hrows] at hnode
    rcases Nat.lt_or_ge row s.rows.length with hlt | hge
    · rw [getElem?_append_left hlt] at hnode
      exact (h.parents row node' hnode p hp hlisted).afterTurn hlaid h.length h.waits
    · -- the node of this row: a line begins at it
      rw [getElem?_append_right hge, getElem?_singleton] at hnode
      split at hnode
      · rename_i hrow
        cases hnode
        have hrow : row = i := by
          have := h.length
          omega
        rw [hcommit] at hp
        obtain ⟨k, hk, hbegins⟩ := hlaid.reach p (hparents p hp hlisted)
        have hrest := h.parent_mem hafter hp hlisted
        obtain ⟨next, hhead⟩ : ∃ next, rest.head? = some next := by
          cases rest with
          | nil => cases hrest
          | cons next rest => exact ⟨next, rfl⟩
        have hdrawn : ((⟨i, node.col, laneAt o (turnLanes o ordered rest c s).lanes next p k,
            (turnLanes o ordered rest c s).colors k⟩ : Segment), p) ∈
            (HistoryGraph.afterTurn o ordered rest c s i).drawn := by
          rw [drawn_afterTurn, hhead, hcol]
          refine mem_append_right _ (mem_segmentsTo.2 ⟨k, hk, ?_⟩)
          rcases hbegins with hbegins | hbegins
          · exact .inl (by rw [if_pos hbegins])
          · exact .inr ⟨hbegins, rfl⟩
        refine .inr ⟨k, next, hhead, by rw [content_afterTurn, hk], ?_⟩
        rw [laneAt_afterTurn, hrow]
        exact .next (g := ⟨i, _, _, _⟩) .start hdrawn
      · cases hnode
  · rcases mem_turn hd with hd | ⟨next, k, hhead, hk, hrow, hlane, -⟩
    · exact (h.lines d hd).afterTurn hlaid h.length h.waits
    · refine .inr ⟨k, next, hhead, by rw [content_afterTurn, hk], ?_⟩
      rw [laneAt_afterTurn, hrow, hlane]
      exact .start
  · rcases mem_turn hd with hd | ⟨next, k, -, -, hrow, -⟩
    · exact (h.before d hd).trans (Nat.lt_succ_self i)
    · omega
  · rcases mem_turn hd with hd | ⟨next, k, hhead, hk, hrow', hlane', -⟩
    · rcases mem_turn hd' with hd' | ⟨next, k, -, -, hrow', -⟩
      · exact h.apart d hd d' hd' hrow hlane
      · have := h.before d hd
        omega
    · rcases mem_turn hd' with hd' | ⟨next', k', hhead', hk', -, hlane'', -⟩
      · have := h.before d' hd'
        omega
      · rw [hhead] at hhead'
        cases hhead'
        rw [hlane', hlane''] at hlane
        refine laneAt_inj (fun hon x hx => hnext next hhead hon x ?_) hk hk' hlane
        rw [content_afterTurn, hx]
  · rw [hrows] at hnode
    rcases mem_append.1 hnode with hnode | hnode
    · exact (h.cols node' hnode).trans_le hwidth
    · rw [mem_singleton.1 hnode, hcol]
      exact hlaid.node.trans_le hlanes
  · rcases mem_turn hd with hd | ⟨next, k, -, hk, -, hlane, hfrom⟩
    · exact ⟨(h.ends d hd).1.trans_le hwidth, (h.ends d hd).2.trans_le hwidth⟩
    · refine ⟨?_, hlane ▸ (laneAt_lt hk).trans_le hlanes⟩
      rcases hfrom with hfrom | hfrom
      · rw [hfrom]
        exact hlaid.node.trans_le hlanes
      · rw [hfrom]
        exact (lt_of_content hk).trans_le hlanes

end Turn

end Triage.HistoryGraph
