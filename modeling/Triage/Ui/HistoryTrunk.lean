import Triage.Ui.HistoryLines

/-!
# The trunk of a history's graph

The trunk's commits come one after another, each the first parent of the one before, so the first
lane waits for the next of them, if it waits for anything. It may wait for another commit once the
trunk has ended: where the last of its commits has a listed parent, but not the first.

## Main results

* `connected` : every layout connects the commits with their parents.
* `historyLayout_iff` : commits are connected with their parents, by lines that do not run into each
  other, and the first lane is the trunk's alone if and only if `FirstOrNone` holds.
* `not_trunkAlone` : a commit that is not the trunk's, on the first lane.
* `history_drawn` : every history without cycles is ordered and connected.
-/

namespace Triage.HistoryGraph

open Grouping Lanes List Option Commit

set_option linter.unusedSectionVars false

variable {Sha T : Type*} [DecidableEq Sha] {o : LayoutOptions Sha}

/-! ### The first lane -/

variable (o) in
/-- The trunk's commits to come are those of its line from its next commit on, and the first lane
waits for that one, or for any where the line has ended. -/
structure OnLine (rest : List (Commit Sha T)) (s : Layout Sha T) (target : Option Sha) : Prop where
  trunk : ∀ c ∈ rest, o.onTrunk c.sha = true ↔ c ∈ lineFrom rest target
  zero : o.reserved ≠ 0 → ∀ sha, content s.lanes 0 = some sha →
    target = some sha ∨ lineFrom rest target = []

section Turn

variable {ordered rest : List (Commit Sha T)} {c : Commit Sha T} {s : Layout Sha T} {i : ℕ}
  {target : Option Sha}

section

variable (h : OnLine o (c :: rest) s target)
include h

/-- A commit of the trunk is the next of its line. -/
theorem OnLine.target_eq (hnew : c ∉ rest)
    (htrunk : o.onTrunk c.sha = true) : target = some c.sha := by
  have hmem := (h.trunk c (mem_cons_self ..)).1 htrunk
  rw [lineFrom] at hmem
  split at hmem
  · assumption
  · exact absurd (mem_of_mem_lineFrom hmem) hnew

theorem OnLine.onTrunk (htarget : target = some c.sha) : o.onTrunk c.sha = true := by
  rw [h.trunk c (mem_cons_self ..), lineFrom, if_pos htarget]
  exact mem_cons_self ..

theorem OnLine.trunkReady (hnew : c ∉ rest) : TrunkReady o s c.sha := by
  intro htrunk x hx
  have htarget := h.target_eq hnew htrunk
  have hreserved : o.reserved ≠ 0 := by
    rw [reserved_of_onTrunk htrunk]
    exact one_ne_zero
  rcases h.zero hreserved x hx with hx | hnil
  · rw [htarget] at hx
    exact (some.inj hx).symm
  · rw [lineFrom, if_pos htarget] at hnil
    cases hnil

end

theorem nodeLane_of_onTrunk (htrunk : o.onTrunk c.sha = true) : nodeLane o s c.sha = 0 := by
  rw [nodeLane, laneOf, if_pos htrunk]
  rfl

/-- A commit that is not the trunk's goes on the first lane only if it waits there. -/
theorem content_of_nodeLane (htrunk : o.onTrunk c.sha = false) (hreserved : o.reserved ≠ 0)
    (h : nodeLane o s c.sha = 0) : content s.lanes 0 = some c.sha := by
  rw [nodeLane, laneOf, htrunk, if_neg Bool.false_ne_true] at h
  cases hlane : waiting s.lanes c.sha with
  | some k =>
    rw [hlane, getD_some] at h
    exact h ▸ content_waiting hlane
  | none =>
    rw [hlane, getD_none] at h
    have hle := le_freeLane o.reserved s.lanes
    omega

/-- The first parent, where it is listed, is the first that is drawn. -/
theorem head?_parents (hlinear : o.linear = false) {p : Sha} (hp : c.parents.head? = some p)
    (hlisted : p ∈ ordered.map sha) :
    ((drawnParents o c rest.head?).filter (ordered.map sha).contains).head? = some p := by
  have hhead : (newSet c.parents).head? = some p := (head?_newSet c.parents).trans hp
  have hall : drawnParents o c rest.head? = newSet c.parents := by
    rw [drawnParents.eq_def, hlinear]
    exact if_neg Bool.false_ne_true
  rw [hall]
  cases hset : newSet c.parents with
  | nil =>
    rw [hset] at hhead
    cases hhead
  | cons q others =>
    rw [hset, head?_cons] at hhead
    cases hhead
    rw [filter_cons, if_pos (contains_iff_mem.2 hlisted), head?_cons]

variable (c) in
/-- The next commit of the trunk after a turn. -/
def nextTarget (target : Option Sha) : Option Sha :=
  if target = some c.sha then c.parents.head? else target

theorem OnLine.afterTurn (h : OnLine o (c :: rest) s target) (hnew : c ∉ rest)
    (hrest : ∀ sha ∈ rest.map Commit.sha, sha ∈ ordered.map Commit.sha)
    (hlinear : o.linear = false) :
    OnLine o rest (afterTurn o ordered rest c s i) (nextTarget c target) := by
  have hlaid : Laid o s c.sha
      ((drawnParents o c rest.head?).filter (ordered.map sha).contains)
      (turnLanes o ordered rest c s) := laid_linesFrom (h.trunkReady hnew)
  refine ⟨fun c' hc' => ?_, fun hreserved sha hsha => ?_⟩
  · rw [h.trunk c' (mem_cons_of_mem _ hc'), lineFrom, nextTarget]
    split
    · rw [mem_cons]
      refine ⟨fun hmem => hmem.resolve_left ?_, .inr⟩
      rintro rfl
      exact hnew hc'
    · rfl
  · rw [content_afterTurn, hlaid.zero hreserved] at hsha
    cases htrunk : o.onTrunk c.sha with
    | true =>
      have htarget := h.target_eq hnew htrunk
      rw [if_pos (nodeLane_of_onTrunk htrunk)] at hsha
      rw [nextTarget, if_pos htarget]
      by_cases hfirst : c.parents.head? = some sha
      · exact .inl hfirst
      · -- the first parent is not listed, and the trunk ends
        refine .inr (lineFrom_eq_nil fun p hp hmem => hfirst ?_)
        rw [head?_parents hlinear hp (hrest p hmem)] at hsha
        rw [hp, hsha]
    | false =>
      have htarget : target ≠ some c.sha := by
        intro htarget
        rw [h.onTrunk htarget] at htrunk
        cases htrunk
      have hline : lineFrom (c :: rest) target = lineFrom rest target := if_neg htarget
      rw [nextTarget, if_neg htarget]
      split at hsha
      · rename_i hnode
        rcases h.zero hreserved _ (content_of_nodeLane htrunk hreserved hnode) with hzero | hnil
        · exact absurd hzero htarget
        · exact .inr (hline ▸ hnil)
      · rw [content_release] at hsha
        split at hsha
        · cases hsha
        · exact hline ▸ h.zero hreserved sha hsha

end Turn

/-! ### Runs -/

section Runs

variable {ordered : List (Commit Sha T)}

/-- A predicate that turns preserve holds in the middle of the loop. -/
theorem exists_state {I : ℕ → List (Commit Sha T) → Layout Sha T → Prop}
    (hstep : ∀ i c rest s, I i (c :: rest) s → I (i + 1) rest (afterTurn o ordered rest c s i))
    (done rest : List (Commit Sha T)) {i : ℕ} {s : Layout Sha T} (h : I i (done ++ rest) s) :
    ∃ i' s', I i' rest s' ∧ layoutRows o (ordered.map sha) i (done ++ rest) s =
      layoutRows o (ordered.map sha) i' rest s' := by
  induction done generalizing i s with
  | nil => exact ⟨i, s, h, rfl⟩
  | cons c done ih => exact ih (hstep i c (done ++ rest) s h)

variable {rest : List (Commit Sha T)} {c : Commit Sha T} {s : Layout Sha T} {i : ℕ}

variable (o ordered) in
/-- What holds before each turn of a layout. -/
structure Laying (i : ℕ) (rest : List (Commit Sha T)) (s : Layout Sha T) : Prop where
  drawn : Drawn o ordered i rest s
  onLine : ∃ target, OnLine o rest s target

theorem Laying.rest_nodup (h : Laying o ordered i rest s) (hd : Distinct ordered) : rest.Nodup := by
  have hnodup : ordered.Nodup := List.Nodup.of_map _ hd
  rw [← h.drawn.rows] at hnodup
  exact (nodup_append.1 hnodup).2.1

theorem Laying.listed (h : Laying o ordered i rest s) {sha : Sha}
    (hsha : sha ∈ rest.map Commit.sha) : sha ∈ ordered.map Commit.sha := by
  rw [← h.drawn.rows, map_append]
  exact mem_append_right _ hsha

theorem Laying.trunkReady (h : Laying o ordered i (c :: rest) s) (hd : Distinct ordered) :
    TrunkReady o s c.sha := by
  obtain ⟨target, honLine⟩ := h.onLine
  exact honLine.trunkReady (nodup_cons.1 (h.rest_nodup hd)).1

theorem Laying.afterTurn (h : Laying o ordered i (c :: rest) s) (hd : Distinct ordered)
    (hafter : ParentsAfter ordered) (hlinear : o.linear = false) :
    Laying o ordered (i + 1) rest (afterTurn o ordered rest c s i) := by
  have hnodup := nodup_cons.1 (h.rest_nodup hd)
  obtain ⟨target, honLine⟩ := h.onLine
  have honLine' : OnLine o rest (HistoryGraph.afterTurn o ordered rest c s i)
      (nextTarget c target) :=
    honLine.afterTurn hnodup.1 (fun sha hsha => h.listed (mem_cons_of_mem _ hsha)) hlinear
  refine ⟨h.drawn.afterTurn hafter hlinear (h.trunkReady hd) fun next hnext => ?_, _, honLine'⟩
  cases rest with
  | nil => cases hnext
  | cons next' rest =>
    cases hnext
    exact honLine'.trunkReady (nodup_cons.1 hnodup.2).1

/-! ### What a graph promises -/

variable (o ordered) in
/-- The lines of a graph: each listed commit is connected with each listed parent by segments from
row to row, every segment is a part of such a line, and lines that end in the same lane at a row
lead to the same commit. -/
structure Connected : Prop where
  rows : (historyLayout o ordered).rows.map Row.commit = ordered
  parents : ∀ (i j : ℕ) node node', (historyLayout o ordered).rows[i]? = some node →
    (historyLayout o ordered).rows[j]? = some node' → node'.commit.sha ∈ node.commit.parents →
    Line (layout o ordered).drawn node'.commit.sha i node.col j node'.col
  lines : ∀ d ∈ (layout o ordered).drawn, ∃ (j : ℕ) (node : Row Sha T),
    (historyLayout o ordered).rows[j]? = some node ∧ node.commit.sha = d.2 ∧
      Line (layout o ordered).drawn d.2 (d.1.row + 1) d.1.toLane j node.col
  apart : ∀ d ∈ (layout o ordered).drawn, ∀ d' ∈ (layout o ordered).drawn,
    d.1.row = d'.1.row → d.1.toLane = d'.1.toLane → d.2 = d'.2
  cols : ∀ node ∈ (historyLayout o ordered).rows, node.col < (historyLayout o ordered).width
  ends : ∀ g ∈ (historyLayout o ordered).segments,
    g.fromLane < (historyLayout o ordered).width ∧ g.toLane < (historyLayout o ordered).width

variable (o ordered) in
/-- The commits on the first lane are the trunk's, if there is one. -/
def TrunkAlone : Prop :=
  o.trunk ≠ none → ∀ node ∈ (historyLayout o ordered).rows,
    (node.col = 0 ↔ o.onTrunk node.commit.sha = true)

theorem laying_start (hline : ∃ target, ∀ c ∈ ordered,
    o.onTrunk c.sha = true ↔ c ∈ lineFrom ordered target) :
    Laying o ordered 0 ordered ⟨[], fun _ => 0, 0, [], [], [], 0⟩ := by
  obtain ⟨target, htarget⟩ := hline
  refine ⟨⟨rfl, rfl, ?_, ?_, ?_, ?_, ?_, ?_, ?_⟩, target, htarget, ?_⟩
  · intro k p hk
    cases hk
  · intro row node hnode
    cases hnode
  · intro d hd
    cases hd
  · intro d hd
    cases hd
  · intro d hd
    cases hd
  · intro node hnode
    cases hnode
  · intro d hd
    cases hd
  · intro _ sha hsha
    cases hsha

variable (o ordered) in
/-- A commit of the trunk has its first parent listed, or none of its parents. -/
def FirstOrNone : Prop := ∀ c ∈ ordered, o.onTrunk c.sha = true →
  (∀ p, c.parents.head? = some p → p ∈ ordered.map Commit.sha) ∨
    ∀ p ∈ c.parents, p ∉ ordered.map Commit.sha

variable (o ordered) in
/-- What holds before each turn where `FirstOrNone` does: the first lane waits for the trunk's
commits alone. -/
structure OwnLane (i : ℕ) (rest : List (Commit Sha T)) (s : Layout Sha T) : Prop where
  laying : Laying o ordered i rest s
  zero : ∀ sha, content s.lanes 0 = some sha → o.onTrunk sha = true
  nodes : ∀ node ∈ s.rows, (node.col = 0 ↔ o.onTrunk node.commit.sha = true)

theorem OwnLane.nodeLane_eq_zero (h : OwnLane o ordered i (c :: rest) s)
    (hreserved : o.reserved ≠ 0) : nodeLane o s c.sha = 0 ↔ o.onTrunk c.sha = true := by
  refine ⟨fun hnode => ?_, nodeLane_of_onTrunk⟩
  by_contra htrunk
  rw [Bool.not_eq_true] at htrunk
  rw [h.zero _ (content_of_nodeLane htrunk hreserved hnode)] at htrunk
  cases htrunk

theorem OwnLane.afterTurn (h : OwnLane o ordered i (c :: rest) s) (hd : Distinct ordered)
    (hafter : ParentsAfter ordered) (hlinear : o.linear = false) (hreserved : o.reserved ≠ 0)
    (hfirst : FirstOrNone o ordered) :
    OwnLane o ordered (i + 1) rest (afterTurn o ordered rest c s i) := by
  have hlaid : Laid o s c.sha
      ((drawnParents o c rest.head?).filter (ordered.map sha).contains)
      (turnLanes o ordered rest c s) := laid_linesFrom (h.laying.trunkReady hd)
  obtain ⟨node, hcommit, hcol, hrows⟩ := rows_afterTurn o ordered rest c s i
  refine ⟨h.laying.afterTurn hd hafter hlinear, fun sha hsha => ?_, fun node' hnode => ?_⟩
  · rw [content_afterTurn, hlaid.zero hreserved] at hsha
    split at hsha
    · -- the first parent that is drawn is the next commit of the trunk
      rename_i hnode
      have htrunk := (h.nodeLane_eq_zero hreserved).1 hnode
      obtain ⟨hparent, hlisted⟩ := (mem_parents hlinear).1 (mem_of_head? hsha)
      have hc : c ∈ ordered := by
        rw [← h.laying.drawn.rows]
        exact mem_append_right _ (mem_cons_self ..)
      have hnext : c.parents.head? = some sha := by
        cases hhead : c.parents.head? with
        | none =>
          rw [head?_eq_none_iff.1 hhead] at hparent
          cases hparent
        | some p =>
          rcases hfirst c hc htrunk with hfirst | hnone
          · rw [← hsha, head?_parents hlinear hhead (hfirst p hhead)]
          · exact absurd hlisted (hnone sha hparent)
      have hnew := (nodup_cons.1 (h.laying.rest_nodup hd)).1
      obtain ⟨target, honLine⟩ := h.laying.onLine
      have honLine' := honLine.afterTurn (i := i) hnew
        (fun sha hsha => h.laying.listed (mem_cons_of_mem _ hsha)) hlinear
      rw [nextTarget, if_pos (honLine.target_eq hnew htrunk), hnext] at honLine'
      obtain ⟨c', hc', rfl⟩ :=
        exists_mem_lineFrom (h.laying.drawn.parent_mem hafter hparent hlisted)
      exact (honLine'.trunk c' (mem_of_mem_lineFrom hc')).2 hc'
    · rw [content_release] at hsha
      split at hsha
      · cases hsha
      · exact h.zero sha hsha
  · rw [hrows] at hnode
    rcases mem_append.1 hnode with hnode | hnode
    · exact h.nodes node' hnode
    · rw [mem_singleton.1 hnode, hcol, hcommit]
      exact h.nodeLane_eq_zero hreserved

theorem rows_subset (rest : List (Commit Sha T)) (i : ℕ) (s : Layout Sha T) {node : Row Sha T}
    (h : node ∈ s.rows) : node ∈ (layoutRows o (ordered.map sha) i rest s).rows := by
  induction rest generalizing i s with
  | nil => exact h
  | cons c rest ih => exact ih (i + 1) _ (mem_append_left _ h)

/-- What waits on the first lane once the trunk has ended gets there. -/
theorem exists_node_zero (hreserved : o.reserved ≠ 0) {q : Sha} {rest : List (Commit Sha T)}
    (hq : q ∈ rest.map sha) (htrunk : ∀ c ∈ rest, o.onTrunk c.sha = false) {i : ℕ}
    {s : Layout Sha T} (hzero : content s.lanes 0 = some q) :
    ∃ node ∈ (layoutRows o (ordered.map sha) i rest s).rows,
      node.col = 0 ∧ node.commit.sha = q := by
  induction rest generalizing i s with
  | nil => cases hq
  | cons c rest ih =>
    have hc := htrunk c (mem_cons_self ..)
    have hready : TrunkReady o s c.sha := by
      intro hon
      rw [hc] at hon
      cases hon
    obtain ⟨node, hcommit, hcol, hrows⟩ := rows_afterTurn o ordered rest c s i
    rcases eq_or_ne q c.sha with rfl | hne
    · have hnode : nodeLane o s c.sha = 0 := by
        rw [nodeLane, laneOf, hc, if_neg Bool.false_ne_true, waiting_zero hzero]
        rfl
      have hmem : node ∈ (afterTurn o ordered rest c s i).rows := by
        rw [hrows]
        exact mem_append_right _ (mem_singleton_self _)
      exact ⟨node, rows_subset rest (i + 1) _ hmem, hcol.trans hnode, congrArg sha hcommit⟩
    · have hnode : nodeLane o s c.sha ≠ 0 := by
        intro hnode
        rw [← hnode] at hzero
        exact hne (content_nodeLane hready hzero)
      refine ih ((mem_cons.1 hq).resolve_left hne)
        (fun c' hc' => htrunk c' (mem_cons_of_mem _ hc')) ?_
      have hlaid : Laid o s c.sha
          ((drawnParents o c rest.head?).filter (ordered.map sha).contains)
          (turnLanes o ordered rest c s) := laid_linesFrom hready
      have hcontent := content_afterTurn o ordered rest c s i 0
      rw [hlaid.zero hreserved, if_neg hnode, content_release, if_neg, hzero] at hcontent
      · exact hcontent
      · rw [hzero]
        exact fun heq => hne (some.inj heq)

section Layout

variable (hd : Distinct ordered) (hafter : ParentsAfter ordered) (hlinear : o.linear = false)
  (hline : ∃ target, ∀ c ∈ ordered, o.onTrunk c.sha = true ↔ c ∈ lineFrom ordered target)

include hd hafter hlinear hline

/-- The loop in the middle: the commits from one on are still to be laid out. -/
theorem exists_laying {done rest : List (Commit Sha T)} (hsplit : ordered = done ++ rest) :
    ∃ i s, Laying o ordered i rest s ∧
      layout o ordered = layoutRows o (ordered.map sha) i rest s := by
  have hstart : Laying o ordered 0 (done ++ rest) ⟨[], fun _ => 0, 0, [], [], [], 0⟩ := by
    rw [← hsplit]
    exact laying_start hline
  obtain ⟨i, s, hlaying, hrows⟩ := exists_state
    (fun i c rest s h => Laying.afterTurn h hd hafter hlinear) done rest hstart
  refine ⟨i, s, hlaying, ?_⟩
  rw [layout, ← hrows, ← hsplit]

/-- Every layout connects the commits with their parents. -/
theorem connected : Connected o ordered := by
  obtain ⟨i, s, ⟨hdrawn, -⟩, hlayout⟩ :=
    exists_laying hd hafter hlinear hline (append_nil ordered).symm
  have hs : layout o ordered = s := hlayout
  have hrows : s.rows.map Row.commit = ordered := by
    have h := hdrawn.rows
    rwa [append_nil] at h
  have hleads : ∀ {p : Sha} {row lane : ℕ}, Leads o i [] s p row lane →
      ∃ (j : ℕ) (node : Row Sha T), s.rows[j]? = some node ∧ node.commit.sha = p ∧
        Line s.drawn p row lane j node.col := by
    rintro p row lane (h | ⟨k, next, hnext, -⟩)
    · exact h
    · cases hnext
  have hwidth : s.width ≤ (historyLayout o ordered).width := by
    rw [← hs]
    exact le_max_left ..
  refine ⟨?_, fun i' j node node' hnode hnode' hparent => ?_, fun d hmem => ?_, ?_,
    fun node hnode => ?_, fun g hg => ?_⟩
  · rw [historyLayout, hs]
    exact hrows
  · rw [historyLayout, hs] at hnode hnode'
    have hlisted : node'.commit.sha ∈ ordered.map sha := by
      rw [← hrows, List.map_map]
      exact List.mem_map_of_mem (mem_of_getElem? hnode')
    obtain ⟨j', node'', hnode'', hsha, hline⟩ :=
      hleads (hdrawn.parents i' node hnode _ hparent hlisted)
    -- no other row has a commit of that id
    have hat : ∀ {j : ℕ} {node : Row Sha T}, s.rows[j]? = some node →
        (ordered.map sha)[j]? = some node.commit.sha := by
      intro j node hj
      rw [← hrows, List.map_map, getElem?_map, hj]
      rfl
    have hj : j' = j := by
      have hlt : j' < (ordered.map sha).length := (List.getElem?_eq_some_iff.1 (hat hnode'')).1
      refine (getElem?_inj hlt hd).1 ?_
      rw [hat hnode'', hat hnode', hsha]
    subst hj
    rw [hnode'] at hnode''
    cases hnode''
    rw [hs]
    exact hline
  · rw [hs] at hmem
    rw [historyLayout, hs]
    exact hleads (hdrawn.lines d hmem)
  · rw [hs]
    exact hdrawn.apart
  · rw [historyLayout, hs] at hnode
    exact (hdrawn.cols node hnode).trans_le hwidth
  · rw [historyLayout, hs] at hg
    obtain ⟨d, hmem, rfl⟩ := List.mem_map.1 hg
    exact ⟨(hdrawn.ends d hmem).1.trans_le hwidth, (hdrawn.ends d hmem).2.trans_le hwidth⟩

theorem trunkAlone_of_firstOrNone (hreserved : o.reserved ≠ 0) (hfirst : FirstOrNone o ordered) :
    TrunkAlone o ordered := by
  have hstart : OwnLane o ordered 0 (ordered ++ []) ⟨[], fun _ => 0, 0, [], [], [], 0⟩ := by
    rw [append_nil]
    refine ⟨laying_start hline, fun sha hsha => ?_, fun node hnode => ?_⟩
    · cases hsha
    · cases hnode
  obtain ⟨i, s, hown, hrows⟩ := exists_state
    (fun i c rest s h => OwnLane.afterTurn h hd hafter hlinear hreserved hfirst) ordered [] hstart
  have hs : layout o ordered = s := by
    rw [layout]
    rwa [append_nil] at hrows
  intro _ node hnode
  rw [historyLayout, hs] at hnode
  exact hown.nodes node hnode

/-- A commit of the trunk that has a listed parent, but not the first, ends it, and that parent goes
on the first lane. -/
theorem firstOrNone_of_trunkAlone (htrunk : o.trunk ≠ none) (h : TrunkAlone o ordered) :
    FirstOrNone o ordered := by
  intro c hc hon
  by_contra hnot
  rw [not_or] at hnot
  obtain ⟨hfirst, hother⟩ := hnot
  push Not at hfirst hother
  obtain ⟨p, hp, hmissing⟩ := hfirst
  obtain ⟨q', hq', hlisted'⟩ := hother
  have hreserved : o.reserved ≠ 0 := by
    rw [reserved_of_onTrunk hon]
    exact one_ne_zero
  obtain ⟨done, rest, hsplit⟩ := append_of_mem hc
  obtain ⟨i, s, hlaying, hlayout⟩ := exists_laying hd hafter hlinear hline hsplit
  obtain ⟨target, honLine⟩ := hlaying.onLine
  have hnew := (nodup_cons.1 (hlaying.rest_nodup hd)).1
  have hlaid : Laid o s c.sha
      ((drawnParents o c rest.head?).filter (ordered.map sha).contains)
      (turnLanes o ordered rest c s) := laid_linesFrom (hlaying.trunkReady hd)
  -- the first listed parent waits on the first lane
  obtain ⟨q, hq⟩ : ∃ q, ((drawnParents o c rest.head?).filter
      (ordered.map sha).contains).head? = some q := by
    have hmem : q' ∈ (drawnParents o c rest.head?).filter
        (ordered.map sha).contains := (mem_parents hlinear).2 ⟨hq', hlisted'⟩
    exact ⟨_, head?_eq_some_head (ne_nil_of_mem hmem)⟩
  obtain ⟨hparent, hlisted⟩ := (mem_parents hlinear).1 (mem_of_head? hq)
  have hrest := hlaying.drawn.parent_mem hafter hparent hlisted
  have hzero : content (afterTurn o ordered rest c s i).lanes 0 = some q := by
    rw [content_afterTurn, hlaid.zero hreserved, if_pos (nodeLane_of_onTrunk hon), hq]
  -- and no commit of the trunk is to come
  have honLine' := honLine.afterTurn (i := i) hnew
    (fun sha hsha => hlaying.listed (mem_cons_of_mem _ hsha)) hlinear
  rw [nextTarget, if_pos (honLine.target_eq hnew hon), hp] at honLine'
  have hnil : lineFrom rest (some p) = [] := by
    refine lineFrom_eq_nil fun sha hsha hmem => hmissing ?_
    cases hsha
    exact hlaying.listed (mem_cons_of_mem _ hmem)
  have hoff : ∀ c' ∈ rest, o.onTrunk c'.sha = false := by
    intro c' hc'
    rw [← Bool.not_eq_true, honLine'.trunk c' hc', hnil]
    exact not_mem_nil
  obtain ⟨node, hnode, hcol, hsha⟩ := exists_node_zero hreserved hrest hoff hzero
  have hmem : node ∈ (historyLayout o ordered).rows := by
    rw [historyLayout, hlayout]
    exact hnode
  have hontrunk := (h htrunk node hmem).1 hcol
  obtain ⟨c', hc', hq⟩ := List.mem_map.1 hrest
  rw [hsha, ← hq, hoff c' hc'] at hontrunk
  cases hontrunk

end Layout

/-! ### The layout of a history -/

variable (ordered) in
/-- The options of a history drawn with the trunk that ends in a commit, if any. -/
def trunkOptions (tip : Option Sha) (palette : ℕ) : LayoutOptions Sha where
  linear := false
  trunk := tip.map (firstParentLine ordered)
  palette := palette

theorem trunk_trunkOptions (hd : Distinct ordered) (hafter : ParentsAfter ordered) (sha : Sha)
    (palette : ℕ) : (trunkOptions ordered (some sha) palette).trunk.getD [] =
      (lineFrom ordered (some sha)).map Commit.sha := firstParentLine_eq hd hafter sha

/-- **The graph of a history** connects each listed commit with its listed parents by lines that do
not run into each other; and the commits on its first lane are the trunk's if and only if each of
these has its first parent listed, or none. -/
theorem historyLayout_iff (hd : Distinct ordered) (hafter : ParentsAfter ordered)
    (tip : Option Sha) (htip : ∀ sha, tip = some sha → sha ∈ ordered.map Commit.sha)
    (palette : ℕ) :
    Connected (trunkOptions ordered tip palette) ordered ∧
        TrunkAlone (trunkOptions ordered tip palette) ordered ↔
      FirstOrNone (trunkOptions ordered tip palette) ordered := by
  have hline : ∃ target, ∀ c ∈ ordered,
      (trunkOptions ordered tip palette).onTrunk c.sha = true ↔ c ∈ lineFrom ordered target := by
    refine ⟨tip, fun c hc => ?_⟩
    rw [onTrunk_iff]
    cases tip with
    | none =>
      rw [lineFrom_eq_nil fun _ h => by cases h]
      exact ⟨fun h => absurd h not_mem_nil, fun h => absurd h not_mem_nil⟩
    | some sha =>
      rw [trunk_trunkOptions hd hafter, List.mem_map]
      refine ⟨?_, fun hmem => ⟨c, hmem, rfl⟩⟩
      rintro ⟨c', hc', hsha⟩
      rwa [← inj_on_of_nodup_map hd (mem_of_mem_lineFrom hc') hc hsha]
  have hconnected := connected (o := trunkOptions ordered tip palette) hd hafter rfl hline
  refine ⟨fun h => ?_, fun hfirst => ⟨hconnected, fun htrunk => ?_⟩⟩
  · cases tip with
    | none =>
      intro c hc hon
      rw [onTrunk_iff] at hon
      cases hon
    | some sha =>
      exact firstOrNone_of_trunkAlone hd hafter rfl hline (some_ne_none _) h.2
  · cases tip with
    | none => exact absurd rfl htrunk
    | some sha =>
      have hreserved : (trunkOptions ordered (some sha) palette).reserved ≠ 0 := by
        obtain ⟨c, hmem, -⟩ := exists_mem_lineFrom (htip sha rfl)
        rw [LayoutOptions.reserved, trunk_trunkOptions hd hafter, if_neg]
        · exact one_ne_zero
        · exact ne_nil_of_mem (List.mem_map_of_mem hmem)
      exact trunkAlone_of_firstOrNone hd hafter rfl hline hreserved hfirst htrunk

/-- A merge of two lines that meet, one commit dated after its child. -/
def skewedMerge : List (Commit ℕ ℕ) :=
  [⟨1, [2, 3], some 5⟩, ⟨3, [4], none⟩, ⟨2, [4], some 2⟩, ⟨4, [6], some 7⟩]

theorem historyLayout_iff_skewed :
    Connected (trunkOptions skewedMerge (some 1) 8) skewedMerge ∧
      TrunkAlone (trunkOptions skewedMerge (some 1) 8) skewedMerge := by
  refine (historyLayout_iff ?_ ⟨?_, ?_⟩ (some 1) ?_ 8).2 ?_
  · unfold Distinct
    decide
  · decide
  · decide
  · rintro sha h
    cases h
    decide
  · unfold FirstOrNone
    decide +kernel

/-- A merge whose first parent is not listed, before its other one. -/
def partialMerge : List (Commit ℕ ℕ) := [⟨1, [9, 2], some 5⟩, ⟨2, [], some 4⟩]

/-- The merge is the trunk, and its other parent is drawn below it on the first lane. -/
theorem not_trunkAlone : ¬∀ (ordered : List (Commit ℕ ℕ)) (sha palette : ℕ),
    Distinct ordered → ParentsAfter ordered →
    historyOrder ordered.length ordered = some ordered → sha ∈ ordered.map Commit.sha →
    Connected (trunkOptions ordered (some sha) palette) ordered ∧
      TrunkAlone (trunkOptions ordered (some sha) palette) ordered := by
  intro h
  have hdistinct : Distinct partialMerge := by
    unfold Distinct
    decide
  have halone := (h partialMerge 1 8 hdistinct ⟨by decide, by decide⟩ (by decide +kernel)
    (by decide)).2 (some_ne_none _)
  have hnode : ∃ node ∈ (historyLayout (trunkOptions partialMerge (some 1) 8) partialMerge).rows,
      node.col = 0 ∧ (trunkOptions partialMerge (some 1) 8).onTrunk node.commit.sha = false := by
    decide +kernel
  obtain ⟨node, hmem, hcol, hoff⟩ := hnode
  rw [(halone node hmem).1 hcol] at hoff
  cases hoff

/-- **A history without cycles is drawn whole**, in whatever order its commits come: it is listed
once, children first, and its graph connects the commits with their parents, whichever commit the
trunk ends in. -/
theorem history_drawn [LinearOrder T] {commits : List (Commit Sha T)} (hd : Distinct commits)
    (hacyclic : (historyGraph commits).Acyclic) (tip : Option Sha) (palette : ℕ) :
    ∃ ordered, historyOrder commits.length commits = some ordered ∧ ordered.Perm commits ∧
      Connected (trunkOptions ordered tip palette) ordered := by
  have hstart : commits.length ≤ (startOrder commits).ordered.length + commits.length := by
    simp [startOrder]
  obtain ⟨ordered, hrun, hperm, hgreedy⟩ := (inv_startOrder hd).orderLoop hd hacyclic hstart
  have hafter := (dateOrder_of_greedy hd hperm hgreedy).parentsAfter hd
  have hdistinct : Distinct ordered := ((hperm.map Commit.sha).nodup_iff).2 hd
  refine ⟨ordered, hrun, hperm, connected hdistinct hafter rfl ⟨tip, fun c hc => ?_⟩⟩
  rw [onTrunk_iff]
  cases tip with
  | none => simp [lineFrom_eq_nil, trunkOptions]
  | some sha =>
    rw [trunk_trunkOptions hdistinct hafter, List.mem_map]
    refine ⟨?_, fun hmem => ⟨c, hmem, rfl⟩⟩
    rintro ⟨c', hc', hsha⟩
    rwa [← inj_on_of_nodup_map hdistinct (mem_of_mem_lineFrom hc') hc hsha]

/-- The merge, listed from its end. -/
theorem history_drawn_skewed : ∃ ordered,
    historyOrder 4 skewedMerge.reverse = some ordered ∧ ordered.Perm skewedMerge.reverse ∧
      Connected (trunkOptions ordered (some 1) 8) ordered := by
  refine history_drawn (by unfold Distinct; decide) (ReadyGraph.acyclic_of_lt Commit.sha ?_) _ _
  simp only [historyGraph]
  decide

end Runs

end Triage.HistoryGraph
