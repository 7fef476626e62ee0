import Triage.Ui.HistoryOrder
import Triage.Data.Lanes

/-!
# The graph of a repository's history

`historyLayout` of `history-graph.js` draws commits in their order, each on a row, with a line from
each to every parent of it among them. Every line waits in a lane for the commit it leads to. The
commits of a trunk stay on the first lane, which is kept free for them; any other one goes on the
first lane that waits for it, or else on a free one.
-/

namespace Triage.HistoryGraph

open Grouping Lanes

variable {Sha T : Type*} [DecidableEq Sha]

/-! ### The line of first parents -/

/-- The loop of `firstParentLine`; each turn adds a commit, so there are no more turns than
commits. -/
def firstParents (bySha : List (Sha × Commit Sha T)) :
    ℕ → Option (Commit Sha T) → List Sha → List Sha
  | 0, _, line => line
  | turns + 1, commit, line =>
    match commit with
    | none => line
    | some commit =>
      if commit.sha ∈ line then line
      else firstParents bySha turns (commit.parents.head?.bind (get · bySha))
        (line ++ [commit.sha])

/-- `firstParentLine` -/
def firstParentLine (commits : List (Commit Sha T)) (tip : Sha) : List Sha :=
  have bySha := newMap (commits.map fun commit => (commit.sha, commit))
  firstParents bySha commits.length (get tip bySha) []

/-! ### What is drawn -/

structure LayoutOptions (Sha : Type*) where
  linear : Bool
  trunk : Option (List Sha)
  /-- How many colors there are. -/
  palette : ℕ

namespace LayoutOptions

variable (o : LayoutOptions Sha)

/-- `trunk?.has(sha)` -/
def onTrunk (sha : Sha) : Bool := (o.trunk.getD []).contains sha

/-- How many lanes are kept for the trunk. -/
def reserved : ℕ := if o.trunk.getD [] = [] then 0 else 1

end LayoutOptions

/-- A piece of a line, from a lane at a row to a lane at the next. -/
structure Segment where
  row : ℕ
  fromLane : ℕ
  toLane : ℕ
  color : ℕ
  deriving DecidableEq

/-- A short line towards a parent that is not listed. -/
structure Stub where
  row : ℕ
  col : ℕ
  straight : Bool
  color : ℕ
  deriving DecidableEq

/-- The node of a commit. -/
structure Row (Sha T : Type*) where
  commit : Commit Sha T
  col : ℕ
  color : ℕ

structure Graph (Sha T : Type*) where
  rows : List (Row Sha T)
  segments : List Segment
  stubs : List Stub
  width : ℕ

/-- The variables of the loop. -/
structure Layout (Sha T : Type*) where
  lanes : List (Option Sha)
  colors : ℕ → ℕ
  turn : ℕ
  rows : List (Row Sha T)
  /-- The segments, each with the commit that its lane waits for. -/
  drawn : List (Segment × Sha)
  stubs : List Stub
  width : ℕ

/-! ### One row -/

/-- The variables while a commit's lines are laid. -/
structure Joining (Sha : Type*) where
  lanes : List (Option Sha)
  colors : ℕ → ℕ
  turn : ℕ
  /-- The lanes whose lines begin at the node. -/
  fromNode : List ℕ
  /-- The lanes that a line from the node goes into. -/
  merges : List ℕ

section Row

variable (o : LayoutOptions Sha)

/-- `newColor` : the next color unlike those of the lanes beside it, and the turn after. -/
def newColor (lanes : List (Option Sha)) (colors : ℕ → ℕ) (turn lane : ℕ) : ℕ × ℕ :=
  have span := max 1 (o.palette - o.reserved)
  have sides := ((if lane = 0 then [] else [lane - 1]) ++ [lane + 1]).filter
    fun side => (content lanes side).isSome
  have skip := ((List.range span).find? fun step =>
    !(sides.map colors).contains (o.reserved + (turn + step) % span)).getD 0
  (o.reserved + (turn + skip) % span, (turn + skip + 1) % span)

/-- `laneOf` : the trunk's lane, or the first that waits for the commit. -/
def laneOf (lanes : List (Option Sha)) (sha : Sha) : Option ℕ :=
  if o.onTrunk sha then some 0 else waiting lanes sha

/-- The lane of a commit's node. -/
def nodeLane (s : Layout Sha T) (sha : Sha) : ℕ :=
  (laneOf o s.lanes sha).getD (freeLane o.reserved s.lanes)

/-- The color of a commit's node, and the turn after. -/
def nodeColor (s : Layout Sha T) (sha : Sha) : ℕ × ℕ :=
  if o.onTrunk sha then (0, s.turn)
  else
    match waiting s.lanes sha with
    | none => newColor o s.lanes s.colors s.turn (nodeLane o s sha)
    | some lane => (s.colors lane, s.turn)

/-- A parent but the first: its line takes a lane of its own, unless one waits for it that the line
goes into. -/
def joinParent (s : Joining Sha) (parent : Sha) : Joining Sha :=
  match (laneOf o s.lanes parent).filter fun lane => content s.lanes lane = some parent with
  | some lane => { s with merges := s.merges ++ [lane] }
  | none =>
    have lane := freeLane o.reserved s.lanes
    have color := newColor o s.lanes s.colors s.turn lane
    { s with
      lanes := put s.lanes lane (some parent)
      colors := Function.update s.colors lane color.1
      turn := color.2
      fromNode := s.fromNode ++ [lane] }

/-- The lanes once a commit's lines are laid. -/
def linesFrom (s : Layout Sha T) (sha : Sha) (parents : List Sha) : Joining Sha :=
  parents.tail.foldl (joinParent o)
    { lanes := put (release s.lanes sha) (nodeLane o s sha) parents.head?
      colors := Function.update s.colors (nodeLane o s sha) (nodeColor o s sha).1
      turn := (nodeColor o s sha).2
      fromNode := if parents = [] then [] else [nodeLane o s sha]
      merges := [] }

/-- Where the lane of a line is at the next row: the next commit's lines end at its node.  A lane
waits for it then, so its lane is not missing. -/
def laneAt (lanes : List (Option Sha)) (next : Commit Sha T) (sha : Sha) (lane : ℕ) : ℕ :=
  if sha = next.sha then (laneOf o lanes next.sha).getD 0 else lane

/-- The segments from a row to the next. -/
def segmentsTo (row col : ℕ) (j : Joining Sha) (next : Commit Sha T) : List (Segment × Sha) :=
  ((List.range j.lanes.length).filterMap fun lane => (content j.lanes lane).map fun sha =>
    (⟨row, if lane ∈ j.fromNode then col else lane, laneAt o j.lanes next sha lane,
      j.colors lane⟩, sha)) ++
  -- a lane that a line goes into waits for something
  j.merges.filterMap fun lane => (content j.lanes lane).map fun sha =>
    (⟨row, col, laneAt o j.lanes next sha lane, j.colors lane⟩, sha)

/-- The stubs of a commit, the first of them straight where its lane is free. -/
def stubsOf (row col color : ℕ) (straight : Bool) (missing : List Sha) : List Stub :=
  missing.mapIdx fun i _ => ⟨row, col, straight && i = 0, color⟩

/-- `all` : the parents that a commit is drawn with. -/
def drawnParents (commit : Commit Sha T) (next : Option (Commit Sha T)) : List Sha :=
  if o.linear then
    match next with
    | some next => [next.sha]
    | none => commit.parents.take 1
  else newSet commit.parents

/-- One turn of the loop. -/
def layoutRow (known : List Sha) (row : ℕ) (commit : Commit Sha T) (next : Option (Commit Sha T))
    (s : Layout Sha T) : Layout Sha T :=
  have all := drawnParents o commit next
  have col := nodeLane o s commit.sha
  have color := (nodeColor o s commit.sha).1
  have j := linesFrom o s commit.sha (all.filter known.contains)
  { lanes := trim j.lanes
    colors := j.colors
    turn := j.turn
    rows := s.rows ++ [⟨commit, col, color⟩]
    drawn := s.drawn ++ (next.map (segmentsTo o row col j)).getD []
    stubs := s.stubs ++ stubsOf row col color (content j.lanes col).isNone
      (all.filter fun parent => !known.contains parent)
    width := max s.width j.lanes.length }

/-- The loop, from a row on. -/
def layoutRows (known : List Sha) : ℕ → List (Commit Sha T) → Layout Sha T → Layout Sha T
  | _, [], s => s
  | row, commit :: rest, s =>
    layoutRows known (row + 1) rest (layoutRow o known row commit rest.head? s)

/-- The variables after the loop. -/
def layout (ordered : List (Commit Sha T)) : Layout Sha T :=
  layoutRows o (ordered.map Commit.sha) 0 ordered ⟨[], fun _ => 0, 0, [], [], [], 0⟩

/-- `historyLayout` -/
def historyLayout (ordered : List (Commit Sha T)) : Graph Sha T where
  rows := (layout o ordered).rows
  segments := (layout o ordered).drawn.map Prod.fst
  stubs := (layout o ordered).stubs
  width := max (layout o ordered).width (if (layout o ordered).rows = [] then 0 else 1)

end Row

end Triage.HistoryGraph
