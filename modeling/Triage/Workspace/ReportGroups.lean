import Triage.Data.Grouping
import Triage.Data.UnionFind

/-!
# Report groups

The rows of all reports are merged into the groups that a workspace shows. Rows are joined over
the ids they share: first where an App finding carries the id or the rows are of one report, then
where no App finding is among what they were joined with. Without the App layer a group is split
again along the inputs of the App findings it had.
-/

namespace Triage.ReportGroups

/-- `revalidateInputs`, where it is there and where it is an array. -/
inductive Inputs (I : Type) where
  | absent
  | other
  | array (ids : List I)
deriving DecidableEq

/-- A finding; its id is none where it is missing or empty. -/
structure Finding (I : Type) where
  id : Option I
  isApp : Bool := false
  isUpstream : Bool := false
  /-- What the report package reads as its revalidation. -/
  revalidateKind : String := ""
  revalidateInputs : Inputs I := .absent
deriving DecidableEq

/-- A row of a report goes by its `ref` instead of by its place among the rows. -/
structure SourceRow (I : Type) where
  ref : ℕ
  members : List (Finding I)

/-- A report goes by its `ref` instead of by its place among the reports. -/
structure Report (I : Type) where
  ref : ℕ
  groups : List (SourceRow I)

/-- Reports and rows each of which goes by a name of its own. -/
structure Reports (I : Type) where
  list : List (Report I)
  distinct : (list.map Report.ref).Nodup
  distinctRows : ((list.flatMap Report.groups).map SourceRow.ref).Nodup

structure Lens where
  showRevalidation : Bool := true
  upstreamOnly : Bool := false
  hideRuledOut : Bool := false

def ruledOut : List String := ["refuted", "unreachable"]

variable {I : Type}

def withoutRevalidation (finding : Finding I) : Finding I :=
  { finding with revalidateInputs := .absent }

/-- The members of a row that a lens keeps. -/
def keep (lens : Lens) (original : List (Finding I)) : List (Finding I) :=
  if lens.upstreamOnly then
    (original.filter fun f => f.isUpstream && f.revalidateKind ≠ "revalidation").map
      withoutRevalidation
  else if lens.showRevalidation then
    if lens.hideRuledOut then original.filter fun f => f.revalidateKind ∉ ruledOut else original
  else (original.filter fun f => f.revalidateKind ≠ "revalidation").map withoutRevalidation

/-- A row with what is kept of it. -/
structure Row (I : Type) where
  ref : ℕ
  report : ℕ
  group : List (Finding I)
  sourceGroup : List (Finding I)

def Row.hasApp (row : Row I) : Bool := row.group.any Finding.isApp

/-- The rows of a report of which something is kept. -/
def reportRows (lens : Lens) (report : Report I) : List (Row I) :=
  report.groups.filterMap fun original =>
    if keep lens original.members ≠ [] then
      some ⟨original.ref, report.ref, keep lens original.members, original.members⟩
    else none

def rowsOf (lens : Lens) (reports : List (Report I)) : List (Row I) :=
  reports.flatMap (reportRows lens)

/-! ### The two passes -/

/-- A finding with an id, by its row. -/
structure Occurrence where
  row : ℕ
  report : ℕ
  app : Bool

/-- The trees of joined rows, and whether the rows of a root's tree hold an App finding. -/
structure Trees where
  forest : Forest ℕ
  hasApp : ℕ → Bool

def Trees.start (rows : List (Row I)) : Trees where
  forest := .new
  hasApp k := rows.any fun row => row.ref = k && row.hasApp

def Trees.find (t : Trees) (k : ℕ) : ℕ := t.forest.root k

def Trees.union (t : Trees) (a b : ℕ) : Trees where
  forest := t.forest.unite a b
  hasApp :=
    if t.find a = t.find b then t.hasApp
    else Function.update t.hasApp (t.find a) (t.hasApp (t.find a) || t.hasApp (t.find b))

section Decidable

variable [DecidableEq I]

/-- The occurrences of each id. -/
def byId (rows : List (Row I)) : List (I × List (I × Occurrence)) :=
  Grouping.groupBy Prod.fst (rows.flatMap fun row => row.group.filterMap fun f =>
    f.id.map fun id => (id, ⟨row.ref, row.report, f.isApp⟩))

def occurrences (rows : List (Row I)) : List (List Occurrence) :=
  (byId rows).map fun p => p.2.map Prod.snd

/-- The first pass over the occurrences of an id: all with the first of an App finding, and those
of one report with its first. -/
def appPass (app : Option ℕ) : (ℕ → Option ℕ) → Trees → List Occurrence → Trees
  | _, t, [] => t
  | ownReports, t, o :: os =>
    let t := match app with
      | some app => t.union app o.row
      | none => t
    match ownReports o.report with
    | some first => appPass app ownReports (t.union first o.row) os
    | none => appPass app (Function.update ownReports o.report (some o.row)) t os

/-- The second pass over the occurrences of an id: those outside the trees of App findings. -/
def sourcePass : Option ℕ → Trees → List Occurrence → Trees
  | _, t, [] => t
  | first, t, o :: os =>
    if t.hasApp (t.find o.row) then sourcePass first t os
    else
      match first with
      | none => sourcePass (some o.row) t os
      | some first => sourcePass (some first) (t.union first o.row) os

def appOf (os : List Occurrence) : Option ℕ := (os.find? Occurrence.app).map Occurrence.row

def appTrees (rows : List (Row I)) : Trees :=
  (occurrences rows).foldl (fun t os => appPass (appOf os) (fun _ => none) t os) (.start rows)

def joined (rows : List (Row I)) : Trees :=
  (occurrences rows).foldl (fun t os => sourcePass none t os) (appTrees rows)

/-- The rows by their trees. -/
def components (rows : List (Row I)) : List (List (Row I)) :=
  (Grouping.groupBy (fun row : Row I => (joined rows).find row.ref) rows).map Prod.snd

/-! ### One group of a component -/

/-- A finding of a group, and those of the same id that were folded into its fields. -/
structure Copy (I : Type) where
  first : Finding I
  folded : List (Finding I) := []

def Copy.all (copy : Copy I) : List (Finding I) := copy.first :: copy.folded

/-- A finding folded into the copy of its id, or copied. -/
def addFinding (copies : List (Copy I)) (f : Finding I) : List (Copy I) :=
  if f.id.isSome ∧ ∃ c ∈ copies, c.first.id = f.id then
    copies.map fun c => if c.first.id = f.id then { c with folded := c.folded ++ [f] } else c
  else copies ++ [⟨f, []⟩]

def copiesOf (component : List (Row I)) : List (Copy I) :=
  (component.flatMap Row.group).foldl addFinding []

/-- The ids of the combined rows, in their order. -/
def canonical (component : List (Row I)) : List I :=
  ((component.filter fun row => row.group.length > 1).flatMap fun row =>
    row.group.filterMap Finding.id).eraseDups

def merged (component : List (Row I)) : List (Copy I) :=
  let copies := copiesOf component
  let whole := match component with
    | [row] => if (row.group.filterMap Finding.id).Nodup then some row.group else none
    | _ => none
  match whole with
  | some original => original.map fun f => ⟨f, []⟩
  | none =>
    (canonical component).filterMap (fun id => copies.find? fun c => c.first.id = some id) ++
      copies.filter fun c => ∀ id ∈ canonical component, c.first.id ≠ some id

/-! ### Splitting along inputs -/

section Split

variable (isString : I → Bool)

/-- An App finding's inputs, where they are all of the row. -/
def inputsOf (sourceIds : List I) (f : Finding I) : Option (List I) :=
  match f.revalidateInputs with
  | .absent => some []
  | .other => none
  | .array ids => if ∀ id ∈ ids, id ∈ sourceIds then some ids else none

/-- The inputs of one App finding, all below the root of the first. -/
def tieInputs (F : Forest I) : List I → Forest I
  | [] => F
  | first :: rest =>
    let root := F.root first
    (first :: rest).foldl (fun F id => (F.compressPath id).link root id) (F.compressPath first)

/-- Where a member of a group is put: an App finding with its inputs, or alone. -/
def partOf (F : Forest I) (member : Copy I × ℕ) : Option I ⊕ ℕ :=
  if member.1.first.isApp then
    match member.1.first.revalidateInputs with
    | .array (first :: _) => .inl (some (F.root first))
    | _ => .inr member.2
  else .inl (member.1.first.id.map F.root)

def partsOf (F : Forest I) (group : List (Copy I)) : List (List (Copy I)) :=
  (Grouping.groupBy (partOf F) group.zipIdx).map fun p => p.2.map Prod.fst

def sourceIdsOf (group : List (Copy I)) : List I :=
  (group.filter fun c => !c.first.isApp).filterMap fun c => c.first.id

def splitRevalidationInputs (group : List (Copy I)) (appFindings : Option (List (Finding I))) :
    List (List (Copy I)) :=
  let app := appFindings.getD ((group.filter fun c => c.first.isApp).map Copy.first)
  let source := group.filter fun c => !c.first.isApp
  if app = [] ∨ source = [] then [group]
  else if appFindings.isSome ∧ ∃ c ∈ group, c.first.isApp then [group]
  else if ∃ c ∈ source, c.first.id.any isString = false then [group]
  else
    match app.mapM (inputsOf (sourceIdsOf group)) with
    | none => [group]
    | some inputs =>
      if inputs.flatten.eraseDups.length ≠ (sourceIdsOf group).eraseDups.length then [group]
      else
        let parts := partsOf (inputs.foldl tieInputs .new) group
        if parts.length = 1 then [group] else parts

def splitOutput (lens : Lens) (component : List (Row I)) (group : List (Copy I)) :
    List (List (Copy I)) :=
  if lens.showRevalidation then [group]
  else if lens.upstreamOnly then
    let complete := (component.flatMap Row.sourceGroup).map fun f => (⟨f, []⟩ : Copy I)
    let partitions := splitRevalidationInputs isString complete none
    if partitions.length = 1 then [group]
    else
      let projected := (partitions.map fun partition =>
        group.filter fun c => ∃ id ∈ sourceIdsOf partition, c.first.id = some id).filter (· ≠ [])
      let covered := (projected.flatten.filterMap fun c => c.first.id).eraseDups
      let groupIds := (group.filterMap fun c => c.first.id).eraseDups
      if covered.length = groupIds.length then projected else [group]
  else
    splitRevalidationInputs isString group
      (some (component.flatMap fun row => row.sourceGroup.filter Finding.isApp))

/-- The groups that a workspace shows, without explicit merges. -/
def mergeReportGroups (lens : Lens) (reports : List (Report I)) : List (List (Copy I)) :=
  (components (rowsOf lens reports)).flatMap fun component =>
    splitOutput isString lens component (merged component)

end Split

end Decidable

end Triage.ReportGroups
