import Mathlib.Data.List.Sort
import Triage.Client.FindingTriage

/-!
# The triage of a group of findings

A row of the findings table is a group: the findings of an App and of its own source, and the
findings upstream of them. What the row shows is rolled up from its members; a click on a status
sets it or clears it for all that the row speaks for, or for the tab that is open where the members
disagree.
-/

namespace Triage.GroupTriage

open Client

/-- A finding, with what the view makes of it. -/
structure Tab where
  /-- `tabKey` -/
  id : String
  /-- `_reportName ?? ''` -/
  report : String
  isApp : Bool
  isUpstream : Bool
  usesReportIgnore : Bool
  isRevalidation : Bool
  /-- The rank of `displayedSeverity`. -/
  severity : ℕ
  confidence : ℤ
  matchesRunFilters : Bool
  /-- There is an `automaticFixFor` it. -/
  automaticFix : Bool
  deriving DecidableEq

/-- A group holds a finding once; what it links are some of its findings. -/
structure Row where
  tabs : List Tab
  linkedTabs : Option (List Tab)
  ne : tabs ≠ []
  nodup : (tabs.map Tab.id).Nodup
  linked : ∀ ts ∈ linkedTabs, ∀ f ∈ ts, f ∈ tabs

structure View where
  showRevalidation : Bool
  upstreamOnly : Bool
  appLayerAvailable : Bool
  triageReadOnly : Bool
  underlyingFindingsShown : Bool
  /-- The links preview shows this row. -/
  linksPreview : Bool
  /-- `activeTabByGroup.get(groupKey(group))` -/
  stored : Option String
  /-- One of the filters by analyzer and by model is on. -/
  filtered : Bool
  /-- `managedComments.get(f.id)`, in managed mode. -/
  managedComments : Option (String → List String)

variable (v : View) (map : TriageStateMap)

/-! ### A finding -/

def canTriageFinding (f : Tab) : Bool :=
  !f.isUpstream || !v.showRevalidation || v.upstreamOnly || !v.appLayerAvailable

def canEditTriage (f : Tab) : Bool := canTriageFinding v f && !v.triageReadOnly

def triageEntry (f : Tab) : Option TriageEntry :=
  if canTriageFinding v f then
    have raw := map f.id
    have entry := if (orEmpty raw).triage = some .ignored ∧ f.usesReportIgnore then
      raw.map fun e => { e with triage := none } else raw
    match v.managedComments with
    | none => entry
    | some comments =>
      if comments f.id = [] ∧ (orEmpty entry).comment.getD "" = "" then entry
      else some { orEmpty entry with comment := some ("\n\n".intercalate (comments f.id)) }
  else none

def isIgnored (f : Tab) : Bool :=
  canTriageFinding v f &&
    (sharedFindingTriage f.usesReportIgnore (orEmpty (map f.id)) = some .ignored ||
      f.usesReportIgnore && isReportIgnored (orEmpty (map f.id)) f.report)

/-- `tabTriage(f, triageEntry(f))` -/
def tabTriage (f : Tab) : Option TriageBucket :=
  if canTriageFinding v f then
    (sharedFindingTriage f.usesReportIgnore (orEmpty (triageEntry v map f))).or
      (if isIgnored v map f then some .ignored else none)
  else none

def colored (f : Tab) : Bool := (orEmpty (triageEntry v map f)).color.getD "" ≠ ""

def tabHasMarks (f : Tab) : Bool :=
  have entry := orEmpty (triageEntry v map f)
  entry.comment.getD "" ≠ "" || entry.fix.getD "" ≠ "" || f.automaticFix ||
    entry.flagged = some true

/-! ### The tab that is open -/

def foldedTabs (tabs : List Tab) : List Tab :=
  if tabs.length ≤ 1 ∨ tabs.all (!·.isRevalidation) then tabs
  else tabs.filter (·.isRevalidation)

def drawnTabs (row : Row) : List Tab :=
  if v.linksPreview then row.tabs
  else row.linkedTabs.getD
    (if v.underlyingFindingsShown then row.tabs else foldedTabs row.tabs)

/-- The comparison of `sortTabs`: no later than the other. -/
def tabLe (a b : Tab) : Bool :=
  if a.isRevalidation ≠ b.isRevalidation then a.isRevalidation
  else if colored v map a ≠ colored v map b then colored v map a
  else if a.severity ≠ b.severity then b.severity < a.severity
  else b.confidence ≤ a.confidence

/-- The sort is stable. -/
def sortTabs (row : Row) : List Tab :=
  (drawnTabs v row).insertionSort fun a b => tabLe v map a b

def activeTabFor (row : Row) : Tab :=
  have sorted := sortTabs v map row
  have pool := if v.filtered ∧ sorted.any (·.matchesRunFilters) then
    sorted.filter (·.matchesRunFilters) else sorted
  -- no strip is empty
  (if row.tabs.length = 1 then row.tabs.head?
    else if sorted.length = 1 then sorted.head?
    else (v.stored.bind fun key => sorted.find? (·.id = key)).or
      ((pool.find? (tabHasMarks v map)).or pool.head?)).getD (row.tabs.head row.ne)

/-! ### The rollup -/

/-- The members that the triage of a row speaks for: all, or the App's and its own source's where
there are upstream ones besides. -/
def triageTabs (row : Row) : List Tab :=
  have own := row.tabs.filter (!·.isUpstream)
  if own.length = 0 ∨ own.length = row.tabs.length then row.tabs else own

/-- `triageTabs(group) !== group` -/
def mixed (row : Row) : Bool :=
  have own := row.tabs.filter (!·.isUpstream)
  !(own.length = 0 ∨ own.length = row.tabs.length)

/-- The variables of `groupState`; a first value that was not seen is `none`. -/
structure Rollup where
  annotatedCount : ℕ
  colorsConflict : Bool
  firstColor : Option String
  bucketsConflict : Bool
  firstBucketSlot : Option (Option TriageBucket)
  firstTriage : Option TriageBucket
  anyTriage : Bool
  allBucketed : Bool

def Rollup.start : Rollup := ⟨0, false, none, false, none, none, false, true⟩

/-- A member with its entry and its bucket. -/
def Rollup.next (r : Rollup) (x : TriageEntry × Option TriageBucket) : Rollup :=
  if x.1.color = none ∧ x.2 = none then r
  else
    have listed : Bool := x.2 = some .ignored && x.1.triage ≠ some .ignored
    { annotatedCount := r.annotatedCount + 1
      colorsConflict := r.colorsConflict ||
        (x.1.color ≠ none ∧ r.firstColor ≠ none ∧ x.1.color ≠ r.firstColor)
      firstColor := r.firstColor.or x.1.color
      bucketsConflict := r.bucketsConflict ||
        (r.firstBucketSlot ≠ none ∧ r.firstBucketSlot ≠ some x.2)
      firstBucketSlot := r.firstBucketSlot.or (some x.2)
      firstTriage := r.firstTriage.or x.2
      anyTriage := r.anyTriage || x.2 ≠ none && !listed
      allBucketed := r.allBucketed && x.2 ≠ none && !listed }

/-- The `isFixed` and so on are comparisons of `commonTriage`. -/
structure GroupState where
  hasConflict : Bool
  commonColor : Option String
  anyTriage : Bool
  allTriaged : Bool
  commonTriage : Option TriageBucket
  allIgnored : Bool
  deriving DecidableEq

def Rollup.state (r : Rollup) (members : ℕ) : GroupState :=
  have hasConflict := r.colorsConflict || r.bucketsConflict
  have commonTriage := if hasConflict then none else r.firstTriage
  { hasConflict
    commonColor := if hasConflict then none else r.firstColor
    anyTriage := r.anyTriage
    allTriaged := 0 < r.annotatedCount && r.allBucketed
    commonTriage
    allIgnored := commonTriage = some .ignored && r.annotatedCount = members }

def annotations (tabs : List Tab) : List (TriageEntry × Option TriageBucket) :=
  tabs.map fun f => (orEmpty (triageEntry v map f), tabTriage v map f)

def groupState (row : Row) : GroupState :=
  ((annotations v map (triageTabs row)).foldl Rollup.next .start).state (triageTabs row).length

/-! ### A click -/

/-- A linked row, or an App's with upstream members, is acted on as a whole. -/
def whole (row : Row) : Bool := row.linkedTabs.isSome || mixed row && row.tabs.any (·.isApp)

def triageScope (row : Row) : List Tab :=
  have targets := if whole row then triageTabs row
    else if (groupState v map row).hasConflict then [activeTabFor v map row] else triageTabs row
  targets.filter (canEditTriage v)

def scopedTriage (row : Row) : Option TriageBucket :=
  if whole row then (groupState v map row).commonTriage
  else if (groupState v map row).hasConflict then tabTriage v map (activeTabFor v map row)
  else (groupState v map row).commonTriage

structure Plan where
  targets : List Tab
  clearing : Bool

/-- The action `restore` is none. -/
def triageActionPlan (row : Row) (action : Option TriageBucket) : Plan :=
  if canEditTriage v (activeTabFor v map row) then
    ⟨triageScope v map row, action = none ∨ scopedTriage v map row = action⟩
  else ⟨[], false⟩

def applyTriage (targets : List Tab) (target : Option TriageBucket) : TriageStateMap :=
  targets.foldl (fun m f => if canEditTriage v f then
    setFindingTriage m f.report ⟨some f.id, "", f.usesReportIgnore⟩ target else m) map

/-- A click on a status of the menu. -/
def click (row : Row) (action : Option TriageBucket) : TriageStateMap :=
  have plan := triageActionPlan v map row action
  applyTriage v map plan.targets (if plan.clearing then none else action)

end Triage.GroupTriage
