import Triage.Data.FMap

/-!
# Triage entries and changesets

The pure triage algebra of the client: the entries of `triage-entry.ts`, and over them the
operations of `triage-changeset.ts`: applying and computing changesets, comparing states, rebasing
local edits onto a remote state and finding the properties both sides changed.

A state maps finding ids to entries; a changeset maps an id to an entry, which replaces the whole
entry, or to `null`, which deletes it.
-/

namespace Triage.Client

/-! ### Entries -/

/-- `TriageBucket`. -/
inductive TriageBucket
  | inprogress
  | fixed
  | invalid
  | deleted
  | ignored
  deriving DecidableEq, Repr

/-- `TriageEntry`; an absent list of reports is the empty one. -/
structure TriageEntry where
  color : Option String
  triage : Option TriageBucket
  comment : Option String
  fix : Option String
  flagged : Option Bool
  ignoredReports : List String
  scopedIgnoredReports : List String
  /-- What older peers sent for `triage: 'deleted'`. -/
  legacyDeleted : Bool
  deriving DecidableEq, Repr

/-- `{}`. -/
def TriageEntry.empty : TriageEntry := ⟨none, none, none, none, none, [], [], false⟩

/-- `TriageStateMap`. -/
abbrev TriageStateMap := FMap String TriageEntry

/-- `Changeset`; `some none` is the `null` that deletes an id. -/
abbrev Changeset := FMap String (Option TriageEntry)

/-- `bucketOf`. -/
def bucketOf (e : TriageEntry) : Option TriageBucket :=
  e.triage.or (if e.legacyDeleted then some .deleted else none)

/-- `allowsReportIgnores`. -/
def allowsReportIgnores (e : TriageEntry) : Bool :=
  bucketOf e = none || bucketOf e = some .ignored

/-- A string that is absent or empty counts as absent. -/
def nonempty (s : Option String) : Option String := s.filter (· ≠ "")

/-- `entryIsEmpty`. -/
def entryIsEmpty (e : TriageEntry) : Bool :=
  nonempty e.color = none && bucketOf e = none && nonempty e.comment = none &&
    nonempty e.fix = none && e.ignoredReports.isEmpty && e.flagged = none

/-- The entry `normalizeEntry` builds before it looks whether anything is left of it. -/
def cleanEntry (e : TriageEntry) : TriageEntry :=
  have reports := e.ignoredReports.filter (· ≠ "")
  { color := nonempty e.color
    triage := bucketOf e
    comment := nonempty e.comment
    fix := nonempty e.fix
    flagged := e.flagged
    ignoredReports := reports
    scopedIgnoredReports := (e.scopedIgnoredReports.filter (· ∈ reports)).eraseDups
    legacyDeleted := false }

/-- `normalizeEntry`. -/
def normalizeEntry (src : Option TriageEntry) : Option TriageEntry :=
  src.bind fun e => if entryIsEmpty (cleanEntry e) then none else some (cleanEntry e)

/-- `ignoredReportsEqual`. -/
def ignoredReportsEqual (a b : List String) : Bool :=
  a.length = b.length && b.all (· ∈ a)

/-- `entriesEqual`. -/
def entriesEqual (a b : TriageEntry) : Bool :=
  a.color = b.color && bucketOf a = bucketOf b &&
    a.comment.getD "" = b.comment.getD "" && a.fix.getD "" = b.fix.getD "" &&
    a.flagged = b.flagged && ignoredReportsEqual a.ignoredReports b.ignoredReports &&
    ignoredReportsEqual a.scopedIgnoredReports b.scopedIgnoredReports

/-! ### Changesets -/

/-- `entry ?? {}`. -/
def orEmpty (e : Option TriageEntry) : TriageEntry := e.getD .empty

/-- `statesEqual`. -/
def statesEqual (a b : TriageStateMap) : Prop :=
  ∀ id ∈ a.keys ∪ b.keys, entriesEqual (orEmpty (a id)) (orEmpty (b id))

instance (a b : TriageStateMap) : Decidable (statesEqual a b) :=
  inferInstanceAs (Decidable (∀ id ∈ a.keys ∪ b.keys, _))

/-- `applyChangeset`. -/
def applyChangeset {E : Type*} (baseState : FMap String E) (changeset : FMap String (Option E)) :
    FMap String E :=
  .ofKeys (baseState.keys ∪ changeset.keys) fun id => (changeset id).getD (baseState id)

/-- `computeChangeset`. -/
def computeChangeset (base target : TriageStateMap) : Changeset :=
  .ofKeys (base.keys ∪ target.keys) fun id =>
    if entriesEqual (orEmpty (base id)) (orEmpty (target id)) then none else some (target id)

/-- `changesetEmpty`. -/
def changesetEmpty (cs : Changeset) : Bool := cs.keys = ∅

/-- `rebaseIgnoredReports`. -/
def rebaseIgnoredReports (base loc remote : List String) : List String :=
  have kept := remote.eraseDups.filter fun r => ¬(r ∈ base ∧ r ∉ loc)
  kept ++ loc.eraseDups.filter fun r => r ∉ base ∧ r ∉ kept

/-- The entry of one finding after `rebaseLocalState`, from the entries in the three states. -/
def rebaseEntry (preserveEntry : Bool) (base loc remote : Option TriageEntry) :
    Option TriageEntry :=
  have before := orEmpty (normalizeEntry base)
  have current := orEmpty (normalizeEntry loc)
  have theirs := orEmpty (normalizeEntry remote)
  -- the triage bucket and the ignored reports are rebased together
  have touched := preserveEntry || before.triage ≠ current.triage ||
    !ignoredReportsEqual before.ignoredReports current.ignoredReports
  have independentIgnores := !preserveEntry && allowsReportIgnores current &&
    allowsReportIgnores theirs
  normalizeEntry (some {
    color := if before.color ≠ current.color ∨ preserveEntry then current.color else theirs.color
    comment := if before.comment ≠ current.comment ∨ preserveEntry then current.comment
      else theirs.comment
    fix := if before.fix ≠ current.fix ∨ preserveEntry then current.fix else theirs.fix
    flagged := if before.flagged ≠ current.flagged ∨ preserveEntry then current.flagged
      else theirs.flagged
    triage := if touched && (!independentIgnores || before.triage ≠ current.triage) then
      current.triage else theirs.triage
    ignoredReports := if !touched then theirs.ignoredReports
      else if independentIgnores then
        rebaseIgnoredReports before.ignoredReports current.ignoredReports theirs.ignoredReports
      else current.ignoredReports
    scopedIgnoredReports := (current.scopedIgnoredReports ++ theirs.scopedIgnoredReports).eraseDups
    legacyDeleted := theirs.legacyDeleted })

/-- `rebaseLocalState`. -/
def rebaseLocalState (base loc remote : TriageStateMap) (preserveKnownIds : Finset String) :
    TriageStateMap :=
  have ids := base.keys ∪ loc.keys ∪ preserveKnownIds
  .ofKeys (remote.keys ∪ ids) fun id =>
    if id ∈ ids then rebaseEntry (id ∈ preserveKnownIds) (base id) (loc id) (remote id)
    else remote id

/-! ### Conflicts -/

/-- `ConflictProperty`. -/
inductive ConflictProperty
  | color
  | triage
  | comment
  | fix
  | flagged
  deriving DecidableEq, Repr

/-- The string of a bucket. -/
def TriageBucket.toString : TriageBucket → String
  | .inprogress => "inprogress"
  | .fixed => "fixed"
  | .invalid => "invalid"
  | .deleted => "deleted"
  | .ignored => "ignored"

/-- `normColor`, `normTriage`, `normComment`, `normFix` and `normFlagged`. -/
def ConflictProperty.norm (e : TriageEntry) : ConflictProperty → String
  | .color => e.color.getD ""
  | .triage => ((bucketOf e).map TriageBucket.toString).getD ""
  | .comment => e.comment.getD ""
  | .fix => e.fix.getD ""
  | .flagged =>
    match e.flagged with
    | some true => "flagged"
    | some false => "not flagged"
    | none => ""

/-- `Conflict`, by the finding and the property. -/
structure Conflict where
  id : String
  property : ConflictProperty
  localValue : String
  imported : String
  deriving DecidableEq, Repr

/-- The order in which the properties are compared. -/
def ConflictProperty.all : List ConflictProperty := [.color, .triage, .comment, .fix, .flagged]

/-- The conflicts of one finding of the overlay. -/
def conflictsOf (preserve : Bool) (id : String) (overlay old chain : Option TriageEntry) :
    List Conflict :=
  ConflictProperty.all.filterMap fun p =>
    have oldVal := p.norm (orEmpty old)
    have localVal := p.norm (orEmpty overlay)
    have chainVal := p.norm (orEmpty chain)
    if (localVal ≠ oldVal ∨ preserve) ∧ chainVal ≠ oldVal ∧ localVal ≠ chainVal then
      some ⟨id, p, localVal, chainVal⟩
    else none

/-- `collectChainConflicts` for the findings `ids`, as a set of conflicts. -/
def collectChainConflicts (overlay : Changeset) (oldBaseState newBaseState : TriageStateMap)
    (preserveKnownIds : Finset String) : Finset Conflict :=
  overlay.keys.biUnion fun id =>
    (conflictsOf (id ∈ preserveKnownIds) id ((overlay id).getD none) (oldBaseState id)
      (newBaseState id)).toFinset

/-! ### Applying -/

section Apply

variable {E : Type*} (s : FMap String E) (cs : FMap String (Option E)) (id : String)

theorem applyChangeset_apply : applyChangeset s cs id = (cs id).getD (s id) := by
  rw [applyChangeset, FMap.ofKeys_apply]
  split_ifs with h
  · rfl
  · rw [Finset.mem_union, not_or] at h
    rw [FMap.eq_none_iff.mpr h.1, FMap.eq_none_iff.mpr h.2]
    rfl

end Apply

end Triage.Client
