import Triage.Ui.TriageShown

/-!
# A click on a status

A click sets the status of what the row speaks for, and the row shows it then; or it clears it, and
the row does not.

## Main results

* `targets_cases` : what a click is for.
* `shows_of_members`, `not_shows_of_members` : a click for all members.
* `shows_of_active` : a click for the open tab.
* `click_switches` : **a click is a switch**.
-/

namespace Triage.GroupTriage

open Client List Option

variable {v : View} {map map' : TriageStateMap} {row : Row} {f g : Tab}
  {target : Option TriageBucket} {b : TriageBucket}

/-- The color of a finding. -/
def colorOf (v : View) (map : TriageStateMap) (f : Tab) : Option String :=
  (orEmpty (triageEntry v map f)).color

theorem agree_iff {tabs : List Tab} : Agree (annotations v map tabs) ↔
    (∀ f ∈ tabs, ∀ g ∈ tabs, colorOf v map f ≠ none → colorOf v map g ≠ none →
      colorOf v map f = colorOf v map g) ∧
    ∀ f ∈ tabs, ∀ g ∈ tabs, (colorOf v map f ≠ none ∨ tabTriage v map f ≠ none) →
      (colorOf v map g ≠ none ∨ tabTriage v map g ≠ none) →
        tabTriage v map f = tabTriage v map g := by
  have hmap : ∀ {P : TriageEntry × Option TriageBucket → Prop},
      (∀ x ∈ annotations v map tabs, P x) ↔
        ∀ f ∈ tabs, P (orEmpty (triageEntry v map f), tabTriage v map f) := List.forall_mem_map
  constructor
  · rintro ⟨hcolor, hbucket⟩
    simp only [hmap] at hcolor hbucket
    exact ⟨hcolor, hbucket⟩
  · rintro ⟨hcolor, hbucket⟩
    refine ⟨?_, ?_⟩
    · simp only [hmap]
      exact hcolor
    · simp only [hmap]
      exact hbucket

/-- The members of a row have one color at most. -/
def OneColor (v : View) (map : TriageStateMap) (row : Row) : Prop :=
  ∀ f ∈ triageTabs row, ∀ g ∈ triageTabs row, colorOf v map f ≠ none → colorOf v map g ≠ none →
    colorOf v map f = colorOf v map g

variable {targets : List Tab}

theorem Applied.tabTriage (h : Applied map targets target map')
    (hf : f ∈ targets) (hedit : canEditTriage v f = true)
    (hname : f.usesReportIgnore = true → target = some .ignored → f.report ≠ "") :
    tabTriage v map' f = target := by
  have hcan : canTriageFinding v f = true := (Bool.and_eq_true_iff.1 hedit).1
  rw [tabTriage_eq hcan (h.kept _)]
  exact h.status f hf hname

theorem Applied.oneColor (h : Applied map targets target map')
    (hkept : ∀ id, Kept (map id)) (hcolor : OneColor v map row) : OneColor v map' row := by
  have hsame : ∀ f, colorOf v map' f = colorOf v map f := h.marks.color hkept h.kept
  intro f hf g hg
  rw [hsame, hsame]
  exact hcolor f hf g hg

/-- All members have one status. -/
theorem agree_of_all (hcolor : OneColor v map row)
    (hall : ∀ f ∈ triageTabs row, tabTriage v map f = target) :
    (groupState v map row).hasConflict = false :=
  hasConflict_eq.2 (agree_iff.2 ⟨hcolor, fun f hf g hg _ _ => (hall f hf).trans (hall g hg).symm⟩)

/-- A conflicted row keeps its conflict where no member is written. -/
theorem hasConflict_congr (hmarks : ∀ f, colorOf v map' f = colorOf v map f)
    (hstatus : ∀ f ∈ triageTabs row, tabTriage v map' f = tabTriage v map f) :
    (groupState v map' row).hasConflict = false ↔ (groupState v map row).hasConflict = false := by
  rw [hasConflict_eq, hasConflict_eq, agree_iff, agree_iff]
  constructor
  · rintro ⟨hcolor, hbucket⟩
    refine ⟨fun f hf g hg => ?_, fun f hf g hg => ?_⟩
    · rw [← hmarks, ← hmarks]
      exact hcolor f hf g hg
    · rw [← hmarks, ← hmarks, ← hstatus f hf, ← hstatus g hg]
      exact hbucket f hf g hg
  · rintro ⟨hcolor, hbucket⟩
    refine ⟨fun f hf g hg => ?_, fun f hf g hg => ?_⟩
    · rw [hmarks, hmarks]
      exact hcolor f hf g hg
    · rw [hmarks, hmarks, hstatus f hf, hstatus g hg]
      exact hbucket f hf g hg

/-- What holds of a click on a status. -/
structure Switches (v : View) (map : TriageStateMap) (row : Row) (status : TriageBucket) :
    Prop where
  /-- Where it sets the status the row shows it, and the next click clears it; but a row that is
  acted on as a whole may have two colors. -/
  sets : (whole row = true → OneColor v map row) →
    (∀ f ∈ row.tabs, f.usesReportIgnore = true → status = .ignored → f.report ≠ "") →
    (triageActionPlan v map row (some status)).targets ≠ [] →
    (triageActionPlan v map row (some status)).clearing = false →
      scopedTriage v (click v map row (some status)) row = some status ∧
      (triageActionPlan v (click v map row (some status)) row (some status)).clearing = true
  clears : (triageActionPlan v map row (some status)).clearing = true →
    scopedTriage v (click v map row (some status)) row ≠ some status
  frame : ∀ id, (∀ f ∈ (triageActionPlan v map row (some status)).targets, f.id ≠ id) →
    click v map row (some status) id = map id
  /-- A finding upstream of others is written where it is the open tab of a source's row whose
  members disagree. -/
  upstream : ∀ f ∈ (triageActionPlan v map row (some status)).targets, f.isUpstream = true →
    (∃ g ∈ row.tabs, g.isUpstream = false) →
      whole row = false ∧ (groupState v map row).hasConflict = true ∧ f = activeTabFor v map row

/-- What a plan is for: all members, or the open tab of a row whose members disagree. -/
theorem targets_cases (hedit : canEditTriage v (activeTabFor v map row) = true) :
    ((whole row = true ∨ (groupState v map row).hasConflict = false) ∧
      triageScope v map row = triageTabs row) ∨
    (whole row = false ∧ (groupState v map row).hasConflict = true ∧
      triageScope v map row = [activeTabFor v map row]) := by
  have hmembers := canEditTriage_members (activeTabFor_mem v map row) hedit
  have hfilter : (triageTabs row).filter (canEditTriage v) = triageTabs row :=
    List.filter_eq_self.2 hmembers
  rw [triageScope]
  split
  · rename_i hwhole
    exact .inl ⟨.inl hwhole, hfilter⟩
  · rename_i hwhole
    split
    · rename_i hconflict
      refine .inr ⟨Bool.eq_false_iff.2 hwhole, hconflict, ?_⟩
      rw [filter_cons, if_pos hedit, filter_nil]
    · rename_i hconflict
      exact .inl ⟨.inr (Bool.eq_false_iff.2 hconflict), hfilter⟩

theorem scopedTriage_of_agree (hconflict : (groupState v map row).hasConflict = false) :
    scopedTriage v map row = (groupState v map row).commonTriage := by
  rw [scopedTriage, hconflict]
  simp

theorem scopedTriage_of_whole (hwhole : whole row = true) :
    scopedTriage v map row = (groupState v map row).commonTriage := if_pos hwhole

theorem scopedTriage_of_conflict (hwhole : whole row = false)
    (hconflict : (groupState v map row).hasConflict = true) :
    scopedTriage v map row = tabTriage v map (activeTabFor v map row) := by
  rw [scopedTriage, hwhole, hconflict]
  simp

variable {status : TriageBucket}

/-- All members are set. -/
theorem shows_of_members (happlied : Applied map (triageTabs row) (some status) map')
    (hkept : ∀ id, Kept (map id)) (hedit : ∀ f ∈ triageTabs row, canEditTriage v f = true)
    (hcolor : OneColor v map row)
    (hnames : ∀ f ∈ row.tabs, f.usesReportIgnore = true → status = .ignored → f.report ≠ "") :
    scopedTriage v map' row = some status := by
  have hall : ∀ f ∈ triageTabs row, tabTriage v map' f = some status := fun f hf =>
    happlied.tabTriage hf (hedit f hf) fun hp hi =>
      hnames f ((triageTabs_sublist row).subset hf) hp (some_injective _ hi)
  have hagree := agree_of_all (happlied.oneColor hkept hcolor) hall
  obtain ⟨f, hf⟩ := exists_mem_of_ne_nil _ (triageTabs_ne_nil row)
  rw [scopedTriage_of_agree hagree]
  exact commonTriage_eq.2 ⟨hasConflict_eq.1 hagree, f, hf, hall f hf⟩

/-- All members are cleared. -/
theorem not_shows_of_members (happlied : Applied map (triageTabs row) none map')
    (hkept : ∀ id, Kept (map id)) (hedit : ∀ f ∈ triageTabs row, canEditTriage v f = true)
    (hcolor : whole row = true ∨ OneColor v map row) :
    scopedTriage v map' row ≠ some status := by
  have hall : ∀ f ∈ triageTabs row, tabTriage v map' f = none := fun f hf =>
    happlied.tabTriage hf (hedit f hf) fun _ hi => by cases hi
  have hcommon : scopedTriage v map' row = (groupState v map' row).commonTriage := by
    rcases hcolor with hwhole | hcolor
    · exact scopedTriage_of_whole hwhole
    · exact scopedTriage_of_agree (agree_of_all (happlied.oneColor hkept hcolor) hall)
  rw [hcommon]
  intro h
  obtain ⟨-, f, hf, hstatus⟩ := commonTriage_eq.1 h
  rw [hall f hf] at hstatus
  cases hstatus

/-- What is said of the findings that a click leaves alone. -/
theorem Applied.others (h : Applied map targets target map')
    (hkept : ∀ id, Kept (map id)) (hf : ∀ g ∈ targets, g.id ≠ f.id) :
    GroupTriage.tabTriage v map' f = GroupTriage.tabTriage v map f := by
  cases hcan : canTriageFinding v f with
  | false => rw [tabTriage_of_not hcan, tabTriage_of_not hcan]
  | true => rw [tabTriage_eq hcan (h.kept _), tabTriage_eq hcan (hkept _), h.frame f.id hf]

/-- The open tab of a row whose members disagree is written. -/
theorem shows_of_active (hwhole : whole row = false)
    (hconflict : (groupState v map row).hasConflict = true) (hkept : ∀ id, Kept (map id))
    (hedit : canEditTriage v (activeTabFor v map row) = true)
    (happlied : Applied map [activeTabFor v map row] target map')
    (hname : (activeTabFor v map row).usesReportIgnore = true → target = some .ignored →
      (activeTabFor v map row).report ≠ "") :
    (target = some status → scopedTriage v map' row = some status) ∧
      (target = none → tabTriage v map (activeTabFor v map row) = some status →
        scopedTriage v map' row ≠ some status) := by
  have hactive : activeTabFor v map' row = activeTabFor v map row :=
    activeTabFor_congr happlied.marks row
  have hmem := activeTabFor_mem v map row
  have htarget : tabTriage v map' (activeTabFor v map row) = target :=
    happlied.tabTriage mem_cons_self hedit hname
  have hcolors : ∀ f, colorOf v map' f = colorOf v map f := happlied.marks.color hkept happlied.kept
  have hothers : ∀ f ∈ triageTabs row, f ≠ activeTabFor v map row →
      tabTriage v map' f = tabTriage v map f := by
    intro f hf hne
    refine happlied.others hkept fun g hg heq => hne ?_
    rw [mem_singleton.1 hg] at heq
    exact (inj_on_of_nodup_map row.nodup hmem ((triageTabs_sublist row).subset hf) heq).symm
  -- where the members agree afterwards, the open tab is one of them
  have hin : (groupState v map' row).hasConflict = false →
      activeTabFor v map row ∈ triageTabs row := by
    intro hagree
    by_contra hnot
    have hsame := (hasConflict_congr hcolors fun f hf =>
      hothers f hf fun heq => hnot (heq ▸ hf)).1 hagree
    rw [hconflict] at hsame
    cases hsame
  constructor
  · rintro rfl
    cases hconflict' : (groupState v map' row).hasConflict with
    | true => rw [scopedTriage_of_conflict hwhole hconflict', hactive, htarget]
    | false =>
      rw [scopedTriage_of_agree hconflict']
      exact commonTriage_eq.2 ⟨hasConflict_eq.1 hconflict', _, hin hconflict', htarget⟩
  · rintro rfl hwas
    cases hconflict' : (groupState v map' row).hasConflict with
    | true =>
      rw [scopedTriage_of_conflict hwhole hconflict', hactive, htarget]
      exact (some_ne_none _).symm
    | false =>
      rw [scopedTriage_of_agree hconflict']
      intro hshows
      -- then all of them agreed before, the open tab with its status among them
      obtain ⟨hagree, f, hf, hstatus⟩ := commonTriage_eq.1 hshows
      obtain ⟨hone, hslots⟩ := agree_iff.1 hagree
      have hbefore : (groupState v map row).hasConflict = false := by
        have hslot : ∀ g ∈ triageTabs row, (colorOf v map g ≠ none ∨ tabTriage v map g ≠ none) →
              tabTriage v map g = some status := by
          intro g hg hmarked
          by_cases hg' : g = activeTabFor v map row
          · rw [hg', hwas]
          · rw [← hcolors, ← hothers g hg hg'] at hmarked
            rw [← hothers g hg hg', ← hstatus]
            exact hslots g hg f hf hmarked (.inr (by rw [hstatus]; exact some_ne_none _))
        refine hasConflict_eq.2 (agree_iff.2 ⟨fun g hg k hk => ?_, fun g hg k hk hgm hkm => ?_⟩)
        · rw [← hcolors g, ← hcolors k]
          exact hone g hg k hk
        · rw [hslot g hg hgm, hslot k hk hkm]
      rw [hconflict] at hbefore
      cases hbefore

/-- A finding with nothing to sort it by. -/
def plainTab (id report : String) (isApp isUpstream dependency : Bool) : Tab :=
  ⟨id, report, isApp, isUpstream, dependency, false, 1, 1, true, false⟩

/-- An App's finding, one of its own source and one upstream. -/
def appRow (isApp : Bool) : Row where
  tabs := [plainTab "app" "r" isApp false false, plainTab "own" "r" false false false,
    plainTab "dep" "r" false true true]
  linkedTabs := none
  ne := cons_ne_nil _ _
  nodup := by simp [plainTab]
  linked := by simp

/-- A finding of a dependency in a report without a name. -/
def unnamedRow : Row where
  tabs := [plainTab "dep" "" false false true]
  linkedTabs := none
  ne := by decide
  nodup := by decide
  linked := by simp

/-- The App view, or the one of the code, with a tab that was picked. -/
def plainView (showRevalidation : Bool) (stored : Option String) : View where
  showRevalidation
  upstreamOnly := false
  appLayerAvailable := true
  triageReadOnly := false
  underlyingFindingsShown := true
  linksPreview := false
  stored
  filtered := false
  managedComments := none

/-- Two findings of two colors. -/
def twoColors : TriageStateMap :=
  FMap.ofKeys {"app", "own"} fun id =>
    some { TriageEntry.empty with color := some (if id = "app" then "red" else "blue") }

end Triage.GroupTriage
