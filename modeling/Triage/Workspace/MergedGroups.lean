import Triage.Workspace.GroupLinks
import Triage.Workspace.GroupSplit

/-!
# What the merge of report groups makes

Every finding that a lens keeps is in one group; what is one group before any split is told by the
links of the rows, in whatever order they come; and without the App layer a group is split along
the inputs of its App findings, or left whole.

## Main results

* `joined_iff` : the components are those of the links.
* `shown_splitOutput`, `splitOutput_of_not`, `splitOutput_perm` : the groups of a component.
* `mergeReportGroups_merges` : **the groups are what they are to be**, in every lens.
-/

namespace Triage.ReportGroups

open List Row

variable {I : Type}

/-! ### The rows of reports -/

/-- The findings that a lens keeps. -/
def keptFindings (lens : Lens) (reports : List (Report I)) : List (Finding I) :=
  (rowsOf lens reports).flatMap Row.group

/-- The reports in another order, and the rows of each. -/
def Reordered (reports reports' : List (Report I)) : Prop :=
  ∃ mid, reports.Perm mid ∧
    List.Forall₂ (fun r r' => r.ref = r'.ref ∧ r.groups.Perm r'.groups) mid reports'

variable {reports reports' : List (Report I)}

theorem rowsOf_perm {lens : Lens} (h : Reordered reports reports') :
    (rowsOf lens reports).Perm (rowsOf lens reports') := by
  obtain ⟨mid, hperm, hrows⟩ := h
  rw [rowsOf, rowsOf]
  refine (hperm.flatMap_right _).trans ?_
  clear hperm
  induction hrows with
  | nil => exact .refl _
  | cons h _ ih =>
    obtain ⟨href, hgroups⟩ := h
    rw [flatMap_cons, flatMap_cons]
    refine .append ?_ ih
    rw [reportRows, reportRows, href]
    exact hgroups.filterMap _

theorem refs_rowsOf_nodup (R : Reports I) (lens : Lens) : ((rowsOf lens R.list).map ref).Nodup := by
  have hsub : ∀ report : Report I, ((reportRows lens report).map ref).Sublist
      (report.groups.map SourceRow.ref) := by
    intro report
    rw [reportRows]
    induction report.groups with
    | nil => exact .refl _
    | cons original groups ih =>
      rw [filterMap_cons]
      split_ifs
      · exact ih.cons_cons _
      · exact ih.cons _
  have hall : ∀ reports : List (Report I), ((rowsOf lens reports).map ref).Sublist
      ((reports.flatMap Report.groups).map SourceRow.ref) := by
    intro reports
    induction reports with
    | nil => exact .refl _
    | cons report reports ih =>
      rw [rowsOf, flatMap_cons, map_append, flatMap_cons, map_append]
      exact (hsub report).append ih
  exact R.distinctRows.sublist (hall R.list)

/-- A row none of whose ids an App finding carries joins App findings' rows of one report alone. -/
theorem report_eq_of_linked (R : Reports I) (lens : Lens) {s r : Row I}
    (hs : s ∈ rowsOf lens R.list) (hr : r ∈ rowsOf lens R.list)
    (hsource : ∀ id, Carries s id → ¬AppCarries (rowsOf lens R.list) id)
    (hlink : Linked (rowsOf lens R.list) s.ref r.ref) (happ : InApp (rowsOf lens R.list) r.ref) :
    s.report = r.report := by
  have hunique : ∀ {a b : Row I}, a ∈ rowsOf lens R.list → b ∈ rowsOf lens R.list →
      a.ref = b.ref → a = b := fun ha hb =>
    inj_on_of_nodup_map (refs_rowsOf_nodup R lens) ha hb
  rcases hlink with ⟨s', hs', r', hr', hsref, hrref, id, hid, -, hlink⟩ | ⟨-, hnot, -⟩
  · obtain rfl := hunique hs' hs hsref
    obtain rfl := hunique hr' hr hrref
    exact hlink.resolve_left (hsource id hid)
  · exact absurd happ hnot

/-! ### Splits by lens -/

/-- The App findings of a component's rows, kept or not. -/
def appsOf (component : List (Row I)) : List (Finding I) :=
  component.flatMap fun row => row.sourceGroup.filter Finding.isApp

theorem appFindingsOf_completeOf (component : List (Row I)) :
    appFindingsOf (completeOf component) none = appsOf component := by
  rw [appFindingsOf, completeOf, appsOf, Option.getD_none, filter_map, map_map, ← filter_flatMap]
  exact map_id _

/-- When a lens splits the group of a component. -/
def LensSplits (isString : I → Bool) (lens : Lens) (component : List (Row I))
    (group : List (Copy I)) : Prop :=
  lens.showRevalidation = false ∧
    if lens.upstreamOnly then
      Splits isString (completeOf component) none ∧
        ∀ id ∈ idsOf group, id ∈ sourceIdsOf (completeOf component)
    else Splits isString group (some (appsOf component))

/-- Two ids in one of some groups. -/
def Shown (groups : List (List (Copy I))) (id id' : I) : Prop :=
  ∃ group ∈ groups, id ∈ idsOf group ∧ id' ∈ idsOf group

variable {group : List (Copy I)}

theorem shown_singleton {id id' : I} :
    Shown [group] id id' ↔ id ∈ idsOf group ∧ id' ∈ idsOf group := by
  simp [Shown]

/-- Without App findings the ids are of source findings. -/
theorem mem_sourceIdsOf_of_source (h : ∀ c ∈ group, c.first.isApp = false) {id : I} :
    id ∈ sourceIdsOf group ↔ id ∈ idsOf group := by
  simp only [mem_sourceIdsOf, mem_sourcesOf, mem_idsOf]
  constructor
  · rintro ⟨_, ⟨c, hc, -, rfl⟩, hid⟩
    exact ⟨c, hc, hid⟩
  · rintro ⟨c, hc, hid⟩
    exact ⟨_, ⟨c, hc, h c hc, rfl⟩, hid⟩

theorem folds_withIds (h : Folds group) : Folds (withIds group) :=
  h.sublist filter_sublist

/-- The findings with an id are those that copies with an id stand for. -/
theorem represented_withIds {copies : List (Copy I)}
    (h : ∀ c ∈ copies, ∀ f ∈ c.folded, f.id = c.first.id) :
    represented (withIds copies) = (represented copies).filter fun f => f.id.isSome := by
  induction copies with
  | nil => rfl
  | cons c copies ih =>
    have hall : c.all.filter (fun f => f.id.isSome) = if c.first.id.isSome then c.all else [] := by
      have hsame : ∀ f ∈ c.all, f.id.isSome = c.first.id.isSome := by
        intro f hf
        rcases mem_cons.1 hf with rfl | hf
        · rfl
        · rw [h c (by simp) f hf]
      split_ifs with hsome
      · exact List.filter_eq_self.2 fun f hf => (hsame f hf).trans hsome
      · exact filter_eq_nil_iff.2 fun f hf hf' => hsome ((hsame f hf).symm.trans hf')
    rw [represented_cons, filter_append, ← ih fun c' hc' => h c' (by simp [hc']), hall,
      withIds, filter_cons]
    split_ifs <;> rfl

variable [DecidableEq I] {isString : I → Bool} {lens : Lens} {component : List (Row I)}
  {group : List (Copy I)}

theorem splitOutput_app (h : lens.showRevalidation = true) :
    splitOutput isString lens component group = [group] := if_pos h

theorem splitOutput_code (hs : lens.showRevalidation = false) (hu : lens.upstreamOnly = false) :
    splitOutput isString lens component group =
      splitRevalidationInputs isString group (some (appsOf component)) := by
  rw [splitOutput, hs, hu]
  rfl

theorem splitOutput_of_not (h : ¬LensSplits isString lens component group) :
    splitOutput isString lens component group = [group] := by
  cases hs : lens.showRevalidation with
  | true => exact splitOutput_app hs
  | false =>
    rw [LensSplits, and_iff_right hs] at h
    cases hu : lens.upstreamOnly with
    | true =>
      rw [if_pos hu] at h
      rw [splitOutput_upstream hs hu]
      refine if_neg fun hsplit => h ⟨?_, hsplit.2⟩
      by_contra hnot
      rw [split_of_not hnot] at hsplit
      exact hsplit.1 rfl
    | false =>
      rw [if_neg (by simp [hu])] at h
      rw [splitOutput_code hs hu, split_of_not h]

/-- Two ids are visible together if they are in one partition. -/
theorem shown_projectedOf {partitions : List (List (Copy I))} {id id' : I} (hid : id ∈ idsOf group)
    (hid' : id' ∈ idsOf group) :
    Shown (projectedOf group partitions) id id' ↔ Together partitions id id' := by
  have hmem : ∀ partition : List (Copy I), ∀ {id}, id ∈ idsOf (visibleIn group partition) ↔
      id ∈ idsOf group ∧ id ∈ sourceIdsOf partition := by
    intro partition id
    simp only [mem_idsOf, mem_visibleIn]
    constructor
    · rintro ⟨c, ⟨hc, id', hmem, hid'⟩, hid⟩
      obtain rfl := Option.some.inj (hid.symm.trans hid')
      exact ⟨⟨c, hc, hid⟩, hmem⟩
    · rintro ⟨⟨c, hc, hid⟩, hmem⟩
      exact ⟨c, ⟨hc, id, hmem, hid⟩, hid⟩
  constructor
  · rintro ⟨_, hpart, h, h'⟩
    obtain ⟨partition, hp, rfl⟩ := mem_map.1 (mem_filter.1 hpart).1
    exact ⟨partition, hp, ((hmem partition).1 h).2, ((hmem partition).1 h').2⟩
  · rintro ⟨partition, hp, h, h'⟩
    have hshown := (hmem partition).2 ⟨hid, h⟩
    obtain ⟨c, hc, -⟩ := mem_idsOf.1 hshown
    refine ⟨_, mem_filter.2 ⟨mem_map_of_mem hp, ?_⟩, hshown, (hmem partition).2 ⟨hid', h'⟩⟩
    exact decide_eq_true (ne_nil_of_mem hc)

/-- **What a split group is**: ids that the App findings' inputs connect. -/
theorem shown_splitOutput (h : LensSplits isString lens component group) {id id' : I}
    (hid : id ∈ idsOf group) (hid' : id' ∈ idsOf group) :
    Shown (splitOutput isString lens component group) id id' ↔
      Relation.EqvGen (InputLink (appsOf component)) id id' := by
  obtain ⟨hs, h⟩ := h
  cases hu : lens.upstreamOnly with
  | true =>
    rw [if_pos hu] at h
    obtain ⟨hsplits, hall⟩ := h
    have htogether := together_split hsplits (hall id hid) (hall id' hid')
    rw [appFindingsOf_completeOf] at htogether
    rw [splitOutput_upstream hs hu, ← htogether]
    split_ifs with hmany
    · exact shown_projectedOf hid hid'
    · -- the one partition holds the complete rows
      have hone : (splitRevalidationInputs isString (completeOf component) none).length = 1 := by
        by_contra hne
        exact hmany ⟨hne, hall⟩
      obtain ⟨partition, hpartition⟩ := length_eq_one_iff.1 hone
      have hperm : partition.Perm (completeOf component) := by
        have hflatten := @split_perm I _ isString (completeOf component) none
        rw [hpartition] at hflatten
        simpa using hflatten
      rw [hpartition, shown_singleton, together_singleton, (sourceIdsOf_perm hperm).mem_iff,
        (sourceIdsOf_perm hperm).mem_iff]
      exact iff_of_true ⟨hid, hid'⟩ ⟨hall id hid, hall id' hid'⟩
  | false =>
    rw [if_neg (by simp [hu])] at h
    have hsource := h.2 rfl
    have hparts : ∀ part ∈ splitRevalidationInputs isString group (some (appsOf component)),
        ∀ c ∈ part, c.first.isApp = false := fun part hpart c hc =>
      hsource c (split_perm.mem_iff.1 (mem_flatten.2 ⟨part, hpart, hc⟩))
    have htogether := together_split h ((mem_sourceIdsOf_of_source hsource).2 hid)
      ((mem_sourceIdsOf_of_source hsource).2 hid')
    rw [splitOutput_code hs hu]
    refine Iff.trans ?_ htogether
    refine exists_congr fun part => and_congr_right fun hpart => ?_
    rw [mem_sourceIdsOf_of_source (hparts part hpart),
      mem_sourceIdsOf_of_source (hparts part hpart)]

/-- The groups of a component hold its group, but for what has no id in the upstream lens. -/
theorem splitOutput_perm (hfolds : Folds group) :
    (splitOutput isString lens component group).flatten.Perm group ∨
      lens.showRevalidation = false ∧ lens.upstreamOnly = true ∧
        (splitOutput isString lens component group).flatten.Perm (withIds group) := by
  cases hs : lens.showRevalidation with
  | true =>
    rw [splitOutput_app hs]
    exact .inl (by simp)
  | false =>
    cases hu : lens.upstreamOnly with
    | true =>
      rw [splitOutput_upstream hs hu]
      split_ifs with hsplit
      · refine .inr ⟨rfl, rfl, flatten_projectedOf_perm hfolds split_pairwise fun id hid => ?_⟩
        exact (sourceIdsOf_perm split_perm).mem_iff.2 (hsplit.2 id hid)
      · exact .inl (by simp)
    | false =>
      rw [splitOutput_code hs hu]
      exact .inl split_perm

/-! ### What is represented -/

/-- The groups of a component stand for the findings of its rows. -/
theorem represented_splitOutput (component : List (Row I)) :
    (lens.showRevalidation = true ∨ lens.upstreamOnly = false →
      (represented (splitOutput isString lens component (merged component)).flatten).Perm
        (component.flatMap Row.group)) ∧
      ((represented (splitOutput isString lens component (merged component)).flatten).filter
        fun f => f.id.isSome).Perm ((component.flatMap Row.group).filter fun f => f.id.isSome) ∧
      Folds (splitOutput isString lens component (merged component)).flatten := by
  obtain ⟨hfolds, hrep⟩ := merged_spec component
  rcases @splitOutput_perm I _ isString lens component _ hfolds with
    hperm | ⟨hs, hu, hperm⟩
  · have hall := (represented_perm hperm).trans hrep
    exact ⟨fun _ => hall, hall.filter _, hfolds.perm hperm.symm⟩
  · refine ⟨fun h => ?_, ?_, (folds_withIds hfolds).perm hperm.symm⟩
    · rcases h with h | h
      · rw [hs] at h
        cases h
      · rw [hu] at h
        cases h
    · refine ((represented_perm hperm).filter _).trans ?_
      rw [represented_withIds hfolds.folded, filter_filter]
      simpa using hrep.filter _

/-! ### The groups of reports -/

/-- Rows of one component. -/
def Joined (lens : Lens) (reports : List (Report I)) (k k' : ℕ) : Prop :=
  ∃ component ∈ components (rowsOf lens reports),
    k ∈ component.map Row.ref ∧ k' ∈ component.map Row.ref

theorem components_flatten_perm (rows : List (Row I)) : (components rows).flatten.Perm rows := by
  have hflatten : (components rows).flatten = (Grouping.groupBy
      (fun row : Row I => (joined rows).find row.ref) rows).flatMap Prod.snd := by
    rw [components, flatMap_def]
  rw [hflatten]
  exact Grouping.flatMap_groupBy_perm rows

/-- Rows are of one component if their links connect them. -/
theorem joined_iff (lens : Lens) (reports : List (Report I)) (k k' : ℕ) :
    Joined lens reports k k' ↔
      (k ∈ (rowsOf lens reports).map ref ∧ k' ∈ (rowsOf lens reports).map ref) ∧
        Relation.EqvGen (Linked (rowsOf lens reports)) k k' := by
  constructor
  · rintro ⟨component, hc, hk, hk'⟩
    obtain ⟨p, hp, rfl⟩ := mem_map.1 hc
    obtain ⟨row, hrow, rfl⟩ := mem_map.1 hk
    obtain ⟨row', hrow', rfl⟩ := mem_map.1 hk'
    obtain ⟨hin, hin', hfind⟩ := Grouping.exists_mem_groupBy.1 ⟨p, hp, hrow, hrow'⟩
    exact ⟨⟨mem_map_of_mem hin, mem_map_of_mem hin'⟩, (same_joined row.ref row'.ref).1 hfind⟩
  · rintro ⟨⟨hk, hk'⟩, hlinked⟩
    obtain ⟨row, hrow, rfl⟩ := mem_map.1 hk
    obtain ⟨row', hrow', rfl⟩ := mem_map.1 hk'
    obtain ⟨p, hp, hin, hin'⟩ := (@Grouping.exists_mem_groupBy _ _ _
      (fun row : Row I => (joined (rowsOf lens reports)).find row.ref) _ row row').2
      ⟨hrow, hrow', (same_joined row.ref row'.ref).2 hlinked⟩
    exact ⟨p.2, mem_map_of_mem hp, mem_map_of_mem hin, mem_map_of_mem hin'⟩

/-- The components do not tell the order of the reports or of the rows. -/
theorem joined_reordered (h : Reordered reports reports')
    (k k' : ℕ) : Joined lens reports' k k' ↔ Joined lens reports k k' := by
  have hperm : (rowsOf lens reports).Perm (rowsOf lens reports') := rowsOf_perm h
  rw [joined_iff, joined_iff, linked_reordered hperm, (hperm.map ref).mem_iff,
    (hperm.map ref).mem_iff]

/-! ### What the groups are to be -/

/-- What the groups of reports are to be in a lens. -/
structure Merges (isString : I → Bool) (R : Reports I) (lens : Lens)
    (groups : List (List (Copy I))) : Prop where
  /-- Each finding that is kept is in one group, once. -/
  represented : lens.showRevalidation = true ∨ lens.upstreamOnly = false →
    (represented groups.flatten).Perm (keptFindings lens R.list)
  /-- So is each with an id in the upstream lens. -/
  identified : ((ReportGroups.represented groups.flatten).filter fun f => f.id.isSome).Perm
    ((keptFindings lens R.list).filter fun f => f.id.isSome)
  /-- Those of one id in one group are one copy. -/
  folds : ∀ group ∈ groups, Folds group
  /-- Rows are one if the links of the rows that the lens keeps connect them. -/
  joined : ∀ k k', Joined lens R.list k k' ↔
    (k ∈ (rowsOf lens R.list).map Row.ref ∧ k' ∈ (rowsOf lens R.list).map Row.ref) ∧
      Relation.EqvGen (Linked (rowsOf lens R.list)) k k'
  /-- The rows of a component are one group, and with the App layer stay one. -/
  merged : ∀ component ∈ components (rowsOf lens R.list),
    (ReportGroups.represented (merged component)).Perm (component.flatMap Row.group)
  app : lens.showRevalidation = true →
    groups = (components (rowsOf lens R.list)).map ReportGroups.merged
  /-- A row of sources that no App finding carries joins no App findings' rows of different
  reports. -/
  apart : ∀ s ∈ rowsOf lens R.list, s.hasApp = false →
    (∀ id, Carries s id → ¬AppCarries (rowsOf lens R.list) id) →
    ∀ r ∈ rowsOf lens R.list, ∀ r' ∈ rowsOf lens R.list,
      Linked (rowsOf lens R.list) s.ref r.ref → Linked (rowsOf lens R.list) s.ref r'.ref →
      InApp (rowsOf lens R.list) r.ref → InApp (rowsOf lens R.list) r'.ref → r.report = r'.report
  reordered : ∀ reports', Reordered R.list reports' →
    ∀ k k', Joined lens reports' k k' ↔ Joined lens R.list k k'
  /-- Without the App layer the group of a component is split along the inputs of its App
  findings where these account for it, and is left whole otherwise. -/
  split : ∃ parts : List (Row I) → List (List (Copy I)),
    groups = (components (rowsOf lens R.list)).flatMap parts ∧
      ∀ component ∈ components (rowsOf lens R.list),
        (∀ copy ∈ (parts component).flatten, copy ∈ ReportGroups.merged component) ∧
        (¬LensSplits isString lens component (ReportGroups.merged component) →
          parts component = [ReportGroups.merged component]) ∧
        (LensSplits isString lens component (ReportGroups.merged component) →
          ∀ id ∈ idsOf (ReportGroups.merged component),
            ∀ id' ∈ idsOf (ReportGroups.merged component),
              Shown (parts component) id id' ↔
                Relation.EqvGen (InputLink (appsOf component)) id id')

/-- What holds of the findings of each component's groups holds of all. -/
theorem represented_mergeReportGroups (reports : List (Report I)) :
    represented (mergeReportGroups isString lens reports).flatten =
      (components (rowsOf lens reports)).flatMap fun component =>
        represented (splitOutput isString lens component (merged component)).flatten := by
  rw [mergeReportGroups]
  induction components (rowsOf lens reports) with
  | nil => rfl
  | cons component rest ih =>
    rw [flatMap_cons, flatten_append, represented_append, ih, flatMap_cons]

theorem components_flatMap_perm (reports : List (Report I)) :
    ((components (rowsOf lens reports)).flatMap fun component =>
      component.flatMap Row.group).Perm (keptFindings lens reports) := by
  have hflatten : ((components (rowsOf lens reports)).flatMap fun component =>
      component.flatMap group) = (components (rowsOf lens reports)).flatten.flatMap group := by
    rw [← flatMap_id, flatMap_assoc]
    rfl
  rw [hflatten]
  exact (components_flatten_perm _).flatMap_right _

/-- **The groups are what they are to be**, for all reports and in every lens. -/
theorem mergeReportGroups_merges (isString : I → Bool) (R : Reports I) (lens : Lens) :
    Merges isString R lens (mergeReportGroups isString lens R.list) where
  represented h := by
    rw [represented_mergeReportGroups]
    refine List.Perm.trans ?_ (components_flatMap_perm R.list)
    exact List.Perm.flatMap_left _ fun component _ => (represented_splitOutput component).1 h
  identified := by
    rw [represented_mergeReportGroups]
    refine List.Perm.trans ?_ ((components_flatMap_perm R.list).filter _)
    rw [filter_flatMap, filter_flatMap]
    exact List.Perm.flatMap_left _ fun component _ => (represented_splitOutput component).2.1
  folds group hgroup := by
    obtain ⟨component, -, hgroup⟩ := mem_flatMap.1 hgroup
    exact (represented_splitOutput component).2.2.sublist (sublist_flatten_of_mem hgroup)
  joined := joined_iff lens R.list
  merged component _ := (merged_spec component).2
  app h := by
    rw [mergeReportGroups]
    simp only [splitOutput_app h]
    exact map_eq_flatMap.symm
  apart s hs _ hsource r hr r' hr' hlink hlink' happ happ' :=
    (report_eq_of_linked R lens hs hr hsource hlink happ).symm.trans
      (report_eq_of_linked R lens hs hr' hsource hlink' happ')
  reordered _ h := joined_reordered h
  split := by
    refine ⟨_, rfl, fun component _ => ⟨fun copy hcopy => ?_, splitOutput_of_not,
      fun h id hid id' hid' => shown_splitOutput h hid hid'⟩⟩
    rcases @splitOutput_perm I _ isString lens component _ (merged_spec component).1 with
      hperm | ⟨-, -, hperm⟩
    · exact hperm.mem_iff.1 hcopy
    · exact (mem_withIds.1 (hperm.mem_iff.1 hcopy)).1

section Counterexample

/-- An App finding over some inputs. -/
def appFinding (id : Option ℕ) (kind : String) (inputs : List ℕ) : Finding ℕ :=
  { id, isApp := true, isUpstream := true, revalidateKind := kind,
    revalidateInputs := .array inputs }

/-- A source finding. -/
def sourceFinding (id : ℕ) : Finding ℕ := { id := some id, isUpstream := true }

def appReports : List (Report ℕ) :=
  [⟨0, [⟨0, [appFinding (some 1) "" []]⟩]⟩, ⟨1, [⟨1, [appFinding (some 2) "" []]⟩]⟩]

/-- A report of one row of sources, which App findings of two reports carry. -/
def bridgeReport : Report ℕ := ⟨2, [⟨2, [sourceFinding 1, sourceFinding 2]⟩]⟩

def codeReport : Report ℕ :=
  ⟨0, [⟨0, [appFinding (some 10) "" [1], appFinding (some 11) "revalidation" [2], sourceFinding 1,
    sourceFinding 2]⟩]⟩

def upstreamReport : Report ℕ :=
  ⟨0, [⟨0, [appFinding none "" [], appFinding (some 10) "revalidation" [1],
    appFinding (some 11) "revalidation" [2], sourceFinding 1, sourceFinding 2]⟩]⟩

/-- A row of sources joins the App findings of two reports that carry its ids; a group is whole in
the code lens, though its inputs account for it, when an App finding is left in it; and an App
finding without an id is in no group of the upstream lens. -/
theorem mergeReportGroups_bridge :
    ((∀ row ∈ bridgeReport.groups, ∀ f ∈ row.members, f.isApp = false) ∧
      ¬Joined {} appReports 0 1 ∧ Joined {} (appReports ++ [bridgeReport]) 0 1) ∧
    ((∀ row ∈ codeReport.groups,
        Accounted (fun _ => true) (row.members.filter fun f => !f.isApp)
          (row.members.filter Finding.isApp)) ∧
      (mergeReportGroups (fun _ => true) { showRevalidation := false } [codeReport]).length = 1 ∧
      ∀ row ∈ codeReport.groups,
        ¬Relation.EqvGen (InputLink (row.members.filter Finding.isApp)) 1 2) ∧
    ((keptFindings { showRevalidation := false, upstreamOnly := true } [upstreamReport]).length =
        3 ∧
      (represented (mergeReportGroups (fun _ => true)
        { showRevalidation := false, upstreamOnly := true } [upstreamReport]).flatten).length =
          2) := by
  refine ⟨⟨by decide, ?_, ?_⟩, ⟨?_, by decide +kernel, ?_⟩, by decide +kernel, by decide +kernel⟩
  · unfold Joined
    decide +kernel
  · -- the row of sources is linked with both
    have hrow : ∀ k, k = 0 ∨ k = 1 →
        (⟨k, k, [appFinding (some (k + 1)) "" []], [appFinding (some (k + 1)) "" []]⟩ : Row ℕ) ∈
          rowsOf {} (appReports ++ [bridgeReport]) := by
      rintro k (rfl | rfl) <;> simp [rowsOf, reportRows, keep, appReports]
    have hsource : (⟨2, 2, [sourceFinding 1, sourceFinding 2],
        [sourceFinding 1, sourceFinding 2]⟩ : Row ℕ) ∈
          rowsOf {} (appReports ++ [bridgeReport]) := by
      simp [rowsOf, reportRows, keep, bridgeReport]
    have hlink : ∀ k, k = 0 ∨ k = 1 →
        AppLink (rowsOf {} (appReports ++ [bridgeReport])) k 2 := fun k hk =>
      ⟨_, hrow k hk, _, hsource, rfl, rfl, k + 1,
        ⟨_, mem_singleton_self _, rfl⟩,
        ⟨sourceFinding (k + 1), by rcases hk with rfl | rfl <;> simp, rfl⟩,
        .inl ⟨_, hrow k hk, _, mem_singleton_self _, rfl, rfl⟩⟩
    refine (joined_iff {} (appReports ++ [bridgeReport]) 0 1).2 ⟨by decide, ?_⟩
    exact .trans _ 2 _ (.rel _ _ (.inl (hlink 0 (.inl rfl))))
      (.symm _ _ (.rel _ _ (.inl (hlink 1 (.inr rfl)))))
  · intro row hrow
    obtain rfl := mem_singleton.1 hrow
    exact ⟨by decide, by decide, by decide, by decide, by decide, by decide⟩
  · intro row hrow h
    obtain rfl := mem_singleton.1 hrow
    have hone : ∀ x y : ℕ, InputLink (List.filter Finding.isApp
        [appFinding (some 10) "" [1], appFinding (some 11) "revalidation" [2], sourceFinding 1,
          sourceFinding 2]) x y → x = y := by
      intro x y h
      simp [InputLink, appFinding, sourceFinding, Finding.inputList] at h
      omega
    exact absurd (Relation.EqvGen.eqvGen_le hone 1 2 h) (by decide)

end Counterexample

end Triage.ReportGroups
