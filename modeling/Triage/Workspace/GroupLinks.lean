import Triage.Workspace.ReportGroups
import Mathlib.Data.List.Perm.Basic

/-!
# What joins report rows

The two passes over the rows' ids make one what is linked: by an id that an App finding carries or
that is shared in one report, and by any id outside what App findings are joined with. Nothing of
it tells the order of the reports or of the rows.

## Main results

* `same_appTrees`, `appAt_appTrees` : what the first pass makes one.
* `same_joined` : **what both passes make one are the components of the links.**
* `linked_reordered` : the links of rows in another order.
-/

namespace Triage.ReportGroups

open List Function Trees Relation.EqvGen

variable {I : Type}

/-! ### Links -/

def Carries (row : Row I) (id : I) : Prop := ∃ f ∈ row.group, f.id = some id

/-- Some App finding that is kept carries the id. -/
def AppCarries (rows : List (Row I)) (id : I) : Prop :=
  ∃ row ∈ rows, ∃ f ∈ row.group, f.id = some id ∧ f.isApp = true

/-- Rows that share an id of an App finding, or any id in one report. -/
def AppLink (rows : List (Row I)) (k k' : ℕ) : Prop :=
  ∃ row ∈ rows, ∃ row' ∈ rows, row.ref = k ∧ row'.ref = k' ∧
    ∃ id, Carries row id ∧ Carries row' id ∧ (AppCarries rows id ∨ row.report = row'.report)

/-- A row that is linked with one of an App finding. -/
def InApp (rows : List (Row I)) (k : ℕ) : Prop :=
  ∃ row ∈ rows, row.hasApp = true ∧ Relation.EqvGen (AppLink rows) k row.ref

/-- Rows that share an id, neither linked with one of an App finding. -/
def SourceLink (rows : List (Row I)) (k k' : ℕ) : Prop :=
  ¬InApp rows k ∧ ¬InApp rows k' ∧ ∃ row ∈ rows, ∃ row' ∈ rows, row.ref = k ∧ row'.ref = k' ∧
    ∃ id, Carries row id ∧ Carries row' id

def Linked (rows : List (Row I)) (k k' : ℕ) : Prop := AppLink rows k k' ∨ SourceLink rows k k'

/-- The rows tell the links whatever their order. -/
theorem linked_reordered {rows rows' : List (Row I)} (h : rows.Perm rows') :
    Linked rows = Linked rows' := by
  have happ : AppCarries rows = AppCarries rows' := by
    funext id
    simp only [AppCarries, h.mem_iff]
  have hlink : AppLink rows = AppLink rows' := by
    funext k k'
    simp only [AppLink, h.mem_iff, happ]
  have hin : InApp rows = InApp rows' := by
    funext k
    simp only [InApp, h.mem_iff, hlink]
  funext k k'
  simp only [Linked, SourceLink, h.mem_iff, hlink, hin]

/-! ### Each with the first of its kind -/

section Chain

variable {C : Type} [DecidableEq C] {kind : Occurrence → Option C} {first : C → Option ℕ}

/-- Each occurrence of a kind with the first of it. -/
def chainLinks (kind : Occurrence → Option C) : (C → Option ℕ) → List Occurrence → List (ℕ × ℕ)
  | _, [] => []
  | first, o :: os =>
    match kind o with
    | none => chainLinks kind first os
    | some c =>
      match first c with
      | some k => (k, o.row) :: chainLinks kind first os
      | none => chainLinks kind (update first c (some o.row)) os

/-- A link is of an occurrence with an earlier one of its kind. -/
theorem of_mem_chainLinks {os : List Occurrence} {a b : ℕ} (h : (a, b) ∈ chainLinks kind first os) :
    ∃ o ∈ os, ∃ c, kind o = some c ∧ o.row = b ∧
      (first c = some a ∨ ∃ o' ∈ os, kind o' = some c ∧ o'.row = a) := by
  induction os generalizing first with
  | nil => cases h
  | cons o os ih =>
    rw [chainLinks] at h
    split at h
    · obtain ⟨o', ho', c, hc, hrow, hfirst⟩ := ih h
      refine ⟨o', by simp [ho'], c, hc, hrow, hfirst.imp id ?_⟩
      rintro ⟨o'', ho'', h''⟩
      exact ⟨o'', by simp [ho''], h''⟩
    · rename_i c hc
      split at h
      · rename_i k hk
        rcases mem_cons.1 h with heq | h
        · obtain ⟨rfl, rfl⟩ := Prod.mk.inj heq
          exact ⟨o, by simp, c, hc, rfl, .inl hk⟩
        · obtain ⟨o', ho', c', hc', hrow, hfirst⟩ := ih h
          refine ⟨o', by simp [ho'], c', hc', hrow, hfirst.imp id ?_⟩
          rintro ⟨o'', ho'', h''⟩
          exact ⟨o'', by simp [ho''], h''⟩
      · obtain ⟨o', ho', c', hc', hrow, hfirst⟩ := ih h
        refine ⟨o', by simp [ho'], c', hc', hrow, ?_⟩
        rcases hfirst with hfirst | ⟨o'', ho'', h''⟩
        · by_cases hcc : c' = c
          · subst hcc
            rw [update_self] at hfirst
            exact .inr ⟨o, by simp, hc, Option.some.inj hfirst⟩
          · rw [update_of_ne hcc] at hfirst
            exact .inl hfirst
        · exact .inr ⟨o'', by simp [ho''], h''⟩

/-- Every occurrence of a kind is linked with its first. -/
theorem eqvGen_chainLinks {R : ℕ → ℕ → Prop} {os : List Occurrence}
    (h : ∀ l ∈ chainLinks kind first os, R l.1 l.2) :
    (∀ o ∈ os, ∀ c k, kind o = some c → first c = some k → Relation.EqvGen R k o.row) ∧
      ∀ o ∈ os, ∀ o' ∈ os, ∀ c, kind o = some c → kind o' = some c →
        Relation.EqvGen R o.row o'.row := by
  induction os generalizing first with
  | nil => simp
  | cons o os ih =>
    -- it is enough that what follows is linked with what `o` stands for
    have hstep : ∀ first' : C → Option ℕ, (∀ l ∈ chainLinks kind first' os, R l.1 l.2) →
        (∀ c k, first c = some k → first' c = some k) →
        (∀ c, kind o = some c → ∃ k, first' c = some k ∧ Relation.EqvGen R k o.row) →
        (∀ o' ∈ o :: os, ∀ c k, kind o' = some c → first c = some k → Relation.EqvGen R k o'.row) ∧
        ∀ o' ∈ o :: os, ∀ o'' ∈ o :: os, ∀ c, kind o' = some c → kind o'' = some c →
          Relation.EqvGen R o'.row o''.row := by
      intro first' hlinks hmono hfirst
      obtain ⟨ih1, ih2⟩ := ih hlinks
      have hnear : ∀ o' ∈ os, ∀ c, kind o = some c → kind o' = some c →
          Relation.EqvGen R o.row o'.row := by
        intro o' ho' c hc hc'
        obtain ⟨k, hk, hko⟩ := hfirst c hc
        exact (hko.symm _ _).trans _ _ _ (ih1 o' ho' c k hc' hk)
      refine ⟨fun o' ho' c k hc hk => ?_, fun o' ho' o'' ho'' c hc hc'' => ?_⟩
      · rcases mem_cons.1 ho' with rfl | ho'
        · obtain ⟨k', hk', hko⟩ := hfirst c hc
          rw [hmono c k hk] at hk'
          obtain rfl := Option.some.inj hk'
          exact hko
        · exact ih1 o' ho' c k hc (hmono c k hk)
      · rcases mem_cons.1 ho' with rfl | hmem
        · rcases mem_cons.1 ho'' with rfl | hmem'
          · exact .refl _
          · exact hnear o'' hmem' c hc hc''
        · rcases mem_cons.1 ho'' with rfl | hmem'
          · exact (hnear o' hmem c hc'' hc).symm _ _
          · exact ih2 o' hmem o'' hmem' c hc hc''
    rw [chainLinks] at h
    split at h
    · rename_i hnone
      exact hstep first h (fun _ _ hk => hk) fun c hc => absurd (hnone.symm.trans hc) (by simp)
    · rename_i c hc
      split at h
      · rename_i k hk
        refine hstep first (fun l hl => h l (mem_cons_of_mem _ hl)) (fun _ _ hk => hk) ?_
        intro c' hc'
        obtain rfl := Option.some.inj (hc.symm.trans hc')
        exact ⟨k, hk, .rel _ _ (h (k, o.row) mem_cons_self)⟩
      · rename_i hk
        refine hstep _ h (fun c' k' hk' => ?_) ?_
        · have hne : c' ≠ c := by
            rintro rfl
            rw [hk] at hk'
            cases hk'
          rw [update_of_ne hne, hk']
        · intro c' hc'
          obtain rfl := Option.some.inj (hc.symm.trans hc')
          exact ⟨o.row, update_self .., .refl _⟩

end Chain

/-! ### Trees -/

/-- The rows of a tree hold an App finding. -/
def Trees.appAt (t : Trees) (k : ℕ) : Bool := t.hasApp (t.find k)

/-- A run of unions. -/
def Trees.unionAll (t : Trees) (links : List (ℕ × ℕ)) : Trees :=
  links.foldl (fun t l => t.union l.1 l.2) t

theorem Trees.same_unionAll (t : Trees) (links : List (ℕ × ℕ)) (i j : ℕ) :
    (t.unionAll links).forest.Same i j ↔
      Relation.EqvGen (fun x y => t.forest.Same x y ∨ (x, y) ∈ links) i j :=
  @Forest.same_foldl ℕ _ Trees forest (fun t l => t.union l.1 l.2)
    (fun t a b => t.forest.same_unite a b) links t i j

theorem Trees.appAt_union (t : Trees) (a b k : ℕ) : (t.union a b).appAt k = true ↔
    t.appAt k = true ∨
      (t.forest.Same k a ∨ t.forest.Same k b) ∧ (t.appAt a = true ∨ t.appAt b = true) := by
  have hfind : (t.union a b).find k = if t.find k = t.find b then t.find a else t.find k :=
    t.forest.root_unite a b k
  simp only [appAt, hfind]
  simp only [union, Forest.Same]
  change _ ↔ _ ∨ (t.find k = t.find a ∨ t.find k = t.find b) ∧ _
  by_cases hab : t.find a = t.find b
  · rw [if_pos hab, hab, or_self, or_self]
    by_cases hkb : t.find k = t.find b
    · simp [hkb]
    · simp [hkb]
  · rw [if_neg hab]
    by_cases hkb : t.find k = t.find b
    · simp [hkb]
      tauto
    · by_cases hka : t.find k = t.find a
      · simp [hka, hab]
      · simp [hkb, hka]

theorem Trees.same_unionAll_of_same {t : Trees} {i j : ℕ} (links : List (ℕ × ℕ))
    (h : t.forest.Same i j) : (t.unionAll links).forest.Same i j :=
  (t.same_unionAll links i j).2 (.rel _ _ (.inl h))

/-- An App finding is in a tree if one was in one of the trees it is made of. -/
theorem Trees.appAt_unionAll (t : Trees) (links : List (ℕ × ℕ)) (k : ℕ) :
    (t.unionAll links).appAt k = true ↔
      ∃ k', (t.unionAll links).forest.Same k k' ∧ t.appAt k' = true := by
  induction links generalizing t with
  | nil =>
    constructor
    · exact fun h => ⟨k, rfl, h⟩
    · rintro ⟨k', hsame, h⟩
      have hfind : t.find k = t.find k' := hsame
      change t.hasApp (t.find k) = true
      rw [hfind]
      exact h
  | cons l links ih =>
    obtain ⟨a, b⟩ := l
    have hfinal : t.unionAll ((a, b) :: links) = (t.union a b).unionAll links := rfl
    rw [hfinal, ih]
    constructor
    · rintro ⟨k', hsame, h⟩
      rcases (t.appAt_union a b k').1 h with h | ⟨hnear, h⟩
      · exact ⟨k', hsame, h⟩
      · have hto : ∀ c, c = a ∨ c = b → ((t.union a b).unionAll links).forest.Same k c := by
          intro c hc
          refine Forest.same_trans _ hsame (same_unionAll_of_same links ?_)
          refine (t.forest.same_unite a b k' c).2 (.inr ⟨hnear, ?_⟩)
          rcases hc with rfl | rfl
          · exact .inl rfl
          · exact .inr rfl
        rcases h with h | h
        · exact ⟨a, hto a (.inl rfl), h⟩
        · exact ⟨b, hto b (.inr rfl), h⟩
    · rintro ⟨k', hsame, h⟩
      exact ⟨k', hsame, (t.appAt_union a b k').2 (.inl h)⟩

/-! ### Occurrences -/

section Occurrences

variable {rows : List (Row I)}

/-- An occurrence of an id in a row. -/
def Occurs (rows : List (Row I)) (id : I) (o : Occurrence) : Prop :=
  ∃ row ∈ rows, ∃ f ∈ row.group, f.id = some id ∧ o = ⟨row.ref, row.report, f.isApp⟩

variable {o : Occurrence} {os : List Occurrence}

theorem mem_idOccurrences {id : I} :
    (id, o) ∈ rows.flatMap (fun row => row.group.filterMap fun f =>
      f.id.map fun id => (id, (⟨row.ref, row.report, f.isApp⟩ : Occurrence))) ↔
        Occurs rows id o := by
  simp only [mem_flatMap, List.mem_filterMap, Option.map_eq_some_iff, Prod.mk.injEq, Occurs]
  constructor
  · rintro ⟨row, hrow, f, hf, id', hid, rfl, rfl⟩
    exact ⟨row, hrow, f, hf, hid, rfl⟩
  · rintro ⟨row, hrow, f, hf, hid, rfl⟩
    exact ⟨row, hrow, f, hf, id, hid, rfl, rfl⟩

theorem appOf_eq_none {id : I} (hos : ∀ o, o ∈ os ↔ Occurs rows id o) :
    appOf os = none ↔ ¬AppCarries rows id := by
  rw [appOf, Option.map_eq_none_iff, find?_eq_none]
  constructor
  · rintro h ⟨row, hrow, f, hf, hid, happ⟩
    exact h ⟨row.ref, row.report, f.isApp⟩ ((hos _).2 ⟨row, hrow, f, hf, hid, rfl⟩) happ
  · intro h o ho happ
    obtain ⟨row, hrow, f, hf, hid, rfl⟩ := (hos o).1 ho
    exact h ⟨row, hrow, f, hf, hid, happ⟩

theorem mem_of_appOf {a : ℕ} (h : appOf os = some a) : ∃ o ∈ os, o.row = a := by
  obtain ⟨o, ho, rfl⟩ := Option.map_eq_some_iff.1 h
  exact ⟨o, mem_of_find?_eq_some ho, rfl⟩

variable [DecidableEq I]

/-- What is gathered together are the occurrences of one id. -/
theorem of_mem_occurrences (h : os ∈ occurrences rows) : ∃ id, ∀ o, o ∈ os ↔ Occurs rows id o := by
  obtain ⟨⟨id, group⟩, hp, rfl⟩ := mem_map.1 h
  refine ⟨id, fun o => ?_⟩
  rw [← mem_idOccurrences, (Grouping.eq_filter_of_mem hp).1]
  simp only [mem_map, mem_filter, decide_eq_true_eq]
  constructor
  · rintro ⟨⟨id', o'⟩, ⟨hmem, rfl⟩, rfl⟩
    exact hmem
  · exact fun hmem => ⟨(id, o), ⟨hmem, rfl⟩, rfl⟩

/-- The occurrences of each id are gathered. -/
theorem exists_mem_occurrences {id : I} (h : Occurs rows id o) :
    ∃ os ∈ occurrences rows, ∀ o', o' ∈ os ↔ Occurs rows id o' := by
  have hkey : id ∈ (byId rows).map Prod.fst :=
    Grouping.mem_keys_collect.2 ⟨(id, o), mem_idOccurrences.2 h, rfl⟩
  obtain ⟨⟨id', group⟩, hp, rfl⟩ := mem_map.1 hkey
  refine ⟨group.map Prod.snd, mem_map_of_mem hp, fun o' => ?_⟩
  rw [← mem_idOccurrences, (Grouping.eq_filter_of_mem hp).1]
  simp only [mem_map, mem_filter, decide_eq_true_eq]
  constructor
  · rintro ⟨⟨id', o''⟩, ⟨hmem, rfl⟩, rfl⟩
    exact hmem
  · exact fun hmem => ⟨(id', o'), ⟨hmem, rfl⟩, rfl⟩

end Occurrences

/-! ### The first pass -/

/-- The unions of the first pass over an id. -/
def appLinks (app : Option ℕ) : (ℕ → Option ℕ) → List Occurrence → List (ℕ × ℕ)
  | _, [] => []
  | ownReports, o :: os =>
    (app.map fun app => (app, o.row)).toList ++
      match ownReports o.report with
      | some first => (first, o.row) :: appLinks app ownReports os
      | none => appLinks app (update ownReports o.report (some o.row)) os

theorem appPass_eq (app : Option ℕ) (ownReports : ℕ → Option ℕ) (t : Trees) (os : List Occurrence) :
    appPass app ownReports t os = t.unionAll (appLinks app ownReports os) := by
  induction os generalizing ownReports t with
  | nil => rfl
  | cons o os ih =>
    cases app <;> cases hfirst : ownReports o.report <;>
      simp only [appPass, appLinks, hfirst, ih] <;> rfl

/-- A union is with the App finding's row, or with the first of the report. -/
theorem mem_appLinks {app : Option ℕ} {ownReports : ℕ → Option ℕ} {os : List Occurrence}
    {a b : ℕ} : (a, b) ∈ appLinks app ownReports os ↔
      (app = some a ∧ ∃ o ∈ os, o.row = b) ∨
        (a, b) ∈ chainLinks (fun o => some o.report) ownReports os := by
  induction os generalizing ownReports with
  | nil => simp [appLinks, chainLinks]
  | cons o os ih =>
    have happ : (a, b) ∈ (app.map fun app => (app, o.row)).toList ↔ app = some a ∧ o.row = b := by
      cases app <;> simp [eq_comm]
    rw [appLinks, chainLinks, mem_append, happ]
    cases hfirst : ownReports o.report with
    | none =>
      simp only [hfirst, ih, mem_cons, exists_eq_or_imp]
      rw [and_or_left, or_assoc]
    | some first =>
      simp only [hfirst, ih, mem_cons, exists_eq_or_imp]
      rw [and_or_left, or_assoc]
      exact or_congr_right or_left_comm

section Passes

variable {rows : List (Row I)}

theorem appAt_start (k : ℕ) : (start rows).appAt k = true ↔
    ∃ row ∈ rows, row.ref = k ∧ row.hasApp = true := by
  have hfind : (start rows).find k = k := Forest.root_of_parent _ rfl
  rw [appAt, hfind]
  simp [start]

variable [DecidableEq I]

variable (rows) in
theorem appTrees_eq : appTrees rows =
    (start rows).unionAll
      ((occurrences rows).flatMap fun os => appLinks (appOf os) (fun _ => none) os) := by
  rw [appTrees, unionAll, foldl_flatMap]
  congr 1
  funext t os
  exact appPass_eq _ _ t os

/-- The unions of the first pass link rows. -/
theorem appLink_of_mem {os : List Occurrence} (hos : os ∈ occurrences rows) {a b : ℕ}
    (h : (a, b) ∈ appLinks (appOf os) (fun _ => none) os) : AppLink rows a b := by
  obtain ⟨id, hid⟩ := of_mem_occurrences hos
  rcases mem_appLinks.1 h with ⟨happ, o, ho, rfl⟩ | h
  · obtain ⟨o', ho', rfl⟩ := mem_of_appOf happ
    obtain ⟨row, hrow, f, hf, hfid, rfl⟩ := (hid o').1 ho'
    obtain ⟨row', hrow', f', hf', hfid', rfl⟩ := (hid o).1 ho
    refine ⟨row, hrow, row', hrow', rfl, rfl, id, ⟨f, hf, hfid⟩, ⟨f', hf', hfid'⟩, .inl ?_⟩
    by_contra hnone
    rw [(appOf_eq_none hid).2 hnone] at happ
    cases happ
  · obtain ⟨o, ho, report, hreport, rfl, hfirst⟩ := of_mem_chainLinks h
    rcases hfirst with hfirst | ⟨o', ho', hreport', rfl⟩
    · cases hfirst
    · obtain ⟨row, hrow, f, hf, hfid, rfl⟩ := (hid o').1 ho'
      obtain ⟨row', hrow', f', hf', hfid', rfl⟩ := (hid o).1 ho
      exact ⟨row, hrow, row', hrow', rfl, rfl, id, ⟨f, hf, hfid⟩, ⟨f', hf', hfid'⟩,
        .inr (Option.some.inj (hreport'.trans hreport.symm))⟩

/-- **What the first pass makes one** are the components of its links. -/
theorem same_appTrees (i j : ℕ) :
    (appTrees rows).forest.Same i j ↔ Relation.EqvGen (AppLink rows) i j := by
  rw [appTrees_eq, same_unionAll]
  refine Forest.eqvGen_same_new.trans ⟨mono (fun a b h => ?_) i j, fun h => ?_⟩
  · obtain ⟨os, hos, h⟩ := mem_flatMap.1 h
    exact appLink_of_mem hos h
  · refine eqvGen_le (fun x y h => ?_) i j h
    obtain ⟨row, hrow, row', hrow', rfl, rfl, id, ⟨f, hf, hid⟩, ⟨f', hf', hid'⟩, hlink⟩ := h
    have ho : Occurs rows id ⟨row.ref, row.report, f.isApp⟩ := ⟨row, hrow, f, hf, hid, rfl⟩
    have ho' : Occurs rows id ⟨row'.ref, row'.report, f'.isApp⟩ := ⟨row', hrow', f', hf', hid', rfl⟩
    obtain ⟨os, hos, hmem⟩ := exists_mem_occurrences ho
    have hlinks : ∀ {a b}, (a, b) ∈ appLinks (appOf os) (fun _ => none) os →
        (a, b) ∈ (occurrences rows).flatMap fun os => appLinks (appOf os) (fun _ => none) os :=
      fun h => mem_flatMap.2 ⟨os, hos, h⟩
    rcases hlink with happ | hreport
    · -- both are linked with the App finding's row
      cases ha : appOf os with
      | none => exact absurd happ ((appOf_eq_none hmem).1 ha)
      | some a =>
        have hto : ∀ o ∈ os, Relation.EqvGen (fun x y => (x, y) ∈ (occurrences rows).flatMap
            fun os => appLinks (appOf os) (fun _ => none) os) a o.row := fun o ho =>
          .rel _ _ (hlinks (mem_appLinks.2 (.inl ⟨ha, o, ho, rfl⟩)))
        exact ((hto _ ((hmem _).2 ho)).symm _ _).trans _ _ _ (hto _ ((hmem _).2 ho'))
    · -- both are linked with the first of their report
      have hchain := (@eqvGen_chainLinks ℕ _ (fun o => some o.report) (fun _ => none)
        (fun x y => (x, y) ∈ (occurrences rows).flatMap
          fun os => appLinks (appOf os) (fun _ => none) os) os
        fun l hl => hlinks (mem_appLinks.2 (.inr hl))).2
      exact hchain _ ((hmem _).2 ho) _ ((hmem _).2 ho') row.report rfl
        (congrArg some hreport.symm)

/-- After the first pass the trees of App findings are told by the links. -/
theorem appAt_appTrees (k : ℕ) : (appTrees rows).appAt k = true ↔ InApp rows k := by
  rw [appTrees_eq, appAt_unionAll, ← appTrees_eq]
  simp only [same_appTrees, appAt_start, InApp]
  constructor
  · rintro ⟨k', hlink, row, hrow, rfl, happ⟩
    exact ⟨row, hrow, happ, hlink⟩
  · rintro ⟨row, hrow, happ, hlink⟩
    exact ⟨row.ref, hlink, row, hrow, rfl, happ⟩

end Passes

/-! ### The second pass -/

section SourcePass

variable {rows : List (Row I)}

open Classical in
/-- An occurrence outside the trees of App findings. -/
noncomputable def sourceKind (rows : List (Row I)) (o : Occurrence) : Option Unit :=
  if InApp rows o.row then none else some ()

theorem sourceKind_eq_some {o : Occurrence} {u : Unit} :
    sourceKind rows o = some u ↔ ¬InApp rows o.row := by
  unfold sourceKind
  split_ifs with h <;> simp [h]

/-- The second pass joins the rows outside the trees of App findings, and leaves those trees as
they are. -/
theorem sourcePass_eq {t : Trees} (ht : ∀ k, t.appAt k = true ↔ InApp rows k)
    {first : Option ℕ} (hfirst : ∀ k, first = some k → ¬InApp rows k) (os : List Occurrence) :
    sourcePass first t os = t.unionAll (chainLinks (sourceKind rows) (fun _ => first) os) ∧
      ∀ k, (sourcePass first t os).appAt k = true ↔ InApp rows k := by
  induction os generalizing t first with
  | nil => exact ⟨rfl, ht⟩
  | cons o os ih =>
    by_cases hin : InApp rows o.row
    · have hkind : sourceKind rows o = none := if_pos hin
      have hskip : sourcePass first t (o :: os) = sourcePass first t os := if_pos ((ht o.row).2 hin)
      rw [hskip, chainLinks, hkind]
      exact ih ht hfirst
    · have hkind : sourceKind rows o = some () := if_neg hin
      have hnot : ¬t.hasApp (t.find o.row) = true := fun h => hin ((ht o.row).1 h)
      cases first with
      | none =>
        have hnext : sourcePass none t (o :: os) = sourcePass (some o.row) t os := if_neg hnot
        have hupdate : update (fun _ : Unit => (none : Option ℕ)) () (some o.row) =
            fun _ => some o.row := by
          funext u
          exact update_self ..
        rw [hnext, chainLinks, hkind]
        simp only [hupdate]
        exact ih ht fun k hk => by
          obtain rfl := Option.some.inj hk
          exact hin
      | some k =>
        have hnext : sourcePass (some k) t (o :: os) =
            sourcePass (some k) (t.union k o.row) os := if_neg hnot
        rw [hnext, chainLinks, hkind]
        refine ih (fun k' => ?_) hfirst
        rw [appAt_union, ht, ht, ht]
        constructor
        · rintro (h | ⟨-, h | h⟩)
          · exact h
          · exact absurd h (hfirst k rfl)
          · exact absurd h hin
        · exact .inl

variable [DecidableEq I]

theorem joined_eq : joined rows = (appTrees rows).unionAll
    ((occurrences rows).flatMap fun os => chainLinks (sourceKind rows) (fun _ => none) os) := by
  rw [joined]
  generalize occurrences rows = oss
  have hrun : ∀ t : Trees, (∀ k, t.appAt k = true ↔ InApp rows k) →
      oss.foldl (fun t os => sourcePass none t os) t =
        t.unionAll (oss.flatMap fun os => chainLinks (sourceKind rows) (fun _ => none) os) := by
    induction oss with
    | nil => exact fun t _ => rfl
    | cons os oss ih =>
      intro t ht
      obtain ⟨hpass, happ⟩ := @sourcePass_eq I rows t ht none (fun _ h => by cases h) os
      rw [foldl_cons, ih _ happ, hpass, flatMap_cons, unionAll, unionAll, unionAll, foldl_append]
  exact hrun _ appAt_appTrees

/-- **What both passes make one** are the components of the links. -/
theorem same_joined (i j : ℕ) :
    (joined rows).forest.Same i j ↔ Relation.EqvGen (Linked rows) i j := by
  rw [joined_eq, same_unionAll]
  constructor
  · refine eqvGen_le (fun a b h => ?_) i j
    rcases h with h | h
    · exact mono (fun _ _ => Or.inl) a b ((same_appTrees a b).1 h)
    · obtain ⟨os, hos, h⟩ := mem_flatMap.1 h
      obtain ⟨id, hid⟩ := of_mem_occurrences hos
      obtain ⟨o, ho, u, hkind, rfl, hfirst⟩ := of_mem_chainLinks h
      rcases hfirst with hfirst | ⟨o', ho', hkind', rfl⟩
      · cases hfirst
      obtain ⟨row, hrow, f, hf, hfid, rfl⟩ := (hid o').1 ho'
      obtain ⟨row', hrow', f', hf', hfid', rfl⟩ := (hid o).1 ho
      exact .rel _ _ (.inr ⟨sourceKind_eq_some.1 hkind', sourceKind_eq_some.1 hkind, row, hrow,
        row', hrow', rfl, rfl, id, ⟨f, hf, hfid⟩, ⟨f', hf', hfid'⟩⟩)
  · refine eqvGen_le (fun a b h => ?_) i j
    rcases h with h | ⟨ha, hb, row, hrow, row', hrow', rfl, rfl, id, ⟨f, hf, hid⟩, f', hf', hid'⟩
    · exact .rel _ _ (.inl ((same_appTrees a b).2 (.rel _ _ h)))
    have ho : Occurs rows id ⟨row.ref, row.report, f.isApp⟩ := ⟨row, hrow, f, hf, hid, rfl⟩
    obtain ⟨os, hos, hmem⟩ := exists_mem_occurrences ho
    have hchain := (@eqvGen_chainLinks Unit _ (sourceKind rows) (fun _ => none)
      (fun x y => (appTrees rows).forest.Same x y ∨ (x, y) ∈ (occurrences rows).flatMap
        fun os => chainLinks (sourceKind rows) (fun _ => none) os) os
      fun l hl => .inr (mem_flatMap.2 ⟨os, hos, hl⟩)).2
    exact hchain _ ((hmem _).2 ho) _ ((hmem _).2 ⟨row', hrow', f', hf', hid', rfl⟩) ()
      (sourceKind_eq_some.2 ha) (sourceKind_eq_some.2 hb)

end SourcePass

end Triage.ReportGroups
