import Triage.Bundles.DiffPackages

/-!
# Conservation in the difference of two bundles

Every file of either bundle is listed once, and every number reported is the sum over the files.
Packages are listed under one bundle alone by what they count there, which overlooks files that are
unchanged and empty.

## Main results

* `Compared.conserved` : conservation.
* `Compared.bundle_diff` : conservation, and when packages are classified by their files.
-/

namespace Triage.Bundles

open Grouping List ChangedRow

namespace Compared

variable {c : Compared}

/-! ### Conservation -/

/-- The paths whose files are unchanged. -/
def unchangedPaths (c : Compared) : List String := c.having .unchanged c.allPaths

/-- Every file is listed once, and every number reported is the sum over the files. -/
structure Conserved (c : Compared) (d : BundleDiff) : Prop where
  base_files : (d.files.onlyBase.map SideRow.path ++ d.files.changed.map ChangedRow.baseName ++
    c.unchangedPaths).Perm (c.base.entries.map fun e => c.layout e.1)
  other_files : (d.files.onlyOther.map SideRow.path ++ d.files.changed.map ChangedRow.path ++
    c.unchangedPaths).Perm (c.other.entries.map Prod.fst)
  onlyBase_bytes : ∀ row ∈ d.files.onlyBase, row.bytes = c.baseLen row.path
  onlyOther_bytes : ∀ row ∈ d.files.onlyOther, row.bytes = c.otherLen row.path
  changed_bytes : ∀ row ∈ d.files.changed, row.baseBytes = c.baseLen row.baseName ∧
    row.otherBytes = c.otherLen row.path ∧ row.delta = row.otherBytes - row.baseBytes
  files : d.totals.baseFiles = c.base.entries.length ∧
    d.totals.otherFiles = c.other.entries.length ∧
    d.totals.fileDelta = d.totals.otherFiles - d.totals.baseFiles
  bytes : d.totals.baseBytes = c.baseSize (fun _ => true) ∧
    d.totals.otherBytes = c.otherSize (fun _ => true) ∧
    d.totals.byteDelta = d.totals.otherBytes - d.totals.baseBytes
  onlyBase : d.totals.onlyBaseFiles = d.files.onlyBase.length ∧
    d.totals.onlyBaseBytes = (d.files.onlyBase.map SideRow.bytes).sum
  onlyOther : d.totals.onlyOtherFiles = d.files.onlyOther.length ∧
    d.totals.onlyOtherBytes = (d.files.onlyOther.map SideRow.bytes).sum
  changed : d.totals.changedFiles = d.files.changed.length ∧
    d.totals.changedDelta = (d.files.changed.map ChangedRow.delta).sum ∧
    d.totals.renamedFiles = (d.files.changed.filter (·.renamedFrom.isSome)).length
  unchanged : d.totals.unchangedFiles = c.unchangedPaths.length
  identical : d.totals.identical = true ↔
    ∀ p, c.InBase p ∨ c.InOther p → c.status p = .unchanged
  pkgs : d.packages.names.Nodup ∧
    ∀ k, k ∈ d.packages.names ↔ ∃ p, (c.InBase p ∨ c.InOther p) ∧ c.pkgOf p = k
  pkg_onlyBase : ∀ row ∈ d.packages.onlyBase, row.bytes = c.baseSize (c.pkgOf · = row.pkg)
  pkg_onlyOther : ∀ row ∈ d.packages.onlyOther, row.bytes = c.otherSize (c.pkgOf · = row.pkg)
  pkg_changed : ∀ row ∈ d.packages.changed, row.baseBytes = c.baseSize (c.pkgOf · = row.pkg) ∧
    row.otherBytes = c.otherSize (c.pkgOf · = row.pkg) ∧
    row.delta = row.otherBytes - row.baseBytes
  pkg_unchanged : ∀ row ∈ d.packages.unchanged, row.bytes = c.baseSize (c.pkgOf · = row.pkg) ∧
    row.bytes = c.otherSize (c.pkgOf · = row.pkg)

theorem perm_onlyBase : c.computeBundleDiff.files.onlyBase.Perm c.settled.onlyBase :=
  mergeSort_perm _ _

theorem perm_onlyOther : c.computeBundleDiff.files.onlyOther.Perm c.settled.onlyOther :=
  mergeSort_perm _ _

theorem perm_changed : c.computeBundleDiff.files.changed.Perm c.settled.changed :=
  mergeSort_perm _ _

/-- The base's names of the changed files, and the renames' old ones. -/
theorem names_changed (h : c.SizesAgree) (hr : c.RenameFacts c.renames) :
    c.settled.changed.map baseName =
        c.having .changed c.allPaths ++ c.renames.map Prod.fst ∧
      c.settled.changed.map path = c.having .changed c.allPaths ++ c.renames.map Prod.snd := by
  rw [settled_eq h hr]
  constructor
  · rw [map_append, map_map, map_map]
    exact congrArg (· ++ _) (map_id _)
  · rw [map_append, map_map, map_map]
    exact congrArg (· ++ _) (map_id _)

/-- The files of one side: those it has alone, the changed ones and the renamed. -/
theorem side_files {kept changed renamed unchanged only files : List String}
    (hkept : (renamed ++ kept).Perm only) (hall : (only ++ changed ++ unchanged).Perm files) :
    (kept ++ (changed ++ renamed) ++ unchanged).Perm files := by
  have hmove : (kept ++ changed ++ renamed).Perm (renamed ++ (kept ++ changed)) := perm_append_comm
  rw [append_assoc, ← append_assoc renamed] at hmove
  exact ((hmove.trans (hkept.append_right _)).append_right _).trans hall

section

variable (h : c.SizesAgree)
include h

theorem base_files (hlayout : c.LayoutInjective) (hr : c.RenameFacts c.renames) :
    (c.computeBundleDiff.files.onlyBase.map SideRow.path ++
      c.computeBundleDiff.files.changed.map baseName ++ c.unchangedPaths).Perm
      (c.base.entries.map fun e => c.layout e.1) := by
  have hfiles := side_files (keptBase_perm hr) (base_perm hlayout)
  have hkept : c.settled.onlyBase.map SideRow.path = c.keptBase := by
    rw [settled_eq h hr, paths_baseRow]
  rw [← hkept, ← (names_changed h hr).1] at hfiles
  exact (((perm_onlyBase.map _).append (perm_changed.map _)).append_right _).trans hfiles

theorem other_files (hlayout : c.LayoutInjective) (hr : c.RenameFacts c.renames) :
    (c.computeBundleDiff.files.onlyOther.map SideRow.path ++
      c.computeBundleDiff.files.changed.map path ++ c.unchangedPaths).Perm
      (c.other.entries.map Prod.fst) := by
  have hfiles := side_files (keptOther_perm hr) (other_perm hlayout)
  have hkept : c.settled.onlyOther.map SideRow.path = c.keptOther := by
    rw [settled_eq h hr, paths_otherRow]
  rw [← hkept, ← (names_changed h hr).2] at hfiles
  exact (((perm_onlyOther.map _).append (perm_changed.map _)).append_right _).trans hfiles

theorem changed_bytes (hr : c.RenameFacts c.renames) :
    ∀ row ∈ c.settled.changed, row.baseBytes = c.baseLen row.baseName ∧
      row.otherBytes = c.otherLen row.path ∧ row.delta = row.otherBytes - row.baseBytes := by
  intro row hrow
  rw [settled_eq h hr] at hrow
  rcases mem_append.mp hrow with hrow | hrow
  · obtain ⟨p, -, rfl⟩ := mem_map.mp hrow
    exact ⟨rfl, rfl, rfl⟩
  · obtain ⟨r, -, rfl⟩ := mem_map.mp hrow
    exact ⟨rfl, rfl, rfl⟩

/-- The changed rows of renames are those with another path in the base. -/
theorem renamed_rows (hr : c.RenameFacts c.renames) :
    c.settled.changed.filter (·.renamedFrom.isSome) = c.renames.map c.renamedRow := by
  rw [settled_eq h hr, filter_append, filter_map, filter_map]
  have hnone : (c.having .changed c.allPaths).filter
      ((fun row : ChangedRow => row.renamedFrom.isSome) ∘ c.changedRow) = [] :=
    filter_eq_nil_iff.mpr fun p _ hp => Bool.false_ne_true hp
  have hall : c.renames.filter ((fun row : ChangedRow => row.renamedFrom.isSome) ∘ c.renamedRow) =
      c.renames := List.filter_eq_self.mpr fun r _ => rfl
  rw [hnone, hall]
  rfl

/-- The bundles are identical exactly when every file is unchanged. -/
theorem identical_iff (hlayout : c.LayoutInjective) (hr : c.RenameFacts c.renames) :
    c.computeBundleDiff.totals.identical = true ↔
      ∀ p, c.InBase p ∨ c.InOther p → c.status p = .unchanged := by
  simp only [computeBundleDiff, settled_eq h hr, Bool.and_eq_true, List.isEmpty_iff,
    append_eq_nil_iff, map_eq_nil_iff]
  constructor
  -- nothing is listed, so one status is left:
  · rintro ⟨⟨hbase, hother⟩, hchanged, hrenames⟩ p hp
    have honlyBase := keptBase_perm hr
    have honlyOther := keptOther_perm hr
    rw [hrenames, hbase] at honlyBase
    rw [hrenames, hother] at honlyOther
    have hmem := (mem_allPaths hlayout).mpr hp
    have hnot : ∀ s, c.having s c.allPaths = [] → c.status p ≠ s :=
      fun s hs => having_eq_nil_iff.mp hs p hmem
    rcases hstatus : c.status p with _ | _ | _ | _
    · exact absurd hstatus (hnot _ honlyBase.nil_eq.symm)
    · exact absurd hstatus (hnot _ honlyOther.nil_eq.symm)
    · exact absurd hstatus (hnot _ hchanged)
    · rfl
  · intro hall
    have hempty : ∀ s, s ≠ .unchanged → c.having s c.allPaths = [] := by
      intro s hs
      refine having_eq_nil_iff.mpr fun p hp hstatus => ?_
      exact hs (hstatus.symm.trans (hall p ((mem_allPaths hlayout).mp hp)))
    -- no file is in the base alone, so nothing was renamed:
    have hold := hr.old_sub
    rw [hempty .onlyBase (by decide)] at hold
    have hrenames : c.renames = [] := by
      rw [← map_eq_nil_iff (f := Prod.fst)]
      exact subset_nil.mp hold
    refine ⟨⟨?_, ?_⟩, hempty .changed (by decide), hrenames⟩
    · rw [keptBase, hempty .onlyBase (by decide)]
      rfl
    · rw [keptOther, hempty .onlyOther (by decide)]
      rfl

end

/-- Every package is listed in one way. -/
theorem names_perm : c.computeBundleDiff.packages.names.Perm (c.settled.pkgs.map Prod.fst) := by
  -- each class excludes those before it:
  have hab := filter_or_perm (p := fun e : String × PkgAcc => decide (e.2.classify = .onlyBase))
    (q := fun e => decide (e.2.classify = .onlyOther)) c.settled.pkgs (by
      intro e he
      rw [decide_eq_true_eq] at he
      simp [he])
  have habc := filter_or_perm (p := fun e : String × PkgAcc =>
      decide (e.2.classify = .onlyBase) || decide (e.2.classify = .onlyOther))
    (q := fun e => decide (e.2.classify = .changed)) c.settled.pkgs (by
      intro e he
      rw [Bool.or_eq_true, decide_eq_true_eq, decide_eq_true_eq] at he
      rcases he with he | he <;> simp [he])
  have habcd := filter_or_perm (p := fun e : String × PkgAcc =>
      (decide (e.2.classify = .onlyBase) || decide (e.2.classify = .onlyOther)) ||
        decide (e.2.classify = .changed))
    (q := fun e => decide (e.2.classify = .unchanged)) c.settled.pkgs (by
      intro e he
      simp only [Bool.or_eq_true, decide_eq_true_eq] at he
      rcases he with (he | he) | he <;> simp [he])
  have hall : c.settled.pkgs.filter (fun e =>
      ((decide (e.2.classify = .onlyBase) || decide (e.2.classify = .onlyOther)) ||
        decide (e.2.classify = .changed)) || decide (e.2.classify = .unchanged)) =
      c.settled.pkgs := by
    refine List.filter_eq_self.mpr fun e _ => ?_
    rcases e.2.classify <;> rfl
  have hclasses := ((((hab.append_right _).trans habc).append_right _).trans habcd)
  rw [hall] at hclasses
  refine .trans ?_ (hclasses.map Prod.fst)
  simp only [map_append]
  exact ((listed_onlyBase.append listed_onlyOther).append listed_changed).append
    (.of_eq listed_unchanged)

/-- A listed package counts what its files do. -/
theorem classified_counts (h : c.SizesAgree) (hlayout : c.LayoutInjective)
    (hr : c.RenameFacts c.renames) {cls : PkgClass} {e : String × PkgAcc}
    (he : e ∈ c.classified cls) :
    e.2.baseBytes = c.baseSize (c.pkgOf · = e.1) ∧ e.2.otherBytes = c.otherSize (c.pkgOf · = e.1) ∧
      e.2.classify = cls := by
  obtain ⟨hmem, hcls⟩ := mem_filter.mp he
  rw [settled_eq h hr] at hmem
  have hacc : c.AccOf e.1 e.2 := accOf_of_mem hr hmem
  refine ⟨?_, ?_, by simpa using hcls⟩
  · rw [hacc.baseBytes, within, sum_baseLen hlayout]
  · rw [hacc.otherBytes, within, sum_otherLen hlayout]

theorem equal_of_unchanged {acc : PkgAcc} (h : acc.classify = .unchanged) :
    acc.baseBytes = acc.otherBytes := by
  by_contra hne
  rw [PkgAcc.classify] at h
  split_ifs at h with _ _ hmoved
  exact hmoved (.inr hne)

theorem sum_all (hlayout : c.LayoutInjective) :
    (c.allPaths.map c.baseLen).sum = c.baseSize (fun _ => true) ∧
      (c.allPaths.map c.otherLen).sum = c.otherSize fun _ => true := by
  have hbase := sum_baseLen hlayout fun _ => true
  have hother := sum_otherLen hlayout fun _ => true
  rw [filter_true] at hbase hother
  exact ⟨hbase, hother⟩

/-- **Conservation**: every file is listed once, and every number is the sum over the files. -/
theorem conserved (h : c.SizesAgree) (hlayout : c.LayoutInjective)
    (hr : c.RenameFacts c.renames) : c.Conserved c.computeBundleDiff where
  base_files := base_files h hlayout hr
  other_files := other_files h hlayout hr
  onlyBase_bytes row hrow := by
    have hmem := perm_onlyBase.mem_iff.mp hrow
    rw [settled_eq h hr] at hmem
    obtain ⟨p, -, rfl⟩ := mem_map.mp hmem
    rfl
  onlyOther_bytes row hrow := by
    have hmem := perm_onlyOther.mem_iff.mp hrow
    rw [settled_eq h hr] at hmem
    obtain ⟨p, -, rfl⟩ := mem_map.mp hmem
    rfl
  changed_bytes row hrow := changed_bytes h hr row (perm_changed.mem_iff.mp hrow)
  files := by
    simp only [computeBundleDiff, laid_eq hlayout, length_map, and_self]
  bytes := by
    simp only [computeBundleDiff, settled_eq h hr, sum_all hlayout, and_self]
  onlyBase := by
    rw [perm_onlyBase.length_eq, sum_eq_of_perm perm_onlyBase]
    simp only [computeBundleDiff, settled_eq h hr, map_map, true_and]
    rfl
  onlyOther := by
    rw [perm_onlyOther.length_eq, sum_eq_of_perm perm_onlyOther]
    simp only [computeBundleDiff, settled_eq h hr, map_map, true_and]
    rfl
  changed := by
    have hrenamed := ((perm_changed (c := c)).filter (·.renamedFrom.isSome)).length_eq
    rw [renamed_rows h hr, length_map] at hrenamed
    rw [perm_changed.length_eq, sum_eq_of_perm perm_changed, hrenamed]
    simp only [computeBundleDiff, settled_eq h hr, map_append, map_map,
      sum_append, true_and, and_true]
    rfl
  unchanged := by
    rw [computeBundleDiff, settled_eq h hr]
    rfl
  identical := identical_iff h hlayout hr
  pkgs := by
    refine ⟨names_perm.nodup_iff.mpr ?_, fun k => ?_⟩
    · rw [settled_eq h hr]
      exact nodup_keys_tally _
    · rw [names_perm.mem_iff, mem_keys_settled h hlayout hr]
  pkg_onlyBase row hrow := by
    obtain ⟨e, he, rfl⟩ := mem_map.mp ((mergeSort_perm _ _).mem_iff.mp hrow)
    exact (classified_counts h hlayout hr he).1
  pkg_onlyOther row hrow := by
    obtain ⟨e, he, rfl⟩ := mem_map.mp ((mergeSort_perm _ _).mem_iff.mp hrow)
    exact (classified_counts h hlayout hr he).2.1
  pkg_changed row hrow := by
    obtain ⟨e, he, rfl⟩ := mem_map.mp ((mergeSort_perm _ _).mem_iff.mp hrow)
    obtain ⟨hbase, hother, -⟩ := classified_counts h hlayout hr he
    exact ⟨hbase, hother, rfl⟩
  pkg_unchanged row hrow := by
    obtain ⟨e, he, rfl⟩ := mem_map.mp hrow
    obtain ⟨hbase, hother, hcls⟩ := classified_counts h hlayout hr he
    exact ⟨hbase, (equal_of_unchanged hcls).trans hother⟩

/-- A digest is of the bytes, so it comes with one size in both bundles. -/
def DigestsAgree (c : Compared) : Prop :=
  ∀ e ∈ c.base.entries, ∀ f ∈ c.other.entries, ∀ d m n,
    e.2 = .digest d m → f.2 = .digest d n → m = n

theorem DigestsAgree.sizesAgree (hdigest : c.DigestsAgree) (hlayout : c.LayoutInjective) :
    c.SizesAgree := by
  intro p q hsame
  rw [baseLen, otherLen]
  rcases hb : c.baseContent p with _ | a
  · rcases ho : c.otherContent q with _ | b
    · rfl
    · rw [hb, ho] at hsame
      cases b <;> cases hsame
  · rcases ho : c.otherContent q with _ | b
    · rw [hb, ho] at hsame
      cases a <;> cases hsame
    · rw [hb, ho] at hsame
      have hmem := mem_of_get hb
      rw [laid_eq hlayout] at hmem
      obtain ⟨e, he, hea⟩ := mem_map.mp hmem
      have hsize := hdigest e he (q, b) (mem_of_get ho)
      rw [(Prod.mk.inj hea).2] at hsize
      cases a <;> cases b <;> simp only [sameContent, Bool.false_eq_true, beq_iff_eq] at hsame
      · rw [hsame]
      · rw [hsame]
      · subst hsame
        rw [hsize _ _ _ rfl rfl]
      · rw [hsame]

/-! ### Which packages are listed under one bundle -/

/-- A package is listed under one bundle alone exactly when the other has no file in it. -/
def Classified (c : Compared) (k : String) : Prop :=
  (k ∈ c.computeBundleDiff.packages.onlyBase.map PkgRow.pkg ↔
    (∃ p, c.InBase p ∧ c.pkgOf p = k) ∧ ¬∃ p, c.InOther p ∧ c.pkgOf p = k) ∧
  (k ∈ c.computeBundleDiff.packages.onlyOther.map PkgRow.pkg ↔
    (∃ p, c.InOther p ∧ c.pkgOf p = k) ∧ ¬∃ p, c.InBase p ∧ c.pkgOf p = k)

/-- One side has files of the package, all of them unchanged and of no bytes, and the other a file
that the first has not. -/
def Overlooked (c : Compared) (side side' : String → Prop) (k : String) : Prop :=
  (∃ p, side p ∧ c.pkgOf p = k) ∧ c.Light side k ∧ ∃ p, side' p ∧ ¬side p ∧ c.pkgOf p = k

/-- Listed under a side that the package is not light on, while it is light on the other one. -/
theorem classified_iff {side side' : String → Prop}
    (hside : ∀ p, c.status p = .unchanged → (side p ↔ side' p)) (k : String) :
    ((¬c.Light side' k ∧ c.Light side k) ↔
      (∃ p, side' p ∧ c.pkgOf p = k) ∧ ¬∃ p, side p ∧ c.pkgOf p = k) ↔
    ¬c.Overlooked side side' k := by
  constructor
  · rintro hiff ⟨hsome, hlight, p, hp, hnot, hk⟩
    refine (hiff.mp ⟨fun hlight' => ?_, hlight⟩).2 hsome
    exact hnot ((hside p (hlight' p hp hk).1).mpr hp)
  · intro hover
    constructor
    · rintro ⟨hheavy, hlight⟩
      have hsome : ∃ p, side' p ∧ c.pkgOf p = k ∧ ¬side p := by
        by_contra hnone
        refine hheavy fun p hp hk => hlight p ?_ hk
        by_contra hnot
        exact hnone ⟨p, hp, hk, hnot⟩
      obtain ⟨p, hp, hk, hnot⟩ := hsome
      exact ⟨⟨p, hp, hk⟩, fun hside => hover ⟨hside, hlight, p, hp, hnot, hk⟩⟩
    · rintro ⟨⟨p, hp, hk⟩, hnone⟩
      refine ⟨fun hlight => ?_, fun q hq hqk => absurd ⟨q, hq, hqk⟩ hnone⟩
      exact hnone ⟨p, (hside p (hlight p hp hk).1).mpr hp, hk⟩

/-- **The difference of two bundles**: every file is listed once and every number is the sum over
the files; and the packages listed under one bundle alone are those without a file in the other,
exactly if no package has files on one side, all of them unchanged and of no bytes, and more on the
other. -/
theorem bundle_diff (hlayout : c.LayoutInjective) (htrees : ProperRenames c.compareTrees)
    (hdigest : c.DigestsAgree) :
    c.Conserved c.computeBundleDiff ∧
    ((∀ k, c.Classified k) ↔
      ∀ k, ¬c.Overlooked c.InOther c.InBase k ∧ ¬c.Overlooked c.InBase c.InOther k) := by
  have h := hdigest.sizesAgree hlayout
  have hr := renames_facts h htrees
  have hboth : ∀ p, c.status p = .unchanged → c.InBase p ∧ c.InOther p := by
    intro p hp
    obtain ⟨hb, ho, -⟩ := status_eq_unchanged.mp hp
    exact ⟨(baseContent_ne_none_iff hlayout).mp hb, otherContent_ne_none_iff.mp ho⟩
  refine ⟨conserved h hlayout hr, forall_congr' fun k => ?_⟩
  rw [Classified, onlyBase_iff h hlayout hr, onlyOther_iff h hlayout hr]
  exact and_congr
    (classified_iff (fun p hp => iff_of_true (hboth p hp).2 (hboth p hp).1) k)
    (classified_iff (fun p hp => iff_of_true (hboth p hp).1 (hboth p hp).2) k)

/-! ### A file without bytes -/

/-- A bundle with a file, and one with another beside it. -/
def oneFile (x : FileContent) : FileMap := ⟨[("x", x)], by simp⟩

def twoFiles (x y : FileContent) : FileMap := ⟨[("x", x), ("y", y)], by simp⟩

/-- Nothing is renamed, and everything is one package. -/
def plainCompared (base other : FileMap) : Compared where
  localeCompare a b := if a < b then -1 else if b < a then 1 else 0
  compareTrees _ _ _ := []
  pkgOf _ := "a"
  layout p := p
  baseMeta := none
  otherMeta := none
  base := base
  other := other

theorem properRenames_plain (base other : FileMap) :
    ProperRenames (plainCompared base other).compareTrees where
  old_mem _ _ _ _ hr := absurd hr not_mem_nil
  new_mem _ _ _ _ hr := absurd hr not_mem_nil
  group _ _ _ _ hr := absurd hr not_mem_nil
  nodup_old _ _ _ _ := nodup_nil
  nodup_new _ _ _ _ := nodup_nil

/-- A file of one byte on both sides, and one more in the base. -/
theorem bundle_diff_weighty :
    (plainCompared (twoFiles (.text "1") (.text "2")) (oneFile (.text "1"))).Conserved
      (plainCompared (twoFiles (.text "1") (.text "2")) (oneFile (.text "1"))).computeBundleDiff ∧
    (plainCompared (twoFiles (.text "1") (.text "2")) (oneFile (.text "1"))).Classified "a" := by
  have hx : (plainCompared (twoFiles (.text "1") (.text "2")) (oneFile (.text "1"))).InOther "x" :=
    mem_cons_self
  obtain ⟨hconserved, hclassified⟩ := bundle_diff
    (c := plainCompared (twoFiles (.text "1") (.text "2")) (oneFile (.text "1")))
    (fun e _ f _ hef => hef) (properRenames_plain _ _) (by
      intro e he f hf d m n hm
      rcases mem_cons.mp he with rfl | he
      · cases hm
      · cases mem_singleton.mp he
        cases hm)
  refine ⟨hconserved, hclassified.mpr (fun k => ⟨?_, ?_⟩) "a"⟩
  · rintro ⟨⟨p, -, hk⟩, hlight, -⟩
    exact absurd (hlight "x" hx hk).2 (by decide +kernel)
  · rintro ⟨-, -, p, hp, hnot, -⟩
    cases mem_singleton.mp hp
    exact hnot mem_cons_self

/-- An empty file on both sides, and one more in the base: the package is listed under the base
alone, although the other bundle has a file in it. -/
theorem empty_file_overlooked :
    "a" ∈ (plainCompared (twoFiles (.text "") (.text "2"))
        (oneFile (.text ""))).computeBundleDiff.packages.onlyBase.map PkgRow.pkg ∧
      (plainCompared (twoFiles (.text "") (.text "2")) (oneFile (.text ""))).InOther "x" ∧
      (plainCompared (twoFiles (.text "") (.text "2")) (oneFile (.text ""))).pkgOf "x" = "a" :=
  ⟨by decide +kernel, mem_cons_self, rfl⟩

end Compared

end Triage.Bundles
