import Triage.Bundles.DiffLoops

/-!
# The packages of a comparison

A package is listed by what its files count. It counts nothing on a side exactly if that side is
light: its files in the package are unchanged and have no bytes.

## Main results

* `Compared.accOf_of_mem` : the counts that the loops leave are those.
* `Compared.light_iff` : a side counts nothing exactly if it is light.
* `Compared.onlyBase_iff`, `Compared.onlyOther_iff` : what is listed under one bundle alone.
-/

namespace Triage.Bundles

open Grouping List PkgRow PkgAcc

namespace Compared

variable {c : Compared}

/-! ### The packages -/

variable {f : PkgAcc → ℤ} {k : String} {ps : List String} {s : FileStatus} {acc : PkgAcc}
  {side : String → Prop}

theorem sum_map_of_add (hzero : f 0 = 0) (hadd : ∀ a b, f (a + b) = f a + f b)
    (ws : List PkgAcc) : f ws.sum = (ws.map f).sum := by
  induction ws with
  | nil => exact hzero
  | cons w ws ih => rw [sum_cons, hadd, ih, map_cons, sum_cons]

theorem sum_oneIf (s : FileStatus) (ps : List String) :
    (ps.map fun p => oneIf (c.status p = s)).sum = (c.having s ps).length := by
  induction ps with
  | nil => rfl
  | cons p ps ih =>
    rw [map_cons, sum_cons, ih, having_cons, length_append, Int.natCast_add]
    by_cases hs : c.status p = s
    · simp [oneIf, having, hs]
    · simp [oneIf, having, hs]

/-- The paths of a package. -/
def within (c : Compared) (k : String) (paths : List String) : List String :=
  paths.filter fun p => c.pkgOf p = k

/-- The renames within a package. -/
def renamedWithin (c : Compared) (k : String) : List (String × String) :=
  c.renames.filter fun r => c.pkgOf r.1 = k

theorem having_within (s : FileStatus) (k : String) (ps : List String) :
    c.having s (c.within k ps) = c.within k (c.having s ps) := by
  rw [having, within, within, having, filter_filter, filter_filter]
  refine List.filter_congr fun p _ => ?_
  rw [Bool.and_comm]

theorem mem_within {p : String} : p ∈ c.within k ps ↔ p ∈ ps ∧ c.pkgOf p = k := by
  rw [within, mem_filter, decide_eq_true_eq]

theorem having_eq_nil_iff : c.having s ps = [] ↔ ∀ p ∈ ps, c.status p ≠ s := by
  rw [having, filter_eq_nil_iff]
  simp only [decide_eq_true_eq, ne_eq]

/-- A package has no path of a status. -/
theorem within_having_eq_nil_iff :
    c.within k (c.having s ps) = [] ↔ ∀ p ∈ ps, c.pkgOf p = k → c.status p ≠ s := by
  rw [← having_within, having_eq_nil_iff]
  simp only [mem_within, and_imp]

/-- A projection of a package's counts. -/
theorem proj_of_mem (hzero : f 0 = 0) (hadd : ∀ a b, f (a + b) = f a + f b)
    (hmem : (k, acc) ∈ tally c.pkgWeights) :
    f acc = ((c.within k c.allPaths).map fun p => f (c.weight p)).sum +
      ((c.renamedWithin k).map fun _ => f renameWeight).sum := by
  rw [eq_sum_of_mem_tally hmem, sum_map_of_add hzero hadd, pkgWeights, filter_append,
    map_append, map_append, sum_append, filter_map, filter_map]
  simp only [map_map]
  rfl

theorem sum_const (n : ℤ) (rs : List (String × String)) :
    (rs.map fun _ => n).sum = n * rs.length := by
  rw [map_const', sum_replicate, Int.nsmul_eq_mul, mul_comm]

/-- What a package counts: the bytes of its files on either side, the files of one side alone that
are not renamed, and those that changed or are renamed. -/
structure AccOf (c : Compared) (k : String) (acc : PkgAcc) : Prop where
  baseBytes : acc.baseBytes = ((c.within k c.allPaths).map c.baseLen).sum
  otherBytes : acc.otherBytes = ((c.within k c.allPaths).map c.otherLen).sum
  onlyBaseFiles : acc.onlyBaseFiles = (c.within k c.keptBase).length
  onlyOtherFiles : acc.onlyOtherFiles = (c.within k c.keptOther).length
  changedFiles : acc.changedFiles =
    (c.within k (c.having .changed c.allPaths)).length + (c.renamedWithin k).length

variable {name : String × String → String}

theorem length_within_kept {paths kept : List String}
    (hperm : (c.renames.map name ++ kept).Perm paths)
    (hgroup : ∀ r ∈ c.renames, c.pkgOf r.1 = c.pkgOf (name r)) (k : String) :
    (c.renamedWithin k).length + (c.within k kept).length = (c.within k paths).length := by
  have hlength := (hperm.filter fun p => decide (c.pkgOf p = k)).length_eq
  rw [filter_append, length_append, filter_map, length_map] at hlength
  have hrenamed : c.renamedWithin k =
      c.renames.filter ((fun p => decide (c.pkgOf p = k)) ∘ name) := by
    refine List.filter_congr fun r hr => ?_
    rw [Function.comp_apply, hgroup r hr]
  rw [hrenamed]
  exact hlength

theorem accOf_of_mem (hr : c.RenameFacts c.renames)
    (hmem : (k, acc) ∈ tally c.pkgWeights) : c.AccOf k acc := by
  have hbase := length_within_kept (keptBase_perm hr) (fun _ _ => rfl) k
  have hother := length_within_kept (keptOther_perm hr) hr.group k
  have honlyBase := sum_oneIf (c := c) .onlyBase (c.within k c.allPaths)
  have honlyOther := sum_oneIf (c := c) .onlyOther (c.within k c.allPaths)
  have hchanged := sum_oneIf (c := c) .changed (c.within k c.allPaths)
  rw [having_within] at honlyBase honlyOther hchanged
  refine ⟨?_, ?_, ?_, ?_, ?_⟩
  · rw [proj_of_mem (f := baseBytes) rfl (fun _ _ => rfl) hmem, sum_const]
    simp [renameWeight, weight]
  · rw [proj_of_mem (f := otherBytes) rfl (fun _ _ => rfl) hmem, sum_const]
    simp [renameWeight, weight]
  · rw [proj_of_mem (f := onlyBaseFiles) rfl (fun _ _ => rfl) hmem, sum_const]
    simp only [renameWeight, weight]
    omega
  · rw [proj_of_mem (f := onlyOtherFiles) rfl (fun _ _ => rfl) hmem, sum_const]
    simp only [renameWeight, weight]
    omega
  · rw [proj_of_mem (f := changedFiles) rfl (fun _ _ => rfl) hmem, sum_const]
    simp only [renameWeight, weight]
    omega

/-- The side whose files are these has no file of the package but unchanged ones of no bytes. -/
def Light (c : Compared) (side : String → Prop) (k : String) : Prop :=
  ∀ p, side p → c.pkgOf p = k → c.status p = .unchanged ∧ c.baseLen p = 0

/-- A side counts nothing exactly if it is light. -/
theorem light_iff {len : String → ℤ} {kept : List String} (hs : s ≠ .unchanged)
    (hside : ∀ p, side p ↔
      p ∈ c.allPaths ∧ ((c.status p = s ∨ c.status p = .changed) ∨ c.status p = .unchanged))
    (hperm : (c.renames.map name ++ kept).Perm (c.having s c.allPaths))
    (hgroup : ∀ r ∈ c.renames, c.pkgOf r.1 = c.pkgOf (name r)) (hlen : ∀ p, 0 ≤ len p)
    (hnone : ∀ p, ¬side p → len p = 0) (hsame : ∀ p, c.status p = .unchanged → len p = c.baseLen p)
    (k : String) :
    (((c.within k c.allPaths).map len).sum ≤ 0 ∧ ((c.within k kept).length : ℤ) ≤ 0 ∧
      ((c.within k (c.having .changed c.allPaths)).length : ℤ) + (c.renamedWithin k).length ≤ 0) ↔
    c.Light side k := by
  have hlength := length_within_kept hperm hgroup k
  constructor
  · rintro ⟨hbytes, hkept, hchanged⟩ p hp hk
    have hpaths := ((hside p).mp hp).1
    have hwithin : p ∈ c.within k c.allPaths := mem_within.mpr ⟨hpaths, hk⟩
    -- what counts nothing has no file of another status:
    have hnot : ∀ t, (c.within k (c.having t c.allPaths)).length = 0 → c.status p ≠ t := by
      intro t ht
      exact within_having_eq_nil_iff.mp (length_eq_zero_iff.mp ht) p hpaths hk
    have hunchanged : c.status p = .unchanged := by
      rcases ((hside p).mp hp).2 with (hst | hst) | hst
      · exact absurd hst (hnot s (by omega))
      · exact absurd hst (hnot .changed (by omega))
      · exact hst
    exact ⟨hunchanged, (hsame p hunchanged) ▸ eq_zero_of_sum_le hlen hbytes p hwithin⟩
  · intro hlight
    -- an unchanged file is neither alone nor changed:
    have hempty : ∀ t, t = s ∨ t = .changed → c.within k (c.having t c.allPaths) = [] := by
      intro t ht
      refine within_having_eq_nil_iff.mpr fun p hpaths hk hstatus => ?_
      have hin : side p := (hside p).mpr ⟨hpaths, by
        rcases ht with rfl | rfl
        · exact .inl (.inl hstatus)
        · exact .inl (.inr hstatus)⟩
      have hun := (hlight p hin hk).1
      rcases ht with rfl | rfl
      · exact hs (hstatus.symm.trans hun)
      · cases hstatus.symm.trans hun
    have hzero : ∀ p ∈ c.within k c.allPaths, len p = 0 := by
      intro p hp
      by_cases hin : side p
      · obtain ⟨hun, hbase⟩ := hlight p hin (mem_within.mp hp).2
        rw [hsame p hun, hbase]
      · exact hnone p hin
    have hsum : ((c.within k c.allPaths).map len).sum = 0 := by
      rw [map_congr_left (g := fun _ => (0 : ℤ)) hzero]
      simp
    have hs0 := congrArg List.length (hempty s (.inl rfl))
    have hc0 := congrArg List.length (hempty .changed (.inr rfl))
    rw [length_nil] at hs0 hc0
    refine ⟨hsum.le, ?_, ?_⟩
    · omega
    · omega

theorem baseLen_nonneg (p : String) : 0 ≤ c.baseLen p := byteLen_nonneg _

theorem otherLen_nonneg (p : String) : 0 ≤ c.otherLen p := byteLen_nonneg _

theorem light_base_iff (hlayout : c.LayoutInjective) (hr : c.RenameFacts c.renames)
    (hacc : c.AccOf k acc) : acc.onBase = false ↔ c.Light c.InBase k := by
  rw [← light_iff (by decide) (fun _ => inBase_iff hlayout) (keptBase_perm hr) (fun _ _ => rfl)
    baseLen_nonneg (fun p hp => ?_) (fun _ _ => rfl) k, ← hacc.onlyBaseFiles,
    ← hacc.changedFiles, ← hacc.baseBytes]
  · simp only [onBase, Bool.or_eq_false_iff, decide_eq_false_iff_not, not_lt, and_assoc]
  · rw [baseLen, not_not.mp (mt (baseContent_ne_none_iff hlayout).mp hp)]
    rfl

theorem light_other_iff (h : c.SizesAgree) (hlayout : c.LayoutInjective)
    (hr : c.RenameFacts c.renames) (hacc : c.AccOf k acc) :
    acc.onOther = false ↔ c.Light c.InOther k := by
  rw [← light_iff (by decide) (fun _ => inOther_iff hlayout) (keptOther_perm hr) hr.group
    otherLen_nonneg (fun p hp => ?_) (fun p hp => ?_) k, ← hacc.onlyOtherFiles,
    ← hacc.changedFiles, ← hacc.otherBytes]
  · simp only [onOther, Bool.or_eq_false_iff, decide_eq_false_iff_not, not_lt, and_assoc]
  · rw [otherLen, not_not.mp (mt otherContent_ne_none_iff.mp hp)]
    rfl
  · obtain ⟨-, -, hun⟩ := status_eq_unchanged.mp hp
    rw [unchangedAt, Bool.and_eq_true] at hun
    exact (h p p hun.1).symm

/-- A package is listed under one bundle alone if it counts something there and nothing on the
other side. -/
theorem classify_onlyBase : acc.classify = .onlyBase ↔ acc.onBase = true ∧ acc.onOther = false := by
  rw [classify]
  rcases acc.onBase <;> rcases acc.onOther <;> simp <;> split_ifs <;> simp

theorem classify_onlyOther :
    acc.classify = .onlyOther ↔ acc.onOther = true ∧ acc.onBase = false := by
  rw [classify]
  rcases acc.onBase <;> rcases acc.onOther <;> simp <;> split_ifs <;> simp

/-- The packages of the result are those of the files. -/
theorem mem_keys_settled (h : c.SizesAgree) (hlayout : c.LayoutInjective)
    (hr : c.RenameFacts c.renames) :
    k ∈ c.settled.pkgs.map Prod.fst ↔ ∃ p, (c.InBase p ∨ c.InOther p) ∧ c.pkgOf p = k := by
  rw [settled_eq h hr, mem_keys_tally, pkgWeights, map_append, mem_append,
    map_map, map_map, mem_map, mem_map]
  constructor
  · rintro (⟨p, hp, hk⟩ | ⟨r, hmem, hk⟩)
    · exact ⟨p, (mem_allPaths hlayout).mp hp, hk⟩
    · have hold := hr.old_sub (mem_map_of_mem hmem)
      exact ⟨r.1, (mem_allPaths hlayout).mp (mem_of_mem_filter hold), hk⟩
  · rintro ⟨p, hp, hk⟩
    exact .inl ⟨p, (mem_allPaths hlayout).mpr hp, hk⟩

/-- Some package of a class is listed under a name. -/
theorem mem_classified {cls : PkgClass} :
    k ∈ (c.classified cls).map Prod.fst ↔
      ∃ acc, (k, acc) ∈ c.settled.pkgs ∧ acc.classify = cls := by
  rw [classified, mem_map]
  constructor
  · rintro ⟨⟨k', acc⟩, hmem, rfl⟩
    obtain ⟨hacc, hcls⟩ := mem_filter.mp hmem
    exact ⟨acc, hacc, by simpa using hcls⟩
  · rintro ⟨acc, hacc, hcls⟩
    exact ⟨(k, acc), mem_filter.mpr ⟨hacc, by simpa using hcls⟩, rfl⟩

/-- Sorted or not, the rows of a class have the names of its packages. -/
theorem listed_perm {R : Type} (cls : PkgClass) (row : String × PkgAcc → R) (le : R → R → Bool)
    (name : R → String) (hname : ∀ e, name (row e) = e.1) :
    ((((c.classified cls).map row).mergeSort le).map name).Perm
      ((c.classified cls).map Prod.fst) := by
  have hperm := (mergeSort_perm ((c.classified cls).map row) le).map name
  rw [map_map] at hperm
  exact hperm.trans (.of_eq (map_congr_left fun e _ => hname e))

theorem listed_onlyBase : (c.computeBundleDiff.packages.onlyBase.map pkg).Perm
    ((c.classified .onlyBase).map Prod.fst) :=
  listed_perm .onlyBase (fun p => PkgRow.mk p.1 p.2.baseBytes) _ PkgRow.pkg fun _ => rfl

theorem listed_onlyOther : (c.computeBundleDiff.packages.onlyOther.map pkg).Perm
    ((c.classified .onlyOther).map Prod.fst) :=
  listed_perm .onlyOther (fun p => PkgRow.mk p.1 p.2.otherBytes) _ PkgRow.pkg fun _ => rfl

theorem listed_changed : (c.computeBundleDiff.packages.changed.map PkgChangedRow.pkg).Perm
    ((c.classified .changed).map Prod.fst) :=
  listed_perm .changed (fun p => PkgChangedRow.mk p.1 p.2.baseBytes p.2.otherBytes
    (p.2.otherBytes - p.2.baseBytes)) _ PkgChangedRow.pkg fun _ => rfl

theorem listed_unchanged : c.computeBundleDiff.packages.unchanged.map pkg =
    (c.classified .unchanged).map Prod.fst := by
  rw [computeBundleDiff, map_map]
  rfl

/-- A package counts something on one side and nothing on the other if it is light on the latter
alone. -/
theorem exists_on_off_iff (h : c.SizesAgree) (hlayout : c.LayoutInjective)
    (hr : c.RenameFacts c.renames) {on off : PkgAcc → Bool} {side' : String → Prop}
    (hside : ∀ p, side p → c.InBase p ∨ c.InOther p)
    (hon : ∀ k acc, c.AccOf k acc → (on acc = false ↔ c.Light side k))
    (hoff : ∀ k acc, c.AccOf k acc → (off acc = false ↔ c.Light side' k)) (k : String) :
    (∃ acc, (k, acc) ∈ c.settled.pkgs ∧ on acc = true ∧ off acc = false) ↔
      ¬c.Light side k ∧ c.Light side' k := by
  have hacc : ∀ {k' acc}, (k', acc) ∈ c.settled.pkgs → c.AccOf k' acc := by
    intro k' acc hmem
    rw [settled_eq h hr] at hmem
    exact accOf_of_mem hr hmem
  constructor
  · rintro ⟨acc, hmem, hontrue, hofffalse⟩
    refine ⟨fun hlight => ?_, (hoff k acc (hacc hmem)).mp hofffalse⟩
    rw [(hon k acc (hacc hmem)).mpr hlight] at hontrue
    cases hontrue
  · rintro ⟨hheavy, hlight⟩
    have hsome : ∃ p, side p ∧ c.pkgOf p = k := by
      by_contra hnone
      exact hheavy fun p hp hk => absurd ⟨p, hp, hk⟩ hnone
    obtain ⟨p, hp, hk⟩ := hsome
    obtain ⟨⟨k', acc⟩, hmem, rfl⟩ := mem_map.mp
      ((mem_keys_settled h hlayout hr).mpr ⟨p, hside p hp, hk⟩)
    refine ⟨acc, hmem, ?_, (hoff k' acc (hacc hmem)).mpr hlight⟩
    rcases hfalse : on acc with _ | _
    · exact absurd ((hon k' acc (hacc hmem)).mp hfalse) hheavy
    · rfl

/-- What is listed under the base alone. -/
theorem onlyBase_iff (h : c.SizesAgree) (hlayout : c.LayoutInjective)
    (hr : c.RenameFacts c.renames) (k : String) :
    k ∈ c.computeBundleDiff.packages.onlyBase.map pkg ↔
      ¬c.Light c.InBase k ∧ c.Light c.InOther k := by
  rw [listed_onlyBase.mem_iff, mem_classified]
  simp only [classify_onlyBase]
  exact exists_on_off_iff h hlayout hr (fun _ hp => .inl hp)
    (fun _ _ hacc => light_base_iff hlayout hr hacc)
    (fun _ _ hacc => light_other_iff h hlayout hr hacc) k

/-- What is listed under the other bundle alone. -/
theorem onlyOther_iff (h : c.SizesAgree) (hlayout : c.LayoutInjective)
    (hr : c.RenameFacts c.renames) (k : String) :
    k ∈ c.computeBundleDiff.packages.onlyOther.map pkg ↔
      ¬c.Light c.InOther k ∧ c.Light c.InBase k := by
  rw [listed_onlyOther.mem_iff, mem_classified]
  simp only [classify_onlyOther]
  exact exists_on_off_iff h hlayout hr (fun _ hp => .inr hp)
    (fun _ _ hacc => light_other_iff h hlayout hr hacc)
    (fun _ _ hacc => light_base_iff hlayout hr hacc) k

end Compared

end Triage.Bundles
