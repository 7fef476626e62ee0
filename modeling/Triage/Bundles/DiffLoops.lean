import Triage.Bundles.Diff

/-!
# What the loops of the comparison count

A path is in the base alone, in the other bundle alone, changed or unchanged. The loop over the
paths gathers rows and bytes by that status, and the loop over the renames moves files of one bundle
alone to the changed ones.
-/

namespace Triage.Bundles

open Grouping List SideRow

/-- The search for renames pairs distinct files of one list with distinct files of the other, within
a package. -/
structure ProperRenames
    (compareTrees : (String → String) → List TreeEntry → List TreeEntry → List TreeChange) :
    Prop where
  old_mem : ∀ g xs ys, ∀ r ∈ renamedPairs (compareTrees g xs ys), r.1 ∈ xs.map TreeEntry.name
  new_mem : ∀ g xs ys, ∀ r ∈ renamedPairs (compareTrees g xs ys), r.2 ∈ ys.map TreeEntry.name
  group : ∀ g xs ys, ∀ r ∈ renamedPairs (compareTrees g xs ys), g r.1 = g r.2
  nodup_old : ∀ g xs ys, (xs.map TreeEntry.name).Nodup →
    ((renamedPairs (compareTrees g xs ys)).map Prod.fst).Nodup
  nodup_new : ∀ g xs ys, (ys.map TreeEntry.name).Nodup →
    ((renamedPairs (compareTrees g xs ys)).map Prod.snd).Nodup

namespace Compared

variable (c : Compared)

/-! ### What the loops count -/

/-- How a path stands in the two bundles. -/
inductive FileStatus where
  | onlyBase
  | onlyOther
  | changed
  | unchanged
  deriving DecidableEq

/-- The path is in both bundles, with the same content and record. -/
def unchangedAt (path : String) : Bool :=
  sameContent (c.baseContent path) (c.otherContent path) &&
    (c.recorded (c.baseFile path) path).isEmpty

def status (path : String) : FileStatus :=
  if c.baseContent path = none then .onlyOther
  else if c.otherContent path = none then .onlyBase
  else if c.unchangedAt path then .unchanged
  else .changed

def baseLen (path : String) : ℤ := byteLen (c.baseContent path)

def otherLen (path : String) : ℤ := byteLen (c.otherContent path)

def baseRow (path : String) : SideRow := ⟨path, c.atBase path, c.baseLen path⟩

def otherRow (path : String) : SideRow := ⟨path, none, c.otherLen path⟩

def changedRow (path : String) : ChangedRow :=
  ⟨path, none, c.atBase path, c.baseLen path, c.otherLen path, c.otherLen path - c.baseLen path,
    if sameContent (c.baseContent path) (c.otherContent path) then some false else none,
    c.recorded (c.baseFile path) path⟩

def renamedRow (rename : String × String) : ChangedRow :=
  ⟨rename.2, some rename.1, c.baseFile rename.1, c.baseLen rename.1, c.otherLen rename.2,
    c.otherLen rename.2 - c.baseLen rename.1,
    some (!sameContent (c.baseContent rename.1) (c.otherContent rename.2)),
    c.recorded (c.baseFile rename.1) rename.2⟩

/-- One if it holds. -/
def oneIf (P : Prop) [Decidable P] : ℤ := if P then 1 else 0

/-- What a path adds to its package. -/
def weight (path : String) : PkgAcc :=
  ⟨c.baseLen path, c.otherLen path, oneIf (c.status path = .onlyBase),
    oneIf (c.status path = .onlyOther), oneIf (c.status path = .changed)⟩

/-- What a rename adds to its package. -/
def renameWeight : PkgAcc := ⟨0, 0, -1, -1, 1⟩

/-- The paths of a status. -/
def having (status : FileStatus) (paths : List String) : List String :=
  paths.filter fun path => c.status path = status

/-- Files that are taken for the same have the same size. -/
def SizesAgree : Prop :=
  ∀ p q, sameContent (c.baseContent p) (c.otherContent q) = true → c.baseLen p = c.otherLen q

variable {c}

theorem SizesAgree.otherLen_eq (h : c.SizesAgree) (p q : String) :
    (if sameContent (c.baseContent p) (c.otherContent q) then c.baseLen p else c.otherLen q) =
      c.otherLen q := by
  split
  · rename_i hsame
    exact h p q hsame
  · rfl

/-- One path, by its status. -/
theorem diffStep_eq (h : c.SizesAgree) (st : DiffState) (path : String) :
    c.diffStep st path =
      { onlyBase := st.onlyBase ++ (c.having .onlyBase [path]).map c.baseRow
        onlyOther := st.onlyOther ++ (c.having .onlyOther [path]).map c.otherRow
        changed := st.changed ++ (c.having .changed [path]).map c.changedRow
        baseBytes := st.baseBytes + c.baseLen path
        otherBytes := st.otherBytes + c.otherLen path
        onlyBaseBytes := st.onlyBaseBytes + ((c.having .onlyBase [path]).map c.baseLen).sum
        onlyOtherBytes := st.onlyOtherBytes + ((c.having .onlyOther [path]).map c.otherLen).sum
        changedDelta := st.changedDelta +
          ((c.having .changed [path]).map fun p => c.otherLen p - c.baseLen p).sum
        unchangedFiles := st.unchangedFiles + (c.having .unchanged [path]).length
        pkgs := c.count path (c.weight path) st.pkgs } := by
  have hlen := h.otherLen_eq path path
  rcases hb : c.baseContent path with _ | bC
  -- the base has no such file:
  · have hstatus : c.status path = .onlyOther := by rw [status, if_pos hb]
    have hzero : c.baseLen path = 0 := by rw [baseLen, hb]; rfl
    simp only [diffStep, hb, having, weight, hstatus, hzero, filter_cons, filter_nil, oneIf]
    simp [otherRow, otherLen]
  · rcases ho : c.otherContent path with _ | oC
    -- the other bundle has none:
    · have hstatus : c.status path = .onlyBase := by
        rw [status, hb, if_neg (by simp), if_pos ho]
      have hzero : c.otherLen path = 0 := by rw [otherLen, ho]; rfl
      simp only [diffStep, hb, ho, having, weight, hstatus, hzero, filter_cons, filter_nil, oneIf]
      simp [baseRow, baseLen, hb]
    · rw [hb, ho, baseLen, otherLen, hb, ho] at hlen
      rcases hu : c.unchangedAt path with _ | _
      -- both have one, and they differ:
      · have hstatus : c.status path = .changed := by
          rw [status, hb, if_neg (by simp), ho, if_neg (by simp), hu]
          rfl
        rw [unchangedAt, hb, ho] at hu
        simp only [diffStep, hb, ho, having, weight, hstatus, filter_cons, hlen,
          filter_nil, oneIf, hu, baseLen, otherLen]
        simp [changedRow, baseLen, otherLen, hb, ho]
      · have hstatus : c.status path = .unchanged := by
          rw [status, hb, if_neg (by simp), ho, if_neg (by simp), hu]
          rfl
        rw [unchangedAt, hb, ho] at hu
        simp only [diffStep, hb, ho, having, weight, hstatus, filter_cons, hlen,
          filter_nil, oneIf, hu, baseLen, otherLen]
        simp

theorem having_append (status : FileStatus) (ps qs : List String) :
    c.having status (ps ++ qs) = c.having status ps ++ c.having status qs :=
  filter_append ps qs

theorem having_cons (status : FileStatus) (p : String) (ps : List String) :
    c.having status (p :: ps) = c.having status [p] ++ c.having status ps :=
  having_append status [p] ps

/-- The loop over some paths. -/
theorem foldl_diffStep (h : c.SizesAgree) (paths : List String) (st : DiffState) :
    paths.foldl c.diffStep st =
      { onlyBase := st.onlyBase ++ (c.having .onlyBase paths).map c.baseRow
        onlyOther := st.onlyOther ++ (c.having .onlyOther paths).map c.otherRow
        changed := st.changed ++ (c.having .changed paths).map c.changedRow
        baseBytes := st.baseBytes + (paths.map c.baseLen).sum
        otherBytes := st.otherBytes + (paths.map c.otherLen).sum
        onlyBaseBytes := st.onlyBaseBytes + ((c.having .onlyBase paths).map c.baseLen).sum
        onlyOtherBytes := st.onlyOtherBytes + ((c.having .onlyOther paths).map c.otherLen).sum
        changedDelta := st.changedDelta +
          ((c.having .changed paths).map fun p => c.otherLen p - c.baseLen p).sum
        unchangedFiles := st.unchangedFiles + (c.having .unchanged paths).length
        pkgs := (paths.map fun p => (c.pkgOf p, c.weight p)).foldl
          (fun m e => alter e.1 (fun v => v.getD 0 + e.2) m) st.pkgs } := by
  induction paths generalizing st with
  | nil => simp [having]
  | cons p ps ih =>
    rw [foldl_cons, diffStep_eq h, ih]
    simp only [having_cons _ p ps, map_append, append_assoc, map_cons,
      sum_cons, sum_append, length_append, Int.natCast_add, foldl_cons, count,
      add_assoc]

/-- One rename. -/
theorem renameStep_eq (h : c.SizesAgree) (st : DiffState) (rename : String × String) :
    c.renameStep st rename =
      { st with
        onlyBaseBytes := st.onlyBaseBytes - c.baseLen rename.1
        onlyOtherBytes := st.onlyOtherBytes - c.otherLen rename.2
        changed := st.changed ++ [c.renamedRow rename]
        changedDelta := st.changedDelta + (c.otherLen rename.2 - c.baseLen rename.1)
        pkgs := c.count rename.1 renameWeight st.pkgs } := by
  have hlen := h.otherLen_eq rename.1 rename.2
  rw [baseLen, otherLen] at hlen
  simp only [renameStep, renamedRow, hlen, baseLen, otherLen, renameWeight]

/-- The loop over some renames. -/
theorem foldl_renameStep (h : c.SizesAgree) (renames : List (String × String)) (st : DiffState) :
    renames.foldl c.renameStep st =
      { st with
        onlyBaseBytes := st.onlyBaseBytes - (renames.map fun r => c.baseLen r.1).sum
        onlyOtherBytes := st.onlyOtherBytes - (renames.map fun r => c.otherLen r.2).sum
        changed := st.changed ++ renames.map c.renamedRow
        changedDelta := st.changedDelta +
          (renames.map fun r => c.otherLen r.2 - c.baseLen r.1).sum
        pkgs := (renames.map fun r => (c.pkgOf r.1, renameWeight)).foldl
          (fun m e => alter e.1 (fun v => v.getD 0 + e.2) m) st.pkgs } := by
  induction renames generalizing st with
  | nil => simp
  | cons r rs ih =>
    rw [foldl_cons, renameStep_eq h, ih]
    simp only [map_cons, sum_cons, append_assoc, foldl_cons, count,
      cons_append, nil_append, add_assoc, sub_sub]

/-! ### The files -/

/-- The layout keeps the base's files apart. -/
def LayoutInjective (c : Compared) : Prop :=
  ∀ e ∈ c.base.entries, ∀ f ∈ c.base.entries, c.layout e.1 = c.layout f.1 → e.1 = f.1

/-- The base has a file that is laid out at the path. -/
def InBase (c : Compared) (path : String) : Prop :=
  path ∈ c.base.entries.map fun e => c.layout e.1

/-- The other bundle has a file at the path. -/
def InOther (c : Compared) (path : String) : Prop := path ∈ c.other.entries.map Prod.fst

section

variable (hlayout : c.LayoutInjective)
include hlayout

theorem nodup_layout : (c.base.entries.map fun e => c.layout e.1).Nodup := by
  have hentries : c.base.entries.Nodup := c.base.nodup.of_map _
  refine hentries.map_on fun e he f hf hef => ?_
  exact inj_on_of_nodup_map c.base.nodup he hf (hlayout e he f hf hef)

theorem laid_eq : c.laid = c.base.entries.map fun e => (c.layout e.1, e.2) := by
  refine newMap_eq_self ?_
  rw [map_map]
  exact nodup_layout hlayout

theorem keys_laid : c.laid.map Prod.fst = c.base.entries.map fun e => c.layout e.1 := by
  rw [laid_eq hlayout, map_map]
  rfl

end

theorem get_ne_none_iff {V : Type*} {m : List (String × V)} {k : String} :
    get k m ≠ none ↔ k ∈ m.map Prod.fst := by
  constructor
  · intro h
    obtain ⟨v, hv⟩ := Option.ne_none_iff_exists'.mp h
    exact mem_map.mpr ⟨(k, v), mem_of_get hv, rfl⟩
  · intro h
    obtain ⟨v, hv⟩ := get_isSome h
    rw [hv]
    exact Option.some_ne_none v

variable {p : String} {ks : List String}

theorem baseContent_ne_none_iff (hlayout : c.LayoutInjective) :
    c.baseContent p ≠ none ↔ c.InBase p := by
  rw [baseContent, get_ne_none_iff, keys_laid hlayout, InBase]

theorem otherContent_ne_none_iff : c.otherContent p ≠ none ↔ c.InOther p :=
  get_ne_none_iff

theorem mem_allPaths (hlayout : c.LayoutInjective) : p ∈ c.allPaths ↔ c.InBase p ∨ c.InOther p := by
  rw [allPaths, mem_newSet, mem_append, keys_laid hlayout, InBase, InOther]

theorem nodup_allPaths : c.allPaths.Nodup := nodup_newSet _

/-- The paths that pass a test, in any order. -/
theorem filter_allPaths_perm {f : String → Bool}
    (hks : ks.Nodup) (h : ∀ p, p ∈ ks ↔ p ∈ c.allPaths ∧ f p = true) :
    (c.allPaths.filter f).Perm ks := by
  rw [perm_ext_iff_of_nodup (nodup_allPaths.filter _) hks]
  intro p
  rw [mem_filter, h]

theorem status_eq_onlyOther : c.status p = .onlyOther ↔ c.baseContent p = none := by
  rw [status]
  split_ifs <;> simp [*]

theorem status_eq_onlyBase :
    c.status p = .onlyBase ↔ c.baseContent p ≠ none ∧ c.otherContent p = none := by
  rw [status]
  split_ifs <;> simp [*]

theorem status_eq_unchanged :
    c.status p = .unchanged ↔
      c.baseContent p ≠ none ∧ c.otherContent p ≠ none ∧ c.unchangedAt p = true := by
  rw [status]
  split_ifs <;> simp [*]

theorem status_eq_changed :
    c.status p = .changed ↔
      c.baseContent p ≠ none ∧ c.otherContent p ≠ none ∧ c.unchangedAt p = false := by
  rw [status]
  split_ifs <;> simp [*]

/-- A file of the base is in it alone, changed or unchanged. -/
theorem inBase_iff (hlayout : c.LayoutInjective) :
    c.InBase p ↔ p ∈ c.allPaths ∧
      ((c.status p = .onlyBase ∨ c.status p = .changed) ∨ c.status p = .unchanged) := by
  rw [mem_allPaths hlayout, status_eq_onlyBase, status_eq_changed, status_eq_unchanged,
    ← baseContent_ne_none_iff hlayout]
  rcases c.unchangedAt p with _ | _ <;> tauto

/-- A file of the other bundle is in it alone, changed or unchanged. -/
theorem inOther_iff (hlayout : c.LayoutInjective) :
    c.InOther p ↔ p ∈ c.allPaths ∧
      ((c.status p = .onlyOther ∨ c.status p = .changed) ∨ c.status p = .unchanged) := by
  rw [mem_allPaths hlayout, status_eq_onlyOther, status_eq_changed, status_eq_unchanged,
    ← baseContent_ne_none_iff hlayout, ← otherContent_ne_none_iff]
  rcases c.unchangedAt p with _ | _ <;> tauto

/-- The paths of three statuses, in any order. -/
theorem having_perm {a b d : FileStatus} (hab : a ≠ b) (had : a ≠ d) (hbd : b ≠ d)
    (hks : ks.Nodup) (h : ∀ p, p ∈ ks ↔ p ∈ c.allPaths ∧
      ((c.status p = a ∨ c.status p = b) ∨ c.status p = d)) :
    (c.having a c.allPaths ++ c.having b c.allPaths ++ c.having d c.allPaths).Perm ks := by
  have hpair := filter_or_perm (p := fun p => decide (c.status p = a))
    (q := fun p => decide (c.status p = b)) c.allPaths (by
      intro p hp
      rw [decide_eq_true_eq] at hp
      simp [hp, hab])
  have hall := filter_or_perm (p := fun p => decide (c.status p = a) || decide (c.status p = b))
    (q := fun p => decide (c.status p = d)) c.allPaths (by
      intro p hp
      rw [Bool.or_eq_true, decide_eq_true_eq, decide_eq_true_eq] at hp
      rcases hp with hp | hp
      · simp [hp, had]
      · simp [hp, hbd])
  refine ((hpair.append_right _).trans hall).trans (filter_allPaths_perm hks ?_)
  intro p
  simp only [h, Bool.or_eq_true, decide_eq_true_eq]

theorem base_perm (hlayout : c.LayoutInjective) :
    (c.having .onlyBase c.allPaths ++ c.having .changed c.allPaths ++
      c.having .unchanged c.allPaths).Perm (c.base.entries.map fun e => c.layout e.1) :=
  having_perm (by decide) (by decide) (by decide) (nodup_layout hlayout)
    fun _ => inBase_iff hlayout

theorem other_perm (hlayout : c.LayoutInjective) :
    (c.having .onlyOther c.allPaths ++ c.having .changed c.allPaths ++
      c.having .unchanged c.allPaths).Perm (c.other.entries.map Prod.fst) :=
  having_perm (by decide) (by decide) (by decide) c.other.nodup fun _ => inOther_iff hlayout

/-! ### The bytes -/

/-- The bytes of the base's files whose paths pass a test. -/
def baseSize (c : Compared) (f : String → Bool) : ℤ :=
  ((c.base.entries.filter fun e => f (c.layout e.1)).map fun e => byteLen (some e.2)).sum

/-- The bytes of the other bundle's files whose paths pass a test. -/
def otherSize (c : Compared) (f : String → Bool) : ℤ :=
  ((c.other.entries.filter fun e => f e.1).map fun e => byteLen (some e.2)).sum

/-- The bytes that are counted at the paths that pass a test are those of the files. -/
theorem sum_allPaths {content : String → Option FileContent} {es : List (String × FileContent)}
    (hnodup : (es.map Prod.fst).Nodup) (hcontent : ∀ p, content p = get p es)
    (hsub : ∀ p ∈ es.map Prod.fst, p ∈ c.allPaths) (f : String → Bool) :
    ((c.allPaths.filter f).map fun p => byteLen (content p)).sum =
      ((es.filter fun e => f e.1).map fun e => byteLen (some e.2)).sum := by
  -- a path without a file counts nothing:
  have hzero : ∀ p ∈ c.allPaths.filter f, decide (p ∈ es.map Prod.fst) = false →
      byteLen (content p) = 0 := by
    intro p _ hp
    have hnone : get p es = none := by
      by_contra hne
      exact of_decide_eq_false hp (get_ne_none_iff.mp hne)
    rw [hcontent, hnone]
    rfl
  -- the other paths are those of the files:
  have hperm : ((c.allPaths.filter f).filter fun p => decide (p ∈ es.map Prod.fst)).Perm
      ((es.filter fun e => f e.1).map Prod.fst) := by
    have hks : ((es.filter fun e => f e.1).map Prod.fst).Nodup :=
      hnodup.sublist (filter_sublist.map _)
    rw [filter_filter]
    refine filter_allPaths_perm hks fun p => ?_
    simp only [mem_map, mem_filter, Bool.and_eq_true, decide_eq_true_eq]
    constructor
    · rintro ⟨e, ⟨he, hf⟩, rfl⟩
      exact ⟨hsub _ (mem_map.mpr ⟨e, he, rfl⟩), ⟨e, he, rfl⟩, hf⟩
    · rintro ⟨-, ⟨e, he, rfl⟩, hf⟩
      exact ⟨e, ⟨he, hf⟩, rfl⟩
  rw [← sum_filter_of_zero hzero, sum_eq_of_perm hperm, map_map]
  refine congrArg List.sum (map_congr_left fun e he => ?_)
  rw [Function.comp_apply, hcontent, get_eq_of_mem hnodup (mem_of_mem_filter he)]

theorem sum_baseLen (hlayout : c.LayoutInjective) (f : String → Bool) :
    ((c.allPaths.filter f).map c.baseLen).sum = c.baseSize f := by
  have hnodup : (c.laid.map Prod.fst).Nodup := by
    rw [keys_laid hlayout]
    exact nodup_layout hlayout
  have hsub : ∀ p ∈ c.laid.map Prod.fst, p ∈ c.allPaths := by
    intro p hp
    rw [keys_laid hlayout] at hp
    exact (mem_allPaths hlayout).mpr (.inl hp)
  refine (sum_allPaths hnodup (fun _ => rfl) hsub f).trans ?_
  rw [laid_eq hlayout, baseSize, filter_map, map_map]
  rfl

theorem sum_otherLen (hlayout : c.LayoutInjective) (f : String → Bool) :
    ((c.allPaths.filter f).map c.otherLen).sum = c.otherSize f :=
  sum_allPaths c.other.nodup (fun _ => rfl) (fun _ hp => (mem_allPaths hlayout).mpr (.inr hp)) f

/-! ### The renames -/

theorem scanned_eq (h : c.SizesAgree) :
    c.scanned =
      { onlyBase := (c.having .onlyBase c.allPaths).map c.baseRow
        onlyOther := (c.having .onlyOther c.allPaths).map c.otherRow
        changed := (c.having .changed c.allPaths).map c.changedRow
        baseBytes := (c.allPaths.map c.baseLen).sum
        otherBytes := (c.allPaths.map c.otherLen).sum
        onlyBaseBytes := ((c.having .onlyBase c.allPaths).map c.baseLen).sum
        onlyOtherBytes := ((c.having .onlyOther c.allPaths).map c.otherLen).sum
        changedDelta := ((c.having .changed c.allPaths).map fun p => c.otherLen p - c.baseLen p).sum
        unchangedFiles := (c.having .unchanged c.allPaths).length
        pkgs := tally (c.allPaths.map fun p => (c.pkgOf p, c.weight p)) } := by
  rw [scanned, foldl_diffStep h]
  simp only [nil_append, zero_add]
  rfl

/-- The files that renames are looked for among are some of the rows'. -/
theorem names_treeEntries (rows : List SideRow) (content : String → Option FileContent)
    (side : String) :
    ((treeEntries rows content side).map TreeEntry.name).Sublist (rows.map path) := by
  have hnames : (treeEntries rows content side).map TreeEntry.name =
      (rows.filter (·.path ≠ "")).map SideRow.path := by
    refine ext_getElem (by simp [treeEntries]) fun i h _ => ?_
    simp [treeEntries]
  rw [hnames]
  exact filter_sublist.map _

theorem nodup_having (s : FileStatus) : (c.having s c.allPaths).Nodup := nodup_allPaths.filter _

theorem paths_baseRow (ps : List String) : (ps.map c.baseRow).map path = ps := by
  rw [map_map]
  exact map_id ps

theorem paths_otherRow (ps : List String) : (ps.map c.otherRow).map path = ps := by
  rw [map_map]
  exact map_id ps

/-- The renames: distinct files of the base alone, and of the other bundle alone, in one package. -/
structure RenameFacts (c : Compared) (renames : List (String × String)) : Prop where
  nodup_old : (renames.map Prod.fst).Nodup
  nodup_new : (renames.map Prod.snd).Nodup
  old_sub : renames.map Prod.fst ⊆ c.having .onlyBase c.allPaths
  new_sub : renames.map Prod.snd ⊆ c.having .onlyOther c.allPaths
  group : ∀ r ∈ renames, c.pkgOf r.1 = c.pkgOf r.2

theorem renames_facts (h : c.SizesAgree) (htrees : ProperRenames c.compareTrees) :
    c.RenameFacts c.renames := by
  have hbase := names_treeEntries c.scanned.onlyBase c.baseContent "a"
  have hother := names_treeEntries c.scanned.onlyOther c.otherContent "b"
  rw [show c.scanned.onlyBase.map path = c.having .onlyBase c.allPaths by
    rw [scanned_eq h, paths_baseRow]] at hbase
  rw [show c.scanned.onlyOther.map path = c.having .onlyOther c.allPaths by
    rw [scanned_eq h, paths_otherRow]] at hother
  have hold := htrees.nodup_old c.pkgOf _ (treeEntries c.scanned.onlyOther c.otherContent "b")
    ((nodup_having .onlyBase).sublist hbase)
  have hnew := htrees.nodup_new c.pkgOf (treeEntries c.scanned.onlyBase c.baseContent "a") _
    ((nodup_having .onlyOther).sublist hother)
  rw [renames, renamesOf, newMap_eq_self hold]
  refine ⟨hold, hnew, ?_, ?_, htrees.group _ _ _⟩
  · intro p hp
    obtain ⟨r, hr, rfl⟩ := mem_map.mp hp
    exact hbase.subset (htrees.old_mem _ _ _ r hr)
  · intro p hp
    obtain ⟨r, hr, rfl⟩ := mem_map.mp hp
    exact hother.subset (htrees.new_mem _ _ _ r hr)

/-- The paths of the base alone that were not renamed. -/
def keptBase (c : Compared) : List String :=
  (c.having .onlyBase c.allPaths).filter fun p => p ∉ c.renames.map Prod.fst

/-- The paths of the other bundle alone that nothing was renamed to. -/
def keptOther (c : Compared) : List String :=
  (c.having .onlyOther c.allPaths).filter fun p => p ∉ c.renames.map Prod.snd

theorem keptBase_perm (hr : c.RenameFacts c.renames) :
    (c.renames.map Prod.fst ++ c.keptBase).Perm (c.having .onlyBase c.allPaths) :=
  perm_removed (nodup_having _) hr.nodup_old hr.old_sub

theorem keptOther_perm (hr : c.RenameFacts c.renames) :
    (c.renames.map Prod.snd ++ c.keptOther).Perm (c.having .onlyOther c.allPaths) :=
  perm_removed (nodup_having _) hr.nodup_new hr.new_sub

/-- What each package counts: its paths and its renames. -/
def pkgWeights (c : Compared) : List (String × PkgAcc) :=
  c.allPaths.map (fun p => (c.pkgOf p, c.weight p)) ++
    c.renames.map fun r => (c.pkgOf r.1, renameWeight)

/-- **What the comparison counts.** -/
theorem settled_eq (h : c.SizesAgree) (hr : c.RenameFacts c.renames) :
    c.settled =
      { onlyBase := c.keptBase.map c.baseRow
        onlyOther := c.keptOther.map c.otherRow
        changed := (c.having .changed c.allPaths).map c.changedRow ++ c.renames.map c.renamedRow
        baseBytes := (c.allPaths.map c.baseLen).sum
        otherBytes := (c.allPaths.map c.otherLen).sum
        onlyBaseBytes := (c.keptBase.map c.baseLen).sum
        onlyOtherBytes := (c.keptOther.map c.otherLen).sum
        changedDelta := ((c.having .changed c.allPaths).map fun p =>
            c.otherLen p - c.baseLen p).sum +
          (c.renames.map fun r => c.otherLen r.2 - c.baseLen r.1).sum
        unchangedFiles := (c.having .unchanged c.allPaths).length
        pkgs := tally c.pkgWeights } := by
  have hbase := sum_removed (nodup_having _) hr.nodup_old hr.old_sub c.baseLen
  have hother := sum_removed (nodup_having _) hr.nodup_new hr.new_sub c.otherLen
  rw [map_map] at hbase hother
  rw [settled, foldl_renameStep h, scanned_eq h, keptBase, keptOther, hbase, hother, pkgWeights,
    tally_append]
  simp only [filter_map]
  rfl

end Compared

end Triage.Bundles
