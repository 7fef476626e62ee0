import Triage.Npm.PatchFiles
import Mathlib.Data.List.MinMax

/-!
# A patch applied to a tree

The diff of two trees, read and applied to the files of the one before, gives the files of the one
after where each path that it names is read as itself, and only there: a path that is not read as
itself is one that nothing is read of, so what is at it stays as it was.

## Main results

* `patchedFiles_parsePatch_iff` : **the diff, read and applied, gives the tree after exactly where
  its paths are readable.**
-/

namespace Triage.NpmPatch

open Streams List Option Grouping Change List.Sublist

/-- What was asked for is the files of a tree, in the order of their paths. -/
def Gives (result : Except PatchError (List NpmPackageFile)) (files : List NpmPackageFile) : Prop :=
  ∃ out, result = .ok out ∧ out.Perm files ∧ out.Pairwise fun a b => units a.path ≤ units b.path

/-! ### The files of a tree -/

/-- What a change has before or after is at the paths that it touches. -/
def InTouched (side : Change → List NpmPackageFile) : Prop :=
  ∀ c, ((side c).map (·.path)).Sublist c.touched

theorem inTouched_before : InTouched before := by
  intro c
  cases c with
  | created path => exact nil_sublist _
  | deleted | changed => exact refl _
  | renamed source target => exact sublist_append_left [source] [target]

theorem inTouched_after : InTouched Change.after := by
  intro c
  cases c with
  | deleted => exact nil_sublist _
  | created | changed => exact refl _
  | renamed source target => exact sublist_cons_self source [target]

section Side

variable {side : Change → List NpmPackageFile} (hside : InTouched side) {path : Text}
include hside

theorem get_side_eq_none {c : Change} (h : path ∉ c.touched) :
    get path (pairs (side c)) = none := by
  refine get_eq_none fun hmem => h ?_
  rw [keys_pairs] at hmem
  exact (hside c).subset hmem

theorem get_sides_eq_none {ds : List FileDiff} (h : path ∉ ds.flatMap (·.change.touched)) :
    get path (pairs (ds.flatMap fun d => side d.change)) = none := by
  induction ds with
  | nil => rfl
  | cons d ds ih =>
    rw [flatMap_cons, mem_append, not_or] at h
    rw [flatMap_cons, pairs_append, get_append, get_side_eq_none hside h.1, ih h.2]
    rfl

/-- What is at a path that a change touches is the change's. -/
theorem get_sides {ds : List FileDiff} (hnodup : (ds.flatMap (·.change.touched)).Nodup)
    {d : FileDiff} (hd : d ∈ ds) (hpath : path ∈ d.change.touched) :
    get path (pairs (ds.flatMap fun d => side d.change)) = get path (pairs (side d.change)) := by
  induction ds with
  | nil => cases hd
  | cons e ds ih =>
    rw [flatMap_cons] at hnodup
    obtain ⟨-, hds, hdisjoint⟩ := nodup_append.mp hnodup
    rw [flatMap_cons, pairs_append, get_append]
    rcases mem_cons.mp hd with rfl | hd
    · have hrest : path ∉ ds.flatMap (·.change.touched) := fun hmem =>
        hdisjoint path hpath path hmem rfl
      rw [get_sides_eq_none hside hrest, or_none]
    · have hfirst : path ∉ e.change.touched := fun hmem =>
        hdisjoint path hmem path (mem_flatMap.mpr ⟨d, hd, hpath⟩) rfl
      rw [get_side_eq_none hside hfirst, none_or, ih hds hd]

theorem sublist_sides (ds : List FileDiff) :
    ((ds.flatMap fun d => side d.change).map (·.path)).Sublist
      (ds.flatMap (·.change.touched)) := by
  induction ds with
  | nil => exact nil_sublist _
  | cons d ds ih =>
    rw [flatMap_cons, flatMap_cons, map_append]
    exact (hside d.change).append ih

/-- A tree has one file to a path. -/
theorem nodup_tree {t : TreeDiff} (ht : t.IsGit) :
    ((t.shared ++ t.files.flatMap fun d => side d.change).map (·.path)).Nodup := by
  rw [map_append]
  exact ht.paths.sublist ((refl _).append (sublist_sides hside t.files))

/-- What is at a path of a tree: what a change that touches it has there, or a file shared. -/
theorem get_tree {t : TreeDiff} (ht : t.IsGit) (path : Text) :
    get path (pairs (t.shared ++ t.files.flatMap fun d => side d.change)) =
      if path ∈ t.files.flatMap (·.change.touched) then
        get path (pairs (t.files.flatMap fun d => side d.change))
      else get path (pairs t.shared) := by
  rw [pairs_append, get_append]
  split
  · rename_i hmem
    have hshared : path ∉ (pairs t.shared).map Prod.fst := fun hmem' => by
      rw [keys_pairs] at hmem'
      exact (nodup_append.mp ht.paths).2.2 path hmem' path hmem rfl
    rw [get_eq_none hshared, none_or]
  · rename_i hmem
    rw [get_sides_eq_none hside hmem, or_none]

end Side

/-! ### A patch as it is made -/

variable {quotePath : Bool} {ds : List FileDiff} {m : ByPath} {t : TreeDiff} {d : FileDiff}

/-- **The changes of a diff that is readable are made.** -/
theorem foldlM_patchFile (hds : ∀ d ∈ ds, d.IsGit ∧ d.change.Readable quotePath)
    (hnodup : (ds.flatMap (·.change.touched)).Nodup) (hm : ∀ d ∈ ds, ∀ path ∈ d.change.touched,
      get path m = get path (pairs d.change.before)) :
    ∃ m', (ds.map fun d => d.change.read quotePath).foldlM patchFile m = .ok m' ∧
      ∀ path, get path m' =
        if path ∈ ds.flatMap (·.change.touched) then
          get path (pairs (ds.flatMap fun d => d.change.after))
        else get path m := by
  induction ds generalizing m with
  | nil => exact ⟨m, rfl, fun path => rfl⟩
  | cons d ds ih =>
    rw [flatMap_cons] at hnodup
    obtain ⟨hd, hrest, hdisjoint⟩ := nodup_append.mp hnodup
    obtain ⟨hgit, hread⟩ := hds d mem_cons_self
    obtain ⟨m₁, hm₁, hget₁⟩ := patchFile_read hgit hread hd (hm d mem_cons_self)
    have hkept : ∀ e ∈ ds, ∀ path ∈ e.change.touched,
        get path m₁ = get path (pairs e.change.before) := by
      intro e he path hpath
      have hnot : path ∉ d.change.touched := fun hmem =>
        hdisjoint path hmem path (mem_flatMap.mpr ⟨e, he, hpath⟩) rfl
      rw [hget₁, if_neg hnot]
      exact hm e (mem_cons_of_mem _ he) path hpath
    obtain ⟨m', hm', hget⟩ := ih (fun e he => hds e (mem_cons_of_mem _ he)) hrest hkept
    refine ⟨m', ?_, fun path => ?_⟩
    · rw [map_cons, foldlM_cons, hm₁]
      exact hm'
    · rw [hget, flatMap_cons, flatMap_cons, pairs_append, get_append, hget₁]
      by_cases hfirst : path ∈ d.change.touched
      · have hnot : path ∉ ds.flatMap (·.change.touched) := fun hmem =>
          hdisjoint path hfirst path hmem rfl
        rw [if_neg hnot, if_pos hfirst, if_pos (mem_append_left _ hfirst),
          get_sides_eq_none inTouched_after hnot, or_none]
      · rw [if_neg hfirst, get_side_eq_none inTouched_after hfirst, none_or]
        simp [hfirst]

/-- **What is read of no file stays as it was.** -/
theorem foldlM_frame {files : List PatchedFile} {m' : ByPath}
    (h : files.foldlM patchFile m = .ok m') :
    ((m.map Prod.fst).Nodup → (m'.map Prod.fst).Nodup) ∧
      ∀ path, (∀ file ∈ files, path ≠ file.path ∧ path ∉ file.source) →
        get path m' = get path m := by
  induction files generalizing m with
  | nil =>
    cases h
    exact ⟨id, fun path _ => rfl⟩
  | cons file files ih =>
    rw [foldlM_cons] at h
    cases hfile : patchFile m file with
    | error e =>
      rw [hfile] at h
      cases h
    | ok m₁ =>
      rw [hfile] at h
      obtain ⟨hnodup₁, hget₁⟩ := patchFile_frame hfile
      obtain ⟨hnodup, hget⟩ := ih h
      refine ⟨hnodup ∘ hnodup₁, fun path hpath => ?_⟩
      obtain ⟨hne, hsource⟩ := hpath file mem_cons_self
      rw [hget path fun f hf => hpath f (mem_cons_of_mem _ hf), hget₁ path hne hsource]

/-! ### The paths that are not read -/

/-- A path is touched by one change. -/
theorem eq_of_mem_touched (ht : t.IsGit) {e : FileDiff} (hd : d ∈ t.files)
    (he : e ∈ t.files) {path : Text} (hpath : path ∈ d.change.touched)
    (hpath' : path ∈ e.change.touched) : d = e := by
  have hnodup := (nodup_append.mp ht.paths).2.1
  have hdisjoint := (nodup_flatMap.mp hnodup).2
  have : Std.Symm (Function.onFun List.Disjoint fun d : FileDiff => d.change.touched) :=
    ⟨fun _ _ h => disjoint_symm h⟩
  by_contra hne
  exact hdisjoint.forall hd he hne hpath hpath'

theorem readOf_eq (quotePath : Bool) (c : Change) :
    c.readOf quotePath = sideRead quotePath ∨ c.readOf quotePath = pathRead quotePath := by
  cases c with
  | created | deleted | changed => exact .inl rfl
  | renamed => exact .inr rfl

/-- A path whose mark is left out is read of a longer one only, where no path is halved. -/
theorem length_lt_of_pathRead {path other : Text}
    (hmarked : IsMarked quotePath path) (hhalved : ¬IsHalved quotePath other)
    (hread : pathRead quotePath other = path) :
    IsMarked quotePath other ∧ path.length < other.length := by
  rw [(read_of_not_isHalved hhalved).2] at hread
  by_cases hquote : quote quotePath other = other
  · rw [if_pos hquote] at hread
    exact absurd (hread ▸ hquote) hmarked.1
  · rw [if_neg hquote] at hread
    by_cases hmark : other.head? = some byteOrderMark
    · refine ⟨⟨hquote, hmark⟩, ?_⟩
      cases other with
      | nil => cases hmark
      | cons c other =>
        rw [dropMark, if_pos (some.inj hmark)] at hread
        rw [← hread, length_cons]
        exact Nat.lt_succ_self _
    · rw [dropMark_eq_self_iff.mpr hmark] at hread
      exact absurd (hread ▸ hmarked.2) hmark

/-- **If a path is not read as itself, some path that is touched is read of none.** One that is
halved is; else the longest of those whose mark is left out. -/
theorem exists_unread (ht : t.IsGit) (h : ¬t.Readable quotePath) :
    ∃ d ∈ t.files, ∃ path ∈ d.change.touched, ∀ e ∈ t.files, ∀ other ∈ e.change.touched,
      e.change.readOf quotePath other ≠ path := by
  by_cases hhalved : ∃ d ∈ t.files, ∃ path ∈ d.change.touched, IsHalved quotePath path
  · obtain ⟨d, hd, path, hpath, hhalf⟩ := hhalved
    refine ⟨d, hd, path, hpath, fun e he other hother => ?_⟩
    rcases readOf_eq quotePath e.change with heq | heq <;> rw [heq]
    · exact (isHalved_ne hhalf other).1
    · exact (isHalved_ne hhalf other).2
  · have hnot : ∀ d ∈ t.files, ∀ path ∈ d.change.touched, ¬IsHalved quotePath path :=
      fun d hd path hpath hhalf => hhalved ⟨d, hd, path, hpath, hhalf⟩
    have hmarked : ∀ d ∈ t.files, ∀ path ∈ d.change.touched, d.change.readOf quotePath path ≠ path →
        d.change.readOf quotePath = pathRead quotePath ∧ IsMarked quotePath path := by
      intro d hd path hpath hread
      have hhalf := hnot d hd path hpath
      rcases readOf_eq quotePath d.change with heq | heq
      · rw [heq] at hread
        exact absurd (read_of_not_isHalved hhalf).1 hread
      · refine ⟨heq, ?_⟩
        rw [heq, ne_eq, pathRead_eq_self_iff, not_and, not_not] at hread
        exact hread hhalf
    rw [TreeDiff.Readable] at h
    push Not at h
    obtain ⟨d₀, hd₀, hread₀⟩ := h
    rw [readable_iff] at hread₀
    push Not at hread₀
    obtain ⟨path₀, hpath₀, hread₀⟩ := hread₀
    set unread := t.files.flatMap fun d =>
      d.change.touched.filter fun path => d.change.readOf quotePath path ≠ path with hunread
    have hmem : ∀ path, path ∈ unread ↔
        ∃ d ∈ t.files, path ∈ d.change.touched ∧ d.change.readOf quotePath path ≠ path := by
      intro path
      simp only [hunread, mem_flatMap, mem_filter, decide_eq_true_eq]
    cases hmax : unread.argmax List.length with
    | none =>
      have hnil := argmax_eq_none.mp hmax
      have h₀ := (hmem path₀).mpr ⟨d₀, hd₀, hpath₀, hread₀⟩
      rw [hnil] at h₀
      cases h₀
    | some path =>
      obtain ⟨d, hd, hpath, hread⟩ := (hmem path).mp (argmax_mem hmax)
      refine ⟨d, hd, path, hpath, fun e he other hother hsame => ?_⟩
      by_cases hself : e.change.readOf quotePath other = other
      · -- a path that is read as itself is of the change that touches it
        have hpath' : path ∈ e.change.touched := by rwa [← hsame, hself]
        have hde := eq_of_mem_touched ht hd he hpath hpath'
        subst hde
        rw [hself] at hsame
        exact hread (hsame ▸ hself)
      · have hlt := length_lt_of_pathRead (hmarked d hd path hpath hread).2 (hnot e he other hother)
          (by rw [← (hmarked e he other hother hself).1, hsame])
        have hle := le_of_mem_argmax ((hmem other).mpr ⟨e, he, hother, hself⟩) hmax
        omega

/-! ### What a change changes -/

/-- What is at a path that a change touches is not what was. -/
theorem get_before_ne_after (hd : d.IsGit) (hnodup : d.change.touched.Nodup)
    {path : Text} (hpath : path ∈ d.change.touched) :
    get path (pairs d.change.before) ≠ get path (pairs d.change.after) := by
  obtain ⟨c, above, below⟩ := d
  cases c with
  | created other mode lines unended =>
    rw [mem_singleton.mp hpath]
    show none ≠ get other (pairs (file (some other) _))
    rw [get_file, if_pos rfl]
    exact (some_ne_none _).symm
  | deleted other mode lines unended shown =>
    rw [mem_singleton.mp hpath]
    show get other (pairs (file (some other) _)) ≠ none
    rw [get_file, if_pos rfl]
    exact some_ne_none _
  | changed other edit =>
    rw [mem_singleton.mp hpath]
    show get other (pairs (file (some other) _)) ≠
      get other (pairs (file (some other) _))
    rw [get_file, get_file, if_pos rfl, if_pos rfl]
    exact fun h => hd.differs (encodeUtf8_inj (some.inj h))
  | renamed source target edit =>
    have hne : source ≠ target := fun h => (nodup_cons.mp hnodup).1 (h ▸ mem_singleton_self _)
    show get path (pairs (file (some source) _)) ≠
      get path (pairs (file (some target) _))
    rw [get_file, get_file]
    rcases mem_cons.mp hpath with rfl | hpath
    · rw [if_pos rfl, if_neg hne]
      exact some_ne_none _
    · rw [mem_singleton.mp hpath, if_pos rfl, if_neg hne.symm]
      exact (some_ne_none _).symm

/-! ### The tree after -/

variable (files : List NpmPackageFile)

theorem pairwise_sortByPath :
    (sortByPath files).Pairwise fun a b => units a.path ≤ units b.path := by
  have : Std.Total fun a b : NpmPackageFile => units a.path ≤ units b.path :=
    ⟨fun a b => le_total _ _⟩
  have : IsTrans NpmPackageFile fun a b => units a.path ≤ units b.path :=
    ⟨fun a b c hab hbc => le_trans hab hbc⟩
  exact pairwise_insertionSort _ _

/-- The files that are kept by their paths. -/
def filesOf (byPath : ByPath) : List NpmPackageFile := byPath.map fun p => ⟨p.1, p.2⟩

theorem pairs_filesOf (byPath : ByPath) : pairs (filesOf byPath) = byPath := by
  rw [pairs, filesOf, List.map_map]
  exact List.map_id _

theorem filesOf_pairs : filesOf (pairs files) = files := by
  rw [pairs, filesOf, List.map_map]
  exact List.map_id _

variable {patch : List PatchedFile}

/-- A patch that is made gives a tree where what it makes is what the tree has at each path. -/
theorem gives_iff {files : List NpmPackageFile}
    {tree : List NpmPackageFile} (htree : (tree.map (·.path)).Nodup) :
    Gives (patchedFiles files patch) tree ↔ ∃ byPath,
      patch.foldlM patchFile (byPathOf files) = .ok byPath ∧
        ∀ path, get path byPath = get path (pairs tree) := by
  rw [← keys_pairs] at htree
  cases hfold : patch.foldlM patchFile (byPathOf files) with
  | error e =>
    refine iff_of_false ?_ ?_
    · rintro ⟨out, hout, -⟩
      rw [patchedFiles, hfold] at hout
      cases hout
    · rintro ⟨byPath, hbyPath, -⟩
      cases hbyPath
  | ok byPath =>
    have hnodup := (foldlM_frame hfold).1 (nodup_byPathOf files)
    have hresult : patchedFiles files patch = .ok (sortByPath (filesOf byPath)) := by
      rw [patchedFiles, hfold]
      rfl
    have hsort : (sortByPath (filesOf byPath)).Perm (filesOf byPath) := perm_insertionSort _ _
    constructor
    · rintro ⟨out, hout, hperm, -⟩
      rw [hresult] at hout
      cases hout
      have hpairs := (hsort.symm.trans hperm).map fun f : NpmPackageFile => (f.path, f.bytes)
      change (pairs (filesOf byPath)).Perm (pairs tree) at hpairs
      rw [pairs_filesOf] at hpairs
      exact ⟨byPath, rfl, fun path => get_perm hnodup hpairs⟩
    · rintro ⟨_, ⟨⟩, hget⟩
      refine ⟨_, hresult, hsort.trans ?_, pairwise_sortByPath _⟩
      have hpairs := perm_of_get hnodup htree hget
      have hfiles := hpairs.map fun p => (⟨p.1, p.2⟩ : NpmPackageFile)
      change (filesOf byPath).Perm (filesOf (pairs tree)) at hfiles
      rwa [filesOf_pairs] at hfiles

/-! ### The diff of two trees -/

/-- A change is read with the paths that are read of it. -/
theorem read_paths (quotePath : Bool) (c : Change) {path : Text}
    (hpath : ∀ other ∈ c.touched, c.readOf quotePath other ≠ path) :
    path ≠ (c.read quotePath).path ∧ path ∉ (c.read quotePath).source := by
  cases c with
  | created other | deleted other | changed other =>
    exact ⟨(hpath other (mem_singleton_self _)).symm, not_mem_none _⟩
  | renamed source target =>
    refine ⟨(hpath target (mem_cons_of_mem _ (mem_singleton_self _))).symm, fun h => ?_⟩
    exact hpath source mem_cons_self (some.inj h)

/-- Changes that are read are all read as they are. -/
theorem mapM_readFile (h : (ds.mapM fun d => d.change.readFile quotePath) = .ok patch) :
    patch = ds.map fun d => d.change.read quotePath := by
  induction ds generalizing patch with
  | nil =>
    cases h
    rfl
  | cons d ds ih =>
    rw [mapM_cons, readFile] at h
    split at h
    · cases hrest : ds.mapM fun d => d.change.readFile quotePath with
      | error e =>
        rw [hrest] at h
        cases h
      | ok rest =>
        rw [hrest] at h
        cases h
        rw [map_cons, ih hrest]
    · cases h

/-- Changes that are readable are read. -/
theorem mapM_readFile_of_readable (hds : ∀ d ∈ ds, d.IsGit ∧ d.change.Readable quotePath) :
    (ds.mapM fun d => d.change.readFile quotePath) =
      .ok (ds.map fun d => d.change.read quotePath) := by
  induction ds with
  | nil => rfl
  | cons d ds ih =>
    obtain ⟨hgit, hread⟩ := hds d mem_cons_self
    have hpaths : (d.change.touched.map (d.change.readOf quotePath)).all isPatchPath = true := by
      rw [List.all_map, List.all_eq_true]
      intro path hpath
      show isPatchPath (d.change.readOf quotePath path) = true
      rw [readable_iff.mp hread path hpath]
      exact hgit.paths path hpath
    rw [mapM_cons, readFile, if_pos hpaths, ih fun e he => hds e (mem_cons_of_mem _ he)]
    rfl

/-- **The diff of two trees, read and applied to the files of the one before, gives the files of
the one after in the order of their paths exactly where the paths it names are readable.** -/
theorem patchedFiles_parsePatch_iff {t : TreeDiff} (ht : t.IsGit) (quotePath : Bool)
    {files : List NpmPackageFile} (hfiles : files.Perm t.before) :
    Gives ((parsePatch (t.text quotePath)).bind (patchedFiles files)) t.after ↔
      t.Readable quotePath := by
  have htouched := (nodup_append.mp ht.paths).2.1
  have hbefore : (files.map (·.path)).Nodup :=
    ((hfiles.map (·.path)).nodup_iff).mpr (nodup_tree inTouched_before ht)
  have hafter : (t.after.map (·.path)).Nodup := nodup_tree inTouched_after ht
  have hget₀ : ∀ path, Grouping.get path (byPathOf files) = Grouping.get path (pairs t.before) := by
    intro path
    rw [get_byPathOf hbefore]
    refine Grouping.get_perm (by rw [keys_pairs]; exact hbefore) (hfiles.map _)
  rw [parsePatch_text ht.files]
  constructor
  · intro hgives
    by_contra hread
    cases hpatch : t.files.mapM fun d => d.change.readFile quotePath with
    | error e =>
      rw [hpatch] at hgives
      obtain ⟨out, hout, -⟩ := hgives
      cases hout
    | ok patch =>
      rw [hpatch] at hgives
      change Gives (patchedFiles files patch) t.after at hgives
      obtain ⟨byPath, hfold, hget⟩ := (gives_iff hafter).mp hgives
      obtain ⟨d, hd, path, hpath, hunread⟩ := exists_unread ht hread
      -- what is at the path stays, and should not have
      have hkept : Grouping.get path byPath = Grouping.get path (byPathOf files) := by
        refine (foldlM_frame hfold).2 path fun file hfile => ?_
        rw [mapM_readFile hpatch] at hfile
        obtain ⟨e, he, rfl⟩ := List.mem_map.mp hfile
        exact read_paths quotePath e.change (hunread e he)
      have hmem : path ∈ t.files.flatMap (·.change.touched) :=
        mem_flatMap.mpr ⟨d, hd, hpath⟩
      have hold : Grouping.get path (pairs t.before) =
          Grouping.get path (pairs d.change.before) := by
        rw [TreeDiff.before, get_tree inTouched_before ht, if_pos hmem,
          get_sides inTouched_before htouched hd hpath]
      have hnew : Grouping.get path (pairs t.after) =
          Grouping.get path (pairs d.change.after) := by
        rw [TreeDiff.after, get_tree inTouched_after ht, if_pos hmem,
          get_sides inTouched_after htouched hd hpath]
      have hd' : d.change.touched.Nodup := (nodup_flatMap.mp htouched).1 d hd
      exact get_before_ne_after (ht.files d hd) hd' hpath
        (by rw [← hold, ← hnew, ← hget, hkept, hget₀])
  · intro hread
    have hds : ∀ d ∈ t.files, d.IsGit ∧ d.change.Readable quotePath := fun d hd =>
      ⟨ht.files d hd, hread d hd⟩
    have hm : ∀ d ∈ t.files, ∀ path ∈ d.change.touched,
        Grouping.get path (byPathOf files) = Grouping.get path (pairs d.change.before) := by
      intro d hd path hpath
      rw [hget₀, TreeDiff.before, get_tree inTouched_before ht,
        if_pos (mem_flatMap.mpr ⟨d, hd, hpath⟩), get_sides inTouched_before htouched hd hpath]
    obtain ⟨byPath, hfold, hget⟩ := foldlM_patchFile hds htouched hm
    rw [mapM_readFile_of_readable hds]
    refine (gives_iff hafter).mpr ⟨byPath, hfold, fun path => ?_⟩
    rw [hget, TreeDiff.after, get_tree inTouched_after ht]
    split
    · rfl
    · rename_i hmem
      rw [hget₀, TreeDiff.before, get_tree inTouched_before ht, if_neg hmem]

/-- A package one file of which is changed, one deleted with its lines left out, one created with
no ending and one renamed. -/
def packageDiff : TreeDiff where
  shared := [⟨"package.json".toList, encodeUtf8 "name\n".toList⟩]
  files :=
    [{ change := .created "added.js".toList "100644".toList ["added".toList, "last".toList] true },
      { change := .deleted "gone.js".toList "100644".toList ["gone".toList] false false },
      { change := .changed "index.js".toList
          { hunks := [{ gap := ["one".toList]
                        parts := [⟨.context, ["two".toList], false⟩,
                          ⟨.deletion, ["three".toList], true⟩,
                          ⟨.insertion, ["THREE".toList, "four".toList], false⟩] }] } },
      { change := .renamed "old name.js".toList "new name.js".toList
          { hunks := [], rest := ["same".toList] }
        above := ["similarity index 100%".toList] }]

theorem patchedFiles_packageDiff :
    Gives ((parsePatch (packageDiff.text true)).bind (patchedFiles packageDiff.before))
      packageDiff.after :=
  (patchedFiles_parsePatch_iff (by decide +kernel) true (.refl _)).mpr (by decide +kernel)

/-- A file is created at a path with a quote and a character past U+FFFF. -/
def halvedDiff : TreeDiff where
  shared := []
  files := [{ change := .created ['"', .ofNat 0x1F600] "100644".toList ["a".toList] false }]

/-- Under `core.quotePath=false`, the file is created at another path. -/
theorem patchedFiles_halvedDiff :
    ¬∀ (t : TreeDiff) (quotePath : Bool) (files : List NpmPackageFile), t.IsGit →
      files.Perm t.before →
        Gives ((parsePatch (t.text quotePath)).bind (patchedFiles files)) t.after := by
  intro h
  obtain ⟨out, hout, hperm, -⟩ := h halvedDiff false [] (by decide +kernel) (.refl _)
  have hread : (parsePatch (halvedDiff.text false)).bind (patchedFiles []) =
      .ok [⟨['"', '\uFFFD', '\uFFFD'], encodeUtf8 "a\n".toList⟩] := by
    decide +kernel
  rw [hread] at hout
  cases hout
  have hmem := hperm.mem_iff.mp (mem_singleton_self _)
  revert hmem
  decide +kernel

end Triage.NpmPatch
