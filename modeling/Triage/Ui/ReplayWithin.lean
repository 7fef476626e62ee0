import Triage.Ui.ReplaySeek

/-!
# The replay of a directory

A reader who asks of a directory is answered only what is within it: the files of the tree a replay
starts from, and of each commit the changes there, a rename across its edge the file added where it
came in and removed where it went out.

## Main results

* `replay_within` : the replay of a directory is what the whole replay has in the directory.
-/

namespace Triage.Replay

open List

/-! ### Narrowing -/

/-- `file.startsWith(`${path}/`)` -/
def within (path file : Path) : Bool := (path ++ [slash]).isPrefixOf file

/-- A commit's files, and whether it had more. -/
structure CommitChanges where
  files : List FileStatus
  more : Bool
  deriving DecidableEq

def changesWithin (changes : CommitChanges) (path : Path) : CommitChanges :=
  if path = [] then changes
  else
    { changes with
      files := changes.files.flatMap fun file =>
        match file with
        | .changed target kind => if within path target then [.changed target kind] else []
        | .renamed target source =>
          if within path target then
            [if within path source then .renamed target source else .changed target .A]
          else if within path source then [.changed source .D] else [] }

/-- A tree's files, as many as were read, each with its size. -/
structure CommitTree where
  files : List (Path × ℕ)
  cut : Bool
  deriving DecidableEq

def treeWithin (tree : CommitTree) (path : Path) : CommitTree :=
  if path = [] then tree else { tree with files := tree.files.filter (within path ·.1) }

/-- The scene of a replay once some commits are settled, from the files of a tree. -/
def sceneAt (tree : CommitTree) (commits : List CommitChanges) : Scene :=
  commits.foldl (fun scene commit => settleCommit scene commit.files)
    (settleCommit createScene (tree.files.map fun file => .changed file.1 .A))

/-- A file is in a directory, the root's are all. -/
def InDirectory (path file : Path) : Prop := path = [] ∨ within path file = true

instance (path file : Path) : Decidable (InDirectory path file) :=
  inferInstanceAs (Decidable (_ ∨ _))

variable {path inner file : Path} {tree : CommitTree} {changes : CommitChanges}

theorem within_iff : within path file = true ↔ path ++ [slash] <+: file :=
  isPrefixOf_iff_prefix

theorem within_trans (hinner : within path inner = true) (hfile : within inner file = true) :
    within path file = true := by
  rw [within_iff] at hinner hfile ⊢
  exact hinner.trans ((prefix_append inner [slash]).trans hfile)

theorem ne_nil_of_within (h : within path file = true) : file ≠ [] := by
  rintro rfl
  have hprefix := prefix_nil.1 (within_iff.1 h)
  exact absurd hprefix (by simp)

/-- What is within a directory changes as the whole does there. -/
theorem fileChanges_within (changes : CommitChanges) (path : Path) :
    fileChanges (changesWithin changes path).files =
      (fileChanges changes.files).filter fun change => InDirectory path change.1 := by
  rw [changesWithin]
  split
  · rename_i hpath
    refine (List.filter_eq_self.2 fun change _ => ?_).symm
    exact decide_eq_true (.inl hpath)
  · rename_i hpath
    have hin : ∀ file, decide (InDirectory path file) = within path file := by
      intro file
      rw [Bool.eq_iff_iff, decide_eq_true_iff, InDirectory, or_iff_right hpath]
    simp only [hin, fileChanges, filter_flatMap, flatMap_assoc]
    refine flatMap_congr fun file _ => ?_
    cases file with
    | changed target kind =>
      cases htarget : within path target <;> simp [htarget]
    | renamed target source =>
      cases htarget : within path target <;> cases hsource : within path source <;>
        simp [htarget, hsource]

theorem treeWithin_files (tree : CommitTree) (path : Path) :
    (treeWithin tree path).files = tree.files.filter fun file => InDirectory path file.1 := by
  rw [treeWithin]
  split
  · rename_i hpath
    exact (List.filter_eq_self.2 fun file _ => decide_eq_true (.inl hpath)).symm
  · rename_i hpath
    refine List.filter_congr fun file _ => ?_
    rw [Bool.eq_iff_iff, decide_eq_true_iff, InDirectory, or_iff_right hpath]

/-! ### Narrowing twice -/

theorem within_of_inner (hpath : path ≠ []) (h : inner = path ∨ InDirectory path inner) :
    inner ≠ [] ∧ ∀ file, within inner file = true → within path file = true := by
  rcases h with rfl | h
  · exact ⟨hpath, fun _ => id⟩
  · have hin := h.resolve_left hpath
    exact ⟨ne_nil_of_within hin, fun file => within_trans hin⟩

theorem changesWithin_changesWithin (h : inner = path ∨ InDirectory path inner) :
    changesWithin (changesWithin changes path) inner = changesWithin changes inner := by
  by_cases hpath : path = []
  · rw [changesWithin.eq_def changes path, if_pos hpath]
  obtain ⟨hinner, hwithin⟩ := within_of_inner hpath h
  simp only [changesWithin, if_neg hpath, if_neg hinner, flatMap_assoc]
  congr 1
  refine flatMap_congr fun file _ => ?_
  cases file with
  | changed target kind =>
    have htarget := hwithin target
    cases hin : within path target <;> cases hin' : within inner target <;> simp_all
  | renamed target source =>
    have htarget := hwithin target
    have hsource := hwithin source
    cases hin : within path target <;> cases hin' : within inner target <;>
      cases hout : within path source <;> cases hout' : within inner source <;> simp_all

theorem treeWithin_treeWithin (h : inner = path ∨ InDirectory path inner) :
    treeWithin (treeWithin tree path) inner = treeWithin tree inner := by
  by_cases hpath : path = []
  · rw [treeWithin.eq_def tree path, if_pos hpath]
  obtain ⟨hinner, hwithin⟩ := within_of_inner hpath h
  simp only [treeWithin, if_neg hpath, if_neg hinner, filter_filter]
  congr 1
  refine List.filter_congr fun file _ => ?_
  rw [Bool.eq_iff_iff, Bool.and_eq_true]
  exact and_iff_left_of_imp (hwithin file.1)

/-! ### The files there -/

/-- Changes elsewhere leave what is in a directory. -/
theorem foldl_applyChange_filter (P : Path → Prop) [DecidablePred P] (changes : List (Path × Kind))
    (held : Set Path) :
    (changes.filter fun change => P change.1).foldl applyChange {p | p ∈ held ∧ P p} =
      {p | p ∈ changes.foldl applyChange held ∧ P p} := by
  induction changes generalizing held with
  | nil => rfl
  | cons change changes ih =>
    rw [filter_cons, foldl_cons, ← ih]
    split
    · rename_i hchange
      rw [decide_eq_true_iff] at hchange
      rw [foldl_cons]
      congr 1
      ext p
      simp only [applyChange]
      split
      · simp only [Set.mem_sdiff, Set.mem_singleton_iff, Set.mem_ofPred_eq]
        exact and_right_comm
      · simp only [Set.mem_insert_iff, Set.mem_ofPred_eq]
        constructor
        · rintro (rfl | ⟨hp, hP⟩)
          · exact ⟨.inl rfl, hchange⟩
          · exact ⟨.inr hp, hP⟩
        · rintro ⟨hp, hP⟩
          exact hp.imp_right fun hp => ⟨hp, hP⟩
    · rename_i hchange
      rw [decide_eq_true_iff] at hchange
      congr 1
      ext p
      simp only [applyChange]
      split
      · simp only [Set.mem_sdiff, Set.mem_singleton_iff, Set.mem_ofPred_eq]
        constructor
        · rintro ⟨hp, hP⟩
          refine ⟨⟨hp, ?_⟩, hP⟩
          rintro rfl
          exact hchange hP
        · rintro ⟨⟨hp, -⟩, hP⟩
          exact ⟨hp, hP⟩
      · simp only [Set.mem_insert_iff, Set.mem_ofPred_eq]
        constructor
        · rintro ⟨hp, hP⟩
          exact ⟨.inr hp, hP⟩
        · rintro ⟨rfl | hp, hP⟩
          · exact absurd hP hchange
          · exact ⟨hp, hP⟩

/-- All changes of a replay, those of the tree first. -/
def sceneChanges (tree : CommitTree) (commits : List CommitChanges) : List (Path × Kind) :=
  (tree.files.map fun file => (file.1, Kind.A)) ++
    commits.flatMap fun commit => fileChanges commit.files

theorem sceneAt_spec (tree : CommitTree) (commits : List CommitChanges) :
    (sceneAt tree commits).Still ∧
      (sceneAt tree commits).held = (sceneChanges tree commits).foldl applyChange ∅ := by
  have hfold : ∀ (commits : List CommitChanges) (s : Scene), s.Tree → s.Still →
      (commits.foldl (fun scene commit => settleCommit scene commit.files) s).Still ∧
        (commits.foldl (fun scene commit => settleCommit scene commit.files) s).held =
          (commits.flatMap fun commit => fileChanges commit.files).foldl applyChange s.held := by
    intro commits
    induction commits with
    | nil => exact fun s _ hstill => ⟨hstill, rfl⟩
    | cons commit commits ih =>
      intro s h hstill
      obtain ⟨htree, -, hheld, hstill'⟩ := settleCommit_spec h commit.files
      obtain ⟨hstill'', hheld'⟩ := ih _ htree (hstill' hstill)
      refine ⟨hstill'', hheld'.trans ?_⟩
      rw [flatMap_cons, foldl_append, hheld]
  obtain ⟨htree, -, hheld, hstill⟩ := settleCommit_spec createScene_tree
    (tree.files.map fun file => .changed file.1 .A)
  have hempty : createScene.held = ∅ := Set.eq_empty_of_forall_notMem fun _ hp => (nomatch hp)
  have hchanges : fileChanges (tree.files.map fun file => .changed file.1 .A) =
      tree.files.map fun file => (file.1, Kind.A) := by
    rw [fileChanges, flatMap_map]
    exact map_eq_flatMap.symm
  obtain ⟨hstill', hheld'⟩ := hfold commits _ htree (hstill fun _ => rfl)
  refine ⟨hstill', hheld'.trans ?_⟩
  rw [hheld, hchanges, hempty, sceneChanges, foldl_append]

/-- A scene where nothing is going has just the files it holds. -/
theorem Scene.Still.files_eq {s : Scene} [DecidablePred (· ∈ s.held)] (h : s.Still) (p : Path) :
    s.files p = if p ∈ s.held then some ⟨none⟩ else none := by
  split
  · assumption
  · rename_i hnot
    cases hfile : s.files p with
    | none => rfl
    | some file =>
      refine absurd ?_ hnot
      have hstill := h p
      rw [hfile] at hstill
      obtain ⟨removed⟩ := file
      cases hstill
      exact hfile

/-- The replay of a directory. -/
structure DirectoryReplay (tree : CommitTree) (commits : List CommitChanges) (path : Path) :
    Prop where
  files : ∀ file, (sceneAt (treeWithin tree path) (commits.map (changesWithin · path))).files file =
    if InDirectory path file then (sceneAt tree commits).files file else none
  tree_inner : ∀ inner, inner = path ∨ InDirectory path inner →
    treeWithin (treeWithin tree path) inner = treeWithin tree inner
  changes_inner : ∀ inner, inner = path ∨ InDirectory path inner → ∀ changes,
    changesWithin (changesWithin changes path) inner = changesWithin changes inner

/-- **The replay of a directory** is what the whole replay has there. -/
theorem replay_within (tree : CommitTree) (commits : List CommitChanges) (path : Path) :
    DirectoryReplay tree commits path := by
  refine ⟨fun file => ?_, fun _ => treeWithin_treeWithin, fun _ h _ =>
    changesWithin_changesWithin h⟩
  classical
  obtain ⟨hstill, hheld⟩ := sceneAt_spec tree commits
  obtain ⟨hstill', hheld'⟩ := sceneAt_spec (treeWithin tree path)
    (commits.map (changesWithin · path))
  have hchanges : sceneChanges (treeWithin tree path) (commits.map (changesWithin · path)) =
      (sceneChanges tree commits).filter fun change => InDirectory path change.1 := by
    rw [sceneChanges, sceneChanges, filter_append, filter_flatMap, flatMap_map,
      treeWithin_files, filter_map]
    congr 1
    exact flatMap_congr fun commit _ => fileChanges_within commit path
  have hnarrow := foldl_applyChange_filter (InDirectory path) (sceneChanges tree commits) ∅
  have hnone : {p : Path | p ∈ (∅ : Set Path) ∧ InDirectory path p} = ∅ := by
    ext p
    simp
  rw [hnone, ← hchanges, ← hheld', ← hheld] at hnarrow
  rw [hstill.files_eq, hstill'.files_eq, hnarrow, Set.mem_ofPred_eq]
  by_cases hfile : InDirectory path file
  · simp [hfile]
  · simp [hfile]

end Triage.Replay
