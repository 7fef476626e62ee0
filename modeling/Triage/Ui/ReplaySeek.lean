import Triage.Ui.ReplaySteps
import Mathlib.Data.List.TakeWhile

/-!
# A replay sought and played

A replay is sought by settling its commits and played by letting their changes fall due. Played in
order, each within its span, and past every change and removal, the scene has the files and
directories that settling gives.

## Main results

* `replay_sound` : playing gives what settling gives, and every scene reached is a tree.
-/

namespace Triage.Replay

open List Option

variable {s : Scene} {p : Path}

/-- A commit played: its files, when, and for how long. -/
structure Commit where
  files : List FileStatus
  time : ℚ
  span : ℚ
  deriving DecidableEq

/-- A step of a replay that is played. -/
inductive Played
  | play (commit : Commit)
  | advance (now : ℚ)
  | layout
  deriving DecidableEq

/-- The step it is. -/
def Played.step : Played → Step
  | .play commit => .play commit.files commit.time commit.span
  | .advance now => .advance now
  | .layout => .layout

/-- The commits played. -/
def commitsOf (steps : List Played) : List Commit :=
  steps.filterMap fun step =>
    match step with
    | .play commit => some commit
    | _ => none

/-- The times advanced to. -/
def timesOf (steps : List Played) : List ℚ :=
  steps.filterMap fun step =>
    match step with
    | .advance now => some now
    | _ => none

/-- The commits play in order, each within its span. -/
def InSpans (commits : List Commit) : Prop :=
  (∀ commit ∈ commits, 0 ≤ commit.span) ∧
    commits.Pairwise fun a b => a.time + a.span ≤ b.time

/-- The scene once the steps have been made. -/
def playAll (s : Scene) (steps : List Played) : Scene :=
  (steps.map Played.step).foldl Scene.apply s

/-- The scene once the commits have been settled. -/
def settleAll (s : Scene) (commits : List Commit) : Scene :=
  commits.foldl (fun s commit => settleCommit s commit.files) s

/-! ### When changes are due -/

variable {span : ℚ} {files : List FileStatus} {instant : Instant}

theorem stagger_nonneg (count : ℕ) (h : 0 ≤ span) : 0 ≤ stagger count span := by
  rw [stagger]
  split_ifs
  · exact le_min (by norm_num [staggerS]) (div_nonneg h (Nat.cast_nonneg count))
  · exact le_rfl

/-- The changes of a commit are due within its span. -/
theorem mul_stagger_le {count index : ℕ} (h : 0 ≤ span) (hindex : index < count) :
    (index : ℚ) * stagger count span ≤ span := by
  rw [stagger]
  split_ifs with hcount
  · have hpos : (0 : ℚ) < count := by exact_mod_cast (Nat.zero_lt_of_lt hindex)
    have hle : (index : ℚ) ≤ count := by exact_mod_cast hindex.le
    calc (index : ℚ) * min staggerS (span / count)
        ≤ index * (span / count) :=
          mul_le_mul_of_nonneg_left (min_le_right _ _) (Nat.cast_nonneg index)
      _ ≤ count * (span / count) := mul_le_mul_of_nonneg_right hle (div_nonneg h hpos.le)
      _ = span := mul_div_cancel₀ span hpos.ne'
  · rw [mul_zero]
    exact h

variable {time : ℚ}

theorem mem_commitDue {due : Due}
    (h : due ∈ commitDue files time span) : ∃ index < (fileChanges files).length,
      due.time = time + index * stagger (fileChanges files).length span := by
  rw [commitDue, mem_mapIdx] at h
  obtain ⟨index, hindex, rfl⟩ := h
  exact ⟨index, hindex, rfl⟩

theorem commitDue_bounds (hspan : 0 ≤ span) {due : Due}
    (h : due ∈ commitDue files time span) : time ≤ due.time ∧ due.time ≤ time + span := by
  obtain ⟨index, hindex, htime⟩ := mem_commitDue h
  have hle := mul_stagger_le hspan hindex
  have hcast : (0 : ℚ) ≤ index := Nat.cast_nonneg index
  have hnonneg := mul_nonneg hcast (stagger_nonneg (fileChanges files).length hspan)
  rw [htime]
  exact ⟨by linarith, by linarith⟩

theorem commitDue_sorted (hspan : 0 ≤ span) :
    (commitDue files time span).Pairwise fun a b => a.time ≤ b.time := by
  rw [commitDue, pairwise_iff_getElem]
  intro i j hi hj hij
  rw [getElem_mapIdx, getElem_mapIdx]
  have hcast : (i : ℚ) ≤ j := by exact_mod_cast hij.le
  have := mul_le_mul_of_nonneg_right hcast
    (stagger_nonneg (fileChanges files).length hspan)
  simp only
  linarith

theorem commitDue_changes (files : List FileStatus) (time span : ℚ) :
    (commitDue files time span).map (fun due => (due.path, due.kind)) = fileChanges files := by
  refine ext_getElem (by simp [commitDue]) fun i hi hi' => ?_
  simp [commitDue]

/-! ### Playing -/

/-- What holds while a replay plays: the changes due come in order and, made, leave `target`; none
of them, and no removal, is later than `last`. -/
structure Playing (target : Set Path) (last : ℚ) (s : Scene) : Prop where
  tree : s.Tree
  sorted : s.due.Pairwise fun a b => a.time ≤ b.time
  target : (s.due.map fun due => (due.path, due.kind)).foldl applyChange s.held = target
  due_le : ∀ due ∈ s.due, due.time ≤ last
  going_le : ∀ p removed, (s.files p).bind File.removed = some removed →
    removed.gone (last + removeS) = true

/-- What is going is gone by a time. -/
def Scene.GoneBy (s : Scene) (time : ℚ) : Prop :=
  ∀ p removed, (s.files p).bind File.removed = some removed → removed.gone time = true

theorem changeFile_goneBy (h : s.Tree) (hs : s.GoneBy time)
    (hinstant : instant.gone time = true) (path : Path) (kind : Kind) :
    (changeFile s path kind instant).GoneBy time := by
  intro p removed hremoved
  rw [(changeFile_spec h path kind instant).2.2 p] at hremoved
  split_ifs at hremoved with hp
  · rw [changed] at hremoved
    split_ifs at hremoved with hkind
    · cases hfile : s.files path with
      | none =>
        rw [hfile] at hremoved
        cases hremoved
      | some file =>
        rw [hfile, map_some, bind_some, Option.some.injEq] at hremoved
        cases hold : file.removed with
        | none =>
          rw [hold] at hremoved
          exact hremoved ▸ hinstant
        | some old =>
          rw [hold] at hremoved
          exact hremoved ▸ hs path old (by rw [hfile]; exact hold)
    · cases hremoved
  · exact hs p removed hremoved

theorem foldl_changeFile_goneBy (h : s.Tree) (hs : s.GoneBy time) {l : List Due}
    (hl : ∀ due ∈ l, (Instant.time due.time).gone time = true) :
    (l.foldl (fun s due => changeFile s due.path due.kind (.time due.time)) s).GoneBy time := by
  induction l generalizing s with
  | nil => exact hs
  | cons due l ih =>
    exact ih (changeFile_spec h due.path due.kind (.time due.time)).1
      (changeFile_goneBy h hs (hl due mem_cons_self) due.path due.kind)
      fun due' hdue => hl due' (mem_cons_of_mem _ hdue)

theorem Instant.gone_mono {time now : ℚ} (h : instant.gone time = true)
    (hle : time ≤ now) : instant.gone now = true := by
  cases instant with
  | ever => rfl
  | time seconds =>
    rw [Instant.gone, decide_eq_true_eq] at h ⊢
    linarith

variable {target : Set Path} {last : ℚ}

section

variable (h : Playing target last s)
include h

/-- A commit played adds its changes to those due. -/
theorem Playing.play {commit : Commit} (hspan : 0 ≤ commit.span)
    (hafter : ∀ due ∈ s.due, due.time ≤ commit.time)
    (hlast : ∀ due ∈ commitDue commit.files commit.time commit.span, due.time ≤ last) :
    Playing ((fileChanges commit.files).foldl applyChange target) last
      (playCommit s commit.files commit.time commit.span) := by
  have hsorted : (s.due ++ commitDue commit.files commit.time commit.span).Pairwise
      fun a b => a.time ≤ b.time := by
    refine pairwise_append.2 ⟨h.sorted, commitDue_sorted hspan, fun a ha b hb => ?_⟩
    exact (hafter a ha).trans (commitDue_bounds hspan hb).1
  have hdue : (playCommit s commit.files commit.time commit.span).due =
      s.due ++ commitDue commit.files commit.time commit.span :=
    mergeSort_of_pairwise (hsorted.imp fun hab => by simpa using hab)
  refine ⟨h.tree.withDue _, by rw [hdue]; exact hsorted, ?_, fun due hmem => ?_, h.going_le⟩
  · rw [hdue, map_append, foldl_append, commitDue_changes]
    congr 1
    exact h.target
  · rw [hdue, mem_append] at hmem
    exact hmem.elim (h.due_le due) (hlast due)

theorem makeDue_playing (now : ℚ) : Playing target last (makeDue s now) := by
  have hbase : Scene.Tree { s with due := s.due.dropWhile fun due => decide (due.time ≤ now) } :=
    h.tree.withDue _
  obtain ⟨htree, hdue, hheld⟩ := foldl_changeFile hbase
    (s.due.takeWhile fun due => decide (due.time ≤ now))
  have hdue' : (makeDue s now).due = s.due.dropWhile fun due => decide (due.time ≤ now) := hdue
  refine ⟨htree, ?_, ?_, fun due hmem => ?_, ?_⟩
  · rw [hdue']
    exact h.sorted.sublist (dropWhile_sublist _)
  · have hsplit := takeWhile_append_dropWhile (p := fun due => decide (due.time ≤ now))
      (l := s.due)
    rw [hdue', makeDue, hheld, ← foldl_append, ← map_append, hsplit]
    exact h.target
  · rw [hdue'] at hmem
    exact h.due_le due ((dropWhile_sublist _).subset hmem)
  · refine foldl_changeFile_goneBy hbase h.going_le fun due hmem => ?_
    have := h.due_le due ((takeWhile_sublist _).subset hmem)
    rw [Instant.gone, decide_eq_true_eq]
    linarith

theorem Playing.advance (now : ℚ) : Playing target last (advanceScene s now) := by
  have hmade := makeDue_playing h now
  obtain ⟨htree, hdue, hfiles⟩ := sweep_spec hmade.tree now (makeDue s now).going
  refine ⟨htree, hdue.symm ▸ hmade.sorted, ?_, hdue.symm ▸ hmade.due_le,
    fun p removed hremoved => ?_⟩
  · rw [advanceScene, hdue, sweep_held hmade.tree]
    exact hmade.target
  · rw [advanceScene, hfiles] at hremoved
    split_ifs at hremoved
    · cases hremoved
    · exact hmade.going_le p removed hremoved

theorem Playing.layout : Playing target last (layoutScene s) :=
  ⟨(layoutScene_spec h.tree).1, h.sorted, h.target, h.due_le, h.going_le⟩

/-- **Past every change and removal nothing is due and nothing going.** -/
theorem Playing.past (now : ℚ) (hnow : last + removeS ≤ now) :
    (advanceScene s now).due = [] ∧ (advanceScene s now).Still := by
  have hmade := makeDue_playing h now
  obtain ⟨-, hdue, hfiles⟩ := sweep_spec hmade.tree now (makeDue s now).going
  have hbase : Scene.Tree { s with due := s.due.dropWhile fun due => decide (due.time ≤ now) } :=
    h.tree.withDue _
  have hnone : (s.due.dropWhile fun due => decide (due.time ≤ now)) = [] := by
    rw [dropWhile_eq_nil_iff]
    intro due hmem
    have := h.due_le due hmem
    have hremove : (0 : ℚ) ≤ removeS := by norm_num [removeS]
    rw [decide_eq_true_eq]
    linarith
  refine ⟨?_, fun p => ?_⟩
  · rw [advanceScene, hdue]
    exact (foldl_changeFile hbase _).2.1.trans hnone
  · rw [advanceScene, hfiles]
    split_ifs with hp
    · rfl
    · by_contra hsome
      obtain ⟨removed, hremoved⟩ := ne_none_iff_exists'.1 hsome
      refine hp ⟨(hmade.tree.mem_going p).2 (by rw [hremoved]; rfl), ?_⟩
      rw [goneBy, hremoved]
      exact Instant.gone_mono (hmade.going_le p removed hremoved) hnow

end

/-- The changes of a list of commits. -/
def changesOf (commits : List Commit) : List (Path × Kind) :=
  commits.flatMap fun commit => fileChanges commit.files

/-- **A run of a replay leaves what its commits make.** -/
theorem playing_run {steps : List Played} (h : Playing target last s)
    (hspans : InSpans (commitsOf steps))
    (hafter : ∀ commit ∈ commitsOf steps, ∀ due ∈ s.due, due.time ≤ commit.time)
    (hlast : ∀ commit ∈ commitsOf steps,
      ∀ due ∈ commitDue commit.files commit.time commit.span, due.time ≤ last) :
    Playing ((changesOf (commitsOf steps)).foldl applyChange target) last (playAll s steps) := by
  induction steps generalizing s target with
  | nil => exact h
  | cons step steps ih =>
    cases step with
    | play commit =>
      obtain ⟨hnonneg, hpairwise⟩ := hspans
      change (∀ c ∈ commit :: commitsOf steps, _) at hnonneg
      change (commit :: commitsOf steps).Pairwise _ at hpairwise
      rw [pairwise_cons] at hpairwise
      have hspan := hnonneg commit mem_cons_self
      have hplay := h.play hspan (hafter commit mem_cons_self)
        (hlast commit mem_cons_self)
      have hrun := ih hplay
        ⟨fun c hc => hnonneg c (mem_cons_of_mem _ hc), hpairwise.2⟩
        (fun c hc due hdue => ?_) fun c hc => hlast c (mem_cons_of_mem _ hc)
      · change Playing ((fileChanges commit.files ++ changesOf (commitsOf steps)).foldl
          applyChange target) last _
        rw [foldl_append]
        exact hrun
      · -- what is due is due before the commit's end, and the next plays after it
        rw [playCommit, mem_mergeSort, mem_append] at hdue
        rcases hdue with hdue | hdue
        · exact hafter c (mem_cons_of_mem _ hc) due hdue
        · exact (commitDue_bounds hspan hdue).2.trans (hpairwise.1 c hc)
    | advance now =>
      refine ih (h.advance now) hspans (fun c hc due hdue => ?_) hlast
      have hmade := makeDue_playing h now
      rw [Played.step, Scene.apply, advanceScene, (sweep_spec hmade.tree now _).2.1] at hdue
      have hbase : Scene.Tree
          { s with due := s.due.dropWhile fun due => decide (due.time ≤ now) } := h.tree.withDue _
      rw [makeDue, (foldl_changeFile hbase _).2.1] at hdue
      exact hafter c hc due ((dropWhile_sublist _).subset hdue)
    | layout => exact ih h.layout hspans hafter hlast

/-- Commits settled one after another. -/
theorem settleAll_spec (h : s.Tree) (hstill : s.Still) (commits : List Commit) :
    (settleAll s commits).Tree ∧ (settleAll s commits).Still ∧
      (settleAll s commits).held = (changesOf commits).foldl applyChange s.held := by
  induction commits generalizing s with
  | nil => exact ⟨h, hstill, rfl⟩
  | cons commit commits ih =>
    obtain ⟨htree, -, hheld, hstill'⟩ := settleCommit_spec h commit.files
    obtain ⟨htree', hstill'', hheld'⟩ := ih htree (hstill' hstill)
    refine ⟨htree', hstill'', hheld'.trans ?_⟩
    rw [hheld, ← foldl_append]
    rfl

/-! ### The same files, the same directories -/

/-- Where nothing is going the files are those held. -/
theorem Scene.Still.isSome_files (h : s.Still) (p : Path) : (s.files p).isSome ↔ p ∈ s.held := by
  rw [Scene.held, Set.mem_ofPred_eq]
  cases hfile : s.files p with
  | none => simp
  | some file =>
    have hp := h p
    rw [hfile, bind_some] at hp
    obtain ⟨removed⟩ := file
    obtain rfl : removed = none := hp
    simp

/-- A directory is there where it is the root or above a file. -/
theorem Grown.isSome_dirs {dirs : FMap Path Directory} {files : FMap Path File}
    (h : Grown (fun _ => False) dirs files) (p : Path) :
    (dirs p).isSome ↔ p = [] ∨ ∃ f, (files f).isSome ∧ Below p (dirname f) := by
  refine ⟨fun hp => ?_, ?_⟩
  · -- the longer the path, the nearer a file
    induction hn : dirs.keys.sup List.length - p.length using Nat.strong_induction_on
      generalizing p with
    | h n ih =>
      rcases eq_or_ne p [] with rfl | hne
      · exact .inl rfl
      · right
        obtain ⟨d, hd⟩ := isSome_iff_exists.1 hp
        rcases h.held p d hd hne id with hfiles | hdirs
        · obtain ⟨f, hf⟩ := exists_mem_of_ne_nil _ hfiles
          obtain ⟨hthere, hname⟩ := (h.mem_files p d hd f).1 hf
          exact ⟨f, hthere, hname ▸ .refl⟩
        · obtain ⟨c, hc⟩ := exists_mem_of_ne_nil _ hdirs
          obtain ⟨hthere, hcne, hname⟩ := (h.mem_dirs p d hd c).1 hc
          have hlt := length_dirname_lt hcne
          rw [hname] at hlt
          have hle := Finset.le_sup (f := List.length) ((dirs.mem_keys c).2 hthere)
          obtain ⟨f, hf, hbelow⟩ := (ih _ (by omega) c hthere rfl).resolve_left hcne
          exact ⟨f, hf, .trans (.step hcne (hname ▸ .refl)) hbelow⟩
  · rintro (rfl | ⟨f, hf, hbelow⟩)
    · exact h.root
    · have hhome := h.home f hf
      generalize dirname f = q at hbelow hhome
      induction hbelow with
      | refl => exact hhome
      | step hne _ ih => exact ih (h.parent _ hhome hne)

/-- What holds of every scene. -/
structure Scene.Sound (s : Scene) : Prop where
  /-- Each file is in its directory's list, once. -/
  in_directory : ∀ f, (s.files f).isSome →
    ∃ d, s.dirs (dirname f) = some d ∧ d.files.count f = 1
  /-- What is in a directory's list is a file of it. -/
  only_there : ∀ p d f, s.dirs p = some d → f ∈ d.files → (s.files f).isSome ∧ dirname f = p
  /-- A directory is in its parent's list, once, and in no other. -/
  listed : ∀ p d c, s.dirs p = some d →
    d.dirs.count c = if (s.dirs c).isSome ∧ c ≠ [] ∧ dirname c = p then 1 else 0
  /-- A directory is there where it is the root or has a file or a directory. -/
  directory_iff : ∀ p, (s.dirs p).isSome ↔ p = [] ∨ (∃ f, (s.files f).isSome ∧ dirname f = p) ∨
    ∃ c, (s.dirs c).isSome ∧ c ≠ [] ∧ dirname c = p
  sorted : ∀ p d, s.dirs p = some d → d.dirs.Pairwise fun a b => basename a ≤ basename b
  /-- What is going is what is marked removed. -/
  mem_going : ∀ p, p ∈ s.going ↔ ∃ file, s.files p = some file ∧ file.removed ≠ none
  /-- Above a directory to be laid out all are. -/
  dirty_up : ∀ c d, s.dirs c = some d → d.dirty = true → ∀ top, Below top c →
    ∃ d', s.dirs top = some d' ∧ d'.dirty = true

theorem Scene.Tree.sound (h : s.Tree) : s.Sound where
  in_directory f hf := by
    obtain ⟨d, hd⟩ := isSome_iff_exists.1 (h.grown.home f hf)
    exact ⟨d, hd, count_eq_one_of_mem (h.grown.files_nodup _ d hd)
      ((h.grown.mem_files _ d hd f).2 ⟨hf, rfl⟩)⟩
  only_there p d f hd hf := (h.grown.mem_files p d hd f).1 hf
  listed p d c hd := by
    have hmem := h.grown.mem_dirs p d hd c
    split_ifs with hc
    · exact count_eq_one_of_mem (h.grown.dirs_nodup p d hd) (hmem.2 hc)
    · exact count_eq_zero.2 fun hin => hc (hmem.1 hin)
  directory_iff p := by
    refine ⟨fun hp => ?_, ?_⟩
    · rcases eq_or_ne p [] with rfl | hne
      · exact .inl rfl
      · obtain ⟨d, hd⟩ := isSome_iff_exists.1 hp
        refine .inr ((h.grown.held p d hd hne id).imp (fun hfiles => ?_) fun hdirs => ?_)
        · obtain ⟨f, hf⟩ := exists_mem_of_ne_nil _ hfiles
          exact ⟨f, (h.grown.mem_files p d hd f).1 hf⟩
        · obtain ⟨c, hc⟩ := exists_mem_of_ne_nil _ hdirs
          exact ⟨c, (h.grown.mem_dirs p d hd c).1 hc⟩
    · rintro (rfl | ⟨f, hf, rfl⟩ | ⟨c, hc, hne, rfl⟩)
      · exact h.grown.root
      · exact h.grown.home f hf
      · exact h.grown.parent c hc hne
  sorted := h.grown.sorted
  mem_going p := by
    rw [h.mem_going, isSome_iff_exists]
    constructor
    · rintro ⟨removed, hremoved⟩
      obtain ⟨file, hfile, hold⟩ := bind_eq_some_iff.1 hremoved
      exact ⟨file, hfile, by rw [hold]; simp⟩
    · rintro ⟨file, hfile, hold⟩
      obtain ⟨removed, hremoved⟩ := ne_none_iff_exists'.1 hold
      exact ⟨removed, by rw [hfile]; exact hremoved⟩
  dirty_up _ _ hd hdirty _ hbelow := h.dirty.of_below hbelow hd hdirty

/-- What playing gives is what settling gives. -/
structure SeekIsPlay (s₀ : Scene) (steps : List Played) (now : ℚ) : Prop where
  files : (playAll s₀ (steps ++ [.advance now])).files = (settleAll s₀ (commitsOf steps)).files
  dirs : ∀ p, ((playAll s₀ (steps ++ [.advance now])).dirs p).isSome =
    ((settleAll s₀ (commitsOf steps)).dirs p).isSome
  done : (playAll s₀ (steps ++ [.advance now])).due = []

/-- **A replay sought and played are one.** -/
theorem seekIsPlay {s₀ : Scene} (h₀ : s₀.Tree) (hdue : s₀.due = []) (hstill : s₀.Still)
    {steps : List Played} {now : ℚ} (hspans : InSpans (commitsOf steps))
    (hpast : ∀ commit ∈ commitsOf steps,
      ∀ due ∈ commitDue commit.files commit.time commit.span, due.time + removeS ≤ now) :
    SeekIsPlay s₀ steps now := by
  have hplaying : Playing s₀.held (now - removeS) s₀ := by
    refine ⟨h₀, by rw [hdue]; exact List.Pairwise.nil, by rw [hdue]; rfl,
      fun due hmem => ?_, fun p removed hremoved => ?_⟩
    · rw [hdue] at hmem
      cases hmem
    · rw [hstill p] at hremoved
      cases hremoved
  have hrun := playing_run hplaying hspans (fun _ _ due hmem => by
      rw [hdue] at hmem
      cases hmem) fun commit hc due hmem => by
    have := hpast commit hc due hmem
    linarith
  have happend : playAll s₀ (steps ++ [.advance now]) = advanceScene (playAll s₀ steps) now := by
    rw [playAll, map_append, foldl_append]
    rfl
  obtain ⟨hdone, hstill'⟩ := hrun.past now (by linarith)
  have hplayed := hrun.advance now
  have hheld := hplayed.target
  obtain ⟨htree, hstill'', hsettled⟩ := settleAll_spec h₀ hstill (commitsOf steps)
  have hsame : (advanceScene (playAll s₀ steps) now).held =
      (settleAll s₀ (commitsOf steps)).held := by
    rw [hdone] at hheld
    exact hheld.trans hsettled.symm
  have hfiles : ∀ p, ((advanceScene (playAll s₀ steps) now).files p).isSome ↔
      ((settleAll s₀ (commitsOf steps)).files p).isSome := fun p => by
    rw [hstill'.isSome_files, hstill''.isSome_files, hsame]
  refine ⟨?_, fun p => ?_, by rw [happend]; exact hdone⟩
  · rw [happend]
    refine FMap.ext fun p => ?_
    by_cases hp : ((advanceScene (playAll s₀ steps) now).files p).isSome
    · have hheld₁ := (hstill'.isSome_files p).1 hp
      have hheld₂ := (hstill''.isSome_files p).1 ((hfiles p).1 hp)
      rw [Scene.held, Set.mem_ofPred_eq] at hheld₁ hheld₂
      rw [hheld₁, hheld₂]
    · have hno : ¬ ((settleAll s₀ (commitsOf steps)).files p).isSome := fun h =>
        hp ((hfiles p).2 h)
      rw [not_isSome_iff_eq_none] at hp hno
      rw [hp, hno]
  · rw [happend, Bool.eq_iff_iff, hplayed.tree.grown.isSome_dirs, htree.grown.isSome_dirs]
    simp only [hfiles]

/-- **Every scene is sound, and a replay played past its changes is the replay sought.** -/
theorem replay_sound : (∀ s, Reachable s → s.Sound) ∧
    ∀ s₀, Reachable s₀ → s₀.due = [] → s₀.Still → ∀ (steps : List Played) (now : ℚ),
      InSpans (commitsOf steps) → (timesOf steps ++ [now]).Pairwise (· ≤ ·) →
      (∀ commit ∈ commitsOf steps,
        ∀ due ∈ commitDue commit.files commit.time commit.span, due.time + removeS ≤ now) →
      SeekIsPlay s₀ steps now :=
  ⟨fun _ h => (tree_of_reachable h).sound, fun _ h hdue hstill _ _ hspans _ hpast =>
    seekIsPlay (tree_of_reachable h) hdue hstill hspans hpast⟩

theorem replay_sound_once : createScene.Sound ∧ SeekIsPlay createScene
    [.play ⟨[.changed [97] .A, .renamed [98] [97]], 0, 1⟩, .advance 1] 3 := by
  have hreachable : Reachable createScene := ⟨[], rfl⟩
  refine ⟨replay_sound.1 _ hreachable, replay_sound.2 _ hreachable rfl (fun _ => rfl) _ _
    (by unfold InSpans; decide +kernel) (by decide +kernel) (by decide +kernel)⟩

end Triage.Replay
