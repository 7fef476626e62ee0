import Triage.Ui.ReplayScene

/-!
# The tree of a replay's scene

Every step keeps the directories a tree: each lists the directories and files its path is the
directory of, none but the root is empty, and what is marked is marked up to the root. While a
directory is made or pruned one directory of the tree may be empty.

## Main results

* `tree_of_reachable` : every scene reached is such a tree.
-/

namespace Triage.Replay

open Sorted List Option FMap

/-- The directories and files are a tree; only directories where `e` holds may be empty. -/
structure Grown (e : Path → Prop) (dirs : FMap Path Directory) (files : FMap Path File) :
    Prop where
  root : (dirs []).isSome
  mem_files : ∀ p d, dirs p = some d → ∀ f, f ∈ d.files ↔ (files f).isSome ∧ dirname f = p
  files_nodup : ∀ p d, dirs p = some d → d.files.Nodup
  mem_dirs : ∀ p d, dirs p = some d → ∀ c, c ∈ d.dirs ↔ (dirs c).isSome ∧ c ≠ [] ∧ dirname c = p
  dirs_nodup : ∀ p d, dirs p = some d → d.dirs.Nodup
  sorted : ∀ p d, dirs p = some d → d.dirs.Pairwise fun a b => basename a ≤ basename b
  home : ∀ f, (files f).isSome → (dirs (dirname f)).isSome
  parent : ∀ c, (dirs c).isSome → c ≠ [] → (dirs (dirname c)).isSome
  held : ∀ p d, dirs p = some d → p ≠ [] → ¬ e p → d.files ≠ [] ∨ d.dirs ≠ []

/-- A marked directory is under a marked one. -/
def DirtyUp (dirs : FMap Path Directory) : Prop :=
  ∀ c d, dirs c = some d → d.dirty = true → c ≠ [] →
    ∃ d', dirs (dirname c) = some d' ∧ d'.dirty = true

/-- The same directories, marks aside. -/
def SameTree (dirs dirs' : FMap Path Directory) : Prop :=
  ∀ p, (dirs' p).map (fun d => (d.dirs, d.files)) = (dirs p).map fun d => (d.dirs, d.files)

variable {e e' : Path → Prop} {dirs dirs' dirs'' : FMap Path Directory}
  {files files' : FMap Path File} {p : Path}

theorem SameTree.refl (dirs : FMap Path Directory) : SameTree dirs dirs := fun _ => rfl

section

variable (h : SameTree dirs dirs')
include h

theorem SameTree.trans (h' : SameTree dirs' dirs'') :
    SameTree dirs dirs'' := fun p => (h' p).trans (h p)

theorem SameTree.isSome (p : Path) : (dirs' p).isSome = (dirs p).isSome := by
  have := congrArg Option.isSome (h p)
  simpa using this

theorem SameTree.none (hp : dirs p = none) : dirs' p = none := by
  have hsome := h.isSome p
  rw [hp, isSome_none, isSome_eq_false_iff, isNone_iff_eq_none] at hsome
  exact hsome

theorem SameTree.some {d' : Directory} (hd : dirs' p = some d') :
    ∃ d, dirs p = some d ∧ d'.dirs = d.dirs ∧ d'.files = d.files := by
  have hp := h p
  rw [hd, map_some] at hp
  obtain ⟨d, hd, heq⟩ := map_eq_some_iff.1 hp.symm
  exact ⟨d, hd, (Prod.mk.inj heq).1.symm, (Prod.mk.inj heq).2.symm⟩

end

variable {d dir : Directory} {l going : List Path}

/-- Marks alone have changed. -/
theorem sameTree_insert (hd : dirs p = some d) (dirty : Bool) :
    SameTree dirs (dirs.insert p { d with dirty := dirty }) := by
  intro q
  rw [insert_apply]
  split_ifs with hq
  · rw [hq, hd]
    rfl
  · rfl

theorem Grown.mono (h : Grown e dirs files) (he : ∀ p, e p → e' p) : Grown e' dirs files :=
  { h with held := fun p d hd hne hp => h.held p d hd hne fun hep => hp (he p hep) }

/-- The tree depends on the shape of the directories and on which files there are. -/
theorem Grown.congr (h : Grown e dirs files) (hdirs : SameTree dirs dirs')
    (hfiles : ∀ f, (files' f).isSome = (files f).isSome) : Grown e dirs' files' where
  root := by rw [hdirs.isSome]; exact h.root
  mem_files p d hd f := by
    obtain ⟨d₀, hd₀, -, heq⟩ := hdirs.some hd
    rw [heq, hfiles]
    exact h.mem_files p d₀ hd₀ f
  files_nodup p d hd := by
    obtain ⟨d₀, hd₀, -, heq⟩ := hdirs.some hd
    rw [heq]
    exact h.files_nodup p d₀ hd₀
  mem_dirs p d hd c := by
    obtain ⟨d₀, hd₀, heq, -⟩ := hdirs.some hd
    rw [heq, hdirs.isSome]
    exact h.mem_dirs p d₀ hd₀ c
  dirs_nodup p d hd := by
    obtain ⟨d₀, hd₀, heq, -⟩ := hdirs.some hd
    rw [heq]
    exact h.dirs_nodup p d₀ hd₀
  sorted p d hd := by
    obtain ⟨d₀, hd₀, heq, -⟩ := hdirs.some hd
    rw [heq]
    exact h.sorted p d₀ hd₀
  home f hf := by
    rw [hfiles] at hf
    rw [hdirs.isSome]
    exact h.home f hf
  parent c hc hne := by
    rw [hdirs.isSome] at hc ⊢
    exact h.parent c hc hne
  held p d hd hne hp := by
    obtain ⟨d₀, hd₀, hdirs', hfiles'⟩ := hdirs.some hd
    rw [hdirs', hfiles']
    exact h.held p d₀ hd₀ hne hp

/-! ### Marks -/

/-- **Marking up to the first marked directory marks up to the root.** -/
theorem unsettle_spec (hparent : ∀ c, (dirs c).isSome → c ≠ [] → (dirs (dirname c)).isSome)
    (hp : (dirs p).isSome) (hup : ∀ c d, dirs c = some d → d.dirty = true → c ≠ [] → dirname c ≠ p →
      ∃ d', dirs (dirname c) = some d' ∧ d'.dirty = true) :
    SameTree dirs (unsettle dirs p) ∧ DirtyUp (unsettle dirs p) := by
  induction dirs, p using unsettle.induct with
  | case1 dirs p hnone =>
    rw [hnone] at hp
    cases hp
  | case2 dirs p d hd hdirty =>
    rw [unsettle]
    simp only [hd, hdirty, if_true]
    refine ⟨.refl _, fun c d' hc hdc hne => ?_⟩
    by_cases hcp : dirname c = p
    · exact ⟨d, by rw [hcp, hd], hdirty⟩
    · exact hup c d' hc hdc hne hcp
  | case3 dirs d hclean hd =>
    rw [unsettle]
    simp only [hd, hclean, dif_pos, Bool.false_eq_true, if_false]
    refine ⟨sameTree_insert hd true, fun c d' hc hdc hne => ?_⟩
    rw [insert_of_ne _ hne] at hc
    rw [insert_apply]
    split_ifs with hroot
    · exact ⟨_, rfl, rfl⟩
    · exact hup c d' hc hdc hne hroot
  | case4 dirs p d hd hclean hne ih =>
    rw [unsettle]
    simp only [hd, hclean, if_false, dif_neg hne, Bool.false_eq_true]
    have hsame := sameTree_insert hd true
    obtain ⟨hsame', hup'⟩ := ih (fun c hc hcne => by
        rw [hsame.isSome] at hc ⊢
        exact hparent c hc hcne) (by
        rw [hsame.isSome]
        exact hparent p hp hne) (fun c d' hc hdc hcne hcp => by
        -- only the directory marked now may be under an unmarked one
        have hcp' : c ≠ p := fun heq => hcp (heq ▸ rfl)
        rw [insert_of_ne _ hcp'] at hc
        rw [insert_apply]
        split_ifs with hparent'
        · exact ⟨_, rfl, rfl⟩
        · exact hup c d' hc hdc hcne hparent')
    exact ⟨hsame.trans hsame', hup'⟩

/-! ### Directories made -/

theorem dirname_ne_self (h : p ≠ []) : dirname p ≠ p := by
  intro heq
  have := length_dirname_lt h
  rw [heq] at this
  exact lt_irrefl _ this

/-- A directory is put in its parent, empty as yet. -/
theorem Grown.insertDir (h : Grown e dirs files) (hp : dirs p = none) (hne : p ≠ [])
    {parent : Directory} (hparent : dirs (dirname p) = some parent)
    (he : ∀ q, e q → q = dirname p) :
    Grown (· = p) ((dirs.insert (dirname p)
        { parent with dirs := insertSorted basename parent.dirs p }).insert p ⟨[], [], true⟩)
      files := by
  have hpq := dirname_ne_self hne
  have happly : ∀ r, ((dirs.insert (dirname p)
      { parent with dirs := insertSorted basename parent.dirs p }).insert p ⟨[], [], true⟩) r =
        if r = p then some ⟨[], [], true⟩
        else if r = dirname p then
          some { parent with dirs := insertSorted basename parent.dirs p }
        else dirs r := by
    intro r
    rw [insert_apply, insert_apply]
  have hsome : ∀ r, ((dirs.insert (dirname p)
      { parent with dirs := insertSorted basename parent.dirs p }).insert p
        ⟨[], [], true⟩ r).isSome ↔ r = p ∨ (dirs r).isSome := by
    intro r
    rw [happly]
    split_ifs with hrp hrq
    · simp [hrp]
    · simp [hrq, hparent]
    · simp [hrp]
  have hfree : p ∉ parent.dirs := fun hmem => by
    have := ((h.mem_dirs _ _ hparent p).1 hmem).1
    rw [hp] at this
    cases this
  -- no file and no directory is in one that was not there
  have hnofile : ∀ f, (files f).isSome → dirname f ≠ p := fun f hf heq => by
    have := h.home f hf
    rw [heq, hp] at this
    cases this
  have hnodir : ∀ c, (dirs c).isSome → c ≠ [] → dirname c ≠ p := fun c hc hcne heq => by
    have := h.parent c hc hcne
    rw [heq, hp] at this
    cases this
  refine ⟨(hsome []).2 (.inr h.root), ?_, ?_, ?_, ?_, ?_, fun f hf => (hsome _).2
    (.inr (h.home f hf)), ?_, ?_⟩
  · intro r d hd f
    rw [happly] at hd
    split_ifs at hd with hrp hrq
    · obtain rfl := some.inj hd
      refine ⟨fun hf => (not_mem_nil hf).elim, fun ⟨hf, hdir⟩ => ?_⟩
      exact absurd (hdir.trans hrp) (hnofile f hf)
    · obtain rfl := some.inj hd
      rw [hrq]
      exact h.mem_files _ _ hparent f
    · exact h.mem_files r d hd f
  · intro r d hd
    rw [happly] at hd
    split_ifs at hd with hrp hrq
    · obtain rfl := some.inj hd
      exact nodup_nil
    · obtain rfl := some.inj hd
      have hnodup := h.files_nodup _ _ hparent
      exact hnodup
    · exact h.files_nodup r d hd
  · intro r d hd c
    rw [hsome]
    rw [happly] at hd
    split_ifs at hd with hrp hrq
    · obtain rfl := some.inj hd
      refine ⟨fun hc => (not_mem_nil hc).elim, fun ⟨hc, hcne, hdir⟩ => ?_⟩
      rcases hc with rfl | hc
      · exact absurd (hdir.trans hrp) hpq
      · exact absurd (hdir.trans hrp) (hnodir c hc hcne)
    · obtain rfl := some.inj hd
      rw [mem_insertSorted, h.mem_dirs _ _ hparent c, hrq]
      constructor
      · rintro (rfl | ⟨hc, hcne, hdir⟩)
        · exact ⟨.inl rfl, hne, rfl⟩
        · exact ⟨.inr hc, hcne, hdir⟩
      · rintro ⟨rfl | hc, hcne, hdir⟩
        · exact .inl rfl
        · exact .inr ⟨hc, hcne, hdir⟩
    · rw [h.mem_dirs r d hd c]
      refine ⟨fun ⟨hc, hcne, hdir⟩ => ⟨.inr hc, hcne, hdir⟩, fun ⟨hc, hcne, hdir⟩ => ?_⟩
      rcases hc with rfl | hc
      · exact absurd hdir.symm hrq
      · exact ⟨hc, hcne, hdir⟩
  · intro r d hd
    rw [happly] at hd
    split_ifs at hd with hrp hrq
    · obtain rfl := some.inj hd
      exact nodup_nil
    · obtain rfl := some.inj hd
      exact insertSorted_nodup (h.dirs_nodup _ _ hparent) hfree
    · exact h.dirs_nodup r d hd
  · intro r d hd
    rw [happly] at hd
    split_ifs at hd with hrp hrq
    · obtain rfl := some.inj hd
      exact List.Pairwise.nil
    · obtain rfl := some.inj hd
      exact insertSorted_sorted (h.sorted _ _ hparent)
    · exact h.sorted r d hd
  · intro c hc hcne
    rw [hsome] at hc ⊢
    rcases hc with rfl | hc
    · exact .inr (by rw [hparent]; rfl)
    · exact .inr (h.parent c hc hcne)
  · intro r d hd hrne hr
    rw [happly, if_neg hr] at hd
    split_ifs at hd with hrq
    · obtain rfl := some.inj hd
      exact .inr (ne_nil_of_mem (mem_insertSorted.2 (.inl rfl)))
    · exact h.held r d hd hrne fun her => hrq (he r her)

/-- What a scene keeps of another: the files and what is going. -/
structure Scene.SameFiles (s t : Scene) : Prop where
  files : t.files = s.files
  going : t.going = s.going
  due : t.due = s.due

/-- A directory is made in its parent. -/
theorem makeDirectory_spec {s : Scene} (h : Grown e s.dirs s.files) (hup : DirtyUp s.dirs)
    (hp : s.dirs p = none) (hne : p ≠ []) (hparent : (s.dirs (dirname p)).isSome)
    (he : ∀ q, e q → q = dirname p) :
    Grown (· = p) (makeDirectory s p).dirs s.files ∧ DirtyUp (makeDirectory s p).dirs ∧
      ((makeDirectory s p).dirs p).isSome ∧ s.SameFiles (makeDirectory s p) ∧
      ∀ r, r ≠ p → ((makeDirectory s p).dirs r).isSome = (s.dirs r).isSome := by
  obtain ⟨parent, hparent⟩ := isSome_iff_exists.1 hparent
  have hgrown := h.insertDir hp hne hparent he
  have hunsettle := unsettle_spec (p := dirname p) hgrown.parent (by
      rw [insert_of_ne _ (dirname_ne_self hne), insert_self]
      rfl) fun c d hc hdirty hcne hcp => by
    have hcp' : c ≠ p := by
      rintro rfl
      exact hcp rfl
    rw [insert_of_ne _ hcp', insert_apply] at hc
    have hold : ∃ d', s.dirs (dirname c) = some d' ∧ d'.dirty = true := by
      split_ifs at hc with hcq
      · obtain rfl := some.inj hc
        exact hup c parent (hcq ▸ hparent) hdirty hcne
      · exact hup c d hc hdirty hcne
    obtain ⟨d', hd', hdirty'⟩ := hold
    refine ⟨d', ?_, hdirty'⟩
    rw [insert_of_ne _ (by rintro heq; rw [heq, hp] at hd'; cases hd'), insert_of_ne _ hcp, hd']
  obtain ⟨hsame, hup'⟩ := hunsettle
  rw [makeDirectory, hparent]
  refine ⟨hgrown.congr hsame fun _ => rfl, hup', ?_, ⟨rfl, rfl, rfl⟩, fun r hr => ?_⟩
  · rw [hsame.isSome, insert_self]
    rfl
  · rw [hsame.isSome, insert_of_ne _ hr, insert_apply]
    split_ifs with hrq
    · rw [hrq, hparent]
      rfl
    · rfl

/-- **The directory of a path is there once it is asked for, empty where it was not.** -/
theorem directoryOf_spec {s : Scene} (h : Grown (fun _ => False) s.dirs s.files)
    (hup : DirtyUp s.dirs) (p : Path) :
    Grown (· = p) (directoryOf s p).dirs s.files ∧ DirtyUp (directoryOf s p).dirs ∧
      ((directoryOf s p).dirs p).isSome ∧ s.SameFiles (directoryOf s p) ∧
      ∀ r, p.length < r.length → ((directoryOf s p).dirs r).isSome = (s.dirs r).isSome := by
  induction p using directoryOf.induct s with
  | case1 p hp =>
    rw [directoryOf, if_pos hp]
    exact ⟨h.mono fun _ => False.elim, hup, hp, ⟨rfl, rfl, rfl⟩, fun _ _ => rfl⟩
  | case2 hroot => exact absurd h.root hroot
  | case3 p hp hne ih =>
    rw [directoryOf, if_neg hp, dif_neg hne]
    obtain ⟨hgrown, hup', hparent, hfiles, hlong⟩ := ih
    have hlength := length_dirname_lt hne
    have hnone : (directoryOf s (dirname p)).dirs p = none := by
      rw [← not_isSome_iff_eq_none, hlong p hlength]
      exact hp
    rw [← hfiles.files] at hgrown
    obtain ⟨hgrown', hup'', hthere, hfiles', hother⟩ :=
      makeDirectory_spec hgrown hup' hnone hne hparent fun _ hq => hq
    rw [hfiles.files] at hgrown'
    refine ⟨hgrown', hup'', hthere, ⟨hfiles'.files.trans hfiles.files,
      hfiles'.going.trans hfiles.going, hfiles'.due.trans hfiles.due⟩, fun r hr => ?_⟩
    have hrp : r ≠ p := by
      rintro rfl
      exact lt_irrefl _ hr
    rw [hother r hrp, hlong r (hlength.trans hr)]

/-! ### Files made and removed -/

/-- A directory's files are set to those there are of it. -/
theorem Grown.setFiles (h : Grown e dirs files) {q : Path}
    (hdir : dirs q = some dir) (he : ∀ r, e r → r = q) (hl : l.Nodup)
    (hmem : ∀ f, f ∈ l ↔ (files' f).isSome ∧ dirname f = q)
    (hother : ∀ f, dirname f ≠ q → (files' f).isSome = (files f).isSome) :
    Grown (fun r => r = q ∧ l = []) (dirs.insert q { dir with files := l }) files' := by
  have hsome : ∀ r, (dirs.insert q { dir with files := l } r).isSome = (dirs r).isSome := by
    intro r
    rw [insert_apply]
    split_ifs with hr
    · rw [hr, hdir]
      rfl
    · rfl
  refine ⟨by rw [hsome]; exact h.root, ?_, ?_, ?_, ?_, ?_, ?_, ?_, ?_⟩
  · intro r d hd f
    rw [insert_apply] at hd
    split_ifs at hd with hr
    · obtain rfl := some.inj hd
      rw [hr]
      exact hmem f
    · rw [h.mem_files r d hd f]
      refine and_congr_left fun hname => ?_
      rw [hother f fun heq => hr (hname.symm.trans heq)]
  · intro r d hd
    rw [insert_apply] at hd
    split_ifs at hd with hr
    · obtain rfl := some.inj hd
      exact hl
    · exact h.files_nodup r d hd
  · intro r d hd c
    rw [hsome]
    rw [insert_apply] at hd
    split_ifs at hd with hr
    · obtain rfl := some.inj hd
      rw [hr]
      exact h.mem_dirs _ _ hdir c
    · exact h.mem_dirs r d hd c
  · intro r d hd
    rw [insert_apply] at hd
    split_ifs at hd with hr
    · obtain rfl := some.inj hd
      have hnodup := h.dirs_nodup _ _ hdir
      exact hnodup
    · exact h.dirs_nodup r d hd
  · intro r d hd
    rw [insert_apply] at hd
    split_ifs at hd with hr
    · obtain rfl := some.inj hd
      have hsorted := h.sorted _ _ hdir
      exact hsorted
    · exact h.sorted r d hd
  · intro f hf
    rw [hsome]
    by_cases hname : dirname f = q
    · rw [hname, hdir]
      rfl
    · rw [hother f hname] at hf
      exact h.home f hf
  · intro c hc hcne
    rw [hsome] at hc ⊢
    exact h.parent c hc hcne
  · intro r d hd hrne hr
    rw [insert_apply] at hd
    split_ifs at hd with hrq
    · obtain rfl := some.inj hd
      exact .inl fun hnil => hr ⟨hrq, hnil⟩
    · exact h.held r d hd hrne fun her => hrq (he r her)

theorem isSome_insert (file : File) (f : Path) :
    (files.insert p file f).isSome ↔ f = p ∨ (files f).isSome := by
  rw [insert_apply]
  split_ifs with hf
  · simp [hf]
  · simp [hf]

theorem isSome_erase (f : Path) : (files.erase p f).isSome ↔ f ≠ p ∧ (files f).isSome := by
  rw [erase_apply]
  split_ifs with hf
  · simp [hf]
  · simp [hf]

/-- A file is put in its directory. -/
theorem Grown.insertFile (h : Grown (· = dirname p) dirs files) (hp : files p = none)
    (hdir : dirs (dirname p) = some dir) (file : File) :
    Grown (fun _ => False)
      (dirs.insert (dirname p) { dir with files := dir.files ++ [p] }) (files.insert p file) := by
  have hfree : p ∉ dir.files := fun hmem => by
    have := ((h.mem_files _ _ hdir p).1 hmem).1
    rw [hp] at this
    cases this
  refine (h.setFiles hdir (fun _ hr => hr) ?_ (fun f => ?_) fun f hname => ?_).mono
    fun r hr => by simpa using hr.2
  · refine nodup_append.2 ⟨h.files_nodup _ _ hdir, nodup_singleton p, fun a ha b hb => ?_⟩
    rw [mem_singleton.1 hb]
    rintro rfl
    exact hfree ha
  · rw [mem_append, mem_singleton, h.mem_files _ _ hdir f, isSome_insert]
    constructor
    · rintro (⟨hf, hname⟩ | rfl)
      · exact ⟨.inr hf, hname⟩
      · exact ⟨.inl rfl, rfl⟩
    · rintro ⟨rfl | hf, hname⟩
      · exact .inr rfl
      · exact .inl ⟨hf, hname⟩
  · rw [insert_of_ne _ fun heq => hname (congrArg dirname heq)]

/-- A directory's lists change and its mark does not. -/
theorem DirtyUp.insert (h : DirtyUp dirs) (hdir : dirs p = some dir)
    (hd : d.dirty = dir.dirty) : DirtyUp (dirs.insert p d) := by
  intro c d' hc hdirty hne
  have hold : ∃ d₀, dirs c = some d₀ ∧ d₀.dirty = true := by
    rw [insert_apply] at hc
    split_ifs at hc with hcp
    · obtain rfl := some.inj hc
      exact ⟨dir, hcp ▸ hdir, hd ▸ hdirty⟩
    · exact ⟨d', hc, hdirty⟩
  obtain ⟨d₀, hd₀, hdirty₀⟩ := hold
  obtain ⟨d₁, hd₁, hdirty₁⟩ := h c d₀ hd₀ hdirty₀ hne
  rw [insert_apply]
  split_ifs with hq
  · rw [hq, hdir, Option.some.injEq] at hd₁
    exact ⟨d, rfl, by rw [hd, hd₁]; exact hdirty₁⟩
  · exact ⟨d₁, hd₁, hdirty₁⟩

theorem spliceOut_eq (h : p ∈ l) : spliceOut l p = l.erase p :=
  if_pos (contains_iff_mem.2 h)

/-- A file is taken out of its directory. -/
theorem Grown.eraseFile (h : Grown (fun _ => False) dirs files) (hp : (files p).isSome)
    (hdir : dirs (dirname p) = some dir) :
    Grown (· = dirname p)
      (dirs.insert (dirname p) { dir with files := spliceOut dir.files p }) (files.erase p) := by
  rw [spliceOut_eq ((h.mem_files _ _ hdir p).2 ⟨hp, rfl⟩)]
  have hnodup := h.files_nodup _ _ hdir
  refine (h.setFiles hdir (fun _ hr => hr.elim) (hnodup.erase p) (fun f => ?_)
    fun f hname => ?_).mono fun r hr => hr.1
  · rw [hnodup.mem_erase_iff, h.mem_files _ _ hdir f, isSome_erase, and_assoc]
  · rw [erase_of_ne _ fun heq => hname (congrArg dirname heq)]

/-- An empty directory is taken out of its parent. -/
theorem Grown.eraseDir (h : Grown (· = p) dirs files) (hne : p ≠ []) {parent : Directory}
    (hdir : dirs p = some dir) (hfiles : dir.files = []) (hdirs : dir.dirs = [])
    (hparent : dirs (dirname p) = some parent) :
    Grown (· = dirname p)
      ((dirs.insert (dirname p) { parent with dirs := spliceOut parent.dirs p }).erase p)
      files := by
  rw [spliceOut_eq ((h.mem_dirs _ _ hparent p).2 ⟨by rw [hdir]; rfl, hne, rfl⟩)]
  have hpq := dirname_ne_self hne
  have hnodup := h.dirs_nodup _ _ hparent
  have happly : ∀ r, ((dirs.insert (dirname p)
      { parent with dirs := parent.dirs.erase p }).erase p) r =
        if r = p then none
        else if r = dirname p then some { parent with dirs := parent.dirs.erase p }
        else dirs r := by
    intro r
    rw [erase_apply, insert_apply]
  have hsome : ∀ r, ((dirs.insert (dirname p)
      { parent with dirs := parent.dirs.erase p }).erase p r).isSome ↔ r ≠ p ∧ (dirs r).isSome := by
    intro r
    rw [happly]
    split_ifs with hrp hrq
    · simp [hrp]
    · simp [hrq, hparent, hpq]
    · simp [hrp]
  -- nothing is in the directory that goes
  have hnofile : ∀ f, (files f).isSome → dirname f ≠ p := fun f hf heq => by
    have := (h.mem_files p dir hdir f).2 ⟨hf, heq⟩
    rw [hfiles] at this
    cases this
  have hnodir : ∀ c, (dirs c).isSome → c ≠ [] → dirname c ≠ p := fun c hc hcne heq => by
    have := (h.mem_dirs p dir hdir c).2 ⟨hc, hcne, heq⟩
    rw [hdirs] at this
    cases this
  refine ⟨(hsome []).2 ⟨hne.symm, h.root⟩, ?_, ?_, ?_, ?_, ?_, fun f hf => (hsome _).2
    ⟨hnofile f hf, h.home f hf⟩, ?_, ?_⟩
  · intro r d hd f
    rw [happly] at hd
    split_ifs at hd with hrp hrq
    · obtain rfl := some.inj hd
      rw [hrq]
      exact h.mem_files _ _ hparent f
    · exact h.mem_files r d hd f
  · intro r d hd
    rw [happly] at hd
    split_ifs at hd with hrp hrq
    · obtain rfl := some.inj hd
      have hnodup' := h.files_nodup _ _ hparent
      exact hnodup'
    · exact h.files_nodup r d hd
  · intro r d hd c
    rw [hsome]
    rw [happly] at hd
    split_ifs at hd with hrp hrq
    · obtain rfl := some.inj hd
      rw [hnodup.mem_erase_iff, h.mem_dirs _ _ hparent c, hrq, and_assoc]
    · rw [h.mem_dirs r d hd c]
      constructor
      · rintro ⟨hc, hcne, hname⟩
        refine ⟨⟨?_, hc⟩, hcne, hname⟩
        rintro rfl
        exact hrq hname.symm
      · rintro ⟨⟨-, hc⟩, hcne, hname⟩
        exact ⟨hc, hcne, hname⟩
  · intro r d hd
    rw [happly] at hd
    split_ifs at hd with hrp hrq
    · obtain rfl := some.inj hd
      exact hnodup.erase p
    · exact h.dirs_nodup r d hd
  · intro r d hd
    rw [happly] at hd
    split_ifs at hd with hrp hrq
    · obtain rfl := some.inj hd
      exact (h.sorted _ _ hparent).sublist erase_sublist
    · exact h.sorted r d hd
  · intro c hc hcne
    rw [hsome] at hc ⊢
    exact ⟨hnodir c hc.2 hcne, h.parent c hc.2 hcne⟩
  · intro r d hd hrne hr
    rw [happly] at hd
    split_ifs at hd with hrp
    exact h.held r d hd hrne hrp

/-- Taking out a directory with nothing in it leaves no mark without one above. -/
theorem DirtyUp.eraseDir (h : DirtyUp dirs) (hnodir : ∀ c, (dirs c).isSome → c ≠ [] →
    dirname c ≠ p) : DirtyUp (dirs.erase p) := by
  intro c d hc hdirty hne
  rw [erase_apply] at hc
  split_ifs at hc with hcp
  obtain ⟨d', hd', hdirty'⟩ := h c d hc hdirty hne
  refine ⟨d', ?_, hdirty'⟩
  rw [erase_of_ne _ (hnodir c (by rw [hc]; rfl) hne)]
  exact hd'

/-- **Pruning leaves no directory empty but the root.** -/
theorem prune_spec (h : Grown (· = p) dirs files) (hup : DirtyUp dirs) :
    Grown (fun _ => False) (prune dirs p).1 files ∧ DirtyUp (prune dirs p).1 ∧
      ((dirs p).isSome → ((prune dirs p).1 (prune dirs p).2).isSome) := by
  induction dirs, p using prune.induct with
  | case1 dirs p hnone =>
    rw [prune]
    simp only [hnone]
    refine ⟨{ h with held := fun r d hd hrne _ => h.held r d hd hrne ?_ }, hup, id⟩
    rintro rfl
    rw [hnone] at hd
    cases hd
  | case2 dirs p dir hdir hempty hnone =>
    have := h.parent p (by rw [hdir]; rfl) hempty.1
    rw [hnone] at this
    cases this
  | case3 dirs p dir hdir hempty parent hparent ih =>
    obtain ⟨hne, hfiles, hdirs⟩ := hempty
    rw [prune]
    simp only [hdir, dif_pos (show p ≠ [] ∧ dir.files = [] ∧ dir.dirs = [] from
      ⟨hne, hfiles, hdirs⟩), hparent]
    refine (ih (h.eraseDir hne hdir hfiles hdirs hparent) ?_).imp_right
      (And.imp_right fun hleft _ => hleft ?_)
    swap
    · rw [erase_of_ne _ (dirname_ne_self hne), insert_self]
      rfl
    refine DirtyUp.eraseDir (hup.insert hparent rfl) fun c hc hcne heq => ?_
    have hc' : (dirs c).isSome := by
      rw [insert_apply] at hc
      split_ifs at hc with hcq
      · rw [hcq, hparent]
        rfl
      · exact hc
    have := (h.mem_dirs p dir hdir c).2 ⟨hc', hcne, heq⟩
    rw [hdirs] at this
    cases this
  | case4 dirs p dir hdir hkept =>
    rw [prune]
    simp only [hdir, dif_neg hkept]
    refine ⟨{ h with held := fun r d hd hrne _ => ?_ }, hup, id⟩
    rcases eq_or_ne r p with rfl | hr
    · rw [hdir, Option.some.injEq] at hd
      subst hd
      by_contra hno
      push Not at hno
      exact hkept ⟨hrne, hno.1, hno.2⟩
    · exact h.held r d hd hrne hr

/-! ### Scenes -/

/-- What holds of every scene. -/
structure Scene.Tree (s : Scene) : Prop where
  grown : Grown (fun _ => False) s.dirs s.files
  dirty : DirtyUp s.dirs
  going_nodup : s.going.Nodup
  mem_going : ∀ p, p ∈ s.going ↔ ((s.files p).bind File.removed).isSome

theorem createScene_tree : createScene.Tree where
  grown := by
    have hroot : ∀ r d, createScene.dirs r = some d → r = [] ∧ d = ⟨[], [], true⟩ := by
      intro r d hd
      rw [createScene, insert_apply] at hd
      split_ifs at hd with hr
      · exact ⟨hr, (some.inj hd).symm⟩
      · cases hd
    have hone : ∀ c, (createScene.dirs c).isSome → c = [] := fun c hc => by
      obtain ⟨d, hd⟩ := isSome_iff_exists.1 hc
      exact (hroot c d hd).1
    refine ⟨rfl, ?_, ?_, ?_, ?_, ?_, fun f hf => (by cases hf), fun c hc hne =>
      absurd (hone c hc) hne, fun r d hd hne => absurd (hroot r d hd).1 hne⟩
    · intro r d hd f
      rw [(hroot r d hd).2]
      exact ⟨fun hf => (not_mem_nil hf).elim, fun hf => by cases hf.1⟩
    · intro r d hd
      rw [(hroot r d hd).2]
      exact nodup_nil
    · intro r d hd c
      rw [(hroot r d hd).2]
      exact ⟨fun hc => (not_mem_nil hc).elim, fun hc => absurd (hone c hc.1) hc.2.1⟩
    · intro r d hd
      rw [(hroot r d hd).2]
      exact nodup_nil
    · intro r d hd
      rw [(hroot r d hd).2]
      exact List.Pairwise.nil
  dirty c d hd _ hne := by
    rw [createScene, insert_of_ne _ hne] at hd
    cases hd
  going_nodup := nodup_nil
  mem_going p := ⟨fun hp => (not_mem_nil hp).elim, fun hp => by cases hp⟩

variable {s : Scene}

/-- A file that is not there is made in its directory. -/
theorem makeFile_spec (h : s.Tree) (hp : s.files p = none) :
    (makeFile s p).Tree ∧ (makeFile s p).files = s.files.insert p ⟨none⟩ ∧
      (makeFile s p).going = s.going ∧ (makeFile s p).due = s.due := by
  obtain ⟨hgrown, hup, hthere, hsame, -⟩ := directoryOf_spec h.grown h.dirty (dirname p)
  obtain ⟨dir, hdir⟩ := isSome_iff_exists.1 hthere
  have hgrown' := hgrown.insertFile hp hdir ⟨none⟩
  have hup' : DirtyUp ((directoryOf s (dirname p)).dirs.insert (dirname p)
      { dir with files := dir.files ++ [p] }) := hup.insert hdir rfl
  obtain ⟨hsameTree, hup''⟩ := unsettle_spec (p := dirname p) hgrown'.parent
    (by rw [insert_self]; rfl) fun c d hc hdirty hne _ => hup' c d hc hdirty hne
  have hfiles : (makeFile s p).files = s.files.insert p ⟨none⟩ := by
    rw [makeFile, hdir]
    simp only [hsame.files]
  have hgoing : (makeFile s p).going = s.going := by
    rw [makeFile, hdir]
    exact hsame.going
  refine ⟨⟨?_, ?_, ?_, fun q => ?_⟩, hfiles, hgoing, ?_⟩
  · rw [hfiles, makeFile, hdir]
    exact hgrown'.congr hsameTree fun _ => rfl
  · rw [makeFile, hdir]
    exact hup''
  · rw [hgoing]
    exact h.going_nodup
  · rw [hgoing, hfiles, h.mem_going, insert_apply]
    split_ifs with hq
    · simp [hq, hp]
    · rfl
  · rw [makeFile, hdir]
    exact hsame.due

/-- What a change makes of a file. -/
def changed (old : Option File) (kind : Kind) (time : Instant) : Option File :=
  if kind = .D then old.map fun file => ⟨some (file.removed.getD time)⟩ else some ⟨none⟩

theorem mem_addGoing {q : Path} : q ∈ addGoing going p ↔ q ∈ going ∨ q = p := by
  rw [addGoing]
  split_ifs with hmem
  · refine ⟨.inl, ?_⟩
    rintro (hq | rfl)
    · exact hq
    · exact contains_iff_mem.1 hmem
  · rw [mem_append, mem_singleton]

theorem addGoing_nodup (h : going.Nodup) : (addGoing going p).Nodup := by
  rw [addGoing]
  split_ifs with hmem
  · exact h
  · refine nodup_append.2 ⟨h, nodup_singleton p, fun a ha b hb => ?_⟩
    rw [mem_singleton.1 hb]
    rintro rfl
    exact hmem (contains_iff_mem.2 ha)

/-- A file there is changed. -/
theorem markFile_spec (h : s.Tree) (hp : (s.files p).isSome) (kind : Kind) (time : Instant) :
    (markFile s p kind time).Tree ∧ (markFile s p kind time).due = s.due ∧
      ∀ q, (markFile s p kind time).files q =
        if q = p then changed (s.files p) kind time else s.files q := by
  obtain ⟨file, hfile⟩ := isSome_iff_exists.1 hp
  have hsome : ∀ (file' : File) f, (s.files.insert p file' f).isSome = (s.files f).isSome := by
    intro file' f
    rw [Bool.eq_iff_iff, isSome_insert]
    refine ⟨?_, .inr⟩
    rintro (rfl | hf)
    · exact hp
    · exact hf
  rw [markFile, hfile]
  simp only
  split_ifs with hkind
  · refine ⟨⟨h.grown.congr (.refl _) (hsome _), h.dirty, addGoing_nodup h.going_nodup,
      fun q => ?_⟩, rfl, fun q => ?_⟩
    · simp only [mem_addGoing, h.mem_going, insert_apply]
      split_ifs with hq
      · simp [hq]
      · simp [hq]
    · rw [insert_apply, changed, if_pos hkind]
      rfl
  · refine ⟨⟨h.grown.congr (.refl _) (hsome _), h.dirty, h.going_nodup.erase p, fun q => ?_⟩, rfl,
      fun q => ?_⟩
    · simp only [h.going_nodup.mem_erase_iff, h.mem_going, insert_apply]
      split_ifs with hq
      · simp [hq]
      · simp [hq]
    · rw [insert_apply, changed, if_neg hkind]

/-- **A change keeps the tree and makes of the file what it says.** -/
theorem changeFile_spec (h : s.Tree) (p : Path) (kind : Kind) (time : Instant) :
    (changeFile s p kind time).Tree ∧ (changeFile s p kind time).due = s.due ∧
      ∀ q, (changeFile s p kind time).files q =
        if q = p then changed (s.files p) kind time else s.files q := by
  rw [changeFile]
  split_ifs with hp hkind
  · exact markFile_spec h hp kind time
  · refine ⟨h, rfl, fun q => ?_⟩
    rw [not_isSome_iff_eq_none] at hp
    split_ifs with hq
    · rw [hq, hp, changed, if_pos hkind]
      rfl
    · rfl
  · rw [not_isSome_iff_eq_none] at hp
    obtain ⟨htree, hfiles, -, hdue⟩ := makeFile_spec h hp
    obtain ⟨htree', hdue', hfiles'⟩ := markFile_spec htree
      (by rw [hfiles, insert_self]; rfl) kind time
    refine ⟨htree', hdue'.trans hdue, fun q => ?_⟩
    rw [hfiles', hfiles, insert_self]
    split_ifs with hq
    · rw [changed, changed, if_neg hkind, if_neg hkind]
    · rw [insert_of_ne _ hq]

/-- **A removal keeps the tree and takes the file out.** -/
theorem removeFile_spec (h : s.Tree) (hp : (s.files p).isSome) :
    (removeFile s p).Tree ∧ (removeFile s p).files = s.files.erase p ∧
      (removeFile s p).going = s.going.erase p ∧ (removeFile s p).due = s.due := by
  obtain ⟨dir, hdir⟩ := isSome_iff_exists.1 (h.grown.home p hp)
  obtain ⟨hgrown, hup, hleft⟩ := prune_spec (h.grown.eraseFile hp hdir) (h.dirty.insert hdir rfl)
  obtain ⟨hsame, hup'⟩ := unsettle_spec hgrown.parent
    (hleft (by rw [insert_self]; rfl)) fun c d hc hdirty hne _ => hup c d hc hdirty hne
  rw [removeFile, hdir]
  refine ⟨⟨hgrown.congr hsame fun _ => rfl, hup', h.going_nodup.erase p, fun q => ?_⟩, rfl, rfl,
    rfl⟩
  simp only [h.going_nodup.mem_erase_iff, h.mem_going, erase_apply]
  split_ifs with hq
  · simp [hq]
  · simp [hq]

end Triage.Replay
