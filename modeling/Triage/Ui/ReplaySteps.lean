import Triage.Ui.ReplayTree
import Mathlib.Tactic.Linarith

/-!
# The steps of a replay

What each step makes of the files that are not going, and that every scene reached is a tree.

## Main results

* `measure_spec` : laying out takes the marks of a directory and of all under it.
* `tree_of_reachable` : every scene reached is a tree.
* `sweep_spec`, `makeDue_held`, `settleCommit_spec` : what the steps make of the files.
-/

namespace Triage.Replay

open List Option Scene

variable {e : Path → Prop} {dirs dirs' dirs'' : FMap Path Directory} {files : FMap Path File}
  {p q : Path} {s : Scene}

/-! ### Laying out -/

/-- A path is under another, or is it. -/
inductive Below (top : Path) : Path → Prop
  | refl : Below top top
  | step {q : Path} : q ≠ [] → Below top (dirname q) → Below top q

theorem Below.length_le (h : Below p q) : p.length ≤ q.length := by
  induction h with
  | refl => exact le_rfl
  | step hne _ ih => exact ih.trans (length_dirname_lt hne).le

theorem Below.trans {r : Path} (h : Below p q) (h' : Below q r) : Below p r := by
  induction h' with
  | refl => exact h
  | step hne _ ih => exact .step hne ih

theorem below_root (q : Path) : Below [] q := by
  induction hn : q.length using Nat.strong_induction_on generalizing q with
  | h n ih =>
    rcases eq_or_ne q [] with rfl | hne
    · exact .refl
    · exact .step hne (ih _ (hn ▸ length_dirname_lt hne) _ rfl)

/-- What is marked under a directory marks it. -/
theorem DirtyUp.of_below (h : DirtyUp dirs) (hq : Below p q) {d : Directory}
    (hd : dirs q = some d) (hdirty : d.dirty = true) :
    ∃ d', dirs p = some d' ∧ d'.dirty = true := by
  induction hq generalizing d with
  | refl => exact ⟨d, hd, hdirty⟩
  | step hne _ ih =>
    obtain ⟨d', hd', hdirty'⟩ := h _ d hd hdirty hne
    exact ih hd' hdirty'

/-- A directory laid out. -/
def clean (d : Directory) : Directory := { d with dirty := false }

/-- The marks of some directories have been taken. -/
def CleanUnder (P : Path → Prop) (dirs dirs' : FMap Path Directory) : Prop :=
  ∀ q, (P q → dirs' q = (dirs q).map clean) ∧ (¬ P q → dirs' q = dirs q)

variable {P Q : Path → Prop}

section

variable (h : CleanUnder P dirs dirs')
include h

theorem CleanUnder.sameTree : SameTree dirs dirs' := by
  intro q
  by_cases hq : P q
  · rw [(h q).1 hq, Option.map_map]
    rfl
  · rw [(h q).2 hq]

theorem CleanUnder.dirtyUp (hup : DirtyUp dirs)
    (hP : ∀ c, c ≠ [] → P (dirname c) → P c) : DirtyUp dirs' := by
  intro c d hc hdirty hne
  by_cases hPc : P c
  · rw [(h c).1 hPc, map_eq_some_iff] at hc
    obtain ⟨d₀, -, rfl⟩ := hc
    cases hdirty
  · rw [(h c).2 hPc] at hc
    obtain ⟨d', hd', hdirty'⟩ := hup c d hc hdirty hne
    exact ⟨d', by rw [(h _).2 fun hp => hPc (hP c hne hp)]; exact hd', hdirty'⟩

theorem CleanUnder.trans (h' : CleanUnder Q dirs' dirs'') :
    CleanUnder (fun q => P q ∨ Q q) dirs dirs'' := by
  intro q
  by_cases hP : P q
  · refine ⟨fun _ => ?_, fun hno => absurd (.inl hP) hno⟩
    by_cases hQ : Q q
    · rw [(h' q).1 hQ, (h q).1 hP, Option.map_map]
      rfl
    · rw [(h' q).2 hQ, (h q).1 hP]
  · refine ⟨fun hPQ => ?_, fun hno => ?_⟩
    · rw [(h' q).1 (hPQ.resolve_left hP), (h q).2 hP]
    · rw [(h' q).2 fun hQ => hno (.inr hQ), (h q).2 hP]

end

/-- Directories measured one after another. -/
theorem foldl_measure {fuel : ℕ} (hm : ∀ dirs, Grown e dirs files → DirtyUp dirs → ∀ c,
      (∀ q, (dirs q).isSome → Below c q → q.length < c.length + fuel) →
        CleanUnder (Below c) dirs (measure fuel dirs c))
    (hgrown : Grown e dirs files) (hup : DirtyUp dirs) {cs : List Path}
    (hfuel : ∀ c ∈ cs, ∀ q, (dirs q).isSome → Below c q → q.length < c.length + fuel) :
    CleanUnder (fun q => ∃ c ∈ cs, Below c q) dirs (cs.foldl (measure fuel) dirs) := by
  induction cs generalizing dirs with
  | nil => exact fun q => ⟨fun ⟨c, hc, _⟩ => (not_mem_nil hc).elim, fun _ => rfl⟩
  | cons c cs ih =>
    have hc := hm dirs hgrown hup c (hfuel c mem_cons_self)
    have hsame := hc.sameTree
    have hcs := ih (hgrown.congr hsame fun _ => rfl)
      (hc.dirtyUp hup fun x hne hx => .step hne hx) fun c' hc' q hq => by
        rw [hsame.isSome] at hq
        exact hfuel c' (mem_cons_of_mem _ hc') q hq
    have htrans := hc.trans hcs
    intro q
    have hiff : (∃ c' ∈ c :: cs, Below c' q) ↔ Below c q ∨ ∃ c' ∈ cs, Below c' q := by simp
    exact ⟨fun h => (htrans q).1 (hiff.1 h), fun h => (htrans q).2 fun h' => h (hiff.2 h')⟩

/-- A directory there that is under another is under one of its own. -/
theorem Grown.below_child (h : Grown e dirs files) {d : Directory} (hd : dirs p = some d)
    (hq : Below p q) (hne : q ≠ p) (hthere : (dirs q).isSome) : ∃ c ∈ d.dirs, Below c q := by
  induction hq with
  | refl => exact absurd rfl hne
  | @step q hqne hbelow ih =>
    by_cases hname : dirname q = p
    · exact ⟨q, (h.mem_dirs p d hd q).2 ⟨hthere, hqne, hname⟩, .refl⟩
    · obtain ⟨c, hc, hcq⟩ := ih hname (h.parent q hthere hqne)
      exact ⟨c, hc, .step hqne hcq⟩

/-- **Measuring a directory takes the marks of all under it.** -/
theorem measure_spec {fuel : ℕ} (hgrown : Grown e dirs files) (hup : DirtyUp dirs)
    (hfuel : ∀ q, (dirs q).isSome → Below p q → q.length < p.length + fuel) :
    CleanUnder (Below p) dirs (measure fuel dirs p) := by
  induction fuel generalizing dirs p with
  | zero =>
    refine fun q => ⟨fun hq => ?_, fun _ => rfl⟩
    cases hd : dirs q with
    | none => exact hd
    | some d =>
      have := hfuel q (by rw [hd]; rfl) hq
      have := hq.length_le
      omega
  | succ fuel ih =>
    rw [measure]
    cases hd : dirs p with
    | none =>
      refine fun q => ⟨fun hq => ?_, fun _ => rfl⟩
      have hnone : dirs q = none := by
        induction hq with
        | refl => exact hd
        | @step q hne _ ih' =>
          by_contra hsome
          have := hgrown.parent q (isSome_iff_ne_none.2 hsome) hne
          rw [ih'] at this
          cases this
      simp only [hnone, map_none]
    | some d =>
      simp only
      split_ifs with hdirty
      · have hchild : ∀ c ∈ d.dirs, c ≠ [] ∧ dirname c = p := fun c hc =>
          ((hgrown.mem_dirs p d hd c).1 hc).2
        have hbelow : ∀ c ∈ d.dirs, Below p c := fun c hc =>
          .step (hchild c hc).1 ((hchild c hc).2 ▸ .refl)
        have hfold : CleanUnder (fun q => ∃ c ∈ d.dirs, Below c q) dirs
            (d.dirs.foldl (measure fuel) dirs) :=
          foldl_measure (fun _ hg hu c hf => ih hg hu hf) hgrown hup fun c hc q hq hcq => by
            have := hfuel q hq ((hbelow c hc).trans hcq)
            have := length_dirname_lt (hchild c hc).1
            rw [(hchild c hc).2] at this
            omega
        -- a directory is under none of its own
        have hself : ¬ ∃ c ∈ d.dirs, Below c p := by
          rintro ⟨c, hc, hcp⟩
          have := hcp.length_le
          have := length_dirname_lt (hchild c hc).1
          rw [(hchild c hc).2] at this
          omega
        rw [(hfold p).2 hself, hd]
        simp only
        intro q
        rw [FMap.insert_apply]
        split_ifs with hqp
        · rw [hqp]
          exact ⟨fun _ => by rw [hd]; rfl, fun hno => absurd .refl hno⟩
        · refine ⟨fun hq => ?_, fun hq => ?_⟩
          · by_cases hthere : (dirs q).isSome
            · exact (hfold q).1 (hgrown.below_child hd hq hqp hthere)
            · rw [not_isSome_iff_eq_none] at hthere
              rw [hfold.sameTree.none hthere, hthere, map_none]
          · exact (hfold q).2 fun ⟨c, hc, hcq⟩ => hq ((hbelow c hc).trans hcq)
      · refine fun q => ⟨fun hq => ?_, fun _ => rfl⟩
        cases hdq : dirs q with
        | none => simp
        | some d' =>
          have hclean : d'.dirty = false := by
            rw [Bool.eq_false_iff]
            intro hdirty'
            obtain ⟨d₀, hd₀, hdirty₀⟩ := hup.of_below hq hdq hdirty'
            rw [hd, Option.some.injEq] at hd₀
            exact hdirty (hd₀ ▸ hdirty₀)
          rw [map_some, clean, ← hclean]

/-- A scene laid out has no marks. -/
theorem layoutScene_spec (h : s.Tree) :
    (layoutScene s).Tree ∧ ∀ q, (layoutScene s).dirs q = (s.dirs q).map clean := by
  have hspec : CleanUnder (Below []) s.dirs
      (measure (s.dirs.keys.sup List.length + 1) s.dirs []) :=
    measure_spec h.grown h.dirty fun q hq _ => by
      have := Finset.le_sup (f := List.length) ((s.dirs.mem_keys q).2 hq)
      simp only [length_nil]
      omega
  refine ⟨⟨h.grown.congr hspec.sameTree fun _ => rfl,
    hspec.dirtyUp h.dirty fun c hne hc => .step hne hc, h.going_nodup, h.mem_going⟩,
    fun q => (hspec q).1 (below_root q)⟩

/-! ### The files that are not going -/

/-- The files that are not going. -/
def Scene.held (s : Scene) : Set Path := {p | s.files p = some ⟨none⟩}

/-- What a change makes of the files. -/
def applyChange (held : Set Path) (change : Path × Kind) : Set Path :=
  if change.2 = .D then held \ {change.1} else insert change.1 held

theorem changeFile_held (h : s.Tree) (p : Path) (kind : Kind) (time : Instant) :
    (changeFile s p kind time).held = applyChange s.held (p, kind) := by
  have hfiles := (changeFile_spec h p kind time).2.2
  ext q
  rw [held, Set.mem_ofPred_eq, hfiles q, applyChange, changed]
  by_cases hkind : kind = .D
  · simp only [hkind, if_true, Set.mem_sdiff, Set.mem_singleton_iff]
    split_ifs with hq
    · simp [hq]
    · simp [hq, held]
  · simp only [hkind, if_false, Set.mem_insert_iff]
    split_ifs with hq
    · simp [hq]
    · simp [hq, held]

/-- A file that is going is not among them. -/
theorem removeFile_held (h : s.Tree) (hp : ((s.files p).bind File.removed).isSome) :
    (removeFile s p).held = s.held := by
  have hthere : (s.files p).isSome := by
    cases hfile : s.files p with
    | none =>
      rw [hfile] at hp
      cases hp
    | some file => rfl
  ext q
  rw [held, Set.mem_ofPred_eq, (removeFile_spec h hthere).2.1, FMap.erase_apply]
  split_ifs with hq
  · rw [hq]
    refine ⟨fun hf => (by cases hf), fun hf => ?_⟩
    rw [held, Set.mem_ofPred_eq] at hf
    rw [hf] at hp
    cases hp
  · rfl

/-! ### Time -/

/-- Whether a file is gone by `now`. -/
def goneBy (s : Scene) (now : ℚ) (p : Path) : Bool :=
  ((s.files p).bind File.removed).any fun removed => removed.gone now

section

variable (h : s.Tree)
include h

theorem sweepFile_spec (now : ℚ) (p : Path) :
    (sweepFile now s p).Tree ∧ (sweepFile now s p).due = s.due ∧
      ∀ q, (sweepFile now s p).files q =
        if q = p ∧ goneBy s now p = true then none else s.files q := by
  rw [sweepFile]
  cases hremoved : (s.files p).bind File.removed with
  | none => exact ⟨h, rfl, fun q => by simp [goneBy, hremoved]⟩
  | some removed =>
    simp only
    split_ifs with hgone
    · have hthere : (s.files p).isSome := by
        obtain ⟨file, hfile, -⟩ := bind_eq_some_iff.1 hremoved
        rw [hfile]
        rfl
      obtain ⟨htree, hfiles, -, hdue⟩ := removeFile_spec h hthere
      refine ⟨htree, hdue, fun q => ?_⟩
      rw [hfiles, FMap.erase_apply]
      simp [goneBy, hremoved, hgone]
    · exact ⟨h, rfl, fun q => by simp [goneBy, hremoved, hgone]⟩

/-- **What is going long enough is removed, and nothing else.** -/
theorem sweep_spec (now : ℚ) (l : List Path) :
    (l.foldl (sweepFile now) s).Tree ∧ (l.foldl (sweepFile now) s).due = s.due ∧
      ∀ q, (l.foldl (sweepFile now) s).files q =
        if q ∈ l ∧ goneBy s now q = true then none else s.files q := by
  induction l generalizing s with
  | nil => exact ⟨h, rfl, fun q => by simp⟩
  | cons p l ih =>
    obtain ⟨htree, hdue, hfiles⟩ := sweepFile_spec h now p
    obtain ⟨htree', hdue', hfiles'⟩ := ih htree
    refine ⟨htree', hdue'.trans hdue, fun q => ?_⟩
    simp only [foldl_cons, hfiles', mem_cons]
    have hgone : goneBy (sweepFile now s p) now q =
        (goneBy s now q && decide (q ≠ p)) := by
      rw [goneBy, hfiles q]
      rcases eq_or_ne q p with rfl | hq
      · by_cases hg : goneBy s now q = true
        · simp [hg]
        · simp only [hg, ne_eq, not_true_eq_false, decide_false, Bool.and_false]
          exact Bool.eq_false_iff.2 hg
      · simp [hq, goneBy]
    rw [hgone, hfiles q]
    by_cases hq : q = p
    · by_cases hg : goneBy s now p = true
      · simp [hq, hg]
      · simp [hq, hg]
    · simp [hq]

theorem sweep_held (now : ℚ) (l : List Path) : (l.foldl (sweepFile now) s).held = s.held := by
  ext q
  rw [held, Set.mem_ofPred_eq, (sweep_spec h now l).2.2 q]
  split_ifs with hq
  · refine ⟨fun hf => (by cases hf), fun hf => ?_⟩
    rw [held, Set.mem_ofPred_eq] at hf
    have hgone := hq.2
    rw [goneBy, hf] at hgone
    cases hgone
  · rfl

/-- Changes made one after another. -/
theorem foldl_changeFile (l : List Due) :
    (l.foldl (fun s due => changeFile s due.path due.kind (.time due.time)) s).Tree ∧
      (l.foldl (fun s due => changeFile s due.path due.kind (.time due.time)) s).due = s.due ∧
      (l.foldl (fun s due => changeFile s due.path due.kind (.time due.time)) s).held =
        (l.map fun due => (due.path, due.kind)).foldl applyChange s.held := by
  induction l generalizing s with
  | nil => exact ⟨h, rfl, rfl⟩
  | cons due l ih =>
    obtain ⟨htree, hdue, -⟩ := changeFile_spec h due.path due.kind (.time due.time)
    obtain ⟨htree', hdue', hheld⟩ := ih htree
    refine ⟨htree', hdue'.trans hdue, ?_⟩
    rw [foldl_cons, hheld, changeFile_held h, map_cons, foldl_cons]

theorem Scene.Tree.withDue (due : List Due) : Scene.Tree { s with due := due } :=
  ⟨h.grown, h.dirty, h.going_nodup, h.mem_going⟩

theorem makeDue_tree (now : ℚ) : (makeDue s now).Tree :=
  (foldl_changeFile (h.withDue _) _).1

theorem advanceScene_tree (now : ℚ) : (advanceScene s now).Tree :=
  (sweep_spec (makeDue_tree h now) now _).1

end

/-- No file is going. -/
def Scene.Still (s : Scene) : Prop := ∀ p, (s.files p).bind File.removed = none

/-- One change settled. -/
def settleChange (s : Scene) (change : Path × Kind) : Scene :=
  let changed := changeFile s change.1 change.2 .ever
  if change.2 = .D ∧ (s.files change.1).isSome then removeFile changed change.1 else changed

/-- A change settled keeps the tree, and leaves no file going where none was. -/
theorem settleChange_spec (h : s.Tree) (change : Path × Kind) :
    (settleChange s change).Tree ∧ (settleChange s change).due = s.due ∧
      (settleChange s change).held = applyChange s.held change ∧
      (s.Still → (settleChange s change).Still) := by
  obtain ⟨htree, hdue, hfiles⟩ := changeFile_spec h change.1 change.2 .ever
  have hheld := changeFile_held h change.1 change.2 .ever
  rw [settleChange]
  split_ifs with hd
  · obtain ⟨hkind, hthere⟩ := hd
    obtain ⟨file, hfile⟩ := isSome_iff_exists.1 hthere
    have hnow : (changeFile s change.1 change.2 .ever).files change.1 =
        some ⟨some (file.removed.getD .ever)⟩ := by
      rw [hfiles, if_pos rfl, changed, if_pos hkind, hfile]
      rfl
    obtain ⟨htree', hfiles', -, hdue'⟩ := removeFile_spec htree (p := change.1) (by rw [hnow]; rfl)
    refine ⟨htree', hdue'.trans hdue, ?_, fun hstill q => ?_⟩
    · rw [removeFile_held htree (by rw [hnow]; rfl), hheld]
    · rw [hfiles', FMap.erase_apply]
      split_ifs with hq
      · rfl
      · rw [hfiles, if_neg hq]
        exact hstill q
  · refine ⟨htree, hdue, hheld, fun hstill q => ?_⟩
    rw [hfiles]
    split_ifs with hq
    · rw [changed]
      split_ifs with hkind
      · have hnone : s.files change.1 = none := by
          rw [← not_isSome_iff_eq_none]
          exact fun hthere => hd ⟨hkind, hthere⟩
        rw [hnone]
        rfl
      · rfl
    · exact hstill q

/-- **A commit settled makes its changes.** -/
theorem settleCommit_spec (h : s.Tree) (files : List FileStatus) :
    (settleCommit s files).Tree ∧ (settleCommit s files).due = s.due ∧
      (settleCommit s files).held = (fileChanges files).foldl applyChange s.held ∧
      (s.Still → (settleCommit s files).Still) := by
  have hfold : ∀ l : List (Path × Kind), ∀ s : Scene, s.Tree →
      (l.foldl settleChange s).Tree ∧ (l.foldl settleChange s).due = s.due ∧
        (l.foldl settleChange s).held = l.foldl applyChange s.held ∧
        (s.Still → (l.foldl settleChange s).Still) := by
    intro l
    induction l with
    | nil => exact fun s h => ⟨h, rfl, rfl, id⟩
    | cons change l ih =>
      intro s h
      obtain ⟨htree, hdue, hheld, hstill⟩ := settleChange_spec h change
      obtain ⟨htree', hdue', hheld', hstill'⟩ := ih _ htree
      refine ⟨htree', hdue'.trans hdue, ?_, fun hs => hstill' (hstill hs)⟩
      rw [foldl_cons, hheld', hheld, foldl_cons]
  exact hfold (fileChanges files) s h

/-- **Every scene reached is a tree.** -/
theorem tree_of_reachable (h : Reachable s) : s.Tree := by
  obtain ⟨steps, rfl⟩ := h
  suffices hfold : ∀ t : Scene, t.Tree → (steps.foldl apply t).Tree from
    hfold createScene createScene_tree
  induction steps with
  | nil => exact fun _ => id
  | cons step steps ih =>
    intro t ht
    refine ih _ ?_
    cases step with
    | play files time span => exact ht.withDue _
    | settle files => exact (settleCommit_spec ht files).1
    | advance now => exact advanceScene_tree ht now
    | layout => exact (layoutScene_spec ht).1

end Triage.Replay
