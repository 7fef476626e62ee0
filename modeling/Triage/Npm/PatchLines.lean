import Triage.Npm.GitDiff

/-!
# A patch applied to a text's lines

The hunks that git shows of a change, applied to the text before, give the text after: each is
found where its header says, and the lines that those before it added and removed have moved the
rest by as many as the reader counts.

A text with an ending after its last line is split into its lines and an empty one. What a hunk
says of an ending that is missing takes that line away or puts it back, and the order in which git
writes a change's lines makes each happen where it is the last line.

## Main results

* `splitLines_sideText` : the lines of a side's text.
* `foldl_applyChange` : the changes found in a text's parts make what is after of what was before.
* `applied_before` : **the hunks of a change applied to the text before give the text after.**
-/

namespace Triage.NpmPatch

open List

/-! ### The lines of a text -/

/-- The empty line past the last ending, if the last line has one. -/
def tail (side : List HunkPart) : List Text := if side.any (·.unended) then [] else [[]]

theorem ended_append (a b : List Text) : ended (a ++ b) = ended a ++ ended b :=
  flatMap_append

theorem splitLines_ended {lines : List Text} (h : ∀ line ∈ lines, '\n' ∉ line) (text : Text) :
    splitLines (ended lines ++ text) = lines ++ splitLines text := by
  induction lines with
  | nil => rfl
  | cons line lines ih =>
    have hline : ended (line :: lines) ++ text = line ++ '\n' :: (ended lines ++ text) := by
      simp [ended]
    rw [hline, splitLines, splitOn_append_cons_self_of_not_mem (h line mem_cons_self), cons_append]
    exact congrArg _ (ih fun l hl => h l (mem_cons_of_mem _ hl))

variable {side : List HunkPart}

theorem IsSide.tail {part : HunkPart} (h : IsSide (part :: side)) : IsSide side :=
  ⟨h.ended.of_cons, fun p hp => h.last p (mem_cons_of_mem _ hp)⟩

/-- What is unended ends its side. -/
theorem IsSide.eq_nil {part : HunkPart} (h : IsSide (part :: side))
    (hend : part.unended = true) : side = [] := by
  cases side with
  | nil => rfl
  | cons next side =>
    have hfalse := rel_of_pairwise_cons h.ended mem_cons_self
    rw [hend] at hfalse
    cases hfalse

theorem ended_dropLast {lines : List Text} (h : lines ≠ []) :
    (ended lines).dropLast = ended lines.dropLast ++ lines.getLast h := by
  conv_lhs => rw [← dropLast_append_getLast h, ended_append]
  have hlast : ended [lines.getLast h] = lines.getLast h ++ ['\n'] := by simp [ended]
  rw [hlast, ← append_assoc, dropLast_concat]

/-- **The lines of a side's text** are those of its parts, and an empty one if the last is
ended. -/
theorem splitLines_sideText (hside : IsSide side)
    (hlines : ∀ part ∈ side, part.lines ≠ [] ∧ ∀ line ∈ part.lines, '\n' ∉ line) :
    splitLines (sideText side) = sideLines side ++ tail side := by
  induction side with
  | nil => simp [splitLines, sideText, sideLines, tail]
  | cons part side ih =>
    obtain ⟨hne, hline⟩ := hlines part mem_cons_self
    cases hend : part.unended with
    | false =>
      have ih := ih hside.tail fun p hp => hlines p (mem_cons_of_mem _ hp)
      have htail : tail (part :: side) = tail side := by simp [tail, hend]
      have htext : sideText (part :: side) = ended part.lines ++ sideText side := by
        simp [sideText, HunkPart.text, hend]
      rw [htext, splitLines_ended hline, ih, htail]
      simp [sideLines]
    | true =>
      have hnil := hside.eq_nil hend
      subst hnil
      have hlast : '\n' ∉ part.lines.getLast hne := hline _ (getLast_mem hne)
      have htext : sideText [part] = ended part.lines.dropLast ++ part.lines.getLast hne := by
        simp [sideText, HunkPart.text, hend, ended_dropLast hne]
      have hsplit : splitLines (part.lines.getLast hne) = [part.lines.getLast hne] :=
        splitOn_eq_singleton hlast
      rw [htext, splitLines_ended fun l hl => hline l (dropLast_subset _ hl), hsplit,
        dropLast_append_getLast hne]
      simp [sideLines, tail, hend]

/-! ### The changes that are found -/

/-- The changes of parts whose lines are all where they are looked for. -/
def foundChanges : ℕ → List HunkPart → List LineChange
  | _, [] => []
  | i, part :: parts =>
    match part.kind with
    | .context => foundChanges (i + part.lines.length) parts
    | .deletion => .splice i part.lines.length [] :: ((if part.unended then [.push] else []) ++
        foundChanges (i + part.lines.length) parts)
    | .insertion => .splice i 0 part.lines :: ((if part.unended then [.pop] else []) ++
        foundChanges i parts)

section Kinds

variable {part : HunkPart} {parts : List HunkPart}

theorem olds_cons_insertion (h : part.kind = .insertion) : olds (part :: parts) = olds parts := by
  simp [olds, h]

theorem olds_cons (h : part.kind ≠ .insertion) : olds (part :: parts) = part :: olds parts := by
  simp [olds, h]

theorem news_cons_deletion (h : part.kind = .deletion) : news (part :: parts) = news parts := by
  simp [news, h]

theorem news_cons (h : part.kind ≠ .deletion) : news (part :: parts) = part :: news parts := by
  simp [news, h]

end Kinds

theorem sideLines_cons (part : HunkPart) (side : List HunkPart) :
    sideLines (part :: side) = part.lines ++ sideLines side := rfl

theorem sideLines_append (a b : List HunkPart) : sideLines (a ++ b) = sideLines a ++ sideLines b :=
  flatMap_append

theorem olds_append (a b : List HunkPart) : olds (a ++ b) = olds a ++ olds b :=
  filter_append ..

/-- Lines that are there are found. -/
theorem partChanges_eq {lines rest : List Text} {i : ℕ} {parts : List HunkPart}
    (h : lines.drop i = sideLines (olds parts) ++ rest) :
    partChanges lines i parts = some (foundChanges i parts) := by
  induction parts generalizing i with
  | nil => rfl
  | cons part parts ih =>
    by_cases hins : part.kind = .insertion
    · rw [olds_cons_insertion hins] at h
      simp only [partChanges, foundChanges, hins, ih h, Option.map_some]
    · rw [olds_cons hins, sideLines_cons, append_assoc] at h
      have htake : (lines.drop i).take part.lines.length = part.lines := by
        rw [h, take_left]
      have hdrop : lines.drop (i + part.lines.length) = sideLines (olds parts) ++ rest := by
        rw [← drop_drop, h, drop_left]
      cases hkind : part.kind with
      | insertion => exact absurd hkind hins
      | context => simp [partChanges, foundChanges, hkind, htake, ih hdrop]
      | deletion => simp [partChanges, foundChanges, hkind, htake, ih hdrop]

theorem foundChanges_append (i : ℕ) (a b : List HunkPart) :
    foundChanges i (a ++ b) =
      foundChanges i a ++ foundChanges (i + (sideLines (olds a)).length) b := by
  induction a generalizing i with
  | nil => rfl
  | cons part a ih =>
    by_cases hins : part.kind = .insertion
    · rw [olds_cons_insertion hins]
      simp [foundChanges, hins, ih]
    · rw [olds_cons hins, sideLines_cons, length_append, ← Nat.add_assoc]
      cases hkind : part.kind with
      | insertion => exact absurd hkind hins
      | context => simp [foundChanges, hkind, ih]
      | deletion => simp [foundChanges, hkind, ih]

/-- Lines that are kept are not changed. -/
theorem foundChanges_keptPart (i : ℕ) (lines : List Text) (unended : Bool) :
    foundChanges i (keptPart lines unended) = [] := by
  by_cases h : lines = []
  · rw [keptPart, if_pos h]
    rfl
  · rw [keptPart, if_neg h]
    rfl

/-! ### The changes that are made -/

/-- A splice past the lines that are done, which have moved the rest by as many as they differ. -/
theorem splice_at (done removed insert rest : List Text) (i : ℕ) :
    splice (done ++ (removed ++ rest)) ((i : ℤ) + ((done.length : ℤ) - i)) removed.length insert =
      done ++ (insert ++ rest) := by
  have hat : (i : ℤ) + ((done.length : ℤ) - i) = done.length := by omega
  have hmin : min (done.length : ℤ).toNat (done ++ (removed ++ rest)).length = done.length := by
    simp
  rw [hat, splice, if_neg (by omega), hmin, take_left, ← drop_drop, drop_left,
    drop_left, append_assoc]

/-- **The changes found in a text's parts make what is after of what was before**, past lines that
are done. The parts to come say whether the text has an empty last line still. -/
theorem foldl_applyChange {parts : List HunkPart} (hold : IsSide (olds parts))
    (hnew : IsSide (news parts))
    (horder : parts.IsChain fun a b => a.kind = .insertion → b.kind ≠ .deletion)
    (done : List Text) (i : ℕ) :
    ((foundChanges i parts).foldl applyChange
        (done ++ (sideLines (olds parts) ++ tail (olds parts)), (done.length : ℤ) - i)).1 =
      done ++ (sideLines (news parts) ++ tail (news parts)) := by
  induction parts generalizing done i with
  | nil => rfl
  | cons part parts ih =>
    have horder' := horder.of_cons
    cases hkind : part.kind with
    | context =>
      rw [olds_cons (by simp [hkind])] at hold
      rw [news_cons (by simp [hkind])] at hnew
      rw [olds_cons (by simp [hkind]), news_cons (by simp [hkind])]
      have hshift : (done.length : ℤ) - i =
          (done ++ part.lines).length - (i + part.lines.length : ℕ) := by
        simp only [length_append]; omega
      cases hend : part.unended with
      | false =>
        have htail : ∀ side, tail (part :: side) = tail side := by simp [tail, hend]
        have ih := ih hold.tail hnew.tail horder' (done ++ part.lines) (i + part.lines.length)
        simp only [foundChanges, hkind, sideLines_cons, htail, append_assoc, hshift] at ih ⊢
        exact ih
      | true =>
        -- nothing comes after it, on either side
        have hnil : parts = [] := by
          have holds := hold.eq_nil hend
          have hnews := hnew.eq_nil hend
          cases parts with
          | nil => rfl
          | cons next parts =>
            cases hnext : next.kind <;> simp [olds, news, hnext] at holds hnews
        subst hnil
        simp [foundChanges, hkind, sideLines, olds, news, tail, hend]
    | deletion =>
      rw [olds_cons (by simp [hkind])] at hold
      rw [news_cons_deletion hkind] at hnew
      rw [olds_cons (by simp [hkind]), news_cons_deletion hkind, sideLines_cons, append_assoc]
      have hshift : (done.length : ℤ) - i + (([] : List Text).length - part.lines.length) =
          (done.length : ℤ) - (i + part.lines.length : ℕ) := by
        simp only [length_nil]; omega
      have ih := ih hold.tail hnew horder' done (i + part.lines.length)
      cases hend : part.unended with
      | false =>
        have htail : tail (part :: olds parts) = tail (olds parts) := by simp [tail, hend]
        simp only [foundChanges, hkind, hend, Bool.false_eq_true, if_false, nil_append,
          foldl_cons, applyChange, splice_at, hshift, htail]
        exact ih
      | true =>
        -- its side is done, so the empty line goes where it is the last
        have hnil := hold.eq_nil hend
        have htail : tail (part :: olds parts) = [] := by simp [tail, hend]
        have hpush : tail [] = [[]] := rfl
        have hsplice := splice_at done part.lines [] [] i
        rw [hnil] at ih htail ⊢
        simp only [foundChanges, hkind, hend, if_true, cons_append, nil_append,
          foldl_cons, applyChange, hshift, htail, hpush, sideLines, flatMap_nil,
          append_nil] at ih hsplice ⊢
        rw [hsplice]
        exact ih
    | insertion =>
      rw [olds_cons_insertion hkind] at hold
      rw [news_cons (by simp [hkind])] at hnew
      rw [olds_cons_insertion hkind, news_cons (by simp [hkind]), sideLines_cons, append_assoc]
      have hshift : (done.length : ℤ) - i + (part.lines.length - (0 : ℕ)) =
          ((done ++ part.lines).length : ℤ) - i := by
        simp only [length_append]; omega
      have hsplice := splice_at done [] part.lines (sideLines (olds parts) ++ tail (olds parts)) i
      simp only [nil_append, length_nil] at hsplice
      cases hend : part.unended with
      | false =>
        have htail : tail (part :: news parts) = tail (news parts) := by simp [tail, hend]
        have ih := ih hold hnew.tail horder' (done ++ part.lines) i
        simp only [foundChanges, hkind, hend, Bool.false_eq_true, if_false, nil_append,
          foldl_cons, applyChange, hsplice, hshift, htail, append_assoc] at ih ⊢
        exact ih
      | true =>
        -- what could follow it is removed, and git writes that before
        have hnil : parts = [] := by
          have hnews := hnew.eq_nil hend
          cases parts with
          | nil => rfl
          | cons next parts =>
            have hdel : next.kind ≠ .deletion := (isChain_cons_cons.mp horder).1 hkind
            rw [news_cons hdel] at hnews
            cases hnews
        subst hnil
        simp only [foundChanges, hkind, hend, if_true, foldl_cons, foldl_nil,
          append_nil, applyChange, hsplice]
        simp [sideLines, olds, news, tail, hend, ← append_assoc]

/-! ### The hunks of a change -/

/-- The hunks as they are read, past so many lines. -/
def readAs : ℕ → List ShownHunk → List PatchHunk
  | _, [] => []
  | i, h :: hunks =>
    ⟨i + h.gap.length, (sideLines (olds h.parts)).length, h.parts⟩ ::
      readAs (i + h.gap.length + (sideLines (olds h.parts)).length) hunks

/-- The parts that come up to the last hunk's. -/
def shownParts (hunks : List ShownHunk) : List HunkPart :=
  hunks.flatMap fun h => keptPart h.gap false ++ h.parts

theorem olds_keptPart (lines : List Text) (unended : Bool) :
    sideLines (olds (keptPart lines unended)) = lines := by
  by_cases h : lines = [] <;> simp [keptPart, h, olds, sideLines]

theorem hunkChanges_eq (before rest : List Text) (hunk : PatchHunk)
    (hstart : hunk.start = before.length)
    (hlength : hunk.length = (sideLines (olds hunk.parts)).length) :
    hunkChanges (before ++ (sideLines (olds hunk.parts) ++ rest)) hunk =
      .ok (foundChanges hunk.start hunk.parts) := by
  have hdrop : (before ++ (sideLines (olds hunk.parts) ++ rest)).drop hunk.start =
      sideLines (olds hunk.parts) ++ rest := by
    rw [hstart, drop_left]
  have hat : changesAt hunk (before ++ (sideLines (olds hunk.parts) ++ rest)) (hunk.start + 0) =
      some (foundChanges hunk.start hunk.parts) := by
    rw [changesAt, if_neg, Int.add_zero, Int.toNat_natCast, partChanges_eq hdrop]
    simp only [length_append, hlength, hstart]
    omega
  rw [hunkChanges, offsets, findSome?_cons, hat]

/-- Each hunk is found where its header says. -/
theorem mapM_hunkChanges (before rest : List Text) (hunks : List ShownHunk) :
    ∃ changes, (readAs before.length hunks).mapM
        (hunkChanges (before ++ (sideLines (olds (shownParts hunks)) ++ rest))) = .ok changes ∧
      changes.flatten = foundChanges before.length (shownParts hunks) := by
  induction hunks generalizing before with
  | nil => exact ⟨[], rfl, rfl⟩
  | cons h hunks ih =>
    obtain ⟨changes, hchanges, hflatten⟩ := ih (before ++ h.gap ++ sideLines (olds h.parts))
    have hparts : shownParts (h :: hunks) =
        keptPart h.gap false ++ (h.parts ++ shownParts hunks) := by
      simp [shownParts]
    have hlines : before ++ (sideLines (olds (shownParts (h :: hunks))) ++ rest) =
        (before ++ h.gap) ++ (sideLines (olds h.parts) ++
          (sideLines (olds (shownParts hunks)) ++ rest)) := by
      simp only [hparts, olds_append, sideLines_append, olds_keptPart, append_assoc]
    have hhunk := hunkChanges_eq (before ++ h.gap) (sideLines (olds (shownParts hunks)) ++ rest)
      ⟨before.length + h.gap.length, (sideLines (olds h.parts)).length, h.parts⟩
      length_append.symm rfl
    have hrest : before ++ h.gap ++ (sideLines (olds h.parts) ++
          (sideLines (olds (shownParts hunks)) ++ rest)) =
        before ++ h.gap ++ sideLines (olds h.parts) ++
          (sideLines (olds (shownParts hunks)) ++ rest) := by
      simp only [append_assoc]
    simp only [length_append] at hchanges hflatten
    refine ⟨foundChanges (before.length + h.gap.length) h.parts :: changes, ?_, ?_⟩
    · rw [hlines, readAs, mapM_cons, hhunk, hrest, hchanges]
      rfl
    · rw [flatten_cons, hflatten, hparts, foundChanges_append, foundChanges_keptPart,
        nil_append, olds_keptPart, foundChanges_append]

/-- **The hunks of a change applied to the text before give the text after.** -/
theorem applied_before {e : Edit} (he : e.IsGit) :
    applied e.before (readAs 0 e.hunks) = .ok e.after := by
  have holdlines : ∀ part ∈ olds e.parts, part.lines ≠ [] ∧ ∀ line ∈ part.lines, '\n' ∉ line :=
    fun part hpart => he.lines part (mem_of_mem_filter hpart)
  have hnewlines : ∀ part ∈ news e.parts, part.lines ≠ [] ∧ ∀ line ∈ part.lines, '\n' ∉ line :=
    fun part hpart => he.lines part (mem_of_mem_filter hpart)
  have hbefore := splitLines_sideText he.before holdlines
  have hafter := splitLines_sideText he.after hnewlines
  have hparts : e.parts = shownParts e.hunks ++ keptPart e.rest e.unended := rfl
  obtain ⟨changes, hchanges, hflatten⟩ :=
    mapM_hunkChanges [] (e.rest ++ tail (olds e.parts)) e.hunks
  have hlines : [] ++ (sideLines (olds (shownParts e.hunks)) ++ (e.rest ++ tail (olds e.parts))) =
      splitLines e.before := by
    have hside : sideLines (olds e.parts) = sideLines (olds (shownParts e.hunks)) ++ e.rest := by
      rw [hparts, olds_append, sideLines_append, olds_keptPart]
    rw [Edit.before, hbefore, hside, nil_append, append_assoc]
  have hfound : changes.flatten = foundChanges 0 e.parts := by
    rw [hflatten, hparts, foundChanges_append, foundChanges_keptPart, append_nil]
    rfl
  have hfold := foldl_applyChange he.before he.after he.order [] 0
  rw [hlines] at hchanges
  rw [length_nil] at hchanges
  rw [applied, hchanges]
  show Except.ok (joinLines (changes.flatten.foldl applyChange (splitLines e.before, 0)).1) = _
  have hstart : (splitLines e.before, (0 : ℤ)) =
      ([] ++ (sideLines (olds e.parts) ++ tail (olds e.parts)),
        (([] : List Text).length : ℤ) - (0 : ℕ)) := by
    rw [Edit.before, hbefore]
    rfl
  rw [hfound, hstart, hfold, nil_append, ← hafter]
  exact congrArg _ (intercalate_splitOn '\n')

end Triage.NpmPatch
