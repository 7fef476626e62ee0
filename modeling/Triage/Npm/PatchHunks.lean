import Triage.Npm.PatchLines
import Mathlib.Data.List.Chain

/-!
# The hunks of a patch as they are read

A hunk is read by its header, which counts the lines of each side, and then line by line: a line is
counted of the sides that have it and put with those before it where they are of its kind. What git
writes of a hunk is so read as the hunk, its start where it is, and the lines after it are the next
file's.

## Main results

* `hunkRange_hunkHead` : a hunk's header is read as the ranges that it was written of.
* `readLines_parts` : its lines are read as its parts.
* `readHunks_hunksLines` : **the hunks that are written are those that are read.**
-/

namespace Triage.NpmPatch

open List Nat

/-! ### Numbers -/

/-- What comes next is no digit. -/
def NoDigit (rest : Text) : Prop := ∀ c ∈ rest.head?, c.isDigit = false

theorem takeNumber_decimal (n : ℕ) {rest : Text} (hrest : NoDigit rest) :
    takeNumber (decimal n ++ rest) = some (n, rest) := by
  have hdigits : ∀ c ∈ decimal n, c.isDigit = true := fun c hc =>
    isDigit_of_mem_toDigits (by decide) (by decide) hc
  have htake : rest.takeWhile Char.isDigit = [] ∧ rest.dropWhile Char.isDigit = rest := by
    cases rest with
    | nil => exact ⟨rfl, rfl⟩
    | cons c rest => simp [hrest c rfl]
  have hnumber : ofDigitChars 10 (decimal n) 0 = n := ofDigitChars_ten_toDigits
  rw [takeNumber, takeWhile_append_of_pos hdigits, dropWhile_append_of_pos hdigits,
    htake.1, htake.2, append_nil]
  have hne : decimal n ≠ [] := toDigits_ne_nil
  show (if decimal n = [] then none else some (ofDigitChars 10 (decimal n) 0, rest)) = _
  rw [if_neg hne, hnumber]

/-- The line that a range is read from. -/
def rangeLine (before count : ℕ) : ℕ := if count = 0 then before else before + 1

theorem takeRange_rangeText (before count : ℕ) (rest : Text) :
    takeRange (rangeText before count ++ ' ' :: rest) =
      some (rangeLine before count, count, ' ' :: rest) := by
  have hspace : NoDigit (' ' :: rest) := by
    rintro c ⟨⟩
    rfl
  have hcomma : NoDigit (',' :: (decimal count ++ ' ' :: rest)) := by
    rintro c ⟨⟩
    rfl
  rw [rangeText, append_assoc]
  by_cases hcount : count = 1
  · rw [if_pos hcount, nil_append, takeRange, takeNumber_decimal _ hspace, hcount]
    rfl
  · rw [if_neg hcount, cons_append, takeRange, takeNumber_decimal _ hcomma]
    simp only [takeNumber_decimal count hspace, Option.map_some]
    rfl

/-- **A hunk's header** is read as the ranges that it was written of. -/
theorem hunkRange_hunkHead (before after : ℕ) (h : ShownHunk) :
    hunkRange (hunkHead before after h) =
      some ((rangeLine before (sideLines (olds h.parts)).length, (sideLines (olds h.parts)).length),
        rangeLine after (sideLines (news h.parts)).length, (sideLines (news h.parts)).length) := by
  have hstart : ∀ t, startsWith "@@ -".toList ("@@ -".toList ++ t) = true := fun t => rfl
  have hafter : ∀ t, NpmPatch.after "@@ -".toList ("@@ -".toList ++ t) = t := fun t => rfl
  rw [hunkHead, hunkRange, if_pos (hstart _), hafter, takeRange_rangeText]
  simp only [takeRange_rangeText]
  rfl

/-! ### Lines -/

/-- How many lines of the text before, and of the one after, so many of a kind are. -/
def oldCount (kind : PartKind) (n : ℕ) : ℕ := if kind = .insertion then 0 else n

def newCount (kind : PartKind) (n : ℕ) : ℕ := if kind = .deletion then 0 else n

variable (kind : PartKind)

theorem oldCount_add (m n : ℕ) : oldCount kind (m + n) = oldCount kind m + oldCount kind n := by
  cases kind <;> rfl

theorem newCount_add (m n : ℕ) : newCount kind (m + n) = newCount kind m + newCount kind n := by
  cases kind <;> rfl

theorem length_olds_cons (part : HunkPart) (parts : List HunkPart) :
    (sideLines (olds (part :: parts))).length =
      (sideLines (olds parts)).length + oldCount part.kind part.lines.length := by
  by_cases h : part.kind = .insertion
  · rw [olds_cons_insertion h, oldCount, if_pos h, add_zero]
  · rw [olds_cons h, sideLines_cons, length_append, oldCount, if_neg h, add_comm]

theorem length_news_cons (part : HunkPart) (parts : List HunkPart) :
    (sideLines (news (part :: parts))).length =
      (sideLines (news parts)).length + newCount part.kind part.lines.length := by
  by_cases h : part.kind = .deletion
  · rw [news_cons_deletion h, newCount, if_pos h, add_zero]
  · rw [news_cons h, sideLines_cons, length_append, newCount, if_neg h, add_comm]

theorem lineKind_sign (line : Text) : lineKind (sign kind :: line) = some kind := by
  cases kind <;> rfl

theorem sign_ne : sign kind ≠ '\\' := by cases kind <;> decide

/-- What comes next does not say of the line before it that it has no ending. -/
def NoMarker (rest : List Text) : Prop := ∀ line ∈ rest.head?, line.head? ≠ some '\\'

theorem noMarker_sign (line : Text) (rest : List Text) :
    NoMarker ((sign kind :: line) :: rest) := by
  rintro l ⟨⟩ h
  exact sign_ne kind (Option.some.inj h)

section Line

variable (kind : PartKind) (line : Text) (olds news : ℕ) (parts : List HunkPart)

/-- A line is counted of the sides that have it, and there is one to count. -/
theorem counted :
    ¬(olds + oldCount kind 1 = 0 ∧ news + newCount kind 1 = 0) ∧
      ¬((kind ≠ .insertion ∧ olds + oldCount kind 1 = 0) ∨
        (kind ≠ .deletion ∧ news + newCount kind 1 = 0)) ∧
      (if kind ≠ .insertion then olds + oldCount kind 1 - 1 else olds + oldCount kind 1) = olds ∧
      (if kind ≠ .deletion then news + newCount kind 1 - 1 else news + newCount kind 1) = news := by
  cases kind <;> simp [oldCount, newCount]

theorem readLines_line {rest : List Text} (hrest : NoMarker rest) :
    readLines ((sign kind :: line) :: rest) (olds + oldCount kind 1) (news + newCount kind 1)
        parts =
      readLines rest olds news (addLine parts kind line) := by
  obtain ⟨hcounts, hguard, holds, hnews⟩ := counted kind olds news
  rw [readLines]
  · simp only [lineKind_sign, if_neg hguard, holds, hnews]
    split
    · exact absurd rfl (hrest _ rfl)
    · rfl
  · exact fun h₁ h₂ => hcounts ⟨h₁, h₂⟩

theorem readLines_unended (rest : List Text) :
    readLines ((sign kind :: line) :: noNewline :: rest) (olds + oldCount kind 1)
        (news + newCount kind 1) parts =
      readLines rest olds news (endLast (addLine parts kind line)) := by
  obtain ⟨hcounts, hguard, holds, hnews⟩ := counted kind olds news
  have hmarker : noNewline = '\\' :: noNewline.tail := rfl
  rw [readLines]
  · simp only [lineKind_sign, if_neg hguard, holds, hnews]
    rw [hmarker]
    rfl
  · exact fun h₁ h₂ => hcounts ⟨h₁, h₂⟩

/-- Lines of a kind. -/
theorem readLines_run {lines : List Text} {rest : List Text} (hrest : NoMarker rest) :
    readLines (lines.map (sign kind :: ·) ++ rest) (olds + oldCount kind lines.length)
        (news + newCount kind lines.length) parts =
      readLines rest olds news (lines.foldl (fun parts line => addLine parts kind line) parts) := by
  induction lines generalizing parts with
  | nil => cases kind <;> rfl
  | cons line lines ih =>
    have hnext : NoMarker (lines.map (sign kind :: ·) ++ rest) := by
      cases lines with
      | nil => exact hrest
      | cons next lines => exact noMarker_sign kind next _
    rw [length_cons, oldCount_add, newCount_add, ← add_assoc, ← add_assoc,
      map_cons, cons_append, readLines_line _ _ _ _ _ hnext, ih, foldl_cons]

variable {kind parts}

/-- Lines of one kind are put in one part, past what is of another. -/
theorem foldl_addLine {lines : List Text} (hne : lines ≠ [])
    (hlast : ∀ last ∈ parts.getLast?, last.kind ≠ kind) :
    lines.foldl (fun parts line => addLine parts kind line) parts =
      parts ++ [⟨kind, lines, false⟩] := by
  induction lines using reverseRecOn with
  | nil => exact absurd rfl hne
  | append_singleton lines line ih =>
    rw [foldl_concat]
    by_cases hnil : lines = []
    · subst hnil
      rw [foldl_nil, addLine]
      cases hparts : parts.getLast? with
      | none => rfl
      | some last =>
        show (if last.kind = kind then _ else _) = _
        rw [if_neg (hlast last hparts)]
        rfl
    · rw [ih hnil, addLine, getLast?_concat]
      show (if kind = kind then _ else _) = _
      rw [if_pos rfl, dropLast_concat]

end Line

/-- **A part is read as it was written**, past what is of another kind. -/
theorem readLines_part {part : HunkPart} (hne : part.lines ≠ []) {parts : List HunkPart}
    (hlast : ∀ last ∈ parts.getLast?, last.kind ≠ part.kind) (olds news : ℕ) {rest : List Text}
    (hrest : NoMarker rest) :
    readLines (partLines part ++ rest) (olds + oldCount part.kind part.lines.length)
        (news + newCount part.kind part.lines.length) parts =
      readLines rest olds news (parts ++ [part]) := by
  obtain ⟨kind, lines, unended⟩ := part
  cases unended with
  | false =>
    have hlines : partLines ⟨kind, lines, false⟩ = lines.map (sign kind :: ·) := append_nil _
    rw [hlines]
    show readLines (lines.map (sign kind :: ·) ++ rest) (olds + oldCount kind lines.length)
      (news + newCount kind lines.length) parts = _
    rw [readLines_run kind olds news parts hrest, foldl_addLine hne hlast]
  | true =>
    -- the last line comes with what says that it has no ending
    obtain ⟨init, last, rfl⟩ : ∃ init last, lines = init ++ [last] :=
      ⟨_, _, (dropLast_append_getLast hne).symm⟩
    have hlines : partLines ⟨kind, init ++ [last], true⟩ ++ rest =
        init.map (sign kind :: ·) ++ (sign kind :: last) :: noNewline :: rest := by
      simp [partLines]
    have holds : olds + oldCount kind (init ++ [last]).length =
        olds + oldCount kind 1 + oldCount kind init.length := by
      rw [length_append, oldCount_add, length_singleton]
      omega
    have hnews : news + newCount kind (init ++ [last]).length =
        news + newCount kind 1 + newCount kind init.length := by
      rw [length_append, newCount_add, length_singleton]
      omega
    have hparts : endLast (addLine (init.foldl (fun parts line => addLine parts kind line) parts)
        kind last) = parts ++ [⟨kind, init ++ [last], true⟩] := by
      have hfold := foldl_addLine hne hlast
      rw [foldl_concat] at hfold
      rw [hfold, endLast, getLast?_concat]
      show (parts ++ [_]).dropLast ++ _ = _
      rw [dropLast_concat]
    rw [hlines]
    show readLines _ (olds + oldCount kind (init ++ [last]).length)
      (news + newCount kind (init ++ [last]).length) parts = _
    rw [holds, hnews, readLines_run kind _ _ parts (noMarker_sign kind last _), readLines_unended,
      hparts]

/-- The lines that a hunk's header counts are read as its parts. -/
theorem readLines_parts {parts : List HunkPart} (hne : ∀ part ∈ parts, part.lines ≠ [])
    {done : List HunkPart} (hchain : (done ++ parts).IsChain fun a b => a.kind ≠ b.kind)
    {rest : List Text} (hrest : NoMarker rest) :
    readLines (parts.flatMap partLines ++ rest) (sideLines (olds parts)).length
        (sideLines (news parts)).length done = .ok (done ++ parts, rest) := by
  induction parts generalizing done with
  | nil =>
    rw [append_nil]
    show readLines rest 0 0 done = _
    cases rest <;> rw [readLines]
  | cons part parts ih =>
    have hnext : NoMarker (parts.flatMap partLines ++ rest) := by
      cases parts with
      | nil => exact hrest
      | cons next parts =>
        obtain ⟨line, lines, hlines⟩ := exists_cons_of_ne_nil
          (hne next (mem_cons_of_mem _ mem_cons_self))
        rw [flatMap_cons, partLines, hlines, map_cons]
        exact noMarker_sign _ _ _
    have hlast : ∀ last ∈ done.getLast?, last.kind ≠ part.kind := fun last hlast =>
      (isChain_append.mp hchain).2.2 last hlast part rfl
    have hchain' : ((done ++ [part]) ++ parts).IsChain fun a b => a.kind ≠ b.kind := by
      rwa [append_assoc]
    rw [length_olds_cons, length_news_cons, flatMap_cons, append_assoc,
      readLines_part (hne part mem_cons_self) hlast _ _ hnext,
      ih (fun p hp => hne p (mem_cons_of_mem _ hp)) hchain', append_assoc]
    rfl

/-! ### Hunks -/

/-- What comes after a file: nothing, or the first line of the next. -/
def IsNext (rest : List Text) : Prop :=
  ∀ line ∈ rest.head?, startsWith "diff --git ".toList line = true

theorem startsWith_iff {pre t : Text} : startsWith pre t = true ↔ ∃ s, t = pre ++ s := by
  rw [startsWith, isPrefixOf_iff_prefix]
  exact ⟨fun ⟨s, h⟩ => ⟨s, h.symm⟩, fun ⟨s, h⟩ => ⟨s, h.symm⟩⟩

theorem IsNext.noMarker {rest : List Text} (h : IsNext rest) : NoMarker rest := by
  intro line hline hhead
  obtain ⟨s, rfl⟩ := startsWith_iff.mp (h line hline)
  cases hhead

/-- Where each of some hunks is past so many lines, one that finds none is at the first. -/
def AtFirst (before : ℕ) (hunks : List ShownHunk) : Prop :=
  (∀ h ∈ hunks, sideLines (olds h.parts) ≠ []) ∨
    before = 0 ∧ ∀ h ∈ hunks, h.gap = [] ∧ sideLines (olds h.parts) = []

variable {hunks : List ShownHunk} {h : ShownHunk}

theorem AtFirst.tail {before : ℕ} (hfirst : AtFirst before (h :: hunks)) :
    AtFirst (before + h.gap.length + (sideLines (olds h.parts)).length) hunks := by
  rcases hfirst with hfound | ⟨rfl, hnone⟩
  · exact .inl fun g hg => hfound g (mem_cons_of_mem _ hg)
  · obtain ⟨hgap, holds⟩ := hnone h mem_cons_self
    refine .inr ⟨by rw [hgap, holds]; rfl, fun g hg => hnone g (mem_cons_of_mem _ hg)⟩

/-- A hunk's header names the line that it starts at. -/
theorem AtFirst.start {before : ℕ} (hfirst : AtFirst before (h :: hunks)) :
    max (rangeLine (before + h.gap.length) (sideLines (olds h.parts)).length) 1 - 1 =
      before + h.gap.length := by
  rcases hfirst with hfound | ⟨rfl, hnone⟩
  · have hne : (sideLines (olds h.parts)).length ≠ 0 := fun h0 =>
      hfound h mem_cons_self (eq_nil_of_length_eq_zero h0)
    rw [rangeLine, if_neg hne]
    omega
  · obtain ⟨hgap, holds⟩ := hnone h mem_cons_self
    rw [hgap, holds]
    rfl

/-- Where there is context around each change, hunks that find no line are of an empty text. -/
theorem Edit.IsGit.atFirst {e : Edit} (he : e.IsGit) : AtFirst 0 e.hunks := by
  have hpart : ∀ h ∈ e.hunks, ∀ part ∈ h.parts, part ∈ e.parts := fun h hh part hpart =>
    mem_append_left _ (mem_flatMap.mpr ⟨h, hh, mem_append_right _ hpart⟩)
  have holds : ∀ h ∈ e.hunks, sideLines (olds h.parts) = [] → olds h.parts = [] := by
    intro h hh hlines
    rw [eq_nil_iff_forall_not_mem]
    intro part hold
    have hne := (he.lines part (hpart h hh part (mem_of_mem_filter hold))).1
    exact hne (flatMap_eq_nil_iff.mp hlines part hold)
  by_cases hall : ∀ h ∈ e.hunks, sideLines (olds h.parts) ≠ []
  · exact .inl hall
  · push Not at hall
    obtain ⟨h, hh, hlines⟩ := hall
    have hempty := he.context h hh (holds h hh hlines)
    have hnone : ∀ part ∈ e.parts, part.kind = .insertion := by
      intro part hpart
      by_contra hkind
      have hmem : part ∈ olds e.parts := mem_filter.mpr ⟨hpart, by simpa using hkind⟩
      rw [hempty] at hmem
      cases hmem
    refine .inr ⟨rfl, fun g hg => ⟨?_, ?_⟩⟩
    · by_contra hgap
      have hmem : ⟨.context, g.gap, false⟩ ∈ e.parts :=
        mem_append_left _ (mem_flatMap.mpr ⟨g, hg, mem_append_left _
          (by rw [keptPart, if_neg hgap]; exact mem_singleton_self _)⟩)
      cases hnone _ hmem
    · have hfilter : olds g.parts = [] := filter_eq_nil_iff.mpr fun part hp => by
        simp [hnone part (hpart g hg part hp)]
      rw [hfilter]
      rfl

/-- **A hunk is read as it was written.** -/
theorem readHunk_hunkLines {before after : ℕ}
    (hstart : max (rangeLine before (sideLines (olds h.parts)).length) 1 - 1 = before)
    (hne : ∀ part ∈ h.parts, part.lines ≠ []) (hchain : h.parts.IsChain fun a b => a.kind ≠ b.kind)
    {rest : List Text} (hrest : NoMarker rest) :
    readHunk (hunkHead before after h) (h.parts.flatMap partLines ++ rest) =
      .ok (⟨before, (sideLines (olds h.parts)).length, h.parts⟩, rest) := by
  have hread := @readLines_parts h.parts hne [] hchain rest hrest
  rw [readHunk, hunkRange_hunkHead]
  show (readLines _ _ _ []).map _ = _
  rw [hread, hstart]
  rfl

theorem startsWith_hunkHead (before after : ℕ) (h : ShownHunk) :
    startsWith "@@ ".toList (hunkHead before after h) = true := rfl

theorem noMarker_hunksLines (hunks : List ShownHunk) {rest : List Text} (hrest : NoMarker rest)
    (before after : ℕ) : NoMarker (hunksLines before after hunks ++ rest) := by
  cases hunks with
  | nil => exact hrest
  | cons h hunks =>
    rintro line ⟨⟩ hhead
    cases hhead

/-- **The hunks that are written are those that are read.** -/
theorem readHunks_hunksLines (hruns : ∀ h ∈ hunks, (∀ part ∈ h.parts, part.lines ≠ []) ∧
      h.parts.IsChain fun a b => a.kind ≠ b.kind)
    {before : ℕ} (after : ℕ) (hfirst : AtFirst before hunks) {rest : List Text}
    (hrest : IsNext rest) {fuel : ℕ} (hfuel : hunks.length ≤ fuel) :
    readHunks fuel (hunksLines before after hunks ++ rest) = .ok (readAs before hunks, rest) := by
  induction hunks generalizing before after fuel with
  | nil =>
    rw [hunksLines, nil_append]
    cases fuel with
    | zero => rfl
    | succ fuel =>
      cases rest with
      | nil => rfl
      | cons line rest =>
        obtain ⟨s, rfl⟩ := startsWith_iff.mp (hrest line rfl)
        rfl
  | cons h hunks ih =>
    have hpos : fuel ≠ 0 := by
      rintro rfl
      exact absurd hfuel (by simp)
    obtain ⟨fuel, rfl⟩ := exists_eq_succ_of_ne_zero hpos
    obtain ⟨hne, hchain⟩ := hruns h mem_cons_self
    have hnext := noMarker_hunksLines hunks hrest.noMarker
      (before + h.gap.length + (sideLines (olds h.parts)).length)
      (after + h.gap.length + (sideLines (news h.parts)).length)
    have hlines : hunksLines before after (h :: hunks) ++ rest =
        hunkHead (before + h.gap.length) (after + h.gap.length) h ::
          (h.parts.flatMap partLines ++
            (hunksLines (before + h.gap.length + (sideLines (olds h.parts)).length)
              (after + h.gap.length + (sideLines (news h.parts)).length) hunks ++ rest)) := by
      rw [hunksLines, hunkLines, append_assoc]
      rfl
    have ih := ih (fun g hg => hruns g (mem_cons_of_mem _ hg))
      (after + h.gap.length + (sideLines (news h.parts)).length) hfirst.tail
      (le_of_succ_le_succ hfuel)
    rw [hlines, readHunks, if_pos (startsWith_hunkHead _ _ h),
      readHunk_hunkLines hfirst.start hne hchain hnext]
    show (readHunks fuel _).map _ = _
    rw [ih]
    rfl

end Triage.NpmPatch
