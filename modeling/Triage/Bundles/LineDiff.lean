import Mathlib.Data.List.DropRight
import Mathlib.Data.Int.Init

/-!
# Change blocks between two texts

A diff is drawn from blocks, each a range of the old text's lines that a range of the new text's
replaces. Blocks that come from elsewhere are checked against both texts before a diff is drawn
from them, as blocks that do not take the one to the other would hide a change.

## Main results

* `hold_iff` : the check from one block on.
* `blocksHold_iff` : **the check accepts what takes the one text to the other, and nothing else.**
* `blocksHold_turned` : it accepts the same the other way round.
-/

namespace Triage.LineDiff

open List

/-- A text by its code units, and a line of it. -/
abbrev Text := List UInt16

abbrev Line := List UInt16

def newline : UInt16 := 10

/-- A final newline ends the last line. -/
def textLines (text : Text) : List Line :=
  if text = [] then []
  else
    let lines := text.splitOn newline
    if lines.getLast? = some [] then lines.dropLast else lines

def endsLine (text : Text) : Bool := text = [] || text.getLast? = some newline

/-- The C locale's blanks. -/
def isBlank (c : UInt16) : Bool := c ∈ [32, 9, 10, 11, 12, 13]

/-- Each run of blanks as one space; within a run nothing more is written for it. -/
def collapse : Bool → Line → Line
  | _, [] => []
  | within, c :: cs =>
    if isBlank c then
      if within then collapse true cs else 32 :: collapse true cs
    else c :: collapse false cs

/-- A line as it reads but for how much whitespace it has. -/
def spacing (line : Line) : Line := collapse false (line.rdropWhile isBlank)

/-- A block as it is given, each bound an integer or something else; `last` marks the one that the
check puts after them all. -/
structure Block where
  a0 : Option ℤ
  a1 : Option ℤ
  b0 : Option ℤ
  b1 : Option ℤ
  last : Bool := false
deriving DecidableEq

def alike (ignoreWhitespace : Bool) (x y : Line) : Bool :=
  if ignoreWhitespace then spacing x = spacing y else x = y

section Check

variable (before after : Text) (ignoreWhitespace : Bool)

/-- Whether as many lines from `i` of the old text and from `j` of the new are alike. -/
def alikeFrom (i j : ℕ) : ℕ → Bool
  | 0 => true
  | count + 1 =>
    alike ignoreWhitespace ((textLines before).getD i []) ((textLines after).getD j []) &&
      alikeFrom (i + 1) (j + 1) count

/-- The blocks left, with the lines read so far of either text. -/
def hold : ℕ → ℕ → List Block → Bool
  | _, _, [] => true
  | i, j, block :: blocks =>
    match block.a0, block.a1, block.b0, block.b1 with
    | some a0, some a1, some b0, some b1 =>
      if a0 < i ∨ b0 < j ∨ a1 < a0 ∨ b1 < b0 ∨ a1 > (textLines before).length ∨
        b1 > (textLines after).length then false
      else if (!block.last ∧ a1 = a0 ∧ b1 = b0) ∨ a0 - i ≠ b0 - j then false
      else if block.last ∧ a0 > i ∧ !ignoreWhitespace ∧ endsLine before ≠ endsLine after then false
      else if alikeFrom before after ignoreWhitespace i j (a0 - i).toNat then
        hold a1.toNat b1.toNat blocks
      else false
    | _, _, _, _ => false

def blocksHold (blocks : List Block) : Bool :=
  let a := (textLines before).length
  let b := (textLines after).length
  hold before after ignoreWhitespace 0 0
    (blocks ++ [{ a0 := some a, a1 := some a, b0 := some b, b1 := some b, last := true }])

end Check

/-! ### What blocks are for -/

/-- Lines from `a0` to `a1` of one text that those from `b0` to `b1` of another replace. -/
structure Range where
  a0 : ℕ
  a1 : ℕ
  b0 : ℕ
  b1 : ℕ
deriving DecidableEq

def Range.block (range : Range) : Block :=
  { a0 := some range.a0, a1 := some range.a1, b0 := some range.b0, b1 := some range.b1 }

/-- Ranges in order and apart, from `i` and `j` on, none empty on both sides, and within `a` and `b`
lines. -/
def InOrder (a b : ℕ) : ℕ → ℕ → List Range → Prop
  | _, _, [] => True
  | i, j, range :: ranges =>
    i ≤ range.a0 ∧ j ≤ range.b0 ∧ range.a0 ≤ range.a1 ∧ range.b0 ≤ range.b1 ∧
      range.a1 ≤ a ∧ range.b1 ≤ b ∧ (range.a0 < range.a1 ∨ range.b0 < range.b1) ∧
      InOrder a b range.a1 range.b1 ranges

/-- As many lines stand on either side between a range and the one before it. -/
def Aligned : ℕ → ℕ → List Range → Prop
  | _, _, [] => True
  | i, j, range :: ranges => range.a0 - i = range.b0 - j ∧ Aligned range.a1 range.b1 ranges

/-- The lines of `a` from `i` on with each range of them replaced by its range of `b`. -/
def replaced (a b : List Line) : ℕ → List Range → List Line
  | i, [] => a.drop i
  | i, range :: ranges =>
    (a.drop i).take (range.a0 - i) ++ (b.drop range.b0).take (range.b1 - range.b0) ++
      replaced a b range.a1 ranges

/-- A line as it is compared. -/
def shown (ignoreWhitespace : Bool) (line : Line) : Line :=
  if ignoreWhitespace then spacing line else line

/-- A newline added or dropped at the end of the text is in a block, unless whitespace is
ignored. -/
def EndCovered (before after : Text) (ignoreWhitespace : Bool) (ranges : List Range) : Prop :=
  ignoreWhitespace = true ∨ endsLine before = endsLine after ∨
    ∃ range ∈ ranges, range.a1 = (textLines before).length ∧ range.b1 = (textLines after).length

/-! ### The check from one block on -/

variable {before after : Text} {ignoreWhitespace : Bool}

theorem alike_iff {x y : Line} :
    alike ignoreWhitespace x y ↔ shown ignoreWhitespace x = shown ignoreWhitespace y := by
  cases ignoreWhitespace <;> simp [alike, shown]

variable {a b : List Line} {i j : ℕ} {f : Line → Line} {ranges : List Range}

theorem take_drop_succ {count : ℕ} (h : i < a.length) :
    (a.drop i).take (count + 1) = a.getD i [] :: (a.drop (i + 1)).take count := by
  rw [drop_eq_getElem_cons h, take_succ_cons]
  simp [h]

theorem alikeFrom_iff {count : ℕ} (hi : i + count ≤ (textLines before).length)
    (hj : j + count ≤ (textLines after).length) :
    alikeFrom before after ignoreWhitespace i j count ↔
      (((textLines before).drop i).take count).map (shown ignoreWhitespace) =
        (((textLines after).drop j).take count).map (shown ignoreWhitespace) := by
  induction count generalizing i j with
  | zero => simp [alikeFrom]
  | succ count ih =>
    rw [alikeFrom, Bool.and_eq_true, alike_iff, ih (by omega) (by omega),
      take_drop_succ (by omega), take_drop_succ (by omega), map_cons, map_cons,
      List.cons.injEq]

/-- Where the last range left ends in the old text, or where the one before it did. -/
def lastEnd : ℕ → List Range → ℕ
  | i, [] => i
  | _, range :: ranges => lastEnd range.a1 ranges

/-- The lines that a block accepted makes are the new text's up to its end, so what is left to make
is what is left of the new text. -/
theorem map_replaced_cons {range : Range} (hj : j ≤ range.b0) (hb : range.b0 ≤ range.b1)
    (halign : range.a0 - i = range.b0 - j) (hi : i ≤ range.a0) (ha : range.a0 ≤ a.length)
    (hb1 : range.b1 ≤ b.length) :
    (replaced a b i (range :: ranges)).map f = (b.drop j).map f ↔
      ((a.drop i).take (range.a0 - i)).map f = ((b.drop j).take (range.a0 - i)).map f ∧
        (replaced a b range.a1 ranges).map f = (b.drop range.b1).map f := by
  have hsplit : b.drop j = (b.drop j).take (range.a0 - i) ++
      (b.drop range.b0).take (range.b1 - range.b0) ++ b.drop range.b1 := by
    have h1 : range.b0 = j + (range.a0 - i) := by omega
    have h2 : range.b1 = range.b0 + (range.b1 - range.b0) := by omega
    conv_lhs => rw [← take_append_drop (range.a0 - i) (b.drop j), drop_drop, ← h1,
      ← take_append_drop (range.b1 - range.b0) (b.drop range.b0), drop_drop, ← h2]
    rw [append_assoc]
  rw [replaced]
  conv_lhs => rw [hsplit]
  simp only [map_append, append_assoc]
  constructor
  · intro h
    obtain ⟨hgap, hrest⟩ := append_inj h (by simp; omega)
    exact ⟨hgap, append_cancel_left hrest⟩
  · rintro ⟨hgap, hrest⟩
    rw [hgap, hrest]

/-- What the check asks of the bounds of a range. -/
def Range.Fits (a b i j : ℕ) (range : Range) : Prop :=
  i ≤ range.a0 ∧ j ≤ range.b0 ∧ range.a0 ≤ range.a1 ∧ range.b0 ≤ range.b1 ∧
    range.a1 ≤ a ∧ range.b1 ≤ b ∧ (range.a0 < range.a1 ∨ range.b0 < range.b1)

variable {blocks : List Block}

/-- The check of a block whose bounds are integers. -/
theorem hold_integers {a0 a1 b0 b1 : ℤ} {last : Bool} :
    hold before after ignoreWhitespace i j (⟨some a0, some a1, some b0, some b1, last⟩ :: blocks) =
      if a0 < i ∨ b0 < j ∨ a1 < a0 ∨ b1 < b0 ∨ a1 > (textLines before).length ∨
        b1 > (textLines after).length then false
      else if (!last ∧ a1 = a0 ∧ b1 = b0) ∨ a0 - i ≠ b0 - j then false
      else if last ∧ a0 > i ∧ !ignoreWhitespace ∧ endsLine before ≠ endsLine after then false
      else if alikeFrom before after ignoreWhitespace i j (a0 - i).toNat then
        hold before after ignoreWhitespace a1.toNat b1.toNat blocks else false := by
  rw [hold]

/-- The mark that the check puts after the blocks. -/
abbrev mark (before after : Text) : Block where
  a0 := some (textLines before).length
  a1 := some (textLines before).length
  b0 := some (textLines after).length
  b1 := some (textLines after).length
  last := true

/-- The blocks from `i` and `j` on are ranges that make what is left of the new text. -/
abbrev Makes (before after : Text) (ignoreWhitespace : Bool) (i j : ℕ) (blocks : List Block) :
    Prop :=
  ∃ ranges : List Range, blocks = ranges.map Range.block ∧
    InOrder (textLines before).length (textLines after).length i j ranges ∧ Aligned i j ranges ∧
    (replaced (textLines before) (textLines after) i ranges).map (shown ignoreWhitespace) =
      ((textLines after).drop j).map (shown ignoreWhitespace) ∧
    (ignoreWhitespace = true ∨ endsLine before = endsLine after ∨
      lastEnd i ranges = (textLines before).length)

theorem hold_nil_iff (hi : i ≤ (textLines before).length) (hj : j ≤ (textLines after).length) :
    hold before after ignoreWhitespace i j [mark before after] = true ↔
      Makes before after ignoreWhitespace i j [] := by
  -- the mark past the last block accepts where as many lines are left on either side, all alike
  have hcheck : hold before after ignoreWhitespace i j [mark before after] = true ↔
      (textLines before).length - i = (textLines after).length - j ∧
        (ignoreWhitespace = true ∨ endsLine before = endsLine after ∨
          i = (textLines before).length) ∧
        alikeFrom before after ignoreWhitespace i j ((textLines before).length - i) = true := by
    rw [hold_integers, if_neg (by omega)]
    have hcount : (((textLines before).length : ℤ) - i).toNat = (textLines before).length - i := by
      omega
    simp only [Bool.not_true, Bool.false_eq_true, false_and, false_or, true_and, hold, hcount]
    split_ifs with halign hend hfrom
    · simp only [false_iff, not_and]
      intro h
      omega
    · simp only [false_iff, not_and]
      rintro - (h | h | h)
      · simp [h] at hend
      · exact absurd h hend.2.2
      · omega
    · simp only [hfrom, true_iff, and_true]
      refine ⟨by omega, ?_⟩
      by_contra hne
      simp only [not_or] at hne
      exact hend ⟨by omega, by simpa using hne.1, hne.2.1⟩
    · simp [hfrom]
  rw [hcheck]
  constructor
  · rintro ⟨halign, hend, hfrom⟩
    refine ⟨[], rfl, trivial, trivial, ?_, hend⟩
    rw [alikeFrom_iff (by omega) (by omega), take_of_length_le (by simp),
      take_of_length_le (by simp; omega)] at hfrom
    exact hfrom
  · rintro ⟨ranges, heq, -, -, hmade, hend⟩
    cases ranges with
    | cons range ranges => cases heq
    | nil =>
      have halign := congrArg List.length hmade
      simp only [replaced, length_map, length_drop] at halign
      refine ⟨halign, hend, ?_⟩
      rw [alikeFrom_iff (by omega) (by omega), take_of_length_le (by simp),
        take_of_length_le (by simp; omega)]
      exact hmade

theorem hold_block_cons {range : Range}
    (hfits : range.Fits (textLines before).length (textLines after).length i j)
    (halign : range.a0 - i = range.b0 - j)
    (hgap : (((textLines before).drop i).take (range.a0 - i)).map (shown ignoreWhitespace) =
      (((textLines after).drop j).take (range.a0 - i)).map (shown ignoreWhitespace)) :
    hold before after ignoreWhitespace i j (range.block :: blocks) =
      hold before after ignoreWhitespace range.a1 range.b1 blocks := by
  obtain ⟨h1, h2, h3, h4, h5, h6, h7⟩ := hfits
  have hfrom : alikeFrom before after ignoreWhitespace i j ((range.a0 : ℤ) - i).toNat = true := by
    have hlength : ((range.a0 : ℤ) - i).toNat = range.a0 - i := by omega
    rw [hlength, alikeFrom_iff (by omega) (by omega)]
    exact hgap
  have hblock : range.block =
      ⟨some range.a0, some range.a1, some range.b0, some range.b1, false⟩ := rfl
  rw [hblock, hold_integers, if_neg (by omega),
    if_neg (by simp only [Bool.not_false, true_and]; omega), if_neg (by simp), if_pos hfrom]
  rfl

/-- A block that the check goes past, and how it goes on. -/
theorem hold_cons {block : Block} (hlast : block.last = false)
    (h : hold before after ignoreWhitespace i j (block :: blocks) = true) :
    ∃ range : Range, block = range.block ∧
      range.Fits (textLines before).length (textLines after).length i j ∧
      range.a0 - i = range.b0 - j ∧
      (((textLines before).drop i).take (range.a0 - i)).map (shown ignoreWhitespace) =
        (((textLines after).drop j).take (range.a0 - i)).map (shown ignoreWhitespace) ∧
      hold before after ignoreWhitespace range.a1 range.b1 blocks = true := by
  obtain ⟨a0, a1, b0, b1, last⟩ := block
  cases hlast
  rw [hold] at h
  split at h
  · rename_i a0' a1' b0' b1' ha0 ha1 hb0 hb1
    obtain ⟨rfl, rfl, rfl, rfl⟩ : a0 = _ ∧ a1 = _ ∧ b0 = _ ∧ b1 = _ := ⟨ha0, ha1, hb0, hb1⟩
    split_ifs at h with hbounds hempty hend hfrom
    simp only [Bool.not_false, true_and, not_or] at hbounds hempty
    lift a0' to ℕ using (by omega) with a0
    lift a1' to ℕ using (by omega) with a1
    lift b0' to ℕ using (by omega) with b0
    lift b1' to ℕ using (by omega) with b1
    refine ⟨⟨a0, a1, b0, b1⟩, rfl, ⟨?_, ?_, ?_, ?_, ?_, ?_, ?_⟩, ?_, ?_, ?_⟩
    all_goals try (simp only; omega)
    · rw [show ((a0 : ℤ) - i).toNat = a0 - i by omega, alikeFrom_iff (by omega) (by omega)] at hfrom
      exact hfrom
    · simpa using h
  · cases h

/-- **The check from a block on**: the blocks are ranges, in order, aligned, and make what is left
of the new text of what is left of the old. -/
theorem hold_iff (hlast : ∀ block ∈ blocks, block.last = false)
    (hi : i ≤ (textLines before).length) (hj : j ≤ (textLines after).length) :
    hold before after ignoreWhitespace i j (blocks ++ [mark before after]) = true ↔
      Makes before after ignoreWhitespace i j blocks := by
  induction blocks generalizing i j with
  | nil => exact hold_nil_iff hi hj
  | cons block blocks ih =>
    obtain ⟨hblock, hblocks⟩ := forall_mem_cons.1 hlast
    constructor
    · intro h
      obtain ⟨range, rfl, hr, halign, hgap, hrest⟩ := hold_cons hblock h
      obtain ⟨ranges, rfl, horder, haligned, hmade, hend⟩ :=
        (ih hblocks hr.2.2.2.2.1 hr.2.2.2.2.2.1).1 hrest
      obtain ⟨h1, h2, h3, h4, h5, h6, h7⟩ := hr
      refine ⟨range :: ranges, rfl, ⟨h1, h2, h3, h4, h5, h6, h7, horder⟩, ⟨halign, haligned⟩,
        ?_, hend⟩
      exact (map_replaced_cons h2 h4 halign h1 (h3.trans h5) h6).2 ⟨hgap, hmade⟩
    · rintro ⟨ranges, heq, horder, haligned, hmade, hend⟩
      cases ranges with
      | nil => cases heq
      | cons range ranges =>
        obtain ⟨rfl, rfl⟩ := List.cons.inj heq
        obtain ⟨h1, h2, h3, h4, h5, h6, h7, horder⟩ := horder
        obtain ⟨halign, haligned⟩ := haligned
        obtain ⟨hgap, hmade⟩ := (map_replaced_cons h2 h4 halign h1 (h3.trans h5) h6).1 hmade
        rw [cons_append, hold_block_cons ⟨h1, h2, h3, h4, h5, h6, h7⟩ halign hgap]
        exact (ih hblocks h5 h6).2 ⟨ranges, rfl, horder, haligned, hmade, hend⟩

/-! ### The check -/

/-- A range in order ends where the last one does, or before it. -/
theorem InOrder.le_lastEnd {a b : ℕ} (h : InOrder a b i j ranges) :
    i ≤ lastEnd i ranges ∧ ∀ range ∈ ranges, range.a1 ≤ lastEnd i ranges := by
  induction ranges generalizing i j with
  | nil => exact ⟨le_rfl, fun _ hr => absurd hr not_mem_nil⟩
  | cons range ranges ih =>
    obtain ⟨h1, -, h3, -, -, -, -, h⟩ := h
    obtain ⟨hi, hranges⟩ := ih h
    refine ⟨(h1.trans h3).trans hi, ?_⟩
    intro range' hr
    rcases mem_cons.1 hr with rfl | hr
    · exact hi
    · exact hranges range' hr

theorem InOrder.lastEnd_le {a b : ℕ} (h : InOrder a b i j ranges)
    (hi : i ≤ a) : lastEnd i ranges ≤ a := by
  induction ranges generalizing i j with
  | nil => exact hi
  | cons range ranges ih => exact ih h.2.2.2.2.2.2.2 h.2.2.2.2.1

/-- Where the last range reaches the end of the old text, some range reaches the end of both, or
none is left of either. -/
theorem reaches_end (horder : InOrder a.length b.length i j ranges) (haligned : Aligned i j ranges)
    (hj : j ≤ b.length) (hmade : (replaced a b i ranges).map f = (b.drop j).map f)
    (hend : lastEnd i ranges = a.length) :
    (i = a.length ∧ j = b.length) ∨
      ∃ range ∈ ranges, range.a1 = a.length ∧ range.b1 = b.length := by
  induction ranges generalizing i j with
  | nil =>
    have hlength := congrArg List.length hmade
    simp only [replaced, length_map, length_drop] at hlength
    simp only [lastEnd] at hend
    exact .inl ⟨hend, by omega⟩
  | cons range ranges ih =>
    obtain ⟨h1, h2, h3, h4, h5, h6, h7, horder⟩ := horder
    obtain ⟨halign, haligned⟩ := haligned
    obtain ⟨-, hrest⟩ := (map_replaced_cons h2 h4 halign h1 (h3.trans h5) h6).1 hmade
    rcases ih horder haligned h6 hrest hend with h | ⟨range', hr, h⟩
    · exact .inr ⟨range, mem_cons_self, h⟩
    · exact .inr ⟨range', mem_cons_of_mem _ hr, h⟩

theorem textLines_eq_nil {text : Text} (h : textLines text = []) : text = [] := by
  rw [textLines] at h
  split_ifs at h with hnil
  · exact hnil
  simp only at h
  split_ifs at h with hlast
  · have hjoin : [newline].intercalate (text.splitOn newline) = text :=
      intercalate_splitOn newline
    cases hl : text.splitOn newline with
    | nil => exact absurd hl (splitOn_ne_nil newline text)
    | cons x xs =>
      rw [hl] at h hlast hjoin
      cases xs with
      | cons y ys => simp at h
      | nil =>
        simp only [getLast?_singleton, Option.some.injEq] at hlast
        rw [← hjoin, hlast]
        rfl
  · exact absurd h (splitOn_ne_nil newline text)

/-- What the ranges make of the old text is the new text's lines, or alike but for whitespace. -/
def Made (before after : Text) (ignoreWhitespace : Bool) (ranges : List Range) : Prop :=
  if ignoreWhitespace then
    (replaced (textLines before) (textLines after) 0 ranges).map spacing =
      (textLines after).map spacing
  else replaced (textLines before) (textLines after) 0 ranges = textLines after

theorem made_iff : Made before after ignoreWhitespace ranges ↔
    (replaced (textLines before) (textLines after) 0 ranges).map (shown ignoreWhitespace) =
      ((textLines after).drop 0).map (shown ignoreWhitespace) := by
  have hid : (shown false : Line → Line) = id := rfl
  cases ignoreWhitespace
  · simp only [Made, Bool.false_eq_true, if_false, hid, map_id_fun, id_eq, drop_zero]
  · rfl

theorem endCovered_iff
    (horder : InOrder (textLines before).length (textLines after).length 0 0 ranges)
    (haligned : Aligned 0 0 ranges) (hmade : Made before after ignoreWhitespace ranges) :
    EndCovered before after ignoreWhitespace ranges ↔
      ignoreWhitespace = true ∨ endsLine before = endsLine after ∨
        lastEnd 0 ranges = (textLines before).length := by
  constructor
  · rintro (h | h | ⟨range, hr, ha, -⟩)
    · exact .inl h
    · exact .inr (.inl h)
    · refine .inr (.inr (le_antisymm (horder.lastEnd_le (Nat.zero_le _)) ?_))
      rw [← ha]
      exact horder.le_lastEnd.2 range hr
  · rintro (h | h | h)
    · exact .inl h
    · exact .inr (.inl h)
    · rcases reaches_end horder haligned (Nat.zero_le _) (made_iff.1 hmade) h with ⟨ha, hb⟩ | h
      · -- neither text has a line, so both are empty
        have hbefore := textLines_eq_nil (length_eq_zero_iff.1 ha.symm)
        have hafter := textLines_eq_nil (length_eq_zero_iff.1 hb.symm)
        rw [hbefore, hafter]
        exact .inr (.inl rfl)
      · exact .inr (.inr h)

/-- **The check accepts what takes the one text to the other, and nothing else**: ranges in order,
apart, within both texts and none empty, with as many lines between them on either side, that make
the new text's lines of the old one's, the last line among them where its newline changed. -/
theorem blocksHold_iff (before after : Text) (ignoreWhitespace : Bool) (blocks : List Block)
    (hlast : ∀ block ∈ blocks, block.last = false) :
    blocksHold before after ignoreWhitespace blocks = true ↔
      ∃ ranges : List Range, blocks = ranges.map Range.block ∧
        InOrder (textLines before).length (textLines after).length 0 0 ranges ∧
        Aligned 0 0 ranges ∧ Made before after ignoreWhitespace ranges ∧
        EndCovered before after ignoreWhitespace ranges := by
  rw [blocksHold, hold_iff hlast (Nat.zero_le _) (Nat.zero_le _)]
  constructor
  · rintro ⟨ranges, heq, horder, haligned, hmade, hend⟩
    have hmade := made_iff.2 hmade
    exact ⟨ranges, heq, horder, haligned, hmade, (endCovered_iff horder haligned hmade).2 hend⟩
  · rintro ⟨ranges, heq, horder, haligned, hmade, hend⟩
    exact ⟨ranges, heq, horder, haligned, made_iff.1 hmade,
      (endCovered_iff horder haligned hmade).1 hend⟩

/-- A line put before the one it repeats is accepted. -/
theorem blocksHold_iff_repeated :
    ∃ ranges : List Range, [(⟨0, 0, 0, 1⟩ : Range).block] = ranges.map Range.block ∧
      InOrder 1 2 0 0 ranges ∧ Aligned 0 0 ranges ∧
      Made [120, newline] [120, newline, 120, newline] false ranges ∧
      EndCovered [120, newline] [120, newline, 120, newline] false ranges :=
  (blocksHold_iff [120, newline] [120, newline, 120, newline] false _ (by simp [Range.block])).1
    (by decide)

/-- Said to be the second of the new text, where none is left between on that side's old line, it
makes the same lines, and is refused. -/
theorem blocksHold_misplaced :
    InOrder (textLines [120, newline]).length (textLines [120, newline, 120, newline]).length 0 0
        [⟨0, 0, 1, 2⟩] ∧
      Made [120, newline] [120, newline, 120, newline] false [⟨0, 0, 1, 2⟩] ∧
      EndCovered [120, newline] [120, newline, 120, newline] false [⟨0, 0, 1, 2⟩] ∧
      blocksHold [120, newline] [120, newline, 120, newline] false
        [(⟨0, 0, 1, 2⟩ : Range).block] = false := by
  refine ⟨?_, ?_, .inr (.inl rfl), by decide⟩
  · simp only [InOrder]
    decide
  · rw [Made, if_neg (by decide)]
    decide

/-! ### The other way round -/

/-- A block as it takes the new text to the old. -/
def Block.turned (block : Block) : Block := ⟨block.b0, block.b1, block.a0, block.a1, block.last⟩

theorem alikeFrom_turned (count : ℕ) : alikeFrom after before ignoreWhitespace j i count =
    alikeFrom before after ignoreWhitespace i j count := by
  induction count generalizing i j with
  | zero => rfl
  | succ count ih =>
    rw [alikeFrom, alikeFrom, ih]
    congr 1
    rw [Bool.eq_iff_iff, alike_iff, alike_iff, eq_comm]

/-- The bounds, the gap and the end are asked for alike on either side. -/
theorem hold_turned (blocks : List Block) :
    hold after before ignoreWhitespace j i (blocks.map Block.turned) =
      hold before after ignoreWhitespace i j blocks := by
  induction blocks generalizing i j with
  | nil => rfl
  | cons block blocks ih =>
    obtain ⟨_ | a0, _ | a1, _ | b0, _ | b1, last⟩ := block <;> try rfl
    rw [map_cons, Block.turned, hold_integers, hold_integers, ih]
    refine if_ctx_congr (by omega) (fun _ => rfl) fun _ => ?_
    refine if_ctx_congr (or_congr (and_congr_right' and_comm) ne_comm) (fun _ => rfl) fun hal => ?_
    have hgap : b0 - j = a0 - i := by omega
    rw [hgap, alikeFrom_turned]
    refine if_congr ?_ rfl rfl
    rw [ne_comm (a := endsLine after)]
    exact and_congr_right' (and_congr_left' (by omega))

/-- **A diff holds the other way round exactly where it holds**: the blocks that take one text to
another are accepted, each turned, from the other to the one. -/
theorem blocksHold_turned (before after : Text) (ignoreWhitespace : Bool) (blocks : List Block) :
    blocksHold after before ignoreWhitespace (blocks.map Block.turned) =
      blocksHold before after ignoreWhitespace blocks := by
  rw [blocksHold, blocksHold, ← @hold_turned before after, map_append]
  rfl

end Triage.LineDiff
