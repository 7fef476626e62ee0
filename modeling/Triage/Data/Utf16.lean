import Mathlib.Data.List.Basic

/-!
# Strings in UTF-16

A string is a sequence of code units. Two surrogates, a high one and then a low one, are one code
point; one that is not in such a pair stands alone.
-/

namespace Triage.Utf16

abbrev Units := List UInt16

/-- The units of a text in ASCII. -/
def units (text : String) : Units := text.toList.map fun c => .ofNat c.toNat

def isHigh (u : UInt16) : Bool := 0xD800 ≤ u ∧ u ≤ 0xDBFF

def isLow (u : UInt16) : Bool := 0xDC00 ≤ u ∧ u ≤ 0xDFFF

/-- The code point of a high and a low surrogate. -/
def pair (high low : UInt16) : ℕ :=
  0x10000 + (high.toNat - 0xD800) * 0x400 + (low.toNat - 0xDC00)

def codePoints : Units → List ℕ
  | [] => []
  | [u] => [u.toNat]
  | u :: v :: rest =>
    if isHigh u ∧ isLow v then pair u v :: codePoints rest else u.toNat :: codePoints (v :: rest)

/-- A surrogate. -/
def Lone (c : ℕ) : Prop := 0xD800 ≤ c ∧ c ≤ 0xDFFF

instance (c : ℕ) : Decidable (Lone c) := inferInstanceAs (Decidable (_ ∧ _))

/-- `isWellFormed()` -/
def WellFormed (text : Units) : Prop := ∀ c ∈ codePoints text, ¬Lone c

instance (text : Units) : Decidable (WellFormed text) := inferInstanceAs (Decidable (∀ c ∈ _, _))

/-- The bytes of a code point in UTF-8. -/
def utf8 (c : ℕ) : List ℕ :=
  if c < 0x80 then [c]
  else if c < 0x800 then [0xC0 + c / 0x40, 0x80 + c % 0x40]
  else if c < 0x10000 then [0xE0 + c / 0x1000, 0x80 + c / 0x40 % 0x40, 0x80 + c % 0x40]
  else [0xF0 + c / 0x40000, 0x80 + c / 0x1000 % 0x40, 0x80 + c / 0x40 % 0x40, 0x80 + c % 0x40]

/-- Without surrogates each unit is a code point. -/
theorem codePoints_of_not_high {text : Units} (h : ∀ u ∈ text, isHigh u = false) :
    codePoints text = text.map UInt16.toNat := by
  fun_induction codePoints text with
  | case1 => rfl
  | case2 u => rfl
  | case3 u v rest hpair ih =>
    rw [h u (List.mem_cons_self ..)] at hpair
    exact absurd hpair.1 Bool.false_ne_true
  | case4 u v rest _ ih =>
    rw [ih fun w hw => h w (List.mem_cons_of_mem _ hw)]
    rfl

end Triage.Utf16
