import Triage.Data.Utf16

/-!
# Percent-encoding

Every code point of a string is written as it is, or its bytes as two digits each after a percent
sign. What is read back is a code point for each such group of bytes.

## Main results

* `decode_encode` : what was encoded is read back.
* `mem_encode` : it is made of percent signs and characters that need no encoding.
-/

namespace Triage.Percent

open Utf16 List Option UInt16

/-- The sign before two digits. -/
def sign : UInt16 := 0x25

/-- Letters, digits and `-_.!~*'()`. -/
def isUnreserved (c : ℕ) : Bool :=
  (0x30 ≤ c ∧ c ≤ 0x39) ∨ (0x41 ≤ c ∧ c ≤ 0x5A) ∨ (0x61 ≤ c ∧ c ≤ 0x7A) ∨
    c ∈ [0x2D, 0x5F, 0x2E, 0x21, 0x7E, 0x2A, 0x27, 0x28, 0x29]

def hexDigit (d : ℕ) : UInt16 := .ofNat (if d < 10 then 0x30 + d else 0x37 + d)

def hexValue (u : UInt16) : Option ℕ :=
  if 0x30 ≤ u ∧ u ≤ 0x39 then some (u.toNat - 0x30)
  else if 0x41 ≤ u ∧ u ≤ 0x46 then some (u.toNat - 0x37)
  else if 0x61 ≤ u ∧ u ≤ 0x66 then some (u.toNat - 0x57)
  else none

/-- A byte as its sign and digits. -/
def escape (b : ℕ) : Units := [sign, hexDigit (b / 0x10), hexDigit (b % 0x10)]

def encodePoint (c : ℕ) : Units :=
  if isUnreserved c then [.ofNat c] else (utf8 c).flatMap escape

/-- `encodeURIComponent`, which throws on a surrogate that stands alone. -/
def encodeURIComponent (text : Units) : Option Units :=
  if WellFormed text then some ((codePoints text).flatMap encodePoint) else none

/-- The units of a code point. -/
def unitsOf (c : ℕ) : Units :=
  if c < 0x10000 then [.ofNat c]
  else [.ofNat (0xD800 + (c - 0x10000) / 0x400), .ofNat (0xDC00 + (c - 0x10000) % 0x400)]

/-- The byte of a sign with two digits, and what is behind. -/
def readByte : Units → Option (ℕ × Units)
  | p :: h :: l :: rest =>
    if p = sign then
      (hexValue h).bind fun a => (hexValue l).map fun b => (a * 0x10 + b, rest)
    else none
  | _ => none

def readBytes : ℕ → Units → Option (List ℕ × Units)
  | 0, text => some ([], text)
  | n + 1, text =>
    (readByte text).bind fun p => (readBytes n p.2).map fun q => (p.1 :: q.1, q.2)

/-- How many bytes a first byte has behind it. -/
def following (b : ℕ) : Option ℕ :=
  if b < 0x80 then some 0
  else if b < 0xC0 then none
  else if b < 0xE0 then some 1
  else if b < 0xF0 then some 2
  else if b < 0xF8 then some 3
  else none

/-- The bits of a group of bytes. -/
def bitsOf : List ℕ → ℕ
  | [b] => b
  | [b, b'] => b % 0x20 * 0x40 + b' % 0x40
  | [b, b', b''] => b % 0x10 * 0x1000 + b' % 0x40 * 0x40 + b'' % 0x40
  | [b, b', b'', b'''] => b % 8 * 0x40000 + b' % 0x40 * 0x1000 + b'' % 0x40 * 0x40 + b''' % 0x40
  | _ => 0

/-- The code point of a group of bytes, where they are its encoding. -/
def readPoint (text : Units) : Option (ℕ × Units) :=
  (readByte text).bind fun p => (following p.1).bind fun n =>
    (readBytes n p.2).bind fun q =>
      have c := bitsOf (p.1 :: q.1)
      if c ≤ 0x10FFFF ∧ ¬Lone c ∧ utf8 c = p.1 :: q.1 then some (c, q.2) else none

/-- Reads on, for so many steps. -/
def decodeFrom : ℕ → Units → Option Units
  | 0, _ => none
  | _ + 1, [] => some []
  | n + 1, u :: rest =>
    if u = sign then
      (readPoint (u :: rest)).bind fun p => (decodeFrom n p.2).map (unitsOf p.1 ++ ·)
    else (decodeFrom n rest).map (u :: ·)

/-- `decodeURIComponent`, which throws on what is no encoding; each step reads a unit at least. -/
def decodeURIComponent (text : Units) : Option Units := decodeFrom (text.length + 1) text

/-! ### Code points -/

theorem toNat_unit {n : ℕ} (h : n < 0x10000) : (ofNat n).toNat = n := by
  rw [toNat_ofNat']
  exact Nat.mod_eq_of_lt h

theorem pair_spec {u v : UInt16} (h : isHigh u = true ∧ isLow v = true) :
    ((0xD800 ≤ u.toNat ∧ u.toNat ≤ 0xDBFF) ∧ 0xDC00 ≤ v.toNat ∧ v.toNat ≤ 0xDFFF) ∧
      pair u v = 0x10000 + (u.toNat - 0xD800) * 0x400 + (v.toNat - 0xDC00) := by
  simp only [isHigh, isLow, decide_eq_true_eq, le_iff_toNat_le] at h
  exact ⟨h, rfl⟩

/-- The units of the code points are the string. -/
theorem flatMap_unitsOf (text : Units) : (codePoints text).flatMap unitsOf = text := by
  have hone : ∀ u : UInt16, unitsOf u.toNat = [u] := by
    intro u
    rw [unitsOf, if_pos u.toNat_lt, UInt16.ofNat_toNat]
  fun_induction codePoints text with
  | case1 => rfl
  | case2 u => rw [flatMap_singleton, hone]
  | case3 u v rest hpair ih =>
    have hpoint := pair_spec hpair
    have hfirst : 0xD800 + (pair u v - 0x10000) / 0x400 = u.toNat := by omega
    have hsecond : 0xDC00 + (pair u v - 0x10000) % 0x400 = v.toNat := by omega
    have hlarge : ¬pair u v < 0x10000 := by omega
    rw [flatMap_cons, ih, unitsOf, if_neg hlarge, hfirst, hsecond, UInt16.ofNat_toNat,
      UInt16.ofNat_toNat]
    rfl
  | case4 u v rest _ ih =>
    rw [flatMap_cons, ih, hone]
    rfl

/-- The code points of the units are the points. -/
theorem codePoints_unitsOf_append {c : ℕ} (hc : c ≤ 0x10FFFF) (hlone : ¬Lone c) (rest : Units) :
    codePoints (unitsOf c ++ rest) = c :: codePoints rest := by
  rw [Lone] at hlone
  by_cases hsmall : c < 0x10000
  · have hhigh : ∀ v, ¬(isHigh (.ofNat c) = true ∧ isLow v = true) := fun v h => by
      have := (pair_spec h).1.1
      rw [toNat_unit hsmall] at this
      omega
    rw [unitsOf, if_pos hsmall, singleton_append]
    rcases rest with _ | ⟨v, rest⟩
    · exact congrArg (fun c => [c]) (toNat_unit hsmall)
    · rw [codePoints, if_neg (hhigh v), toNat_unit hsmall]
  · obtain ⟨a, ha⟩ : ∃ a, a = 0xD800 + (c - 0x10000) / 0x400 := ⟨_, rfl⟩
    obtain ⟨b, hb⟩ : ∃ b, b = 0xDC00 + (c - 0x10000) % 0x400 := ⟨_, rfl⟩
    have hhigh := toNat_unit (show a < 0x10000 by omega)
    have hlow := toNat_unit (show b < 0x10000 by omega)
    have hsurrogates : isHigh (.ofNat a) = true ∧ isLow (.ofNat b) = true := by
      simp only [isHigh, isLow, decide_eq_true_eq, le_iff_toNat_le, hhigh, hlow, reduceToNat]
      omega
    have hpair := (pair_spec hsurrogates).2
    have hpoint : 0x10000 + (a - 0xD800) * 0x400 + (b - 0xDC00) = c := by omega
    rw [hhigh, hlow, hpoint] at hpair
    rw [unitsOf, if_neg hsmall, ← ha, ← hb, cons_append, singleton_append, codePoints,
      if_pos hsurrogates, hpair]

theorem codePoints_le {text : Units} : ∀ c ∈ codePoints text, c ≤ 0x10FFFF := by
  have hone : ∀ u : UInt16, u.toNat ≤ 0x10FFFF := fun u => by have := u.toNat_lt; omega
  fun_induction codePoints text with
  | case1 => exact fun c hc => absurd hc not_mem_nil
  | case2 u => exact forall_mem_singleton.2 (hone u)
  | case3 u v rest hpair ih =>
    have hpoint := pair_spec hpair
    exact forall_mem_cons.2 ⟨by omega, ih⟩
  | case4 u v rest _ ih => exact forall_mem_cons.2 ⟨hone u, ih⟩

/-! ### Reading back -/

variable {b c n : ℕ} {rest : Units}

theorem hexValue_hexDigit : ∀ d < 16, hexValue (hexDigit d) = some d := by decide

theorem readByte_escape (hb : b < 0x100) : readByte (escape b ++ rest) = some (b, rest) := by
  rw [escape]
  dsimp only [cons_append, nil_append]
  rw [readByte, if_pos rfl, hexValue_hexDigit _ (by omega), hexValue_hexDigit _ (by omega)]
  dsimp only [bind_some, map_some]
  rw [show b / 0x10 * 0x10 + b % 0x10 = b by omega]

theorem readBytes_escape {bs : List ℕ} (hbs : ∀ b ∈ bs, b < 0x100) :
    readBytes bs.length (bs.flatMap escape ++ rest) = some (bs, rest) := by
  induction bs with
  | nil => rfl
  | cons b bs ih =>
    obtain ⟨hb, hbs⟩ := forall_mem_cons.1 hbs
    rw [length_cons, readBytes, flatMap_cons, append_assoc, readByte_escape hb, bind_some, ih hbs]
    rfl

/-- The bytes of a code point: the first tells how many follow, and their bits are the point's. -/
theorem utf8_spec (hc : c ≤ 0x10FFFF) : ∃ b bs, utf8 c = b :: bs ∧ following b = some bs.length ∧
    bitsOf (b :: bs) = c ∧ ∀ b' ∈ b :: bs, b' < 0x100 := by
  rw [utf8]
  split_ifs with h₁ h₂ h₃
  · refine ⟨c, [], rfl, if_pos h₁, rfl, ?_⟩
    simp only [forall_mem_singleton]
    omega
  · refine ⟨_, _, rfl, ?_, ?_, ?_⟩
    · rw [following, if_neg (by omega), if_neg (by omega), if_pos (by omega)]
      rfl
    · simp only [bitsOf]
      omega
    · simp only [forall_mem_cons, not_mem_nil, false_imp_iff, implies_true, and_true]
      omega
  · refine ⟨_, _, rfl, ?_, ?_, ?_⟩
    · rw [following, if_neg (by omega), if_neg (by omega), if_neg (by omega), if_pos (by omega)]
      rfl
    · simp only [bitsOf]
      omega
    · simp only [forall_mem_cons, not_mem_nil, false_imp_iff, implies_true, and_true]
      omega
  · refine ⟨_, _, rfl, ?_, ?_, ?_⟩
    · rw [following, if_neg (by omega), if_neg (by omega), if_neg (by omega), if_neg (by omega),
        if_pos (by omega)]
      rfl
    · simp only [bitsOf]
      omega
    · simp only [forall_mem_cons, not_mem_nil, false_imp_iff, implies_true, and_true]
      omega

theorem decodeFrom_encodePoint (hc : c ≤ 0x10FFFF) (hlone : ¬Lone c) :
    decodeFrom (n + 1) (encodePoint c ++ rest) = (decodeFrom n rest).map (unitsOf c ++ ·) := by
  rw [encodePoint]
  split
  · rename_i hplain
    have hsmall : c < 0x80 := by
      simp only [isUnreserved, mem_cons, not_mem_nil, or_false, decide_eq_true_eq]
        at hplain
      omega
    have hunits : unitsOf c = [ofNat c] := if_pos (by omega)
    have hsign : ofNat c ≠ sign := by
      intro h
      have hnat : c = 0x25 := by
        rw [← toNat_unit (n := c) (by omega), h]
        rfl
      rw [hnat] at hplain
      exact absurd hplain (by decide)
    rw [hunits]
    dsimp only [cons_append, nil_append]
    rw [decodeFrom, if_neg hsign]
  · obtain ⟨b, bs, hutf8, hfollowing, hbits, hbytes⟩ := utf8_spec hc
    obtain ⟨hb, hbs⟩ := forall_mem_cons.1 hbytes
    have hpoint : readPoint (escape b ++ (bs.flatMap escape ++ rest)) = some (c, rest) := by
      rw [readPoint, readByte_escape hb, bind_some, hfollowing, bind_some,
        readBytes_escape hbs, bind_some]
      dsimp only
      rw [hbits, if_pos ⟨hc, hlone, hutf8⟩]
    rw [hutf8, flatMap_cons, append_assoc]
    rw [escape] at hpoint ⊢
    dsimp only [cons_append, nil_append] at hpoint ⊢
    rw [decodeFrom, if_pos rfl, hpoint, bind_some]

theorem length_encodePoint_pos (c : ℕ) : 0 < (encodePoint c).length := by
  rw [encodePoint, utf8]
  split_ifs <;> simp [escape]

/-- **What was encoded is read back.** -/
theorem decode_encode {text encoded : Units} (h : encodeURIComponent text = some encoded) :
    decodeURIComponent encoded = some text := by
  obtain ⟨hwf, heq⟩ := ite_none_right_eq_some.1 h
  have hall : ∀ (cs : List ℕ) (n : ℕ), (∀ c ∈ cs, c ≤ 0x10FFFF ∧ ¬Lone c) →
      (cs.flatMap encodePoint).length < n →
      decodeFrom n (cs.flatMap encodePoint) = some (cs.flatMap unitsOf) := by
    intro cs
    induction cs with
    | nil =>
      intro n _ hn
      obtain ⟨m, rfl⟩ := Nat.exists_eq_add_one_of_ne_zero (Nat.ne_of_gt hn)
      rfl
    | cons c cs ih =>
      intro n hcs hn
      obtain ⟨⟨hc, hlone⟩, hcs⟩ := forall_mem_cons.1 hcs
      have hpos := length_encodePoint_pos c
      rw [flatMap_cons, length_append] at hn
      obtain ⟨m, rfl⟩ := Nat.exists_eq_add_one_of_ne_zero (Nat.ne_of_gt (by omega : 0 < n))
      rw [flatMap_cons, decodeFrom_encodePoint hc hlone, ih m hcs (by omega)]
      rfl
  have hdecoded := hall (codePoints text) (encoded.length + 1)
    (fun c hc => ⟨codePoints_le c hc, hwf c hc⟩) (by rw [← some.inj heq]; omega)
  rw [flatMap_unitsOf, some.inj heq] at hdecoded
  exact hdecoded

/-- What an encoded string is made of. -/
theorem mem_encode {text encoded : Units} (h : encodeURIComponent text = some encoded)
    {u : UInt16} (hu : u ∈ encoded) : u = sign ∨ isUnreserved u.toNat = true := by
  obtain ⟨-, heq⟩ := ite_none_right_eq_some.1 h
  rw [← some.inj heq] at hu
  obtain ⟨c, hc, hu⟩ := mem_flatMap.1 hu
  have hdigit : ∀ d < 16, isUnreserved (hexDigit d).toNat = true := by decide
  have hpoint := codePoints_le c hc
  rw [encodePoint] at hu
  split at hu
  · rename_i hplain
    have hsmall : c < 0x10000 := by
      simp only [isUnreserved, mem_cons, not_mem_nil, or_false, decide_eq_true_eq]
        at hplain
      omega
    rw [mem_singleton.1 hu, toNat_unit hsmall]
    exact .inr hplain
  · obtain ⟨b, bs, hutf8, -, -, hbytes⟩ := utf8_spec hpoint
    obtain ⟨b', hb', hu⟩ := mem_flatMap.1 hu
    have hbyte := hbytes b' (hutf8 ▸ hb')
    simp only [escape, mem_cons, not_mem_nil, or_false] at hu
    rcases hu with rfl | rfl | rfl
    · exact .inl rfl
    · exact .inr (hdigit _ (by omega))
    · exact .inr (hdigit _ (by omega))

end Triage.Percent
