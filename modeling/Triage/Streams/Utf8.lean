import Triage.Streams.Transducer

/-!
# Decoding UTF-8 as it arrives

The UTF-8 decoder of the WHATWG encoding standard, one byte at a time, and the `TextDecoder` over
it. A character may be cut between two pieces of input, and a byte that cannot continue a
character ends it with an error and is looked at again.

## Main results

* `utf8Decoder_encode` : decoding what was encoded gives the text, and leaves nothing owed.
* `textDecoder_encode` : the same of a `TextDecoder`, for text with no byte order mark in front.
* `decodeUtf8_encode`, `dropMark_eq_self_iff` : what a decoder that throws makes of encoded text.
-/

namespace Triage.Streams

open Transducer List UInt8

/-- Where the decoder stands inside a character: how many bytes it still needs, the bounds of the
next one, and the bits read so far. -/
structure Utf8State where
  needed : ℕ
  lower : ℕ
  upper : ℕ
  codePoint : ℕ
  deriving DecidableEq

/-- Between two characters. -/
def Utf8State.start : Utf8State := ⟨0, 0x80, 0xBF, 0⟩

/-- The first byte of a character. -/
def utf8Lead (b : UInt8) : List (Option Char) × Utf8State :=
  if b.toNat ≤ 0x7F then ([some (.ofNat b.toNat)], .start)
  else if 0xC2 ≤ b.toNat ∧ b.toNat ≤ 0xDF then ([], ⟨1, 0x80, 0xBF, b.toNat % 0x20⟩)
  else if 0xE0 ≤ b.toNat ∧ b.toNat ≤ 0xEF then
    ([], ⟨2, if b.toNat = 0xE0 then 0xA0 else 0x80, if b.toNat = 0xED then 0x9F else 0xBF,
      b.toNat % 0x10⟩)
  else if 0xF0 ≤ b.toNat ∧ b.toNat ≤ 0xF4 then
    ([], ⟨3, if b.toNat = 0xF0 then 0x90 else 0x80, if b.toNat = 0xF4 then 0x8F else 0xBF,
      b.toNat % 0x08⟩)
  else ([none], .start)

/-- One byte. -/
def utf8Step (s : Utf8State) (b : UInt8) : List (Option Char) × Utf8State :=
  if s.needed = 0 then utf8Lead b
  -- the byte is read again as the first of the next character
  else if b.toNat < s.lower ∨ s.upper < b.toNat then (none :: (utf8Lead b).1, (utf8Lead b).2)
  else if s.needed = 1 then
    ([some (.ofNat (s.codePoint * 0x40 + b.toNat % 0x40))], .start)
  else ([], ⟨s.needed - 1, 0x80, 0xBF, s.codePoint * 0x40 + b.toNat % 0x40⟩)

/-- The decoder of a stream of bytes. -/
def utf8Decoder : Transducer Utf8State UInt8 (Option Char) := ofStep .start utf8Step

/-- What the decoder still emits when the stream ends: an error for a character cut off. -/
def Utf8State.finish (s : Utf8State) : List (Option Char) := if s.needed = 0 then [] else [none]

/-- The encoder. -/
def encodeUtf8 (text : List Char) : List UInt8 := text.flatMap String.utf8EncodeChar

/-- The byte order mark. -/
def byteOrderMark : Char := '\uFEFF'

/-- What a `TextDecoder` makes of what the decoder emits: it replaces errors, and drops a byte order
mark if nothing came before it. -/
def markStep (seen : Bool) (c : Option Char) : List Char × Bool :=
  if !seen && c == some byteOrderMark then ([], true) else ([c.getD '\uFFFD'], true)

/-- A `TextDecoder` in stream mode. -/
def textDecoder : Transducer (Utf8State × Bool) UInt8 Char :=
  utf8Decoder.comp (ofStep false markStep)

/-- Text without a byte order mark in front. -/
def dropMark : List Char → List Char
  | [] => []
  | c :: rest => if c = byteOrderMark then rest else c :: rest

/-- A `TextDecoder` for whole inputs that throws on the first error; it keeps a byte order mark in
front if it is told to ignore it. -/
def decodeUtf8 (ignoreBOM : Bool) (bytes : List UInt8) : Option (List Char) :=
  let read := utf8Decoder.feed .start bytes
  ((read.1 ++ read.2.finish).mapM id).map fun text => if ignoreBOM then text else dropMark text

theorem splits_textDecoder : textDecoder.Splits :=
  (splits_ofStep _ _).comp (splits_ofStep _ _)

/-! ### What was encoded -/

theorem utf8Step_start (b : UInt8) : utf8Step .start b = utf8Lead b := if_pos rfl

/-- The bytes after the first continue the character. -/
theorem utf8_next {n l u p q : ℕ} (hn : n ≠ 0) (hl : l ≤ q % 0x40 + 0x80)
    (hu : q % 0x40 + 0x80 ≤ u) (hq : q / 0x40 = p) :
    utf8Step ⟨n + 1, l, u, p⟩ (ofNat (q % 0x40 + 0x80)) = ([], ⟨n, 0x80, 0xBF, q⟩) := by
  have hb : (ofNat (q % 0x40 + 0x80)).toNat = q % 0x40 + 0x80 := by
    simp only [toNat_ofNat']; omega
  have hcode : p * 0x40 + (q % 0x40 + 0x80) % 0x40 = q := by omega
  simp only [utf8Step, hb, hcode]
  rw [if_neg (by omega), if_neg (by omega), if_neg (by omega), Nat.add_sub_cancel]

/-- The last byte of a character. -/
theorem utf8_last {l u p q : ℕ} (hl : l ≤ q % 0x40 + 0x80) (hu : q % 0x40 + 0x80 ≤ u)
    (hq : q / 0x40 = p) :
    utf8Step ⟨1, l, u, p⟩ (ofNat (q % 0x40 + 0x80)) = ([some (.ofNat q)], .start) := by
  have hb : (ofNat (q % 0x40 + 0x80)).toNat = q % 0x40 + 0x80 := by
    simp only [toNat_ofNat']; omega
  have hcode : p * 0x40 + (q % 0x40 + 0x80) % 0x40 = q := by omega
  simp only [utf8Step, hb, hcode]
  rw [if_neg (by omega), if_neg (by omega), if_pos trivial]

variable {v : ℕ}

theorem utf8_one (h : v ≤ 0x7F) :
    foldSteps utf8Step .start [ofNat v] = ([some (.ofNat v)], .start) := by
  have hb : (ofNat v).toNat = v := by simp only [toNat_ofNat']; omega
  simp [foldSteps, utf8Step_start, utf8Lead, hb, h]

theorem utf8_two (h : 0x7F < v) (h' : v ≤ 0x7FF) :
    foldSteps utf8Step .start [ofNat (v / 64 % 0x20 + 0xC0), ofNat (v % 0x40 + 0x80)] =
      ([some (.ofNat v)], .start) := by
  have hb : (ofNat (v / 64 % 0x20 + 0xC0)).toNat = v / 64 + 0xC0 := by
    simp only [toNat_ofNat']; omega
  have hcode : (v / 64 + 0xC0) % 0x20 = v / 64 := by omega
  have hlead : utf8Lead (ofNat (v / 64 % 0x20 + 0xC0)) = ([], ⟨1, 0x80, 0xBF, v / 64⟩) := by
    rw [utf8Lead, hb, if_neg (by omega), if_pos (by omega), hcode]
  have hlast := utf8_last (l := 0x80) (u := 0xBF) (p := v / 64) (q := v) (by omega) (by omega) rfl
  simp only [foldSteps, utf8Step_start, hlead, hlast, nil_append, append_nil]

theorem utf8_three (h : 0x7FF < v) (h' : v ≤ 0xFFFF) (hsurrogate : v < 0xD800 ∨ 0xDFFF < v) :
    foldSteps utf8Step .start [ofNat (v / 4096 % 0x10 + 0xE0),
        ofNat (v / 64 % 0x40 + 0x80), ofNat (v % 0x40 + 0x80)] =
      ([some (.ofNat v)], .start) := by
  have hb : (ofNat (v / 4096 % 0x10 + 0xE0)).toNat = v / 4096 + 0xE0 := by
    simp only [toNat_ofNat']; omega
  have hcode : (v / 4096 + 0xE0) % 0x10 = v / 4096 := by omega
  have hlead : utf8Lead (ofNat (v / 4096 % 0x10 + 0xE0)) =
      ([], ⟨2, if v / 4096 + 0xE0 = 0xE0 then 0xA0 else 0x80,
        if v / 4096 + 0xE0 = 0xED then 0x9F else 0xBF, v / 4096⟩) := by
    rw [utf8Lead, hb, if_neg (by omega), if_neg (by omega), if_pos (by omega), hcode]
  have hnext := utf8_next (n := 1) (l := if v / 4096 + 0xE0 = 0xE0 then 0xA0 else 0x80)
    (u := if v / 4096 + 0xE0 = 0xED then 0x9F else 0xBF) (p := v / 4096) (q := v / 64)
    (by omega) (by split_ifs <;> omega) (by split_ifs <;> omega) (by omega)
  have hlast := utf8_last (l := 0x80) (u := 0xBF) (p := v / 64) (q := v) (by omega) (by omega) rfl
  simp only [foldSteps, utf8Step_start, hlead, hnext, hlast, nil_append, append_nil]

theorem utf8_four (h : 0xFFFF < v) (h' : v ≤ 0x10FFFF) :
    foldSteps utf8Step .start [ofNat (v / 262144 % 0x08 + 0xF0),
        ofNat (v / 4096 % 0x40 + 0x80), ofNat (v / 64 % 0x40 + 0x80), ofNat (v % 0x40 + 0x80)] =
      ([some (.ofNat v)], .start) := by
  have hb : (ofNat (v / 262144 % 0x08 + 0xF0)).toNat = v / 262144 + 0xF0 := by
    simp only [toNat_ofNat']; omega
  have hcode : (v / 262144 + 0xF0) % 0x08 = v / 262144 := by omega
  have hlead : utf8Lead (ofNat (v / 262144 % 0x08 + 0xF0)) =
      ([], ⟨3, if v / 262144 + 0xF0 = 0xF0 then 0x90 else 0x80,
        if v / 262144 + 0xF0 = 0xF4 then 0x8F else 0xBF, v / 262144⟩) := by
    rw [utf8Lead, hb, if_neg (by omega), if_neg (by omega), if_neg (by omega), if_pos (by omega),
      hcode]
  have hsecond := utf8_next (n := 2) (l := if v / 262144 + 0xF0 = 0xF0 then 0x90 else 0x80)
    (u := if v / 262144 + 0xF0 = 0xF4 then 0x8F else 0xBF) (p := v / 262144) (q := v / 4096)
    (by omega) (by split_ifs <;> omega) (by split_ifs <;> omega) (by omega)
  have hthird := utf8_next (n := 1) (l := 0x80) (u := 0xBF) (p := v / 4096) (q := v / 64)
    (by omega) (by omega) (by omega) (by omega)
  have hlast := utf8_last (l := 0x80) (u := 0xBF) (p := v / 64) (q := v) (by omega) (by omega) rfl
  simp only [foldSteps, utf8Step_start, hlead, hsecond, hthird, hlast, nil_append, append_nil]

/-- The bytes of one character give the character. -/
theorem utf8_encodeChar (c : Char) :
    foldSteps utf8Step .start (String.utf8EncodeChar c) = ([some c], .start) := by
  have hc : Char.ofNat c.val.toNat = c := Char.ofNat_toNat c
  have hvalid : c.val.toNat < 0xD800 ∨ 0xDFFF < c.val.toNat ∧ c.val.toNat < 0x110000 := c.valid
  have hencode : foldSteps utf8Step .start (String.utf8EncodeChar c) =
      ([some (.ofNat c.val.toNat)], .start) := by
    simp only [String.utf8EncodeChar]
    split_ifs with h₁ h₂ h₃
    · exact utf8_one h₁
    · exact utf8_two (by omega) h₂
    · exact utf8_three (by omega) h₃ (by omega)
    · exact utf8_four (by omega) (by omega)
  rw [hencode, hc]

theorem utf8Decoder_encode (text : List Char) :
    utf8Decoder.feed .start (encodeUtf8 text) = (text.map some, .start) := by
  show foldSteps utf8Step .start (text.flatMap _) = _
  induction text with
  | nil => rfl
  | cons c rest ih =>
    rw [flatMap_cons, foldSteps_append, utf8_encodeChar, ih]
    rfl

/-- After the first character nothing is dropped. -/
theorem foldSteps_markStep (text : List Char) :
    foldSteps markStep true (text.map some) = (text, true) := by
  induction text with
  | nil => rfl
  | cons c rest ih =>
    rw [map_cons, foldSteps, show markStep true (some c) = ([c], true) from rfl, ih]
    rfl

/-- **A `TextDecoder` gives back the text that was encoded**, whatever follows. -/
theorem textDecoder_encode {c : Char} (hc : c ≠ byteOrderMark) (text : List Char) :
    textDecoder.feed textDecoder.init (encodeUtf8 (c :: text)) = (c :: text, .start, true) := by
  have hmark : markStep false (some c) = ([c], true) := by simp [markStep, hc]
  have hfold : foldSteps markStep false ((c :: text).map some) = (c :: text, true) := by
    rw [map_cons, foldSteps, hmark, foldSteps_markStep]
    rfl
  show ((foldSteps markStep false (utf8Decoder.feed .start (encodeUtf8 (c :: text))).1).1,
    (utf8Decoder.feed .start (encodeUtf8 (c :: text))).2,
    (foldSteps markStep false (utf8Decoder.feed .start (encodeUtf8 (c :: text))).1).2) = _
  rw [utf8Decoder_encode, hfold]

theorem mapM_id_some {α : Type*} (xs : List α) : (xs.map some).mapM id = some xs := by
  induction xs with
  | nil => rfl
  | cons x xs ih => simp [ih]

theorem decodeUtf8_encode (ignoreBOM : Bool) (text : List Char) :
    decodeUtf8 ignoreBOM (encodeUtf8 text) = some (if ignoreBOM then text else dropMark text) := by
  have hread : (text.map some ++ Utf8State.start.finish).mapM id = some text := by
    rw [Utf8State.finish, if_pos (show Utf8State.start.needed = 0 from rfl), append_nil,
      mapM_id_some]
  rw [decodeUtf8, utf8Decoder_encode, hread]
  rfl

/-- Dropping a byte order mark changes nothing exactly where there is none in front. -/
theorem dropMark_eq_self_iff {text : List Char} :
    dropMark text = text ↔ text.head? ≠ some byteOrderMark := by
  cases text with
  | nil => exact iff_of_true rfl (by simp)
  | cons c rest =>
    rw [dropMark, head?_cons, ne_eq, Option.some.injEq]
    split
    · rename_i hc
      exact iff_of_false (fun h => cons_ne_self c rest h.symm) (not_not_intro hc)
    · rename_i hc
      exact iff_of_true rfl hc

end Triage.Streams
