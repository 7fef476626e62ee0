import Triage.Data.Utf16

/-!
# The length of a string in UTF-8

A string with no unit past `0xFF` is measured without encoding it: a byte for each unit, and one
more for each past `0x7F`. Those are looked for by a search, from which a loop counts on until it
has passed a run of units up to `0x7F`.

## Main results

* `utf8ByteLength_eq` : **the length** is that of the encoded string.
-/

namespace Triage.Utf8

open Utf16 List UInt16

/-- `new TextEncoder().encode(…)` -/
def encode (text : Units) : List ℕ :=
  (codePoints text).flatMap fun c => utf8 (if Lone c then 0xFFFD else c)

def asciiRun : ℕ := 2

/-- Counts on from a unit until so many in a row are ASCII: what is left, and the bytes. -/
def countOn : Units → ℕ → ℕ → Units × ℕ
  | [], _, bytes => ([], bytes)
  | u :: rest, ascii, bytes =>
    if ascii < asciiRun then
      if 0x7F < u then countOn rest 0 (bytes + 1) else countOn rest (ascii + 1) bytes
    else (u :: rest, bytes)

/-- The searches for the next unit past `0x7F`, each from where the last count has left. -/
def scan : ℕ → Units → ℕ → ℕ
  | 0, _, bytes => bytes
  | n + 1, text, bytes =>
    match text.dropWhile fun u => ¬(0x80 ≤ u ∧ u ≤ 0xFF) with
    | [] => bytes
    | found => scan n (countOn found 0 bytes).1 (countOn found 0 bytes).2

def utf8ByteLength (text : Units) : ℕ :=
  if text.any fun u => 0x100 ≤ u then (encode text).length
  else scan (text.length + 1) text text.length

/-- The units past `0x7F`. -/
def highCount (text : Units) : ℕ := text.countP fun u => 0x7F < u

variable {text : Units} {bytes n : ℕ}

/-- What is counted and what is left of them. -/
theorem countOn_spec (text : Units) (ascii bytes : ℕ) :
    (countOn text ascii bytes).2 + highCount (countOn text ascii bytes).1 =
        bytes + highCount text ∧ (countOn text ascii bytes).1 <:+ text := by
  induction text generalizing ascii bytes with
  | nil => exact ⟨rfl, suffix_refl []⟩
  | cons u rest ih =>
    rw [countOn]
    split
    · have hcons := countP_cons (p := fun u : UInt16 => decide (0x7F < u)) (a := u) (l := rest)
      split
      · rename_i hhigh
        obtain ⟨hcount, hsuffix⟩ := ih 0 (bytes + 1)
        rw [if_pos (decide_eq_true hhigh)] at hcons
        exact ⟨by rw [hcount, highCount, highCount, hcons]; omega,
          hsuffix.trans (suffix_cons u rest)⟩
      · rename_i hlow
        obtain ⟨hcount, hsuffix⟩ := ih (ascii + 1) bytes
        rw [if_neg (by simpa using hlow)] at hcons
        exact ⟨by rw [hcount, highCount, highCount, hcons]; omega,
          hsuffix.trans (suffix_cons u rest)⟩
    · exact ⟨rfl, suffix_refl _⟩

/-- Every search has fewer units left. -/
theorem countOn_length (u : UInt16) (rest : Units) (bytes : ℕ) :
    (countOn (u :: rest) 0 bytes).1.length ≤ rest.length := by
  rw [countOn, if_pos (by decide)]
  split
  · exact (countOn_spec rest 0 (bytes + 1)).2.length_le
  · exact (countOn_spec rest 1 bytes).2.length_le

theorem scan_spec (hnarrow : ∀ u ∈ text, u < 0x100) (hn : text.length < n) :
    scan n text bytes = bytes + highCount text := by
  induction n generalizing text bytes with
  | zero => omega
  | succ n ih =>
    have hsplit := takeWhile_append_dropWhile
      (p := fun u : UInt16 => decide ¬(0x80 ≤ u ∧ u ≤ 0xFF)) (l := text)
    have hlow : highCount (text.takeWhile fun u => ¬(0x80 ≤ u ∧ u ≤ 0xFF)) = 0 := by
      refine countP_eq_zero.2 fun u hu => ?_
      have hpass := all_eq_true.1 all_takeWhile u hu
      have hu := hnarrow u (hsplit ▸ mem_append_left _ hu)
      simp only [le_iff_toNat_le, lt_iff_toNat_lt, reduceToNat, decide_eq_true_eq] at hpass hu ⊢
      omega
    have hcount : highCount text = highCount (text.dropWhile fun u => ¬(0x80 ≤ u ∧ u ≤ 0xFF)) := by
      conv_lhs => rw [← hsplit]
      rw [highCount, countP_append]
      exact (congrArg (· + _) hlow).trans (Nat.zero_add _)
    rw [scan]
    split
    · rename_i hnil
      rw [hcount, hnil]
      rfl
    · rename_i hfound
      have hsuffix := dropWhile_suffix (l := text) fun u => decide ¬(0x80 ≤ u ∧ u ≤ 0xFF)
      generalize (text.dropWhile fun u => ¬(0x80 ≤ u ∧ u ≤ 0xFF)) = found at *
      obtain ⟨hspec, hleft⟩ := countOn_spec found 0 bytes
      rw [ih, hspec, hcount]
      · exact fun u hu => hnarrow u (hsuffix.subset (hleft.subset hu))
      · cases found with
        | nil => exact absurd rfl hfound
        | cons u rest =>
          have hle := countOn_length u rest bytes
          have hlength := hsuffix.length_le
          rw [length_cons] at hlength
          omega

/-- A narrow unit takes a byte, and one more past `0x7F`. -/
theorem length_utf8 (hnarrow : ∀ u ∈ text, u < 0x100) :
    ((text.map toNat).flatMap fun c => utf8 (if Lone c then 0xFFFD else c)).length =
      text.length + highCount text := by
  induction text with
  | nil => rfl
  | cons u rest ih =>
    have hrest := ih fun v hv => hnarrow v (mem_cons_of_mem _ hv)
    have hu := hnarrow u (mem_cons_self ..)
    have hcons := countP_cons (p := fun u : UInt16 => decide (0x7F < u)) (a := u) (l := rest)
    simp only [lt_iff_toNat_lt, reduceToNat, decide_eq_true_eq] at hu hcons
    have hlone : ¬Lone u.toNat := fun h => by
      have := h.1
      omega
    have hone : (utf8 u.toNat).length = 1 + if 127 < u.toNat then 1 else 0 := by
      rw [utf8]
      split_ifs <;> first | rfl | omega
    rw [map_cons, flatMap_cons, length_append, hrest, if_neg hlone, hone, highCount,
      highCount, length_cons]
    simp only [lt_iff_toNat_lt, reduceToNat] at hcons ⊢
    omega

/-- **The length** is that of the encoded string. -/
theorem utf8ByteLength_eq (text : Units) : utf8ByteLength text = (encode text).length := by
  rw [utf8ByteLength]
  split
  · rfl
  · rename_i hnarrow
    have hnarrow : ∀ u ∈ text, u < 0x100 := by
      intro u hu
      by_contra hwide
      exact hnarrow (any_eq_true.2 ⟨u, hu, decide_eq_true (UInt16.not_lt.1 hwide)⟩)
    rw [scan_spec hnarrow (Nat.lt_succ_self _), encode, codePoints_of_not_high]
    · exact (length_utf8 hnarrow).symm
    · intro u hu
      have hu := hnarrow u hu
      rw [isHigh, decide_eq_false_iff_not]
      simp only [UInt16.le_iff_toNat_le, UInt16.lt_iff_toNat_lt, UInt16.reduceToNat] at hu ⊢
      omega

end Triage.Utf8
