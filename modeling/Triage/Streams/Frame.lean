import Mathlib.Data.UInt
import Mathlib.Order.Bounds.Basic
import Mathlib.Data.Nat.Size

/-!
# Length-prefixed frames

A frame is a body behind its length, which is written as a big-endian number of fixed width;
whatever follows the body is the frame's rest.

## Main results

* `ofBytesBE_bytesBE` : a number that fits its width is read back.
* `unframe_frame` : so is a frame whose length fits.
* `unframe_eq_none_iff` : what is no frame.
* `isLeast_two_pow_clz32` : the least power of two from a number on, by counting leading zeros.
-/

namespace Triage.Streams

open List Nat

/-! ### Big-endian numbers -/

/-- The `w` low bytes of a number, the highest first. -/
def bytesBE : ℕ → ℕ → List UInt8
  | 0, _ => []
  | w + 1, n => UInt8.ofNat (n / 256 ^ w) :: bytesBE w n

/-- The number that big-endian bytes stand for. -/
def ofBytesBE : List UInt8 → ℕ
  | [] => 0
  | b :: bs => b.toNat * 256 ^ bs.length + ofBytesBE bs

@[simp] theorem length_bytesBE (w n : ℕ) : (bytesBE w n).length = w := by
  induction w with
  | zero => rfl
  | succ w ih => rw [bytesBE, length_cons, ih]

/-- Of a number that does not fit its width, the low bytes are left. -/
theorem ofBytesBE_bytesBE_mod (w n : ℕ) : ofBytesBE (bytesBE w n) = n % 256 ^ w := by
  induction w with
  | zero => rw [bytesBE, ofBytesBE, pow_zero, mod_one]
  | succ w ih =>
    have hbyte : (UInt8.ofNat (n / 256 ^ w)).toNat = n / 256 ^ w % 256 := by
      rw [UInt8.toNat_ofNat']
    rw [bytesBE, ofBytesBE, length_bytesBE, ih, hbyte, pow_succ, mod_mul]
    rw [add_comm, mul_comm]

theorem ofBytesBE_bytesBE {w n : ℕ} (h : n < 256 ^ w) : ofBytesBE (bytesBE w n) = n := by
  rw [ofBytesBE_bytesBE_mod, mod_eq_of_lt h]

/-! ### Frames -/

/-- A body behind its length, and what follows. -/
def frame (w : ℕ) (body rest : List UInt8) : List UInt8 :=
  bytesBE w body.length ++ (body ++ rest)

/-- The length that a frame begins with. -/
def frameLength (w : ℕ) (bytes : List UInt8) : ℕ := ofBytesBE (bytes.take w)

/-- The body of a frame and what follows it, if the frame is long enough to have them. -/
def unframe (w : ℕ) (bytes : List UInt8) : Option (List UInt8 × List UInt8) :=
  if bytes.length < w then none
  else if bytes.length < w + frameLength w bytes then none
  else some ((bytes.drop w).take (frameLength w bytes), bytes.drop (w + frameLength w bytes))

variable {w : ℕ} {body rest bytes : List UInt8}

@[simp] theorem length_frame : (frame w body rest).length = w + body.length + rest.length := by
  simp only [frame, length_append, length_bytesBE]
  omega

theorem frameLength_frame (h : body.length < 256 ^ w) :
    frameLength w (frame w body rest) = body.length := by
  have htake : (frame w body rest).take w = bytesBE w body.length := by
    rw [frame, take_left' (length_bytesBE _ _)]
  rw [frameLength, htake, ofBytesBE_bytesBE h]

/-- **A frame is read back**, if its length fits the prefix. -/
theorem unframe_frame (h : body.length < 256 ^ w) :
    unframe w (frame w body rest) = some (body, rest) := by
  have hdrop : (frame w body rest).drop w = body ++ rest := by
    rw [frame, drop_left' (length_bytesBE _ _)]
  rw [unframe, frameLength_frame h, length_frame, if_neg (by omega), if_neg (by omega),
    ← drop_drop, hdrop, take_left' rfl, drop_left' rfl]

/-- Too short for a length, or for the body it promises. -/
theorem unframe_eq_none_iff :
    unframe w bytes = none ↔ bytes.length < w ∨ bytes.length < w + frameLength w bytes := by
  rw [unframe]
  split
  · rename_i h
    exact iff_of_true rfl (.inl h)
  · rename_i h
    split
    · rename_i h'
      exact iff_of_true rfl (.inr h')
    · rename_i h'
      exact iff_of_false (by simp) (by omega)

/-- Writes into a buffer at an offset; what does not fit is refused. -/
def setBytes (offset : ℕ) (new buffer : List UInt8) : Option (List UInt8) :=
  if buffer.length < offset + new.length then none
  else some (buffer.take offset ++ (new ++ buffer.drop (offset + new.length)))

/-- A length and a body written into an empty buffer that holds them make a frame. -/
theorem setBytes_frame {size : ℕ} (h : w + body.length ≤ size) :
    (setBytes 0 (bytesBE w body.length) (List.replicate size 0)).bind (setBytes w body) =
      some (frame w body (List.replicate (size - (w + body.length)) 0)) := by
  have hlength : setBytes 0 (bytesBE w body.length) (List.replicate size 0) =
      some (bytesBE w body.length ++ List.replicate (size - w) 0) := by
    rw [setBytes, length_bytesBE, length_replicate, if_neg (by omega), zero_add,
      drop_replicate, take_zero, nil_append]
  have hdrop : (bytesBE w body.length ++ List.replicate (size - w) 0).drop (w + body.length) =
      List.replicate (size - (w + body.length)) (0 : UInt8) := by
    rw [← drop_drop, drop_left' (length_bytesBE _ _), drop_replicate, Nat.sub_sub]
  rw [hlength, Option.bind_some, setBytes, length_append, length_bytesBE,
    length_replicate, if_neg (by omega), take_left' (length_bytesBE _ _), hdrop, frame]

/-! ### Powers of two -/

/-- The number of leading zeros of the low 32 bits. -/
def clz32 (n : ℕ) : ℕ := 32 - (n % 2 ^ 32).size

/-- **The least power of two from `n` on**, for a number that has 32 bits. -/
theorem isLeast_two_pow_clz32 {n : ℕ} (hpos : 0 < n) (h : n ≤ 2 ^ 32) :
    IsLeast {p : ℕ | (∃ k, p = 2 ^ k) ∧ n ≤ p} (2 ^ (32 - clz32 (n - 1))) := by
  have hlt : n - 1 < 2 ^ 32 := by omega
  have hsize : (n - 1).size ≤ 32 := size_le.mpr hlt
  have hbits : 32 - clz32 (n - 1) = (n - 1).size := by
    rw [clz32, mod_eq_of_lt hlt]
    omega
  rw [hbits]
  refine ⟨⟨⟨_, rfl⟩, ?_⟩, ?_⟩
  · have := lt_size_self (n - 1)
    omega
  · rintro p ⟨⟨k, rfl⟩, hk⟩
    exact Nat.pow_le_pow_right Nat.two_pos (Nat.size_le.mpr (by omega))

end Triage.Streams
