import Mathlib.Data.List.Nodup
import Mathlib.Data.Nat.Find

/-!
# Words of flags

A word of 32 bits holds the answers of 32 questions at once. The bits that are set are enumerated
by isolating the lowest one and clearing it, until the word is zero; the sign bit is a flag like the
others.

## Main results

* `Flags.bits_eq` : the flags of a word are enumerated in order, each once.
-/

namespace Triage.Flags

open List BitVec Nat Bool

abbrev Word := BitVec 32

/-- `1 << k` -/
def flag (k : ℕ) : Word := 1#32 <<< k

/-- The first flags: `-1` where they are all, and `(1 << count) - 1` otherwise. -/
def firsts (count : ℕ) : Word := if count = 32 then -1#32 else flag count - 1#32

def clz32 (w : Word) : ℕ := if w = 0 then 32 else 31 - w.toNat.log2

/-- The flags of a word, by `for (let bits = w; bits; bits &= bits - 1)`. -/
def bitsFrom : ℕ → Word → List ℕ
  | 0, _ => []
  | n + 1, w => if w = 0 then [] else (31 - clz32 (w &&& -w)) :: bitsFrom n (w &&& (w - 1#32))

def bits (w : Word) : List ℕ := bitsFrom 32 w

variable {w : Word} {i k : ℕ}

theorem getLsbD_flag : (flag k).getLsbD i = (decide (i < 32) && decide (i = k)) := by
  rw [flag, getLsbD_shiftLeft, getLsbD_one]
  by_cases hi : i < 32
  · by_cases hik : i = k
    · subst hik
      simp [hi]
    · by_cases hlt : i < k
      · simp [hlt, hik]
      · have hne : ¬i - k = 0 := by omega
        simp [hik, hne]
  · simp [hi]

theorem getLsbD_sub_one : (w - 1#32).getLsbD i =
    (decide (i < 32) && !(w.getLsbD i ^^ decide (∃ j < i, w.getLsbD j = true))) := by
  rw [← not_neg, getLsbD_not, getLsbD_neg]
  by_cases hi : i < 32
  · simp only [hi, decide_true, Bool.true_and]
  · simp only [hi, decide_false, Bool.false_and]

theorem getLsbD_firsts {count : ℕ} (h : count ≤ 32) :
    (firsts count).getLsbD i = decide (i < count) := by
  rw [firsts]
  split
  · rename_i hcount
    subst hcount
    rw [neg_one_eq_allOnes, getLsbD_allOnes]
  · have hlt : count < 32 := by omega
    have hexists : (∃ j < i, (flag count).getLsbD j = true) ↔ count < i := by
      simp only [getLsbD_flag, and_eq_true, decide_eq_true_eq]
      constructor
      · rintro ⟨j, hj, -, rfl⟩
        exact hj
      · intro hi
        exact ⟨count, hi, hlt, rfl⟩
    rw [getLsbD_sub_one, getLsbD_flag]
    simp only [hexists]
    by_cases hi : i < 32
    · rcases Nat.lt_trichotomy i count with hic | rfl | hic
      · simp [hi, hic, Nat.ne_of_lt hic, Nat.lt_asymm hic]
      · simp [hi]
      · simp [hi, hic, ne_of_gt hic, lt_asymm hic]
    · have hic : ¬i < count := by omega
      simp [hi, hic]

/-! ### The lowest flag -/

/-- The lowest flag of a word. -/
theorem exists_lowest (hw : w ≠ 0) :
    ∃ k < 32, w.getLsbD k = true ∧ ∀ j < k, w.getLsbD j = false := by
  have hexists : ∃ k, w.getLsbD k = true := by
    by_contra hnone
    refine hw (eq_of_getLsbD_eq fun i _ => ?_)
    change _ = (0#32).getLsbD i
    rw [getLsbD_zero]
    exact eq_false_iff.2 fun h => hnone ⟨i, h⟩
  refine ⟨Nat.find hexists, ?_, Nat.find_spec hexists, fun j hj => ?_⟩
  · by_contra hge
    have hspec := Nat.find_spec hexists
    rw [getLsbD_of_ge _ _ (Nat.le_of_not_lt hge)] at hspec
    cases hspec
  · exact eq_false_iff.2 (Nat.find_min hexists hj)

variable (hk : k < 32) (hset : w.getLsbD k = true) (hmin : ∀ j < k, w.getLsbD j = false)
include hset hmin

theorem exists_lower_iff : (∃ j < i, w.getLsbD j = true) ↔ k < i := by
  constructor
  · rintro ⟨j, hj, hwj⟩
    by_contra hle
    rw [hmin j (by omega)] at hwj
    cases hwj
  · intro h
    exact ⟨k, h, hset⟩

/-- `bits & -bits` leaves the lowest flag. -/
theorem and_neg : w &&& -w = flag k := by
  refine eq_of_getLsbD_eq fun i hi => ?_
  rw [getLsbD_and, getLsbD_neg, getLsbD_flag]
  simp only [exists_lower_iff hset hmin, hi, decide_true, Bool.true_and]
  rcases Nat.lt_trichotomy i k with hik | rfl | hik
  · simp [hmin i hik, Nat.ne_of_lt hik]
  · simp [hset]
  · simp [hik, ne_of_gt hik]

/-- `bits & (bits - 1)` clears the lowest flag. -/
theorem getLsbD_and_sub_one : (w &&& (w - 1#32)).getLsbD i = (w.getLsbD i && decide (i ≠ k)) := by
  by_cases hi : i < 32
  · rw [getLsbD_and, getLsbD_sub_one]
    simp only [exists_lower_iff hset hmin, hi, decide_true, Bool.true_and]
    rcases Nat.lt_trichotomy i k with hik | rfl | hik
    · simp [hmin i hik]
    · simp [hset]
    · simp [hik, ne_of_gt hik]
  · have hge : 32 ≤ i := Nat.le_of_not_lt hi
    rw [getLsbD_of_ge _ _ hge, getLsbD_of_ge w i hge, Bool.false_and]

include hk

theorem clz32_and_neg : 31 - clz32 (w &&& -w) = k := by
  have hnat : (flag k).toNat = 2 ^ k := by
    rw [flag, toNat_shiftLeft, Nat.shiftLeft_eq]
    have hlt : 2 ^ k < 2 ^ 32 := Nat.pow_lt_pow_right (by decide) hk
    exact (congrArg (· % 2 ^ 32) (Nat.one_mul (2 ^ k))).trans (Nat.mod_eq_of_lt hlt)
  have hne : flag k ≠ 0 := by
    intro hzero
    rw [hzero] at hnat
    exact absurd hnat.symm (Nat.ne_of_gt (Nat.two_pow_pos k))
  rw [and_neg hset hmin, clz32, if_neg hne, hnat, log2_two_pow]
  omega

omit hk hset hmin

/-- From a flag on, the flags that are set are enumerated. -/
theorem bitsFrom_eq {n low : ℕ} (hn : 32 ≤ low + n) (hlow : low ≤ 32)
    (hzero : ∀ j < low, w.getLsbD j = false) :
    bitsFrom n w = (List.range' low (32 - low)).filter fun k => w.getLsbD k := by
  induction n generalizing low w with
  | zero =>
    have heq : 32 - low = 0 := by omega
    rw [heq]
    rfl
  | succ n ih =>
    rw [bitsFrom]
    split
    · rename_i hw
      subst hw
      symm
      rw [filter_eq_nil_iff]
      intro k _
      change ¬(0#32).getLsbD k = true
      rw [getLsbD_zero]
      exact false_ne_true
    · rename_i hw
      obtain ⟨k, hk, hset, hmin⟩ := exists_lowest hw
      have hle : low ≤ k := by
        by_contra hlt
        rw [hzero k (by omega)] at hset
        cases hset
      have hclear : ∀ j, (w &&& (w - 1#32)).getLsbD j = (w.getLsbD j && decide (j ≠ k)) :=
        fun j => getLsbD_and_sub_one hset hmin
      -- the flags below the lowest are clear, and those above it are as they were
      have hsplit : List.range' low (32 - low) =
          List.range' low (k - low) ++ k :: List.range' (k + 1) (32 - (k + 1)) := by
        have hlength : 32 - low = (k - low) + (1 + (32 - (k + 1))) := by omega
        rw [hlength, ← range'_append_1, ← range'_append_1, Nat.add_sub_cancel' hle]
        rfl
      have hbelow : (List.range' low (k - low)).filter (fun j => w.getLsbD j) = [] := by
        rw [filter_eq_nil_iff]
        intro j hj
        rw [mem_range'_1] at hj
        rw [hmin j (by omega)]
        exact false_ne_true
      have hrest : bitsFrom n (w &&& (w - 1#32)) =
          (List.range' (k + 1) (32 - (k + 1))).filter
            fun j => (w &&& (w - 1#32)).getLsbD j := by
        refine ih (by omega) (by omega) fun j hj => ?_
        rw [hclear]
        by_cases hjk : j = k
        · rw [decide_eq_false (not_not.2 hjk), Bool.and_false]
        · rw [hmin j (by omega), Bool.false_and]
      rw [clz32_and_neg hk hset hmin, hsplit, filter_append, hbelow, nil_append,
        filter_cons_of_pos hset, hrest]
      congr 1
      refine List.filter_congr fun j hj => ?_
      rw [mem_range'_1] at hj
      have hne : j ≠ k := by omega
      rw [hclear, decide_eq_true hne, Bool.and_true]

theorem bits_eq (w : Word) : bits w = (List.range 32).filter fun k => w.getLsbD k := by
  have hzero : ∀ j < 0, w.getLsbD j = false := fun j hj => absurd hj (not_lt_zero j)
  rw [bits, bitsFrom_eq (by decide) (by decide) hzero, range_eq_range']

theorem mem_bits : k ∈ bits w ↔ w.getLsbD k = true := by
  rw [bits_eq, mem_filter, mem_range]
  refine and_iff_right_of_imp fun h => ?_
  by_contra hge
  rw [getLsbD_of_ge _ _ (Nat.le_of_not_lt hge)] at h
  cases h

theorem nodup_bits : (bits w).Nodup := by
  rw [bits_eq]
  exact nodup_range.filter _

end Triage.Flags
