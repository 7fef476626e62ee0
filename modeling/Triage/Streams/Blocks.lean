import Mathlib.Data.List.Basic

/-!
# Blocks of equal size

A stream is stored in blocks of one size, the last of which may be shorter. Programs find the
blocks in different ways: by position, by filling a buffer, by looking one block ahead. `blocks_eq`
says that there is one way only to divide a list so, and so these agree.

## Main results

* `blocks_eq` : the division into blocks is unique.
* `exists_blocks` : what the blocks of a list are.
* `length_blocks` : how many they are.
-/

namespace Triage.Streams

open List

variable {α : Type*} {n : ℕ}

/-- The blocks of a list: each but the last has `n` elements. -/
def blocks (n : ℕ) (xs : List α) : List (List α) :=
  if n = 0 ∨ xs.length ≤ n then [xs] else xs.take n :: blocks n (xs.drop n)
termination_by xs.length
decreasing_by rw [length_drop]; omega

variable {xs : List α}

theorem blocks_of_le (h : xs.length ≤ n) : blocks n xs = [xs] := by
  rw [blocks, if_pos (.inr h)]

theorem blocks_append (hn : 0 < n) {block rest : List α} (hblock : block.length = n)
    (hrest : rest ≠ []) : blocks n (block ++ rest) = block :: blocks n rest := by
  have hpos := length_pos_iff.2 hrest
  rw [blocks, if_neg (by rw [length_append]; omega), take_left' hblock, drop_left' hblock]

/-- **There is one division into blocks**: full blocks, then one that is not longer, and not empty
unless it is the only one. -/
theorem blocks_eq (hn : 0 < n) {full : List (List α)} {last : List α}
    (hfull : ∀ b ∈ full, b.length = n) (hlast : last.length ≤ n) (hne : last = [] → full = []) :
    blocks n (full.flatten ++ last) = full ++ [last] := by
  induction full with
  | nil => exact blocks_of_le hlast
  | cons block full ih =>
    have hlast₀ : last ≠ [] := fun h => absurd (hne h) (by simp)
    have hrest : full.flatten ++ last ≠ [] := by simp [hlast₀]
    rw [flatten_cons, append_assoc, blocks_append hn (hfull block (by simp)) hrest,
      ih (fun b hb => hfull b (by simp [hb])) fun h => absurd h hlast₀, cons_append]

/-- What the blocks of a list are. -/
theorem exists_blocks (hn : 0 < n) (xs : List α) :
    ∃ full last, blocks n xs = full ++ [last] ∧ (∀ b ∈ full, b.length = n) ∧ last.length ≤ n ∧
      (last = [] → full = []) ∧ xs = full.flatten ++ last := by
  induction xs using blocks.induct n with
  | case1 xs h =>
    have hle : xs.length ≤ n := h.resolve_left (by omega)
    exact ⟨[], xs, blocks_of_le hle, by simp, hle, fun _ => rfl, by simp⟩
  | case2 xs h ih =>
    obtain ⟨full, last, hblocks, hfull, hlast, hne, hxs⟩ := ih
    have htake : (xs.take n).length = n := by rw [length_take]; omega
    have hdrop : xs.drop n ≠ [] := by
      rw [← length_pos_iff, length_drop]; omega
    refine ⟨xs.take n :: full, last, by rw [blocks, if_neg h, hblocks, cons_append], ?_, hlast,
      fun h₀ => ?_, ?_⟩
    · rintro b hb
      rcases mem_cons.1 hb with rfl | hb
      · exact htake
      · exact hfull b hb
    · rw [hne h₀, h₀] at hxs
      exact absurd hxs hdrop
    · rw [flatten_cons, append_assoc, ← hxs, take_append_drop]

theorem flatten_blocks (hn : 0 < n) (xs : List α) : (blocks n xs).flatten = xs := by
  obtain ⟨full, last, hblocks, -, -, -, hxs⟩ := exists_blocks hn xs
  rw [hblocks, flatten_append, flatten_singleton, ← hxs]

theorem blocks_ne_nil (n : ℕ) (xs : List α) : blocks n xs ≠ [] := by
  rw [blocks]
  split_ifs <;> simp

theorem length_blocks_pos (n : ℕ) (xs : List α) : 0 < (blocks n xs).length :=
  length_pos_iff.2 (blocks_ne_nil n xs)

/-- The last block, and those before it. -/
theorem exists_eq_append_singleton (h : xs ≠ []) : ∃ front last, xs = front ++ [last] :=
  ⟨xs.dropLast, xs.getLast h, (dropLast_append_getLast h).symm⟩

/-- How many blocks a list has. -/
theorem length_blocks (hn : 0 < n) (xs : List α) :
    (blocks n xs).length = (xs.length - 1) / n + 1 := by
  induction xs using blocks.induct n with
  | case1 xs h =>
    have hle : xs.length ≤ n := h.resolve_left (by omega)
    rw [blocks_of_le hle, Nat.div_eq_of_lt (by omega)]
    rfl
  | case2 xs h ih =>
    have hdiv : (xs.length - 1) / n = (xs.length - 1 - n) / n + 1 := by
      rw [← Nat.sub_add_cancel (show n ≤ xs.length - 1 by omega), Nat.add_div_right _ hn,
        Nat.sub_add_cancel (by omega)]
    rw [blocks, if_neg h, length_cons, ih, length_drop, hdiv, Nat.sub_right_comm]

/-- A block by its number. -/
theorem getElem?_blocks (hn : 0 < n) (xs : List α) {i : ℕ} (hi : i < (blocks n xs).length) :
    (blocks n xs)[i]? = some ((xs.drop (i * n)).take n) := by
  induction xs using blocks.induct n generalizing i with
  | case1 xs h =>
    have hle : xs.length ≤ n := h.resolve_left (by omega)
    rw [blocks_of_le hle] at hi ⊢
    obtain rfl : i = 0 := by simpa using hi
    rw [Nat.zero_mul, drop_zero, take_of_length_le hle]
    rfl
  | case2 xs h ih =>
    rw [blocks, if_neg h] at hi ⊢
    cases i with
    | zero => simp
    | succ i =>
      rw [getElem?_cons_succ, ih (by simpa using hi), drop_drop, Nat.succ_mul, Nat.add_comm]

/-- The length of a list, from its blocks. -/
theorem length_eq_of_blocks (hn : 0 < n) {xs last : List α} {full : List (List α)}
    (h : blocks n xs = full ++ [last]) : xs.length = full.length * n + last.length := by
  obtain ⟨full', last', hblocks, hfull, -, -, rfl⟩ := exists_blocks hn xs
  obtain ⟨rfl, hlast⟩ := append_inj' (h.symm.trans hblocks) rfl
  obtain rfl : last = last' := by simpa using hlast
  have hsum : (full.map List.length).sum = full.length * n := by
    rw [map_eq_replicate_iff.2 hfull, sum_replicate_nat]
  rw [length_append, length_flatten, hsum]

/-- The length of a list whose parts are each longer by the same amount than those of another. -/
theorem length_flatten_of_map {β : Type*} {k : ℕ} {bs : List (List α)} {cs : List (List β)}
    (h : cs.map List.length = bs.map fun b => b.length + k) :
    cs.flatten.length = bs.flatten.length + cs.length * k := by
  induction bs generalizing cs with
  | nil =>
    obtain rfl : cs = [] := map_eq_nil_iff.1 h
    simp
  | cons b bs ih =>
    obtain ⟨c, cs, rfl, hc, hcs⟩ := map_eq_cons_iff.1 h
    have hrest := ih hcs
    simp only [flatten_cons, length_append, length_cons, Nat.succ_mul, hc]
    omega

/-- Blocks that are changed to blocks of another size, each by the same amount, are the blocks of
what they make. -/
theorem blocks_flatten_map {β : Type*} (hn : 0 < n) {m k : ℕ} (hm : 0 < k) (hk : m = n + k)
    {bs : List (List β)} (hlength : bs.map List.length =
      (blocks n xs).map fun b => b.length + k) : blocks m bs.flatten = bs := by
  obtain ⟨full, last, hblocks, hfull, hlast, hne, -⟩ := exists_blocks hn xs
  rw [hblocks, map_append, map_singleton] at hlength
  obtain ⟨full', lasts, rfl, hfull', hlasts⟩ := map_eq_append_iff.1 hlength
  obtain ⟨last', rfl, hlast'⟩ := map_eq_singleton_iff.1 hlasts
  rw [flatten_append, flatten_singleton]
  refine blocks_eq (by omega) (fun b hb => ?_) (by omega) fun h => ?_
  · have hb' : b.length ∈ full.map fun b => b.length + k := hfull' ▸ mem_map_of_mem hb
    obtain ⟨c, hc, hlen⟩ := mem_map.1 hb'
    have := hfull c hc
    omega
  · rw [h, length_nil] at hlast'
    omega

end Triage.Streams
