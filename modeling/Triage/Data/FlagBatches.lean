import Triage.Data.Flags
import Triage.Data.Tally

/-!
# Questions in batches

Any number of questions is answered in batches of 32, the last of which may be partial. What is
counted for a word of answers goes to each question that is flagged in it, and words that are alike
are counted together first.

## Main results

* `Flags.range_batches` : the batches make up all questions.
* `Flags.addBatches_tally` : what a question gets, over all batches, with alike words counted
  together first.
-/

namespace Triage.Flags

open Grouping List Function Prod

/-! ### Batches -/

/-- `for (let base = 0; base < n; base += 32)` -/
def bases (n : ℕ) : List ℕ := (List.range ((n + 31) / 32)).map (32 * ·)

/-- How many questions there are in the batch from `base` on. -/
def batch (n base : ℕ) : ℕ := min 32 (n - base)

variable {n base d : ℕ}

theorem batch_le : batch n base ≤ 32 := Nat.min_le_left _ _

theorem mem_bases : base ∈ bases n ↔ base < n ∧ 32 ∣ base := by
  rw [bases, mem_map]
  constructor
  · rintro ⟨i, hi, rfl⟩
    rw [mem_range] at hi
    exact ⟨by omega, Nat.dvd_mul_right 32 i⟩
  · rintro ⟨hlt, i, rfl⟩
    exact ⟨i, mem_range.2 (by omega), rfl⟩

theorem nodup_bases : (bases n).Nodup :=
  nodup_range.map fun _ _ h => Nat.eq_of_mul_eq_mul_left (by decide) h

/-- The batch of a question. -/
theorem mem_batch (hbase : base ∈ bases n) (hd : d < n) :
    (base ≤ d ∧ d - base < batch n base) ↔ base = 32 * (d / 32) := by
  obtain ⟨hlt, i, rfl⟩ := mem_bases.1 hbase
  rw [batch]
  omega

theorem base_mem (hd : d < n) : 32 * (d / 32) ∈ bases n :=
  mem_bases.2 ⟨by omega, Nat.dvd_mul_right _ _⟩

theorem range_batches (n : ℕ) :
    List.range n = (bases n).flatMap fun base => (List.range (batch n base)).map (base + ·) := by
  have hprefix : ∀ k ≤ (n + 31) / 32, List.range (min n (32 * k)) =
      ((List.range k).map (32 * ·)).flatMap fun base =>
        (List.range (batch n base)).map (base + ·) := by
    intro k hk
    induction k with
    | zero => simp
    | succ k ih =>
      have hlength : min n (32 * (k + 1)) = min n (32 * k) + batch n (32 * k) := by
        rw [batch]
        omega
      have hmin : min n (32 * k) = 32 * k := by omega
      rw [hlength, range_add, ih (by omega), hmin, range_succ, map_append, flatMap_append]
      simp
  have hall := hprefix ((n + 31) / 32) le_rfl
  have hmin : min n (32 * ((n + 31) / 32)) = n := by omega
  rwa [hmin] at hall

/-! ### Sums -/

section Sums

variable {M : Type*} [AddCommMonoid M]

/-- What is counted for a word goes to the questions that it flags. -/
def addFlags (base : ℕ) (totals : ℕ → M) (w : Word) (m : M) : ℕ → M :=
  (bits w).foldl (fun totals b => update totals (base + b) (totals (base + b) + m)) totals

def addWords (base : ℕ) (totals : ℕ → M) (es : List (Word × M)) : ℕ → M :=
  es.foldl (fun totals e => addFlags base totals e.1 e.2) totals

variable {totals : ℕ → M}

theorem addFlags_apply (w : Word) (m : M) : addFlags base totals w m d =
    totals d + if base ≤ d ∧ w.getLsbD (d - base) = true then m else 0 := by
  have hfold : ∀ bs : List ℕ, bs.Nodup →
      bs.foldl (fun totals b => update totals (base + b) (totals (base + b) + m)) totals
        d = totals d + if base ≤ d ∧ d - base ∈ bs then m else 0 := by
    intro bs hbs
    induction bs using reverseRecOn with
    | nil => simp
    | append_singleton bs b ih =>
      obtain ⟨hbs, -, hnot⟩ := nodup_append.1 hbs
      have hb : b ∉ bs := fun hmem => hnot b hmem b (by simp) rfl
      rw [foldl_append, foldl_cons, foldl_nil]
      by_cases hd : d = base + b
      · subst hd
        have hnone : ¬(base ≤ base + b ∧ base + b - base ∈ bs) := by
          rw [Nat.add_sub_cancel_left]
          exact fun h => hb h.2
        have hall : base ≤ base + b ∧ base + b - base ∈ bs ++ [b] := by simp
        rw [update_self, ih hbs, if_neg hnone, if_pos hall, add_zero]
      · rw [update_of_ne hd, ih hbs]
        have hiff : (base ≤ d ∧ d - base ∈ bs ++ [b]) ↔ base ≤ d ∧ d - base ∈ bs := by
          rw [mem_append, mem_singleton]
          refine and_congr_right fun hle => or_iff_left fun heq => hd ?_
          omega
        rw [if_congr hiff rfl rfl]
  rw [addFlags, hfold _ nodup_bits]
  exact congrArg _ (if_congr (and_congr_right fun _ => mem_bits) rfl rfl)

/-- A question gets what is counted for the words that flag it. -/
theorem addWords_apply (es : List (Word × M)) : addWords base totals es d = totals d +
    ((es.filter fun e => base ≤ d ∧ e.1.getLsbD (d - base) = true).map snd).sum := by
  induction es generalizing totals with
  | nil => simp [addWords]
  | cons e es ih =>
    have hcons : addWords base totals (e :: es) = addWords base (addFlags base totals e.1 e.2) es :=
      rfl
    rw [hcons, ih, addFlags_apply, filter_cons]
    by_cases he : base ≤ d ∧ e.1.getLsbD (d - base) = true
    · rw [if_pos he, if_pos (decide_eq_true he), map_cons, sum_cons, add_assoc]
    · rw [if_neg he, if_neg (by simpa using he), add_zero]

theorem sum_alter {K : Type*} [DecidableEq K] (p : K → Bool) (k : K) (m : M) (es : List (K × M)) :
    (((alter k (fun v => v.getD 0 + m) es).filter (p ·.1)).map snd).sum =
      ((es.filter (p ·.1)).map snd).sum + if p k then m else 0 := by
  induction es with
  | nil =>
    rw [alter]
    cases hp : p k <;> simp [hp]
  | cons e es ih =>
    obtain ⟨l, v⟩ := e
    rw [alter]
    split
    · rename_i hl
      subst hl
      cases hp : p l
      · simp [hp]
      · simp only [filter_cons, hp, if_true, map_cons, sum_cons, Option.getD_some]
        exact add_right_comm _ _ _
    · rw [filter_cons, filter_cons]
      cases hp : p l
      · simpa [hp] using ih
      · simp only [if_true, map_cons, sum_cons, ih]
        exact (add_assoc _ _ _).symm

/-- A tally has the sum of what it was made of, over any kind of keys. -/
theorem sum_tally {K : Type*} [DecidableEq K] (p : K → Bool) (es : List (K × M)) :
    (((tally es).filter (p ·.1)).map snd).sum = ((es.filter (p ·.1)).map snd).sum := by
  induction es using reverseRecOn with
  | nil => rfl
  | append_singleton es e ih =>
    rw [tally_append, foldl_cons, foldl_nil, sum_alter, ih, filter_append, map_append, sum_append]
    cases hp : p e.1 <;> simp [hp]

/-- A question gets nothing in the batches of others. -/
theorem sum_bases (hd : d < n) {c : ℕ → M}
    (hc : ∀ base ∈ bases n, base ≠ 32 * (d / 32) → c base = 0) :
    ((bases n).map c).sum = c (32 * (d / 32)) := by
  rw [sum_map_eq_nsmul_single (32 * (d / 32)) c fun base hne hbase => hc base hbase hne,
    count_eq_one_of_mem nodup_bases (base_mem hd), one_nsmul]

theorem foldl_addWords (bs : List ℕ) (es : ℕ → List (Word × M)) :
    bs.foldl (fun totals base => addWords base totals (es base)) totals d = totals d +
      (bs.map fun base => (((es base).filter fun e =>
        base ≤ d ∧ e.1.getLsbD (d - base) = true).map snd).sum).sum := by
  induction bs generalizing totals with
  | nil => simp
  | cons base bs ih =>
    rw [foldl_cons, ih, addWords_apply, map_cons, sum_cons, add_assoc]

variable {es : ℕ → List (Word × M)}

/-- A question gets what is counted in its own batch for the words that flag it. -/
theorem addBatches_apply (hd : d < n)
    (hes : ∀ base ∈ bases n, ∀ e ∈ es base, ∀ b, e.1.getLsbD b = true → b < batch n base) :
    (bases n).foldl (fun totals base => addWords base totals (es base)) totals d = totals d +
      (((es (32 * (d / 32))).filter fun e => e.1.getLsbD (d % 32)).map snd).sum := by
  rw [foldl_addWords, sum_bases hd]
  · congr 3
    refine List.filter_congr fun e _ => ?_
    have hle : 32 * (d / 32) ≤ d := by omega
    have hmod : d - 32 * (d / 32) = d % 32 := by omega
    rw [hmod]
    simp [hle]
  · intro base hbase hne
    have hnone : ((es base).filter fun e => base ≤ d ∧ e.1.getLsbD (d - base) = true) = [] := by
      rw [filter_eq_nil_iff]
      intro e he h
      obtain ⟨hle, hbit⟩ := of_decide_eq_true h
      exact hne ((mem_batch hbase hd).1 ⟨hle, hes base hbase e he _ hbit⟩)
    rw [hnone]
    rfl

/-- To count alike words of a batch together first makes no difference. -/
theorem addBatches_tally (hd : d < n)
    (hes : ∀ base ∈ bases n, ∀ e ∈ es base, ∀ b, e.1.getLsbD b = true → b < batch n base) :
    (bases n).foldl (fun totals base => addWords base totals (tally (es base))) totals d =
      totals d + (((es (32 * (d / 32))).filter fun e => e.1.getLsbD (d % 32)).map snd).sum := by
  rw [addBatches_apply hd]
  · exact congrArg _ (sum_tally (fun w : Word => w.getLsbD (d % 32)) _)
  · intro base hbase e he b hb
    obtain ⟨e', he', heq⟩ := mem_map.1 (mem_keys_tally.1 (mem_map.2 ⟨e, he, rfl⟩))
    exact hes base hbase e' he' b (heq ▸ hb)

end Sums

end Triage.Flags
