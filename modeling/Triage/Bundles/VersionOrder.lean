import Triage.Bundles.CompareVersions

/-!
# Where the comparison of versions is an order

Two distinct versions are compared in one of four ways: as texts, where a part of a core that is
no number is reached; one reads below the other, one way or the other; or they are tied. The
readings alone are a strict order, and so are the texts; the comparison is an order of a set of
versions where it ties none of them and no two comparisons as texts go around a reading.

## Main results

* `reads_trans` : the readings are transitive, whatever else is compared as texts.
* `ordered_iff` : **the comparison keeps its promises on a set exactly where it is orderly.**
-/

namespace Triage.CompareVersions

open Semver List Option Inventory

/-! ### How two versions are compared -/

/-- The number at a place of a version's core: none where its part is no number. -/
def numberAt (v : Text) (i : ℕ) : Option Num := partAt ((splitVersion v).core.splitOn 46) i

/-- The cores hold the same numbers before a place. -/
def AgreeBefore (a b : Text) (i : ℕ) : Prop :=
  ∀ j < i, ∃ x, numberAt a j = some x ∧ numberAt b j = some x

/-- A part that is no number is reached before the cores differ. -/
def TextCompared (a b : Text) : Prop :=
  ∃ i, AgreeBefore a b i ∧ (numberAt a i = none ∨ numberAt b i = none)

/-- The cores first differ at a lower number of the first. -/
def CoreBelow (a b : Text) : Prop :=
  ∃ i, AgreeBefore a b i ∧ ∃ x y, numberAt a i = some x ∧ numberAt b i = some y ∧ x < y

/-- The cores hold the same numbers. -/
def CoreSame (a b : Text) : Prop := ∀ i, ∃ x, numberAt a i = some x ∧ numberAt b i = some x

/-- An identifier as the comparison orders it: the double of a number, below every word. -/
def identifierKey (t : Text) : Num ⊕ₗ Text :=
  if isDigits t then Sum.inlₗ (double (value t)) else Sum.inrₗ t

/-- The first identifiers that differ are in order, or the first list ends before. -/
def IdentifiersBelow : List Text → List Text → Prop
  | [], [] => False
  | [], _ :: _ => True
  | _ :: _, [] => False
  | x :: p, y :: q => if x = y then IdentifiersBelow p q else identifierKey x < identifierKey y

/-- The identifiers are the same, or the first that differ are numbers of one double. -/
def IdentifiersTied : List Text → List Text → Prop
  | [], [] => True
  | [], _ :: _ => False
  | _ :: _, [] => False
  | x :: p, y :: q => if x = y then IdentifiersTied p q else identifierKey x = identifierKey y

/-- A prerelease below another, or below none. -/
def PrereleaseBelow (p q : Text) : Prop :=
  p ≠ [] ∧ (q = [] ∨ q ≠ [] ∧ IdentifiersBelow (p.splitOn 46) (q.splitOn 46))

def PrereleaseTied (p q : Text) : Prop :=
  p = q ∨ p ≠ [] ∧ q ≠ [] ∧ IdentifiersTied (p.splitOn 46) (q.splitOn 46)

/-- A version reads below another. -/
def Reads (a b : Text) : Prop :=
  CoreBelow a b ∨ CoreSame a b ∧ PrereleaseBelow (splitVersion a).pre (splitVersion b).pre

/-- Two versions that read alike. -/
def Tied (a b : Text) : Prop :=
  CoreSame a b ∧ PrereleaseTied (splitVersion a).pre (splitVersion b).pre

/-! ### What two cores tell -/

variable {y : Option Num} {i : ℕ} {p q : List Text} {t : Text} {x : Option Num}

@[simp] theorem comparePart_eq_equal : comparePart x y = .equal ↔ ∃ z, x = some z ∧ y = some z := by
  cases x <;> cases y <;> simp [comparePart]
  rename_i x y
  by_cases h : x = y
  · simp [h]
  · simp [h, eq_comm]
    split_ifs <;> simp

@[simp] theorem comparePart_eq_lower :
    comparePart x y = .lower ↔ ∃ u v, x = some u ∧ y = some v ∧ u < v := by
  cases x <;> cases y <;> simp [comparePart]
  rename_i x y
  by_cases h : x = y
  · simp [h]
  · by_cases hlt : x < y <;> simp [h, hlt]

@[simp] theorem comparePart_eq_higher :
    comparePart x y = .higher ↔ ∃ u v, x = some u ∧ y = some v ∧ v < u := by
  cases x <;> cases y <;> simp [comparePart]
  rename_i x y
  by_cases h : x = y
  · simp [h]
  · by_cases hlt : x < y
    · simp [h, hlt, hlt.le]
    · simp [h, hlt, lt_of_le_of_ne (not_lt.1 hlt) (Ne.symm h)]

@[simp] theorem comparePart_eq_text : comparePart x y = .text ↔ x = none ∨ y = none := by
  cases x <;> cases y <;> simp [comparePart]
  split_ifs <;> simp

/-- The code's walk over two cores. -/
def cores (a b : Text) : Part :=
  compareCores ((splitVersion a).core.splitOn 46) ((splitVersion b).core.splitOn 46)

theorem numberAt_of_le {v : Text} (h : ((splitVersion v).core.splitOn 46).length ≤ i) :
    numberAt v i = some ((0 : ℕ) : Num) := by
  simp [numberAt, partAt, getElem?_eq_none h]

variable {a b : Text}

/-- The walk tells what the first parts tell that are not equal. -/
theorem cores_eq_iff {k : Part} (hk : k ≠ .equal) :
    cores a b = k ↔ ∃ i, AgreeBefore a b i ∧ comparePart (numberAt a i) (numberAt b i) = k := by
  unfold cores compareCores
  split
  · rename_i i hi
    rw [find?_range_eq_some] at hi
    obtain ⟨hne, -, hbefore⟩ := hi
    have hagree : AgreeBefore a b i := fun j hj => by
      simpa [numberAt] using hbefore j hj
    constructor
    · exact fun h => ⟨i, hagree, h⟩
    · rintro ⟨i', hagree', hi'⟩
      rcases lt_trichotomy i i' with hlt | rfl | hlt
      · exact absurd (comparePart_eq_equal.2 (hagree' i hlt)) (by simpa [numberAt] using hne)
      · exact hi'
      · have := comparePart_eq_equal.2 (hagree i' hlt)
        rw [hi'] at this
        exact absurd this hk
  · rename_i hnone
    rw [find?_range_eq_none] at hnone
    refine ⟨fun h => absurd h.symm hk, ?_⟩
    rintro ⟨i, -, hi⟩
    by_cases hlt : i < max ((splitVersion a).core.splitOn 46).length
        ((splitVersion b).core.splitOn 46).length
    · have := hnone i hlt
      simp only [ne_eq, decide_not, Bool.not_not, decide_eq_true_eq] at this
      exact this.symm.trans hi
    · rw [not_lt, Nat.max_le] at hlt
      rw [numberAt_of_le hlt.1, numberAt_of_le hlt.2] at hi
      exact (comparePart_eq_equal.2 ⟨_, rfl, rfl⟩).symm.trans hi

theorem cores_text : cores a b = .text ↔ TextCompared a b := by
  simp [cores_eq_iff, TextCompared]

theorem cores_lower : cores a b = .lower ↔ CoreBelow a b := by
  simp [cores_eq_iff, CoreBelow]

theorem AgreeBefore.symm (h : AgreeBefore a b i) : AgreeBefore b a i :=
  fun j hj => by
    obtain ⟨x, ha, hb⟩ := h j hj
    exact ⟨x, hb, ha⟩

theorem agreeBefore_comm : AgreeBefore a b i ↔ AgreeBefore b a i :=
  ⟨AgreeBefore.symm, AgreeBefore.symm⟩

theorem cores_higher : cores a b = .higher ↔ CoreBelow b a := by
  rw [cores_eq_iff (by simp)]
  unfold CoreBelow
  refine exists_congr fun i => and_congr agreeBefore_comm ?_
  rw [comparePart_eq_higher]
  exact ⟨fun ⟨u, v, hu, hv, h⟩ => ⟨v, u, hv, hu, h⟩, fun ⟨u, v, hu, hv, h⟩ => ⟨v, u, hv, hu, h⟩⟩

theorem cores_equal : cores a b = .equal ↔ CoreSame a b := by
  constructor
  · intro h i
    induction i using Nat.strong_induction_on with
    | _ i ih =>
      by_contra hno
      have hne := fun he => hno (comparePart_eq_equal.1 he)
      have := (cores_eq_iff hne).2 ⟨i, ih, rfl⟩
      exact hne (this.symm.trans h)
  · intro h
    by_contra hne
    obtain ⟨i, -, hi⟩ := (cores_eq_iff hne).1 rfl
    exact hne (hi.symm.trans (comparePart_eq_equal.2 (h i)))

theorem TextCompared.symm (h : TextCompared a b) : TextCompared b a := by
  obtain ⟨i, hi, hnone⟩ := h
  exact ⟨i, hi.symm, hnone.symm⟩

theorem CoreSame.symm (h : CoreSame a b) : CoreSame b a := fun i => by
  obtain ⟨x, ha, hb⟩ := h i
  exact ⟨x, hb, ha⟩

theorem CoreSame.eq (h : CoreSame a b) (i : ℕ) : numberAt a i = numberAt b i := by
  obtain ⟨x, ha, hb⟩ := h i
  rw [ha, hb]

theorem CoreSame.trans {a b c : Text} (h : CoreSame a b) (h' : CoreSame b c) : CoreSame a c :=
  fun i => by
    obtain ⟨x, hb, hc⟩ := h' i
    exact ⟨x, (h.eq i).trans hb, hc⟩

theorem CoreBelow.congr_right {a b c : Text} (h : CoreBelow a b) (h' : CoreSame b c) :
    CoreBelow a c := by
  obtain ⟨i, hi, x, y, hx, hy, hlt⟩ := h
  refine ⟨i, fun j hj => ?_, x, y, hx, (h'.eq i) ▸ hy, hlt⟩
  obtain ⟨z, ha, hb⟩ := hi j hj
  exact ⟨z, ha, (h'.eq j) ▸ hb⟩

theorem CoreBelow.congr_left {a b c : Text} (h : CoreSame a b) (h' : CoreBelow b c) :
    CoreBelow a c := by
  obtain ⟨i, hi, x, y, hx, hy, hlt⟩ := h'
  refine ⟨i, fun j hj => ?_, x, y, (h.eq i).trans hx, hy, hlt⟩
  obtain ⟨z, hb, hc⟩ := hi j hj
  exact ⟨z, (h.eq j).trans hb, hc⟩

/-- The first of the two places where the cores differ tells the outer ones. -/
theorem CoreBelow.trans {a b c : Text} (h : CoreBelow a b) (h' : CoreBelow b c) :
    CoreBelow a c := by
  obtain ⟨i, hi, x, y, hx, hy, hxy⟩ := h
  obtain ⟨j, hj, y', z, hy', hz, hyz⟩ := h'
  have before : ∀ k, k < i → k < j → ∃ w, numberAt a k = some w ∧ numberAt c k = some w := by
    intro k hki hkj
    obtain ⟨w, ha, hb⟩ := hi k hki
    obtain ⟨w', hb', hc⟩ := hj k hkj
    exact ⟨w, ha, hc.trans (hb'.symm.trans hb)⟩
  rcases lt_trichotomy i j with hlt | rfl | hlt
  · obtain ⟨w, hb, hc⟩ := hj i hlt
    refine ⟨i, fun k hk => before k hk (hk.trans hlt), x, w, hx, hc, ?_⟩
    rw [hb] at hy
    exact some.inj hy ▸ hxy
  · rw [hy] at hy'
    cases hy'
    exact ⟨i, fun k hk => before k hk hk, x, z, hx, hz, hxy.trans hyz⟩
  · obtain ⟨w, ha, hb⟩ := hi j hlt
    refine ⟨j, fun k hk => before k (hk.trans hlt) hk, w, z, ha, hz, ?_⟩
    rw [hb] at hy'
    exact some.inj hy' ▸ hyz

/-! ### What two prereleases tell -/

theorem IdentifiersBelow.trans {r : List Text} (h : IdentifiersBelow p q)
    (h' : IdentifiersBelow q r) : IdentifiersBelow p r := by
  induction p generalizing q r with
  | nil =>
    cases q with
    | nil => cases h
    | cons y q =>
      cases r with
      | nil => cases h'
      | cons z r => trivial
  | cons x p ih =>
    cases q with
    | nil => cases h
    | cons y q =>
      cases r with
      | nil => cases h'
      | cons z r =>
        rw [IdentifiersBelow] at h h' ⊢
        by_cases hxy : x = y <;> by_cases hyz : y = z
        · subst hxy hyz
          simpa using ih (by simpa using h) (by simpa using h')
        · subst hxy
          simpa [hyz] using h'
        · subst hyz
          simpa [hxy] using h
        · rw [if_neg hxy] at h
          rw [if_neg hyz] at h'
          have hlt := h.trans h'
          rw [if_neg]
          · exact hlt
          · rintro rfl
            exact lt_irrefl _ hlt

theorem identifiers_trichotomy (p q : List Text) :
    IdentifiersBelow p q ∨ IdentifiersBelow q p ∨ IdentifiersTied p q := by
  induction p generalizing q with
  | nil => cases q <;> simp [IdentifiersBelow, IdentifiersTied]
  | cons x p ih =>
    cases q with
    | nil => simp [IdentifiersBelow]
    | cons y q =>
      simp only [IdentifiersBelow, IdentifiersTied]
      by_cases hxy : x = y
      · simpa [hxy] using ih q
      · simp only [hxy, Ne.symm hxy, if_false]
        rcases lt_trichotomy (identifierKey x) (identifierKey y) with h | h | h
        · exact .inl h
        · exact .inr (.inr h)
        · exact .inr (.inl h)

theorem IdentifiersBelow.irrefl (p : List Text) : ¬ IdentifiersBelow p p := by
  induction p with
  | nil => exact id
  | cons x p ih => simpa [IdentifiersBelow] using ih

theorem IdentifiersTied.symm (h : IdentifiersTied p q) : IdentifiersTied q p := by
  induction p generalizing q with
  | nil =>
    cases q with
    | nil => trivial
    | cons y q => cases h
  | cons x p ih =>
    cases q with
    | nil => cases h
    | cons y q =>
      rw [IdentifiersTied] at h ⊢
      by_cases hxy : x = y
      · simp only [hxy, if_true] at h ⊢
        exact ih h
      · simp only [hxy, Ne.symm hxy, if_false] at h ⊢
        exact h.symm

theorem IdentifiersTied.not_below (h : IdentifiersTied p q) : ¬ IdentifiersBelow p q := by
  induction p generalizing q with
  | nil =>
    cases q with
    | nil => exact id
    | cons y q => cases h
  | cons x p ih =>
    cases q with
    | nil => cases h
    | cons y q =>
      rw [IdentifiersTied] at h
      rw [IdentifiersBelow]
      by_cases hxy : x = y
      · simp only [hxy, if_true] at h ⊢
        exact ih h
      · simp only [hxy, if_false] at h ⊢
        exact h.not_lt

/-- What the code answers of two identifiers is told by their keys. -/
theorem compareIdentifiers_eq {x y : Text} :
    compareIdentifiers x y = if identifierKey x < identifierKey y then -1 else 1 := by
  unfold compareIdentifiers identifierKey
  by_cases hx : isDigits x <;> by_cases hy : isDigits y <;> simp [hx, hy]

theorem comparePrereleases_neg : comparePrereleases p q < 0 ↔ IdentifiersBelow p q := by
  induction p generalizing q with
  | nil => cases q <;> simp [comparePrereleases, IdentifiersBelow]
  | cons x p ih =>
    cases q with
    | nil => simp [comparePrereleases, IdentifiersBelow]
    | cons y q =>
      rw [comparePrereleases, IdentifiersBelow, compareIdentifiers_eq]
      split_ifs <;> simp_all

theorem comparePrereleases_zero (h : comparePrereleases p q = 0) : IdentifiersTied p q := by
  induction p generalizing q with
  | nil => cases q <;> simp_all [comparePrereleases, IdentifiersTied]
  | cons x p ih =>
    cases q with
    | nil => simp [comparePrereleases] at h
    | cons y q =>
      rw [comparePrereleases, compareIdentifiers_eq] at h
      rw [IdentifiersTied]
      split_ifs at h ⊢ with hxy
      · exact ih h
      · cases h

theorem PrereleaseBelow.trans {p q r : Text} (h : PrereleaseBelow p q)
    (h' : PrereleaseBelow q r) : PrereleaseBelow p r := by
  obtain ⟨hp, hpq⟩ := h
  obtain ⟨hq, hqr⟩ := h'
  refine ⟨hp, ?_⟩
  rcases hqr with hr | ⟨hr, hqr⟩
  · exact .inl hr
  · rcases hpq with hq' | ⟨-, hpq⟩
    · exact absurd hq' hq
    · exact .inr ⟨hr, hpq.trans hqr⟩

theorem PrereleaseBelow.irrefl (p : Text) : ¬ PrereleaseBelow p p := by
  rintro ⟨hp, h | ⟨-, h⟩⟩
  · exact hp h
  · exact IdentifiersBelow.irrefl _ h

theorem PrereleaseTied.symm {p q : Text} (h : PrereleaseTied p q) : PrereleaseTied q p := by
  rcases h with rfl | ⟨hp, hq, h⟩
  · exact .inl rfl
  · exact .inr ⟨hq, hp, h.symm⟩

theorem PrereleaseTied.not_below {p q : Text} (h : PrereleaseTied p q) : ¬ PrereleaseBelow p q := by
  rcases h with rfl | ⟨hp, hq, h⟩
  · exact PrereleaseBelow.irrefl p
  · rintro ⟨-, h' | ⟨-, h'⟩⟩
    · exact hq h'
    · exact h.not_below h'

theorem prerelease_trichotomy (p q : Text) :
    PrereleaseBelow p q ∨ PrereleaseBelow q p ∨ PrereleaseTied p q := by
  by_cases hp : p = [] <;> by_cases hq : q = []
  · exact .inr (.inr (.inl (hp.trans hq.symm)))
  · exact .inr (.inl ⟨hq, .inl hp⟩)
  · exact .inl ⟨hp, .inl hq⟩
  · rcases identifiers_trichotomy (p.splitOn 46) (q.splitOn 46) with h | h | h
    · exact .inl ⟨hp, .inr ⟨hq, h⟩⟩
    · exact .inr (.inl ⟨hq, .inr ⟨hp, h⟩⟩)
    · exact .inr (.inr (.inr ⟨hp, hq, h⟩))

/-! ### The readings are an order -/

/-- **The readings are transitive**: what lies between is read, so the outer two are. -/
theorem reads_trans {a b c : Text} (h : Reads a b) (h' : Reads b c) : Reads a c := by
  rcases h with h | ⟨h, hp⟩ <;> rcases h' with h' | ⟨h', hp'⟩
  · exact .inl (h.trans h')
  · exact .inl (h.congr_right h')
  · exact .inl (CoreBelow.congr_left h h')
  · exact .inr ⟨h.trans h', hp.trans hp'⟩

theorem TextCompared.not_reads (h : TextCompared a b) : ¬ Reads a b := by
  have ht := cores_text.2 h
  rintro (h' | ⟨h', -⟩)
  · rw [cores_lower.2 h'] at ht
    cases ht
  · rw [cores_equal.2 h'] at ht
    cases ht

theorem TextCompared.not_tied (h : TextCompared a b) : ¬ Tied a b := by
  rintro ⟨h', -⟩
  have ht := cores_text.2 h
  rw [cores_equal.2 h'] at ht
  cases ht

theorem Tied.symm (h : Tied a b) : Tied b a := ⟨h.1.symm, h.2.symm⟩

theorem Tied.not_reads (h : Tied a b) : ¬ Reads a b := by
  rintro (h' | ⟨-, h'⟩)
  · have ht := cores_lower.2 h'
    rw [cores_equal.2 h.1] at ht
    cases ht
  · exact h.2.not_below h'

theorem reads_irrefl (a : Text) : ¬ Reads a a := by
  rintro (⟨i, -, x, y, hx, hy, hlt⟩ | ⟨-, h⟩)
  · rw [hx] at hy
    cases hy
    exact lt_irrefl _ hlt
  · exact PrereleaseBelow.irrefl _ h

theorem reads_asymm (h : Reads a b) : ¬ Reads b a :=
  fun h' => reads_irrefl a (reads_trans h h')

/-- Two versions are compared as texts, or read one way or the other, or tied. -/
theorem compared_ways (a b : Text) : TextCompared a b ∨ Reads a b ∨ Reads b a ∨ Tied a b := by
  cases h : cores a b with
  | text => exact .inl (cores_text.1 h)
  | lower => exact .inr (.inl (.inl (cores_lower.1 h)))
  | higher => exact .inr (.inr (.inl (.inl (cores_higher.1 h))))
  | equal =>
    have hs := cores_equal.1 h
    rcases prerelease_trichotomy (splitVersion a).pre (splitVersion b).pre with hp | hp | hp
    · exact .inr (.inl (.inr ⟨hs, hp⟩))
    · exact .inr (.inr (.inl (.inr ⟨hs.symm, hp⟩)))
    · exact .inr (.inr (.inr ⟨hs, hp⟩))

theorem compareSemver_cores {a b : Text} (h : a ≠ b) :
    compareSemver a b = match cores a b with
      | .text => if a < b then -1 else 1
      | .lower => -1
      | .higher => 1
      | .equal =>
        if (splitVersion a).pre = (splitVersion b).pre then 0
        else if (splitVersion a).pre = [] then 1
        else if (splitVersion b).pre = [] then -1
        else comparePrereleases ((splitVersion a).pre.splitOn 46)
          ((splitVersion b).pre.splitOn 46) := by
  rw [compareSemver, if_neg h]
  rfl

/-- **What the comparison answers**: lower as texts where it compares them, else as it reads
them. -/
theorem compareSemver_neg {a b : Text} (h : a ≠ b) :
    compareSemver a b < 0 ↔ TextCompared a b ∧ a < b ∨ Reads a b := by
  rw [compareSemver_cores h]
  split
  · rename_i hc
    have ht := cores_text.1 hc
    simp only [ht, true_and, ht.not_reads, or_false]
    split_ifs with hlt <;> simp [hlt]
  · rename_i hc
    simp [Reads, cores_lower.1 hc]
  · rename_i hc
    have hr : Reads b a := .inl (cores_higher.1 hc)
    have hnt : ¬ TextCompared a b := fun ht => ht.symm.not_reads hr
    simp [hnt, reads_asymm hr]
  · rename_i hc
    have hs := cores_equal.1 hc
    have hnt : ¬ TextCompared a b := fun ht => by
      rw [cores_text.2 ht] at hc
      cases hc
    have hnb : ¬ CoreBelow a b := fun hb => by
      rw [cores_lower.2 hb] at hc
      cases hc
    simp only [hnt, false_and, false_or, Reads, hnb, hs, true_and]
    split_ifs with hp hpa hpb
    · simp [hp, PrereleaseBelow.irrefl]
    · simp [PrereleaseBelow, hpa]
    · simp [PrereleaseBelow, hpa, hpb]
    · simp [PrereleaseBelow, hpa, hpb, comparePrereleases_neg]

theorem compareSemver_self (a : Text) : compareSemver a a = 0 := by simp [compareSemver]

/-- What is neither lower nor equal is the same version, or tied. -/
theorem compareSemver_zero {a b : Text} (h : compareSemver a b = 0) : a = b ∨ Tied a b := by
  by_cases hab : a = b
  · exact .inl hab
  · refine .inr ?_
    rw [compareSemver_cores hab] at h
    split at h
    · split_ifs at h
      all_goals cases h
    · cases h
    · cases h
    · rename_i hc
      refine ⟨cores_equal.1 hc, ?_⟩
      split_ifs at h with hp hpa hpb
      · exact .inl hp
      · cases h
      · exact .inr ⟨hpa, hpb, comparePrereleases_zero h⟩

theorem Tied.compareSemver_nonneg (h : Tied a b) : 0 ≤ compareSemver a b := by
  by_cases hab : a = b
  · rw [hab, compareSemver_self]
  · rw [← not_lt, compareSemver_neg hab]
    rintro (⟨ht, -⟩ | hr)
    · exact ht.not_tied h
    · exact h.not_reads hr

/-! ### Orderly sets -/

/-- Where a version stands with its numbers rounded to doubles. -/
def rounded (v : Text) : Ranked Num (Num ⊕ₗ Text) :=
  ranked ((Semver.core v).map fun t => double (value t)) ((prerelease v).map identifierKey)

/-- A set of versions that the comparison orders: none are tied, no two comparisons as texts go
around a reading, and rounding the numbers of semantic versions keeps their precedence. -/
structure Orderly (V : Set Text) : Prop where
  untied : ∀ a ∈ V, ∀ b ∈ V, a ≠ b → ¬ Tied a b
  acyclic : ∀ a ∈ V, ∀ b ∈ V, ∀ c ∈ V, Reads a b → TextCompared b c → TextCompared c a →
    b < c → ¬ c < a
  rounds : ∀ a ∈ V, ∀ b ∈ V, Valid a → Valid b →
    (rounded a < rounded b ↔ precedence a < precedence b)

/-- The bundle records versions of the set alone. -/
def Inventory.DrawnFrom (m : Inventory) (V : Set Text) : Prop :=
  ∀ e ∈ m.entries, ∀ v ∈ e.2, v ∈ V

def Direction.flip : Direction → Direction
  | .up => .down
  | .down => .up
  | .changed => .changed

def Update.flip (u : Update) : Update :=
  ⟨u.pkg, u.otherVersions, u.baseVersions, u.direction.flip⟩

/-- The comparison orders the versions of a set, as semver and npm's own comparison do, and what
is told of bundles that record them rests on the versions alone. -/
structure Ordered (V : Set Text) : Prop where
  antisymm : ∀ a ∈ V, ∀ b ∈ V, 0 < compareSemver a b ↔ compareSemver b a < 0
  trans : ∀ a ∈ V, ∀ b ∈ V, ∀ c ∈ V, compareSemver a b ≤ 0 → compareSemver b c ≤ 0 →
    compareSemver a c ≤ 0
  precedence : ∀ a ∈ V, ∀ b ∈ V, Valid a → Valid b →
    (compareSemver a b < 0 ↔ precedence a < precedence b)
  compared : ∀ a ∈ V, ∀ b ∈ V, Valid a → Valid b → ∀ x y, Npm.parsed a = some x →
    Npm.parsed b = some y → (compareSemver a b < 0 ↔ Npm.compared x y < 0)
  updated : ∀ (localeCompare : String → String → ℤ) (base other : Inventory), base.DrawnFrom V →
    other.DrawnFrom V → ∀ pkg vs ws, base.get pkg = some vs → other.get pkg = some ws →
    ((∃ u ∈ (computeVersionUpdates localeCompare base other).updated, u.pkg = pkg) ↔
      ¬ ∀ v, v ∈ vs ↔ v ∈ ws)
  flips : ∀ (localeCompare : String → String → ℤ) (base other : Inventory), base.DrawnFrom V →
    other.DrawnFrom V → ∀ u, u ∈ (computeVersionUpdates localeCompare base other).updated ↔
      u.flip ∈ (computeVersionUpdates localeCompare other base).updated

section Orderly

variable {V : Set Text} {a b c : Text}

theorem compareSemver_nonpos : compareSemver a b ≤ 0 ↔ a = b ∨ Tied a b ∧ compareSemver a b = 0 ∨
    compareSemver a b < 0 := by
  constructor
  · intro h
    rcases h.lt_or_eq with h | h
    · exact .inr (.inr h)
    · exact (compareSemver_zero h).imp_right fun ht => .inl ⟨ht, h⟩
  · rintro (rfl | ⟨-, h⟩ | h)
    · exact (compareSemver_self a).le
    · exact h.le
    · exact h.le

theorem compareSemver_asymm (h : compareSemver a b < 0) : ¬ compareSemver b a < 0 := by
  have hab : a ≠ b := by
    rintro rfl
    rw [compareSemver_self] at h
    exact lt_irrefl _ h
  rw [compareSemver_neg hab] at h
  rw [compareSemver_neg hab.symm]
  rcases h with ⟨ht, hlt⟩ | hr <;> rintro (⟨ht', hlt'⟩ | hr')
  · exact lt_asymm hlt hlt'
  · exact ht.symm.not_reads hr'
  · exact ht'.symm.not_reads hr
  · exact reads_asymm hr hr'

section

variable (h : Orderly V)
include h

theorem Orderly.total (ha : a ∈ V) (hb : b ∈ V) (hab : a ≠ b) :
    compareSemver a b < 0 ∨ compareSemver b a < 0 := by
  rw [compareSemver_neg hab, compareSemver_neg hab.symm]
  rcases compared_ways a b with ht | hr | hr | ht
  · rcases lt_or_gt_of_ne hab with hlt | hlt
    · exact .inl (.inl ⟨ht, hlt⟩)
    · exact .inr (.inl ⟨ht.symm, hlt⟩)
  · exact .inl (.inr hr)
  · exact .inr (.inr hr)
  · exact absurd ht (h.untied a ha b hb hab)

theorem Orderly.nonpos (ha : a ∈ V) (hb : b ∈ V) :
    compareSemver a b ≤ 0 ↔ a = b ∨ compareSemver a b < 0 := by
  rw [compareSemver_nonpos]
  refine or_congr_right' fun hab => or_iff_right ?_
  rintro ⟨ht, -⟩
  exact h.untied a ha b hb hab ht

/-- Of three comparisons that would go around, two are readings, or all are of texts, or two
comparisons as texts go around a reading. -/
theorem Orderly.lt_trans (ha : a ∈ V) (hb : b ∈ V) (hc : c ∈ V)
    (hab : compareSemver a b < 0) (hbc : compareSemver b c < 0) : compareSemver a c < 0 := by
  have ne : ∀ {x y : Text}, compareSemver x y < 0 → x ≠ y := by
    rintro x y hxy rfl
    rw [compareSemver_self] at hxy
    exact lt_irrefl _ hxy
  have hac : a ≠ c := by
    rintro rfl
    exact compareSemver_asymm hab hbc
  rcases h.total ha hc hac with hlt | hca
  · exact hlt
  · have hab' := (compareSemver_neg (ne hab)).1 hab
    have hbc' := (compareSemver_neg (ne hbc)).1 hbc
    have hca' := (compareSemver_neg hac.symm).1 hca
    exfalso
    rcases hab' with ⟨tab, lab⟩ | rab <;> rcases hbc' with ⟨tbc, lbc⟩ | rbc <;>
      rcases hca' with ⟨tca, lca⟩ | rca
    · exact lt_irrefl _ ((lab.trans lbc).trans lca)
    · exact h.acyclic c hc a ha b hb rca tab tbc lab lbc
    · exact h.acyclic b hb c hc a ha rbc tca tab lca lab
    · exact tab.symm.not_reads (reads_trans rbc rca)
    · exact h.acyclic a ha b hb c hc rab tbc tca lbc lca
    · exact tbc.symm.not_reads (reads_trans rca rab)
    · exact tca.symm.not_reads (reads_trans rab rbc)
    · exact reads_asymm (reads_trans rab rbc) rca

theorem Orderly.le_trans (ha : a ∈ V) (hb : b ∈ V) (hc : c ∈ V)
    (hab : compareSemver a b ≤ 0) (hbc : compareSemver b c ≤ 0) : compareSemver a c ≤ 0 := by
  rw [h.nonpos ha hb] at hab
  rw [h.nonpos hb hc] at hbc
  rcases hab with rfl | hab
  · rcases hbc with rfl | hbc
    · exact (compareSemver_self a).le
    · exact hbc.le
  · rcases hbc with rfl | hbc
    · exact hab.le
    · exact (h.lt_trans ha hb hc hab hbc).le

end

/-! ### Sorting -/

/-- Each version older than those after it. -/
def Ascending (l : List Text) : Prop := l.Pairwise fun a b => compareSemver a b < 0

theorem perm_sorted (l : List Text) : (sorted l).Perm l := perm_insertionSort _ l

theorem Orderly.ascending_sorted (h : Orderly V) {l : List Text} (hl : ∀ v ∈ l, v ∈ V)
    (hnodup : l.Nodup) : Ascending (sorted l) := by
  -- the comparison is total and transitive on the set alone
  let r : V → V → Prop := fun a b => compareSemver a.1 b.1 ≤ 0
  have : Std.Total r := ⟨fun a b => by
    by_cases hab : a.1 = b.1
    · exact .inl (by simp [r, hab, compareSemver_self])
    · exact (h.total a.2 b.2 hab).imp le_of_lt le_of_lt⟩
  have : IsTrans V r := ⟨fun a b c hab hbc => h.le_trans a.2 b.2 c.2 hab hbc⟩
  have hmap : sorted l = ((l.attachWith (· ∈ V) hl).insertionSort r).map Subtype.val := by
    rw [map_insertionSort r (fun a b => compareSemver a b ≤ 0) Subtype.val _
      fun _ _ _ _ => Iff.rfl, List.attachWith_map_subtype_val]
    rfl
  have hle : (sorted l).Pairwise fun a b => compareSemver a b ≤ 0 := by
    rw [hmap, pairwise_map]
    exact pairwise_insertionSort r _
  have hne : (sorted l).Nodup := (perm_sorted l).nodup_iff.2 hnodup
  refine (hle.and hne).imp_of_mem fun ha hb hab => ?_
  have hmem : ∀ {x}, x ∈ sorted l → x ∈ V := fun hx => hl _ ((perm_sorted l).mem_iff.1 hx)
  exact ((h.nonpos (hmem ha) (hmem hb)).1 hab.1).resolve_left hab.2

/-- Lists of the same versions sort alike. -/
theorem Orderly.sorted_eq (h : Orderly V) {l l' : List Text} (hl : ∀ v ∈ l, v ∈ V)
    (hnodup : l.Nodup) (hnodup' : l'.Nodup) (hmem : ∀ v, v ∈ l ↔ v ∈ l') :
    sorted l = sorted l' := by
  have hl' : ∀ v ∈ l', v ∈ V := fun v hv => hl v ((hmem v).2 hv)
  have hperm : (sorted l).Perm (sorted l') :=
    (perm_sorted l).trans (((perm_ext_iff_of_nodup hnodup hnodup').2 hmem).trans
      (perm_sorted l').symm)
  refine hperm.eq_of_pairwise (fun a b _ _ hab hba => ?_) (h.ascending_sorted hl hnodup)
    (h.ascending_sorted hl' hnodup')
  exact absurd hba (compareSemver_asymm hab)

theorem mem_of_sorted_eq {l l' : List Text} (h : sorted l = sorted l') (v : Text) :
    v ∈ l ↔ v ∈ l' := by
  rw [← (perm_sorted l).mem_iff, h, (perm_sorted l').mem_iff]

end Orderly

/-! ### Directions -/

section Directions

variable {V : Set Text}

theorem Ascending.head_le_getLast {l : List Text} (hasc : Ascending l) {first last : Text}
    (hf : l.head? = some first) (hg : l.getLast? = some last) : compareSemver first last ≤ 0 := by
  cases l with
  | nil => cases hf
  | cons a l =>
    obtain rfl : a = first := by simpa using hf
    rcases mem_cons.1 (mem_of_getLast? hg) with rfl | hmem
    · exact (compareSemver_self _).le
    · exact ((pairwise_cons.1 hasc).1 last hmem).le

/-- Not every version of each of two lists is older than every one of the other's. -/
theorem Orderly.not_older_both (h : Orderly V) {s t : List Text} (hs : ∀ v ∈ s, v ∈ V)
    (ht : ∀ v ∈ t, v ∈ V) (hsa : Ascending s) (hta : Ascending t) (hst : older s t) :
    older t s = false := by
  by_contra hts
  unfold older at hst hts
  split at hst
  · rename_i sl tf hsl htf
    split at hts
    · rename_i tl sf htl hsf
      rw [decide_eq_true_eq] at hst
      rw [Bool.not_eq_false, decide_eq_true_eq] at hts
      have hsl' := hs _ (mem_of_getLast? hsl)
      have htl' := ht _ (mem_of_getLast? htl)
      have hsf' := hs _ (mem_of_head? hsf)
      have htf' := ht _ (mem_of_head? htf)
      have h₁ := h.le_trans htf' htl' hsf' (hta.head_le_getLast htf htl) hts.le
      have h₂ := h.le_trans htf' hsf' hsl' h₁ (hsa.head_le_getLast hsf hsl)
      rcases (h.nonpos htf' hsl').1 h₂ with he | hlt
      · rw [he, compareSemver_self] at hst
        exact lt_irrefl _ hst
      · exact compareSemver_asymm hst hlt
    · exact hts rfl
  · cases hst

theorem Orderly.moved_flip (h : Orderly V) {s t : List Text} (hs : ∀ v ∈ s, v ∈ V)
    (ht : ∀ v ∈ t, v ∈ V) (hsa : Ascending s) (hta : Ascending t) :
    moved t s = (moved s t).flip := by
  unfold moved
  by_cases hempty : s = [] ∨ t = []
  · rw [if_pos hempty, if_pos hempty.symm]
    rfl
  · rw [if_neg hempty, if_neg (mt Or.symm hempty)]
    cases hst : older s t with
    | true =>
      have := h.not_older_both hs ht hsa hta hst
      simp [this, Direction.flip]
    | false =>
      cases hts : older t s <;> simp [Direction.flip]

theorem Orderly.versionDirection_flip (h : Orderly V) {x y : List Text} (hx : ∀ v ∈ x, v ∈ V)
    (hy : ∀ v ∈ y, v ∈ V) (hxn : x.Nodup) (hyn : y.Nodup) (hne : ¬ ∀ v, v ∈ x ↔ v ∈ y) :
    versionDirection y x = (versionDirection x y).flip := by
  have part : ∀ {l : List Text}, (∀ v ∈ l, v ∈ V) → l.Nodup → ∀ p : Text → Bool,
      (∀ v ∈ sorted (l.filter p), v ∈ V) ∧ Ascending (sorted (l.filter p)) := by
    intro l hl hn p
    have hf : ∀ v ∈ l.filter p, v ∈ V := fun v hv => hl v (mem_of_mem_filter hv)
    exact ⟨fun v hv => hf v ((perm_sorted _).mem_iff.1 hv), h.ascending_sorted hf (hn.filter p)⟩
  have kept : sorted (y.filter (· ∈ x)) = sorted (x.filter (· ∈ y)) := by
    refine h.sorted_eq (fun v hv => hy v (mem_of_mem_filter hv)) (hyn.filter _)
      (hxn.filter _) fun v => ?_
    simp [and_comm]
  obtain ⟨hdV, hda⟩ := part hx hxn (· ∉ y)
  obtain ⟨htV, hta⟩ := part hy hyn (· ∉ x)
  obtain ⟨hkV, hka⟩ := part hx hxn (· ∈ y)
  have hsome : sorted (x.filter (· ∉ y)) = [] → sorted (y.filter (· ∉ x)) ≠ [] := by
    intro hd ht
    apply hne
    have hd' := (perm_sorted (x.filter (· ∉ y))).symm
    have ht' := (perm_sorted (y.filter (· ∉ x))).symm
    rw [hd, perm_nil, filter_eq_nil_iff] at hd'
    rw [ht, perm_nil, filter_eq_nil_iff] at ht'
    intro v
    exact ⟨fun hv => by simpa using hd' v hv, fun hv => by simpa using ht' v hv⟩
  unfold versionDirection
  simp only [kept]
  by_cases hd : sorted (x.filter (· ∉ y)) = []
  · have ht := hsome hd
    simp only [hd, ht, ne_eq, not_true_eq_false, not_false_eq_true, and_false, false_and, if_true,
      if_false]
    exact h.moved_flip hkV htV hka hta
  · by_cases ht : sorted (y.filter (· ∉ x)) = []
    · simp only [hd, ht, ne_eq, not_true_eq_false, not_false_eq_true, and_false, false_and,
        if_true, if_false]
      exact h.moved_flip hdV hkV hda hka
    · simp only [hd, ht, ne_eq, not_false_eq_true, and_self, if_true]
      exact h.moved_flip hdV htV hda hta

end Directions

/-! ### Updates -/

theorem Inventory.mem_of_get {m : Inventory} {pkg : String} {vs : List Text}
    (h : m.get pkg = some vs) : (pkg, vs) ∈ m.entries := by
  obtain ⟨e, he, rfl⟩ := map_eq_some_iff.1 h
  have hpkg := find?_some he
  rw [decide_eq_true_eq] at hpkg
  subst hpkg
  exact mem_of_find?_eq_some he

theorem mem_names {base other : Inventory} {pkg : String} {vs : List Text}
    (h : base.get pkg = some vs) : pkg ∈ names base other :=
  mem_append_left _ (List.mem_map_of_mem (mem_of_get h))

variable {localeCompare : String → String → ℤ}

/-- What is reported as updated: what both bundles have, sorted otherwise. -/
theorem mem_updated {base other : Inventory} {u : Update} :
    u ∈ (computeVersionUpdates localeCompare base other).updated ↔
      ∃ vs ws, base.get u.pkg = some vs ∧ other.get u.pkg = some ws ∧ sorted vs ≠ sorted ws ∧
        u = ⟨u.pkg, sorted vs, sorted ws, versionDirection (sorted vs) (sorted ws)⟩ := by
  simp only [computeVersionUpdates, mem_insertionSort, List.mem_filterMap]
  constructor
  · rintro ⟨pkg, -, hu⟩
    unfold updateOf at hu
    split at hu
    · rename_i vs ws hvs hws
      split_ifs at hu with hsame
      cases hu
      exact ⟨vs, ws, hvs, hws, by simpa [sameVersions] using hsame, rfl⟩
    · cases hu
  · rintro ⟨vs, ws, hvs, hws, hne, hu⟩
    refine ⟨u.pkg, mem_names hvs, ?_⟩
    rw [updateOf, hvs, hws]
    simp only [sameVersions, hne, decide_false, Bool.false_eq_true, if_false]
    exact congrArg some hu.symm

section Updates

variable {V : Set Text} {base other : Inventory} {pkg : String} {vs ws : List Text}

theorem Inventory.DrawnFrom.mem (h : base.DrawnFrom V) (hvs : base.get pkg = some vs) :
    ∀ v ∈ vs, v ∈ V := h _ (mem_of_get hvs)

theorem Inventory.get_nodup (hvs : base.get pkg = some vs) : vs.Nodup :=
  base.nodup _ (mem_of_get hvs)

theorem Orderly.sorted_eq_iff (h : Orderly V) (hb : base.DrawnFrom V)
    (hvs : base.get pkg = some vs) (hws : other.get pkg = some ws) :
    sorted vs = sorted ws ↔ ∀ v, v ∈ vs ↔ v ∈ ws :=
  ⟨mem_of_sorted_eq, h.sorted_eq (hb.mem hvs) (get_nodup hvs) (get_nodup hws)⟩

theorem Orderly.updated (h : Orderly V) (localeCompare : String → String → ℤ)
    (hb : base.DrawnFrom V) (hvs : base.get pkg = some vs) (hws : other.get pkg = some ws) :
    (∃ u ∈ (computeVersionUpdates localeCompare base other).updated, u.pkg = pkg) ↔
      ¬ ∀ v, v ∈ vs ↔ v ∈ ws := by
  rw [← h.sorted_eq_iff hb hvs hws]
  constructor
  · rintro ⟨u, hu, rfl⟩
    obtain ⟨vs', ws', hvs', hws', hne, -⟩ := mem_updated.1 hu
    rw [hvs] at hvs'
    rw [hws] at hws'
    cases hvs'
    cases hws'
    exact hne
  · intro hne
    exact ⟨⟨pkg, sorted vs, sorted ws, versionDirection (sorted vs) (sorted ws)⟩,
      mem_updated.2 ⟨vs, ws, hvs, hws, hne, rfl⟩, rfl⟩

theorem Direction.flip_flip (d : Direction) : d.flip.flip = d := by
  cases d <;> rfl

theorem Update.flip_flip (u : Update) : u.flip.flip = u := by
  simp [Update.flip, Direction.flip_flip]

theorem Orderly.flip_mem (h : Orderly V)
    (hb : base.DrawnFrom V) (ho : other.DrawnFrom V) {u : Update}
    (hu : u ∈ (computeVersionUpdates localeCompare base other).updated) :
    u.flip ∈ (computeVersionUpdates localeCompare other base).updated := by
  obtain ⟨vs, ws, hvs, hws, hne, hu⟩ := mem_updated.1 hu
  have hmem : ¬ ∀ v, v ∈ sorted vs ↔ v ∈ sorted ws := by
    simp only [(perm_sorted vs).mem_iff, (perm_sorted ws).mem_iff]
    exact mt (h.sorted_eq_iff hb hvs hws).2 hne
  have hflip := h.versionDirection_flip
    (fun v hv => hb.mem hvs v ((perm_sorted vs).mem_iff.1 hv))
    (fun v hv => ho.mem hws v ((perm_sorted ws).mem_iff.1 hv))
    ((perm_sorted vs).nodup_iff.2 (get_nodup hvs))
    ((perm_sorted ws).nodup_iff.2 (get_nodup hws)) hmem
  refine mem_updated.2 ⟨ws, vs, hws, hvs, hne.symm, ?_⟩
  rw [hflip, hu]
  rfl

end Updates

/-! ### Semantic versions -/

theorem mem_splitOn {c d : ℕ} (h : c ∈ t) (hcd : c ≠ d) : ∃ p ∈ t.splitOn d, c ∈ p := by
  induction t with
  | nil => cases h
  | cons x t ih =>
    have hcons : (x :: t).splitOn d =
        if x == d then [] :: t.splitOn d else (t.splitOn d).modifyHead (List.cons x) :=
      splitOnP_cons_eq_if_modifyHead x t
    rw [hcons]
    rcases mem_cons.1 h with rfl | h
    · rw [if_neg (by simpa using hcd)]
      cases hs : t.splitOn d with
      | nil => exact absurd hs (splitOnP_ne_nil _ _)
      | cons q qs => exact ⟨c :: q, by simp, by simp⟩
    · obtain ⟨p, hp, hc⟩ := ih h
      split_ifs
      · exact ⟨p, mem_cons_of_mem _ hp, hc⟩
      · cases hs : t.splitOn d with
        | nil =>
          rw [hs] at hp
          cases hp
        | cons q qs =>
          rw [hs] at hp
          rcases mem_cons.1 hp with rfl | hp
          · exact ⟨x :: p, by simp, mem_cons_of_mem _ hc⟩
          · exact ⟨p, by simp [hp], hc⟩

theorem mem_cut {c d : ℕ} (h : c ∈ t) :
    c ∈ (cut d t).1 ∨ c = d ∨ ∃ r, (cut d t).2 = some r ∧ c ∈ r := by
  rw [← takeWhile_append_dropWhile (p := (· ≠ d)) (l := t), mem_append] at h
  refine h.imp_right fun h => ?_
  unfold cut
  cases hr : t.dropWhile (· ≠ d) with
  | nil =>
    rw [hr] at h
    cases h
  | cons x r =>
    have hx : x = d := by
      have := head?_dropWhile_not (· ≠ d) t
      rw [hr] at this
      simpa using this
    rw [hr] at h
    rcases mem_cons.1 h with rfl | h
    · exact .inl hx
    · exact .inr ⟨r, rfl, h⟩

theorem not_isSpace_of_isIdentifierChar {c : ℕ} (h : isIdentifierChar c) : isSpace c = false := by
  simp only [isIdentifierChar, isDigit, Bool.or_eq_true, Bool.and_eq_true, decide_eq_true_eq] at h
  simp only [isSpace, mem_cons, not_mem_nil, Bool.or_eq_false_iff,
    Bool.and_eq_false_iff, decide_eq_false_iff_not, or_false]
  omega

theorem isIdentifierChar_of_isDigit {c : ℕ} (h : isDigit c) : isIdentifierChar c := by
  simp [isIdentifierChar, h]

/-- A semantic version holds no whitespace. -/
theorem not_isSpace_of_valid {v : Text} (h : Valid v) : ∀ c ∈ v, isSpace c = false := by
  obtain ⟨-, hcore, hpre, hbuild⟩ := h
  have part : ∀ {t : Text} {c : ℕ}, (∀ p ∈ t.splitOn 46, ∀ x ∈ p, isSpace x = false) → c ∈ t →
      isSpace c = false := by
    intro t c ht hc
    by_cases hdot : c = 46
    · subst hdot
      decide
    · obtain ⟨p, hp, hcp⟩ := mem_splitOn hc hdot
      exact ht p hp c hcp
  intro c hc
  rcases mem_cut (d := 43) hc with hc | rfl | ⟨build, hb, hc⟩
  · rcases mem_cut (d := 45) hc with hc | rfl | ⟨pre, hp, hc⟩
    · refine part (fun p hp x hx => ?_) hc
      have := all_of_isNumber (List.all_eq_true.1 hcore p hp)
      exact not_isSpace_of_isIdentifierChar
        (isIdentifierChar_of_isDigit (List.all_eq_true.1 this x hx))
    · decide
    · refine part (fun p hp' x hx => ?_) hc
      have hmem : p ∈ prerelease v := by
        rw [prerelease, hp]
        exact hp'
      have := List.all_eq_true.1 hpre p hmem
      simp only [isIdentifier, Bool.and_eq_true] at this
      exact not_isSpace_of_isIdentifierChar (List.all_eq_true.1 this.1.2 x hx)
  · decide
  · refine part (fun p hp x hx => ?_) hc
    have := List.all_eq_true.1 (hbuild build hb) p hp
    simp only [Bool.and_eq_true] at this
    exact not_isSpace_of_isIdentifierChar (List.all_eq_true.1 this.2 x hx)

theorem dropWhile_eq_self {α : Type} {p : α → Bool} {l : List α} (h : ∀ x ∈ l, p x = false) :
    l.dropWhile p = l := by
  cases l with
  | nil => rfl
  | cons x l => simp [h x (by simp)]

theorem trim_eq (h : ∀ c ∈ t, isSpace c = false) : trim t = t := by
  rw [trim, dropWhile_eq_self h, dropWhile_eq_self (by simpa using h), reverse_reverse]

theorem number_eq (h : isNumber t) : number t = some (double (value t)) := by
  have hdigits := isDigits_of_isNumber h
  have htrim : trim t = t := trim_eq fun c hc => not_isSpace_of_isIdentifierChar
    (isIdentifierChar_of_isDigit (List.all_eq_true.1 (all_of_isNumber h) c hc))
  have hdecimal : number.decimal t = some (double (value t)) := by
    rw [number.decimal, if_pos hdigits]
  unfold number
  rw [htrim]
  split
  · cases hdigits
  · simp [isNumber] at h
  · rw [if_neg, hdecimal]
    rintro rfl
    revert hdigits
    decide

section Valid

variable {a b : Text}

/-- The numbers of a version's core, rounded to doubles. -/
def doubles (v : Text) : List Num := (Semver.core v).map fun t => double (value t)

theorem splitVersion_core (h : Valid a) : (splitVersion a).core.splitOn 46 = Semver.core a := by
  rw [splitVersion, trim_eq (not_isSpace_of_valid h)]
  rfl

theorem numberAt_eq (h : Valid a) (i : ℕ) :
    numberAt a i = some ((doubles a)[i]?.getD ((0 : ℕ) : Num)) := by
  rw [numberAt, splitVersion_core h, partAt, doubles, getElem?_map]
  cases hi : (Semver.core a)[i]? with
  | none => rfl
  | some t => exact number_eq (List.all_eq_true.1 h.2.1 t (mem_of_getElem? hi))

theorem length_doubles (h : Valid a) : (doubles a).length = 3 := by
  rw [doubles, length_map]
  exact h.1

theorem not_textCompared (ha : Valid a) (hb : Valid b) : ¬ TextCompared a b := by
  rintro ⟨i, -, hi⟩
  rw [numberAt_eq ha, numberAt_eq hb] at hi
  simp at hi

theorem CoreSame.doubles_eq (h : CoreSame a b) (ha : Valid a) (hb : Valid b) :
    doubles a = doubles b := by
  refine ext_getElem ((length_doubles ha).trans (length_doubles hb).symm) fun i hi hi' => ?_
  have := h.eq i
  rw [numberAt_eq ha, numberAt_eq hb] at this
  simpa [hi, hi'] using this

theorem CoreBelow.doubles_lt (h : CoreBelow a b) (ha : Valid a) (hb : Valid b) :
    doubles a < doubles b := by
  obtain ⟨i, hi, x, y, hx, hy, hlt⟩ := h
  have hlen := (length_doubles ha).trans (length_doubles hb).symm
  rw [numberAt_eq ha] at hx
  rw [numberAt_eq hb] at hy
  by_cases hia : i < (doubles a).length
  · refine List.lt_iff_exists.2 (.inr ⟨i, hia, hlen ▸ hia, fun j hj => ?_, ?_⟩)
    · obtain ⟨z, hz, hz'⟩ := hi j hj
      rw [numberAt_eq ha] at hz
      rw [numberAt_eq hb] at hz'
      have hja := hj.trans hia
      simp only [hja, hlen ▸ hja, getElem?_eq_getElem, getD_some, Option.some.injEq] at hz hz'
      rw [hz, hz']
    · simp only [hia, hlen ▸ hia, getElem?_eq_getElem, getD_some, Option.some.injEq] at hx hy
      rw [hx, hy]
      exact hlt
  · rw [getElem?_eq_none (not_lt.1 hia)] at hx
    rw [getElem?_eq_none (hlen ▸ not_lt.1 hia)] at hy
    rw [hx] at hy
    cases hy
    exact absurd hlt (lt_irrefl _)

theorem IdentifiersBelow.map_lt {p q : List Text} (h : IdentifiersBelow p q) :
    p.map identifierKey < q.map identifierKey := by
  induction p generalizing q with
  | nil =>
    cases q with
    | nil => cases h
    | cons y q => simp
  | cons x p ih =>
    cases q with
    | nil => cases h
    | cons y q =>
      rw [IdentifiersBelow] at h
      rw [map_cons, map_cons, cons_lt_cons_iff]
      split_ifs at h with hxy
      · exact .inr ⟨by rw [hxy], ih h⟩
      · exact .inl h

/-- A valid version's prerelease, as the code has it, is that of its identifiers. -/
theorem splitVersion_pre (h : Valid a) :
    (splitVersion a).pre = [] ∧ prerelease a = [] ∨
      (splitVersion a).pre ≠ [] ∧ prerelease a = (splitVersion a).pre.splitOn 46 := by
  have hsplit : (splitVersion a).pre = ((cut 45 (cut 43 a).1).2).getD [] := by
    rw [splitVersion, trim_eq (not_isSpace_of_valid h)]
  have hpre := h.2.2.1
  rw [hsplit]
  unfold prerelease at hpre ⊢
  cases hcut : (cut 45 (cut 43 a).1).2 with
  | none => exact .inl ⟨rfl, rfl⟩
  | some pre =>
    rw [hcut] at hpre
    refine .inr ⟨?_, rfl⟩
    rintro hempty
    rw [getD_some] at hempty
    subst hempty
    simp [isIdentifier] at hpre

theorem PrereleaseBelow.ranked {p q : Text} {ip iq : List Text} (h : PrereleaseBelow p q)
    (hp : p = [] ∧ ip = [] ∨ p ≠ [] ∧ ip = p.splitOn 46)
    (hq : q = [] ∧ iq = [] ∨ q ≠ [] ∧ iq = q.splitOn 46) :
    ip.map identifierKey ≠ [] ∧ iq.map identifierKey = [] ∨
      ip.map identifierKey ≠ [] ∧ iq.map identifierKey ≠ [] ∧
        ip.map identifierKey < iq.map identifierKey := by
  obtain ⟨hp0, h⟩ := h
  obtain ⟨-, rfl⟩ := hp.resolve_left fun hp => hp0 hp.1
  have hne : ∀ t : Text, (t.splitOn 46).map identifierKey ≠ [] := fun t ht =>
    splitOnP_ne_nil _ _ (map_eq_nil_iff.1 ht)
  rcases h with hq0 | ⟨hq0, h⟩
  · obtain ⟨-, rfl⟩ := hq.resolve_right fun hq => hq.1 hq0
    exact .inl ⟨hne p, rfl⟩
  · obtain ⟨-, rfl⟩ := hq.resolve_left fun hq => hq0 hq.1
    exact .inr ⟨hne p, hne q, h.map_lt⟩

/-- What reads below stands below with its numbers rounded. -/
theorem Reads.rounded_lt (h : Reads a b) (ha : Valid a) (hb : Valid b) : rounded a < rounded b := by
  rw [rounded, rounded, ranked_lt_iff]
  rcases h with h | ⟨hs, hp⟩
  · exact .inl (h.doubles_lt ha hb)
  · exact .inr ⟨hs.doubles_eq ha hb, hp.ranked (splitVersion_pre ha) (splitVersion_pre hb)⟩

/-- On semantic versions that aren't tied the comparison is semver's with rounded numbers. -/
theorem compareSemver_neg_iff_rounded (ha : Valid a) (hb : Valid b) (h : a ≠ b → ¬ Tied a b) :
    compareSemver a b < 0 ↔ rounded a < rounded b := by
  by_cases hab : a = b
  · rw [hab, compareSemver_self]
    simp
  · rw [compareSemver_neg hab]
    constructor
    · rintro (⟨ht, -⟩ | hr)
      · exact absurd ht (not_textCompared ha hb)
      · exact hr.rounded_lt ha hb
    · intro hlt
      rcases compared_ways a b with ht | hr | hr | ht
      · exact absurd ht (not_textCompared ha hb)
      · exact .inr hr
      · exact absurd hlt (lt_asymm (hr.rounded_lt hb ha))
      · exact absurd ht (h hab)

end Valid

/-! ### The promises -/

section Promises

variable {V : Set Text}

theorem Orderly.ordered (h : Orderly V) : Ordered V where
  antisymm := fun a ha b hb => by
    constructor
    · intro hpos
      by_cases hab : a = b
      · rw [hab, compareSemver_self] at hpos
        exact absurd hpos (lt_irrefl _)
      · exact (h.total ha hb hab).resolve_left (lt_asymm hpos)
    · intro hneg
      have hle := not_lt.1 (compareSemver_asymm hneg)
      refine hle.lt_of_ne fun hzero => ?_
      rcases (h.nonpos ha hb).1 hzero.symm.le with rfl | hlt
      · rw [compareSemver_self] at hneg
        exact lt_irrefl _ hneg
      · exact hlt.ne hzero.symm
  trans := fun a ha b hb c hc => h.le_trans ha hb hc
  precedence := fun a ha b hb hav hbv => by
    rw [compareSemver_neg_iff_rounded hav hbv (h.untied a ha b hb), h.rounds a ha b hb hav hbv]
  compared := fun a ha b hb hav hbv x y hx hy => by
    rw [compareSemver_neg_iff_rounded hav hbv (h.untied a ha b hb), h.rounds a ha b hb hav hbv,
      Npm.compared_neg_iff_precedence hx hy hav hbv]
  updated := fun localeCompare base other hb _ pkg vs ws hvs hws =>
    h.updated localeCompare hb hvs hws
  flips := fun localeCompare base other hb ho u => by
    refine ⟨h.flip_mem hb ho, fun hu => ?_⟩
    have := h.flip_mem ho hb hu
    rwa [Update.flip_flip] at this

/-- A bundle with one package. -/
def single (versions : List Text) (h : versions.Nodup) : Inventory where
  entries := [("dep", versions)]
  nodup_keys := by simp
  nodup := by simpa using h

/-- Versions that compare as equal keep the order they were found in. -/
theorem updated_of_zero {a b : Text} (hab : a ≠ b) (h : compareSemver a b ≤ 0)
    (h' : compareSemver b a ≤ 0) (localeCompare : String → String → ℤ) :
    ∃ u ∈ (computeVersionUpdates localeCompare (single [a, b] (by simpa using hab))
      (single [b, a] (by simpa using hab.symm))).updated, u.pkg = "dep" := by
  have hs : sorted [a, b] = [a, b] := by simp [sorted, h]
  have hs' : sorted [b, a] = [b, a] := by simp [sorted, h']
  refine ⟨⟨"dep", sorted [a, b], sorted [b, a], versionDirection (sorted [a, b]) (sorted [b, a])⟩,
    mem_updated.2 ⟨[a, b], [b, a], rfl, rfl, ?_, rfl⟩, rfl⟩
  rw [hs, hs']
  simp [hab]

theorem Ordered.untied (h : Ordered V) {a b : Text} (ha : a ∈ V) (hb : b ∈ V) (hab : a ≠ b) :
    ¬ Tied a b := by
  intro ht
  have hba : compareSemver b a ≤ 0 := not_lt.1 fun hpos =>
    not_lt.2 ht.compareSemver_nonneg ((h.antisymm b hb a ha).1 hpos)
  have hab' : compareSemver a b ≤ 0 := not_lt.1 fun hpos =>
    not_lt.2 ht.symm.compareSemver_nonneg ((h.antisymm a ha b hb).1 hpos)
  have drawn : ∀ {l : List Text} (hn : l.Nodup), (∀ v ∈ l, v ∈ V) → (single l hn).DrawnFrom V := by
    intro l hn hl e he
    obtain rfl : e = ("dep", l) := by simpa [single] using he
    exact hl
  have hupd := h.updated (fun _ _ => 0) (single [a, b] (by simpa using hab))
    (single [b, a] (by simpa using hab.symm)) (drawn _ (by simp [ha, hb]))
    (drawn _ (by simp [ha, hb])) "dep" [a, b] [b, a] rfl rfl
  refine hupd.1 (updated_of_zero hab hab' hba _) fun v => ?_
  simp [or_comm]

theorem Ordered.orderly (h : Ordered V) : Orderly V where
  untied := fun a ha b hb hab => h.untied ha hb hab
  acyclic := fun a ha b hb c hc hr htb htc hbc hca => by
    have hab : a ≠ b := by
      rintro rfl
      exact reads_irrefl a hr
    have h₁ := (compareSemver_neg hab).2 (.inr hr)
    have h₂ := (compareSemver_neg hbc.ne).2 (.inl ⟨htb, hbc⟩)
    have h₃ := (compareSemver_neg hca.ne).2 (.inl ⟨htc, hca⟩)
    have h₄ := (h.antisymm a ha c hc).2 h₃
    exact not_lt.2 (h.trans a ha b hb c hc h₁.le h₂.le) h₄
  rounds := fun a ha b hb hav hbv => by
    rw [← compareSemver_neg_iff_rounded hav hbv (h.untied ha hb), h.precedence a ha b hb hav hbv]

/-- **Where the comparison of versions is an order.**  On a set of versions it is one that agrees
with semver, and reports of bundles rest on their versions alone, exactly where no two versions
are tied, no two comparisons as texts go around a reading, and rounding keeps the precedence. -/
theorem ordered_iff (V : Set Text) : Ordered V ↔ Orderly V :=
  ⟨Ordered.orderly, Orderly.ordered⟩

end Promises

/-- The comparison goes around three versions, answers two of one reading alike both ways, and
reports a package as updated whose versions are the same. -/
theorem compareSemver_not_ordered :
    ¬ Ordered Set.univ ∧
      (compareSemver (text "10") (text "1x") < 0 ∧ compareSemver (text "1x") (text "9") < 0 ∧
        compareSemver (text "9") (text "10") < 0) ∧
      (0 < compareSemver (text "1.0.0-rc.01") (text "1.0.0-rc.1") ∧
        0 < compareSemver (text "1.0.0-rc.1") (text "1.0.0-rc.01")) ∧
      ∃ u ∈ (computeVersionUpdates (fun _ _ => 0)
        (single [text "1.0.0+a", text "1.0.0+b"] (by decide +kernel))
        (single [text "1.0.0+b", text "1.0.0+a"] (by decide +kernel))).updated, u.pkg = "dep" := by
  refine ⟨fun h => ?_, by decide +kernel, by decide +kernel, ?_⟩
  · have h₁ := h.trans (text "10") trivial (text "1x") trivial (text "9") trivial
      (by decide +kernel) (by decide +kernel)
    exact absurd h₁ (by decide +kernel)
  · exact updated_of_zero (by decide +kernel) (by decide +kernel) (by decide +kernel) _

end Triage.CompareVersions
