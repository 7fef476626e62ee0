import Triage.Data.Semver

/-!
# Versions as npm publishes them

A version is read into its core and its prerelease's identifiers, where its core's numbers are
safe integers, and two are compared by semver's precedence: part by part, without making numbers
of a prerelease's digits.

## Main results

* `compared_neg_iff`, `compared_eq_zero_iff` : the comparison is that of a linear order.
* `compared_neg_iff_precedence` : **on semantic versions it is semver's precedence.**
-/

namespace Triage.Npm

open Semver List

/-- The largest integer up to which every number is told from the next. -/
def MAX_SAFE_INTEGER : ℕ := 2 ^ 53 - 1

/-- `[\da-z-]` as the flags `iu` read it: two more letters fold to those. -/
def isVersionChar (c : ℕ) : Bool := isIdentifierChar c || c = 0x17F || c = 0x212A

def isVersionIdentifier (t : Text) : Bool := !t.isEmpty && t.all isVersionChar

/-- The texts `VERSION` matches, each number of the core safe. -/
def isVersion (v : Text) : Prop :=
  (core v).length = 3 ∧ (core v).all (fun t => isNumber t && t.length ≤ 16) ∧
    (prerelease v).all isVersionIdentifier ∧
    (∀ build, (cut 43 v).2 = some build → (build.splitOn 46).all isVersionIdentifier) ∧
    (core v).all (fun t => value t ≤ MAX_SAFE_INTEGER)

instance (v : Text) : Decidable (isVersion v) := by
  unfold isVersion
  exact inferInstance

/-- MAJOR.MINOR.PATCH and the identifiers of the prerelease. -/
structure Version where
  core : List ℕ
  pre : List Text
  core_length : core.length = 3
deriving DecidableEq

def parsed (v : Text) : Option Version :=
  if h : isVersion v then some ⟨(core v).map value, prerelease v, by simpa using h.1⟩ else none

/-- Two identifiers that differ: a number below a word, numbers by their length first. -/
def comparedIdentifiers (x y : Text) : ℤ :=
  if isDigits x ≠ isDigits y then if isDigits x then -1 else 1
  else if isDigits x ∧ x.length ≠ y.length then (x.length : ℤ) - y.length
  else if x < y then -1 else 1

def comparedPrereleases : List Text → List Text → ℤ
  | [], [] => 0
  | [], _ :: _ => -1
  | _ :: _, [] => 1
  | x :: a, y :: b => if x = y then comparedPrereleases a b else comparedIdentifiers x y

/-- Which of two versions is higher: negative where it is the second. -/
def compared (a b : Version) : ℤ :=
  match (a.core.zip b.core).find? fun p => p.1 ≠ p.2 with
  | some (x, y) => (x : ℤ) - y
  | none =>
    if a.pre.length = 0 ∨ b.pre.length = 0 then (b.pre.length : ℤ) - a.pre.length
    else comparedPrereleases a.pre b.pre

/-! ### The order of versions -/

/-- An identifier by the order `comparedIdentifiers` puts it in. -/
def identifierKey (t : Text) : (ℕ ×ₗ Text) ⊕ₗ Text :=
  if isDigits t then Sum.inlₗ (toLex (t.length, t)) else Sum.inrₗ t

def key (a : Version) : Ranked ℕ ((ℕ ×ₗ Text) ⊕ₗ Text) := ranked a.core (a.pre.map identifierKey)

variable {x y : Text} {a b : Version}

theorem identifierKey_inj : identifierKey x = identifierKey y ↔ x = y := by
  constructor
  · intro h
    unfold identifierKey at h
    split_ifs at h
    · simpa using congrArg (fun p => (ofLex p).2) (Sum.inl_injective (toLex.injective h))
    · cases toLex.injective h
    · cases toLex.injective h
    · exact Sum.inr_injective (toLex.injective h)
  · rintro rfl
    rfl

theorem comparedIdentifiers_ne_zero : comparedIdentifiers x y ≠ 0 := by
  unfold comparedIdentifiers
  split_ifs <;> omega

theorem comparedIdentifiers_neg_iff :
    comparedIdentifiers x y < 0 ↔ identifierKey x < identifierKey y := by
  unfold comparedIdentifiers identifierKey
  by_cases hx : isDigits x <;> by_cases hy : isDigits y
  · simp only [hx, hy, ne_eq, not_true_eq_false, if_false, if_true, true_and]
    rw [Sum.Lex.inl_lt_inl_iff, Prod.Lex.lt_iff]
    by_cases hl : x.length = y.length
    · by_cases hlt : x < y <;> simp [hl, hlt]
    · simp only [hl, not_false_eq_true, if_true, false_and, or_false, ofLex_toLex]
      omega
  · simp [hx, hy]
  · simp [hx, hy]
  · by_cases hlt : x < y <;> simp [hx, hy, hlt]

theorem comparedPrereleases_eq_zero_iff {a b : List Text} :
    comparedPrereleases a b = 0 ↔ a = b := by
  induction a generalizing b with
  | nil => cases b <;> simp [comparedPrereleases]
  | cons x a ih =>
    cases b with
    | nil => simp [comparedPrereleases]
    | cons y b =>
      rw [comparedPrereleases]
      split
      · rename_i h
        simp [h, ih]
      · rename_i h
        simp [h, comparedIdentifiers_ne_zero]

theorem comparedPrereleases_neg_iff {a b : List Text} :
    comparedPrereleases a b < 0 ↔ a.map identifierKey < b.map identifierKey := by
  induction a generalizing b with
  | nil => cases b <;> simp [comparedPrereleases]
  | cons x a ih =>
    cases b with
    | nil => simp [comparedPrereleases]
    | cons y b =>
      rw [comparedPrereleases, map_cons, map_cons, cons_lt_cons_iff]
      split
      · rename_i h
        simp [h, ih]
      · rename_i h
        rw [comparedIdentifiers_neg_iff]
        simp [h, identifierKey_inj]

/-- The first place where two cores differ tells which is lower. -/
theorem find_zip {l l' : List ℕ} (h : l.length = l'.length) :
    (∀ x y, (l.zip l').find? (fun p => p.1 ≠ p.2) = some (x, y) → l ≠ l' ∧ (l < l' ↔ x < y)
      ∧ x ≠ y) ∧ ((l.zip l').find? (fun p => p.1 ≠ p.2) = none → l = l') := by
  induction l generalizing l' with
  | nil =>
    obtain rfl : l' = [] := by simpa using h.symm
    simp
  | cons c l ih =>
    obtain ⟨d, l', rfl⟩ := exists_cons_of_length_eq_add_one (h.symm.trans rfl)
    obtain ⟨ihs, ihn⟩ := ih (by simpa using h)
    by_cases hcd : c = d
    · subst hcd
      refine ⟨fun x y hf => ?_, fun hf => ?_⟩
      · have := ihs x y (by simpa using hf)
        simpa using this
      · rw [ihn (by simpa using hf)]
    · refine ⟨fun x y hf => ?_, fun hf => ?_⟩
      · have : c = x ∧ d = y := by simpa [hcd] using hf
        obtain ⟨rfl, rfl⟩ := this
        simp [hcd, cons_lt_cons_iff]
      · simp [hcd] at hf

/-- **`compared` is the order of the versions' keys.** -/
theorem compared_neg_iff : compared a b < 0 ↔ key a < key b := by
  obtain ⟨hs, hn⟩ := find_zip (a.core_length.trans b.core_length.symm)
  unfold compared key
  rw [ranked_lt_iff]
  split
  · rename_i x y hf
    obtain ⟨hne, hlt, -⟩ := hs x y hf
    simp only [hne, hlt, false_and, or_false]
    omega
  · rename_i hf
    rw [hn hf]
    by_cases ha : a.pre = [] <;> by_cases hb : b.pre = []
    · simp [ha, hb]
    · simp [ha]
    · simp [hb, length_pos_iff, ha]
    · simp [ha, hb, comparedPrereleases_neg_iff]

theorem compared_eq_zero_iff : compared a b = 0 ↔ key a = key b := by
  obtain ⟨hs, hn⟩ := find_zip (a.core_length.trans b.core_length.symm)
  have hpre : a.pre.map identifierKey = b.pre.map identifierKey ↔ a.pre = b.pre := by
    rw [List.map_inj_right]
    exact fun x y => identifierKey_inj.1
  unfold compared key
  rw [ranked_inj, hpre]
  split
  · rename_i x y hf
    obtain ⟨hne, -, hxy⟩ := hs x y hf
    simp [hne]
    omega
  · rename_i hf
    rw [hn hf]
    by_cases ha : a.pre = [] <;> by_cases hb : b.pre = []
    · simp [ha, hb]
    · simp [ha, hb, eq_comm]
    · simp [ha, hb]
    · simp [ha, hb, comparedPrereleases_eq_zero_iff]

theorem compared_nonpos_iff : compared a b ≤ 0 ↔ key a ≤ key b := by
  rw [le_iff_lt_or_eq, compared_neg_iff, compared_eq_zero_iff, ← le_iff_lt_or_eq]

/-! ### Semantic versions -/

theorem identifier_lt_iff (hx : isIdentifier x) (hy : isIdentifier y) :
    identifier x < identifier y ↔ identifierKey x < identifierKey y := by
  simp only [isIdentifier, Bool.and_eq_true, Bool.or_eq_true] at hx hy
  unfold identifier identifierKey
  by_cases hdx : isDigits x <;> by_cases hdy : isDigits y
  · have hnx : isNumber x := by simpa [hdx] using hx.2
    have hny : isNumber y := by simpa [hdy] using hy.2
    simp only [hdx, hdy, if_true]
    rw [Sum.Lex.inl_lt_inl_iff, Sum.Lex.inl_lt_inl_iff, Prod.Lex.lt_iff, value_lt_iff hnx hny]
    simp
  · simp [hdx, hdy]
  · simp [hdx, hdy]
  · simp [hdx, hdy]

theorem identifier_inj (hx : isIdentifier x) (hy : isIdentifier y) :
    identifier x = identifier y ↔ x = y := by
  constructor
  · intro h
    rcases lt_trichotomy (identifierKey x) (identifierKey y) with hlt | heq | hlt
    · exact absurd h ((identifier_lt_iff hx hy).2 hlt).ne
    · exact identifierKey_inj.1 heq
    · exact absurd h ((identifier_lt_iff hy hx).2 hlt).ne'
  · rintro rfl
    rfl

theorem parsed_eq {v : Text} (h : parsed v = some a) :
    a.core = (core v).map value ∧ a.pre = prerelease v := by
  unfold parsed at h
  split at h
  · cases h
    exact ⟨rfl, rfl⟩
  · cases h

/-- **On semantic versions `compared` is semver's precedence.** -/
theorem compared_neg_iff_precedence {u v : Text} (ha : parsed u = some a)
    (hb : parsed v = some b) (hu : Valid u) (hv : Valid v) :
    compared a b < 0 ↔ precedence u < precedence v := by
  obtain ⟨hac, hap⟩ := parsed_eq ha
  obtain ⟨hbc, hbp⟩ := parsed_eq hb
  have hpu := all_eq_true.1 hu.2.2.1
  have hpv := all_eq_true.1 hv.2.2.1
  have hlt : (prerelease u).map identifier < (prerelease v).map identifier ↔
      (prerelease u).map identifierKey < (prerelease v).map identifierKey :=
    map_lt_map_iff (fun x hx y hy => identifier_lt_iff (hpu x hx) (hpv y hy))
      (fun x hx y hy => (identifier_inj (hpu x hx) (hpv y hy)).trans identifierKey_inj.symm)
  rw [compared_neg_iff, key, key, precedence, precedence, ranked_lt_iff, ranked_lt_iff, hac, hbc,
    hap, hbp, hlt]
  simp

end Triage.Npm
