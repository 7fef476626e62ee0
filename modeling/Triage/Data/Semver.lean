import Mathlib.Algebra.Group.Nat.Defs
import Mathlib.Data.List.Lex
import Mathlib.Data.Prod.Lex
import Mathlib.Data.Sum.Order

/-!
# Semantic versions

A version as a text of code units, its parts, and semver's precedence of the valid ones as a
linear order: by the numbers of the core, a release above its prereleases, and prereleases by
their identifiers, a number below a word.

## Main results

* `Semver.value_lt_iff` : numbers without leading zeros compare by length, then as texts.
* `Semver.map_lt_map_iff` : two keys that compare elements alike compare lists alike.
-/

namespace Triage.Semver

open List Bool

/-- A text by its code units. -/
abbrev Text := List ℕ

/-- The text of a string whose characters are one code unit each. -/
def text (s : String) : Text := s.toList.map Char.toNat

/-- The text before the first of a code unit, and the text after it where there is one. -/
def cut (c : ℕ) (t : Text) : Text × Option Text :=
  (t.takeWhile (· ≠ c), (t.dropWhile (· ≠ c)).tail?)

def isDigit (c : ℕ) : Bool := 48 ≤ c && c ≤ 57

/-- A digit, a letter or a hyphen. -/
def isIdentifierChar (c : ℕ) : Bool :=
  isDigit c || (65 ≤ c && c ≤ 90) || (97 ≤ c && c ≤ 122) || c = 45

/-- Digits, one at least. -/
def isDigits (t : Text) : Bool := !t.isEmpty && t.all isDigit

/-- Digits without a leading zero, or zero. -/
def isNumber (t : Text) : Bool := t = [48] || (isDigits t && t.head? ≠ some 48)

/-- The number that digits write. -/
def value : Text → ℕ
  | [] => 0
  | c :: t => (c - 48) * 10 ^ t.length + value t

/-! ### Precedence -/

/-- An identifier of a prerelease: a number, below every word. -/
abbrev Identifier := ℕ ⊕ₗ Text

def identifier (t : Text) : Identifier := if isDigits t then Sum.inlₗ (value t) else Sum.inrₗ t

/-- A core, and the identifiers of the prerelease: none at all stands above any. -/
abbrev Ranked (N I : Type) := List N ×ₗ WithTop (List I)

def ranked {N I : Type} (core : List N) (pre : List I) : Ranked N I :=
  toLex (core, if pre.isEmpty then ⊤ else (pre : WithTop (List I)))

/-- The core of a version, and the identifiers of its prerelease. -/
def core (v : Text) : List Text := ((cut 45 (cut 43 v).1).1).splitOn 46

def prerelease (v : Text) : List Text :=
  match (cut 45 (cut 43 v).1).2 with
  | some pre => pre.splitOn 46
  | none => []

def precedence (v : Text) : Ranked ℕ Identifier :=
  ranked ((core v).map value) ((prerelease v).map identifier)

/-- An identifier as semver writes one: not empty, a number without leading zeros. -/
def isIdentifier (t : Text) : Bool :=
  !t.isEmpty && t.all isIdentifierChar && (!isDigits t || isNumber t)

/-- A semantic version: three numbers, a prerelease's identifiers and the build's. -/
def Valid (v : Text) : Prop :=
  (core v).length = 3 ∧ (core v).all isNumber ∧ (prerelease v).all isIdentifier ∧
    ∀ build, (cut 43 v).2 = some build →
      (build.splitOn 46).all (fun t => !t.isEmpty && t.all isIdentifierChar)

instance (v : Text) : Decidable (Valid v) := by
  unfold Valid
  exact inferInstance

/-! ### Numbers by their digits -/

variable {t s : Text}

@[simp] theorem value_nil : value [] = 0 := rfl

theorem value_lt (ht : t.all isDigit) : value t < 10 ^ t.length := by
  induction t with
  | nil => simp
  | cons c t ih =>
    simp only [all_cons, and_eq_true] at ht
    have hc : c - 48 ≤ 9 := by
      have := ht.1
      simp only [isDigit, and_eq_true, decide_eq_true_eq] at this
      omega
    have hle : (c - 48) * 10 ^ t.length ≤ 9 * 10 ^ t.length := Nat.mul_le_mul_right _ hc
    have := ih ht.2
    rw [value, length_cons, Nat.pow_succ]
    omega

/-- Digits that start with no zero write a number of as many digits. -/
theorem le_value {c : ℕ} (hc : isDigit c) (h0 : c ≠ 48) : 10 ^ t.length ≤ value (c :: t) := by
  simp only [isDigit, and_eq_true, decide_eq_true_eq] at hc
  have : 1 * 10 ^ t.length ≤ (c - 48) * 10 ^ t.length := Nat.mul_le_mul_right _ (by omega)
  rw [value]
  omega

theorem value_lt_value (hs : s.all isDigit) (ht : t.all isDigit)
    (h : s.length = t.length) : value s < value t ↔ s < t := by
  induction s generalizing t with
  | nil =>
    obtain rfl : t = [] := by simpa using h.symm
    simp
  | cons c s ih =>
    obtain ⟨d, t, rfl⟩ := exists_cons_of_length_eq_add_one (h.symm.trans rfl)
    simp only [all_cons, and_eq_true] at hs ht
    have hlen : s.length = t.length := by simpa using h
    have hs' := value_lt hs.2
    have ht' := value_lt ht.2
    rw [cons_lt_cons_iff, ← ih hs.2 ht.2 hlen, value, value, ← hlen]
    rw [← hlen] at ht'
    have hc := hs.1
    have hd := ht.1
    simp only [isDigit, and_eq_true, decide_eq_true_eq] at hc hd
    rcases lt_trichotomy c d with hlt | rfl | hlt
    · have : (c - 48 + 1) * 10 ^ s.length ≤ (d - 48) * 10 ^ s.length :=
        Nat.mul_le_mul_right _ (by omega)
      rw [Nat.add_mul] at this
      constructor
      · exact fun _ => .inl hlt
      · intro _
        omega
    · simp
    · have : (d - 48 + 1) * 10 ^ s.length ≤ (c - 48) * 10 ^ s.length :=
        Nat.mul_le_mul_right _ (by omega)
      rw [Nat.add_mul] at this
      constructor
      · intro h
        omega
      · rintro (h | ⟨rfl, -⟩) <;> omega

theorem all_of_isNumber (h : isNumber t) : t.all isDigit := by
  simp only [isNumber, isDigits, or_eq_true, and_eq_true, decide_eq_true_eq] at h
  rcases h with rfl | h
  · decide
  · exact h.1.2

theorem isDigits_of_isNumber (h : isNumber t) : isDigits t := by
  simp only [isNumber, or_eq_true, and_eq_true, decide_eq_true_eq] at h
  rcases h with rfl | h
  · decide
  · exact h.1

theorem length_pos_of_isDigits (h : isDigits t) : 0 < t.length := by
  cases t with
  | nil => simp [isDigits] at h
  | cons c t => simp

/-- A number of more digits is the larger one. -/
theorem value_lt_of_length_lt (hs : isDigits s) (ht : isNumber t)
    (h : s.length < t.length) : value s < value t := by
  have hs0 := length_pos_of_isDigits hs
  simp only [isDigits, and_eq_true] at hs
  simp only [isNumber, isDigits, or_eq_true, and_eq_true, decide_eq_true_eq] at ht
  rcases ht with rfl | ⟨⟨_, hd⟩, h0⟩
  · simp only [length_singleton] at h
    omega
  · cases t with
    | nil => simp at h
    | cons c t =>
      simp only [all_cons, and_eq_true] at hd
      have hle : 10 ^ s.length ≤ 10 ^ t.length :=
        Nat.pow_le_pow_right (by omega) (by simpa [Nat.lt_succ_iff] using h)
      have := le_value (t := t) hd.1 (by simpa using h0)
      have := value_lt hs.2
      omega

/-- **Numbers without leading zeros compare by their length, then as texts.** -/
theorem value_lt_iff (hs : isNumber s) (ht : isNumber t) :
    value s < value t ↔ s.length < t.length ∨ s.length = t.length ∧ s < t := by
  rcases lt_trichotomy s.length t.length with h | h | h
  · simp [h, value_lt_of_length_lt (isDigits_of_isNumber hs) ht h]
  · simp [h, value_lt_value (all_of_isNumber hs) (all_of_isNumber ht) h]
  · have := value_lt_of_length_lt (isDigits_of_isNumber ht) hs h
    omega

/-! ### Orders of lists by a key -/

section Keys

variable {α β γ : Type*} [LinearOrder β] [LinearOrder γ]

/-- Two keys that compare the elements of two lists alike compare the lists alike. -/
theorem map_lt_map_iff {f : α → β} {g : α → γ} {l l' : List α}
    (hlt : ∀ x ∈ l, ∀ y ∈ l', f x < f y ↔ g x < g y)
    (heq : ∀ x ∈ l, ∀ y ∈ l', f x = f y ↔ g x = g y) :
    l.map f < l'.map f ↔ l.map g < l'.map g := by
  induction l generalizing l' with
  | nil => cases l' <;> simp
  | cons x l ih =>
    cases l' with
    | nil => simp
    | cons y l' =>
      simp only [map_cons, cons_lt_cons_iff]
      rw [hlt x (by simp) y (by simp), heq x (by simp) y (by simp),
        ih (fun a ha b hb => hlt a (by simp [ha]) b (by simp [hb]))
          (fun a ha b hb => heq a (by simp [ha]) b (by simp [hb]))]

end Keys

section Ranked

variable {N I : Type}

theorem ranked_inj {c d : List N} {p q : List I} : ranked c p = ranked d q ↔ c = d ∧ p = q := by
  simp only [ranked, EmbeddingLike.apply_eq_iff_eq, Prod.mk.injEq]
  cases p <;> cases q <;> simp

variable [LinearOrder N] [LinearOrder I]

/-- By the core first, then a prerelease below none, and prereleases as lists. -/
theorem ranked_lt_iff {c d : List N} {p q : List I} :
    ranked c p < ranked d q ↔ c < d ∨ c = d ∧ (p ≠ [] ∧ q = [] ∨ p ≠ [] ∧ q ≠ [] ∧ p < q) := by
  rw [ranked, ranked, Prod.Lex.lt_iff]
  cases p <;> cases q <;> simp

end Ranked

end Triage.Semver
