import Mathlib.Algebra.Group.Nat.Defs
import Mathlib.Data.List.Basic

/-!
# Authenticated encryption, and streams sealed with it

An authenticated cipher that is *ideal* for a key opens what has been sealed under the key, and
nothing else. A stream is sealed in numbered segments with a mark on the last one; then what opens
from the first segment to a marked one is the whole stream.

## Main results

* `openFrom_sealFrom` : a sealed stream opens.
* `Genuine.eq_of_openFrom` : what opens is the sealed stream.
* `Aead.Ideal.genuine` : an ideal cipher gives such segments, if no nonce is used twice.
-/

namespace Triage.Crypto

open List Nat

/-- A cipher that authenticates. -/
structure Aead (κ ν δ : Type*) where
  encrypt : κ → ν → δ → List UInt8 → List UInt8
  decrypt : κ → ν → δ → List UInt8 → Option (List UInt8)

/-- The sealings made under a key: nonce, associated data and plaintext. -/
abbrev Sealings (ν δ : Type*) := Set (ν × δ × List UInt8)

/-- The cipher is ideal for the key `k`: a ciphertext is as much longer than its plaintext as the
tag is long, and decryption answers exactly the ciphertexts made under `k`. -/
structure Aead.Ideal {κ ν δ : Type*} (A : Aead κ ν δ) (tag : ℕ) (k : κ) (made : Sealings ν δ) :
    Prop where
  length : ∀ n a p, (A.encrypt k n a p).length = p.length + tag
  decrypt_iff : ∀ n a c p,
    A.decrypt k n a c = some p ↔ (n, a, p) ∈ made ∧ c = A.encrypt k n a p

/-! ### Numbered segments -/

variable {α β : Type*}

/-- Seals the segments of a stream from number `i` on; the last one is marked. -/
def sealFrom (sealed : ℕ → Bool → α → β) : ℕ → List α → List β
  | _, [] => []
  | i, p :: ps => sealed i ps.isEmpty p :: sealFrom sealed (i + 1) ps

/-- Opens the segments of a stream from number `i` on; the last one must be marked. -/
def openFrom (opened : ℕ → Bool → β → Option α) : ℕ → List β → Option (List α)
  | _, [] => some []
  | i, c :: cs =>
    (opened i cs.isEmpty c).bind fun p => (openFrom opened (i + 1) cs).map (p :: ·)

variable {sealed : ℕ → Bool → α → β} {opened : ℕ → Bool → β → Option α}

@[simp] theorem isEmpty_sealFrom (i : ℕ) (ps : List α) :
    (sealFrom sealed i ps).isEmpty = ps.isEmpty := by
  cases ps <;> rfl

@[simp] theorem length_sealFrom (i : ℕ) (ps : List α) :
    (sealFrom sealed i ps).length = ps.length := by
  induction ps generalizing i with
  | nil => rfl
  | cons p ps ih => simp [sealFrom, ih]

theorem map_length_sealFrom {sealed : ℕ → Bool → List α → List β} {tag : ℕ}
    (h : ∀ i f p, (sealed i f p).length = p.length + tag) (i : ℕ) (ps : List (List α)) :
    (sealFrom sealed i ps).map List.length = ps.map fun p => p.length + tag := by
  induction ps generalizing i with
  | nil => rfl
  | cons p ps ih => simp [sealFrom, h, ih]

theorem getElem?_sealFrom (i j : ℕ) (ps : List α) :
    (sealFrom sealed i ps)[j]? = ps[j]?.map (sealed (i + j) (decide (j + 1 = ps.length))) := by
  induction ps generalizing i j with
  | nil => rfl
  | cons p ps ih =>
    cases j with
    | zero =>
      have hempty : ps.isEmpty = decide (0 + 1 = (p :: ps).length) := by cases ps <;> simp
      rw [sealFrom, hempty]
      rfl
    | succ j =>
      rw [sealFrom, getElem?_cons_succ, ih, add_assoc, add_comm 1 j]
      simp

theorem sealFrom_append_singleton (i : ℕ) (ps : List α) (p : α) :
    sealFrom sealed i (ps ++ [p]) =
      ps.mapIdx (fun j q => sealed (i + j) false q) ++ [sealed (i + ps.length) true p] := by
  induction ps generalizing i with
  | nil => rfl
  | cons q ps ih =>
    have hidx : (fun j r => sealed (i + 1 + j) false r) =
        fun j r => sealed (i + (j + 1)) false r := by
      funext j r
      rw [add_assoc, add_comm 1 j]
    have hmore : (ps ++ [p]).isEmpty = false := by simp
    rw [cons_append, sealFrom, ih, mapIdx_cons, hidx, hmore]
    simp [add_assoc, add_comm 1]

variable {i : ℕ} {ps : List α}

/-- **A sealed stream opens**, if every segment does. -/
theorem openFrom_sealFrom (h : ∀ j p, ps[j]? = some p → opened (i + j) (decide (j + 1 = ps.length))
      (sealed (i + j) (decide (j + 1 = ps.length)) p) = some p) :
    openFrom opened i (sealFrom sealed i ps) = some ps := by
  induction ps generalizing i with
  | nil => rfl
  | cons p ps ih =>
    have hlast : ps.isEmpty = decide (0 + 1 = (p :: ps).length) := by cases ps <;> simp
    have hhead := h 0 p rfl
    have htail : openFrom opened (i + 1) (sealFrom sealed (i + 1) ps) = some ps := by
      refine ih fun j q hq => ?_
      have := h (j + 1) q (by simpa using hq)
      simpa [add_assoc, add_comm 1 j] using this
    rw [sealFrom, openFrom, isEmpty_sealFrom, hlast, add_zero] at *
    rw [hhead, htail]
    rfl

/-- A segment opens only at its number and with its mark, and then to what was sealed. -/
def Genuine (sealed : ℕ → Bool → α → β) (opened : ℕ → Bool → β → Option α) (ps : List α) : Prop :=
  ∀ i f c p, i < ps.length → opened i f c = some p →
    ps[i]? = some p ∧ f = decide (i + 1 = ps.length) ∧ c = sealed i f p

/-- **What opens up to a marked segment is the sealed stream**: nothing is moved, missing, doubled
or added. -/
theorem Genuine.eq_of_openFrom (h : Genuine sealed opened ps) {cs : List β}
    {qs : List α} (hi : i < ps.length) (hcs : cs ≠ []) (hopen : openFrom opened i cs = some qs) :
    cs = sealFrom sealed i (ps.drop i) ∧ qs = ps.drop i := by
  induction cs generalizing i qs with
  | nil => exact absurd rfl hcs
  | cons c cs ih =>
    rw [openFrom] at hopen
    obtain ⟨p, hp, hopen⟩ := Option.bind_eq_some_iff.1 hopen
    obtain ⟨qs', hqs, rfl⟩ := Option.map_eq_some_iff.1 hopen
    obtain ⟨hget, hmark, hc⟩ := h i _ c p hi hp
    have hdrop : ps.drop i = p :: ps.drop (i + 1) := by
      obtain ⟨hlt, hp⟩ := List.getElem?_eq_some_iff.1 hget
      rw [drop_eq_getElem_cons hlt, hp]
    by_cases hnil : cs = []
    · subst hnil
      have hlast : i + 1 = ps.length := by simpa using hmark
      have hrest : ps.drop (i + 1) = [] := drop_of_length_le (Nat.le_of_eq hlast.symm)
      obtain rfl : [] = qs' := by simpa [openFrom] using hqs
      rw [hdrop, hrest, hc]
      exact ⟨rfl, rfl⟩
    · have hmore : i + 1 ≠ ps.length := by
        rw [isEmpty_eq_false_iff.2 hnil] at hmark
        simpa using hmark.symm
      obtain ⟨hcs', hqs'⟩ := ih (by omega) hnil hqs
      have hempty : cs.isEmpty = (ps.drop (i + 1)).isEmpty := by rw [hcs', isEmpty_sealFrom]
      rw [hdrop, sealFrom, ← hempty, ← hc, ← hcs', ← hqs']
      exact ⟨rfl, rfl⟩

/-! ### Nonces -/

/-- A number in four bytes, the high one first. -/
def uint32 (n : ℕ) : List UInt8 :=
  [.ofNat (n / 2 ^ 24), .ofNat (n / 2 ^ 16), .ofNat (n / 2 ^ 8), .ofNat n]

/-- The nonce of a segment: its number in four bytes, and a mark on the last one. -/
def streamNonce (index : ℕ) (final : Bool) : List UInt8 :=
  List.replicate 7 0 ++ uint32 index ++ [if final then 1 else 0]

theorem uint32_injective {j : ℕ} (hi : i < 2 ^ 32) (hj : j < 2 ^ 32) (h : uint32 i = uint32 j) :
    i = j := by
  simp only [uint32, List.cons.injEq, and_true, ← UInt8.toNat_inj, UInt8.toNat_ofNat'] at h
  omega

/-- The nonces of the segments differ as long as their numbers fit. -/
theorem streamNonce_injective {j : ℕ} {f g : Bool} (hi : i < 2 ^ 32) (hj : j < 2 ^ 32)
    (h : streamNonce i f = streamNonce j g) : i = j ∧ f = g := by
  rw [streamNonce, streamNonce, append_assoc, append_assoc] at h
  obtain ⟨hnumber, hmark⟩ := append_inj (append_cancel_left h) rfl
  refine ⟨uint32_injective hi hj hnumber, ?_⟩
  cases f <;> cases g <;> simp_all

/-! ### Segments under a cipher -/

variable {κ ν δ : Type*} {A : Aead κ ν δ} {tag : ℕ} {k : κ}

/-- The sealings that a stream of segments makes. -/
def streamSealings (nonce : ℕ → Bool → ν) (a : δ) (ps : List (List UInt8)) : Sealings ν δ :=
  {x | ∃ i p, ps[i]? = some p ∧ x = (nonce i (decide (i + 1 = ps.length)), a, p)}

variable {nonce : ℕ → Bool → ν}

/-- Under an ideal cipher a segment opens only where it stood, if the nonces differ. -/
theorem Aead.Ideal.genuine {a : δ} {ps : List (List UInt8)}
    (h : A.Ideal tag k (streamSealings nonce a ps))
    (hnonce : ∀ i f j g, i < ps.length → j < ps.length → nonce i f = nonce j g → i = j ∧ f = g) :
    Genuine (fun i f => A.encrypt k (nonce i f) a) (fun i f => A.decrypt k (nonce i f) a) ps := by
  intro i f c p hi hopen
  obtain ⟨⟨j, q, hq, heq⟩, hc⟩ := (h.decrypt_iff ..).1 hopen
  obtain ⟨hn, -, rfl⟩ : nonce i f = nonce j _ ∧ a = a ∧ p = q := by simpa using heq
  obtain ⟨hlt, -⟩ := List.getElem?_eq_some_iff.1 hq
  obtain ⟨rfl, rfl⟩ := hnonce i f j _ hi hlt hn
  exact ⟨hq, rfl, hc⟩

/-- Under an ideal cipher a segment that was sealed opens. -/
theorem Aead.Ideal.decrypt_sealed {a : δ} {ps : List (List UInt8)}
    (h : A.Ideal tag k (streamSealings nonce a ps)) {p : List UInt8} (hp : ps[i]? = some p) :
    A.decrypt k (nonce i (decide (i + 1 = ps.length))) a
      (A.encrypt k (nonce i (decide (i + 1 = ps.length))) a p) = some p :=
  (h.decrypt_iff ..).2 ⟨⟨i, p, hp, rfl⟩, rfl⟩

end Triage.Crypto
