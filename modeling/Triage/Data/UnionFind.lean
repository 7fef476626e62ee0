import Mathlib.Data.Nat.Find
import Mathlib.Logic.Function.Iterate
import Mathlib.Logic.Relation

/-!
# Union-find

A forest of parent pointers in which every climb ends, as a type: its roots, what shortening the
climbs leaves as it is, and what linking two trees joins. Linking one pair after another makes
the connected components of the pairs.

## Main results

* `Forest.root_shorten`, `Forest.root_link` : the roots after each.
* `Forest.same_run`, `Forest.same_foldl` : **what a run of links makes one are the connected
  components.**
-/

namespace Triage

open Function Relation.EqvGen

/-- Parent pointers: a root points to itself, and every climb ends at one. -/
structure Forest (K : Type*) where
  parent : K → K
  ends : ∀ k, ∃ n, parent (parent^[n] k) = parent^[n] k

namespace Forest

variable {K : Type*} [DecidableEq K]

/-- Each its own root. -/
def new : Forest K := ⟨id, fun _ => ⟨0, rfl⟩⟩

variable (F : Forest K)

/-- Where the climb from a key ends. -/
def root (k : K) : K := F.parent^[Nat.find (F.ends k)] k

/-- Two keys of one tree. -/
def Same (i j : K) : Prop := F.root i = F.root j

/-! ### Roots -/

variable (a k b i j : K)

@[simp] theorem parent_root : F.parent (F.root k) = F.root k := Nat.find_spec (F.ends k)

theorem root_of_parent {k : K} (h : F.parent k = k) : F.root k = k := by
  have hzero : Nat.find (F.ends k) = 0 := (Nat.find_eq_zero _).2 h
  rw [root, hzero]
  rfl

@[simp] theorem root_root : F.root (F.root k) = F.root k := F.root_of_parent (F.parent_root k)

@[simp] theorem root_parent : F.root (F.parent k) = F.root k := by
  by_cases h : F.parent k = k
  · rw [h]
  · have hsucc : Nat.find (F.ends k) = Nat.find (F.ends (F.parent k)) + 1 :=
      Nat.find_comp_succ (F.ends k) (F.ends (F.parent k)) h
    rw [root, root, hsucc]
    rfl

/-- What holds of roots, and of a key where of its parent, holds of every key. -/
theorem climb {P : K → Prop} (hroot : ∀ k, F.parent k = k → P k)
    (hup : ∀ k, F.parent k ≠ k → P (F.parent k) → P k) (k : K) : P k := by
  obtain ⟨n, hn⟩ := F.ends k
  induction n generalizing k with
  | zero => exact hroot k hn
  | succ n ih =>
    by_cases h : F.parent k = k
    · exact hroot k h
    · exact hup k h (ih (F.parent k) hn)

/-- The roots are told by the pointers: whatever climbs as they do is the root. -/
theorem eq_root {r : K → K} (hroot : ∀ k, F.parent k = k → r k = k)
    (hup : ∀ k, F.parent k ≠ k → r k = r (F.parent k)) (k : K) : F.root k = r k := by
  induction k using F.climb with
  | hroot k h => rw [F.root_of_parent h, hroot k h]
  | hup k h ih => rw [← F.root_parent, ih, hup k h]

/-! ### Shorter climbs -/

/-- Pointers each left or moved to its root. -/
def shorten (g : K → K) (h : ∀ k, g k = F.parent k ∨ g k = F.root k) : Forest K where
  parent := g
  ends := by
    have hfix : ∀ k, F.parent k = k → g k = k := fun k hk => by
      rcases h k with hg | hg
      · rw [hg, hk]
      · rw [hg, F.root_of_parent hk]
    intro k
    induction k using F.climb with
    | hroot k hk => exact ⟨0, hfix k hk⟩
    | hup k hk ih =>
      rcases h k with hg | hg
      · obtain ⟨n, hn⟩ := ih
        refine ⟨n + 1, ?_⟩
        rw [iterate_succ_apply, hg]
        exact hn
      · refine ⟨1, ?_⟩
        rw [iterate_one, hg]
        exact hfix _ (F.parent_root k)

/-- Shorter climbs end where they did. -/
@[simp] theorem root_shorten (g : K → K) (h : ∀ k, g k = F.parent k ∨ g k = F.root k) (k : K) :
    (F.shorten g h).root k = F.root k := by
  refine (F.shorten g h).eq_root (fun k hk => ?_) (fun k _ => ?_) k
  · -- a fixed pointer of the new forest was one
    change g k = k at hk
    rcases h k with hg | hg
    · exact F.root_of_parent (hg.symm.trans hk)
    · exact hg.symm.trans hk
  · change F.root k = F.root (g k)
    rcases h k with hg | hg <;> rw [hg] <;> simp

/-- A key's pointer moved to its root. -/
def compress (k : K) : Forest K :=
  F.shorten (update F.parent k (F.root k)) fun j => by
    by_cases hj : j = k
    · subst hj
      exact .inr (update_self ..)
    · exact .inl (update_of_ne hj ..)

/-- The pointers of a whole climb moved to its root. -/
def compressPath (k : K) : Forest K :=
  F.shorten (fun j => if ∃ n ≤ Nat.find (F.ends k), F.parent^[n] k = j then F.root k
    else F.parent j) fun j => by
    split_ifs with hj
    · obtain ⟨n, -, rfl⟩ := hj
      right
      induction n generalizing k with
      | zero => rfl
      | succ n ih => rw [iterate_succ_apply, ← ih, root_parent]
    · exact .inl rfl

@[simp] theorem root_compress : (F.compress k).root j = F.root j := F.root_shorten _ _ j

@[simp] theorem root_compressPath : (F.compressPath k).root j = F.root j := F.root_shorten _ _ j

/-! ### Links -/

/-- The tree of `b` below the root of `a`. -/
def link (a b : K) : Forest K where
  parent := update F.parent (F.root b) (F.root a)
  ends := by
    have hfix : ∀ k, F.parent k = k → k ≠ F.root b →
        update F.parent (F.root b) (F.root a) k = k := fun k hk hne => by
      rw [update_of_ne hne, hk]
    have hroot : ∀ k, F.parent k = k →
        ∃ n, update F.parent (F.root b) (F.root a)
          ((update F.parent (F.root b) (F.root a))^[n] k) =
            (update F.parent (F.root b) (F.root a))^[n] k := by
      intro k hk
      by_cases hkb : k = F.root b
      · by_cases hab : F.root a = F.root b
        · exact ⟨0, by simp [hkb, hab]⟩
        · refine ⟨1, ?_⟩
          rw [iterate_one, hkb, update_self]
          exact hfix _ (F.parent_root a) hab
      · exact ⟨0, hfix k hk hkb⟩
    intro k
    induction k using F.climb with
    | hroot k hk => exact hroot k hk
    | hup k hk ih =>
      obtain ⟨n, hn⟩ := ih
      refine ⟨n + 1, ?_⟩
      have hkb : k ≠ F.root b := by
        rintro rfl
        exact hk (F.parent_root b)
      rw [iterate_succ_apply, update_of_ne hkb]
      exact hn

/-- A link moves one tree's keys to the other's root. -/
theorem root_link (k : K) :
    (F.link a b).root k = if F.root k = F.root b then F.root a else F.root k := by
  refine (F.link a b).eq_root (r := fun k => if F.root k = F.root b then F.root a else F.root k)
    (fun k hk => ?_) (fun k hk => ?_) k
  · change update F.parent (F.root b) (F.root a) k = k at hk
    by_cases hkb : k = F.root b
    · rw [hkb, update_self] at hk
      rw [hkb, if_pos (F.root_root b), hk]
    · rw [update_of_ne hkb] at hk
      rw [F.root_of_parent hk, if_neg hkb]
  · change update F.parent (F.root b) (F.root a) k ≠ k at hk
    change _ = if F.root (update F.parent (F.root b) (F.root a) k) = F.root b then _
      else F.root (update F.parent (F.root b) (F.root a) k)
    by_cases hkb : k = F.root b
    · rw [hkb, update_self, root_root, root_root, if_pos rfl]
      split_ifs <;> rfl
    · rw [update_of_ne hkb, root_parent]

/-- What is one tree once a tree's keys have another's root. -/
theorem same_of_root {F G : Forest K} {a b : K}
    (h : ∀ k, G.root k = if F.root k = F.root b then F.root a else F.root k) (i j : K) :
    G.Same i j ↔ F.Same i j ∨ (F.Same i a ∨ F.Same i b) ∧ (F.Same j a ∨ F.Same j b) := by
  simp only [Same, h]
  by_cases hi : F.root i = F.root b <;> by_cases hj : F.root j = F.root b
  · simp [hi, hj]
  · simp only [hi, hj, if_true, if_false, or_true, true_and, or_false]
    exact ⟨fun h => .inr h.symm, fun h => h.elim (fun h => absurd h.symm hj) Eq.symm⟩
  · simp only [hi, hj, if_true, if_false, or_true, and_true, or_false]
    exact ⟨.inr, fun h => h.elim False.elim id⟩
  · simp only [hi, hj, if_false, or_false]
    exact ⟨.inl, fun h => h.elim id fun h => h.1.trans h.2.symm⟩

theorem same_link : (F.link a b).Same i j ↔ F.Same i j ∨
    (F.Same i a ∨ F.Same i b) ∧ (F.Same j a ∨ F.Same j b) :=
  same_of_root (F.root_link a b) i j

/-- Two keys' trees joined, the keys' pointers moved to their roots on the way. -/
def join (a b : K) : Forest K :=
  if F.root a = F.root b then (F.compress a).compress b else ((F.compress a).compress b).link a b

theorem root_join (k : K) :
    (F.join a b).root k = if F.root k = F.root b then F.root a else F.root k := by
  unfold join
  split_ifs with hab hk hk
  · simp only [root_compress, hk, hab]
  · simp only [root_compress]
  · simp [root_link, hk]
  · simp [root_link, hk]

theorem same_join : (F.join a b).Same i j ↔ F.Same i j ∨
    (F.Same i a ∨ F.Same i b) ∧ (F.Same j a ∨ F.Same j b) :=
  same_of_root (F.root_join a b) i j

/-- Two keys' trees joined, the pointers of both climbs moved to their roots on the way. -/
def unite (a b : K) : Forest K :=
  if F.root a = F.root b then (F.compressPath a).compressPath b
  else ((F.compressPath a).compressPath b).link a b

theorem root_unite (k : K) :
    (F.unite a b).root k = if F.root k = F.root b then F.root a else F.root k := by
  unfold unite
  split_ifs with hab hk hk
  · simp only [root_compressPath, hk, hab]
  · simp only [root_compressPath]
  · simp [root_link, hk]
  · simp [root_link, hk]

theorem same_unite : (F.unite a b).Same i j ↔ F.Same i j ∨
    (F.Same i a ∨ F.Same i b) ∧ (F.Same j a ∨ F.Same j b) :=
  same_of_root (F.root_unite a b) i j

/-- A run of joins. -/
def joinAll (links : List (K × K)) : Forest K := links.foldl (fun F l => F.join l.1 l.2) F

instance : IsEquiv K F.Same :=
  inferInstanceAs (IsEquiv K (Function.onFun (· = ·) F.root))

theorem same_trans {i j k : K} (h : F.Same i j) (h' : F.Same j k) : F.Same i k := Eq.trans h h'

/-- A tree's keys are one with another's: the components of what was one and of the pair. -/
theorem eqvGen_same_pair {F G : Forest K} {a b : K}
    (h : ∀ i j, G.Same i j ↔ F.Same i j ∨ (F.Same i a ∨ F.Same i b) ∧ (F.Same j a ∨ F.Same j b))
    (i j : K) :
    G.Same i j ↔ Relation.EqvGen (fun x y => F.Same x y ∨ (x, y) = (a, b)) i j := by
  constructor
  · intro hij
    have hab : Relation.EqvGen (fun x y => F.Same x y ∨ (x, y) = (a, b)) a b := .rel _ _ (.inr rfl)
    have hsame : ∀ {x y}, F.Same x y →
        Relation.EqvGen (fun x y => F.Same x y ∨ (x, y) = (a, b)) x y :=
      fun h => .rel _ _ (.inl h)
    have hnear : ∀ {x}, F.Same x a ∨ F.Same x b →
        Relation.EqvGen (fun x y => F.Same x y ∨ (x, y) = (a, b)) x a :=
      fun hx => hx.elim hsame fun hx => (hsame hx).trans _ _ _ (hab.symm _ _)
    rcases (h i j).1 hij with hij | ⟨hi, hj⟩
    · exact hsame hij
    · exact (hnear hi).trans _ _ _ ((hnear hj).symm _ _)
  · refine eqvGen_le (fun x y hxy => ?_) i j
    rcases hxy with hxy | hxy
    · exact (h x y).2 (.inl hxy)
    · obtain ⟨rfl, rfl⟩ := Prod.mk.inj hxy
      exact (h x y).2 (.inr ⟨.inl rfl, .inr rfl⟩)

/-- What a run makes one, when each step makes one what its label links. -/
theorem same_run {S L : Type*} {forest : S → Forest K} {step : S → L → S} {R : L → K → K → Prop}
    (hstep : ∀ s l i j, (forest (step s l)).Same i j ↔
      Relation.EqvGen (fun x y => (forest s).Same x y ∨ R l x y) i j)
    (labels : List L) (s : S) (i j : K) :
    (forest (labels.foldl step s)).Same i j ↔
      Relation.EqvGen (fun x y => (forest s).Same x y ∨ ∃ l ∈ labels, R l x y) i j := by
  induction labels generalizing s with
  | nil =>
    constructor
    · exact fun h => .rel _ _ (.inl h)
    · exact eqvGen_le (fun x y h => h.resolve_right (by simp)) i j
  | cons l labels ih =>
    rw [List.foldl_cons, ih]
    constructor
    · refine eqvGen_le (fun x y h => ?_) i j
      rcases h with h | ⟨l', hl', h⟩
      · exact mono (fun _ _ h => h.imp id fun h => ⟨l, by simp, h⟩) x y
          ((hstep s l x y).1 h)
      · exact .rel _ _ (.inr ⟨l', List.mem_cons_of_mem _ hl', h⟩)
    · refine mono (fun x y h => ?_) i j
      rcases h with h | ⟨l', hl', h⟩
      · exact .inl ((hstep s l x y).2 (.rel _ _ (.inl h)))
      · rcases List.mem_cons.1 hl' with rfl | hl'
        · exact .inl ((hstep s l' x y).2 (.rel _ _ (.inr h)))
        · exact .inr ⟨l', hl', h⟩

/-- **What a run of links makes one**: the components of what was one and of the links, whatever
else the run keeps. -/
theorem same_foldl {S : Type*} {forest : S → Forest K} {step : S → K × K → S}
    (hstep : ∀ s a b i j, (forest (step s (a, b))).Same i j ↔ (forest s).Same i j ∨
      ((forest s).Same i a ∨ (forest s).Same i b) ∧ ((forest s).Same j a ∨ (forest s).Same j b))
    (links : List (K × K)) (s : S) (i j : K) :
    (forest (links.foldl step s)).Same i j ↔
      Relation.EqvGen (fun x y => (forest s).Same x y ∨ (x, y) ∈ links) i j := by
  rw [@same_run K _ S (K × K) forest step (fun l x y => (x, y) = l)
    fun s l => eqvGen_same_pair (hstep s l.1 l.2)]
  simp only [exists_eq_right']

theorem same_joinAll (links : List (K × K)) (i j : K) :
    (F.joinAll links).Same i j ↔ Relation.EqvGen (fun x y => F.Same x y ∨ (x, y) ∈ links) i j :=
  @same_foldl K _ (Forest K) (fun F => F) (fun F l => F.join l.1 l.2) same_join links F i j

theorem same_new {i j : K} : (new : Forest K).Same i j ↔ i = j := by
  rw [Same, root_of_parent _ rfl, root_of_parent _ rfl]

/-- From the start it is the links alone. -/
theorem eqvGen_same_new {R : K → K → Prop} {i j : K} :
    Relation.EqvGen (fun x y => (new : Forest K).Same x y ∨ R x y) i j ↔ Relation.EqvGen R i j := by
  constructor
  · refine eqvGen_le (fun x y h => ?_) i j
    rcases h with h | h
    · rw [same_new.1 h]
      exact .refl y
    · exact .rel _ _ h
  · exact mono (fun x y h => Or.inr h) i j

end Forest

end Triage
