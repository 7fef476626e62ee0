import Triage.Machine.Basic
import Mathlib.Data.Int.Basic
import Mathlib.Data.List.Induction
import Mathlib.Data.List.Nodup

/-!
# Versioned logs

The history of a keyed store whose records carry an *incarnation* and a *version*. Each entry says
which key it changed, the record before and the record after. An entry is legal when it starts from
the record the key has, and either creates a record at version one under an incarnation no record of
the log has had, or raises the version of the record by one within its incarnation, or removes it.

## Main results

* `Lawful.produced_nodup` : no two entries produce the same incarnation and version.
-/

namespace Triage.VersionedLog

open List Option

/-- One change of the record at a key. -/
structure Entry (K R : Type*) where
  key : K
  before : Option R
  after : Option R
  deriving DecidableEq, Repr

/-- How a record is identified. -/
structure Stamp (R I : Type*) where
  incarnation : R → I
  version : R → ℤ

variable {K R I : Type*}

section Current

variable [DecidableEq K]

/-- The record a log leaves at a key. -/
def current (log : List (Entry K R)) (k : K) : Option R :=
  log.foldl (fun cur e => if e.key = k then e.after else cur) none

@[simp] theorem current_nil (k : K) : current ([] : List (Entry K R)) k = none := rfl

theorem current_append (log : List (Entry K R)) (e : Entry K R) (k : K) :
    current (log ++ [e]) k = if e.key = k then e.after else current log k := by
  simp [current]

end Current

/-- The records the entries of a log have produced. -/
def produced (log : List (Entry K R)) : List R := log.filterMap (·.after)

@[simp] theorem produced_nil : produced ([] : List (Entry K R)) = [] := rfl

@[simp] theorem produced_append (log : List (Entry K R)) (e : Entry K R) :
    produced (log ++ [e]) = produced log ++ e.after.toList := by
  cases h : e.after <;> simp [produced, h]

variable {log : List (Entry K R)} {r : R}

theorem mem_produced : r ∈ produced log ↔ ∃ e ∈ log, e.after = some r := by
  simp [produced]

/-- Where a partial map lists its values without repetition, it is injective. -/
theorem eq_of_nodup_filterMap {α β : Type*} {f : α → Option β} {l : List α}
    (h : (l.filterMap f).Nodup) {a a' : α} (ha : a ∈ l) (ha' : a' ∈ l) {b : β} (hb : f a = some b)
    (hb' : f a' = some b) : a = a' := by
  induction l with
  | nil => cases ha
  | cons x l ih =>
    have hl : (l.filterMap f).Nodup := h.sublist ((sublist_cons_self x l).filterMap f)
    have hx : ∀ y ∈ l, f x = some b → f y ≠ some b := by
      intro y hy hxb hyb
      rw [filterMap_cons_some hxb, nodup_cons, List.mem_filterMap] at h
      exact h.1 ⟨y, hy, hyb⟩
    rcases mem_cons.mp ha with rfl | hmem <;> rcases mem_cons.mp ha' with rfl | hmem'
    · rfl
    · exact absurd hb' (hx a' hmem' hb)
    · exact absurd hb (hx a hmem hb')
    · exact ih hl hmem hmem'

variable [DecidableEq K] (σ : Stamp R I)

/-- What an entry may do on top of a log. -/
inductive Legal (log : List (Entry K R)) : Entry K R → Prop
  /-- A record is created at version one, under an incarnation that is new. -/
  | create {k : K} {r : R} :
      current log k = none → σ.version r = 1 →
      (∀ r' ∈ produced log, σ.incarnation r' ≠ σ.incarnation r) →
      Legal log ⟨k, none, some r⟩
  /-- The version of the record goes up by one. -/
  | update {k : K} {r₀ r : R} :
      current log k = some r₀ → σ.version r = σ.version r₀ + 1 →
      σ.incarnation r = σ.incarnation r₀ → Legal log ⟨k, some r₀, some r⟩
  /-- The record is removed. -/
  | remove {k : K} {r₀ : R} : current log k = some r₀ → Legal log ⟨k, some r₀, none⟩

open Classical in
/-- The logs that grow by legal entries. -/
noncomputable def machine : Machine (List (Entry K R)) (Entry K R) where
  step log e := if Legal σ log e then some (log ++ [e]) else none

/-- Every entry is legal on top of the ones before it. -/
def Lawful (log : List (Entry K R)) : Prop :=
  ∀ l₁ e l₂, log = l₁ ++ e :: l₂ → Legal σ l₁ e

variable {σ}

theorem lawful_nil : Lawful σ ([] : List (Entry K R)) := by
  intro l₁ e l₂ h
  simp at h

variable {e : Entry K R}

theorem Legal.current_eq (h : Legal σ log e) : current log e.key = e.before := by
  cases h with
  | create h _ _ => exact h
  | update h _ _ => exact h
  | remove h => exact h

omit [DecidableEq K] in
theorem mem_produced_snoc (h : r ∈ produced (log ++ [e])) :
    r ∈ produced log ∨ e.after = some r := by
  rw [produced_append, mem_append, mem_toList] at h
  exact h

/-- What a key has after an entry, it has from the entry or had before. -/
theorem current_snoc_cases {k : K} (h : current (log ++ [e]) k = some r) :
    e.key = k ∧ e.after = some r ∨ e.key ≠ k ∧ current log k = some r := by
  rw [current_append] at h
  split_ifs at h with hk
  · exact .inl ⟨hk, h⟩
  · exact .inr ⟨hk, h⟩

namespace Lawful

variable {log : List (Entry K R)} {e : Entry K R}

theorem snoc (h : Lawful σ log) (he : Legal σ log e) : Lawful σ (log ++ [e]) := by
  intro l₁ e' l₂ heq
  rcases eq_nil_or_concat l₂ with rfl | ⟨l₃, e₃, rfl⟩
  · obtain ⟨rfl, hee⟩ := append_inj' heq rfl
    rw [← singleton_inj.mp hee]
    exact he
  · rw [concat_eq_append, ← cons_append, ← append_assoc] at heq
    exact h l₁ e' l₃ (append_inj' heq rfl).1

theorem of_snoc (h : Lawful σ (log ++ [e])) : Lawful σ log ∧ Legal σ log e := by
  refine ⟨fun l₁ e' l₂ heq => h l₁ e' (l₂ ++ [e]) ?_, h log e [] rfl⟩
  rw [heq]
  simp

/-- The record at a key is the latest of its incarnation, and no other key has a record of it. -/
structure Latest (σ : Stamp R I) (log : List (Entry K R)) : Prop where
  le : ∀ k r, current log k = some r → ∀ r' ∈ produced log,
    σ.incarnation r' = σ.incarnation r → σ.version r' ≤ σ.version r
  mem : ∀ k r, current log k = some r → r ∈ produced log
  key_inj : ∀ k k' r r', current log k = some r → current log k' = some r' →
    σ.incarnation r = σ.incarnation r' → k = k'

theorem latest_snoc (h : Latest σ log) (he : Legal σ log e) : Latest σ (log ++ [e]) where
  le k r hk r' hr' hinc := by
    rcases current_snoc_cases hk with ⟨-, hnew⟩ | ⟨hne, hold⟩ <;>
      rcases mem_produced_snoc hr' with hold' | hnew'
    -- the current record is the new one, and the other is old:
    · cases he with
      | create _ _ hfresh =>
        cases hnew
        exact absurd hinc (hfresh r' hold')
      | update hcur hver hinc₀ =>
        cases hnew
        have hle := h.le _ _ hcur r' hold' (hinc.trans hinc₀)
        omega
      | remove => cases hnew
    · rw [hnew, Option.some.injEq] at hnew'
      exact Int.le_of_eq (congrArg σ.version hnew').symm
    · exact h.le k r hold r' hold' hinc
    · cases he with
      | create _ _ hfresh =>
        cases hnew'
        exact absurd hinc.symm (hfresh r (h.mem k r hold))
      | update hcur _ hinc₀ =>
        cases hnew'
        exact absurd (h.key_inj _ _ _ _ hcur hold (hinc₀.symm.trans hinc)) hne
      | remove => cases hnew'
  mem k r hk := by
    rw [produced_append, mem_append, mem_toList]
    rcases current_snoc_cases hk with ⟨-, hnew⟩ | ⟨-, hold⟩
    · exact .inr hnew
    · exact .inl (h.mem k r hold)
  key_inj k k' r r' hk hk' hinc := by
    rcases current_snoc_cases hk with ⟨rfl, hnew⟩ | ⟨-, hold⟩ <;>
      rcases current_snoc_cases hk' with ⟨rfl, hnew'⟩ | ⟨-, hold'⟩
    · rfl
    · cases he with
      | create _ _ hfresh =>
        cases hnew
        exact absurd hinc.symm (hfresh r' (h.mem k' r' hold'))
      | update hcur _ hinc₀ =>
        cases hnew
        exact h.key_inj _ _ _ _ hcur hold' (hinc₀.symm.trans hinc)
      | remove => cases hnew
    · cases he with
      | create _ _ hfresh =>
        cases hnew'
        exact absurd hinc (hfresh r (h.mem k r hold))
      | update hcur _ hinc₀ =>
        cases hnew'
        exact h.key_inj _ _ _ _ hold hcur (hinc.trans hinc₀)
      | remove => cases hnew'
    · exact h.key_inj k k' r r' hold hold' hinc

section

variable (h : Lawful σ log)
include h

theorem latest : Latest σ log := by
  induction log using reverseRecOn with
  | nil => exact ⟨by simp, by simp, by simp⟩
  | append_singleton log e ih =>
    obtain ⟨hlog, he⟩ := h.of_snoc
    exact latest_snoc (ih hlog) he

/-- **No two entries of a lawful log produce the same incarnation and version.** -/
theorem produced_nodup : ((produced log).map fun r => (σ.incarnation r, σ.version r)).Nodup := by
  induction log using reverseRecOn with
  | nil => simp
  | append_singleton log e ih =>
    obtain ⟨hlog, he⟩ := h.of_snoc
    rw [produced_append, map_append]
    refine List.Nodup.append (ih hlog) ?_ ?_
    · cases e.after <;> simp
    · rw [disjoint_iff_ne]
      rintro _ hold _ hnew
      obtain ⟨r', hr', rfl⟩ := List.mem_map.mp hold
      obtain ⟨r, hr, rfl⟩ := List.mem_map.mp hnew
      rw [mem_toList] at hr
      intro heq
      rw [Prod.mk.injEq] at heq
      cases he with
      | create _ _ hfresh =>
        cases hr
        exact hfresh r' hr' heq.1
      | update hcur hver hinc =>
        cases hr
        have hle := hlog.latest.le _ _ hcur r' hr' (heq.1.trans hinc)
        omega
      | remove => cases hr

/-- Versions start at one. -/
theorem one_le_version (hr : r ∈ produced log) : 1 ≤ σ.version r := by
  induction log using reverseRecOn generalizing r with
  | nil => simp at hr
  | append_singleton log e ih =>
    obtain ⟨hlog, he⟩ := h.of_snoc
    rcases mem_produced_snoc hr with hold | hnew
    · exact ih hlog hold
    · cases he with
      | create _ hver _ =>
        cases hnew
        exact Int.le_of_eq hver.symm
      | update hcur hver _ =>
        cases hnew
        have hle := ih hlog (hlog.latest.mem _ _ hcur)
        omega
      | remove => cases hnew

/-- What an entry starts from has been produced. -/
theorem before_mem_produced (he : e ∈ log) (hr : e.before = some r) : r ∈ produced log := by
  obtain ⟨l₁, l₂, rfl⟩ := append_of_mem he
  have hpre : Lawful σ l₁ := fun m e' m' heq => h m e' (m' ++ e :: l₂) (by rw [heq]; simp)
  have hcur : current l₁ e.key = some r := (h l₁ e l₂ rfl).current_eq.trans hr
  obtain ⟨e', he', hafter⟩ := mem_produced.mp (hpre.latest.mem e.key r hcur)
  exact mem_produced.mpr ⟨e', mem_append_left _ he', hafter⟩

end

end Lawful

end Triage.VersionedLog
