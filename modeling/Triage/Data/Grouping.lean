import Mathlib.Data.List.Nodup
import Mathlib.Data.List.Induction

/-!
# Grouping

A map that remembers the order in which its keys were first set, as a list of pairs, and what is
gathered in one from a list: the elements of one key together, in their order.

## Main results

* `Grouping.mem_keys_collect`, `Grouping.forall_collect` : the keys that are there, and what holds
  of each value.
* `Grouping.eq_filter_of_mem`, `Grouping.get_groupBy` : a group is what has its key.
-/

namespace Triage.Grouping

open List

variable {K V P : Type*} [DecidableEq K]

/-- The value of a key is made of the one it has; a key without one goes to the end. -/
def alter (k : K) (f : Option V → V) : List (K × V) → List (K × V)
  | [] => [(k, f none)]
  | (k', v) :: m => if k' = k then (k', f (some v)) :: m else (k', v) :: alter k f m

def get (k : K) : List (K × V) → Option V
  | [] => none
  | (k', v) :: m => if k' = k then some v else get k m

/-- The value of a key that an element is gathered into. -/
def gather (start : P → V) (again : P → V → V) (p : P) : Option V → V
  | none => start p
  | some v => again p v

/-- The elements of a list by key: the first of a key makes its value, the others change it. -/
def collect (key : P → K) (start : P → V) (again : P → V → V) (ps : List P) : List (K × V) :=
  ps.foldl (fun m p => alter (key p) (gather start again p) m) []

def groupBy (key : P → K) (ps : List P) : List (K × List P) :=
  collect key (fun p => [p]) (fun p group => group ++ [p]) ps

/-! ### Keys -/

variable {f : Option V → V} {m m' : List (K × V)} {v : V}

theorem mem_keys_alter {k k' : K} :
    k' ∈ (alter k f m).map Prod.fst ↔ k' = k ∨ k' ∈ m.map Prod.fst := by
  induction m with
  | nil => simp [alter]
  | cons p m ih =>
    obtain ⟨l, v⟩ := p
    rw [alter]
    split
    · rename_i hl
      subst hl
      simp
    · simp only [map_cons, mem_cons, ih]
      tauto

variable {k : K}

theorem nodup_keys_alter (h : (m.map Prod.fst).Nodup) : ((alter k f m).map Prod.fst).Nodup := by
  induction m with
  | nil => simp [alter]
  | cons p m ih =>
    obtain ⟨l, v⟩ := p
    obtain ⟨hl, hm⟩ := nodup_cons.1 h
    rw [alter]
    split
    · exact nodup_cons.2 ⟨hl, hm⟩
    · rename_i hne
      refine nodup_cons.2 ⟨?_, ih hm⟩
      intro hmem
      rcases mem_keys_alter.1 hmem with rfl | hmem
      · exact hne rfl
      · exact hl hmem

section Collect

variable {key : P → K} {start : P → V} {again : P → V → V} (ps : List P)

theorem collect_append_singleton (p : P) :
    collect key start again (ps ++ [p]) =
      alter (key p) (gather start again p) (collect key start again ps) := by
  rw [collect, foldl_append]
  rfl

theorem mem_keys_collect {ps : List P} :
    k ∈ (collect key start again ps).map Prod.fst ↔ ∃ p ∈ ps, key p = k := by
  induction ps using reverseRecOn with
  | nil => simp [collect]
  | append_singleton ps p ih =>
    rw [collect_append_singleton, mem_keys_alter, ih]
    constructor
    · rintro (rfl | ⟨q, hq, hk⟩)
      · exact ⟨p, by simp, rfl⟩
      · exact ⟨q, by simp [hq], hk⟩
    · rintro ⟨q, hq, hk⟩
      rcases mem_append.1 hq with hq | hq
      · exact .inr ⟨q, hq, hk⟩
      · rw [mem_singleton] at hq
        subst hq
        exact .inl hk.symm

theorem nodup_keys_collect : ((collect key start again ps).map Prod.fst).Nodup := by
  induction ps using reverseRecOn with
  | nil => exact nodup_nil
  | append_singleton ps p ih =>
    rw [collect_append_singleton]
    exact nodup_keys_alter ih

theorem forall_alter {I : K → V → Prop} {f : Option V → V} {m : List (K × V)}
    (hm : ∀ p ∈ m, I p.1 p.2) (hnone : I k (f none)) (hsome : ∀ v, I k v → I k (f (some v))) :
    ∀ p ∈ alter k f m, I p.1 p.2 := by
  induction m with
  | nil =>
    intro p hp
    rw [alter, mem_singleton] at hp
    subst hp
    exact hnone
  | cons q m ih =>
    obtain ⟨l, v⟩ := q
    have hq := hm (l, v) (by simp)
    have hrest := fun p hp => hm p (mem_cons_of_mem _ hp)
    rw [alter]
    split
    · rename_i hl
      subst hl
      intro p hp
      rcases mem_cons.1 hp with rfl | hp
      · exact hsome v hq
      · exact hrest p hp
    · intro p hp
      rcases mem_cons.1 hp with rfl | hp
      · exact hq
      · exact ih hrest p hp

/-- What holds of the value an element makes, and is kept by the elements of its key, holds of
every value. -/
theorem forall_collect {I : K → V → Prop} {ps : List P} (hstart : ∀ p ∈ ps, I (key p) (start p))
    (hagain : ∀ p ∈ ps, ∀ v, I (key p) v → I (key p) (again p v)) :
    ∀ q ∈ collect key start again ps, I q.1 q.2 := by
  induction ps using reverseRecOn with
  | nil => exact fun q hq => (nomatch hq)
  | append_singleton ps p ih =>
    rw [collect_append_singleton]
    have hrest := ih (fun q hq => hstart q (by simp [hq])) fun q hq => hagain q (by simp [hq])
    exact forall_alter hrest (hstart p (by simp)) (hagain p (by simp))

end Collect

/-! ### Values -/

theorem get_alter {k k' : K} :
    get k' (alter k f m) = if k' = k then some (f (get k m)) else get k' m := by
  induction m with
  | nil =>
    rw [alter, get]
    simp only [get, eq_comm]
  | cons p m ih =>
    obtain ⟨l, v⟩ := p
    rw [alter]
    by_cases hl : l = k
    · subst hl
      rw [if_pos rfl]
      simp only [get, if_true]
      by_cases hk : l = k'
      · rw [if_pos hk, if_pos hk.symm]
      · rw [if_neg hk, if_neg (Ne.symm hk), if_neg hk]
    · rw [if_neg hl]
      simp only [get, ih]
      by_cases hk : l = k'
      · subst hk
        rw [if_pos rfl, if_neg hl, if_pos rfl]
      · rw [if_neg hk, if_neg hk, if_neg hl]

/-- Setting a key that is there changes its value alone, at its place. -/
theorem alter_eq_map (hnodup : (m.map Prod.fst).Nodup) (hk : k ∈ m.map Prod.fst) :
    alter k f m = m.map fun p => if p.1 = k then (p.1, f (some p.2)) else p := by
  induction m with
  | nil => cases hk
  | cons p m ih =>
    obtain ⟨l, v⟩ := p
    obtain ⟨hl, hm⟩ := nodup_cons.1 hnodup
    rw [alter, map_cons]
    by_cases heq : l = k
    · subst heq
      have hrest : ∀ p ∈ m, (if p.1 = l then (p.1, f (some p.2)) else p) = p := by
        intro p hp
        exact if_neg fun hpl => hl (mem_map.2 ⟨p, hp, hpl⟩)
      rw [if_pos rfl, if_pos rfl, map_congr_left hrest, map_id']
    · rw [if_neg heq, if_neg heq, ih hm ((mem_cons.1 hk).resolve_left (Ne.symm heq))]

theorem get_eq_of_mem (hnodup : (m.map Prod.fst).Nodup) (h : (k, v) ∈ m) : get k m = some v := by
  induction m with
  | nil => cases h
  | cons p m ih =>
    obtain ⟨l, w⟩ := p
    obtain ⟨hl, hm⟩ := nodup_cons.1 hnodup
    rw [get]
    rcases mem_cons.1 h with heq | h
    · cases heq
      exact if_pos rfl
    · have hne : l ≠ k := by
        rintro rfl
        exact hl (mem_map.2 ⟨(l, v), h, rfl⟩)
      rw [if_neg hne]
      exact ih hm h

theorem mem_of_get (h : get k m = some v) : (k, v) ∈ m := by
  induction m with
  | nil => cases h
  | cons p m ih =>
    obtain ⟨l, w⟩ := p
    rw [get] at h
    split at h
    · rename_i hl
      cases h
      rw [hl]
      exact mem_cons_self
    · exact mem_cons_of_mem _ (ih h)

theorem get_append (m m' : List (K × V)) (k : K) : get k (m ++ m') = (get k m).or (get k m') := by
  induction m with
  | nil => rfl
  | cons p m ih =>
    rw [cons_append, get, get]
    split
    · rfl
    · exact ih

theorem get_eq_none (h : k ∉ m.map Prod.fst) : get k m = none := by
  cases hget : get k m with
  | none => rfl
  | some v => exact absurd (mem_map_of_mem (mem_of_get hget)) h

section

variable (hnodup : (m.map Prod.fst).Nodup)
include hnodup

theorem get_eq_some_iff : get k m = some v ↔ (k, v) ∈ m :=
  ⟨mem_of_get, get_eq_of_mem hnodup⟩

/-- Only the order of the keys is lost. -/
theorem get_perm (hperm : m.Perm m') : get k m = get k m' := by
  have hnodup' : (m'.map Prod.fst).Nodup := (hperm.map Prod.fst).nodup_iff.mp hnodup
  ext v
  rw [get_eq_some_iff hnodup, get_eq_some_iff hnodup', hperm.mem_iff]

theorem perm_of_get (hnodup' : (m'.map Prod.fst).Nodup) (hget : ∀ k, get k m = get k m') :
    m.Perm m' := by
  refine (perm_ext_iff_of_nodup (.of_map _ hnodup) (.of_map _ hnodup')).mpr fun ⟨k, v⟩ => ?_
  rw [← get_eq_some_iff hnodup, ← get_eq_some_iff hnodup', hget]

end

theorem get_isSome (h : k ∈ m.map Prod.fst) : ∃ v, get k m = some v := by
  induction m with
  | nil => cases h
  | cons p m ih =>
    obtain ⟨l, w⟩ := p
    rw [get]
    split
    · exact ⟨w, rfl⟩
    · rename_i hne
      exact ih ((mem_cons.1 h).resolve_left fun heq => hne heq.symm)

/-! ### Groups -/

variable {key : P → K} {ps : List P} {k : K}

/-- A group is what has its key, if there is any. -/
theorem get_groupBy : get k (groupBy key ps) =
    if ps.filter (key · = k) = [] then none else some (ps.filter (key · = k)) := by
  induction ps using reverseRecOn with
  | nil => rfl
  | append_singleton ps p ih =>
    rw [groupBy, collect_append_singleton, get_alter, filter_append]
    rw [groupBy] at ih
    by_cases hk : k = key p
    · subst hk
      have hone : [p].filter (key · = key p) = [p] := by simp
      rw [if_pos rfl, hone, ih]
      by_cases hnil : ps.filter (key · = key p) = []
      · rw [if_pos hnil, hnil]
        rfl
      · rw [if_neg hnil, if_neg (by simp)]
        rfl
    · have hother : [p].filter (key · = k) = [] := by simp [Ne.symm hk]
      rw [if_neg hk, hother, append_nil, ih]

theorem eq_filter_of_mem {group : List P} (h : (k, group) ∈ groupBy key ps) :
    group = ps.filter (key · = k) ∧ group ≠ [] := by
  have hget := get_eq_of_mem (nodup_keys_collect ps) h
  rw [← groupBy, get_groupBy] at hget
  split at hget
  · cases hget
  · rename_i hne
    have heq := Option.some.inj hget
    exact ⟨heq.symm, heq ▸ hne⟩

theorem getD_groupBy : (get k (groupBy key ps)).getD [] = ps.filter (key · = k) := by
  rw [get_groupBy]
  split
  · rename_i hnil
    rw [hnil]
    rfl
  · rfl

/-- Two are in one group if they have one key. -/
theorem exists_mem_groupBy {p q : P} :
    (∃ g ∈ groupBy key ps, p ∈ g.2 ∧ q ∈ g.2) ↔ p ∈ ps ∧ q ∈ ps ∧ key p = key q := by
  constructor
  · rintro ⟨⟨k, group⟩, hg, hp, hq⟩
    rw [(eq_filter_of_mem hg).1, mem_filter, decide_eq_true_eq] at hp hq
    exact ⟨hp.1, hq.1, hp.2.trans hq.2.symm⟩
  · rintro ⟨hp, hq, hk⟩
    have hkey : key p ∈ (groupBy key ps).map Prod.fst := mem_keys_collect.2 ⟨p, hp, rfl⟩
    obtain ⟨⟨k, group⟩, hg, heq⟩ := mem_map.1 hkey
    obtain rfl : k = key p := heq
    refine ⟨_, hg, ?_⟩
    rw [(eq_filter_of_mem hg).1, mem_filter, mem_filter, decide_eq_true_eq, decide_eq_true_eq]
    exact ⟨⟨hp, rfl⟩, hq, hk.symm⟩

theorem flatMap_alter_perm {p : P} (m : List (K × List P)) :
    ((alter k (gather (fun p => [p]) (fun p group => group ++ [p]) p) m).flatMap Prod.snd).Perm
      (m.flatMap Prod.snd ++ [p]) := by
  induction m with
  | nil => exact .refl _
  | cons g m ih =>
    obtain ⟨l, group⟩ := g
    rw [alter]
    split
    · simp only [gather, flatMap_cons, append_assoc]
      exact (perm_append_comm).append_left _
    · rw [flatMap_cons, flatMap_cons, append_assoc]
      exact ih.append_left _

/-- The groups hold what is grouped, each as often. -/
theorem flatMap_groupBy_perm (ps : List P) : ((groupBy key ps).flatMap Prod.snd).Perm ps := by
  induction ps using reverseRecOn with
  | nil => exact .refl _
  | append_singleton ps p ih =>
    rw [groupBy, collect_append_singleton]
    exact (flatMap_alter_perm _).trans (ih.append_right _)

end Triage.Grouping
