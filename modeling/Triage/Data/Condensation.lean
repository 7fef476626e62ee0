import Triage.Data.Arrivals
import Triage.Data.Components

/-!
# Condensed graphs

Where the strongly connected groups of a graph are taken for single vertices, the links between them
go round in no cycle, and a group leads to another just where its vertices do.

## Main results

* `Components.leads_iff` : groups lead to each other as their vertices do.
* `Components.acyclic` : no group leads back to itself.
* `Components.condense_snd` : the numbers of links are those that are still to arrive.
-/

namespace Triage.Components

open List Function Relation.ReflTransGen

variable {V : Type*} [DecidableEq V]

/-- The number of the first group that has a vertex. -/
def groupOf (groups : List (List V)) (v : V) : ℕ := groups.findIdx (·.contains v)

/-- A link between groups counts once. -/
def join (s : (ℕ → List ℕ) × (ℕ → ℕ)) (e : ℕ × ℕ) : (ℕ → List ℕ) × (ℕ → ℕ) :=
  if e.1 ≠ e.2 ∧ !(s.1 e.1).contains e.2 then
    (update s.1 e.1 (s.1 e.1 ++ [e.2]), update s.2 e.2 (s.2 e.2 + 1))
  else s

/-- The links between groups, and how many there are to each, by those between vertices. -/
def condense (edges : List (ℕ × ℕ)) : (ℕ → List ℕ) × (ℕ → ℕ) :=
  edges.foldl join (fun _ => [], fun _ => 0)

/-- The links of a graph, by the groups of their ends. -/
def groupLinks (next : V → List V) (vertices : List V) (groups : List (List V)) :
    List (ℕ × ℕ) :=
  vertices.flatMap fun v => (next v).map fun w => (groupOf groups v, groupOf groups w)

variable {next : V → List V} {vertices : List V} {groups : List (List V)} {v w : V} {a b c n : ℕ}
  {edges : List (ℕ × ℕ)}

/-! ### Groups -/

section Groups

variable (h : Components next vertices groups)
include h

theorem groupOf_lt (hv : v ∈ vertices) : groupOf groups v < groups.length := by
  obtain ⟨group, hgroup, hmem⟩ := mem_flatten.1 (h.perm.mem_iff.2 hv)
  exact findIdx_lt_length_of_exists ⟨group, hgroup, contains_iff_mem.2 hmem⟩

/-- The group of a vertex. -/
theorem exists_group (hv : v ∈ vertices) :
    ∃ group, groups[groupOf groups v]? = some group ∧ v ∈ group := by
  have hlt := groupOf_lt h hv
  refine ⟨_, getElem?_eq_getElem hlt, ?_⟩
  exact contains_iff_mem.1 (findIdx_getElem (w := hlt))

omit h in
theorem groupOf_le {group : List V} (hgroup : groups[c]? = some group) (hv : v ∈ group) :
    groupOf groups v ≤ c := by
  obtain ⟨hlt, rfl⟩ := List.getElem?_eq_some_iff.1 hgroup
  by_contra hgt
  have hnot := not_of_lt_findIdx (Nat.lt_of_not_le hgt)
  rw [contains_iff_mem.2 hv] at hnot
  cases hnot

theorem groupOf_eq_iff (hv : v ∈ vertices) (hw : w ∈ vertices) :
    groupOf groups v = groupOf groups w ↔ Links.Leads next v w ∧ Links.Leads next w v := by
  obtain ⟨group, hgroup, hvmem⟩ := exists_group h hv
  obtain ⟨group', hgroup', hwmem⟩ := exists_group h hw
  have hstrong := h.strong group (mem_of_getElem? hgroup) v hvmem w hw
  have hstrong' := h.strong group' (mem_of_getElem? hgroup') w hwmem v hv
  constructor
  · intro heq
    rw [heq, hgroup'] at hgroup
    cases hgroup
    exact hstrong.1 hwmem
  · intro hleads
    have hle := groupOf_le hgroup' (hstrong'.2 hleads.symm)
    have hle' := groupOf_le hgroup (hstrong.2 hleads)
    omega

/-- A group is the vertices of its number. -/
theorem mem_group_iff (hvertices : vertices.Nodup) {group : List V}
    (hgroup : groups[c]? = some group) : v ∈ group ↔ v ∈ vertices ∧ groupOf groups v = c := by
  have hin : v ∈ group → v ∈ vertices := fun hv =>
    h.perm.mem_iff.1 (mem_flatten_of_mem (mem_of_getElem? hgroup) hv)
  constructor
  · intro hv
    obtain ⟨group', hgroup', hv'⟩ := exists_group h (hin hv)
    have hle := groupOf_le hgroup hv
    by_contra hne
    have hlt : groupOf groups v < c := lt_of_le_of_ne hle fun heq => hne ⟨hin hv, heq⟩
    have hdisjoint := (nodup_flatten.1 (h.perm.nodup_iff.2 hvertices)).2
    obtain ⟨hi, rfl⟩ := List.getElem?_eq_some_iff.1 hgroup'
    obtain ⟨hj, rfl⟩ := List.getElem?_eq_some_iff.1 hgroup
    exact pairwise_iff_getElem.1 hdisjoint _ _ hi hj hlt hv' hv
  · rintro ⟨hv, rfl⟩
    obtain ⟨group', hgroup', hmem⟩ := exists_group h hv
    rw [hgroup] at hgroup'
    cases hgroup'
    exact hmem

end Groups

/-! ### Links between groups -/

variable (s : (ℕ → List ℕ) × (ℕ → ℕ)) (e : ℕ × ℕ)

theorem condense_append : condense (edges ++ [e]) = join (condense edges) e := by
  rw [condense, foldl_append]
  rfl

theorem join_fst : (join s e).1 a =
    if a = e.1 ∧ e.1 ≠ e.2 ∧ e.2 ∉ s.1 e.1 then s.1 a ++ [e.2] else s.1 a := by
  rw [join]
  by_cases hnew : e.1 ≠ e.2 ∧ e.2 ∉ s.1 e.1
  · rw [if_pos (by simpa using hnew)]
    by_cases ha : a = e.1
    · subst ha
      rw [if_pos ⟨rfl, hnew⟩]
      exact update_self ..
    · rw [if_neg fun h => ha h.1]
      exact update_of_ne ha ..
  · rw [if_neg (by simpa using hnew), if_neg fun h => hnew h.2]

theorem join_snd : (join s e).2 b =
    if b = e.2 ∧ e.1 ≠ e.2 ∧ e.2 ∉ s.1 e.1 then s.2 b + 1 else s.2 b := by
  rw [join]
  by_cases hnew : e.1 ≠ e.2 ∧ e.2 ∉ s.1 e.1
  · rw [if_pos (by simpa using hnew)]
    by_cases hb : b = e.2
    · subst hb
      rw [if_pos ⟨rfl, hnew⟩]
      exact update_self ..
    · rw [if_neg fun h => hb h.1]
      exact update_of_ne hb ..
  · rw [if_neg (by simpa using hnew), if_neg fun h => hnew h.2]

theorem mem_join : b ∈ (join s e).1 a ↔
    b ∈ s.1 a ∨ a = e.1 ∧ b = e.2 ∧ e.1 ≠ e.2 ∧ e.2 ∉ s.1 e.1 := by
  rw [join_fst]
  split
  · rename_i hnew
    rw [mem_append, mem_singleton]
    exact or_congr_right ⟨fun hb => ⟨hnew.1, hb, hnew.2⟩, fun hb => hb.2.1⟩
  · rename_i hold
    exact (or_iff_left fun hb => hold ⟨hb.1, hb.2.2⟩).symm

theorem mem_condense : b ∈ (condense edges).1 a ↔ (a, b) ∈ edges ∧ a ≠ b := by
  induction edges using reverseRecOn generalizing a b with
  | nil => simp [condense]
  | append_singleton edges e ih =>
    obtain ⟨c, d⟩ := e
    have hsplit : (a, b) ∈ edges ++ [(c, d)] ∧ a ≠ b ↔
        ((a, b) ∈ edges ∧ a ≠ b) ∨ (a = c ∧ b = d ∧ c ≠ d) := by
      rw [mem_append, mem_singleton, Prod.mk.injEq, or_and_right]
      refine or_congr_right ?_
      constructor
      · rintro ⟨⟨rfl, rfl⟩, hne⟩
        exact ⟨rfl, rfl, hne⟩
      · rintro ⟨rfl, rfl, hne⟩
        exact ⟨⟨rfl, rfl⟩, hne⟩
    rw [condense_append, mem_join, hsplit, ih]
    refine or_congr_right' fun hnot => and_congr_right fun hac => and_congr_right fun hbd => ?_
    refine and_iff_left_of_imp fun hne hmem => hnot ?_
    rw [← ih]
    exact hac ▸ hbd ▸ hmem

theorem nodup_condense : ((condense edges).1 a).Nodup := by
  induction edges using reverseRecOn with
  | nil => exact nodup_nil
  | append_singleton edges e ih =>
    rw [condense_append, join_fst]
    split
    · rename_i hnew
      obtain ⟨rfl, -, hnot⟩ := hnew
      exact ih.append (nodup_singleton _) (by simpa using hnot)
    · exact ih

/-- The numbers of links are those that are still to arrive. -/
theorem condense_snd (hedges : ∀ e ∈ edges, e.1 < n) :
    (condense edges).2 b = Arrivals.open_ (condense edges).1 n [] b := by
  induction edges using reverseRecOn with
  | nil =>
    refine Eq.symm (countP_eq_zero.2 fun a _ => ?_)
    simp [condense]
  | append_singleton edges e ih =>
    have hih := ih fun e he => hedges e (mem_append_left _ he)
    rw [condense_append, join_snd, hih, Arrivals.open_, Arrivals.open_]
    split
    · rename_i hnew
      obtain ⟨rfl, hne, hnot⟩ := hnew
      have hlt := hedges e (by simp)
      have hperm : ((List.range n).filter fun a =>
            decide (e.2 ∈ (join (condense edges) e).1 a ∧ a ∉ [])).Perm
          (e.1 :: (List.range n).filter fun a => decide (e.2 ∈ (condense edges).1 a ∧ a ∉ [])) := by
        rw [perm_ext_iff_of_nodup (nodup_range.filter _)
          (nodup_cons.2 ⟨by simpa using fun _ => hnot, nodup_range.filter _⟩)]
        intro a
        simp only [mem_filter, mem_range, mem_cons, decide_eq_true_eq, mem_join,
          not_mem_nil, not_false_eq_true, and_true]
        constructor
        · rintro ⟨ha, hmem | ⟨rfl, -⟩⟩
          · exact .inr ⟨ha, hmem⟩
          · exact .inl rfl
        · rintro (rfl | ⟨ha, hmem⟩)
          · exact ⟨hlt, .inr ⟨rfl, trivial, hne, hnot⟩⟩
          · exact ⟨ha, .inl hmem⟩
      rw [countP_eq_length_filter, countP_eq_length_filter, hperm.length_eq]
      rfl
    · rename_i hold
      refine countP_congr fun a _ => ?_
      rw [decide_eq_true_iff, decide_eq_true_iff, mem_join]
      refine and_congr_left fun _ => (or_iff_left fun hb => hold ⟨hb.2.1, hb.2.2⟩).symm

/-! ### Paths between groups -/

theorem mem_groupLinks : (a, b) ∈ groupLinks next vertices groups ↔
    ∃ v ∈ vertices, ∃ w ∈ next v, groupOf groups v = a ∧ groupOf groups w = b := by
  simp [groupLinks]

variable (h : Components next vertices groups)
  (hclosed : ∀ v ∈ vertices, ∀ w ∈ next v, w ∈ vertices)
include h

theorem groupLinks_lt : ∀ e ∈ groupLinks next vertices groups, e.1 < groups.length := by
  rintro ⟨a, b⟩ he
  obtain ⟨v, hv, w, -, rfl, -⟩ := mem_groupLinks.1 he
  exact groupOf_lt h hv

include hclosed

/-- Groups lead to each other as their vertices do. -/
theorem leads_iff (hv : v ∈ vertices) (hw : w ∈ vertices) :
    Links.Leads (condense (groupLinks next vertices groups)).1 (groupOf groups v)
      (groupOf groups w) ↔ Links.Leads next v w := by
  constructor
  · intro hlead
    have hall : ∀ u ∈ vertices, ∀ c, Links.Leads
        (condense (groupLinks next vertices groups)).1 (groupOf groups v) c →
        groupOf groups u = c → Links.Leads next v u := by
      intro u hu c hc
      induction hc generalizing u with
      | refl => exact fun heq => ((groupOf_eq_iff h hv hu).1 heq.symm).1
      | tail _ hlink ih =>
        intro heq
        obtain ⟨hlink, -⟩ := mem_condense.1 hlink
        obtain ⟨x, hx, y, hy, hxc, hyc⟩ := mem_groupLinks.1 hlink
        have hyu := ((groupOf_eq_iff h (hclosed x hx y hy) hu).1 (hyc.trans heq.symm)).1
        exact (((ih x hx hxc).tail hy).trans hyu)
    exact hall w hw _ hlead rfl
  · intro hlead
    induction hlead with
    | refl => exact refl
    | tail hlead hlink ih =>
      rename_i x y
      have hx : x ∈ vertices := Links.Leads.mem (P := fun v => v ∈ vertices) hclosed hlead hv
      have hstep := ih hx
      by_cases heq : groupOf groups x = groupOf groups y
      · rwa [← heq]
      · exact hstep.tail (mem_condense.2 ⟨mem_groupLinks.2 ⟨x, hx, y, hlink, rfl, rfl⟩, heq⟩)

theorem numbered : Arrivals.Numbered groups.length
    (condense (groupLinks next vertices groups)).1 where
  nodup _ := nodup_condense
  closed a _ b hb := by
    obtain ⟨v, hv, w, hw, -, rfl⟩ := mem_groupLinks.1 (mem_condense.1 hb).1
    exact groupOf_lt h (hclosed v hv w hw)

/-- No group leads back to itself. -/
theorem acyclic (c : ℕ) :
    ¬Relation.TransGen (fun a b => b ∈ (condense (groupLinks next vertices groups)).1 a) c c := by
  intro hcycle
  obtain ⟨b, hlink, hback⟩ := Relation.TransGen.head'_iff.1 hcycle
  obtain ⟨hlink, hne⟩ := mem_condense.1 hlink
  obtain ⟨v, hv, w, hw, rfl, rfl⟩ := mem_groupLinks.1 hlink
  have hwv := (leads_iff h hclosed (hclosed v hv w hw) hv).1 hback
  exact hne ((groupOf_eq_iff h hv (hclosed v hv w hw)).2
    ⟨single hw, hwv⟩)

end Triage.Components
