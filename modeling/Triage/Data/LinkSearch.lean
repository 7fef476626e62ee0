import Mathlib.Data.List.Induction
import Mathlib.Data.List.Perm.Subperm
import Triage.Data.Links

/-!
# Searches along links

A search marks each vertex when it first meets it and puts it with those whose links are still to be
followed, as a stack or as a queue. Vertices that were marked before are not entered.

## Main results

* `LinkSearch.search_spec` : a search ends, and it has entered what is reached beside the vertices
  that were marked before, each vertex once.
-/

namespace Triage

open List Relation.ReflTransGen

/-- A search: who is marked, who waits, who was entered, and from whom each was first met. -/
structure LinkSearch (V : Type*) where
  marked : List V
  waiting : List V
  entered : List V
  parents : List (V × V)

namespace LinkSearch

variable {V : Type*} [DecidableEq V] (next : V → List V) (join : List V → List V → List V)

/-- The first of each vertex that is not marked. -/
def unmarked (marked ws : List V) : List V :=
  ws.foldl (fun new w => if w ∈ marked ++ new then new else new ++ [w]) []

/-- What was pushed last is taken first. -/
def push (new rest : List V) : List V := new.reverse ++ rest

/-- What was put first is taken first. -/
def enqueue (new rest : List V) : List V := rest ++ new

def body (s : LinkSearch V) : Option (LinkSearch V) :=
  s.waiting.head?.map fun v =>
    have new := unmarked s.marked (next v)
    { marked := s.marked ++ new
      waiting := join new s.waiting.tail
      entered := s.entered ++ [v]
      parents := s.parents ++ new.map (·, v) }

/-- The search from some vertices, beside those that are marked. -/
def search (marked starts : List V) (bound : ℕ) : LinkSearch V :=
  loop (body next join) bound ⟨marked ++ starts, starts, [], []⟩

variable {next join} {marked starts vertices ws new : List V} {s s' : LinkSearch V} {v w : V}

/-! ### Marks -/

theorem unmarked_append (ws : List V) (w : V) : unmarked marked (ws ++ [w]) =
    if w ∈ marked ++ unmarked marked ws then unmarked marked ws
    else unmarked marked ws ++ [w] := by
  rw [unmarked, foldl_append]
  rfl

theorem mem_unmarked : w ∈ unmarked marked ws ↔ w ∈ ws ∧ w ∉ marked := by
  induction ws using reverseRecOn with
  | nil => simp [unmarked]
  | append_singleton ws u ih =>
    have hws : w ∈ ws ++ [u] ↔ w ∈ ws ∨ w = u := by simp
    rw [unmarked_append, hws]
    split
    · rename_i hu
      rw [ih]
      refine and_congr_left fun hnot => ⟨.inl, ?_⟩
      rintro (hw | rfl)
      · exact hw
      · exact (ih.1 ((mem_append.1 hu).resolve_left hnot)).1
    · rename_i hu
      rw [mem_append, not_or] at hu
      rw [mem_append, mem_singleton, ih]
      constructor
      · rintro (⟨hw, hnot⟩ | rfl)
        · exact ⟨.inl hw, hnot⟩
        · exact ⟨.inr rfl, hu.1⟩
      · rintro ⟨hw | rfl, hnot⟩
        · exact .inl ⟨hw, hnot⟩
        · exact .inr rfl

theorem nodup_unmarked : (unmarked marked ws).Nodup := by
  induction ws using reverseRecOn with
  | nil => exact nodup_nil
  | append_singleton ws u ih =>
    rw [unmarked_append]
    split
    · exact ih
    · rename_i hu
      rw [mem_append, not_or] at hu
      exact ih.append (nodup_singleton u) (by simpa using hu.2)

/-! ### Steps -/

/-- What holds while a search goes on. -/
structure Searching (next : V → List V) (marked starts : List V) (s : LinkSearch V) : Prop where
  marks : s.marked.Perm (marked ++ (s.entered ++ s.waiting))
  nodup : (s.entered ++ s.waiting).Nodup
  apart : ∀ v ∈ s.entered ++ s.waiting, v ∉ marked
  sound : ∀ v ∈ s.entered ++ s.waiting,
    Links.ReachedFrom (Links.avoiding next fun v => decide (v ∈ marked)) starts v
  closed : ∀ v ∈ s.entered, ∀ w ∈ next v, w ∈ s.marked
  keys : (starts ++ s.parents.map Prod.fst).Perm (s.entered ++ s.waiting)
  links : ∀ p ∈ s.parents, p.2 ∈ s.entered ∧ p.1 ∈ next p.2
  traced : ∀ v ∈ s.entered ++ s.waiting, ∃ u ∈ starts,
    Relation.ReflTransGen (fun a b => (b, a) ∈ s.parents) u v

/-- What is left to do: who waits, and who may come to. -/
def left (vertices : List V) (s : LinkSearch V) : ℕ :=
  s.waiting.length + vertices.countP fun v => decide (v ∉ s.marked)

theorem countP_add_le (hvertices : vertices.Nodup) (hnew : new.Nodup)
    (hmem : ∀ v ∈ new, v ∈ vertices ∧ v ∉ marked) :
    (vertices.countP fun v => decide (v ∉ marked ++ new)) + new.length ≤
      vertices.countP fun v => decide (v ∉ marked) := by
  rw [countP_eq_length_filter, countP_eq_length_filter, ← length_append]
  refine (List.Nodup.subperm ?_ fun v hv => ?_).length_le
  · refine (hvertices.filter _).append hnew fun v hv hv' => ?_
    exact of_decide_eq_true (mem_filter.1 hv).2 (mem_append_right _ hv')
  · rcases mem_append.1 hv with hv | hv
    · obtain ⟨hv, hnot⟩ := mem_filter.1 hv
      refine mem_filter.2 ⟨hv, decide_eq_true fun hm => of_decide_eq_true hnot ?_⟩
      exact mem_append_left _ hm
    · exact mem_filter.2 ⟨(hmem v hv).1, decide_eq_true (hmem v hv).2⟩

/-- The vertex that is taken has its new neighbours wait. -/
theorem body_eq_some (h : body next join s = some s') : ∃ v rest, s.waiting = v :: rest ∧
    s' = ⟨s.marked ++ unmarked s.marked (next v), join (unmarked s.marked (next v)) rest,
      s.entered ++ [v], s.parents ++ (unmarked s.marked (next v)).map (·, v)⟩ := by
  obtain ⟨v, hv, rfl⟩ := Option.map_eq_some_iff.1 h
  obtain ⟨rest, hrest⟩ := head?_eq_some_iff.1 hv
  exact ⟨v, rest, hrest, by rw [hrest]; rfl⟩

theorem Searching.body (hjoin : ∀ new rest : List V, (join new rest).Perm (new ++ rest))
    (hs : Searching next marked starts s) (hbody : LinkSearch.body next join s = some s') :
    Searching next marked starts s' := by
  obtain ⟨v, rest, hrest, rfl⟩ := body_eq_some hbody
  have hnew : ∀ w, w ∈ unmarked s.marked (next v) ↔ w ∈ next v ∧ w ∉ s.marked :=
    fun w => mem_unmarked
  have hnodup : (unmarked s.marked (next v)).Nodup := nodup_unmarked
  generalize unmarked s.marked (next v) = new at hnew hnodup ⊢
  obtain ⟨hmarks, hnd, hapart, hsound, hclosed, hkeys, hlinks, htraced⟩ := hs
  rw [hrest] at hmarks hnd hapart hsound hkeys htraced
  have hperm : (s.entered ++ [v] ++ join new rest).Perm (s.entered ++ v :: rest ++ new) := by
    rw [append_assoc, append_assoc]
    refine List.Perm.append_left _ (List.Perm.cons v ?_)
    exact (hjoin new rest).trans perm_append_comm
  have hfresh : ∀ w ∈ new, w ∉ marked ∧ w ∉ s.entered ++ v :: rest := by
    intro w hw
    have hnot := ((hnew w).1 hw).2
    rw [hmarks.mem_iff, mem_append, not_or] at hnot
    exact hnot
  have hv : v ∈ s.entered ++ v :: rest := by simp
  have hsub : ∀ p ∈ s.parents, p ∈ s.parents ++ new.map (·, v) := fun p hp => mem_append_left _ hp
  refine ⟨?_, ?_, fun w hw => ?_, fun w hw => ?_, fun u hu w hw => ?_, ?_, fun p hp => ?_,
    fun w hw => ?_⟩
  · refine (hmarks.append_right new).trans ?_
    rw [append_assoc]
    exact hperm.symm.append_left _
  · rw [hperm.nodup_iff]
    exact hnd.append hnodup fun w hw hw' => (hfresh w hw').2 hw
  · rw [hperm.mem_iff, mem_append] at hw
    exact hw.elim (hapart w) fun hw => (hfresh w hw).1
  · rw [hperm.mem_iff, mem_append] at hw
    refine hw.elim (hsound w) fun hw => (hsound v hv).step (mem_filter.2 ?_)
    exact ⟨((hnew w).1 hw).1, by simpa using (hfresh w hw).1⟩
  · rcases mem_append.1 hu with hu | hu
    · exact mem_append_left _ (hclosed u hu w hw)
    · rw [mem_singleton.1 hu] at hw
      by_cases hm : w ∈ s.marked
      · exact mem_append_left _ hm
      · exact mem_append_right _ ((hnew w).2 ⟨hw, hm⟩)
  · have hmap : (new.map (·, v)).map Prod.fst = new := by
      rw [map_map]
      exact map_id' _
    rw [map_append, hmap, ← append_assoc]
    exact (hkeys.append_right new).trans hperm.symm
  · rcases mem_append.1 hp with hp | hp
    · exact ⟨mem_append_left _ (hlinks p hp).1, (hlinks p hp).2⟩
    · obtain ⟨w, hw, rfl⟩ := mem_map.1 hp
      exact ⟨by simp, ((hnew w).1 hw).1⟩
  · have hmono : ∀ u w, Relation.ReflTransGen (fun a b => (b, a) ∈ s.parents) u w →
        Relation.ReflTransGen (fun a b => (b, a) ∈ s.parents ++ new.map (·, v)) u w :=
      mono fun a b (hab : (b, a) ∈ s.parents) => hsub (b, a) hab
    rw [hperm.mem_iff, mem_append] at hw
    rcases hw with hw | hw
    · obtain ⟨u, hu, htrace⟩ := htraced w hw
      exact ⟨u, hu, hmono u w htrace⟩
    · obtain ⟨u, hu, htrace⟩ := htraced v hv
      refine ⟨u, hu, (hmono u v htrace).tail ?_⟩
      exact mem_append_right _ (mem_map.2 ⟨w, hw, rfl⟩)

/-- What is searched: starts that are not marked, over vertices that the links do not leave. -/
structure Within (next : V → List V) (vertices marked starts : List V) : Prop where
  distinct : vertices.Nodup
  nodup : starts.Nodup
  apart : ∀ v ∈ starts, v ∉ marked
  inside : ∀ v ∈ starts, v ∈ vertices
  closed : ∀ v ∈ vertices, ∀ w ∈ next v, w ∈ vertices

theorem Searching.within (hs : Searching next marked starts s)
    (hwithin : Within next vertices marked starts) (hv : v ∈ s.entered ++ s.waiting) :
    v ∈ vertices :=
  (hs.sound v hv).mem (fun u hu w hw => hwithin.closed u hu w (mem_of_mem_filter hw))
    hwithin.inside

theorem Searching.left_lt (hjoin : ∀ new rest : List V, (join new rest).Perm (new ++ rest))
    (hwithin : Within next vertices marked starts) (hs : Searching next marked starts s)
    (hbody : LinkSearch.body next join s = some s') : left vertices s' < left vertices s := by
  obtain ⟨v, rest, hrest, rfl⟩ := body_eq_some hbody
  have hv : v ∈ vertices := hs.within hwithin (by rw [hrest]; simp)
  have hnodup : (unmarked s.marked (next v)).Nodup := nodup_unmarked
  have hle := countP_add_le hwithin.distinct hnodup fun w hw =>
    ⟨hwithin.closed v hv w (mem_unmarked.1 hw).1, (mem_unmarked.1 hw).2⟩
  have hlength := (hjoin (unmarked s.marked (next v)) rest).length_eq
  rw [length_append] at hlength
  rw [left, left, hrest, hlength, length_cons]
  dsimp only
  omega

theorem searching_begun (hwithin : Within next vertices marked starts) :
    Searching next marked starts ⟨marked ++ starts, starts, [], []⟩ := by
  refine ⟨List.Perm.refl _, hwithin.nodup, hwithin.apart, fun v hv => Links.ReachedFrom.start hv,
    fun v hv => (nomatch hv), by simp, fun p hp => (nomatch hp), fun v hv => ⟨v, hv, ?_⟩⟩
  exact refl

/-- What a search has done when none waits. -/
structure Searched (next : V → List V) (marked starts : List V) (s : LinkSearch V) : Prop where
  waiting : s.waiting = []
  marks : s.marked.Perm (marked ++ s.entered)
  nodup : s.entered.Nodup
  entered : ∀ v, v ∈ s.entered ↔
    Links.ReachedFrom (Links.avoiding next fun v => decide (v ∈ marked)) starts v
  keys : (starts ++ s.parents.map Prod.fst).Perm s.entered
  links : ∀ p ∈ s.parents, p.2 ∈ s.entered ∧ p.1 ∈ next p.2
  traced : ∀ v ∈ s.entered, ∃ u ∈ starts,
    Relation.ReflTransGen (fun a b => (b, a) ∈ s.parents) u v

/-- **A search ends**, and has entered what is reached. -/
theorem search_spec (hjoin : ∀ new rest : List V, (join new rest).Perm (new ++ rest))
    (hwithin : Within next vertices marked starts) {bound : ℕ} (hbound : vertices.length ≤ bound) :
    Searched next marked starts (search next join marked starts bound) := by
  have hle := countP_add_le hwithin.distinct hwithin.nodup
    fun v hv => ⟨hwithin.inside v hv, hwithin.apart v hv⟩
  have hleft : left vertices ⟨marked ++ starts, starts, [], []⟩ ≤ bound := by
    have hcount : (vertices.countP fun v => decide (v ∉ marked)) ≤ vertices.length :=
      countP_le_length
    rw [left]
    dsimp only
    omega
  obtain ⟨hs, hnone⟩ := loop_spec (I := Searching next marked starts)
    (fun s s' hs hbody => ⟨hs.body hjoin hbody, hs.left_lt hjoin hwithin hbody⟩)
    (searching_begun hwithin) hleft
  rw [search]
  generalize loop (body next join) bound ⟨marked ++ starts, starts, [], []⟩ = s at hs hnone
  have hwaiting : s.waiting = [] := by
    rwa [body, Option.map_eq_none_iff, head?_eq_none_iff] at hnone
  obtain ⟨hmarks, hnd, hapart, hsound, hclosed, hkeys, hlinks, htraced⟩ := hs
  rw [hwaiting, append_nil] at hmarks hnd hapart hsound hkeys htraced
  refine ⟨hwaiting, hmarks, hnd, fun v => ⟨hsound v, fun h => ?_⟩, hkeys, hlinks, htraced⟩
  refine h.mem (P := fun v => v ∈ s.entered) (fun u hu w hw => ?_) fun u hu => ?_
  · obtain ⟨hw, hnot⟩ := mem_filter.1 hw
    have hmark := hclosed u hu w hw
    rw [hmarks.mem_iff, mem_append] at hmark
    exact hmark.resolve_left (by simpa using hnot)
  · exact hkeys.mem_iff.1 (mem_append_left _ hu)

omit [DecidableEq V] in
theorem perm_push (new rest : List V) : (push new rest).Perm (new ++ rest) :=
  (reverse_perm new).append_right rest

omit [DecidableEq V] in
theorem perm_enqueue (new rest : List V) : (enqueue new rest).Perm (new ++ rest) :=
  perm_append_comm

end LinkSearch

end Triage
