import Triage.Data.DepthFirst
import Triage.Data.LinkSearch

/-!
# Strongly connected components

The vertices of a graph fall into groups that lead to each other. They are found in two walks: one
along the links, for the order in which the vertices finish, and one against them, from what
finished last on, in which each search enters one group.

## Main results

* `Components.groups_spec` : the walks find the groups.
* `Components.groups_ordered` : what leads to a group is in it or in one before.
-/

namespace Triage

open List Relation.ReflTransGen LinkSearch DepthFirst

/-- Groups of vertices that lead to each other, and to no vertex beside that leads back. -/
structure Components {V : Type*} (next : V → List V) (vertices : List V)
    (groups : List (List V)) : Prop where
  perm : groups.flatten.Perm vertices
  nonempty : ∀ group ∈ groups, group ≠ []
  strong : ∀ group ∈ groups, ∀ v ∈ group, ∀ w ∈ vertices,
    w ∈ group ↔ Links.Leads next v w ∧ Links.Leads next w v

namespace Components

variable {V : Type*} [DecidableEq V] (next back : V → List V)

/-- The group of a vertex that is in none yet. -/
def gather (bound : ℕ) (s : List (List V) × List V) (start : V) : List (List V) × List V :=
  if start ∈ s.2 then s
  else
    have found := LinkSearch.search back LinkSearch.push s.2 [start] bound
    (s.1 ++ [found.entered], found.marked)

/-- The groups, with `back` the links the other way. -/
def groups (vertices : List V) : List (List V) :=
  ((DepthFirst.order next vertices).reverse.foldl (gather back vertices.length) ([], [])).1

variable {next back} {vertices : List V} {v w : V}

omit [DecidableEq V] in
theorem exists_last {p : V → Prop} {l : List V} (h : ∃ v ∈ l, p v) :
    ∃ pre v post, l = pre ++ v :: post ∧ p v ∧ ∀ w ∈ post, ¬p w := by
  induction l with
  | nil =>
    obtain ⟨v, hv, -⟩ := h
    cases hv
  | cons a l ih =>
    by_cases hl : ∃ v ∈ l, p v
    · obtain ⟨pre, v, post, rfl, hv, hpost⟩ := ih hl
      exact ⟨a :: pre, v, post, rfl, hv, hpost⟩
    · obtain ⟨v, hv, hpv⟩ := h
      rcases mem_cons.1 hv with rfl | hv
      · exact ⟨[], v, l, rfl, hpv, fun w hw hpw => hl ⟨w, hw, hpw⟩⟩
      · exact absurd ⟨v, hv, hpv⟩ hl

/-- Of two elements of a list without repeats only one comes first. -/
theorem not_both_before {pre post front back : List V} (hnodup : (pre ++ v :: post).Nodup)
    (heq : pre ++ v :: post = front ++ w :: back) (hv : v ∈ front) (hw : w ∈ pre) : False := by
  have hvpre : v ∉ pre := fun hmem => disjoint_of_nodup_append hnodup hmem (by simp)
  have hwfront : w ∉ front := fun hmem => disjoint_of_nodup_append (heq ▸ hnodup) hmem (by simp)
  have hvat : (pre ++ v :: post).idxOf v = pre.length := by
    rw [idxOf_append_of_notMem hvpre, idxOf_cons_self, Nat.add_zero]
  have hwat : (pre ++ v :: post).idxOf w = front.length := by
    rw [heq, idxOf_append_of_notMem hwfront, idxOf_cons_self, Nat.add_zero]
  have hvlt : (pre ++ v :: post).idxOf v < front.length := by
    rw [heq, idxOf_append_of_mem hv]
    exact idxOf_lt_length_iff.2 hv
  have hwlt : (pre ++ v :: post).idxOf w < pre.length := by
    rw [idxOf_append_of_mem hw]
    exact idxOf_lt_length_iff.2 hw
  omega

/-- What leads to the vertex that finished last of those that are in no group yet is of its own
group, where whole groups were taken before. -/
theorem leads_back {finish : List V} (hnodup : finish.Nodup) (hfinishing : Finishing next finish)
    (hclosed : ∀ v ∈ finish, ∀ w ∈ next v, w ∈ finish) {done rest : List V} {start : V}
    (horder : finish.reverse = done ++ start :: rest) {taken : V → Prop}
    (hdone : ∀ v ∈ done, taken v)
    (htaken : ∀ v w, taken v → Links.Leads next v w → Links.Leads next w v → taken w)
    {y : V} (hy : y ∈ finish) (hnot : ¬taken y) (hlead : Links.Leads next y start) :
    Links.Leads next start y := by
  have hsplit : finish = rest.reverse ++ start :: done.reverse := by
    rw [← reverse_reverse finish, horder]
    simp
  obtain ⟨pre, m, post, heq, ⟨hym, hmy⟩, hpost⟩ := exists_last
    (p := fun x => Links.Leads next y x ∧ Links.Leads next x y)
    ⟨y, hy, refl, refl⟩
  have hmem : m ∈ finish := by simp [heq]
  rcases hfinishing pre m post heq start (hmy.trans hlead) with hstart | ⟨t, ht, hmt, htm⟩
  · by_cases hms : m = start
    · exact hms ▸ hmy
    · have hfront : m ∈ rest.reverse := by
        have hm := hmem
        rw [hsplit, mem_append, mem_cons] at hm
        refine hm.resolve_right fun hm => hm.elim hms fun hm => hnot ?_
        exact htaken m y (hdone m (mem_reverse.1 hm)) hmy hym
      have hpre : start ∈ pre := by
        rcases mem_append.1 hstart with hpre | hpre
        · exact hpre
        · exact absurd (mem_singleton.1 hpre).symm hms
      exact (not_both_before (heq ▸ hnodup) (heq.symm.trans hsplit) hfront hpre).elim
  · have htmem : t ∈ finish := hmt.mem (P := fun v => v ∈ finish) hclosed hmem
    rw [heq, ← singleton_append, ← append_assoc, mem_append] at htmem
    exact absurd ⟨hym.trans hmt, htm.trans hmy⟩ (hpost t (htmem.resolve_left ht))

/-! ### The second walk -/

/-- Links the other way. -/
def Opposite (next back : V → List V) (vertices : List V) : Prop :=
  ∀ v w, v ∈ back w ↔ v ∈ vertices ∧ w ∈ vertices ∧ w ∈ next v

/-- What holds once the groups of some vertices were taken. -/
structure Gathered (next : V → List V) (vertices done : List V)
    (s : List (List V) × List V) : Prop where
  perm : s.1.flatten.Perm s.2
  nodup : s.2.Nodup
  within : ∀ v ∈ s.2, v ∈ vertices
  done : ∀ v ∈ done, v ∈ s.2
  nonempty : ∀ group ∈ s.1, group ≠ []
  strong : ∀ group ∈ s.1, ∀ v ∈ group, ∀ w ∈ vertices,
    w ∈ group ↔ Links.Leads next v w ∧ Links.Leads next w v

variable {s : List (List V) × List V} {found : List (List V)}

omit [DecidableEq V] in
theorem Gathered.taken {done : List V} (hs : Gathered next vertices done s)
    (hclosed : ∀ v ∈ vertices, ∀ w ∈ next v, w ∈ vertices) (hv : v ∈ s.2)
    (hvw : Links.Leads next v w) (hwv : Links.Leads next w v) : w ∈ s.2 := by
  obtain ⟨group, hgroup, hmem⟩ := mem_flatten.1 (hs.perm.mem_iff.2 hv)
  have hw : w ∈ vertices := hvw.mem (P := fun v => v ∈ vertices) hclosed (hs.within v hv)
  exact hs.perm.mem_iff.1 (mem_flatten_of_mem hgroup
    ((hs.strong group hgroup v hmem w hw).2 ⟨hvw, hwv⟩))

variable {finish done rest : List V}

/-- The vertices that lead to each other are those that a search against the links enters. -/
theorem mem_entered (hclosed : ∀ v ∈ vertices, ∀ w ∈ next v, w ∈ vertices)
    (hback : Opposite next back vertices) {start : V}
    (hperm : finish.Perm vertices) (hnodup : finish.Nodup) (hfinishing : Finishing next finish)
    (horder : finish.reverse = done ++ start :: rest)
    (hs : Gathered next vertices done s) (hstart : start ∉ s.2) (hv : v ∈ vertices) :
    Links.ReachedFrom (Links.avoiding back fun v => decide (v ∈ s.2)) [start] v ↔
      Links.Leads next start v ∧ Links.Leads next v start := by
  have hmem : start ∈ vertices := by
    rw [← hperm.mem_iff, ← mem_reverse, horder]
    simp
  have hclosed' : ∀ v ∈ finish, ∀ w ∈ next v, w ∈ finish := by
    intro v hv w hw
    exact hperm.mem_iff.2 (hclosed v (hperm.mem_iff.1 hv) w hw)
  constructor
  · intro h
    have hlead : Links.Leads next v start ∧ v ∉ s.2 := by
      refine h.mem (P := fun v => Links.Leads next v start ∧ v ∉ s.2) (fun u hu w hw => ?_) ?_
      · obtain ⟨hw, hnot⟩ := mem_filter.1 hw
        exact ⟨head ((hback w u).1 hw).2.2 hu.1, by simpa using hnot⟩
      · intro u hu
        rw [mem_singleton.1 hu]
        exact ⟨refl, hstart⟩
    have htaken : ∀ v w, v ∈ s.2 → Links.Leads next v w → Links.Leads next w v → w ∈ s.2 :=
      fun v w => hs.taken hclosed
    exact ⟨leads_back hnodup hfinishing hclosed' horder hs.done htaken (hperm.mem_iff.2 hv)
      hlead.2 hlead.1, hlead.1⟩
  · rintro ⟨hsv, hvs⟩
    -- along the links to the start, each vertex is of the group, and so in none yet
    induction hvs using head_induction_on with
    | refl => exact Links.ReachedFrom.start (by simp)
    | head hlink hus ih =>
      rename_i u u'
      have hu' : u' ∈ vertices := hclosed u hv u' hlink
      have hnot : u ∉ s.2 := fun hu => hstart (hs.taken hclosed hu (hus.head hlink) hsv)
      refine (ih hu' (hsv.tail hlink)).step (mem_filter.2 ⟨?_, by simpa using hnot⟩)
      exact (hback u u').2 ⟨hv, hu', hlink⟩

theorem Gathered.gather (hvertices : vertices.Nodup)
    (hclosed : ∀ v ∈ vertices, ∀ w ∈ next v, w ∈ vertices)
    (hback : Opposite next back vertices) {start : V}
    (hperm : finish.Perm vertices) (hfinishing : Finishing next finish)
    (horder : finish.reverse = done ++ start :: rest) (hs : Gathered next vertices done s) :
    Gathered next vertices (done ++ [start]) (Components.gather back vertices.length s start) := by
  rw [Components.gather]
  split
  · rename_i hstart
    refine { hs with done := fun v hv => ?_ }
    rcases mem_append.1 hv with hv | hv
    · exact hs.done v hv
    · rw [mem_singleton.1 hv]
      exact hstart
  · rename_i hstart
    have hmem : start ∈ vertices := by
      rw [← hperm.mem_iff, ← mem_reverse, horder]
      simp
    have hwithin : LinkSearch.Within back vertices s.2 [start] := by
      refine ⟨hvertices, nodup_singleton _, fun v hv => ?_, fun v hv => ?_, fun v _ w hw => ?_⟩
      · rwa [mem_singleton.1 hv]
      · rwa [mem_singleton.1 hv]
      · exact ((hback w v).1 hw).1
    have hfound := search_spec perm_push hwithin (Nat.le_refl _)
    generalize search back push s.2 [start] vertices.length = found
      at hfound ⊢
    have hentered : ∀ v ∈ vertices, v ∈ found.entered ↔
        Links.Leads next start v ∧ Links.Leads next v start := fun v hv =>
      (hfound.entered v).trans (mem_entered hclosed hback hperm (hperm.nodup_iff.2 hvertices)
        hfinishing horder hs hstart hv)
    have hin : ∀ v ∈ found.entered, v ∈ vertices ∧ v ∉ s.2 := by
      intro v hv
      refine ((hfound.entered v).1 hv).mem (P := fun v => v ∈ vertices ∧ v ∉ s.2)
        (fun u hu w hw => ?_) fun u hu => ?_
      · obtain ⟨hw, hnot⟩ := mem_filter.1 hw
        exact ⟨((hback w u).1 hw).1, by simpa using hnot⟩
      · rw [mem_singleton.1 hu]
        exact ⟨hmem, hstart⟩
    have hself : start ∈ found.entered := (hentered start hmem).2 ⟨refl, refl⟩
    refine ⟨?_, ?_, fun v hv => ?_, fun v hv => ?_, fun group hgroup => ?_,
      fun group hgroup v hv w hw => ?_⟩
    · rw [flatten_append]
      simp only [flatten_cons, flatten_nil, append_nil]
      exact (hs.perm.append_right _).trans hfound.marks.symm
    · rw [hfound.marks.nodup_iff]
      exact hs.nodup.append hfound.nodup fun v hv hv' => (hin v hv').2 hv
    · rcases mem_append.1 (hfound.marks.mem_iff.1 hv) with hv | hv
      · exact hs.within v hv
      · exact (hin v hv).1
    · rw [hfound.marks.mem_iff, mem_append]
      rcases mem_append.1 hv with hv | hv
      · exact .inl (hs.done v hv)
      · rw [mem_singleton.1 hv]
        exact .inr hself
    · rcases mem_append.1 hgroup with hgroup | hgroup
      · exact hs.nonempty group hgroup
      · rw [mem_singleton.1 hgroup]
        exact ne_nil_of_mem hself
    · rcases mem_append.1 hgroup with hgroup | hgroup
      · exact hs.strong group hgroup v hv w hw
      · rw [mem_singleton.1 hgroup] at hv ⊢
        obtain ⟨hsv, hvs⟩ := (hentered v (hin v hv).1).1 hv
        rw [hentered w hw]
        exact ⟨fun h => ⟨hvs.trans h.1, h.2.trans hsv⟩, fun h => ⟨hsv.trans h.1, h.2.trans hvs⟩⟩

/-- **The two walks find the groups.** -/
theorem groups_spec (hvertices : vertices.Nodup)
    (hclosed : ∀ v ∈ vertices, ∀ w ∈ next v, w ∈ vertices) (hback : Opposite next back vertices) :
    Components next vertices (groups next back vertices) := by
  obtain ⟨hperm, hfinishing⟩ := order_spec hvertices hclosed
  have hall : ∀ done rest, (order next vertices).reverse = done ++ rest →
      Gathered next vertices done (done.foldl (gather back vertices.length) ([], [])) := by
    intro done
    induction done using reverseRecOn with
    | nil =>
      intro rest _
      exact ⟨List.Perm.nil, nodup_nil, fun v hv => (nomatch hv), fun v hv => (nomatch hv),
        fun g hg => (nomatch hg), fun g hg => (nomatch hg)⟩
    | append_singleton done start ih =>
      intro rest horder
      rw [append_assoc, singleton_append] at horder
      rw [foldl_append]
      exact (ih _ horder).gather hvertices hclosed hback hperm hfinishing horder
  have hs := hall _ [] (append_nil _).symm
  refine ⟨hs.perm.trans ((perm_ext_iff_of_nodup hs.nodup hvertices).2 fun v => ?_),
    hs.nonempty, hs.strong⟩
  exact ⟨hs.within v, fun hv => hs.done v (mem_reverse.2 (hperm.mem_iff.2 hv))⟩

/-- What leads to a group is in it or in one before. -/
def Ordered (back : V → List V) (found : List (List V)) : Prop :=
  ∀ pre group post, found = pre ++ group :: post → ∀ w ∈ group, ∀ v ∈ back w,
    v ∈ pre.flatten ∨ v ∈ group

omit [DecidableEq V] in
theorem Ordered.concat {last : List V} (h : Ordered back found)
    (hlast : ∀ w ∈ last, ∀ v ∈ back w, v ∈ found.flatten ∨ v ∈ last) :
    Ordered back (found ++ [last]) := by
  intro pre group post hsplit
  rcases eq_nil_or_concat post with rfl | ⟨post, last', rfl⟩
  · obtain ⟨rfl, hsame⟩ := append_inj' hsplit rfl
    cases hsame
    exact hlast
  · rw [concat_eq_append, ← cons_append, ← append_assoc] at hsplit
    exact h pre group post (append_inj' hsplit rfl).1

/-- **The groups are in the order of the links.** -/
theorem groups_ordered (hvertices : vertices.Nodup)
    (hclosed : ∀ v ∈ vertices, ∀ w ∈ next v, w ∈ vertices)
    (hback : Opposite next back vertices) : Ordered back (groups next back vertices) := by
  obtain ⟨hperm, -⟩ := order_spec hvertices hclosed
  have hstep : ∀ starts : List V, (∀ v ∈ starts, v ∈ vertices) →
      have s := starts.foldl (gather back vertices.length) ([], [])
      (∀ v, v ∈ s.1.flatten ↔ v ∈ s.2) ∧ Ordered back s.1 := by
    intro starts
    induction starts using reverseRecOn with
    | nil =>
      refine fun _ => ⟨fun v => Iff.rfl, fun pre group post hsplit => ?_⟩
      exact absurd hsplit.symm (by simp)
    | append_singleton starts start ih =>
      intro hstarts
      obtain ⟨hmarked, hordered⟩ := ih fun v hv => hstarts v (mem_append_left _ hv)
      rw [foldl_append, foldl_cons, foldl_nil]
      generalize starts.foldl (gather back vertices.length) ([], []) = s at hmarked hordered
      rw [gather]
      split
      · exact ⟨hmarked, hordered⟩
      · rename_i hstart
        have hmem := hstarts start (mem_append_right _ (mem_singleton_self _))
        have hwithin : LinkSearch.Within back vertices s.2 [start] :=
          ⟨hvertices, nodup_singleton _, fun v hv => mem_singleton.1 hv ▸ hstart,
            fun v hv => mem_singleton.1 hv ▸ hmem, fun v _ w hw => ((hback w v).1 hw).1⟩
        have hfound := search_spec perm_push hwithin (Nat.le_refl _)
        generalize search back push s.2 [start] vertices.length = found
          at hfound ⊢
        refine ⟨fun v => ?_, hordered.concat fun w hw v hv => ?_⟩
        · rw [hfound.marks.mem_iff, mem_append, flatten_append, mem_append, hmarked v]
          simp only [flatten_cons, flatten_nil, append_nil]
        · by_cases hv' : v ∈ s.2
          · exact .inl ((hmarked v).2 hv')
          · refine .inr ((hfound.entered v).2 (((hfound.entered w).1 hw).step ?_))
            exact mem_filter.2 ⟨hv, by simpa using hv'⟩
  exact (hstep _ fun v hv => hperm.mem_iff.1 (mem_reverse.1 hv)).2

omit [DecidableEq V] in
/-- Groups are groups in any order of their vertices. -/
theorem map_perm (h : Components next vertices found)
    {f : List V → List V} (hf : ∀ group, (f group).Perm group) :
    Components next vertices (found.map f) where
  perm := by
    have hperm : (found.flatMap f).Perm (found.flatMap id) :=
      List.Perm.flatMap_left found fun group _ => hf group
    rw [flatMap_id] at hperm
    exact hperm.trans h.perm
  nonempty group hgroup := by
    obtain ⟨group, hfound, rfl⟩ := mem_map.1 hgroup
    exact fun hnil => h.nonempty group hfound (nil_perm.1 (hnil ▸ hf group))
  strong group hgroup v hv w hw := by
    obtain ⟨group, hfound, rfl⟩ := mem_map.1 hgroup
    rw [(hf group).mem_iff] at hv ⊢
    exact h.strong group hfound v hv w hw

omit [DecidableEq V] in
/-- Groups are groups for any links that are the same for the vertices. -/
theorem congr {next' : V → List V} (h : Components next vertices found)
    (hclosed : ∀ v ∈ vertices, ∀ w ∈ next v, w ∈ vertices)
    (heq : ∀ v ∈ vertices, next' v = next v) : Components next' vertices found where
  perm := h.perm
  nonempty := h.nonempty
  strong group hgroup v hv w hw := by
    have hvertex : v ∈ vertices := h.perm.mem_iff.1 (mem_flatten_of_mem hgroup hv)
    have hclosed' : ∀ v ∈ vertices, ∀ w ∈ next' v, w ∈ vertices := by
      intro v hv w hw
      rw [heq v hv] at hw
      exact hclosed v hv w hw
    have hiff : ∀ {a b : V}, a ∈ vertices → (Links.Leads next a b ↔ Links.Leads next' a b) :=
      fun ha => ⟨fun hlead => Links.Leads.congr (P := fun v => v ∈ vertices) hclosed heq hlead ha,
        fun hlead => Links.Leads.congr (P := fun v => v ∈ vertices) hclosed'
          (fun v hv => (heq v hv).symm) hlead ha⟩
    rw [h.strong group hgroup v hv w hw, hiff hvertex, hiff hw]

end Components

end Triage
