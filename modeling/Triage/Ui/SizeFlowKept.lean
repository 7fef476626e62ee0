import Triage.Ui.SizeFlow

/-!
# Rows that are kept

Each row that is large enough is drawn: the rows that its files were met from are needed for it, up
to a root, and the drawn rows are searched along just those that are needed for something.

## Main results

* `flow_kept` : filtering the flow keeps the paths to what is large enough.
-/

namespace Triage.SizeFlow

open FileGroups Grouping List Relation.ReflTransGen LinkSearch Components

/-! ### Filter sizes -/

section Filter

variable {F R : Type*} [DecidableEq R] {parents : List (F × F)} {idOf : F → R} {rows : List R}
  {own removable : R → ℕ} {size : ℕ} {row row' : R}

theorem mem_parentLinks : row' ∈ parentLinks parents idOf row ↔
    row ≠ row' ∧ ∃ p ∈ parents, idOf p.1 = row ∧ idOf p.2 = row' := by
  rw [parentLinks, mem_newSet, mem_map]
  constructor
  · rintro ⟨p, hp, rfl⟩
    obtain ⟨hmem, heq⟩ := mem_filter.1 hp
    obtain ⟨rfl, hne⟩ := of_decide_eq_true heq
    exact ⟨hne, p, hmem, rfl, rfl⟩
  · rintro ⟨hne, p, hp, rfl, rfl⟩
    exact ⟨p, mem_filter.2 ⟨hp, decide_eq_true ⟨rfl, hne⟩⟩, rfl⟩

omit [DecidableEq R] in
theorem le_foldl_max (ids : List R) (start : ℕ) :
    size ≤ ids.foldl (fun size id => max (max size (own id)) (removable id)) start ↔
      size ≤ start ∨ ∃ id ∈ ids, size ≤ own id ∨ size ≤ removable id := by
  induction ids generalizing start with
  | nil => simp
  | cons id ids ih =>
    rw [foldl_cons, ih, le_max_iff, le_max_iff]
    simp only [mem_cons, exists_eq_or_imp]
    rw [or_assoc, or_assoc, or_assoc]

/-- A row is needed for what leads to it along the rows that files were met from. -/
theorem le_filterSizes (le : R → R → Bool) (own removable : R → ℕ) (hrows : rows.Nodup)
    (hparents : ∀ p ∈ parents, idOf p.2 ∈ rows) (hrow : row ∈ rows) :
    size ≤ filterSizes le rows own removable parents idOf row ↔
      size = 0 ∨ ∃ id ∈ rows, Links.Leads (parentLinks parents idOf) id row ∧
        (size ≤ own id ∨ size ≤ removable id) := by
  have hclosed : ∀ row ∈ rows, ∀ id ∈ parentLinks parents idOf row, id ∈ rows := by
    intro row _ id hid
    obtain ⟨-, p, hp, -, rfl⟩ := mem_parentLinks.1 hid
    exact hparents p hp
  have h := stronglyConnected_spec le hrows hclosed
  have hvalue : ∀ id ∈ rows, size ≤ ((stronglyConnected le rows (parentLinks parents idOf))[
      groupOf (stronglyConnected le rows (parentLinks parents idOf)) id]?.getD
        []).foldl (fun size id => max (max size (own id)) (removable id)) 0 ↔
      size = 0 ∨ ∃ id' ∈ rows, (Links.Leads (parentLinks parents idOf) id' id ∧
        Links.Leads (parentLinks parents idOf) id id') ∧
        (size ≤ own id' ∨ size ≤ removable id') := by
    intro id hid
    obtain ⟨group, hgroup, -⟩ := exists_group h hid
    rw [hgroup, Option.getD_some, le_foldl_max, Nat.le_zero]
    refine or_congr_right (exists_congr fun id' => ?_)
    rw [mem_group_iff h hrows hgroup, and_assoc]
    refine and_congr_right fun hid' => and_congr_left fun _ => ?_
    exact groupOf_eq_iff h hid' hid
  rw [filterSizes, le_maxima h hclosed hrow]
  constructor
  · rintro ⟨id, hid, hlead, hsize⟩
    rcases (hvalue id hid).1 hsize with hzero | ⟨id', hid', ⟨hback, -⟩, hsize⟩
    · exact .inl hzero
    · exact .inr ⟨id', hid', hback.trans hlead, hsize⟩
  · rintro (hzero | ⟨id, hid, hlead, hsize⟩)
    · exact ⟨row, hrow, refl, (hvalue row hrow).2 (.inl hzero)⟩
    · refine ⟨id, hid, hlead, (hvalue id hid).2 (.inr ⟨id, hid, ⟨?_, ?_⟩, hsize⟩)⟩
      · exact refl
      · exact refl

end Filter

variable {F : Type*} [DecidableEq F] (le : F → F → Bool) (leRow : FlowId F → FlowId F → Bool)
  (g : FileGraph F)

/-! ### Files -/

namespace FileGraph

theorem inferred_sublist :
    (g.inferred le).Sublist (stronglyConnected le g.ids g.links).flatten := by
  have hall : ∀ (groups : List (List F)) (p : List F × ℕ → Bool) (i : ℕ),
      (((groups.zipIdx i).filter p).flatMap fun q => q.1.head?.toList).Sublist groups.flatten := by
    intro groups p
    induction groups with
    | nil => exact fun _ => List.Sublist.refl _
    | cons group groups ih =>
      intro i
      have hhead : group.head?.toList.Sublist group := by
        cases group with
        | nil => exact List.Sublist.refl _
        | cons f group => exact singleton_sublist.2 mem_cons_self
      rw [zipIdx_cons, filter_cons, flatten_cons]
      split
      · rw [flatMap_cons]
        exact hhead.append (ih (i + 1))
      · exact (ih (i + 1)).trans (sublist_append_right group groups.flatten)
  exact hall _ _ 0

theorem roots_spec : (g.roots le).Nodup ∧ ∀ f ∈ g.roots le, f ∈ g.ids := by
  have h := stronglyConnected_spec le g.nodup g.closed
  have hsublist := g.inferred_sublist le
  rw [roots]
  split
  · exact ⟨(h.perm.nodup_iff.2 g.nodup).sublist hsublist,
      fun f hf => h.perm.mem_iff.1 (hsublist.subset hf)⟩
  · exact ⟨nodup_newSet _, fun f hf => g.entered f (mem_newSet.1 hf)⟩

theorem active_spec : LinkSearch.Searched g.links [] (g.roots le) (g.active le) := by
  obtain ⟨hnodup, hmem⟩ := g.roots_spec le
  have hwithin : LinkSearch.Within g.links g.ids [] (g.roots le) :=
    ⟨g.nodup, hnodup, fun _ _ => not_mem_nil, hmem, g.closed⟩
  exact search_spec perm_enqueue hwithin le_rfl

/-- A row has a file that was first met from a file of another row. -/
def MetFrom (packages : Bool) (a b : FlowId F) : Prop :=
  a ≠ b ∧ ∃ p ∈ (g.active le).parents, g.idOf packages p.2 = a ∧ g.idOf packages p.1 = b

end FileGraph

/-! ### Rows -/

section Rows

variable {packages : Bool} {metric : Metric}

/-- What is drawn of a flow, and why. -/
structure Kept (g : FileGraph F) (packages : Bool) (m : FlowModel F) (layout : FlowLayout F)
    (minSize : ℕ) : Prop where
  /-- A row that is large enough is drawn. -/
  large : ∀ id ∈ m.byId, minSize ≤ m.own id ∨ minSize ≤ m.removable id → id ∈ layout.nodes
  /-- A row that is drawn is reached from a root that is drawn, along edges that are drawn. -/
  reached : ∀ id ∈ layout.nodes, ∃ root ∈ layout.roots, root ∈ layout.nodes ∧
    Relation.ReflTransGen (fun a b => (a, b) ∈ layout.edges) root id
  /-- A row that is not large enough is on a path from a root to a row that is. -/
  path : ∀ id ∈ layout.nodes, m.own id < minSize → m.removable id < minSize →
    ∃ root ∈ m.roots, ∃ row ∈ m.byId, (minSize ≤ m.own row ∨ minSize ≤ m.removable row) ∧
      Relation.ReflTransGen (g.MetFrom le packages) root id ∧
      Relation.ReflTransGen (g.MetFrom le packages) id row

variable {id row : FlowId F} {f : F}

theorem mem_byId : id ∈ (buildSizeFlow le leRow g packages metric).byId ↔
    ∃ f ∈ (g.active le).entered, g.idOf (packages || metric = .count) f = id :=
  mem_newSet.trans mem_map

theorem idOf_parent {p : F × F} (hp : p ∈ (g.active le).parents) :
    p.1 ∈ (g.active le).entered ∧ p.2 ∈ (g.active le).entered ∧ p.1 ∈ g.links p.2 := by
  have h := g.active_spec le
  obtain ⟨hentered, hlink⟩ := h.links p hp
  exact ⟨h.keys.mem_iff.1 (mem_append_right _ (mem_map_of_mem hp)), hentered, hlink⟩

/-- The files that a file was met from, in their rows. -/
theorem leads_of_traced {a : F}
    (h : Relation.ReflTransGen (fun a b => (b, a) ∈ (g.active le).parents) a f) :
    Links.Leads (parentLinks (g.active le).parents (g.idOf packages)) (g.idOf packages f)
      (g.idOf packages a) := by
  induction h using head_induction_on with
  | refl => exact refl
  | head hlink hrest ih =>
    rename_i a b
    by_cases heq : g.idOf packages b = g.idOf packages a
    · rwa [← heq]
    · exact ih.step (mem_parentLinks.2 ⟨heq, (b, a), hlink, rfl, rfl⟩)

theorem metFrom_of_leads (h : Links.Leads (parentLinks (g.active le).parents (g.idOf packages))
    id row) : Relation.ReflTransGen (g.MetFrom le packages) row id := by
  induction h with
  | refl => exact refl
  | tail _ hlink ih =>
    obtain ⟨hne, p, hp, hp1, hp2⟩ := mem_parentLinks.1 hlink
    exact head ⟨hne.symm, p, hp, hp2, hp1⟩ ih

/-- A file that is met from another has an edge to its row, or is in it. -/
theorem edge_of_parent {p : F × F} (hp : p ∈ (g.active le).parents)
    (hne : g.idOf (packages || metric = .count) p.2 ≠ g.idOf (packages || metric = .count) p.1) :
    (g.idOf (packages || metric = .count) p.2, g.idOf (packages || metric = .count) p.1) ∈
      (buildSizeFlow le leRow g packages metric).edges := by
  obtain ⟨-, hentered, hlink⟩ := idOf_parent le g hp
  refine mem_newSet.2 (mem_filter.2 ⟨mem_flatMap.2 ⟨p.2, hentered, ?_⟩, ?_⟩)
  · exact mem_map.2 ⟨p.1, hlink, rfl⟩
  · simp [hne]

theorem edge_rows {e : FlowId F × FlowId F}
    (he : e ∈ (buildSizeFlow le leRow g packages metric).edges) :
    e.2 ∈ (buildSizeFlow le leRow g packages metric).byId := by
  obtain ⟨he, -⟩ := mem_filter.1 (mem_newSet.1 he)
  obtain ⟨f, hf, he⟩ := mem_flatMap.1 he
  obtain ⟨f', hf', rfl⟩ := mem_map.1 he
  have hspec := g.active_spec le
  rw [mem_byId]
  refine ⟨f', ?_, rfl⟩
  rw [hspec.entered] at hf ⊢
  exact hf.step (mem_filter.2 ⟨hf', rfl⟩)

theorem le_filterSize {size : ℕ} (hid : id ∈ (buildSizeFlow le leRow g packages metric).byId) :
    size ≤ (buildSizeFlow le leRow g packages metric).filterSize id ↔ size = 0 ∨
      ∃ row ∈ (buildSizeFlow le leRow g packages metric).byId,
        Links.Leads (parentLinks (g.active le).parents (g.idOf (packages || metric = .count)))
          row id ∧ (size ≤ (buildSizeFlow le leRow g packages metric).own row ∨
            size ≤ (buildSizeFlow le leRow g packages metric).removable row) :=
  le_filterSizes leRow _ _ (nodup_newSet _)
    (fun _ hp => (mem_byId le leRow g).2 ⟨_, (idOf_parent le g hp).2.1, rfl⟩) hid

variable {m : FlowModel F}

theorem map_flowLevels (roots : List (FlowId F)) (shown : FlowId F → Bool) :
    (flowLevels leRow m roots shown).map Prod.fst =
      (search (fun id => (m.outgoing id).filter shown) enqueue [] roots m.byId.length).entered := by
  rw [flowLevels, map_map]
  exact map_id _

omit [DecidableEq F] in
theorem mem_sorted (shown : FlowId F → Bool) {levels : List (FlowId F × ℕ)}
    {before : FlowId F × ℕ → FlowId F × ℕ → Bool} :
    id ∈ ((levels.filter (shown ·.1)).mergeSort before).map Prod.fst ↔
      id ∈ levels.map Prod.fst ∧ shown id = true := by
  simp only [mem_map, mem_mergeSort, mem_filter]
  constructor
  · rintro ⟨p, ⟨hp, hshown⟩, rfl⟩
    exact ⟨⟨p, hp, rfl⟩, hshown⟩
  · rintro ⟨⟨p, hp, rfl⟩, hshown⟩
    exact ⟨p, ⟨hp, hshown⟩, rfl⟩

/-- The rows that are needed for something, as the search follows them. -/
def neededLinks (m : FlowModel F) (minSize : ℕ) (id : FlowId F) : List (FlowId F) :=
  (m.outgoing id).filter fun id => minSize ≤ m.filterSize id

theorem mem_neededLinks {minSize : ℕ} :
    row ∈ neededLinks m minSize id ↔ (id, row) ∈ m.edges ∧ minSize ≤ m.filterSize row := by
  rw [neededLinks, mem_filter, decide_eq_true_iff, FlowModel.outgoing, mem_map]
  refine and_congr_left fun _ => ⟨?_, fun h => ⟨(id, row), mem_filter.2 ⟨h, ?_⟩, rfl⟩⟩
  · rintro ⟨e, he, rfl⟩
    obtain ⟨he, heq⟩ := mem_filter.1 he
    rwa [← of_decide_eq_true heq]
  · exact decide_eq_true rfl

theorem needed {minSize : ℕ} (h : Links.ReachedFrom (neededLinks m minSize)
    (m.roots.filter fun id => minSize ≤ m.filterSize id) id) : minSize ≤ m.filterSize id := by
  refine h.mem (P := fun id => minSize ≤ m.filterSize id) ?_ ?_
  · exact fun _ _ row hlink => (mem_neededLinks.1 hlink).2
  · exact fun root hroot => of_decide_eq_true (mem_filter.1 hroot).2

/-- What is drawn is what the rows that are needed for something lead to. -/
theorem mem_nodes (minSize : ℕ) (hhidden : m.sizeFlowHiddenPackages = [])
    (hbyId : m.byId.Nodup) (hroots : m.roots.Nodup) (hinside : ∀ id ∈ m.roots, id ∈ m.byId)
    (hedges : ∀ e ∈ m.edges, e.2 ∈ m.byId) (id : FlowId F) :
    id ∈ (layoutSizeFlow leRow m none minSize).nodes ↔ Links.ReachedFrom (neededLinks m minSize)
      (m.roots.filter fun id => minSize ≤ m.filterSize id) id := by
  have hwithin : LinkSearch.Within (neededLinks m minSize) m.byId []
      (m.roots.filter fun id => minSize ≤ m.filterSize id) :=
    ⟨hbyId, hroots.filter _, fun _ _ => not_mem_nil,
      fun id hid => hinside id (mem_of_mem_filter hid),
      fun _ _ row hlink => hedges _ (mem_neededLinks.1 hlink).1⟩
  have hentered := (search_spec perm_enqueue hwithin le_rfl).entered id
  have hlinks : (Links.avoiding (neededLinks m minSize)
      fun id => decide (id ∈ ([] : List (FlowId F)))) = neededLinks m minSize := by
    funext id
    exact List.filter_eq_self.2 fun _ _ => rfl
  rw [hlinks] at hentered
  rw [layoutSizeFlow]
  simp only [hhidden, contains_nil, Bool.not_false, Bool.and_true]
  rw [mem_sorted fun id => decide (minSize ≤ m.filterSize id), map_flowLevels, ← hentered]
  exact and_iff_left_of_imp fun hid => decide_eq_true (needed (hentered.1 hid))

theorem layout_roots (minSize : ℕ) (hhidden : m.sizeFlowHiddenPackages = []) :
    (layoutSizeFlow leRow m none minSize).roots =
      m.roots.filter fun id => minSize ≤ m.filterSize id := by
  rw [layoutSizeFlow]
  simp only [hhidden, contains_nil, Bool.not_false, Bool.and_true]

theorem rows_spec (packages : Bool) (metric : Metric) :
    (buildSizeFlow le leRow g packages metric).byId.Nodup ∧
    (buildSizeFlow le leRow g packages metric).roots.Nodup ∧
    ∀ id ∈ (buildSizeFlow le leRow g packages metric).roots,
      id ∈ (buildSizeFlow le leRow g packages metric).byId := by
  refine ⟨nodup_newSet _, nodup_newSet _, fun id hid => ?_⟩
  obtain ⟨f, hf, rfl⟩ := mem_map.1 (mem_newSet.1 hid)
  exact (mem_byId le leRow g).2 ⟨f, ((g.active_spec le).entered f).2 (Links.ReachedFrom.start hf),
    rfl⟩

section Drawn

variable {m : FlowModel F} {minSize : ℕ} (hdrawn : ∀ id,
  id ∈ (layoutSizeFlow leRow m none minSize).nodes ↔ Links.ReachedFrom (neededLinks m minSize)
    (m.roots.filter fun id => minSize ≤ m.filterSize id) id)
include hdrawn

/-- The edges on the way to a row that is drawn are drawn. -/
theorem drawn_edges {root : FlowId F}
    (hroot : root ∈ m.roots.filter fun id => minSize ≤ m.filterSize id)
    (hlead : Links.Leads (neededLinks m minSize) root id) :
    Relation.ReflTransGen (fun a b => (a, b) ∈ (layoutSizeFlow leRow m none minSize).edges)
      root id := by
  induction hlead with
  | refl => exact refl
  | tail hlead hlink ih =>
    rename_i a b
    have ha : Links.ReachedFrom (neededLinks m minSize) _ a := ⟨root, hroot, hlead⟩
    refine ih.tail (mem_filter.2 ⟨(mem_neededLinks.1 hlink).1, ?_⟩)
    rw [Bool.and_eq_true, contains_iff_mem, contains_iff_mem]
    exact ⟨(hdrawn a).2 ha, (hdrawn b).2 (ha.step hlink)⟩

/-- A row is drawn where all rows that one of its files was met from are needed. -/
theorem drawn_of_traced {idOf : F → FlowId F} {parents : List (F × F)}
    (hedge : ∀ p ∈ parents, idOf p.2 ≠ idOf p.1 → (idOf p.2, idOf p.1) ∈ m.edges) {u a f : F}
    (hneeded : ∀ a, Relation.ReflTransGen (fun a b => (b, a) ∈ parents) a f →
      minSize ≤ m.filterSize (idOf a)) (hroot : idOf u ∈ m.roots)
    (hua : Relation.ReflTransGen (fun a b => (b, a) ∈ parents) u a)
    (haf : Relation.ReflTransGen (fun a b => (b, a) ∈ parents) a f) :
    idOf a ∈ (layoutSizeFlow leRow m none minSize).nodes := by
  rw [hdrawn]
  induction hua with
  | refl =>
    exact Links.ReachedFrom.start (mem_filter.2 ⟨hroot, decide_eq_true (hneeded u haf)⟩)
  | tail hub hlink ih =>
    rename_i b c
    have hb := ih (haf.head hlink)
    by_cases heq : idOf b = idOf c
    · rwa [← heq]
    · exact hb.step (mem_neededLinks.2 ⟨hedge (c, b) hlink heq, hneeded c haf⟩)

end Drawn

/-- **Filtering keeps paths.**  Where no package is left out, what is drawn at a smallest size has
all rows that are large enough, and beside them just the rows on their paths. -/
theorem flow_kept (packages : Bool) (metric : Metric) (minSize : ℕ)
    (hhidden : (buildSizeFlow le leRow g packages metric).sizeFlowHiddenPackages = []) :
    Kept le g (packages || metric = .count) (buildSizeFlow le leRow g packages metric)
      (layoutSizeFlow leRow (buildSizeFlow le leRow g packages metric) none minSize) minSize := by
  obtain ⟨hbyId, hroots, hinside⟩ := rows_spec le leRow g packages metric
  have hdrawn := mem_nodes leRow minSize hhidden hbyId hroots hinside
    fun e he => edge_rows le leRow g he
  refine ⟨fun id hid hlarge => ?_, fun id hid => ?_, fun id hid hown hremovable => ?_⟩
  · -- the rows that a file of the row was met from, down from a root, are needed for it
    obtain ⟨f, hf, rfl⟩ := (mem_byId le leRow g).1 hid
    obtain ⟨u, hu, htraced⟩ := (g.active_spec le).traced f hf
    refine drawn_of_traced leRow hdrawn (fun p hp => edge_of_parent le leRow g hp) (fun a ha => ?_)
      (mem_newSet.2 (mem_map_of_mem hu)) htraced Relation.ReflTransGen.refl
    have hrow : g.idOf (packages || metric = .count) a ∈
        (buildSizeFlow le leRow g packages metric).byId := by
      refine (mem_byId le leRow g).2 ⟨a, ?_, rfl⟩
      rcases Relation.ReflTransGen.cases_head ha with rfl | ⟨b, hlink, -⟩
      · exact hf
      · exact (idOf_parent le g hlink).2.1
    exact (le_filterSize le leRow g hrow).2 (.inr ⟨_, hid, leads_of_traced le g ha, hlarge⟩)
  · obtain ⟨root, hroot, hlead⟩ := (hdrawn id).1 hid
    rw [layout_roots leRow minSize hhidden]
    exact ⟨root, hroot, (hdrawn root).2 (Links.ReachedFrom.start hroot),
      drawn_edges leRow hdrawn hroot hlead⟩
  · have hreached := (hdrawn id).1 hid
    have hrow : id ∈ (buildSizeFlow le leRow g packages metric).byId :=
      hreached.mem (P := fun id => id ∈ (buildSizeFlow le leRow g packages metric).byId)
        (fun _ _ row hlink => edge_rows le leRow g (mem_neededLinks.1 hlink).1)
        fun root hroot => hinside root (mem_of_mem_filter hroot)
    rcases (le_filterSize le leRow g hrow).1 (needed hreached) with
      hzero | ⟨row, hrow', hlead, hlarge⟩
    · omega
    obtain ⟨f, hf, rfl⟩ := (mem_byId le leRow g).1 hrow
    obtain ⟨u, hu, htraced⟩ := (g.active_spec le).traced f hf
    exact ⟨_, mem_newSet.2 (mem_map_of_mem hu), row, hrow', hlarge,
      metFrom_of_leads le g (leads_of_traced le g htraced), metFrom_of_leads le g hlead⟩

/-- An entry that imports a file, which imports a larger one. -/
def chainGraph : FileGraph ℕ where
  ids := [0, 1, 2]
  files f := ⟨some (1 + 9 * (f / 2 : ℕ)), false⟩
  pkg f := if f = 0 then "own" else "dep"
  links f := if f = 2 then [] else [f + 1]
  entries := [0]
  nodup := by decide
  closed := by decide
  entered := by decide

def chainFlow : FlowModel ℕ :=
  buildSizeFlow (fun a b => decide (a ≤ b)) (fun _ _ => true) chainGraph false .size

theorem flow_kept_chain : chainFlow.sizeFlowHiddenPackages = [] ∧
    Kept (fun a b => decide (a ≤ b)) chainGraph false chainFlow
      (layoutSizeFlow (fun _ _ => true) chainFlow none 10) 10 :=
  ⟨by decide +kernel, flow_kept (fun a b => decide (a ≤ b)) (fun _ _ => true) chainGraph false .size
    10 (by decide +kernel)⟩

end Rows

end Triage.SizeFlow
