import Triage.Workspace.GroupCopies

/-!
# A group split along inputs

Without the App layer a group is split into the connected components of its App findings' inputs,
where these account for every source finding of it, and is left whole otherwise.

## Main results

* `same_tieInputs` : what the inputs of App findings make one.
* `split_of_not`, `together_split` : **when a group is split, and how.**
* `split_perm` : the parts hold the group.
-/

namespace Triage.ReportGroups

open List Option Finding Grouping Relation.EqvGen Prod

variable {I : Type}

/-! ### What is to be split -/

/-- The inputs of an App finding, where they are an array. -/
def Finding.inputList (f : Finding I) : List I :=
  match f.revalidateInputs with
  | .array ids => ids
  | _ => []

/-- Every source finding has an id, the App findings' inputs are among these ids, and all these
ids are inputs. -/
structure Accounted (isString : I → Bool) (sources app : List (Finding I)) : Prop where
  app_ne : app ≠ []
  sources_ne : sources ≠ []
  ids : ∀ f ∈ sources, ∃ id, f.id = some id ∧ isString id = true
  arrays : ∀ f ∈ app, f.revalidateInputs ≠ .other
  inputs : ∀ f ∈ app, ∀ id ∈ f.inputList, ∃ s ∈ sources, s.id = some id
  covered : ∀ s ∈ sources, ∃ f ∈ app, ∃ id ∈ f.inputList, s.id = some id

/-- Two inputs of one App finding. -/
def InputLink (app : List (Finding I)) (id id' : I) : Prop :=
  ∃ f ∈ app, id ∈ f.inputList ∧ id' ∈ f.inputList

def sourcesOf (group : List (Copy I)) : List (Finding I) :=
  (group.filter fun c => !c.first.isApp).map Copy.first

/-- Two source ids in one of some parts. -/
def Together (parts : List (List (Copy I))) (id id' : I) : Prop :=
  ∃ part ∈ parts, id ∈ sourceIdsOf part ∧ id' ∈ sourceIdsOf part

variable {group : List (Copy I)}

theorem mem_sourcesOf {f : Finding I} :
    f ∈ sourcesOf group ↔ ∃ c ∈ group, c.first.isApp = false ∧ c.first = f := by
  simp only [sourcesOf, List.mem_map, mem_filter, Bool.not_eq_true', and_assoc]

theorem mem_sourceIdsOf {id : I} :
    id ∈ sourceIdsOf group ↔ ∃ f ∈ sourcesOf group, f.id = some id := by
  simp only [sourceIdsOf, List.mem_filterMap, mem_filter, Bool.not_eq_true', mem_sourcesOf]
  constructor
  · rintro ⟨c, ⟨hc, happ⟩, hid⟩
    exact ⟨c.first, ⟨c, hc, happ, rfl⟩, hid⟩
  · rintro ⟨f, ⟨c, hc, happ, rfl⟩, hid⟩
    exact ⟨c, ⟨hc, happ⟩, hid⟩

theorem mem_sourceIdsOf_fst {ms : List (Copy I × ℕ)} {id : I} :
    id ∈ sourceIdsOf (ms.map fst) ↔ ∃ m ∈ ms, m.1.first.isApp = false ∧ m.1.first.id = some id := by
  simp only [mem_sourceIdsOf, mem_sourcesOf, List.mem_map]
  constructor
  · rintro ⟨_, ⟨_, ⟨m, hm, rfl⟩, happ, rfl⟩, hid⟩
    exact ⟨m, hm, happ, hid⟩
  · rintro ⟨m, hm, happ, hid⟩
    exact ⟨_, ⟨_, ⟨m, hm, rfl⟩, happ, rfl⟩, hid⟩

theorem sourceIdsOf_perm {group group' : List (Copy I)} (h : group.Perm group') :
    (sourceIdsOf group).Perm (sourceIdsOf group') := (h.filter _).filterMap _

theorem together_singleton {id id' : I} : Together [group] id id' ↔
    id ∈ sourceIdsOf group ∧ id' ∈ sourceIdsOf group := by
  simp [Together]

/-- The copies with an id. -/
def withIds (copies : List (Copy I)) : List (Copy I) := copies.filter fun c => c.first.id.isSome

theorem mem_withIds {copies : List (Copy I)} {c : Copy I} :
    c ∈ withIds copies ↔ c ∈ copies ∧ ∃ id, c.first.id = some id := by
  rw [withIds, mem_filter, isSome_iff_exists]

variable [DecidableEq I]

/-! ### The forest of inputs -/

variable (F : Forest I)

/-- What one App finding's inputs make one. -/
theorem same_tieInputs (ids : List I) (i j : I) :
    (tieInputs F ids).Same i j ↔
      Relation.EqvGen (fun x y => F.Same x y ∨ x ∈ ids ∧ y ∈ ids) i j := by
  cases ids with
  | nil =>
    constructor
    · exact fun h => .rel _ _ (.inl h)
    · exact eqvGen_le (fun x y h => h.resolve_right (by simp)) i j
  | cons first rest =>
    have hfold : tieInputs F (first :: rest) =
        ((first :: rest).map fun id => (F.root first, id)).foldl
          (fun F l => (F.compressPath l.2).link l.1 l.2) (F.compressPath first) := by
      rw [foldl_map]
      rfl
    have hsame : ∀ x y, (F.compressPath first).Same x y ↔ F.Same x y := fun x y => by
      rw [Forest.Same, Forest.Same, Forest.root_compressPath, Forest.root_compressPath]
    rw [hfold, @Forest.same_foldl I _ (Forest I) (fun F => F)
      (fun F l => (F.compressPath l.2).link l.1 l.2) fun F a b i j => by
        simpa [Forest.Same] using (F.compressPath b).same_link a b i j]
    have hroot : F.Same (F.root first) first := F.root_root first
    constructor
    · refine eqvGen_le (fun x y h => ?_) i j
      rcases h with h | h
      · exact .rel _ _ (.inl ((hsame x y).1 h))
      · obtain ⟨id, hid, heq⟩ := List.mem_map.1 h
        obtain ⟨rfl, rfl⟩ := mk.inj heq
        exact .trans _ _ _ (.rel _ _ (.inl hroot)) (.rel _ _ (.inr ⟨by simp, hid⟩))
    · refine eqvGen_le (fun x y h => ?_) i j
      rcases h with h | ⟨hx, hy⟩
      · exact .rel _ _ (.inl ((hsame x y).2 h))
      · have hto : ∀ id ∈ first :: rest, Relation.EqvGen (fun x y =>
            (F.compressPath first).Same x y ∨
              (x, y) ∈ (first :: rest).map fun id => (F.root first, id)) (F.root first) id :=
          fun id hid => .rel _ _ (.inr (List.mem_map_of_mem hid))
        exact ((hto x hx).symm _ _).trans _ _ _ (hto y hy)

/-- What the inputs of all App findings make one. -/
theorem same_inputs (app : List (Finding I)) (i j : I) :
    ((app.map inputList).foldl tieInputs .new).Same i j ↔ Relation.EqvGen (InputLink app) i j := by
  rw [@Forest.same_run I _ (Forest I) (List I) (fun F => F) tieInputs
    (fun ids x y => x ∈ ids ∧ y ∈ ids) same_tieInputs, Forest.eqvGen_same_new]
  have hlink : (fun x y => ∃ ids ∈ app.map inputList, x ∈ ids ∧ y ∈ ids) =
      InputLink app := by
    funext x y
    simp [InputLink]
  rw [hlink]

/-! ### When a group is split -/

theorem mapM_inputsOf {sourceIds : List I} {app : List (Finding I)} {inputs : List (List I)} :
    app.mapM (inputsOf sourceIds) = some inputs ↔
      (∀ f ∈ app, f.revalidateInputs ≠ .other ∧ ∀ id ∈ f.inputList, id ∈ sourceIds) ∧
        inputs = app.map inputList := by
  have hone : ∀ f : Finding I, ∀ ids, inputsOf sourceIds f = some ids ↔
      (f.revalidateInputs ≠ .other ∧ ∀ id ∈ f.inputList, id ∈ sourceIds) ∧ ids = f.inputList := by
    intro f ids
    unfold inputsOf inputList
    cases f.revalidateInputs with
    | absent => simp [eq_comm]
    | other => simp
    | array is => simp [eq_comm]
  induction app generalizing inputs with
  | nil => simp [eq_comm]
  | cons f app ih =>
    rw [mapM_cons]
    simp only [bind_eq_bind, bind_eq_some_iff, Option.pure_def, Option.some.injEq,
      hone, ih, forall_mem_cons, map_cons]
    constructor
    · rintro ⟨_, ⟨hf, rfl⟩, _, ⟨happ, rfl⟩, rfl⟩
      exact ⟨⟨hf, happ⟩, rfl⟩
    · rintro ⟨⟨hf, happ⟩, rfl⟩
      exact ⟨_, ⟨hf, rfl⟩, _, ⟨happ, rfl⟩, rfl⟩

/-- The App findings that a split reads. -/
def appFindingsOf (group : List (Copy I)) (appFindings : Option (List (Finding I))) :
    List (Finding I) :=
  appFindings.getD ((group.filter fun c => c.first.isApp).map Copy.first)

/-- The inputs account for a group, and no App finding that is read apart from it is left in
it. -/
def Splits (isString : I → Bool) (group : List (Copy I))
    (appFindings : Option (List (Finding I))) : Prop :=
  Accounted isString (sourcesOf group) (appFindingsOf group appFindings) ∧
    (appFindings.isSome → ∀ c ∈ group, c.first.isApp = false)

/-- The parts of a group, where it is split. -/
def inputParts (app : List (Finding I)) (group : List (Copy I)) : List (List (Copy I)) :=
  partsOf ((app.map Finding.inputList).foldl tieInputs .new) group

variable {isString : I → Bool} {group : List (Copy I)} {appFindings : Option (List (Finding I))}

/-- A group is split into its parts where its inputs account for it, and is left whole
otherwise. -/
theorem split_cases :
    Splits isString group appFindings ∧ splitRevalidationInputs isString group appFindings =
        (if (inputParts (appFindingsOf group appFindings) group).length = 1 then [group]
          else inputParts (appFindingsOf group appFindings) group) ∨
      ¬Splits isString group appFindings ∧
        splitRevalidationInputs isString group appFindings = [group] := by
  unfold splitRevalidationInputs
  rw [← appFindingsOf]
  dsimp only
  by_cases hempty : appFindingsOf group appFindings = [] ∨
      (group.filter fun c => !c.first.isApp) = []
  · rw [if_pos hempty]
    refine .inr ⟨fun h => ?_, rfl⟩
    rcases hempty with hempty | hempty
    · exact h.1.app_ne hempty
    · exact h.1.sources_ne (by rw [sourcesOf, hempty]; rfl)
  rw [if_neg hempty]
  by_cases happ : appFindings.isSome ∧ ∃ c ∈ group, c.first.isApp
  · rw [if_pos happ]
    obtain ⟨hsome, c, hc, hcapp⟩ := happ
    exact .inr ⟨fun h => absurd (h.2 hsome c hc) (by simp [hcapp]), rfl⟩
  rw [if_neg happ]
  by_cases hids : ∃ c ∈ group.filter fun c => !c.first.isApp, c.first.id.any isString = false
  · rw [if_pos hids]
    obtain ⟨c, hc, hcid⟩ := hids
    obtain ⟨hc, hcapp⟩ := mem_filter.1 hc
    refine .inr ⟨fun h => ?_, rfl⟩
    obtain ⟨id, hid, hstring⟩ := h.1.ids c.first
      (mem_sourcesOf.2 ⟨c, hc, by simpa using hcapp, rfl⟩)
    rw [hid, any_some, hstring] at hcid
    cases hcid
  rw [if_neg hids]
  cases hinputs : (appFindingsOf group appFindings).mapM (inputsOf (sourceIdsOf group)) with
  | none =>
    refine .inr ⟨fun h => ?_, rfl⟩
    have hsome := mapM_inputsOf.2 ⟨fun f hf => ⟨h.1.arrays f hf, fun id hid =>
      mem_sourceIdsOf.2 (h.1.inputs f hf id hid)⟩, rfl⟩
    rw [hinputs] at hsome
    cases hsome
  | some inputs =>
    obtain ⟨hall, rfl⟩ := mapM_inputsOf.1 hinputs
    have hsub : ((appFindingsOf group appFindings).map inputList).flatten ⊆
        sourceIdsOf group := by
      intro id hid
      obtain ⟨ids, hmem, hid⟩ := mem_flatten.1 hid
      obtain ⟨f, hf, rfl⟩ := List.mem_map.1 hmem
      exact (hall f hf).2 id hid
    by_cases hlength : ((appFindingsOf group appFindings).map
        inputList).flatten.eraseDups.length ≠ (sourceIdsOf group).eraseDups.length
    · dsimp only
      rw [if_pos hlength]
      refine .inr ⟨fun h => hlength ((length_eraseDups_eq_iff hsub).2 fun id hid => ?_), rfl⟩
      obtain ⟨s, hs, hsid⟩ := mem_sourceIdsOf.1 hid
      obtain ⟨f, hf, id', hid', heq⟩ := h.1.covered s hs
      obtain rfl := some.inj (hsid.symm.trans heq)
      exact mem_flatten.2 ⟨_, List.mem_map_of_mem hf, hid'⟩
    · dsimp only
      rw [if_neg hlength]
      have hcover := (length_eraseDups_eq_iff hsub).1 (not_not.1 hlength)
      push Not at hempty happ hids
      refine .inl ⟨⟨⟨hempty.1, fun hnil => hempty.2 (map_eq_nil_iff.1 hnil), ?_,
        fun f hf => (hall f hf).1, fun f hf id hid => mem_sourceIdsOf.1 ((hall f hf).2 id hid),
        ?_⟩, fun hsome c hc => by simpa using happ hsome c hc⟩, rfl⟩
      · intro f hf
        obtain ⟨c, hc, hcapp, rfl⟩ := mem_sourcesOf.1 hf
        have hstring := hids c (mem_filter.2 ⟨hc, by simp [hcapp]⟩)
        simpa [Option.any_eq_true] using hstring
      · intro s hs
        obtain ⟨c, hc, hcapp, rfl⟩ := mem_sourcesOf.1 hs
        have hstring := hids c (mem_filter.2 ⟨hc, by simp [hcapp]⟩)
        rw [ne_eq, Bool.not_eq_false, Option.any_eq_true] at hstring
        obtain ⟨id, hid, -⟩ := hstring
        obtain ⟨ids, hmem, hidmem⟩ := mem_flatten.1
          (hcover (mem_sourceIdsOf.2 ⟨c.first, hs, hid⟩))
        obtain ⟨f, hf, rfl⟩ := List.mem_map.1 hmem
        exact ⟨f, hf, id, hidmem, hid⟩

/-! ### The parts -/

theorem flatten_partsOf_perm (group : List (Copy I)) : (partsOf F group).flatten.Perm group := by
  have hgroups : (partsOf F group).flatten =
      ((groupBy (partOf F) group.zipIdx).flatMap snd).map fst := by
    rw [partsOf, map_flatMap, flatMap_def]
  rw [hgroups]
  have hzip : group.zipIdx.map fst = group := by simp
  exact ((flatMap_groupBy_perm group.zipIdx).map fst).trans (.of_eq hzip)

theorem partOf_source {F : Forest I} {m : Copy I × ℕ} {id : I} (happ : m.1.first.isApp = false)
    (hid : m.1.first.id = some id) : partOf F m = .inl (some (F.root id)) := by
  rw [partOf, happ, hid]
  rfl

/-- Two source ids are in one part if they have one root. -/
theorem together_partsOf (id id' : I) : Together (partsOf F group) id id' ↔
    id ∈ sourceIdsOf group ∧ id' ∈ sourceIdsOf group ∧ F.Same id id' := by
  have hzip : group.zipIdx.map fst = group := by simp
  constructor
  · rintro ⟨part, hmempart, hid, hid'⟩
    obtain ⟨p, hp, rfl⟩ := List.mem_map.1 hmempart
    obtain ⟨m, hm, happ, hmid⟩ := mem_sourceIdsOf_fst.1 hid
    obtain ⟨m', hm', happ', hmid'⟩ := mem_sourceIdsOf_fst.1 hid'
    obtain ⟨hin, hin', hkey⟩ := exists_mem_groupBy.1 ⟨p, hp, hm, hm'⟩
    rw [partOf_source happ hmid, partOf_source happ' hmid'] at hkey
    refine ⟨?_, ?_, some.inj (Sum.inl.inj hkey)⟩
    · rw [← hzip]
      exact mem_sourceIdsOf_fst.2 ⟨m, hin, happ, hmid⟩
    · rw [← hzip]
      exact mem_sourceIdsOf_fst.2 ⟨m', hin', happ', hmid'⟩
  · rintro ⟨hid, hid', hsame⟩
    rw [← hzip] at hid hid'
    obtain ⟨m, hm, happ, hmid⟩ := mem_sourceIdsOf_fst.1 hid
    obtain ⟨m', hm', happ', hmid'⟩ := mem_sourceIdsOf_fst.1 hid'
    have hkey : partOf F m = partOf F m' := by
      rw [partOf_source happ hmid, partOf_source happ' hmid']
      exact congrArg (fun root => Sum.inl (some root)) hsame
    obtain ⟨p, hp, hm, hm'⟩ := exists_mem_groupBy.2 ⟨hm, hm', hkey⟩
    exact ⟨_, List.mem_map_of_mem hp, mem_sourceIdsOf_fst.2 ⟨m, hm, happ, hmid⟩,
      mem_sourceIdsOf_fst.2 ⟨m', hm', happ', hmid'⟩⟩

/-- No source id is in two parts. -/
theorem partsOf_pairwise (group : List (Copy I)) :
    (partsOf F group).Pairwise fun part part' =>
      ∀ id ∈ sourceIdsOf part, id ∉ sourceIdsOf part' := by
  have hkeys := @Grouping.nodup_keys_collect _ _ _ _ (partOf F) (fun m => [m])
    (fun m group => group ++ [m]) group.zipIdx
  rw [partsOf, pairwise_map]
  refine (pairwise_map.1 hkeys).imp_of_mem fun {p q} hp hq hne id hid hid' => hne ?_
  obtain ⟨m, hm, happ, hmid⟩ := mem_sourceIdsOf_fst.1 hid
  obtain ⟨m', hm', happ', hmid'⟩ := mem_sourceIdsOf_fst.1 hid'
  rw [(eq_filter_of_mem hp).1, mem_filter, decide_eq_true_eq] at hm
  rw [(eq_filter_of_mem hq).1, mem_filter, decide_eq_true_eq] at hm'
  rw [partOf_source happ hmid] at hm
  rw [partOf_source happ' hmid'] at hm'
  exact hm.2.symm.trans hm'.2

/-- **How a group is split**: into the components of its inputs. -/
theorem together_split (h : Splits isString group appFindings) {id id' : I}
    (hid : id ∈ sourceIdsOf group) (hid' : id' ∈ sourceIdsOf group) :
    Together (splitRevalidationInputs isString group appFindings) id id' ↔
      Relation.EqvGen (InputLink (appFindingsOf group appFindings)) id id' := by
  have hparts : Together (inputParts (appFindingsOf group appFindings) group) id id' ↔
      Relation.EqvGen (InputLink (appFindingsOf group appFindings)) id id' := by
    rw [inputParts, together_partsOf, and_iff_right hid, and_iff_right hid', same_inputs]
  rcases @split_cases I _ isString group appFindings with ⟨-, hsplit⟩ | ⟨hnot, -⟩
  · rw [hsplit]
    split_ifs with hone
    · -- the one part holds the whole group
      obtain ⟨part, hpart⟩ := length_eq_one_iff.1 hone
      have hperm : part.Perm group := by
        have hflatten := flatten_partsOf_perm
          (((appFindingsOf group appFindings).map inputList).foldl tieInputs .new) group
        rw [← inputParts, hpart] at hflatten
        simpa using hflatten
      rw [← hparts, hpart, together_singleton, together_singleton,
        (sourceIdsOf_perm hperm).mem_iff, (sourceIdsOf_perm hperm).mem_iff]
    · exact hparts
  · exact absurd h hnot

theorem split_of_not (h : ¬Splits isString group appFindings) :
    splitRevalidationInputs isString group appFindings = [group] :=
  split_cases.elim (fun hs => absurd hs.1 h) And.right

/-- The parts hold the group. -/
theorem split_perm : (splitRevalidationInputs isString group appFindings).flatten.Perm group := by
  rcases @split_cases I _ isString group appFindings with ⟨-, hsplit⟩ | ⟨-, hsplit⟩
  · rw [hsplit]
    split_ifs
    · simp
    · exact flatten_partsOf_perm _ _
  · simp [hsplit]

/-! ### The upstream lens -/

theorem split_pairwise : (splitRevalidationInputs isString group appFindings).Pairwise
    fun part part' => ∀ id ∈ sourceIdsOf part, id ∉ sourceIdsOf part' := by
  rcases @split_cases I _ isString group appFindings with ⟨-, hsplit⟩ | ⟨-, hsplit⟩
  · rw [hsplit]
    split_ifs
    · exact pairwise_singleton _ _
    · exact partsOf_pairwise _ _
  · rw [hsplit]
    exact pairwise_singleton _ _

section Upstream

/-- The complete rows of a component, as copies. -/
def completeOf (component : List (Row I)) : List (Copy I) :=
  (component.flatMap Row.sourceGroup).map fun f => ⟨f, []⟩

/-- The copies of a group whose ids are of a partition's source findings. -/
def visibleIn (group partition : List (Copy I)) : List (Copy I) :=
  group.filter fun c => ∃ id ∈ sourceIdsOf partition, c.first.id = some id

theorem mem_visibleIn {partition : List (Copy I)} {c : Copy I} :
    c ∈ visibleIn group partition ↔
      c ∈ group ∧ ∃ id ∈ sourceIdsOf partition, c.first.id = some id := by
  rw [visibleIn, mem_filter, decide_eq_true_eq]

/-- The visible copies of each partition, where there are any. -/
def projectedOf (group : List (Copy I)) (partitions : List (List (Copy I))) :
    List (List (Copy I)) :=
  (partitions.map (visibleIn group)).filter (· ≠ [])

variable {partitions : List (List (Copy I))}

theorem mem_flatten_projectedOf {c : Copy I} :
    c ∈ (projectedOf group partitions).flatten ↔ c ∈ group ∧
      ∃ id, c.first.id = some id ∧ id ∈ sourceIdsOf partitions.flatten := by
  have hflat : ∀ id, id ∈ sourceIdsOf partitions.flatten ↔
      ∃ partition ∈ partitions, id ∈ sourceIdsOf partition := by
    intro id
    simp only [mem_sourceIdsOf, mem_sourcesOf, mem_flatten]
    constructor
    · rintro ⟨f, ⟨c, ⟨partition, hp, hc⟩, hf⟩, hid⟩
      exact ⟨partition, hp, f, ⟨c, hc, hf⟩, hid⟩
    · rintro ⟨partition, hp, f, ⟨c, hc, hf⟩, hid⟩
      exact ⟨f, ⟨c, ⟨partition, hp, hc⟩, hf⟩, hid⟩
  simp only [projectedOf, mem_flatten, mem_filter, List.mem_map, decide_eq_true_eq, hflat]
  constructor
  · rintro ⟨_, ⟨⟨partition, hp, rfl⟩, -⟩, hc⟩
    obtain ⟨hc, id, hid, hcid⟩ := mem_visibleIn.1 hc
    exact ⟨hc, id, hcid, partition, hp, hid⟩
  · rintro ⟨hc, id, hcid, partition, hp, hid⟩
    have hvisible := mem_visibleIn.2 ⟨hc, id, hid, hcid⟩
    exact ⟨_, ⟨⟨partition, hp, rfl⟩, ne_nil_of_mem hvisible⟩, hvisible⟩

/-- Where every id of a group is of some partition, each copy with an id is visible in one. -/
theorem flatten_projectedOf_perm (hfolds : Folds group)
    (hapart : partitions.Pairwise fun part part' => ∀ id ∈ sourceIdsOf part, id ∉ sourceIdsOf part')
    (hcovered : ∀ id ∈ idsOf group, id ∈ sourceIdsOf partitions.flatten) :
    (projectedOf group partitions).flatten.Perm (withIds group) := by
  have hnodup : ∀ copies : List (Copy I), copies.Sublist group →
      (∀ c ∈ copies, ∃ id, c.first.id = some id) → copies.Nodup := fun copies hsub hids =>
    (hfolds.sublist hsub).nodup_of_ids fun c hc => isSome_iff_exists.2 (hids c hc)
  refine (perm_ext_iff_of_nodup (nodup_flatten.2 ⟨?_, ?_⟩) ?_).2 fun c => ?_
  · intro part hpart
    obtain ⟨partition, -, rfl⟩ := List.mem_map.1 (mem_filter.1 hpart).1
    refine hnodup _ filter_sublist fun c hc => ?_
    obtain ⟨-, id, -, hid⟩ := mem_visibleIn.1 hc
    exact ⟨id, hid⟩
  · refine List.Pairwise.filter _ (pairwise_map.2 (hapart.imp fun {part part'} hne => ?_))
    intro c hc hc'
    obtain ⟨-, id, hid, hcid⟩ := mem_visibleIn.1 hc
    obtain ⟨-, id', hid', hcid'⟩ := mem_visibleIn.1 hc'
    obtain rfl := some.inj (hcid.symm.trans hcid')
    exact hne id hid hid'
  · exact hnodup _ filter_sublist fun c hc => (mem_withIds.1 hc).2
  · rw [mem_flatten_projectedOf, mem_withIds]
    refine and_congr_right fun hc => exists_congr fun id => and_iff_left_of_imp fun hid => ?_
    exact hcovered id (mem_idsOf.2 ⟨c, hc, hid⟩)

/-- The upstream lens splits a group by the partitions of its complete rows, where every id of the
group is of a source finding of these. -/
theorem splitOutput_upstream {lens : Lens} {component : List (Row I)}
    (hs : lens.showRevalidation = false) (hu : lens.upstreamOnly = true) :
    splitOutput isString lens component group =
      if (splitRevalidationInputs isString (completeOf component) none).length ≠ 1 ∧
          ∀ id ∈ idsOf group, id ∈ sourceIdsOf (completeOf component) then
        projectedOf group (splitRevalidationInputs isString (completeOf component) none)
      else [group] := by
  have hperm := @split_perm I _ isString (completeOf component) none
  have hunfold : splitOutput isString lens component group =
      if (splitRevalidationInputs isString (completeOf component) none).length = 1 then [group]
      else if (idsOf (projectedOf group (splitRevalidationInputs isString (completeOf component)
          none)).flatten).eraseDups.length = (idsOf group).eraseDups.length then
        projectedOf group (splitRevalidationInputs isString (completeOf component) none)
      else [group] := by
    rw [splitOutput, hs, hu]
    rfl
  have hcovered : (idsOf (projectedOf group (splitRevalidationInputs isString
      (completeOf component) none)).flatten).eraseDups.length = (idsOf group).eraseDups.length ↔
        ∀ id ∈ idsOf group, id ∈ sourceIdsOf (completeOf component) := by
    have hmem : ∀ id, id ∈ idsOf (projectedOf group (splitRevalidationInputs isString
        (completeOf component) none)).flatten ↔
          id ∈ idsOf group ∧ id ∈ sourceIdsOf (completeOf component) := by
      intro id
      simp only [mem_idsOf, mem_flatten_projectedOf, (sourceIdsOf_perm hperm).mem_iff]
      constructor
      · rintro ⟨c, ⟨hc, id', hid', hmem⟩, hid⟩
        obtain rfl := some.inj (hid.symm.trans hid')
        exact ⟨⟨c, hc, hid⟩, hmem⟩
      · rintro ⟨⟨c, hc, hid⟩, hmem⟩
        exact ⟨c, ⟨hc, id, hid, hmem⟩, hid⟩
    rw [length_eraseDups_eq_iff fun id hid => ((hmem id).1 hid).1]
    exact forall₂_congr fun id hid => (hmem id).trans (and_iff_right hid)
  rw [hunfold]
  by_cases hone : (splitRevalidationInputs isString (completeOf component) none).length = 1
  · rw [if_pos hone, if_neg fun h => h.1 hone]
  · rw [if_neg hone]
    by_cases hall : ∀ id ∈ idsOf group, id ∈ sourceIdsOf (completeOf component)
    · rw [if_pos (hcovered.2 hall), if_pos ⟨hone, hall⟩]
    · rw [if_neg fun h => hall (hcovered.1 h), if_neg fun h => hall h.2]

end Upstream

end Triage.ReportGroups
