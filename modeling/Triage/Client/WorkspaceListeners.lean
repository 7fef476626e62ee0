import Mathlib.Data.List.Nodup
import Triage.Client.Workspaces

/-!
# Workspace listeners

An operation marks what it changed as observed after it released its lock, from the list that it
left there. What a tab has observed is the stored list then, unless it took in a sibling's change
of the same workspace between: that one is marked over.

## Main results

* `listeners_miss_no_change` : what is observed is what is stored, and every difference was told.
-/

namespace Triage.Client

open List Option

variable {l l' : List Snapshot} {list list' : List Workspace} {w : Workspace} {id : String}

/-! ### Marking -/

/-- What is observed once an operation has marked what it changed. -/
def observe : Marking → List Snapshot → List Snapshot
  | .created w, l | .upserted w, l | .attached w, l => markObservedFor w l
  | .deleted id, l => markObservedDeleted id l
  | .membership field affected, l => affected.foldl (fun l w => markObservedFieldFor field w l) l

/-- What is observed once all the operations that are past their locks went on. -/
def observeAll (after : List Marking) (l : List Snapshot) : List Snapshot :=
  after.foldl (fun l m => observe m l) l

theorem lastSeen_mark (s : WorkspacesTab) (m : Marking) :
    (s.mark m).lastSeen = observe m s.lastSeen := by
  cases m <;> rfl

theorem seen_filter (id' : String) :
    seen (l.filter (·.id ≠ id')) id = if id = id' then none else seen l id := by
  rw [seen, find?_filter]
  by_cases hid : id = id'
  · rw [if_pos hid, find?_eq_none]
    intro s hs
    simp only [decide_eq_true_eq]
    rintro ⟨hne, heq⟩
    exact hne (heq.trans hid)
  · rw [if_neg hid, seen]
    congr 1
    funext s
    by_cases hs : s.id = id
    · simp [hs, hid]
    · simp [hs]

theorem seen_append_singleton (s : Snapshot) :
    seen (l ++ [s]) id = (seen l id).or (if s.id = id then some s else none) := by
  rw [seen, find?_append, seen]
  congr 1
  by_cases hs : s.id = id
  · simp [hs]
  · simp [hs]

theorem seen_markObservedFor :
    seen (markObservedFor w l) id = if id = w.id then some (snapshotForCache w) else seen l id := by
  rw [markObservedFor, seen_append_singleton, seen_filter]
  by_cases hid : id = w.id
  · subst hid
    rw [if_pos rfl, if_pos rfl]
    exact if_pos rfl
  · rw [if_neg hid, if_neg hid, if_neg fun h => hid h.symm, or_none]

theorem seen_map (f : Snapshot → Snapshot) (hf : ∀ s, (f s).id = s.id) :
    seen (l.map f) id = (seen l id).map f := by
  rw [seen, seen, find?_map]
  congr 2
  funext s
  simp only [Function.comp, hf]

variable (field : Field) (f : Workspace → Workspace) (p : Snapshot) (files : List String)

theorem id_setSnapshot (s : Snapshot) : (field.setSnapshot files s).id = s.id := by
  cases field <;> rfl

theorem id_of_seen {s : Snapshot} (h : seen l id = some s) : s.id = id ∧ s ∈ l :=
  ⟨by simpa using find?_some h, mem_of_find?_eq_some h⟩

theorem any_iff_seen : l.any (·.id = id) = (seen l id).isSome := by
  rw [seen, Bool.eq_iff_iff, find?_isSome, List.any_eq_true]

theorem seen_markObservedFieldFor :
    seen (markObservedFieldFor field w l) id = if id = w.id then
      some (((seen l id).map (field.setSnapshot (field.get w))).getD (snapshotForCache w))
    else seen l id := by
  have hmap : seen
      (l.map fun s => if s.id = w.id then field.setSnapshot (field.get w) s else s) id =
      (seen l id).map fun s => if s.id = w.id then field.setSnapshot (field.get w) s else s := by
    refine seen_map _ fun s => ?_
    split
    · exact id_setSnapshot field _ s
    · rfl
  rw [markObservedFieldFor, any_iff_seen]
  by_cases hid : id = w.id
  · subst hid
    rw [if_pos rfl]
    cases hs : seen l w.id with
    | none =>
      rw [if_neg (by simp), seen_append_singleton, hs]
      exact if_pos rfl
    | some s =>
      simp only [isSome_some, if_true]
      rw [hmap, hs, map_some, if_pos (id_of_seen hs).1]
      rfl
  · rw [if_neg hid]
    split
    · rw [hmap]
      cases hs : seen l id with
      | none => rfl
      | some s =>
        rw [map_some, if_neg fun h => hid ((id_of_seen hs).1.symm.trans h)]
    · have hne : (snapshotForCache w).id ≠ id := fun h => hid h.symm
      rw [seen_append_singleton, if_neg hne, or_none]

/-- What is observed of one workspace is marked by what was observed of it. -/
theorem seen_observe_congr (m : Marking) (h : ∀ id, seen l id = seen l' id) :
    ∀ id, seen (observe m l) id = seen (observe m l') id := by
  intro id
  cases m with
  | created w =>
    rw [observe, observe, seen_markObservedFor, seen_markObservedFor, h]
  | deleted id' =>
    rw [observe, observe, markObservedDeleted, markObservedDeleted, seen_filter, seen_filter, h]
  | upserted w =>
    rw [observe, observe, seen_markObservedFor, seen_markObservedFor, h]
  | attached w =>
    rw [observe, observe, seen_markObservedFor, seen_markObservedFor, h]
  | membership field affected =>
    rw [observe, observe]
    induction affected generalizing l l' with
    | nil => exact h id
    | cons w affected ih =>
      refine ih fun id => ?_
      rw [seen_markObservedFieldFor, seen_markObservedFieldFor, h]

/-! ### Mutators -/

def ids (list : List Workspace) : List String := list.map (·.id)

theorem seen_snapshots : seen (list.map snapshotForCache) id =
    (find list id).map snapshotForCache := by
  rw [seen, find?_map, find]
  rfl

theorem any_iff_find : list.any (·.id = id) = (find list id).isSome := by
  rw [find, Bool.eq_iff_iff, find?_isSome, List.any_eq_true]

theorem seen_snapshots_append (w : Workspace) :
    seen ((list ++ [w]).map snapshotForCache) id =
      (seen (list.map snapshotForCache) id).or
        (if w.id = id then some (snapshotForCache w) else none) := by
  rw [map_append, map_singleton, seen_append_singleton]
  rfl

theorem seen_eq_none (h : list.any (·.id = id) = false) :
    seen (list.map snapshotForCache) id = none := by
  rw [seen_snapshots, find, find?_eq_none.2, map_none]
  intro w hw
  exact List.any_eq_false.1 h w hw

/-- A workspace that is not there is added to the list. -/
theorem seen_added (h : list.any (·.id = w.id) = false) (id : String) :
    seen ((list ++ [w]).map snapshotForCache) id =
      seen (markObservedFor w (list.map snapshotForCache)) id := by
  rw [seen_snapshots_append, seen_markObservedFor]
  by_cases hid : id = w.id
  · subst hid
    rw [if_pos rfl, if_pos rfl, seen_eq_none h]
    rfl
  · rw [if_neg hid, if_neg fun h => hid h.symm, or_none]

theorem nodup_added (hnodup : (ids list).Nodup) (h : list.any (·.id = w.id) = false) :
    (ids (list ++ [w])).Nodup := by
  rw [ids, map_append, map_singleton, nodup_append]
  refine ⟨hnodup, nodup_singleton _, ?_⟩
  intro a ha b hb heq
  rw [mem_singleton] at hb
  obtain ⟨v, hv, rfl⟩ := List.mem_map.1 ha
  exact List.any_eq_false.1 h v hv (decide_eq_true (heq.trans hb))

theorem find_map (hf : ∀ w, (f w).id = w.id) : find (list.map f) id = (find list id).map f := by
  rw [find, find, find?_map]
  congr 2
  funext w
  simp only [Function.comp, hf]

theorem ids_map (hf : ∀ w, (f w).id = w.id) : ids (list.map f) = ids list := by
  rw [ids, ids, List.map_map]
  congr 1
  funext w
  exact hf w

theorem id_of_find (h : find list id = some w) : w.id = id ∧ w ∈ list :=
  ⟨by simpa using find?_some h, mem_of_find?_eq_some h⟩

/-- What a mutator leaves is what its operation marks, over the list that it found. -/
structure Marks (list list' : List Workspace) (m : Marking) : Prop where
  nodup : (ids list').Nodup
  seen : ∀ id, seen (list'.map snapshotForCache) id =
    seen (observe m (list.map snapshotForCache)) id

theorem marks_create (hnodup : (ids list).Nodup) {m : Marking}
    (h : createMutator w list = some (list', m)) : Marks list list' m := by
  obtain ⟨hany, h⟩ := ite_none_left_eq_some.1 h
  cases h
  exact ⟨nodup_added hnodup (Bool.eq_false_iff.2 hany), seen_added (Bool.eq_false_iff.2 hany)⟩

theorem marks_delete (hnodup : (ids list).Nodup) {m : Marking}
    (h : deleteMutator id list = some (list', m)) : Marks list list' m := by
  obtain ⟨-, h⟩ := ite_none_right_eq_some.1 h
  cases h
  refine ⟨hnodup.sublist (filter_sublist.map _), fun id' => ?_⟩
  have hmap : (list.filter (·.id ≠ id)).map snapshotForCache =
      markObservedDeleted id (list.map snapshotForCache) := by
    rw [markObservedDeleted, List.filter_map]
    rfl
  rw [hmap]
  rfl

theorem ids_put (next : Workspace) :
    ids (put list next) =
      if list.any (·.id = next.id) then ids list else ids list ++ [next.id] := by
  rw [put]
  split
  · refine ids_map _ fun w => ?_
    split
    · rename_i h
      exact h.symm
    · rfl
  · rw [ids, map_append]
    rfl

theorem marks_upsert (hnodup : (ids list).Nodup) {u : Upsert} {m : Marking}
    (h : upsertMutator u list = some (list', m)) : Marks list list' m := by
  obtain ⟨rfl, rfl⟩ := Prod.mk.inj (some.inj h)
  generalize u.next (find list u.id) = next
  by_cases hany : list.any (·.id = next.id) = true
  · refine ⟨by rwa [ids_put, if_pos hany], fun id => ?_⟩
    have hmap : seen ((put list next).map snapshotForCache) id =
        (find list id).map fun w => snapshotForCache (if w.id = next.id then next else w) := by
      rw [seen_snapshots, put, if_pos hany, find_map, Option.map_map]
      · rfl
      · intro w
        split
        · rename_i h
          exact h.symm
        · rfl
    rw [hmap, observe, seen_markObservedFor, seen_snapshots]
    by_cases hid : id = next.id
    · subst hid
      rw [if_pos rfl]
      cases hw : find list next.id with
      | none =>
        have hsome : list.any (·.id = next.id) = (find list next.id).isSome := any_iff_find
        rw [hany, hw] at hsome
        cases hsome
      | some w => rw [map_some, if_pos (id_of_find hw).1]
    · rw [if_neg hid]
      cases hw : find list id with
      | none => rfl
      | some w =>
        rw [map_some, if_neg fun h => hid ((id_of_find hw).1.symm.trans h), map_some]
  · have hput : put list next = list ++ [next] := if_neg hany
    rw [hput]
    exact ⟨nodup_added hnodup (Bool.eq_false_iff.2 hany), seen_added (Bool.eq_false_iff.2 hany)⟩

theorem marks_attach (hnodup : (ids list).Nodup) {name privateKey : String} {createdAt : ℕ}
    {m : Marking} (h : attachMutator id name privateKey createdAt list = some (list', m)) :
    Marks list list' m := by
  obtain ⟨sanitised, -, h⟩ := bind_eq_some_iff.1 h
  obtain ⟨hany, h⟩ := ite_none_left_eq_some.1 h
  cases h
  rw [Bool.or_eq_true, not_or] at hany
  have hid := Bool.eq_false_iff.2 hany.1
  exact ⟨nodup_added hnodup hid, seen_added hid⟩

/-! ### Memberships -/

theorem id_set (w : Workspace) : (field.set files w).id = w.id := by
  cases field <;> rfl

theorem snapshot_set (w : Workspace) :
    snapshotForCache (field.set files w) = field.setSnapshot files (snapshotForCache w) := by
  cases field <;> rfl

theorem get_set (w : Workspace) : field.get (field.set files w) = files := by
  cases field <;> rfl

theorem setSnapshot_setSnapshot (a b : List String) (s : Snapshot) :
    field.setSnapshot b (field.setSnapshot a s) = field.setSnapshot b s := by
  cases field <;> rfl

namespace Membership

variable (m : Membership)

/-- What a change of a membership makes of a workspace. -/
def moved (w : Workspace) : Workspace := m.attach (m.detach w)

def affects (w : Workspace) : Bool := m.detaches w || m.attaches (m.detach w)

theorem id_detach (w : Workspace) : (m.detach w).id = w.id := by
  rw [detach]
  split
  · exact id_set _ _ _
  · rfl

theorem id_attach (w : Workspace) : (m.attach w).id = w.id := by
  rw [attach]
  split
  · exact id_set _ _ _
  · rfl

theorem id_moved (w : Workspace) : (m.moved w).id = w.id :=
  (m.id_attach _).trans (m.id_detach w)

theorem moved_of_not_affects (h : m.affects w = false) : m.moved w = w := by
  rw [affects, Bool.or_eq_false_iff] at h
  have hdetach : m.detach w = w := by rw [detach, h.1, if_neg Bool.false_ne_true]
  rw [moved, attach, h.2, if_neg Bool.false_ne_true, hdetach]

/-- Only the field changes. -/
theorem snapshot_moved (w : Workspace) : snapshotForCache (m.moved w) =
    m.field.setSnapshot (m.field.get (m.moved w)) (snapshotForCache w) := by
  have hself : ∀ w, m.field.setSnapshot (m.field.get w) (snapshotForCache w) =
      snapshotForCache w := by
    intro w
    cases m.field <;> rfl
  have hdetach : snapshotForCache (m.detach w) =
      m.field.setSnapshot (m.field.get (m.detach w)) (snapshotForCache w) := by
    rw [detach]
    split
    · rw [snapshot_set, get_set]
    · exact (hself w).symm
  rw [moved, attach]
  split
  · rw [snapshot_set, get_set, hdetach, setSnapshot_setSnapshot]
  · exact hdetach

/-- A change leaves the list with the affected workspaces moved. -/
theorem apply_eq_some {affected : List Workspace} (h : m.apply list = some (list', affected)) :
    list' = list.map m.moved ∧
      ∀ w, w ∈ affected ↔ ∃ v ∈ list, m.affects v = true ∧ m.moved v = w := by
  obtain ⟨-, h⟩ := ite_none_left_eq_some.1 h
  obtain ⟨-, h⟩ := ite_none_left_eq_some.1 h
  obtain ⟨-, h⟩ := ite_none_left_eq_some.1 h
  obtain ⟨rfl, rfl⟩ := Prod.mk.inj (some.inj h)
  refine ⟨rfl, fun w => ?_⟩
  simp only [List.mem_map, mem_append, mem_filter, affects, moved]
  constructor
  · rintro ⟨v, ⟨hv, hd⟩ | ⟨hv, ha⟩, rfl⟩
    · exact ⟨v, hv, by rw [hd, Bool.true_or], rfl⟩
    · rw [Bool.and_eq_true] at ha
      exact ⟨v, hv, by rw [ha.2, Bool.or_true], rfl⟩
  · rintro ⟨v, hv, ha, rfl⟩
    cases hd : m.detaches v with
    | true => exact ⟨v, .inl ⟨hv, hd⟩, rfl⟩
    | false =>
      rw [hd, Bool.false_or] at ha
      exact ⟨v, .inr ⟨hv, by rw [hd, ha]; rfl⟩, rfl⟩

end Membership

/-- Marking a field of some workspaces leaves the others as they are observed. -/
theorem seen_fields_of_ne {affected : List Workspace} (h : ∀ w ∈ affected, id ≠ w.id) :
    seen (affected.foldl (fun l w => markObservedFieldFor field w l) l) id = seen l id := by
  induction affected generalizing l with
  | nil => rfl
  | cons w affected ih =>
    rw [foldl_cons, ih fun v hv => h v (mem_cons_of_mem _ hv),
      seen_markObservedFieldFor, if_neg (h w mem_cons_self)]

theorem seen_fields_of_mem {affected : List Workspace} {files : List String}
    {p : Snapshot} (hp : seen l id = some p) (hw : ∃ w ∈ affected, id = w.id)
    (hfiles : ∀ w ∈ affected, id = w.id → field.get w = files) :
    seen (affected.foldl (fun l w => markObservedFieldFor field w l) l) id =
      some (field.setSnapshot files p) := by
  induction affected generalizing l p with
  | nil =>
    obtain ⟨_, hmem, _⟩ := hw
    cases hmem
  | cons w affected ih =>
    have hfiles' := fun v hv => hfiles v (mem_cons_of_mem w hv)
    by_cases hid : id = w.id
    · have hp' : seen (markObservedFieldFor field w l) id = some (field.setSnapshot files p) := by
        rw [seen_markObservedFieldFor, if_pos hid, hp, hfiles w mem_cons_self hid]
        rfl
      rw [foldl_cons]
      by_cases hrest : ∃ w ∈ affected, id = w.id
      · rw [ih hp' hrest hfiles', setSnapshot_setSnapshot]
      · rw [seen_fields_of_ne field fun v hv heq => hrest ⟨v, hv, heq⟩, hp']
    · obtain ⟨v, hv, heq⟩ := hw
      have hv' : v ∈ affected := (mem_cons.1 hv).resolve_left fun h => hid (h ▸ heq)
      refine ih ?_ ⟨v, hv', heq⟩ hfiles'
      rw [seen_markObservedFieldFor, if_neg hid, hp]

theorem eq_of_id (hnodup : (ids list).Nodup) {v : Workspace} (hw : w ∈ list) (hv : v ∈ list)
    (h : w.id = v.id) : w = v :=
  inj_on_of_nodup_map hnodup hw hv h

theorem marks_membership (hnodup : (ids list).Nodup) {mem : Membership} {m : Marking}
    (h : membershipMutator mem list = some (list', m)) : Marks list list' m := by
  obtain ⟨⟨list₁, affected⟩, happly, heq⟩ := map_eq_some_iff.1 h
  obtain ⟨rfl, rfl⟩ := Prod.mk.inj heq
  obtain ⟨rfl, haffected⟩ := mem.apply_eq_some happly
  refine ⟨by rwa [ids_map _ mem.id_moved], fun id => ?_⟩
  rw [seen_snapshots, find_map _ mem.id_moved, observe]
  -- a workspace that is not affected is as it was, and the affected one of an id is the list's own
  by_cases hid : ∃ v ∈ affected, id = v.id
  · obtain ⟨v, hv, rfl⟩ := hid
    obtain ⟨w, hw, -, rfl⟩ := (haffected v).1 hv
    have hfind : find list (mem.moved w).id = some w := by
      rw [mem.id_moved]
      cases hf : find list w.id with
      | none =>
        exact absurd (decide_eq_true rfl) (find?_eq_none.1 hf w hw)
      | some w' => rw [eq_of_id hnodup (id_of_find hf).2 hw (id_of_find hf).1]
    rw [hfind, map_some, map_some, mem.snapshot_moved]
    refine (seen_fields_of_mem mem.field ?_ ⟨_, hv, rfl⟩ ?_).symm
    · rw [seen_snapshots, hfind]
      rfl
    · intro v' hv' hid
      obtain ⟨w', hw', -, rfl⟩ := (haffected v').1 hv'
      rw [mem.id_moved, mem.id_moved] at hid
      rw [eq_of_id hnodup hw hw' hid]
  · rw [seen_fields_of_ne mem.field fun v hv heq => hid ⟨v, hv, heq⟩, seen_snapshots]
    cases hf : find list id with
    | none => rfl
    | some w =>
      rw [map_some, mem.moved_of_not_affects]
      refine Bool.eq_false_iff.2 fun ha => hid ⟨mem.moved w, ?_, ?_⟩
      · exact (haffected _).2 ⟨w, (id_of_find hf).2, ha, rfl⟩
      · rw [mem.id_moved, (id_of_find hf).1]

/-- Renaming a workspace is no difference to its listeners. -/
theorem seen_renamed (id : String) {f : Workspace → Workspace}
    (hf : ∀ w, snapshotForCache (f w) = snapshotForCache w) :
    seen ((list.map f).map snapshotForCache) id = seen (list.map snapshotForCache) id := by
  rw [List.map_map, show snapshotForCache ∘ f = snapshotForCache from funext hf]

/-! ### Notifications -/

theorem filesSetEqual_iff {a b : List String} : filesSetEqual a b = true ↔ ∀ x, x ∈ a ↔ x ∈ b := by
  rw [filesSetEqual, Bool.and_eq_true, List.all_eq_true, List.all_eq_true]
  simp only [contains_iff_mem]
  exact ⟨fun h x => ⟨h.1 x, h.2 x⟩, fun h => ⟨fun x => (h x).1, fun x => (h x).2⟩⟩

/-- Every difference between two snapshots was told. -/
structure Differences (events : List Told) (p w : Snapshot) : Prop where
  privateKey : p.privateKey ≠ w.privateKey → Told.privateKeyChanged w.id ∈ events
  reports : ¬(∀ x, x ∈ p.reports ↔ x ∈ w.reports) → Told.membershipChanged .reports w.id ∈ events
  bundles : ¬(∀ x, x ∈ p.bundles ↔ x ∈ w.bundles) → Told.membershipChanged .bundles w.id ∈ events

/-- What became of a workspace was told: that it was created (unless the tab made it itself), that
it was deleted, or every difference. -/
def Notified (events : List Told) (id : String) : Option Snapshot → Option Snapshot → Prop
  | none, none => True
  | none, some _ => Told.created id ∈ events ∨ Told.made id ∈ events
  | some _, none => Told.deleted id ∈ events
  | some p, some w =>
    Told.created id ∈ events ∨ Told.made id ∈ events ∨ Differences events p w

variable {events events' : List Told} {a b c : Option Snapshot}

theorem Differences.mono {p w : Snapshot} (h : Differences events p w)
    (hsub : ∀ t ∈ events, t ∈ events') : Differences events' p w :=
  ⟨fun hne => hsub _ (h.privateKey hne), fun hne => hsub _ (h.reports hne),
    fun hne => hsub _ (h.bundles hne)⟩

theorem Notified.mono (h : Notified events id a b) (hsub : ∀ t ∈ events, t ∈ events') :
    Notified events' id a b := by
  cases a with
  | none =>
    cases b with
    | none => trivial
    | some w => exact Or.imp (hsub _) (hsub _) h
  | some p =>
    cases b with
    | none => exact hsub _ h
    | some w => exact Or.imp (hsub _) (Or.imp (hsub _) (·.mono hsub)) h

theorem Differences.refl : Differences events p p :=
  ⟨fun h => absurd rfl h, fun h => absurd (fun _ => Iff.rfl) h,
    fun h => absurd (fun _ => Iff.rfl) h⟩

theorem Notified.refl (a : Option Snapshot) : Notified events id a a := by
  cases a with
  | none => trivial
  | some p => exact .inr (.inr (.refl p))

theorem Differences.trans {p v w : Snapshot} (h : Differences events p v)
    (h' : Differences events v w) (hid : v.id = w.id) : Differences events p w := by
  refine ⟨fun hne => ?_, fun hne => ?_, fun hne => ?_⟩
  · by_cases hpv : p.privateKey = v.privateKey
    · exact h'.privateKey fun hvw => hne (hpv.trans hvw)
    · exact hid ▸ h.privateKey hpv
  · by_cases hpv : ∀ x, x ∈ p.reports ↔ x ∈ v.reports
    · exact h'.reports fun hvw => hne fun x => (hpv x).trans (hvw x)
    · exact hid ▸ h.reports hpv
  · by_cases hpv : ∀ x, x ∈ p.bundles ↔ x ∈ v.bundles
    · exact h'.bundles fun hvw => hne fun x => (hpv x).trans (hvw x)
    · exact hid ▸ h.bundles hpv

theorem Notified.trans (h : Notified events id a b) (h' : Notified events id b c)
    (hb : ∀ v ∈ b, v.id = id) (hc : ∀ w ∈ c, w.id = id) : Notified events id a c := by
  cases a with
  | none =>
    cases c with
    | none => trivial
    | some w =>
      cases b with
      | none => exact h'
      | some v => exact h
  | some p =>
    cases c with
    | none =>
      cases b with
      | none => exact h
      | some v => exact h'
    | some w =>
      cases b with
      | none => exact h'.imp_right .inl
      | some v =>
        rcases h with h | h | h
        · exact .inl h
        · exact .inr (.inl h)
        · refine h'.imp_right (Or.imp_right fun h' => ?_)
          exact h.trans h' ((hb v rfl).trans (hc w rfl).symm)

theorem differences_changes (w : Snapshot) : Differences (changes p w) p w := by
  refine ⟨fun h => ?_, fun h => ?_, fun h => ?_⟩
  · rw [changes, if_pos h]
    exact mem_append_left _ mem_cons_self
  · rw [← filesSetEqual_iff, Bool.not_eq_true] at h
    rw [changes, if_pos (show (!filesSetEqual p.reports w.reports) = true by rw [h]; rfl)]
    exact mem_append_left _ (mem_append_right _ mem_cons_self)
  · rw [← filesSetEqual_iff, Bool.not_eq_true] at h
    rw [changes, if_pos (show (!filesSetEqual p.bundles w.bundles) = true by rw [h]; rfl)]
    exact mem_append_right _ mem_cons_self

/-- A propagation tells every difference that it finds. -/
theorem notified_propagated (prev next : List Snapshot) (id : String) :
    Notified (propagated prev next) id (seen prev id) (seen next id) := by
  cases hw : seen next id with
  | none =>
    cases hp : seen prev id with
    | none => trivial
    | some p =>
      obtain ⟨rfl, hmem⟩ := id_of_seen hp
      refine mem_append_left _ (List.mem_map.2 ⟨p, mem_filter.2 ⟨hmem, ?_⟩, rfl⟩)
      rw [any_iff_seen, hw]
      rfl
  | some w =>
    obtain ⟨rfl, hmem⟩ := id_of_seen hw
    cases hp : seen prev w.id with
    | none =>
      refine .inl (mem_append_right _ (mem_flatMap.2 ⟨w, hmem, ?_⟩))
      rw [hp]
      exact mem_cons_self
    | some p =>
      refine .inr (.inr ((differences_changes p w).mono fun t ht => ?_))
      refine mem_append_right _ (mem_flatMap.2 ⟨w, hmem, ?_⟩)
      rw [hp]
      exact ht

/-! ### Steps -/

namespace WorkspacesTab

/-- A step tells its listeners what it takes in as observed. -/
def Tells (s s' : WorkspacesTab) : Prop :=
  ∃ events, s'.told = s.told ++ events ∧
    ∀ id, Notified events id (seen s.lastSeen id) (seen s'.lastSeen id)

variable {s s' s'' : WorkspacesTab}

theorem Tells.of_eq (ht : s'.told = s.told) (hl : s'.lastSeen = s.lastSeen) : s.Tells s' := by
  refine ⟨[], by rw [ht, append_nil], fun id => ?_⟩
  rw [hl]
  exact .refl _

theorem Tells.trans (h : s.Tells s') (h' : s'.Tells s'') : s.Tells s'' := by
  obtain ⟨e, ht, hn⟩ := h
  obtain ⟨e', ht', hn'⟩ := h'
  refine ⟨e ++ e', by rw [ht', ht, append_assoc], fun id => ?_⟩
  exact ((hn id).mono fun t => mem_append_left e').trans
    ((hn' id).mono fun t => mem_append_right e) (fun v hv => (id_of_seen hv).1)
    fun w hw => (id_of_seen hw).1

theorem tells_hydrate (s : WorkspacesTab) : s.Tells s.hydrate :=
  ⟨_, rfl, notified_propagated _ _⟩

theorem tells_mutate (s : WorkspacesTab)
    (mutator : List Workspace → Option (List Workspace × Marking)) :
    s.Tells (s.mutate mutator) := by
  refine s.tells_hydrate.trans ?_
  rw [mutate]
  split
  · exact .of_eq rfl rfl
  · exact .of_eq rfl rfl

theorem tells_rename (s : WorkspacesTab) (id cleaned : String) : s.Tells (s.rename id cleaned) := by
  refine s.tells_hydrate.trans ?_
  rw [rename]
  split
  · exact .of_eq rfl rfl
  · exact .of_eq rfl rfl

/-- The workspaces whose memberships an operation is about to mark are observed. -/
def MarkCareful (s : WorkspacesTab) : Prop :=
  ∀ field affected, s.after.head? = some (.membership field affected) →
    ∀ w ∈ affected, (seen s.lastSeen w.id).isSome

/-- What is observed of other workspaces is left alone. -/
theorem notified_of_ne (id : String) {events : List Told}
    (h : ∀ id', id' ≠ id → seen l' id' = seen l id')
    (hid : Notified events id (seen l id) (seen l' id)) (id' : String) :
    Notified events id' (seen l id') (seen l' id') := by
  by_cases heq : id' = id
  · subst heq
    exact hid
  · rw [h id' heq]
    exact .refl _

theorem notified_markObservedFor {events : List Told}
    (h : Notified events w.id (seen l w.id) (some (snapshotForCache w))) (id : String) :
    Notified events id (seen l id) (seen (markObservedFor w l) id) := by
  refine notified_of_ne w.id (fun id' hne => ?_) ?_ id
  · rw [seen_markObservedFor, if_neg hne]
  · rw [seen_markObservedFor, if_pos rfl]
    exact h

theorem notified_made {event : Told} (h : event = .created w.id ∨ event = .made w.id)
    (o : Option Snapshot) (v : Snapshot) : Notified [event] w.id o (some v) := by
  have hmem : Told.created w.id ∈ [event] ∨ Told.made w.id ∈ [event] :=
    h.imp (fun h => mem_singleton.2 h.symm) fun h => mem_singleton.2 h.symm
  cases o with
  | none => exact hmem
  | some p => exact hmem.imp_right .inl

theorem notified_field (field : Field) {p : Snapshot} (hp : seen l w.id = some p) (id : String) :
    Notified [.membershipChanged field w.id] id (seen l id)
      (seen (markObservedFieldFor field w l) id) := by
  refine notified_of_ne w.id (fun id' hne => ?_) ?_ id
  · rw [seen_markObservedFieldFor, if_neg hne]
  · rw [seen_markObservedFieldFor, if_pos rfl, hp, map_some, getD_some]
    refine .inr (.inr ?_)
    have hid : p.id = w.id := (id_of_seen hp).1
    cases field with
    | reports =>
      exact ⟨fun h => absurd rfl h, fun _ => hid ▸ mem_cons_self,
        fun h => absurd (fun _ => Iff.rfl) h⟩
    | bundles =>
      exact ⟨fun h => absurd rfl h, fun h => absurd (fun _ => Iff.rfl) h,
        fun _ => hid ▸ mem_cons_self⟩

theorem notified_fields (field : Field) {affected : List Workspace}
    (h : ∀ w ∈ affected, (seen l w.id).isSome) (id : String) :
    Notified (affected.map fun w => .membershipChanged field w.id) id (seen l id)
      (seen (affected.foldl (fun l w => markObservedFieldFor field w l) l) id) := by
  induction affected generalizing l with
  | nil => exact .refl _
  | cons w affected ih =>
    obtain ⟨p, hp⟩ := isSome_iff_exists.1 (h w mem_cons_self)
    have hrest : ∀ v ∈ affected, (seen (markObservedFieldFor field w l) v.id).isSome := by
      intro v hv
      rw [seen_markObservedFieldFor]
      split
      · rfl
      · exact h v (mem_cons_of_mem w hv)
    refine ((notified_field field hp id).mono ?_).trans ((ih hrest).mono ?_)
      (fun v hv => (id_of_seen hv).1) fun v hv => (id_of_seen hv).1
    · intro t ht
      rw [mem_singleton.1 ht]
      exact mem_cons_self
    · exact fun t ht => mem_cons_of_mem _ ht

theorem tells_mark (m : Marking) (h : ∀ field affected, m = .membership field affected →
    ∀ w ∈ affected, (seen s.lastSeen w.id).isSome) : s.Tells (s.mark m) := by
  cases m with
  | created w => exact ⟨_, rfl, notified_markObservedFor (notified_made (.inr rfl) _ _)⟩
  | deleted id =>
    refine ⟨_, rfl, notified_of_ne id (fun id' hne => ?_) ?_⟩
    · exact (seen_filter id).trans (if_neg hne)
    · have hnone : seen (markObservedDeleted id s.lastSeen) id = none :=
        (seen_filter id).trans (if_pos rfl)
      show Notified _ _ _ (seen (markObservedDeleted id s.lastSeen) id)
      rw [hnone]
      cases seen s.lastSeen id with
      | none => trivial
      | some p => exact mem_cons_self
  | upserted next =>
    refine ⟨_, rfl, notified_markObservedFor ?_⟩
    cases hp : seen s.lastSeen next.id with
    | none => exact .inl mem_cons_self
    | some p => exact .inr (.inr (differences_changes p _))
  | attached w => exact ⟨_, rfl, notified_markObservedFor (notified_made (.inl rfl) _ _)⟩
  | membership field affected => exact ⟨_, rfl, notified_fields field (h field affected rfl)⟩

theorem tells_resume (h : s.resume = some s') (hC : s.MarkCareful) : s.Tells s' := by
  rw [resume] at h
  split at h
  · cases h
  · rename_i marking rest hafter
    cases h
    have hpopped : s.Tells { s with after := rest } := .of_eq rfl rfl
    refine hpopped.trans (tells_mark marking ?_)
    intro field affected hm
    exact hC field affected (by rw [hafter, hm]; rfl)

/-! ### Runs -/

/-- The operations that are past their locks and did not go on mark nothing over: their marks leave
the stored list as it is. -/
def HydrateCareful (s : WorkspacesTab) : Prop :=
  ∀ id, seen (observeAll s.after (s.stored.map snapshotForCache)) id =
    seen (s.stored.map snapshotForCache) id

end WorkspacesTab

/-- What a step must meet for no change to be missed: a list that is taken in still has what the
operations past their locks left there, and a membership that is marked is one of observed
workspaces. -/
def ListenersCareful (s : WorkspacesTab) : WorkspacesLabel → Prop
  | .sibling _ => True
  | .resume => s.MarkCareful
  | _ => s.HydrateCareful

namespace WorkspacesTab

variable {s s' : WorkspacesTab}

/-- What is observed, once the operations past their locks went on, is what the tab last took in or
left itself. -/
structure Listening (s : WorkspacesTab) : Prop where
  nodup_stored : (ids s.stored).Nodup
  observed : ∀ id, seen (observeAll s.after s.lastSeen) id = seen (s.cache.map snapshotForCache) id

/-- No operation is under way, and the stored list was taken in. -/
structure Settled (s : WorkspacesTab) : Prop where
  after : s.after = []
  cache : s.cache = s.stored

section

variable (hL : s.Listening)
include hL

section

variable (hC : s.HydrateCareful)
include hC

theorem Listening.hydrate : s.hydrate.Listening :=
  ⟨hL.nodup_stored, hC⟩

theorem Listening.mutate {mutator : List Workspace → Option (List Workspace × Marking)}
    (hM : ∀ list' m, mutator s.stored = some (list', m) → Marks s.stored list' m) :
    (s.mutate mutator).Listening := by
  have hH : s.hydrate.Listening := hL.hydrate hC
  rw [WorkspacesTab.mutate]
  split
  · exact hH
  · rename_i list' m hm
    have hmarks := hM list' m hm
    refine ⟨hmarks.nodup, fun id => ?_⟩
    rw [hmarks.seen, observeAll, foldl_append]
    exact seen_observe_congr m hH.observed id

theorem Listening.rename (id cleaned : String) : (s.rename id cleaned).Listening := by
  have hH : s.hydrate.Listening := hL.hydrate hC
  rw [WorkspacesTab.rename]
  split
  · refine ⟨?_, fun id' => ?_⟩
    · refine (ids_map _ fun w => ?_).symm ▸ hL.nodup_stored
      split
      · rfl
      · rfl
    · refine (hH.observed id').trans (seen_renamed id' fun w => ?_).symm
      split
      · rfl
      · rfl
  · exact hH

end

theorem Listening.resume (h : s.resume = some s') : s'.Listening := by
  rw [WorkspacesTab.resume] at h
  split at h
  · cases h
  · rename_i marking rest hafter
    cases h
    have hobserved : ∀ id, seen (observeAll rest (observe marking s.lastSeen)) id =
        seen (s.cache.map snapshotForCache) id := by
      intro id
      rw [← hL.observed, hafter]
      rfl
    have hmark : ∀ t : WorkspacesTab, (t.mark marking).stored = t.stored ∧
        (t.mark marking).cache = t.cache ∧ (t.mark marking).after = t.after := by
      intro t
      cases marking <;> exact ⟨rfl, rfl, rfl⟩
    obtain ⟨hstored, hcache, hafter'⟩ := hmark { s with after := rest }
    refine ⟨by rw [hstored]; exact hL.nodup_stored, fun id => ?_⟩
    rw [hcache, hafter', lastSeen_mark]
    exact hobserved id

end

end WorkspacesTab

open WorkspacesTab

/-- One careful step. -/
theorem listening_step {s s' : WorkspacesTab} {a : WorkspacesLabel} (hL : s.Listening)
    (hC : ListenersCareful s a) (h : workspaces.step s a = some s') :
    s'.Listening ∧ s.Tells s' := by
  cases a with
  | sibling list =>
    obtain ⟨hnodup, h⟩ := ite_none_right_eq_some.1 h
    cases h
    exact ⟨⟨hnodup, hL.observed⟩, .of_eq rfl rfl⟩
  | hydrate =>
    cases h
    exact ⟨hL.hydrate hC, s.tells_hydrate⟩
  | create id name privateKey createdAt =>
    obtain ⟨cleaned, -, rfl⟩ := map_eq_some_iff.1 h
    exact ⟨hL.mutate hC fun _ _ => marks_create hL.nodup_stored, s.tells_mutate _⟩
  | delete id =>
    cases h
    exact ⟨hL.mutate hC fun _ _ => marks_delete hL.nodup_stored, s.tells_mutate _⟩
  | rename id name =>
    obtain ⟨cleaned, -, rfl⟩ := map_eq_some_iff.1 h
    exact ⟨hL.rename hC id cleaned, s.tells_rename id cleaned⟩
  | upsert u =>
    cases h
    exact ⟨hL.mutate hC fun _ _ => marks_upsert hL.nodup_stored, s.tells_mutate _⟩
  | attach id name privateKey createdAt =>
    cases h
    exact ⟨hL.mutate hC fun _ _ => marks_attach hL.nodup_stored, s.tells_mutate _⟩
  | membership m =>
    cases h
    exact ⟨hL.mutate hC fun _ _ => marks_membership hL.nodup_stored, s.tells_mutate _⟩
  | resume => exact ⟨hL.resume h, tells_resume h hC⟩

theorem listening_run {s s' : WorkspacesTab}
    (h : workspaces.ReachableUnder ListenersCareful s s') (hL : s.Listening) :
    s'.Listening ∧ s.Tells s' :=
  h.invariant (I := fun s' => s'.Listening ∧ s.Tells s') ⟨hL, .of_eq rfl rfl⟩
    fun _ _ _ hI hC hst =>
      have hstep := listening_step hI.1 hC hst
      ⟨hstep.1, hI.2.trans hstep.2⟩

/-- A tab that observed what it took in, as `syncObservedAfterHydrate` leaves one. -/
structure Observed (s : WorkspacesTab) : Prop where
  after : s.after = []
  nodup : (ids s.stored).Nodup
  lastSeen : s.lastSeen = s.cache.map snapshotForCache

variable {s : WorkspacesTab}

theorem Observed.listening (h : Observed s) : s.Listening := by
  refine ⟨h.nodup, fun id => ?_⟩
  rw [h.after, h.lastSeen]
  rfl

/-- A settled tab observed what is stored. -/
theorem WorkspacesTab.Listening.settled (hL : s.Listening) (hs : s.Settled)
    (id : String) : seen s.lastSeen id = (find s.stored id).map snapshotForCache := by
  rw [← seen_snapshots, ← hs.cache, ← hL.observed, hs.after]
  rfl

/-- **Listeners miss no change**: as long as no list is taken in that changed what an operation left
before the operation marked it, what a settled tab has observed is what is stored, and between two
settled states each difference of a workspace was told. -/
theorem listeners_miss_no_change {s₀ s : WorkspacesTab} (h₀ : Observed s₀)
    (h : workspaces.ReachableUnder ListenersCareful s₀ s) (hs : s.Settled) :
    (∀ id, seen s.lastSeen id = (find s.stored id).map snapshotForCache) ∧
      ∀ s', workspaces.ReachableUnder ListenersCareful s s' → s'.Settled →
        ∃ events, s'.told = s.told ++ events ∧ ∀ id, Notified events id
          ((find s.stored id).map snapshotForCache) ((find s'.stored id).map snapshotForCache) := by
  have hL := (listening_run h h₀.listening).1
  refine ⟨hL.settled hs, fun s' h' hs' => ?_⟩
  obtain ⟨hL', events, ht, hn⟩ := listening_run h' hL
  refine ⟨events, ht, fun id => ?_⟩
  rw [← hL.settled hs, ← hL'.settled hs']
  exact hn id

theorem hydrateCareful_of_after (h : s.after = []) : s.HydrateCareful := by
  intro id
  rw [h]
  rfl

/-- A workspace that is imported in the runs below. -/
def red (privateKey : String) : Workspace := ⟨"r", "red", privateKey, ["a.txt"], [], 0⟩

/-- A tab that is settled on a list. -/
def tabOn (list : List Workspace) (told : List Told) : WorkspacesTab :=
  ⟨list, list, list.map snapshotForCache, [], told⟩

/-- A workspace is imported, and a sibling rotates its key later. -/
theorem listeners_miss_no_change_rotation :
    (∀ id, seen (tabOn [red "k1"] [.created "r"]).lastSeen id =
        (find [red "k1"] id).map snapshotForCache) ∧
      ∃ events, [Told.created "r", .privateKeyChanged "r"] = [.created "r"] ++ events ∧
        ∀ id, Notified events id ((find [red "k1"] id).map snapshotForCache)
          ((find [red "k2"] id).map snapshotForCache) := by
  have hrun : workspaces.run (tabOn [] [])
      [.upsert ⟨"r", " red ", "k1", ["a.txt"], [], 0, false⟩, .resume] =
        some (tabOn [red "k1"] [.created "r"]) := by decide +kernel
  have hrun' : workspaces.run (tabOn [red "k1"] [.created "r"]) [.sibling [red "k2"], .hydrate] =
      some (tabOn [red "k2"] [.created "r", .privateKeyChanged "r"]) := by decide +kernel
  have h : workspaces.ReachableUnder ListenersCareful (tabOn [] [])
      (tabOn [red "k1"] [.created "r"]) := by
    refine Machine.reachableUnder_of_run hrun ⟨hydrateCareful_of_after rfl, ?_, trivial⟩
    intro field affected hm
    cases hm
  have h' : workspaces.ReachableUnder ListenersCareful (tabOn [red "k1"] [.created "r"])
      (tabOn [red "k2"] [.created "r", .privateKeyChanged "r"]) :=
    Machine.reachableUnder_of_run hrun' ⟨trivial, hydrateCareful_of_after rfl, trivial⟩
  have h₀ : Observed (tabOn [] []) := ⟨rfl, nodup_nil, rfl⟩
  have hmain := listeners_miss_no_change h₀ h ⟨rfl, rfl⟩
  exact ⟨hmain.1, hmain.2 _ h' ⟨rfl, rfl⟩⟩

/-- An import marks its workspace over a sibling's deletion; when it is there again, its creation is
not told. -/
theorem creation_swallowed : ∃ s s' : WorkspacesTab,
    workspaces.Reachable (tabOn [] []) s ∧ s.Settled ∧
      seen s.lastSeen "r" ≠ (find s.stored "r").map snapshotForCache ∧
      workspaces.Reachable s s' ∧ s'.Settled ∧ find s.stored "r" = none ∧
      find s'.stored "r" = some (red "k1") ∧ s'.told = s.told := by
  have hrun : workspaces.run (tabOn [] [])
      [.upsert ⟨"r", "red", "k1", ["a.txt"], [], 0, false⟩, .sibling [], .hydrate, .resume] =
        some ⟨[], [], [snapshotForCache (red "k1")], [], [.created "r"]⟩ := by decide +kernel
  have hrun' : workspaces.run ⟨[], [], [snapshotForCache (red "k1")], [], [.created "r"]⟩
      [.sibling [red "k1"], .hydrate] = some (tabOn [red "k1"] [.created "r"]) := by
    decide +kernel
  exact ⟨_, _, Machine.reachable_of_run hrun, ⟨rfl, rfl⟩, by decide,
    Machine.reachable_of_run hrun', ⟨rfl, rfl⟩, rfl, by decide, rfl⟩

end Triage.Client
