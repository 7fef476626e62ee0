import Mathlib.Data.List.Perm.Basic
import Triage.Client.WorkspaceListeners

/-!
# Memberships

An identifier is moved to a workspace, added to one or removed from one, and all three go through
one mutator. It gives up early where the first workspace that lists the identifier is the one that
takes it, and otherwise takes the identifier out of all the lists before it goes to the end of its
own: other owners behind the first are left, and an own list that ended with the identifier is told
to have changed.

## Main results

* `membership_meant_iff` : an operation does what it means just where it fits.
-/

namespace Triage.Client

open List Option List.Perm

/-- The operations of `membershipApi`. -/
inductive MembershipOperation
  | move (workspaceId : Option String)
  | add (workspaceId : String)
  | remove (workspaceId : String)
  deriving DecidableEq

/-- The tab after what an operation has left to do, if it wrote at all. -/
def WorkspacesTab.settle (s : WorkspacesTab) : Option (List Workspace × Marking) → WorkspacesTab
  | none => s
  | some (_, marking) => s.mark marking

/-- The list that is stored after an operation, if it wrote at all. -/
def storedAfter (list : List Workspace) (r : Option (List Workspace × Marking)) :
    List Workspace :=
  (r.map (·.1)).getD list

/-- The workspaces whose members of a field differ between two lists. -/
def changedIds (field : Field) (list list' : List Workspace) : List String :=
  ((list.zip list').filter fun p => field.get p.1 ≠ field.get p.2).map (·.1.id)

namespace MembershipOperation

variable (field : Field) (identifier : String)

def membership : MembershipOperation → Membership
  | move workspaceId => ⟨field, identifier, workspaceId, false, none⟩
  | add workspaceId => ⟨field, identifier, some workspaceId, true, none⟩
  | remove workspaceId => ⟨field, identifier, none, false, some workspaceId⟩

/-! ### What an operation means -/

/-- The workspace that an operation names. -/
def named : MembershipOperation → Option String
  | move workspaceId => workspaceId
  | add workspaceId | remove workspaceId => some workspaceId

/-- Whether a workspace lists the identifier after an operation, by whether it did before. -/
def Listed (id : String) (before : Prop) : MembershipOperation → Prop
  | move workspaceId => workspaceId = some id
  | add workspaceId => workspaceId = id ∨ before
  | remove workspaceId => workspaceId ≠ id ∧ before

/-- A workspace that an operation leaves alone. -/
def Spares (id : String) : MembershipOperation → Prop
  | move _ => False
  | add workspaceId | remove workspaceId => workspaceId ≠ id

variable (op : MembershipOperation)

/-- What a workspace is to become. -/
structure Placed (w w' : Workspace) : Prop where
  frame : w' = field.set (field.get w') w
  others : (field.get w').filter (· ≠ identifier) = (field.get w).filter (· ≠ identifier)
  listed : identifier ∈ field.get w' ↔ op.Listed w.id (identifier ∈ field.get w)
  spared : op.Spares w.id → w' = w
  count : ∀ a, (field.get w').count a ≤ max 1 ((field.get w).count a)

/-- What an operation is to leave of a list of workspaces, and to tell. -/
structure Meant (list : List Workspace) (r : Option (List Workspace × Marking)) : Prop where
  placed : (∀ id ∈ op.named, id ∈ ids list) →
    List.Forall₂ (op.Placed field identifier) list (storedAfter list r)
  unknown : (∃ id ∈ op.named, id ∉ ids list) → r = none
  quiet : storedAfter list r = list → r = none
  told : ∀ s : WorkspacesTab, ∃ news, (s.settle r).told = s.told ++ news ∧
    news.Perm ((changedIds field list (storedAfter list r)).map (Told.membershipChanged field))

/-- The first workspace that lists the identifier. -/
def owner (list : List Workspace) : Option Workspace :=
  list.find? fun w => (field.get w).contains identifier

/-- The identifier is in a list just once, at its end. -/
def EndsWith (l : List String) : Prop := ∃ l', identifier ∉ l' ∧ l = l' ++ [identifier]

/-- A workspace that an identifier moves to does not list it, or is alone to list it, or neither is
the first to list it nor lists it just at its end. -/
def Fits (list : List Workspace) : MembershipOperation → Prop
  | move (some id) => ∀ w ∈ list, w.id = id → identifier ∈ field.get w →
      (∀ v ∈ list, identifier ∈ field.get v → v = w) ∨
        owner field identifier list ≠ some w ∧
          ¬EndsWith identifier (field.get w)
  | _ => True

/-! ### What an operation does -/

/-- What an operation makes of the members of a workspace. -/
def members (id : String) (l : List String) : MembershipOperation → List String
  | move workspaceId =>
    l.filter (· ≠ identifier) ++ if workspaceId = some id then [identifier] else []
  | add workspaceId => if workspaceId = id ∧ identifier ∉ l then l ++ [identifier] else l
  | remove workspaceId => if workspaceId = id then l.filter (· ≠ identifier) else l

theorem filter_eq_self {l : List String} (h : identifier ∉ l) : l.filter (· ≠ identifier) = l := by
  rw [List.filter_eq_self]
  intro a ha
  exact decide_eq_true fun heq => h (heq ▸ ha)

theorem not_mem_filter (l : List String) : identifier ∉ l.filter (· ≠ identifier) := by
  simp

variable {field identifier} {list : List Workspace} {w v : Workspace} {id : String}

variable {target : Option String}

theorem detaches_move :
    ((move target).membership field identifier).detaches w = true ↔ identifier ∈ field.get w := by
  simp [Membership.detaches, membership]

theorem detaches_add : ((add id).membership field identifier).detaches w = false := rfl

theorem detaches_remove : ((remove id).membership field identifier).detaches w = true ↔
    id = w.id ∧ identifier ∈ field.get w := by
  simp [Membership.detaches, membership, @eq_comm _ id]

theorem attaches_move :
    ((move target).membership field identifier).attaches w = true ↔
      target = some w.id ∧ identifier ∉ field.get w := by
  rw [Membership.attaches, Bool.and_eq_true]
  refine and_congr decide_eq_true_iff ?_
  simp [membership]

theorem attaches_add : ((add id).membership field identifier).attaches w = true ↔
    id = w.id ∧ identifier ∉ field.get w := by
  simp [Membership.attaches, membership]

theorem attaches_remove : ((remove id).membership field identifier).attaches w = false := rfl

theorem detach_eq : (op.membership field identifier).detach w =
    if (op.membership field identifier).detaches w then
      field.set ((field.get w).filter (· ≠ identifier)) w
    else w := by
  cases op <;> rfl

theorem attach_eq : (op.membership field identifier).attach w =
    if (op.membership field identifier).attaches w then
      field.set (field.get w ++ [identifier]) w
    else w := by
  cases op <;> rfl

theorem get_detach : field.get ((op.membership field identifier).detach w) =
    if (op.membership field identifier).detaches w then (field.get w).filter (· ≠ identifier)
    else field.get w := by
  rw [detach_eq]
  split
  · exact get_set _ _ _
  · rfl

theorem get_attach : field.get ((op.membership field identifier).attach w) =
    if (op.membership field identifier).attaches w then field.get w ++ [identifier]
    else field.get w := by
  rw [attach_eq]
  split
  · exact get_set _ _ _
  · rfl

/-- A workspace that an identifier moves to does not list it any more. -/
theorem attaches_move_detach :
    ((move target).membership field identifier).attaches
        (((move target).membership field identifier).detach w) = true ↔
      target = some w.id := by
  rw [attaches_move, Membership.id_detach, get_detach]
  refine and_iff_left ?_
  split
  · exact not_mem_filter identifier _
  · rename_i h
    exact fun hmem => h (detaches_move.2 hmem)

theorem get_moved : field.get ((op.membership field identifier).moved w) =
    op.members identifier w.id (field.get w) := by
  rw [Membership.moved, get_attach]
  cases op with
  | move target =>
    have hdetach : field.get (((move target).membership field identifier).detach w) =
        (field.get w).filter (· ≠ identifier) := by
      rw [get_detach]
      split
      · rfl
      · rename_i h
        exact (filter_eq_self identifier fun hmem => h (detaches_move.2 hmem)).symm
    rw [hdetach, members]
    by_cases htarget : target = some w.id
    · rw [if_pos (attaches_move_detach.2 htarget), if_pos htarget]
    · rw [if_neg fun h => htarget (attaches_move_detach.1 h), if_neg htarget, append_nil]
  | add target =>
    have hdetach : ((add target).membership field identifier).detach w = w := rfl
    rw [hdetach, members]
    exact if_congr attaches_add rfl rfl
  | remove target =>
    rw [attaches_remove, if_neg Bool.false_ne_true, get_detach, members]
    by_cases hmem : identifier ∈ field.get w
    · exact if_congr (detaches_remove.trans (and_iff_left hmem)) rfl rfl
    · rw [if_neg fun h => hmem (detaches_remove.1 h).2, filter_eq_self identifier hmem, ite_self]

/-! ### Workspaces -/

variable {l : List String}

theorem filter_members : (op.members identifier id l).filter (· ≠ identifier) =
    l.filter (· ≠ identifier) := by
  have hown : [identifier].filter (· ≠ identifier) = [] := by simp
  cases op with
  | move target =>
    rw [members, filter_append, List.filter_filter]
    split
    · simp
    · simp
  | add target =>
    rw [members]
    split
    · rw [filter_append, hown, append_nil]
    · rfl
  | remove target =>
    rw [members]
    split
    · simp
    · rfl

theorem mem_members : identifier ∈ op.members identifier id l ↔ op.Listed id (identifier ∈ l) := by
  cases op with
  | move target =>
    rw [members, mem_append, or_iff_right (not_mem_filter identifier l), Listed]
    split
    · rename_i h
      exact iff_of_true (mem_singleton_self _) h
    · rename_i h
      exact iff_of_false not_mem_nil h
  | add target =>
    rw [members, Listed]
    by_cases htarget : target = id
    · by_cases hmem : identifier ∈ l
      · simp [htarget, hmem]
      · simp [htarget, hmem]
    · simp [htarget]
  | remove target =>
    rw [members, Listed]
    by_cases htarget : target = id
    · simp [htarget]
    · simp [htarget]

theorem count_append_own (h : identifier ∉ l) (a : String) :
    (l ++ [identifier]).count a ≤ max 1 (l.count a) := by
  rw [count_append, count_singleton]
  split
  · rename_i heq
    rw [← eq_of_beq heq, count_eq_zero_of_not_mem h]
    exact Nat.le_max_left 1 0
  · exact Nat.le_max_right 1 _

theorem count_members (a : String) : (op.members identifier id l).count a ≤ max 1 (l.count a) := by
  have hself : l.count a ≤ max 1 (l.count a) := Nat.le_max_right 1 _
  have hfilter : (l.filter (· ≠ identifier)).count a ≤ l.count a := filter_sublist.count_le a
  cases op with
  | move target =>
    rw [members]
    split
    · have happend := count_append_own (not_mem_filter identifier l) a
      omega
    · rw [append_nil]
      omega
  | add target =>
    rw [members]
    split
    · rename_i h
      exact count_append_own h.2 a
    · exact hself
  | remove target =>
    rw [members]
    split
    · omega
    · exact hself

theorem set_get : field.set (field.get w) w = w := by
  cases field <;> rfl

theorem set_set (a b : List String) : field.set b (field.set a w) = field.set b w := by
  cases field <;> rfl

/-- Only the field changes. -/
theorem moved_eq : (op.membership field identifier).moved w =
    field.set (field.get ((op.membership field identifier).moved w)) w := by
  have hdetach : (op.membership field identifier).detach w =
      field.set (field.get ((op.membership field identifier).detach w)) w := by
    rw [detach_eq]
    split
    · rw [get_set]
    · exact set_get.symm
  rw [Membership.moved, attach_eq]
  split
  · rw [get_set]
    conv_lhs => rw [hdetach, set_set]
    rw [get_set]
  · exact hdetach

theorem members_of_spares (h : op.Spares id) : op.members identifier id l = l := by
  cases op with
  | move target => exact h.elim
  | add target =>
    rw [members, if_neg fun hand => h hand.1]
  | remove target =>
    rw [members, if_neg h]

theorem placed_moved : op.Placed field identifier w ((op.membership field identifier).moved w) where
  frame := op.moved_eq
  others := by rw [get_moved, filter_members]
  listed := by rw [get_moved, mem_members]
  spared h := by rw [moved_eq, get_moved, members_of_spares op h, set_get]
  count a := by
    rw [get_moved]
    exact op.count_members a

theorem affects_move :
    ((move target).membership field identifier).affects w = true ↔
      identifier ∈ field.get w ∨ target = some w.id := by
  rw [Membership.affects, Bool.or_eq_true, detaches_move, attaches_move_detach]

theorem affects_add : ((add id).membership field identifier).affects w = true ↔
    id = w.id ∧ identifier ∉ field.get w := by
  rw [Membership.affects, detaches_add, Bool.false_or]
  exact attaches_add

theorem affects_remove : ((remove id).membership field identifier).affects w = true ↔
    id = w.id ∧ identifier ∈ field.get w := by
  rw [Membership.affects, attaches_remove, Bool.or_false, detaches_remove]

theorem endsWith_iff : EndsWith identifier l ↔ l.filter (· ≠ identifier) ++ [identifier] = l := by
  constructor
  · rintro ⟨l, hmem, rfl⟩
    rw [filter_append, filter_eq_self identifier hmem]
    simp
  · intro h
    exact ⟨_, not_mem_filter identifier l, h.symm⟩

/-- An affected workspace is changed, but for one that listed the identifier just at its end and
that it moves to. -/
theorem changed_iff : field.get ((op.membership field identifier).moved w) ≠ field.get w ↔
    (op.membership field identifier).affects w = true ∧
      ¬(op = move (some w.id) ∧ EndsWith identifier (field.get w)) := by
  rw [get_moved]
  cases op with
  | move target =>
    rw [affects_move, members]
    by_cases htarget : target = some w.id
    · subst htarget
      simp only [if_true, or_true, true_and, endsWith_iff, ne_eq]
    · have hop : ¬(move target = move (some w.id) ∧ EndsWith identifier (field.get w)) :=
        fun h => htarget (by injection h.1)
      rw [if_neg htarget, or_iff_left htarget, and_iff_left hop, append_nil]
      constructor
      · intro h
        by_contra hmem
        exact h (filter_eq_self identifier hmem)
      · intro hmem h
        exact not_mem_filter identifier (field.get w) (h.symm ▸ hmem)
  | add target =>
    have hop : ¬(add target = move (some w.id) ∧ EndsWith identifier (field.get w)) :=
      fun h => nomatch h.1
    rw [affects_add, members, and_iff_left hop]
    split
    · rename_i h
      exact iff_of_true (by simp) h
    · rename_i h
      exact iff_of_false (fun hne => hne rfl) h
  | remove target =>
    have hop : ¬(remove target = move (some w.id) ∧ EndsWith identifier (field.get w)) :=
      fun h => nomatch h.1
    rw [affects_remove, members, and_iff_left hop]
    by_cases htarget : target = w.id
    · rw [if_pos htarget, and_iff_right htarget]
      constructor
      · intro h
        by_contra hmem
        exact h (filter_eq_self identifier hmem)
      · intro hmem h
        exact not_mem_filter identifier (field.get w) (h.symm ▸ hmem)
    · rw [if_neg htarget]
      exact iff_of_false (fun hne => hne rfl) fun h => htarget h.1

/-! ### Lists of workspaces -/

theorem changedIds_map (f : Workspace → Workspace) : changedIds field list (list.map f) =
    (list.filter fun w => field.get w ≠ field.get (f w)).map (·.id) := by
  have hzip : list.zip (list.map f) = list.map fun w => (w, f w) := by
    conv_lhs => rw [← List.map_id list, List.map_map, zip_map']
    rfl
  rw [changedIds, hzip, List.filter_map, List.map_map]
  rfl

theorem changedIds_self : changedIds field list list = [] := by
  have hself : changedIds field list (list.map fun w => w) = _ := changedIds_map _
  rw [List.map_id'] at hself
  rw [hself, map_eq_nil_iff, filter_eq_nil_iff]
  intro w _ h
  exact of_decide_eq_true h rfl

variable (m : Membership)

theorem perm_affected :
    (list.filter m.detaches ++ list.filter fun w => !m.detaches w && m.attaches (m.detach w)).Perm
      (list.filter m.affects) := by
  have hdetaches : (list.filter m.affects).filter m.detaches = list.filter m.detaches := by
    rw [List.filter_filter]
    refine List.filter_congr fun w _ => ?_
    rw [Membership.affects]
    cases m.detaches w <;> rfl
  have hattaches : ((list.filter m.affects).filter fun w => !m.detaches w) =
      list.filter fun w => !m.detaches w && m.attaches (m.detach w) := by
    rw [List.filter_filter]
    refine List.filter_congr fun w _ => ?_
    rw [Membership.affects]
    cases m.detaches w <;> rfl
  rw [← hdetaches, ← hattaches]
  exact filter_append_perm _ _

/-- The mutator does nothing, or it moves the workspaces that it affects. -/
theorem apply_cases (list : List Workspace) :
    m.apply list = none ∧ ((owner m.field m.identifier list).map (·.id) = m.workspaceId ∨
        (∃ id, m.workspaceId = some id ∧ id ∉ ids list) ∨ list.filter m.affects = []) ∨
      ∃ affected, m.apply list = some (list.map m.moved, affected) ∧
        affected.Perm ((list.filter m.affects).map m.moved) ∧ list.filter m.affects ≠ [] ∧
        (owner m.field m.identifier list).map (·.id) ≠ m.workspaceId ∧
        ∀ id, m.workspaceId = some id → id ∈ ids list := by
  have hmem : ∀ id, list.any (·.id = id) = true ↔ id ∈ ids list := by
    intro id
    simp [ids]
  have hany : (m.workspaceId.any fun id => !list.any (·.id = id)) = true ↔
      ∃ id, m.workspaceId = some id ∧ id ∉ ids list := by
    simp only [Option.any_eq_true, Bool.not_eq_true', ← Bool.not_eq_true, hmem]
  have hperm := (@perm_affected list m).map m.moved
  dsimp only [Membership.apply]
  split_ifs with howner hunknown haffected
  · exact .inl ⟨rfl, .inl howner⟩
  · exact .inl ⟨rfl, .inr (.inl (hany.1 hunknown))⟩
  · refine .inl ⟨rfl, .inr (.inr ?_)⟩
    have hnil := map_eq_nil_iff.1 haffected
    exact eq_nil (hnil ▸ (perm_affected m).symm)
  · refine .inr ⟨_, rfl, hperm, fun hnil => haffected ?_, howner, fun id hid => ?_⟩
    · rw [map_eq_nil_iff]
      exact eq_nil (hnil ▸ perm_affected m)
    · by_contra hid'
      exact hunknown (hany.2 ⟨id, hid, hid'⟩)

/-- Two choices of workspaces are told alike just where they agree. -/
theorem perm_ids_iff (hnodup : (ids list).Nodup) (p q : Workspace → Bool) :
    ((list.filter p).map (·.id)).Perm ((list.filter q).map (·.id)) ↔
      ∀ w ∈ list, p w = true ↔ q w = true := by
  constructor
  · intro h w hw
    have hmem : ∀ r : Workspace → Bool, w.id ∈ (list.filter r).map (·.id) ↔ r w = true := by
      intro r
      rw [List.mem_map]
      constructor
      · rintro ⟨v, hv, heq⟩
        rw [mem_filter] at hv
        rw [← eq_of_id hnodup hv.1 hw heq]
        exact hv.2
      · intro hr
        exact ⟨w, mem_filter.2 ⟨hw, hr⟩, rfl⟩
    rw [← hmem p, ← hmem q]
    exact h.mem_iff
  · intro h
    rw [List.filter_congr fun w hw => Bool.eq_iff_iff.2 (h w hw)]

theorem told_iff {list' affected : List Workspace} :
    (∀ s : WorkspacesTab, ∃ news,
        (s.settle (some (list', .membership field affected))).told = s.told ++ news ∧
          news.Perm ((changedIds field list list').map (Told.membershipChanged field))) ↔
      (affected.map (·.id)).Perm (changedIds field list list') := by
  have hsettle : ∀ s : WorkspacesTab, (s.settle (some (list', .membership field affected))).told =
        s.told ++ (affected.map (·.id)).map (Told.membershipChanged field) := by
    intro s
    rw [List.map_map]
    rfl
  have hinj : Function.Injective (Told.membershipChanged field) := by
    intro a b h
    injection h
  constructor
  · intro h
    obtain ⟨news, heq, hperm⟩ := h ⟨[], [], [], [], []⟩
    rw [hsettle] at heq
    rw [← append_cancel_left heq] at hperm
    exact (map_perm_map_iff hinj).1 hperm
  · intro h s
    exact ⟨_, hsettle s, h.map _⟩

/-! ### Operations -/

/-- An operation that writes nothing is right where each workspace is as it is to be. -/
theorem meant_none_iff : op.Meant field identifier list none ↔
    ((∀ id ∈ op.named, id ∈ ids list) → ∀ w ∈ list,
      (identifier ∈ field.get w ↔ op.Listed w.id (identifier ∈ field.get w))) := by
  have hstored : storedAfter list none = list := rfl
  constructor
  · intro h hknown w hw
    have hplaced := h.placed hknown
    rw [hstored, List.forall₂_same] at hplaced
    exact (hplaced w hw).listed
  · intro h
    refine ⟨fun hknown => ?_, fun _ => rfl, fun _ => rfl, fun s => ⟨[], ?_, ?_⟩⟩
    · rw [hstored, List.forall₂_same]
      intro w hw
      exact ⟨set_get.symm, rfl, h hknown w hw, fun _ => rfl, fun a => Nat.le_max_right 1 _⟩
    · exact (append_nil _).symm
    · rw [hstored, changedIds_self]
      exact List.Perm.refl []

theorem apply_of_unknown (h : ∃ id ∈ op.named, id ∉ ids list) :
    (op.membership field identifier).apply list = none := by
  obtain ⟨id, hnamed, hid⟩ := h
  obtain ⟨hnone, -⟩ | ⟨affected, -, -, hne, -, hknown⟩ :=
    apply_cases (op.membership field identifier) list
  · exact hnone
  · cases op with
    | move target => exact absurd (hknown id hnamed) hid
    | add target => exact absurd (hknown id hnamed) hid
    | remove target =>
      obtain ⟨w, hw⟩ := exists_mem_of_ne_nil _ hne
      obtain ⟨hmem, haffects⟩ := mem_filter.1 hw
      cases hnamed
      exact (hid (List.mem_map.2 ⟨w, hmem, (affects_remove.1 haffects).1.symm⟩)).elim

/-- An operation that writes is right where no workspace that it moves to is as it was. -/
theorem meant_some_iff (hnodup : (ids list).Nodup) {affected : List Workspace}
    (happly : (op.membership field identifier).apply list =
      some (list.map (op.membership field identifier).moved, affected))
    (hperm : affected.Perm ((list.filter (op.membership field identifier).affects).map
      (op.membership field identifier).moved))
    (hchanged : ∃ w ∈ list, field.get ((op.membership field identifier).moved w) ≠ field.get w) :
    op.Meant field identifier list
        (some (list.map (op.membership field identifier).moved, .membership field affected)) ↔
      ∀ w ∈ list, op = move (some w.id) → ¬EndsWith identifier (field.get w) := by
  have hids : (affected.map (·.id)).Perm
      ((list.filter (op.membership field identifier).affects).map (·.id)) := by
    refine (hperm.map _).trans ?_
    rw [List.map_map]
    exact of_eq (map_congr_left fun w _ => Membership.id_moved _ w)
  have htold : (affected.map (·.id)).Perm
        (changedIds field list (list.map (op.membership field identifier).moved)) ↔
      ∀ w ∈ list, op = move (some w.id) → ¬EndsWith identifier (field.get w) := by
    rw [changedIds_map, hids.congr_left, perm_ids_iff hnodup]
    refine forall₂_congr fun w _ => ?_
    rw [decide_eq_true_iff, ne_comm, changed_iff, not_and]
    refine ⟨fun h hop hends => ?_, fun h => (and_iff_left h).symm⟩
    have haffects : (op.membership field identifier).affects w = true := by
      subst hop
      exact affects_move.2 (.inr rfl)
    exact (h.1 haffects).2 hop hends
  constructor
  · intro h
    exact htold.1 (told_iff.1 h.told)
  · intro h
    refine ⟨fun _ => ?_, fun hunknown => ?_, fun hquiet => ?_, told_iff.2 (htold.2 h)⟩
    · change List.Forall₂ _ list (list.map _)
      rw [List.forall₂_map_right_iff, List.forall₂_same]
      exact fun w _ => op.placed_moved
    · rw [op.apply_of_unknown hunknown] at happly
      cases happly
    · obtain ⟨w, hw, hne⟩ := hchanged
      change list.map _ = list at hquiet
      have hself : ∀ w ∈ list, (op.membership field identifier).moved w = w :=
        map_inj_left.1 (hquiet.trans (List.map_id' list).symm)
      exact absurd (congrArg field.get (hself w hw)) hne

theorem owner_spec (h : owner field identifier list = some w) :
    w ∈ list ∧ identifier ∈ field.get w := by
  have hcontains := find?_some (p := fun w => (field.get w).contains identifier) h
  exact ⟨mem_of_find?_eq_some h, contains_iff_mem.1 hcontains⟩

theorem exists_owner (hw : w ∈ list) (h : identifier ∈ field.get w) :
    ∃ v, owner field identifier list = some v :=
  isSome_iff_exists.1 (find?_isSome.2 ⟨w, hw, contains_iff_mem.2 h⟩)

theorem not_mem_of_owner_none (h : (owner field identifier list).map (·.id) = none)
    (hw : w ∈ list) : identifier ∉ field.get w := by
  intro hmem
  obtain ⟨v, hv⟩ := exists_owner hw hmem
  rw [hv] at h
  cases h

/-- The only owner that is looked at is the workspace of its id. -/
theorem owner_eq (hnodup : (ids list).Nodup) {id : String}
    (h : (owner field identifier list).map (·.id) = some id) (hw : w ∈ list) (hid : w.id = id) :
    owner field identifier list = some w := by
  obtain ⟨v, hv, rfl⟩ := map_eq_some_iff.1 h
  rw [hv, eq_of_id hnodup hw (owner_spec hv).1 hid]

theorem not_affects (h : list.filter m.affects = []) (hw : w ∈ list) : m.affects w ≠ true :=
  filter_eq_nil_iff.1 h w hw

/-- Why an identifier that is moved to a workspace is not: the workspace is the first to list it. -/
theorem meant_move_iff (hnodup : (ids list).Nodup)
    (hwhy : (owner field identifier list).map (·.id) = some id ∨
      (∃ id', some id = some id' ∧ id' ∉ ids list) ∨
      list.filter ((move (some id)).membership field identifier).affects = []) :
    ((∀ id' ∈ (move (some id)).named, id' ∈ ids list) → ∀ w ∈ list, (identifier ∈ field.get w ↔
          (move (some id)).Listed w.id (identifier ∈ field.get w))) ↔
      (move (some id)).Fits field identifier list := by
  have hnot : (∀ w ∈ list, w.id ≠ id) →
      (((∀ id' ∈ (move (some id)).named, id' ∈ ids list) → ∀ w ∈ list, (identifier ∈ field.get w ↔
          (move (some id)).Listed w.id (identifier ∈ field.get w))) ↔
      (move (some id)).Fits field identifier list) := by
    intro hne
    refine iff_of_true (fun hknown => ?_) fun w hw hid => absurd hid (hne w hw)
    obtain ⟨w, hw, hid⟩ := List.mem_map.1 (hknown id rfl)
    exact absurd hid (hne w hw)
  rcases hwhy with howner | ⟨id', heq, hid'⟩ | hnil
  · obtain ⟨o, ho, hoid⟩ := map_eq_some_iff.1 howner
    obtain ⟨hmem, hlists⟩ := owner_spec ho
    have hknown : ∀ id' ∈ (move (some id)).named, id' ∈ ids list := by
      rintro id' ⟨⟩
      exact List.mem_map.2 ⟨o, hmem, hoid⟩
    constructor
    · intro h w hw hid hwlists
      refine .inl fun v hv hvlists => ?_
      have hvid : some id = some v.id := (h hknown v hv).1 hvlists
      exact eq_of_id hnodup hv hw ((some.inj hvid).symm.trans hid.symm)
    · intro hfits _ w hw
      obtain halone | ⟨hne, -⟩ := hfits o hmem hoid hlists
      · constructor
        · intro hwlists
          rw [halone w hw hwlists]
          exact congrArg some hoid.symm
        · intro hid
          rw [eq_of_id hnodup hw hmem ((some.inj hid).symm.trans hoid.symm)]
          exact hlists
      · exact absurd ho hne
  · cases heq
    exact hnot fun w hw hid => hid' (List.mem_map.2 ⟨w, hw, hid⟩)
  · refine hnot fun w hw hid => not_affects _ hnil hw ?_
    exact affects_move.2 (.inr (congrArg some hid.symm))

/-- An operation that writes changes a workspace: beside one that it moves to and that is as it was
stands the first to list the identifier. -/
theorem exists_changed {op : MembershipOperation}
    (howner : (owner field identifier list).map (·.id) ≠
      (op.membership field identifier).workspaceId) (hw : w ∈ list)
    (haffects : (op.membership field identifier).affects w = true) :
    ∃ w ∈ list, field.get ((op.membership field identifier).moved w) ≠ field.get w := by
  by_cases hends : op = move (some w.id) ∧ EndsWith identifier (field.get w)
  · obtain ⟨rfl, l, -, hl⟩ := hends
    have hwlists : identifier ∈ field.get w := by simp [hl]
    obtain ⟨v, hv⟩ := exists_owner hw hwlists
    obtain ⟨hmem, hlists⟩ := owner_spec hv
    refine ⟨v, hmem, (changed_iff _).2 ⟨affects_move.2 (.inl hlists), fun h => ?_⟩⟩
    have hid : move (some w.id) = move (some v.id) := h.1
    injection hid with hid
    rw [hv] at howner
    exact howner hid.symm
  · exact ⟨w, hw, (changed_iff op).2 ⟨haffects, hends⟩⟩

/-- Where an operation writes, the workspace that it moves to is not the first to list the
identifier. -/
theorem fits_iff_of_moved {op : MembershipOperation}
    (howner : (owner field identifier list).map (·.id) ≠
      (op.membership field identifier).workspaceId) :
    (∀ w ∈ list, op = move (some w.id) → ¬EndsWith identifier (field.get w)) ↔
      op.Fits field identifier list := by
  cases op with
  | move target =>
    cases target with
    | none => exact iff_of_true (fun w _ h => nomatch h) trivial
    | some id =>
      constructor
      · rintro h w hw rfl _
        refine .inr ⟨fun heq => howner ?_, h w hw rfl⟩
        rw [heq]
        rfl
      · intro hfits w hw hop hends
        have hid : w.id = id := by
          injection hop with hop
          exact (some.inj hop).symm
        have hlists : identifier ∈ field.get w := by
          obtain ⟨l, -, hl⟩ := hends
          simp [hl]
        obtain halone | ⟨-, hnot⟩ := hfits w hw hid hlists
        · obtain ⟨v, hv⟩ := exists_owner hw hlists
          obtain ⟨hmem, hvlists⟩ := owner_spec hv
          refine howner ?_
          rw [hv, halone v hmem hvlists, map_some, hid]
          rfl
        · exact hnot hends
  | add id => exact iff_of_true (fun w _ h => nomatch h) trivial
  | remove id => exact iff_of_true (fun w _ h => nomatch h) trivial

theorem membership_meant_iff (hnodup : (ids list).Nodup) (op : MembershipOperation) :
    op.Meant field identifier list
        (membershipMutator (op.membership field identifier) list) ↔
      op.Fits field identifier list := by
  have hf : (op.membership field identifier).field = field := by cases op <;> rfl
  have hi : (op.membership field identifier).identifier = identifier := by cases op <;> rfl
  have hcases := apply_cases (op.membership field identifier) list
  rw [hf, hi] at hcases
  obtain ⟨hnone, hwhy⟩ | ⟨affected, happly, hperm, hne, howner, -⟩ := hcases
  · rw [membershipMutator, hnone, map_none, meant_none_iff]
    cases op with
    | move target =>
      cases target with
      | none =>
        refine iff_of_true (fun _ w hw => iff_of_false ?_ fun h => nomatch h) trivial
        obtain howner | ⟨id, heq, -⟩ | hnil := hwhy
        · exact not_mem_of_owner_none howner hw
        · cases heq
        · exact fun hmem => not_affects _ hnil hw (affects_move.2 (.inl hmem))
      | some id => exact meant_move_iff hnodup hwhy
    | add id =>
      refine iff_of_true (fun hknown w hw => ⟨.inr, ?_⟩) trivial
      rintro (hid | hmem)
      · obtain howner | ⟨id', heq, hid'⟩ | hnil := hwhy
        · exact (owner_spec (owner_eq hnodup howner hw hid.symm)).2
        · exact absurd (hknown id' heq) hid'
        · by_contra hmem
          exact not_affects _ hnil hw (affects_add.2 ⟨hid, hmem⟩)
      · exact hmem
    | remove id =>
      refine iff_of_true (fun hknown w hw => ⟨fun hmem => ⟨fun hid => ?_, hmem⟩, And.right⟩) trivial
      obtain howner | ⟨id', heq, -⟩ | hnil := hwhy
      · exact not_mem_of_owner_none howner hw hmem
      · cases heq
      · exact not_affects _ hnil hw (affects_remove.2 ⟨hid, hmem⟩)
  · rw [membershipMutator, happly, map_some, hf, meant_some_iff op hnodup happly hperm]
    · exact fits_iff_of_moved howner
    · obtain ⟨w, hw⟩ := exists_mem_of_ne_nil _ hne
      exact exists_changed howner (mem_filter.1 hw).1 (mem_filter.1 hw).2

/-- A report of the first workspace moves to the second. -/
theorem membership_meant_iff_moved :
    (move (some "b")).Meant .reports "r"
      [⟨"a", "A", "k", ["r", "s"], [], 0⟩, ⟨"b", "B", "k", ["t"], [], 0⟩]
      (membershipMutator ((move (some "b")).membership .reports "r")
        [⟨"a", "A", "k", ["r", "s"], [], 0⟩, ⟨"b", "B", "k", ["t"], [], 0⟩]) := by
  refine (membership_meant_iff (by decide +kernel) _).2 ?_
  intro w hw hid hlists
  rw [mem_cons, mem_singleton] at hw
  obtain rfl | rfl := hw
  · exact absurd hid (by decide)
  · exact absurd hlists (by decide)

/-- A report that two workspaces list stays in the second when it moves to the first. -/
theorem not_meant_of_two_owners :
    ¬(move (some "a")).Meant .reports "r"
      [⟨"a", "A", "k", ["r"], [], 0⟩, ⟨"b", "B", "k", ["r"], [], 0⟩]
      (membershipMutator ((move (some "a")).membership .reports "r")
        [⟨"a", "A", "k", ["r"], [], 0⟩, ⟨"b", "B", "k", ["r"], [], 0⟩]) := by
  have hnone : membershipMutator ((move (some "a")).membership .reports "r")
      [⟨"a", "A", "k", ["r"], [], 0⟩, ⟨"b", "B", "k", ["r"], [], 0⟩] = none := by
    decide +kernel
  rw [hnone, meant_none_iff]
  intro h
  have hlisted := h (by rintro id ⟨⟩; decide) ⟨"b", "B", "k", ["r"], [], 0⟩ (by decide)
  have heq : some "a" = some "b" := hlisted.1 (by decide)
  exact absurd heq (by decide)

end MembershipOperation

end Triage.Client
