import Triage.Data.Grouping
import Mathlib.Data.List.Perm.Basic
import Mathlib.Order.Bounds.Basic
import Mathlib.Order.MinMax

/-!
# What a version holds and what changed, as one list

What calls for a look at a version is what it holds and what changed against the version it is
compared with. A change to what it holds is folded into the held finding of its kind, which keeps
its place and is at least as severe as either; every other change is listed on its own.

## Main results

* `foldl_fold` : what folding the changes one after another makes.
* `npmCombinedFindings_spec` : **nothing is lost, and no held finding becomes less severe.**
-/

namespace Triage.CombinedFindings

open List Option Grouping Prod

/-- How severe a finding is, the least first. -/
inductive Severity where
  | notice
  | low
  | moderate
  | high
  | critical
deriving DecidableEq, Repr

/-- The severities, the most first. -/
def SEVERITIES : List Severity := [.critical, .high, .moderate, .low, .notice]

/-- The more severe of two. -/
def higher (a b : Severity) : Severity :=
  SEVERITIES.getD (min (SEVERITIES.idxOf a) (SEVERITIES.idxOf b)) .notice

/-- A file of a finding: what it is found to do, and what of it the change brought. -/
structure FileRow (V : Type) where
  path : String
  found : Option V := none
  added : Option V := none
  obfuscation : Option V := none
deriving DecidableEq

structure DependencyRow (V : Type) where
  name : String
  kind : Option String := none
  range : Option V := none
  was : Option V := none
  now : Option V := none
  added : Bool := false
deriving DecidableEq

/-- A finding; `V` is what its rows and its other fields hold. -/
structure Finding (V : Type) where
  id : String
  severity : Severity
  files : List (FileRow V) := []
  dependencies : List (DependencyRow V) := []
  flagged : Option V := none
  was : Option V := none
  other : Option V := none
deriving DecidableEq

variable {V : Type}

/-! ### How changes are folded -/

/-- The row of a path or a name that counts where several are listed: the last. -/
def rowOf {R : Type} (rows : List R) (p : R → Bool) : Option R := rows.reverse.find? p

/-- The held finding with its files marked by what the change says of them. -/
def marked (held : Finding V) (rows : List (FileRow V)) (key : FileRow V → Option V) : Finding V :=
  { held with files := held.files.map fun row =>
      match rowOf rows (·.path = row.path) with
      | some changed => { row with added := key changed }
      | none => row }

def dependencyKey (row : DependencyRow V) : String := row.kind.getD "" ++ "\x00" ++ row.name

/-- What a change marks of the held finding. -/
inductive Fold where
  | added
  | keep
  | obfuscation
  | scripts
  | nonRegistry
  | unused
deriving DecidableEq

def Fold.apply (fold : Fold) (held change : Finding V) : Finding V :=
  match fold with
  | added => marked held change.files (·.added)
  | keep => held
  | obfuscation => marked held change.files (·.obfuscation)
  | scripts => { held with flagged := change.flagged, was := change.was }
  | nonRegistry =>
    { held with dependencies := held.dependencies.map fun row =>
        match rowOf change.dependencies (·.name = row.name) with
        | some changed => { row with was := changed.was, added := true }
        | none => row }
  | unused =>
    { held with dependencies := held.dependencies.map fun row =>
        if dependencyKey row ∈ change.dependencies.map dependencyKey then { row with added := true }
        else row }

def HOST_TAGS : List String := ["Exfiltration", "Remote", "IP lookup"]

/-- A tag's finding, as its id names it. -/
def npmHostFinding (tag : String) : String :=
  String.ofList (tag.toList.map fun c => if c = ' ' then '-' else c.toLower)

/-- By a change's id, the held finding it is folded into, and how. -/
def FOLDS : List (String × String × Fold) :=
  [ ("runs-code", "held-runs-code", .added),
    ("kept-runs-code", "held-runs-code", .keep),
    ("credentials", "held-credentials", .added),
    ("kept-credentials", "held-credentials", .keep),
    ("obfuscated", "held-obfuscated", .obfuscation),
    ("install-scripts", "held-install-scripts", .scripts),
    ("non-registry-deps", "held-non-registry-deps", .nonRegistry),
    ("unused-deps", "held-unused-deps", .unused) ] ++
  (HOST_TAGS.map npmHostFinding).map fun id => (id, "held-" ++ id, .added)

def foldOf (change : Finding V) : Option (String × Fold) :=
  (FOLDS.find? (·.1 = change.id)).map (·.2)

/-- Who published the version and how is read ahead of what it holds. -/
def FIRST : List String := ["publisher", "provenance-lost"]

/-! ### The list -/

/-- The held findings by their ids, as changed so far, and the changes that none of them took. -/
structure Combining (V : Type) where
  combined : List (String × Finding V)
  rest : List (Finding V) := []

/-- What becomes of a held finding that a change is folded into. -/
def folded (fold : Fold) (into change : Finding V) : Finding V :=
  { fold.apply into change with severity := higher into.severity change.severity }

def take (state : Combining V) (change : Finding V) : Combining V :=
  match foldOf change with
  | none => { state with rest := state.rest ++ [change] }
  | some (id, fold) =>
    match Grouping.get id state.combined with
    | none => { state with rest := state.rest ++ [change] }
    | some into =>
      { state with combined := Grouping.alter id (fun _ => folded fold into change) state.combined }

/-- The held findings by their ids; of several of one id the last counts, at the first's place. -/
def heldById (held : List (Finding V)) : List (String × Finding V) :=
  Grouping.collect (·.id) (fun finding => finding) (fun finding _ => finding) held

def combining (held changed : List (Finding V)) : Combining V :=
  changed.foldl take { combined := heldById held }

def npmCombinedFindings (held changed : List (Finding V)) : List (Finding V) :=
  let state := combining held changed
  state.rest.filter (·.id ∈ FIRST) ++ state.combined.map Prod.snd ++
    state.rest.filter (·.id ∉ FIRST)

/-! ### Severities -/

def Severity.rank : Severity → ℕ
  | notice => 0
  | low => 1
  | moderate => 2
  | high => 3
  | critical => 4

theorem Severity.rank_injective : Function.Injective Severity.rank := by
  intro a b h
  cases a <;> cases b <;> first | rfl | cases h

instance : LinearOrder Severity := LinearOrder.lift' Severity.rank Severity.rank_injective

theorem higher_eq_max (a b : Severity) : higher a b = max a b := by
  cases a <;> cases b <;> rfl

/-! ### What folding makes -/

/-- A change is to what the held finding of this id holds. -/
def targets (id : String) (change : Finding V) : Bool :=
  (foldOf change).any (·.1 = id)

/-- What becomes of a held finding by a change to it. -/
def foldChange (into change : Finding V) : Finding V :=
  match foldOf change with
  | some (_, fold) => folded fold into change
  | none => into

/-- A held finding takes the change. -/
def taken (base : List (String × Finding V)) (change : Finding V) : Bool :=
  (foldOf change).any (·.1 ∈ base.map Prod.fst)

theorem Fold.apply_id (fold : Fold) (held change : Finding V) :
    (fold.apply held change).id = held.id := by
  cases fold <;> rfl

theorem foldChange_id (into change : Finding V) : (foldChange into change).id = into.id := by
  rw [foldChange]
  split
  · exact Fold.apply_id _ _ _
  · rfl

theorem foldl_foldChange_id (into : Finding V) (changes : List (Finding V)) :
    (changes.foldl foldChange into).id = into.id := by
  induction changes generalizing into with
  | nil => rfl
  | cons change changes ih => rw [foldl_cons, ih, foldChange_id]

/-- A base with the changes to each of its findings folded in. -/
def foldedBase (base : List (String × Finding V)) (changed : List (Finding V)) :
    List (String × Finding V) :=
  base.map fun p => (p.1, (changed.filter (targets p.1)).foldl foldChange p.2)

variable (base : List (String × Finding V)) (changed : List (Finding V))

theorem keys_foldedBase : (foldedBase base changed).map fst = base.map fst := by
  rw [foldedBase, List.map_map]
  rfl

theorem foldedBase_append (change : Finding V) : foldedBase base (changed ++ [change]) =
      (foldedBase base changed).map fun p =>
        if targets p.1 change then (p.1, foldChange p.2 change) else p := by
  rw [foldedBase, foldedBase, List.map_map]
  refine map_congr_left fun p _ => ?_
  by_cases h : targets p.1 change <;> simp [filter_append, h]

variable {change : Finding V} {base : List (String × Finding V)}

/-- A change that none of the findings takes leaves them as they are. -/
theorem foldedBase_append_of_not_taken (h : taken base change = false)
    (changed : List (Finding V)) :
    foldedBase base (changed ++ [change]) = foldedBase base changed := by
  rw [foldedBase_append]
  refine (map_congr_left fun p hp => if_neg ?_).trans (List.map_id' _)
  have hkey : p.1 ∈ base.map fst := by
    rw [← keys_foldedBase base changed]
    exact List.mem_map_of_mem hp
  intro htargets
  obtain ⟨target, hfold, hid⟩ := (Option.any_eq_true _ _).1 htargets
  rw [taken, hfold, any_some, decide_eq_false_iff_not, of_decide_eq_true hid] at h
  exact h hkey

/-- **What folding one change after another makes**: each held finding with the changes to it, and
the changes that none took, in their order. -/
theorem foldl_take (hbase : (base.map fst).Nodup) (changed : List (Finding V)) :
    changed.foldl take { combined := base } =
      { combined := foldedBase base changed, rest := changed.filter fun c => !taken base c } := by
  induction changed using reverseRecOn with
  | nil => simp [foldedBase]
  | append_singleton changed change ih =>
    have hkeys := keys_foldedBase base changed
    have hnodup : ((foldedBase base changed).map fst).Nodup := by rwa [hkeys]
    rw [foldl_append, ih, foldl_cons, foldl_nil, filter_append, take]
    cases hfold : foldOf change with
    | none =>
      have hnot : taken base change = false := by simp [taken, hfold]
      simp [foldedBase_append_of_not_taken hnot, hnot]
    | some target =>
      obtain ⟨id, fold⟩ := target
      cases hget : get id (foldedBase base changed) with
      | none =>
        have hnot : taken base change = false := by
          rw [taken, hfold, any_some, decide_eq_false_iff_not, ← hkeys]
          intro hid
          obtain ⟨into, hinto⟩ := get_isSome hid
          rw [hget] at hinto
          cases hinto
        simp [foldedBase_append_of_not_taken hnot, hnot, hget]
      | some into =>
        have hid : id ∈ (foldedBase base changed).map fst :=
          List.mem_map.2 ⟨_, mem_of_get hget, rfl⟩
        have htaken : taken base change = true := by
          rw [taken, hfold, any_some, decide_eq_true_iff, ← hkeys]
          exact hid
        have hrest : [change].filter (fun c => !taken base c) = [] := by simp [htaken]
        simp only [hget, hrest, append_nil, Combining.mk.injEq, and_true,
          alter_eq_map hnodup hid, foldedBase_append]
        refine map_congr_left fun p hp => ?_
        have htargets : targets p.1 change = decide (id = p.1) := by simp [targets, hfold]
        rw [htargets]
        by_cases hp1 : p.1 = id
        · -- the finding of this id is the one that is found by it
          have hinto : p.2 = into := by
            rw [← hp1, get_eq_of_mem hnodup hp] at hget
            exact some.inj hget
          simp [hp1, hinto, foldChange, hfold]
        · simp [hp1, Ne.symm hp1]

/-! ### The severity of a held finding with changes -/

variable {id : String}

theorem foldChange_severity (h : targets id change = true)
    (into : Finding V) : (foldChange into change).severity = max into.severity change.severity := by
  obtain ⟨⟨target, fold⟩, hfold, -⟩ := (Option.any_eq_true _ _).1 h
  rw [foldChange, hfold]
  exact higher_eq_max _ _

/-- It is the greatest of its own and those of the changes folded into it. -/
theorem isGreatest_severity (changes : List (Finding V))
    (h : ∀ change ∈ changes, targets id change = true) (into : Finding V) :
    IsGreatest {s | s = into.severity ∨ ∃ change ∈ changes, s = change.severity}
      (changes.foldl foldChange into).severity := by
  induction changes generalizing into with
  | nil => simp [IsGreatest, upperBounds]
  | cons change changes ih =>
    obtain ⟨hchange, hrest⟩ := forall_mem_cons.1 h
    obtain ⟨hmem, hub⟩ := ih hrest (foldChange into change)
    have hsev := foldChange_severity hchange into
    have hle := hub (.inl rfl)
    rw [hsev] at hle
    rw [foldl_cons]
    constructor
    · rcases hmem with hmem | ⟨c, hc, hmem⟩
      · rw [hmem, hsev]
        rcases max_choice into.severity change.severity with hmax | hmax
        · exact .inl hmax
        · exact .inr ⟨change, mem_cons_self, hmax⟩
      · exact .inr ⟨c, mem_cons_of_mem _ hc, hmem⟩
    · rintro s (rfl | ⟨c, hc, rfl⟩)
      · exact (le_max_left _ _).trans hle
      · rcases mem_cons.1 hc with rfl | hc
        · exact (le_max_right _ _).trans hle
        · exact hub (.inr ⟨c, hc, rfl⟩)

/-! ### The order of the changes -/

/-- Of two changes of other ids to one finding, one marks nothing of it. -/
theorem keep_of_same_target : ∀ e ∈ FOLDS, ∀ e' ∈ FOLDS, e.1 ≠ e'.1 → e.2.1 = e'.2.1 →
    e.2.2 = .keep ∨ e'.2.2 = .keep := by
  decide +kernel

theorem mem_FOLDS_of_foldOf {target : String × Fold}
    (h : foldOf change = some target) : (change.id, target) ∈ FOLDS := by
  obtain ⟨entry, hentry, rfl⟩ := map_eq_some_iff.1 h
  have hid := find?_some hentry
  rw [← of_decide_eq_true hid]
  exact mem_of_find?_eq_some hentry

/-- A kept kind of change marks nothing, so it goes before or after any other. -/
theorem folded_keep_comm (fold : Fold) (into a b : Finding V) :
    folded fold (folded .keep into a) b = folded .keep (folded fold into b) a := by
  cases fold <;>
    simp only [folded, Fold.apply, marked, higher_eq_max, max_assoc, max_comm a.severity]

theorem foldChange_comm {a b : Finding V} (ha : targets id a = true)
    (hb : targets id b = true) (hne : a.id ≠ b.id) (into : Finding V) :
    foldChange (foldChange into a) b = foldChange (foldChange into b) a := by
  obtain ⟨⟨ta, fa⟩, hfa, hta⟩ := (Option.any_eq_true _ _).1 ha
  obtain ⟨⟨tb, fb⟩, hfb, htb⟩ := (Option.any_eq_true _ _).1 hb
  have heq : ta = tb := (of_decide_eq_true hta).trans (of_decide_eq_true htb).symm
  simp only [foldChange, hfa, hfb]
  rcases keep_of_same_target _ (mem_FOLDS_of_foldOf hfa) _ (mem_FOLDS_of_foldOf hfb) hne heq with
    hkeep | hkeep
  · obtain rfl : fa = .keep := hkeep
    exact folded_keep_comm fb into a b
  · obtain rfl : fb = .keep := hkeep
    exact (folded_keep_comm fa into b a).symm

theorem foldl_foldChange_perm {changes changes' : List (Finding V)}
    (hperm : changes.Perm changes') (hnodup : (changes.map (·.id)).Nodup)
    (h : ∀ change ∈ changes, targets id change = true) (into : Finding V) :
    changes.foldl foldChange into = changes'.foldl foldChange into := by
  refine hperm.foldl_eq' ?_ into
  intro a ha b hb z
  by_cases hab : a = b
  · rw [hab]
  · refine foldChange_comm (h a ha) (h b hb) (fun heq => hab ?_) z
    exact inj_on_of_nodup_map hnodup ha hb heq

/-! ### The list -/

theorem nodup_heldById (held : List (Finding V)) : ((heldById held).map fst).Nodup :=
  nodup_keys_collect held

theorem key_of_mem_heldById {held : List (Finding V)} :
    ∀ p ∈ heldById held, p.2.id = p.1 ∧ p.2 ∈ held := by
  refine forall_collect (I := fun k v => v.id = k ∧ v ∈ held) ?_ ?_
  · exact fun p hp => ⟨rfl, hp⟩
  · exact fun p hp _ _ => ⟨rfl, hp⟩

theorem mem_keys_heldById {held : List (Finding V)} :
    id ∈ (heldById held).map fst ↔ id ∈ held.map (·.id) := by
  rw [heldById, mem_keys_collect, List.mem_map]

theorem combining_eq (held changed : List (Finding V)) : combining held changed =
    { combined := foldedBase (heldById held) changed,
      rest := changed.filter fun c => !taken (heldById held) c } :=
  foldl_take (nodup_heldById held) changed

/-- The held findings of the list, with the changes folded in. -/
def keptRows (held changed : List (Finding V)) : List (Finding V) :=
  (combining held changed).combined.map Prod.snd

/-- The changes listed on their own. -/
def ownChanges (held changed : List (Finding V)) : List (Finding V) := (combining held changed).rest

theorem keptRows_map_id (held changed : List (Finding V)) :
    (keptRows held changed).map (·.id) = (heldById held).map fst := by
  rw [keptRows, combining_eq, foldedBase, List.map_map, List.map_map]
  refine map_congr_left fun p hp => ?_
  exact (foldl_foldChange_id _ _).trans (key_of_mem_heldById p hp).1

/-- What the list is made of a held finding: the finding with every change to it folded in. -/
def FoldedFrom (held changed : List (Finding V)) (row : Finding V) : Prop :=
  ∃ finding ∈ held, finding.id = row.id ∧
    row = (changed.filter (targets row.id)).foldl foldChange finding ∧
    IsGreatest {s | s = finding.severity ∨ ∃ c ∈ changed, targets row.id c = true ∧ s = c.severity}
      row.severity

variable {held changed : List (Finding V)}

theorem foldedFrom_of_mem : ∀ row ∈ keptRows held changed, FoldedFrom held changed row := by
  intro row hrow
  rw [keptRows, combining_eq, foldedBase, List.map_map] at hrow
  obtain ⟨p, hp, rfl⟩ := List.mem_map.1 hrow
  obtain ⟨hid, hmem⟩ := key_of_mem_heldById p hp
  have hrow : (snd ∘ fun p : String × Finding V =>
      (p.1, (changed.filter (targets p.1)).foldl foldChange p.2)) p =
        (changed.filter (targets p.1)).foldl foldChange p.2 := rfl
  have hrowid : ((changed.filter (targets p.1)).foldl foldChange p.2).id = p.1 :=
    (foldl_foldChange_id _ _).trans hid
  rw [hrow]
  refine ⟨p.2, hmem, hid.trans hrowid.symm, by rw [hrowid], ?_⟩
  rw [hrowid]
  have hset := isGreatest_severity (changed.filter (targets p.1))
    (fun c hc => (mem_filter.1 hc).2) p.2
  simpa only [mem_filter, and_assoc] using hset

/-- A change is listed on its own, or the held finding that it is to has it folded in. -/
theorem own_or_folded (h : change ∈ changed) :
    change ∈ ownChanges held changed ∨
      ∃ row ∈ keptRows held changed, targets row.id change = true := by
  by_cases htaken : taken (heldById held) change = true
  · obtain ⟨⟨id, fold⟩, hfold, hid⟩ := (Option.any_eq_true _ _).1 htaken
    have hmem : id ∈ (keptRows held changed).map (·.id) := by
      rw [keptRows_map_id]
      exact of_decide_eq_true hid
    obtain ⟨row, hrow, rfl⟩ := List.mem_map.1 hmem
    exact .inr ⟨row, hrow, by simp [targets, hfold]⟩
  · rw [ownChanges, combining_eq]
    exact .inl (mem_filter.2 ⟨h, by simpa using htaken⟩)

variable {held changed changed' : List (Finding V)}

theorem keptRows_perm (hperm : changed.Perm changed')
    (hnodup : (changed.map (·.id)).Nodup) : keptRows held changed' = keptRows held changed := by
  rw [keptRows, keptRows, combining_eq, combining_eq]
  simp only [foldedBase, List.map_map]
  refine map_congr_left fun p _ => ?_
  refine (@foldl_foldChange_perm _ p.1 _ _ (hperm.filter _) ?_ ?_ p.2).symm
  · exact hnodup.sublist (filter_sublist.map _)
  · exact fun c hc => (mem_filter.1 hc).2

theorem ownChanges_perm (hperm : changed.Perm changed') :
    (ownChanges held changed').Perm (ownChanges held changed) := by
  rw [ownChanges, ownChanges, combining_eq, combining_eq]
  exact (hperm.filter _).symm

/-- **Nothing is lost**: the list is the held findings, each id once, between the changes listed on
their own; every change is on its own or folded into the finding it is to, which is as severe as the
most severe of them all; and changes of different ids make the same held findings in any order, and
list the same on their own. -/
theorem npmCombinedFindings_spec (held changed : List (Finding V)) :
    npmCombinedFindings held changed =
        (ownChanges held changed).filter (·.id ∈ FIRST) ++ keptRows held changed ++
          (ownChanges held changed).filter (·.id ∉ FIRST) ∧
      ((keptRows held changed).map (·.id)).Nodup ∧
      (∀ id, id ∈ (keptRows held changed).map (·.id) ↔ id ∈ held.map (·.id)) ∧
      (∀ row ∈ keptRows held changed, FoldedFrom held changed row) ∧
      (∀ change ∈ changed, change ∈ ownChanges held changed ∨
        ∃ row ∈ keptRows held changed, targets row.id change = true) ∧
      ∀ changed', changed.Perm changed' → (changed.map (·.id)).Nodup →
        keptRows held changed' = keptRows held changed ∧
          (ownChanges held changed').Perm (ownChanges held changed) := by
  refine ⟨rfl, ?_, ?_, foldedFrom_of_mem, fun change h => own_or_folded h, ?_⟩
  · rw [keptRows_map_id]
    exact nodup_heldById held
  · intro id
    rw [keptRows_map_id]
    exact mem_keys_heldById
  · exact fun changed' hperm hnodup => ⟨keptRows_perm hperm hnodup, ownChanges_perm hperm⟩

/-- Two changes of one id mark a held file differently by which comes last. -/
theorem npmCombinedFindings_order :
    let held : Finding ℕ :=
      { id := "held-runs-code", severity := .high, files := [{ path := "a.js" }] }
    let first : Finding ℕ :=
      { id := "runs-code", severity := .high, files := [{ path := "a.js", added := some 1 }] }
    let second : Finding ℕ :=
      { id := "runs-code", severity := .high, files := [{ path := "a.js", added := some 2 }] }
    npmCombinedFindings [held] [first, second] ≠ npmCombinedFindings [held] [second, first] := by
  decide +kernel

end Triage.CombinedFindings
