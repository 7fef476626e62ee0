import Triage.Ui.HistoryLayout

/-!
# Lines of first parents

In a list of commits before their parents, the line of first parents goes down the list: each of its
commits is looked for below the one before.

## Main results

* `DateOrder.parentsAfter` : the order by date is such a list.
* `firstParentLine_eq` : the line of first parents is walked along it.
-/

namespace Triage.HistoryGraph

open Grouping List Option

set_option linter.unusedSectionVars false

variable {Sha T : Type*} [DecidableEq Sha]

/-- Commits of which each is listed before its parents. -/
structure ParentsAfter (commits : List (Commit Sha T)) : Prop where
  later : commits.Pairwise fun a b => a.sha ∉ b.parents
  self : ∀ commit ∈ commits, commit.sha ∉ commit.parents

variable {ordered : List (Commit Sha T)}

/-- An order by date lists commits before their parents. -/
theorem DateOrder.parentsAfter [LinearOrder T] {commits : List (Commit Sha T)}
    (h : DateOrder commits ordered) (hd : Distinct commits) : ParentsAfter ordered where
  later := by
    have hnodup : ordered.Nodup := (h.perm.nodup_iff).2 (List.Nodup.of_map _ hd)
    rw [pairwise_iff_getElem]
    intro i j hi hj hij hparent
    have hsplit : ordered = ordered.take i ++ ordered[i] :: ordered.drop (i + 1) := by
      rw [getElem_cons_drop, take_append_drop]
    have hfront := h.children _ _ _ hsplit ordered[j] (h.perm.subset (getElem_mem hj)) hparent
    obtain ⟨k, hk, heq⟩ := mem_take_iff_getElem.1 hfront
    have hkj : k = j := (hnodup.getElem_inj_iff).1 heq
    omega
  self := by
    have hnodup : ordered.Nodup := (h.perm.nodup_iff).2 (List.Nodup.of_map _ hd)
    intro c hc hparent
    obtain ⟨front, back, rfl⟩ := append_of_mem hc
    have hfront := h.children front c back rfl c (h.perm.subset hc) hparent
    exact (nodup_append.1 hnodup).2.2 c hfront c (mem_cons_self ..) rfl

/-! ### The walk -/

/-- The commits that first parents lead to, from one on, in a list of commits before their
parents. -/
def lineFrom : List (Commit Sha T) → Option Sha → List (Commit Sha T)
  | [], _ => []
  | commit :: rest, target =>
    if target = some commit.sha then commit :: lineFrom rest commit.parents.head?
    else lineFrom rest target

variable {rest : List (Commit Sha T)} {target : Option Sha}

theorem mem_of_mem_lineFrom {c : Commit Sha T} (h : c ∈ lineFrom rest target) : c ∈ rest := by
  induction rest generalizing target with
  | nil => exact h
  | cons commit rest ih =>
    rw [lineFrom] at h
    split at h
    · rcases mem_cons.1 h with rfl | h
      · exact mem_cons_self ..
      · exact mem_cons_of_mem _ (ih h)
    · exact mem_cons_of_mem _ (ih h)

theorem lineFrom_eq_nil (h : ∀ sha, target = some sha → sha ∉ rest.map Commit.sha) :
    lineFrom rest target = [] := by
  induction rest with
  | nil => rfl
  | cons commit rest ih =>
    rw [lineFrom, if_neg]
    · exact ih fun sha hsha hmem => h sha hsha (mem_cons_of_mem _ hmem)
    · exact fun heq => h _ heq (mem_cons_self ..)

theorem exists_mem_lineFrom {sha : Sha}
    (h : sha ∈ rest.map Commit.sha) : ∃ c ∈ lineFrom rest (some sha), c.sha = sha := by
  induction rest with
  | nil => cases h
  | cons commit rest ih =>
    rw [lineFrom]
    split
    · rename_i heq
      exact ⟨commit, mem_cons_self .., (some.inj heq).symm⟩
    · rename_i hne
      refine ih ((mem_cons.1 h).resolve_left ?_)
      rintro rfl
      exact hne rfl

section

variable (hd : Distinct ordered)
include hd

theorem get_bySha {sha : Sha} {c : Commit Sha T} :
    get sha (newMap (ordered.map fun commit => (commit.sha, commit))) = some c ↔
      c ∈ ordered ∧ c.sha = sha := by
  have hnodup : ((ordered.map fun commit => (commit.sha, commit)).map Prod.fst).Nodup := by
    rw [List.map_map]
    exact hd
  rw [newMap_eq_self hnodup, get_eq_some_iff hnodup, List.mem_map]
  constructor
  · rintro ⟨commit, hmem, heq⟩
    cases heq
    exact ⟨hmem, rfl⟩
  · rintro ⟨hmem, rfl⟩
    exact ⟨c, hmem, rfl⟩

theorem firstParents_eq (hafter : ParentsAfter ordered)
    {done rest : List (Commit Sha T)} (hsplit : done ++ rest = ordered)
    (htarget : ∀ sha, target = some sha → sha ∉ done.map Commit.sha) {line : List Sha}
    (hline : ∀ sha ∈ line, sha ∈ done.map Commit.sha) {turns : ℕ} (hturns : rest.length ≤ turns) :
    firstParents (newMap (ordered.map fun commit => (commit.sha, commit))) turns
        (target.bind (get · (newMap (ordered.map fun commit => (commit.sha, commit))))) line =
      line ++ (lineFrom rest target).map Commit.sha := by
  induction rest generalizing done target line turns with
  | nil =>
    have hnone : target.bind
        (get · (newMap (ordered.map fun commit => (commit.sha, commit)))) = none := by
      cases target with
      | none => rfl
      | some sha =>
        rw [bind_some, eq_none_iff_forall_ne_some]
        intro c hc
        obtain ⟨hmem, rfl⟩ := (get_bySha hd).1 hc
        rw [← hsplit, append_nil] at hmem
        exact htarget _ rfl (List.mem_map_of_mem hmem)
    rw [hnone]
    cases turns <;> exact (append_nil _).symm
  | cons c rest ih =>
    have hsplit' : (done ++ [c]) ++ rest = ordered := by
      rw [append_assoc, ← hsplit]
      rfl
    have hdone : ∀ {sha : Sha}, sha ∈ (done ++ [c]).map Commit.sha ↔
        sha ∈ done.map Commit.sha ∨ sha = c.sha := by
      intro sha
      rw [map_append, mem_append, map_singleton, mem_singleton]
    rw [lineFrom]
    split
    · rename_i heq
      obtain ⟨turns, rfl⟩ : ∃ n, turns = n + 1 :=
        Nat.exists_eq_succ_of_ne_zero (by
          rw [length_cons] at hturns
          omega)
      have hget : target.bind
          (get · (newMap (ordered.map fun commit => (commit.sha, commit)))) = some c := by
        rw [heq, bind_some]
        refine (get_bySha hd).2 ⟨?_, rfl⟩
        rw [← hsplit]
        exact mem_append_right _ (mem_cons_self ..)
      have hnew : c.sha ∉ line := fun hmem => htarget _ heq (hline _ hmem)
      rw [hget, firstParents, if_neg hnew, ih hsplit' ?_ ?_ (Nat.le_of_succ_le_succ hturns),
        append_assoc]
      · rfl
      · intro sha hsha hmem
        have hparent : sha ∈ c.parents := mem_of_head? hsha
        rw [← hsplit] at hafter
        rcases hdone.1 hmem with hmem | rfl
        · obtain ⟨a, ha, rfl⟩ := List.mem_map.1 hmem
          exact (pairwise_append.1 hafter.later).2.2 a ha c (mem_cons_self ..) hparent
        · exact hafter.self c (mem_append_right _ (mem_cons_self ..)) hparent
      · intro sha hsha
        rcases mem_append.1 hsha with hsha | hsha
        · exact hdone.2 (.inl (hline sha hsha))
        · exact hdone.2 (.inr (mem_singleton.1 hsha))
    · rename_i hne
      refine ih hsplit' ?_ (fun sha hsha => hdone.2 (.inl (hline sha hsha)))
        ((Nat.le_succ _).trans hturns)
      intro sha hsha hmem
      rcases hdone.1 hmem with hmem | rfl
      · exact htarget sha hsha hmem
      · exact hne hsha

/-- The line of first parents is walked along the order. -/
theorem firstParentLine_eq (hafter : ParentsAfter ordered) (tip : Sha) :
    firstParentLine ordered tip = (lineFrom ordered (some tip)).map Commit.sha := by
  have hnone : ∀ sha, some tip = some sha → sha ∉ ([] : List (Commit Sha T)).map Commit.sha :=
    fun _ _ => not_mem_nil
  have hnil : ∀ sha ∈ ([] : List Sha), sha ∈ ([] : List (Commit Sha T)).map Commit.sha :=
    fun _ h => h
  exact firstParents_eq hd hafter (nil_append _) hnone hnil le_rfl

end

end Triage.HistoryGraph
