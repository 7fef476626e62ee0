import Triage.Data.ReadyOrder
import Triage.Data.Tally
import Mathlib.Data.Prod.Lex

/-!
# The order of a repository's history

`historyOrder` of `history-graph.js` lists commits newest first, a commit only once every child of
it among them is listed. It keeps a list of the commits that are ready, the next one last, and
counts for each commit the children that are not listed yet; a parent whose last child is listed is
put in its place by bisection.

## Main results

* `OrderState.Inv.listNext` : one turn of the loop lists the commit of the highest rank.
* `historyOrder_greedy` : the order is the greedy one, for commits without a cycle.
-/

namespace Triage.HistoryGraph

open List HistoryGraph

/-- A commit; `committedAt` may be missing. -/
structure Commit (Sha T : Type*) where
  sha : Sha
  parents : List Sha
  committedAt : Option T
  deriving DecidableEq

set_option linter.unusedSectionVars false

open Grouping

variable {Sha T : Type*} [DecidableEq Sha] [LinearOrder T]

/-- `time`: minus infinity where it is missing. -/
def time (commit : Commit Sha T) : WithBot T :=
  match commit.committedAt with
  | none => ⊥
  | some date => (date : WithBot T)

/-- The map `index`. -/
def indexMap (commits : List (Commit Sha T)) : List (Sha × ℕ) :=
  newMap (commits.zipIdx.map fun c => (c.1.sha, c.2))

/-- Where a commit stands in the list. -/
def indexOf (index : List (Sha × ℕ)) (commit : Commit Sha T) : ℕ :=
  (get commit.sha index).getD 0

/-- `before`: by time, then the later in the list first. -/
def before (index : List (Sha × ℕ)) (a b : Commit Sha T) : Ordering :=
  (compare (time a) (time b)).then (compare (indexOf index b) (indexOf index a))

/-- The variables of the loop. -/
structure OrderState (Sha T : Type*) where
  /-- The children of each commit that are not listed yet. -/
  children : List (Sha × ℤ)
  ready : List (Commit Sha T)
  ordered : List (Commit Sha T)

/-- The children of each commit among those given. -/
def countChildren (commits : List (Commit Sha T)) : List (Sha × ℤ) :=
  commits.foldl
    (fun children commit => (newSet commit.parents).foldl
      (fun children parent =>
        if (get parent (indexMap commits)).isSome then
          alter parent (fun count => count.getD 0 + 1) children
        else children)
      children)
    (newMap (commits.map fun commit => (commit.sha, 0)))

/-- The state before the loop. -/
def startOrder (commits : List (Commit Sha T)) : OrderState Sha T where
  children := countChildren commits
  ready := (commits.filter fun commit => get commit.sha (countChildren commits) = some 0).mergeSort
    fun a b => before (indexMap commits) a b != .gt
  ordered := []

/-- A parent of the commit listed: ready once no child of it is left. -/
def takeParent (commits : List (Commit Sha T)) (s : OrderState Sha T) (parent : Sha) :
    OrderState Sha T :=
  match get parent (indexMap commits) with
  | none => s
  | some position =>
    let left := (get parent s.children).getD 0 - 1
    let s := { s with children := alter parent (fun _ => left) s.children }
    if 0 < left then s
    else
      match commits[position]? with
      | none => s
      | some next =>
        { s with
          ready := s.ready.insertIdx
            (bisect (fun c => before (indexMap commits) c next == .lt) s.ready 0 s.ready.length)
            next }

/-- One turn of the loop, for the commit taken from the end of `ready`. -/
def listNext (commits : List (Commit Sha T)) (s : OrderState Sha T) (commit : Commit Sha T) :
    OrderState Sha T :=
  (newSet commit.parents).foldl (takeParent commits)
    { s with ready := s.ready.dropLast, ordered := s.ordered ++ [commit] }

/-- The loop for a number of turns; `none` where it has not ended by then. -/
def orderLoop (commits : List (Commit Sha T)) :
    ℕ → OrderState Sha T → Option (List (Commit Sha T))
  | fuel, s =>
    match s.ready.getLast? with
    | none => some s.ordered
    | some commit =>
      match fuel with
      | 0 => none
      | fuel + 1 => orderLoop commits fuel (listNext commits s commit)

/-- `historyOrder` -/
def historyOrder (fuel : ℕ) (commits : List (Commit Sha T)) : Option (List (Commit Sha T)) :=
  orderLoop commits fuel (startOrder commits)

/-! ### The commits as a graph -/

/-- The commits, each below its parents, ranked by time and then by place in the list. -/
def historyGraph (commits : List (Commit Sha T)) :
    ReadyGraph (Commit Sha T) (WithBot T ×ₗ ℕᵒᵈ) where
  nodes := commits
  child child parent := parent.sha ∈ child.parents
  rank commit := toLex (time commit, OrderDual.toDual (indexOf (indexMap commits) commit))

/-- No two commits are alike. -/
def Distinct (commits : List (Commit Sha T)) : Prop := (commits.map Commit.sha).Nodup

variable {commits : List (Commit Sha T)}

variable {a b n : Commit Sha T}

theorem before_eq_lt : before (indexMap commits) a b = .lt ↔
    (historyGraph commits).rank a < (historyGraph commits).rank b := by
  rw [before, Ordering.then_eq_lt, compare_lt_iff_lt, compare_eq_iff_eq, compare_lt_iff_lt,
    historyGraph, Prod.Lex.toLex_lt_toLex]
  rfl

theorem before_ne_gt : (before (indexMap commits) a b != .gt) = true ↔
    (historyGraph commits).rank a ≤ (historyGraph commits).rank b := by
  rw [bne_iff_ne, ne_eq, before, Ordering.then_eq_gt, compare_gt_iff_gt, compare_eq_iff_eq,
    compare_gt_iff_gt, ← not_lt, historyGraph, Prod.Lex.toLex_lt_toLex, not_iff_not, eq_comm]
  rfl

namespace Distinct

variable (h : Distinct commits)
include h

theorem nodup : commits.Nodup := h.of_map _

theorem sha_inj {a b : Commit Sha T} (ha : a ∈ commits) (hb : b ∈ commits)
    (heq : a.sha = b.sha) : a = b := inj_on_of_nodup_map h ha hb heq

/-- The index of a known commit. -/
theorem get_indexMap {sha : Sha} {i : ℕ} :
    get sha (indexMap commits) = some i ↔ ∃ c, commits[i]? = some c ∧ c.sha = sha := by
  have hkeys : ((commits.zipIdx.map fun c => (c.1.sha, c.2)).map Prod.fst) =
      commits.map Commit.sha := by
    rw [map_map]
    exact (map_map (f := Prod.fst) (g := Commit.sha)).symm.trans
      (congrArg _ (zipIdx_map_fst 0 commits))
  have hnodup : ((commits.zipIdx.map fun c => (c.1.sha, c.2)).map Prod.fst).Nodup := hkeys ▸ h
  rw [indexMap, newMap_eq_self hnodup, get_eq_some_iff hnodup, mem_map]
  constructor
  · rintro ⟨⟨c, j⟩, hmem, heq⟩
    rw [Prod.mk.injEq] at heq
    obtain ⟨rfl, rfl⟩ := heq
    exact ⟨c, mem_zipIdx_iff_getElem?.1 hmem, rfl⟩
  · rintro ⟨c, hc, rfl⟩
    exact ⟨(c, i), mem_zipIdx_iff_getElem?.2 hc, rfl⟩

theorem rank_inj {a b : Commit Sha T} (ha : a ∈ commits) (hb : b ∈ commits)
    (heq : (historyGraph commits).rank a = (historyGraph commits).rank b) : a = b := by
  obtain ⟨i, hi⟩ := mem_iff_getElem?.1 ha
  obtain ⟨j, hj⟩ := mem_iff_getElem?.1 hb
  have hai := h.get_indexMap.2 ⟨a, hi, rfl⟩
  have hbj := h.get_indexMap.2 ⟨b, hj, rfl⟩
  have hij : i = j := by
    have hindex := congrArg (fun r => OrderDual.ofDual (ofLex r).2) heq
    simpa [historyGraph, indexOf, hai, hbj] using hindex
  subst hij
  rw [hi, Option.some.injEq] at hj
  exact hj

end Distinct

/-! ### Counting children -/

/-- The children of a commit that are not listed. -/
def left (commits listed : List (Commit Sha T)) (sha : Sha) : ℕ :=
  commits.countP fun c => decide (sha ∈ c.parents ∧ c ∉ listed)

variable {listed : List (Commit Sha T)}

theorem left_eq_zero {sha : Sha} :
    left commits listed sha = 0 ↔ ∀ c ∈ commits, sha ∈ c.parents → c ∈ listed := by
  rw [left, countP_eq_zero]
  simp

theorem ready_iff :
    (historyGraph commits).Ready listed n ↔
      n ∈ commits ∧ n ∉ listed ∧ left commits listed n.sha = 0 := by
  rw [left_eq_zero]
  exact ⟨fun h => ⟨h.mem, h.new, h.children⟩, fun h => ⟨h.1, h.2.1, h.2.2⟩⟩

/-- One child fewer is left for each parent of the commit listed. -/
theorem left_concat (h : Distinct commits) {commit : Commit Sha T}
    (hmem : commit ∈ commits) (hnew : commit ∉ listed) (sha : Sha) :
    left commits listed sha =
      left commits (listed ++ [commit]) sha + if sha ∈ commit.parents then 1 else 0 := by
  have hperm := perm_cons_erase hmem
  rw [left, left, hperm.countP_eq, hperm.countP_eq, countP_cons, countP_cons]
  have hrest : (commits.erase commit).countP (fun c => decide (sha ∈ c.parents ∧ c ∉ listed)) =
      (commits.erase commit).countP
        fun c => decide (sha ∈ c.parents ∧ c ∉ listed ++ [commit]) := by
    refine countP_congr fun c hc => ?_
    have hne : c ≠ commit := ((h.nodup.mem_erase_iff).1 hc).1
    simp [hne]
  rw [hrest]
  simp [hnew]

/-- The counts of a map, for the commits in the list. -/
def Counts (commits : List (Commit Sha T)) (children : List (Sha × ℤ)) (count : Sha → ℕ) : Prop :=
  ∀ n ∈ commits, get n.sha children = some (count n.sha : ℤ)

theorem Distinct.isSome_get (h : Distinct commits) (hn : n ∈ commits) :
    (get n.sha (indexMap commits)).isSome = true := by
  obtain ⟨i, hi⟩ := mem_iff_getElem?.1 hn
  rw [h.get_indexMap.2 ⟨n, hi, rfl⟩]
  rfl

/-- A commit counts once for each of its parents that are known. -/
theorem Counts.parents (h : Distinct commits) {children : List (Sha × ℤ)} {count : Sha → ℕ}
    (hc : Counts commits children count) (parents : List Sha) (hparents : parents.Nodup) :
    Counts commits
      (parents.foldl (fun children parent =>
        if (get parent (indexMap commits)).isSome then
          alter parent (fun count => count.getD 0 + 1) children
        else children) children)
      fun sha => count sha + if sha ∈ parents then 1 else 0 := by
  induction parents using reverseRecOn with
  | nil => simpa using hc
  | append_singleton parents p ih =>
    obtain ⟨hfront, -, hp⟩ := nodup_append.1 hparents
    have hnew : p ∉ parents := fun hmem => hp p hmem p (by simp) rfl
    intro n hn
    have hold := ih hfront n hn
    rw [foldl_append, foldl_cons, foldl_nil]
    by_cases heq : n.sha = p
    · subst heq
      rw [if_pos (h.isSome_get hn), get_alter, if_pos rfl, hold]
      simp [hnew]
    · have hkeep : ∀ m : List (Sha × ℤ), get n.sha (if (get p (indexMap commits)).isSome then
          alter p (fun count => count.getD 0 + 1) m else m) = get n.sha m := by
        intro m
        split_ifs
        · rw [get_alter, if_neg heq]
        · rfl
      rw [hkeep, hold]
      simp [heq]

theorem counts_start (h : Distinct commits) :
    Counts commits (countChildren commits) (left commits []) := by
  have key : ∀ front : List (Commit Sha T), Counts commits
      (front.foldl (fun children commit => (newSet commit.parents).foldl
        (fun children parent =>
          if (get parent (indexMap commits)).isSome then
            alter parent (fun count => count.getD 0 + 1) children
          else children) children) (newMap (commits.map fun commit => (commit.sha, 0))))
      fun sha => front.countP fun c => decide (sha ∈ c.parents) := by
    intro front
    induction front using reverseRecOn with
    | nil =>
      have hnodup : ((commits.map fun commit => (commit.sha, (0 : ℤ))).map Prod.fst).Nodup := by
        rw [map_map]
        exact h
      intro n hn
      rw [foldl_nil, newMap_eq_self hnodup]
      exact (get_eq_some_iff hnodup).2 (mem_map.2 ⟨n, hn, rfl⟩)
    | append_singleton front c ih =>
      rw [foldl_append, foldl_cons, foldl_nil]
      intro n hn
      have hall := ih.parents h (newSet c.parents) (nodup_newSet _) n hn
      simp only [mem_newSet] at hall
      rw [hall]
      simp [countP_append, countP_singleton]
  intro n hn
  rw [countChildren, key commits n hn, left]
  simp

/-! ### The loop -/

/-- What holds of the state between two turns of the loop. -/
structure OrderState.Inv (commits : List (Commit Sha T)) (s : OrderState Sha T) : Prop where
  greedy : (historyGraph commits).Greedy s.ordered
  ready : ∀ n, n ∈ s.ready ↔ (historyGraph commits).Ready s.ordered n
  sorted : s.ready.Pairwise fun a b => (historyGraph commits).rank a < (historyGraph commits).rank b
  counts : Counts commits s.children (left commits s.ordered)

theorem inv_startOrder (h : Distinct commits) : (startOrder commits).Inv commits where
  greedy := .nil
  ready n := by
    rw [startOrder, mem_mergeSort, mem_filter, ready_iff]
    constructor
    · rintro ⟨hn, hzero⟩
      rw [counts_start h n hn] at hzero
      exact ⟨hn, not_mem_nil, by simpa using hzero⟩
    · rintro ⟨hn, -, hzero⟩
      refine ⟨hn, ?_⟩
      rw [counts_start h n hn, hzero]
      simp
  sorted := by
    have hsorted : (startOrder commits).ready.Pairwise
        fun a b => (before (indexMap commits) a b != .gt) = true :=
      pairwise_mergeSort
        (fun a b c hab hbc => before_ne_gt.2 ((before_ne_gt.1 hab).trans (before_ne_gt.1 hbc)))
        (fun a b => by
          rw [Bool.or_eq_true, before_ne_gt, before_ne_gt]
          exact le_total _ _) _
    have hnodup : (startOrder commits).ready.Nodup :=
      (mergeSort_perm _ _).nodup_iff.2 (h.nodup.filter _)
    have hmem : ∀ n ∈ (startOrder commits).ready, n ∈ commits := fun n hn =>
      (mem_filter.1 (mem_mergeSort.1 hn)).1
    refine (hsorted.and hnodup).imp_of_mem fun {a b} ha hb hab => ?_
    exact lt_of_le_of_ne (before_ne_gt.1 hab.1) fun heq =>
      hab.2 (h.rank_inj (hmem a ha) (hmem b hb) heq)
  counts := counts_start h

/-- What holds while the parents of the commit listed are taken: those of `taken` have been. -/
structure OrderState.Taking (commits : List (Commit Sha T)) (s₀ : OrderState Sha T)
    (commit : Commit Sha T) (taken : List Sha) (s : OrderState Sha T) : Prop where
  ordered : s.ordered = s₀.ordered ++ [commit]
  ready : ∀ n, n ∈ s.ready ↔ n ∈ s₀.ready.dropLast ∨
    n ∈ commits ∧ n.sha ∈ taken ∧ left commits (s₀.ordered ++ [commit]) n.sha = 0
  sorted : s.ready.Pairwise fun a b => (historyGraph commits).rank a < (historyGraph commits).rank b
  counts : Counts commits s.children fun sha => left commits (s₀.ordered ++ [commit]) sha +
    if sha ∈ commit.parents ∧ sha ∉ taken then 1 else 0

namespace OrderState.Inv

variable {s : OrderState Sha T} {commit : Commit Sha T}

/-- A parent of the commit listed was not ready before. -/
theorem parent_not_ready (h : s.Inv commits) (hcommit : commit ∈ s.ready) {n : Commit Sha T}
    (hparent : n.sha ∈ commit.parents) : n ∉ s.ready := by
  intro hn
  have hready := (h.ready commit).1 hcommit
  exact hready.new (((h.ready n).1 hn).children commit hready.mem hparent)

section

variable (hd : Distinct commits)
include hd

theorem takeParent (h : s.Inv commits) (hcommit : commit ∈ s.ready)
    {taken : List Sha} {t : OrderState Sha T} (ht : s.Taking commits commit taken t) {p : Sha}
    (hp : p ∈ commit.parents) (hnew : p ∉ taken) :
    s.Taking commits commit (taken ++ [p]) (takeParent commits t p) := by
  have hsub : ∀ n ∈ t.ready, n ∈ commits := by
    intro n hn
    rcases (ht.ready n).1 hn with hn | hn
    · exact ((h.ready n).1 (dropLast_subset _ hn)).mem
    · exact hn.1
  rw [HistoryGraph.takeParent]
  cases hposition : get p (indexMap commits) with
  | none =>
    -- the parent is not among the commits
    have hne : ∀ n ∈ commits, n.sha ≠ p := by
      rintro n hn rfl
      have := hd.isSome_get hn
      rw [hposition] at this
      cases this
    refine ⟨ht.ordered, fun n => ?_, ht.sorted, fun n hn => ?_⟩
    · rw [ht.ready n]
      refine or_congr_right (and_congr_right fun hn => ?_)
      simp [hne n hn]
    · rw [ht.counts n hn]
      simp [hne n hn]
  | some position =>
    obtain ⟨next, hnext, rfl⟩ := hd.get_indexMap.1 hposition
    have hmem := mem_of_getElem? hnext
    have hleft : (get next.sha t.children).getD 0 - 1 =
        (left commits (s.ordered ++ [commit]) next.sha : ℤ) := by
      rw [ht.counts next hmem]
      simp [hp, hnew]
    have hcounts : Counts commits
        (alter next.sha (fun _ => (left commits (s.ordered ++ [commit]) next.sha : ℤ)) t.children)
        fun sha => left commits (s.ordered ++ [commit]) sha +
          if sha ∈ commit.parents ∧ sha ∉ taken ++ [next.sha] then 1 else 0 := by
      intro n hn
      rw [get_alter]
      split_ifs with heq
      · rw [heq]
        simp
      · rw [ht.counts n hn]
        simp [heq]
    simp only [hleft, hnext]
    split_ifs with hpos
    · -- it has another child that is not listed
      refine ⟨ht.ordered, fun n => ?_, ht.sorted, hcounts⟩
      rw [ht.ready n]
      refine or_congr_right (and_congr_right fun hn => ?_)
      rw [mem_append, mem_singleton]
      refine ⟨fun h => ⟨.inl h.1, h.2⟩, fun h => ⟨h.1.resolve_right fun heq => ?_, h.2⟩⟩
      rw [← heq, h.2] at hpos
      exact absurd hpos (by simp)
    · -- it is ready now
      have hzero : left commits (s.ordered ++ [commit]) next.sha = 0 := by omega
      have hpred : (fun c => before (indexMap commits) c next == .lt) =
          fun c => decide ((historyGraph commits).rank c < (historyGraph commits).rank next) := by
        funext c
        rw [Bool.eq_iff_iff, beq_iff_eq, decide_eq_true_iff, before_eq_lt]
      have hnotmem : next ∉ t.ready := by
        rw [ht.ready next]
        rintro (hdrop | ⟨-, htaken, -⟩)
        · exact h.parent_not_ready hcommit hp (dropLast_subset _ hdrop)
        · exact hnew htaken
      simp only [hpred]
      refine ⟨ht.ordered, fun n => ?_, insertIdx_bisect_pairwise ht.sorted fun x hx heq => ?_,
        hcounts⟩
      · rw [mem_insertIdx_bisect ht.sorted, ht.ready n, mem_append, mem_singleton]
        constructor
        · rintro (rfl | hdrop | ⟨hn, htaken, hz⟩)
          · exact .inr ⟨hmem, .inr rfl, hzero⟩
          · exact .inl hdrop
          · exact .inr ⟨hn, .inl htaken, hz⟩
        · rintro (hdrop | ⟨hn, htaken | hsha, hz⟩)
          · exact .inr (.inl hdrop)
          · exact .inr (.inr ⟨hn, htaken, hz⟩)
          · exact .inl (hd.sha_inj hn hmem hsha)
      · exact hnotmem (hd.rank_inj (hsub x hx) hmem heq ▸ hx)

/-- One turn of the loop lists the commit of the highest rank. -/
theorem listNext (h : s.Inv commits) (hlast : s.ready.getLast? = some commit) :
    (listNext commits s commit).Inv commits ∧
      (listNext commits s commit).ordered = s.ordered ++ [commit] := by
  have hsplit : s.ready = s.ready.dropLast ++ [commit] :=
    (dropLast_append_getLast? commit hlast).symm
  have hcommit : commit ∈ s.ready := mem_of_getLast? hlast
  have hready := (h.ready commit).1 hcommit
  have hbelow : ∀ n ∈ s.ready.dropLast,
      (historyGraph commits).rank n < (historyGraph commits).rank commit := by
    have hsorted := h.sorted
    rw [hsplit] at hsorted
    exact fun n hn => (pairwise_append.1 hsorted).2.2 n hn commit (mem_singleton_self _)
  have hcounts := left_concat hd hready.mem hready.new
  -- the parents are taken one after another
  have htaking : ∀ taken rest, newSet commit.parents = taken ++ rest → s.Taking commits commit taken
      (taken.foldl (HistoryGraph.takeParent commits)
        { s with ready := s.ready.dropLast, ordered := s.ordered ++ [commit] }) := by
    intro taken
    induction taken using reverseRecOn with
    | nil =>
      intro rest _
      refine ⟨rfl, fun n => by simp, h.sorted.sublist (dropLast_sublist _), fun n hn => ?_⟩
      simp only [foldl_nil, not_mem_nil, not_false_eq_true, and_true]
      rw [h.counts n hn, hcounts]
    | append_singleton taken p ih =>
      intro rest heq
      rw [append_assoc] at heq
      rw [foldl_append, foldl_cons, foldl_nil]
      have hnodup := nodup_newSet commit.parents
      rw [heq] at hnodup
      have hp : p ∈ newSet commit.parents := by
        rw [heq]
        simp
      refine h.takeParent hd hcommit (ih _ heq) (mem_newSet.1 hp) fun hmem => ?_
      exact (nodup_append.1 hnodup).2.2 p hmem p (by simp) rfl
  have hend := htaking (newSet commit.parents) [] (by simp)
  rw [HistoryGraph.listNext]
  refine ⟨⟨?_, fun n => ?_, hend.sorted, fun n hn => ?_⟩, hend.ordered⟩
  · rw [hend.ordered]
    refine h.greedy.concat hready fun n hn => ?_
    have hmem := (h.ready n).2 hn
    rw [hsplit, mem_append, mem_singleton] at hmem
    exact hmem.symm.imp_right (hbelow n)
  · rw [hend.ready, hend.ordered, mem_newSet, ready_iff]
    constructor
    · rintro (hdrop | ⟨hn, hparent, hzero⟩)
      · have hold := (h.ready n).1 (dropLast_subset _ hdrop)
        refine ⟨hold.mem, fun hlisted => ?_, left_eq_zero.2 fun c hc hchild =>
          mem_append_left _ (hold.children c hc hchild)⟩
        rcases mem_append.1 hlisted with hlisted | hlisted
        · exact hold.new hlisted
        · rw [mem_singleton] at hlisted
          exact (hbelow n hdrop).ne (by rw [hlisted])
      · refine ⟨hn, fun hlisted => ?_, hzero⟩
        rcases mem_append.1 hlisted with hlisted | hlisted
        · exact hready.new (h.greedy.children hlisted hready.mem hparent)
        · rw [mem_singleton] at hlisted
          rw [hlisted] at hparent
          exact hready.new (hready.children commit hready.mem hparent)
    · rintro ⟨hn, hnew, hzero⟩
      by_cases hparent : n.sha ∈ commit.parents
      · exact .inr ⟨hn, hparent, hzero⟩
      · refine .inl ?_
        have hold : n ∈ s.ready := by
          refine (h.ready n).2 (ready_iff.2 ⟨hn, fun hlisted => ?_, ?_⟩)
          · exact hnew (mem_append_left _ hlisted)
          · rw [hcounts, hzero, if_neg hparent]
        rw [hsplit, mem_append, mem_singleton] at hold
        refine hold.resolve_right fun heq => hnew ?_
        rw [heq]
        exact mem_append_right _ (mem_singleton_self _)
  · have hall := hend.counts n hn
    rw [hend.ordered, hall]
    simp [mem_newSet]

/-- The loop ends where every commit is listed. -/
theorem perm_of_ended (hacyclic : (historyGraph commits).Acyclic)
    (h : s.Inv commits) (hlast : s.ready.getLast? = none) : s.ordered.Perm commits := by
  refine h.greedy.perm hd.nodup hacyclic fun n hn => ?_
  rw [getLast?_eq_none_iff] at hlast
  have := (h.ready n).2 hn
  rw [hlast] at this
  cases this

/-- The loop ends within as many turns as there are commits. -/
theorem orderLoop (hacyclic : (historyGraph commits).Acyclic)
    (h : s.Inv commits) {fuel : ℕ} (hfuel : commits.length ≤ s.ordered.length + fuel) :
    ∃ ordered, orderLoop commits fuel s = some ordered ∧ ordered.Perm commits ∧
      (historyGraph commits).Greedy ordered := by
  induction fuel generalizing s with
  | zero =>
    rw [orderLoop]
    cases hlast : s.ready.getLast? with
    | none => exact ⟨s.ordered, rfl, h.perm_of_ended hd hacyclic hlast, h.greedy⟩
    | some commit =>
      -- more would be listed than there are commits
      obtain ⟨hnext, hordered⟩ := h.listNext hd hlast
      have hlen : (s.ordered ++ [commit]).length ≤ commits.length := by
        rw [← hordered]
        exact (hnext.greedy.nodup.subperm fun n hn => hnext.greedy.subset hn).length_le
      rw [length_append, length_singleton] at hlen
      omega
  | succ fuel ih =>
    rw [orderLoop]
    cases hlast : s.ready.getLast? with
    | none => exact ⟨s.ordered, rfl, h.perm_of_ended hd hacyclic hlast, h.greedy⟩
    | some commit =>
      obtain ⟨hnext, hordered⟩ := h.listNext hd hlast
      refine ih hnext ?_
      rw [hordered, length_append, length_singleton]
      omega

end

end OrderState.Inv

/-- More turns than are needed change nothing. -/
theorem orderLoop_mono {s : OrderState Sha T} {fuel fuel' : ℕ} (hle : fuel ≤ fuel')
    {ordered : List (Commit Sha T)} (h : orderLoop commits fuel s = some ordered) :
    orderLoop commits fuel' s = some ordered := by
  induction fuel generalizing s fuel' with
  | zero =>
    rw [orderLoop] at h ⊢
    cases hlast : s.ready.getLast? with
    | none => simpa [hlast] using h
    | some commit => simp [hlast] at h
  | succ fuel ih =>
    obtain ⟨k, rfl⟩ : ∃ k, fuel' = k + 1 := ⟨fuel' - 1, by omega⟩
    rw [orderLoop] at h ⊢
    cases hlast : s.ready.getLast? with
    | none => simpa [hlast] using h
    | some commit =>
      rw [hlast] at h
      exact ih (by omega) h

/-- A list of the commits in which each comes after its children and is, of those whose children
are all listed before, the latest, and of these the first in the list. -/
structure DateOrder (commits ordered : List (Commit Sha T)) : Prop where
  perm : ordered.Perm commits
  children : ∀ front n back, ordered = front ++ n :: back →
    ∀ c ∈ commits, n.sha ∈ c.parents → c ∈ front
  latest : ∀ front n back, ordered = front ++ n :: back → ∀ m ∈ commits, m ∉ front →
    (∀ c ∈ commits, m.sha ∈ c.parents → c ∈ front) → m = n ∨ time m < time n ∨
      time m = time n ∧ ∃ i j : ℕ, i < j ∧ commits[i]? = some n ∧ commits[j]? = some m

theorem Distinct.indexOf_eq (h : Distinct commits) {i : ℕ}
    (hi : commits[i]? = some n) : indexOf (indexMap commits) n = i := by
  rw [indexOf, h.get_indexMap.2 ⟨n, hi, rfl⟩]
  rfl

/-- A greedy order is the date order. -/
theorem dateOrder_of_greedy (h : Distinct commits) {ordered : List (Commit Sha T)}
    (hperm : ordered.Perm commits) (hgreedy : (historyGraph commits).Greedy ordered) :
    DateOrder commits ordered where
  perm := hperm
  children front n back heq := (hgreedy front n back heq).1.children
  latest front n back heq m hm hnew hchildren := by
    obtain ⟨hready, hmax⟩ := hgreedy front n back heq
    refine (hmax m ⟨hm, hnew, hchildren⟩).imp_right fun hlt => ?_
    obtain ⟨i, hi⟩ := mem_iff_getElem?.1 hready.mem
    obtain ⟨j, hj⟩ := mem_iff_getElem?.1 hm
    simp only [historyGraph, Prod.Lex.toLex_lt_toLex, OrderDual.toDual_lt_toDual,
      h.indexOf_eq hi, h.indexOf_eq hj] at hlt
    exact hlt.imp_right fun ⟨htime, hij⟩ => ⟨htime, i, j, hij, hi, hj⟩

/-- **`historyOrder` is the greedy topological date order**: for commits with ids of their own and
no cycle it ends within as many turns as there are commits, and lists each of them once, after its
children, the latest of those that are ready first. -/
theorem historyOrder_dateOrder {commits : List (Commit Sha T)} (h : Distinct commits)
    (hacyclic : (historyGraph commits).Acyclic) :
    ∃ ordered, DateOrder commits ordered ∧
      ∀ fuel, commits.length ≤ fuel → historyOrder fuel commits = some ordered := by
  have hstart : commits.length ≤ (startOrder commits).ordered.length + commits.length := by
    simp [startOrder]
  obtain ⟨ordered, hrun, hperm, hgreedy⟩ := (inv_startOrder h).orderLoop h hacyclic hstart
  exact ⟨ordered, dateOrder_of_greedy h hperm hgreedy, fun fuel hfuel => orderLoop_mono hfuel hrun⟩

/-- A merge, its two parents and theirs, one parent dated after its child. -/
theorem historyOrder_dateOrder_skewed :
    ∃ ordered, DateOrder
      ([⟨1, [2, 3], some 5⟩, ⟨2, [4], some 9⟩, ⟨3, [4], none⟩, ⟨4, [], some 7⟩] :
        List (Commit ℕ ℕ)) ordered ∧
      ∀ fuel, 4 ≤ fuel → historyOrder fuel
        [⟨1, [2, 3], some 5⟩, ⟨2, [4], some 9⟩, ⟨3, [4], none⟩, ⟨4, [], some 7⟩] =
        some ordered := by
  refine historyOrder_dateOrder (by unfold Distinct; decide) ?_
  refine ReadyGraph.acyclic_of_lt Commit.sha ?_
  simp only [historyGraph]
  decide

end Triage.HistoryGraph
