import Triage.Data.ReachSum
import Triage.Ui.SizeFlowRemoval

/-!
# Walks and batches

What a group of files imports, directly or not, is summed by a walk that marks the groups it comes
by with its own stamp, so that no walk has to clear the marks of another. Once the walks have spent
a budget, words of flags say for 32 groups at a time which of them each group leads to.

## Main results

* `Walker.sum_spec` : a walk finds the sum over what is reached, or spends its budget.
* `batchedReachability_eq` : the batches find the sums over what is reached.
-/

namespace Triage.SizeFlow

open Flags Grouping List Function Links

/-! ### Walks -/

/-- What the walks share: a mark, in 32 bits, is the stamp of the last walk that came by. -/
structure Walker where
  marks : ℕ → ℕ
  stamp : ℕ
  work : ℕ

structure Walk where
  stack : List ℕ
  marks : ℕ → ℕ
  work : ℕ
  total : Total
  spent : Bool

open Walk

/-- A step of a walk, which is given up where it has spent a budget. -/
def Walk.body (next : ℕ → List ℕ) (weights : ℕ → Total) (stamp : ℕ) (budget : Option ℕ)
    (s : Walk) : Option Walk :=
  match s.stack with
  | [] => none
  | id :: rest =>
    if s.spent then none
    else if s.marks id = stamp then some { s with stack := rest }
    else
      have work := if budget.isSome then s.work + (1 + (next id).length) else s.work
      if budget.any (· < work) then some { s with work, spent := true }
      else
        have marks := update s.marks id (stamp % 2 ^ 32)
        some { s with
          stack := ((next id).filter (marks · ≠ stamp)).reverse ++ rest
          marks
          work
          total := s.total + weights id }

/-- The steps that there may be: one for each start, each group and each link, and the last. -/
def walkBound (n : ℕ) (next : ℕ → List ℕ) (starts : List ℕ) : ℕ :=
  starts.length + ((List.range n).map fun id => 1 + (next id).length).sum + 1

def Walker.restamp (w : Walker) : Walker :=
  if w.stamp + 1 = 0xffffffff then { w with marks := fun _ => 0, stamp := 1 }
  else { w with stamp := w.stamp + 1 }

/-- The sum over what is reached, unless a budget is spent. -/
def Walker.sum (n : ℕ) (next : ℕ → List ℕ) (weights : ℕ → Total) (starts : List ℕ)
    (budget : Option ℕ) (w : Walker) : Option Total × Walker :=
  have w' := w.restamp
  have s := loop (Walk.body next weights w'.stamp budget) (walkBound n next starts)
    ⟨starts.reverse, w'.marks, w'.work, 0, false⟩
  (if s.spent then none else some s.total, { w' with marks := s.marks, work := s.work })

/-! ### Batches -/

/-- The groups of a batch that each group reaches, from the last of the order on. -/
def batchMasks (n : ℕ) (next : ℕ → List ℕ) (order : List ℕ) (base : ℕ) (masks : ℕ → Word) :
    ℕ → Word :=
  order.reverse.foldl
    (fun masks id =>
      have own := if base ≤ id ∧ id < base + batch n base then flag (id - base) else 0
      update masks id ((next id).foldl (fun mask child => mask ||| masks child) own))
    masks

/-- The totals of some groups; the source keeps the sums of a batch's masks, which are the same. -/
def batchedReachability (n : ℕ) (next : ℕ → List ℕ) (order : List ℕ) (weights : ℕ → Total)
    (remaining : List ℕ) : List (ℕ × Total) :=
  have final := (bases n).foldl
    (fun (s : (ℕ → Word) × List Total) base =>
      have masks := batchMasks n next order base s.1
      have sum := fun id => ((bits (masks id)).map fun b => weights (base + b)).sum
      (masks, List.zipWith (fun total id => total + sum id) s.2 remaining))
    (fun _ => 0, remaining.map fun _ => 0)
  remaining.zip final.2

section Walks

variable {n stamp : ℕ} {next : ℕ → List ℕ} {weights : ℕ → Total} {starts : List ℕ}
  {budget : Option ℕ} {s s' : Walk} {id : ℕ} {rest : List ℕ}

/-- What holds while a walk goes on, with the groups that it entered. -/
structure Walking (next : ℕ → List ℕ) (weights : ℕ → Total) (stamp : ℕ) (starts : List ℕ)
    (budget : Option ℕ) (entered : List ℕ) (s : Walk) : Prop where
  nodup : entered.Nodup
  total : s.total = (entered.map weights).sum
  marks : ∀ id, s.marks id = stamp ↔ id ∈ entered
  stamped : ∀ id, s.marks id ≤ stamp
  sound : ∀ id ∈ entered ++ s.stack, Links.ReachedFrom next starts id
  closed : ∀ id ∈ entered, ∀ child ∈ next id, child ∈ entered ++ s.stack
  starts : ∀ id ∈ starts, id ∈ entered ++ s.stack
  spent : budget = none → s.spent = false

/-- What is left to do: each step takes a group off the stack, or spends the budget. -/
def Walk.left (n : ℕ) (next : ℕ → List ℕ) (stamp : ℕ) (s : Walk) : ℕ :=
  s.stack.length + (((List.range n).filter (s.marks · ≠ stamp)).map fun id =>
    1 + (next id).length).sum + if s.spent then 0 else 1

theorem left_enter (hid : id < n) {marks marks' : ℕ → ℕ} (hnot : marks id ≠ stamp)
    (hmarks : ∀ j, marks' j = stamp ↔ marks j = stamp ∨ j = id) (f : ℕ → ℕ) :
    (((List.range n).filter (marks · ≠ stamp)).map f).sum =
      f id + (((List.range n).filter (marks' · ≠ stamp)).map f).sum := by
  have hperm : ((List.range n).filter (marks · ≠ stamp)).Perm
      (id :: (List.range n).filter (marks' · ≠ stamp)) := by
    have hout : id ∉ (List.range n).filter (marks' · ≠ stamp) := by
      rw [mem_filter, decide_eq_true_iff, not_and, not_not]
      exact fun _ => (hmarks id).2 (.inr rfl)
    rw [perm_ext_iff_of_nodup (nodup_range.filter _)
      (nodup_cons.2 ⟨hout, nodup_range.filter _⟩)]
    intro j
    rw [mem_cons, mem_filter, mem_filter, mem_range, decide_eq_true_iff,
      decide_eq_true_iff, ne_eq, ne_eq, hmarks, not_or]
    constructor
    · rintro ⟨hj, hne⟩
      by_cases hji : j = id
      · exact .inl hji
      · exact .inr ⟨hj, hne, hji⟩
    · rintro (rfl | ⟨hj, hne, -⟩)
      · exact ⟨hid, hnot⟩
      · exact ⟨hj, hne⟩
  rw [(hperm.map f).sum_eq, map_cons, sum_cons]

variable {entered : List ℕ}

section

variable (h : Walking next weights stamp starts budget entered s)
include h

/-- A group that was entered before is taken off. -/
theorem Walking.skip (hstack : s.stack = id :: rest) (hmark : s.marks id = stamp) :
    Walking next weights stamp starts budget entered { s with stack := rest } := by
  have hid : id ∈ entered := (h.marks id).1 hmark
  have hmem : ∀ j, j ∈ entered ++ s.stack ↔ j ∈ entered ++ rest := by
    intro j
    rw [hstack, mem_append, mem_append, mem_cons]
    constructor
    · rintro (hj | rfl | hj)
      · exact .inl hj
      · exact .inl hid
      · exact .inr hj
    · rintro (hj | hj)
      · exact .inl hj
      · exact .inr (.inr hj)
  exact ⟨h.nodup, h.total, h.marks, h.stamped, fun j hj => h.sound j ((hmem j).2 hj),
    fun j hj child hchild => (hmem child).1 (h.closed j hj child hchild),
    fun j hj => (hmem j).1 (h.starts j hj), h.spent⟩

theorem Walking.spend (hbudget : budget ≠ none) (work : ℕ) :
    Walking next weights stamp starts budget entered { s with work, spent := true } :=
  ⟨h.nodup, h.total, h.marks, h.stamped, h.sound, h.closed, h.starts,
    fun hnone => absurd hnone hbudget⟩

/-- A group is entered. -/
theorem Walking.enter (hstack : s.stack = id :: rest) (hmark : s.marks id ≠ stamp)
    (hstamp : stamp < 2 ^ 32)
    (work : ℕ) : Walking next weights stamp starts budget (entered ++ [id]) { s with
        stack := ((next id).filter
          (update s.marks id (stamp % 2 ^ 32) · ≠ stamp)).reverse ++ rest
        marks := update s.marks id (stamp % 2 ^ 32)
        work
        total := s.total + weights id } := by
  rw [Nat.mod_eq_of_lt hstamp]
  have hnot : id ∉ entered := fun hid => hmark ((h.marks id).2 hid)
  have hreached : Links.ReachedFrom next starts id := h.sound id (by rw [hstack]; simp)
  have hmarks : ∀ j, update s.marks id stamp j = stamp ↔ j ∈ entered ++ [id] := by
    intro j
    rw [mem_append, mem_singleton, update_apply]
    split
    · rename_i heq
      exact iff_of_true rfl (.inr heq)
    · rename_i hne
      rw [h.marks, or_iff_left hne]
  have hmem : ∀ j, j ∈ entered ++ s.stack → j ∈ entered ++ [id] ++
      (((next id).filter (update s.marks id stamp · ≠ stamp)).reverse ++ rest) := by
    intro j hj
    rw [hstack, mem_append, mem_cons] at hj
    simp only [mem_append, mem_singleton]
    rcases hj with hj | rfl | hj
    · exact .inl (.inl hj)
    · exact .inl (.inr rfl)
    · exact .inr (.inr hj)
  refine ⟨?_, ?_, hmarks, ?_, ?_, ?_, fun j hj => hmem j (h.starts j hj), h.spent⟩
  · exact h.nodup.append (nodup_singleton id) (by simpa using hnot)
  · rw [h.total]
    simp
  · intro j
    change update s.marks id stamp j ≤ stamp
    rw [update_apply]
    split
    · exact le_rfl
    · exact h.stamped j
  · intro j hj
    simp only [mem_append, mem_singleton, mem_reverse, mem_filter] at hj
    rcases hj with (hj | rfl) | ⟨hj, -⟩ | hj
    · exact h.sound j (mem_append_left _ hj)
    · exact hreached
    · exact hreached.step hj
    · exact h.sound j (by rw [hstack]; simp [hj])
  · intro j hj child hchild
    rcases mem_append.1 hj with hj | hj
    · exact hmem child (h.closed j hj child hchild)
    · rw [mem_singleton] at hj
      subst hj
      by_cases hin : update s.marks j stamp child = stamp
      · exact mem_append_left _ ((hmarks child).1 hin)
      · refine mem_append_right _ (mem_append_left _ (mem_reverse.2 ?_))
        exact mem_filter.2 ⟨hchild, decide_eq_true hin⟩

end

/-- One step, of the three kinds. -/
theorem Walking.body (hclosed : ∀ id < n, ∀ child ∈ next id, child < n)
    (hstarts : ∀ id ∈ starts, id < n) (hstamp : stamp < 2 ^ 32)
    (h : ∃ entered, Walking next weights stamp starts budget entered s)
    (hbody : s.body next weights stamp budget = some s') :
    (∃ entered, Walking next weights stamp starts budget entered s') ∧
      s'.left n next stamp < s.left n next stamp := by
  obtain ⟨entered, h⟩ := h
  rw [body.eq_def] at hbody
  split at hbody
  · cases hbody
  rename_i id rest hstack
  split at hbody
  · cases hbody
  rename_i hspent
  split at hbody
  · rename_i hmark
    cases hbody
    refine ⟨⟨entered, h.skip hstack hmark⟩, ?_⟩
    simp only [left, hstack, length_cons]
    omega
  rename_i hmark
  dsimp only at hbody
  generalize (if budget.isSome = true then s.work + (1 + (next id).length) else s.work) = work
    at hbody
  split at hbody
  · rename_i hover
    cases hbody
    have hbudget : budget ≠ none := by
      rintro rfl
      cases hover
    refine ⟨⟨entered, h.spend hbudget _⟩, ?_⟩
    simp only [left, hspent, if_true, Bool.false_eq_true, if_false]
    omega
  · cases hbody
    refine ⟨⟨entered ++ [id], h.enter hstack hmark hstamp _⟩, ?_⟩
    have hid : id < n := (h.sound id (by rw [hstack]; simp)).mem (P := fun id => id < n) hclosed
      hstarts
    have hmarks : ∀ j, update s.marks id (stamp % 2 ^ 32) j = stamp ↔
        s.marks j = stamp ∨ j = id := by
      intro j
      rw [update_apply, Nat.mod_eq_of_lt hstamp]
      split
      · rename_i heq
        exact iff_of_true rfl (.inr heq)
      · rename_i hne
        rw [or_iff_left hne]
    have hfilter := length_filter_le
      (fun j => decide (update s.marks id (stamp % 2 ^ 32) j ≠ stamp)) (next id)
    simp only [left, hstack, length_cons, length_append, length_reverse]
    rw [left_enter hid hmark hmarks]
    omega

theorem stack_eq_nil (hbody : s.body next weights stamp budget = none) :
    s.stack = [] ∨ s.spent = true := by
  rw [body.eq_def] at hbody
  split at hbody
  · rename_i hstack
    exact .inl hstack
  split at hbody
  · rename_i hspent
    exact .inr hspent
  split at hbody
  · cases hbody
  dsimp only at hbody
  generalize (if budget.isSome = true then s.work + (1 + _) else s.work) = work at hbody
  split at hbody <;> cases hbody

/-- No mark is above the stamp, and the next stamp fits. -/
structure Walker.Stamped (w : Walker) : Prop where
  marks : ∀ id, w.marks id ≤ w.stamp
  stamp : w.stamp + 1 < 2 ^ 32

theorem Walker.Stamped.restamp {w : Walker} (h : w.Stamped) :
    (∀ id, w.restamp.marks id < w.restamp.stamp) ∧ w.restamp.stamp + 1 < 2 ^ 32 := by
  have hstamp := h.stamp
  rw [Walker.restamp]
  split
  · exact ⟨fun _ => Nat.one_pos, by dsimp only; omega⟩
  · rename_i hne
    exact ⟨fun id => Nat.lt_succ_of_le (h.marks id), by dsimp only; omega⟩

/-- A walk finds the sum, or spends its budget. -/
theorem Walker.sum_spec (weights : ℕ → Total) (budget : Option ℕ)
    (hclosed : ∀ id < n, ∀ child ∈ next id, child < n)
    (hstarts : ∀ id ∈ starts, id < n) {w : Walker} (hw : w.Stamped) :
    ((w.sum n next weights starts budget).1 =
        some (reachSum next (List.range n) weights starts) ∨
      budget ≠ none ∧ (w.sum n next weights starts budget).1 = none) ∧
      (w.sum n next weights starts budget).2.Stamped := by
  obtain ⟨hmarks, hstamp⟩ := hw.restamp
  have hstart : Walking next weights w.restamp.stamp starts budget []
      ⟨starts.reverse, w.restamp.marks, w.restamp.work, 0, false⟩ :=
    ⟨nodup_nil, rfl, fun id => iff_of_false (hmarks id).ne (not_mem_nil),
      fun id => (hmarks id).le, fun id hid => Links.ReachedFrom.start (by simpa using hid),
      fun id hid => (nomatch hid), fun id hid => by simpa using hid, fun _ => rfl⟩
  have hleft : left n next w.restamp.stamp
      ⟨starts.reverse, w.restamp.marks, w.restamp.work, 0, false⟩ ≤ walkBound n next starts := by
    have hall : (List.range n).filter (w.restamp.marks · ≠ w.restamp.stamp) = List.range n :=
      List.filter_eq_self.2 fun id _ => decide_eq_true (hmarks id).ne
    simp only [left, walkBound, length_reverse, hall]
    exact le_rfl
  obtain ⟨⟨entered, h⟩, hend⟩ := loop_spec
    (fun s s' hs hbody => Walking.body hclosed hstarts (by omega) hs hbody) ⟨[], hstart⟩ hleft
  rw [Walker.sum]
  dsimp only
  generalize loop (body next weights w.restamp.stamp budget) (walkBound n next starts)
    ⟨starts.reverse, w.restamp.marks, w.restamp.work, 0, false⟩ = s at h hend
  refine ⟨?_, h.stamped, hstamp⟩
  split
  · rename_i hspent
    refine .inr ⟨fun hnone => ?_, rfl⟩
    rw [h.spent hnone] at hspent
    cases hspent
  · rename_i hspent
    have hstack : s.stack = [] := (stack_eq_nil hend).resolve_right hspent
    have hreached : ∀ id, id ∈ entered ↔ Links.ReachedFrom next starts id := by
      intro id
      refine ⟨fun hid => h.sound id (mem_append_left _ hid), fun hid => ?_⟩
      have hends : ∀ j, j ∈ entered ++ s.stack → j ∈ entered := by
        rw [hstack, append_nil]
        exact fun _ hj => hj
      exact hid.mem (P := fun id => id ∈ entered) (fun v hv w hw => hends w (h.closed v hv w hw))
        fun v hv => hends v (h.starts v hv)
    refine .inl ?_
    rw [h.total, reachSum_eq nodup_range h.nodup fun id => ?_]
    rw [hreached, mem_range]
    exact (and_iff_right_of_imp fun hid => hid.mem (P := fun id => id < n) hclosed hstarts).symm

end Walks

section Batches

variable {n base b : ℕ} {next : ℕ → List ℕ} {weights : ℕ → Total} {order : List ℕ}

theorem getLsbD_foldl_or (masks : ℕ → Word) (children : List ℕ) (own : Word) :
    (children.foldl (fun mask child => mask ||| masks child) own).getLsbD b = true ↔
      own.getLsbD b = true ∨ ∃ child ∈ children, (masks child).getLsbD b = true := by
  induction children generalizing own with
  | nil => simp
  | cons child children ih =>
    rw [foldl_cons, ih, BitVec.getLsbD_or, Bool.or_eq_true, or_assoc]
    simp

theorem getLsbD_own {id : ℕ} :
    (if base ≤ id ∧ id < base + batch n base then flag (id - base) else 0).getLsbD b = true ↔
      b < batch n base ∧ id = base + b := by
  have hle : batch n base ≤ 32 := batch_le
  split
  · rw [getLsbD_flag, Bool.and_eq_true, decide_eq_true_iff, decide_eq_true_iff]
    omega
  · refine iff_of_false ?_ (by omega)
    change ¬(0#32).getLsbD b = true
    rw [BitVec.getLsbD_zero]
    exact Bool.false_ne_true

/-- The flags of a group are those of the batch that it leads to. -/
theorem getLsbD_batchMasks (hsettled : Links.Settled next order.reverse) (masks : ℕ → Word)
    (n base b : ℕ) : ∀ id ∈ order, (batchMasks n next order base masks id).getLsbD b = true ↔
      b < batch n base ∧ Links.Leads next id (base + b) := by
  have hall : ∀ done : List ℕ, Links.Settled next done → ∀ id ∈ done,
      (done.foldl (fun (masks : ℕ → Word) id => update masks id
        ((next id).foldl (fun mask child => mask ||| masks child)
          (if base ≤ id ∧ id < base + batch n base then flag (id - base) else 0)))
        masks id).getLsbD b = true ↔ b < batch n base ∧ Links.Leads next id (base + b) := by
    intro done hdone
    induction done using reverseRecOn with
    | nil => exact fun id hid => (nomatch hid)
    | append_singleton done v ih =>
      have ih := ih hdone.of_append
      intro id hid
      rw [foldl_append, foldl_cons, foldl_nil, update_apply]
      split
      · rename_i heq
        subst heq
        rw [getLsbD_foldl_or, getLsbD_own, leads_iff_head, and_or_left]
        refine or_congr Iff.rfl ⟨?_, ?_⟩
        · rintro ⟨child, hchild, hbit⟩
          have hlead := (ih child (hdone done id [] rfl child hchild)).1 hbit
          exact ⟨hlead.1, child, hchild, hlead.2⟩
        · rintro ⟨hb, child, hchild, hlead⟩
          exact ⟨child, hchild, (ih child (hdone done id [] rfl child hchild)).2 ⟨hb, hlead⟩⟩
      · rename_i hne
        rcases mem_append.1 hid with hid | hid
        · exact ih id hid
        · exact absurd (mem_singleton.1 hid) hne
  intro id hid
  exact hall order.reverse hsettled id (mem_reverse.2 hid)

open Classical in
/-- The sum of a group in a batch, over the groups of the batch that it leads to. -/
noncomputable def batchSum (n : ℕ) (next : ℕ → List ℕ) (weights : ℕ → Total) (base id : ℕ) :
    Total :=
  ((((List.range (batch n base)).map (base + ·)).filter (Links.Leads next id ·)).map weights).sum

theorem sum_bits (hsettled : Links.Settled next order.reverse) (masks : ℕ → Word) {id : ℕ}
    (hid : id ∈ order) : ((bits (batchMasks n next order base masks id)).map fun b =>
      weights (base + b)).sum = batchSum n next weights base id := by
  classical
  have hmask := fun b => getLsbD_batchMasks hsettled masks n base b id hid
  generalize batchMasks n next order base masks id = mask at hmask
  have hmap : (bits mask).map (fun b => weights (base + b)) =
      ((bits mask).map (base + ·)).map weights := by
    rw [map_map]
    rfl
  rw [hmap, batchSum]
  refine List.Perm.sum_eq (List.Perm.map weights ?_)
  have hadd : Function.Injective (base + ·) := fun a b h => Nat.add_left_cancel h
  rw [perm_ext_iff_of_nodup (nodup_bits.map hadd)
    ((nodup_range.map hadd).filter _)]
  intro j
  simp only [mem_map, mem_filter, mem_bits, mem_range, decide_eq_true_iff, hmask]
  constructor
  · rintro ⟨b, ⟨hb, hlead⟩, rfl⟩
    exact ⟨⟨b, hb, rfl⟩, hlead⟩
  · rintro ⟨⟨b, hb, rfl⟩, hlead⟩
    exact ⟨b, ⟨hb, hlead⟩, rfl⟩

/-- The batches have all groups. -/
theorem sum_batchSum {id : ℕ} : ((bases n).map fun base => batchSum n next weights base id).sum =
    reachSum next (List.range n) weights [id] := by
  classical
  rw [reachSum, range_batches, filter_flatMap, map_flatMap, flatMap_def, sum_flatten, map_map]
  congr 1
  refine map_congr_left fun base _ => ?_
  rw [batchSum]
  congr 2
  refine List.filter_congr fun j _ => ?_
  rw [decide_eq_decide, reached_singleton]

theorem batchedReachability_eq (hsettled : Links.Settled next order.reverse) {remaining : List ℕ}
    (hremaining : ∀ id ∈ remaining, id ∈ order) :
    batchedReachability n next order weights remaining =
      remaining.map fun id => (id, reachSum next (List.range n) weights [id]) := by
  have hall : ∀ done : List ℕ, (done.foldl
      (fun (s : (ℕ → Word) × List Total) base =>
        (batchMasks n next order base s.1, List.zipWith (fun total id => total +
          ((bits (batchMasks n next order base s.1 id)).map fun b => weights (base + b)).sum)
          s.2 remaining))
      (fun _ => 0, remaining.map fun _ => 0)).2 = remaining.map fun id =>
        (done.map fun base => batchSum n next weights base id).sum := by
    intro done
    induction done using reverseRecOn with
    | nil => rfl
    | append_singleton done base ih =>
      rw [foldl_append, foldl_cons, foldl_nil]
      dsimp only
      rw [ih, zipWith_map_left, zipWith_self]
      refine map_congr_left fun id hid => ?_
      rw [sum_bits hsettled _ (hremaining id hid), map_append, sum_append]
      simp
  rw [batchedReachability]
  dsimp only
  rw [hall (bases n), map_prod_left_eq_zip]
  congr 1
  exact map_congr_left fun id _ => sum_batchSum

end Batches

end Triage.SizeFlow
