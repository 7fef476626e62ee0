import Triage.Ui.ManagedTriage

/-!
# The changes on their way

The changes of a finding that are not settled stand in a line: those of the request in flight, of
the rest of its flush, of the flushes behind it, and of the queues. Here is where an operation on
the queues puts a change in that line.

## Main results

* `queuedOf_setPending`, `queuedOf_requeue` : what a capture and a failed flush do to the line.
-/

namespace Triage.Ui

open List

/-- The changes of a finding. -/
def changesOf (f : String) (ps : List (String × Change)) : List Change :=
  ps.filterMap fun p => if p.1 = f then some p.2 else none

/-- The changes of a finding in batches that are sent one after the other. -/
def queuedOf (f : String) (bs : List Batch) : List Change :=
  changesOf f (bs.flatMap (·.changes))

/-- The queues before that of a report, all of them if it has none. -/
def before (key : Scope) : List Batch → List Batch
  | [] => []
  | b :: bs => if b.key = key then [] else b :: before key bs

def ownChanges (key : Scope) : List Batch → List (String × Change)
  | [] => []
  | b :: bs => if b.key = key then b.changes else ownChanges key bs

/-- The queues behind that of a report. -/
def behind (key : Scope) : List Batch → List Batch
  | [] => []
  | b :: bs => if b.key = key then bs else behind key bs

variable {f id : String} {key : Scope} {c : Change}

variable (b : Batch) (bs : List Batch) (ps : List (String × Change))

@[simp] theorem changesOf_nil : changesOf f [] = [] := rfl

@[simp] theorem changesOf_append (qs : List (String × Change)) :
    changesOf f (ps ++ qs) = changesOf f ps ++ changesOf f qs := filterMap_append

theorem mem_changesOf {ps : List (String × Change)} : c ∈ changesOf f ps ↔ (f, c) ∈ ps := by
  simp only [changesOf, List.mem_filterMap]
  constructor
  · rintro ⟨⟨g, d⟩, hp, hc⟩
    obtain ⟨hg, hd⟩ := Option.ite_none_right_eq_some.1 hc
    rw [← hg, ← Option.some.inj hd]
    exact hp
  · intro hp
    exact ⟨(f, c), hp, if_pos rfl⟩

theorem changesOf_eq_nil {ps : List (String × Change)} :
    changesOf f ps = [] ↔ ps.any (·.1 = f) = false := by
  rw [eq_nil_iff_forall_not_mem]
  simp only [mem_changesOf, any_eq_false, decide_eq_true_eq]
  constructor
  · rintro h ⟨g, c⟩ hp rfl
    exact h c hp
  · intro h c hp
    exact h (f, c) hp rfl

@[simp] theorem queuedOf_nil : queuedOf f [] = [] := rfl

@[simp] theorem queuedOf_cons : queuedOf f (b :: bs) = changesOf f b.changes ++ queuedOf f bs := by
  rw [queuedOf, flatMap_cons, changesOf_append]
  rfl

@[simp] theorem queuedOf_append (bs' : List Batch) :
    queuedOf f (bs ++ bs') = queuedOf f bs ++ queuedOf f bs' := by
  induction bs with
  | nil => rfl
  | cons b bs ih => rw [cons_append, queuedOf_cons, queuedOf_cons, ih, append_assoc]

/-- The line of the queues, at the queue of a report. -/
theorem queuedOf_split (key : Scope) (bs : List Batch) :
    queuedOf f bs = queuedOf f (before key bs) ++ changesOf f (ownChanges key bs) ++
      queuedOf f (behind key bs) := by
  induction bs with
  | nil => rfl
  | cons b bs ih =>
    rw [before, ownChanges, behind]
    split
    · rw [queuedOf_nil, nil_append, queuedOf_cons]
    · rw [queuedOf_cons, queuedOf_cons, ih, append_assoc, append_assoc, append_assoc]

/-! ### Capturing -/

theorem changesOf_set_ne (hne : f ≠ id) :
    changesOf f (b.set id c).changes = changesOf f b.changes := by
  simp only [Batch.set]
  split
  · simp only [changesOf, filterMap_map]
    congr 1
    funext p
    simp only [Function.comp]
    split
    · rename_i hp
      rw [if_neg (fun h => hne h.symm), if_neg (fun h => hne (h.symm.trans hp))]
    · rfl
  · rw [changesOf_append]
    have hother : changesOf f [(id, c)] = [] := by
      simp [changesOf, hne.symm]
    rw [hother, append_nil]

variable (id c) in
theorem changesOf_set_self :
    changesOf id (b.set id c).changes ≠ [] ∧ ∀ x ∈ changesOf id (b.set id c).changes, x = c := by
  simp only [Batch.set]
  split
  · rename_i hany
    obtain ⟨p, hp, hid⟩ := any_eq_true.1 hany
    constructor
    · rw [Ne, changesOf_eq_nil, Bool.not_eq_false, any_eq_true]
      exact ⟨(id, c), mem_map.2 ⟨p, hp, if_pos (by simpa using hid)⟩, by simp⟩
    · intro x hx
      rw [mem_changesOf, mem_map] at hx
      obtain ⟨q, -, hq⟩ := hx
      split at hq
      · exact (Prod.mk.inj hq).2.symm
      · rename_i hne
        exact absurd (congrArg Prod.fst hq) hne
  · rename_i hany
    have hnone : changesOf id b.changes = [] :=
      changesOf_eq_nil.2 (Bool.eq_false_of_not_eq_true hany)
    have hone : changesOf id [(id, c)] = [c] := by simp [changesOf]
    rw [changesOf_append, hnone, hone]
    simp

theorem queuedOf_setPending_ne (hne : f ≠ id) :
    queuedOf f (setPending key id c bs) = queuedOf f bs := by
  induction bs with
  | nil => simp [setPending, changesOf, hne.symm]
  | cons b bs ih =>
    rw [setPending]
    split
    · rw [queuedOf_cons, queuedOf_cons, changesOf_set_ne b hne]
    · rw [queuedOf_cons, queuedOf_cons, ih]

variable (id key c) in
/-- A capture stands where its report's queue stands, in place of what was captured before. -/
theorem queuedOf_setPending : ∃ own : List Change, own ≠ [] ∧
    (∀ x ∈ own, x = c) ∧ queuedOf id (setPending key id c bs) =
      queuedOf id (before key bs) ++ own ++ queuedOf id (behind key bs) := by
  induction bs with
  | nil => exact ⟨[c], by simp, by simp, by simp [setPending, changesOf, before, behind]⟩
  | cons b bs ih =>
    rw [setPending, before, behind]
    split
    · obtain ⟨hne, hall⟩ := changesOf_set_self id c b
      refine ⟨changesOf id (b.set id c).changes, hne, hall, ?_⟩
      rw [queuedOf_cons, queuedOf_nil, nil_append]
    · obtain ⟨own, hne, hall, heq⟩ := ih
      refine ⟨own, hne, hall, ?_⟩
      rw [queuedOf_cons, queuedOf_cons, heq, append_assoc, append_assoc, append_assoc]

/-- A capture of another finding changes nothing behind a queue. -/
theorem queuedOf_behind_setPending (key' : Scope) (hne : f ≠ id) :
    queuedOf f (behind key' (setPending key id c bs)) = queuedOf f (behind key' bs) := by
  induction bs with
  | nil =>
    simp only [setPending, behind]
    split <;> rfl
  | cons b bs ih =>
    rw [setPending]
    split
    · have hkey : (b.set id c).key = b.key := rfl
      rw [behind, behind, hkey]
    · rw [behind, behind]
      split
      · exact queuedOf_setPending_ne bs hne
      · exact ih

/-! ### Sending -/

theorem takeBatch_append (entryBytes : String → Option WireEntry → ℕ) (bytes count : ℕ)
    (ps : List (String × Change)) :
    (takeBatch entryBytes bytes count ps).1 ++ (takeBatch entryBytes bytes count ps).2 = ps := by
  induction ps generalizing bytes count with
  | nil => rfl
  | cons p ps ih =>
    rw [takeBatch]
    split
    · rfl
    · exact congrArg (p :: ·) (ih _ _)

/-- What a failed flush did not send stands where its report's queue stands, at its end, but for the
findings that were captured again. -/
theorem queuedOf_requeue (unsent : List (String × Change)) (bs : List Batch) :
    queuedOf f (requeue key unsent bs) = queuedOf f (before key bs) ++
      (changesOf f (ownChanges key bs) ++
        if changesOf f (ownChanges key bs) = [] then changesOf f unsent else []) ++
      queuedOf f (behind key bs) := by
  induction bs with
  | nil => simp [requeue, before, ownChanges, behind]
  | cons b bs ih =>
    rw [requeue, before, ownChanges, behind]
    split
    · rw [queuedOf_cons, queuedOf_nil, nil_append, changesOf_append]
      congr 2
      by_cases hnone : changesOf f b.changes = []
      · rw [if_pos hnone]
        rw [changesOf_eq_nil] at hnone
        rw [changesOf, changesOf, filterMap_filter]
        congr 1
        funext p
        by_cases hp : p.1 = f
        · rw [hp, hnone]
          rfl
        · simp only [if_neg hp, ite_self]
      · rw [if_neg hnone, eq_nil_iff_forall_not_mem]
        intro c hc
        rw [mem_changesOf, mem_filter] at hc
        rw [changesOf_eq_nil, Bool.not_eq_false] at hnone
        rw [hnone] at hc
        exact absurd hc.2 (by simp)
    · rw [queuedOf_cons, queuedOf_cons, ih]
      simp only [append_assoc]

end Triage.Ui
