import Mathlib.Data.List.Basic
import Mathlib.Data.List.Induction
import Mathlib.Order.Basic

/-!
# Numbered journals

A table of events in the order of its integer primary key: an insert takes the next number, and the
events of one key are its *trail*. A journal may be bounded, so that of every trail the newest
events only are kept. The bound is applied to one key after an insert, or to many keys after many
inserts; for different keys this comes to the same.

## Main results

* `Journal.trim_eq_trimAll` : the two ways to find the newest events agree.
* `Journal.trail_trimAll` : a bounded trail is the end of the trail.
* `Journal.foldl_appendTrim` : bounding after every insert, or after all of them.
-/

namespace Triage

open List

/-- A numbered event. -/
structure Journal.Entry (κ ε : Type*) where
  seq : ℕ
  key : κ
  value : ε
  deriving DecidableEq

/-- Events in the order of their numbers. -/
structure Journal (κ ε : Type*) where
  entries : List (Journal.Entry κ ε)
  /-- The numbers ascend. -/
  sorted : entries.Pairwise fun a b => a.seq < b.seq

namespace Journal

variable {κ ε : Type*}

variable {J K : Journal κ ε} {e : Entry κ ε} {k : κ} {l : List (Entry κ ε)} {n : ℕ}

theorem ext (h : J.entries = K.entries) : J = K := by
  cases J
  cases K
  cases h
  rfl

/-- The next number: one more than the last. -/
def next (J : Journal κ ε) : ℕ := (J.entries.getLast?.map Entry.seq).getD 0 + 1

theorem lt_next (J : Journal κ ε) (he : e ∈ J.entries) : e.seq < J.next := by
  obtain ⟨front, last, hlast⟩ : ∃ front last, J.entries = front ++ [last] :=
    ⟨_, _, (dropLast_append_getLast (ne_nil_of_mem he)).symm⟩
  have hsorted := J.sorted
  rw [hlast, pairwise_append] at hsorted
  rw [next, hlast, getLast?_append, getLast?_singleton]
  rw [hlast] at he
  rcases mem_append.1 he with hfront | hlast
  · exact Nat.lt_succ_of_lt (hsorted.2.2 e hfront last (by simp))
  · rw [mem_singleton.1 hlast]
    exact Nat.lt_succ_self _

/-- Inserts an event. -/
def append (J : Journal κ ε) (k : κ) (x : ε) : Journal κ ε where
  entries := J.entries ++ [⟨J.next, k, x⟩]
  sorted := by
    refine pairwise_append.2 ⟨J.sorted, pairwise_singleton .., fun a ha b hb => ?_⟩
    rw [mem_singleton.1 hb]
    exact J.lt_next ha

/-- Keeps the events that satisfy a predicate. -/
def filter (J : Journal κ ε) (p : Entry κ ε → Bool) : Journal κ ε where
  entries := J.entries.filter p
  sorted := J.sorted.filter p

@[simp] theorem entries_filter (J : Journal κ ε) (p : Entry κ ε → Bool) :
    (J.filter p).entries = J.entries.filter p := rfl

/-- Changes the values of the events. -/
def mapValues (J : Journal κ ε) (f : ε → ε) : Journal κ ε where
  entries := J.entries.map fun e => ⟨e.seq, e.key, f e.value⟩
  sorted := pairwise_map.2 J.sorted

variable [DecidableEq κ]

/-- The events of one key. -/
def trail (J : Journal κ ε) (k : κ) : List (Entry κ ε) := J.entries.filter fun e => e.key = k

/-- Deletes the trails of some keys. -/
def purge (J : Journal κ ε) (ks : List κ) : Journal κ ε := J.filter fun e => e.key ∉ ks

/-- Deletes the events of a key whose numbers are not among its `n` highest. -/
def trim (J : Journal κ ε) (n : ℕ) (k : κ) : Journal κ ε :=
  J.filter fun e => ¬(e.key = k ∧ e.seq ∉ ((J.trail k).reverse.take n).map Entry.seq)

/-- The position of an event in its trail, counted from the newest one. -/
def position (J : Journal κ ε) (e : Entry κ ε) : ℕ :=
  ((J.trail e.key).filter fun e' => e.seq ≤ e'.seq).length

/-- Deletes the events of some keys behind the first `n` positions. -/
def trimAll (J : Journal κ ε) (n : ℕ) (ks : List κ) : Journal κ ε :=
  J.filter fun e => ¬(e.key ∈ ks ∧ n < J.position e)

/-! ### Trails -/

theorem sorted_trail (J : Journal κ ε) (k : κ) :
    (J.trail k).Pairwise fun a b => a.seq < b.seq := J.sorted.filter _

theorem key_of_mem_trail (h : e ∈ J.trail k) : e.key = k := by
  simpa using (mem_filter.1 h).2

theorem mem_trail (h : e ∈ J.entries) : e ∈ J.trail e.key :=
  mem_filter.2 ⟨h, by simp⟩

theorem trail_append_self (J : Journal κ ε) (k : κ) (x : ε) :
    (J.append k x).trail k = J.trail k ++ [⟨J.next, k, x⟩] := by
  simp [trail, append]

theorem trail_append_of_ne (J : Journal κ ε) {k' : κ} (h : k' ≠ k) (x : ε) :
    (J.append k x).trail k' = J.trail k' := by
  simp [trail, append, Ne.symm h]

theorem trail_filter (J : Journal κ ε) (p : Entry κ ε → Bool) (k : κ) :
    (J.filter p).trail k = (J.trail k).filter p := by
  rw [trail, filter, trail, filter_filter, filter_filter]
  exact List.filter_congr fun e _ => Bool.and_comm ..

theorem trail_mapValues (J : Journal κ ε) (f : ε → ε) (k : κ) :
    (J.mapValues f).trail k = (J.trail k).map fun e => ⟨e.seq, e.key, f e.value⟩ := by
  rw [trail, mapValues, filter_map]
  rfl

theorem trail_purge (J : Journal κ ε) (ks : List κ) (k : κ) :
    (J.purge ks).trail k = if k ∈ ks then [] else J.trail k := by
  rw [purge, trail_filter]
  split_ifs with h
  · refine filter_eq_nil_iff.2 fun e he => ?_
    simp [key_of_mem_trail he, h]
  · refine List.filter_eq_self.2 fun e he => ?_
    simp [key_of_mem_trail he, h]

theorem next_le {m : ℕ} (hm : 0 < m)
    (h : ∀ k, ∀ e ∈ (J.trail k).getLast?, e.seq < m) : J.next ≤ m := by
  rw [next]
  cases hlast : J.entries.getLast? with
  | none => exact hm
  | some e =>
    refine h e.key e ?_
    obtain ⟨front, hfront⟩ := getLast?_eq_some_iff.1 hlast
    rw [trail, hfront, filter_append]
    simp

/-- The newest events of the trails tell the next number. -/
theorem next_congr (h : ∀ k, (J.trail k).getLast? = (K.trail k).getLast?) : J.next = K.next := by
  have hlt : ∀ (L : Journal κ ε) k, ∀ e ∈ (L.trail k).getLast?, e.seq < L.next := by
    intro L k e he
    exact L.lt_next (mem_filter.1 (mem_of_getLast? he)).1
  refine Nat.le_antisymm (next_le (Nat.succ_pos _) fun k e he => ?_)
    (next_le (Nat.succ_pos _) fun k e he => ?_)
  · exact hlt K k e (by rwa [← h])
  · exact hlt J k e (by rwa [h])

/-! ### The newest events -/

omit [DecidableEq κ] in
/-- By their numbers, in an ascending list. -/
theorem filter_seq_mem (h : l.Pairwise fun a b => a.seq < b.seq) (n : ℕ) :
    l.filter (fun e => e.seq ∈ ((l.reverse.take n).map Entry.seq)) = l.drop (l.length - n) := by
  induction l with
  | nil => simp
  | cons a l ih =>
    obtain ⟨ha, hl⟩ := pairwise_cons.1 h
    have htake : (a :: l).reverse.take n = l.reverse.take n ++ [a].take (n - l.length) := by
      rw [reverse_cons, take_append, length_reverse]
    -- the first position is none of the others:
    have hrest : ∀ e ∈ l, e.seq ∈ ((a :: l).reverse.take n).map Entry.seq ↔
        e.seq ∈ (l.reverse.take n).map Entry.seq := by
      intro e he
      have hne : e.seq ∉ ([a].take (n - l.length)).map Entry.seq := by
        intro hmem
        obtain ⟨b, hb, hseq⟩ := mem_map.1 hmem
        rw [mem_singleton.1 (mem_of_mem_take hb)] at hseq
        exact Nat.ne_of_lt (ha e he) hseq
      rw [htake, map_append, mem_append]
      exact or_iff_left hne
    have htail : l.filter (fun e => e.seq ∈ ((a :: l).reverse.take n).map Entry.seq) =
        l.drop (l.length - n) := by
      rw [← ih hl]
      exact List.filter_congr fun e he => decide_eq_decide.2 (hrest e he)
    -- the first entry is among the last `n` if there are no more:
    have hfirst : a.seq ∈ ((a :: l).reverse.take n).map Entry.seq ↔ l.length + 1 ≤ n := by
      rw [htake, map_append, mem_append]
      constructor
      · rintro (hmem | hmem)
        · obtain ⟨b, hb, hseq⟩ := mem_map.1 hmem
          have hb' := ha b (mem_reverse.1 (mem_of_mem_take hb))
          omega
        · by_contra hlt
          rw [Nat.sub_eq_zero_of_le (by omega)] at hmem
          simp at hmem
      · intro hle
        refine .inr (mem_map_of_mem ?_)
        rw [take_of_length_le (by rw [length_singleton]; omega)]
        exact mem_singleton.2 rfl
    by_cases hn : l.length + 1 ≤ n
    · rw [filter_cons, if_pos (decide_eq_true (hfirst.2 hn)), htail, length_cons,
        Nat.sub_eq_zero_of_le hn, Nat.sub_eq_zero_of_le (by omega)]
      rfl
    · rw [filter_cons, if_neg fun hmem => hn (hfirst.1 (of_decide_eq_true hmem)), htail,
        length_cons, Nat.succ_sub (by omega)]
      rfl

omit [DecidableEq κ] in
/-- By their positions, in an ascending list. -/
theorem filter_position (h : l.Pairwise fun a b => a.seq < b.seq) (n : ℕ) :
    l.filter (fun e => (l.filter fun e' => e.seq ≤ e'.seq).length ≤ n) = l.drop (l.length - n) := by
  induction l with
  | nil => simp
  | cons a l ih =>
    obtain ⟨ha, hl⟩ := pairwise_cons.1 h
    have hfirst : ((a :: l).filter fun e' => a.seq ≤ e'.seq).length = l.length + 1 := by
      rw [List.filter_eq_self.2]
      · rfl
      · intro e he
        rcases mem_cons.1 he with rfl | he
        · simp
        · simpa using Nat.le_of_lt (ha e he)
    have hrest : ∀ e ∈ l, ((a :: l).filter fun e' => e.seq ≤ e'.seq) =
        l.filter fun e' => e.seq ≤ e'.seq := by
      intro e he
      rw [filter_cons_of_neg]
      simpa using ha e he
    have htail : l.filter (fun e => ((a :: l).filter fun e' => e.seq ≤ e'.seq).length ≤ n) =
        l.drop (l.length - n) := by
      rw [← ih hl]
      exact List.filter_congr fun e he => by rw [hrest e he]
    by_cases hn : l.length + 1 ≤ n
    · rw [filter_cons, if_pos (decide_eq_true (by rw [hfirst]; exact hn)), htail,
        length_cons, Nat.sub_eq_zero_of_le hn, Nat.sub_eq_zero_of_le (by omega)]
      rfl
    · rw [filter_cons, if_neg (by rw [hfirst]; simpa using hn), htail, length_cons,
        Nat.succ_sub (by omega)]
      rfl

/-- **A bounded trail is the end of the trail.** -/
theorem trail_trimAll (J : Journal κ ε) (n : ℕ) (ks : List κ) (k : κ) :
    (J.trimAll n ks).trail k =
      if k ∈ ks then (J.trail k).drop ((J.trail k).length - n) else J.trail k := by
  rw [trimAll, trail_filter]
  split_ifs with h
  · rw [← filter_position (J.sorted_trail k)]
    refine List.filter_congr fun e he => ?_
    rw [position, key_of_mem_trail he]
    simp [h]
  · refine List.filter_eq_self.2 fun e he => ?_
    simp [key_of_mem_trail he, h]

/-- Two parts of a journal that have the same trails are equal. -/
theorem filter_congr {p q : Entry κ ε → Bool}
    (h : ∀ k, (J.filter p).trail k = (J.filter q).trail k) : J.filter p = J.filter q := by
  refine ext (List.filter_congr fun e he => ?_)
  have hmem : ∀ r : Entry κ ε → Bool, r e = true ↔ e ∈ (J.filter r).trail e.key := by
    intro r
    rw [trail_filter, mem_filter]
    exact ⟨fun hr => ⟨mem_trail he, hr⟩, fun hr => hr.2⟩
  rw [Bool.eq_iff_iff, hmem p, hmem q, h]

/-- The numbers and the positions tell the same events. -/
theorem trim_eq_trimAll (J : Journal κ ε) (n : ℕ) (k : κ) : J.trim n k = J.trimAll n [k] := by
  refine filter_congr fun k' => ?_
  show (J.trim n k).trail k' = (J.trimAll n [k]).trail k'
  rw [trail_trimAll, trim, trail_filter]
  split_ifs with hk
  · obtain rfl := mem_singleton.1 hk
    rw [← filter_seq_mem (J.sorted_trail k')]
    exact List.filter_congr fun e he => by simp [key_of_mem_trail he]
  · refine List.filter_eq_self.2 fun e he => ?_
    simp [key_of_mem_trail he, mem_singleton.not.1 hk]

theorem trimAll_trimAll (J : Journal κ ε) (n : ℕ) (ks ks' : List κ) :
    (J.trimAll n ks).trimAll n ks' = J.trimAll n (ks ++ ks') := by
  have hfilter : ∀ p q : Entry κ ε → Bool,
      (J.filter p).filter q = J.filter fun e => p e && q e := by
    intro p q
    refine ext ?_
    rw [entries_filter, entries_filter, entries_filter, filter_filter]
    exact List.filter_congr fun e _ => Bool.and_comm ..
  have htrails : ∀ k, ((J.trimAll n ks).trimAll n ks').trail k =
      (J.trimAll n (ks ++ ks')).trail k := by
    intro k
    rw [trail_trimAll, trail_trimAll, trail_trimAll]
    by_cases hk : k ∈ ks
    · rw [if_pos hk, if_pos (mem_append_left _ hk)]
      split_ifs
      · rw [drop_drop, length_drop]
        congr 1
        omega
      · rfl
    · rw [if_neg hk]
      simp only [mem_append, hk, false_or]
  unfold trimAll at htrails ⊢
  rw [hfilter] at htrails ⊢
  exact filter_congr htrails

/-! ### Many inserts -/

/-- Inserts events in order. -/
def appendAll (J : Journal κ ε) (xs : List (κ × ε)) : Journal κ ε :=
  xs.foldl (fun J x => J.append x.1 x.2) J

/-- The newest event of all is kept. -/
theorem next_trimAll (J : Journal κ ε) (hn : 0 < n) (ks : List κ) :
    (J.trimAll n ks).next = J.next := by
  rcases eq_nil_or_concat' J.entries with hnil | ⟨front, last, hlast⟩
  · rw [next, trimAll, entries_filter, hnil, next, hnil]
    rfl
  · have hsorted := J.sorted
    rw [hlast, pairwise_append] at hsorted
    have hposition : J.position last = 1 := by
      rw [position, trail, hlast, filter_filter, filter_append, filter_eq_nil_iff.2 fun e he => ?_]
      · simp
      · have := hsorted.2.2 e he last (by simp)
        simp only [Bool.and_eq_true, decide_eq_true_eq]
        omega
    have hkept : (J.trimAll n ks).entries =
        front.filter (fun e => ¬(e.key ∈ ks ∧ n < J.position e)) ++ [last] := by
      rw [trimAll, entries_filter, hlast, filter_append]
      congr 1
      refine List.filter_eq_self.2 fun e he => ?_
      rw [mem_singleton.1 he, hposition]
      simp only [decide_eq_true_eq]
      omega
    rw [next, next, hkept, hlast, getLast?_append, getLast?_append]
    rfl

/-- An insert under another key does not matter to the bound. -/
theorem append_trimAll (J : Journal κ ε) (hn : 0 < n) {ks : List κ} (hk : k ∉ ks)
    (x : ε) : (J.trimAll n ks).append k x = (J.append k x).trimAll n ks := by
  refine ext ?_
  have hold : ∀ e ∈ J.entries, e.key ∈ ks → (J.append k x).position e = J.position e := by
    intro e _ hmem
    rw [position, position, trail_append_of_ne J fun heq => hk (by rwa [← heq])]
  show (J.trimAll n ks).entries ++ [Entry.mk (J.trimAll n ks).next k x] =
    (J.entries ++ [Entry.mk J.next k x]).filter _
  rw [next_trimAll J hn, filter_append, trimAll, entries_filter]
  congr 1
  · refine List.filter_congr fun e he => decide_eq_decide.2 (not_congr (and_congr_right ?_))
    intro hmem
    rw [hold e he hmem]
  · refine (List.filter_eq_self.2 fun e he => ?_).symm
    rw [mem_singleton.1 he]
    simp [hk]

/-- **Bounding the trails after every insert, or after all of them**, for different keys. -/
theorem foldl_appendTrim (J : Journal κ ε) (hn : 0 < n) {xs : List (κ × ε)}
    (hxs : (xs.map Prod.fst).Nodup) :
    xs.foldl (fun J x => (J.append x.1 x.2).trim n x.1) J =
      (J.appendAll xs).trimAll n (xs.map Prod.fst) := by
  induction xs using reverseRecOn with
  | nil =>
    refine ext (List.filter_eq_self.2 fun e _ => ?_).symm
    simp
  | append_singleton xs x ih =>
    rw [map_append, nodup_append] at hxs
    have hfresh : x.1 ∉ xs.map Prod.fst := fun hmem => hxs.2.2 _ hmem _ (by simp) rfl
    rw [foldl_append, ih hxs.1, foldl_cons, foldl_nil, append_trimAll _ hn hfresh,
      trim_eq_trimAll, trimAll_trimAll, appendAll, appendAll, foldl_append, map_append]
    rfl

end Journal

end Triage
