import Mathlib.Data.List.Pairwise
import Mathlib.Data.Finset.Card

/-!
# Pages of a sorted listing that changes

A listing sorted by key is read a page at a time: each page starts after the last key of the one
before, a key and not a position, and is the last one where no more follows. Items come and go
between the pages.

## Main results

* `Paging.follow_sorted` : a walk lists keys in order, each at most once.
* `Paging.mem_follow` : a walk that ends lists every item that is there throughout.
* `Paging.follow_ends` : a walk ends where the keys are in the end among finitely many.
-/

namespace Triage.Paging

open List Option

variable {α K : Type*} [LinearOrder K] (key : α → K)

/-- A key comes after a cursor. -/
def Past (cursor : Option K) (k : K) : Prop := ∀ c ∈ cursor, c < k

instance (cursor : Option K) (k : K) : Decidable (Past cursor k) :=
  match cursor with
  | none => isTrue fun _ h => by cases h
  | some c => decidable_of_iff (c < k) ⟨fun h _ hc => by cases hc; exact h, fun h => h c rfl⟩

/-- The items after a cursor. -/
def after (cursor : Option K) (items : List α) : List α :=
  items.filter fun item => Past cursor (key item)

/-- A page of so many items, and the cursor that follows it. -/
def page (limit : ℕ) (items : List α) (cursor : Option K) : List α × Option K :=
  let found := (after key cursor items).take (limit + 1)
  (found.take limit, if limit < found.length then (found[limit - 1]?).map key else none)

/-- The pages of a walk over a listing that changes, and whether it came to its end. -/
def follow (limit : ℕ) (items : ℕ → List α) : ℕ → ℕ → Option K → List (List α) × Bool
  | 0, _, _ => ([], false)
  | fuel + 1, time, cursor =>
    match (page key limit (items time) cursor).2 with
    | none => ([(page key limit (items time) cursor).1], true)
    | some next =>
      ((page key limit (items time) cursor).1 :: (follow limit items fuel (time + 1) (some next)).1,
        (follow limit items fuel (time + 1) (some next)).2)

variable {key} {limit : ℕ} {items : List α} {cursor : Option K}

theorem past_none (k : K) : Past none k := by simp [Past]

theorem past_some {c k : K} : Past (some c) k ↔ c < k := by simp [Past]

/-- The items of a page are after its cursor. -/
theorem past_of_mem_page {item : α} (h : item ∈ (page key limit items cursor).1) :
    item ∈ items ∧ Past cursor (key item) := by
  have hmem := mem_of_mem_take (mem_of_mem_take h)
  rw [after, mem_filter, decide_eq_true_iff] at hmem
  exact hmem

theorem page_sorted (hs : items.Pairwise fun a b => key a < key b) :
    (page key limit items cursor).1.Pairwise fun a b => key a < key b :=
  (hs.filter _).sublist ((take_sublist _ _).trans (take_sublist _ _))

/-- The last page has all that is after its cursor. -/
theorem mem_page_of_last (h : (page key limit items cursor).2 = none) (hlimit : 0 < limit)
    {item : α} (hmem : item ∈ items) (hpast : Past cursor (key item)) :
    item ∈ (page key limit items cursor).1 := by
  simp only [page] at h ⊢
  have hitem : item ∈ after key cursor items := by
    rw [after, mem_filter]
    exact ⟨hmem, decide_eq_true hpast⟩
  have hshort : (after key cursor items).length ≤ limit := by
    by_contra hlong
    have hlen : ((after key cursor items).take (limit + 1)).length = limit + 1 := by
      rw [length_take]
      omega
    rw [if_pos (by omega), getElem?_eq_getElem (by omega)] at h
    cases h
  have hfull : (after key cursor items).take (limit + 1) = after key cursor items :=
    take_of_length_le (by omega)
  rw [hfull, take_of_length_le hshort]
  exact hitem

/-- Where a page is not the last, the next cursor is its last key: what is after the page's cursor
is in the page or after the next. -/
theorem page_next (hs : items.Pairwise fun a b => key a < key b) (hlimit : 0 < limit) {next : K}
    (h : (page key limit items cursor).2 = some next) :
    (∃ item ∈ (page key limit items cursor).1, key item = next) ∧
      (∀ item ∈ (page key limit items cursor).1, key item ≤ next) ∧
      ∀ item ∈ items, Past cursor (key item) →
        item ∈ (page key limit items cursor).1 ∨ next < key item := by
  simp only [page] at h ⊢
  have hsorted : (after key cursor items).Pairwise fun a b => key a < key b := hs.filter _
  have hlong : limit < (after key cursor items).length := by
    by_contra hle
    rw [if_neg (by rw [length_take]; omega)] at h
    cases h
  have hlen : ((after key cursor items).take (limit + 1)).length = limit + 1 := by
    rw [length_take]
    omega
  rw [if_pos (by omega), map_eq_some_iff] at h
  obtain ⟨last, hlast, rfl⟩ := h
  rw [getElem?_take, if_pos (by omega)] at hlast
  have htake : ((after key cursor items).take (limit + 1)).take limit =
      (after key cursor items).take limit := by
    rw [List.take_take]
    congr 1
    omega
  rw [htake]
  -- the page is what comes up to its last item
  obtain ⟨hlt, hget⟩ := List.getElem?_eq_some_iff.1 hlast
  have hsplit : (after key cursor items).take limit =
      (after key cursor items).take (limit - 1) ++ [last] := by
    conv_lhs => rw [← Nat.sub_add_cancel hlimit]
    rw [take_add_one, hlast, toList_some]
  have hall : after key cursor items =
      (after key cursor items).take limit ++ (after key cursor items).drop limit :=
    (take_append_drop _ _).symm
  refine ⟨⟨last, by rw [hsplit]; simp, rfl⟩, fun item hitem => ?_, fun item hmem hpast => ?_⟩
  · have hp := hsorted.sublist (take_sublist limit _)
    rw [hsplit] at hp hitem
    rcases mem_append.1 hitem with hitem | hitem
    · exact ((pairwise_append.1 hp).2.2 item hitem last (by simp)).le
    · rw [mem_singleton] at hitem
      rw [hitem]
  · have hitem : item ∈ after key cursor items := by
      rw [after, mem_filter]
      exact ⟨hmem, decide_eq_true hpast⟩
    rw [hall, mem_append] at hitem
    refine hitem.imp_right fun hdrop => ?_
    rw [hall] at hsorted
    refine (pairwise_append.1 hsorted).2.2 last ?_ item hdrop
    rw [hsplit]
    simp

section Follow

variable {items : ℕ → List α}

/-- **A walk lists keys in increasing order**, all after its cursor. -/
theorem follow_sorted (hs : ∀ time, (items time).Pairwise fun a b => key a < key b)
    (hlimit : 0 < limit) (fuel time : ℕ) (cursor : Option K) :
    ((follow key limit items fuel time cursor).1.flatten.Pairwise fun a b => key a < key b) ∧
      ∀ item ∈ (follow key limit items fuel time cursor).1.flatten, Past cursor (key item) := by
  induction fuel generalizing time cursor with
  | zero => simp [follow]
  | succ fuel ih =>
    rw [follow]
    cases hnext : (page key limit (items time) cursor).2 with
    | none =>
      simp only [flatten_cons, flatten_nil, append_nil]
      exact ⟨page_sorted (hs time), fun item hitem => (past_of_mem_page hitem).2⟩
    | some next =>
      obtain ⟨⟨last, hlast, hkey⟩, hle, -⟩ := page_next (hs time) hlimit hnext
      obtain ⟨hrest, hpast⟩ := ih (time + 1) (some next)
      simp only [flatten_cons]
      refine ⟨pairwise_append.2 ⟨page_sorted (hs time), hrest, fun a ha b hb => ?_⟩,
        fun item hitem => ?_⟩
      · exact (hle a ha).trans_lt (past_some.1 (hpast b hb))
      · rcases mem_append.1 hitem with hitem | hitem
        · exact (past_of_mem_page hitem).2
        · intro c hc
          have hlt := (past_of_mem_page hlast).2 c hc
          rw [hkey] at hlt
          exact hlt.trans (past_some.1 (hpast item hitem))

/-- What a page of a walk has was there at its time. -/
theorem mem_of_mem_follow {fuel time i : ℕ} {cursor : Option K} {found : List α}
    (h : (follow key limit items fuel time cursor).1[i]? = some found) {item : α}
    (hitem : item ∈ found) : item ∈ items (time + i) := by
  induction fuel generalizing time cursor i with
  | zero => simp [follow] at h
  | succ fuel ih =>
    rw [follow] at h
    cases hnext : (page key limit (items time) cursor).2 with
    | none =>
      rw [hnext] at h
      cases i with
      | zero =>
        simp only [getElem?_cons_zero, Option.some.injEq] at h
        rw [← h] at hitem
        exact (past_of_mem_page hitem).1
      | succ i => simp at h
    | some next =>
      rw [hnext] at h
      cases i with
      | zero =>
        simp only [getElem?_cons_zero, Option.some.injEq] at h
        rw [← h] at hitem
        exact (past_of_mem_page hitem).1
      | succ i =>
        simp only [getElem?_cons_succ] at h
        rw [← Nat.add_assoc, Nat.add_right_comm]
        exact ih h

section

variable (hs : ∀ time, (items time).Pairwise fun a b => key a < key b)
include hs

/-- **A walk that ends lists every key that is there throughout.** -/
theorem mem_follow (hlimit : 0 < limit) {fuel time : ℕ} {cursor : Option K}
    (hend : (follow key limit items fuel time cursor).2 = true) {k : K} (hpast : Past cursor k)
    (hthere : ∀ t, time ≤ t → t < time + (follow key limit items fuel time cursor).1.length →
      k ∈ (items t).map key) : k ∈ (follow key limit items fuel time cursor).1.flatten.map key := by
  induction fuel generalizing time cursor with
  | zero => simp [follow] at hend
  | succ fuel ih =>
    rw [follow] at hend hthere ⊢
    cases hnext : (page key limit (items time) cursor).2 with
    | none =>
      rw [hnext] at hthere
      obtain ⟨item, hitem, rfl⟩ := List.mem_map.1 (hthere time le_rfl (by simp))
      simp only [flatten_cons, flatten_nil, append_nil]
      exact List.mem_map_of_mem (mem_page_of_last hnext hlimit hitem hpast)
    | some next =>
      rw [hnext] at hthere hend
      simp only [length_cons] at hthere
      obtain ⟨-, -, hrest⟩ := page_next (hs time) hlimit hnext
      obtain ⟨item, hitem, rfl⟩ := List.mem_map.1 (hthere time le_rfl (by omega))
      simp only [flatten_cons, map_append, mem_append]
      rcases hrest item hitem hpast with hitem | hlt
      · exact .inl (List.mem_map_of_mem hitem)
      · refine .inr (ih hend (past_some.2 hlt) fun t hle hlt' => hthere t (by omega) ?_)
        omega

/-- **A walk ends where the keys are in the end among finitely many.** -/
theorem follow_ends (hlimit : 0 < limit) {keys : Finset K} {settled : ℕ}
    (hkeys : ∀ time, settled ≤ time → ∀ item ∈ items time, key item ∈ keys) (time : ℕ)
    (cursor : Option K) : ∃ fuel, (follow key limit items fuel time cursor).2 = true := by
  -- once no key is new, the keys after the cursor become fewer with every page
  have hlate : ∀ count time cursor, settled ≤ time →
      (keys.filter fun k => Past cursor k).card ≤ count →
      ∃ fuel, (follow key limit items fuel time cursor).2 = true := by
    intro count
    induction count with
    | zero =>
      intro time cursor hle hcard
      refine ⟨1, ?_⟩
      rw [follow]
      cases hnext : (page key limit (items time) cursor).2 with
      | none => rfl
      | some next =>
        obtain ⟨⟨last, hlast, -⟩, -, -⟩ := page_next (hs time) hlimit hnext
        obtain ⟨hmem, hpast⟩ := past_of_mem_page hlast
        have hin : key last ∈ keys.filter fun k => Past cursor k :=
          Finset.mem_filter.2 ⟨hkeys time hle last hmem, hpast⟩
        rw [Nat.le_zero, Finset.card_eq_zero] at hcard
        rw [hcard] at hin
        simp at hin
    | succ count ih =>
      intro time cursor hle hcard
      cases hnext : (page key limit (items time) cursor).2 with
      | none =>
        refine ⟨1, ?_⟩
        rw [follow, hnext]
      | some next =>
        obtain ⟨⟨last, hlast, hkey⟩, -, -⟩ := page_next (hs time) hlimit hnext
        obtain ⟨hmem, hpast⟩ := past_of_mem_page hlast
        have hless : (keys.filter fun k => Past (some next) k).card <
            (keys.filter fun k => Past cursor k).card := by
          refine Finset.card_lt_card
            (Finset.ssubset_iff_subset_ne.2 ⟨fun k hk => ?_, fun heq => ?_⟩)
          · rw [Finset.mem_filter, past_some] at hk
            refine Finset.mem_filter.2 ⟨hk.1, fun c hc => ?_⟩
            have := hpast c hc
            rw [hkey] at this
            exact this.trans hk.2
          · have hin : next ∈ keys.filter fun k => Past cursor k := by
              rw [← hkey]
              exact Finset.mem_filter.2 ⟨hkeys time hle last hmem, hpast⟩
            rw [← heq, Finset.mem_filter, past_some] at hin
            exact lt_irrefl _ hin.2
        obtain ⟨fuel, hfuel⟩ := ih (time + 1) (some next) (by omega) (by omega)
        refine ⟨fuel + 1, ?_⟩
        rw [follow, hnext]
        exact hfuel
  -- until then it goes on page by page
  have hearly : ∀ wait time cursor, settled ≤ time + wait →
      ∃ fuel, (follow key limit items fuel time cursor).2 = true := by
    intro wait
    induction wait with
    | zero => exact fun time cursor hle => hlate _ time cursor hle le_rfl
    | succ wait ih =>
      intro time cursor hle
      cases hnext : (page key limit (items time) cursor).2 with
      | none =>
        refine ⟨1, ?_⟩
        rw [follow, hnext]
      | some next =>
        obtain ⟨fuel, hfuel⟩ := ih (time + 1) (some next) (by omega)
        refine ⟨fuel + 1, ?_⟩
        rw [follow, hnext]
        exact hfuel
  exact hearly settled time cursor (by omega)

end

end Follow

end Triage.Paging
