import Mathlib.Data.List.Nodup

/-!
# Listings that continue at a cursor

A store lists its keys in pages, in an order of its own, and continues at a cursor. A cursor that
is an offset counts the keys before it, so a removal there moves keys behind it that no page has
held.
-/

namespace Triage

open List

/-- A listing with cursors.  `none` is the start of a listing, and its end. -/
structure Listing (Key Cursor : Type) where
  /-- The page at a cursor, of some number of keys at most, and the cursor it ends at. -/
  page : List Key → Option Cursor → ℕ → List Key × Option Cursor
  /-- The keys a cursor has behind it. -/
  behind : List Key → Option Cursor → List Key
  behind_none : ∀ keys, behind keys none = []
  /-- A page holds every key between its cursor and the one it ends at. -/
  page_covers : ∀ {keys : List Key}, keys.Nodup → ∀ {cursor limit key}, 0 < limit → key ∈ keys →
    key ∈ behind keys cursor ∨ key ∈ (page keys cursor limit).1 ∨
      ∃ next, (page keys cursor limit).2 = some next ∧ key ∉ behind keys (some next)
  /-- New keys move no other key behind a cursor. -/
  behind_of_sublist : ∀ {keys keys' : List Key}, keys.Sublist keys' → keys'.Nodup →
    ∀ {cursor key}, key ∈ keys → key ∈ behind keys' cursor → key ∈ behind keys cursor

namespace Listing

variable {Key : Type}

/-- Growing a list moves its elements to higher positions only. -/
theorem mem_take_of_sublist {keys keys' : List Key} (h : keys.Sublist keys') (hn : keys'.Nodup)
    {key : Key} (hkey : key ∈ keys) : ∀ {n : ℕ}, key ∈ keys'.take n → key ∈ keys.take n := by
  induction h with
  | slnil =>
    intro n _
    exact absurd hkey not_mem_nil
  | cons a hsub ih =>
    intro n htake
    cases n with
    | zero => exact absurd htake (by simp)
    | succ n =>
      have hne : key ≠ a := by
        rintro rfl
        exact (nodup_cons.mp hn).1 (hsub.subset hkey)
      have htake' := (mem_cons.mp (by simpa using htake)).resolve_left hne
      exact take_subset_take_left _ (Nat.le_succ n)
        (ih (nodup_cons.mp hn).2 hkey htake')
  | cons_cons a hsub ih =>
    intro n htake
    cases n with
    | zero => exact absurd htake (by simp)
    | succ n =>
      rw [take_succ_cons] at htake ⊢
      rcases mem_cons.mp htake with rfl | htake'
      · exact mem_cons_self
      · rcases mem_cons.mp hkey with rfl | hkey'
        · exact mem_cons_self
        · exact mem_cons_of_mem _ (ih (nodup_cons.mp hn).2 hkey' htake')

/-- A cursor that counts the keys before it. -/
def offset : Listing Key ℕ where
  page keys cursor limit :=
    have n := cursor.getD 0
    ((keys.drop n).take limit, if n + limit < keys.length then some (n + limit) else none)
  behind keys cursor := keys.take (cursor.getD 0)
  behind_none keys := keys.take_zero
  page_covers := by
    intro keys hn cursor limit key _ hkey
    have hsplit := take_append_drop (cursor.getD 0) keys
    rcases mem_append.mp (hsplit ▸ hkey) with hbehind | hdrop
    · exact .inl hbehind
    · rw [← take_append_drop limit (keys.drop (cursor.getD 0))] at hdrop
      rcases mem_append.mp hdrop with hpage | hrest
      · exact .inr (.inl hpage)
      · rw [drop_drop] at hrest
        have hlt : cursor.getD 0 + limit < keys.length := by
          by_contra hle
          rw [drop_eq_nil_of_le (Nat.le_of_not_lt hle)] at hrest
          exact absurd hrest not_mem_nil
        refine .inr (.inr ⟨cursor.getD 0 + limit, if_pos hlt, ?_⟩)
        intro htake
        exact disjoint_take_drop hn (Nat.le_refl _) htake hrest
  behind_of_sublist h hn _ _ hkey := mem_take_of_sublist h hn hkey

end Listing

end Triage
