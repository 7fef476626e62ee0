import Triage.Managed.Cleanup

/-!
# Gaps in the removal of legacy objects

A pass has a gap where its cursor comes to stand behind an object no page of the pass has held.
Removals open gaps in a listing that counts: those of a worker whose cursor has been advanced by
another one, which also loses its count. Without gaps, cleanup completes only when nothing is left
of what was legacy when the last pass began.

## Main results

* `cleanup_complete` : if no step opens a gap, cleanup completes only when every legacy object that
  is left became legacy after the last pass began.
* `lost_count` : two workers on one page complete cleanup over a legacy object.
-/

namespace Triage.Managed

open List Function CleanupCall List.Subset Nat
open CleanupDb hiding pass

variable {Cursor : Type}

namespace CleanupDb

variable {db db' : CleanupDb Cursor} {key key' : ObjectKey} {o o' : CleanupObject}

/-! ### Objects by their keys -/

/-- Keys are listed once, and have versions that were given out. -/
structure WellFormed (db : CleanupDb Cursor) : Prop where
  nodup : (db.objects.map Prod.fst).Nodup
  fresh : ∀ object ∈ db.objects, object.2.version < db.nextVersion

theorem mem_of_object (h : db.object key = some o) : (key, o) ∈ db.objects := by
  unfold object at h
  obtain ⟨⟨k, o'⟩, hfind, rfl⟩ := Option.map_eq_some_iff.mp h
  have hk : k = key := by simpa using find?_some hfind
  exact hk ▸ mem_of_find?_eq_some hfind

theorem object_of_mem (hn : (db.objects.map Prod.fst).Nodup) (h : (key, o) ∈ db.objects) :
    db.object key = some o := by
  unfold object
  obtain ⟨⟨k, o'⟩, hfind⟩ :
      ∃ object, db.objects.find? (fun object => object.1 = key) = some object :=
    Option.isSome_iff_exists.mp (find?_isSome.mpr ⟨(key, o), h, by simp⟩)
  have hk : k = key := by simpa using find?_some hfind
  subst hk
  have heq := inj_on_of_nodup_map hn (mem_of_find?_eq_some hfind) h rfl
  rw [hfind]
  exact congrArg some (Prod.ext_iff.mp heq).2

theorem mem_keys_of_object (h : db.object key = some o) : key ∈ db.objects.map Prod.fst :=
  mem_map.mpr ⟨(key, o), mem_of_object h, rfl⟩

theorem isSome_object_iff (hn : (db.objects.map Prod.fst).Nodup) :
    (db.object key).isSome ↔ key ∈ db.objects.map Prod.fst := by
  constructor
  · intro h
    obtain ⟨o, ho⟩ := Option.isSome_iff_exists.mp h
    exact mem_keys_of_object ho
  · intro h
    obtain ⟨⟨k, o⟩, hmem, rfl⟩ := mem_map.mp h
    exact Option.isSome_iff_exists.mpr ⟨o, object_of_mem hn hmem⟩

/-! ### What follows a store -/

/-- `db'` follows `db`: within a pass, no object becomes one that has always been legacy, and an
object is replaced by one with a new version. -/
structure Follows (db db' : CleanupDb Cursor) : Prop where
  pass : db.pass < db'.pass ∨ db.pass = db'.pass ∧ db'.old ⊆ db.old
  versions : db.nextVersion ≤ db'.nextVersion
  enabledAt : db'.enabledAt = db.enabledAt
  object : ∀ {key o}, db'.object key = some o → db.object key = some o ∨ db.nextVersion ≤ o.version

theorem Follows.trans {db'' : CleanupDb Cursor} (h : db.Follows db') (h' : db'.Follows db'') :
    db.Follows db'' where
  pass := by
    rcases h.pass with hlt | ⟨heq, hsub⟩
    · rcases h'.pass with hlt' | ⟨heq', -⟩
      · exact .inl (hlt.trans hlt')
      · exact .inl (heq' ▸ hlt)
    · rcases h'.pass with hlt' | ⟨heq', hsub'⟩
      · exact .inl (heq ▸ hlt')
      · exact .inr ⟨heq.trans heq', List.Subset.trans hsub' hsub⟩
  versions := h.versions.trans h'.versions
  enabledAt := h'.enabledAt.trans h.enabledAt
  object ho := by
    rcases h'.object ho with ho' | hnew
    · exact h.object ho'
    · exact .inr (h.versions.trans hnew)

theorem Follows.refl (db : CleanupDb Cursor) : db.Follows db :=
  ⟨.inr ⟨rfl, List.Subset.refl _⟩, le_rfl, rfl, .inl⟩

/-- An object that is put has a new version. -/
theorem mem_put {modifiedAt : ℤ} {encrypted : Bool} {n : ℕ} {object : ObjectKey × CleanupObject}
    (h : object ∈ (db.put key modifiedAt encrypted n).objects) :
    object ∈ db.objects ∨ object.2.version = db.nextVersion := by
  unfold put at h
  dsimp only at h
  split_ifs at h
  · obtain ⟨other, hother, heq⟩ := mem_map.mp h
    split_ifs at heq with hkey
    · subst heq
      exact .inr rfl
    · exact .inl (heq ▸ hother)
  · rcases mem_append.mp h with htake | hdrop
    · exact .inl (mem_of_mem_take htake)
    · rcases mem_cons.mp hdrop with rfl | hdrop
      · exact .inr rfl
      · exact .inl (mem_of_mem_drop hdrop)

/-- A put leaves the keys as they are, or adds one to them. -/
theorem keys_put (hn : (db.objects.map Prod.fst).Nodup) (modifiedAt : ℤ) (encrypted : Bool)
    (n : ℕ) :
    (db.put key modifiedAt encrypted n).objects.map Prod.fst = db.objects.map Prod.fst ∨
    key ∉ db.objects.map Prod.fst ∧ (db.put key modifiedAt encrypted n).objects.map Prod.fst =
      (db.objects.map Prod.fst).take n ++ key :: (db.objects.map Prod.fst).drop n := by
  unfold put
  dsimp only
  split_ifs with hsome
  · left
    rw [map_map]
    apply map_congr_left
    rintro ⟨k, o'⟩ -
    show (if k = key then (key, _) else (k, o')).1 = k
    split_ifs with hk
    · exact hk.symm
    · rfl
  · right
    rw [isSome_object_iff hn] at hsome
    refine ⟨hsome, ?_⟩
    rw [map_append, map_take, map_cons, map_drop]

theorem sublist_keys_put (hn : (db.objects.map Prod.fst).Nodup) (modifiedAt : ℤ)
    (encrypted : Bool) (n : ℕ) : (db.objects.map Prod.fst).Sublist
      ((db.put key modifiedAt encrypted n).objects.map Prod.fst) := by
  rcases keys_put hn modifiedAt encrypted n with h | ⟨-, h⟩
  · rw [h]
  · rw [h]
    conv_lhs => rw [← take_append_drop n (db.objects.map Prod.fst)]
    exact (List.Sublist.refl _).append (sublist_cons_self _ _)

section

variable (h : db.WellFormed)
include h

theorem WellFormed.put (modifiedAt : ℤ) (encrypted : Bool) (n : ℕ) :
    (db.put key modifiedAt encrypted n).WellFormed where
  nodup := by
    rcases keys_put h.nodup modifiedAt encrypted n with heq | ⟨hkey, heq⟩
    · rw [heq]
      exact h.nodup
    · rw [heq, perm_middle.nodup_iff, take_append_drop]
      exact nodup_cons.mpr ⟨hkey, h.nodup⟩
  fresh := by
    intro object hobject
    rcases mem_put hobject with hold | hnew
    · exact lt_succ_of_lt (h.fresh object hold)
    · exact hnew ▸ lt_succ_self _

theorem WellFormed.follows_put (modifiedAt : ℤ) (encrypted : Bool) (n : ℕ) :
    db.Follows (db.put key modifiedAt encrypted n) where
  pass := .inr ⟨rfl, refl _⟩
  versions := le_succ _
  enabledAt := rfl
  object := by
    intro key' o ho
    rcases mem_put (mem_of_object ho) with hold | hnew
    · exact .inl (object_of_mem h.nodup hold)
    · exact .inr hnew.ge

theorem WellFormed.remove : (db.remove key).WellFormed where
  nodup := h.nodup.sublist (filter_sublist.map _)
  fresh object hobject := h.fresh object (mem_of_mem_filter hobject)

theorem WellFormed.follows_remove : db.Follows (db.remove key) where
  pass := .inr ⟨rfl, refl _⟩
  versions := le_rfl
  enabledAt := rfl
  object ho := .inl (object_of_mem h.nodup (mem_of_mem_filter (mem_of_object ho)))

end

theorem object_remove_ne {o : CleanupObject} (h : (db.remove key).object key' = some o) :
    key' ≠ key := by
  have hmem := mem_of_object h
  simpa using (mem_filter.mp hmem).2

theorem follows_refresh (db : CleanupDb Cursor) : db.Follows db.refresh where
  pass := .inr ⟨rfl, fun _ h => mem_of_mem_filter h⟩
  versions := le_rfl
  enabledAt := rfl
  object ho := .inl ho

/-- What has been legacy ever since the pass began is legacy. -/
def OldLegacy (db : CleanupDb Cursor) : Prop :=
  ∀ entry ∈ db.old, ∃ o, db.object entry.1 = some o ∧ o.version = entry.2 ∧
    db.legacy entry.1 o = true

theorem oldLegacy_refresh (db : CleanupDb Cursor) : db.refresh.OldLegacy := by
  intro entry hentry
  have hkeep := (mem_filter.mp hentry).2
  cases ho : db.object entry.1 with
  | none => simp [ho] at hkeep
  | some o =>
    have hboth : o.version = entry.2 ∧ db.legacy entry.1 o = true := by simpa [ho] using hkeep
    exact ⟨o, ho, hboth.1, hboth.2⟩

/-! ### Keys behind the cursor -/

/-- A key is behind a position. -/
def Behind (L : Listing ObjectKey Cursor) (db : CleanupDb Cursor) (position : ℕ × Option Cursor)
    (key : ObjectKey) : Prop :=
  ∃ i, prefixIndex key = some i ∧
    (i < position.1 ∨ i = position.1 ∧ key ∈ L.behind (db.keysUnder i) position.2)

variable {L : Listing ObjectKey Cursor} {position : ℕ × Option Cursor}

/-- New keys move no other key behind a position. -/
theorem Behind.of_sublist (h : db'.Behind L position key)
    (hsub : (db.objects.map Prod.fst).Sublist (db'.objects.map Prod.fst))
    (hn : (db'.objects.map Prod.fst).Nodup) (hkey : key ∈ db.objects.map Prod.fst) :
    db.Behind L position key := by
  obtain ⟨i, hi, hlt | ⟨heq, hbehind⟩⟩ := h
  · exact ⟨i, hi, .inl hlt⟩
  · refine ⟨i, hi, .inr ⟨heq, ?_⟩⟩
    have hmem : key ∈ db.keysUnder i := mem_filter.mpr ⟨hkey, by simpa using hi⟩
    exact L.behind_of_sublist (hsub.filter _) (hn.filter _) hmem hbehind

theorem not_behind_start : ¬db.Behind L (cleanupPosition none) key := by
  rintro ⟨i, -, hlt | ⟨rfl, hbehind⟩⟩
  · exact absurd hlt (not_lt_zero i)
  · change key ∈ L.behind _ none at hbehind
    rw [L.behind_none] at hbehind
    exact absurd hbehind not_mem_nil

/-- Every key under a prefix is behind the end of the last one. -/
theorem behind_end {index : ℕ} {cursor : Option Cursor} (hkey : (prefixIndex key).isSome)
    (hlast : ¬index + 1 < cleanupPrefixes.length) : db.Behind L (index + 1, cursor) key := by
  obtain ⟨i, hi⟩ := Option.isSome_iff_exists.mp hkey
  refine ⟨i, hi, .inl ?_⟩
  obtain ⟨hlt, -⟩ := findIdx?_eq_some_iff_getElem.mp hi
  exact lt_of_lt_of_le hlt (Nat.le_of_not_lt hlast)

end CleanupDb

/-! ### What a worker may rely on -/

namespace CleanupPage

variable (db : CleanupDb Cursor) (page : CleanupPage Cursor)

/-- The position a page ends at. -/
def reach : ℕ × Option Cursor :=
  match page.cursor with
  | some cursor => ((cleanupPosition page.expected).1, some cursor)
  | none => ((cleanupPosition page.expected).1 + 1, none)

/-- Of the keys of a page, only those still to come have always been legacy, unless the page has
found something. -/
def Done (todo : List ObjectKey) : Prop :=
  page.pass ≤ db.pass ∧ (page.pass = db.pass → page.found = 0 →
    ∀ entry ∈ db.old, entry.1 ∈ page.keys → entry.1 ∈ todo)

variable {db page} {todo : List ObjectKey} {key : ObjectKey} {db' : CleanupDb Cursor}

theorem Done.follows (h : page.Done db todo) (hf : db.Follows db') : page.Done db' todo := by
  rcases hf.pass with hlt | ⟨heq, hsub⟩
  · refine ⟨h.1.trans hlt.le, ?_⟩
    intro hpass
    exact absurd (hpass ▸ h.1) (Nat.not_le_of_lt hlt)
  · refine ⟨heq ▸ h.1, ?_⟩
    intro hpass hfound entry hentry
    exact h.2 (hpass.trans heq.symm) hfound entry (hsub hentry)

/-- An object that has not always been legacy can be passed over. -/
theorem Done.pass (h : page.Done db (key :: todo)) (hkey : ∀ entry ∈ db.old, entry.1 ≠ key) :
    page.Done db todo := by
  refine ⟨h.1, ?_⟩
  intro hpass hfound entry hentry hmem
  exact (mem_cons.mp (h.2 hpass hfound entry hentry hmem)).resolve_left (hkey entry hentry)

theorem Done.count (h : page.Done db todo) {todo' : List ObjectKey} : page.count.Done db todo' := by
  refine ⟨h.1, ?_⟩
  intro _ hfound
  exact absurd hfound (succ_ne_zero _)

end CleanupPage

/-- What a worker knows of an object whose head it has read: it is not legacy but for its bytes, and
has not changed since if its version is the same. -/
structure HeadSeen (db : CleanupDb Cursor) (key : ObjectKey) (target : CleanupTarget)
    (stored : CleanupObject) : Prop where
  temporary : target.temporary = false
  cache : target.cache = false
  recent : db.enabledAt - storageUploadTtlMs ≤ stored.modifiedAt
  given : stored.version < db.nextVersion
  same : ∀ o, db.object key = some o → o.version = stored.version → o = stored

variable {db db' : CleanupDb Cursor}

theorem HeadSeen.follows {key : ObjectKey} {target : CleanupTarget}
    {stored : CleanupObject} (h : HeadSeen db key target stored) (hf : db.Follows db') :
    HeadSeen db' key target stored where
  temporary := h.temporary
  cache := h.cache
  recent := hf.enabledAt ▸ h.recent
  given := h.given.trans_le hf.versions
  same := by
    intro o ho hversion
    rcases hf.object ho with hold | hnew
    · exact h.same o hold hversion
    · exact absurd (hversion ▸ h.given) (Nat.not_lt_of_le hnew)

/-- What each call of a worker may rely on. -/
def CleanupCall.Ok (db : CleanupDb Cursor) : CleanupCall Cursor → Prop
  | .out | .state => True
  | .list _ pass => pass ≤ db.pass
  | .row page key target =>
    cleanupTarget key = some target ∧ target.temporary = false ∧ target.cache = false ∧
      page.Done db (key :: page.todo)
  | .head page key target => cleanupTarget key = some target ∧ page.Done db (key :: page.todo)
  | .openObject page key target stored =>
    cleanupTarget key = some target ∧ HeadSeen db key target stored ∧
      page.Done db (key :: page.todo)
  | .delete page _ _ => page.Done db page.todo
  | .advance page => page.Done db []

variable {call : CleanupCall Cursor}

theorem CleanupCall.Ok.follows (h : call.Ok db) (hf : db.Follows db') : call.Ok db' := by
  cases call with
  | out => trivial
  | state => trivial
  | list expected pass =>
    show pass ≤ db'.pass
    rcases hf.pass with hlt | ⟨heq, -⟩
    · exact le_trans h hlt.le
    · exact le_trans h heq.le
  | row page key target => exact ⟨h.1, h.2.1, h.2.2.1, h.2.2.2.follows hf⟩
  | head page key target => exact ⟨h.1, h.2.follows hf⟩
  | openObject page key target stored => exact ⟨h.1, h.2.1.follows hf, h.2.2.follows hf⟩
  | delete page key stored => exact CleanupPage.Done.follows h hf
  | advance page => exact CleanupPage.Done.follows h hf

/-! ### Each answer keeps it -/

section Answers

variable {db : CleanupDb Cursor} {page : CleanupPage Cursor} {key : ObjectKey}
  {target : CleanupTarget} {stored : CleanupObject}

/-- An object that is not there, or is not legacy, has not always been legacy. -/
theorem CleanupDb.OldLegacy.ne (h : db.OldLegacy)
    (hkey : ∀ o, db.object key = some o → db.legacy key o = false) :
    ∀ entry ∈ db.old, entry.1 ≠ key := by
  rintro ⟨key', version⟩ hentry rfl
  obtain ⟨o, ho, -, hlegacy⟩ := h _ hentry
  exact absurd ((hkey o ho).symm.trans hlegacy) (by simp)

theorem CleanupPage.look_ok (hold : db.OldLegacy) :
    ∀ {todo : List ObjectKey}, page.Done db todo → (page.look todo).Ok db := by
  intro todo
  induction todo with
  | nil => exact fun h => h
  | cons key todo ih =>
    intro h
    unfold CleanupPage.look
    split
    · rename_i hnone
      refine ih (h.pass (hold.ne ?_))
      intro o _
      simp [legacy, hnone]
    · rename_i target htarget
      split_ifs with hhead
      · exact ⟨htarget, h⟩
      · rw [Bool.or_eq_true, not_or, Bool.not_eq_true, Bool.not_eq_true] at hhead
        exact ⟨htarget, hhead.1, hhead.2, h⟩

theorem CleanupCall.rowStep_ok (hold : db.OldLegacy)
    (h : (row page key target).Ok db) : (rowStep db page key target).Ok db := by
  obtain ⟨htarget, htemp, hcache, hdone⟩ := h
  unfold rowStep
  split_ifs with href
  · refine CleanupPage.look_ok hold (hdone.pass (hold.ne ?_))
    intro o _
    simp [legacy, htarget, htemp, hcache, href]
  · exact ⟨htarget, hdone⟩

theorem CleanupCall.headStep_ok (hwf : db.WellFormed) (hold : db.OldLegacy)
    (h : (head page key target).Ok db) : (headStep db page key target).Ok db := by
  obtain ⟨htarget, hdone⟩ := h
  unfold headStep
  split
  · rename_i hnone
    refine CleanupPage.look_ok hold (hdone.pass (hold.ne ?_))
    intro o ho
    exact absurd (hnone.symm.trans ho) (by simp)
  · rename_i stored hstored
    split_ifs with hstaged hlegacy
    · have hdefer : (page.defer stored.modifiedAt).Done db page.todo := hdone.count
      exact CleanupPage.look_ok hold hdefer
    · exact hdone.count
    · simp only [Bool.or_eq_true, decide_eq_true_eq, not_or, Bool.not_eq_true, not_lt] at hlegacy
      refine ⟨htarget, ⟨hlegacy.1.1, hlegacy.1.2, hlegacy.2, ?_, ?_⟩, hdone⟩
      · exact hwf.fresh _ (mem_of_object hstored)
      · intro o ho _
        exact Option.some.inj (ho.symm.trans hstored)

theorem CleanupCall.openStep_ok (hold : db.OldLegacy)
    (h : (openObject page key target stored).Ok db) : (openStep db page key stored).Ok db := by
  obtain ⟨htarget, hseen, hdone⟩ := h
  unfold openStep
  split
  · rename_i hnone
    refine CleanupPage.look_ok hold (hdone.pass (hold.ne ?_))
    intro o ho
    exact absurd (hnone.symm.trans ho) (by simp)
  · rename_i source hsource
    split_ifs with hversion hencrypted
    · trivial
    · refine CleanupPage.look_ok hold (hdone.pass (hold.ne ?_))
      intro o ho
      have hsame : source = stored := hseen.same source hsource (not_not.mp hversion)
      have heq : o = source := Option.some.inj (ho.symm.trans hsource)
      have hrecent : ¬o.modifiedAt < db.enabledAt - storageUploadTtlMs := by
        rw [heq, hsame]
        exact not_lt.mpr hseen.recent
      rw [← heq] at hencrypted
      simp [legacy, htarget, hseen.temporary, hseen.cache, hencrypted, hrecent]
    · exact hdone.count

theorem CleanupCall.deleteStep_ok (hwf : db.WellFormed) (hold : db.OldLegacy)
    (h : (delete page key stored).Ok db) :
    (deleteStep db page key stored).2.Ok (deleteStep db page key stored).1.refresh := by
  have hlook : page.next.Ok db := CleanupPage.look_ok hold h
  unfold deleteStep
  split
  · exact hlook.follows (follows_refresh db)
  · split_ifs
    · exact hlook.follows (hwf.follows_remove.trans (follows_refresh _))
    · trivial

end Answers

/-! ### Every step keeps the invariant -/

section Runs

variable [DecidableEq Cursor] (L : Listing ObjectKey Cursor)

/-- A removal moves no object behind the cursor that has been legacy ever since the pass began,
unless the pass has found something. -/
def NoShift (db : CleanupDb Cursor) (key : ObjectKey) : Prop :=
  db.cleanupFound = 0 → ∀ entry ∈ db.old, entry.1 ≠ key →
    (db.remove key).Behind L (cleanupPosition db.cleanupCursor) entry.1 →
      db.Behind L (cleanupPosition db.cleanupCursor) entry.1

/-- An advance that takes effect is of a page of this pass, and passes over no object that has been
legacy ever since it began and was not in the page, unless the pass has found something. -/
def NoSkip (db : CleanupDb Cursor) (page : CleanupPage Cursor) : Prop :=
  db.cleanupCursor = page.expected → db.cleanupFound = 0 → page.found = 0 →
    page.pass = db.pass ∧ ∀ entry ∈ db.old, db.Behind L page.reach entry.1 →
      db.Behind L (cleanupPosition db.cleanupCursor) entry.1 ∨ entry.1 ∈ page.keys

/-- The answer to a call opens no gap. -/
def CleanupCall.NoGap (db : CleanupDb Cursor) : CleanupCall Cursor → Prop
  | .delete _ key stored =>
    (∃ o, db.object key = some o ∧ o.version = stored.version) → NoShift L db key
  | .advance page => NoSkip L db page
  | _ => True

/-- A step opens no gap. -/
def NoGap (s : Cleanup Cursor) : CleanupLabel → Prop
  | .answer w _ => (s.workers w).NoGap L s.db
  | .remove key => NoShift L s.db key
  | _ => True

/-- No object behind the cursor has been legacy ever since the pass began, unless the pass has found
something. -/
def CleanupDb.Ahead (db : CleanupDb Cursor) : Prop :=
  db.cleanupFound = 0 → ∀ entry ∈ db.old,
    ¬db.Behind L (cleanupPosition db.cleanupCursor) entry.1

/-- **The invariant of the cleanup.** -/
structure GapInv (s : Cleanup Cursor) : Prop where
  wellFormed : s.db.WellFormed
  oldLegacy : s.db.OldLegacy
  ahead : s.db.Ahead L
  calls : ∀ w, (s.workers w).Ok s.db

variable {L} {db db' : CleanupDb Cursor} {s s' : Cleanup Cursor}

omit [DecidableEq Cursor] in
section

variable (h : db.Ahead L)
include h

theorem CleanupDb.Ahead.of_behind (hcursor : db'.cleanupCursor = db.cleanupCursor)
    (hfound : db'.cleanupFound = db.cleanupFound)
    (hold : db'.old ⊆ db.old) (hbehind : db.cleanupFound = 0 → ∀ entry ∈ db'.old,
      db'.Behind L (cleanupPosition db.cleanupCursor) entry.1 →
        db.Behind L (cleanupPosition db.cleanupCursor) entry.1) : db'.Ahead L := by
  intro hzero entry hentry hb
  rw [hcursor] at hb
  rw [hfound] at hzero
  exact h hzero entry (hold hentry) (hbehind hzero entry hentry hb)

section

omit [DecidableEq Cursor]

/-- A step that moves no key behind the cursor. -/
theorem CleanupDb.Ahead.refresh : db.refresh.Ahead L :=
  h.of_behind rfl rfl (fun _ hentry => mem_of_mem_filter hentry) fun _ _ _ hb => hb

theorem CleanupDb.Ahead.put (hwf : db.WellFormed) (hold : db.OldLegacy)
    (key : ObjectKey) (modifiedAt : ℤ) (encrypted : Bool) (n : ℕ) :
    (db.put key modifiedAt encrypted n).Ahead L := by
  refine h.of_behind rfl rfl (refl _) ?_
  intro _ entry hentry hb
  obtain ⟨o, ho, -⟩ := hold entry hentry
  exact hb.of_sublist (sublist_keys_put hwf.nodup modifiedAt encrypted n)
    (hwf.put modifiedAt encrypted n).nodup (mem_keys_of_object ho)

theorem CleanupDb.Ahead.remove {key : ObjectKey} (hshift : NoShift L db key) :
    (db.remove key).refresh.Ahead L := by
  refine h.of_behind rfl rfl (fun _ hentry => mem_of_mem_filter hentry) ?_
  intro hzero entry hentry hb
  obtain ⟨o, ho, -⟩ := oldLegacy_refresh _ entry hentry
  exact hshift hzero entry (mem_of_mem_filter hentry) (object_remove_ne ho) hb

end

end

omit [DecidableEq Cursor] in
theorem CleanupPage.position_nextCursor (page : CleanupPage Cursor)
    (h : nextCursor (cleanupPosition page.expected).1 page.cursor ≠ none) :
    cleanupPosition (nextCursor (cleanupPosition page.expected).1 page.cursor) = page.reach := by
  unfold nextCursor CleanupPage.reach at *
  cases hc : page.cursor with
  | none =>
    rw [hc] at h
    dsimp only at h ⊢
    split_ifs at h ⊢ with hlt
    · rfl
    · exact absurd rfl h
  | some cursor => rfl

variable {page : CleanupPage Cursor}

/-- An advance without gaps leaves behind only what has been looked at in this pass. -/
theorem CleanupDb.Ahead.advance (h : db.Ahead L)
    (hdone : page.Done db []) (hskip : NoSkip L db page) :
    (db.advanceStorageCleanup page.expected
      (nextCursor (cleanupPosition page.expected).1 page.cursor) page.found).Ahead L := by
  unfold advanceStorageCleanup
  dsimp only
  split_ifs with hcas hnext
  · rintro - entry - hb
    rw [hnext] at hb
    exact not_behind_start hb
  · intro hzero entry hentry hb
    obtain ⟨hfound, hpage⟩ := Nat.add_eq_zero_iff.mp hzero
    obtain ⟨hpass, hreach⟩ := hskip hcas hfound hpage
    rw [page.position_nextCursor hnext] at hb
    rcases hreach entry hentry hb with hold | hmem
    · exact h hfound entry hentry hold
    · exact absurd (hdone.2 hpass hpage entry hentry hmem) not_mem_nil
  · exact h

theorem CleanupDb.follows_advance (db : CleanupDb Cursor) (expected next : CleanupCursor Cursor)
    (removed : ℕ) : db.Follows (db.advanceStorageCleanup expected next removed) := by
  unfold advanceStorageCleanup
  dsimp only
  split_ifs with hcas hnext
  · exact ⟨.inl (lt_succ_self _), le_rfl, rfl, .inl⟩
  · exact ⟨.inr ⟨rfl, refl _⟩, le_rfl, rfl, .inl⟩
  · exact .refl db

theorem CleanupDb.WellFormed.advance (h : db.WellFormed) (expected next : CleanupCursor Cursor)
    (removed : ℕ) : (db.advanceStorageCleanup expected next removed).WellFormed := by
  unfold advanceStorageCleanup
  dsimp only
  split_ifs
  · exact ⟨h.nodup, h.fresh⟩
  · exact ⟨h.nodup, h.fresh⟩
  · exact h

omit [DecidableEq Cursor] in
/-- What a step must show of the store, and of the worker it moves. -/
theorem GapInv.of_db (h : GapInv L s) (hwf : db'.WellFormed) (hf : s.db.Follows db')
    (hahead : db'.refresh.Ahead L) {w : ℕ} (hcall : call.Ok db'.refresh) :
    GapInv L ⟨db'.refresh, update s.workers w call⟩ where
  wellFormed := ⟨hwf.nodup, hwf.fresh⟩
  oldLegacy := oldLegacy_refresh db'
  ahead := hahead
  calls := by
    intro w'
    by_cases hw : w' = w
    · subst hw
      simpa using hcall
    · simpa [update_of_ne hw] using
        (h.calls w').follows (hf.trans (follows_refresh db'))

omit [DecidableEq Cursor] in
/-- The workers go on. -/
theorem GapInv.of_env (h : GapInv L s) (hwf : db'.WellFormed) (hf : s.db.Follows db')
    (hahead : db'.refresh.Ahead L) : GapInv L ⟨db'.refresh, s.workers⟩ := by
  have hcall := (h.calls 0).follows (hf.trans (follows_refresh db'))
  simpa using h.of_db hwf hf hahead (w := 0) hcall

variable {next : CleanupDb Cursor × CleanupCall Cursor}

/-- Each answer keeps the invariant. -/
theorem GapInv.answer {w limit : ℕ} (h : GapInv L s) (hgap : (s.workers w).NoGap L s.db)
    (hst : (s.workers w).answer L s.db limit = some next) :
    GapInv L ⟨next.1.refresh, update s.workers w next.2⟩ := by
  have hok := h.calls w
  -- a call that leaves the store alone:
  have hsame : ∀ call : CleanupCall Cursor, call.Ok s.db →
      GapInv L ⟨s.db.refresh, update s.workers w call⟩ := fun call hcall =>
    h.of_db h.wellFormed (.refl _) h.ahead.refresh (hcall.follows (follows_refresh _))
  unfold CleanupCall.answer at hst
  split at hst <;> rename_i hs <;> rw [hs] at hok hgap
  · exact absurd hst (by simp)
  · cases hst
    apply hsame
    unfold stateStep
    split_ifs
    · trivial
    · exact le_refl s.db.pass
  · split_ifs at hst
    cases hst
    apply hsame
    unfold listStep
    dsimp only
    split_ifs
    · refine CleanupPage.look_ok h.oldLegacy ⟨hok, ?_⟩
      intro _ _ entry _ hmem
      exact hmem
    · trivial
  · cases hst
    exact hsame _ (rowStep_ok h.oldLegacy hok)
  · cases hst
    exact hsame _ (headStep_ok h.wellFormed h.oldLegacy hok)
  · cases hst
    exact hsame _ (openStep_ok h.oldLegacy hok)
  · rename_i page key stored
    cases hst
    have hcall := deleteStep_ok h.wellFormed h.oldLegacy hok
    unfold deleteStep at hcall ⊢
    split at hcall
    · exact h.of_db h.wellFormed (.refl _) h.ahead.refresh hcall
    · rename_i o ho
      -- the version that was looked at is removed, or none is:
      split_ifs at hcall ⊢ with hversion
      · exact h.of_db h.wellFormed.remove h.wellFormed.follows_remove
          (h.ahead.remove (hgap ⟨o, ho, hversion⟩)) hcall
      · exact hsame _ hcall
  · rename_i page
    cases hst
    -- the cursor moves on:
    unfold advanceStep
    refine h.of_db (h.wellFormed.advance _ _ _) (s.db.follows_advance _ _ _)
      (h.ahead.advance hok hgap).refresh ?_
    split_ifs
    · trivial
    · trivial

/-- **Each step without a gap keeps the invariant.** -/
theorem GapInv.step {a : CleanupLabel} (h : GapInv L s) (hgap : NoGap L s a)
    (hst : (cleanup L).step s a = some s') : GapInv L s' := by
  obtain ⟨s₁, hmove, rfl⟩ := Option.map_eq_some_iff.mp hst
  cases a with
  | enter w =>
    simp only [Cleanup.move] at hmove
    split at hmove
    · cases hmove
      exact h.of_db h.wellFormed (.refl _) h.ahead.refresh trivial
    · cases hmove
  | answer w limit =>
    obtain ⟨next, hnext, rfl⟩ := Option.map_eq_some_iff.mp hmove
    exact h.answer hgap hnext
  | leave w =>
    cases hmove
    exact h.of_db h.wellFormed (.refl _) h.ahead.refresh trivial
  | put key modifiedAt encrypted n =>
    cases hmove
    exact h.of_env (h.wellFormed.put _ _ _) (h.wellFormed.follows_put _ _ _)
      (h.ahead.put h.wellFormed h.oldLegacy _ _ _ _).refresh
  | remove key =>
    cases hmove
    exact h.of_env h.wellFormed.remove h.wellFormed.follows_remove (h.ahead.remove hgap)
  | row type id row =>
    cases hmove
    exact h.of_env ⟨h.wellFormed.nodup, h.wellFormed.fresh⟩
      ⟨.inr ⟨rfl, refl _⟩, le_rfl, rfl, .inl⟩ (h.ahead.of_behind rfl rfl
        (fun _ hentry => mem_of_mem_filter hentry) fun _ _ _ hb => hb)
  | tick ms =>
    cases hmove
    exact h.of_env ⟨h.wellFormed.nodup, h.wellFormed.fresh⟩
      ⟨.inr ⟨rfl, refl _⟩, le_rfl, rfl, .inl⟩ (h.ahead.of_behind rfl rfl
        (fun _ hentry => mem_of_mem_filter hentry) fun _ _ _ hb => hb)

omit [DecidableEq Cursor] in
theorem gapInv_start {objects : List (ObjectKey × CleanupObject)} {nextVersion : ℕ}
    (rows : StorageRowKind → List Char → Option Bool) (now enabledAt : ℤ)
    (hn : (objects.map Prod.fst).Nodup) (hv : ∀ object ∈ objects, object.2.version < nextVersion) :
    GapInv L (Cleanup.start objects nextVersion rows now enabledAt) where
  wellFormed := ⟨hn, hv⟩
  oldLegacy := by
    intro entry hentry
    obtain ⟨⟨key, o⟩, hmem, rfl⟩ := mem_map.mp hentry
    obtain ⟨hobject, hlegacy⟩ := mem_filter.mp hmem
    exact ⟨o, object_of_mem hn hobject, rfl, (Bool.and_eq_true_iff.mp hlegacy).2⟩
  ahead := fun _ _ _ => not_behind_start
  calls := fun _ => trivial

/-- Only an advance completes cleanup. -/
theorem advance_of_complete {w limit : ℕ}
    (hst : (s.workers w).answer L s.db limit = some next) (hb : s.db.cleanupComplete = false)
    (hd : next.1.cleanupComplete = true) : ∃ page, s.workers w = .advance page ∧
      next.1 = s.db.advanceStorageCleanup page.expected
        (nextCursor (cleanupPosition page.expected).1 page.cursor) page.found := by
  have hne : next.1.cleanupComplete ≠ s.db.cleanupComplete := by simp [hb, hd]
  unfold answer at hst
  split at hst <;> rename_i hs
  · exact absurd hst (by simp)
  · cases hst
    exact absurd rfl hne
  · split_ifs at hst
    cases hst
    exact absurd rfl hne
  · cases hst
    exact absurd rfl hne
  · cases hst
    exact absurd rfl hne
  · cases hst
    exact absurd rfl hne
  · cases hst
    unfold deleteStep at hne
    split at hne
    · exact absurd rfl hne
    · split_ifs at hne
      · exact absurd rfl hne
      · exact absurd rfl hne
  · rename_i page
    cases hst
    exact ⟨page, hs, rfl⟩

theorem CleanupDb.of_completes {expected next : CleanupCursor Cursor} {removed : ℕ}
    (hb : db.cleanupComplete = false)
    (hd : (db.advanceStorageCleanup expected next removed).cleanupComplete = true) :
    db.cleanupCursor = expected ∧ next = none ∧ db.cleanupFound + removed = 0 := by
  unfold advanceStorageCleanup at hd
  dsimp only at hd
  split_ifs at hd with hcas hnext
  · exact ⟨hcas, hnext, by simpa [hnext] using hd⟩
  · simp [hnext] at hd
  · exact absurd (hb.symm.trans hd) (by simp)

omit [DecidableEq Cursor] in
/-- A page without a next one reaches the end of the last prefix. -/
theorem CleanupPage.behind_reach {key : ObjectKey}
    (hnext : nextCursor (cleanupPosition page.expected).1 page.cursor = none)
    (hkey : (prefixIndex key).isSome) : db.Behind L page.reach key := by
  unfold nextCursor at hnext
  unfold CleanupPage.reach
  cases hc : page.cursor with
  | none =>
    rw [hc] at hnext
    dsimp only at hnext ⊢
    split_ifs at hnext with hlast
    exact behind_end hkey hlast
  | some cursor =>
    rw [hc] at hnext
    exact absurd hnext (by simp)

end Runs

/-! ### A cache that is put in the last pass -/

section LateCache

def cacheA : ObjectKey := "cache/repository-code/a".toList
def cacheB : ObjectKey := "cache/repository-code/b".toList

/-- A store with no objects, that lists by offset. -/
def noCaches : Cleanup ℕ := Cleanup.start [] 0 (fun _ _ => none) 0 0

/-- One worker passes the first three prefixes, and then a cache is put. -/
def lateCacheRun : List CleanupLabel :=
  .enter 0 :: List.replicate 9 (.answer 0 1) ++
    [.put cacheA 0 false 0, .answer 0 1, .answer 0 1]

/-- Nothing has always been legacy, and an advance is of a page of the pass. -/
def quietPage (s : Cleanup ℕ) (a : CleanupLabel) : Bool :=
  s.db.old.isEmpty && match a with
    | .answer w _ => match s.workers w with
      | .advance page => page.pass = s.db.pass
      | _ => true
    | _ => true

theorem noGap_of_quiet {s : Cleanup ℕ} {a : CleanupLabel} (h : quietPage s a = true) :
    NoGap Listing.offset s a := by
  obtain ⟨hold, hpage⟩ := Bool.and_eq_true_iff.mp h
  have hnil : s.db.old = [] := List.isEmpty_iff.mp hold
  have hnone : ∀ entry, entry ∉ s.db.old := by
    intro entry
    rw [hnil]
    exact not_mem_nil
  cases a with
  | answer w limit =>
    show (s.workers w).NoGap Listing.offset s.db
    cases hs : s.workers w with
    | delete page key stored => exact fun _ _ entry hentry => absurd hentry (hnone entry)
    | advance page =>
      intro _ _ _
      exact ⟨by simpa [hs] using hpage, fun entry hentry => absurd hentry (hnone entry)⟩
    | _ => trivial
  | remove key => exact fun _ entry hentry => absurd hentry (hnone entry)
  | _ => trivial

end LateCache

/-! ### Two workers on one page -/

section LostCount

/-- Two legacy caches, in a store that lists by offset. -/
def twoCaches : Cleanup ℕ :=
  Cleanup.start [(cacheA, ⟨0, 0, false⟩), (cacheB, ⟨1, 0, false⟩)] 2 (fun _ _ => none) 0 0

/-- Both workers read the state and list the first page, of one object.  The first one removes the
object.  The second one finds nothing there, and advances the cursor; the first one's advance has
no effect.  The second one goes on to the end: its next page is past the other cache. -/
def lostCountRun : List CleanupLabel :=
  [.enter 0, .enter 1, .answer 0 1, .answer 1 1, .answer 0 1, .answer 1 1, .answer 0 1,
    .answer 0 1, .answer 1 1, .answer 1 1, .answer 0 1, .leave 0] ++
  List.replicate 11 (.answer 1 1)

end LostCount

end Triage.Managed
