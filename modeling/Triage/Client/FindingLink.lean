import Triage.Data.PercentEncoding

/-!
# Links to findings

A link names a finding by its id, percent-encoded, and may tell where to look for it first by two
hints, packed into one parameter. It is the fragment of a URL, in which parameters stand in any
order among others.

## Main results

* `links_right` : what is made is read back just where the encoded id is not too long.
-/

namespace Triage.FindingLink

open Utf16 Percent List Option

/-! ### Ids -/

def MAX_FINDING_ID_LENGTH : ℕ := 512

def isDigit (u : UInt16) : Bool := 0x30 ≤ u ∧ u ≤ 0x39

/-- `hasControlChar`; no code point past `0xFFFF` is one. -/
def hasControlChar (value : Units) : Bool := value.any fun u => u < 0x20 ∨ u = 0x7F

def isUsablePart (value : Units) : Bool :=
  value ≠ [] ∧ value.length ≤ MAX_FINDING_ID_LENGTH ∧ hasControlChar value = false

def isLinkableFindingId (id : Units) : Bool := isUsablePart id ∧ id.all isDigit = false

/-! ### Hints -/

/-- A character of a hint, `[\w-]`. -/
def isHintChar (u : UInt16) : Bool :=
  isDigit u ∨ (0x41 ≤ u ∧ u ≤ 0x5A) ∨ (0x61 ≤ u ∧ u ≤ 0x7A) ∨ u = 0x5F ∨ u = 0x2D

def HINT_CHARS : ℕ := 4

/-- `AAAA` -/
def NO_HINT : Units := [0x41, 0x41, 0x41, 0x41]

def isLinkHint (value : Units) : Bool := value.length = HINT_CHARS ∧ value.all isHintChar

/-- `COMBINED_RE` -/
def isCombined (value : Units) : Bool := value.length = 2 * HINT_CHARS ∧ value.all isHintChar

/-- What stands for a hint; one that is no token throws. -/
def packHint : Option Units → Option Units
  | none => some NO_HINT
  | some hint => if hint = [] then some NO_HINT else if isLinkHint hint then some hint else none

def packLinkHints (report workspace : Option Units) : Option (Option Units) :=
  (packHint report).bind fun r => (packHint workspace).map fun w =>
    if r = NO_HINT ∧ w = NO_HINT then none
    else if r = NO_HINT then some (0x77 :: w)
    else some (r ++ w)

def unpackHint (value : Units) : Option Units := if value = NO_HINT then none else some value

/-! ### Fragments -/

/-- A finding, and the hints to where it is. -/
@[ext] structure FindingRef where
  id : Units
  report : Option Units
  workspace : Option Units
  deriving DecidableEq

/-- The fragment for a finding; `none` where it throws. -/
def encodeFindingRef (ref : FindingRef) : Option Units :=
  if isLinkableFindingId ref.id then
    (encodeURIComponent ref.id).bind fun encoded =>
      (packLinkHints ref.report ref.workspace).map fun packed =>
        [0x26].intercalate
          ((units "finding=" ++ encoded) :: (packed.map (units "v=" ++ ·)).toList)
  else none

/-- What was found so far. -/
structure Found where
  id : Option Units
  report : Option Units
  workspace : Option Units

/-- A parameter is read. -/
def takePart (found : Found) (part : Units) : Found :=
  have key := part.take (part.idxOf 0x3D)
  have rawValue := part.drop (part.idxOf 0x3D + 1)
  if 0x3D ∉ part ∨ rawValue = [] then found
  else if key = units "v" then
    if rawValue.length = 5 ∧ rawValue.head? = some 0x77 ∧ isLinkHint rawValue.tail then
      { found with report := none, workspace := unpackHint rawValue.tail }
    else if isCombined rawValue then
      { found with
        report := unpackHint (rawValue.take HINT_CHARS)
        workspace := unpackHint (rawValue.drop HINT_CHARS) }
    else found
  -- the guard on the length takes the encoding to be three times the id at most
  else if key ≠ units "finding" ∨ MAX_FINDING_ID_LENGTH * 3 < rawValue.length then found
  else
    match decodeURIComponent rawValue with
    | none => found
    | some value => if isLinkableFindingId value then { found with id := some value } else found

def stripHash : Units → Units
  | [] => []
  | u :: rest => if u = 0x23 then rest else u :: rest

def Found.ref (found : Found) : Option FindingRef :=
  found.id.map fun id => ⟨id, found.report, found.workspace⟩

def extractFindingRef (hash : Units) : Option FindingRef :=
  if stripHash hash = [] then none
  else (((stripHash hash).splitOn 0x26).foldl takePart ⟨none, none, none⟩).ref

/-! ### What is read back -/

/-- A fragment is made, and read back. -/
def RoundTrips (ref : FindingRef) : Prop :=
  ((encodeFindingRef ref).bind fun encoded => extractFindingRef (0x23 :: encoded)) = some ref

instance (ref : FindingRef) : Decidable (RoundTrips ref) := inferInstanceAs (Decidable (_ = _))

/-- The id can be encoded, to no more than three times the length of an id. -/
def Short (id : Units) : Prop :=
  ∃ encoded, encodeURIComponent id = some encoded ∧ encoded.length ≤ MAX_FINDING_ID_LENGTH * 3

/-- A hint that is absent, or a token that does not stand for an absent one. -/
def IsHint (hint : Option Units) : Prop :=
  ∀ token, hint = some token → isLinkHint token = true ∧ token ≠ NO_HINT

variable {ref : FindingRef} {found : Found} {encoded : Units}

/-- The two halves of a parameter. -/
theorem halves (key raw : Units) (hkey : 0x3D ∉ key) :
    (key ++ 0x3D :: raw).take ((key ++ 0x3D :: raw).idxOf 0x3D) = key ∧
      (key ++ 0x3D :: raw).drop ((key ++ 0x3D :: raw).idxOf 0x3D + 1) = raw := by
  have hidx : (key ++ 0x3D :: raw).idxOf 0x3D = key.length := by
    rw [idxOf_append_of_notMem hkey, idxOf_cons_self, Nat.add_zero]
  rw [hidx, take_left, ← drop_drop, drop_left]
  exact ⟨rfl, rfl⟩

theorem not_special {u : UInt16} (hu : u = sign ∨ isUnreserved u.toNat = true) : u ≠ 0x26 := by
  rintro rfl
  revert hu
  decide

theorem isHintChar_ne {u : UInt16} (hu : isHintChar u = true) : u ≠ 0x26 := by
  rintro rfl
  revert hu
  decide

/-- The id of a link is read where it is not too long. -/
theorem takePart_finding (hid : isLinkableFindingId ref.id = true)
    (hencoded : encodeURIComponent ref.id = some encoded) :
    takePart found (units "finding=" ++ encoded) =
      if encoded.length ≤ MAX_FINDING_ID_LENGTH * 3 then { found with id := some ref.id }
      else found := by
  have hdecoded := decode_encode hencoded
  have hne : encoded ≠ [] := by
    rintro rfl
    have hnil : ref.id = [] := (some.inj hdecoded).symm
    rw [hnil] at hid
    exact absurd hid (by decide)
  have hpart : units "finding=" ++ encoded = units "finding" ++ 0x3D :: encoded := rfl
  obtain ⟨hkey, hraw⟩ := halves (units "finding") encoded (by decide)
  rw [hpart, takePart, hkey, hraw, if_neg (by simp [hne]), if_neg (by decide)]
  by_cases hlength : encoded.length ≤ MAX_FINDING_ID_LENGTH * 3
  · rw [if_pos hlength, if_neg (by simp [hlength]), hdecoded]
    exact if_pos hid
  · rw [if_neg hlength, if_pos (.inr (by omega))]

/-- Hints are packed, and read as they were. -/
theorem packLinkHints_spec (hreport : IsHint ref.report) (hworkspace : IsHint ref.workspace) :
    (packLinkHints ref.report ref.workspace = some none ∧ ref.report = none ∧
      ref.workspace = none) ∨
    ∃ v, packLinkHints ref.report ref.workspace = some (some v) ∧ (∀ u ∈ v, u ≠ 0x26) ∧
      ∀ found, takePart found (units "v=" ++ v) =
        { found with report := ref.report, workspace := ref.workspace } := by
  have hpack : ∀ {hint : Option Units}, IsHint hint →
      ∃ half, packHint hint = some half ∧ isLinkHint half = true ∧ unpackHint half = hint := by
    intro hint h
    cases hint with
    | none => exact ⟨NO_HINT, rfl, by decide, rfl⟩
    | some token =>
      obtain ⟨htoken, hne⟩ := h token rfl
      have hnil : token ≠ [] := by
        rintro rfl
        exact absurd htoken (by decide)
      exact ⟨token, by rw [packHint, if_neg hnil, if_pos htoken], htoken, if_neg hne⟩
  obtain ⟨r, hr, hrhint, hrunpack⟩ := hpack hreport
  obtain ⟨w, hw, hwhint, hwunpack⟩ := hpack hworkspace
  have hw' := hwhint
  simp only [isLinkHint, decide_eq_true_eq] at hrhint hwhint
  have hchars : ∀ u ∈ r ++ w, isHintChar u = true :=
    fun u hu => (mem_append.1 hu).elim (List.all_eq_true.1 hrhint.2 u)
      (List.all_eq_true.1 hwhint.2 u)
  have hpart : ∀ v, units "v=" ++ v = units "v" ++ 0x3D :: v := fun _ => rfl
  rw [packLinkHints, hr, hw]
  dsimp only [bind_some, map_some]
  by_cases hrnone : r = NO_HINT
  · have hnone : ref.report = none := by
      rw [← hrunpack, hrnone]
      rfl
    by_cases hwnone : w = NO_HINT
    · refine .inl ⟨by rw [if_pos ⟨hrnone, hwnone⟩], hnone, ?_⟩
      rw [← hwunpack, hwnone]
      rfl
    · refine .inr ⟨0x77 :: w, by rw [if_neg fun h => hwnone h.2, if_pos hrnone], ?_,
        fun found => ?_⟩
      · refine forall_mem_cons.2 ⟨by decide, fun u hu => ?_⟩
        exact isHintChar_ne (hchars u (mem_append_right r hu))
      · obtain ⟨hkey, hraw⟩ := halves (units "v") (0x77 :: w) (by decide)
        rw [hpart, takePart, hkey, hraw, if_neg (by simp), if_pos rfl,
          if_pos ⟨by rw [length_cons, hwhint.1]; rfl, rfl, hw'⟩, hnone, tail_cons,
          hwunpack]
  · refine .inr ⟨r ++ w, by rw [if_neg fun h => hrnone h.1, if_neg hrnone],
      fun u hu => isHintChar_ne (hchars u hu), fun found => ?_⟩
    obtain ⟨hkey, hraw⟩ := halves (units "v") (r ++ w) (by decide)
    have hlength : (r ++ w).length = 2 * HINT_CHARS := by
      rw [length_append, hrhint.1, hwhint.1]
      rfl
    have hcombined : isCombined (r ++ w) = true :=
      decide_eq_true ⟨hlength, List.all_eq_true.2 hchars⟩
    have hne : r ++ w ≠ [] := by
      intro h
      rw [h] at hlength
      cases hlength
    rw [hpart, takePart, hkey, hraw, if_neg (by simp [hne]), if_pos rfl,
      if_neg fun h => absurd (hlength.symm.trans h.1) (by decide), if_pos hcombined, ← hrhint.1,
      take_left, drop_left, hrunpack, hwunpack]

/-- The parameters of a fragment are read one by one. -/
theorem extractFindingRef_parts {parts : List Units} (hne : parts ≠ [])
    (hparts : ∀ part ∈ parts, 0x26 ∉ part) (hfragment : [0x26].intercalate parts ≠ []) :
    extractFindingRef (0x23 :: [0x26].intercalate parts) =
      (parts.foldl takePart ⟨none, none, none⟩).ref := by
  have hstrip : stripHash (0x23 :: [0x26].intercalate parts) = [0x26].intercalate parts := by
    rw [stripHash, if_pos rfl]
  rw [extractFindingRef, hstrip, if_neg hfragment, splitOn_intercalate 0x26 hparts hne]

/-- **A link** is read back just where its encoded id is not too long. -/
theorem roundTrips_iff (hid : isLinkableFindingId ref.id = true) (hreport : IsHint ref.report)
    (hworkspace : IsHint ref.workspace) : RoundTrips ref ↔ Short ref.id := by
  cases hencoded : encodeURIComponent ref.id with
  | none =>
    refine iff_of_false ?_ ?_
    · rw [RoundTrips, encodeFindingRef, if_pos hid, hencoded]
      exact fun h => by cases h
    · rintro ⟨encoded, h, -⟩
      rw [hencoded] at h
      cases h
  | some encoded =>
    have hshort : Short ref.id ↔ encoded.length ≤ MAX_FINDING_ID_LENGTH * 3 := by
      rw [Short, hencoded]
      exact ⟨fun ⟨e, he, hlength⟩ => some.inj he ▸ hlength, fun h => ⟨encoded, rfl, h⟩⟩
    have hid' : 0x26 ∉ units "finding=" ++ encoded := by
      intro h
      rcases mem_append.1 h with h | h
      · exact absurd h (by decide)
      · exact not_special (mem_encode hencoded h) rfl
    rw [hshort, RoundTrips, encodeFindingRef, if_pos hid, hencoded, bind_some]
    rcases packLinkHints_spec hreport hworkspace with ⟨hpacked, hr, hw⟩ | ⟨v, hpacked, hv, hread⟩
    · rw [hpacked, map_some, bind_some, map_none, toList_none,
        extractFindingRef_parts (cons_ne_nil _ _) (forall_mem_singleton.2 hid')
          (cons_ne_nil _ _), foldl_cons, foldl_nil, takePart_finding hid hencoded]
      split
      · rename_i hlength
        exact iff_of_true (congrArg some (FindingRef.ext rfl hr.symm hw.symm)) hlength
      · rename_i hlength
        exact iff_of_false (fun h => by cases h) hlength
    · have hhints : 0x26 ∉ units "v=" ++ v := by
        intro h
        rcases mem_append.1 h with h | h
        · exact absurd h (by decide)
        · exact hv _ h rfl
      rw [hpacked, map_some, bind_some, map_some, toList_some,
        extractFindingRef_parts (cons_ne_nil _ _)
          (forall_mem_cons.2 ⟨hid', forall_mem_singleton.2 hhints⟩)
          (cons_ne_nil _ _), foldl_cons, foldl_cons, foldl_nil,
        takePart_finding hid hencoded, hread]
      split
      · rename_i hlength
        exact iff_of_true rfl hlength
      · rename_i hlength
        exact iff_of_false (fun h => by cases h) hlength

/-! ### What is read of a fragment -/

/-- What was found is fit for a link. -/
structure Found.Fit (found : Found) : Prop where
  id : ∀ id, found.id = some id → isLinkableFindingId id = true
  report : IsHint found.report
  workspace : IsHint found.workspace

theorem isHint_unpackHint {token : Units} (h : isLinkHint token = true) :
    IsHint (unpackHint token) := by
  intro t ht
  obtain ⟨hne, heq⟩ := ite_none_left_eq_some.1 ht
  exact some.inj heq ▸ ⟨h, hne⟩

theorem Found.Fit.takePart (h : found.Fit) (part : Units) : (takePart found part).Fit := by
  rw [FindingLink.takePart]
  split
  · exact h
  split
  · split
    · rename_i hworkspace
      exact ⟨h.id, fun t ht => (by cases ht), isHint_unpackHint hworkspace.2.2⟩
    · split
      · rename_i hcombined
        simp only [isCombined, decide_eq_true_eq] at hcombined
        obtain ⟨hlength, hall⟩ := hcombined
        rw [List.all_eq_true] at hall
        refine ⟨h.id, isHint_unpackHint (decide_eq_true ⟨?_, List.all_eq_true.2 fun u hu => ?_⟩),
          isHint_unpackHint (decide_eq_true ⟨?_, List.all_eq_true.2 fun u hu => ?_⟩)⟩
        · rw [length_take, hlength]
          rfl
        · exact hall u (mem_of_mem_take hu)
        · rw [length_drop, hlength]
          rfl
        · exact hall u (mem_of_mem_drop hu)
      · exact h
  split
  · exact h
  split
  · exact h
  split
  · rename_i hlinkable
    exact ⟨fun id hid => some.inj hid ▸ hlinkable, h.report, h.workspace⟩
  · exact h

theorem fit_nothing : Found.Fit ⟨none, none, none⟩ :=
  ⟨fun _ h => (by cases h), fun _ h => (by cases h), fun _ h => (by cases h)⟩

theorem fit_extract {hash : Units} (h : extractFindingRef hash = some ref) :
    isLinkableFindingId ref.id = true ∧ IsHint ref.report ∧ IsHint ref.workspace := by
  obtain ⟨-, h⟩ := ite_none_left_eq_some.1 h
  obtain ⟨id, hid, rfl⟩ := map_eq_some_iff.1 h
  have hfit := foldlRecOn ((stripHash hash).splitOn 0x26) takePart (motive := Found.Fit)
    fit_nothing fun found hfound part _ => hfound.takePart part
  exact ⟨hfit.id id hid, hfit.report, hfit.workspace⟩

/-- **Links** are read back, of every id that links are made for and of every fragment that is
accepted, just where the encoded id is not too long. -/
theorem links_right (hash : Units) (ref : FindingRef) :
    (isLinkableFindingId ref.id = true → IsHint ref.report → IsHint ref.workspace →
      (RoundTrips ref ↔ Short ref.id)) ∧
    (extractFindingRef hash = some ref → (RoundTrips ref ↔ Short ref.id)) := by
  refine ⟨roundTrips_iff, fun h => ?_⟩
  obtain ⟨hid, hreport, hworkspace⟩ := fit_extract h
  exact roundTrips_iff hid hreport hworkspace

/-- A link with a hint to a workspace. -/
theorem links_right_small :
    RoundTrips ⟨units "a&b=%", none, some (units "x_9Z")⟩ ↔ Short (units "a&b=%") :=
  (links_right [] ⟨units "a&b=%", none, some (units "x_9Z")⟩).1 (by decide) (fun _ h => by cases h)
    (fun _ h => by
      cases h
      decide)

/-- An id of a surrogate that stands alone has no link, and one of 512 characters past `0x7FF`,
which a fragment may have as they are, has one that is not read. -/
theorem long_and_lone_ids :
    (isLinkableFindingId [0xD800] = true ∧ encodeFindingRef ⟨[0xD800], none, none⟩ = none) ∧
      isLinkableFindingId (List.replicate 512 0x65E5) = true ∧
      extractFindingRef (units "#finding=" ++ List.replicate 512 0x65E5) =
        some ⟨List.replicate 512 0x65E5, none, none⟩ ∧
      ¬RoundTrips ⟨List.replicate 512 0x65E5, none, none⟩ := by
  decide +kernel

end Triage.FindingLink
