import Mathlib.Algebra.Order.BigOperators.Group.List
import Mathlib.Algebra.Order.Ring.Nat
import Triage.Ui.BundleSearch

/-!
# Searching again

What the history answers is what a scan from scratch does: a result that is not cut short has every
hit, and what a longer query finds is among them. Its ranges are where the query is, as far as lower
case keeps the place of what it is made of.

## Main results

* `fullSearch_eq` : a scan that is not cut short has all hits.
* `refineSearch_eq` : so has the search among the hits of a part of the query.
* `answers_eq` : every answer is that of a scan from scratch.
* `answers_right` : **what the answers of any calls have**.
-/

namespace Triage.BundleSearch

open List Option Occurrences

variable {ranges ranges' : Matcher} {b : Bundle} {path : Text} {lines : List Text}

/-! ### All hits -/

def hitOf (ranges : Matcher) (x : Text × ℕ) : Option Hit :=
  if ranges x.1 = [] then none else some ⟨x.2 + 1, ranges x.1⟩

def hitsOf (ranges : Matcher) (lines : List Text) : List Hit :=
  lines.zipIdx.filterMap (hitOf ranges)

/-- The hits of a file, which has none without a text. -/
def fileHits (b : Bundle) (ranges : Matcher) (path : Text) : List Hit :=
  ((b.content path).map fun content => hitsOf ranges (splitLines content)).getD []

def fileOf (b : Bundle) (ranges : Matcher) (path : Text) : Option FileResult :=
  (b.content path).bind fun content =>
    if hitsOf ranges (splitLines content) = [] then none
    else some ⟨path, splitLines content, hitsOf ranges (splitLines content)⟩

/-- All hits of some files, however many. -/
def exhaustive (b : Bundle) (ranges : Matcher) (paths : List Text) : SearchResult where
  fileResults := paths.filterMap (fileOf b ranges)
  totalHits := (paths.map fun path => (fileHits b ranges path).length).sum
  truncated := false

variable {x : Text × ℕ} {r : SearchResult} {fold : Text → Text}

theorem hitOf_of_nil (h : ranges x.1 = []) : [x].filterMap (hitOf ranges) = [] := by simp [hitOf, h]

theorem hitOf_of_ne_nil (h : ranges x.1 ≠ []) :
    [x].filterMap (hitOf ranges) = [⟨x.2 + 1, ranges x.1⟩] := by simp [hitOf, h]

/-- The scan of some lines, with hits before them. -/
theorem scanLine_spec (ranges : Matcher) (n : ℕ) (hn : n < searchMaxTotalHits)
    (xs : List (Text × ℕ)) :
    (n + (xs.filterMap (hitOf ranges)).length < searchMaxTotalHits →
      xs.foldl (scanLine ranges) ([], n, false) =
        (xs.filterMap (hitOf ranges), n + (xs.filterMap (hitOf ranges)).length, false)) ∧
    (searchMaxTotalHits ≤ n + (xs.filterMap (hitOf ranges)).length →
      (xs.foldl (scanLine ranges) ([], n, false)).2.2 = true) := by
  induction xs using reverseRecOn with
  | nil => exact ⟨fun _ => rfl, fun h => absurd hn (not_lt.2 h)⟩
  | append_singleton xs x ih =>
    obtain ⟨hfew, hmany⟩ := ih
    rw [foldl_append, foldl_cons, foldl_nil, filterMap_append, length_append]
    generalize xs.foldl (scanLine ranges) ([], n, false) = s at hfew hmany
    by_cases hbefore : searchMaxTotalHits ≤ n + (xs.filterMap (hitOf ranges)).length
    · have hstays : scanLine ranges s x = s := if_pos (.inl (hmany hbefore))
      rw [hstays]
      exact ⟨fun h => by omega, fun _ => hmany hbefore⟩
    · rw [hfew (by omega)]
      by_cases hx : ranges x.1 = []
      · rw [hitOf_of_nil hx, append_nil, length_nil, Nat.add_zero]
        exact ⟨fun _ => if_pos (.inr hx), fun h => absurd h hbefore⟩
      · have hstep : ∀ hits total, scanLine ranges (hits, total, false) x =
            (hits ++ [⟨x.2 + 1, ranges x.1⟩], total + 1,
              decide (searchMaxTotalHits ≤ total + 1)) := by
          intro hits total
          rw [scanLine, if_neg (by simp [hx])]
        rw [hitOf_of_ne_nil hx, length_singleton, hstep]
        refine ⟨fun h => ?_, fun h => decide_eq_true h⟩
        rw [decide_eq_false (by omega)]
        rfl

theorem scanFile_of_none (h : b.content path = none) : scanFile b ranges r path = r := by
  rw [scanFile, h]
  exact ite_self r

theorem scanFile_of_some {content : Text} (hr : r.truncated = false)
    (h : b.content path = some content) : scanFile b ranges r path =
      ⟨if ((splitLines content).zipIdx.foldl (scanLine ranges) ([], r.totalHits, false)).1 = [] then
          r.fileResults else r.fileResults ++ [⟨path, splitLines content,
          ((splitLines content).zipIdx.foldl (scanLine ranges) ([], r.totalHits, false)).1⟩],
        ((splitLines content).zipIdx.foldl (scanLine ranges) ([], r.totalHits, false)).2.1,
        ((splitLines content).zipIdx.foldl (scanLine ranges) ([], r.totalHits, false)).2.2 ||
          decide (searchMaxFiles ≤ (if ((splitLines content).zipIdx.foldl (scanLine ranges)
            ([], r.totalHits, false)).1 = [] then r.fileResults
            else r.fileResults ++ [⟨path, splitLines content,
              ((splitLines content).zipIdx.foldl (scanLine ranges)
                ([], r.totalHits, false)).1⟩]).length)⟩ := by
  rw [scanFile, h, if_neg (by simp [hr])]

/-- **A scan** has all hits, where they are not too many. -/
theorem fullSearch_spec (b : Bundle) (ranges : Matcher) (paths : List Text) :
    ((exhaustive b ranges paths).totalHits < searchMaxTotalHits ∧
      (exhaustive b ranges paths).fileResults.length < searchMaxFiles →
      paths.foldl (scanFile b ranges) ⟨[], 0, false⟩ = exhaustive b ranges paths) ∧
    (¬((exhaustive b ranges paths).totalHits < searchMaxTotalHits ∧
      (exhaustive b ranges paths).fileResults.length < searchMaxFiles) →
      (paths.foldl (scanFile b ranges) ⟨[], 0, false⟩).truncated = true) := by
  induction paths using reverseRecOn with
  | nil =>
    have hnone : 0 < searchMaxTotalHits ∧ 0 < searchMaxFiles := by decide
    exact ⟨fun _ => rfl, fun h => absurd hnone h⟩
  | append_singleton paths path ih =>
    obtain ⟨hfew, hmany⟩ := ih
    have htotal : (exhaustive b ranges (paths ++ [path])).totalHits =
        (exhaustive b ranges paths).totalHits + (fileHits b ranges path).length := by
      simp only [exhaustive, map_append, sum_append, map_cons, map_nil, sum_singleton]
    have hfiles : (exhaustive b ranges (paths ++ [path])).fileResults =
        (exhaustive b ranges paths).fileResults ++ (fileOf b ranges path).toList := by
      simp only [exhaustive, filterMap_append]
      cases h : fileOf b ranges path <;> simp [h]
    have hnext : exhaustive b ranges (paths ++ [path]) =
        ⟨(exhaustive b ranges (paths ++ [path])).fileResults,
          (exhaustive b ranges (paths ++ [path])).totalHits, false⟩ := rfl
    rw [foldl_append, foldl_cons, foldl_nil, hnext, htotal, hfiles, length_append]
    generalize paths.foldl (scanFile b ranges) ⟨[], 0, false⟩ = r at hfew hmany
    by_cases hbefore : (exhaustive b ranges paths).totalHits < searchMaxTotalHits ∧
        (exhaustive b ranges paths).fileResults.length < searchMaxFiles
    · rw [hfew hbefore]
      obtain ⟨htotal', hfiles'⟩ := hbefore
      cases hcontent : b.content path with
      | none =>
        rw [scanFile_of_none hcontent, fileHits, fileOf, hcontent]
        simp only [map_none, getD_none, bind_none, toList_none,
          append_nil, length_nil, Nat.add_zero]
        exact ⟨fun _ => rfl, fun h => absurd ⟨htotal', hfiles'⟩ h⟩
      | some content =>
        obtain ⟨hlines, hcut⟩ := scanLine_spec ranges _ htotal' (splitLines content).zipIdx
        rw [scanFile_of_some rfl hcontent, fileHits, fileOf, hcontent, map_some,
          getD_some, bind_some, hitsOf]
        generalize (exhaustive b ranges paths).totalHits = total at *
        generalize (exhaustive b ranges paths).fileResults = files at *
        dsimp only
        by_cases hall : total + ((splitLines content).zipIdx.filterMap (hitOf ranges)).length <
            searchMaxTotalHits
        · rw [hlines hall]
          generalize (splitLines content).zipIdx.filterMap (hitOf ranges) = hits at hall ⊢
          by_cases hits' : hits = []
          · simp only [hits', if_true, toList_none, append_nil, length_nil,
              Nat.add_zero, Bool.false_or]
            rw [decide_eq_false (by omega)]
            exact ⟨fun _ => rfl, fun h => absurd ⟨htotal', hfiles'⟩ h⟩
          · rw [if_neg hits', if_neg hits', toList_some, length_append, length_singleton]
            refine ⟨fun h => ?_, fun h => ?_⟩
            · rw [decide_eq_false (by omega)]
              rfl
            · rw [decide_eq_true (by omega)]
              rfl
        · rw [hcut (by omega), Bool.true_or]
          exact ⟨fun h => absurd h.1 hall, fun _ => rfl⟩
    · have hstays : scanFile b ranges r path = r := if_pos (hmany hbefore)
      rw [hstays]
      refine ⟨fun h => absurd ⟨by omega, by omega⟩ hbefore, fun _ => hmany hbefore⟩

theorem fullSearch_eq (h : (fullSearch b ranges).truncated = false) :
    fullSearch b ranges = exhaustive b ranges b.allPaths ∧
      (exhaustive b ranges b.allPaths).totalHits < searchMaxTotalHits ∧
      (exhaustive b ranges b.allPaths).fileResults.length < searchMaxFiles := by
  obtain ⟨hfew, hmany⟩ := fullSearch_spec b ranges b.allPaths
  have hall : (exhaustive b ranges b.allPaths).totalHits < searchMaxTotalHits ∧
      (exhaustive b ranges b.allPaths).fileResults.length < searchMaxFiles := by
    by_contra hnot
    have hcut := hmany hnot
    rw [← fullSearch, h] at hcut
    cases hcut
  exact ⟨hfew hall, hall⟩

/-! ### Refining -/

/-- What one matcher finds the other one finds something of. -/
def Narrows (ranges' ranges : Matcher) : Prop := ∀ line, ranges' line ≠ [] → ranges line ≠ []

section

variable (h : Narrows ranges' ranges)
include h

theorem refineFile_hitsOf (path : Text) (lines : List Text) :
    refineFile ranges' ⟨path, lines, hitsOf ranges lines⟩ = hitsOf ranges' lines := by
  rw [refineFile, hitsOf, hitsOf, filterMap_filterMap]
  refine filterMap_congr fun x hx => ?_
  have hline : lines[x.2]? = some x.1 := mem_zipIdx_iff_getElem?.1 hx
  rw [hitOf, hitOf]
  by_cases hfound : ranges x.1 = []
  · have hnone : ranges' x.1 = [] := by
      by_contra hne
      exact h x.1 hne hfound
    rw [if_pos hfound, if_pos hnone]
    rfl
  · rw [if_neg hfound, bind_some, Nat.add_sub_cancel, hline]
    rfl

theorem hitsOf_length_le (lines : List Text) :
    (hitsOf ranges' lines).length ≤ (hitsOf ranges lines).length := by
  rw [← refineFile_hitsOf h [] lines]
  exact length_filterMap_le _ _

theorem fileOf_bind (path : Text) :
    ((fileOf b ranges path).bind fun file => if refineFile ranges' file = [] then none
      else some { file with hits := refineFile ranges' file }) = fileOf b ranges' path := by
  rw [fileOf, fileOf]
  cases b.content path with
  | none => rfl
  | some content =>
    rw [bind_some, bind_some]
    by_cases hnone : hitsOf ranges (splitLines content) = []
    · have hle := hitsOf_length_le h (splitLines content)
      rw [hnone] at hle
      have hnone' : hitsOf ranges' (splitLines content) = [] :=
        eq_nil_of_length_eq_zero (Nat.le_zero.1 hle)
      rw [if_pos hnone, if_pos hnone']
      rfl
    · rw [if_neg hnone, bind_some, refineFile_hitsOf h]

/-- The hits of a file that another matcher finds. -/
theorem refined_hits (path : Text) :
    ((fileOf b ranges path).map fun file => (refineFile ranges' file).length).getD 0 =
      (fileHits b ranges' path).length := by
  rw [fileOf, fileHits]
  cases b.content path with
  | none => rfl
  | some content =>
    rw [bind_some, map_some, getD_some]
    by_cases hnone : hitsOf ranges (splitLines content) = []
    · have hle := hitsOf_length_le h (splitLines content)
      rw [hnone] at hle
      rw [if_pos hnone, Nat.le_zero.1 hle]
      rfl
    · rw [if_neg hnone, map_some, getD_some, refineFile_hitsOf h]

/-- **The search among the hits** of a part of the query. -/
theorem refineSearch_eq (paths : List Text) :
    refineSearch (exhaustive b ranges paths) ranges' = exhaustive b ranges' paths := by
  have hfiles : (paths.filterMap (fileOf b ranges)).filterMap (fun file =>
      if refineFile ranges' file = [] then none
      else some { file with hits := refineFile ranges' file }) =
      paths.filterMap (fileOf b ranges') := by
    rw [filterMap_filterMap]
    exact filterMap_congr fun path _ => fileOf_bind h path
  have htotal : ((paths.filterMap (fileOf b ranges)).map fun file =>
      (refineFile ranges' file).length).sum =
      (paths.map fun path => (fileHits b ranges' path).length).sum := by
    clear hfiles
    induction paths with
    | nil => rfl
    | cons path paths ih =>
      rw [map_cons, sum_cons, ← ih, ← refined_hits h path]
      cases hfile : fileOf b ranges path with
      | none =>
        rw [filterMap_cons_none hfile, map_none, getD_none, Nat.zero_add]
      | some file =>
        rw [filterMap_cons_some hfile, map_cons, sum_cons, map_some, getD_some]
  rw [refineSearch, exhaustive, exhaustive]
  dsimp only
  rw [hfiles, htotal]

theorem exhaustive_le (paths : List Text) :
    (exhaustive b ranges' paths).totalHits ≤ (exhaustive b ranges paths).totalHits ∧
      (exhaustive b ranges' paths).fileResults.length ≤
        (exhaustive b ranges paths).fileResults.length := by
  refine ⟨sum_le_sum fun path _ => ?_, ?_⟩
  · rw [fileHits, fileHits]
    cases b.content path with
    | none => exact le_rfl
    | some content => exact hitsOf_length_le h (splitLines content)
  · rw [← refineSearch_eq h paths]
    exact length_filterMap_le _ _

/-- What is left of a scan that was not cut short is a scan. -/
theorem refineSearch_fullSearch (hall : (fullSearch b ranges).truncated = false) :
    refineSearch (fullSearch b ranges) ranges' = fullSearch b ranges' := by
  obtain ⟨heq, htotal, hfiles⟩ := fullSearch_eq hall
  obtain ⟨htotal', hfiles'⟩ := exhaustive_le (b := b) h b.allPaths
  rw [heq, refineSearch_eq h]
  exact ((fullSearch_spec b ranges' b.allPaths).1 ⟨by omega, by omega⟩).symm

end

/-! ### The history -/

variable {js : Language} {Tag : Type*} [DecidableEq Tag] {bundles : Tag → Bundle}
  {h : History Tag} {c : Call Tag} {useRegex caseSensitive : Bool} {query query' : Text}

/-- Every result that is kept is that of a scan. -/
def Right (js : Language) (bundles : Tag → Bundle) (h : History Tag) : Prop :=
  ∀ tag, h.tag = some tag → ∀ e ∈ h.entries, ∃ ranges,
    buildSearchMatcher js e.1 h.useRegex h.caseSensitive = .ok ranges ∧
      e.2 = fullSearch (bundles tag) ranges

omit [DecidableEq Tag] in
theorem right_start : Right js bundles (.start Tag) := fun _ h => by cases h

theorem Right.forCall (hr : Right js bundles h) (c : Call Tag) :
    Right js bundles (h.forCall c) ∧ (h.forCall c).tag = some c.tag ∧
      (h.forCall c).useRegex = c.useRegex ∧ (h.forCall c).caseSensitive = c.caseSensitive := by
  rw [History.forCall]
  split
  · rename_i hsame
    exact ⟨hr, hsame⟩
  · exact ⟨fun _ _ e he => (by cases he), rfl, rfl, rfl⟩

/-- Queries that are the same once they are folded are searched for alike. -/
theorem matcher_congr (hsame : foldQuery js useRegex caseSensitive query =
    foldQuery js useRegex caseSensitive query') :
    buildSearchMatcher js query useRegex caseSensitive =
      buildSearchMatcher js query' useRegex caseSensitive := by
  cases useRegex with
  | true =>
    have heq : query = query' := hsame
    rw [heq]
  | false =>
    have heq : foldCase js caseSensitive query = foldCase js caseSensitive query' := hsame
    rw [buildSearchMatcher, buildSearchMatcher, if_neg Bool.false_ne_true,
      if_neg Bool.false_ne_true, heq]

theorem narrows_of_part
    (hpart : foldCase js caseSensitive query' <:+: foldCase js caseSensitive query)
    (hranges : buildSearchMatcher js query false caseSensitive = .ok ranges)
    (hranges' : buildSearchMatcher js query' false caseSensitive = .ok ranges') :
    Narrows ranges ranges' := by
  cases hranges
  cases hranges'
  intro line hfound
  have hmarks : searchMaxMarksPerLine = 49 + 1 := rfl
  rw [hmarks, walk_ne_nil] at hfound ⊢
  exact hpart.trans hfound

/-- What a base is. -/
theorem findBase_spec {key : Text} {entries : List (Text × SearchResult)}
    {base : SearchResult × ℕ} (hbase : findBase fold key useRegex entries = some base) :
    useRegex = false ∧ ∃ e ∈ entries, base.1 = e.2 ∧ e.2.truncated = false ∧ fold e.1 <:+: key := by
  have hall := foldlRecOn entries (fun (base : Option (SearchResult × ℕ)) e =>
      if useRegex ∨ e.2.truncated ∨ (∃ b ∈ base, (fold e.1).length ≤ b.2) ∨
        indexOf key (fold e.1) 0 = none then base
      else some (e.2, (fold e.1).length))
    (motive := fun o => ∀ b ∈ o, useRegex = false ∧ ∃ e ∈ entries, b.1 = e.2 ∧
      e.2.truncated = false ∧ fold e.1 <:+: key) (b := none) (fun b hb => by cases hb)
    (fun o ho e he => by
      split
      · exact ho
      · rename_i hnot
        rw [not_or, not_or, not_or, Bool.not_eq_true, Bool.not_eq_true] at hnot
        intro b hb
        cases hb
        exact ⟨hnot.1, e, he, rfl, hnot.2.1, indexOf_ne_none.1 hnot.2.2.2⟩)
  exact hall base hbase

/-- **A search** is answered as from scratch. -/
theorem runBundleSearch_spec (hr : Right js bundles h) (c : Call Tag) :
    (runBundleSearch js bundles h c).1 = scratch js bundles c ∧
      Right js bundles (runBundleSearch js bundles h c).2 := by
  rw [runBundleSearch, scratch]
  split
  · exact ⟨rfl, hr⟩
  · cases hranges : buildSearchMatcher js c.query c.useRegex c.caseSensitive with
    | error message => exact ⟨rfl, hr⟩
    | ok ranges =>
      obtain ⟨hright, htag, hregex, hcase⟩ := hr.forCall c
      generalize h.forCall c = h' at hright htag hregex hcase
      have hentries : ∀ e ∈ h'.entries, ∃ ranges,
          buildSearchMatcher js e.1 c.useRegex c.caseSensitive = .ok ranges ∧
            e.2 = fullSearch (bundles c.tag) ranges := by
        rw [← hregex, ← hcase]
        exact hright c.tag htag
      have hkeep : ∀ entries : List (Text × SearchResult), (∀ e ∈ entries, e ∈ h'.entries ∨
          e = (c.query, fullSearch (bundles c.tag) ranges)) →
          Right js bundles { h' with entries } := by
        intro entries hall tag htag' e he
        have hsame : tag = c.tag := some.inj (htag'.symm.trans htag)
        rw [hsame]
        dsimp only
        rw [hregex, hcase]
        rcases hall e he with he | rfl
        · exact hentries e he
        · exact ⟨ranges, hranges, rfl⟩
      dsimp only
      cases hfound : h'.entries.find? fun e => foldQuery js c.useRegex c.caseSensitive e.1 =
          foldQuery js c.useRegex c.caseSensitive c.query with
      | some e =>
        have he := mem_of_find?_eq_some hfound
        have hsame : foldQuery js c.useRegex c.caseSensitive e.1 =
            foldQuery js c.useRegex c.caseSensitive c.query := by
          simpa only [decide_eq_true_eq] using find?_some hfound
        obtain ⟨ranges', hranges', hresult⟩ := hentries e he
        rw [matcher_congr hsame, hranges] at hranges'
        cases hranges'
        refine ⟨congrArg Except.ok hresult, hkeep _ fun e' he' => .inl ?_⟩
        rcases mem_cons.1 he' with rfl | he'
        · exact he
        · exact mem_of_mem_eraseP he'
      | none =>
        have hresult : ((findBase (foldQuery js c.useRegex c.caseSensitive)
            (foldQuery js c.useRegex c.caseSensitive c.query) c.useRegex h'.entries).map
              fun base => refineSearch base.1 ranges).getD (fullSearch (bundles c.tag) ranges) =
            fullSearch (bundles c.tag) ranges := by
          cases hbase : findBase (foldQuery js c.useRegex c.caseSensitive)
            (foldQuery js c.useRegex c.caseSensitive c.query) c.useRegex h'.entries with
          | none => rfl
          | some base =>
            obtain ⟨hsub, e, he, hbase', hall, hpart⟩ := findBase_spec hbase
            obtain ⟨ranges', hranges', hresult⟩ := hentries e he
            rw [hsub] at hranges hranges' hpart
            rw [hresult] at hall
            rw [map_some, getD_some, hbase', hresult]
            exact refineSearch_fullSearch (narrows_of_part hpart hranges hranges') hall
        refine ⟨congrArg Except.ok hresult, ?_⟩
        dsimp only
        rw [hresult]
        refine hkeep _ fun e he => ?_
        rcases mem_cons.1 (mem_of_mem_take he) with rfl | he
        · exact .inr rfl
        · exact .inl he

/-- **Every answer** is that of a scan from scratch. -/
theorem answers_eq (hr : Right js bundles h) (calls : List (Call Tag)) :
    answers js bundles h calls = calls.map (scratch js bundles) := by
  induction calls generalizing h with
  | nil => rfl
  | cons c calls ih =>
    obtain ⟨hanswer, hright⟩ := runBundleSearch_spec hr c
    rw [answers, map_cons, hanswer, ih hright]

/-! ### Ranges -/

/-- What a scan has for hits. -/
structure HitsRight (b : Bundle) (ranges : Matcher) (file : FileResult) : Prop where
  content : ∃ content, b.content file.path = some content ∧ file.lines = splitLines content
  hits : ∀ hit ∈ file.hits, ∃ line, 1 ≤ hit.ln ∧ file.lines[hit.ln - 1]? = some line ∧
    hit.ranges = ranges line

theorem scanLine_hits (ranges : Matcher) (lines : List Text) (n : ℕ) :
    ∀ hit ∈ (lines.zipIdx.foldl (scanLine ranges) ([], n, false)).1,
      ∃ line, 1 ≤ hit.ln ∧ lines[hit.ln - 1]? = some line ∧ hit.ranges = ranges line := by
  refine foldlRecOn lines.zipIdx (scanLine ranges)
    (motive := fun s => ∀ hit ∈ s.1, ∃ line, 1 ≤ hit.ln ∧ lines[hit.ln - 1]? = some line ∧
      hit.ranges = ranges line) (b := ([], n, false)) (fun hit hhit => by cases hhit)
    fun s hs x hx => ?_
  rw [scanLine]
  split
  · exact hs
  · intro hit hhit
    rcases mem_append.1 hhit with hhit | hhit
    · exact hs hit hhit
    · rw [mem_singleton.1 hhit]
      exact ⟨x.1, Nat.le_add_left _ _, mem_zipIdx_iff_getElem?.1 hx, rfl⟩

theorem fullSearch_hits (b : Bundle) (ranges : Matcher) :
    ∀ file ∈ (fullSearch b ranges).fileResults, HitsRight b ranges file := by
  refine foldlRecOn b.allPaths (scanFile b ranges)
    (motive := fun r => ∀ file ∈ r.fileResults, HitsRight b ranges file)
    (b := ⟨[], 0, false⟩) (fun file hfile => by cases hfile) fun r hr path _ => ?_
  cases hcut : r.truncated with
  | true =>
    have hstays : scanFile b ranges r path = r := if_pos hcut
    rw [hstays]
    exact hr
  | false =>
    cases hcontent : b.content path with
    | none =>
      rw [scanFile_of_none hcontent]
      exact hr
    | some content =>
      rw [scanFile_of_some hcut hcontent]
      dsimp only
      split
      · exact hr
      · intro file hfile
        rcases mem_append.1 hfile with hfile | hfile
        · exact hr file hfile
        · rw [mem_singleton.1 hfile]
          exact ⟨⟨content, hcontent, rfl⟩, scanLine_hits ranges _ _⟩

/-- The ranges of a line are inside of it, in order and apart, and what they cover is the query once
both are folded. -/
structure Covers (fold : Text → Text) (query line : Text) (ranges : List (ℕ × ℕ)) : Prop where
  inside : ∀ r ∈ ranges, r.1 ≤ r.2 ∧ r.2 ≤ line.length
  covers : ∀ r ∈ ranges, fold ((line.take r.2).drop r.1) = fold query
  apart : ranges.Pairwise fun r r' => r.2 ≤ r'.1

/-- Folding takes the line part by part up to a place. -/
def AlignedTo (fold : Text → Text) (line : Text) (n : ℕ) : Prop :=
  n ≤ line.length ∧ ∀ i j, i ≤ j → j ≤ n → fold ((line.take j).drop i) = ((fold line).take j).drop i

/-- Folding takes each line of the sources part by part up to the end of each place where the folded
line has the folded query. -/
def Aligned (fold : Text → Text) (b : Bundle) (query : Text) : Prop :=
  ∀ path content, b.content path = some content → ∀ line ∈ splitLines content, ∀ i,
    fold query <+: (fold line).drop i → AlignedTo fold line (i + (fold query).length)

theorem covers_of_aligned {line : Text} (n : ℕ) (haligned : ∀ i, fold query <+: (fold line).drop i →
      AlignedTo fold line (i + (fold query).length)) :
    Covers fold query line (walk (fold line) (fold query) n 0) := by
  obtain ⟨hall, hapart⟩ := @Occurrences.walk_spec _ _ (fold line) (fold query) n 0
  refine ⟨fun r hr => ?_, fun r hr => ?_, hapart⟩
  · obtain ⟨-, hend, hprefix⟩ := hall r hr
    rw [hend]
    exact ⟨Nat.le_add_right _ _, (haligned r.1 hprefix).1⟩
  · obtain ⟨-, hend, hprefix⟩ := hall r hr
    have hpart := (haligned r.1 hprefix).2 r.1 r.2 (by omega) hend.le
    rw [hpart, hend, drop_take, Nat.add_sub_cancel_left]
    exact (prefix_iff_eq_take.1 hprefix).symm

/-- Folding letter by letter takes every line part by part. -/
theorem aligned_of_map {f : UInt16 → UInt16}
    (hfold : ∀ text, fold text = text.map f) (b : Bundle) (hquery : query ≠ []) :
    Aligned fold b query := by
  intro path content _ line _ i hprefix
  have hpos : 0 < (fold query).length := by
    rw [hfold, length_map]
    exact length_pos_of_ne_nil hquery
  have hle := hprefix.length_le
  rw [length_drop, hfold line, length_map] at hle
  refine ⟨by omega, fun i j _ _ => ?_⟩
  rw [hfold, hfold, map_drop, map_take]

omit [DecidableEq Tag] in
/-- **A scan** for a text has ranges that cover it, where folding keeps the places. -/
theorem covers_of_scratch {c : Call Tag} {result : SearchResult} (hregex : c.useRegex = false)
    (haligned : c.caseSensitive = true ∨ Aligned js.toLowerCase (bundles c.tag) c.query)
    (hresult : scratch js bundles c = .ok result) :
    ∀ file ∈ result.fileResults, ∀ hit ∈ file.hits, ∃ line, 1 ≤ hit.ln ∧
      file.lines[hit.ln - 1]? = some line ∧
      Covers (foldCase js c.caseSensitive) c.query line hit.ranges := by
  rw [scratch] at hresult
  by_cases hquery : c.query = []
  · -- no query has no files
    rw [if_pos hquery] at hresult
    cases hresult
    exact fun file hfile => by cases hfile
  · rw [if_neg hquery, hregex, buildSearchMatcher, if_neg Bool.false_ne_true] at hresult
    cases hresult
    have hfold : Aligned (foldCase js c.caseSensitive) (bundles c.tag) c.query := by
      cases hcase : c.caseSensitive with
      | true => exact aligned_of_map (f := id) (fun text => (List.map_id text).symm) _ hquery
      | false => exact haligned.resolve_left (by rw [hcase]; exact Bool.false_ne_true)
    intro file hfile hit hhit
    obtain ⟨⟨content, hcontent, hlines⟩, hhits⟩ := fullSearch_hits _ _ file hfile
    obtain ⟨line, hone, hline, hranges⟩ := hhits hit hhit
    refine ⟨line, hone, hline, ?_⟩
    have hmem : line ∈ splitLines content := by
      rw [← hlines]
      exact mem_of_getElem? hline
    rw [hranges]
    exact covers_of_aligned _ (hfold file.path content hcontent line hmem)

/-- **The answers** of any calls are those of scans from scratch, and their ranges cover the query
in each search for a text whose sources keep their places when case is folded. -/
theorem answers_right (js : Language) (bundles : Tag → Bundle) (calls : List (Call Tag)) :
    answers js bundles (.start Tag) calls = calls.map (scratch js bundles) ∧
    ∀ (k : ℕ) (c : Call Tag) (result : SearchResult), calls[k]? = some c → c.useRegex = false →
      c.caseSensitive = true ∨ Aligned js.toLowerCase (bundles c.tag) c.query →
      (answers js bundles (.start Tag) calls)[k]? = some (.ok result) →
      ∀ file ∈ result.fileResults, ∀ hit ∈ file.hits, ∃ line, 1 ≤ hit.ln ∧
        file.lines[hit.ln - 1]? = some line ∧
        Covers (foldCase js c.caseSensitive) c.query line hit.ranges := by
  have hanswers : answers js bundles (.start Tag) calls = calls.map (scratch js bundles) :=
    answers_eq right_start calls
  refine ⟨hanswers, fun k c result hc hregex haligned hresult => ?_⟩
  rw [hanswers, getElem?_map, hc, map_some] at hresult
  exact covers_of_scratch hregex haligned (some.inj hresult)

/-- Lower case of the letters of one byte. -/
def asciiLanguage : Language where
  toLowerCase text := text.map fun c => if 0x41 ≤ c ∧ c ≤ 0x5a then c + 0x20 else c
  newRegExp _ _ := .error "Invalid regular expression"

/-- An x and then an X is found by the hits of the x. -/
theorem answers_right_ascii : ∀ result,
    (answers asciiLanguage (fun _ => ⟨[([0x61], some [0x58, 0x79, 0x78, 0x58])], none⟩)
      (.start Unit) [⟨(), [0x78], false, false⟩, ⟨(), [0x78, 0x58], false, false⟩])[1]? =
        some (.ok result) →
    ∀ file ∈ result.fileResults, ∀ hit ∈ file.hits, ∃ line, 1 ≤ hit.ln ∧
      file.lines[hit.ln - 1]? = some line ∧
      Covers (foldCase asciiLanguage false) [0x78, 0x58] line hit.ranges := fun result hresult =>
  (answers_right asciiLanguage _ _).2 1 ⟨(), [0x78, 0x58], false, false⟩ result rfl rfl
    (.inr (aligned_of_map (fun _ => rfl) _ (cons_ne_nil _ _))) hresult

/-! ### A letter whose lower case is longer -/

/-- Lower case of the letters of one byte and of the capital I with a dot. -/
def dottedLanguage : Language where
  toLowerCase text := text.flatMap fun c =>
    if c = 0x130 then [0x69, 0x307] else if 0x41 ≤ c ∧ c ≤ 0x5a then [c + 0x20] else [c]
  newRegExp _ _ := .error "Invalid regular expression"

/-- The one line of the one file is that letter and an x. -/
def dottedBundle (_ : Unit) : Bundle := ⟨[([0x61], some [0x130, 0x78])], some [[0x61]]⟩

/-- The x is found where the line has ended. -/
theorem dotted_range : ¬∀ answer ∈ answers dottedLanguage dottedBundle (.start Unit)
    [⟨(), [0x78], false, false⟩], ∀ result, answer = .ok result →
      ∀ file ∈ result.fileResults, ∀ hit ∈ file.hits, ∃ line, 1 ≤ hit.ln ∧
        file.lines[hit.ln - 1]? = some line ∧
        Covers (foldCase dottedLanguage false) [0x78] line hit.ranges := by
  intro hall
  have hanswer : answers dottedLanguage dottedBundle (.start Unit) [⟨(), [0x78], false, false⟩] =
      [.ok ⟨[⟨[0x61], [[0x130, 0x78]], [⟨1, [(2, 3)]⟩]⟩], 1, false⟩] := by decide +kernel
  rw [hanswer] at hall
  obtain ⟨line, -, hline, hcovers⟩ := hall _ (mem_singleton_self _) _ rfl _
    (mem_singleton_self _) _ (mem_singleton_self _)
  cases hline
  exact absurd (hcovers.inside (2, 3) (mem_singleton_self _)).2 (by decide)

end Triage.BundleSearch
