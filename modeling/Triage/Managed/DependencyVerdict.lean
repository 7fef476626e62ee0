import Mathlib.Data.Finset.Card
import Triage.Managed.DependencyReviews

/-!
# A review that wants nothing is right to

Every version that a changed lockfile locks at the head is locked in its directory under its key,
and each of those is judged, as a variant of what the directory adds or as another; nothing that is
judged wants a review when the counts are zero, and none is left unjudged when nothing is cut.

## Main results

* `stancesOf_passing` : those counted are distinct reviewers who stand on accepting.
* `cleared_of_judge` : a version that does not want a review is cleared.
* `review_wants_nothing` : a review that wants nothing is right to.
-/

namespace Triage.Managed

open Grouping List Bool PublishedReview Prod

variable {pkg p q : LockedPackage} {reviews : List PublishedReview}

/-! ### Reviewers -/

/-- A review is of a version, of an integrity it is locked with, and of its patch. -/
def IsOf (pkg : LockedPackage) (review : PublishedReview) : Prop :=
  review.package = pkg.name ∧ review.version = pkg.versionText ∧
    review.integrity ∈ hashesOf pkg ∧ review.patchHash.getD "" = text pkg.patchHash

/-- A reviewer stands on accepting a version, which a full accepting review of theirs passes: their
latest review of it accepts, and one that qualifies read it whole or compared it with one of
`bases`. -/
def Standing (reviews : List PublishedReview) (pkg : LockedPackage) (bases : Bases)
    (reviewer : String) : Prop :=
  (∃ latest ∈ reviews, latest.reviewer = reviewer ∧ IsOf pkg latest ∧
    accepting latest.status = true ∧
    ∀ other ∈ reviews, other.reviewer = reviewer → IsOf pkg other → other.time ≤ latest.time) ∧
  ∃ review ∈ reviews, review.reviewer = reviewer ∧ IsOf pkg review ∧ review.full = true ∧
    accepting review.status = true ∧ (review.basePackage = none ∨
      review.basePackage = some pkg.name.val ∧ bases.has (review.baseVersion.getD "") = true)

/-- As many distinct reviewers as are required stand on accepting a version. -/
def Accepted (required : ℕ) (reviews : List PublishedReview) (pkg : LockedPackage)
    (bases : Bases) : Prop :=
  ∃ reviewers : Finset String, required ≤ reviewers.card ∧
    ∀ reviewer ∈ reviewers, Standing reviews pkg bases reviewer

theorem mem_reviewsOf {review : PublishedReview} :
    review ∈ reviewsOf pkg (reviewsByVersion reviews) ↔ review ∈ reviews ∧ IsOf pkg review := by
  have hkey : PublishedReview.key review = pkg.name.val ++ "@" ++ pkg.versionText ↔
      review.package = pkg.name ∧ review.version = pkg.versionText := by
    rw [key]
    constructor
    · exact fun h => name_version_inj (congrArg String.toList h)
    · rintro ⟨hpackage, hversion⟩
      rw [hpackage, hversion]
  rw [reviewsOf, reviewsByVersion, getD_groupBy, mem_filter, mem_filter]
  simp only [and_eq_true, decide_eq_true_eq, contains_iff_mem, hkey, IsOf]
  tauto

variable {theirs : List PublishedReview} {required : ℕ} {options : ReviewOptions}
  {d : ReviewedDependency} {locked found : List LockedPackage} {added : List AddedPackage}
  {a : AddedPackage} {semver : Semver} {files : List ChangedFile}

/-- The latest of some reviews is one of them, and none is later. -/
theorem latestOf_spec {latest : PublishedReview} (h : latestOf theirs = some latest) :
    latest ∈ theirs ∧ ∀ other ∈ theirs, other.time ≤ latest.time := by
  cases theirs with
  | nil => cases h
  | cons review theirs =>
    rw [latestOf, Option.some.injEq] at h
    induction theirs generalizing review with
    | nil =>
      rw [foldl_nil] at h
      subst h
      simp
    | cons other theirs ih =>
      rw [foldl_cons] at h
      by_cases hlt : review.time < other.time
      · rw [if_pos hlt] at h
        obtain ⟨hmem, hall⟩ := ih _ h
        have hother : other.time ≤ latest.time := hall other (by simp)
        refine ⟨mem_cons_of_mem _ hmem, fun x hx => ?_⟩
        rcases mem_cons.1 hx with rfl | hx
        · exact (Int.le_of_lt hlt).trans hother
        · exact hall x hx
      · rw [if_neg hlt] at h
        obtain ⟨hmem, hall⟩ := ih _ h
        have hreview : review.time ≤ latest.time := hall review (by simp)
        refine ⟨?_, fun x hx => ?_⟩
        · rcases mem_cons.1 hmem with rfl | hmem
          · exact mem_cons_self
          · exact mem_cons_of_mem _ (mem_cons_of_mem _ hmem)
        · rcases mem_cons.1 hx with rfl | hx
          · exact hreview
          · rcases mem_cons.1 hx with rfl | hx
            · exact (Int.not_lt.1 hlt).trans hreview
            · exact hall x (mem_cons_of_mem _ hx)

variable {bases : Bases}

/-- A reviewer's stance that is counted. -/
theorem standing_of_stance {reviewer : String}
    (hgroup : (reviewer, theirs) ∈ groupBy PublishedReview.reviewer
      (reviewsOf pkg (reviewsByVersion reviews))) {s : Stance}
    (hs : stance pkg bases theirs = some s) (hpasses : s.passes = true) :
    Standing reviews pkg bases reviewer := by
  obtain ⟨htheirs, -⟩ := eq_filter_of_mem hgroup
  obtain ⟨latest, hlatest, rfl⟩ := Option.map_eq_some_iff.1 hs
  obtain ⟨hmem, hall⟩ := latestOf_spec hlatest
  have htheir : ∀ x, x ∈ theirs ↔ (x ∈ reviews ∧ IsOf pkg x) ∧ x.reviewer = reviewer := by
    intro x
    rw [htheirs, mem_filter, mem_reviewsOf, decide_eq_true_eq]
  simp only [and_eq_true, any_eq_true] at hpasses
  obtain ⟨haccepts, review, hreview, hqualifies⟩ := hpasses
  obtain ⟨⟨hin, hof⟩, hby⟩ := (htheir latest).1 hmem
  obtain ⟨⟨hin', hof'⟩, hby'⟩ := (htheir review).1 hreview
  simp only [qualifies, and_eq_true] at hqualifies
  obtain ⟨⟨hfull, haccepting⟩, hbase⟩ := hqualifies
  refine ⟨⟨latest, hin, hby, hof, haccepts, fun x hx hxby hxof =>
    hall x ((htheir x).2 ⟨⟨hx, hxof⟩, hxby⟩)⟩, review, hin', hby', hof', hfull, haccepting, ?_⟩
  split at hbase
  · rename_i hnone
    exact .inl hnone
  · rename_i base hsome
    simp only [and_eq_true, decide_eq_true_eq] at hbase
    rw [hsome, hbase.1]
    exact .inr ⟨rfl, hbase.2⟩

variable (pkg reviews) in
/-- Those that are counted are distinct reviewers who stand on accepting. -/
theorem stancesOf_passing (bases : Bases) : Accepted
    (stancesOf pkg (reviewsByVersion reviews) bases).passing reviews pkg bases := by
  set groups := groupBy reviewer (reviewsOf pkg (reviewsByVersion reviews))
    with hgroups
  set counts : String × List PublishedReview → Bool := fun g =>
    (stance pkg bases g.2).any fun s => s.latest.status ≠ .reject && s.passes with hcounts
  have hpassing : (stancesOf pkg (reviewsByVersion reviews) bases).passing =
      (groups.filter counts).length := by
    have hsame : (fun g : String × List PublishedReview =>
        ((stance pkg bases g.2).map fun s =>
          decide (s.latest.status ≠ .reject) && s.passes).getD false) = counts := by
      funext g
      simp only [hcounts]
      cases stance pkg bases g.2 <;> rfl
    simp only [stancesOf, stancesBy, ← hgroups]
    rw [countP_filterMap, countP_eq_length_filter, hsame]
  have hnodup : ((groups.filter counts).map fst).Nodup :=
    (nodup_keys_collect _).sublist (filter_sublist.map _)
  refine ⟨((groups.filter counts).map fst).toFinset, ?_, ?_⟩
  · rw [hpassing, toFinset_card_of_nodup hnodup, length_map]
  · intro reviewer hreviewer
    rw [mem_toFinset, mem_map] at hreviewer
    obtain ⟨⟨_, theirs⟩, hg, rfl⟩ := hreviewer
    obtain ⟨hg, hcount⟩ := mem_filter.1 hg
    simp only [hcounts, Option.any_eq_true] at hcount
    obtain ⟨s, hs, hpass⟩ := hcount
    rw [and_eq_true] at hpass
    exact standing_of_stance hg hs hpass.2

/-! ### Versions of one key -/

theorem filter_text (field : Option Field) : (field.map Field.val).filter (· ≠ "") =
    if text field = "" then none else some (text field) := by
  cases field with
  | none => rfl
  | some field =>
    by_cases h : field.val = ""
    · simp [text, h]
    · simp [text, h]

namespace LockedAlike

variable (h : LockedAlike p q)
include h

theorem versionText : p.versionText = q.versionText := by
  rw [LockedPackage.versionText, h.version, LockedPackage.versionText]

theorem lockedAs : lockedAs p = lockedAs q := by
  simp only [Managed.lockedAs, h.source, h.name, h.versionText, h.origin, h.patchHash]

theorem hashesOf : hashesOf p = hashesOf q := by
  rw [Managed.hashesOf, h.integrity, Managed.hashesOf]

theorem baselineKeys : baselineKeys p = baselineKeys q := by
  simp only [Managed.baselineKeys, h.hashesOf, h.name, h.versionText, h.patchHash]

theorem askedOf : askedOf p = askedOf q := by
  simp only [Managed.askedOf, filter_text, h.lockfile, h.name, h.versionText, h.integrity,
    h.shasum, h.patchHash]

theorem reviewedAs : reviewedAs p = reviewedAs q := by
  simp only [Managed.reviewedAs, h.source, h.version, h.integrity]

theorem isOf (review : PublishedReview) : IsOf p review ↔ IsOf q review := by
  simp only [IsOf, h.name, h.versionText, h.hashesOf, h.patchHash]

theorem standing {reviewer : String} (hs : Standing reviews q bases reviewer) :
    Standing reviews p bases reviewer := by
  simp only [Standing, h.isOf, h.name]
  exact hs

end LockedAlike

theorem Accepted.mono {bases bases' : Bases} (h : Accepted required reviews pkg bases)
    (hbases : ∀ version, bases.has version = true → bases'.has version = true) :
    Accepted required reviews pkg bases' := by
  obtain ⟨reviewers, hcard, hall⟩ := h
  refine ⟨reviewers, hcard, fun reviewer hr => ?_⟩
  obtain ⟨hlatest, review, hin, hby, hof, hfull, hstatus, hbase⟩ := hall reviewer hr
  refine ⟨hlatest, review, hin, hby, hof, hfull, hstatus, ?_⟩
  rcases hbase with hnone | ⟨hname, hhas⟩
  · exact .inl hnone
  · exact .inr ⟨hname, hbases _ hhas⟩

/-! ### What a version passes by -/

/-- A version is a file of the project, or among those of the baseline, if no lookup is registered,
or passed by the lookup, or accepted by its reviewers. -/
def Cleared (options : ReviewOptions) (required : ℕ) (reviews : List PublishedReview)
    (pkg : LockedPackage) (bases : Bases) : Prop :=
  pkg.source = .file ∨
  (options.lookup = none ∧ ∃ baseline, options.baseline = some baseline ∧
    ∃ key ∈ baselineKeys pkg, key ∈ baseline) ∨
  (∃ lookup, options.lookup = some lookup ∧ ∃ time, lookup time (askedOf pkg) = some true) ∨
  Accepted required reviews pkg bases

theorem Cleared.alike (h : Cleared options required reviews q bases) (hpq : LockedAlike p q) :
    Cleared options required reviews p bases := by
  rcases h with hfile | ⟨hlookup, baseline, hbaseline, hkey⟩ | hpassed | ⟨reviewers, hcard, hall⟩
  · exact .inl (hpq.source.trans hfile)
  · exact .inr (.inl ⟨hlookup, baseline, hbaseline, hpq.baselineKeys ▸ hkey⟩)
  · exact .inr (.inr (.inl (hpq.askedOf ▸ hpassed)))
  · exact .inr (.inr (.inr ⟨reviewers, hcard, fun reviewer hr => hpq.standing (hall reviewer hr)⟩))

theorem Cleared.mono {bases bases' : Bases} (h : Cleared options required reviews pkg bases)
    (hbases : ∀ version, bases.has version = true → bases'.has version = true) :
    Cleared options required reviews pkg bases' := by
  rcases h with hfile | hbaseline | hpassed | haccepted
  · exact .inl hfile
  · exact .inr (.inl hbaseline)
  · exact .inr (.inr (.inl hpassed))
  · exact .inr (.inr (.inr (haccepted.mono hbases)))

theorem askAgain_context (state : RepoReviewState) (options : ReviewOptions)
    (held : List DirectoryDependencies) (asked : List ReviewedDependency)
    (first : List ReviewedDependency × ℕ) (comments : CommentAnswer) :
    (askAgain state options held asked first comments).context =
      contextOf state options (countedReviews state
        (askAgain state options held asked first comments).comments) := by
  rw [askAgain]
  split
  · rename_i hnil
    simp only [countedReviews, hnil, map_nil, append_nil]
  · rfl

theorem mem_askReviewed {lookup : Option (ReviewedDependency → Option Bool)}
    {asked : List ReviewedDependency}
    (h : d ∈ (askReviewed lookup asked).1) : ∃ f, lookup = some f ∧ f d = some true := by
  cases lookup with
  | none => cases h
  | some f =>
    have hd := (mem_filter.1 h).2
    rw [decide_eq_true_eq] at hd
    exact ⟨f, rfl, hd⟩

variable {state : RepoReviewState}

/-- What was passed, the lookup passed. -/
theorem mem_passed {held : List DirectoryDependencies}
    (h : d ∈ (askAll state options held).passed) :
    ∃ lookup, options.lookup = some lookup ∧ ∃ time, lookup time d = some true := by
  have hask : ∀ time asked, d ∈ (askReviewed (options.lookup.map (· time)) asked).1 →
      ∃ lookup, options.lookup = some lookup ∧ ∃ time, lookup time d = some true := by
    intro time asked hmem
    obtain ⟨f, hf, hd⟩ := mem_askReviewed hmem
    obtain ⟨lookup, hlookup, rfl⟩ := Option.map_eq_some_iff.1 hf
    exact ⟨lookup, hlookup, time, hd⟩
  rw [askAll, askAgain] at h
  split at h
  · exact hask _ _ h
  · rcases mem_append.1 h with h | h
    · exact hask _ _ h
    · exact hask _ _ h

/-- A version that does not want a review is skipped, can't be reviewed, is among those of the
baseline, or is accepted. -/
theorem judge_cases {context : Context} (h : (judge context pkg bases).wants = false) :
    reviewedAs pkg = .skip ∨ (∃ why, reviewedAs pkg = .unsupported why) ∨
    (∃ key ∈ baselineKeys pkg, key ∈ context.baseline.getD []) ∨
    context.required ≤ (stancesOf pkg context.reviews bases).passing := by
  unfold judge at h
  split at h
  · rename_i hskip
    exact .inl hskip
  · rename_i why hwhy
    exact .inr (.inl ⟨why, hwhy⟩)
  · split at h
    · rename_i hbaseline
      obtain ⟨key, hkey, hin⟩ := any_eq_true.1 hbaseline
      rw [contains_iff_mem] at hin
      exact .inr (.inr (.inl ⟨key, hkey, hin⟩))
    · right
      right
      right
      simp only at h
      split at h
      · cases h
      · exact Nat.not_lt.1 (of_decide_eq_false h)

theorem source_of_skip (h : reviewedAs pkg = .skip) : pkg.source = .file := by
  by_contra hfile
  rw [reviewedAs, if_neg hfile] at h
  split_ifs at h

/-- A version that does not want a review is cleared, if it can be reviewed at all. -/
theorem cleared_of_judge {held : List DirectoryDependencies} {asked : Asked}
    (hasked : askAll state options held = asked)
    (hwants : (finalJudge asked.context asked.passed pkg bases).wants = false)
    (has : ∀ why, reviewedAs pkg ≠ .unsupported why) :
    Cleared options state.required (countedReviews state asked.comments) pkg bases := by
  have hcontext : asked.context =
      contextOf state options (countedReviews state asked.comments) := by
    rw [← hasked]
    exact askAgain_context state options held _ _ _
  rw [finalJudge] at hwants
  split at hwants
  · -- it wants a review, and the lookup passes it
    rename_i hpassed
    rw [and_eq_true, contains_iff_mem, ← hasked] at hpassed
    exact .inr (.inr (.inl (mem_passed hpassed.2)))
  · rcases judge_cases hwants with hskip | ⟨why, hwhy⟩ | ⟨key, hkey, hin⟩ | hrequired
    · exact .inl (source_of_skip hskip)
    · exact absurd hwhy (has why)
    · right
      left
      rw [hcontext, contextOf] at hin
      cases hlookup : options.lookup with
      | some lookup =>
        rw [hlookup] at hin
        cases hin
      | none =>
        cases hb : options.baseline with
        | none =>
          rw [hlookup, hb] at hin
          cases hin
        | some baseline =>
          rw [hlookup, hb] at hin
          exact ⟨rfl, baseline, rfl, key, hkey, hin⟩
    · rw [hcontext] at hrequired
      obtain ⟨reviewers, hcard, hall⟩ := stancesOf_passing pkg
        (countedReviews state asked.comments) bases
      exact .inr (.inr (.inr ⟨reviewers, hrequired.trans hcard, hall⟩))

/-! ### Directories -/

theorem distinct_eq_zero {lists : List (List Shown)} {key : Shown → String}
    (h : distinct lists key = 0) : ∀ l ∈ lists, l = [] := by
  intro l hl
  rw [distinct, length_eq_zero_iff, eq_nil_iff_forall_not_mem] at h
  rw [eq_nil_iff_forall_not_mem]
  intro one hone
  refine h (key one) (mem_eraseDups.2 (mem_map_of_mem ?_))
  exact mem_flatten.2 ⟨l, hl, hone⟩

theorem reviewedAs_of_supported (h : unsupportedOf locked = [])
    (hpkg : pkg ∈ locked) : ∀ why, reviewedAs pkg ≠ .unsupported why := by
  intro why hwhy
  have hmem : (shown pkg none, why) ∈ unsupportedOf locked := by
    refine List.mem_filterMap.2 ⟨pkg, hpkg, ?_⟩
    rw [hwhy]
  rw [h] at hmem
  cases hmem

theorem mem_addsOf (ha : a ∈ added) : ∃ b ∈ addsOf added, lockedAs b.pkg = lockedAs a.pkg := by
  have hkey : lockedAs a.pkg ∈ (collect (fun a : AddedPackage => lockedAs a.pkg) id
      (fun a _ => a) added).map fst := mem_keys_collect.2 ⟨a, ha, rfl⟩
  obtain ⟨⟨k, b⟩, hb, hk⟩ := mem_map.1 hkey
  have hinv := forall_collect (I := fun k b => lockedAs b.pkg = k) (fun _ _ => rfl)
    (fun _ _ _ _ => rfl) (k, b) hb
  exact ⟨b, mem_map.2 ⟨(k, b), hb, rfl⟩, hinv.trans hk⟩

theorem mem_of_addsOf {b : AddedPackage} (hb : b ∈ addsOf added) : b ∈ added := by
  obtain ⟨q, hq, rfl⟩ := mem_map.1 hb
  exact forall_collect (I := fun _ b => b ∈ added) (fun p hp => hp) (fun p hp _ _ => hp) q hq

/-- Every version that a directory locks is judged: as a variant of what it adds, or as another. -/
theorem judged_of_locked {J : Judge} {paths : List String} {more moreLocked : ℕ}
    (htoReview : (reviewedDirectory (.told paths added more locked moreLocked) (some J)).toReview =
      []) (hunreviewed :
      (reviewedDirectory (.told paths added more locked moreLocked) (some J)).unreviewed = [])
    (hpkg : pkg ∈ locked) :
    (∃ a ∈ added, lockedAs a.pkg = lockedAs pkg ∧ ∃ variant, LockedAlike pkg variant ∧
      (variant = a.pkg ∨ variant ∈ locked) ∧
      (J variant (.of (a.was.getD []))).wants = false) ∨
    (∀ a ∈ added, lockedAs a.pkg ≠ lockedAs pkg) ∧ (J pkg .any).wants = false := by
  by_cases hadds : ∃ a ∈ added, lockedAs a.pkg = lockedAs pkg
  · left
    obtain ⟨a, ha, hkey⟩ := hadds
    obtain ⟨b, hb, hbkey⟩ := mem_addsOf ha
    have hbpkg : lockedAs b.pkg = lockedAs pkg := hbkey.trans hkey
    -- nothing among the variants wants a review
    have hnone : ∀ v ∈ variantsOf added locked, ∀ variant ∈ v.variants,
        (J variant.1 (.of (v.pkg.was.getD []))).wants = false := by
      intro v hv variant hvariant
      by_contra hwants
      rw [not_eq_false] at hwants
      have hmem : shown variant.1 variant.2 ∈
          (reviewedDirectory (.told paths added more locked moreLocked) (some J)).toReview := by
        refine mem_flatMap.2 ⟨_, mem_map_of_mem hv, ?_⟩
        refine mem_map.2 ⟨(variant, J variant.1 (.of (v.pkg.was.getD []))), ?_, rfl⟩
        exact mem_filter.2 ⟨mem_map_of_mem hvariant, hwants⟩
      rw [htoReview] at hmem
      cases hmem
    have hv := fun variant hvariant => hnone _ (mem_map_of_mem hb) variant hvariant
    refine ⟨b, mem_of_addsOf hb, hbpkg, ?_⟩
    by_cases hwith : lockedWith pkg = lockedWith b.pkg
    · exact ⟨b.pkg, lockedWith_inj hwith, .inl rfl, hv (b.pkg, b.was) mem_cons_self⟩
    · refine ⟨pkg, ⟨rfl, rfl, rfl, rfl, rfl, rfl, rfl, rfl⟩, .inr hpkg, ?_⟩
      refine hv (pkg, none) (mem_cons_of_mem _ (mem_map.2 ⟨pkg, ?_, rfl⟩))
      refine mem_filter.2 ⟨hpkg, ?_⟩
      rw [and_eq_true, decide_eq_true_eq, decide_eq_true_eq]
      exact ⟨hbpkg.symm, hwith⟩
  · right
    have hother : ∀ a ∈ added, lockedAs a.pkg ≠ lockedAs pkg := fun a ha heq => hadds ⟨a, ha, heq⟩
    refine ⟨hother, ?_⟩
    by_contra hwants
    rw [not_eq_false] at hwants
    have hmem : shown pkg none ∈
        (reviewedDirectory (.told paths added more locked moreLocked) (some J)).unreviewed := by
      refine mem_map.2 ⟨(shown pkg none, (J pkg .any).review), ?_, rfl⟩
      refine mem_map.2 ⟨(pkg, J pkg .any), mem_filter.2 ⟨?_, hwants⟩, rfl⟩
      refine mem_map.2 ⟨pkg, mem_filter.2 ⟨hpkg, ?_⟩, rfl⟩
      rw [not_eq_true', any_eq_false]
      intro a ha
      rw [decide_eq_true_eq]
      exact hother a ha
    rw [hunreviewed] at hmem
    cases hmem

/-! ### What a directory's lockfiles lock -/

theorem lockedWith_reach (pkg held : LockedPackage) :
    lockedWith (pkg.reach held) = lockedWith held ∧ lockedAs (pkg.reach held) = lockedAs held ∧
      (pkg.reach held).name = held.name := by
  rw [LockedPackage.reach]
  split <;> exact ⟨rfl, rfl, rfl⟩

theorem lockedWith_patchedIn (path : String) (pkg : LockedPackage) :
    lockedWith (patchedIn path pkg) = lockedWith pkg := by
  rw [patchedIn]
  split <;> rfl

/-- Each version after is locked under its key. -/
theorem mem_lockedMap (hpkg : pkg ∈ found) :
    ∃ held ∈ (lockedMap found).map (·.2), lockedWith held = lockedWith pkg := by
  have hkey : lockedWith pkg ∈ (lockedMap found).map fst := mem_keys_collect.2 ⟨pkg, hpkg, rfl⟩
  obtain ⟨⟨k, held⟩, hheld, hk⟩ := mem_map.1 hkey
  have hinv := forall_collect (I := fun k v => lockedWith v = k) (fun _ _ => rfl)
    (fun pkg _ held hheld => (lockedWith_reach pkg held).1.trans hheld) (k, held) hheld
  exact ⟨held, mem_map.2 ⟨(k, held), hheld, rfl⟩, hinv.trans hk⟩

/-- What a directory adds under a key: a version that it did not lock before, with those of its
package that it did. -/
structure AddedUnder (semver : Semver) (known found : List LockedPackage) (k : String)
    (a : AddedPackage) : Prop where
  key : lockedAs a.pkg = k
  was : a.was = (addedPackage semver known a.pkg).was
  fresh : ∀ old ∈ known, lockedAs old ≠ k
  found : ∃ pkg ∈ found, lockedAs pkg = k

variable {known : List LockedPackage}

theorem addedMap_spec {k : String}
    (h : (k, a) ∈ addedMap semver known found) : AddedUnder semver known found k a := by
  refine forall_collect (I := AddedUnder semver known found) ?_ ?_ (k, a) h
  · intro pkg hpkg
    obtain ⟨hin, hnot⟩ := mem_filter.1 hpkg
    rw [not_eq_true', any_eq_false] at hnot
    exact ⟨rfl, rfl, fun old hold heq => hnot old hold (decide_eq_true heq), pkg, hin, rfl⟩
  · rintro pkg - had ⟨hkey, hwas, hfresh, hfound⟩
    obtain ⟨-, has, hname⟩ := lockedWith_reach pkg had.pkg
    refine ⟨has.trans hkey, ?_, hfresh, hfound⟩
    have hname : (pkg.reach had.pkg).name = had.pkg.name := hname
    refine hwas.trans ?_
    simp only [addedPackage, AddedPackage.reach, hname]

theorem mem_addedMap (semver : Semver) (hpkg : pkg ∈ found)
    (hfresh : ∀ old ∈ known, lockedAs old ≠ lockedAs pkg) :
    ∃ a, (lockedAs pkg, a) ∈ addedMap semver known found := by
  have hkey : lockedAs pkg ∈ (addedMap semver known found).map fst := by
    refine mem_keys_collect.2 ⟨pkg, mem_filter.2 ⟨hpkg, ?_⟩, rfl⟩
    rw [not_eq_true', any_eq_false]
    exact fun old hold heq => hfresh old hold (of_decide_eq_true heq)
  obtain ⟨⟨_, a⟩, ha, rfl⟩ := mem_map.1 hkey
  exact ⟨a, ha⟩

/-- A directory adds no more versions than it locks. -/
theorem length_addedMap_le (semver : Semver) (known found : List LockedPackage) :
    (addedMap semver known found).length ≤ (lockedMap found).length := by
  have hsub : (addedMap semver known found).map fst ⊆
      ((lockedMap found).map (·.2)).map lockedAs := by
    intro k hk
    obtain ⟨⟨_, a⟩, ha, rfl⟩ := mem_map.1 hk
    obtain ⟨pkg, hpkg, hkey⟩ := (addedMap_spec ha).found
    obtain ⟨held, hheld, hwith⟩ := mem_lockedMap hpkg
    exact mem_map.2 ⟨held, hheld, (lockedWith_inj hwith).lockedAs.trans hkey⟩
  have hnodup : ((addedMap semver known found).map fst).Nodup := nodup_keys_collect _
  have hle := (hnodup.subperm hsub).length_le
  rw [length_map, length_map, length_map] at hle
  exact hle

/-- The versions that one may be compared with: any, for one that was locked before, else those of
its package that were. -/
def basesIn (known : List LockedPackage) (pkg : LockedPackage) : Bases :=
  if known.any (lockedAs · = lockedAs pkg) then .any
  else .of ((versionsOf known pkg.name).getD [])

theorem basesIn_fresh (h : ∀ old ∈ known, lockedAs old ≠ lockedAs pkg) :
    basesIn known pkg = .of ((versionsOf known pkg.name).getD []) := by
  rw [basesIn, if_neg]
  rw [any_eq_true]
  rintro ⟨old, hold, heq⟩
  exact h old hold (of_decide_eq_true heq)

/-- What a directory's lockfiles lock is cleared, if nothing of it wants a review, or can't be
reviewed, and nothing past what is read is locked. -/
theorem cleared_in_directory {paths paths' : List String}
    {before after : List LockfileRead} {more moreLocked : ℕ}
    {held : List DirectoryDependencies} {asked : Asked} (hasked : askAll state options held = asked)
    (htold : addedIn semver paths before after = .told paths' added more locked moreLocked)
    (htoReview : (reviewedDirectory (.told paths' added more locked moreLocked)
      (some (finalJudge asked.context asked.passed))).toReview = [])
    (hunreviewed : (reviewedDirectory (.told paths' added more locked moreLocked)
      (some (finalJudge asked.context asked.passed))).unreviewed = [])
    (hunsupported : unsupportedOf locked = []) (hmore : moreLocked = 0)
    (hpkg : pkg ∈ after.flatMap (·.packagesOf)) :
    Cleared options state.required (countedReviews state asked.comments) pkg
      (basesIn (before.flatMap (·.packagesOf)) pkg) := by
  rw [addedIn] at htold
  split at htold
  · cases htold
  simp only [DirectoryDependencies.told.injEq] at htold
  set known := before.flatMap (·.packagesOf) with hknown
  set found := (after.flatMap (·.packagesOf)).map (patchedIn (paths.head?.getD "")) with hfound
  set all := ((addedMap semver known found).map (·.2)).mergeSort
    fun a b => byName semver a b ≤ 0 with hall
  obtain ⟨-, hadded, -, hlocked, hmoreLocked⟩ := htold
  -- nothing is past what is read
  have hlength : ((lockedMap found).map (·.2)).length ≤ MAX_LOCKED := by omega
  rw [take_of_length_le hlength] at hlocked
  have hlength' : all.length ≤ MAX_LOCKED := by
    rw [hall, length_mergeSort, length_map]
    rw [length_map] at hlength
    exact (length_addedMap_le semver known found).trans hlength
  rw [take_of_length_le hlength'] at hadded
  have hin : patchedIn (paths.head?.getD "") pkg ∈ found := mem_map_of_mem hpkg
  obtain ⟨one, hone, hwith⟩ := mem_lockedMap hin
  rw [lockedWith_patchedIn] at hwith
  have halike : LockedAlike pkg one := lockedWith_inj hwith.symm
  rw [hlocked] at hone
  have hsupported := reviewedAs_of_supported hunsupported hone
  refine Cleared.alike ?_ halike
  rcases judged_of_locked htoReview hunreviewed hone with
    ⟨a, ha, hkey, variant, hvariant, -, hwants⟩ | ⟨hother, hwants⟩
  · -- it is one of those the directory adds
    have hsupported' : ∀ why, reviewedAs variant ≠ .unsupported why := by
      intro why
      rw [← hvariant.reviewedAs]
      exact hsupported why
    have hcleared := cleared_of_judge hasked hwants hsupported'
    refine (hcleared.alike hvariant).mono ?_
    rw [← hadded, mem_mergeSort] at ha
    obtain ⟨⟨k, a'⟩, hmem, heq⟩ := mem_map.1 ha
    have heq : a' = a := heq
    subst heq
    obtain ⟨hk, hwas, hfresh, -⟩ := addedMap_spec hmem
    have hkeys : k = lockedAs pkg := (hk.symm.trans hkey).trans halike.lockedAs.symm
    rw [basesIn_fresh fun old hold => hkeys ▸ hfresh old hold]
    have hname : a'.pkg.name = pkg.name := (name_of_lockedAs hkey).trans halike.name.symm
    intro version hversion
    rw [hwas] at hversion
    simp only [addedPackage, hname] at hversion
    simp only [Bases.has, contains_iff_mem] at hversion ⊢
    cases hof : versionsOf known pkg.name with
    | none =>
      rw [hof] at hversion
      cases hversion
    | some versions =>
      rw [hof] at hversion
      exact mem_mergeSort.1 hversion
  · -- it was locked before, so it is one of the others
    refine (cleared_of_judge hasked hwants hsupported).mono fun version _ => ?_
    have hany : (known.any fun old => lockedAs old = lockedAs pkg) = true := by
      by_contra hnone
      rw [not_eq_true, any_eq_false] at hnone
      have hpatched : lockedAs (patchedIn (paths.head?.getD "") pkg) = lockedAs pkg :=
        (lockedWith_inj (lockedWith_patchedIn _ pkg)).lockedAs
      obtain ⟨a, ha⟩ := mem_addedMap semver hin fun old hold heq =>
        hnone old hold (decide_eq_true (heq.trans hpatched))
      refine hother a ?_ ((addedMap_spec ha).key.trans (hpatched.trans halike.lockedAs))
      rw [← hadded, mem_mergeSort]
      exact mem_map.2 ⟨_, ha, rfl⟩
    rw [basesIn, if_pos hany]
    rfl

/-! ### Pull requests -/

namespace DirectoryTold

def isError : DirectoryTold → Bool
  | .error _ _ _ => true
  | _ => false

def moreLocked : DirectoryTold → ℕ
  | .reviewed _ _ _ _ _ _ _ more => more
  | _ => 0

end DirectoryTold

/-- The versions that the lockfiles of a directory lock at the merge base. -/
def lockedBefore (files : List ChangedFile) (contents : Taken → LockfileRead) (dir : String) :
    List LockedPackage :=
  (((taken files).filter fun t => dirOf t.path = dir).filter (·.side = .before)).flatMap
    fun t => (readLockfile contents t).packagesOf

theorem mem_allDirectories {t : Taken} (ht : t ∈ taken files) :
    (dirOf t.path, (taken files).filter fun u => dirOf u.path = dirOf t.path) ∈
      allDirectories files := by
  rw [allDirectories, mem_mergeSort]
  refine mem_of_get ?_
  rw [get_groupBy, if_neg]
  exact ne_nil_of_mem (mem_filter.2 ⟨ht, decide_eq_true rfl⟩)

/-- A directory that the scope holds to is told, if nothing is cut. -/
theorem mem_heldDependencies {base head : String}
    {filesCut : Bool} {contents : Taken → LockfileRead} {scope : LockfileScope} {t other : Taken}
    (ht : t ∈ taken files) (hother : other ∈ taken files)
    (hdir : dirOf other.path = dirOf t.path) (hheld : heldTo scope other.path = true)
    (hcut : (heldDependencies (pullDependenciesAt semver base head files filesCut contents)
      scope).cut = false) :
    ∃ d : Directory, (d = (taken files).filter fun u => dirOf u.path = dirOf t.path) ∧
      addedIn semver (sorted d.paths) ((d.of .before).map (readLockfile contents))
        ((d.of .after).map (readLockfile contents)) ∈
        (heldDependencies (pullDependenciesAt semver base head files filesCut contents)
          scope).lockfiles := by
  have hall := mem_allDirectories ht
  set d : Directory := (taken files).filter fun u => dirOf u.path = dirOf t.path with hd
  refine ⟨d, rfl, ?_⟩
  have hpath : other.path ∈ d.paths := by
    refine mem_eraseDups.2 (mem_map_of_mem (mem_filter.2 ⟨hother, ?_⟩))
    exact decide_eq_true hdir
  -- it is among the directories that are read
  have htaken : (dirOf t.path, d) ∈ (allDirectories files).take MAX_DIRECTORIES := by
    by_cases hle : (allDirectories files).length ≤ MAX_DIRECTORIES
    · rw [take_of_length_le hle]
      exact hall
    · have hmany : (lockfilesChanged files).cut = true := decide_eq_true (Nat.not_le.1 hle)
      have htold : (pullDependenciesAt semver base head files filesCut contents).cut = true := by
        rw [pullDependenciesAt, hmany, Bool.or_true]
      rw [heldDependencies] at hcut
      split at hcut
      · rw [show (pullDependenciesAt semver base head files filesCut contents).cut = true
          from htold] at hcut
        cases hcut
      · simp only [htold, Bool.true_and, Bool.not_eq_false'] at hcut
        obtain ⟨omitted, homitted, hnone⟩ := (Option.any_eq_true _ _).1 hcut
        simp only [pullDependenciesAt] at homitted
        split at homitted
        · cases homitted
          rw [← take_append_drop MAX_DIRECTORIES (allDirectories files)] at hall
          rcases mem_append.1 hall with hall | hall
          · exact hall
          · rw [not_eq_true', any_eq_false] at hnone
            refine absurd hheld (hnone other.path ?_)
            exact mem_mergeSort.2 (mem_flatMap.2 ⟨_, hall, hpath⟩)
        · cases homitted
  have hin : addedIn semver (sorted d.paths) ((d.of .before).map (readLockfile contents))
      ((d.of .after).map (readLockfile contents)) ∈
      (pullDependenciesAt semver base head files filesCut contents).lockfiles :=
    mem_map.2 ⟨d, mem_map.2 ⟨_, htaken, rfl⟩, rfl⟩
  rw [heldDependencies]
  split
  · exact hin
  · refine mem_filter.2 ⟨hin, ?_⟩
    have hpaths : (addedIn semver (sorted d.paths) ((d.of .before).map (readLockfile contents))
        ((d.of .after).map (readLockfile contents))).paths = sorted d.paths := by
      rw [addedIn]
      split <;> rfl
    rw [hpaths, reviewedIn, or_eq_true, any_eq_true]
    exact .inr ⟨other.path, mem_mergeSort.2 hpath, hheld⟩

/-- **A review that wants nothing is right to.**  When no version of a pull request wants a review
or can't be reviewed, no directory failed or locks more than is read, and nothing is cut, then every
version that a lockfile it changes locks at the head, in a directory that the scope holds to, is a
file of the project, or among those of the baseline where no lookup is registered, or passed by the
lookup as it is locked, or accepted by as many reviewers as are required: each one's latest review
of it accepts, and a full accepting one of theirs read it whole, or compared it with a version of
its package that the directory's lockfiles locked before, or with any if they locked it before. -/
theorem review_wants_nothing {semver : Semver} {base head : String} {files : List ChangedFile}
    {filesCut : Bool} {contents : Taken → LockfileRead} {state : RepoReviewState}
    {options : ReviewOptions} {told : PullDependencies} {out : ReviewedPull} {review : ReviewTold}
    (htold : pullDependenciesAt semver base head files filesCut contents = told)
    (hout : reviewedDependencies told (some state) options = out)
    (hreview : out.review = some review)
    (hzero : review.toReview = 0 ∧ review.unreviewed = 0 ∧ review.unsupported = 0)
    (hdirs : ∀ dir ∈ out.lockfiles, dir.isError = false ∧ dir.moreLocked = 0)
    (hcut : out.cut = false) {lockfile other : Taken} (hlockfile : lockfile ∈ taken files)
    (hside : lockfile.side = .after) (hother : other ∈ taken files)
    (hdir : dirOf other.path = dirOf lockfile.path)
    (hheld : heldTo state.lockfiles other.path = true) {packages : List LockedPackage}
    (hread : readLockfile contents lockfile = .packages packages) (hpkg : pkg ∈ packages) :
    Cleared options state.required
      (countedReviews state
        (askAll state options (heldDependencies told state.lockfiles).lockfiles).comments) pkg
      (basesIn (lockedBefore files contents (dirOf lockfile.path)) pkg) := by
  subst htold
  subst hout
  set answered := heldDependencies
    (pullDependenciesAt semver base head files filesCut contents) state.lockfiles with hanswered
  have hcut : answered.cut = false := hcut
  obtain ⟨d, hd, hin⟩ := mem_heldDependencies hlockfile hother hdir hheld hcut
  set asked := askAll state options answered.lockfiles with hasked
  set J := finalJudge asked.context asked.passed with hJ
  set dep := addedIn semver (sorted d.paths) ((d.of .before).map (readLockfile contents))
    ((d.of .after).map (readLockfile contents)) with hdep
  have hmem : reviewedDirectory dep (some J) ∈
      answered.lockfiles.map fun dir => reviewedDirectory dir (some J) := mem_map_of_mem hin
  obtain ⟨herror, hmore⟩ := hdirs _ (mem_map_of_mem hmem)
  cases hreview
  obtain ⟨htoReview, hunreviewed, hunsupported⟩ := hzero
  have htoReview := distinct_eq_zero htoReview _ (mem_map_of_mem hmem)
  have hunreviewed := distinct_eq_zero hunreviewed _ (mem_map_of_mem hmem)
  have hunsupported := distinct_eq_zero hunsupported _ (mem_map_of_mem hmem)
  cases hcase : dep with
  | error paths message detail =>
    rw [hcase] at herror
    cases herror
  | told paths added more locked moreLocked =>
    rw [hcase] at htoReview hunreviewed hunsupported hmore
    have hknown : lockedBefore files contents (dirOf lockfile.path) =
        ((d.of .before).map (readLockfile contents)).flatMap (·.packagesOf) := by
      rw [lockedBefore, ← hd, flatMap_map]
      rfl
    rw [hknown]
    refine cleared_in_directory hasked.symm (hdep.symm.trans hcase) htoReview hunreviewed
      (map_eq_nil_iff.1 hunsupported) hmore ?_
    refine mem_flatMap.2 ⟨readLockfile contents lockfile, mem_map_of_mem ?_, ?_⟩
    · rw [hd]
      exact mem_filter.2 ⟨mem_filter.2 ⟨hlockfile, decide_eq_true rfl⟩,
        decide_eq_true hside⟩
    · rw [hread]
      exact hpkg

/-! ### One lockfile -/

/-- A version of a package, as npm's lockfile locks it. -/
def npmVersion (version : Version) (integrity : Field) : LockedPackage where
  name := ⟨"q", by decide, by decide, by decide⟩
  version := some version
  source := .registry
  origin := none
  integrity := some integrity
  shasum := none
  patchHash := none
  patchPath := none
  lockfile := some .npm
  dev := false

def oldVersion : LockedPackage :=
  npmVersion ⟨"1.0.0", by decide, by decide⟩ ⟨"sha512-old", by decide⟩

def newVersion : LockedPackage :=
  npmVersion ⟨"2.0.0", by decide, by decide⟩ ⟨"sha512-new", by decide⟩

/-- The lockfile locks another version of the package. -/
def bumped (t : Taken) : LockfileRead :=
  match t.side with
  | .before => .packages [oldVersion]
  | .after => .packages [newVersion]

/-- A reviewer accepts the version, whose package they compared with the one before. -/
def acceptedBump : PublishedReview where
  package := newVersion.name
  version := "2.0.0"
  integrity := "sha512-new"
  patchHash := none
  basePackage := some "q"
  baseVersion := some "1.0.0"
  reviewer := "u"
  login := "u"
  status := .accept
  full := true
  time := 0
  comment := false

def bumpState : RepoReviewState := ⟨1, none, EVERY_LOCKFILE, true, [acceptedBump]⟩

def noOptions : ReviewOptions := ⟨none, [], none, none, none⟩

/-- A version that is not an exact one of semver is read by none here. -/
def noSemver : Semver := ⟨fun _ => false, fun _ _ => 0⟩

def bumpFiles : List ChangedFile := [.modified "package-lock.json"]

def bumpTold : PullDependencies := pullDependenciesAt noSemver "b" "h" bumpFiles false bumped

/-- A bump that a reviewer accepts wants nothing, and is accepted. -/
theorem review_wants_nothing_bump : Accepted 1 [acceptedBump] newVersion (.of ["1.0.0"]) := by
  have hcounts : ((reviewedDependencies bumpTold (some bumpState) noOptions).review.map fun r =>
      (r.toReview, r.unreviewed, r.unsupported)) = some (0, 0, 0) := by decide +kernel
  obtain ⟨review, hreview, hcounts⟩ := Option.map_eq_some_iff.1 hcounts
  simp only [Prod.mk.injEq] at hcounts
  have htaken : (⟨.after, "package-lock.json", .npm⟩ : Taken) ∈ taken bumpFiles := by decide +kernel
  have hread : readLockfile bumped ⟨.after, "package-lock.json", .npm⟩ =
      .packages [newVersion] := rfl
  have hpkg : newVersion ∈ [newVersion] := mem_singleton_self _
  have htold : pullDependenciesAt noSemver "b" "h" bumpFiles false bumped = bumpTold := rfl
  have hcleared := review_wants_nothing htold rfl hreview hcounts (by decide +kernel)
    (by decide +kernel) htaken rfl htaken rfl (by decide +kernel) hread hpkg
  have hbases : basesIn (lockedBefore bumpFiles bumped (dirOf "package-lock.json")) newVersion =
      .of ["1.0.0"] := by decide +kernel
  have hcounted : countedReviews bumpState (askAll bumpState noOptions
      (heldDependencies bumpTold bumpState.lockfiles).lockfiles).comments = [acceptedBump] := by
    decide +kernel
  rw [hbases, hcounted] at hcleared
  rcases hcleared with hfile | ⟨-, baseline, hbaseline, -⟩ | ⟨lookup, hlookup, -⟩ | haccepted
  · cases hfile
  · cases hbaseline
  · cases hlookup
  · exact haccepted

end Triage.Managed
