import Triage.Managed.PullDependencies

/-!
# What a pull request's versions want of review

Each version that a pull request's lockfiles lock passes by as many reviewers' reviews as its
repository requires, by the reviewed dependencies the host registers, or needs none, being among
those of the commit it is reviewed since.
-/

namespace Triage.Managed

open Grouping

def MAX_UNREVIEWED : ℕ := 200

/-- Why a version can't be reviewed. -/
inductive Unsupported
  | git
  | tarball
  | integrity
  deriving DecidableEq

/-- How a version is reviewed. -/
inductive ReviewedAs
  | version
  | skip
  | unsupported (why : Unsupported)
  deriving DecidableEq

def reviewedAs (pkg : LockedPackage) : ReviewedAs :=
  if pkg.source = .file then .skip
  else if pkg.source = .git then .unsupported .git
  else if pkg.source ≠ .registry ∨ pkg.version = none then .unsupported .tarball
  else if text pkg.integrity ≠ "" then .version
  else .unsupported .integrity

def isSpace (c : Char) : Bool :=
  (9 ≤ c.toNat && c.toNat ≤ 13) || c.toNat = 0x20 || c.toNat = 0xA0 || c.toNat = 0x1680 ||
    (0x2000 ≤ c.toNat && c.toNat ≤ 0x200A) || c.toNat = 0x2028 || c.toNat = 0x2029 ||
    c.toNat = 0x202F || c.toNat = 0x205F || c.toNat = 0x3000 || c.toNat = 0xFEFF

/-- The hashes an integrity names. -/
def hashesOf (pkg : LockedPackage) : List String :=
  (((text pkg.integrity).toList.splitOnP isSpace).filter (· ≠ [])).map String.ofList

/-- A version as a baseline holds it, with each hash and its patch. -/
def baselineKeys (pkg : LockedPackage) : List String :=
  (hashesOf pkg).map fun hash =>
    pkg.name.val ++ "@" ++ pkg.versionText ++ NULs ++ hash ++ NULs ++ text pkg.patchHash

/-! ### Reviews -/

inductive ReviewVerdict
  | accept
  | acceptWithNits
  | requestChanges
  | reject
  deriving DecidableEq

/-- `PublishedReview`; `package` names a package, as the one that it was compared with does. -/
structure PublishedReview where
  package : PackageName
  version : String
  integrity : String
  patchHash : Option String
  basePackage : Option String
  baseVersion : Option String
  reviewer : String
  login : String
  status : ReviewVerdict
  full : Bool
  time : ℤ
  comment : Bool
  deriving DecidableEq

def PublishedReview.key (review : PublishedReview) : String :=
  review.package.val ++ "@" ++ review.version

def reviewsByVersion (reviews : List PublishedReview) : List (String × List PublishedReview) :=
  groupBy PublishedReview.key reviews

/-- `ACCEPTING.has` -/
def accepting (status : ReviewVerdict) : Bool := status = .accept || status = .acceptWithNits

/-- The versions that a review may have compared with. -/
inductive Bases
  | any
  | of (versions : List String)
  deriving DecidableEq

def Bases.has : Bases → String → Bool
  | .any, _ => true
  | .of versions, version => versions.contains version

/-- `qualifies` -/
def qualifies (pkg : LockedPackage) (bases : Bases) (review : PublishedReview) : Bool :=
  review.full && accepting review.status &&
    match review.basePackage with
    | none => true
    | some base => base = pkg.name.val && bases.has (review.baseVersion.getD "")

/-- The reviews of a version, of an integrity it is locked with, and of its patch. -/
def reviewsOf (pkg : LockedPackage) (reviews : List (String × List PublishedReview)) :
    List PublishedReview :=
  ((get (pkg.name.val ++ "@" ++ pkg.versionText) reviews).getD []).filter fun review =>
    (hashesOf pkg).contains review.integrity && review.patchHash.getD "" = text pkg.patchHash

/-- The latest of a reviewer's reviews, of which there is one. -/
def latestOf : List PublishedReview → Option PublishedReview
  | [] => none
  | review :: theirs =>
    some (theirs.foldl (fun one other => if one.time < other.time then other else one) review)

/-- A reviewer as told. -/
structure Reviewer where
  login : String
  status : ReviewVerdict
  passes : Bool
  comment : Bool
  deriving DecidableEq

/-- Where a reviewer stands on a version. -/
structure Stance where
  latest : PublishedReview
  passes : Bool
  comment : Bool

def stance (pkg : LockedPackage) (bases : Bases) (theirs : List PublishedReview) :
    Option Stance :=
  (latestOf theirs).map fun latest =>
    have passes := accepting latest.status && theirs.any (qualifies pkg bases)
    ⟨latest, passes,
      (if passes then theirs.filter (qualifies pkg bases) else [latest]).all (·.comment)⟩

structure Stances where
  passing : ℕ
  rejected : Bool
  commented : ℕ
  reviewers : List Reviewer

/-- The stances of a version's reviewers, each once. -/
def stancesBy (pkg : LockedPackage) (reviews : List (String × List PublishedReview))
    (bases : Bases) : List Stance :=
  (groupBy PublishedReview.reviewer (reviewsOf pkg reviews)).filterMap fun p =>
    stance pkg bases p.2

def stancesOf (pkg : LockedPackage) (reviews : List (String × List PublishedReview))
    (bases : Bases) : Stances :=
  have stances := stancesBy pkg reviews bases
  { passing := stances.countP fun s => s.latest.status ≠ .reject && s.passes
    rejected := stances.any (·.latest.status = .reject)
    commented := stances.countP (·.comment)
    reviewers := stances.map fun s =>
      ⟨s.latest.login, s.latest.status, s.passes, s.latest.comment⟩ }

/-! ### Judging -/

/-- `ReviewedDependency`, which stands for its JSON too, the key that it is asked by. -/
structure ReviewedDependency where
  lockfile : ReviewedLockfile
  name : PackageName
  version : String
  integrity : String
  shasum : Option String
  patchHash : Option String
  deriving DecidableEq

/-- A version as the registered reviewed dependencies are asked of it. -/
def askedOf (pkg : LockedPackage) : ReviewedDependency where
  lockfile := pkg.lockfile.getD .npm
  name := pkg.name
  version := pkg.versionText
  integrity := text pkg.integrity
  shasum := (pkg.shasum.map Field.val).filter (· ≠ "")
  patchHash := (pkg.patchHash.map Field.val).filter (· ≠ "")

/-- A version's review, as told. -/
inductive Review
  | skip
  | unsupported (why : Unsupported)
  | baseline
  | reviewed
  | told (reviews : ℕ) (rejected : Bool) (commented : ℕ) (reviewers : List Reviewer)
  deriving DecidableEq

structure Judged where
  review : Review
  wants : Bool

/-- A repository's review in effect. -/
structure RepoReviewState where
  required : ℕ
  since : Option String
  lockfiles : LockfileScope
  canReview : Bool
  reviews : List PublishedReview

structure Context where
  required : ℕ
  reviews : List (String × List PublishedReview)
  baseline : Option (List String)

abbrev Judge := LockedPackage → Bases → Judged

def judge (context : Context) : Judge := fun pkg bases =>
  match reviewedAs pkg with
  | .skip => ⟨.skip, false⟩
  | .unsupported why => ⟨.unsupported why, false⟩
  | .version =>
    if (baselineKeys pkg).any fun key => (context.baseline.getD []).contains key then
      ⟨.baseline, false⟩
    else
      have s := stancesOf pkg context.reviews bases
      if s.rejected then ⟨.told s.passing true s.commented s.reviewers, true⟩
      else ⟨.told s.passing false s.commented s.reviewers, s.passing < context.required⟩

/-! ### Directories -/

/-- A version's patch, as told. -/
structure Patch where
  hash : String
  path : Option String
  deriving DecidableEq

/-- A version as the client is told it. -/
structure Shown where
  name : PackageName
  version : Option Version
  source : Source
  origin : Option Field
  dev : Bool
  was : Option (List String)
  patch : Option Patch
  deriving DecidableEq

def shown (pkg : LockedPackage) (was : Option (List String)) : Shown where
  name := pkg.name
  version := pkg.version
  source := pkg.source
  origin := pkg.origin
  dev := pkg.dev
  was
  patch := ((pkg.patchHash.map Field.val).filter (· ≠ "")).map fun hash =>
    ⟨hash, pkg.patchPath.filter (· ≠ "")⟩

/-- A version that a directory adds with those locked so that have another integrity. -/
structure Variants where
  pkg : AddedPackage
  variants : List (LockedPackage × Option (List String))

/-- What a directory adds, each once. -/
def addsOf (added : List AddedPackage) : List AddedPackage :=
  (collect (fun a : AddedPackage => lockedAs a.pkg) id (fun a _ => a) added).map (·.2)

/-- What a directory adds, each with its variants. -/
def variantsOf (added : List AddedPackage) (locked : List LockedPackage) : List Variants :=
  (addsOf added).map fun a => ⟨a, (a.pkg, a.was) :: (locked.filter fun pkg =>
    lockedAs pkg = lockedAs a.pkg && lockedWith pkg ≠ lockedWith a.pkg).map (·, none)⟩

/-- The others that a directory locks. -/
def othersOf (added : List AddedPackage) (locked : List LockedPackage) : List LockedPackage :=
  locked.filter fun pkg => !added.any (lockedAs ·.pkg = lockedAs pkg)

/-- The least passing of a version's variants. -/
def leastOf (judged : List Judged) : Option Judged :=
  ((judged.find? fun j => match j.review with | .unsupported _ => true | _ => false).or
    (judged.find? (·.wants))).or judged.head?

/-- A directory as it is reviewed; without a review, what it adds. -/
inductive DirectoryReview
  | error (paths : List String) (error : String) (detail : Option String)
  | plain (paths : List String) (more : ℕ) (added : List Shown)
  | reviewed (paths : List String) (more : ℕ) (added : List (Shown × Option Review))
      (toReview : List Shown) (unreviewed : List (Shown × Review))
      (unsupported : List (Shown × Unsupported)) (moreLocked : ℕ)

/-- The versions that can't be reviewed. -/
def unsupportedOf (locked : List LockedPackage) : List (Shown × Unsupported) :=
  locked.filterMap fun pkg =>
    match reviewedAs pkg with
    | .unsupported why => some (shown pkg none, why)
    | _ => none

def reviewedDirectory (dir : DirectoryDependencies) (review : Option Judge) : DirectoryReview :=
  match dir, review with
  | .error paths message detail, _ => .error paths message detail
  | .told paths added more _ _, none =>
    .plain paths more ((added.take MAX_ADDED).map fun a => shown a.pkg a.was)
  | .told paths added more locked moreLocked, some review =>
    have own := (variantsOf added locked).map fun v =>
      (v.pkg, v.variants.map fun variant =>
        (variant, review variant.1 (.of (v.pkg.was.getD []))))
    have others := (othersOf added locked).map fun pkg => (pkg, review pkg .any)
    .reviewed paths more
      ((own.take MAX_ADDED).map fun p =>
        (shown p.1.pkg p.1.was, (leastOf (p.2.map (·.2))).map (·.review)))
      (own.flatMap fun p => (p.2.filter (·.2.wants)).map fun q => shown q.1.1 q.1.2)
      ((others.filter (·.2.wants)).map fun p => (shown p.1 none, p.2.review))
      (unsupportedOf locked) moreLocked

/-- The versions that a directory's review judges, in order. -/
def judgedIn : DirectoryDependencies → List (LockedPackage × Bases)
  | .error _ _ _ => []
  | .told _ added _ locked _ =>
    ((variantsOf added locked).flatMap fun v =>
      v.variants.map fun variant => (variant.1, Bases.of (v.pkg.was.getD []))) ++
      (othersOf added locked).map (·, Bases.any)

/-- A directory as the client is told it. -/
inductive DirectoryTold
  | error (paths : List String) (error : String) (detail : Option String)
  | plain (paths : List String) (more : ℕ) (added : List Shown)
  | reviewed (paths : List String) (more : ℕ) (added : List (Shown × Option Review))
      (unreviewed : List (Shown × Review)) (moreUnreviewed : ℕ)
      (unsupported : List (Shown × Unsupported)) (moreUnsupported : ℕ) (moreLocked : ℕ)

def capped : DirectoryReview → DirectoryTold
  | .error paths message detail => .error paths message detail
  | .plain paths more added => .plain paths more added
  | .reviewed paths more added _ unreviewed unsupported moreLocked =>
    .reviewed paths more added (unreviewed.take MAX_UNREVIEWED)
      (unreviewed.length - MAX_UNREVIEWED) (unsupported.take MAX_UNREVIEWED)
      (unsupported.length - MAX_UNREVIEWED) moreLocked

namespace DirectoryReview

def toReview : DirectoryReview → List Shown
  | .reviewed _ _ _ wanting _ _ _ => wanting
  | _ => []

def unreviewed : DirectoryReview → List Shown
  | .reviewed _ _ _ _ others _ _ => others.map (·.1)
  | _ => []

def unsupported : DirectoryReview → List Shown
  | .reviewed _ _ _ _ _ unread _ => unread.map (·.1)
  | _ => []

end DirectoryReview

/-- How many versions of the lists there are, each once across them. -/
def distinct (lists : List (List Shown)) (key : Shown → String) : ℕ :=
  (lists.flatten.map key).eraseDups.length

def Shown.versionText (pkg : Shown) : String := (pkg.version.map Version.val).getD ""

def versionKey (pkg : Shown) : String :=
  pkg.name.val ++ "@" ++ pkg.versionText ++ NULs ++ (pkg.patch.map Patch.hash).getD ""

def sourceKey (pkg : Shown) : String :=
  pkg.source.toString ++ NULs ++ pkg.name.val ++ "@" ++ pkg.versionText ++ NULs ++ text pkg.origin

/-! ### Pull requests -/

/-- The reviews an open pull request's comments make. -/
structure CommentAnswer where
  reviews : List PublishedReview
  failed : Bool

/-- What a pull request's review is given besides: `lookup` is the registered lookup, at each of
the times it is asked, which may fail; `commentReviews` are its comments', where the host reads
them. -/
structure ReviewOptions where
  baseline : Option (List String)
  baselineUnread : List String
  baselineError : Option String
  lookup : Option (ℕ → ReviewedDependency → Option Bool)
  commentReviews : Option (List ReviewedDependency → CommentAnswer)

def heldDependencies (told : PullDependencies) (scope : LockfileScope) : PullDependencies :=
  if isEvery scope then { told with omitted := none }
  else { told with
    omitted := none
    cut := told.cut && !(told.omitted.any fun omitted => !omitted.any (heldTo scope))
    lockfiles := told.lockfiles.filter fun dir => reviewedIn scope dir.paths }

/-- What wants a review, each once. -/
def wanting (held : List DirectoryDependencies) (context : Context) : List ReviewedDependency :=
  (((held.flatMap judgedIn).filter fun p => (judge context p.1 p.2).wants).map
    fun p => askedOf p.1).eraseDups

/-- `askReviewed` -/
def askReviewed (lookup : Option (ReviewedDependency → Option Bool))
    (asked : List ReviewedDependency) : List ReviewedDependency × ℕ :=
  match lookup with
  | none => ([], 0)
  | some lookup => (asked.filter (lookup · = some true), asked.countP (lookup · = none))

/-- The review's terms, as told. -/
structure ReviewTold where
  required : ℕ
  since : Option String
  canReview : Bool
  reviewedDependencies : Bool
  toReview : ℕ
  unreviewed : ℕ
  unsupported : ℕ
  unasked : ℕ
  baselineError : Option String
  commentReviews : ℕ
  commentsFailed : Bool
  baselineUnread : List String
  lockfiles : Option LockfileScope

structure ReviewedPull where
  base : String
  head : String
  cut : Bool
  lockfiles : List DirectoryTold
  review : Option ReviewTold

/-- Those that are added and that only reviews pass, of which the comments are asked too. -/
def othersAdded (held : List DirectoryDependencies) (context : Context)
    (asked : List ReviewedDependency) : List ReviewedDependency :=
  ((held.flatMap fun dir =>
      match dir with
      | .told _ added _ _ _ => added
      | .error _ _ _ => []).filterMap fun a =>
    if asked.contains (askedOf a.pkg) then none
    else match (judge context a.pkg (.of (a.was.getD []))).review with
      | .told _ _ _ _ => some (askedOf a.pkg)
      | _ => none).eraseDups

/-- The judge once the lookup and the comments were asked. -/
def finalJudge (context : Context) (passed : List ReviewedDependency) : Judge := fun pkg bases =>
  have judged := judge context pkg bases
  if judged.wants && passed.contains (askedOf pkg) then ⟨.reviewed, false⟩ else judged

/-- What the lookup and the comments answered. -/
structure Asked where
  context : Context
  passed : List ReviewedDependency
  unasked : ℕ
  comments : CommentAnswer

def contextOf (state : RepoReviewState) (options : ReviewOptions)
    (reviews : List PublishedReview) : Context :=
  ⟨state.required, reviewsByVersion reviews,
    if options.lookup.isSome then none else options.baseline⟩

/-- What the comments are asked of: what still wants a review, and what is added that reviews pass,
unless the lookup does. -/
def parsingOf (options : ReviewOptions) (held : List DirectoryDependencies) (context : Context)
    (asked passed : List ReviewedDependency) : List ReviewedDependency :=
  asked.filter (!passed.contains ·) ++
    if options.commentReviews.isSome then
      have others := othersAdded held context asked
      have vouched := (askReviewed (options.lookup.map (· 1)) others).1
      others.filter (!vouched.contains ·)
    else []

/-- What the comments answer. -/
def commentsOf (options : ReviewOptions) (parsing : List ReviewedDependency) : CommentAnswer :=
  match options.commentReviews with
  | some commentReviews => if parsing = [] then ⟨[], false⟩ else commentReviews parsing
  | none => ⟨[], false⟩

/-- The reviews that count: the teams', and those the comments make. -/
def countedReviews (state : RepoReviewState) (comments : CommentAnswer) : List PublishedReview :=
  state.reviews ++ comments.reviews.map ({ · with comment := true })

/-- Where comments make reviews, the lookup is asked of what only they make want one. -/
def askAgain (state : RepoReviewState) (options : ReviewOptions)
    (held : List DirectoryDependencies) (asked : List ReviewedDependency)
    (first : List ReviewedDependency × ℕ) (comments : CommentAnswer) : Asked :=
  if comments.reviews = [] then
    ⟨contextOf state options state.reviews, first.1, first.2, comments⟩
  else
    have context := contextOf state options (countedReviews state comments)
    have second := askReviewed (options.lookup.map (· 2))
      ((wanting held context).filter (!asked.contains ·))
    ⟨context, first.1 ++ second.1, first.2 + second.2, comments⟩

/-- The lookup is asked of what wants a review, and then the comments. -/
def askAll (state : RepoReviewState) (options : ReviewOptions)
    (held : List DirectoryDependencies) : Asked :=
  have context := contextOf state options state.reviews
  have asked := wanting held context
  have first := askReviewed (options.lookup.map (· 0)) asked
  askAgain state options held asked first
    (commentsOf options (parsingOf options held context asked first.1))

def reviewedDependencies (told : PullDependencies) (state : Option RepoReviewState)
    (options : ReviewOptions) : ReviewedPull :=
  match state with
  | none =>
    have answered := heldDependencies told EVERY_LOCKFILE
    ⟨answered.base, answered.head, answered.cut,
      answered.lockfiles.map fun dir => capped (reviewedDirectory dir none), none⟩
  | some state =>
    have answered := heldDependencies told state.lockfiles
    have asked := askAll state options answered.lockfiles
    have dirs := answered.lockfiles.map fun dir =>
      reviewedDirectory dir (some (finalJudge asked.context asked.passed))
    have unread := options.baselineUnread.filter (heldTo state.lockfiles)
    ⟨answered.base, answered.head, answered.cut, dirs.map capped, some {
      required := state.required
      since := if options.lookup.isSome then none else state.since
      canReview := state.canReview
      reviewedDependencies := options.lookup.isSome
      toReview := distinct (dirs.map (·.toReview)) versionKey
      unreviewed := distinct (dirs.map (·.unreviewed)) versionKey
      unsupported := distinct (dirs.map (·.unsupported)) sourceKey
      unasked := asked.unasked
      baselineError := if options.lookup.isSome then none else options.baselineError
      commentReviews := (asked.comments.reviews.map (·.reviewer)).eraseDups.length
      commentsFailed := asked.comments.failed
      baselineUnread := if options.lookup.isSome then [] else unread.take MAX_UNREVIEWED
      lockfiles := if isEvery state.lockfiles then none else some state.lockfiles }⟩

end Triage.Managed
