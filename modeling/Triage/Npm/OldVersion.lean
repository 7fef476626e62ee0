import Triage.Npm.Versions
import Mathlib.Data.List.Induction
import Mathlib.Data.List.Pairwise
import Mathlib.Data.List.Perm.Basic
import Mathlib.Data.List.Sort
import Mathlib.Order.Bounds.Basic

/-!
# The version an open one is compared with

Of a package's versions below the open one, the one most likely free of what an attack injects:
by the standing of the account that published it, by when it was published, by the versions npm
since removed and by its deprecation, each preference kept only where some version holds it.

## Main results

* `lists_cascade` : the list that the code narrows holds the cascade's versions, highest first.
* `npmOldVersion_spec` : **the choice is the highest version of the cascade**, below the open one
  and not removed, whatever the order the versions are listed in.
-/

namespace Triage.Npm

open Semver List Option

/-- A day in milliseconds. -/
def DAY_MS : ℤ := 86400000

def TENURE_MS : ℤ := 90 * DAY_MS
def SETTLED_MS : ℤ := 30 * DAY_MS
def CLOSE_MS : ℤ := 7 * DAY_MS
def REMOVED_MS : ℤ := DAY_MS

/-- A version as npm's document lists it; `published` is the time it reads as, none where npm
lists no time. -/
structure Release where
  version : Text
  published : Option ℤ := none
  publisher : Option String := none
  known : Bool := false
  deprecated : Bool := false
  removed : Bool := false
deriving DecidableEq

/-- An account's standing on a package. -/
inductive Standing where
  | new
  | maintainer
  | known
deriving DecidableEq, Repr

/-! ### Accounts -/

/-- What the releases tell of the accounts: since when each publishes, and the earliest release's
publisher, none where accounts share its time. -/
structure Told where
  since : String → Option ℤ := fun _ => none
  earliest : Option (Option String × ℤ) := none

def sinceWith (since : String → Option ℤ) (time : ℤ) : Option String → String → Option ℤ
  | none => since
  | some publisher => fun p =>
    if p = publisher then
      match since p with
      | some s => if s ≤ time then some s else some time
      | none => some time
    else since p

def earliestWith (publisher : Option String) (time : ℤ) :
    Option (Option String × ℤ) → Option (Option String × ℤ)
  | none => some (publisher, time)
  | some (p, t) =>
    if time < t then some (publisher, time)
    else if time = t ∧ publisher ≠ p then some (none, t)
    else some (p, t)

def tell (told : Told) (r : Release) : Told :=
  match r.published with
  | none => told
  | some time =>
    ⟨sinceWith told.since time r.publisher, earliestWith r.publisher time told.earliest⟩

def tellAll (releases : List Release) : Told := releases.foldl tell {}

/-- The account that published the package first, where its versions tell so. -/
def firstPublisher (releases : List Release) : Option String :=
  match (tellAll releases).earliest with
  | some (some p, _) =>
    if releases.all fun r => r.publisher = some p || r.published.isSome then some p else none
  | _ => none

/-- Time enough before: `ms` or more before `opened`. -/
def since (opened t : Option ℤ) (ms : ℤ) : Bool :=
  match opened, t with
  | some o, some t => ms ≤ o - t
  | _, _ => false

def npmAccountStanding (releases : List Release) (opened : Option ℤ) (account : String)
    (known : Bool) : Standing :=
  if known then .known
  else if some account = firstPublisher releases ∨
      since opened ((tellAll releases).since account) TENURE_MS then .maintainer
  else .new

/-! ### The choice -/

/-- A listed version with its parts. -/
structure Row where
  release : Release
  of : Version
  parsed_eq : parsed release.version = some of

def Row.of? (r : Release) : Option Row :=
  match h : parsed r.version with
  | some v => some ⟨r, v, h⟩
  | none => none

def RANKS : Standing → ℕ
  | .new => 0
  | .maintainer => 1
  | .known => 2

/-- What holds of some of the rows narrows them to those. -/
def prefer (rows : List Row) (wanted : Row → Bool) : List Row :=
  if (rows.filter wanted).length > 0 then rows.filter wanted else rows

def before (a b : Option ℤ) : Bool :=
  match a, b with
  | some a, some b => a < b
  | _, _ => false

def apart (a b : Option ℤ) (ms : ℤ) : Bool :=
  match a, b with
  | some a, some b => ms ≤ ((a - b).natAbs : ℤ)
  | _, _ => false

def rank (releases : List Release) (opened : Option ℤ) (r : Release) : ℕ :=
  match r.publisher with
  | some p => RANKS (npmAccountStanding releases opened p r.known)
  | none => RANKS .new

/-- A version of the open one's own account stands as a new one's. -/
def vouched (releases : List Release) (openRow : Release) (r : Release) : ℕ :=
  if r.publisher = openRow.publisher then RANKS .new else rank releases openRow.published r

def versions (releases : List Release) : List Row := releases.filterMap Row.of?

def removedTimes (releases : List Release) : List ℤ :=
  ((versions releases).filter (·.release.removed)).filterMap (·.release.published)

/-- The versions below the open one, the highest first. -/
def lowerRows (releases : List Release) (top : Version) : List Row :=
  ((versions releases).filter fun row =>
    !row.release.removed && compared row.of top < 0).insertionSort fun a b => compared b.of a.of ≤ 0

def highestRank (releases : List Release) (opened : Option ℤ) (rows : List Row) : ℕ :=
  match rows.head? with
  | some row => rank releases opened row.release
  | none => RANKS .new

/-- Where an account new to the package published the open version, one another published. -/
def preferOthers (releases : List Release) (openRow : Release) (rows : List Row) : List Row :=
  if openRow.publisher.isSome && rank releases openRow.published openRow = RANKS .new then
    prefer rows fun row => row.release.publisher ≠ openRow.publisher
  else rows

/-- Where an account of a higher standing published the highest, one of that standing. -/
def keepTrusted (releases : List Release) (openRow : Release) (rows : List Row) : List Row :=
  let top := highestRank releases openRow.published rows
  if openRow.publisher.isSome && rank releases openRow.published openRow < top then
    rows.filter fun row => top ≤ rank releases openRow.published row.release
  else rows

/-- The rows that the preferences leave. -/
def narrowed (releases : List Release) (openRow : Release) (top : Version) (now : ℤ) : List Row :=
  let rows := prefer (lowerRows releases top) fun row => row.of.pre = [] || top.pre ≠ []
  let rows := preferOthers releases openRow rows
  let rows := prefer rows fun row => before row.release.published openRow.published
  let rows := keepTrusted releases openRow rows
  let rows := prefer rows fun row =>
    (removedTimes releases).all fun gone => apart row.release.published (some gone) REMOVED_MS
  let rows := prefer rows fun row => vouched releases openRow row.release = RANKS .known ||
    apart row.release.published openRow.published CLOSE_MS
  let rows := prefer rows fun row => RANKS .maintainer ≤ vouched releases openRow row.release ||
    since (some now) row.release.published SETTLED_MS
  prefer rows fun row => !row.release.deprecated

def openRelease (version : Text) (releases : List Release) : Option Release :=
  releases.find? fun row => row.version = version && !row.removed

def npmOldVersion (version : Text) (releases : List Release) (now : ℤ) : Option Text :=
  match openRelease version releases, parsed version with
  | some openRow, some top => (narrowed releases openRow top now).head?.map (·.release.version)
  | _, _ => none

/-! ### The cascade, as sets -/

/-- What a preference leaves of a set: what holds of some of it must hold. -/
def Preferred {α : Type} (S : Set α) (P : α → Prop) : Set α := {x | x ∈ S ∧ ((∃ y ∈ S, P y) → P x)}

/-- A version of a set that none of it is above. -/
def Highest (S : Set Row) (x : Row) : Prop := x ∈ S ∧ ∀ y ∈ S, compared y.of x.of ≤ 0

/-- The account was first to publish the package: no other published one as early, and every
version without a time is its own. -/
def PublishedFirst (releases : List Release) (p : String) : Prop :=
  ∃ t, (∃ r ∈ releases, r.published = some t) ∧
    (∀ r ∈ releases, ∀ t', r.published = some t' → t ≤ t') ∧
    ∀ r ∈ releases, r.published = some t ∨ r.published = none → r.publisher = some p

/-- One of the package's maintainers when a version was published: on it three months or more, or
first to publish it. -/
def Maintains (releases : List Release) (opened : Option ℤ) (p : String) : Prop :=
  PublishedFirst releases p ∨
    ∃ r ∈ releases, r.publisher = some p ∧ since opened r.published TENURE_MS

open Classical in
/-- The standing of a release's publisher: a known one's, a maintainer's, else a new one's. -/
noncomputable def standingRank (releases : List Release) (opened : Option ℤ) (r : Release) : ℕ :=
  match r.publisher with
  | some p => if r.known then 2 else if Maintains releases opened p then 1 else 0
  | none => 0

open Classical in
noncomputable def vouchedRank (releases : List Release) (openRow r : Release) : ℕ :=
  if r.publisher = openRow.publisher then 0 else standingRank releases openRow.published r

/-- The listed versions below one, those removed aside. -/
def Lower (releases : List Release) (top : Version) : Set Row :=
  {x | x.release ∈ releases ∧ x.release.removed = false ∧ compared x.of top < 0}

section Cascade

variable (releases : List Release) (openRow : Release) (top : Version) (now : ℤ)

/-- A release where it is one. -/
def Released : Set Row := Preferred (Lower releases top) fun x => x.of.pre = [] ∨ top.pre ≠ []

/-- One another account published, where an account new to the package published it. -/
def Others : Set Row :=
  {x | x ∈ Released releases top ∧ (openRow.publisher ≠ none →
    standingRank releases openRow.published openRow = 0 →
    x ∈ Preferred (Released releases top) fun x => x.release.publisher ≠ openRow.publisher)}

/-- One published before it. -/
def Earlier : Set Row := Preferred (Others releases openRow top) fun x =>
  before x.release.published openRow.published

/-- One an account of the highest's standing published, where that is above the open one's. -/
def Trusted : Set Row :=
  {x | x ∈ Earlier releases openRow top ∧ ∀ y, Highest (Earlier releases openRow top) y →
    openRow.publisher ≠ none → standingRank releases openRow.published openRow <
      standingRank releases openRow.published y.release →
    standingRank releases openRow.published y.release ≤
      standingRank releases openRow.published x.release}

/-- One published a day or more apart from any version since removed. -/
def Apart : Set Row := Preferred (Trusted releases openRow top) fun x =>
  ∀ y : Row, y.release ∈ releases → y.release.removed → ∀ gone, y.release.published = some gone →
    apart x.release.published (some gone) REMOVED_MS

/-- One a week or more apart from it, or a known account's other than its own. -/
def Distant : Set Row := Preferred (Apart releases openRow top) fun x =>
  vouchedRank releases openRow x.release = 2 ∨
    apart x.release.published openRow.published CLOSE_MS

/-- One on npm a month or more, or vouched for by a maintainer other than its own account. -/
def Settled : Set Row := Preferred (Distant releases openRow top) fun x =>
  1 ≤ vouchedRank releases openRow x.release ∨ since (some now) x.release.published SETTLED_MS

/-- One that isn't deprecated. -/
def Cascade : Set Row := Preferred (Settled releases openRow top now) fun x =>
  x.release.deprecated = false

end Cascade

/-! ### Standing -/

variable (l : List Release)

theorem tellAll_concat (r : Release) : tellAll (l ++ [r]) = tell (tellAll l) r := by
  simp [tellAll, foldl_append]

/-- The earliest of some times, where there are any. -/
def First (P : ℤ → Prop) : Option ℤ → Prop
  | none => ∀ t, ¬P t
  | some s => P s ∧ ∀ t, P t → s ≤ t

theorem First.congr {P Q : ℤ → Prop} (hPQ : ∀ t, P t ↔ Q t) {o : Option ℤ} (h : First P o) :
    First Q o :=
  (funext fun t => propext (hPQ t) : P = Q) ▸ h

theorem First.told {P : ℤ → Prop} {told : Told} {p : String} (h : First P (told.since p))
    (r : Release) :
    First (fun t => P t ∨ r.publisher = some p ∧ r.published = some t) ((tell told r).since p) := by
  rw [tell]
  cases htime : r.published with
  | none => exact h.congr fun t => (or_iff_left fun h => by cases h.2).symm
  | some time =>
    by_cases hp : r.publisher = some p
    · simp only [hp, sinceWith, if_true]
      cases hs : told.since p with
      | none =>
        rw [hs] at h
        exact ⟨.inr ⟨trivial, rfl⟩, fun t ht => ht.elim (fun ht => absurd ht (h t))
          fun ht => (some.inj ht.2).le⟩
      | some s =>
        rw [hs] at h
        obtain ⟨hmem, hle⟩ := h
        dsimp only
        split_ifs with hst
        · exact ⟨.inl hmem, fun t ht => ht.elim (hle t) fun ht => some.inj ht.2 ▸ hst⟩
        · refine ⟨.inr ⟨trivial, rfl⟩, fun t ht => ht.elim (fun ht => ?_) fun ht => ?_⟩
          · exact (not_le.1 hst).le.trans (hle t ht)
          · exact (some.inj ht.2).le
    · have hsame : sinceWith told.since time r.publisher p = told.since p := by
        cases hr : r.publisher with
        | none => rfl
        | some q => exact if_neg fun h => hp (by rw [hr, h])
      dsimp only
      rw [hsame]
      exact h.congr fun t => (or_iff_left fun h => hp h.1).symm

/-- An account publishes since its earliest time. -/
theorem tellAll_since (p : String) :
    First (fun t => ∃ r ∈ l, r.publisher = some p ∧ r.published = some t)
      ((tellAll l).since p) := by
  induction l using reverseRecOn with
  | nil => exact fun t h => absurd h.choose_spec.1 not_mem_nil
  | append_singleton l r ih =>
    rw [tellAll_concat]
    refine (ih.told r).congr fun t => ?_
    simp only [mem_append, mem_singleton, or_and_right, exists_or, exists_eq_left]

/-- What the earliest release tells of a list. -/
def Earliest (l : List Release) : Option (Option String × ℤ) → Prop
  | none => ∀ r ∈ l, r.published = none
  | some (p, t) => (∃ r ∈ l, r.published = some t) ∧
      (∀ r ∈ l, ∀ t', r.published = some t' → t ≤ t') ∧
      ∀ a, p = some a ↔ ∀ r ∈ l, r.published = some t → r.publisher = some a

theorem tellAll_earliest : Earliest l (tellAll l).earliest := by
  induction l using reverseRecOn with
  | nil => simp [tellAll, Earliest]
  | append_singleton l r ih =>
    rw [tellAll_concat, tell]
    cases htime : r.published with
    | none =>
      cases he : (tellAll l).earliest with
      | none =>
        rw [he] at ih
        exact forall_mem_append.2 ⟨ih, forall_mem_singleton.2 htime⟩
      | some e =>
        rw [he] at ih
        obtain ⟨⟨r₀, hr₀, ht₀⟩, hle, hpub⟩ := ih
        refine ⟨⟨r₀, mem_append_left _ hr₀, ht₀⟩, forall_mem_append.2 ⟨hle, ?_⟩, fun a => ?_⟩
        · simp [htime]
        · rw [hpub a]
          simp [or_imp, forall_and, htime]
    | some time =>
      cases he : (tellAll l).earliest with
      | none =>
        rw [he] at ih
        have hnone : ∀ r' ∈ l, ∀ t, r'.published ≠ some t := fun r' hr' t ht => by
          rw [ih r' hr'] at ht
          cases ht
        refine ⟨⟨r, by simp, htime⟩, forall_mem_append.2 ⟨?_, ?_⟩, fun a => ?_⟩
        · exact fun r' hr' t ht => absurd ht (hnone r' hr' t)
        · simp [htime]
        · simp +contextual [or_imp, htime, hnone]
      | some e =>
        obtain ⟨p, t⟩ := e
        rw [he] at ih
        obtain ⟨⟨r₀, hr₀, ht₀⟩, hle, hpub⟩ := ih
        dsimp only
        rw [earliestWith]
        split_ifs with hlt heq
        · refine ⟨⟨r, by simp, htime⟩, forall_mem_append.2 ⟨?_, ?_⟩, fun a => ?_⟩
          · exact fun r' hr' t' ht' => hlt.le.trans (hle r' hr' t' ht')
          · simp [htime]
          · have hlater : ∀ r' ∈ l, r'.published ≠ some time :=
              fun r' hr' ht' => absurd (hle r' hr' _ ht') hlt.not_ge
            simp +contextual [or_imp, htime, hlater]
        · obtain ⟨rfl, hne⟩ := heq
          refine ⟨⟨r₀, mem_append_left _ hr₀, ht₀⟩, forall_mem_append.2 ⟨hle, ?_⟩,
          fun a => ?_⟩
          · simp [htime]
          · refine iff_of_false (by simp) fun h => ?_
            obtain ⟨hold, hnew⟩ := forall_mem_append.1 h
            exact hne ((hnew r mem_cons_self htime).trans ((hpub a).2 hold).symm)
        · have hne : time = t → r.publisher = p := fun h => by
            by_contra hp
            exact heq ⟨h, hp⟩
          refine ⟨⟨r₀, mem_append_left _ hr₀, ht₀⟩, forall_mem_append.2 ⟨hle, ?_⟩,
          fun a => ?_⟩
          · simpa [htime] using hlt
          · rw [forall_mem_append, ← hpub a, forall_mem_singleton, htime]
            refine (and_iff_left_of_imp fun h ht => ?_).symm
            rw [hne (some.inj ht), h]

theorem firstPublisher_eq_some {l : List Release} {p : String} :
    some p = firstPublisher l ↔ PublishedFirst l p := by
  have he := tellAll_earliest l
  unfold firstPublisher PublishedFirst
  split
  · rename_i q t htold
    rw [htold] at he
    obtain ⟨hex, hle, hpub⟩ := he
    have hq := (hpub q).1 rfl
    split_ifs with hall
    · simp only [List.all_eq_true, Bool.or_eq_true, decide_eq_true_eq] at hall
      constructor
      · rintro h
        cases h
        refine ⟨t, hex, hle, fun r hr h => ?_⟩
        rcases h with h | h
        · exact hq r hr h
        · simpa [h] using hall r hr
      · rintro ⟨t', ⟨r', hr', ht'⟩, hle', hp⟩
        obtain ⟨r, hr, ht⟩ := hex
        obtain rfl : t = t' := le_antisymm (hle r' hr' t' ht') (hle' r hr t ht)
        rw [← hq r hr ht, hp r hr (.inl ht)]
    · simp only [List.all_eq_true, Bool.or_eq_true, decide_eq_true_eq, not_forall] at hall
      obtain ⟨r, hr, hno⟩ := hall
      constructor
      · intro h
        cases h
      · rintro ⟨t', ⟨r', hr', ht'⟩, hle', hp⟩
        obtain ⟨r₁, hr₁, ht⟩ := hex
        obtain rfl : t = t' := le_antisymm (hle r' hr' t' ht') (hle' r₁ hr₁ t ht)
        have hpq : some p = some q := by rw [← hq r₁ hr₁ ht, hp r₁ hr₁ (.inl ht)]
        cases hpq
        refine absurd ?_ hno
        cases hpub' : r.published with
        | none => exact .inl (hp r hr (.inr hpub'))
        | some _ => exact .inr rfl
  · rename_i hne
    constructor
    · intro h
      cases h
    · rintro ⟨t', ⟨r', hr', ht'⟩, hle', hp⟩
      cases htold : (tellAll l).earliest with
      | none =>
        rw [htold] at he
        rw [he r' hr'] at ht'
        cases ht'
      | some e =>
        obtain ⟨q, t⟩ := e
        rw [htold] at he
        obtain ⟨⟨r, hr, ht⟩, hle, hpub⟩ := he
        obtain rfl : t = t' := le_antisymm (hle r' hr' t' ht') (hle' r hr t ht)
        have hq : q = some p := (hpub p).2 fun r hr h => hp r hr (.inl h)
        exact absurd (by rw [htold, hq]) (hne p t)

theorem since_iff {opened t : Option ℤ} {ms : ℤ} :
    since opened t ms ↔ ∃ o s, opened = some o ∧ t = some s ∧ ms ≤ o - s := by
  cases opened <;> cases t <;> simp [since]

/-- **The code's standing is the documented one.** -/
theorem npmAccountStanding_maintainer {l : List Release} {opened : Option ℤ} {p : String} :
    some p = firstPublisher l ∨ since opened ((tellAll l).since p) TENURE_MS ↔
      Maintains l opened p := by
  have hfirst := tellAll_since l p
  rw [firstPublisher_eq_some, Maintains]
  refine or_congr_right ⟨fun h => ?_, ?_⟩
  · obtain ⟨o, s, rfl, hs, hms⟩ := since_iff.1 h
    rw [hs] at hfirst
    obtain ⟨r, hr, hp, ht⟩ := hfirst.1
    exact ⟨r, hr, hp, since_iff.2 ⟨o, s, rfl, ht, hms⟩⟩
  · rintro ⟨r, hr, hp, h⟩
    obtain ⟨o, t, rfl, ht, hms⟩ := since_iff.1 h
    cases hs : (tellAll l).since p with
    | none =>
      rw [hs] at hfirst
      exact absurd ⟨r, hr, hp, ht⟩ (hfirst t)
    | some s =>
      rw [hs] at hfirst
      have hst := hfirst.2 t ⟨r, hr, hp, ht⟩
      exact since_iff.2 ⟨o, s, rfl, rfl, by omega⟩

theorem rank_eq (opened : Option ℤ) (r : Release) : rank l opened r = standingRank l opened r := by
  unfold rank standingRank
  cases r.publisher with
  | none => rfl
  | some p =>
    have hmaintains := @npmAccountStanding_maintainer l opened p
    by_cases hm : Maintains l opened p
    · simp only [npmAccountStanding, hmaintains.2 hm, hm, if_true]
      split_ifs <;> rfl
    · simp only [npmAccountStanding, mt hmaintains.1 hm, hm, if_false]
      split_ifs <;> rfl

theorem vouched_eq (openRow r : Release) : vouched l openRow r = vouchedRank l openRow r := by
  unfold vouched vouchedRank
  rw [rank_eq]
  split_ifs <;> rfl

/-! ### The list the code narrows -/

/-- A list holds the rows of a set, the highest first. -/
structure Lists (rows : List Row) (S : Set Row) : Prop where
  mem : ∀ x, x ∈ rows ↔ x ∈ S
  sorted : rows.Pairwise fun x y => compared y.of x.of < 0

variable {S : Set Row} {x : Row} {r : Release} {releases' : List Release} {v : Text}

variable {rows : List Row}

section

variable (h : Lists rows S)
include h

theorem Lists.filter (wanted : Row → Bool) : Lists (rows.filter wanted) {x | x ∈ S ∧ wanted x} where
  mem := fun x => by rw [mem_filter, h.mem, Set.mem_ofPred_eq]
  sorted := h.sorted.filter wanted

theorem Lists.of_eq {S' : Set Row} (hS : ∀ x, x ∈ S ↔ x ∈ S') : Lists rows S' where
  mem := fun x => (h.mem x).trans (hS x)
  sorted := h.sorted

theorem Lists.prefer (wanted : Row → Bool) {P : Row → Prop} (hP : ∀ x ∈ S, wanted x ↔ P x) :
    Lists (prefer rows wanted) (Preferred S P) := by
  unfold Npm.prefer
  split_ifs with hlen
  · obtain ⟨y, hy⟩ := exists_mem_of_length_pos hlen
    obtain ⟨hy, hwy⟩ := mem_filter.1 hy
    have hyS := (h.mem y).1 hy
    refine (h.filter wanted).of_eq fun x => ?_
    simp only [Set.mem_ofPred_eq, Preferred]
    refine and_congr_right fun hx => ?_
    rw [hP x hx]
    exact ⟨fun hPx _ => hPx, fun hex => hex ⟨y, hyS, (hP y hyS).1 hwy⟩⟩
  · refine h.of_eq fun x => ⟨fun hx => ⟨hx, ?_⟩, fun hx => hx.1⟩
    rintro ⟨y, hyS, hPy⟩
    refine absurd (length_pos_of_mem (a := y) ?_) hlen
    exact mem_filter.2 ⟨(h.mem y).2 hyS, (hP y hyS).2 hPy⟩

/-- The first of the list is the highest of the set. -/
theorem Lists.head? : rows.head? = some x ↔ Highest S x := by
  cases rows with
  | nil =>
    refine ⟨fun hx => ?_, fun hx => ?_⟩
    · cases hx
    · exact absurd ((h.mem x).2 hx.1) (by simp)
  | cons y rows =>
    have habove := (pairwise_cons.1 h.sorted).1
    have hy : Highest S y := by
      refine ⟨(h.mem y).1 (by simp), fun z hz => ?_⟩
      rcases mem_cons.1 ((h.mem z).2 hz) with rfl | hz
      · exact compared_nonpos_iff.2 le_rfl
      · exact (habove z hz).le
    refine ⟨fun hx => ?_, fun hx => ?_⟩
    · obtain rfl : y = x := by simpa using hx
      exact hy
    · rcases mem_cons.1 ((h.mem x).2 hx.1) with rfl | hxr
      · rfl
      · have := compared_nonpos_iff.1 (hx.2 y hy.1)
        exact absurd (compared_neg_iff.1 (habove x hxr)) (not_lt.2 this)

end

theorem of?_eq_some : Row.of? r = some x ↔ x.release = r := by
  unfold Row.of?
  constructor
  · intro h
    split at h
    · cases h
      rfl
    · cases h
  · rintro rfl
    have hx := x.parsed_eq
    split
    · rename_i v h
      obtain rfl : v = x.of := some.inj (h.symm.trans hx)
      rfl
    · rename_i h
      rw [h] at hx
      cases hx

variable {releases : List Release}

theorem mem_versions : x ∈ versions releases ↔ x.release ∈ releases := by
  simp [versions, of?_eq_some]

/-- The versions of a package are told apart by their precedence. -/
def DistinctVersions (releases : List Release) : Prop :=
  releases.Pairwise fun r r' => ∀ v ∈ parsed r.version, ∀ v' ∈ parsed r'.version,
    compared v v' ≠ 0

instance (releases : List Release) : Decidable (DistinctVersions releases) := by
  unfold DistinctVersions
  exact inferInstance

theorem pairwise_versions (h : DistinctVersions releases) :
    (versions releases).Pairwise fun x y => compared x.of y.of ≠ 0 := by
  refine List.Pairwise.filterMap _ ?_ h
  intro r r' hrr x hx y hy
  rw [of?_eq_some] at hx hy
  subst hx hy
  exact hrr _ x.parsed_eq _ y.parsed_eq

theorem compared_ne_zero_symm {a b : Version} (h : compared a b ≠ 0) : compared b a ≠ 0 := by
  rw [ne_eq, compared_eq_zero_iff] at *
  exact fun hba => h hba.symm

theorem lists_lowerRows (h : DistinctVersions releases) (top : Version) :
    Lists (lowerRows releases top) (Lower releases top) where
  mem := fun x => by
    simp only [lowerRows, mem_insertionSort, mem_filter, mem_versions, Lower,
      Set.mem_ofPred_eq, Bool.and_eq_true, Bool.not_eq_true', decide_eq_true_eq]
  sorted := by
    have : Std.Total fun a b : Row => compared b.of a.of ≤ 0 := ⟨fun a b => by
      simp only [compared_nonpos_iff]
      exact le_total _ _⟩
    have : IsTrans Row fun a b => compared b.of a.of ≤ 0 := ⟨fun a b c hab hbc => by
      simp only [compared_nonpos_iff] at *
      exact hbc.trans hab⟩
    have hdesc : (lowerRows releases top).Pairwise fun x y => compared y.of x.of ≤ 0 :=
      pairwise_insertionSort _ _
    have hne : (lowerRows releases top).Pairwise fun x y => compared x.of y.of ≠ 0 :=
      (perm_insertionSort _ _).symm.pairwise ((pairwise_versions h).filter _)
        fun hxy => compared_ne_zero_symm hxy
    refine (hdesc.and hne).imp fun hxy => ?_
    exact lt_of_le_of_ne hxy.1 (compared_ne_zero_symm hxy.2)

variable {openRow : Release}

theorem Lists.preferOthers (h : Lists rows S) :
    Lists (preferOthers releases openRow rows) {x | x ∈ S ∧ (openRow.publisher ≠ none →
      standingRank releases openRow.published openRow = 0 →
      x ∈ Preferred S fun x => x.release.publisher ≠ openRow.publisher)} := by
  unfold Npm.preferOthers
  split_ifs with hnew <;>
    simp only [Bool.and_eq_true, decide_eq_true_eq, rank_eq, RANKS, isSome_iff_ne_none] at hnew
  · refine (h.prefer _ fun x _ => decide_eq_true_iff).of_eq fun x => ?_
    exact ⟨fun hx => ⟨hx.1, fun _ _ => hx⟩, fun hx => hx.2 hnew.1 hnew.2⟩
  · refine h.of_eq fun x => ?_
    exact ⟨fun hx => ⟨hx, fun h₁ h₂ => absurd ⟨h₁, h₂⟩ hnew⟩, fun hx => hx.1⟩

theorem Lists.keepTrusted (h : Lists rows S) :
    Lists (keepTrusted releases openRow rows) {x | x ∈ S ∧ ∀ y, Highest S y →
      openRow.publisher ≠ none → standingRank releases openRow.published openRow <
        standingRank releases openRow.published y.release →
      standingRank releases openRow.published y.release ≤
        standingRank releases openRow.published x.release} := by
  unfold Npm.keepTrusted
  cases hhead : rows.head? with
  | none =>
    have hrows : rows = [] := head?_eq_none_iff.1 hhead
    subst hrows
    have hempty : ∀ x, x ∉ S := fun x hx => absurd ((h.mem x).2 hx) (by simp)
    have hno : Lists [] {x | x ∈ S ∧ ∀ y, Highest S y → openRow.publisher ≠ none →
        standingRank releases openRow.published openRow <
          standingRank releases openRow.published y.release →
        standingRank releases openRow.published y.release ≤
          standingRank releases openRow.published x.release} :=
      h.of_eq fun x => ⟨fun hx => absurd hx (hempty x), fun hx => hx.1⟩
    simpa using hno
  | some y =>
    have hy := h.head?.1 hhead
    have hunique : ∀ z, Highest S z → z = y := fun z hz =>
      some.inj ((h.head?.2 hz).symm.trans hhead)
    simp only [highestRank, hhead, rank_eq]
    split_ifs with htop <;>
      simp only [Bool.and_eq_true, decide_eq_true_eq, isSome_iff_ne_none] at htop
    · refine (h.filter _).of_eq fun x => ?_
      simp only [Set.mem_ofPred_eq, decide_eq_true_eq]
      refine and_congr_right fun _ => ⟨fun hx z hz _ _ => hunique z hz ▸ hx, fun hx => ?_⟩
      exact hx y hy htop.1 htop.2
    · refine h.of_eq fun x => ⟨fun hx => ⟨hx, fun z hz h₁ h₂ => ?_⟩, fun hx => hx.1⟩
      rw [hunique z hz] at h₂
      exact absurd ⟨h₁, h₂⟩ htop

theorem all_removedTimes {P : ℤ → Bool} :
    (removedTimes releases).all P ↔ ∀ y : Row, y.release ∈ releases → y.release.removed →
      ∀ gone, y.release.published = some gone → P gone := by
  simp only [removedTimes, List.all_eq_true, List.mem_filterMap, mem_filter, mem_versions]
  constructor
  · intro h y hy hr gone hgone
    exact h gone ⟨y, ⟨hy, hr⟩, hgone⟩
  · rintro h gone ⟨y, ⟨hy, hr⟩, hgone⟩
    exact h y hy hr gone hgone

/-- **The list that the code narrows holds the cascade's versions, the highest first.** -/
theorem lists_cascade (h : DistinctVersions releases)
    (openRow : Release) (top : Version) (now : ℤ) :
    Lists (narrowed releases openRow top now) (Cascade releases openRow top now) := by
  have released : Lists _ (Released releases top) :=
    (lists_lowerRows h top).prefer (fun row => row.of.pre = [] || top.pre ≠ [])
      fun x _ => by simp
  have earlier : Lists _ (Earlier releases openRow top) :=
    released.preferOthers.prefer
      (fun row => before row.release.published openRow.published) fun x _ => Iff.rfl
  have apart : Lists _ (Apart releases openRow top) :=
    earlier.keepTrusted.prefer (fun row => (removedTimes releases).all fun gone =>
      apart row.release.published (some gone) REMOVED_MS) fun x _ => all_removedTimes
  have distant : Lists _ (Distant releases openRow top) :=
    apart.prefer (fun row => vouched releases openRow row.release = RANKS .known ||
      Npm.apart row.release.published openRow.published CLOSE_MS)
      fun x _ => by simp [vouched_eq, RANKS]
  have settled : Lists _ (Settled releases openRow top now) :=
    distant.prefer (fun row =>
      RANKS .maintainer ≤ vouched releases openRow row.release ||
        since (some now) row.release.published SETTLED_MS)
      fun x _ => by simp [vouched_eq, RANKS]
  exact settled.prefer (fun row => !row.release.deprecated) fun x _ => by simp

/-! ### What the choice is -/

variable {version : Text}

theorem openRelease_eq_some (h : openRelease version releases = some r) :
    r ∈ releases ∧ r.version = version ∧ r.removed = false := by
  have hmem := mem_of_find?_eq_some h
  have hp := find?_some h
  simp only [Bool.and_eq_true, decide_eq_true_eq, Bool.not_eq_true'] at hp
  exact ⟨hmem, hp⟩

/-- Two listed releases of one version are one. -/
theorem DistinctVersions.eq (h : DistinctVersions releases)
    {r' : Release} (hr : r ∈ releases) (hr' : r' ∈ releases) {v : Version}
    (hv : parsed r.version = some v) (hv' : parsed r'.version = some v) : r = r' := by
  by_contra hne
  have hsymm : Std.Symm fun r r' : Release => ∀ v ∈ parsed r.version, ∀ v' ∈ parsed r'.version,
      compared v v' ≠ 0 :=
    ⟨fun _ _ hrr v hv v' hv' => compared_ne_zero_symm (hrr v' hv' v hv)⟩
  exact List.Pairwise.forall h hr hr' hne v hv v hv' (compared_eq_zero_iff.2 rfl)

theorem DistinctVersions.perm (h : DistinctVersions releases)
    (hp : releases.Perm releases') : DistinctVersions releases' :=
  hp.pairwise h fun hrr v hv v' hv' => compared_ne_zero_symm (hrr v' hv' v hv)

/-- The open release: listed as the version, and not removed. -/
def IsOpen (version : Text) (releases : List Release) (r : Release) : Prop :=
  r ∈ releases ∧ r.version = version ∧ r.removed = false

theorem openRelease_iff {top : Version}
    (h : DistinctVersions releases) (htop : parsed version = some top) :
    openRelease version releases = some r ↔ IsOpen version releases r := by
  refine ⟨openRelease_eq_some, ?_⟩
  rintro ⟨hr, rfl, hrem⟩
  cases ho : openRelease r.version releases with
  | none =>
    have := find?_eq_none.1 ho r hr
    simp [hrem] at this
  | some r' =>
    obtain ⟨hr', hv, -⟩ := openRelease_eq_some ho
    rw [h.eq hr' hr (by rw [hv, htop]) htop]

/-- The versions that may be chosen: those of the cascade that none of it is above. -/
def Chosen (version : Text) (releases : List Release) (now : ℤ) (v : Text) : Prop :=
  ∃ openRow top, IsOpen version releases openRow ∧ parsed version = some top ∧
    ∃ x, Highest (Cascade releases openRow top now) x ∧ x.release.version = v

theorem npmOldVersion_eq_some {now : ℤ} (h : DistinctVersions releases) :
    npmOldVersion version releases now = some v ↔ Chosen version releases now v := by
  unfold npmOldVersion Chosen
  cases htop : parsed version with
  | none => simp
  | some top =>
    have hiff := fun r => openRelease_iff (r := r) h htop
    cases ho : openRelease version releases with
    | none =>
      simp only [reduceCtorEq, false_iff]
      rintro ⟨r, _, hr, -⟩
      rw [(hiff r).2 hr] at ho
      cases ho
    | some openRow =>
      simp only [map_eq_some_iff, (lists_cascade h openRow top now).head?]
      constructor
      · rintro hx
        exact ⟨openRow, top, (hiff openRow).1 ho, rfl, hx⟩
      · rintro ⟨r, t, hr, ht, hx⟩
        cases ht
        obtain rfl : openRow = r := some.inj (ho.symm.trans ((hiff r).2 hr))
        exact hx

/-- Where a preference leaves none, there was none. -/
theorem Preferred.nonempty {α : Type} {S : Set α} (P : α → Prop) (h : S.Nonempty) :
    (Preferred S P).Nonempty := by
  by_cases hex : ∃ y ∈ S, P y
  · obtain ⟨y, hy, hP⟩ := hex
    exact ⟨y, hy, fun _ => hP⟩
  · obtain ⟨y, hy⟩ := h
    exact ⟨y, hy, fun h => absurd h hex⟩

theorem Lists.nonempty (h : Lists rows S) (hS : S.Nonempty) : ∃ x, Highest S x := by
  obtain ⟨x, hx⟩ := hS
  cases rows with
  | nil => exact absurd ((h.mem x).2 hx) (by simp)
  | cons y rows => exact ⟨y, h.head?.1 rfl⟩

theorem cascade_nonempty (h : DistinctVersions releases)
    (openRow : Release) (top : Version) (now : ℤ) (hS : (Lower releases top).Nonempty) :
    (Cascade releases openRow top now).Nonempty := by
  have others : (Others releases openRow top).Nonempty := by
    obtain ⟨x, hx⟩ := Preferred.nonempty (fun x : Row => x.release.publisher ≠ openRow.publisher)
      (Preferred.nonempty (fun x : Row => x.of.pre = [] ∨ top.pre ≠ []) hS)
    exact ⟨x, hx.1, fun _ _ => hx⟩
  have released : Lists _ (Released releases top) :=
    (lists_lowerRows h top).prefer (fun row => row.of.pre = [] || top.pre ≠ [])
      fun x _ => by simp
  have earlier : Lists _ (Earlier releases openRow top) :=
    released.preferOthers.prefer
      (fun row => before row.release.published openRow.published) fun x _ => Iff.rfl
  obtain ⟨y, hy⟩ := earlier.nonempty (Preferred.nonempty _ others)
  have trusted : (Trusted releases openRow top).Nonempty := by
    refine ⟨y, hy.1, fun z hz _ _ => ?_⟩
    rw [some.inj ((earlier.head?.2 hz).symm.trans (earlier.head?.2 hy))]
  exact Preferred.nonempty _ (Preferred.nonempty _ (Preferred.nonempty _
    (Preferred.nonempty _ trusted)))

/-- One version is strictly below another. -/
def Below (v w : Text) : Prop :=
  ∃ a b, parsed v = some a ∧ parsed w = some b ∧ compared a b < 0

/-- The cascade holds versions below the open one, not removed. -/
theorem mem_lower_of_mem_cascade {top : Version}
    {now : ℤ} (h : x ∈ Cascade releases openRow top now) : x ∈ Lower releases top :=
  h.1.1.1.1.1.1.1.1

theorem chosen_of_lower (now : ℤ)
    {top : Version} (h : DistinctVersions releases) (ho : IsOpen version releases openRow)
    (ht : parsed version = some top) (hS : (Lower releases top).Nonempty) :
    ∃ v, Chosen version releases now v := by
  obtain ⟨x, hx⟩ :=
    (lists_cascade h openRow top now).nonempty (cascade_nonempty h openRow top now hS)
  exact ⟨x.release.version, openRow, top, ho, ht, x, hx, rfl⟩

theorem chosen_below {now : ℤ} (h : Chosen version releases now v) :
    ∃ r ∈ releases, r.version = v ∧ r.removed = false ∧ Below v version := by
  obtain ⟨openRow, top, -, htop, x, hx, rfl⟩ := h
  obtain ⟨hmem, hrem, hlt⟩ := mem_lower_of_mem_cascade hx.1
  exact ⟨x.release, hmem, rfl, hrem, x.of, top, x.parsed_eq, htop, hlt⟩

theorem below_iff_precedence {w : Text} (h : Below v w) (hv : Valid v) (hw : Valid w) :
    precedence v < precedence w := by
  obtain ⟨a, b, ha, hb, hlt⟩ := h
  exact (compared_neg_iff_precedence ha hb hv hw).1 hlt

/-- What makes no version comparable: the version isn't listed, or is no version, or none is
below it. -/
theorem npmOldVersion_eq_none {now : ℤ} (h : DistinctVersions releases) :
    npmOldVersion version releases now = none ↔ (∀ r, ¬ IsOpen version releases r) ∨
      ¬ ∃ r ∈ releases, r.removed = false ∧ Below r.version version := by
  constructor
  · intro hnone
    by_contra hex
    simp only [not_or, not_forall, not_not] at hex
    obtain ⟨⟨openRow, ho⟩, r, hr, hrem, a, top, ha, htop, hlt⟩ := hex
    obtain ⟨v, hv⟩ := chosen_of_lower now h ho htop ⟨⟨r, a, ha⟩, hr, hrem, hlt⟩
    rw [(npmOldVersion_eq_some h).2 hv] at hnone
    cases hnone
  · intro hno
    cases hv : npmOldVersion version releases now with
    | none => rfl
    | some v =>
      have hch := (npmOldVersion_eq_some h).1 hv
      obtain ⟨r, hr, rfl, hrem, hbelow⟩ := chosen_below hch
      obtain ⟨openRow, _, ho, -⟩ := hch
      rcases hno with hno | hno
      · exact absurd ho (hno openRow)
      · exact absurd ⟨r, hr, hrem, hbelow⟩ hno

theorem standingRank_perm (h : releases.Perm releases') (opened : Option ℤ) (r : Release) :
    standingRank releases opened r = standingRank releases' opened r := by
  have hmaintains : ∀ p, Maintains releases opened p ↔ Maintains releases' opened p := by
    simp only [Maintains, PublishedFirst, h.mem_iff, implies_true]
  unfold standingRank
  split
  · rename_i p _
    by_cases hm : Maintains releases opened p
    · simp only [hm, (hmaintains p).1 hm]
    · simp only [hm, mt (hmaintains p).2 hm]
  · rfl

/-- The cascade is told by which versions are listed, not by their order. -/
theorem cascade_perm (h : releases.Perm releases') (openRow : Release) (top : Version) (now : ℤ) :
    Cascade releases openRow top now = Cascade releases' openRow top now := by
  simp only [Cascade, Settled, Distant, Apart, Trusted, Earlier, Others, Released, Lower,
    vouchedRank, standingRank_perm h, h.mem_iff]

theorem npmOldVersion_perm {now : ℤ}
    (h : DistinctVersions releases) (hp : releases.Perm releases') :
    npmOldVersion version releases now = npmOldVersion version releases' now := by
  ext v
  rw [npmOldVersion_eq_some h, npmOldVersion_eq_some (h.perm hp)]
  simp only [Chosen, IsOpen, hp.mem_iff, cascade_perm hp]

/-- **The version an open one is compared with.**  It is the highest of the cascade, so it is
listed, not removed and strictly below the open one; there is none only where the open version
isn't listed (or was removed) or nothing is below it; and the order of the listing is nothing to
it. -/
theorem npmOldVersion_spec (version : Text) (releases : List Release) (now : ℤ)
    (h : DistinctVersions releases) :
    (∀ v, npmOldVersion version releases now = some v ↔ Chosen version releases now v) ∧
    (∀ v, npmOldVersion version releases now = some v →
      (∃ r ∈ releases, r.version = v ∧ r.removed = false ∧ Below v version) ∧
        (Valid v → Valid version → precedence v < precedence version)) ∧
    (npmOldVersion version releases now = none ↔ (∀ r, ¬ IsOpen version releases r) ∨
      ¬ ∃ r ∈ releases, r.removed = false ∧ Below r.version version) ∧
    ∀ releases', releases.Perm releases' →
      npmOldVersion version releases now = npmOldVersion version releases' now := by
  refine ⟨fun v => npmOldVersion_eq_some h, fun v hv => ?_, npmOldVersion_eq_none h,
    fun releases' hp => npmOldVersion_perm h hp⟩
  obtain ⟨r, hr, rfl, hrem, hbelow⟩ := chosen_below ((npmOldVersion_eq_some h).1 hv)
  exact ⟨⟨r, hr, rfl, hrem, hbelow⟩, below_iff_precedence hbelow⟩

/-- A maintainer's last version before an account new to the package published one. -/
def takenOver : List Release :=
  [{ version := text "1.0.0", published := some 0, publisher := some "ada" },
    { version := text "1.1.0", published := some (200 * DAY_MS), publisher := some "ada" },
    { version := text "1.1.1", published := some (300 * DAY_MS), publisher := some "eve" },
    { version := text "1.1.2", published := some (301 * DAY_MS), publisher := some "eve" }]

theorem npmOldVersion_spec_takenOver :
    DistinctVersions takenOver ∧
      npmOldVersion (text "1.1.2") takenOver (302 * DAY_MS) = some (text "1.1.0") ∧
      Chosen (text "1.1.2") takenOver (302 * DAY_MS) (text "1.1.0") := by
  have hd : DistinctVersions takenOver := by decide +kernel
  have hv : npmOldVersion (text "1.1.2") takenOver (302 * DAY_MS) = some (text "1.1.0") := by
    decide +kernel
  exact ⟨hd, hv, ((npmOldVersion_spec _ _ _ hd).1 _).1 hv⟩

/-- A version that the package doesn't list is compared with none, though one is below it. -/
theorem npmOldVersion_unlisted :
    ∃ (version : Text) (releases : List Release) (now : ℤ), DistinctVersions releases ∧
      npmOldVersion version releases now = none ∧
      ∃ r ∈ releases, r.removed = false ∧ Below r.version version := by
  refine ⟨text "2.0.0", [{ version := text "1.0.0" }], 0,
    by decide +kernel, by decide +kernel, { version := text "1.0.0" }, by simp, rfl,
    ⟨[1, 0, 0], [], rfl⟩, ⟨[2, 0, 0], [], rfl⟩, ?_, ?_, ?_⟩
  all_goals decide +kernel

end Triage.Npm
