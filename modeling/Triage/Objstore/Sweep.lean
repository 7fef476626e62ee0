import Triage.Objstore.Reaper

/-!
# What calls and sweeps do

One lemma for each thing an await of a call or of a sweep can do to the live rows, the staging rows,
the blobs and what the caller holds.

## Main results

* `perform_live`, `perform_stagingRow`, `perform_minted`, `perform_writes` : the awaits of the
  calls.
* `sweep_perform_step` : every await of a sweep is a `SweepStep`.
-/

namespace Triage.Objstore

open List Option Sweep Store FMap

/-! ### What the calls do -/

/-- The content hash and the staging id a call holds. -/
def Stage.minted : Stage → Option ((String × String) × String)
  | .beginInsertStaging input stagingId _ =>
    some ((input.key.workspaceTag, input.contentHash), stagingId)
  | .commitStatStaging input staging | .commitGetLive input staging
  | .commitPromote input staging _ | .commitCAS input staging _ _ _ =>
    some ((input.key.workspaceTag, staging.contentHash), input.stagingId)
  | _ => none

/-- The content hash a call is about to write into a live row, with its staging id. -/
def Stage.writes : Stage → Option (Key × String × String)
  | .commitCAS input staging _ _ _ => some (input.key, staging.contentHash, input.stagingId)
  | _ => none

theorem Stage.minted_of_writes {st : Stage} {key : Key} {hash sid : String}
    (h : st.writes = some (key, hash, sid)) : st.minted = some ((key.workspaceTag, hash), sid) := by
  cases st <;> cases h
  rfl

theorem Stage.exists_of_writes {st : Stage} {x : Key × String × String} (h : st.writes = some x) :
    ∃ input staging nextVersion freshIncarnation putAt,
      st = .commitCAS input staging nextVersion freshIncarnation putAt := by
  cases st with
  | commitCAS input staging nextVersion freshIncarnation putAt => exact ⟨_, _, _, _, _, rfl⟩
  | _ => cases h

theorem mem_liveHashSet {db : Store} {tag hash : String} : hash ∈ liveHashSet db tag ↔
    ∃ key row, db.live key = some row ∧ key.workspaceTag = tag ∧ row.contentHash = hash := by
  simp only [liveHashSet, Finset.mem_biUnion, Finset.mem_filter, Option.mem_toFinset,
    mem_def, map_eq_some_iff]
  constructor
  · rintro ⟨key, ⟨-, htag⟩, row, hrow, hhash⟩
    exact ⟨key, row, hrow, htag, hhash⟩
  · rintro ⟨key, row, hrow, htag, hhash⟩
    exact ⟨key, ⟨isSome_of_eq hrow, htag⟩, row, hrow, hhash⟩

section Perform

variable {p : ℕ} {db db' : Store} {a : Answer} {st st' : Stage}

theorem commitStatement_live {input : CommitPutInput} {staging : StagingRow} {nextVersion : ℤ}
    {freshIncarnation : String} {putAt : ℤ} {row : ObjectRow}
    (h : commitStatement p db input staging nextVersion freshIncarnation putAt = some (db', row))
    {key : Key} {r : ObjectRow} (hr : db'.live key = some r) :
    db.live key = some r ∨ (key, r.contentHash) = (input.key, staging.contentHash) := by
  have hset : ∀ row' : ObjectRow, row'.contentHash = staging.contentHash →
      (db.setLive p input.key (some row')).live key = some r →
      db.live key = some r ∨ (key, r.contentHash) = (input.key, staging.contentHash) := by
    intro row' hrow' hr
    rw [live_setLive] at hr
    split_ifs at hr with hk
    · cases hr
      exact .inr (by rw [hrow', hk])
    · exact .inl hr
  unfold commitStatement insertLiveIfAbsent updateLiveCAS at h
  repeat' split at h
  all_goals cases h
  all_goals exact hset _ rfl hr

/-- A live row is an old one, or the call was about to write it. -/
theorem perform_live (h : perform p db a st = some (db', st')) {key : Key} {r : ObjectRow}
    (hr : db'.live key = some r) :
    db.live key = some r ∨ ∃ sid, st.writes = some (key, r.contentHash, sid) := by
  cases perform_tableStep h with
  | read => exact .inl hr
  | draw _ => exact .inl hr
  | stage => exact .inl hr
  | unstage => exact .inl hr
  | commit input staging nextVersion freshIncarnation putAt row _ hst hcas =>
    rw [hst]
    refine (commitStatement_live hcas hr).imp id fun heq => ⟨input.stagingId, ?_⟩
    rw [Prod.mk.injEq] at heq
    rw [heq.1, heq.2]
    rfl
  | delete key' prevVersion prevIncarnation live _ hst hcas =>
    obtain ⟨rfl, -⟩ := deleteLiveCAS_spec hcas
    rw [live_setLive] at hr
    split_ifs at hr
    exact .inl hr

/-- A staging row is an old one, up to its time stamp, or the call was about to insert it. -/
theorem perform_stagingRow (h : perform p db a st = some (db', st')) {key : Key} {sid : String}
    {r : StagingRow} (hr : db'.staging (key, sid) = some r) :
    db.staging (key, sid) = some r ∨
      st.minted = some ((key.workspaceTag, r.contentHash), sid) := by
  cases perform_tableStep h with
  | read => exact .inl hr
  | draw _ => exact .inl hr
  | stage input stagingId begunAt hst =>
    rw [insert_apply] at hr
    split_ifs at hr with hk
    · cases hr
      cases hk
      exact .inr (by rw [hst]; rfl)
    · exact .inl hr
  | unstage key' stagingId =>
    rw [deleteStaging, erase_apply] at hr
    split_ifs at hr
    exact .inl hr
  | commit input staging nextVersion freshIncarnation putAt row _ hst hcas =>
    rw [(commitStatement_frame hcas).1] at hr
    exact .inl hr
  | delete key' prevVersion prevIncarnation live _ hst hcas =>
    obtain ⟨rfl, -⟩ := deleteLiveCAS_spec hcas
    exact .inl hr

theorem Stage.Refused.minted {st : Stage} (h : st.Refused) : st.minted = none := by
  cases h <;> rfl

theorem Stage.Refused.writes {st : Stage} (h : st.Refused) : st.writes = none := by
  cases h <;> rfl

/-- What a call holds it held before, has read from the table, or has just minted. -/
theorem perform_minted (h : perform p db a st = some (db', st')) {k : String × String}
    {sid : String} (hx : st'.minted = some (k, sid)) :
    st.minted = some (k, sid) ∨
      (∃ key r, db.staging (key, sid) = some r ∧ k = (key.workspaceTag, r.contentHash)) ∨
      ∃ input, st = .beginEnsureWorkspace input ∧
        k = (input.key.workspaceTag, input.contentHash) ∧ sid = a.id := by
  cases performed h with
  | refused _ hrefused =>
    rw [hrefused.minted] at hx
    cases hx
  | minted input hfresh =>
    cases hx
    exact .inr (.inr ⟨input, rfl, rfl, rfl⟩)
  | selected input staging hrow | observed input staging hrow =>
    cases hx
    exact .inr (.inl ⟨input.key, staging, hrow, rfl⟩)
  | sized | current | promoted =>
    cases hx
    exact .inl rfl
  | _ => cases hx

/-- A call is about to write a row when it has promoted the blob. -/
theorem perform_writes (h : perform p db a st = some (db', st')) {key : Key} {hash sid : String}
    (hx : st'.writes = some (key, hash, sid)) :
    ∃ input staging liveVersion, st = .commitPromote input staging liveVersion ∧ a.ok = true ∧
      key = input.key ∧ hash = staging.contentHash ∧ sid = input.stagingId := by
  cases performed h with
  | refused _ hrefused =>
    rw [hrefused.writes] at hx
    cases hx
  | promoted input staging liveVersion hok hfresh =>
    cases hx
    exact ⟨input, staging, liveVersion, rfl, hok, rfl, rfl, rfl⟩
  | _ => cases hx

end Perform

/-! ### What the sweeps do -/

/-- A sweep has found a blob past the grace period and has not dealt with it yet. -/
def Sweep.Holds (grace : ℤ) (tag hash : String) (modified : ℤ) : Sweep → Prop
  | .statLiveBlob plan t _ _ blobs | .liveHashSet plan t blobs =>
    t = tag ∧ (hash, modified) ∈ blobs ∧ grace ≤ plan.now - modified
  | .recheck plan t referenced h m blobs | .unlinkLive plan t referenced h m blobs =>
    t = tag ∧ ((hash, modified) = (h, m) ∨ (hash, modified) ∈ blobs ∧ hash ∉ referenced) ∧
      grace ≤ plan.now - modified
  | _ => False

namespace Sweep

variable {grace : ℤ} {plan : Plan} {tag tag' hash : String} {referenced : Finset String} {m : ℤ}

/-- When the sweep started, while it is in its first pass. -/
def started : Sweep → Option ℤ
  | .listLiveTags now => some now
  | .readLiveBlobs plan _ | .statLiveBlob plan .. | .liveHashSet plan .. | .recheck plan ..
  | .unlinkLive plan .. | .listWorkspaceTags plan => some plan.now
  | _ => none

/-- The blob a sweep is about to unlink if it is not referenced. -/
def due : Sweep → Option (Plan × String × String × ℤ)
  | .recheck plan tag _ hash modified _ | .unlinkLive plan tag _ hash modified _ =>
    some (plan, tag, hash, modified)
  | _ => none

/-- The blob a sweep is about to unlink. -/
def unlinks : Sweep → Option (String × String)
  | .unlinkLive _ tag _ hash _ _ => some (tag, hash)
  | _ => none

theorem next_holds : ¬(next plan).Holds grace tag hash m := by
  unfold next
  split
  · exact id
  · split <;> exact id

theorem next_due : (next plan).due = none := by
  unfold next
  split
  · rfl
  · split <;> rfl

theorem next_unlinks : (next plan).unlinks = none := by
  unfold next
  split
  · rfl
  · split <;> rfl

theorem next_started {now : ℤ} (h : (next plan).started = some now) : now = plan.now := by
  unfold next at h
  split at h
  · cases h
    rfl
  · split at h <;> cases h
    rfl

variable {blobs : List (String × ℤ)} {names : List String}

theorem listing_holds (h : (listing plan tag blobs names).Holds grace tag' hash m) :
    tag = tag' ∧ (hash, m) ∈ blobs ∧ grace ≤ plan.now - m := by
  unfold listing at h
  split at h
  · exact h
  · split_ifs at h
    · exact absurd h next_holds
    · exact h

theorem listing_due : (listing plan tag blobs names).due = none := by
  unfold listing
  split
  · rfl
  · split_ifs
    · exact next_due
    · rfl

theorem listing_unlinks : (listing plan tag blobs names).unlinks = none := by
  unfold listing
  split
  · rfl
  · split_ifs
    · exact next_unlinks
    · rfl

theorem listing_started {now : ℤ}
    (h : (listing plan tag blobs names).started = some now) : now = plan.now := by
  unfold listing at h
  split at h
  · cases h
    rfl
  · split_ifs at h
    · exact next_started h
    · cases h
      rfl

/-- The scan goes on with a blob that is not referenced and past the grace period. -/
theorem scan_cases (grace : ℤ) (plan : Plan) (tag : String) (referenced : Finset String)
    (blobs : List (String × ℤ)) :
    scan grace plan tag referenced blobs = next plan ∨
      ∃ hash modified rest, scan grace plan tag referenced blobs =
          .recheck plan tag referenced hash modified rest ∧
        (hash, modified) ∈ blobs ∧ hash ∉ referenced ∧ grace ≤ plan.now - modified ∧
        rest ⊆ blobs := by
  induction blobs with
  | nil => exact .inl rfl
  | cons blob blobs ih =>
    obtain ⟨hash, modified⟩ := blob
    by_cases hskip : hash ∈ referenced ∨ plan.now - modified < grace
    · rw [scan, if_pos hskip]
      rcases ih with ih | ⟨hash', modified', rest, hscan, hmem, hrest⟩
      · exact .inl ih
      · refine .inr ⟨hash', modified', rest, hscan, mem_cons_of_mem _ hmem, hrest.1,
          hrest.2.1, List.Subset.trans hrest.2.2 (subset_cons_self ..)⟩
    · rw [scan, if_neg hskip]
      push Not at hskip
      exact .inr ⟨hash, modified, blobs, rfl, mem_cons_self, hskip.1, hskip.2, subset_cons_self ..⟩

theorem scan_holds (h : (scan grace plan tag referenced blobs).Holds grace tag' hash m) :
    tag = tag' ∧ ((hash, m) ∈ blobs ∧ hash ∉ referenced) ∧ grace ≤ plan.now - m := by
  rcases scan_cases grace plan tag referenced blobs with hscan | ⟨h', m', rest, hscan, hmem, hrest⟩
  · rw [hscan] at h
    exact absurd h next_holds
  · rw [hscan] at h
    obtain ⟨htag, hcase, hage⟩ := h
    refine ⟨htag, ?_, hage⟩
    rcases hcase with heq | ⟨hin, hnot⟩
    · cases heq
      exact ⟨hmem, hrest.1⟩
    · exact ⟨hrest.2.2 hin, hnot⟩

theorem scan_due {plan' : Plan}
    (h : (scan grace plan tag referenced blobs).due = some (plan', tag', hash, m)) :
    grace ≤ plan'.now - m := by
  rcases scan_cases grace plan tag referenced blobs with
    hscan | ⟨h', m', rest, hscan, -, -, hage, -⟩
  · rw [hscan, next_due] at h
    cases h
  · rw [hscan] at h
    cases h
    exact hage

theorem scan_unlinks : (scan grace plan tag referenced blobs).unlinks = none := by
  rcases scan_cases grace plan tag referenced blobs with hscan | ⟨h', m', rest, hscan, -⟩
  · rw [hscan, next_unlinks]
  · rw [hscan]
    rfl

theorem scan_started {now : ℤ}
    (h : (scan grace plan tag referenced blobs).started = some now) : now = plan.now := by
  rcases scan_cases grace plan tag referenced blobs with hscan | ⟨h', m', rest, hscan, -⟩
  · rw [hscan] at h
    exact next_started h
  · rw [hscan] at h
    cases h
    rfl

end Sweep

/-- What an await of a sweep does. -/
structure SweepStep (grace : ℤ) (db : Store) (b : BlobStore) (sw : Sweep) (db' : Store)
    (b' : BlobStore) (sw' : Sweep) : Prop where
  live : db'.live = db.live
  rows : ∀ k r, db'.staging k = some r → db.staging k = some r
  staged : ∀ k f, b'.staging k = some f → b.staging k = some f
  blobs : b'.live = b.live ∨
    ∃ tag hash, sw.unlinks = some (tag, hash) ∧ b'.live = b.live.erase (tag, hash)
  /-- A blob it holds it has held, or has just listed. -/
  holds : ∀ tag hash m, sw'.Holds grace tag hash m →
    sw.Holds grace tag hash m ∨ b.live (tag, hash) = some m
  started : ∀ now, sw'.started = some now → sw.started = some now
  due : (∀ plan tag hash m, sw.due = some (plan, tag, hash, m) → grace ≤ plan.now - m) →
    ∀ plan tag hash m, sw'.due = some (plan, tag, hash, m) → grace ≤ plan.now - m
  unlinks : ∀ tag hash, sw'.unlinks = some (tag, hash) → hash ∉ liveHashSet db tag

theorem Store.staging_deleteStagingIfStale {db : Store} {key : Key} {sid : String} {before : ℤ}
    {k : Key × String} {r : StagingRow}
    (h : (db.deleteStagingIfStale key sid before).1.staging k = some r) :
    db.staging k = some r := by
  unfold deleteStagingIfStale at h
  split at h
  · exact h
  · split_ifs at h
    · rw [deleteStaging, erase_apply] at h
      split_ifs at h
      exact h
    · exact h

theorem Store.live_deleteStagingIfStale (db : Store) (key : Key) (sid : String) (before : ℤ) :
    (db.deleteStagingIfStale key sid before).1.live = db.live := by
  unfold deleteStagingIfStale
  split
  · rfl
  · split_ifs <;> rfl

theorem BlobStore.staging_unlinkStaging {b : BlobStore} {tag sid : String}
    {k : String × String} {f : StagedBlob} (h : (b.unlinkStaging tag sid).staging k = some f) :
    b.staging k = some f := by
  rw [unlinkStaging, erase_apply] at h
  split_ifs at h
  exact h

section SweepPerform

variable {grace : ℤ} {db db' : Store} {b b' : BlobStore} {l : Listing} {applied : Bool}
  {sw sw' : Sweep}

/-- A sweep past its first pass holds nothing. -/
theorem SweepStep.late (hlive : db'.live = db.live)
    (hrows : ∀ k r, db'.staging k = some r → db.staging k = some r)
    (hstaged : ∀ k f, b'.staging k = some f → b.staging k = some f) (hblobs : b'.live = b.live)
    (hholds : ∀ tag hash m, ¬sw'.Holds grace tag hash m) (hstarted : sw'.started = none)
    (hdue : sw'.due = none) (hunlinks : sw'.unlinks = none) :
    SweepStep grace db b sw db' b' sw' where
  live := hlive
  rows := hrows
  staged := hstaged
  blobs := .inl hblobs
  holds tag hash m h := absurd h (hholds tag hash m)
  started now h := by rw [hstarted] at h; cases h
  due _ plan tag hash m h := by rw [hdue] at h; cases h
  unlinks tag hash h := by rw [hunlinks] at h; cases h

/-- The stages after the first pass. -/
def Sweep.Late (sw : Sweep) : Prop :=
  (∀ grace tag hash m, ¬sw.Holds grace tag hash m) ∧ sw.started = none ∧ sw.due = none ∧
    sw.unlinks = none

theorem Sweep.late_orphans (tags : List String) : (orphans tags).Late := by
  unfold orphans
  split <;> exact ⟨fun _ _ _ _ => id, rfl, rfl, rfl⟩

theorem Sweep.late_orphanIds (tag : String) (tags ids : List String) :
    (orphanIds tag tags ids).Late := by
  unfold orphanIds
  split
  · exact ⟨fun _ _ _ _ => id, rfl, rfl, rfl⟩
  · exact late_orphans tags

theorem Sweep.late_stale (now : ℤ) (topLevel : List String) (rows : List (Key × String)) :
    (stale now topLevel rows).Late := by
  unfold stale
  split
  · exact ⟨fun _ _ _ _ => id, rfl, rfl, rfl⟩
  · exact late_orphans topLevel

variable {plan : Plan}

section

variable (hstarted : sw.started = some plan.now)
include hstarted

/-- An await that reads and goes on to the rest of a round. -/
theorem SweepStep.to_next : SweepStep grace db b sw db b (.next plan) where
  live := rfl
  rows _ _ h := h
  staged _ _ h := h
  blobs := .inl rfl
  holds _ _ _ h := absurd h next_holds
  started _ h := by rw [next_started h, hstarted]
  due _ _ _ _ _ h := by rw [next_due] at h; cases h
  unlinks _ _ h := by rw [next_unlinks] at h; cases h

variable {blobs : List (String × ℤ)}

/-- An await that goes on with the scan of a listing. -/
theorem SweepStep.to_scan {tag : String} {referenced : Finset String}
    (hstaged : ∀ k f, b'.staging k = some f → b.staging k = some f) (hblobs : b'.live = b.live ∨
      ∃ tag hash, sw.unlinks = some (tag, hash) ∧ b'.live = b.live.erase (tag, hash))
    (hholds : ∀ hash m, (hash, m) ∈ blobs → hash ∉ referenced → grace ≤ plan.now - m →
      sw.Holds grace tag hash m) :
    SweepStep grace db b sw db b' (.scan grace plan tag referenced blobs) where
  live := rfl
  rows _ _ h := h
  staged := hstaged
  blobs := hblobs
  holds tag' hash m h := by
    obtain ⟨rfl, ⟨hmem, hnot⟩, hage⟩ := scan_holds h
    exact .inl (hholds hash m hmem hnot hage)
  started _ h := by rw [scan_started h, hstarted]
  due _ _ _ _ _ h := scan_due h
  unlinks _ _ h := by rw [scan_unlinks] at h; cases h

/-- An await that goes on with the listing of a workspace. -/
theorem SweepStep.to_listing {tag : String} {names : List String}
    (hholds : ∀ hash m, (hash, m) ∈ blobs → grace ≤ plan.now - m →
      sw.Holds grace tag hash m ∨ b.live (tag, hash) = some m) :
    SweepStep grace db b sw db b (.listing plan tag blobs names) where
  live := rfl
  rows _ _ h := h
  staged _ _ h := h
  blobs := .inl rfl
  holds tag' hash m h := by
    obtain ⟨rfl, hmem, hage⟩ := listing_holds h
    exact hholds hash m hmem hage
  started _ h := by rw [listing_started h, hstarted]
  due _ _ _ _ _ h := by rw [listing_due] at h; cases h
  unlinks _ _ h := by rw [listing_unlinks] at h; cases h

end

theorem sweep_perform_step (h : sw.perform grace db b l applied = some (db', b', sw')) :
    SweepStep grace db b sw db' b' sw' := by
  have late : ∀ {db' b' sw'}, Sweep.Late sw' → db'.live = db.live →
      (∀ k r, db'.staging k = some r → db.staging k = some r) →
      (∀ k f, b'.staging k = some f → b.staging k = some f) → b'.live = b.live →
      SweepStep grace db b sw db' b' sw' := fun hl h₁ h₂ h₃ h₄ =>
    .late h₁ h₂ h₃ h₄ (hl.1 grace) hl.2.1 hl.2.2.1 hl.2.2.2
  cases sw with
  | listLiveTags now =>
    simp only [Sweep.perform] at h
    split_ifs at h
    cases h
    exact .to_next rfl
  | readLiveBlobs plan tag =>
    simp only [Sweep.perform] at h
    split_ifs at h
    cases h
    exact .to_listing rfl fun _ _ hmem => absurd hmem (not_mem_nil)
  | statLiveBlob plan tag name names blobs =>
    simp only [Sweep.perform] at h
    split at h
    · cases h
      exact .to_listing rfl fun _ _ hmem hage => .inl ⟨rfl, hmem, hage⟩
    · rename_i modified hblob
      cases h
      refine .to_listing rfl fun hash m hmem hage => ?_
      rcases mem_append.mp hmem with hmem | hmem
      · exact .inl ⟨rfl, hmem, hage⟩
      · rw [mem_singleton] at hmem
        cases hmem
        exact .inr hblob
  | liveHashSet plan tag blobs =>
    cases h
    exact .to_scan rfl (fun _ _ h => h) (.inl rfl) fun _ _ hmem _ hage => ⟨rfl, hmem, hage⟩
  | recheck plan tag referenced hash modified blobs =>
    simp only [Sweep.perform] at h
    split_ifs at h with href
    · cases h
      exact .to_scan rfl (fun _ _ h => h) (.inl rfl)
        fun _ _ hmem hnot hage => ⟨rfl, .inr ⟨hmem, hnot⟩, hage⟩
    · cases h
      refine ⟨rfl, fun _ _ h => h, fun _ _ h => h, .inl rfl, fun _ _ _ h => .inl h,
        fun _ h => h, fun hdue => hdue, fun tag' hash' h => ?_⟩
      cases h
      exact href
  | unlinkLive plan tag referenced hash modified blobs =>
    cases h
    refine .to_scan rfl (fun k f hf => ?_) ?_
      fun _ _ hmem hnot hage => ⟨rfl, .inr ⟨hmem, hnot⟩, hage⟩
    · split_ifs at hf <;> exact hf
    · split_ifs
      · exact .inr ⟨tag, hash, rfl, rfl⟩
      · exact .inl rfl
  | listWorkspaceTags plan =>
    cases h
    exact .to_next rfl
  | listAllStaging now topLevel =>
    simp only [Sweep.perform] at h
    split_ifs at h
    cases h
    exact late (late_stale ..) rfl (fun _ _ h => h) (fun _ _ h => h) rfl
  | deleteStagingIfStale now topLevel row rows =>
    cases h
    refine late ?_ (db.live_deleteStagingIfStale ..)
      (fun _ _ => staging_deleteStagingIfStale) (fun _ _ h => h) rfl
    split_ifs
    · exact ⟨fun _ _ _ _ => id, rfl, rfl, rfl⟩
    · exact late_stale ..
  | unlinkStale now topLevel row rows =>
    cases h
    refine late (late_stale ..) rfl (fun _ _ h => h) (fun k f hf => ?_) ?_
    · split_ifs at hf
      · exact BlobStore.staging_unlinkStaging hf
      · exact hf
    · split_ifs <;> rfl
  | listStagingIds tag tags =>
    simp only [Sweep.perform] at h
    split_ifs at h
    cases h
    exact late (late_orphanIds ..) rfl (fun _ _ h => h) (fun _ _ h => h) rfl
  | selectStagingByWsSid tag stagingId ids tags =>
    cases h
    refine late ?_ rfl (fun _ _ h => h) (fun _ _ h => h) rfl
    split_ifs
    · exact late_orphanIds ..
    · exact ⟨fun _ _ _ _ => id, rfl, rfl, rfl⟩
  | unlinkOrphan tag stagingId ids tags =>
    cases h
    refine late (late_orphanIds ..) rfl (fun _ _ h => h) (fun k f hf => ?_) ?_
    · split_ifs at hf
      · exact BlobStore.staging_unlinkStaging hf
      · exact hf
    · split_ifs <;> rfl
  | idle | done | failed => cases h

end SweepPerform

end Triage.Objstore
