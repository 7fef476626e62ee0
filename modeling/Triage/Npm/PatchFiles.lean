import Triage.Npm.PatchRead

/-!
# A patch applied to files

What a patch's file does to the files there are, by what is at each path before and after. A change
that git shows, its paths read as themselves, makes of what it touches what it is after; and
whatever a file's change is, nothing changes at a path that is not read of it.

## Main results

* `nextBytes_readAs` : the bytes of a file that is changed.
* `patchFile_frame` : a file's change leaves what is at other paths.
* `patchFile_read` : **a change that is readable is made.**
-/

namespace Triage.NpmPatch

open Streams List Grouping Change Edit

/-! ### What is at a path -/

/-- Files by their paths. -/
def pairs (files : List NpmPackageFile) : ByPath := files.map fun f => (f.path, f.bytes)

theorem pairs_append (a b : List NpmPackageFile) : pairs (a ++ b) = pairs a ++ pairs b :=
  map_append

variable (files : List NpmPackageFile)

theorem keys_pairs : (pairs files).map Prod.fst = files.map (·.path) := by
  rw [pairs, map_map]
  rfl

section Get

variable {m : ByPath} {path : Text}

theorem get_set (other : Text) (bytes : List UInt8) :
    get path (set other bytes m) = if path = other then some bytes else get path m :=
  get_alter

theorem get_remove (other : Text) :
    get path (remove other m) = if path = other then none else get path m := by
  induction m with
  | nil => simp [remove, Grouping.get]
  | cons p m ih =>
    rw [remove] at ih ⊢
    by_cases hp : p.1 = other
    · rw [filter_cons_of_neg (by simpa using hp), ih, Grouping.get]
      by_cases hpath : path = other
      · rw [if_pos hpath, if_pos hpath]
      · rw [if_neg hpath, if_neg hpath, if_neg fun h => hpath (h.symm.trans hp)]
    · rw [filter_cons_of_pos (by simpa using hp), Grouping.get, ih, Grouping.get]
      by_cases hpath : p.1 = path
      · rw [if_pos hpath, if_pos hpath, if_neg fun h => hp (hpath.trans h)]
      · rw [if_neg hpath, if_neg hpath]

theorem nodup_set (h : (m.map Prod.fst).Nodup) (bytes : List UInt8) :
    ((set path bytes m).map Prod.fst).Nodup := nodup_keys_alter h

theorem nodup_remove (h : (m.map Prod.fst).Nodup) : ((remove path m).map Prod.fst).Nodup :=
  h.sublist (filter_sublist.map _)

end Get

theorem nodup_byPathOf : ((byPathOf files).map Prod.fst).Nodup := by
  induction files using reverseRecOn with
  | nil => exact nodup_nil
  | append_singleton files file ih =>
    rw [byPathOf, foldl_concat]
    exact nodup_set ih _

/-- Files are kept by their paths. -/
theorem get_byPathOf {files : List NpmPackageFile} (h : (files.map (·.path)).Nodup) (path : Text) :
    get path (byPathOf files) = get path (pairs files) := by
  induction files using reverseRecOn with
  | nil => rfl
  | append_singleton files file ih =>
    rw [map_append] at h
    have hfile : file.path ∉ files.map (·.path) := fun hmem =>
      (nodup_append.mp h).2.2 _ hmem _ (mem_singleton_self _) rfl
    have ih := ih (nodup_append.mp h).1
    rw [byPathOf, foldl_concat, ← byPathOf, get_set, pairs_append, get_append, ih]
    by_cases hpath : path = file.path
    · have hnone : Grouping.get path (pairs files) = none :=
        get_eq_none (by rw [keys_pairs, hpath]; exact hfile)
      rw [if_pos hpath, hnone, hpath]
      simp [pairs, Grouping.get]
    · rw [if_neg hpath]
      have hnone : get path (pairs [file]) = none := get_eq_none (by simpa [pairs] using hpath)
      rw [hnone, Option.or_none]

/-! ### A file's text -/

theorem zero_not_mem_encodeUtf8 {text : Text} (h : '\x00' ∉ text) : 0 ∉ encodeUtf8 text := by
  intro hmem
  obtain ⟨c, hc, hbyte⟩ := mem_flatMap.mp hmem
  have hvalue : c.val.toNat ≠ 0 := by
    intro h0
    have hchar : c = '\x00' := by
      apply Char.ext
      apply UInt32.toNat_inj.mp
      exact h0
    exact h (hchar ▸ hc)
  have hzero : ∀ n, n % 256 ≠ 0 → (0 : UInt8) ≠ UInt8.ofNat n := by
    intro n hn h0
    have := congrArg UInt8.toNat h0
    rw [UInt8.toNat_ofNat'] at this
    exact hn this.symm
  have hvalid : c.val.toNat < 0x110000 := by
    have := c.valid
    rcases this with h | h
    · exact lt_trans h (by decide)
    · exact h.2
  simp only [String.utf8EncodeChar] at hbyte
  split_ifs at hbyte with h₁ h₂ h₃
  all_goals simp only [mem_cons, not_mem_nil, or_false] at hbyte
  · exact hzero _ (by omega) hbyte
  · rcases hbyte with hbyte | hbyte
    all_goals exact hzero _ (by omega) hbyte
  · rcases hbyte with hbyte | hbyte | hbyte
    all_goals exact hzero _ (by omega) hbyte
  · rcases hbyte with hbyte | hbyte | hbyte | hbyte
    all_goals exact hzero _ (by omega) hbyte

theorem npmFileText_encode {text : Text} (h : '\x00' ∉ text) :
    npmFileText (encodeUtf8 text) = some text := by
  rw [npmFileText, if_neg (zero_not_mem_encodeUtf8 h), decodeUtf8_encode]
  rfl

theorem encodeUtf8_inj {a b : Text} (h : encodeUtf8 a = encodeUtf8 b) : a = b := by
  have hdecode := congrArg (decodeUtf8 true) h
  rw [decodeUtf8_encode, decodeUtf8_encode] at hdecode
  exact Option.some.inj hdecode

theorem ended_eq_joinLines {lines : List Text} (hne : lines ≠ []) :
    ended lines = joinLines lines ++ ['\n'] := by
  induction lines with
  | nil => exact absurd rfl hne
  | cons line lines ih =>
    cases lines with
    | nil => simp [ended, joinLines]
    | cons next lines =>
      have ih := ih (cons_ne_nil _ _)
      have hcons : ended (line :: next :: lines) = line ++ '\n' :: ended (next :: lines) := by
        simp [ended]
      have hjoin : joinLines (line :: next :: lines) =
          line ++ '\n' :: joinLines (next :: lines) := by
        simp [joinLines, intercalate_cons_cons]
      rw [hcons, ih, hjoin]
      simp

/-- What a file that is created holds is its text. -/
theorem createdText_readAs (lines : List Text) (unended : Bool) :
    createdText (readAs 0 (wholeEdit .insertion lines unended).hunks) =
      (wholeEdit .insertion lines unended).after := by
  by_cases hnil : lines = []
  · subst hnil
    rfl
  · have hparts : (wholeEdit .insertion lines unended).parts =
        [⟨.insertion, lines, unended⟩] := by
      simp [parts, wholeEdit, hnil, keptPart]
    have hafter : (wholeEdit .insertion lines unended).after =
        HunkPart.text ⟨.insertion, lines, unended⟩ := by
      rw [Edit.after, hparts]
      simp [news, sideText]
    have hcreated : createdText (readAs 0 (wholeEdit .insertion lines unended).hunks) =
        joinLines lines ++ if unended then [] else ['\n'] := by
      rw [wholeEdit, if_neg hnil]
      rfl
    rw [hcreated, hafter, HunkPart.text, ended_eq_joinLines hnil]
    cases unended
    · rfl
    · rw [if_pos rfl, if_pos rfl, dropLast_concat, append_nil]

/-- The bytes of a file that is changed. -/
def nextBytes (bytes : List UInt8) (hunks : List PatchHunk) : Except PatchError (List UInt8) :=
  if hunks = [] then .ok bytes
  else
    match npmFileText bytes with
    | none => .error .doesNotApply
    | some text => (applied text hunks).map encodeUtf8

/-- A file without hunks is as it was. -/
theorem Edit.after_eq_before {e : Edit} (h : e.hunks = []) : e.after = e.before := by
  have hparts : e.parts = keptPart e.rest e.unended := by
    rw [parts, h]
    rfl
  rw [after, before, hparts, keptPart]
  split <;> rfl

theorem readAs_eq_nil_iff {before : ℕ} {hunks : List ShownHunk} :
    readAs before hunks = [] ↔ hunks = [] := by
  cases hunks <;> simp [readAs]

theorem nextBytes_readAs {e : Edit} (he : e.IsGit) (hnul : '\x00' ∉ e.before) :
    nextBytes (encodeUtf8 e.before) (readAs 0 e.hunks) = .ok (encodeUtf8 e.after) := by
  by_cases hnil : e.hunks = []
  · rw [nextBytes, if_pos (readAs_eq_nil_iff.mpr hnil), after_eq_before hnil]
  · rw [nextBytes, if_neg (mt readAs_eq_nil_iff.mp hnil), npmFileText_encode hnul]
    show (applied e.before _).map _ = _
    rw [applied_before he]
    rfl

/-! ### A file's change as it is made -/

section PatchFile

variable {m : ByPath} {file : PatchedFile}

theorem patchFile_created (h : file.created = true) :
    patchFile m file = .ok (set file.path (encodeUtf8 (createdText file.hunks)) m) := if_pos h

theorem patchFile_none (h : ¬file.created = true)
    (hget : get (file.source.getD file.path) m = none) :
    patchFile m file = .error .doesNotApply := by
  rw [patchFile, if_neg h]
  simp only [hget]

theorem patchFile_some (h : ¬file.created = true) {bytes : List UInt8}
    (hget : get (file.source.getD file.path) m = some bytes) :
    patchFile m file =
      if file.deleted then .ok (remove (file.source.getD file.path) m)
      else (nextBytes bytes file.hunks).bind fun next =>
        if file.source.isSome then
          if (get file.path m).isSome then .error .doesNotApply
          else .ok (set file.path next (remove (file.source.getD file.path) m))
        else .ok (set file.path next m) := by
  rw [patchFile, if_neg h]
  simp only [hget]
  rfl

/-- **A patch changes nothing at a path that it does not read**, and keeps one file to a path. -/
theorem patchFile_frame {m' : ByPath} (h : patchFile m file = .ok m') :
    ((m.map Prod.fst).Nodup → (m'.map Prod.fst).Nodup) ∧
      ∀ path, path ≠ file.path → path ∉ file.source → get path m' = get path m := by
  have hsource : ∀ path, path ≠ file.path → path ∉ file.source →
      path ≠ file.source.getD file.path := by
    intro path hpath hsource heq
    cases hs : file.source with
    | none => exact hpath (by rw [heq, hs]; rfl)
    | some source => exact hsource (by rw [heq, hs]; rfl)
  by_cases hcreated : file.created = true
  · rw [patchFile_created hcreated] at h
    cases h
    exact ⟨fun hm => nodup_set hm _, fun path hpath _ => by rw [get_set, if_neg hpath]⟩
  · cases hget : get (file.source.getD file.path) m with
    | none =>
      rw [patchFile_none hcreated hget] at h
      cases h
    | some bytes =>
      rw [patchFile_some hcreated hget] at h
      split at h
      · cases h
        exact ⟨nodup_remove, fun path hpath hs => by
          rw [get_remove, if_neg (hsource path hpath hs)]⟩
      · cases hnext : nextBytes bytes file.hunks with
        | error e =>
          rw [hnext] at h
          cases h
        | ok next =>
          rw [hnext] at h
          change (if _ then if _ then _ else _ else _) = _ at h
          split at h
          · split at h
            · cases h
            · cases h
              exact ⟨fun hm => nodup_set (nodup_remove hm) _, fun path hpath hs => by
                rw [get_set, if_neg hpath, get_remove, if_neg (hsource path hpath hs)]⟩
          · cases h
            exact ⟨fun hm => nodup_set hm _, fun path hpath _ => by rw [get_set, if_neg hpath]⟩

end PatchFile

/-- A change is readable where its paths are read as themselves. -/
theorem readable_iff {quotePath : Bool} {c : Change} :
    c.Readable quotePath ↔ ∀ path ∈ c.touched, c.readOf quotePath path = path := by
  cases c with
  | created | deleted | changed =>
    exact forall₂_congr fun path _ => sideRead_eq_self_iff.symm
  | renamed => exact forall₂_congr fun path _ => pathRead_eq_self_iff.symm

theorem get_file (path other : Text) (text : Text) :
    get other (pairs (file (some path) text)) =
      if other = path then some (encodeUtf8 text) else none := by
  show (if path = other then some (encodeUtf8 text) else none) = _
  by_cases h : other = path
  · rw [if_pos h, if_pos h.symm]
  · rw [if_neg h, if_neg fun h' => h h'.symm]

/-- **A change that is readable is made**: what it touches becomes what it is after. -/
theorem patchFile_read {quotePath : Bool} {d : FileDiff} (hd : d.IsGit)
    (hread : d.change.Readable quotePath) (hnodup : d.change.touched.Nodup) {m : ByPath}
    (hm : ∀ path ∈ d.change.touched, get path m = get path (pairs d.change.before)) :
    ∃ m', patchFile m (d.change.read quotePath) = .ok m' ∧ ∀ path, get path m' =
      if path ∈ d.change.touched then get path (pairs d.change.after)
      else get path m := by
  have hnext := nextBytes_readAs hd.edit hd.noNul.1
  rw [readable_iff] at hread
  obtain ⟨c, above, below⟩ := d
  cases c with
  | created path mode lines unended =>
    have hpath : sideRead quotePath path = path := hread path (mem_singleton_self _)
    have hafter := createdText_readAs lines unended
    refine ⟨set path (encodeUtf8 (wholeEdit .insertion lines unended).after) m, ?_, fun other => ?_⟩
    · rw [Change.read, hpath, patchFile_created rfl, ← hafter]
      rfl
    · rw [get_set]
      show _ = if other ∈ [path] then get other (pairs (file (some path) _)) else _
      rw [get_file]
      by_cases hother : other = path <;> simp [hother, edit]
  | deleted path mode lines unended shown =>
    have hpath : sideRead quotePath path = path := hread path (mem_singleton_self _)
    have hbytes : get path m =
        some (encodeUtf8 (wholeEdit .deletion lines unended).before) := by
      rw [hm path (mem_singleton_self _)]
      exact (get_file path path _).trans (if_pos rfl)
    refine ⟨remove path m, ?_, fun other => ?_⟩
    · rw [Change.read, hpath]
      exact patchFile_some Bool.false_ne_true hbytes
    · rw [get_remove]
      by_cases hother : other = path <;> simp [hother, Change.touched, Change.after, Change.file,
        Change.target, pairs, Grouping.get]
  | changed path edit =>
    have hpath : sideRead quotePath path = path := hread path (mem_singleton_self _)
    have hbytes : get path m = some (encodeUtf8 edit.before) := by
      rw [hm path (mem_singleton_self _)]
      exact (get_file path path _).trans (if_pos rfl)
    refine ⟨set path (encodeUtf8 edit.after) m, ?_, fun other => ?_⟩
    · rw [Change.read, hpath]
      change nextBytes (encodeUtf8 edit.before) (readAs 0 edit.hunks) = _ at hnext
      refine Eq.trans (patchFile_some Bool.false_ne_true hbytes) ?_
      show (nextBytes (encodeUtf8 edit.before) (readAs 0 edit.hunks)).bind _ = _
      rw [hnext]
      rfl
    · rw [get_set]
      show _ = if other ∈ [path] then get other (pairs (file (some path) _)) else _
      rw [get_file]
      by_cases hother : other = path <;> simp [hother, Change.edit]
  | renamed source target edit =>
    have hsource : pathRead quotePath source = source := hread source mem_cons_self
    have htarget : pathRead quotePath target = target :=
      hread target (mem_cons_of_mem _ (mem_singleton_self _))
    have hne : target ≠ source := fun h => (nodup_cons.mp hnodup).1 (h ▸ mem_singleton_self _)
    have hbytes : get source m = some (encodeUtf8 edit.before) := by
      rw [hm source mem_cons_self]
      exact (get_file source source _).trans (if_pos rfl)
    have hfree : get target m = none := by
      rw [hm target (mem_cons_of_mem _ (mem_singleton_self _))]
      exact (get_file source target _).trans (if_neg hne)
    refine ⟨set target (encodeUtf8 edit.after) (remove source m), ?_, fun other => ?_⟩
    · rw [Change.read, hsource, htarget]
      change nextBytes (encodeUtf8 edit.before) (readAs 0 edit.hunks) = _ at hnext
      refine Eq.trans (patchFile_some Bool.false_ne_true hbytes) ?_
      show (nextBytes (encodeUtf8 edit.before) (readAs 0 edit.hunks)).bind _ = _
      rw [hnext]
      show (if (get target m).isSome then _ else _) = _
      rw [hfree]
      rfl
    · rw [get_set, get_remove]
      show _ = if other ∈ [source, target] then
        get other (pairs (file (some target) _)) else _
      rw [get_file]
      by_cases hother : other = target
      · simp [hother, Change.edit]
      · by_cases hother' : other = source <;> simp [hother, hother', hne.symm]

end Triage.NpmPatch
