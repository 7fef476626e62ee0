import Triage.Npm.PatchHunks
import Triage.Npm.PatchPaths

/-!
# A diff as it is read

The diff of two trees is read file by file: of each its headers, the paths of its sides and its
hunks. What is read of a file is its change, its paths as they are read; a file whose paths are no
paths then is not read, nor is the diff.

## Main results

* `readHeaders_file`, `readSides_file` : what a file's headers and sides say.
* `parseLines_file` : a file that is written is read as its change.
* `parsePatch_text` : **a diff is read as its files' changes**, or not at all.
-/

namespace Triage.NpmPatch

open Streams List Change FileDiff

/-! ### Headers -/

theorem header_concat (s : Text) (c : Char) :
    header (s ++ [c]) = if c = '\r' then s else s ++ [c] := by
  rw [header, getLast?_concat, dropLast_concat]
  simp only [Option.some.injEq]

/-- A header's CR is in what comes after its words. -/
theorem header_append {pre : Text} (hpre : pre.getLast? = some ' ') (s : Text) :
    header (pre ++ s) = pre ++ header s := by
  rcases eq_nil_or_concat s with rfl | ⟨s, c, rfl⟩
  · rw [append_nil, header, hpre]
    exact (append_nil pre).symm
  · rw [concat_eq_append, ← append_assoc, header_concat, header_concat]
    split
    · rfl
    · exact append_assoc ..

variable (quotePath : Bool)

theorem header_quote (path : Text) : header (quote quotePath path) = quote quotePath path := by
  by_cases hplain : path.all (isPlain quotePath) = true
  · rw [quote, if_pos hplain]
    refine if_neg fun hlast => ?_
    have hc := all_eq_true.mp hplain _ (mem_of_getLast? hlast)
    exact absurd (isPlain_ne hc).2.2 (by decide)
  · rw [quote, if_neg hplain, ← cons_append, header_concat]
    rfl

theorem header_sideName (pre : Text) (path : Option Text) :
    header (sideName quotePath pre path) = sideName quotePath pre path := by
  cases path with
  | none => rfl
  | some path =>
    rw [sideName]
    split
    · rw [header_concat]
      rfl
    · rw [append_nil, header_quote]

/-- Git's other headers say nothing of what the change is. -/
theorem readHeaders_infos {lines : List Text}
    (hinfos : ∀ line ∈ lines, ∃ pre ∈ infos, startsWith pre line = true) (h : Headers)
    (rest : List Text) : readHeaders h (lines ++ rest) = readHeaders h rest := by
  induction lines with
  | nil => rfl
  | cons line lines ih =>
    obtain ⟨pre, hpre, hstart⟩ := hinfos line mem_cons_self
    obtain ⟨s, rfl⟩ := startsWith_iff.mp hstart
    have hline : isBoundary (pre ++ s) = false ∧ readHeader h (header (pre ++ s)) = .ok h := by
      simp only [infos, mem_cons, not_mem_nil, or_false] at hpre
      rcases hpre with rfl | rfl | rfl | rfl | rfl
      all_goals
        rw [header_append (by decide)]
        exact ⟨rfl, rfl⟩
    rw [cons_append, readHeaders, hline.1, hline.2]
    exact ih fun l hl => hinfos l (mem_cons_of_mem _ hl)

/-- What a file's headers say of its change. -/
def Change.headersRead (quotePath : Bool) : Change → Headers
  | .created .. => { created := true }
  | .deleted .. => { deleted := true }
  | .changed .. => {}
  | .renamed source target _ =>
    { source := some (pathRead quotePath source), target := some (pathRead quotePath target) }

theorem readHeaders_headers (c : Change) (rest : List Text) :
    readHeaders {} (c.headers quotePath ++ rest) = readHeaders (c.headersRead quotePath) rest := by
  have hnew : ∀ mode, header ("new file mode ".toList ++ mode) =
    "new file mode ".toList ++ header mode := header_append (by decide)
  have hdeleted : ∀ mode, header ("deleted file mode ".toList ++ mode) =
    "deleted file mode ".toList ++ header mode := header_append (by decide)
  have hfrom : ∀ path, header ("rename from ".toList ++ path) =
    "rename from ".toList ++ header path := header_append (by decide)
  have hto : ∀ path, header ("rename to ".toList ++ path) =
    "rename to ".toList ++ header path := header_append (by decide)
  cases c with
  | created path mode lines unended =>
    show readHeaders {} (("new file mode ".toList ++ mode) :: rest) = _
    rw [readHeaders, hnew]
    rfl
  | deleted path mode lines unended shown =>
    show readHeaders {} (("deleted file mode ".toList ++ mode) :: rest) = _
    rw [readHeaders, hdeleted]
    rfl
  | changed path edit => rfl
  | renamed source target edit =>
    have hsource : readHeader {} ("rename from ".toList ++ quote quotePath source) =
        .ok { source := some (pathRead quotePath source) } := by
      rw [← unquoted_quote]
      rfl
    have htarget : readHeader { source := some (pathRead quotePath source) }
        ("rename to ".toList ++ quote quotePath target) =
          .ok { source := some (pathRead quotePath source),
                target := some (pathRead quotePath target) } := by
      rw [← unquoted_quote quotePath target]
      rfl
    show readHeaders {} (("rename from ".toList ++ quote quotePath source) ::
      ("rename to ".toList ++ quote quotePath target) :: rest) = _
    rw [readHeaders, hfrom, header_quote, hsource]
    show readHeaders _ (("rename to ".toList ++ quote quotePath target) :: rest) = _
    rw [readHeaders, hto, header_quote, htarget]
    rfl

/-- What comes after a file's headers. -/
def Stops (rest : List Text) : Prop := ∀ line ∈ rest.head?, isBoundary line = true

variable {d : FileDiff} {c : Change}

/-- **What a file's headers say**, up to what comes after them. -/
theorem readHeaders_file
    (hinfos : ∀ line ∈ d.above ++ d.below, ∃ pre ∈ infos, startsWith pre line = true)
    {rest : List Text} (hrest : Stops rest) :
    readHeaders {} (d.above ++ (d.change.headers quotePath ++ (d.below ++ rest))) =
      .ok (d.change.headersRead quotePath, rest) := by
  rw [readHeaders_infos fun l hl => hinfos l (mem_append_left _ hl), readHeaders_headers,
    readHeaders_infos fun l hl => hinfos l (mem_append_right _ hl)]
  cases rest with
  | nil => rfl
  | cons line rest => rw [readHeaders, if_pos (hrest line rfl)]

/-! ### Sides -/

/-- What a file's sides say, if they are written. -/
def Change.sidesRead (quotePath : Bool) (c : Change) : Option (Option Text × Option Text) :=
  if c.hunks = [] then none
  else some (c.source.map (sideRead quotePath), c.target.map (sideRead quotePath))

theorem readSides_cons (before now : Text) (rest : List Text) :
    readSides (("--- ".toList ++ before) :: ("+++ ".toList ++ now) :: rest) =
      (sidePath ((header ("--- ".toList ++ before)).drop 4) ['a', '/']).bind fun a =>
        (sidePath ((header ("+++ ".toList ++ now)).drop 4) ['b', '/']).map fun b =>
          (some (a, b), rest) := rfl

/-- **What a file's sides say.** -/
theorem readSides_file (c : Change) {rest : List Text} (hrest : IsNext rest) :
    readSides (c.sides quotePath ++ (hunksLines 0 0 c.hunks ++ rest)) =
      .ok (c.sidesRead quotePath, hunksLines 0 0 c.hunks ++ rest) := by
  by_cases hnil : c.hunks = []
  · rw [sides, if_pos hnil, sidesRead, if_pos hnil, hnil]
    show readSides rest = .ok (none, rest)
    cases rest with
    | nil => rfl
    | cons line rest =>
      obtain ⟨s, rfl⟩ := startsWith_iff.mp (hrest line rfl)
      rfl
  · have hold : sidePath ((header ("--- ".toList ++ sideName quotePath ['a', '/'] c.source)).drop 4)
        ['a', '/'] = .ok (c.source.map (sideRead quotePath)) := by
      rw [header_append (by decide), header_sideName]
      show sidePath (sideName quotePath ['a', '/'] c.source) ['a', '/'] = _
      cases c.source with
      | none => rfl
      | some path => exact sidePath_sideName isPrefixLetter_a quotePath path
    have hnew : sidePath ((header ("+++ ".toList ++ sideName quotePath ['b', '/'] c.target)).drop 4)
        ['b', '/'] = .ok (c.target.map (sideRead quotePath)) := by
      rw [header_append (by decide), header_sideName]
      show sidePath (sideName quotePath ['b', '/'] c.target) ['b', '/'] = _
      cases c.target with
      | none => rfl
      | some path => exact sidePath_sideName isPrefixLetter_b quotePath path
    rw [sides, if_neg hnil, sidesRead, if_neg hnil, cons_append,
      cons_append, readSides_cons, hold, hnew]
    rfl

/-! ### Files -/

/-- A path of a change as it is read. -/
def Change.readOf (quotePath : Bool) : Change → Text → Text
  | .renamed .. => pathRead quotePath
  | _ => sideRead quotePath

/-- A change as it is read. -/
def Change.read (quotePath : Bool) : Change → PatchedFile
  | c@(.created path ..) =>
    { path := sideRead quotePath path, created := true, hunks := readAs 0 c.hunks }
  | .deleted path .. => { path := sideRead quotePath path, deleted := true }
  | c@(.changed path _) => { path := sideRead quotePath path, hunks := readAs 0 c.hunks }
  | c@(.renamed source target _) =>
    { path := pathRead quotePath target, source := some (pathRead quotePath source),
      hunks := readAs 0 c.hunks }

/-- A change is read where the paths that are read of it are paths. -/
def Change.readFile (quotePath : Bool) (c : Change) : Except PatchError PatchedFile :=
  if (c.touched.map (c.readOf quotePath)).all isPatchPath then .ok (c.read quotePath)
  else .error .unreadable

/-- The path that a file's first line names, of a file that is not renamed. -/
theorem gitPath_gitLine {path : Text} (hpath : c.touched = [path]) :
    ∃ named, c.gitLine quotePath = "diff --git ".toList ++ named ∧ header named = named ∧
      gitPath named = some (sideRead quotePath path) := by
  refine ⟨quote quotePath ('a' :: '/' :: path) ++ ' ' :: quote quotePath ('b' :: '/' :: path),
    ?_, ?_, gitPath_line quotePath path⟩
  · cases c <;> cases hpath <;> rfl
  · have hsplit : quote quotePath ('a' :: '/' :: path) ++
          ' ' :: quote quotePath ('b' :: '/' :: path) =
        (quote quotePath ('a' :: '/' :: path) ++ [' ']) ++
          quote quotePath ('b' :: '/' :: path) := by
      simp
    rw [hsplit, header_append (by simp), header_quote]

/-- **A file is its change as it is read**, by its headers, its sides and its hunks. -/
theorem patchedFile_read {quotePath : Bool} {named : Option Text}
    (hnamed : ∀ path, c.touched = [path] → named = some (sideRead quotePath path)) :
    patchedFile named (c.headersRead quotePath) (c.sidesRead quotePath) (readAs 0 c.hunks) =
      c.readFile quotePath := by
  cases c with
  | created path mode lines unended =>
    have hnamed := hnamed path rfl
    by_cases hnil : (created path mode lines unended).hunks = []
    all_goals
      cases hpath : isPatchPath (sideRead quotePath path) <;>
        simp [patchedFile, headersRead, sidesRead, readFile, touched,
          Change.readOf, Change.read, Change.source, Change.target, hnil, hnamed, hpath]
  | deleted path mode lines unended shown =>
    have hnamed := hnamed path rfl
    by_cases hnil : (deleted path mode lines unended shown).hunks = []
    all_goals
      cases hpath : isPatchPath (sideRead quotePath path) <;>
        simp [patchedFile, headersRead, sidesRead, readFile, touched,
          Change.readOf, Change.read, Change.source, Change.target, hnil, hnamed, hpath]
  | changed path edit =>
    have hnamed := hnamed path rfl
    by_cases hnil : (changed path edit).hunks = []
    all_goals
      cases hpath : isPatchPath (sideRead quotePath path) <;>
        simp [patchedFile, headersRead, sidesRead, readFile, touched,
          Change.readOf, Change.read, Change.source, Change.target, hnil, hnamed, hpath]
  | renamed source target edit =>
    cases hsource : isPatchPath (pathRead quotePath source) <;>
      cases htarget : isPatchPath (pathRead quotePath target) <;>
        simp [patchedFile, headersRead, readFile, touched, readOf, Change.read, hsource, htarget]

/-- A file's hunks are read only where its paths are right. -/
theorem patchedFile_bind {β : Type*} (named : Option Text) (h : Headers)
    (sides : Option (Option Text × Option Text)) (hunks : List PatchHunk)
    (next : PatchedFile → Except PatchError β) :
    ((patchedFile named h sides []).bind fun _ => (patchedFile named h sides hunks).bind next) =
      (patchedFile named h sides hunks).bind next := by
  cases sides
  all_goals
    unfold patchedFile
    dsimp only
    split
    · rfl
    · split
      · rfl
      · split <;> rfl

theorem length_hunksLines (before after : ℕ) (hunks : List ShownHunk) :
    hunks.length ≤ (hunksLines before after hunks).length := by
  induction hunks generalizing before after with
  | nil => exact le_refl 0
  | cons h hunks ih =>
    have ih := ih (before + h.gap.length + (sideLines (olds h.parts)).length)
      (after + h.gap.length + (sideLines (news h.parts)).length)
    rw [hunksLines, hunkLines, length_append, length_cons, length_cons]
    omega

/-- The hunks that are shown are those of the change, or none. -/
theorem Change.hunks_eq (c : Change) : c.hunks = c.edit.hunks ∨ c.hunks = [] := by
  cases c with
  | created | changed | renamed => exact .inl rfl
  | deleted path mode lines unended shown =>
    cases shown
    · exact .inr rfl
    · exact .inl rfl

theorem FileDiff.IsGit.runs (hd : d.IsGit) :
    (∀ h ∈ d.change.hunks, (∀ part ∈ h.parts, part.lines ≠ []) ∧
      h.parts.IsChain fun a b => a.kind ≠ b.kind) ∧ AtFirst 0 d.change.hunks := by
  rcases d.change.hunks_eq with heq | hnil
  · rw [heq]
    refine ⟨fun h hh => ⟨fun part hpart => ?_, (hd.edit.runs h hh).2.1⟩, hd.edit.atFirst⟩
    exact (hd.edit.lines part (mem_append_left _ (mem_flatMap.mpr
      ⟨h, hh, mem_append_right _ hpart⟩))).1
  · rw [hnil]
    exact ⟨fun h hh => absurd hh not_mem_nil, .inl fun h hh => absurd hh not_mem_nil⟩

theorem gitLine_eq (c : Change) : ∃ named, c.gitLine quotePath = "diff --git ".toList ++ named := by
  cases c <;> exact ⟨_, rfl⟩

theorem stops_sides (c : Change) {rest : List Text} (hrest : IsNext rest) :
    Stops (c.sides quotePath ++ (hunksLines 0 0 c.hunks ++ rest)) := by
  by_cases hnil : c.hunks = []
  · rw [sides, if_pos hnil, hnil]
    intro line hline
    obtain ⟨s, rfl⟩ := startsWith_iff.mp (hrest line hline)
    rfl
  · rw [sides, if_neg hnil]
    rintro line ⟨⟩
    rfl

/-- **A file that is written is read as its change**, and then what comes after it. -/
theorem parseLines_file (hd : d.IsGit) (quotePath : Bool) {rest : List Text}
    (hrest : IsNext rest) (fuel : ℕ) :
    parseLines (fuel + 1) (d.lines quotePath ++ rest) =
      (d.change.readFile quotePath).bind fun file => (parseLines fuel rest).map (file :: ·) := by
  obtain ⟨named, hline⟩ := gitLine_eq quotePath d.change
  have hlines : d.lines quotePath ++ rest = ("diff --git ".toList ++ named) ::
      (d.above ++ (d.change.headers quotePath ++ (d.below ++
        (d.change.sides quotePath ++ (hunksLines 0 0 d.change.hunks ++ rest))))) := by
    rw [lines, hline]
    simp only [cons_append, append_assoc]
  have hhead : header ("diff --git ".toList ++ named) = "diff --git ".toList ++ header named :=
    header_append (by decide) named
  have hstart : startsWith "diff --git ".toList ("diff --git ".toList ++ header named) = true := rfl
  have hnamed : ∀ path, d.change.touched = [path] →
      gitPath (header named) = some (sideRead quotePath path) := by
    intro path hpath
    obtain ⟨named', hline', hheader, hgit⟩ := gitPath_gitLine quotePath hpath
    have hsame : named = named' := append_cancel_left (hline.symm.trans hline')
    rw [hsame, hheader, hgit]
  have hheaders := readHeaders_file quotePath (fun l hl => (hd.infos l hl).2)
    (stops_sides quotePath d.change hrest)
  have hsides := readSides_file quotePath d.change hrest
  have hlength : d.change.hunks.length ≤ (hunksLines 0 0 d.change.hunks ++ rest).length := by
    have hle := length_hunksLines 0 0 d.change.hunks
    rw [length_append]
    omega
  have hhunks := readHunks_hunksLines hd.runs.1 0 hd.runs.2 hrest hlength
  rw [hlines, parseLines, hhead, if_pos hstart, hheaders]
  show ((readSides _).bind _) = _
  rw [hsides]
  show ((patchedFile (gitPath (header named)) _ _ []).bind fun _ => (readHunks _ _).bind _) = _
  rw [hhunks, ← patchedFile_read hnamed]
  exact patchedFile_bind _ _ _ _ fun file => (parseLines fuel rest).map (file :: ·)

theorem isNext_lines (ds : List FileDiff) : IsNext (ds.flatMap (lines quotePath)) := by
  cases ds with
  | nil => exact fun line hline => nomatch hline
  | cons d ds =>
    rintro line ⟨⟩
    obtain ⟨named, hline⟩ := gitLine_eq quotePath d.change
    rw [hline]
    rfl

theorem parseLines_files {ds : List FileDiff} (hds : ∀ d ∈ ds, d.IsGit) (quotePath : Bool)
    {fuel : ℕ} (hfuel : ds.length ≤ fuel) :
    parseLines fuel (ds.flatMap (lines quotePath)) =
      ds.mapM fun d => d.change.readFile quotePath := by
  induction ds generalizing fuel with
  | nil => cases fuel <;> rfl
  | cons d ds ih =>
    have hpos : fuel ≠ 0 := by
      rintro rfl
      exact absurd hfuel (by simp)
    obtain ⟨fuel, rfl⟩ := Nat.exists_eq_succ_of_ne_zero hpos
    rw [flatMap_cons, parseLines_file (hds d mem_cons_self) quotePath
      (isNext_lines quotePath ds), ih (fun e he => hds e (mem_cons_of_mem _ he))
      (Nat.le_of_succ_le_succ hfuel), mapM_cons]
    cases d.change.readFile quotePath with
    | error e => rfl
    | ok file =>
      show Except.map _ _ = Except.bind _ _
      cases ds.mapM fun d => d.change.readFile quotePath <;> rfl

/-! ### Text -/

theorem not_mem_quote (path : Text) : '\n' ∉ quote quotePath path := by
  have hchar : ∀ c, '\n' ∉ quoteChar quotePath c := by
    intro c hc
    rw [quoteChar] at hc
    split at hc
    · rename_i hplain
      rw [mem_singleton] at hc
      subst hc
      exact absurd (isPlain_ne hplain).2.2 (by decide)
    · cases hletter : letter c with
      | some e =>
        rw [hletter] at hc
        have he : '\n' = e := by simpa using hc
        subst he
        unfold letter at hletter
        split_ifs at hletter
        all_goals exact absurd (Option.some.inj hletter) (by decide)
      | none =>
        rw [hletter] at hc
        obtain ⟨b, -, hb⟩ := mem_flatMap.mp hc
        have hdigit : ∀ n < 8, '\n' ≠ digit n := by decide
        have hlt := b.toNat_lt
        simp only [octalText, mem_cons, not_mem_nil, or_false] at hb
        rcases hb with hb | hb | hb | hb
        · exact absurd hb (by decide)
        · exact hdigit _ (by omega) hb
        · exact hdigit _ (by omega) hb
        · exact hdigit _ (by omega) hb
  by_cases hplain : path.all (isPlain quotePath) = true
  · rw [quote, if_pos hplain]
    intro hc
    exact absurd (isPlain_ne (all_eq_true.mp hplain _ hc)).2.2 (by decide)
  · rw [quote, if_neg hplain]
    intro hc
    have hmem : '\n' ∈ path.flatMap (quoteChar quotePath) := by simpa using hc
    obtain ⟨c, -, hc⟩ := mem_flatMap.mp hmem
    exact hchar c hc

theorem not_mem_rangeText (before count : ℕ) : '\n' ∉ rangeText before count := by
  have hdecimal : ∀ n, '\n' ∉ decimal n := fun n hn =>
    absurd (Nat.isDigit_of_mem_toDigits (by decide) (by decide) hn) (by decide)
  intro hmem
  rw [rangeText] at hmem
  rcases mem_append.mp hmem with hmem | hmem
  · exact hdecimal _ hmem
  · split at hmem
    · cases hmem
    · rcases mem_cons.mp hmem with hcomma | hmem
      · exact absurd hcomma (by decide)
      · exact hdecimal _ hmem

theorem not_mem_hunksLines {hunks : List ShownHunk}
    (hhunks : ∀ h ∈ hunks, '\n' ∉ h.heading ∧ ∀ part ∈ h.parts, ∀ line ∈ part.lines, '\n' ∉ line)
    (before after : ℕ) : ∀ line ∈ hunksLines before after hunks, '\n' ∉ line := by
  induction hunks generalizing before after with
  | nil => exact fun line hline => nomatch hline
  | cons h hunks ih =>
    obtain ⟨hheading, hparts⟩ := hhunks h mem_cons_self
    intro line hline
    rw [hunksLines] at hline
    rcases mem_append.mp hline with hline | hline
    · rcases mem_cons.mp hline with rfl | hline
      · have hstart : '\n' ∉ "@@ -".toList := by decide
        have hrest : '\n' ∉ if h.heading = [] then [] else ' ' :: h.heading := by
          split
          · exact not_mem_nil
          · simpa using hheading
        simp [hunkHead, hrest, not_mem_rangeText]
      · obtain ⟨part, hpart, hline⟩ := mem_flatMap.mp hline
        rcases mem_append.mp hline with hline | hline
        · obtain ⟨line', hline', rfl⟩ := mem_map.mp hline
          have hsign : '\n' ≠ sign part.kind := by cases part.kind <;> decide
          exact not_mem_cons_of_ne_of_not_mem hsign (hparts part hpart line' hline')
        · split at hline
          · rw [mem_singleton] at hline
            subst hline
            decide
          · cases hline
    · exact ih (fun g hg => hhunks g (mem_cons_of_mem _ hg)) _ _ line hline

theorem not_mem_sideName (pre : Text) (path : Option Text) :
    '\n' ∉ sideName quotePath pre path := by
  cases path with
  | none => exact show '\n' ∉ devNull by decide
  | some path =>
    have hquote := not_mem_quote quotePath (pre ++ path)
    rw [sideName]
    split <;> simp [hquote]

/-- No line that is written of a file is two. -/
theorem FileDiff.IsGit.not_mem (hd : d.IsGit) (quotePath : Bool) :
    ∀ line ∈ d.lines quotePath, '\n' ∉ line := by
  have hquote := not_mem_quote quotePath
  have hgit : ∀ a b, '\n' ∉ gitLine.line quotePath a b := by
    intro a b hmem
    rcases mem_append.mp hmem with hmem | hmem
    · exact absurd hmem (by decide)
    · rcases mem_append.mp hmem with hmem | hmem
      · exact hquote _ hmem
      · rcases mem_cons.mp hmem with hspace | hmem
        · exact absurd hspace (by decide)
        · exact hquote _ hmem
  have hheaders : ∀ line ∈ d.change.headers quotePath, '\n' ∉ line := by
    have hmode := hd.mode
    cases hc : d.change with
    | created | deleted =>
      rw [hc] at hmode
      simpa [Change.headers, Change.mode] using hmode
    | changed => simp [headers]
    | renamed => simp [headers, hquote]
  have hsides : ∀ line ∈ d.change.sides quotePath, '\n' ∉ line := by
    rw [sides]
    split
    · simp
    · simp [not_mem_sideName]
  have hhunks : ∀ line ∈ hunksLines 0 0 d.change.hunks, '\n' ∉ line := by
    rcases d.change.hunks_eq with heq | hnil
    · rw [heq]
      refine not_mem_hunksLines (fun h hh => ⟨(hd.edit.runs h hh).2.2, fun part hpart => ?_⟩) 0 0
      exact (hd.edit.lines part (mem_append_left _ (mem_flatMap.mpr
        ⟨h, hh, mem_append_right _ hpart⟩))).2
    · rw [hnil]
      exact fun line hline => nomatch hline
  intro line hline
  simp only [lines, mem_cons, mem_append] at hline
  rcases hline with rfl | hline | hline | hline | hline | hline
  · cases d.change <;> exact hgit _ _
  · exact (hd.infos line (mem_append_left _ hline)).1
  · exact hheaders line hline
  · exact (hd.infos line (mem_append_right _ hline)).1
  · exact hsides line hline
  · exact hhunks line hline

theorem patchLines_ended {lines : List Text} (hne : lines ≠ [])
    (hlines : ∀ line ∈ lines, '\n' ∉ line) : patchLines (ended lines) = lines := by
  have hsplit : (ended lines).splitOn '\n' = lines ++ [[]] := by
    have hsplit := splitLines_ended hlines []
    rw [append_nil] at hsplit
    exact hsplit
  have hlast : (ended lines).getLast? = some '\n' := by
    rw [← dropLast_append_getLast hne, ended_append]
    have hend : ended [lines.getLast hne] = lines.getLast hne ++ ['\n'] := by simp [ended]
    rw [hend, ← append_assoc, getLast?_concat]
  rw [patchLines, hsplit, if_pos hlast, dropLast_concat]

/-- **A diff is read as its files' changes**, each with its paths as they are read, or not at
all. -/
theorem parsePatch_text {t : TreeDiff} (ht : ∀ d ∈ t.files, d.IsGit) (quotePath : Bool) :
    parsePatch (t.text quotePath) = t.files.mapM fun d => d.change.readFile quotePath := by
  cases hfiles : t.files with
  | nil =>
    rw [TreeDiff.text, hfiles]
    rfl
  | cons d ds =>
    rw [hfiles] at ht
    have hne : (d :: ds).flatMap (lines quotePath) ≠ [] := by
      rw [flatMap_cons]
      exact cons_ne_nil _ _
    have hlines : ∀ line ∈ (d :: ds).flatMap (lines quotePath), '\n' ∉ line := by
      intro line hline
      obtain ⟨e, he, hline⟩ := mem_flatMap.mp hline
      exact (ht e he).not_mem quotePath line hline
    have hlength : ∀ es : List FileDiff, es.length ≤ (es.flatMap (lines quotePath)).length := by
      intro es
      induction es with
      | nil => exact le_refl 0
      | cons e es ih =>
        rw [flatMap_cons, length_append, lines, length_cons, length_cons]
        omega
    rw [TreeDiff.text, hfiles, parsePatch, patchLines_ended hne hlines,
      parseLines_files ht quotePath (hlength _)]

end Triage.NpmPatch
