import Triage.Data.PercentEncoding

/-!
# The files of the disk cache

Documents and tarballs of npm packages are kept in files under names made of their packages' names
and versions: capitals are marked, what a file name may not have is percent-encoded, and the names
of devices are escaped. Of such a name the file can be read back, whatever is made of its case.

## Main results

* `cache_paths` : two files have different paths, and each is a file of its directory.
-/

namespace Triage.UpstreamCache

open Utf16 Percent List Option

def isDigit (u : UInt16) : Bool := 0x30 ≤ u ∧ u ≤ 0x39

def isUpper (u : UInt16) : Bool := 0x41 ≤ u ∧ u ≤ 0x5A

/-- `[\dA-Za-z]` -/
def isAlphanumeric (u : UInt16) : Bool := isDigit u ∨ isUpper u ∨ (0x61 ≤ u ∧ u ≤ 0x7A)

/-- `[\w.-]` -/
def isNameChar (u : UInt16) : Bool := isAlphanumeric u ∨ u = 0x5F ∨ u = 0x2E ∨ u = 0x2D

/-- `PACKAGE_NAME`; a slash ends a scope. -/
def isNpmPackageName (value : Units) : Bool :=
  1 ≤ value.length && value.length ≤ 214 &&
    match value.splitOn 0x2F with
    | [name] => name.head?.any isAlphanumeric && name.all isNameChar
    | [scope, name] => scope.head? = some 0x40 && scope.tail ≠ [] && scope.tail.all isNameChar &&
        name.head?.any (fun u => isNameChar u && u ≠ 0x2E) && name.all isNameChar
    | _ => false

/-- `PACKAGE_SPEC` -/
def isNpmPackageSpec (value : Units) : Bool :=
  1 ≤ value.length ∧ value.length ≤ 256 ∧ value.head?.any isAlphanumeric ∧
    value.all fun u => isNameChar u ∨ u = 0x2B

/-- The files that are kept: the document of a package, or the tarball of a version of it. -/
def CacheFile (file : Units) : Prop :=
  (∃ name, isNpmPackageName name = true ∧ file = name ++ units ".json.gz") ∨
    ∃ name version, isNpmPackageName name = true ∧ isNpmPackageSpec version = true ∧
      file = name ++ 0x40 :: version ++ units ".tgz"

/-- `toLowerCase`, of ASCII. -/
def lower (u : UInt16) : UInt16 := if isUpper u then u + 0x20 else u

/-- A capital is written as a mark and the letter, and so is the mark. -/
def markCapital (u : UInt16) : Units := if u = 0x21 ∨ isUpper u then [0x21, lower u] else [u]

/-- `replaceAll` of an escape by a unit. -/
def replaceEscape (code : Units) (unit : UInt16) : Units → Units
  | a :: b :: c :: rest =>
    if [a, b, c] = code then unit :: replaceEscape code unit rest
    else a :: replaceEscape code unit (b :: c :: rest)
  | rest => rest

def deviceNames : List Units :=
  ["con", "prn", "aux", "nul"].map units ++
    (units "0123456789").flatMap fun d => [units "com" ++ [d], units "lpt" ++ [d]]

/-- The name of a device, before a dot or the end. -/
def isDeviceName (name : Units) : Bool := name.takeWhile (· ≠ 0x2E) ∈ deviceNames

/-- The first letter of a device's name is escaped. -/
def escapeDevice (name : Units) : Units :=
  if isDeviceName name then name.head?.elim [] (fun u => escape u.toNat) ++ name.tail else name

/-- The name a file is kept under. -/
def cacheName (file : Units) : Option Units :=
  (encodeURIComponent (file.flatMap markCapital)).map fun encoded =>
    escapeDevice (replaceEscape (units "%2F") 0x2B (replaceEscape (units "%40") 0x40 encoded))

/-- The path of a file, under a root and a directory that `join` leaves as they are. -/
def upstreamCachePath (root dir file : Units) : Option Units :=
  (cacheName file).map fun name => root ++ 0x2F :: dir ++ 0x2F :: name

/-! ### What a name is made of -/

/-- The characters of a kept file. -/
def isFileChar (u : UInt16) : Bool := isNameChar u ∨ u ∈ [0x40, 0x2F, 0x2B]

/-- What a character is encoded as. -/
def preCode (u : UInt16) : Units := (markCapital u).flatMap fun v => encodePoint v.toNat

/-- What it comes to. -/
def code (u : UInt16) : Units :=
  if isUpper u then [0x21, lower u]
  else if u = 0x2F then [0x2B]
  else if u = 0x2B then units "%2B"
  else [u]

variable {u : UInt16} {file rest : Units}

theorem toNat_fileChar (hu : isFileChar u = true) : u.toNat < 0x80 := by
  simp only [isFileChar, isNameChar, isAlphanumeric, isDigit, isUpper, mem_cons,
    not_mem_nil, or_false, Bool.decide_or, Bool.or_eq_true,
    decide_eq_true_eq, UInt16.le_iff_toNat_le, ← UInt16.toNat_inj, UInt16.reduceToNat] at hu
  omega

/-- What holds of the characters of files, looked up. -/
@[elab_as_elim] theorem fileChar_cases {P : UInt16 → Prop} {u : UInt16} (hu : isFileChar u = true)
    (h : ∀ n < 0x80, isFileChar (.ofNat n) = true → P (.ofNat n)) : P u := by
  have hofNat : UInt16.ofNat u.toNat = u := UInt16.ofNat_toNat
  rw [← hofNat]
  exact h u.toNat (toNat_fileChar hu) (hofNat.symm ▸ hu)

theorem preCode_eq (hu : isFileChar u = true) : preCode u =
    if u = 0x40 then units "%40" else if u = 0x2F then units "%2F" else code u :=
  fileChar_cases hu (by decide)

/-- The blocks of a name. -/
theorem code_cases (hu : isFileChar u = true) :
    (code u = [u] ∧ isUpper u = false ∧ u ≠ 0x21 ∧ u ≠ sign ∧ u ≠ 0x2B ∧ u ≠ 0x2F) ∨
      (u = 0x2F ∧ code u = [0x2B]) ∨ (u = 0x2B ∧ code u = units "%2B") ∨
      (isUpper u = true ∧ code u = [0x21, lower u] ∧ isUpper (lower u) = false ∧
        lower u ≠ sign ∧ lower u - 0x20 = u ∧ lower u ≠ 0x2F) := by
  have hplain : u ≠ 0x21 ∧ u ≠ sign := fileChar_cases hu (by decide)
  have hupper : isUpper u = true → isUpper (lower u) = false ∧ lower u ≠ sign ∧
      lower u - 0x20 = u ∧ lower u ≠ 0x2F := fileChar_cases hu (by decide)
  rw [code]
  by_cases hcapital : isUpper u = true
  · exact .inr (.inr (.inr ⟨hcapital, if_pos hcapital, hupper hcapital⟩))
  rw [if_neg hcapital]
  by_cases hslash : u = 0x2F
  · exact .inr (.inl ⟨hslash, if_pos hslash⟩)
  rw [if_neg hslash]
  by_cases hplus : u = 0x2B
  · exact .inr (.inr (.inl ⟨hplus, if_pos hplus⟩))
  · exact .inl ⟨if_neg hplus, Bool.eq_false_iff.2 hcapital, hplain.1, hplain.2, hplus, hslash⟩

/-! ### Replacing escapes -/

theorem replaceEscape_plain {h l unit : UInt16} (hu : u ≠ sign) :
    replaceEscape [sign, h, l] unit (u :: rest) = u :: replaceEscape [sign, h, l] unit rest := by
  match rest with
  | [] => rfl
  | [_] => rfl
  | b :: c :: rest => rw [replaceEscape, if_neg fun heq => hu (List.cons.inj heq).1]

theorem replaceEscape_hit (h l unit : UInt16) :
    replaceEscape [sign, h, l] unit (sign :: h :: l :: rest) =
      unit :: replaceEscape [sign, h, l] unit rest := by
  rw [replaceEscape, if_pos rfl]

theorem replaceEscape_miss {h l h' l' unit : UInt16} (hne : [h', l'] ≠ [h, l]) (hh : h' ≠ sign)
    (hl : l' ≠ sign) : replaceEscape [sign, h, l] unit (sign :: h' :: l' :: rest) =
      sign :: h' :: l' :: replaceEscape [sign, h, l] unit rest := by
  rw [replaceEscape, if_neg fun heq => hne (List.cons.inj heq).2, replaceEscape_plain hh,
    replaceEscape_plain hl]

/-- Both replacements, character by character. -/
theorem replace_flatMap (hfile : ∀ u ∈ file, isFileChar u = true) :
    replaceEscape (units "%2F") 0x2B
      (replaceEscape (units "%40") 0x40 (file.flatMap preCode)) = file.flatMap code := by
  have hat : units "%40" = [sign, 0x34, 0x30] := rfl
  have hslash : units "%2F" = [sign, 0x32, 0x46] := rfl
  have hplus : units "%2B" = [sign, 0x32, 0x42] := rfl
  induction file with
  | nil => rfl
  | cons u file ih =>
    obtain ⟨hu, hfile⟩ := forall_mem_cons.1 hfile
    have ih := ih hfile
    rw [hat, hslash] at ih ⊢
    rw [flatMap_cons, flatMap_cons, preCode_eq hu]
    by_cases hu40 : u = 0x40
    · subst hu40
      rw [if_pos rfl, hat]
      dsimp only [cons_append, nil_append]
      rw [replaceEscape_hit, replaceEscape_plain (by decide), ih]
      rfl
    by_cases hu2F : u = 0x2F
    · subst hu2F
      rw [if_neg hu40, if_pos rfl, hslash]
      dsimp only [cons_append, nil_append]
      rw [replaceEscape_miss (by decide) (by decide) (by decide), replaceEscape_hit, ih]
      rfl
    rw [if_neg hu40, if_neg hu2F]
    rcases code_cases hu with ⟨hcode, -, -, hsign, -⟩ | ⟨rfl, -⟩ | ⟨rfl, hcode⟩ |
      ⟨-, hcode, -, hsign, -⟩
    · rw [hcode]
      dsimp only [cons_append, nil_append]
      rw [replaceEscape_plain hsign, replaceEscape_plain hsign, ih]
    · exact absurd rfl hu2F
    · rw [hcode, hplus]
      dsimp only [cons_append, nil_append]
      rw [replaceEscape_miss (by decide) (by decide) (by decide),
        replaceEscape_miss (by decide) (by decide) (by decide), ih]
    · rw [hcode]
      dsimp only [cons_append, nil_append]
      rw [replaceEscape_plain (by decide), replaceEscape_plain hsign,
        replaceEscape_plain (by decide), replaceEscape_plain hsign, ih]

/-- **The name** of a file. -/
theorem cacheName_eq (hfile : ∀ u ∈ file, isFileChar u = true) :
    cacheName file = some (escapeDevice (file.flatMap code)) := by
  have hmarked : ∀ v ∈ file.flatMap markCapital, v.toNat < 0x80 := by
    intro v hv
    obtain ⟨u, hu, hv⟩ := mem_flatMap.1 hv
    have hall : (markCapital u).all (·.toNat < 0x80) = true :=
      fileChar_cases (hfile u hu) (by decide)
    exact of_decide_eq_true (List.all_eq_true.1 hall v hv)
  have hpoints : codePoints (file.flatMap markCapital) =
      (file.flatMap markCapital).map UInt16.toNat := by
    refine codePoints_of_not_high fun v hv => decide_eq_false fun hhigh => ?_
    have h := UInt16.le_iff_toNat_le.1 hhigh.1
    have hv := hmarked v hv
    have hbound : (0xD800 : UInt16).toNat = 0xD800 := rfl
    omega
  have hwf : WellFormed (file.flatMap markCapital) := by
    intro c hc hlone
    rw [hpoints] at hc
    obtain ⟨v, hv, rfl⟩ := List.mem_map.1 hc
    have := hmarked v hv
    have := hlone.1
    omega
  rw [cacheName, encodeURIComponent, if_pos hwf, Option.map_some, hpoints, flatMap_map,
    flatMap_assoc]
  exact congrArg some (congrArg escapeDevice (replace_flatMap hfile))

/-! ### Reading a name -/

/-- What is read of a name, whatever is made of its case. -/
def readName : Units → Units
  | 0x21 :: u :: rest => (u - 0x20) :: readName rest
  | 0x25 :: h :: l :: rest =>
    .ofNat ((hexValue h).getD 0 * 0x10 + (hexValue l).getD 0) :: readName rest
  | u :: rest => (if u = 0x2B then 0x2F else u) :: readName rest
  | [] => []

/-- A block is read back. -/
theorem readName_code (hu : isFileChar u = true) :
    readName ((code u).map lower ++ rest) = u :: readName rest := by
  rcases code_cases hu with ⟨hcode, hupper, hmark, hsign, hplus, -⟩ | ⟨rfl, hcode⟩ | ⟨rfl, hcode⟩ |
    ⟨-, hcode, hupper, -, hback, -⟩
  · have hlower : lower u = u := if_neg (by simp [hupper])
    rw [hcode, map_singleton, hlower, singleton_append, readName, if_neg hplus]
    · exact fun _ _ h _ => hmark h
    · exact fun _ _ _ h _ => hsign h
  · rw [hcode]
    rfl
  · rw [hcode]
    rfl
  · have hlower : lower (lower u) = lower u := if_neg (by simp [hupper])
    rw [hcode]
    simp only [map_cons, map_nil, hlower, cons_append, nil_append]
    rw [show lower 0x21 = 0x21 from rfl, readName, hback]

theorem readName_flatMap (hfile : ∀ u ∈ file, isFileChar u = true) :
    readName ((file.flatMap code).map lower) = file := by
  induction file with
  | nil => rfl
  | cons u file ih =>
    obtain ⟨hu, hfile⟩ := forall_mem_cons.1 hfile
    rw [flatMap_cons, map_append, readName_code hu, ih hfile]

/-- The first letter of a device's name. -/
theorem device_first {name : Units} (h : isDeviceName name = true) :
    ∃ u ∈ units "cpanl", ∃ rest, name = u :: rest := by
  have hstems : ∀ stem ∈ deviceNames, ∃ u ∈ units "cpanl", stem.head? = some u := by decide
  obtain ⟨u, hu, hhead⟩ := hstems _ (of_decide_eq_true h)
  cases name with
  | nil => cases hhead
  | cons v rest =>
    rw [takeWhile_cons] at hhead
    split at hhead
    · exact ⟨v, some.inj hhead ▸ hu, rest, rfl⟩
    · cases hhead

/-- **A name is read back**, whatever is made of its case. -/
theorem readName_escapeDevice (hfile : ∀ u ∈ file, isFileChar u = true) :
    readName ((escapeDevice (file.flatMap code)).map lower) = file := by
  have hname := readName_flatMap hfile
  rw [escapeDevice]
  split
  · rename_i hdevice
    obtain ⟨u, hu, rest, heq⟩ := device_first hdevice
    rw [heq] at hname ⊢
    simp only [units, String.reduceToList, map_cons, map_nil, mem_cons, not_mem_nil, or_false] at hu
    rcases hu with rfl | rfl | rfl | rfl | rfl <;> exact hname
  · exact hname

/-! ### Files of the directory -/

theorem isFileChar_of_package {name : Units} (h : isNpmPackageName name = true) :
    ∀ u ∈ name, isFileChar u = true := by
  have hword : ∀ u, isNameChar u = true → isFileChar u = true :=
    fun u hu => decide_eq_true (.inl hu)
  have hparts : [0x2F].intercalate (name.splitOn 0x2F) = name := intercalate_splitOn 0x2F
  rw [isNpmPackageName, Bool.and_eq_true] at h
  obtain ⟨-, h⟩ := h
  rw [← hparts]
  split at h
  · rename_i plain heq
    rw [heq]
    intro u hu
    rw [Bool.and_eq_true] at h
    exact hword u (List.all_eq_true.1 h.2 u (by simpa using hu))
  · rename_i scope plain heq
    rw [heq]
    simp only [Bool.and_eq_true, decide_eq_true_eq] at h
    obtain ⟨⟨⟨⟨hat, -⟩, hscope⟩, -⟩, hname⟩ := h
    intro u hu
    have hsides : u ∈ scope ∨ u = 0x2F ∨ u ∈ plain := by simpa using hu
    rcases hsides with hu | rfl | hu
    · cases scope with
      | nil => cases hat
      | cons c scope =>
        rcases mem_cons.1 hu with rfl | hu
        · rw [some.inj hat]
          decide
        · exact hword u (List.all_eq_true.1 hscope u hu)
    · decide
    · exact hword u (List.all_eq_true.1 hname u hu)
  · cases h

theorem cacheFile_spec (h : CacheFile file) : (∀ u ∈ file, isFileChar u = true) ∧ 0x7A ∈ file := by
  have hends : (∀ u ∈ units ".json.gz", isFileChar u = true) ∧
      ∀ u ∈ units ".tgz", isFileChar u = true :=
    ⟨List.all_eq_true.1 (by decide), List.all_eq_true.1 (by decide)⟩
  rcases h with ⟨name, hname, rfl⟩ | ⟨name, version, hname, hversion, rfl⟩
  · refine ⟨fun u hu => ?_, mem_append_right name (by decide)⟩
    exact (mem_append.1 hu).elim (isFileChar_of_package hname u) (hends.1 u)
  · refine ⟨fun u hu => ?_, mem_append_right _ (by decide)⟩
    obtain ⟨-, -, -, hspec⟩ := of_decide_eq_true hversion
    rcases mem_append.1 hu with hu | hu
    · rcases mem_append.1 hu with hu | hu
      · exact isFileChar_of_package hname u hu
      · rcases mem_cons.1 hu with rfl | hu
        · decide
        · have hu' := of_decide_eq_true (List.all_eq_true.1 hspec u hu)
          refine decide_eq_true (hu'.imp_right fun hplus => ?_)
          rw [hplus]
          decide
    · exact hends.2 u hu

section

variable (hfile : ∀ u ∈ file, isFileChar u = true)
include hfile

/-- No unit of a name divides a path. -/
theorem not_mem_name {v : UInt16}
    (hv : v ∈ escapeDevice (file.flatMap code)) : v ≠ 0x2F ∧ v ≠ 0x5C := by
  have hblocks : ∀ v ∈ file.flatMap code, v ≠ 0x2F ∧ v ≠ 0x5C := by
    intro v hv
    obtain ⟨u, hu, hv⟩ := mem_flatMap.1 hv
    have hall : (code u).all (fun v => v ≠ 0x2F ∧ v ≠ 0x5C) = true :=
      fileChar_cases (hfile u hu) (by decide)
    exact of_decide_eq_true (List.all_eq_true.1 hall v hv)
  rw [escapeDevice] at hv
  split at hv
  · rename_i hdevice
    obtain ⟨u, hu, rest, heq⟩ := device_first hdevice
    have hletters : ((units "cpanl").flatMap fun u => escape u.toNat).all
        (fun v => v ≠ 0x2F ∧ v ≠ 0x5C) = true := by decide
    rw [heq] at hv hblocks
    rcases mem_append.1 hv with hv | hv
    · exact of_decide_eq_true (List.all_eq_true.1 hletters v (mem_flatMap.2 ⟨u, hu, hv⟩))
    · exact hblocks v (mem_cons_of_mem u hv)
  · exact hblocks v hv

/-- The stem of a name without marks and escapes is as it was. -/
theorem stem_lower
    (h : ∀ v ∈ ((file.flatMap code).map lower).takeWhile (· ≠ 0x2E), isAlphanumeric v = true) :
    ((file.flatMap code).map lower).takeWhile (· ≠ 0x2E) =
      (file.flatMap code).takeWhile (· ≠ 0x2E) := by
  induction file with
  | nil => rfl
  | cons u file ih =>
    obtain ⟨hu, hfile⟩ := forall_mem_cons.1 hfile
    -- a mark or a sign would be in the stem
    have hmark : ∀ v rest, v ≠ 0x2E → isAlphanumeric v = false →
        ((code u ++ file.flatMap code).map lower) ≠ v :: rest := by
      rintro v rest hdot hv heq
      rw [flatMap_cons, heq, takeWhile_cons_of_pos (by simpa using hdot)] at h
      exact absurd (h v mem_cons_self) (by simp [hv])
    rcases code_cases hu with ⟨hcode, hupper, -⟩ | ⟨rfl, hcode⟩ | ⟨rfl, hcode⟩ | ⟨-, hcode, -⟩
    · have hlower : lower u = u := if_neg (by simp [hupper])
      rw [flatMap_cons, hcode, singleton_append, map_cons, hlower] at h ⊢
      by_cases hdot : u = 0x2E
      · subst hdot
        rfl
      · rw [takeWhile_cons_of_pos (by simpa using hdot)] at h ⊢
        rw [takeWhile_cons_of_pos (by simpa using hdot), ih hfile (forall_mem_cons.1 h).2]
    · exact absurd (by rw [hcode]; rfl) (hmark 0x2B _ (by decide) (by decide))
    · exact absurd (by rw [hcode]; rfl) (hmark 0x25 _ (by decide) (by decide))
    · exact absurd (by rw [hcode]; rfl) (hmark 0x21 _ (by decide) (by decide))

theorem not_device : isDeviceName ((escapeDevice (file.flatMap code)).map lower) = false := by
  have hstems : ∀ stem ∈ deviceNames, stem.all isAlphanumeric = true := by decide
  rw [escapeDevice]
  split
  · rename_i hdevice
    obtain ⟨u, hu, rest, heq⟩ := device_first hdevice
    rw [heq]
    refine decide_eq_false fun hmem => ?_
    have hsign := List.all_eq_true.1 (hstems _ hmem) sign mem_cons_self
    exact absurd hsign (by decide)
  · rename_i hdevice
    refine Bool.eq_false_iff.2 fun h => hdevice ?_
    have hmem := of_decide_eq_true h
    rw [stem_lower hfile (List.all_eq_true.1 (hstems _ hmem))] at hmem
    exact decide_eq_true hmem

end

/-- The name of one file of a directory: nothing else, no way up, and no device. -/
structure IsComponent (name : Units) : Prop where
  plain : name ≠ [] ∧ name ≠ [0x2E] ∧ name ≠ [0x2E, 0x2E]
  single : 0x2F ∉ name ∧ 0x5C ∉ name
  device : isDeviceName (name.map lower) = false

/-- **Cache paths** of different files differ whatever is made of their case, and each is of a file
in its directory. -/
theorem cache_paths (root dir : Units) :
    (∀ file, CacheFile file → ∃ name, IsComponent name ∧
      upstreamCachePath root dir file = some (root ++ 0x2F :: dir ++ 0x2F :: name)) ∧
    ∀ file file', CacheFile file → CacheFile file' → file ≠ file' →
      ∀ path path', upstreamCachePath root dir file = some path →
        upstreamCachePath root dir file' = some path' → path.map lower ≠ path'.map lower := by
  have hpath : ∀ file, CacheFile file → upstreamCachePath root dir file =
      some (root ++ 0x2F :: dir ++ 0x2F :: escapeDevice (file.flatMap code)) := fun file h => by
    rw [upstreamCachePath, cacheName_eq (cacheFile_spec h).1]
    rfl
  refine ⟨fun file h => ?_, fun file file' h h' hne path path' hp hp' heq => hne ?_⟩
  · obtain ⟨hfile, hz⟩ := cacheFile_spec h
    have hread := readName_escapeDevice hfile
    have hplain : ∀ name : Units, 0x7A ∉ readName (name.map lower) →
        escapeDevice (file.flatMap code) ≠ name := by
      rintro name hname rfl
      rw [hread] at hname
      exact hname hz
    refine ⟨_, ⟨⟨hplain _ (by decide), hplain _ (by decide), hplain _ (by decide)⟩, ?_,
      not_device hfile⟩, hpath file h⟩
    exact ⟨fun h => (not_mem_name hfile h).1 rfl, fun h => (not_mem_name hfile h).2 rfl⟩
  · obtain rfl := some.inj ((hpath file h).symm.trans hp)
    obtain rfl := some.inj ((hpath file' h').symm.trans hp')
    simp only [map_append, append_assoc] at heq
    have hnames := append_cancel_left (append_cancel_left heq)
    have hnames := (List.cons.inj hnames).2
    rw [← readName_escapeDevice (cacheFile_spec h).1, ← readName_escapeDevice (cacheFile_spec h').1,
      hnames]

/-- The documents of `con` and of a scoped package with a capital. -/
theorem cache_paths_small :
    (units "r/npm/packuments/%63on.json.gz").map lower ≠
      (units "r/npm/packuments/@!a+b.json.gz").map lower :=
  (cache_paths (units "r") (units "npm/packuments")).2 (units "con.json.gz")
    (units "@A/b.json.gz") (.inl ⟨units "con", by decide, rfl⟩)
    (.inl ⟨units "@A/b", by decide, rfl⟩) (by decide) _ _ (by decide +kernel) (by decide +kernel)

end Triage.UpstreamCache
