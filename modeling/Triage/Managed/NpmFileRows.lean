import Triage.Data.PercentEncoding
import Triage.Streams.Utf8
import Mathlib.Algebra.Order.BigOperators.Group.List
import Mathlib.Algebra.Order.Ring.Nat

/-!
# The length of a package's files in JSON

The files of a package are sent as rows. How long these are in JSON is counted before any is made:
the strings by their characters, the rest of a row by a number that is always enough.

## Main results

* `length_quote` : the count of a string is off by five for each surrogate that stands alone.
* `rows_within` : so is that of the rows, by their paths.
-/

namespace Triage.NpmFileRows

open Utf16 Percent Streams List

/-! ### Counting -/

/-- `codePointAt`, at the front. -/
def codePointAt : Units → ℕ
  | [] => 0
  | [u] => u.toNat
  | u :: v :: _ => if isHigh u ∧ isLow v then pair u v else u.toNat

/-- What a code is counted past one. -/
def grown (code : ℕ) : ℕ :=
  if code = 0x22 ∨ code = 0x5C then 1
  else if code < 0x20 then if 0x08 ≤ code ∧ code ≤ 0x0D ∧ code ≠ 0x0B then 1 else 5
  else 0

/-- The loop of `jsonLength`, which comes by the second of two surrogates as well. -/
def grownAll : Units → ℕ
  | [] => 0
  | u :: rest => grown (codePointAt (u :: rest)) + grownAll rest

def jsonLength (text : Units) : ℕ := text.length + 2 + grownAll text

def ROW_LENGTH : ℕ := 80

structure NpmPackageFile where
  path : Units
  bytes : List UInt8
  /-- An array holds no more. -/
  size : bytes.length < 2 ^ 53

/-- `npmFileText` -/
def npmFileText (bytes : List UInt8) : Option Units :=
  if 0 ∈ bytes then none
  else (decodeUtf8 true bytes).map fun text => text.flatMap fun c => unitsOf c.toNat

def base64Alphabet : Units :=
  units "ABCDEFGHIJKLMNOPQRSTUVWXYZabcdefghijklmnopqrstuvwxyz0123456789+/"

/-- The character of six bits. -/
def base64Digit (n : ℕ) : UInt16 := base64Alphabet.getD (n % 64) 0

def base64 : List UInt8 → Units
  | a :: b :: c :: rest =>
    [a.toNat / 4, a.toNat * 16 + b.toNat / 16, b.toNat * 4 + c.toNat / 64, c.toNat].map
      base64Digit ++ base64 rest
  | [a, b] => [a.toNat / 4, a.toNat * 16 + b.toNat / 16, b.toNat * 4].map base64Digit ++ [0x3D]
  | [a] => [a.toNat / 4, a.toNat * 16].map base64Digit ++ [0x3D, 0x3D]
  | [] => []

/-- A row: the path, the size, and the text or the digest. -/
inductive Row
  | text (path : Units) (size : ℕ) (content : Units)
  | binary (path : Units) (size : ℕ) (digest : Units)
  deriving DecidableEq

/-- The hash of bytes. -/
abbrev Sha256 := List UInt8 → { digest : List UInt8 // digest.length = 32 }

def rowOf (sha256 : Sha256) (file : NpmPackageFile) : Row :=
  match npmFileText file.bytes with
  | none => .binary file.path file.bytes.length
      (units "sha256-" ++ base64 (sha256 file.bytes).1)
  | some text => .text file.path file.bytes.length text

/-- What a file is counted. -/
def fileLength (file : NpmPackageFile) : ℕ :=
  ROW_LENGTH + jsonLength file.path + ((npmFileText file.bytes).map jsonLength).getD 0

/-- The files from one on, of which those before were counted. -/
def rowsFrom (sha256 : Sha256) (maxLength : ℕ) :
    ℕ → List NpmPackageFile → Except (ℕ × String) (List Row)
  | _, [] => .ok []
  | length, file :: files =>
    if maxLength < length + fileLength file then .error (413, "package-too-large")
    else (rowsFrom sha256 maxLength (length + fileLength file) files).map (rowOf sha256 file :: ·)

def npmFileRows (sha256 : Sha256) (files : List NpmPackageFile) (maxLength : ℕ) :
    Except (ℕ × String) (List Row) := rowsFrom sha256 maxLength 0 files

/-! ### JSON -/

def hexDigits (c : ℕ) : Units :=
  [c / 0x1000, c / 0x100 % 0x10, c / 0x10 % 0x10, c % 0x10].map fun d =>
    (units "0123456789abcdef").getD d 0

/-- A code point in JSON; a surrogate that stands alone is escaped. -/
def escapePoint (c : ℕ) : Units :=
  if c = 0x22 ∨ c = 0x5C then [0x5C, .ofNat c]
  else if c = 0x08 then [0x5C, 0x62]
  else if c = 0x09 then [0x5C, 0x74]
  else if c = 0x0A then [0x5C, 0x6E]
  else if c = 0x0C then [0x5C, 0x66]
  else if c = 0x0D then [0x5C, 0x72]
  else if c < 0x20 ∨ Lone c then 0x5C :: 0x75 :: hexDigits c
  else unitsOf c

def quote (text : Units) : Units := 0x22 :: (codePoints text).flatMap escapePoint ++ [0x22]

def array (items : List Units) : Units := 0x5B :: [0x2C].intercalate items ++ [0x5D]

def Row.json : Row → Units
  | .text path size content => array [quote path, units size.repr, quote content]
  | .binary path size digest => array [quote path, units size.repr, units "null", quote digest]

/-- `JSON.stringify`, of rows. -/
def stringify (rows : List Row) : Units := array (rows.map Row.json)

/-- The surrogates that stand alone. -/
def loneCount (text : Units) : ℕ := (codePoints text).countP fun c => Lone c

variable {text : Units} {sha256 : Sha256} {files : List NpmPackageFile} {rows : List Row}
  {maxLength length : ℕ}

/-! ### Strings -/

theorem length_escapePoint (c : ℕ) :
    (escapePoint c).length = (unitsOf c).length + grown c + 5 * if Lone c then 1 else 0 := by
  have hshort : c < 0x10000 → (unitsOf c).length = 1 := fun h => by rw [unitsOf, if_pos h]; rfl
  have hhex : (hexDigits c).length = 4 := rfl
  simp only [escapePoint, grown, apply_ite length, length_cons, length_nil, Lone]
  grind

theorem grownAll_eq (text : Units) : grownAll text = ((codePoints text).map grown).sum := by
  have hlarge : ∀ {c}, 0x5C < c → grown c = 0 := fun h => by
    rw [grown, if_neg (by omega), if_neg (by omega)]
  fun_induction codePoints text with
  | case1 => rfl
  | case2 u => rfl
  | case3 u v rest hpair ih =>
    obtain ⟨⟨-, hlow⟩, hpoint⟩ := pair_spec hpair
    -- The loop comes by the second surrogate as well, where no pair starts.
    have hsecond : codePointAt (v :: rest) = v.toNat := by
      rcases rest with _ | ⟨w, rest⟩
      · rfl
      · refine if_neg fun h => ?_
        have := (pair_spec h).1.1
        omega
    rw [grownAll, grownAll, codePointAt, if_pos hpair, hlarge (by omega), hsecond,
      hlarge (by omega), ih, map_cons, sum_cons, hlarge (by omega)]
    exact Nat.zero_add _
  | case4 u v rest hpair ih =>
    rw [grownAll, codePointAt, if_neg hpair, ih, map_cons, sum_cons]

/-- **A string** in JSON has the length that is counted, and five more for each surrogate that
stands alone. -/
theorem length_quote (text : Units) :
    (quote text).length = jsonLength text + 5 * loneCount text := by
  have hall : ∀ cs : List ℕ, (cs.flatMap escapePoint).length =
      (cs.flatMap unitsOf).length + (cs.map grown).sum + 5 * cs.countP fun c => Lone c := by
    intro cs
    induction cs with
    | nil => rfl
    | cons c cs ih =>
      simp only [flatMap_cons, length_append, ih, length_escapePoint, map_cons, sum_cons,
        countP_cons, decide_eq_true_eq]
      omega
  rw [quote, length_append, length_cons, hall, flatMap_unitsOf, jsonLength, grownAll_eq, loneCount]
  simp only [length_singleton]
  omega

theorem loneCount_of_wellFormed (h : WellFormed text) : loneCount text = 0 :=
  countP_eq_zero.2 fun c hc => by simpa using h c hc

/-- What is decoded is well formed. -/
theorem loneCount_npmFileText {bytes : List UInt8} (h : npmFileText bytes = some text) :
    loneCount text = 0 := by
  have hone : ∀ (c : Char) (rest : Units),
      loneCount (unitsOf c.toNat ++ rest) = loneCount rest := by
    intro c rest
    have hvalid : c.toNat < 0xD800 ∨ 0xDFFF < c.toNat ∧ c.toNat < 0x110000 := c.valid
    have hlone : ¬Lone c.toNat := fun h => by
      have := h.1
      have := h.2
      omega
    rw [loneCount, codePoints_unitsOf_append (by omega) hlone,
      countP_cons_of_neg (by simpa using hlone), loneCount]
  rw [npmFileText] at h
  split at h
  · cases h
  · obtain ⟨cs, -, rfl⟩ := Option.map_eq_some_iff.1 h
    clear h
    induction cs with
    | nil => rfl
    | cons c cs ih => rw [flatMap_cons, hone, ih]

/-- A character that JSON has as it is. -/
def Plain (u : UInt16) : Prop := isHigh u = false ∧ escapePoint u.toNat = [u]

instance (u : UInt16) : Decidable (Plain u) := inferInstanceAs (Decidable (_ ∧ _))

theorem length_quote_plain (h : ∀ u ∈ text, Plain u) : (quote text).length = text.length + 2 := by
  have hall : (text.map UInt16.toNat).flatMap escapePoint = text := by
    rw [flatMap_map]
    induction text with
    | nil => rfl
    | cons u rest ih =>
      rw [flatMap_cons, (h u mem_cons_self).2, ih fun v hv => h v (mem_cons_of_mem u hv)]
      rfl
  rw [quote, codePoints_of_not_high fun u hu => (h u hu).1, hall]
  simp

theorem base64_spec (bytes : List UInt8) :
    (base64 bytes).length = (bytes.length + 2) / 3 * 4 ∧ ∀ u ∈ base64 bytes, Plain u := by
  have hdigit : ∀ n, Plain (base64Digit n) := fun n => by
    have hall : ∀ m < 64, Plain (base64Alphabet.getD m 0) := by decide +kernel
    exact hall (n % 64) (Nat.mod_lt _ (by decide))
  have hpad : Plain 0x3D := by decide
  fun_induction base64 bytes with
  | case1 a b c rest ih =>
    refine ⟨?_, by simpa [hdigit] using ih.2⟩
    rw [length_append, ih.1]
    simp only [length_map, length_cons, length_nil]
    omega
  | case2 => simp [hdigit, hpad]
  | case3 => simp [hdigit, hpad]
  | case4 => simp

/-! ### Rows -/

theorem length_array_le (items : List Units) :
    (array items).length ≤ 2 + (items.map fun i => i.length + 1).sum := by
  have hjoin : ([0x2C].intercalate items).length ≤ (items.map fun i => i.length + 1).sum := by
    induction items with
    | nil => exact Nat.zero_le _
    | cons a items ih =>
      cases items with
      | nil => simp
      | cons b items =>
        rw [intercalate_cons_cons, length_append, length_append, map_cons, sum_cons]
        exact Nat.add_le_add_left ih _
  rw [array, length_append, length_cons, length_singleton]
  omega

theorem length_json (sha256 : Sha256) (file : NpmPackageFile) :
    (rowOf sha256 file).json.length + 1 ≤ fileLength file + 5 * loneCount file.path := by
  -- `ROW_LENGTH` covers the size, the brackets and commas, `null` and the digest.
  have hsize : (units file.bytes.length.repr).length ≤ 16 := by
    have hlength := (Nat.length_repr_le_iff (n := file.bytes.length) (k := 16) (by omega)).2
      (by have := file.size; omega)
    rwa [units, length_map, String.length_toList]
  have hpath := length_quote file.path
  rw [rowOf, fileLength, ROW_LENGTH]
  rcases htext : npmFileText file.bytes with _ | text
  · obtain ⟨hlength, hplain⟩ := base64_spec (sha256 file.bytes).1
    rw [(sha256 file.bytes).2] at hlength
    have hlabel : (units "sha256-").all (fun u => Plain u) = true := by decide
    have hquote := length_quote_plain (forall_mem_append.2
      ⟨fun u hu => of_decide_eq_true (all_eq_true.1 hlabel u hu), hplain⟩)
    rw [length_append, hlength] at hquote
    have harray := length_array_le [quote file.path, units file.bytes.length.repr, units "null",
      quote (units "sha256-" ++ base64 (sha256 file.bytes).1)]
    have hnull : (units "null").length = 4 ∧ (units "sha256-").length = 7 := ⟨rfl, rfl⟩
    simp only [map_cons, map_nil, sum_cons, sum_nil, hquote, hnull] at harray
    dsimp only [Row.json, Option.map_none, Option.getD_none]
    omega
  · have hquote := length_quote text
    rw [loneCount_npmFileText htext] at hquote
    have harray := length_array_le [quote file.path, units file.bytes.length.repr, quote text]
    simp only [map_cons, map_nil, sum_cons, sum_nil] at harray
    dsimp only [Row.json, Option.map_some, Option.getD_some]
    omega

theorem length_rows (h : rowsFrom sha256 maxLength length files = .ok rows)
    (hlength : length ≤ maxLength) :
    length + (rows.map fun r => r.json.length + 1).sum ≤
      maxLength + 5 * (files.map fun f => loneCount f.path).sum := by
  induction files generalizing length rows with
  | nil =>
    cases h
    simpa using hlength
  | cons file files ih =>
    rw [rowsFrom] at h
    split at h
    · cases h
    · rename_i hfits
      rcases hrest : rowsFrom sha256 maxLength (length + fileLength file) files with e | rest
      · rw [hrest] at h
        cases h
      · rw [hrest] at h
        cases h
        have hrow := length_json sha256 file
        have hsum := ih hrest (Nat.not_lt.1 hfits)
        simp only [map_cons, sum_cons]
        omega

/-- **The rows** in JSON take what they may, and two characters more. -/
theorem rows_within (sha256 : Sha256) (files : List NpmPackageFile) (maxLength : ℕ) :
    (∀ rows, npmFileRows sha256 files maxLength = .ok rows →
      (∀ file ∈ files, WellFormed file.path) → (stringify rows).length ≤ maxLength + 2) ∧
    ∀ text, WellFormed text → jsonLength text = (quote text).length := by
  refine ⟨fun rows h hpaths => ?_, fun text h => ?_⟩
  · have hrows := length_rows h (Nat.zero_le _)
    have hlone : (files.map fun f => loneCount f.path).sum = 0 := by
      refine List.sum_eq_zero_iff_forall_eq_nat.2 fun n hn => ?_
      obtain ⟨f, hf, rfl⟩ := mem_map.1 hn
      exact loneCount_of_wellFormed (hpaths f hf)
    have harray := length_array_le (rows.map Row.json)
    rw [map_map] at harray
    simp only [Function.comp_def] at harray
    rw [stringify]
    omega
  · rw [length_quote, loneCount_of_wellFormed h, Nat.mul_zero, Nat.add_zero]

/-- A file of one letter. -/
def oneLetter (path : Units) : NpmPackageFile := ⟨path, [0x61], by decide⟩

/-- A line feed in a path. -/
theorem rows_within_small : (stringify [.text [0x0A] 1 [0x61]]).length ≤ 87 + 2 :=
  (rows_within (fun _ => ⟨replicate 32 0, rfl⟩) [oneLetter [0x0A]] 87).1 _ rfl fun file hfile => by
    rw [mem_singleton.1 hfile]
    decide

/-- A path of surrogates that stand alone takes more. -/
theorem lone_path_longer : ∃ rows,
    npmFileRows (fun _ => ⟨replicate 32 0, rfl⟩) [oneLetter (replicate 20 0xD800)] 105 = .ok rows ∧
      105 + 2 < (stringify rows).length :=
  ⟨_, rfl, by decide +kernel⟩

end Triage.NpmFileRows
