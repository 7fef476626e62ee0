import Triage.Npm.GitDiff

/-!
# The paths of a patch

A path that git quotes is read back byte by byte. Each character is read as itself but one past
U+FFFF that is quoted as it is, under `core.quotePath=false`: its two UTF-16 units are encoded one
at a time, each as U+FFFD. A byte order mark at the start of what is quoted is left out.

## Main results

* `unquoted_quote` : a quoted path as it is read.
* `sidePath_sideName`, `gitPath_line` : the paths that a file's sides and its first line name.
* `sideRead_eq_self_iff`, `pathRead_eq_self_iff` : **which paths are read as themselves.**
-/

namespace Triage.NpmPatch

open Streams List

/-! ### The bytes of a quoted path -/

/-- What a character that is quoted is read as. -/
def charRead (quotePath : Bool) (c : Char) : Text :=
  if isPlain quotePath c ∧ 0xFFFF < c.toNat then ['\uFFFD', '\uFFFD'] else [c]

variable {c : Char} {quotePath : Bool} {path : Text}

theorem quotedBytes_cons (hquote : c ≠ '"') (hslash : c ≠ '\\') (rest : Text) :
    quotedBytes (c :: rest) = (quotedBytes rest).map (unitBytes c ++ ·) := by
  rw [quotedBytes]
  all_goals simp [hquote, hslash]

theorem octal_digits (b : UInt8) :
    octal (digit (b.toNat / 64)) (digit (b.toNat / 8 % 8)) (digit (b.toNat % 8)) = some b := by
  have hall : ∀ n < 256, octal (digit (n / 64)) (digit (n / 8 % 8)) (digit (n % 8)) =
      some (.ofNat n) := by
    decide +kernel
  rw [hall b.toNat b.toNat_lt, UInt8.ofNat_toNat]

theorem quotedBytes_octalText (b : UInt8) (rest : Text) :
    quotedBytes (octalText b ++ rest) = (quotedBytes rest).map (b :: ·) := by
  show quotedBytes ('\\' :: digit _ :: digit _ :: digit _ :: rest) = _
  rw [quotedBytes, octal_digits]

theorem quotedBytes_octals (bytes : List UInt8) (rest : Text) :
    quotedBytes (bytes.flatMap octalText ++ rest) = (quotedBytes rest).map (bytes ++ ·) := by
  induction bytes with
  | nil => simp
  | cons b bytes ih =>
    rw [List.flatMap_cons, List.append_assoc, quotedBytes_octalText, ih, Option.map_map]
    rfl

theorem quotedBytes_escape {e : Char} {b : UInt8} (hoctal : isOctal e = false)
    (he : escaped e = some b) (rest : Text) :
    quotedBytes ('\\' :: e :: rest) = (quotedBytes rest).map (b :: ·) := by
  match rest with
  | [] => simp [quotedBytes, he]
  | [c] => simp [quotedBytes, he]
  | c :: d :: rest =>
    have hnone : octal e c d = none := by simp [octal, hoctal]
    rw [quotedBytes, hnone, he]
    rfl

/-- A letter after a backslash is the byte of the character that it stands for. -/
theorem letter_spec {e : Char} (h : letter c = some e) :
    isOctal e = false ∧ ∃ b, escaped e = some b ∧ String.utf8EncodeChar c = [b] := by
  have hc : Char.ofNat c.toNat = c := Char.ofNat_toNat c
  unfold letter at h
  split_ifs at h with h₁ h₂ h₃ h₄ h₅ h₆ h₇ h₈ h₉
  all_goals cases h
  · rw [h₁] at hc
    subst hc
    exact ⟨rfl, 7, rfl, rfl⟩
  · rw [h₂] at hc
    subst hc
    exact ⟨rfl, 8, rfl, rfl⟩
  · subst h₃
    exact ⟨rfl, 9, rfl, rfl⟩
  · subst h₄
    exact ⟨rfl, 10, rfl, rfl⟩
  · rw [h₅] at hc
    subst hc
    exact ⟨rfl, 11, rfl, rfl⟩
  · rw [h₆] at hc
    subst hc
    exact ⟨rfl, 12, rfl, rfl⟩
  · subst h₇
    exact ⟨rfl, 13, rfl, rfl⟩
  · subst h₈
    exact ⟨rfl, 34, rfl, rfl⟩
  · subst h₉
    exact ⟨rfl, 92, rfl, rfl⟩

theorem isPlain_ne (h : isPlain quotePath c = true) : c ≠ '"' ∧ c ≠ '\\' ∧ 0x20 ≤ c.toNat := by
  simp only [isPlain, Bool.and_eq_true, decide_eq_true_eq] at h
  exact ⟨h.1.1.1.2, h.1.1.2, h.1.1.1.1⟩

/-- A unit that is written as it is, or both of a pair. -/
theorem unitBytes_eq (h : isPlain quotePath c = true) :
    unitBytes c = encodeUtf8 (charRead quotePath c) := by
  by_cases hc : c.toNat ≤ 0xFFFF
  · rw [unitBytes, if_pos hc, charRead, if_neg (by omega)]
  · rw [unitBytes, if_neg hc, charRead, if_pos ⟨h, by omega⟩]

theorem quotedBytes_quoteChar (quotePath : Bool) (c : Char) (rest : Text) :
    quotedBytes (quoteChar quotePath c ++ rest) =
      (quotedBytes rest).map (encodeUtf8 (charRead quotePath c) ++ ·) := by
  by_cases hplain : isPlain quotePath c = true
  · obtain ⟨hquote, hslash, -⟩ := isPlain_ne hplain
    rw [quoteChar, if_pos hplain, singleton_append, quotedBytes_cons hquote hslash,
      unitBytes_eq hplain]
  · have hread : encodeUtf8 (charRead quotePath c) = String.utf8EncodeChar c := by
      rw [charRead, if_neg fun h => hplain h.1]
      exact append_nil _
    rw [quoteChar, if_neg hplain, hread]
    cases hletter : letter c with
    | none => exact quotedBytes_octals _ rest
    | some e =>
      obtain ⟨hoctal, b, hb, hencode⟩ := letter_spec hletter
      rw [hencode]
      exact quotedBytes_escape hoctal hb rest

/-- **The bytes of a quoted path** are those of its characters as they are read. -/
theorem quotedBytes_quote (quotePath : Bool) (path : Text) :
    quotedBytes (path.flatMap (quoteChar quotePath) ++ ['"']) =
      some (encodeUtf8 (path.flatMap (charRead quotePath))) := by
  induction path with
  | nil => rfl
  | cons c path ih =>
    rw [List.flatMap_cons, List.append_assoc, quotedBytes_quoteChar, ih, List.flatMap_cons,
      encodeUtf8, encodeUtf8, encodeUtf8, List.flatMap_append]
    rfl

theorem decodeText_encode (text : Text) : decodeText (encodeUtf8 text) = dropMark text := by
  rw [decodeText, utf8Decoder_encode, Utf8State.finish,
    if_pos (show Utf8State.start.needed = 0 from rfl), List.append_nil, List.map_map]
  exact congrArg dropMark (List.map_id text)

/-! ### A path as it is read -/

/-- A side's path, read after its prefix. -/
def sideRead (quotePath : Bool) (path : Text) : Text :=
  if path.all (isPlain quotePath) then path else path.flatMap (charRead quotePath)

/-- A path that is quoted with nothing before it. -/
def pathRead (quotePath : Bool) (path : Text) : Text :=
  if path.all (isPlain quotePath) then path else dropMark (path.flatMap (charRead quotePath))

theorem unquoted_quote (quotePath : Bool) (path : Text) :
    unquoted (quote quotePath path) = some (pathRead quotePath path) := by
  by_cases hplain : path.all (isPlain quotePath) = true
  · rw [quote, if_pos hplain, pathRead, if_pos hplain]
    cases path with
    | nil => rfl
    | cons c path =>
      have hc : c ≠ '"' := (isPlain_ne (all_eq_true.mp hplain c mem_cons_self)).1
      unfold unquoted
      split
      · rename_i heq
        cases heq
        exact absurd rfl hc
      · rfl
  · rw [quote, if_neg hplain, pathRead, if_neg hplain]
    show (quotedBytes _).map decodeText = _
    rw [quotedBytes_quote, Option.map_some, decodeText_encode]

/-- The letter of a side's prefix. -/
structure IsPrefixLetter (x : Char) : Prop where
  plain : ∀ quotePath, isPlain quotePath x = true
  unit : x.toNat ≤ 0xFFFF
  mark : x ≠ byteOrderMark
  slash : x ≠ '/'

theorem isPrefixLetter_a : IsPrefixLetter 'a' :=
  ⟨by decide, by decide, by decide, by decide⟩

theorem isPrefixLetter_b : IsPrefixLetter 'b' :=
  ⟨by decide, by decide, by decide, by decide⟩

theorem isPlain_slash (quotePath : Bool) : isPlain quotePath '/' = true := by
  cases quotePath <;> rfl

theorem charRead_of_le (h : c.toNat ≤ 0xFFFF) (quotePath : Bool) :
    charRead quotePath c = [c] := if_neg fun h' => by omega

section Prefixed

variable {x : Char} (hx : IsPrefixLetter x)
include hx

theorem all_isPlain_cons (quotePath : Bool) (path : Text) :
    (x :: '/' :: path).all (isPlain quotePath) = path.all (isPlain quotePath) := by
  simp [hx.plain, isPlain_slash]

theorem pathRead_cons (quotePath : Bool) (path : Text) :
    pathRead quotePath (x :: '/' :: path) = x :: '/' :: sideRead quotePath path := by
  rw [pathRead, all_isPlain_cons hx, sideRead]
  split
  · rfl
  · rw [flatMap_cons, flatMap_cons, charRead_of_le hx.unit,
      charRead_of_le (by decide : '/'.toNat ≤ 0xFFFF)]
    exact if_neg hx.mark

/-- A side's path is read as its path is after its prefix. -/
theorem sidePath_sideName (quotePath : Bool) (path : Text) :
    sidePath (sideName quotePath [x, '/'] (some path)) [x, '/'] =
      .ok (some (sideRead quotePath path)) := by
  -- only a tab that git puts after the path ends the name
  have hstrip : (if (sideName quotePath [x, '/'] (some path)).getLast? = some '\t' then
        (sideName quotePath [x, '/'] (some path)).dropLast
      else sideName quotePath [x, '/'] (some path)) = quote quotePath (x :: '/' :: path) := by
    by_cases hspace : ' ' ∈ path
    · have hname : sideName quotePath [x, '/'] (some path) =
          quote quotePath (x :: '/' :: path) ++ ['\t'] := by
        rw [sideName, if_pos hspace]
        rfl
      rw [hname, if_pos getLast?_concat, dropLast_concat]
    · have hname : sideName quotePath [x, '/'] (some path) =
          quote quotePath (x :: '/' :: path) := by
        rw [sideName, if_neg hspace, append_nil]
        rfl
      rw [hname]
      refine if_neg fun hlast => ?_
      by_cases hplain : (x :: '/' :: path).all (isPlain quotePath) = true
      · rw [quote, if_pos hplain] at hlast
        have hc := all_eq_true.mp hplain _ (mem_of_getLast? hlast)
        exact absurd (isPlain_ne hc).2.2 (by decide)
      · rw [quote, if_neg hplain, ← cons_append, getLast?_concat] at hlast
        cases hlast
  have hnull : x :: '/' :: sideRead quotePath path ≠ devNull := by
    intro h
    exact hx.slash (List.cons.inj h).1
  rw [sidePath, hstrip, unquoted_quote, pathRead_cons hx]
  show (if _ then _ else if _ then _ else _) = _
  rw [if_neg hnull]
  simp [startsWith, after]

end Prefixed

/-! ### The paths of a file's first line -/

theorem takeQuoted_go_cons (hquote : c ≠ '"') (hslash : c ≠ '\\') (rest : Text) :
    takeQuoted.go (c :: rest) = (takeQuoted.go rest).map fun p => (c :: p.1, p.2) := by
  rw [takeQuoted.go]
  all_goals simp [hquote, hslash]

theorem digit_ne {n : ℕ} (h : n < 8) : digit n ≠ '"' ∧ digit n ≠ '\\' := by
  have hall : ∀ n < 8, digit n ≠ '"' ∧ digit n ≠ '\\' := by decide
  exact hall n h

theorem takeQuoted_go_octals (bytes : List UInt8) (rest : Text) :
    takeQuoted.go (bytes.flatMap octalText ++ rest) =
      (takeQuoted.go rest).map fun p => (bytes.flatMap octalText ++ p.1, p.2) := by
  induction bytes with
  | nil => simp
  | cons b bytes ih =>
    have hb := b.toNat_lt
    have h₂ := digit_ne (n := b.toNat / 8 % 8) (by omega)
    have h₃ := digit_ne (n := b.toNat % 8) (by omega)
    rw [List.flatMap_cons, List.append_assoc]
    show takeQuoted.go ('\\' :: digit _ :: digit _ :: digit _ ::
      (bytes.flatMap octalText ++ rest)) = _
    rw [takeQuoted.go, takeQuoted_go_cons h₂.1 h₂.2, takeQuoted_go_cons h₃.1 h₃.2, ih]
    simp only [Option.map_map]
    rfl

theorem takeQuoted_go_quoteChar (quotePath : Bool) (c : Char) (rest : Text) :
    takeQuoted.go (quoteChar quotePath c ++ rest) =
      (takeQuoted.go rest).map fun p => (quoteChar quotePath c ++ p.1, p.2) := by
  by_cases hplain : isPlain quotePath c = true
  · obtain ⟨hquote, hslash, -⟩ := isPlain_ne hplain
    rw [quoteChar, if_pos hplain]
    exact takeQuoted_go_cons hquote hslash rest
  · rw [quoteChar, if_neg hplain]
    cases letter c with
    | none => exact takeQuoted_go_octals _ rest
    | some e => rfl

theorem takeQuoted_go_quote (quotePath : Bool) (path rest : Text) :
    takeQuoted.go (path.flatMap (quoteChar quotePath) ++ '"' :: rest) =
      some (path.flatMap (quoteChar quotePath) ++ ['"'], rest) := by
  induction path with
  | nil => rfl
  | cons c path ih =>
    rw [List.flatMap_cons, List.append_assoc, takeQuoted_go_quoteChar, ih, Option.map_some,
      List.append_assoc]

/-- A path that is quoted, with what follows it. -/
theorem takeQuoted_quote (h : path.all (isPlain quotePath) = false) (rest : Text) :
    takeQuoted (quote quotePath path ++ rest) = some (quote quotePath path, rest) := by
  rw [quote, if_neg (by simp [h]), List.cons_append, List.append_assoc]
  show (takeQuoted.go _).map _ = _
  rw [List.singleton_append, takeQuoted_go_quote]
  rfl

/-- **The path that a file's first line names twice**, after its two prefixes. -/
theorem gitPath_line (quotePath : Bool) (path : Text) :
    gitPath (quote quotePath ('a' :: '/' :: path) ++
      ' ' :: quote quotePath ('b' :: '/' :: path)) = some (sideRead quotePath path) := by
  have hall := all_isPlain_cons isPrefixLetter_a quotePath path
  have hall' := all_isPlain_cons isPrefixLetter_b quotePath path
  cases hplain : path.all (isPlain quotePath) with
  | true =>
    rw [quote, if_pos (hall.trans hplain), quote, if_pos (hall'.trans hplain), sideRead,
      if_pos hplain]
    have hlength : ('a' :: '/' :: path ++ ' ' :: 'b' :: '/' :: path).length - 5 =
        2 * path.length := by
      simp only [List.cons_append, List.length_cons, List.length_append]; omega
    have htake : (('a' :: '/' :: path ++ ' ' :: 'b' :: '/' :: path).drop 2).take path.length =
        path := List.take_left
    have hdrop : ('a' :: '/' :: path ++ ' ' :: 'b' :: '/' :: path).drop (2 + path.length) =
        [' ', 'b', '/'] ++ path := by
      rw [← List.drop_drop]
      exact List.drop_left
    have hhalf : ('a' :: '/' :: path ++ ' ' :: 'b' :: '/' :: path).length - 5 = 2 * path.length ∧
        2 * path.length / 2 = path.length ∧ 2 * path.length % 2 = 0 :=
      ⟨hlength, by omega, by omega⟩
    unfold gitPath
    split
    · rename_i heq
      cases heq
    · simp only [hhalf.1, hhalf.2.1, htake, hdrop]
      refine if_pos ⟨?_, hhalf.2.2, rfl, trivial⟩
      simp only [List.cons_append, List.length_cons, List.length_append]
      omega
  | false =>
    have hfirst := takeQuoted_quote (hall.trans hplain)
      (' ' :: quote quotePath ('b' :: '/' :: path))
    have hsecond := takeQuoted_quote (hall'.trans hplain) []
    rw [List.append_nil] at hsecond
    have hquoted : ∃ rest, quote quotePath ('a' :: '/' :: path) = '"' :: rest :=
      ⟨_, if_neg (by simp [hall.trans hplain])⟩
    obtain ⟨rest, hrest⟩ := hquoted
    unfold gitPath
    split
    · rw [hfirst]
      simp only [hsecond, unquoted_quote, pathRead_cons isPrefixLetter_a,
        pathRead_cons isPrefixLetter_b]
      exact if_pos (by simp [startsWith])
    · rename_i hne
      rw [hrest] at hne
      exact absurd rfl (hne _)

/-! ### The paths that are read as themselves -/

theorem length_quoteChar (quotePath : Bool) (c : Char) : 1 ≤ (quoteChar quotePath c).length := by
  rw [quoteChar]
  split
  · exact le_refl 1
  · cases letter c with
    | some e => exact Nat.le_succ 1
    | none =>
      have hne : String.utf8EncodeChar c ≠ [] := by
        simp only [String.utf8EncodeChar]
        split_ifs <;> exact cons_ne_nil _ _
      obtain ⟨b, bytes, hbytes⟩ := exists_cons_of_ne_nil hne
      simp [hbytes, octalText]

/-- A path is quoted where a character of it is not written as it is. -/
theorem quote_eq_self_iff : quote quotePath path = path ↔ path.all (isPlain quotePath) = true := by
  refine ⟨fun h => ?_, fun h => if_pos h⟩
  by_contra hplain
  have hlength : path.length ≤ (path.flatMap (quoteChar quotePath)).length := by
    clear h hplain
    induction path with
    | nil => exact le_refl 0
    | cons c path ih =>
      have hc := length_quoteChar quotePath c
      rw [flatMap_cons, length_append, length_cons]
      omega
  have hquoted := congrArg List.length h
  rw [quote, if_neg hplain, length_cons, length_append] at hquoted
  simp only [length_singleton] at hquoted
  omega

/-- Past ASCII, a character is written as it is only under `core.quotePath=false`. -/
theorem isPlain_of_lt (quotePath : Bool) (hc : 0xFFFF < c.toNat) :
    isPlain quotePath c = !quotePath := by
  have hquote : c ≠ '"' := by rintro rfl; exact absurd hc (by decide)
  have hslash : c ≠ '\\' := by rintro rfl; exact absurd hc (by decide)
  have h₁ : decide (0x20 ≤ c.toNat) = true := by simp; omega
  have h₂ : decide (c.toNat ≠ 0x7F) = true := by simp; omega
  have h₃ : decide (c.toNat < 0x80) = false := by simp; omega
  simp [isPlain, hquote, hslash, h₁, h₂, h₃]

theorem charRead_eq_singleton (h : quotePath = false → c.toNat ≤ 0xFFFF) :
    charRead quotePath c = [c] := by
  refine if_neg fun h' => ?_
  have hquote : quotePath = false := by
    have hplain := isPlain_of_lt quotePath h'.2
    rw [h'.1] at hplain
    simpa using hplain.symm
  exact absurd (h hquote) (by omega)

theorem flatMap_charRead (h : quotePath = false → ∀ c ∈ path, c.toNat ≤ 0xFFFF) :
    path.flatMap (charRead quotePath) = path := by
  induction path with
  | nil => rfl
  | cons c path ih =>
    rw [flatMap_cons, charRead_eq_singleton fun hq => h hq c mem_cons_self,
      ih fun hq c' hc' => h hq c' (mem_cons_of_mem _ hc')]
    rfl

/-- Under `core.quotePath=false`, no character past U+FFFF is read in a path that is quoted. -/
theorem toNat_le_of_mem (h : c ∈ path.flatMap (charRead false)) : c.toNat ≤ 0xFFFF := by
  obtain ⟨d, -, hc⟩ := mem_flatMap.mp h
  by_cases hd : 0xFFFF < d.toNat
  · rw [charRead, if_pos ⟨isPlain_of_lt false hd, hd⟩] at hc
    have hmark : c = '\uFFFD' := by simpa using hc
    rw [hmark]
    decide
  · rw [charRead_of_le (by omega), mem_singleton] at hc
    rw [hc]
    omega

theorem dropMark_subset (text : Text) : dropMark text ⊆ text := by
  cases text with
  | nil => exact List.Subset.refl _
  | cons c text =>
    rw [dropMark]
    split
    · exact subset_cons_self c text
    · exact List.Subset.refl _

/-- **A path that is halved is read of no path.** -/
theorem isHalved_ne (h : IsHalved quotePath path) (other : Text) :
    sideRead quotePath other ≠ path ∧ pathRead quotePath other ≠ path := by
  obtain ⟨hquote, rfl, c, hc, hlt⟩ := h
  have hplain : path.all (isPlain false) ≠ true := fun h => hquote (quote_eq_self_iff.mpr h)
  constructor
  · rintro rfl
    rw [sideRead] at hc hplain
    split at hc
    · rename_i hother
      rw [if_pos hother] at hplain
      exact hplain hother
    · exact absurd (toNat_le_of_mem hc) (by omega)
  · rintro rfl
    rw [pathRead] at hc hplain
    split at hc
    · rename_i hother
      rw [if_pos hother] at hplain
      exact hplain hother
    · exact absurd (toNat_le_of_mem (dropMark_subset _ hc)) (by omega)

/-- A path that is not halved is read as its characters are. -/
theorem read_of_not_isHalved (h : ¬IsHalved quotePath path) :
    sideRead quotePath path = path ∧
      pathRead quotePath path = if quote quotePath path = path then path else dropMark path := by
  by_cases hplain : path.all (isPlain quotePath) = true
  · have hquote := quote_eq_self_iff.mpr hplain
    rw [sideRead, if_pos hplain, pathRead, if_pos hplain, if_pos hquote]
    exact ⟨rfl, rfl⟩
  · have hquote : quote quotePath path ≠ path := fun h => hplain (quote_eq_self_iff.mp h)
    have hread : path.flatMap (charRead quotePath) = path := by
      refine flatMap_charRead fun hq c hc => ?_
      by_contra hlt
      exact h ⟨hquote, hq, c, hc, by omega⟩
    rw [sideRead, if_neg hplain, pathRead, if_neg hplain, if_neg hquote, hread]
    exact ⟨rfl, rfl⟩

/-- **A side's path is read as itself** exactly where no character of it is halved. -/
theorem sideRead_eq_self_iff : sideRead quotePath path = path ↔ ¬IsHalved quotePath path :=
  ⟨fun h hhalved => (isHalved_ne hhalved path).1 h, fun h => (read_of_not_isHalved h).1⟩

/-- **A renamed path is read as itself** exactly where moreover it is not quoted from a byte order
mark on. -/
theorem pathRead_eq_self_iff :
    pathRead quotePath path = path ↔ ¬IsHalved quotePath path ∧ ¬IsMarked quotePath path := by
  by_cases hhalved : IsHalved quotePath path
  · exact iff_of_false (isHalved_ne hhalved path).2 fun h => h.1 hhalved
  · rw [(read_of_not_isHalved hhalved).2]
    by_cases hquote : quote quotePath path = path
    · rw [if_pos hquote]
      exact iff_of_true rfl ⟨hhalved, fun h => h.1 hquote⟩
    · rw [if_neg hquote, dropMark_eq_self_iff]
      exact ⟨fun h => ⟨hhalved, fun h' => h h'.2⟩, fun h h' => h.2 ⟨hquote, h'⟩⟩

end Triage.NpmPatch
