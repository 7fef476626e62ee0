import Triage.Streams.Utf8
import Triage.Streams.Frame

/-!
# The padded payload of a changeset

A changeset travels as JSON, compressed, framed by its compressed length and padded with zeros to a
power of two, so that its ciphertext tells the bucket it falls into and not its length. The reader
refuses to decompress more than a fixed number of bytes.

## Main results

* `isLeast_nextPow2AtLeast` : the padded length is the least power of two that holds the frame.
* `frameAndPad_round_trip` : what is framed is read back, if its JSON is not too long.
-/

namespace Triage.Client

open Streams List Option

/-- `JSON.stringify` and `JSON.parse`, on the values that JSON can say. -/
structure JsonCodec (J : Type*) where
  stringify : J → List Char
  parse : List Char → Option J
  parse_stringify : ∀ v, parse (stringify v) = some v

/-- The platform's compression streams; what decompresses comes in chunks. -/
structure GzipStreams where
  compress : List UInt8 → List UInt8
  decompress : List UInt8 → Option (List (List UInt8))

/-- Decompressing undoes compressing. -/
def GzipStreams.Lossless (z : GzipStreams) : Prop :=
  ∀ bytes, ∃ chunks, z.decompress (z.compress bytes) = some chunks ∧ chunks.flatten = bytes

/-- The chunks of a stream in one piece, unless they are more than `maxBytes`. -/
def readCapped (maxBytes : ℕ) : ℕ → List (List UInt8) → Option (List UInt8)
  | _, [] => some []
  | total, value :: chunks =>
    if maxBytes < total + value.length then none
    else (readCapped maxBytes (total + value.length) chunks).map (value ++ ·)

def gzipBytes (z : GzipStreams) (bytes : List UInt8) : List UInt8 := z.compress bytes

def gunzipBytes (z : GzipStreams) (maxBytes : ℕ) (bytes : List UInt8) : Option (List UInt8) :=
  (z.decompress bytes).bind (readCapped maxBytes 0)

/-- The size of the smallest bucket. -/
def padFloor : ℕ := 64

/-- The longest compressed payload whose bucket is a length that a buffer can have. -/
def maxCompressedBytes : ℕ := 0x3FFFFFFC

/-- The most that the reader decompresses. -/
def maxDecompressedBytes : ℕ := 64 * 1024 * 1024

/-- The least power of two that is at least `n`, from a power of two on. -/
def nextPow2AtLeast (n floor : ℕ) : ℕ :=
  if n ≤ floor then floor else 2 ^ (32 - clz32 (n - 1))

variable {J : Type*} (json : JsonCodec J) (z : GzipStreams)

/-- The compressed JSON behind its length, padded with zeros; too much of it throws. -/
def frameAndPad (value : J) : Option (List UInt8) :=
  let compressed := gzipBytes z (encodeUtf8 (json.stringify value))
  if maxCompressedBytes < compressed.length then none
  else
    let target := nextPow2AtLeast (4 + compressed.length) padFloor
    (setBytes 0 (bytesBE 4 compressed.length) (List.replicate target 0)).bind
      (setBytes 4 compressed)

/-- Throws where the length exceeds the payload, or the JSON the cap. -/
def unframeAndUngzip (plaintext : List UInt8) : Option J :=
  (unframe 4 plaintext).bind fun framed =>
    (gunzipBytes z maxDecompressedBytes framed.1).bind fun bytes =>
      (decodeUtf8 true bytes).bind json.parse

/-! ### The arithmetic of the lengths -/

/-- **The padded length is the least power of two** that is at least the frame's length and the
floor, as long as the length has 32 bits. -/
theorem isLeast_nextPow2AtLeast {n k : ℕ} (h : n ≤ 2 ^ 32) :
    IsLeast {p : ℕ | (∃ i, p = 2 ^ i) ∧ max n (2 ^ k) ≤ p} (nextPow2AtLeast n (2 ^ k)) := by
  rw [nextPow2AtLeast]
  split
  · rename_i hn
    refine ⟨⟨⟨k, rfl⟩, (max_eq_right hn).le⟩, ?_⟩
    rintro p ⟨-, hp⟩
    exact (le_max_right _ _).trans hp
  · rename_i hn
    have hmax : max n (2 ^ k) = n := max_eq_left (not_le.mp hn).le
    rw [hmax]
    exact isLeast_two_pow_clz32 (lt_of_le_of_lt (Nat.zero_le _) (not_le.mp hn)) h

/-- A length that the gate admits keeps its bucket in the range of signed 32-bit numbers. -/
theorem nextPow2AtLeast_le {n : ℕ} (h : n ≤ maxCompressedBytes) :
    4 + n ≤ nextPow2AtLeast (4 + n) padFloor ∧ nextPow2AtLeast (4 + n) padFloor ≤ 2 ^ 30 := by
  have hn : 4 + n ≤ 2 ^ 30 := by
    rw [maxCompressedBytes] at h
    omega
  have hleast := isLeast_nextPow2AtLeast (k := 6) (show 4 + n ≤ 2 ^ 32 by omega)
  have hfloor : max (4 + n) (2 ^ 6) ≤ 2 ^ 30 := max_le hn (by decide)
  exact ⟨(le_max_left _ _).trans hleast.1.2, hleast.2 ⟨⟨30, rfl⟩, hfloor⟩⟩

/-! ### Decompressing within the cap -/

theorem readCapped_eq {maxBytes total : ℕ} (chunks : List (List UInt8)) (h : total ≤ maxBytes) :
    readCapped maxBytes total chunks =
      if maxBytes < total + chunks.flatten.length then none else some chunks.flatten := by
  induction chunks generalizing total with
  | nil => rw [readCapped, flatten_nil, length_nil, if_neg (by omega)]
  | cons value chunks ih =>
    rw [readCapped, flatten_cons, length_append]
    by_cases hvalue : maxBytes < total + value.length
    · rw [if_pos hvalue, if_pos (by omega)]
    · rw [if_neg hvalue, ih (by omega), Nat.add_assoc]
      split
      · rfl
      · rfl

variable {z}

theorem gunzipBytes_gzipBytes (hz : z.Lossless) (maxBytes : ℕ) (bytes : List UInt8) :
    gunzipBytes z maxBytes (gzipBytes z bytes) =
      if maxBytes < bytes.length then none else some bytes := by
  obtain ⟨chunks, hchunks, hflat⟩ := hz bytes
  rw [gunzipBytes, gzipBytes, hchunks, bind_some, readCapped_eq chunks (Nat.zero_le _),
    hflat, Nat.zero_add]

/-! ### The round trip -/

variable {json}

theorem frameAndPad_eq {value : J} {compressed : List UInt8}
    (hc : gzipBytes z (encodeUtf8 (json.stringify value)) = compressed)
    (h : compressed.length ≤ maxCompressedBytes) :
    frameAndPad json z value = some (frame 4 compressed (List.replicate
      (nextPow2AtLeast (4 + compressed.length) padFloor - (4 + compressed.length)) 0)) := by
  simp only [frameAndPad, hc]
  rw [if_neg (by omega), setBytes_frame (nextPow2AtLeast_le h).1]

theorem unframeAndUngzip_frame (hz : z.Lossless) {value : J} {rest : List UInt8}
    (h : (gzipBytes z (encodeUtf8 (json.stringify value))).length ≤ maxCompressedBytes) :
    unframeAndUngzip json z (frame 4 (gzipBytes z (encodeUtf8 (json.stringify value))) rest) =
      if maxDecompressedBytes < (encodeUtf8 (json.stringify value)).length then none
      else some value := by
  have hfit : (gzipBytes z (encodeUtf8 (json.stringify value))).length < 256 ^ 4 := by
    rw [maxCompressedBytes] at h
    omega
  rw [unframeAndUngzip, unframe_frame hfit, bind_some, gunzipBytes_gzipBytes hz]
  split
  · rfl
  · rw [bind_some, decodeUtf8_encode, if_pos rfl, bind_some, json.parse_stringify]

/-- **The round trip of a payload**: a value whose compressed JSON the gate admits is framed in the
least power of two that holds it, of at most thirty bits, and read back exactly if its JSON is not
longer than the reader decompresses. -/
theorem frameAndPad_round_trip (json : JsonCodec J) (hz : z.Lossless) (value : J) {size : ℕ}
    (hsize : (gzipBytes z (encodeUtf8 (json.stringify value))).length = size)
    (h : size ≤ maxCompressedBytes) :
    ∃ out, frameAndPad json z value = some out ∧
      IsLeast {p : ℕ | (∃ i, p = 2 ^ i) ∧ max (4 + size) 64 ≤ p} out.length ∧
      out.length ≤ 2 ^ 30 ∧ frameLength 4 out = size ∧
      unframeAndUngzip json z out =
        if maxDecompressedBytes < (encodeUtf8 (json.stringify value)).length then none
        else some value := by
  subst hsize
  have hfits := nextPow2AtLeast_le h
  refine ⟨_, frameAndPad_eq rfl h, ?_, ?_, frameLength_frame ?_, unframeAndUngzip_frame hz h⟩
  · rw [length_frame, length_replicate, Nat.add_sub_cancel' hfits.1]
    exact isLeast_nextPow2AtLeast (k := 6) (by rw [maxCompressedBytes] at h; omega)
  · rw [length_frame, length_replicate, Nat.add_sub_cancel' hfits.1]
    exact hfits.2
  · rw [maxCompressedBytes] at h
    omega

/-! ### A small and a large value -/

/-- JSON strings of a single letter, by their length. -/
def runString (n : ℕ) : List Char := '"' :: (List.replicate n 'a' ++ ['"'])

theorem length_runString (n : ℕ) : (runString n).length = n + 2 := by
  simp [runString]

/-- The codec of such strings. -/
def runJson : JsonCodec ℕ where
  stringify := runString
  parse text := if runString (text.length - 2) = text then some (text.length - 2) else none
  parse_stringify n := by
    rw [length_runString, Nat.add_sub_cancel, if_pos rfl]

/-- Compression streams that store, behind the two bytes that every compressed stream begins
with. -/
def storedGzip : GzipStreams where
  compress bytes := 0x1F :: 0x8B :: bytes
  decompress
    | 0x1F :: 0x8B :: bytes => some [bytes]
    | _ => none

theorem lossless_storedGzip : storedGzip.Lossless :=
  fun bytes => ⟨[bytes], rfl, by rw [flatten_singleton]⟩

theorem length_encodeUtf8_runString (n : ℕ) : (encodeUtf8 (runString n)).length = n + 2 := by
  have hletter : ∀ m, (encodeUtf8 (List.replicate m 'a')).length = m := by
    intro m
    induction m with
    | zero => rfl
    | succ m ih =>
      rw [replicate_succ, encodeUtf8, flatMap_cons, length_append, ← encodeUtf8, ih,
        show (String.utf8EncodeChar 'a').length = 1 from by decide, Nat.add_comm]
  rw [runString, encodeUtf8, flatMap_cons, flatMap_append, length_append,
    length_append, ← encodeUtf8, hletter]
  simp only [flatMap_cons, flatMap_nil, append_nil,
    show (String.utf8EncodeChar '"').length = 1 from by decide]
  omega

/-- Three letters fit the smallest bucket. -/
theorem frameAndPad_round_trip_small :
    ∃ out, frameAndPad runJson storedGzip 3 = some out ∧
      unframeAndUngzip runJson storedGzip out = some 3 := by
  obtain ⟨out, hout, -, -, -, hback⟩ := frameAndPad_round_trip runJson lossless_storedGzip 3
    (show _ = 7 from by decide) (by decide)
  refine ⟨out, hout, ?_⟩
  rw [hback, if_neg (by decide)]

/-- A string that the gate admits, and the reader does not: its JSON is two bytes longer than the
cap. -/
theorem frameAndPad_over_cap :
    storedGzip.Lossless ∧
    (gzipBytes storedGzip (encodeUtf8 (runJson.stringify maxDecompressedBytes))).length ≤
        maxCompressedBytes ∧
    ∃ out, frameAndPad runJson storedGzip maxDecompressedBytes = some out ∧
      unframeAndUngzip runJson storedGzip out = none := by
  have hjson : (encodeUtf8 (runJson.stringify maxDecompressedBytes)).length =
      maxDecompressedBytes + 2 := length_encodeUtf8_runString _
  have hsize : (gzipBytes storedGzip
      (encodeUtf8 (runJson.stringify maxDecompressedBytes))).length = maxDecompressedBytes + 4 := by
    rw [gzipBytes, storedGzip, length_cons, length_cons, hjson]
  have hfits : maxDecompressedBytes + 4 ≤ maxCompressedBytes := by decide
  refine ⟨lossless_storedGzip, hsize.trans_le hfits, _,
    frameAndPad_eq rfl (hsize.trans_le hfits), ?_⟩
  rw [unframeAndUngzip_frame lossless_storedGzip (hsize.trans_le hfits), hjson, if_pos (by omega)]

end Triage.Client
