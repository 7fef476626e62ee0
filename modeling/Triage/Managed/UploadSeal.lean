import Triage.Crypto.Aead
import Triage.Streams.Blocks
import Triage.Streams.Utf8

/-!
# Sealed uploads

The browser seals an upload to a key of the session, so that a proxy that ends TLS does not see it.
A sealed body is a header, which is the salt of the content key, and the payload in segments of one
mebibyte, sealed under numbered nonces of which the last is marked. Text is compressed first.

## Main results

* `sealUpload_eq` : the segments of a sealed body do not depend on the chunks of the input.
* `openUpload_of_segments` : a body opens if each of its segments does.
* `header_or_segments_of_openUpload` : what a body that opens is made of.
-/

namespace Triage.Managed

open Streams Crypto List Option

/-- The failures of `openUpload`. -/
inductive UploadError
  | badUpload | tooLarge
  deriving DecidableEq

def uploadVersion : UInt8 := 1
def flagGzip : UInt8 := 1
def headerBytes : ℕ := 2 + 32
def tagBytes : ℕ := 16
def segmentBytes : ℕ := 1024 * 1024
def sniffBytes : ℕ := 64 * 1024

/-- The bound on a sealed body for `maxBytes` of content. -/
def maxSealedBytes (maxBytes : ℕ) : ℕ :=
  headerBytes + (maxBytes + (maxBytes + 1023) / 1024 + 64) +
    tagBytes * ((maxBytes + (maxBytes + 1023) / 1024 + 64) / segmentBytes + 1)

/-- The nonce of a segment: its number, and a mark on the last one. -/
def nonce (index : ℕ) (final : Bool) : List UInt8 := streamNonce index final

/-- The primitives of the platform. -/
structure SealCrypto (Key Secret PrivateKey : Type) where
  /-- AES-256-GCM. -/
  aead : Aead Key (List UInt8) Unit
  /-- The raw X25519 public key. -/
  publicKey : PrivateKey → List UInt8
  /-- Imports a raw public key and derives the shared bits; `none` where the import fails. -/
  deriveBits : PrivateKey → List UInt8 → Option Secret
  /-- HKDF with the header as its salt. -/
  deriveKey : Secret → List UInt8 → Key
  /-- The `CompressionStream`, from chunks to chunks. -/
  gzip : List (List UInt8) → List (List UInt8)
  /-- The chunks of the `DecompressionStream`, and whether it ends without an error. -/
  inflate : List UInt8 → List (List UInt8) × Bool

variable {Key Secret PrivateKey : Type}

/-- What the primitives promise. -/
structure SealCrypto.Lawful (C : SealCrypto Key Secret PrivateKey) : Prop where
  length_publicKey : ∀ k, (C.publicKey k).length = 32
  /-- The two parties derive the same bits. -/
  deriveBits_agree : ∀ a b, ∃ secret,
    C.deriveBits a (C.publicKey b) = some secret ∧ C.deriveBits b (C.publicKey a) = some secret
  inflate_gzip : ∀ chunks, (C.inflate (C.gzip chunks).flatten).1.flatten = chunks.flatten ∧
    (C.inflate (C.gzip chunks).flatten).2 = true
  /-- Deflate stores what it cannot compress, in blocks of at least 16383 bytes with five bytes of
  overhead each; the gzip header and trailer are eighteen bytes. -/
  length_gzip : ∀ chunks, (C.gzip chunks).flatten.length ≤
    chunks.flatten.length + 5 * (chunks.flatten.length / 16383 + 1) + 18

/-- Text is what has no NUL and no invalid UTF-8 in its first 64 KiB. -/
def isText (content : List UInt8) : Bool :=
  !(content.take sniffBytes).contains 0 &&
    !(utf8Decoder.feed .start (content.take sniffBytes)).1.contains none

/-! ### Sealing -/

/-- The segment being filled, and the sealed ones. -/
structure SealState where
  segment : List UInt8
  index : ℕ
  parts : List (List UInt8)
  /-- The buffer holds one segment. -/
  filled_le : segment.length ≤ segmentBytes

open SealState

section Sealing

variable (encrypt : ℕ → Bool → List UInt8 → List UInt8)

/-- `seal` seals what is in the buffer and empties it. -/
def SealState.sealSegment (st : SealState) (final : Bool) : SealState :=
  ⟨[], st.index + 1, st.parts ++ [encrypt st.index final st.segment], Nat.zero_le _⟩

/-- A full segment is sealed, not as the final one, once more input is there. -/
def SealState.makeRoom (st : SealState) : SealState :=
  if st.segment.length = segmentBytes then st.sealSegment encrypt false else st

theorem SealState.filled_makeRoom_lt (st : SealState) :
    (st.makeRoom encrypt).segment.length < segmentBytes := by
  unfold makeRoom
  split_ifs with h
  · show 0 < segmentBytes
    decide
  · exact Nat.lt_of_le_of_ne st.filled_le h

/-- How much of a chunk goes into the buffer. -/
def SealState.length (st : SealState) (value : List UInt8) : ℕ :=
  min (segmentBytes - (st.makeRoom encrypt).segment.length) value.length

/-- Copies the start of a chunk into the buffer. -/
def SealState.copy (st : SealState) (value : List UInt8) : SealState where
  segment := (st.makeRoom encrypt).segment ++ value.take (st.length encrypt value)
  index := (st.makeRoom encrypt).index
  parts := (st.makeRoom encrypt).parts
  filled_le := by
    have := st.filled_makeRoom_lt encrypt
    rw [length_append, length_take, SealState.length]
    omega

/-- Reads one chunk of the input. -/
def SealState.read (st : SealState) (value : List UInt8) : SealState :=
  if value = [] then st
  else (st.copy encrypt value).read (value.drop (st.length encrypt value))
termination_by value.length
decreasing_by
  rename_i hvalue
  have hpos := length_pos_iff.2 hvalue
  have := st.filled_makeRoom_lt encrypt
  rw [length_drop, SealState.length]
  omega

end Sealing

namespace SealCrypto

variable (C : SealCrypto Key Secret PrivateKey)

/-- The chunks that are sealed: text is compressed. -/
def payload (blob : List (List UInt8)) : List (List UInt8) :=
  if isText blob.flatten then C.gzip blob else blob

/-- The header: version, flags and the ephemeral public key. -/
def header (blob : List (List UInt8)) (ephemeral : PrivateKey) : List UInt8 :=
  [uploadVersion, if isText blob.flatten then flagGzip else 0] ++ C.publicKey ephemeral

/-- Encrypts one segment. -/
def encryptSegment (key : Key) (index : ℕ) (final : Bool) (segment : List UInt8) : List UInt8 :=
  C.aead.encrypt key (nonce index final) () segment

/-- Decrypts one segment. -/
def decryptSegment (key : Key) (index : ℕ) (final : Bool) (segment : List UInt8) :
    Option (List UInt8) :=
  C.aead.decrypt key (nonce index final) () segment

/-- Seals a blob, read in chunks, to a raw public key. -/
def sealUpload (blob : List (List UInt8)) (publicKey : List UInt8) (ephemeral : PrivateKey) :
    Option (List UInt8) :=
  (C.deriveBits ephemeral publicKey).map fun secret =>
    C.header blob ephemeral ++
      (((C.payload blob).foldl
        (SealState.read (C.encryptSegment (C.deriveKey secret (C.header blob ephemeral))))
        ⟨[], 0, [], Nat.zero_le _⟩).sealSegment
          (C.encryptSegment (C.deriveKey secret (C.header blob ephemeral))) true).parts.flatten

/-! ### Opening -/

/-- The bytes behind the header. -/
def restBytes (body : List UInt8) : ℕ := body.length - headerBytes

/-- The number of segments: all but the last are full. -/
def segmentCount (body : List UInt8) : ℕ :=
  (restBytes body + (segmentBytes + tagBytes) - 1) / (segmentBytes + tagBytes)

/-- The length of the last segment. -/
def lastBytes (body : List UInt8) : ℕ :=
  restBytes body - (segmentCount body - 1) * (segmentBytes + tagBytes)

/-- A segment by its number. -/
def segmentAt (body : List UInt8) (index : ℕ) : List UInt8 :=
  (body.drop (headerBytes + index * (segmentBytes + tagBytes))).take (segmentBytes + tagBytes)

/-- Decrypts the last `todo` of the `count` segments of a body. -/
def openSegments (key : Key) (body : List UInt8) (count : ℕ) : ℕ → Option (List UInt8)
  | 0 => some []
  | todo + 1 =>
    (C.decryptSegment key (count - (todo + 1)) (count - (todo + 1) == count - 1)
      (segmentAt body (count - (todo + 1)))).bind fun plain =>
        (openSegments key body count todo).map (plain ++ ·)

/-- The read loop of `gunzipBytes`, with its cap on the decompressed size. -/
def gunzipPieces (maxBytes : ℕ) (ended : Bool) :
    List UInt8 → List (List UInt8) → Except UploadError (List UInt8)
  | out, [] => if ended then .ok out else .error .badUpload
  | out, value :: rest =>
    if maxBytes < out.length + value.length then .error .tooLarge
    else gunzipPieces maxBytes ended (out ++ value) rest

/-- Opens a sealed body with the private key of the session. -/
def openUpload (body : List UInt8) (privateKey : PrivateKey) (maxBytes : ℕ) :
    Except UploadError (List UInt8) :=
  if restBytes body < tagBytes ∨ lastBytes body < tagBytes ∨ body[0]? ≠ some uploadVersion ∨
      body.getD 1 0 &&& ~~~flagGzip ≠ 0 then .error .badUpload
  else if body[1]? ≠ some flagGzip ∧ maxBytes < restBytes body - segmentCount body * tagBytes then
    .error .tooLarge
  else match (C.deriveBits privateKey ((body.take headerBytes).drop 2)).bind fun secret =>
      C.openSegments (C.deriveKey secret (body.take headerBytes)) body (segmentCount body)
        (segmentCount body) with
    | none => .error .badUpload
    | some plain =>
      if body[1]? ≠ some flagGzip then .ok plain
      else gunzipPieces maxBytes (C.inflate plain).2 [] (C.inflate plain).1

end SealCrypto

/-! ### What the sealer has read -/

/-- The sealed segments are full, and with the buffer they are the input. -/
structure SealState.Reads (encrypt : ℕ → Bool → List UInt8 → List UInt8) (full : List (List UInt8))
    (st : SealState) (input : List UInt8) : Prop where
  parts : st.parts = full.mapIdx fun i segment => encrypt i false segment
  index : st.index = full.length
  length : ∀ segment ∈ full, segment.length = segmentBytes
  input : full.flatten ++ st.segment = input

section Reads

variable {encrypt : ℕ → Bool → List UInt8 → List UInt8} {full : List (List UInt8)} {st : SealState}
  {input : List UInt8}

theorem SealState.Reads.makeRoom (h : st.Reads encrypt full input) :
    ∃ full', (st.makeRoom encrypt).Reads encrypt full' input := by
  unfold SealState.makeRoom
  split_ifs with hfull
  · refine ⟨full ++ [st.segment], ?_, ?_, fun segment hsegment => ?_, ?_⟩
    · simp [sealSegment, h.parts, h.index, mapIdx_append]
    · simp [sealSegment, h.index]
    · rcases mem_append.1 hsegment with hmem | hmem
      · exact h.length segment hmem
      · rwa [mem_singleton.1 hmem]
    · simp [sealSegment, ← h.input]
  · exact ⟨full, h⟩

theorem SealState.Reads.copy (h : st.Reads encrypt full input) (value : List UInt8) :
    ∃ full', (st.copy encrypt value).Reads encrypt full'
      (input ++ value.take (st.length encrypt value)) := by
  obtain ⟨full', h'⟩ := h.makeRoom
  exact ⟨full', h'.parts, h'.index, h'.length, by simp [SealState.copy, ← h'.input]⟩

theorem SealState.copy_segment_ne_nil {value : List UInt8} (hvalue : value ≠ []) :
    (st.copy encrypt value).segment ≠ [] := by
  have hroom := st.filled_makeRoom_lt encrypt
  have hpos := length_pos_iff.2 hvalue
  rw [← length_pos_iff, copy, length_append, length_take, length]
  omega

/-- One chunk is read, however long it is. -/
theorem SealState.Reads.read (h : st.Reads encrypt full input) (hne : st.segment = [] → full = [])
    (value : List UInt8) :
    ∃ full', (st.read encrypt value).Reads encrypt full' (input ++ value) ∧
      ((st.read encrypt value).segment = [] → full' = []) := by
  induction st, value using read.induct encrypt generalizing full input with
  | case1 st =>
    rw [read, if_pos rfl, append_nil]
    exact ⟨full, h, hne⟩
  | case2 st value hvalue ih =>
    obtain ⟨full', h'⟩ := h.copy value
    obtain ⟨full'', h'', hne''⟩ := ih h' fun hnil => absurd hnil (st.copy_segment_ne_nil hvalue)
    rw [read, if_neg hvalue]
    rw [append_assoc, take_append_drop] at h''
    exact ⟨full'', h'', hne''⟩

theorem SealState.Reads.foldl (h : st.Reads encrypt full input)
    (hne : st.segment = [] → full = []) (chunks : List (List UInt8)) :
    ∃ full', (chunks.foldl (SealState.read encrypt) st).Reads encrypt full'
        (input ++ chunks.flatten) ∧
      ((chunks.foldl (SealState.read encrypt) st).segment = [] → full' = []) := by
  induction chunks generalizing st full input with
  | nil => exact ⟨full, by simpa using h, hne⟩
  | cons value chunks ih =>
    obtain ⟨full', h', hne'⟩ := h.read hne value
    obtain ⟨full'', h'', hne''⟩ := ih h' hne'
    exact ⟨full'', by simpa using h'', hne''⟩

/-- **The sealed parts are the sealed blocks of the input**, whatever the chunks. -/
theorem sealSegment_foldl (encrypt : ℕ → Bool → List UInt8 → List UInt8)
    (chunks : List (List UInt8)) :
    ((chunks.foldl (read encrypt) ⟨[], 0, [], Nat.zero_le _⟩).sealSegment
      encrypt true).parts = sealFrom encrypt 0 (blocks segmentBytes chunks.flatten) := by
  have hstart : (⟨[], 0, [], Nat.zero_le _⟩ : SealState).Reads encrypt [] [] :=
    ⟨rfl, rfl, by simp, rfl⟩
  obtain ⟨full, h, hne⟩ := hstart.foldl (fun _ => rfl) chunks
  have hblocks := blocks_eq (by decide) h.length
    (chunks.foldl (read encrypt) ⟨[], 0, [], Nat.zero_le _⟩).filled_le hne
  rw [h.input, nil_append] at hblocks
  rw [hblocks, sealFrom_append_singleton, sealSegment, h.parts, h.index]
  simp

end Reads

namespace SealCrypto

variable {C : SealCrypto Key Secret PrivateKey}

/-- The segments of a blob. -/
def segments (C : SealCrypto Key Secret PrivateKey) (blob : List (List UInt8)) :
    List (List UInt8) :=
  blocks segmentBytes (C.payload blob).flatten

theorem sealUpload_eq (blob : List (List UInt8)) (publicKey : List UInt8) (ephemeral : PrivateKey) :
    C.sealUpload blob publicKey ephemeral = (C.deriveBits ephemeral publicKey).map fun secret =>
      C.header blob ephemeral ++
        (sealFrom (C.encryptSegment (C.deriveKey secret (C.header blob ephemeral))) 0
          (C.segments blob)).flatten := by
  simp only [sealUpload, sealSegment_foldl, segments]

/-! ### The segments of a body -/

variable {body : List UInt8}

theorem segmentCount_eq (h : 0 < restBytes body) :
    segmentCount body = (blocks (segmentBytes + tagBytes) (body.drop headerBytes)).length := by
  have hlength : (body.drop headerBytes).length = restBytes body := length_drop
  rw [length_blocks (by decide), hlength, segmentCount,
    show restBytes body + (segmentBytes + tagBytes) - 1 =
      restBytes body - 1 + (segmentBytes + tagBytes) by omega, Nat.add_div_right _ (by decide)]

theorem segmentAt_eq {i : ℕ}
    (hi : i < (blocks (segmentBytes + tagBytes) (body.drop headerBytes)).length) :
    (blocks (segmentBytes + tagBytes) (body.drop headerBytes))[i]? = some (segmentAt body i) := by
  rw [getElem?_blocks (by decide) _ hi, drop_drop, segmentAt]

/-- The loop over the segments opens the blocks of the body in order. -/
theorem openSegments_eq (key : Key) {count : ℕ}
    (hcount : count = (blocks (segmentBytes + tagBytes) (body.drop headerBytes)).length) :
    C.openSegments key body count count =
      (openFrom (C.decryptSegment key) 0
        (blocks (segmentBytes + tagBytes) (body.drop headerBytes))).map List.flatten := by
  have hloop : ∀ todo ≤ count, C.openSegments key body count todo =
      (openFrom (C.decryptSegment key) (count - todo)
        ((blocks (segmentBytes + tagBytes) (body.drop headerBytes)).drop
          (count - todo))).map List.flatten := by
    intro todo
    induction todo with
    | zero =>
      intro _
      rw [drop_of_length_le (by omega)]
      rfl
    | succ todo ih =>
      intro htodo
      have hi : count - (todo + 1) <
          (blocks (segmentBytes + tagBytes) (body.drop headerBytes)).length := by omega
      obtain ⟨hlt, hget⟩ := List.getElem?_eq_some_iff.1 (segmentAt_eq hi)
      have hnext : count - (todo + 1) + 1 = count - todo := by omega
      have hlast : (count - (todo + 1) == count - 1) =
          ((blocks (segmentBytes + tagBytes) (body.drop headerBytes)).drop
            (count - todo)).isEmpty := by
        rw [Bool.eq_iff_iff, beq_iff_eq, List.isEmpty_iff, drop_eq_nil_iff, ← hcount]
        omega
      rw [drop_eq_getElem_cons hlt, hget, hnext, openFrom, openSegments, hlast, hnext,
        ih (by omega), Option.map_bind]
      congr 1
      funext plain
      simp [Option.map_map, Function.comp_def]
  simpa using hloop count (Nat.le_refl _)

/-- The last segment of a body, by its length. -/
theorem lastBytes_eq (h : 0 < restBytes body) {full : List (List UInt8)} {last : List UInt8}
    (hblocks : blocks (segmentBytes + tagBytes) (body.drop headerBytes) = full ++ [last]) :
    lastBytes body = last.length := by
  have hlength : (body.drop headerBytes).length = restBytes body := length_drop
  have hrest := length_eq_of_blocks (by decide) hblocks
  have hcount : segmentCount body = full.length + 1 := by
    rw [segmentCount_eq h, hblocks, length_append, length_singleton]
  rw [lastBytes, hcount, Nat.add_sub_cancel]
  omega

/-- **A body opens if each of its segments does.** -/
theorem openUpload_of_segments {hdr xs : List UInt8} {cs : List (List UInt8)} {flags : UInt8}
    {secret : Secret} {privateKey : PrivateKey} (hlength : hdr.length = headerBytes)
    (hversion : hdr[0]? = some uploadVersion) (hflags : hdr[1]? = some flags)
    (hflag : flags = 0 ∨ flags = flagGzip)
    (hsecret : C.deriveBits privateKey (hdr.drop 2) = some secret)
    (hcs : cs.map List.length = (blocks segmentBytes xs).map fun b => b.length + tagBytes)
    (hopen : openFrom (C.decryptSegment (C.deriveKey secret hdr)) 0 cs =
      some (blocks segmentBytes xs)) (maxBytes : ℕ) :
    C.openUpload (hdr ++ cs.flatten) privateKey maxBytes =
      if flags = flagGzip then gunzipPieces maxBytes (C.inflate xs).2 [] (C.inflate xs).1
      else if maxBytes < xs.length then .error .tooLarge else .ok xs := by
  have hdrop : (hdr ++ cs.flatten).drop headerBytes = cs.flatten := drop_left' hlength
  have htake : (hdr ++ cs.flatten).take headerBytes = hdr := take_left' hlength
  -- the body is cut where it was sealed:
  have hblocks : blocks (segmentBytes + tagBytes) ((hdr ++ cs.flatten).drop headerBytes) = cs := by
    rw [hdrop]
    exact blocks_flatten_map (by decide) (by decide) rfl hcs
  have hsum : cs.flatten.length = xs.length + cs.length * tagBytes := by
    rw [length_flatten_of_map hcs, flatten_blocks (by decide)]
  have hrest : restBytes (hdr ++ cs.flatten) = xs.length + cs.length * tagBytes := by
    rw [restBytes, length_append, hlength, hsum, Nat.add_sub_cancel_left]
  have hne : cs ≠ [] := fun h => blocks_ne_nil segmentBytes xs (by simpa [h] using hcs.symm)
  obtain ⟨full, last, rfl⟩ := exists_eq_append_singleton hne
  have hlast : tagBytes ≤ last.length := by
    have hmem : last.length ∈ (blocks segmentBytes xs).map fun b => b.length + tagBytes :=
      hcs ▸ List.mem_map_of_mem (by simp)
    obtain ⟨b, -, hb⟩ := List.mem_map.1 hmem
    omega
  have hpos : tagBytes ≤ restBytes (hdr ++ (full ++ [last]).flatten) := by
    rw [hrest, length_append, length_singleton, Nat.succ_mul]
    omega
  have hcount : segmentCount (hdr ++ (full ++ [last]).flatten) = (full ++ [last]).length := by
    rw [segmentCount_eq (by simp only [tagBytes] at hpos; omega), hblocks]
  have hfirst : (hdr ++ (full ++ [last]).flatten)[0]? = some uploadVersion := by
    rw [getElem?_append_left (by rw [hlength]; decide), hversion]
  have hsecond : (hdr ++ (full ++ [last]).flatten)[1]? = some flags := by
    rw [getElem?_append_left (by rw [hlength]; decide), hflags]
  have hmask : flags &&& ~~~flagGzip = 0 := by
    rcases hflag with rfl | rfl <;> decide
  -- the header and the lengths pass:
  have hguard : ¬ (restBytes (hdr ++ (full ++ [last]).flatten) < tagBytes ∨
      lastBytes (hdr ++ (full ++ [last]).flatten) < tagBytes ∨
      (hdr ++ (full ++ [last]).flatten)[0]? ≠ some uploadVersion ∨
      (hdr ++ (full ++ [last]).flatten).getD 1 0 &&& ~~~flagGzip ≠ 0) := by
    rw [lastBytes_eq (by simp only [tagBytes] at hpos; omega) hblocks, getD_eq_getElem?_getD,
      hfirst, hsecond, getD_some, hmask]
    simp only [ne_eq, not_true_eq_false, or_false, not_or, Nat.not_lt]
    exact ⟨hpos, hlast⟩
  -- every segment opens:
  have hopened : (C.deriveBits privateKey
      (((hdr ++ (full ++ [last]).flatten).take headerBytes).drop 2)).bind (fun secret =>
        C.openSegments (C.deriveKey secret ((hdr ++ (full ++ [last]).flatten).take headerBytes))
          (hdr ++ (full ++ [last]).flatten) (full ++ [last]).length (full ++ [last]).length) =
      some xs := by
    rw [htake, hsecret, bind_some, openSegments_eq _ (by rw [hblocks]), hblocks, hopen,
      map_some, flatten_blocks (by decide)]
  have hplain : restBytes (hdr ++ (full ++ [last]).flatten) - (full ++ [last]).length * tagBytes =
      xs.length := by omega
  rw [openUpload, if_neg hguard, hsecond, hcount, hplain, hopened]
  by_cases hgzip : flags = flagGzip
  · simp [hgzip]
  · by_cases hlarge : maxBytes < xs.length <;> simp [hgzip, hlarge]

/-- What a body that opens is made of. -/
theorem segments_of_openUpload {body plain : List UInt8} {privateKey : PrivateKey} {maxBytes : ℕ}
    {secret : Secret} (h : C.openUpload body privateKey maxBytes = .ok plain)
    (hsecret : C.deriveBits privateKey ((body.take headerBytes).drop 2) = some secret) :
    headerBytes ≤ body.length ∧ ∃ ps, openFrom
      (C.decryptSegment (C.deriveKey secret (body.take headerBytes))) 0
        (blocks (segmentBytes + tagBytes) (body.drop headerBytes)) = some ps := by
  rw [openUpload, hsecret, bind_some] at h
  split at h
  · cases h
  rename_i hguard
  split at h
  · cases h
  have hrest : tagBytes ≤ restBytes body := by
    rw [not_or, Nat.not_lt] at hguard
    exact hguard.1
  have hpos : 0 < restBytes body := Nat.lt_of_lt_of_le (by decide) hrest
  rw [openSegments_eq _ (segmentCount_eq hpos)] at h
  refine ⟨by rw [restBytes] at hpos; omega, ?_⟩
  cases hopen : openFrom (C.decryptSegment (C.deriveKey secret (body.take headerBytes))) 0
      (blocks (segmentBytes + tagBytes) (body.drop headerBytes)) with
  | none =>
    rw [hopen] at h
    cases h
  | some ps => exact ⟨ps, rfl⟩

end SealCrypto

end Triage.Managed
