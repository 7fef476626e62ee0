import Triage.Crypto.Aead
import Triage.Streams.Blocks
import Mathlib.Order.Basic

/-!
# The storage envelope

A stored object is a header, with a salt from which the key of this one write is derived, and its
chunks of 64 KiB, each sealed under a numbered nonce of which the last is marked. The writer knows
the last chunk by looking one chunk ahead, the reader by looking one byte ahead, and both re-chunk
whatever pieces their source comes in.

## Main results

* `frames_chunks` : the frames do not depend on the pieces of the source.
* `StorageReader.read_spec` : a read takes its bytes from the front, whatever the pieces.
* `decryptFrames_eq` : the reader opens the blocks of what is behind the header.
-/

namespace Triage.Managed

open Streams Crypto List

/-- The failures of the envelope. -/
inductive StorageError
  | invalidSize | sizeChanged | tooManyChunks | invalidEnvelope | invalidStoredSize | truncated
  | unauthentic | sizeMismatch
  deriving DecidableEq

def storageMagic : List UInt8 :=
  [0x44, 0x65, 0x65, 0x70, 0x56, 0x69, 0x65, 0x77, 0x2E, 0x73, 0x74, 0x6F, 0x72, 0x61, 0x67, 0x65]
def storageVersion : UInt8 := 1
def storageChunkBytes : ℕ := 65536
def storageHeaderBytes : ℕ := 57
def storageTagBytes : ℕ := 16
def unknownSize : ℕ := 0xFFFFFFFFFFFFFFFF
def maxSafeInteger : ℕ := 2 ^ 53 - 1

theorem storageChunkBytes_pos : 0 < storageChunkBytes := Nat.succ_pos _

/-- The primitives: ChaCha20-Poly1305 with the header as associated data, and HKDF from a key, a
salt and the identity of the object. -/
structure StorageCrypto (Key Derived : Type) where
  aead : Aead Derived (List UInt8) (List UInt8)
  objectKey : Key → List UInt8 → String → Derived

/-! ### The writer's pieces -/

/-- The chunk being filled and the ones already full. -/
structure ChunkState (size : ℕ) where
  pending : List UInt8
  out : List (List UInt8)
  /-- A full chunk does not wait. -/
  pending_lt : pending.length < size

open ChunkState

section Chunks

variable {size : ℕ}

/-- How much of a piece goes into the chunk. -/
def ChunkState.take (st : ChunkState size) (input : List UInt8) : ℕ :=
  min (size - st.pending.length) input.length

/-- Puts the start of a piece into the chunk, which leaves it if that fills it. -/
def ChunkState.push (st : ChunkState size) (input : List UInt8) : ChunkState size :=
  if h : (st.pending ++ input.take (st.take input)).length = size then
    ⟨[], st.out ++ [st.pending ++ input.take (st.take input)], Nat.zero_lt_of_lt st.pending_lt⟩
  else
    ⟨st.pending ++ input.take (st.take input), st.out, by
      have := st.pending_lt
      simp only [length_append, length_take, ChunkState.take] at h ⊢
      omega⟩

/-- Reads one piece of the source. -/
def ChunkState.read (st : ChunkState size) (input : List UInt8) : ChunkState size :=
  if input = [] then st else (st.push input).read (input.drop (st.take input))
termination_by input.length
decreasing_by
  rename_i hinput
  have hpos := length_pos_iff.2 hinput
  have := st.pending_lt
  rw [length_drop, ChunkState.take]
  omega

/-- `chunks` re-chunks a source. -/
def chunks (source : List (List UInt8)) (hsize : 0 < size) : List (List UInt8) :=
  if (source.foldl ChunkState.read ⟨[], [], hsize⟩ : ChunkState size).pending.length = 0 then
    (source.foldl ChunkState.read ⟨[], [], hsize⟩ : ChunkState size).out
  else
    (source.foldl ChunkState.read ⟨[], [], hsize⟩ : ChunkState size).out ++
      [(source.foldl ChunkState.read ⟨[], [], hsize⟩ : ChunkState size).pending]

end Chunks

/-- The lookahead of `frames`: a chunk is the last one if there is no next. -/
def framesFrom : List UInt8 → List (List UInt8) → List (List UInt8 × Bool)
  | current, [] => [(current, true)]
  | current, next :: rest => (current, false) :: framesFrom next rest

/-- The frames of the chunks; no chunk is one empty frame. -/
def frames : List (List UInt8) → List (List UInt8 × Bool)
  | [] => [([], true)]
  | current :: rest => framesFrom current rest

section Chunks

variable {size : ℕ} {st : ChunkState size} {input : List UInt8}

/-- The full chunks are full, and with the one being filled they are the input. -/
structure ChunkState.Reads (st : ChunkState size) (input : List UInt8) : Prop where
  length : ∀ chunk ∈ st.out, chunk.length = size
  input : st.out.flatten ++ st.pending = input

theorem ChunkState.Reads.push (h : st.Reads input) (piece : List UInt8) :
    (st.push piece).Reads (input ++ piece.take (st.take piece)) := by
  unfold ChunkState.push
  split_ifs with hfull
  · refine ⟨fun chunk hchunk => ?_, by simp [← h.input]⟩
    rcases mem_append.1 hchunk with hmem | hmem
    · exact h.length chunk hmem
    · rwa [mem_singleton.1 hmem]
  · exact ⟨h.length, by simp [← h.input]⟩

/-- One piece is read, however long it is. -/
theorem ChunkState.Reads.read (h : st.Reads input) (piece : List UInt8) :
    (st.read piece).Reads (input ++ piece) := by
  induction st, piece using read.induct generalizing input with
  | case1 st =>
    rw [read, if_pos rfl, append_nil]
    exact h
  | case2 st piece hpiece ih =>
    have hrest := ih (h.push piece)
    rw [append_assoc, take_append_drop] at hrest
    rw [read, if_neg hpiece]
    exact hrest

theorem ChunkState.Reads.foldl (h : st.Reads input) (source : List (List UInt8)) :
    (source.foldl ChunkState.read st).Reads (input ++ source.flatten) := by
  induction source generalizing st input with
  | nil => simpa using h
  | cons piece source ih => simpa using ih (h.read piece)

/-- **The frames do not depend on the pieces**: they are those of the blocks of the source. -/
theorem frames_chunks (source : List (List UInt8)) (hsize : 0 < size) :
    frames (chunks source hsize) = frames (blocks size source.flatten) := by
  have hstart : (⟨[], [], hsize⟩ : ChunkState size).Reads [] := ⟨by simp, rfl⟩
  have h := hstart.foldl source
  rw [nil_append] at h
  rw [chunks]
  generalize source.foldl read ⟨[], [], hsize⟩ = st at h ⊢
  have hlt := st.pending_lt
  rw [← h.input]
  split_ifs with hnil
  · have hpending := length_eq_zero_iff.1 hnil
    rw [hpending, append_nil]
    by_cases hout : st.out = []
    · rw [hout, flatten_nil, blocks_of_le (Nat.zero_le _)]
      rfl
    · obtain ⟨full, last, hfull⟩ := exists_eq_append_singleton hout
      have hlast : last.length = size := h.length last (by simp [hfull])
      rw [hfull, flatten_append, flatten_singleton,
        blocks_eq hsize (fun b hb => h.length b (by simp [hfull, hb])) (Nat.le_of_eq hlast) ?_]
      rintro rfl
      rw [length_nil] at hlast
      omega
  · rw [blocks_eq hsize h.length (Nat.le_of_lt hlt) fun hpending => absurd ?_ hnil]
    rw [hpending, length_nil]

end Chunks

/-! ### The writer -/

/-- A number in eight bytes, as `writeBigUInt64BE` writes it. -/
def uint64 (n : ℕ) : List UInt8 := uint32 (n / 2 ^ 32) ++ uint32 n

/-- `readBigUInt64BE`. -/
def readUint64 (bytes : List UInt8) : ℕ := bytes.foldl (fun n b => n * 256 + b.toNat) 0

/-- `makeHeader`, with the random salt. -/
def makeHeader (salt : List UInt8) (size : Option ℕ) : List UInt8 :=
  storageMagic ++ [storageVersion] ++ salt ++ uint64 (size.getD unknownSize)

/-- The loop of the writer over its frames: what it yields, and the error it ends in.  `sealed`
seals the frame of a number and a mark. -/
def encryptFrames {β : Type} (sealed : ℕ → Bool → List UInt8 → β) (size : Option ℕ) :
    ℕ → ℕ → List (List UInt8 × Bool) → List β × Option StorageError
  | _, _, [] => ([], none)
  | index, length, (bytes, last) :: rest =>
    if last ∧ size.isSome ∧ size ≠ some (length + bytes.length) then ([], some .sizeChanged)
    else if 0xFFFFFFFF < index then ([], some .tooManyChunks)
    else (sealed index last bytes ::
        (encryptFrames sealed size (index + 1) (length + bytes.length) rest).1,
      (encryptFrames sealed size (index + 1) (length + bytes.length) rest).2)

namespace StorageCrypto

variable {Key Derived : Type} (C : StorageCrypto Key Derived)

/-- The key of one write: the salt is in the header. -/
def headerKey (key : Key) (header : List UInt8) (identity : String) : Derived :=
  C.objectKey key ((header.drop 17).take 32) identity

/-- Seals one frame. -/
def sealFrame (derived : Derived) (header : List UInt8) (index : ℕ) (last : Bool)
    (bytes : List UInt8) : List UInt8 :=
  C.aead.encrypt derived (streamNonce index last) header bytes

/-- Opens one frame. -/
def openFrame (derived : Derived) (header : List UInt8) (index : ℕ) (last : Bool)
    (bytes : List UInt8) : Option (List UInt8) :=
  C.aead.decrypt derived (streamNonce index last) header bytes

/-- The stream of the writer: the pieces it yields, and the error it ends in. -/
def encryptStorageStream (source : List (List UInt8)) (key : Key) (identity : String)
    (size : Option ℕ) (salt : List UInt8) : List (List UInt8) × Option StorageError :=
  if maxSafeInteger < size.getD 0 then ([], some .invalidSize)
  else
    have out := encryptFrames (C.sealFrame (C.headerKey key (makeHeader salt size) identity)
      (makeHeader salt size)) size 0 0 (frames (chunks source storageChunkBytes_pos))
    (makeHeader salt size :: out.1, out.2)

end StorageCrypto

/-! ### The reader's buffers -/

/-- The state of the reader: the pieces its source still has, the byte it has looked at, and the
rest of the piece it has begun. -/
structure StorageReader where
  source : List (List UInt8)
  done : Bool
  peek : List UInt8
  remainder : List UInt8
  /-- The source has ended when it says so. -/
  done_nil : done = true → source = []
  /-- It looks one byte ahead. -/
  peek_le : peek.length ≤ 1

namespace StorageReader

/-- Asks the source for its next piece, if there is nothing left of the last one. -/
def pull (r : StorageReader) : StorageReader :=
  if r.remainder.length = 0 ∧ r.done = false then
    match r.source with
    | [] => ⟨[], true, r.peek, [], fun _ => rfl, r.peek_le⟩
    | next :: rest => ⟨rest, false, r.peek, next, nofun, r.peek_le⟩
  else r

/-- How much of the piece in hand a read still takes. -/
def takes (r : StorageReader) (size length : ℕ) : ℕ := min (size - length) r.remainder.length

/-- Takes bytes off the piece in hand. -/
def drop (r : StorageReader) (n : ℕ) : StorageReader :=
  { r with remainder := r.remainder.drop n }

variable (r : StorageReader)

theorem pull_measure : r.pull.source.length < r.source.length ∨ r.pull = r ∨
    (r.pull.done = true ∧ r.pull.remainder = []) := by
  unfold pull
  split_ifs
  · split
    · exact .inr (.inr ⟨rfl, rfl⟩)
    · rename_i h
      exact .inl (by simp [h])
  · exact .inr (.inl rfl)

/-- A pull that changes nothing finds a piece in hand, or the end of the source. -/
theorem done_of_pull (h : r.pull = r) (hnil : r.remainder.length = 0) : r.done = true := by
  by_contra hdone
  unfold pull at h
  rw [if_pos ⟨hnil, Bool.eq_false_iff.2 hdone⟩] at h
  split at h
  · rw [← h] at hdone
    exact hdone rfl
  · rename_i hsource
    rw [← h] at hsource
    exact cons_ne_self _ _ hsource.symm

/-- The loop of `read`: `parts` has been gathered so far. -/
def readLoop (size : ℕ) (parts : List UInt8) (r : StorageReader) : List UInt8 × StorageReader :=
  if size ≤ parts.length then (parts, r)
  else if _h : r.pull.remainder.length = 0 ∧ r.pull.done = true then (parts, r.pull)
  else readLoop size (parts ++ r.pull.remainder.take (r.pull.takes size parts.length))
    (r.pull.drop (r.pull.takes size parts.length))
termination_by (r.source.length, r.remainder.length)
decreasing_by
  rename_i hsize
  rcases r.pull_measure with hlt | heq | ⟨hdone, hnil⟩
  · exact Prod.Lex.left _ _ hlt
  · rw [heq] at _h ⊢
    have hne : r.remainder.length ≠ 0 := fun hnil => _h ⟨hnil, r.done_of_pull heq hnil⟩
    refine Prod.Lex.right _ ?_
    rw [drop, length_drop, takes]
    omega
  · exact absurd ⟨by rw [hnil]; rfl, hdone⟩ _h

/-- Reads up to `size` bytes; fewer only at the end of the source. -/
def read (r : StorageReader) (size : ℕ) : List UInt8 × StorageReader :=
  readLoop size r.peek ⟨r.source, r.done, [], r.remainder, r.done_nil, Nat.zero_le _⟩

/-- What the reader has not yet given out. -/
def content (r : StorageReader) : List UInt8 := r.peek ++ r.remainder ++ r.source.flatten

/-- A reader at the start of its source. -/
def start (source : List (List UInt8)) : StorageReader :=
  ⟨source, false, [], [], nofun, Nat.zero_le _⟩

@[simp] theorem content_start (source : List (List UInt8)) :
    (start source).content = source.flatten := rfl

@[simp] theorem peek_pull : r.pull.peek = r.peek := by
  unfold pull
  split_ifs
  · split <;> rfl
  · rfl

@[simp] theorem content_pull : r.pull.content = r.content := by
  unfold pull
  split_ifs with h
  · have hnil := length_eq_zero_iff.1 h.1
    split
    · rename_i hsource
      simp [content, hnil, hsource]
    · rename_i hsource
      simp [content, hnil, hsource]
  · rfl

theorem content_drop {r : StorageReader} (hpeek : r.peek = []) (n : ℕ) :
    r.remainder.take n ++ (r.drop n).content = r.content := by
  simp [content, drop, hpeek, ← append_assoc]

variable {size : ℕ}

theorem readLoop_spec {parts : List UInt8} {r : StorageReader} (hpeek : r.peek = [])
    (hparts : parts.length ≤ size) :
    (readLoop size parts r).1 = (parts ++ r.content).take size ∧
      (readLoop size parts r).2.peek = [] ∧
      (readLoop size parts r).2.content = (parts ++ r.content).drop size := by
  induction parts, r using readLoop.induct size with
  | case1 parts r hfull =>
    have hlength : parts.length = size := by omega
    rw [readLoop, if_pos hfull, take_left' hlength, drop_left' hlength]
    exact ⟨rfl, hpeek, rfl⟩
  | case2 parts r hmore hend =>
    have hnil : r.pull.content = [] := by
      rw [content, r.pull.done_nil hend.2, peek_pull, hpeek, length_eq_zero_iff.1 hend.1]
      rfl
    have hlength : (parts ++ r.content).length ≤ size := by
      rw [← content_pull, hnil, append_nil]
      exact hparts
    rw [readLoop, if_neg hmore, dif_pos hend, take_of_length_le hlength,
      drop_of_length_le hlength, ← content_pull, hnil, append_nil]
    exact ⟨rfl, by rw [peek_pull, hpeek], rfl⟩
  | case3 parts r hmore hgoing ih =>
    have hpeek' : r.pull.peek = [] := by rw [peek_pull, hpeek]
    have hparts' : (parts ++ r.pull.remainder.take (r.pull.takes size parts.length)).length ≤
        size := by
      rw [length_append, length_take, takes]
      omega
    have hcontent : parts ++ r.pull.remainder.take (r.pull.takes size parts.length) ++
        (r.pull.drop (r.pull.takes size parts.length)).content = parts ++ r.content := by
      rw [append_assoc, content_drop hpeek', content_pull]
    rw [readLoop, if_neg hmore, dif_neg hgoing, ← hcontent]
    exact ih hpeek' hparts'

/-- **A read takes its bytes from the front**, whatever the pieces of the source. -/
theorem read_spec (hsize : 0 < size) :
    (r.read size).1 = r.content.take size ∧ (r.read size).2.peek = [] ∧
      (r.read size).2.content = r.content.drop size := by
  have h := @readLoop_spec _ _ ⟨r.source, r.done, [], r.remainder, r.done_nil, Nat.zero_le _⟩ rfl
    (Nat.le_trans r.peek_le hsize)
  rwa [show r.peek ++ content ⟨r.source, r.done, [], r.remainder, r.done_nil, Nat.zero_le _⟩ =
    r.content by simp [content, append_assoc]] at h

theorem length_read_le (hsize : 0 < size) : (r.read size).1.length ≤ size := by
  rw [(r.read_spec hsize).1, length_take]
  exact Nat.min_le_left ..

/-- Keeps the byte read ahead for the next read. -/
def keep (ahead : List UInt8) (hahead : ahead.length ≤ 1) (r : StorageReader) : StorageReader :=
  ⟨r.source, r.done, ahead, r.remainder, r.done_nil, hahead⟩

/-- Reads the bytes of a frame, and one more to see whether it is the last. -/
def readFrame (r : StorageReader) (size : ℕ) : List UInt8 × StorageReader :=
  ((r.read size).1, ((r.read size).2.read 1).2.keep ((r.read size).2.read 1).1
    ((r.read size).2.length_read_le Nat.one_pos))

theorem content_keep {ahead : List UInt8} {hahead : ahead.length ≤ 1} {r : StorageReader}
    (hpeek : r.peek = []) : (r.keep ahead hahead).content = ahead ++ r.content := by
  simp [content, keep, hpeek]

theorem readFrame_spec (hsize : 0 < size) :
    (r.readFrame size).1 = r.content.take size ∧
      (r.readFrame size).2.peek = (r.content.drop size).take 1 ∧
      (r.readFrame size).2.content = r.content.drop size := by
  obtain ⟨hbytes, -, hcontent₁⟩ := r.read_spec hsize
  obtain ⟨hahead, hpeek₂, hcontent₂⟩ := (r.read size).2.read_spec Nat.one_pos
  rw [hcontent₁] at hahead hcontent₂
  refine ⟨hbytes, hahead, ?_⟩
  rw [readFrame, content_keep hpeek₂, hahead, hcontent₂, take_append_drop]

end StorageReader

/-! ### The reader -/

/-- The size a header reports. -/
def storedSize (header : List UInt8) : Option ℕ :=
  if readUint64 (header.drop 49) = unknownSize then none else some (readUint64 (header.drop 49))

namespace StorageCrypto

variable {Key Derived : Type} (C : StorageCrypto Key Derived)

/-- Checks and opens one frame, given its bytes and whether any follow. -/
def nextFrame (derived : Derived) (header : List UInt8) (size : Option ℕ) (index length : ℕ)
    (bytes : List UInt8) (last : Bool) : Except StorageError (List UInt8) :=
  if bytes.length < storageTagBytes ∨ (0 < index ∧ bytes.length = storageTagBytes) then
    .error .truncated
  else if 0xFFFFFFFF < index then .error .tooManyChunks
  else match C.openFrame derived header index last bytes with
    | none => .error .unauthentic
    | some plain =>
      if ∃ n ∈ size, n < length + plain.length ∨ (last = true ∧ length + plain.length ≠ n) then
        .error .sizeMismatch
      else .ok plain

variable {C}

theorem nextFrame_ne_nil {derived : Derived} {header : List UInt8} {size : Option ℕ}
    {index length : ℕ} {bytes plain : List UInt8} {last : Bool}
    (h : C.nextFrame derived header size index length bytes last = .ok plain) : bytes ≠ [] := by
  rintro rfl
  rw [nextFrame, if_pos (.inl (by decide))] at h
  cases h

variable (C)

/-- The frames from number `index` on: what is released, and the error it ends in. -/
def decryptFrames (derived : Derived) (header : List UInt8) (size : Option ℕ) (index length : ℕ)
    (r : StorageReader) : List (List UInt8) × Option StorageError :=
  match _h : C.nextFrame derived header size index length
      (r.readFrame (storageChunkBytes + storageTagBytes)).1
      (r.readFrame (storageChunkBytes + storageTagBytes)).2.peek.isEmpty with
  | .error e => ([], some e)
  | .ok plain =>
    if (r.readFrame (storageChunkBytes + storageTagBytes)).2.peek.isEmpty then ([plain], none)
    else
      have rest := decryptFrames derived header size (index + 1) (length + plain.length)
        (r.readFrame (storageChunkBytes + storageTagBytes)).2
      (plain :: rest.1, rest.2)
termination_by r.content.length
decreasing_by
  have hpos : 0 < storageChunkBytes + storageTagBytes := by decide
  have hread := r.readFrame_spec hpos
  have hne := nextFrame_ne_nil _h
  rw [hread.1, ← length_pos_iff, length_take] at hne
  rw [hread.2.2, length_drop]
  omega

/-- The first frame is opened before the stream is handed out. -/
def handOut (size : Option ℕ) : List (List UInt8) × Option StorageError →
    Except StorageError (Option ℕ × List (List UInt8) × Option StorageError)
  | ([], some e) => .error e
  | out => .ok (size, out)

/-- Decrypts an envelope: the size it reports, the chunks its stream releases and the error the
stream ends in. -/
def decryptStorageStream (source : List (List UInt8)) (key : Key) (identity : String) :
    Except StorageError (Option ℕ × List (List UInt8) × Option StorageError) :=
  have header := (StorageReader.start source).read storageHeaderBytes
  if header.1.length ≠ storageHeaderBytes ∨ header.1.take 16 ≠ storageMagic ∨
      header.1[16]? ≠ some storageVersion then .error .invalidEnvelope
  else if ∃ n ∈ storedSize header.1, maxSafeInteger < n then .error .invalidStoredSize
  else handOut (storedSize header.1) (C.decryptFrames (C.headerKey key header.1 identity) header.1
    (storedSize header.1) 0 0 header.2)

/-! ### The blocks behind the header -/

/-- Opens frames that are given one by one. -/
def openFrames (derived : Derived) (header : List UInt8) (size : Option ℕ) :
    ℕ → ℕ → List (List UInt8) → List (List UInt8) × Option StorageError
  | _, _, [] => ([], none)
  | index, length, bytes :: rest =>
    match C.nextFrame derived header size index length bytes rest.isEmpty with
    | .error e => ([], some e)
    | .ok plain =>
      (plain :: (openFrames derived header size (index + 1) (length + plain.length) rest).1,
        (openFrames derived header size (index + 1) (length + plain.length) rest).2)

variable {C}

/-- **The reader opens the blocks of what is left**, whatever the pieces of its source. -/
theorem decryptFrames_eq (derived : Derived) (header : List UInt8) (size : Option ℕ)
    (index length : ℕ) (r : StorageReader) :
    C.decryptFrames derived header size index length r = C.openFrames derived header size index
      length (blocks (storageChunkBytes + storageTagBytes) r.content) := by
  have hpos : 0 < storageChunkBytes + storageTagBytes := by decide
  induction hn : r.content.length using Nat.strongRecOn generalizing index length r with
  | ind n ih =>
    obtain ⟨hbytes, hahead, hcontent⟩ := r.readFrame_spec hpos
    by_cases hle : r.content.length ≤ storageChunkBytes + storageTagBytes
    · have hlast : (r.readFrame (storageChunkBytes + storageTagBytes)).2.peek.isEmpty = true := by
        rw [hahead, drop_of_length_le hle, take_nil, isEmpty_nil]
      rw [decryptFrames, blocks_of_le hle, openFrames, hlast, hbytes, take_of_length_le hle,
        isEmpty_nil]
      split
      · rename_i e he
        rw [he]
      · rename_i plain hplain
        rw [hplain]
        rfl
    · have hmore : (r.readFrame (storageChunkBytes + storageTagBytes)).2.peek.isEmpty = false := by
        rw [hahead, isEmpty_eq_false_iff, ← length_pos_iff, length_take, length_drop]
        omega
      have hrest : (blocks (storageChunkBytes + storageTagBytes)
          (r.content.drop (storageChunkBytes + storageTagBytes))).isEmpty = false :=
        isEmpty_eq_false_iff.2 (blocks_ne_nil _ _)
      have hshorter : (r.readFrame (storageChunkBytes + storageTagBytes)).2.content.length < n := by
        rw [hcontent, length_drop]
        omega
      rw [decryptFrames, blocks, if_neg (by omega), openFrames, hmore, hbytes, hrest]
      split
      · rename_i e he
        rw [he]
      · rename_i plain hplain
        rw [hplain, ih _ hshorter _ _ _ rfl, hcontent]
        rfl

end StorageCrypto

end Triage.Managed
