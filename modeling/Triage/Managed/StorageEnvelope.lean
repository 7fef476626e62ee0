import Triage.Managed.StorageCrypto

/-!
# What opens is what was stored

Whatever the pieces of the two streams, an envelope opens to the source it was made of; a source of
another size than announced, or of more chunks than a nonce can number, leaves no final frame; and
bytes that are no complete output for a key and an identity end in an error, behind chunks that one
genuine write for that key and identity began with.

## Main results

* `StorageCrypto.storage_envelope` : the round trip, the size check and the rejection.
* `endless_source` : a source of more than `2 ^ 32` chunks cannot be stored.
-/

namespace Triage.Managed

open Streams Crypto List Option Nat

/-! ### Numbers in the header -/

theorem length_uint64 (n : ℕ) : (uint64 n).length = 8 := rfl

theorem readUint64_uint64 {n : ℕ} (h : n < 2 ^ 64) : readUint64 (uint64 n) = n := by
  simp only [readUint64, uint64, uint32, cons_append, nil_append, foldl_cons,
    foldl_nil, UInt8.toNat_ofNat']
  omega

/-! ### The frames of the writer -/

section EncryptFrames

variable {β : Type} {sealed : ℕ → Bool → List UInt8 → β} {size : Option ℕ} (index length : ℕ)

theorem encryptFrames_cons_cons (p q : List UInt8) (ps : List (List UInt8)) :
    encryptFrames sealed size index length (frames (p :: q :: ps)) =
      if 0xFFFFFFFF < index then ([], some .tooManyChunks) else (sealed index false p ::
          (encryptFrames sealed size (index + 1) (length + p.length) (frames (q :: ps))).1,
        (encryptFrames sealed size (index + 1) (length + p.length) (frames (q :: ps))).2) := by
  simp [frames, framesFrom, encryptFrames]

theorem encryptFrames_singleton (p : List UInt8) :
    encryptFrames sealed size index length (frames [p]) =
      if size.isSome ∧ size ≠ some (length + p.length) then ([], some .sizeChanged)
      else if 0xFFFFFFFF < index then ([], some .tooManyChunks)
      else ([sealed index true p], none) := by
  simp [frames, framesFrom, encryptFrames]

/-- The writer seals the frames in order; it seals all of them, unless the source is not of the
given size or a number does not fit. -/
theorem encryptFrames_spec {ps : List (List UInt8)} (hps : ps ≠ []) :
    ∃ k ≤ ps.length,
      (encryptFrames sealed size index length (frames ps)).1 = (sealFrom sealed index ps).take k ∧
      (0 < k → index + k ≤ 2 ^ 32) ∧
      ((encryptFrames sealed size index length (frames ps)).2 = none ↔ k = ps.length) ∧
      (k = ps.length ↔
        (∀ n ∈ size, n = length + ps.flatten.length) ∧ index + ps.length ≤ 2 ^ 32) := by
  induction ps generalizing index length with
  | nil => exact absurd rfl hps
  | cons p ps ih =>
    cases ps with
    | nil =>
      rw [encryptFrames_singleton]
      have hsize : (size.isSome ∧ size ≠ some (length + p.length)) ↔
          ¬∀ n ∈ size, n = length + [p].flatten.length := by
        cases size <;> simp
      -- the last frame, where the size is checked:
      split_ifs with hwrong hlarge
      · exact ⟨0, zero_le _, rfl, by simp, by simp, fun h => absurd h (by simp),
          fun h => absurd h.1 (hsize.1 hwrong)⟩
      · exact ⟨0, zero_le _, rfl, by simp, by simp, fun h => absurd h (by simp),
          fun h => absurd h.2 (by rw [length_singleton]; omega)⟩
      · refine ⟨1, Nat.le_refl _, rfl, by omega, by simp, ?_⟩
        rw [hsize, not_not] at hwrong
        exact ⟨fun _ => ⟨hwrong, by rw [length_singleton]; omega⟩, fun _ => rfl⟩
    | cons q ps =>
      rw [encryptFrames_cons_cons]
      -- `k` of the others are sealed:
      obtain ⟨k, hk, hsealed, hfits, hnone, hall⟩ :=
        ih (index + 1) (length + p.length) (cons_ne_nil q ps)
      have hlength : length + (p :: q :: ps).flatten.length =
          length + p.length + (q :: ps).flatten.length := by
        rw [flatten_cons, length_append, add_assoc]
      have hcount : (p :: q :: ps).length = (q :: ps).length + 1 := rfl
      split_ifs with hlarge
      · exact ⟨0, zero_le _, rfl, by simp, by simp, fun h => absurd h (by simp),
          fun h => absurd h.2 (by rw [hcount]; omega)⟩
      · refine ⟨k + 1, by omega, ?_, by omega, ?_, ?_⟩
        · rw [hsealed]
          rfl
        · rw [hnone]
          omega
        · rw [hlength, hcount]
          constructor
          · rintro heq
            obtain ⟨hsize, hindex⟩ := hall.1 (by omega)
            exact ⟨hsize, by omega⟩
          · rintro ⟨hsize, hindex⟩
            have := hall.2 ⟨hsize, by omega⟩
            omega

end EncryptFrames

/-- A call of the writer, with the salt it drew. -/
structure StorageWrite (Key : Type) where
  key : Key
  identity : String
  size : Option ℕ
  salt : List UInt8
  source : List (List UInt8)
  /-- A salt has 32 bytes. -/
  length_salt : salt.length = 32

namespace StorageWrite

variable {Key : Type} (w : StorageWrite Key)

/-- The header of the write. -/
def header : List UInt8 := makeHeader w.salt w.size

/-- The chunks of the write. -/
def chunks : List (List UInt8) := blocks storageChunkBytes w.source.flatten

/-- The frames sealed: nonce, header and chunk. -/
def sealings : List (List UInt8 × List UInt8 × List UInt8) :=
  (encryptFrames (fun index last bytes => (streamNonce index last, w.header, bytes)) w.size 0 0
    (frames (Managed.chunks w.source storageChunkBytes_pos))).1

/-- The size the writer was given is that of the source. -/
def Sized : Prop := ∀ n ∈ w.size, n = w.source.flatten.length

theorem length_header : w.header.length = storageHeaderBytes := by
  simp [header, makeHeader, w.length_salt, length_uint64, storageMagic, storageHeaderBytes]

theorem take_header : w.header.take 16 = storageMagic := by
  rw [header, makeHeader, append_assoc, append_assoc]
  exact take_left' rfl

theorem version_header : w.header[16]? = some storageVersion := by
  rw [header, makeHeader, append_assoc, append_assoc]
  exact getElem?_append_right (Nat.le_refl 16)

theorem salt_header : (w.header.drop 17).take 32 = w.salt := by
  rw [header, makeHeader, append_assoc, drop_left' (by rfl), take_left' w.length_salt]

theorem size_header : w.header.drop 49 = uint64 (w.size.getD unknownSize) := by
  rw [header, makeHeader, drop_left']
  simp [w.length_salt, storageMagic]

theorem storedSize_header (h : w.size.getD 0 ≤ maxSafeInteger) : storedSize w.header = w.size := by
  rw [storedSize, size_header]
  cases hsize : w.size with
  | none => rw [getD_none, readUint64_uint64 (by decide), if_pos rfl]
  | some n =>
    have hn : n ≤ maxSafeInteger := by simpa [hsize] using h
    have hmax : maxSafeInteger < 2 ^ 53 := by decide
    have hunknown : unknownSize = 2 ^ 64 - 1 := by decide
    rw [getD_some, readUint64_uint64 (by omega), if_neg (by omega)]

theorem chunks_ne_nil : w.chunks ≠ [] := blocks_ne_nil _ _

theorem flatten_chunks : w.chunks.flatten = w.source.flatten :=
  flatten_blocks storageChunkBytes_pos _

theorem sealings_eq : ∃ k ≤ w.chunks.length,
    w.sealings = (sealFrom (fun i f p => (streamNonce i f, w.header, p)) 0 w.chunks).take k ∧
      k ≤ 2 ^ 32 ∧ (k = w.chunks.length ↔ w.Sized ∧ w.chunks.length ≤ 2 ^ 32) := by
  obtain ⟨k, hk, hsealed, hfits, -, hall⟩ := @encryptFrames_spec _
    (fun i f p => (streamNonce i f, w.header, p)) w.size 0 0 _ w.chunks_ne_nil
  rw [zero_add, zero_add, flatten_chunks] at hall
  exact ⟨k, hk, by rw [sealings, frames_chunks, ← hsealed]; rfl, by omega, hall⟩

/-- A size that is right can be announced. -/
theorem size_le (h : w.Sized ∧ w.chunks.length ≤ 2 ^ 32) : w.size.getD 0 ≤ maxSafeInteger := by
  have hlength : w.chunks.length = (w.source.flatten.length - 1) / 65536 + 1 :=
    length_blocks (by decide) _
  have hmax : maxSafeInteger = 2 ^ 53 - 1 := rfl
  cases hsize : w.size with
  | none => exact zero_le _
  | some n =>
    have hn := h.1 n hsize
    rw [getD_some]
    omega

theorem chunk_ne_nil {i : ℕ} {p : List UInt8} (hi : 0 < i) (hp : w.chunks[i]? = some p) :
    p ≠ [] := by
  obtain ⟨full, last, hblocks, hfull, -, hnil, -⟩ :=
    exists_blocks storageChunkBytes_pos w.source.flatten
  rw [chunks, hblocks] at hp
  rintro rfl
  rcases mem_append.1 (mem_of_getElem? hp) with hmem | hmem
  · have := hfull [] hmem
    cases this
  · rw [hnil (mem_singleton.1 hmem).symm, nil_append] at hp
    rw [getElem?_eq_none hi] at hp
    cases hp

/-- What has been sealed: a chunk by its number, with the mark of the last one. -/
theorem mem_sealings {t : List UInt8 × List UInt8 × List UInt8} (h : t ∈ w.sealings) :
    ∃ i p, i < 2 ^ 32 ∧ w.chunks[i]? = some p ∧
      t = (streamNonce i (decide (i + 1 = w.chunks.length)), w.header, p) ∧
      (i + 1 = w.chunks.length → w.Sized ∧ w.chunks.length ≤ 2 ^ 32) := by
  obtain ⟨k, hk, hsealed, hfits, hall⟩ := w.sealings_eq
  rw [hsealed] at h
  obtain ⟨i, hi⟩ := mem_iff_getElem?.1 h
  rw [getElem?_take, getElem?_sealFrom, zero_add] at hi
  split_ifs at hi with hik
  obtain ⟨p, hp, rfl⟩ := map_eq_some_iff.1 hi
  exact ⟨i, p, by omega, hp, rfl, fun hlast => hall.1 (by omega)⟩

theorem sealed_mem_sealings (h : w.Sized ∧ w.chunks.length ≤ 2 ^ 32) {i : ℕ} {p : List UInt8}
    (hp : w.chunks[i]? = some p) :
    (streamNonce i (decide (i + 1 = w.chunks.length)), w.header, p) ∈ w.sealings := by
  obtain ⟨k, -, hsealed, -, hall⟩ := w.sealings_eq
  rw [hsealed, hall.2 h, take_of_length_le (by simp)]
  refine mem_of_getElem? (i := i) ?_
  rw [getElem?_sealFrom, hp, zero_add]
  rfl

end StorageWrite

namespace StorageCrypto

variable {Key Derived : Type} {C : StorageCrypto Key Derived}

/-! ### The frames of the reader -/

variable {derived : Derived}

theorem nextFrame_eq_ok {header bytes plain : List UInt8} {size : Option ℕ}
    {index length : ℕ} {last : Bool}
    (h : C.nextFrame derived header size index length bytes last = .ok plain) :
    index < 2 ^ 32 ∧ C.openFrame derived header index last bytes = some plain := by
  unfold nextFrame at h
  split_ifs at h with hshort hlarge
  split at h
  · cases h
  · rename_i plain' hopen
    split_ifs at h
    cases h
    exact ⟨by omega, hopen⟩

/-- Where frames open only in their places, what is released is the start of the chunks, and
without an error at the end it is all of them. -/
theorem openFrames_genuine {header : List UInt8} {size : Option ℕ}
    {ps : List (List UInt8)} {sealed : ℕ → Bool → List UInt8 → List UInt8}
    (hopen : ∀ i f c p, i < 2 ^ 32 → C.openFrame derived header i f c = some p →
      ps[i]? = some p ∧ f = decide (i + 1 = ps.length) ∧ c = sealed i f p)
    (index length : ℕ) {cs : List (List UInt8)} (hcs : cs ≠ []) :
    (C.openFrames derived header size index length cs).1 <+: ps.drop index ∧
      ((C.openFrames derived header size index length cs).2 = none →
        cs = sealFrom sealed index (ps.drop index) ∧
          ∃ i c p, i < 2 ^ 32 ∧ C.openFrame derived header i true c = some p) := by
  induction cs generalizing index length with
  | nil => exact absurd rfl hcs
  | cons c cs ih =>
    unfold openFrames
    split
    · exact ⟨List.nil_prefix, nofun⟩
    · rename_i plain hnext
      obtain ⟨hindex, hplain⟩ := nextFrame_eq_ok hnext
      obtain ⟨hget, hmark, hc⟩ := hopen index _ c plain hindex hplain
      obtain ⟨hlt, hp⟩ := List.getElem?_eq_some_iff.1 hget
      have hdrop : ps.drop index = plain :: ps.drop (index + 1) := by
        rw [drop_eq_getElem_cons hlt, hp]
      rw [hdrop]
      by_cases hnil : cs = []
      · subst hnil
        have hlast : index + 1 = ps.length := by simpa using hmark
        rw [drop_of_length_le (Nat.le_of_eq hlast.symm), hc]
        exact ⟨prefix_refl _, fun _ => ⟨rfl, index, c, plain, hindex, hplain⟩⟩
      · obtain ⟨hfront, hall⟩ := ih (index + 1) (length + plain.length) hnil
        refine ⟨prefix_cons_inj plain |>.2 hfront, fun hnone => ?_⟩
        obtain ⟨hcs', hmarked⟩ := hall hnone
        have hempty : cs.isEmpty = (ps.drop (index + 1)).isEmpty := by rw [hcs', isEmpty_sealFrom]
        refine ⟨?_, hmarked⟩
        rw [sealFrom, ← hempty, ← hc, ← hcs']

/-- Sealed frames open, if the size is right. -/
theorem openFrames_sealFrom {header : List UInt8} {size : Option ℕ} {ps : List (List UInt8)}
    (hopen : ∀ i p, ps[i]? = some p → C.openFrame derived header i (decide (i + 1 = ps.length))
      (C.sealFrame derived header i (decide (i + 1 = ps.length)) p) = some p)
    (hlength : ∀ i f p, (C.sealFrame derived header i f p).length = p.length + storageTagBytes)
    (hne : ∀ i p, 0 < i → ps[i]? = some p → p ≠ []) (hcount : ps.length ≤ 2 ^ 32)
    (index length : ℕ) (hindex : index ≤ ps.length)
    (hsize : ∀ n ∈ size, n = length + (ps.drop index).flatten.length) :
    C.openFrames derived header size index length
      (sealFrom (C.sealFrame derived header) index (ps.drop index)) = (ps.drop index, none) := by
  induction hn : ps.length - index generalizing index length with
  | zero =>
    rw [drop_of_length_le (by omega)]
    rfl
  | succ n ih =>
    have hlt : index < ps.length := by omega
    have hget : ps[index]? = some ps[index] := getElem?_eq_getElem hlt
    have hdrop := drop_eq_getElem_cons hlt
    have hempty : (ps.drop (index + 1)).isEmpty = decide (index + 1 = ps.length) := by
      rw [Bool.eq_iff_iff, List.isEmpty_iff, drop_eq_nil_iff, decide_eq_true_eq]
      omega
    have htotal : length + (ps.drop index).flatten.length =
        length + ps[index].length + (ps.drop (index + 1)).flatten.length := by
      rw [hdrop, flatten_cons, length_append, add_assoc]
    have hrest := ih (index + 1) (length + ps[index].length) hlt
      (fun n hn => by rw [hsize n hn, htotal]) (by omega)
    -- the frame is neither too short nor beyond the size, and opens:
    have hnext : C.nextFrame derived header size index length
        (C.sealFrame derived header index (decide (index + 1 = ps.length)) ps[index])
        (decide (index + 1 = ps.length)) = .ok ps[index] := by
      rw [nextFrame, hlength, if_neg ?_, if_neg (by omega), hopen index _ hget]
      · refine if_neg ?_
        rintro ⟨n, hn, hwrong⟩
        have := hsize n hn
        rcases hwrong with hlarge | ⟨hlast, hdiffers⟩
        · omega
        · have hnil : ps.drop (index + 1) = [] :=
            drop_of_length_le (Nat.le_of_eq (of_decide_eq_true hlast).symm)
          rw [htotal, hnil] at this
          exact hdiffers (by simpa using this.symm)
      · rintro (hshort | ⟨hpos, hshort⟩)
        · omega
        · exact hne index _ hpos hget (length_eq_zero_iff.1 (by omega))
    rw [hdrop, sealFrom, hempty, openFrames, isEmpty_sealFrom, hempty, hnext]
    simp only [hrest]

/-! ### Ideal primitives -/

/-- The key of a write. -/
def writeKey (C : StorageCrypto Key Derived) (w : StorageWrite Key) : Derived :=
  C.objectKey w.key w.salt w.identity

/-- What the writer yields, and the error it ends in. -/
def write (C : StorageCrypto Key Derived) (w : StorageWrite Key) :
    List (List UInt8) × Option StorageError :=
  C.encryptStorageStream w.source w.key w.identity w.size w.salt

/-- The primitives are ideal, for the writes that have been made: the key of a write is derived
from nothing else, no salt is drawn twice for one key and identity, and under a derived key nothing
opens but the frames that have been sealed. -/
structure IdealFor (C : StorageCrypto Key Derived) (writes : Set (StorageWrite Key)) : Prop where
  objectKey : ∀ w ∈ writes, ∀ key salt identity, C.objectKey key salt identity = C.writeKey w →
    key = w.key ∧ salt = w.salt ∧ identity = w.identity
  salt : ∀ w ∈ writes, ∀ w' ∈ writes, w.key = w'.key → w.identity = w'.identity →
    w.salt = w'.salt → w = w'
  aead : ∀ derived, C.aead.Ideal storageTagBytes derived
    {t | ∃ w ∈ writes, C.writeKey w = derived ∧ t ∈ w.sealings}

/-- A write completes. -/
def Completes (w : StorageWrite Key) : Prop := (C.write w).2 = none

variable {writes : Set (StorageWrite Key)} {w : StorageWrite Key}

theorem headerKey_header : C.headerKey w.key w.header w.identity = C.writeKey w := by
  rw [headerKey, w.salt_header, writeKey]

/-- What a write yields: its header and its frames, up to the one at which it fails. -/
theorem write_spec (C : StorageCrypto Key Derived) (w : StorageWrite Key) :
    ∃ k ≤ w.chunks.length + 1, (C.write w).1 =
        (w.header :: sealFrom (C.sealFrame (C.writeKey w) w.header) 0 w.chunks).take k ∧
      ((C.write w).2 = none ↔ k = w.chunks.length + 1) ∧
      ((C.write w).2 = none ↔ w.Sized ∧ w.chunks.length ≤ 2 ^ 32) := by
  unfold write encryptStorageStream
  split_ifs with hinvalid
  · exact ⟨0, zero_le _, rfl, by simp, fun h => absurd h (by simp),
      fun h => absurd (w.size_le h) (Nat.not_le.2 hinvalid)⟩
  · obtain ⟨k, hk, hsealed, -, hnone, hall⟩ := @encryptFrames_spec _
      (C.sealFrame (C.writeKey w) w.header) w.size 0 0 _ w.chunks_ne_nil
    rw [zero_add, zero_add, w.flatten_chunks] at hall
    rw [show makeHeader w.salt w.size = w.header from rfl, headerKey_header, frames_chunks,
      show blocks storageChunkBytes w.source.flatten = w.chunks from rfl]
    refine ⟨k + 1, by omega, ?_, ?_, ?_⟩
    · simp only [hsealed]
      rfl
    · simp only [hnone]
      omega
    · simp only [hnone, hall]
      rfl

/-- A frame opens under the key of a header only where a write with this header put it. -/
theorem IdealFor.openFrame (hC : C.IdealFor writes) {key : Key} {identity : String}
    {header c p : List UInt8} {i : ℕ} {f : Bool} (hi : i < 2 ^ 32)
    (h : C.openFrame (C.headerKey key header identity) header i f c = some p) :
    ∃ w ∈ writes, w.key = key ∧ w.identity = identity ∧ w.header = header ∧
      w.chunks[i]? = some p ∧ f = decide (i + 1 = w.chunks.length) ∧
      c = C.sealFrame (C.writeKey w) header i f p ∧
      (f = true → w.Sized ∧ w.chunks.length ≤ 2 ^ 32) := by
  obtain ⟨⟨w, hw, hkey, hsealed⟩, hc⟩ := ((hC.aead _).decrypt_iff ..).1 h
  obtain ⟨rfl, -, rfl⟩ := hC.objectKey w hw _ _ _ hkey.symm
  obtain ⟨j, q, hj, hq, heq, hlast⟩ := w.mem_sealings hsealed
  obtain ⟨hnonce, rfl, rfl⟩ : streamNonce i f = _ ∧ header = _ ∧ p = q := by simpa using heq
  obtain ⟨rfl, rfl⟩ := streamNonce_injective hi hj hnonce
  exact ⟨w, hw, rfl, rfl, rfl, hq, rfl, by rw [hkey]; exact hc,
    fun h => hlast (of_decide_eq_true h)⟩

/-- The reader takes the header off the front, and opens the blocks of the rest. -/
theorem decryptStorageStream_eq (C : StorageCrypto Key Derived) (pieces : List (List UInt8))
    (key : Key) (identity : String) :
    C.decryptStorageStream pieces key identity =
      if (pieces.flatten.take storageHeaderBytes).length ≠ storageHeaderBytes ∨
          (pieces.flatten.take storageHeaderBytes).take 16 ≠ storageMagic ∨
          (pieces.flatten.take storageHeaderBytes)[16]? ≠ some storageVersion then
        .error .invalidEnvelope
      else if ∃ n ∈ storedSize (pieces.flatten.take storageHeaderBytes), maxSafeInteger < n then
        .error .invalidStoredSize
      else handOut (storedSize (pieces.flatten.take storageHeaderBytes)) (C.openFrames
        (C.headerKey key (pieces.flatten.take storageHeaderBytes) identity)
        (pieces.flatten.take storageHeaderBytes)
        (storedSize (pieces.flatten.take storageHeaderBytes)) 0 0
        (blocks (storageChunkBytes + storageTagBytes)
          (pieces.flatten.drop storageHeaderBytes))) := by
  obtain ⟨hheader, -, hrest⟩ := (StorageReader.start pieces).read_spec
    (show 0 < storageHeaderBytes by decide)
  rw [StorageReader.content_start] at hheader hrest
  rw [decryptStorageStream]
  simp only [hheader, decryptFrames_eq, hrest]

section

variable (hC : C.IdealFor writes)
include hC

/-- **What was stored is read back**, whatever the pieces of both streams. -/
theorem decryptStorageStream_write (hw : w ∈ writes) (hsized : w.Sized)
    (hcount : w.chunks.length ≤ 2 ^ 32) {pieces : List (List UInt8)}
    (hpieces : pieces.flatten = (C.write w).1.flatten) :
    C.decryptStorageStream pieces w.key w.identity = .ok (w.size, w.chunks, none) := by
  have hideal := hC.aead (C.writeKey w)
  have hlength : ∀ i f p, (C.sealFrame (C.writeKey w) w.header i f p).length =
      p.length + storageTagBytes := fun i f p => hideal.length ..
  have hopen : ∀ i p, w.chunks[i]? = some p →
      C.openFrame (C.writeKey w) w.header i (decide (i + 1 = w.chunks.length))
        (C.sealFrame (C.writeKey w) w.header i (decide (i + 1 = w.chunks.length)) p) = some p :=
    fun i p hp => (hideal.decrypt_iff ..).2
      ⟨⟨w, hw, rfl, w.sealed_mem_sealings ⟨hsized, hcount⟩ hp⟩, rfl⟩
  have hframes : C.openFrames (C.writeKey w) w.header w.size 0 0
      (sealFrom (C.sealFrame (C.writeKey w) w.header) 0 w.chunks) = (w.chunks, none) := by
    refine openFrames_sealFrom hopen hlength (fun i p hi hp => w.chunk_ne_nil hi hp) hcount 0 0
      (zero_le _) fun n hn => ?_
    rw [hsized n hn, zero_add, drop_zero, w.flatten_chunks]
  obtain ⟨k, -, hwrite, hnone, hcompletes⟩ := C.write_spec w
  have hk := hnone.1 (hcompletes.2 ⟨hsized, hcount⟩)
  have hbody : pieces.flatten =
      w.header ++ (sealFrom (C.sealFrame (C.writeKey w) w.header) 0 w.chunks).flatten := by
    rw [hpieces, hwrite, hk, take_of_length_le (by simp), flatten_cons]
  have hblocks : blocks (storageChunkBytes + storageTagBytes)
      (sealFrom (C.sealFrame (C.writeKey w) w.header) 0 w.chunks).flatten =
        sealFrom (C.sealFrame (C.writeKey w) w.header) 0 w.chunks :=
    blocks_flatten_map (by decide) (by decide) rfl (map_length_sealFrom hlength 0 w.chunks)
  have hstored : storedSize w.header = w.size := w.storedSize_header (w.size_le ⟨hsized, hcount⟩)
  rw [decryptStorageStream_eq, hbody, take_left' w.length_header,
    drop_left' w.length_header, headerKey_header, hblocks, hstored, hframes, if_neg, if_neg]
  · obtain ⟨p, ps, hps⟩ := exists_cons_of_ne_nil w.chunks_ne_nil
    rw [hps]
    rfl
  · rintro ⟨n, hn, hlarge⟩
    have := w.size_le ⟨hsized, hcount⟩
    rw [mem_def.1 hn, getD_some] at this
    omega
  · rw [w.length_header, w.take_header, w.version_header]
    simp

/-- What opens from the first frame on is the start of a genuine write. -/
theorem IdealFor.openFrames {key : Key} {identity : String}
    {header : List UInt8} {size : Option ℕ} {cs : List (List UInt8)} (hcs : cs ≠ []) :
    (∃ e, C.openFrames (C.headerKey key header identity) header size 0 0 cs = ([], some e)) ∨
      ∃ w ∈ writes, w.key = key ∧ w.identity = identity ∧
        (C.openFrames (C.headerKey key header identity) header size 0 0 cs).1 <+: w.chunks ∧
        ((C.openFrames (C.headerKey key header identity) header size 0 0 cs).2 = none →
          C.Completes w ∧ header ++ cs.flatten = (C.write w).1.flatten) := by
  obtain ⟨c, cs, rfl⟩ := exists_cons_of_ne_nil hcs
  cases hfirst : C.nextFrame (C.headerKey key header identity) header size 0 0 c cs.isEmpty with
  | error e => exact .inl ⟨e, by rw [StorageCrypto.openFrames, hfirst]⟩
  | ok plain =>
    obtain ⟨w, hw, rfl, rfl, rfl, -⟩ := hC.openFrame (by decide) (nextFrame_eq_ok hfirst).2
    have hopen : ∀ i f c p, i < 2 ^ 32 →
        C.openFrame (C.headerKey w.key w.header w.identity) w.header i f c = some p →
        (w.chunks[i]? = some p ∧ f = decide (i + 1 = w.chunks.length) ∧
          c = C.sealFrame (C.writeKey w) w.header i f p) ∧
          (f = true → w.Sized ∧ w.chunks.length ≤ 2 ^ 32) := by
      intro i f c p hi h
      obtain ⟨w', hw', hkey, hidentity, hheader, hget, hmark, hc, hwhole⟩ := hC.openFrame hi h
      have hsalt : w'.salt = w.salt := by rw [← w'.salt_header, ← w.salt_header, hheader]
      obtain rfl := hC.salt w' hw' w hw hkey hidentity hsalt
      exact ⟨⟨hget, hmark, hc⟩, hwhole⟩
    obtain ⟨hfront, hall⟩ := @openFrames_genuine _ _ _ _ _ size _ _
      (fun i f c p hi h => (hopen i f c p hi h).1) 0 0 _ hcs
    rw [drop_zero] at hfront hall
    refine .inr ⟨w, hw, rfl, rfl, hfront, fun hnone => ?_⟩
    obtain ⟨hframes, i, c', p, hi, hlast⟩ := hall hnone
    obtain ⟨k, -, hwrite, hcount, hcompletes⟩ := C.write_spec w
    have hdone := hcompletes.2 ((hopen i true c' p hi hlast).2 rfl)
    refine ⟨hdone, ?_⟩
    rw [hwrite, hcount.1 hdone, take_of_length_le (by simp), ← hframes]
    simp

/-- **Bytes that are no complete output for a key and an identity end in an error**, behind chunks
that a genuine write for them began with. -/
theorem decryptStorageStream_tampered (key : Key) (identity : String) (pieces : List (List UInt8))
    (hpieces : ¬∃ w ∈ writes, w.key = key ∧ w.identity = identity ∧ C.Completes w ∧
      pieces.flatten = (C.write w).1.flatten) :
    (∃ e, C.decryptStorageStream pieces key identity = .error e) ∨
      ∃ size released e, C.decryptStorageStream pieces key identity =
          .ok (size, released, some e) ∧
        ∃ w ∈ writes, w.key = key ∧ w.identity = identity ∧ released <+: w.chunks := by
  rw [decryptStorageStream_eq]
  split_ifs with hheader hsize
  · exact .inl ⟨_, rfl⟩
  · exact .inl ⟨_, rfl⟩
  · rcases hC.openFrames (blocks_ne_nil _ _) with ⟨e, he⟩ | ⟨w, hw, hkey, hidentity, hfront, hall⟩
    · rw [he]
      exact .inl ⟨e, rfl⟩
    · generalize C.openFrames _ _ _ 0 0 _ = out at hfront hall ⊢
      obtain ⟨released, ending⟩ := out
      cases ending with
      | none =>
        obtain ⟨hcompletes, hbody⟩ := hall rfl
        rw [flatten_blocks (by decide), take_append_drop] at hbody
        exact absurd ⟨w, hw, hkey, hidentity, hcompletes, hbody⟩ hpieces
      | some e =>
        cases released with
        | nil => exact .inl ⟨e, rfl⟩
        | cons plain released =>
          exact .inr ⟨_, _, e, rfl, w, hw, hkey, hidentity, hfront⟩

end

/-- **The storage envelope.**  Whatever the pieces of the two streams: a source of a size that is
right, if one is announced, and of at most `2 ^ 32` chunks is read back with its size; where the
size is not right or the chunks are more, the writer ends in an error before its final frame; and
bytes that are no complete output for a key and an identity end in an error, behind chunks that a
genuine write for them began with. -/
theorem storage_envelope (hC : C.IdealFor writes) :
    (∀ w ∈ writes, w.Sized → w.chunks.length ≤ 2 ^ 32 →
      C.Completes w ∧ ∀ pieces, pieces.flatten = (C.write w).1.flatten →
        C.decryptStorageStream pieces w.key w.identity = .ok (w.size, w.chunks, none) ∧
          w.chunks.flatten = w.source.flatten) ∧
    (∀ w, ¬(w.Sized ∧ w.chunks.length ≤ 2 ^ 32) → ¬C.Completes w ∧ ∃ k ≤ w.chunks.length,
      (C.write w).1 =
        (w.header :: sealFrom (C.sealFrame (C.writeKey w) w.header) 0 w.chunks).take k) ∧
    ∀ key identity pieces, (¬∃ w ∈ writes, w.key = key ∧ w.identity = identity ∧ C.Completes w ∧
        pieces.flatten = (C.write w).1.flatten) →
      (∃ e, C.decryptStorageStream pieces key identity = .error e) ∨
        ∃ size released e, C.decryptStorageStream pieces key identity =
            .ok (size, released, some e) ∧
          ∃ w ∈ writes, w.key = key ∧ w.identity = identity ∧ released <+: w.chunks := by
  refine ⟨fun w hw hsized hcount => ⟨?_, fun pieces hpieces => ⟨?_, w.flatten_chunks⟩⟩,
    fun w hwrong => ?_, decryptStorageStream_tampered hC⟩
  · obtain ⟨-, -, -, -, hcompletes⟩ := C.write_spec w
    exact hcompletes.2 ⟨hsized, hcount⟩
  · exact decryptStorageStream_write hC hw hsized hcount hpieces
  · obtain ⟨k, hk, hwrite, hcount, hcompletes⟩ := C.write_spec w
    have hfails : (C.write w).2 ≠ none := fun h => hwrong (hcompletes.1 h)
    have hk' := Nat.lt_of_le_of_ne hk fun h => hfails (hcount.2 h)
    exact ⟨hfails, k, Nat.le_of_lt_succ hk', hwrite⟩

end StorageCrypto

/-! ### Primitives that keep their promises -/

/-- Sixteen bytes from a nonce. -/
def storageTag (n : List UInt8) : List UInt8 := (n ++ List.replicate 16 0).take 16

/-- Keys that keep what they are derived from, and a cipher that appends the nonce and opens only
the frames of one write. -/
def plainCrypto (w : StorageWrite Unit) : StorageCrypto Unit (List UInt8 × String) where
  objectKey _ salt identity := (salt, identity)
  aead :=
    { encrypt := fun _ n _ p => p ++ storageTag n
      decrypt := fun derived n header c =>
        if derived = (w.salt, w.identity) ∧
            c = c.take (c.length - storageTagBytes) ++ storageTag n ∧
            (n, header, c.take (c.length - storageTagBytes)) ∈ w.sealings then
          some (c.take (c.length - storageTagBytes))
        else none }

theorem length_storageTag (n : List UInt8) : (storageTag n).length = storageTagBytes := by
  rw [storageTag, length_take, length_append, length_replicate, storageTagBytes]
  omega

theorem plainCrypto_ideal (w : StorageWrite Unit) : (plainCrypto w).IdealFor {w} where
  objectKey := by
    rintro w' rfl key salt identity h
    obtain ⟨rfl, rfl⟩ := Prod.mk.inj h
    exact ⟨rfl, rfl, rfl⟩
  salt := by
    rintro w' rfl w'' rfl - - -
    rfl
  aead derived := by
    refine ⟨fun n a p => ?_, fun n a c p => ?_⟩
    · show (p ++ storageTag n).length = _
      rw [length_append, length_storageTag]
    · show (if _ then _ else none) = some p ↔ _ ∧ c = p ++ storageTag n
      constructor
      · intro h
        split_ifs at h with hopen
        obtain ⟨hkey, hc, hsealed⟩ := hopen
        cases h
        exact ⟨⟨w, rfl, hkey.symm, hsealed⟩, hc⟩
      · rintro ⟨⟨w', rfl, hkey, hsealed⟩, rfl⟩
        have htake :
            (p ++ storageTag n).take ((p ++ storageTag n).length - storageTagBytes) = p := by
          rw [length_append, length_storageTag, Nat.add_sub_cancel, take_left]
        rw [htake, if_pos ⟨hkey.symm, rfl, hsealed⟩]

/-- Three bytes in two pieces. -/
def smallWrite : StorageWrite Unit where
  key := ()
  identity := "uploads/1"
  size := some 3
  salt := List.replicate 32 7
  source := [[1, 2], [3]]
  length_salt := rfl

/-- Three bytes come back under their identity, and not under another one. -/
theorem storage_envelope_small :
    (plainCrypto smallWrite).decryptStorageStream
        [((plainCrypto smallWrite).write smallWrite).1.flatten] () "uploads/1" =
          .ok (some 3, [[1, 2, 3]], none) ∧
      ∃ e, (plainCrypto smallWrite).decryptStorageStream
        [((plainCrypto smallWrite).write smallWrite).1.flatten] () "uploads/2" = .error e := by
  obtain ⟨hround, -, hreject⟩ := StorageCrypto.storage_envelope (plainCrypto_ideal smallWrite)
  have hchunks : smallWrite.chunks = [[1, 2, 3]] := blocks_of_le (by decide)
  have hsized : smallWrite.Sized := by
    rintro n hn
    cases hn
    rfl
  have hother : ∀ w ∈ ({smallWrite} : Set (StorageWrite Unit)), w.identity ≠ "uploads/2" := by
    rintro w rfl
    decide
  obtain ⟨-, hread⟩ := hround smallWrite rfl hsized (by rw [hchunks]; decide)
  refine ⟨?_, ?_⟩
  · rw [← hchunks]
    exact (hread _ (by simp)).1
  · rcases hreject () "uploads/2" [((plainCrypto smallWrite).write smallWrite).1.flatten]
      (fun ⟨w, hw, _, hidentity, _⟩ => hother w hw hidentity) with
      herror | ⟨_, _, _, _, w, hw, _, hidentity, _⟩
    · exact herror
    · exact absurd hidentity (hother w hw)

/-! ### More chunks than numbers -/

/-- A source of zeros, of a size that is not announced. -/
def zeroWrite (n : ℕ) : StorageWrite Unit where
  key := ()
  identity := "uploads/1"
  size := none
  salt := List.replicate 32 7
  source := [List.replicate n 0]
  length_salt := rfl

theorem length_chunks_zeroWrite (n : ℕ) :
    (zeroWrite n).chunks.length = (n - 1) / storageChunkBytes + 1 := by
  rw [StorageWrite.chunks, length_blocks (by decide), zeroWrite, flatten_singleton,
    length_replicate]

/-- A source of more than `2 ^ 32` chunks is not stored, whatever the primitives. -/
theorem endless_source :
    (plainCrypto (zeroWrite (2 ^ 48 + 1))).IdealFor {zeroWrite (2 ^ 48 + 1)} ∧
      (zeroWrite (2 ^ 48 + 1)).Sized ∧
      ¬(plainCrypto (zeroWrite (2 ^ 48 + 1))).Completes (zeroWrite (2 ^ 48 + 1)) := by
  have hlarge : 2 ^ 32 < (2 ^ 48 + 1 - 1) / storageChunkBytes + 1 := by decide
  generalize 2 ^ 48 + 1 = n at hlarge ⊢
  refine ⟨plainCrypto_ideal _, nofun, fun h => ?_⟩
  obtain ⟨-, -, -, -, hcompletes⟩ := (plainCrypto (zeroWrite n)).write_spec (zeroWrite n)
  have hcount := (hcompletes.1 h).2
  rw [length_chunks_zeroWrite] at hcount
  omega

end Triage.Managed
