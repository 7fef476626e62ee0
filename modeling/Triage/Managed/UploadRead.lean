import Triage.Machine.Basic
import Triage.Managed.UploadSeal
import Mathlib.Data.List.Perm.Basic
import Mathlib.Data.List.Range

/-!
# A staged upload put together

`readUpload` of `uploads.ts` reads the parts of an upload, a few at a time, into one buffer that is
not cleared first. Its readers share the number of the next part and a flag that tells of a part
that does not fit; what the store answers, and in which order, is not known. Once every reader has
settled the parts are deleted, eight at a time.

## Main results

* `UploadRead.Inv.step` : every answer keeps the invariant.
* `readUpload_sound` : what is returned is the parts in order, and nothing is deleted early.
-/

namespace Triage.Managed

open Streams List Option Prod

/-- `UPLOAD_CHUNK_BYTES` -/
def uploadChunkBytes : ℕ := 3 * 1024 * 1024

/-- `MAX_UPLOAD_BYTES` -/
def maxUploadBytes : ℕ := 1024 * 1024 * 1024

/-- `MAX_STAGED_BYTES` -/
def maxStagedBytes : ℕ := maxSealedBytes maxUploadBytes

/-- `Math.ceil(size / UPLOAD_CHUNK_BYTES)` -/
def chunkCount (size : ℕ) : ℕ := (size + uploadChunkBytes - 1) / uploadChunkBytes

/-- `MAX_UPLOAD_PARTS` -/
def maxUploadParts : ℕ := chunkCount maxStagedBytes

/-- `PARTS_READ_AT_ONCE` -/
def partsReadAtOnce : ℕ := 6

/-- `UUID` -/
def isUploadId (id : List Char) : Bool :=
  id.length == 36 && id.zipIdx.all fun c =>
    if c.2 ∈ [8, 13, 18, 23] then c.1 == '-'
    else ('0' ≤ c.1 && c.1 ≤ '9') || ('a' ≤ c.1 && c.1 ≤ 'f')

/-- The failures of `readUpload`: its own two, and what the store throws. -/
inductive ReadUploadError
  | badUpload | tooLarge | store
  deriving DecidableEq

/-- A byte of `Buffer.allocUnsafe`: `none` until it is written. -/
abbrev BodyByte := Option UInt8

/-- `store.get`: the bytes of a part, or none, or it fails. -/
inductive PartAnswer
  | found (bytes : List UInt8)
  | missing
  | fails
  deriving DecidableEq

open PartAnswer

/-- Where one of the concurrent `readParts` is. -/
inductive PartReader
  /-- It waits for the store's answer for a part. -/
  | reading (index : ℕ)
  | finished
  | rejected (reason : ReadUploadError)
  deriving DecidableEq

open PartReader

/-- The part a reader waits for. -/
def PartReader.index : PartReader → Option ℕ
  | reading index => some index
  | _ => none

/-- The reason a reader was rejected for. -/
def PartReader.reason : PartReader → Option ReadUploadError
  | rejected reason => some reason
  | _ => none

/-- An upload being read. -/
structure UploadRead where
  body : List BodyByte
  failed : Bool
  next : ℕ
  readers : List PartReader
  /-- The answers of the store so far, each with the part asked for. -/
  answers : List (ℕ × PartAnswer)
  /-- What `readUpload` is to return or throw once it has cleaned up. -/
  result : Option (Except ReadUploadError (List BodyByte))
  /-- The first part of the next batch of deletions. -/
  start : ℕ
  /-- Every part `store.delete` was called for. -/
  deletes : List ℕ
  /-- Those it has not answered for. -/
  deleting : List ℕ
  /-- Those it failed for. -/
  errors : List ℕ
  cleaned : Bool
  deriving DecidableEq

/-- What the store answers next. -/
inductive UploadLabel
  /-- To a reader, for the part it waits for. -/
  | got (reader : ℕ) (answer : PartAnswer)
  /-- To the deletion of a part. -/
  | deleted (index : ℕ) (ok : Bool)
  deriving DecidableEq

/-- `bytes.copy(body, at)`: what does not fit is left out. -/
def copyInto (body : List BodyByte) (bytes : List UInt8) (position : ℕ) : List BodyByte :=
  (body.take position ++ bytes.map some ++ body.drop (position + bytes.length)).take body.length

namespace UploadRead

variable (count size : ℕ)

/-- The length a part must have. -/
def expected (index : ℕ) : ℕ := min uploadChunkBytes (size - index * uploadChunkBytes)

/-- `readParts` from the head of its loop to the next call of the store. -/
def readParts (s : UploadRead) (reader : ℕ) : UploadRead :=
  if !s.failed && s.next < count then
    { s with next := s.next + 1, readers := s.readers.set reader (.reading s.next) }
  else { s with readers := s.readers.set reader .finished }

/-- `readParts` from the store's answer on. -/
def gotPart (s : UploadRead) (reader index : ℕ) (answer : PartAnswer) : UploadRead :=
  let s := { s with answers := s.answers ++ [(index, answer)] }
  match answer with
  | .fails => { s with readers := s.readers.set reader (.rejected .store) }
  | .missing =>
    { s with failed := true, readers := s.readers.set reader (.rejected .badUpload) }
  | .found bytes =>
    if bytes.length ≠ expected size index then
      { s with failed := true, readers := s.readers.set reader (.rejected .badUpload) }
    else
      readParts count { s with body := copyInto s.body bytes (index * uploadChunkBytes) } reader

/-- The loop of `deleteUpload`: the deletions of one batch are awaited together. -/
def deleteBatch (s : UploadRead) : UploadRead :=
  if s.start < min count maxUploadParts then
    let batch := (List.range (min 8 (min count maxUploadParts - s.start))).map (s.start + ·)
    { s with start := s.start + 8, deletes := s.deletes ++ batch, deleting := batch }
  else { s with cleaned := true }

/-- What the settled readers come to: the first rejection is thrown. -/
def outcome (s : UploadRead) : Except ReadUploadError (List BodyByte) :=
  match s.readers.findSome? PartReader.reason with
  | some reason => .error reason
  | none => .ok s.body

/-- `Promise.allSettled` of the readers and what follows: the parts are deleted in either case. -/
def settled (s : UploadRead) : UploadRead :=
  if s.readers.all fun reader => reader.index.isNone then
    deleteBatch count { s with result := some s.outcome }
  else s

/-- The readers are started one after another; each runs to its first call of the store. -/
def startReaders (readers : ℕ) : UploadRead :=
  (List.range readers).foldl (readParts count)
    { body := List.replicate size none
      failed := false
      next := 0
      -- none has started: each is set to where it stands as it starts
      readers := List.replicate readers .finished
      answers := []
      result := none
      start := 0
      deletes := []
      deleting := []
      errors := []
      cleaned := false }

/-- An upload that is refused before it is read. -/
def refused (reason : ReadUploadError) : UploadRead :=
  deleteBatch count
    { body := []
      failed := false
      next := 0
      readers := []
      answers := []
      result := some (.error reason)
      start := 0
      deletes := []
      deleting := []
      errors := []
      cleaned := false }

/-- An upload under any order of the store's answers. -/
def machine : Machine UploadRead UploadLabel where
  step s
    | .got reader answer =>
      match s.readers[reader]? with
      | some (.reading index) => some (settled count (gotPart count size s reader index answer))
      | _ => none
    | .deleted index ok =>
      if index ∈ s.deleting then
        let s := { s with
          deleting := s.deleting.erase index
          errors := if ok then s.errors else s.errors ++ [index] }
        some (if s.deleting.isEmpty then deleteBatch count s else s)
      else none

/-- What `readUpload` has returned or thrown so far: at once where `behind` takes the cleanup. -/
def returned (s : UploadRead) (behind : Bool) : Option (Except ReadUploadError (List BodyByte)) :=
  if behind || s.cleaned then s.result else none

end UploadRead

open UploadRead

/-- The headers of the request, a number where `Number` makes an integer of one. -/
structure UploadRequest where
  /-- `x-upload-id` -/
  id : Option (List Char)
  /-- `x-upload-parts` -/
  count : Option ℤ
  /-- `x-upload-size` -/
  size : Option ℤ

/-- `Number.isSafeInteger` of a number above zero. -/
def safePositive : Option ℤ → Option ℕ
  | some n => if 0 < n ∧ n ≤ 9007199254740991 then some n.toNat else none
  | none => none

/-- `readUpload` up to its first wait: thrown at once for a request that names no upload, else the
upload's count and size and where it stands. -/
def readUpload (req : UploadRequest) (maxBytes : ℕ) :
    Except ReadUploadError (ℕ × ℕ × UploadRead) :=
  match req.id, safePositive req.count with
  | some id, some count =>
    if isUploadId id then
      match safePositive req.size with
      | none => .ok (count, 0, .refused count .badUpload)
      | some size =>
        if count ≠ chunkCount size then .ok (count, size, .refused count .badUpload)
        else if maxBytes < size ∨ maxStagedBytes < size then
          .ok (count, size, .refused count .tooLarge)
        else .ok (count, size,
          .settled count (.startReaders count size (min partsReadAtOnce count)))
    else .error .badUpload
  | _, _ => .error .badUpload

/-! ### Writing a part -/

theorem length_copyInto (body : List BodyByte) (bytes : List UInt8) (position : ℕ) :
    (copyInto body bytes position).length = body.length := by
  simp only [copyInto, length_take, length_append, length_map, length_drop]
  omega

theorem copyInto_nil (body : List BodyByte) (position : ℕ) : copyInto body [] position = body := by
  simp [copyInto]

/-- What a part that fits writes, and what it leaves. -/
theorem getElem?_copyInto {body : List BodyByte} {bytes : List UInt8} {position : ℕ}
    (h : position + bytes.length ≤ body.length) (k : ℕ) :
    (copyInto body bytes position)[k]? =
      if position ≤ k ∧ k < position + bytes.length then (bytes[k - position]?).map some
      else body[k]? := by
  have hlen : (body.take position ++ bytes.map some ++ body.drop (position + bytes.length)).length =
      body.length := by
    simp only [length_append, length_take, length_map, length_drop]
    omega
  have hpos : (body.take position).length = position := by
    rw [length_take]
    omega
  rw [copyInto, ← hlen, take_length, append_assoc]
  split_ifs with hin
  · rw [getElem?_append_right (by omega), hpos,
      getElem?_append_left (by rw [length_map]; omega), getElem?_map]
  · by_cases hk : k < position
    · rw [getElem?_append_left (by omega), getElem?_take, if_pos hk]
    · rw [getElem?_append_right (by omega), hpos,
        getElem?_append_right (by rw [length_map]; omega), length_map,
        getElem?_drop]
      congr 1
      omega

namespace UploadRead

variable {count size : ℕ}

theorem uploadChunkBytes_pos : 0 < uploadChunkBytes := by decide

/-! ### The invariant -/

/-- The store gave a part of the right length. -/
def Fits (size index : ℕ) (answer : PartAnswer) : Prop :=
  ∃ bytes, answer = .found bytes ∧ bytes.length = expected size index

/-- A reader has been rejected. -/
def Rejected (s : UploadRead) : Prop := ∃ reason, PartReader.rejected reason ∈ s.readers

/-- A part stands in its place in the buffer. -/
def Written (s : UploadRead) (index : ℕ) (bytes : List UInt8) : Prop :=
  ∀ k < bytes.length, s.body[index * uploadChunkBytes + k]? = (bytes[k]?).map some

/-- While parts are read: each part below `next` was asked for once, a part that came is in its
place, and a reader only ends where the parts are all taken or another has failed. -/
structure Reads (count size : ℕ) (s : UploadRead) : Prop where
  length : s.body.length = size
  next : s.next ≤ count
  taken : (s.readers.filterMap PartReader.index ++ s.answers.map Prod.fst).Perm (List.range s.next)
  written : ∀ index bytes, (index, PartAnswer.found bytes) ∈ s.answers →
    bytes.length = expected size index → s.Written index bytes
  fits : ∀ index answer, (index, answer) ∈ s.answers → Fits size index answer ∨ s.Rejected
  failed : s.failed = true → s.Rejected
  finished : .finished ∈ s.readers → s.failed = true ∨ s.next = count
  readers : s.readers ≠ []
  start : s.start = 0
  deletes : s.deletes = []
  deleting : s.deleting = []
  sized : 0 < size ∧ count = chunkCount size

/-- A buffer is the parts in order, each as the store gave it. -/
def Whole (count size : ℕ) (s : UploadRead) (body : List BodyByte) : Prop :=
  ∃ parts : List (List UInt8), parts.length = count ∧
    (∀ index bytes, parts[index]? = some bytes →
      (index, .found bytes) ∈ s.answers ∧ bytes.length = expected size index) ∧
    body = parts.flatten.map some ∧ body.length = size

/-- What holds of every state. -/
structure Inv (count size : ℕ) (s : UploadRead) : Prop where
  reads : s.result = none → s.Reads count size ∧ ∃ index, .reading index ∈ s.readers
  rest : s.result.isSome → ∀ reader ∈ s.readers, reader.index = none
  whole : ∀ body, s.result = some (.ok body) → s.Whole count size body
  cleaned : s.result.isSome → s.deleting = [] → s.cleaned = true
  once : (s.answers.map Prod.fst).Nodup ∧ ∀ index ∈ s.answers.map Prod.fst, index < count
  deletes : s.deletes = List.range (min s.start (min count maxUploadParts))

/-! ### Deleting -/

theorem deleteBatch_result (s : UploadRead) :
    (s.deleteBatch count).result = s.result ∧ (s.deleteBatch count).readers = s.readers ∧
      (s.deleteBatch count).answers = s.answers := by
  rw [deleteBatch]
  split_ifs <;> exact ⟨rfl, rfl, rfl⟩

variable {s : UploadRead}

/-- A batch of deletions is the next of them. -/
theorem deleteBatch_deletes (h : s.deletes = List.range (min s.start (min count maxUploadParts))) :
    (s.deleteBatch count).deletes =
      List.range (min (s.deleteBatch count).start (min count maxUploadParts)) := by
  rw [deleteBatch]
  split_ifs with hlt
  · simp only [h]
    rw [min_eq_left hlt.le, ← range_add]
    congr 1
    omega
  · exact h

/-- Where nothing is being deleted once a batch is done, all is. -/
theorem deleteBatch_cleaned (h : (s.deleteBatch count).deleting = []) :
    (s.deleteBatch count).cleaned = true := by
  rw [deleteBatch] at h ⊢
  split_ifs at h ⊢ with hlt
  · simp only [map_eq_nil_iff, range_eq_nil] at h
    omega
  · rfl

/-- The next batch, once what to return is known. -/
theorem Inv.deleteBatch (hsome : s.result.isSome)
    (hrest : ∀ reader ∈ s.readers, reader.index = none)
    (hwhole : ∀ body, s.result = some (.ok body) → s.Whole count size body)
    (honce : (s.answers.map fst).Nodup ∧ ∀ index ∈ s.answers.map fst, index < count)
    (hdeletes : s.deletes = List.range (min s.start (min count maxUploadParts))) :
    (s.deleteBatch count).Inv count size := by
  obtain ⟨hresult, hreaders, hanswers⟩ := @deleteBatch_result count s
  refine ⟨fun hnone => ?_, fun _ => ?_, fun body hbody => ?_, fun _ => deleteBatch_cleaned, ?_,
    deleteBatch_deletes hdeletes⟩
  · rw [← hresult, hnone] at hsome
    cases hsome
  · rwa [hreaders]
  · rw [hresult] at hbody
    rw [Whole, hanswers]
    exact hwhole body hbody
  · rwa [hanswers]

/-! ### Putting the parts together -/

variable {readers : List PartReader}

/-- The readers of a list one of which moves on. -/
theorem filterMap_set {reader : ℕ} {old new : PartReader} (h : readers[reader]? = some old) :
    ((readers.set reader new).filterMap index ++ old.index.toList).Perm
      (readers.filterMap index ++ new.index.toList) := by
  obtain ⟨hlt, hold⟩ := List.getElem?_eq_some_iff.1 h
  have hsplit : readers = readers.take reader ++ old :: readers.drop (reader + 1) := by
    rw [← hold, ← drop_eq_getElem_cons hlt, take_append_drop]
  have hset : readers.set reader new = readers.take reader ++ new :: readers.drop (reader + 1) := by
    rw [set_eq_take_append_cons_drop, if_pos hlt]
  have hcons : ∀ (x : PartReader) xs,
      (x :: xs).filterMap index = x.index.toList ++ xs.filterMap index := by
    intro x xs
    cases hx : x.index with
    | none => rw [filterMap_cons_none hx]; rfl
    | some i => rw [filterMap_cons_some hx]; rfl
  rw [hset]
  conv_rhs => rw [hsplit]
  simp only [filterMap_append, hcons, append_assoc]
  rw [perm_iff_count]
  intro x
  simp only [count_append]
  omega

/-- The other readers stay as they are. -/
theorem mem_set_of_ne {reader : ℕ} {old new y : PartReader}
    (h : readers[reader]? = some old) (hy : y ∈ readers) (hne : y ≠ old) :
    y ∈ readers.set reader new := by
  obtain ⟨i, hi⟩ := mem_iff_getElem?.1 hy
  refine mem_iff_getElem?.2 ⟨i, ?_⟩
  have hi' : reader ≠ i := by
    rintro rfl
    rw [h, Option.some.injEq] at hi
    exact hne hi.symm
  rw [getElem?_set_ne hi', hi]

theorem Rejected.set {s s' : UploadRead} {reader index : ℕ} {new : PartReader}
    (h : s.Rejected) (hr : s.readers[reader]? = some (.reading index))
    (hs : s'.readers = s.readers.set reader new) : s'.Rejected := by
  obtain ⟨reason, hmem⟩ := h
  refine ⟨reason, ?_⟩
  rw [hs]
  exact mem_set_of_ne hr hmem (by simp)

namespace Reads

variable {s : UploadRead} {reader index : ℕ}

theorem nodup (h : s.Reads count size) :
    (s.readers.filterMap PartReader.index ++ s.answers.map fst).Nodup :=
  h.taken.nodup_iff.2 nodup_range

theorem mem_filterMap (hr : s.readers[reader]? = some (.reading index)) :
    index ∈ s.readers.filterMap PartReader.index :=
  List.mem_filterMap.2 ⟨.reading index, mem_of_getElem? hr, rfl⟩

/-- A part that is waited for has not been answered for. -/
theorem not_answered (h : s.Reads count size) (hr : s.readers[reader]? = some (.reading index)) :
    index ∉ s.answers.map fst := fun hmem =>
  (nodup_append.1 h.nodup).2.2 _ (mem_filterMap hr) _ hmem rfl

/-- The answer to a reader, and where it goes next. -/
theorem taken_set (h : s.Reads count size) (hr : s.readers[reader]? = some (.reading index))
    (new : PartReader) (answer : PartAnswer) :
    ((s.readers.set reader new).filterMap PartReader.index ++
      (s.answers ++ [(index, answer)]).map fst).Perm
        (List.range s.next ++ new.index.toList) := by
  have hset := @filterMap_set _ _ _ new hr
  have htaken := h.taken
  rw [perm_iff_count] at hset htaken ⊢
  intro x
  have h₁ := hset x
  have h₂ := htaken x
  simp only [count_append, map_append, map_cons, map_nil, PartReader.index, toList_some] at h₁ h₂ ⊢
  omega

/-- A part that does not fit rejects its reader. -/
theorem reject (h : s.Reads count size) (hr : s.readers[reader]? = some (.reading index))
    {answer : PartAnswer} (hanswer : ¬ Fits size index answer) (failed : Bool)
    (reason : ReadUploadError) (hfailed : s.failed = true → failed = true) :
    Reads count size { s with
      failed := failed
      readers := s.readers.set reader (.rejected reason)
      answers := s.answers ++ [(index, answer)] } := by
  have hlt : reader < s.readers.length := (List.getElem?_eq_some_iff.1 hr).1
  have hrejected : ∃ r, rejected r ∈ s.readers.set reader (.rejected reason) :=
    ⟨reason, mem_iff_getElem?.2 ⟨reader, by rw [getElem?_set_self hlt]⟩⟩
  refine ⟨h.length, h.next, ?_, ?_, fun _ _ _ => .inr hrejected, fun _ => hrejected, ?_, ?_,
    h.start, h.deletes, h.deleting, h.sized⟩
  · simpa [PartReader.index] using h.taken_set hr (.rejected reason) answer
  · intro i bytes hmem hlen
    rcases mem_append.1 hmem with hmem | hmem
    · exact h.written i bytes hmem hlen
    · rw [mem_singleton, Prod.mk.injEq] at hmem
      obtain ⟨rfl, rfl⟩ := hmem
      exact absurd ⟨bytes, rfl, hlen⟩ hanswer
  · intro hmem
    rcases mem_or_eq_of_mem_set hmem with hmem | hmem
    · exact (h.finished hmem).imp_left hfailed
    · simp at hmem
  · exact fun hnil => h.readers ((set_eq_nil_iff _ _).1 hnil)

/-- A part that fits is written to its place, and no other part is touched. -/
theorem written_copy (h : s.Reads count size) (hr : s.readers[reader]? = some (.reading index))
    {bytes : List UInt8} (hlen : bytes.length = expected size index) {s' : UploadRead}
    (hbody : s'.body = copyInto s.body bytes (index * uploadChunkBytes))
    (hanswers : s'.answers = s.answers ++ [(index, .found bytes)]) :
    ∀ i b, (i, found b) ∈ s'.answers → b.length = expected size i → s'.Written i b := by
  intro i b hmem hb k hk
  rw [hbody]
  rcases bytes.length.eq_zero_or_pos with hzero | hpos
  · -- nothing is written
    rw [eq_nil_of_length_eq_zero hzero, copyInto_nil]
    rw [hanswers] at hmem
    rcases mem_append.1 hmem with hmem | hmem
    · exact h.written i b hmem hb k hk
    · rw [mem_singleton, Prod.mk.injEq, found.injEq] at hmem
      rw [hmem.2] at hk
      omega
  rw [expected] at hlen hb
  have hbody := h.length
  rw [getElem?_copyInto (by omega)]
  rw [hanswers] at hmem
  rcases mem_append.1 hmem with hold | hmem
  · have hne : i ≠ index := by
      rintro rfl
      exact h.not_answered hr (List.mem_map.2 ⟨(i, .found b), hold, rfl⟩)
    rw [if_neg]
    · exact h.written i b hold hb k hk
    · rintro ⟨hle, hlt⟩
      rcases lt_or_gt_of_ne hne with hi | hi
      · have := Nat.mul_le_mul_right uploadChunkBytes (Nat.succ_le_of_lt hi)
        rw [Nat.succ_mul] at this
        omega
      · have := Nat.mul_le_mul_right uploadChunkBytes (Nat.succ_le_of_lt hi)
        rw [Nat.succ_mul] at this
        omega
  · rw [mem_singleton, Prod.mk.injEq, found.injEq] at hmem
    obtain ⟨rfl, rfl⟩ := hmem
    rw [if_pos (by omega), Nat.add_sub_cancel_left]

/-- A part that fits is written, and its reader goes on. -/
theorem accept (h : s.Reads count size) (hr : s.readers[reader]? = some (.reading index))
    {bytes : List UInt8} (hlen : bytes.length = expected size index) :
    (gotPart count size s reader index (.found bytes)).Reads count size := by
  have hfits : ∀ {s' : UploadRead} {new : PartReader}, s'.readers = s.readers.set reader new →
      s'.answers = s.answers ++ [(index, .found bytes)] →
      ∀ i answer, (i, answer) ∈ s'.answers → Fits size i answer ∨ s'.Rejected := by
    intro s' new hreaders hanswers i answer hmem
    rw [hanswers] at hmem
    rcases mem_append.1 hmem with hmem | hmem
    · exact (h.fits i answer hmem).imp_right fun hrej => hrej.set hr hreaders
    · rw [mem_singleton, Prod.mk.injEq] at hmem
      obtain ⟨rfl, rfl⟩ := hmem
      exact .inl ⟨bytes, rfl, hlen⟩
  have hlength : (copyInto s.body bytes (index * uploadChunkBytes)).length = size :=
    (length_copyInto _ _ _).trans h.length
  simp only [gotPart, ne_eq, hlen, not_true_eq_false, if_false, readParts, Bool.and_eq_true,
    Bool.not_eq_true', decide_eq_true_eq]
  split_ifs with hgo
  · -- the next part is asked for
    refine ⟨hlength, hgo.2, ?_, h.written_copy hr hlen rfl rfl, hfits rfl rfl, ?_, ?_, ?_, h.start,
      h.deletes, h.deleting, h.sized⟩
    · have htaken := h.taken_set hr (.reading s.next) (.found bytes)
      rw [range_succ]
      exact htaken
    · exact fun hfailed => absurd hfailed (by simp [hgo.1])
    · intro hmem
      rcases mem_or_eq_of_mem_set hmem with hmem | hmem
      · rcases h.finished hmem with hfailed | hnext
        · exact .inl hfailed
        · exact absurd hgo.2 (by omega)
      · simp at hmem
    · exact fun hnil => h.readers ((set_eq_nil_iff _ _).1 hnil)
  · -- the reader ends
    refine ⟨hlength, h.next, ?_, h.written_copy hr hlen rfl rfl, hfits rfl rfl, ?_, ?_, ?_,
      h.start, h.deletes, h.deleting, h.sized⟩
    · simpa [PartReader.index] using h.taken_set hr .finished (.found bytes)
    · exact fun hfailed => (h.failed hfailed).set hr rfl
    · intro _
      have hnext := h.next
      simp only
      by_cases hfailed : s.failed = true
      · exact .inl hfailed
      · refine .inr ?_
        have : ¬ s.next < count := fun hlt => hgo ⟨by simpa using hfailed, hlt⟩
        omega
    · exact fun hnil => h.readers ((set_eq_nil_iff _ _).1 hnil)

theorem gotPart (h : s.Reads count size) (hr : s.readers[reader]? = some (.reading index))
    (answer : PartAnswer) : (s.gotPart count size reader index answer).Reads count size := by
  cases answer with
  | fails =>
    refine h.reject hr ?_ s.failed .store id
    rintro ⟨bytes, hbytes, -⟩
    cases hbytes
  | missing =>
    refine h.reject hr ?_ true .badUpload fun _ => rfl
    rintro ⟨bytes, hbytes, -⟩
    cases hbytes
  | found bytes =>
    by_cases hlen : bytes.length = expected size index
    · exact h.accept hr hlen
    · simp only [UploadRead.gotPart, ne_eq, hlen, not_false_eq_true, if_true]
      refine h.reject hr ?_ true .badUpload fun _ => rfl
      rintro ⟨bytes', hbytes, hlen'⟩
      cases hbytes
      exact hlen hlen'

/-- Every part was asked for at most once. -/
theorem once (h : s.Reads count size) :
    (s.answers.map fst).Nodup ∧ ∀ index ∈ s.answers.map fst, index < count := by
  refine ⟨(nodup_append.1 h.nodup).2.1, fun index hmem => ?_⟩
  have hlt : index < s.next := by
    rw [← mem_range, ← h.taken.mem_iff]
    exact mem_append_right _ hmem
  have := h.next
  omega

/-- Once every reader has ended and none was rejected, every part was taken and is in its place. -/
theorem whole (h : s.Reads count size) (hall : ∀ reader ∈ s.readers, reader.index = none)
    (hnone : s.readers.findSome? reason = none) : s.Whole count size s.body := by
  have hok : ¬ s.Rejected := by
    rintro ⟨reason, hmem⟩
    have := findSome?_eq_none_iff.1 hnone _ hmem
    cases this
  have hnext : s.next = count := by
    obtain ⟨reader, hmem⟩ := exists_mem_of_ne_nil _ h.readers
    cases reader with
    | reading index => cases hall _ hmem
    | finished =>
      rcases h.finished hmem with hfailed | hnext
      · exact absurd (h.failed hfailed) hok
      · exact hnext
    | rejected reason => exact absurd ⟨reason, hmem⟩ hok
  have hempty : s.readers.filterMap index = [] := filterMap_eq_nil_iff.2 hall
  have hparts : ∀ index, ∃ bytes, index < count →
      (index, found bytes) ∈ s.answers ∧ bytes.length = expected size index := by
    intro index
    by_cases hlt : index < count
    · have hmem : index ∈ s.answers.map fst := by
        have htaken := h.taken
        rw [hempty, nil_append, hnext] at htaken
        rw [htaken.mem_iff, mem_range]
        exact hlt
      obtain ⟨⟨i, answer⟩, hanswer, rfl⟩ := List.mem_map.1 hmem
      obtain ⟨bytes, rfl, hlen⟩ := (h.fits i answer hanswer).resolve_right hok
      exact ⟨bytes, fun _ => ⟨hanswer, hlen⟩⟩
    · exact ⟨[], fun hlt' => absurd hlt' hlt⟩
  choose part hpart using hparts
  refine ⟨(List.range count).map part, by simp, fun index bytes hindex => ?_, ?_, h.length⟩
  · rw [getElem?_map, map_eq_some_iff] at hindex
    obtain ⟨i, hi, rfl⟩ := hindex
    obtain ⟨hlt, rfl⟩ := List.getElem?_eq_some_iff.1 hi
    rw [getElem_range]
    exact hpart index (by simpa using hlt)
  · -- the buffer is its blocks, and each of them is a part
    have hblocks : (blocks uploadChunkBytes s.body).length = count := by
      have hsize := h.sized.1
      rw [length_blocks uploadChunkBytes_pos, h.length, h.sized.2, chunkCount,
        ← Nat.add_div_right _ uploadChunkBytes_pos]
      congr 1
      omega
    have heq : blocks uploadChunkBytes s.body =
        (List.range count).map fun index => (part index).map some := by
      refine ext_getElem? fun index => ?_
      by_cases hlt : index < count
      · obtain ⟨hmem, hlen⟩ := hpart index hlt
        rw [getElem?_blocks uploadChunkBytes_pos _ (by omega), getElem?_map,
          getElem?_range hlt, map_some, Option.some.injEq]
        refine ext_getElem? fun k => ?_
        have hwritten := h.written index _ hmem hlen
        have hbody := h.length
        rw [expected] at hlen
        rw [getElem?_take, getElem?_drop, getElem?_map]
        by_cases hk : k < (part index).length
        · rw [if_pos (by omega), hwritten k hk]
        · rw [getElem?_eq_none (Nat.le_of_not_lt hk), map_none]
          split_ifs with hchunk
          · exact getElem?_eq_none (by omega)
          · rfl
      · rw [getElem?_eq_none (by omega), getElem?_eq_none (by simpa using hlt)]
    calc s.body = (blocks uploadChunkBytes s.body).flatten :=
          (flatten_blocks uploadChunkBytes_pos _).symm
      _ = ((List.range count).map part).flatten.map some := by
          rw [heq, map_flatten, List.map_map]
          rfl

/-- An answer, and what follows where it was the last to be waited for. -/
theorem settled (h : s.Reads count size) (hresult : s.result = none) :
    (s.settled count).Inv count size := by
  rw [UploadRead.settled]
  split_ifs with hall
  · have hall' : ∀ reader ∈ s.readers, reader.index = none := fun reader hmem => by
      simpa using List.all_eq_true.1 hall reader hmem
    refine Inv.deleteBatch rfl hall' (fun body hbody => ?_) h.once ?_
    · rw [Option.some.injEq, outcome] at hbody
      cases hreason : s.readers.findSome? reason with
      | some reason => simp [hreason] at hbody
      | none =>
        simp only [hreason, Except.ok.injEq] at hbody
        exact hbody ▸ h.whole hall' hreason
    · simp [h.deletes, h.start]
  · have hreading : ∃ index, .reading index ∈ s.readers := by
      rw [List.all_eq_true] at hall
      push Not at hall
      obtain ⟨reader, hmem, hindex⟩ := hall
      cases reader with
      | reading index => exact ⟨index, hmem⟩
      | finished => exact absurd rfl hindex
      | rejected reason => exact absurd rfl hindex
    refine ⟨fun _ => ⟨h, hreading⟩, fun hsome => ?_, fun body hbody => ?_, fun hsome => ?_, h.once,
      ?_⟩
    · simp [hresult] at hsome
    · simp [hresult] at hbody
    · simp [hresult] at hsome
    · simp [h.deletes, h.start]

end Reads

/-! ### Runs -/

/-- The store's answer to a deletion. -/
theorem Inv.deleted {s : UploadRead} (h : s.Inv count size) {index : ℕ}
    (hmem : index ∈ s.deleting) (errors : List ℕ) :
    Inv count size
      (if (s.deleting.erase index).isEmpty then
        UploadRead.deleteBatch count { s with deleting := s.deleting.erase index, errors := errors }
      else { s with deleting := s.deleting.erase index, errors := errors }) := by
  have hsome : s.result.isSome := by
    by_contra hnone
    rw [not_isSome_iff_eq_none] at hnone
    rw [(h.reads hnone).1.deleting] at hmem
    cases hmem
  split_ifs with hempty
  · exact Inv.deleteBatch hsome (h.rest hsome) h.whole h.once h.deletes
  · refine ⟨fun hnone => ?_, h.rest, h.whole, fun _ hnil => ?_, h.once, h.deletes⟩
    · simp [show s.result = none from hnone] at hsome
    · rw [show s.deleting.erase index = [] from hnil] at hempty
      exact absurd rfl hempty

/-- Every answer keeps the invariant. -/
theorem Inv.step {s s' : UploadRead} (h : s.Inv count size) {label : UploadLabel}
    (hst : (machine count size).step s label = some s') : s'.Inv count size := by
  cases label with
  | got reader answer =>
    simp only [machine] at hst
    split at hst
    · rename_i index hr
      rw [Option.some.injEq] at hst
      subst hst
      have hresult : s.result = none := by
        by_contra hsome
        have := h.rest (isSome_iff_ne_none.2 hsome) _ (mem_of_getElem? hr)
        cases this
      refine ((h.reads hresult).1.gotPart hr answer).settled ?_
      rw [← hresult]
      cases answer with
      | fails => rfl
      | missing => rfl
      | found bytes =>
        simp only [gotPart, readParts]
        split_ifs <;> rfl
    · cases hst
  | deleted index ok =>
    simp only [machine] at hst
    by_cases hmem : index ∈ s.deleting
    · rw [if_pos hmem, Option.some.injEq] at hst
      exact hst ▸ h.deleted hmem _
    · rw [if_neg hmem] at hst
      cases hst

/-- The readers as they are started: each waits for the part of its own number. -/
theorem startReaders_eq {readers : ℕ} (h : readers ≤ count) :
    startReaders count size readers =
      { body := List.replicate size none
        failed := false
        next := readers
        readers := (List.range readers).map .reading
        answers := []
        result := none
        start := 0
        deletes := []
        deleting := []
        errors := []
        cleaned := false } := by
  -- the first few have been started, the rest not yet
  have key : ∀ started ≤ readers, (List.range started).foldl (readParts count)
      { body := List.replicate size none
        failed := false
        next := 0
        readers := List.replicate readers .finished
        answers := []
        result := none
        start := 0
        deletes := []
        deleting := []
        errors := []
        cleaned := false } =
      { body := List.replicate size none
        failed := false
        next := started
        readers := (List.range started).map .reading ++ List.replicate (readers - started) .finished
        answers := []
        result := none
        start := 0
        deletes := []
        deleting := []
        errors := []
        cleaned := false } := by
    intro started hle
    induction started with
    | zero => simp
    | succ started ih =>
      have hrest : readers - started = readers - (started + 1) + 1 := by omega
      rw [range_succ, foldl_append, ih (by omega), foldl_cons, foldl_nil,
        readParts, if_pos (by simp only [Bool.not_false, Bool.true_and, decide_eq_true_eq]; omega),
        set_append_right _ _ (by simp), hrest, replicate_succ]
      simp
  have hall := key readers le_rfl
  rw [Nat.sub_self, replicate_zero, append_nil] at hall
  exact hall

/-- Parts are about to be read. -/
theorem reads_startReaders {readers : ℕ} (hpos : 0 < readers) (h : readers ≤ count)
    (hsized : 0 < size ∧ count = chunkCount size) :
    (startReaders count size readers).Reads count size := by
  rw [startReaders_eq h]
  have hindex : ((List.range readers).map reading).filterMap index =
      List.range readers := by
    rw [filterMap_map]
    exact filterMap_some
  refine ⟨by simp, h, ?_, by simp, by simp, by simp, by simp, ?_, rfl, rfl, rfl, hsized⟩
  · simp only [hindex, map_nil, append_nil]
    exact List.Perm.refl _
  · simp only [ne_eq, map_eq_nil_iff, range_eq_nil]
    omega

theorem inv_refused (reason : ReadUploadError) : (refused count reason).Inv count size :=
  Inv.deleteBatch rfl (by simp) (by simp) (by simp) (by simp)

/-- What an upload being read promises. -/
structure Sound (count size : ℕ) (behind : Bool) (s : UploadRead) : Prop where
  /-- A buffer that is returned is the parts in order, each present with its length. -/
  whole : ∀ body, s.returned behind = some (.ok body) → s.Whole count size body
  /-- No part is deleted while a reader waits for one. -/
  late : s.deletes ≠ [] → ∀ reader ∈ s.readers, reader.index = none
  /-- Once the store has answered every call, the buffer is returned or the upload fails. -/
  ends : (∀ reader ∈ s.readers, reader.index = none) → s.deleting = [] →
    (s.returned behind).isSome
  /-- No part is read or deleted twice, so the store is called a bounded number of times. -/
  once : (s.answers.map Prod.fst).Nodup ∧ (∀ index ∈ s.answers.map Prod.fst, index < count) ∧
    s.deletes.Nodup ∧ ∀ index ∈ s.deletes, index < count

theorem Inv.sound {s : UploadRead} (h : s.Inv count size) (behind : Bool) :
    s.Sound count size behind where
  whole body hbody := by
    rw [returned] at hbody
    split_ifs at hbody
    exact h.whole body hbody
  late hdel := by
    refine h.rest ?_
    by_contra hnone
    rw [not_isSome_iff_eq_none] at hnone
    exact hdel (h.reads hnone).1.deletes
  ends hall hdel := by
    have hsome : s.result.isSome := by
      by_contra hnone
      rw [not_isSome_iff_eq_none] at hnone
      obtain ⟨-, index, hmem⟩ := h.reads hnone
      cases hall _ hmem
    rw [returned, h.cleaned hsome hdel, Bool.or_true, if_pos rfl]
    exact hsome
  once := by
    refine ⟨h.once.1, h.once.2, ?_, fun index hmem => ?_⟩
    · rw [h.deletes]
      exact nodup_range
    · rw [h.deletes, mem_range] at hmem
      omega

end UploadRead

theorem safePositive_spec {n : Option ℤ} {m : ℕ} (h : safePositive n = some m) : 0 < m := by
  cases n with
  | none => cases h
  | some n =>
    rw [safePositive] at h
    split_ifs at h with hn
    rw [Option.some.injEq] at h
    omega

/-- What a request starts. -/
theorem inv_readUpload {req : UploadRequest} {maxBytes count size : ℕ} {s : UploadRead}
    (h : readUpload req maxBytes = .ok (count, size, s)) : s.Inv count size := by
  rw [readUpload] at h
  split at h
  · rename_i id n _ hn
    split_ifs at h
    cases hsize : safePositive req.size with
    | none =>
      simp only [hsize, Except.ok.injEq, Prod.mk.injEq] at h
      obtain ⟨rfl, rfl, rfl⟩ := h
      exact inv_refused _
    | some m =>
      simp only [hsize] at h
      split_ifs at h with hcount hlarge
      all_goals simp only [Except.ok.injEq, Prod.mk.injEq] at h
      all_goals obtain ⟨rfl, rfl, rfl⟩ := h
      · exact inv_refused _
      · exact inv_refused _
      · have hpos := safePositive_spec hn
        have hle : min partsReadAtOnce n ≤ n := min_le_right _ _
        refine (reads_startReaders ?_ hle
          ⟨safePositive_spec hsize, not_not.1 hcount⟩).settled ?_
        · exact lt_min (by decide) hpos
        · rw [startReaders_eq hle]
  · cases h

/-- **A staged upload is put together exactly or fails**, whatever the store answers and in
whichever order: what is returned is its parts in order, each as the store gave it and of its
length, and no part is deleted while one is still read. -/
theorem readUpload_sound {req : UploadRequest} {maxBytes count size : ℕ} {s₀ s : UploadRead}
    (h : readUpload req maxBytes = .ok (count, size, s₀))
    (hr : (UploadRead.machine count size).Reachable s₀ s) (behind : Bool) :
    s.Sound count size behind := by
  have hinv : s.Inv count size :=
    hr.invariant (inv_readUpload h) fun _ _ _ hI hst => hI.step hst
  exact hinv.sound behind

/-- An upload of three bytes, its one part read and deleted. -/
theorem readUpload_sound_short :
    UploadRead.Sound 1 3 false
      { body := [some 1, some 2, some 3]
        failed := false
        next := 1
        readers := [.finished]
        answers := [(0, .found [1, 2, 3])]
        result := some (.ok [some 1, some 2, some 3])
        start := 8
        deletes := [0]
        deleting := []
        errors := []
        cleaned := true } :=
  @readUpload_sound
    ⟨some "01234567-89ab-cdef-0123-456789abcdef".toList, some 1, some 3⟩ 100 1 3
    (.settled 1 (.startReaders 1 3 (min partsReadAtOnce 1))) _ (by decide +kernel)
    (@Machine.reachable_of_run _ _ _ [.got 0 (.found [1, 2, 3]), .deleted 0 true] _ _
      (by decide +kernel)) false

end Triage.Managed
