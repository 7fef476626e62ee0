import Triage.Managed.UploadSeal

/-!
# Sealed uploads open to what was sealed

A sealed body opens to the content, is not longer than the server allows for, and nothing else with
its header opens, as long as the segments have different nonces. The number of a segment takes
four bytes of the nonce, so that is up to four pebibytes; behind that two segments can change
places.

## Main results

* `sealed_upload` : the round trip, the bound, and the refusal of every other body.
* `swapped_upload_opens` : the refusal fails once the numbers wrap around.
-/

namespace Triage.Managed

open Streams Crypto List SealCrypto Nat

namespace SealCrypto

variable {Key Secret PrivateKey : Type} {C : SealCrypto Key Secret PrivateKey}

/-- The content key of an upload is ideal, and has sealed the segments of that upload only. -/
def IdealFor (C : SealCrypto Key Secret PrivateKey) (blob : List (List UInt8))
    (server ephemeral : PrivateKey) : Prop :=
  ∀ secret, C.deriveBits ephemeral (C.publicKey server) = some secret →
    C.aead.Ideal tagBytes (C.deriveKey secret (C.header blob ephemeral))
      (streamSealings nonce () (C.segments blob))

variable {blob : List (List UInt8)} {ephemeral : PrivateKey}

/-! ### The header -/

theorem length_header (hC : C.Lawful) : (C.header blob ephemeral).length = headerBytes := by
  rw [header, length_append, hC.length_publicKey]
  rfl

theorem flags_header : (C.header blob ephemeral)[1]? =
    some (if isText blob.flatten then flagGzip else 0) := rfl

theorem drop_header : (C.header blob ephemeral).drop 2 = C.publicKey ephemeral := rfl

/-! ### The length of a sealed body -/

theorem length_payload (hC : C.Lawful) (blob : List (List UInt8)) :
    (C.payload blob).flatten.length ≤
      blob.flatten.length + 5 * (blob.flatten.length / 16383 + 1) + 18 := by
  unfold payload
  split_ifs
  · exact hC.length_gzip blob
  · omega

theorem length_sealed {hdr : List UInt8} {cs : List (List UInt8)} {xs : List UInt8}
    (hlength : hdr.length = headerBytes)
    (hcs : cs.map List.length = (blocks segmentBytes xs).map fun b => b.length + tagBytes) {n : ℕ}
    (hxs : xs.length ≤ n + 5 * (n / 16383 + 1) + 18) :
    (hdr ++ cs.flatten).length ≤ maxSealedBytes n := by
  have hcount : cs.length = (xs.length - 1) / segmentBytes + 1 := by
    rw [← length_blocks (by decide)]
    simpa using congrArg List.length hcs
  have hbound : xs.length ≤ n + (n + 1023) / 1024 + 64 := by omega
  have hsegments : (xs.length - 1) / segmentBytes ≤ (n + (n + 1023) / 1024 + 64) / segmentBytes :=
    Nat.div_le_div_right (by omega)
  rw [length_append, hlength, length_flatten_of_map hcs, flatten_blocks (by decide), hcount,
    maxSealedBytes, mul_comm tagBytes]
  have := mul_le_mul_right tagBytes (succ_le_succ hsegments)
  simp only [succ_eq_add_one] at this
  omega

/-! ### Decompression -/

theorem gunzipPieces_eq {maxBytes : ℕ} (pieces : List (List UInt8)) {out : List UInt8}
    (hout : out.length ≤ maxBytes) :
    gunzipPieces maxBytes true out pieces =
      if maxBytes < out.length + pieces.flatten.length then .error .tooLarge
      else .ok (out ++ pieces.flatten) := by
  induction pieces generalizing out with
  | nil => simp [gunzipPieces, hout]
  | cons value rest ih =>
    rw [gunzipPieces, flatten_cons, length_append, ← add_assoc]
    by_cases hlarge : maxBytes < out.length + value.length
    · rw [if_pos hlarge, if_pos (by omega)]
    · rw [if_neg hlarge, ih (by rw [length_append]; omega), length_append, append_assoc]

/-! ### The round trip -/

theorem map_length_segments {made : Sealings (List UInt8) Unit} {key : Key}
    (hideal : C.aead.Ideal tagBytes key made) (ps : List (List UInt8)) :
    (sealFrom (C.encryptSegment key) 0 ps).map List.length = ps.map fun p => p.length + tagBytes :=
  map_length_sealFrom (fun _ _ _ => hideal.length _ _ _) 0 ps

theorem openFrom_segments {ps : List (List UInt8)} {key : Key}
    (hideal : C.aead.Ideal tagBytes key (streamSealings nonce () ps)) :
    openFrom (C.decryptSegment key) 0 (sealFrom (C.encryptSegment key) 0 ps) = some ps :=
  openFrom_sealFrom fun j p hp => by
    rw [zero_add]
    exact hideal.decrypt_sealed hp

/-- What a payload opens to. -/
theorem open_payload (hC : C.Lawful) (blob : List (List UInt8)) (maxBytes : ℕ) :
    (if (if isText blob.flatten then flagGzip else 0) = flagGzip then
        gunzipPieces maxBytes (C.inflate (C.payload blob).flatten).2 []
          (C.inflate (C.payload blob).flatten).1
      else if maxBytes < (C.payload blob).flatten.length then .error .tooLarge
      else .ok (C.payload blob).flatten) =
      if maxBytes < blob.flatten.length then .error .tooLarge else .ok blob.flatten := by
  by_cases htext : isText blob.flatten
  · obtain ⟨hflatten, hended⟩ := hC.inflate_gzip blob
    have hpayload : C.payload blob = C.gzip blob := if_pos htext
    rw [if_pos htext, if_pos rfl, hpayload, hended, gunzipPieces_eq _ (zero_le _), hflatten,
      length_nil, zero_add, nil_append]
  · have hpayload : C.payload blob = blob := if_neg htext
    rw [if_neg htext, if_neg (by decide), hpayload]

/-- A body that is cut off in its header does not open. -/
theorem openUpload_short {body : List UInt8} (h : body.length < headerBytes) (key : PrivateKey)
    (maxBytes : ℕ) : C.openUpload body key maxBytes = .error .badUpload := by
  have hrest : restBytes body < tagBytes := by
    rw [restBytes, Nat.sub_eq_zero_of_le (Nat.le_of_lt h)]
    decide
  rw [openUpload, if_pos (.inl hrest)]

/-- **A sealed upload opens to its content, is not longer than the server allows for, and no other
body with its header opens**: whatever is moved, cut off, doubled or added among its segments. -/
theorem sealed_upload (hC : C.Lawful) {server : PrivateKey}
    (hideal : C.IdealFor blob server ephemeral) :
    ∃ body, C.sealUpload blob (C.publicKey server) ephemeral = some body ∧
      (∀ maxBytes, C.openUpload body server maxBytes =
        if maxBytes < blob.flatten.length then .error .tooLarge else .ok blob.flatten) ∧
      body.length ≤ maxSealedBytes blob.flatten.length ∧
      ((C.segments blob).length ≤ 2 ^ 32 → ∀ other, other ≠ body →
        other.length < headerBytes ∨ other.take headerBytes = body.take headerBytes →
          ∀ maxBytes, ∃ e, C.openUpload other server maxBytes = .error e) := by
  obtain ⟨secret, hserver, hephemeral⟩ := hC.deriveBits_agree server ephemeral
  have hideal := hideal secret hephemeral
  have hlength : (C.header blob ephemeral).length = headerBytes := length_header hC
  have hcs := map_length_segments hideal (C.segments blob)
  have hopen := openFrom_segments hideal
  refine ⟨_, by rw [sealUpload_eq, hephemeral, Option.map_some], fun maxBytes => ?_,
    length_sealed hlength hcs (length_payload hC blob), ?_⟩
  · have hflag : (if isText blob.flatten then flagGzip else 0) = 0 ∨
        (if isText blob.flatten then flagGzip else 0) = flagGzip := by
      split_ifs <;> simp
    rw [openUpload_of_segments hlength rfl flags_header hflag (by rw [drop_header, hserver]) hcs
      hopen, open_payload hC]
  · intro hfew other hother hheader maxBytes
    cases hopened : C.openUpload other server maxBytes with
    | error e => exact ⟨e, rfl⟩
    | ok plain =>
      refine absurd ?_ hother
      rw [take_left' hlength] at hheader
      by_cases hshort : other.length < headerBytes
      · rw [openUpload_short hshort] at hopened
        cases hopened
      · have htake := hheader.resolve_left hshort
        have hsecret : C.deriveBits server ((other.take headerBytes).drop 2) = some secret := by
          rw [htake, drop_header, hserver]
        obtain ⟨-, ps, hps⟩ := segments_of_openUpload hopened hsecret
        rw [htake] at hps
        have hgenuine := hideal.genuine fun i f j g hi hj h =>
          streamNonce_injective (by omega) (by omega) h
        have heq := (hgenuine.eq_of_openFrom (length_blocks_pos _ _) (blocks_ne_nil _ _) hps).1
        rw [← take_append_drop headerBytes other, htake,
          ← flatten_blocks (n := segmentBytes + tagBytes) (by decide) (other.drop headerBytes), heq]
        rfl

end SealCrypto

/-! ### Primitives that keep their promises -/

/-- Sixteen bytes from a nonce. -/
def toyTag (n : List UInt8) : List UInt8 := (n ++ List.replicate 16 0).take 16

/-- A cipher that appends the nonce and opens only the segments of one stream. -/
def toyAead (ps : List (List UInt8)) : Aead Unit (List UInt8) Unit where
  encrypt _ n _ p := p ++ toyTag n
  decrypt _ n _ c :=
    if c = c.take (c.length - tagBytes) ++ toyTag n ∧ ∃ i, i < ps.length ∧
        nonce i (decide (i + 1 = ps.length)) = n ∧ ps[i]? = some (c.take (c.length - tagBytes)) then
      some (c.take (c.length - tagBytes))
    else none

/-- Keys that are all alike, no compression, and the cipher that seals one blob. -/
def toyCrypto (blob : List (List UInt8)) : SealCrypto Unit Unit Unit where
  aead := toyAead (blocks segmentBytes blob.flatten)
  publicKey _ := List.replicate 32 0
  deriveBits _ _ := some ()
  deriveKey _ _ := ()
  gzip chunks := chunks
  inflate bytes := ([bytes], true)

variable (blob : List (List UInt8))

theorem toyCrypto_lawful : (toyCrypto blob).Lawful where
  length_publicKey _ := rfl
  deriveBits_agree _ _ := ⟨(), rfl, rfl⟩
  inflate_gzip chunks := ⟨by simp [toyCrypto], rfl⟩
  length_gzip chunks := by
    show chunks.flatten.length ≤ _
    omega

theorem length_toyTag (n : List UInt8) : (toyTag n).length = tagBytes := by
  rw [toyTag, length_take, length_append, length_replicate, tagBytes]
  omega

theorem toyAead_ideal (ps : List (List UInt8)) :
    (toyAead ps).Ideal tagBytes () (streamSealings nonce () ps) := by
  refine ⟨fun n a p => ?_, fun n a c p => ?_⟩
  · show (p ++ toyTag n).length = _
    rw [length_append, length_toyTag]
  · have htake : ∀ q, (q ++ toyTag n).take ((q ++ toyTag n).length - tagBytes) = q := by
      intro q
      rw [length_append, length_toyTag, Nat.add_sub_cancel, take_left]
    show (if _ then _ else none) = some p ↔ _ ∧ c = p ++ toyTag n
    split_ifs with h
    · obtain ⟨hc, i, hi, hn, hget⟩ := h
      constructor
      · rintro heq
        obtain rfl : c.take (c.length - tagBytes) = p := by simpa using heq
        exact ⟨⟨i, _, hget, by rw [hn]⟩, hc⟩
      · rintro ⟨-, rfl⟩
        rw [htake]
    · constructor
      · rintro heq
        cases heq
      · rintro ⟨⟨i, q, hq, heq⟩, rfl⟩
        obtain ⟨rfl, -, rfl⟩ : n = nonce i _ ∧ a = () ∧ p = q := by simpa using heq
        rw [htake] at h
        obtain ⟨hlt, -⟩ := List.getElem?_eq_some_iff.1 hq
        exact absurd ⟨rfl, i, hlt, rfl, hq⟩ h

theorem toyCrypto_segments : (toyCrypto blob).segments blob = blocks segmentBytes blob.flatten := by
  rw [segments, payload]
  split_ifs <;> rfl

theorem toyCrypto_ideal : (toyCrypto blob).IdealFor blob () () := by
  intro _ _
  rw [toyCrypto_segments]
  exact toyAead_ideal _

/-- A blob of three bytes in two chunks. -/
theorem sealed_upload_toy :
    ∃ body, (toyCrypto [[1, 2], [3]]).sealUpload [[1, 2], [3]] (List.replicate 32 0) () =
        some body ∧ (toyCrypto [[1, 2], [3]]).openUpload body () 3 = .ok [1, 2, 3] ∧
      body.length ≤ maxSealedBytes 3 ∧
      ∃ e, (toyCrypto [[1, 2], [3]]).openUpload (body ++ [0]) () 3 = .error e := by
  obtain ⟨body, hseal, hopen, hlength, hother⟩ :=
    SealCrypto.sealed_upload (toyCrypto_lawful [[1, 2], [3]]) (toyCrypto_ideal [[1, 2], [3]])
  have hbody : headerBytes ≤ body.length :=
    (SealCrypto.segments_of_openUpload (hopen 3) rfl).1
  have hsegments : ((toyCrypto [[1, 2], [3]]).segments [[1, 2], [3]]).length ≤ 2 ^ 32 := by
    rw [toyCrypto_segments, blocks_of_le (by decide)]
    decide
  exact ⟨body, hseal, hopen 3, hlength,
    hother hsegments _ (by simp) (.inr (take_append_of_le_length hbody)) 3⟩

/-! ### Past the last number -/

/-- Segments with two of them exchanged. -/
def exchanged (a b last : List UInt8) (middle : List (List UInt8)) : List (List UInt8) :=
  a :: middle ++ [b] ++ [last]

variable {a b : List UInt8} {middle : List (List UInt8)}

theorem getElem?_exchanged {last p : List UInt8} {j : ℕ}
    (h : (exchanged b a last middle)[j]? = some p) :
    (j = 0 ∧ p = b) ∨ (j = middle.length + 1 ∧ p = a) ∨
      (exchanged a b last middle)[j]? = some p := by
  cases j with
  | zero => exact .inl ⟨rfl, by simpa [exchanged, eq_comm] using h⟩
  | succ j =>
    simp only [exchanged, cons_append, getElem?_cons_succ, getElem?_append,
      length_append, length_singleton] at h ⊢
    by_cases hj : j < middle.length
    · rw [if_pos (by omega), if_pos hj] at h
      exact .inr (.inr (by rw [if_pos (by omega), if_pos hj, h]))
    · by_cases hlast : j = middle.length
      · subst hlast
        rw [if_pos (by omega), if_neg hj, Nat.sub_self] at h
        exact .inr (.inl ⟨rfl, by simpa [eq_comm] using h⟩)
      · rw [if_neg (by omega)] at h
        exact .inr (.inr (by rw [if_neg (by omega), h]))

theorem length_exchanged (a b last : List UInt8) (middle : List (List UInt8)) :
    (exchanged a b last middle).length = middle.length + 3 := by
  simp [exchanged]

/-- Where two segments have one nonce, each passes for the other. -/
theorem openFrom_exchanged {last : List UInt8}
    (hwrap : nonce (middle.length + 1) false = nonce 0 false) {C : SealCrypto Unit Unit Unit}
    (hideal : C.aead.Ideal tagBytes () (streamSealings nonce () (exchanged a b last middle))) :
    openFrom (C.decryptSegment ()) 0 (sealFrom (C.encryptSegment ()) 0
      (exchanged b a last middle)) = some (exchanged b a last middle) := by
  refine openFrom_sealFrom fun j p hp => ?_
  rw [zero_add]
  refine (hideal.decrypt_iff ..).2 ⟨?_, rfl⟩
  have hlength := length_exchanged b a last middle
  have hlength' := length_exchanged a b last middle
  rcases getElem?_exchanged hp with ⟨rfl, rfl⟩ | ⟨rfl, rfl⟩ | hsame
  · refine ⟨middle.length + 1, p, ?_, ?_⟩
    · simp [exchanged]
    · rw [hlength, hlength', decide_eq_false (by omega), decide_eq_false (by omega), hwrap]
  · refine ⟨0, p, rfl, ?_⟩
    rw [hlength, hlength', decide_eq_false (by omega), decide_eq_false (by omega), hwrap]
  · exact ⟨j, p, hsame, by rw [hlength, hlength']⟩

theorem sealFrom_exchanged {sealed : ℕ → Bool → List UInt8 → List UInt8}
    (hwrap : ∀ p, sealed (middle.length + 1) false p = sealed 0 false p) (a b last : List UInt8) :
    (sealFrom sealed 0 (exchanged b a last middle)).Perm
      (sealFrom sealed 0 (exchanged a b last middle)) := by
  have hsealed : ∀ x y, sealFrom sealed 0 (exchanged x y last middle) =
      (sealed 0 false x :: middle.mapIdx (fun j q => sealed (j + 1) false q)) ++
        [sealed 0 false y] ++ [sealed (middle.length + 2) true last] := by
    intro x y
    rw [exchanged, sealFrom_append_singleton]
    simp [mapIdx_append, hwrap]
  rw [hsealed, hsealed]
  refine List.Perm.append_right _ ?_
  exact (perm_append_singleton ..).trans (((perm_append_singleton ..).symm).cons _)

/-- What toy primitives open a body to. -/
theorem toyCrypto_open {blob : List (List UInt8)} {xs : List UInt8} {cs : List (List UInt8)}
    (hcs : cs.map List.length = (blocks segmentBytes xs).map fun b => b.length + tagBytes)
    (hopen : openFrom ((toyCrypto blob).decryptSegment ()) 0 cs = some (blocks segmentBytes xs))
    {maxBytes : ℕ} (hlarge : xs.length ≤ maxBytes) :
    (toyCrypto blob).openUpload ((toyCrypto blob).header blob () ++ cs.flatten) () maxBytes =
      .ok xs := by
  have hlength : ((toyCrypto blob).header blob ()).length = headerBytes :=
    length_header (toyCrypto_lawful blob)
  have hflag : (if isText blob.flatten then flagGzip else 0) = 0 ∨
      (if isText blob.flatten then flagGzip else 0) = flagGzip := by
    split_ifs <;> simp
  have hgunzip : gunzipPieces maxBytes true [] [xs] = .ok xs := by
    rw [gunzipPieces_eq _ (zero_le _), if_neg (by simpa using hlarge)]
    simp
  rw [openUpload_of_segments hlength rfl flags_header hflag rfl hcs hopen,
    if_neg (Nat.not_lt.2 hlarge)]
  split
  · exact hgunzip
  · rfl

/-- The segments of zeros between the two that are exchanged. -/
def zeroSegments (n : ℕ) : List (List UInt8) :=
  List.replicate n (List.replicate segmentBytes 0)

/-- A blob of `n + 1` segments of zeros, one of ones, and a last byte. -/
def longBlob (n : ℕ) : List (List UInt8) :=
  [(exchanged (List.replicate segmentBytes 0) (List.replicate segmentBytes 1) [2]
    (zeroSegments n)).flatten]

theorem blocks_exchanged (ha : a.length = segmentBytes) (hb : b.length = segmentBytes) (n : ℕ) :
    blocks segmentBytes (exchanged a b [2] (zeroSegments n)).flatten =
      exchanged a b [2] (zeroSegments n) := by
  have hfull : ∀ segment ∈ a :: zeroSegments n ++ [b], segment.length = segmentBytes := by
    intro segment hsegment
    simp only [cons_append, mem_cons, mem_append, not_mem_nil, or_false]
      at hsegment
    rcases hsegment with rfl | hzero | rfl
    · exact ha
    · rw [eq_of_mem_replicate hzero, length_replicate]
    · exact hb
  rw [exchanged, flatten_append, flatten_singleton]
  exact blocks_eq (by decide) hfull (by decide) (by simp)

/-- Two segments whose numbers differ by as much as four bytes can count have one nonce, and a body
in which they are exchanged opens, to other bytes. -/
theorem swapped_upload_opens :
    (toyCrypto (longBlob (2 ^ 32 - 1))).Lawful ∧
      (toyCrypto (longBlob (2 ^ 32 - 1))).IdealFor (longBlob (2 ^ 32 - 1)) () () ∧
      ∃ (hdr : List UInt8) (cs cs' : List (List UInt8)), hdr.length = headerBytes ∧ cs'.Perm cs ∧
        (toyCrypto (longBlob (2 ^ 32 - 1))).sealUpload (longBlob (2 ^ 32 - 1))
          (List.replicate 32 0) () = some (hdr ++ cs.flatten) ∧
        ∃ plain, plain ≠ (longBlob (2 ^ 32 - 1)).flatten ∧ ∀ maxBytes, plain.length ≤ maxBytes →
          (toyCrypto (longBlob (2 ^ 32 - 1))).openUpload (hdr ++ cs'.flatten) () maxBytes =
            .ok plain := by
  -- the counter has wrapped:
  have hwrap : nonce ((zeroSegments (2 ^ 32 - 1)).length + 1) false = nonce 0 false := by
    rw [zeroSegments, length_replicate]
    decide
  generalize hn : 2 ^ 32 - 1 = n at hwrap ⊢
  have hones : (List.replicate segmentBytes (1 : UInt8)).length = segmentBytes :=
    length_replicate
  have hzeros : (List.replicate segmentBytes (0 : UInt8)).length = segmentBytes :=
    length_replicate
  have hsegments : (toyCrypto (longBlob n)).segments (longBlob n) =
      exchanged (List.replicate segmentBytes 0) (List.replicate segmentBytes 1) [2]
        (zeroSegments n) := by
    rw [toyCrypto_segments, longBlob, flatten_singleton, blocks_exchanged hzeros hones]
  have hideal := toyCrypto_ideal (longBlob n) () rfl
  rw [hsegments] at hideal
  have hblocks := blocks_exchanged hones hzeros n
  refine ⟨toyCrypto_lawful _, toyCrypto_ideal _, (toyCrypto (longBlob n)).header (longBlob n) (),
    sealFrom ((toyCrypto (longBlob n)).encryptSegment ()) 0
      (exchanged (List.replicate segmentBytes 0) (List.replicate segmentBytes 1) [2]
        (zeroSegments n)),
    sealFrom ((toyCrypto (longBlob n)).encryptSegment ()) 0
      (exchanged (List.replicate segmentBytes 1) (List.replicate segmentBytes 0) [2]
        (zeroSegments n)),
    SealCrypto.length_header (toyCrypto_lawful _), sealFrom_exchanged (fun p => ?_) _ _ _, ?_,
    (exchanged (List.replicate segmentBytes 1) (List.replicate segmentBytes 0) [2]
      (zeroSegments n)).flatten, ?_, fun maxBytes hlarge => ?_⟩
  · rw [SealCrypto.encryptSegment, hwrap]
    rfl
  · rw [SealCrypto.sealUpload_eq, hsegments]
    rfl
  -- the exchanged segments differ in their first bytes:
  · have hfirst : ∀ (x : UInt8) b, (exchanged (List.replicate segmentBytes x) b [2]
        (zeroSegments n)).flatten.head? = some x := by
      intro x b
      rw [exchanged, cons_append, cons_append, flatten_cons, head?_append,
        head?_replicate, if_neg (by decide)]
      rfl
    intro heq
    have hhead := congrArg List.head? heq
    rw [longBlob, flatten_singleton, hfirst, hfirst] at hhead
    cases hhead
  · refine toyCrypto_open ?_ ?_ hlarge
    · rw [hblocks]
      exact SealCrypto.map_length_segments hideal _
    · rw [hblocks]
      exact openFrom_exchanged hwrap hideal

end Triage.Managed
