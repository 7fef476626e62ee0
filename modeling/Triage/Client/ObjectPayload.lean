import Triage.Crypto.Aead
import Triage.Streams.Utf8
import Triage.Streams.Frame

/-!
# The encrypted payload of an object

An object is stored encrypted, its name in front of its contents behind the name's length; a bundle
is named by its integrity, and its own name rides in front of its contents in the same way. What
is fetched must carry the name that was asked for.

## Main results

* `objstore_payload_round_trip` : what was encrypted and wrapped comes back, exactly where no name
  begins with a byte order mark.
-/

namespace Triage.Client

open Crypto Streams List Option

/-- The number of bytes of a nonce. -/
def aeadNonceLen : ℕ := 12

/-- The number of bytes by which the cipher's tag makes a ciphertext longer. -/
def aeadTagLen : ℕ := 16

/-- Twelve random bytes. -/
structure ObjstoreNonce where
  bytes : List UInt8
  length_bytes : bytes.length = aeadNonceLen

/-- The keys of a session, and the public key that the relay knows it by. -/
structure ObjstoreKeys (κ : Type*) where
  contentKey : κ
  tagKey : List UInt8
  workspaceTag : List Char

/-- What a ciphertext is bound to. -/
def objstoreAad (workspaceTag resourceTag : List Char) : List UInt8 :=
  encodeUtf8 (workspaceTag ++ '\n' :: resourceTag)

variable {κ : Type*} (A : Aead κ (List UInt8) (List UInt8))

/-- Throws for a name that does not fit its prefix. -/
def encryptObjstorePayload (contentKey : κ) (fileName : List Char) (content : List UInt8)
    (workspaceTag resourceTag : List Char) (nonce : ObjstoreNonce) : Option (List UInt8) :=
  let nameBytes := encodeUtf8 fileName
  if 0xFFFF < nameBytes.length then none
  else
    let plaintext := frame 2 nameBytes content
    some (nonce.bytes ++
      A.encrypt contentKey nonce.bytes (objstoreAad workspaceTag resourceTag) plaintext)

/-- The length of a payload, without encrypting it. -/
def objstorePayloadWireLength (fileName : List Char) (contentByteLength : ℕ) : ℕ :=
  aeadNonceLen + 2 + (encodeUtf8 fileName).length + contentByteLength + aeadTagLen

/-- Throws for a name that does not fit its prefix. -/
def wrapBundleContent (name : List Char) (content : List UInt8) : Option (List UInt8) :=
  let nameBytes := encodeUtf8 name
  if 0xFFFF < nameBytes.length then none else some (frame 2 nameBytes content)

/-- The name and the contents behind a name's length, by a `TextDecoder` that is fatal and does not
ignore a byte order mark; throws where the frame is too short. -/
def decodeNamed (bytes : List UInt8) : Option (List Char × List UInt8) :=
  (unframe 2 bytes).bind fun named => (decodeUtf8 false named.1).map fun name => (name, named.2)

def unwrapBundleContent (wrapped : List UInt8) : Option (List Char × List UInt8) :=
  decodeNamed wrapped

/-- Throws for a payload that is too short or not authentic, and for a malformed frame in it. -/
def decryptObjstorePayload (contentKey : κ) (payload : List UInt8)
    (workspaceTag resourceTag : List Char) : Option (List Char × List UInt8) :=
  if payload.length < aeadNonceLen + 16 then none
  else
    (A.decrypt contentKey (payload.take aeadNonceLen) (objstoreAad workspaceTag resourceTag)
      (payload.drop aeadNonceLen)).bind decodeNamed

/-! ### A session's objects -/

namespace ObjstoreKeys

variable (hmac : List UInt8 → List UInt8 → List Char) (keys : ObjstoreKeys κ)

/-- Where the object of a name is stored. -/
def computeResourceTag (fileName : List Char) : List Char :=
  hmac keys.tagKey (encodeUtf8 ("objstore-tag\n".toList ++ fileName))

/-- Where the bundle of an integrity is stored. -/
def computeBundleResourceTag (integrity : List Char) : List Char :=
  hmac keys.tagKey (encodeUtf8 ("objstore-bundle-tag\n".toList ++ integrity))

/-- The payload that `put` sends. -/
def put (fileName : List Char) (content : List UInt8) (nonce : ObjstoreNonce) :
    Option (List UInt8) :=
  encryptObjstorePayload A keys.contentKey fileName content keys.workspaceTag
    (keys.computeResourceTag hmac fileName) nonce

/-- What `fetch` makes of the payload it gets; throws where the name is not the requested one. -/
def fetch (fileName : List Char) (payload : List UInt8) : Option (List UInt8) :=
  (decryptObjstorePayload A keys.contentKey payload keys.workspaceTag
    (keys.computeResourceTag hmac fileName)).bind fun decoded =>
      if decoded.1 ≠ fileName then none else some decoded.2

/-- The payload that `putBundle` sends. -/
def putBundle (integrity name : List Char) (content : List UInt8) (nonce : ObjstoreNonce) :
    Option (List UInt8) :=
  (wrapBundleContent name content).bind fun wrapped =>
    encryptObjstorePayload A keys.contentKey integrity wrapped keys.workspaceTag
      (keys.computeBundleResourceTag hmac integrity) nonce

/-- What `fetchBundle` makes of the payload it gets. -/
def fetchBundle (integrity : List Char) (payload : List UInt8) :
    Option (List Char × List UInt8) :=
  (decryptObjstorePayload A keys.contentKey payload keys.workspaceTag
    (keys.computeBundleResourceTag hmac integrity)).bind fun decoded =>
      if decoded.1 ≠ integrity then none else unwrapBundleContent decoded.2

end ObjstoreKeys

/-! ### Names -/

/-- The name fits its prefix. -/
def FitsName (name : List Char) : Prop := (encodeUtf8 name).length ≤ 65535

/-- The name begins with a byte order mark. -/
def Marked (name : List Char) : Prop := name.head? = some byteOrderMark

instance (name : List Char) : Decidable (FitsName name) := inferInstanceAs (Decidable (_ ≤ _))

instance (name : List Char) : Decidable (Marked name) := inferInstanceAs (Decidable (_ = _))

/-- The frame is too short for a name's length, or for the name. -/
def Malformed (bytes : List UInt8) : Prop :=
  bytes.length < 2 ∨ bytes.length < 2 + frameLength 2 bytes

variable {name fileName integrity : List Char} {content bytes : List UInt8}

theorem FitsName.lt (h : FitsName name) : (encodeUtf8 name).length < 256 ^ 2 := by
  rw [FitsName] at h
  omega

/-- A frame is decoded up to the byte order mark of its name. -/
theorem decodeNamed_frame (h : FitsName name) :
    decodeNamed (frame 2 (encodeUtf8 name) content) = some (dropMark name, content) := by
  rw [decodeNamed, unframe_frame h.lt, bind_some, decodeUtf8_encode]
  rfl

theorem decodeNamed_frame_iff (h : FitsName name) :
    decodeNamed (frame 2 (encodeUtf8 name) content) = some (name, content) ↔ ¬Marked name := by
  rw [decodeNamed_frame h, Option.some.injEq, Prod.mk.injEq, dropMark_eq_self_iff]
  exact and_iff_left rfl

theorem decodeNamed_of_malformed (h : Malformed bytes) : decodeNamed bytes = none := by
  rw [decodeNamed, unframe_eq_none_iff.mpr h, bind_none]

theorem wrapBundleContent_eq (h : FitsName name) :
    wrapBundleContent name content = some (frame 2 (encodeUtf8 name) content) :=
  if_neg (not_lt.mpr h)

/-! ### Payloads -/

section Ideal

variable {A} {made : Sealings (List UInt8) (List UInt8)} {contentKey : κ}
  {workspaceTag resourceTag : List Char} {nonce : ObjstoreNonce}

/-- What an encryption adds to the sealings of its key. -/
def payloadSealing (fileName : List Char) (content : List UInt8)
    (workspaceTag resourceTag : List Char) (nonce : ObjstoreNonce) :
    List UInt8 × List UInt8 × List UInt8 :=
  (nonce.bytes, objstoreAad workspaceTag resourceTag, frame 2 (encodeUtf8 fileName) content)

/-- A name that fits is encrypted to a payload of the expected length, which decrypts to the name
without its byte order mark. -/
theorem decrypt_encryptObjstorePayload (hideal : A.Ideal aeadTagLen contentKey made)
    (hname : FitsName fileName)
    (hmade : payloadSealing fileName content workspaceTag resourceTag nonce ∈ made) :
    ∃ payload, encryptObjstorePayload A contentKey fileName content workspaceTag resourceTag nonce =
        some payload ∧
      payload.length = objstorePayloadWireLength fileName content.length ∧
      decryptObjstorePayload A contentKey payload workspaceTag resourceTag =
        some (dropMark fileName, content) := by
  refine ⟨_, if_neg (not_lt.mpr hname), ?_, ?_⟩
  · rw [length_append, nonce.length_bytes, hideal.length, length_frame, objstorePayloadWireLength]
    omega
  · have hopen := (hideal.decrypt_iff _ _ _ _).mpr ⟨hmade, rfl⟩
    have hlong : ¬(nonce.bytes ++ A.encrypt contentKey nonce.bytes
        (objstoreAad workspaceTag resourceTag) (frame 2 (encodeUtf8 fileName) content)).length <
        aeadNonceLen + 16 := by
      rw [length_append, nonce.length_bytes, hideal.length, aeadTagLen]
      omega
    rw [decryptObjstorePayload, if_neg hlong, take_left' nonce.length_bytes,
      drop_left' nonce.length_bytes, hopen, bind_some, decodeNamed_frame hname]

theorem decryptObjstorePayload_of_malformed {payload : List UInt8}
    (h : ∀ plaintext, A.decrypt contentKey (payload.take aeadNonceLen)
      (objstoreAad workspaceTag resourceTag) (payload.drop aeadNonceLen) = some plaintext →
      Malformed plaintext) :
    decryptObjstorePayload A contentKey payload workspaceTag resourceTag = none := by
  rw [decryptObjstorePayload]
  split
  · rfl
  · rcases hopen : A.decrypt contentKey (payload.take aeadNonceLen)
      (objstoreAad workspaceTag resourceTag) (payload.drop aeadNonceLen) with _ | plaintext
    · rfl
    · exact decodeNamed_of_malformed (h plaintext hopen)

theorem dropMark_eq_iff : dropMark name = name ↔ ¬Marked name := dropMark_eq_self_iff

variable (keys : ObjstoreKeys κ) (hmac : List UInt8 → List UInt8 → List Char)

/-- **The round trip of objects**: what a session encrypts for a name that fits is of the expected
length, and comes back with its name and contents exactly if the name does not begin with a byte
order mark; a bundle does if neither its integrity nor its name begins with one; and a malformed
frame is never taken for an object. -/
theorem objstore_payload_round_trip (hideal : A.Ideal aeadTagLen keys.contentKey made) :
    (∀ fileName content nonce, FitsName fileName →
      payloadSealing fileName content keys.workspaceTag (keys.computeResourceTag hmac fileName)
        nonce ∈ made →
      ∃ payload, keys.put A hmac fileName content nonce = some payload ∧
        payload.length = objstorePayloadWireLength fileName content.length ∧
        (decryptObjstorePayload A keys.contentKey payload keys.workspaceTag
          (keys.computeResourceTag hmac fileName) = some (fileName, content) ↔
            ¬Marked fileName) ∧
        (keys.fetch A hmac fileName payload = some content ↔ ¬Marked fileName)) ∧
    (∀ name content, FitsName name →
      ∃ wrapped, wrapBundleContent name content = some wrapped ∧
        (unwrapBundleContent wrapped = some (name, content) ↔ ¬Marked name)) ∧
    (∀ integrity name content nonce, FitsName integrity → FitsName name →
      payloadSealing integrity (frame 2 (encodeUtf8 name) content) keys.workspaceTag
        (keys.computeBundleResourceTag hmac integrity) nonce ∈ made →
      ∃ payload, keys.putBundle A hmac integrity name content nonce = some payload ∧
        payload.length =
          objstorePayloadWireLength integrity (2 + (encodeUtf8 name).length + content.length) ∧
        (keys.fetchBundle A hmac integrity payload = some (name, content) ↔
          ¬Marked integrity ∧ ¬Marked name)) ∧
    (∀ wrapped, Malformed wrapped → unwrapBundleContent wrapped = none) ∧
    ∀ payload workspaceTag resourceTag, (∀ plaintext, A.decrypt keys.contentKey
        (payload.take aeadNonceLen) (objstoreAad workspaceTag resourceTag)
        (payload.drop aeadNonceLen) = some plaintext → Malformed plaintext) →
      decryptObjstorePayload A keys.contentKey payload workspaceTag resourceTag = none := by
  refine ⟨?_, ?_, ?_, fun wrapped => decodeNamed_of_malformed,
    fun payload workspaceTag resourceTag => decryptObjstorePayload_of_malformed⟩
  · intro fileName content nonce hname hmade
    obtain ⟨payload, hput, hlength, hdecrypt⟩ := decrypt_encryptObjstorePayload hideal hname hmade
    refine ⟨payload, hput, hlength, ?_, ?_⟩
    · rw [hdecrypt, Option.some.injEq, Prod.mk.injEq, dropMark_eq_iff]
      exact and_iff_left rfl
    · rw [ObjstoreKeys.fetch, hdecrypt, bind_some]
      -- a name that lost its mark is not the requested one:
      by_cases h : Marked fileName
      · rw [if_pos (mt dropMark_eq_iff.mp (not_not_intro h))]
        exact iff_of_false (fun h' => by cases h') (not_not_intro h)
      · rw [if_neg (not_not_intro (dropMark_eq_iff.mpr h))]
        exact iff_of_true rfl h
  · intro name content hname
    exact ⟨_, wrapBundleContent_eq hname, decodeNamed_frame_iff hname⟩
  · intro integrity name content nonce hintegrity hname hmade
    obtain ⟨payload, hput, hlength, hdecrypt⟩ :=
      decrypt_encryptObjstorePayload hideal hintegrity hmade
    refine ⟨payload, ?_, ?_, ?_⟩
    · rw [ObjstoreKeys.putBundle, wrapBundleContent_eq hname, bind_some, hput]
    · rw [hlength, length_frame]
    · rw [ObjstoreKeys.fetchBundle, hdecrypt, bind_some]
      by_cases h : Marked integrity
      · rw [if_pos (mt dropMark_eq_iff.mp (not_not_intro h))]
        exact iff_of_false (fun h' => by cases h') fun h' => h'.1 h
      · rw [if_neg (not_not_intro (dropMark_eq_iff.mpr h))]
        exact (decodeNamed_frame_iff hname).trans (and_iff_right h).symm

end Ideal

/-! ### Two names -/

/-- A cipher that is ideal for one sealing: the tag is zeros. -/
def oneSealing (made : List UInt8 × List UInt8 × List UInt8) :
    Aead Unit (List UInt8) (List UInt8) where
  encrypt _ _ _ p := p ++ List.replicate aeadTagLen 0
  decrypt _ n a c :=
    if (n, a, c) = (made.1, made.2.1, made.2.2 ++ List.replicate aeadTagLen 0) then some made.2.2
    else none

theorem oneSealing_ideal (made : List UInt8 × List UInt8 × List UInt8) :
    (oneSealing made).Ideal aeadTagLen () {made} where
  length n a p := by rw [oneSealing, length_append, length_replicate]
  decrypt_iff n a c p := by
    obtain ⟨n', a', p'⟩ := made
    simp only [oneSealing, Set.mem_singleton_iff, Prod.mk.injEq]
    split
    · rename_i h
      obtain ⟨rfl, rfl, rfl⟩ := h
      rw [Option.some.injEq]
      refine ⟨fun h => ⟨⟨rfl, rfl, h.symm⟩, by rw [h]⟩, fun h => h.1.2.2.symm⟩
    · rename_i h
      refine iff_of_false (fun h' => by cases h') ?_
      rintro ⟨⟨rfl, rfl, rfl⟩, rfl⟩
      exact h ⟨rfl, rfl, rfl⟩

/-- The keys and the nonce of a session. -/
def plainKeys : ObjstoreKeys Unit := ⟨(), [], ['w']⟩

def zeroNonce : ObjstoreNonce := ⟨List.replicate 12 0, rfl⟩

/-- An object is put under a plain name. -/
theorem objstore_payload_round_trip_plain :
    ∃ payload,
      plainKeys.put (oneSealing (payloadSealing ['a'] [7] ['w'] ['t'] zeroNonce))
        (fun _ _ => ['t']) ['a'] [7] zeroNonce = some payload ∧
      plainKeys.fetch (oneSealing (payloadSealing ['a'] [7] ['w'] ['t'] zeroNonce))
        (fun _ _ => ['t']) ['a'] payload = some [7] := by
  obtain ⟨payload, hput, -, -, hfetch⟩ := (objstore_payload_round_trip plainKeys
    (fun _ _ => ['t']) (oneSealing_ideal (payloadSealing ['a'] [7] ['w'] ['t'] zeroNonce))).1
    ['a'] [7] zeroNonce (by decide) rfl
  exact ⟨payload, hput, hfetch.mpr (by decide)⟩

/-- A name that begins with a byte order mark: the object is stored, and never fetched again. -/
theorem objstore_name_marked :
    FitsName [byteOrderMark, 'a'] ∧
    ∃ payload,
      plainKeys.put (oneSealing (payloadSealing [byteOrderMark, 'a'] [7] ['w'] ['t'] zeroNonce))
        (fun _ _ => ['t']) [byteOrderMark, 'a'] [7] zeroNonce = some payload ∧
      decryptObjstorePayload
        (oneSealing (payloadSealing [byteOrderMark, 'a'] [7] ['w'] ['t'] zeroNonce))
        () payload ['w'] ['t'] = some (['a'], [7]) ∧
      plainKeys.fetch (oneSealing (payloadSealing [byteOrderMark, 'a'] [7] ['w'] ['t'] zeroNonce))
        (fun _ _ => ['t']) [byteOrderMark, 'a'] payload = none :=
  ⟨by decide, _, rfl, by decide, by decide⟩

end Triage.Client
