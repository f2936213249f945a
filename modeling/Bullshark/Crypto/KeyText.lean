import Bullshark.Primary.Sample

/-!
# Crypto/KeyText — reading keys from a text

`decode_base64` of a key takes as many bytes as the key has before anything looks at their number:
where there are fewer the slice panics, and where there are more the rest is dropped.  The error
`InvalidLength`, which is there for these texts, is never returned.  With a base64 that reads only
what it writes, a text is read as a public key as it should be exactly when it is no base64 or the
text of 32 bytes (`readsCanonically_iff`).
-/

namespace Bullshark

/-- `bytes[..index]` with fewer bytes. -/
structure SlicePanic where
  index : ℕ
  length : ℕ
  deriving DecidableEq

/-- `base64::DecodeError`: what the crate found, or the error of `decode_base64` itself. -/
inductive DecodeError
  | malformed
  | invalidLength
  deriving DecidableEq

/-- `bytes[..index]`. -/
def sliceTo (bytes : List UInt8) (index : ℕ) : Except SlicePanic (List UInt8) :=
  if index ≤ bytes.length then .ok (bytes.take index) else .error ⟨index, bytes.length⟩

/-- `try_into` an array of `width` bytes. -/
def tryIntoArray (width : ℕ) (bytes : List UInt8) : Except DecodeError (List UInt8) :=
  if bytes.length = width then .ok bytes else .error .invalidLength

/-- A secret key (64 bytes). -/
structure SecretKey where
  val : BitVec 512
  deriving DecidableEq

/-- The 64 bytes of a secret key. -/
def SecretKey.toBytes (k : SecretKey) : List UInt8 := Bytes.beBytes 64 k.val.toNat

@[simp] theorem SecretKey.length_toBytes (k : SecretKey) : k.toBytes.length = 64 :=
  Bytes.length_beBytes _ _

/-- `Self(array)`. -/
def PublicKey.ofBytes (bytes : List UInt8) : PublicKey := ⟨BitVec.ofNat 256 (Bytes.ofBeBytes bytes)⟩

def SecretKey.ofBytes (bytes : List UInt8) : SecretKey := ⟨BitVec.ofNat 512 (Bytes.ofBeBytes bytes)⟩

/-- A number of `8 * k` bits is read back from its `k` bytes. -/
theorem ofNat_ofBeBytes_beBytes {w k : ℕ} (hw : w = 8 * k) (x : BitVec w) :
    BitVec.ofNat w (Bytes.ofBeBytes (Bytes.beBytes k x.toNat)) = x := by
  have hpow : 2 ^ w = 256 ^ k := by
    rw [hw, pow_mul]
    norm_num
  rw [Bytes.ofBeBytes_beBytes (lt_of_lt_of_eq x.isLt hpow), BitVec.ofNat_toNat,
    BitVec.setWidth_eq]

theorem PublicKey.ofBytes_toBytes (k : PublicKey) : PublicKey.ofBytes k.toBytes = k := by
  rw [ofBytes, toBytes, ofNat_ofBeBytes_beBytes (k := 32) rfl]

theorem SecretKey.ofBytes_toBytes (k : SecretKey) : SecretKey.ofBytes k.toBytes = k := by
  rw [ofBytes, toBytes, ofNat_ofBeBytes_beBytes (k := 64) rfl]

/-- The key of 32 bytes has these bytes. -/
theorem PublicKey.toBytes_ofBytes {bytes : List UInt8} (hlen : bytes.length = 32) :
    (PublicKey.ofBytes bytes).toBytes = bytes := by
  have hlt := Bytes.ofBeBytes_lt bytes
  have hbytes := Bytes.beBytes_ofBeBytes bytes
  rw [hlen] at hlt hbytes
  have hmod : Bytes.ofBeBytes bytes % 2 ^ 256 = Bytes.ofBeBytes bytes := Nat.mod_eq_of_lt hlt
  rw [ofBytes, toBytes, BitVec.toNat_ofNat, hmod, hbytes]

section Text

variable [Base64] {width : ℕ} {text bytes : List UInt8}

/-- What both `decode_base64` do: the array of the first `width` bytes, or the panic. -/
def decodeArray (width : ℕ) (text : List UInt8) :
    Except SlicePanic (Except DecodeError (List UInt8)) :=
  match Base64.decode text with
  | none => .ok (.error .malformed)
  | some bytes => (sliceTo bytes width).map (tryIntoArray width)

/-- `PublicKey::decode_base64`, with its panic. -/
def PublicKey.readBase64 (text : List UInt8) : Except SlicePanic (Except DecodeError PublicKey) :=
  (decodeArray 32 text).map fun array => array.map PublicKey.ofBytes

/-- `SecretKey::encode_base64`. -/
def SecretKey.encodeBase64 (k : SecretKey) : List UInt8 := Base64.encode k.toBytes

/-- `SecretKey::decode_base64`, with its panic. -/
def SecretKey.readBase64 (text : List UInt8) : Except SlicePanic (Except DecodeError SecretKey) :=
  (decodeArray 64 text).map fun array => array.map SecretKey.ofBytes

/-- A text of at least `width` bytes is read as the first of them. -/
theorem decodeArray_of_le (h : Base64.decode text = some bytes) (hlen : width ≤ bytes.length) :
    decodeArray width text = .ok (.ok (bytes.take width)) := by
  have htake : (bytes.take width).length = width := List.length_take_of_le hlen
  rw [decodeArray, h]
  simp only [sliceTo, if_pos hlen, Except.map, tryIntoArray, if_pos htake]

/-- A shorter text panics. -/
theorem decodeArray_of_lt (h : Base64.decode text = some bytes) (hlen : bytes.length < width) :
    decodeArray width text = .error ⟨width, bytes.length⟩ := by
  rw [decodeArray, h]
  simp only [sliceTo, if_neg hlen.not_ge, Except.map]

theorem decodeArray_of_none (h : Base64.decode text = none) :
    decodeArray width text = .ok (.error .malformed) := by
  rw [decodeArray, h]

/-- `InvalidLength` is never the answer: the slice has the length asked for. -/
theorem decodeArray_ne_invalidLength : decodeArray width text ≠ .ok (.error .invalidLength) := by
  rcases hdecode : Base64.decode text with _ | bytes
  · simp [decodeArray_of_none hdecode]
  · by_cases hlen : width ≤ bytes.length
    · simp [decodeArray_of_le hdecode hlen]
    · simp [decodeArray_of_lt hdecode (not_le.mp hlen)]

/-- The bytes of an array are read back. -/
theorem decodeArray_encode (hlen : bytes.length = width) :
    decodeArray width (Base64.encode bytes) = .ok (.ok bytes) := by
  rw [decodeArray_of_le (Base64.decode_encode bytes) hlen.ge, List.take_of_length_le hlen.le]

theorem PublicKey.readBase64_encodeBase64 (k : PublicKey) :
    PublicKey.readBase64 k.encodeBase64 = .ok (.ok k) := by
  rw [readBase64, encodeBase64, decodeArray_encode k.length_toBytes]
  exact congrArg (Except.ok ∘ Except.ok) k.ofBytes_toBytes

theorem SecretKey.readBase64_encodeBase64 (k : SecretKey) :
    SecretKey.readBase64 k.encodeBase64 = .ok (.ok k) := by
  rw [readBase64, encodeBase64, decodeArray_encode k.length_toBytes]
  exact congrArg (Except.ok ∘ Except.ok) k.ofBytes_toBytes

namespace PublicKey

/-- The messages are read without the panic and the errors (`Primary/Wire`). -/
theorem decodeBase64_eq_some_iff {key : PublicKey} :
    decodeBase64 text = some key ↔ readBase64 text = .ok (.ok key) := by
  rcases hdecode : Base64.decode text with _ | bytes
  · simp [decodeBase64, readBase64, hdecode, decodeArray_of_none hdecode, Except.map]
  · rw [decodeBase64, hdecode, Option.bind_some]
    by_cases hlen : 32 ≤ bytes.length
    · rw [if_pos hlen, readBase64, decodeArray_of_le hdecode hlen]
      simp [Except.map, ofBytes]
    · rw [if_neg hlen, readBase64, decodeArray_of_lt hdecode (by omega)]
      simp [Except.map]

/-- What a text is to be read as: there is an answer, it is a key only for the text of 32 bytes,
and the text of that key is this one. -/
structure ReadsCanonically (text : List UInt8) : Prop where
  returns : ∃ answer, readBase64 text = .ok answer
  width : ∀ key, readBase64 text = .ok (.ok key) →
    ∃ bytes, Base64.decode text = some bytes ∧ bytes.length = 32
  text_eq : ∀ key, readBase64 text = .ok (.ok key) → key.encodeBase64 = text

/-- **A key is read from its text, and a text is read as it should be** exactly when it is no
base64 or the text of 32 bytes. -/
theorem readsCanonically_iff
    (hstrict : ∀ text bytes, Base64.decode text = some bytes → Base64.encode bytes = text) :
    (∀ key : PublicKey, readBase64 key.encodeBase64 = .ok (.ok key)) ∧
      ∀ text, ReadsCanonically text ↔
        ∀ bytes, Base64.decode text = some bytes → bytes.length = 32 := by
  refine ⟨readBase64_encodeBase64, fun text => ?_⟩
  constructor
  · intro hread bytes hbytes
    have hle : 32 ≤ bytes.length := by
      by_contra hlt
      obtain ⟨answer, hanswer⟩ := hread.returns
      rw [readBase64, decodeArray_of_lt hbytes (by omega)] at hanswer
      cases hanswer
    have hkey : readBase64 text = .ok (.ok (ofBytes (bytes.take 32))) := by
      rw [readBase64, decodeArray_of_le hbytes hle]
      rfl
    obtain ⟨bytes', hbytes', hlen⟩ := hread.width _ hkey
    rw [hbytes, Option.some_inj] at hbytes'
    rwa [hbytes']
  · intro hlen
    rcases hdecode : Base64.decode text with _ | bytes
    · have hread : readBase64 text = .ok (.error .malformed) := by
        rw [readBase64, decodeArray_of_none hdecode]
        rfl
      exact ⟨⟨_, hread⟩, fun key h => by simp [hread] at h, fun key h => by simp [hread] at h⟩
    · have htext : Base64.encode bytes = text := hstrict text bytes hdecode
      have hread : readBase64 text = .ok (.ok (ofBytes bytes)) := by
        rw [readBase64, ← htext, decodeArray_encode (hlen bytes hdecode)]
        rfl
      refine ⟨⟨_, hread⟩, fun key _ => ⟨bytes, hdecode, hlen bytes hdecode⟩, fun key h => ?_⟩
      obtain rfl := Except.ok.inj (Except.ok.inj (hread.symm.trans h))
      rw [encodeBase64, toBytes_ofBytes (hlen bytes hdecode), htext]

end PublicKey

end Text

/-! ## Texts of other lengths -/

namespace PublicKey.AnyText

open Sample

/-- The standard alphabet reads only what it writes. -/
theorem reads_zero : (∀ key : PublicKey, readBase64 key.encodeBase64 = .ok (.ok key)) ∧
    ReadsCanonically (key 0).encodeBase64 := by
  obtain ⟨hkeys, htexts⟩ := readsCanonically_iff fun _ _ h => encode64_of_decode64 h
  refine ⟨hkeys, (htexts _).mpr fun bytes hbytes => ?_⟩
  have hself : Base64.decode (key 0).encodeBase64 = some (key 0).toBytes := Base64.decode_encode _
  rw [hself, Option.some_inj] at hbytes
  rw [← hbytes, length_toBytes]

set_option maxRecDepth 100000 in
theorem reads_long : readBase64 (Base64.encode ((key 0).toBytes ++ [7])) = .ok (.ok (key 0)) ∧
    (key 0).encodeBase64 ≠ Base64.encode ((key 0).toBytes ++ [7]) := by
  decide +kernel

/-- **The empty text panics**, and the text of 33 bytes is read as a key whose text is another. -/
theorem panics_empty : readBase64 [] = .error ⟨32, 0⟩ ∧ ¬ ReadsCanonically [] ∧
    ¬ ReadsCanonically (Base64.encode ((key 0).toBytes ++ [7])) := by
  have hpanic : readBase64 [] = .error ⟨32, 0⟩ := by decide +kernel
  refine ⟨hpanic, fun h => ?_, fun h => reads_long.2 (h.text_eq _ reads_long.1)⟩
  obtain ⟨answer, hanswer⟩ := h.returns
  rw [hpanic] at hanswer
  cases hanswer

end PublicKey.AnyText

end Bullshark
