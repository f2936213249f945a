import Bullshark.Machinery.Codec
import Bullshark.Primary.Messages

/-!
# Primary/Wire — the bytes of a header and of a certificate

`bincode::serialize` at the types of `messages.rs`: a struct is its fields one after the other, a
collection its length as a `u64` and its elements, an array its bytes.  A public key is the text
that `encode_base64` makes of it.  The bytes of a certificate are those of its header and of its
votes, so the bytes of a header alone are not read as a certificate (`decode_header`).
-/

namespace Bullshark

/-- What the code calls of the `base64` crate. -/
class Base64 where
  encode : List UInt8 → List UInt8
  decode : List UInt8 → Option (List UInt8)
  decode_encode : ∀ bytes, decode (encode bytes) = some bytes
  /-- Four characters for every three bytes, padded. -/
  length_encode : ∀ bytes, (encode bytes).length = (bytes.length + 2) / 3 * 4

/-! ## Keys, digests, signatures -/

/-- `[u8; 32]`. -/
def bytes32 : Codec (BitVec 256) :=
  (Codec.array 32).map (fun x => Bytes.beBytes 32 x.toNat)
    (fun l => some (BitVec.ofNat 256 (Bytes.ofBeBytes l))) fun x _ => by
      rw [Bytes.ofBeBytes_beBytes x.isLt, BitVec.ofNat_toNat, BitVec.setWidth_eq]

theorem fits_bytes32 (x : BitVec 256) : bytes32.fits x := Bytes.length_beBytes _ _

def Digest.codec : Codec Digest := bytes32.map Digest.val (fun x => some ⟨x⟩) fun _ _ => rfl

def Signature.codec : Codec Signature :=
  (bytes32.seq bytes32).map (fun s => (s.part1, s.part2)) (fun x => some ⟨x.1, x.2⟩) fun _ _ => rfl

def UInt64.codec : Codec UInt64 :=
  (Codec.number 8).map UInt64.toNat (fun n => some (UInt64.ofNat n)) fun x _ => by simp

def WorkerId.codec : Codec WorkerId :=
  (Codec.number 4).map UInt32.toNat (fun n => some (UInt32.ofNat n)) fun x _ => by simp

theorem Digest.fits_codec (d : Digest) : Digest.codec.fits d := fits_bytes32 d.val

theorem Signature.fits_codec (s : Signature) : Signature.codec.fits s :=
  ⟨fits_bytes32 s.part1, fits_bytes32 s.part2⟩

theorem UInt64.fits_codec (x : UInt64) : UInt64.codec.fits x := x.toNat_lt

theorem WorkerId.fits_codec (w : WorkerId) : WorkerId.codec.fits w := UInt32.toNat_lt w

section Base64

variable [Base64]

/-- `PublicKey::encode_base64`. -/
def PublicKey.encodeBase64 (k : PublicKey) : List UInt8 := Base64.encode k.toBytes

/-- `PublicKey::decode_base64`: the first 32 bytes; there is no key where there are fewer. -/
def PublicKey.decodeBase64 (text : List UInt8) : Option PublicKey :=
  (Base64.decode text).bind fun bytes =>
    if 32 ≤ bytes.length then some ⟨BitVec.ofNat 256 (Bytes.ofBeBytes (bytes.take 32))⟩ else none

theorem PublicKey.decodeBase64_encodeBase64 (k : PublicKey) :
    decodeBase64 k.encodeBase64 = some k := by
  have hlen : k.toBytes.length = 32 := k.length_toBytes
  rw [decodeBase64, encodeBase64, Base64.decode_encode, Option.bind_some, if_pos hlen.ge,
    List.take_of_length_le hlen.le, PublicKey.toBytes, Bytes.ofBeBytes_beBytes k.val.isLt,
    BitVec.ofNat_toNat, BitVec.setWidth_eq]

/-- A key is serialized as a string. -/
def PublicKey.codec : Codec PublicKey :=
  (Codec.vec Codec.byte).map encodeBase64 decodeBase64 fun k _ => k.decodeBase64_encodeBase64

theorem PublicKey.fits_codec (k : PublicKey) : PublicKey.codec.fits k := by
  refine ⟨?_, fun _ _ => trivial⟩
  rw [encodeBase64, Base64.length_encode, k.length_toBytes]
  decide

/-! ## Headers and certificates -/

/-- `bincode::serialize` at a header. -/
def Header.codec : Codec Header :=
  (PublicKey.codec.seq (UInt64.codec.seq ((Codec.vec (Digest.codec.seq WorkerId.codec)).seq
    ((Codec.vec Digest.codec).seq (Digest.codec.seq Signature.codec))))).map
    (fun h => (h.author, h.rawRound, h.payload.entries, h.parents.elems, h.id, h.signature))
    (fun x => some ⟨x.1, x.2.1, BTreeMap.collect x.2.2.1, BTreeSet.collect x.2.2.2.1, x.2.2.2.2.1,
      x.2.2.2.2.2⟩)
    fun h _ => by rw [BTreeMap.collect_entries, BTreeSet.collect_elems]

/-- `bincode::serialize` at a certificate. -/
def Certificate.codec : Codec Certificate :=
  (Header.codec.seq (Codec.vec (PublicKey.codec.seq Signature.codec))).map
    (fun c => (c.header, c.votes)) (fun x => some ⟨x.1, x.2⟩) fun _ _ => rfl

/-- **A header is read back** unless a collection is longer than a `u64` can say. -/
theorem Header.fits_codec_iff {h : Header} : Header.codec.fits h ↔
    h.payload.entries.length < 256 ^ 8 ∧ h.parents.elems.length < 256 ^ 8 := by
  constructor
  · rintro ⟨-, -, ⟨hpayload, -⟩, ⟨hparents, -⟩, -, -⟩
    exact ⟨hpayload, hparents⟩
  · rintro ⟨hpayload, hparents⟩
    exact ⟨h.author.fits_codec, UInt64.fits_codec h.rawRound,
      ⟨hpayload, fun e _ => ⟨e.1.fits_codec, WorkerId.fits_codec e.2⟩⟩,
      ⟨hparents, fun d _ => d.fits_codec⟩, h.id.fits_codec, h.signature.fits_codec⟩

theorem Certificate.fits_codec_iff {c : Certificate} : Certificate.codec.fits c ↔
    Header.codec.fits c.header ∧ c.votes.length < 256 ^ 8 := by
  constructor
  · rintro ⟨hheader, hvotes, -⟩
    exact ⟨hheader, hvotes⟩
  · rintro ⟨hheader, hvotes⟩
    exact ⟨hheader, hvotes, fun v _ => ⟨v.1.fits_codec, v.2.fits_codec⟩⟩

/-- **The bytes of a header are not those of a certificate**: the votes are missing. -/
theorem Certificate.decode_header {h : Header} (hfits : Header.codec.fits h) :
    Certificate.codec.decode (Header.codec.encode h) = none := by
  have hnone := Codec.decode_seq_eq_none Header.codec
    (Codec.vec (PublicKey.codec.seq Signature.codec)) (Codec.decode_vec_nil _) hfits
  rw [codec, Codec.decode_map, hnone, Option.bind_none]

end Base64

end Bullshark
