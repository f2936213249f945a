import Bullshark.Machinery.Bytes
import Mathlib.Order.Lattice
import Mathlib.Order.Basic

/-!
# Crypto/Primitives — digests, keys, signatures, and the primitives behind them

The `crypto` crate.  A 32-byte array is kept as one big-endian 256-bit number, so that Rust's
derived lexicographic order on the bytes is the order of the numbers.  SHA-512 and ed25519 are not
part of the repository: `Crypto` collects what the code calls, and the one law it relies on.
-/

namespace Bullshark

/-- A hash digest (32 bytes). -/
structure Digest where
  val : BitVec 256
  deriving DecidableEq

/-- A public key (32 bytes). -/
structure PublicKey where
  val : BitVec 256
  deriving DecidableEq

/-- An ed25519 signature, in two halves of 32 bytes. -/
structure Signature where
  part1 : BitVec 256
  part2 : BitVec 256
  deriving DecidableEq

/-- `Default::default()`: all bytes zero. -/
instance : Inhabited Digest := ⟨⟨0⟩⟩
instance : Inhabited PublicKey := ⟨⟨0⟩⟩
instance : Inhabited Signature := ⟨⟨0, 0⟩⟩

theorem Digest.toNat_injective : Function.Injective fun d : Digest => d.val.toNat := by
  rintro ⟨x⟩ ⟨y⟩ h
  exact congrArg Digest.mk (BitVec.eq_of_toNat_eq h)

theorem PublicKey.toNat_injective : Function.Injective fun k : PublicKey => k.val.toNat := by
  rintro ⟨x⟩ ⟨y⟩ h
  exact congrArg PublicKey.mk (BitVec.eq_of_toNat_eq h)

instance : LinearOrder Digest := LinearOrder.lift' _ Digest.toNat_injective
instance : LinearOrder PublicKey := LinearOrder.lift' _ PublicKey.toNat_injective

/-- The 32 bytes of a digest. -/
def Digest.toBytes (d : Digest) : List UInt8 := Bytes.beBytes 32 d.val.toNat

/-- The 32 bytes of a key. -/
def PublicKey.toBytes (k : PublicKey) : List UInt8 := Bytes.beBytes 32 k.val.toNat

@[simp] theorem Digest.length_toBytes (d : Digest) : d.toBytes.length = 32 :=
  Bytes.length_beBytes _ _

@[simp] theorem PublicKey.length_toBytes (k : PublicKey) : k.toBytes.length = 32 :=
  Bytes.length_beBytes _ _

theorem Digest.toBytes_injective : Function.Injective Digest.toBytes := fun x y h =>
  Digest.toNat_injective (Bytes.beBytes_inj x.val.isLt y.val.isLt h)

theorem PublicKey.toBytes_injective : Function.Injective PublicKey.toBytes := fun x y h =>
  PublicKey.toNat_injective (Bytes.beBytes_inj x.val.isLt y.val.isLt h)

/-- The primitives of the `sha2` and `ed25519_dalek` crates the code calls. -/
class Crypto where
  /-- `Sha512::finalize` over the bytes fed to the hasher: 64 bytes, the first one on top. -/
  sha512 : List UInt8 → BitVec 512
  /-- `ed25519::Signature::from_bytes` accepts the 64 bytes. -/
  signatureFromBytes : Signature → Bool
  /-- `dalek::PublicKey::from_bytes` accepts the 32 bytes. -/
  publicKeyFromBytes : PublicKey → Bool
  /-- `PublicKey::verify_strict`. -/
  verifyStrict : PublicKey → Digest → Signature → Bool
  /-- The equation one entry of a batch stands for. -/
  verifyOne : PublicKey → Digest → Signature → Bool
  /-- `dalek::verify_batch` on the messages, the signatures and the keys. -/
  verifyBatch : List Digest → List Signature → List PublicKey → Bool
  /-- A batch verifies exactly when each of its entries does. -/
  verifyBatch_eq : ∀ l : List (Digest × Signature × PublicKey),
    verifyBatch (l.map (·.1)) (l.map (·.2.1)) (l.map (·.2.2))
      = l.all fun t => verifyOne t.2.2 t.1 t.2.1

variable [Crypto]

/-- `Digest(hasher.finalize().as_slice()[..32])`: the first half of the hash. -/
def Digest.hash (bytes : List UInt8) : Digest := ⟨(Crypto.sha512 bytes).extractLsb' 256 256⟩

/-- `Signature::verify`: both byte strings must parse before the strict check. -/
def Signature.verify (s : Signature) (digest : Digest) (key : PublicKey) : Bool :=
  Crypto.signatureFromBytes s && Crypto.publicKeyFromBytes key
    && Crypto.verifyStrict key digest s

/-- A vote's signature verifies on its own: it parses, its key parses, and its equation holds. -/
def Signature.verifies (digest : Digest) (vote : PublicKey × Signature) : Bool :=
  Crypto.signatureFromBytes vote.2 && Crypto.publicKeyFromBytes vote.1
    && Crypto.verifyOne vote.1 digest vote.2

/-- `Signature::verify_batch`: parse every signature and key, then check them in one batch. -/
def Signature.verifyBatch (digest : Digest) (votes : List (PublicKey × Signature)) : Bool :=
  (votes.all fun v => Crypto.signatureFromBytes v.2 && Crypto.publicKeyFromBytes v.1)
    && Crypto.verifyBatch (votes.map fun _ => digest) (votes.map (·.2)) (votes.map (·.1))

/-- **The batch check accepts exactly the votes that each verify on their own.** -/
theorem Signature.verifyBatch_eq_all (digest : Digest) (votes : List (PublicKey × Signature)) :
    Signature.verifyBatch digest votes = votes.all (Signature.verifies digest) := by
  have hbatch : Crypto.verifyBatch (votes.map fun _ => digest) (votes.map (·.2)) (votes.map (·.1))
      = votes.all fun v => Crypto.verifyOne v.1 digest v.2 := by
    have h := Crypto.verifyBatch_eq (votes.map fun v => (digest, v.2, v.1))
    simp only [List.map_map, List.all_map] at h
    exact h
  rw [Signature.verifyBatch, hbatch, Bool.eq_iff_iff]
  simp only [Signature.verifies, Bool.and_eq_true, List.all_eq_true]
  exact ⟨fun h v hv => ⟨h.1 v hv, h.2 v hv⟩, fun h => ⟨fun v hv => (h v hv).1, fun v hv => (h v hv).2⟩⟩

end Bullshark
