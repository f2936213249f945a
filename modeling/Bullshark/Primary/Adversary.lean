import Bullshark.Crypto.Primitives
import Mathlib.Data.Prod.Lex

/-!
# Primary/Adversary — the authorities that are silent in a round

`adversary.rs`: in each round the steady leader is silent, and with it the authorities whose score
for the round is lowest, up to the number of faults configured.
-/

namespace Bullshark

namespace Adversary

/-- The bytes fed to the hasher for the score of an authority in a round. -/
def scoreBytes (authority : PublicKey) (round seed : UInt64) : List UInt8 :=
  ("narwhal-dynamic-adversary-v1".toList.map fun c => UInt8.ofNat c.toNat)
    ++ (Bytes.leBytes 8 seed.toNat ++ (Bytes.leBytes 8 round.toNat ++ (0 :: authority.toBytes)))

/-- `score`: 32 bytes, ordered as a digest is. -/
def score [Crypto] (authority : PublicKey) (round seed : UInt64) : Digest :=
  Digest.hash (scoreBytes authority round seed)

/-- The number of authorities that come before this one, the steady leader apart. -/
def rank (score : PublicKey → Digest) (authority : PublicKey) (authorities : List PublicKey)
    (steady : PublicKey) : ℕ :=
  ((authorities.filter fun candidate => decide (candidate ≠ steady)).filter fun candidate =>
    decide (toLex (score candidate, candidate) < toLex (score authority, authority))).length

/-- `selected`, for any score of the authorities. -/
def selectedBy (score : PublicKey → Digest) (authority : PublicKey)
    (authorities : List PublicKey) (faults : ℕ) (steady : PublicKey) : Bool :=
  let faults := min faults authorities.length
  if faults = 0 then false
  else if authority = steady then true
  else
    let randomSlots := faults - 1
    if randomSlots = 0 then false
    else decide (rank score authority authorities steady < randomSlots)

/-- `selected`: the authority belongs to this round's adversary set. -/
def selected [Crypto] (authority : PublicKey) (authorities : List PublicKey) (round : UInt64)
    (faults : ℕ) (seed : UInt64) (steady : PublicKey) : Bool :=
  selectedBy (fun candidate => score candidate round seed) authority authorities faults steady

end Adversary

end Bullshark
