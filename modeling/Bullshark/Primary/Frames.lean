import Bullshark.Primary.Core
import Bullshark.Primary.Wire

/-!
# Primary/Frames — what primaries send each other, and its bytes

`PrimaryMessage` is the enumeration that travels between primaries, a frame is what
`bincode::serialize` makes of it.  The handler of a frame hands a request for certificates to the
helper and any other message to the core.
-/

namespace Bullshark

section

variable [Base64]

/-- `bincode::serialize` at a vote. -/
def Vote.codec : Codec Vote :=
  (Digest.codec.seq (UInt64.codec.seq (PublicKey.codec.seq
    (PublicKey.codec.seq Signature.codec)))).map
    (fun v => (v.id, v.rawRound, v.origin, v.author, v.signature))
    (fun x => some ⟨x.1, x.2.1, x.2.2.1, x.2.2.2.1, x.2.2.2.2⟩) fun _ _ => rfl

end

/-- What primaries send each other. -/
inductive PrimaryMessage
  | header (header : Header)
  | vote (vote : Vote)
  | certificate (certificate : Certificate)
  | certificatesRequest (missing : List Digest) (requestor : PublicKey)
  deriving DecidableEq

namespace PrimaryMessage

/-- The number of the variant. -/
def variantOf : PrimaryMessage → ℕ
  | .header _ => 0
  | .vote _ => 1
  | .certificate _ => 2
  | .certificatesRequest _ _ => 3

/-- What the `Core` receives of it, on `tx_primary_messages`. -/
def toCore : PrimaryMessage → Option Core.Event
  | .header h => some (.header h)
  | .vote v => some (.vote v)
  | .certificate c => some (.certificate c)
  | .certificatesRequest _ _ => none

variable [Base64]

/-- `bincode` at a message between primaries. -/
def codec : Codec PrimaryMessage :=
  Codec.enum variantOf fun
    | 0 => Header.codec.variant .header (fun | .header h => some h | _ => none)
        (fun a _ h => by cases a <;> cases h; rfl)
    | 1 => Vote.codec.variant .vote (fun | .vote v => some v | _ => none)
        (fun a _ h => by cases a <;> cases h; rfl)
    | 2 => Certificate.codec.variant .certificate (fun | .certificate c => some c | _ => none)
        (fun a _ h => by cases a <;> cases h; rfl)
    | 3 => ((Codec.vec Digest.codec).seq PublicKey.codec).variant
        (fun r => .certificatesRequest r.1 r.2)
        (fun | .certificatesRequest missing requestor => some (missing, requestor) | _ => none)
        (fun a _ h => by cases a <;> cases h; rfl)
    | _ => .fail

/-- `bincode::serialize`. -/
def serialize (m : PrimaryMessage) : List UInt8 := codec.encode m

/-- `bincode::deserialize`, which leaves trailing bytes alone. -/
def deserialize (bytes : List UInt8) : Option PrimaryMessage := (codec.decode bytes).map Prod.fst

end PrimaryMessage

end Bullshark
