import Bullshark.Config.Committee

/-!
# Primary/Messages — headers, votes, certificates

The messages primaries exchange, their digests, and the checks a receiver makes on them
(`messages.rs`, `error.rs`).  A round is a `u64` on the wire; `Header.round` and
`Certificate.round` read it as a natural number.
-/

namespace Bullshark

/-- `DagError`. -/
inductive DagError
  | invalidSignature
  | storeError
  | serializationError
  | invalidHeaderId
  | malformedHeader (id : Digest)
  | unknownAuthority (name : PublicKey)
  | authorityReuse (name : PublicKey)
  | unexpectedVote (id : Digest)
  | certificateRequiresQuorum
  | headerRequiresQuorum (id : Digest)
  | tooOld (digest : Digest) (round : ℕ)
  deriving DecidableEq

/-- `ensure!`: fail with `e` unless the condition holds. -/
def ensure (cond : Prop) [Decidable cond] (e : DagError) : Except DagError Unit :=
  if cond then .ok () else .error e

@[simp] theorem ensure_eq_ok {cond : Prop} [Decidable cond] {e : DagError} {u : Unit} :
    ensure cond e = .ok u ↔ cond := by
  unfold ensure
  split <;> simp [*]

theorem ensure_ne_error {cond : Prop} [Decidable cond] {e e' : DagError} (h : e ≠ e') :
    ensure cond e ≠ .error e' := by
  unfold ensure
  split <;> simp [h]

/-- A header: the proposal of one authority for one round. -/
structure Header where
  author : PublicKey
  rawRound : UInt64
  payload : BTreeMap Digest WorkerId
  parents : BTreeSet Digest
  id : Digest
  signature : Signature
  deriving DecidableEq

namespace Header

/-- `Header::default()`. -/
instance : Inhabited Header := ⟨⟨default, 0, .empty, .empty, default, default⟩⟩

def round (h : Header) : ℕ := h.rawRound.toNat

/-- One payload entry as it is fed to the hasher: the digest, then the worker id. -/
def entryBytes (e : Digest × WorkerId) : List UInt8 := e.1.toBytes ++ Bytes.leBytes 4 e.2.toNat

/-- The bytes `Header::digest` feeds to the hasher. -/
def hasherBytes (h : Header) : List UInt8 :=
  h.author.toBytes ++ (Bytes.leBytes 8 h.rawRound.toNat
    ++ (h.payload.entries.flatMap entryBytes ++ h.parents.elems.flatMap Digest.toBytes))

/-- The author has a worker of this id. -/
def checkWorker (h : Header) (committee : Committee) (workerId : WorkerId) :
    Except DagError Unit :=
  match committee.worker h.author workerId with
  | .ok _ => .ok ()
  | .error _ => .error (.malformedHeader h.id)

variable [Crypto]

/-- `Header::digest`. -/
def digest (h : Header) : Digest := Digest.hash h.hasherBytes

/-- `Header::new`: a header under its digest, signed by the signature service. -/
def new (author : PublicKey) (round : UInt64) (payload : BTreeMap Digest WorkerId)
    (parents : BTreeSet Digest) (requestSignature : Digest → Signature) : Header :=
  let header : Header := ⟨author, round, payload, parents, default, default⟩
  { header with id := header.digest, signature := requestSignature header.digest }

/-- `Header::verify`. -/
def verify (h : Header) (committee : Committee) : Except DagError Unit := do
  -- Ensure the header id is well formed.
  ensure (h.digest = h.id) .invalidHeaderId
  -- Ensure the authority has voting rights.
  ensure (committee.stake h.author > 0) (.unknownAuthority h.author)
  -- Ensure all worker ids are correct.
  h.payload.values.forM (h.checkWorker committee)
  -- Check the signature.
  ensure (h.signature.verify h.id h.author) .invalidSignature

end Header

/-- A vote of `author` on the header `id` of `origin`. -/
structure Vote where
  id : Digest
  rawRound : UInt64
  origin : PublicKey
  author : PublicKey
  signature : Signature
  deriving DecidableEq

namespace Vote

def round (v : Vote) : ℕ := v.rawRound.toNat

variable [Crypto]

/-- `Vote::digest`. -/
def digest (v : Vote) : Digest :=
  Digest.hash (v.id.toBytes ++ (Bytes.leBytes 8 v.rawRound.toNat ++ v.origin.toBytes))

/-- `Vote::new`: a vote on `header`, signed by the signature service. -/
def new (header : Header) (author : PublicKey) (requestSignature : Digest → Signature) : Vote :=
  let vote : Vote := ⟨header.id, header.rawRound, header.author, author, default⟩
  { vote with signature := requestSignature vote.digest }

/-- `Vote::verify`. -/
def verify (v : Vote) (committee : Committee) : Except DagError Unit := do
  -- Ensure the authority has voting rights.
  ensure (committee.stake v.author > 0) (.unknownAuthority v.author)
  -- Check the signature.
  ensure (v.signature.verify v.digest v.author) .invalidSignature

end Vote

/-- A certificate: a header with the votes it gathered. -/
structure Certificate where
  header : Header
  votes : List (PublicKey × Signature)
  deriving DecidableEq

namespace Certificate

def round (c : Certificate) : ℕ := c.header.round

def origin (c : Certificate) : PublicKey := c.header.author

/-- The genesis certificate of an authority. -/
def genesisOf (name : PublicKey) : Certificate := ⟨{ (default : Header) with author := name }, []⟩

/-- `Certificate::genesis`. -/
def genesis (committee : Committee) : List Certificate := committee.authorities.keys.map genesisOf

/-- `PartialEq for Certificate`: three fields are compared, and no others. -/
def partialEq (c c' : Certificate) : Bool :=
  decide (c.header.id = c'.header.id) && decide (c.round = c'.round)
    && decide (c.origin = c'.origin)

/-- One turn of the loop of `Certificate::verify` over the votes: `weight` and `used` so far. -/
def countVote (committee : Committee) (acc : Stake × List PublicKey)
    (vote : PublicKey × Signature) : Except DagError (Stake × List PublicKey) := do
  ensure (vote.1 ∉ acc.2) (.authorityReuse vote.1)
  let votingRights := committee.stake vote.1
  ensure (votingRights > 0) (.unknownAuthority vote.1)
  return (acc.1 + votingRights, vote.1 :: acc.2)

variable [Crypto]

/-- `Certificate::digest`. -/
def digest (c : Certificate) : Digest :=
  Digest.hash (c.header.id.toBytes ++ (Bytes.leBytes 8 c.header.rawRound.toNat
    ++ c.origin.toBytes))

/-- The checks of `Certificate::verify` below the genesis shortcut. -/
def verifyQuorum (c : Certificate) (committee : Committee) : Except DagError Unit := do
  -- Check the embedded header.
  c.header.verify committee
  -- Ensure the certificate has a quorum.
  let (weight, _) ← c.votes.foldlM (countVote committee) (0, [])
  ensure (weight ≥ committee.quorumThreshold) .certificateRequiresQuorum
  -- Check the signatures.
  ensure (Signature.verifyBatch c.digest c.votes) .invalidSignature

/-- `Certificate::verify`. -/
def verify (c : Certificate) (committee : Committee) : Except DagError Unit :=
  -- Genesis certificates are always valid.
  if (genesis committee).any (·.partialEq c) then .ok () else c.verifyQuorum committee

end Certificate

end Bullshark
