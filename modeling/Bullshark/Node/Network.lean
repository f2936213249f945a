import Bullshark.Machinery.Interleaving
import Bullshark.Consensus.Bare
import Bullshark.Node.Certified
import Bullshark.Primary.Equivocation
import Bullshark.Primary.Inventory
import Bullshark.Primary.VoteOnce

/-!
# Node/Network — the primaries of a committee

Any number of primaries in any interleaving.  The honest ones run the core.  The others, and the
network between them, send anything to anybody; they only cannot sign for an honest authority
(`Unforged`), nor find two readings of one digest (`Unambiguous`).

A quorum of votes is not enough to tell what was certified, since a core can be made to vote twice
(`Core.LateBatch.equivocates`).  Where the waiters loop back nothing too old, two honest validators
never send different certificates of one author and round to consensus: they agree on everything
consensus reads (`certificates_agree`).
-/

namespace Bullshark

open Interleaving

/-! ## What a vote signs -/

/-- The id, the round and the author of a header. -/
structure Ballot where
  id : Digest
  rawRound : UInt64
  origin : PublicKey
  deriving DecidableEq

def Header.ballot (h : Header) : Ballot := ⟨h.id, h.rawRound, h.author⟩

def Vote.ballot (v : Vote) : Ballot := ⟨v.id, v.rawRound, v.origin⟩

section

variable [Crypto]

/-- The digest of a vote and of a certificate. -/
def Ballot.digest (b : Ballot) : Digest :=
  Digest.hash (b.id.toBytes ++ (Bytes.leBytes 8 b.rawRound.toNat ++ b.origin.toBytes))

theorem Vote.digest_eq (v : Vote) : v.digest = v.ballot.digest := rfl

theorem Certificate.digest_eq (c : Certificate) : c.digest = c.header.ballot.digest := rfl

end

/-- The signatures in an event: what each is on, and whose it is. -/
def Core.Event.signatures [Crypto] : Core.Event → List (Digest × PublicKey × Signature)
  | .header h => [(h.id, h.author, h.signature)]
  | .vote v => [(v.digest, v.author, v.signature)]
  | .certificate c =>
    (c.header.id, c.header.author, c.header.signature) :: c.votes.map fun v => (c.digest, v)
  | _ => []

/-! ## The network -/

/-- The primaries of a committee.  The stake of those that are not honest is below
`validity_threshold`, and no sum of stakes wraps. -/
structure Network where
  committee : Committee
  /-- The depth of the garbage collector. -/
  gcDepth : ℕ
  /-- The signature service of each authority. -/
  requestSignature : PublicKey → Digest → Signature
  honest : List PublicKey
  stake : committee.totalStake < 2 ^ 31
  faulty : committee.stakeOf (committee.authorities.keys.filter fun a => decide (a ∉ honest)).toFinset
    < committee.validityThreshold.toNat

/-- Which primary receives what, in the order in which it happens. -/
abbrev Trace := List (PublicKey × Core.Event)

namespace Network

/-- The core of an authority. -/
def core (net : Network) (a : PublicKey) : Core :=
  ⟨a, net.committee, net.gcDepth, net.requestSignature a⟩

/-- The headers that occur in the trace, with those of the genesis. -/
def headers (net : Network) (trace : Trace) : List Header :=
  (Certificate.genesis net.committee).map Certificate.header ++
    Core.seenHeaders (trace.map Prod.snd)

/-- Authorities that are not honest have less than `validity_threshold` stake together. -/
theorem stakeOf_lt_of_faulty (net : Network) {S : Finset PublicKey} (hS : ∀ a ∈ S, a ∉ net.honest) :
    net.committee.stakeOf S < net.committee.validityThreshold.toNat := by
  refine lt_of_le_of_lt ?_ net.faulty
  refine Finset.sum_le_sum_of_ne_zero fun a ha hne => List.mem_toFinset.mpr ?_
  refine List.mem_filter.mpr ⟨?_, decide_eq_true (hS a ha)⟩
  by_contra hkeys
  exact hne (Committee.weight_eq_zero hkeys)

/-- **A quorum has an honest authority in common with any other.** -/
theorem exists_honest (net : Network) {S T : Finset PublicKey}
    (hS : net.committee.quorumThreshold.toNat ≤ net.committee.stakeOf S)
    (hT : net.committee.quorumThreshold.toNat ≤ net.committee.stakeOf T) :
    ∃ a ∈ net.honest, a ∈ S ∧ a ∈ T := by
  have hmeet := Committee.validityThreshold_le_stakeOf_inter net.stake hS hT
  by_contra hnone
  refine absurd hmeet (not_le.mpr (net.stakeOf_lt_of_faulty fun a ha hh => hnone ⟨a, hh, ?_⟩))
  exact Finset.mem_inter.mp ha

/-- **The honest authorities of a quorum have `validity_threshold` stake.** -/
theorem validityThreshold_le_stakeOf_honest (net : Network) {S : Finset PublicKey}
    (hS : net.committee.quorumThreshold.toNat ≤ net.committee.stakeOf S) :
    net.committee.validityThreshold.toNat
      ≤ net.committee.stakeOf (S.filter fun a => a ∈ net.honest) := by
  have hsplit : net.committee.stakeOf (S.filter fun a => a ∈ net.honest)
      + net.committee.stakeOf (S.filter fun a => a ∉ net.honest) = net.committee.stakeOf S :=
    Finset.sum_filter_add_sum_filter_not S _ _
  have hfaulty := net.stakeOf_lt_of_faulty (S := S.filter fun a => a ∉ net.honest) fun a ha =>
    (Finset.mem_filter.mp ha).2
  have hstake := net.stake
  rw [Committee.toNat_quorumThreshold hstake] at hS
  rw [Committee.toNat_validityThreshold (by omega)] at hfaulty ⊢
  omega

variable [Crypto]

/-- What the core of an authority emits. -/
def log (net : Network) (a : PublicKey) (trace : Trace) : List Core.Emission :=
  (net.core a).machine.outputs (inputsOf a trace)

/-- What an authority sends to consensus. -/
def feed (net : Network) (a : PublicKey) (trace : Trace) : List Certificate :=
  Core.txConsensus (net.log a trace)

/-- What an authority has its signature service sign: its votes and its headers. -/
def signed (net : Network) (a : PublicKey) (trace : Trace) : List Digest :=
  (Core.votes (net.log a trace)).map Vote.digest ++
    (Core.ownHeaders (inputsOf a trace)).map Header.id

/-- Where the signature of an honest authority arrives, it signed before. -/
def Unforged (net : Network) (trace : Trace) : Prop :=
  ∀ pre x, pre ++ [x] <+: trace → x.1 ∈ net.honest → ∀ t ∈ x.2.signatures, t.2.1 ∈ net.honest →
    t.2.2.verify t.1 t.2.1 = true ∨ Signature.verifies t.1 t.2 = true → t.1 ∈ net.signed t.2.1 pre

instance (net : Network) (trace : Trace) : Decidable (net.Unforged trace) :=
  inferInstanceAs (Decidable (∀ (pre : Trace) (x : PublicKey × Core.Event), pre ++ [x] <+: trace →
    x.1 ∈ net.honest → ∀ t ∈ x.2.signatures, t.2.1 ∈ net.honest → _ ∨ _ → _))

/-- What consensus reads of a header. -/
def SameVertex (h h' : Header) : Prop :=
  h.rawRound = h'.rawRound ∧ h.author = h'.author ∧ h.parents = h'.parents

instance (h h' : Header) : Decidable (SameVertex h h') := inferInstanceAs (Decidable (_ ∧ _ ∧ _))

/-- The digests of these headers, and of the votes on them, have one reading each. -/
structure Unambiguous (headers : List Header) : Prop where
  ballots : ∀ h ∈ headers, ∀ h' ∈ headers, h.ballot.digest = h'.ballot.digest → h.ballot = h'.ballot
  ids : ∀ h ∈ headers, ∀ h' ∈ headers, h.digest = h'.digest → SameVertex h h'
  apart : ∀ h ∈ headers, ∀ h' ∈ headers, h.digest ≠ h'.ballot.digest
  nonzero : ∀ h ∈ headers, h.digest ≠ default ∧ h.ballot.digest ≠ default

instance (headers : List Header) : Decidable (Unambiguous headers) :=
  decidable_of_iff
    ((∀ h ∈ headers, ∀ h' ∈ headers, h.ballot.digest = h'.ballot.digest → h.ballot = h'.ballot) ∧
      (∀ h ∈ headers, ∀ h' ∈ headers, h.digest = h'.digest → SameVertex h h') ∧
      (∀ h ∈ headers, ∀ h' ∈ headers, h.digest ≠ h'.ballot.digest) ∧
      ∀ h ∈ headers, h.digest ≠ default ∧ h.ballot.digest ≠ default)
    ⟨fun h => ⟨h.1, h.2.1, h.2.2.1, h.2.2.2⟩, fun h => ⟨h.1, h.2, h.3, h.4⟩⟩

/-- An execution: the tasks around an honest core do what they do, with headers under their digests,
and its waiters loop back nothing of a round already collected. -/
structure Execution (net : Network) (trace : Trace) : Prop where
  unforged : net.Unforged trace
  unambiguous : Unambiguous (net.headers trace)
  admissible : ∀ a ∈ net.honest, (net.core a).AdmissibleRun (inputsOf a trace)
  fresh : ∀ a ∈ net.honest, (net.core a).machine.Along Core.FreshLoopback (inputsOf a trace)
  named : ∀ a ∈ net.honest, ∀ h ∈ Core.ownHeaders (inputsOf a trace), h.digest = h.id

instance (net : Network) (trace : Trace) : Decidable (net.Execution trace) :=
  decidable_of_iff (net.Unforged trace ∧ Unambiguous (net.headers trace) ∧
      (∀ a ∈ net.honest, (net.core a).AdmissibleRun (inputsOf a trace)) ∧
      (∀ a ∈ net.honest, (net.core a).machine.Along Core.FreshLoopback (inputsOf a trace)) ∧
      ∀ a ∈ net.honest, ∀ h ∈ Core.ownHeaders (inputsOf a trace), h.digest = h.id)
    ⟨fun h => ⟨h.1, h.2.1, h.2.2.1, h.2.2.2.1, h.2.2.2.2⟩, fun h => ⟨h.1, h.2, h.3, h.4, h.5⟩⟩

variable {net : Network} {trace : Trace} {a b : PublicKey} {c c' : Certificate} {h : Header}

/-! ## What the honest authorities hold -/

namespace Execution

theorem returned (he : net.Execution trace) (ha : a ∈ net.honest) :
    ∀ pre e, pre ++ [e] <+: inputsOf a trace → (net.core a).Returned pre e :=
  fun pre e hpre => (he.admissible a ha pre e hpre).returned

theorem inventory (he : net.Execution trace) (ha : a ∈ net.honest) :
    ∃ s, (net.core a).Inventory (inputsOf a trace) s (net.log a trace) := by
  obtain ⟨s, hs, -⟩ := (Core.Inventory.invariant (net.core a)).run (he.returned ha)
  exact ⟨s, hs⟩

theorem recorded (he : net.Execution trace) (ha : a ∈ net.honest) :
    ∃ s, (net.core a).Recorded (inputsOf a trace) s (net.log a trace) := by
  have hadmissible := he.admissible a ha
  obtain ⟨s, hrec, -⟩ := (Core.Recorded.invariant (net.core a)).run fun pre e hpre =>
    ⟨hadmissible.of_prefix hpre, he.fresh a ha pre e hpre⟩
  exact ⟨s, hrec⟩

omit [Crypto] in
theorem mem_headers_of_seen (hh : h ∈ Core.seenHeaders (inputsOf a trace)) :
    h ∈ net.headers trace := by
  refine List.mem_append_right _ (Core.seenHeaders_subset (fun e he => ?_) hh)
  exact List.mem_map.mpr ⟨(a, e), mem_inputsOf.mp he, rfl⟩

/-- A familiar header is named by its digest, genesis headers apart. -/
theorem digest_of_familiar (he : net.Execution trace) (ha : a ∈ net.honest)
    (hh : (net.core a).Familiar (inputsOf a trace) h) (hid : h.id ≠ default) : h.digest = h.id := by
  rcases hh.named with hdefault | hverify | hown
  · exact absurd hdefault hid
  · exact (Header.verify_eq_ok_iff.mp hverify).1
  · exact he.named a ha h hown

/-- A vote an honest core creates is on a header of the trace. -/
theorem exists_header_of_vote (he : net.Execution trace) (ha : a ∈ net.honest) {v : Vote}
    (hv : v ∈ Core.votes (net.log a trace)) : ∃ h ∈ net.headers trace, v.ballot = h.ballot := by
  obtain ⟨h, -, hh, rfl, -⟩ := Core.exists_parents_of_vote (he.returned ha) hv
  exact ⟨h, mem_headers_of_seen hh.seen, rfl⟩

/-- **Who signed the digest of a certificate voted for its header.** -/
theorem exists_vote_of_signed (he : net.Execution trace) (ha : a ∈ net.honest) {pre : Trace}
    (hpre : pre <+: trace) (hh : h ∈ net.headers trace)
    (hsigned : h.ballot.digest ∈ net.signed a pre) :
    ∃ v ∈ Core.votes (net.log a trace), v.ballot = h.ballot := by
  have hinputs := prefix_inputsOf a hpre
  rcases List.mem_append.mp hsigned with hmem | hmem
  · obtain ⟨v, hv, hdigest⟩ := List.mem_map.mp hmem
    have hv' : v ∈ Core.votes (net.log a trace) :=
      Core.mem_votes.mpr (((net.core a).machine.outputs_prefix hinputs).subset (Core.mem_votes.mp hv))
    obtain ⟨x, hx, hballot⟩ := he.exists_header_of_vote ha hv'
    refine ⟨v, hv', hballot.trans (he.unambiguous.ballots x hx h hh ?_)⟩
    rw [← hballot, ← Vote.digest_eq, hdigest]
  · obtain ⟨x, hx, hid⟩ := List.mem_map.mp hmem
    have hx' : x ∈ Core.ownHeaders (inputsOf a trace) :=
      Core.mem_ownHeaders.mpr (hinputs.subset (Core.mem_ownHeaders.mp hx))
    have hdigest : x.digest = h.ballot.digest := (he.named a ha x hx').trans hid
    exact absurd hdigest
      (he.unambiguous.apart x (mem_headers_of_seen (Core.mem_seenHeaders_of_own hx')) h hh)

end Execution

/-! ## Two certificates of one slot -/

/-- The authority made this header, or voted for it. -/
def Endorses (net : Network) (trace : Trace) (a : PublicKey) (h : Header) : Prop :=
  h ∈ Core.ownHeaders (inputsOf a trace) ∨
    ∃ v ∈ Core.votes (net.log a trace), v.ballot = h.ballot

namespace Execution

/-- An honest authority endorses one header per author and round. -/
theorem id_eq_of_endorses (he : net.Execution trace) (ha : a ∈ net.honest) {h' : Header}
    (hh : net.Endorses trace a h) (hh' : net.Endorses trace a h') (hround : h.round ≠ 0)
    (hr : h.rawRound = h'.rawRound) (hauthor : h.author = h'.author) : h.id = h'.id := by
  obtain ⟨s, hrec⟩ := he.recorded ha
  have hrun := he.admissible a ha
  by_cases hname : h.author = a
  · -- a header of its own: one per round
    have hown : ∀ {x : Header}, net.Endorses trace a x → x.round ≠ 0 → x.author = a →
        ∃ y ∈ Core.ownHeaders (inputsOf a trace), y.round = x.round ∧ y.id = x.id := by
      rintro x (hx | ⟨v, hv, hballot⟩) hx0 hxname
      · exact ⟨x, hx, rfl, rfl⟩
      · have hid : v.id = x.id := congrArg Ballot.id hballot
        have hvround : v.round = x.round := congrArg (fun b => b.rawRound.toNat) hballot
        have horigin : v.origin = x.author := congrArg Ballot.origin hballot
        rcases hrec.own v hv (horigin.trans hxname) with ⟨y, hy, hyr, hyid⟩ | ⟨h0, -⟩
        · exact ⟨y, hy, hyr.symm.trans hvround, hyid.symm.trans hid⟩
        · exact absurd (hvround.symm.trans h0) hx0
    have hround' : h'.round = h.round := congrArg UInt64.toNat hr.symm
    obtain ⟨y, hy, hyr, hyid⟩ := hown hh hround hname
    obtain ⟨y', hy', hyr', hyid'⟩ := hown hh' (hround' ▸ hround) (hauthor ▸ hname)
    have hyy : y = y' := hrun.eq_of_round_eq hy hy' (by rw [hyr, hyr', hround'])
    rw [← hyid, ← hyid', hyy]
  · -- a header of another authority: one vote per slot
    have hvote : ∀ {x : Header}, net.Endorses trace a x → x.author = h.author →
        ∃ v ∈ Core.votes (net.log a trace), v.ballot = x.ballot := by
      rintro x (hx | hx) hxname
      · exact absurd (hxname.symm.trans (hrun.own hx).1) hname
      · exact hx
    obtain ⟨v, hv, hballot⟩ := hvote hh rfl
    obtain ⟨v', hv', hballot'⟩ := hvote hh' hauthor.symm
    have hid : v.id = h.id := congrArg Ballot.id hballot
    have hid' : v'.id = h'.id := congrArg Ballot.id hballot'
    have hvr : v.rawRound = h.rawRound := congrArg Ballot.rawRound hballot
    have hvr' : v'.rawRound = h'.rawRound := congrArg Ballot.rawRound hballot'
    have ho : v.origin = h.author := congrArg Ballot.origin hballot
    have ho' : v'.origin = h'.author := congrArg Ballot.origin hballot'
    rw [← hid, ← hid']
    refine hrec.once v hv v' hv' (fun hv => hname (ho.symm.trans hv)) ?_ ?_
    · rw [Vote.round, Vote.round, hvr, hvr', hr]
    · rw [ho, ho', hauthor]

/-- What an honest authority sends to consensus above round zero is certified. -/
theorem certified (he : net.Execution trace) (ha : a ∈ net.honest) (hc : c ∈ net.feed a trace)
    (hround : c.round ≠ 0) :
    (net.core a).Certified (inputsOf a trace) (net.log a trace) c := by
  obtain ⟨s, hs, -⟩ := (Core.Vouched.invariant (net.core a)).run (he.returned ha)
  exact hs.forwarded _ (Core.mem_txConsensus.mp hc) c rfl hround

/-- A certificate an honest authority assembled above round zero is on a header of its own. -/
theorem own_of_assembled (he : net.Execution trace) (ha : a ∈ net.honest)
    (hc : (net.core a).Assembled (inputsOf a trace) (net.log a trace) c) (hround : c.round ≠ 0) :
    c.header ∈ Core.ownHeaders (inputsOf a trace) := by
  obtain ⟨s, hi⟩ := he.inventory ha
  rcases hi.assembled _ c hc.emitted with hdefault | hown
  · exact absurd (congrArg Header.round hdefault) hround
  · exact hown

/-- The header of a certified certificate occurs in the trace, under its digest. -/
theorem header_of_certified (he : net.Execution trace) (ha : a ∈ net.honest)
    (hc : (net.core a).Certified (inputsOf a trace) (net.log a trace) c) (hround : c.round ≠ 0) :
    c.header ∈ net.headers trace ∧ c.header.digest = c.header.id := by
  rcases hc with hassembled | haccepted
  · have hown := he.own_of_assembled ha hassembled hround
    exact ⟨mem_headers_of_seen (Core.mem_seenHeaders_of_own hown), he.named a ha _ hown⟩
  · refine ⟨mem_headers_of_seen (a := a) (List.mem_cons_of_mem _ (List.mem_filterMap.mpr
      ⟨_, haccepted.received, rfl⟩)), ?_⟩
    exact (Header.verify_eq_ok_iff.mp
      (Certificate.verifyQuorum_eq_ok_iff.mp haccepted.verified).1).1

/-- A vote that arrived with a valid signature of an honest authority, that authority created. -/
theorem exists_vote_of_received (he : net.Execution trace) (ha : a ∈ net.honest) {e : Core.Event}
    (hmem : e ∈ inputsOf a trace) {k : PublicKey} {signature : Signature} (hk : k ∈ net.honest)
    (hh : h ∈ net.headers trace) (hs : (h.ballot.digest, k, signature) ∈ e.signatures)
    (hverify : signature.verify h.ballot.digest k = true ∨
      Signature.verifies h.ballot.digest (k, signature) = true) :
    ∃ v ∈ Core.votes (net.log k trace), v.ballot = h.ballot := by
  obtain ⟨pre, hpre⟩ := exists_prefix_of_mem_inputsOf hmem
  have hsigned := he.unforged pre (a, e) hpre ha _ hs hk hverify
  exact he.exists_vote_of_signed hk ((List.prefix_append _ _).trans hpre) hh hsigned

/-- **An honest voter of a certified certificate endorses its header.** -/
theorem endorses_of_voter (he : net.Execution trace) (ha : a ∈ net.honest)
    (hc : (net.core a).Certified (inputsOf a trace) (net.log a trace) c) (hround : c.round ≠ 0)
    {k : PublicKey} (hk : k ∈ net.honest) (hvoter : k ∈ c.voters) :
    net.Endorses trace k c.header := by
  obtain ⟨hheader, -⟩ := he.header_of_certified ha hc hround
  obtain ⟨⟨k', signature⟩, hvote, rfl⟩ := List.mem_map.mp (List.mem_toFinset.mp hvoter)
  rcases hc with hassembled | haccepted
  · obtain ⟨v, heq, ⟨hreceived, hverify, hid, hvround, horigin⟩ | ⟨own, hname, rfl⟩⟩ :=
      hassembled.cast _ hvote
    · have hballot : v.ballot = c.header.ballot := by
        rw [Vote.ballot, Header.ballot, hid, UInt64.toNat_inj.mp hvround, horigin]
      have hauthor : v.author = k' := congrArg Prod.fst heq
      have hverifies : v.signature.verify c.header.ballot.digest k' = true := by
        rw [← hballot, ← Vote.digest_eq, ← hauthor]
        exact (Vote.verify_eq_ok_iff.mp hverify).2
      refine Or.inr (he.exists_vote_of_received ha hreceived hk hheader ?_ (Or.inl hverifies))
      rw [← hballot, ← Vote.digest_eq, ← hauthor]
      exact List.mem_cons_self
    · have hauthor : a = k' := congrArg Prod.fst heq
      exact Or.inl (hauthor ▸ he.own_of_assembled ha hassembled hround)
  · refine Or.inr (he.exists_vote_of_received ha haccepted.received hk hheader
      (List.mem_cons_of_mem _ (List.mem_map.mpr ⟨_, hvote, rfl⟩)) (Or.inr ?_))
    exact (Certificate.verifyQuorum_eq_ok_iff.mp haccepted.verified).2.2.2.2 _ hvote

omit [Crypto] in
theorem le_stakeOf_voters {committee : Committee} (h : c.VotedByQuorum committee) :
    committee.quorumThreshold.toNat ≤ committee.stakeOf c.voters := by
  obtain ⟨votes, hsuffix, hdistinct, hquorum⟩ := h
  refine hquorum.trans ?_
  have hsum : (votes.map fun v => committee.weight v.1).sum
      = committee.stakeOf (votes.map Prod.fst).toFinset := by
    rw [Committee.stakeOf, List.sum_toFinset _ hdistinct, List.map_map]
    rfl
  rw [hsum]
  refine Finset.sum_le_sum_of_subset fun k hk => List.mem_toFinset.mpr ?_
  exact List.map_subset _ hsuffix.subset (List.mem_toFinset.mp hk)

/-- **Two certified certificates of one author and round are on one header.** -/
theorem bare_eq_of_certified (he : net.Execution trace) (ha : a ∈ net.honest) (hb : b ∈ net.honest)
    (hc : (net.core a).Certified (inputsOf a trace) (net.log a trace) c)
    (hc' : (net.core b).Certified (inputsOf b trace) (net.log b trace) c') (hround : c.round ≠ 0)
    (hr : c.round = c'.round) (horigin : c.origin = c'.origin) : c.bare = c'.bare := by
  obtain ⟨k, hk, hvoter, hvoter'⟩ := net.exists_honest (le_stakeOf_voters hc.votedByQuorum)
    (le_stakeOf_voters hc'.votedByQuorum)
  have hraw : c.header.rawRound = c'.header.rawRound := UInt64.toNat_inj.mp hr
  have hid : c.header.id = c'.header.id :=
    he.id_eq_of_endorses hk (he.endorses_of_voter ha hc hround hk hvoter)
      (he.endorses_of_voter hb hc' (hr ▸ hround) hk hvoter') hround hraw horigin
  obtain ⟨hmem, hnamed⟩ := he.header_of_certified ha hc hround
  obtain ⟨hmem', hnamed'⟩ := he.header_of_certified hb hc' (hr ▸ hround)
  obtain ⟨-, -, hparents⟩ := he.unambiguous.ids _ hmem _ hmem' (by rw [hnamed, hnamed', hid])
  exact Certificate.bare_eq_iff.mpr ⟨hid, hraw, horigin, hparents⟩

end Execution

/-- **Honest validators agree on what is certified**: whatever the others and the network do, two
certificates of one author and round that honest validators send to consensus have the same id and
the same parents. -/
theorem certificates_agree (net : Network) (trace : Trace) (he : net.Execution trace)
    (a b : PublicKey) (ha : a ∈ net.honest) (hb : b ∈ net.honest) :
    ∀ c ∈ net.feed a trace, ∀ c' ∈ net.feed b trace, c.round ≠ 0 → c.round = c'.round →
      c.origin = c'.origin → c.bare = c'.bare :=
  fun _ hc _ hc' hround hr horigin => he.bare_eq_of_certified ha hb (he.certified ha hc hround)
    (he.certified hb hc' (hr ▸ hround)) hround hr horigin

end Network

/-! ## Two certificates on one header -/

namespace Network.TwoQuorums

open Sample

/-- Four authorities, the last of which is not honest. -/
def net : Network where
  committee := committee4
  gcDepth := 50
  requestSignature k digest := sign digest k
  honest := [key 1, key 2, key 3]
  stake := by decide +kernel
  faulty := by decide +kernel

/-- The first header of the first authority. -/
def proposal : Header :=
  header (key 1) 1 .empty ((Certificate.genesis committee4).map Certificate.digest)

def voteOf (author : ℕ) : Vote := Vote.new proposal (key author) fun digest => sign digest (key author)

/-- The certificate that the first authority assembles, and one that the last one makes. -/
def certified (voters : List ℕ) : Certificate :=
  ⟨proposal, voters.map fun n => (key n, (voteOf n).signature)⟩

/-- The first authority collects the votes of the next two.  So does the last one, which sends its
certificate to the second. -/
def trace : Trace :=
  [(key 1, .ownHeader proposal), (key 2, .header proposal), (key 3, .header proposal),
    (key 1, .vote (voteOf 2)), (key 1, .vote (voteOf 3)),
    (key 2, .certificate (certified [4, 3, 2]))]

set_option maxRecDepth 100000 in
theorem execution_trace : net.Execution trace ∧
    net.feed (key 1) trace = [certified [1, 2, 3]] ∧
    net.feed (key 2) trace = [certified [4, 3, 2]] := by
  decide +kernel

theorem certificates_agree_trace :
    certified [1, 2, 3] ∈ net.feed (key 1) trace ∧ certified [4, 3, 2] ∈ net.feed (key 2) trace ∧
      (certified [1, 2, 3]).bare = (certified [4, 3, 2]).bare := by
  obtain ⟨hexecution, hfirst, hsecond⟩ := execution_trace
  have hmem : certified [1, 2, 3] ∈ net.feed (key 1) trace := hfirst ▸ List.mem_cons_self
  have hmem' : certified [4, 3, 2] ∈ net.feed (key 2) trace := hsecond ▸ List.mem_cons_self
  exact ⟨hmem, hmem', certificates_agree net trace hexecution (key 1) (key 2) (by decide)
    (by decide) _ hmem _ hmem' (by decide) rfl rfl⟩

end Network.TwoQuorums

end Bullshark
