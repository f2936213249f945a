import Bullshark.Node.Availability
import Bullshark.Node.Dag

/-!
# Node/Deployment — a committee of validators

A network whose honest authorities run a `Validator` each, workers and all.  What the theorems on a
network of cores assume of the tasks around a core is what those tasks do
(`Hosts.suppliedExecution`); what is left are assumptions on the outside: the signatures, the
digests, and how late a waiter may loop something back.

So what two validators order is the same as far as both have come (`ordered_alike`), and whatever
has a certificate is stored, batch by batch, by honest authorities of `validity_threshold` stake
(`available`).
-/

namespace Bullshark

open Interleaving Validator

/-- Nobody else sends a header or a certificate in our name that we did not make. -/
def Core.Foreign [Crypto] (core : Core) (pre : List Core.Event) : Core.Event → Prop
  | .header h => h.author = core.name → h.verify core.committee = .ok () → h ∈ Core.ownHeaders pre
  | .certificate c => c.origin = core.name → c.header.verify core.committee = .ok () →
      c.header ∈ Core.ownHeaders pre
  | _ => True

namespace Network

variable [Crypto] [Base64]

/-- The validators of the honest authorities, the stores they start on and what happens to them. -/
structure Deployment (net : Network) where
  validator : PublicKey → Validator
  stores : PublicKey → WorkerId → Worker.Store
  events : PublicKey → List Validator.Event
  core : ∀ a ∈ net.honest, (validator a).core = net.core a
  steady : ∀ a ∈ net.honest, (validator a).dynamic = false
  opened : ∀ a id, Worker.Opened (stores a id)

namespace Deployment

variable {net : Network} (d : net.Deployment)

/-- What the tasks of an authority took. -/
def turns (a : PublicKey) : List Turn :=
  ((d.validator a).machine (d.stores a)).outputs (d.events a)

/-- The state a validator is in. -/
def state (a : PublicKey) : Validator.State :=
  ((d.validator a).machine (d.stores a)).state (d.events a)

/-- What consensus of an authority ordered. -/
def ordered (a : PublicKey) : List Certificate :=
  (d.validator a).consensus.output (consensusInputs (d.turns a))

/-- The trace is what the cores of the validators take, and the outside is as it should be. -/
structure Hosts (trace : Trace) : Prop where
  inputs : ∀ a ∈ net.honest, coreInputs (d.turns a) = inputsOf a trace
  counts : ∀ a ∈ net.honest, (d.validator a).proposer.machine.Along (d.validator a).proposer.CanCount
    (proposerInputs (d.turns a))
  unforged : net.Unforged trace
  unambiguous : Unambiguous (net.headers trace)
  foreign : ∀ a ∈ net.honest, ∀ pre e, pre ++ [e] <+: inputsOf a trace →
    (net.core a).Foreign pre e
  fresh : ∀ a ∈ net.honest, (net.core a).machine.Along Core.FreshLoopback (inputsOf a trace)

namespace Hosts

variable {d} {trace : Trace} {a : PublicKey}

/-- A validator, with what its core took. -/
theorem wired (hd : d.Hosts trace) (ha : a ∈ net.honest) :
    (d.validator a).Wired (d.stores a) (d.state a) (inputsOf a trace) (proposerInputs (d.turns a))
      (consensusInputs (d.turns a)) fun id => workerInputs id (d.turns a) := by
  have hw := (d.validator a).wired (d.stores a) (d.events a)
  rw [← hd.inputs a ha]
  exact hw

theorem made (hd : d.Hosts trace) (ha : a ∈ net.honest) {pre : List Core.Event} {h : Header}
    (hpre : pre ++ [.ownHeader h] <+: inputsOf a trace) : (d.validator a).Made pre h :=
  (hd.wired ha).made (hd.counts a ha) pre h hpre

/-- **A network of validators is an execution of its cores.** -/
theorem execution (hd : d.Hosts trace) : net.Execution trace where
  unforged := hd.unforged
  unambiguous := hd.unambiguous
  admissible a ha pre e hpre := by
    have hreturned := d.core a ha ▸ (hd.wired ha).returned pre e hpre
    cases e with
    | header h => exact hd.foreign a ha pre _ hpre
    | certificate c => exact hd.foreign a ha pre _ hpre
    | headerLoopback h => exact hreturned
    | certificateLoopback c => exact hreturned
    | ownHeader h =>
      have hmade := hd.made ha hpre
      have hname : (d.validator a).core.name = a := congrArg Core.name (d.core a ha)
      exact ⟨hmade.author.trans hname, hmade.parented.one_le_round, hmade.later⟩
    | _ => trivial
  fresh := hd.fresh
  named a ha h hh := by
    obtain ⟨pre, hpre⟩ := Core.exists_prefix_of_mem hh
    exact (hd.made ha hpre).named

/-- The headers of an authority carry batches that its workers store. -/
theorem holds_of_own (hd : d.Hosts trace) (ha : a ∈ net.honest) {h : Header}
    (hh : h ∈ Core.ownHeaders (inputsOf a trace)) :
    ∀ x ∈ h.payload.entries, Validator.Holds (d.state a) x :=
  (d.validator a).holds_of_own (d.stores a) (d.opened a) (d.events a) (hd.inputs a ha ▸ hh)

/-- The headers of others that an authority votes for carry batches that its workers store. -/
theorem exists_holds_of_vote (hd : d.Hosts trace) (ha : a ∈ net.honest) {v : Vote}
    (hv : v ∈ Core.votes (net.log a trace)) (hname : v.origin ≠ a) :
    ∃ h, (net.core a).Familiar (inputsOf a trace) h ∧ v.ballot = h.ballot ∧
      ∀ x ∈ h.payload.entries, Validator.Holds (d.state a) x := by
  have hstored := (d.validator a).exists_holds_of_vote (d.stores a) (d.opened a) (d.events a) v
  rw [show ((d.validator a).machine (d.stores a)).outputs (d.events a) = d.turns a from rfl,
    hd.inputs a ha, d.core a ha] at hstored
  obtain ⟨h, hfamiliar, rfl, hholds⟩ := hstored hv hname
  exact ⟨h, hfamiliar, rfl, hholds⟩

/-- **Who endorses a header has its payload**, where the id of a header tells its payload. -/
theorem holds_of_endorses (hd : d.Hosts trace) (hpayload : ∀ h ∈ net.headers trace,
      ∀ h' ∈ net.headers trace, h.digest = h'.digest → h.payload = h'.payload)
    (ha : a ∈ net.honest) {h : Header} (hh : net.Endorses trace a h) (hmem : h ∈ net.headers trace)
    (hnamed : h.digest = h.id) (hround : h.round ≠ 0) :
    ∀ x ∈ h.payload.entries, Validator.Holds (d.state a) x := by
  have he := hd.execution
  have hown : ∀ {y : Header}, y ∈ Core.ownHeaders (inputsOf a trace) → y.id = h.id →
      ∀ x ∈ h.payload.entries, Validator.Holds (d.state a) x := by
    intro y hy hid
    have hymem : y ∈ net.headers trace :=
      Execution.mem_headers_of_seen (Core.mem_seenHeaders_of_own hy)
    rw [hpayload h hmem y hymem (by rw [hnamed, he.named a ha y hy, hid])]
    exact hd.holds_of_own ha hy
  rcases hh with hh | ⟨v, hv, hballot⟩
  · exact hown hh rfl
  · have hid : v.id = h.id := congrArg Ballot.id hballot
    by_cases hname : v.origin = a
    · -- a vote for a header of its own
      obtain ⟨s, hrec⟩ := he.recorded ha
      have hvround : v.round = h.round := congrArg (fun b => b.rawRound.toNat) hballot
      rcases hrec.own v hv hname with ⟨y, hy, -, hyid⟩ | ⟨hzero, -⟩
      · exact hown hy (hyid.symm.trans hid)
      · exact absurd (hvround.symm.trans hzero) hround
    · obtain ⟨y, hfamiliar, hy, hholds⟩ := hd.exists_holds_of_vote ha hv hname
      have hyid : y.id = h.id := (congrArg Ballot.id hy).symm.trans hid
      have hne : y.id ≠ default := by
        rw [hyid, ← hnamed]
        exact (he.unambiguous.nonzero h hmem).1
      have hymem : y ∈ net.headers trace := Execution.mem_headers_of_seen hfamiliar.seen
      rw [hpayload h hmem y hymem (by rw [hnamed, he.digest_of_familiar ha hfamiliar hne, hyid])]
      exact hholds

end Hosts

variable (net)

/-- **A certificate is a proof of availability**: for every certificate above round zero that an
honest validator sends to consensus, honest authorities of `validity_threshold` stake among its
voters store every batch of the payload, at the worker it names and under its hash. -/
theorem available (trace : Trace) (hd : d.Hosts trace) (hpayload : ∀ h ∈ net.headers trace,
      ∀ h' ∈ net.headers trace, h.digest = h'.digest → h.payload = h'.payload)
    (a : PublicKey) (ha : a ∈ net.honest) :
    ∀ c ∈ net.feed a trace, c.round ≠ 0 → ∃ S ⊆ c.voters,
      net.committee.validityThreshold.toNat ≤ net.committee.stakeOf S ∧
      ∀ k ∈ S, k ∈ net.honest ∧
        ∀ x ∈ c.header.payload.entries, Validator.Holds (d.state k) x := by
  intro c hc hround
  have he := hd.execution
  have hcertified := he.certified ha hc hround
  obtain ⟨hmem, hnamed⟩ := he.header_of_certified ha hcertified hround
  refine ⟨c.voters.filter fun k => k ∈ net.honest, Finset.filter_subset _ _,
    net.validityThreshold_le_stakeOf_honest
      (Execution.le_stakeOf_voters hcertified.votedByQuorum), fun k hk => ?_⟩
  obtain ⟨hvoter, hhonest⟩ := Finset.mem_filter.mp hk
  exact ⟨hhonest, hd.holds_of_endorses hpayload hhonest
    (he.endorses_of_voter ha hcertified hround hhonest hvoter) hmem hnamed hround⟩

end Deployment

end Network

/-! ## Two validators, of which one follows -/

namespace Network.Follower

open Sample

def second : Validator := { Alone.validator with core := net.core (key 2), member := by decide }

def eventsOf (a : PublicKey) : List Validator.Event :=
  if a = key 1 then
    Alone.sealing ++ (List.replicate 5 Alone.proposing).flatten ++ List.replicate 5 .order
  else [1, 2, 3].map (fun n =>
    .primaryFrame (PrimaryMessage.serialize (.certificate (certified (proposal n))))) ++
      List.replicate 3 .order

def deployment : net.Deployment where
  validator a := if a = key 1 then Alone.validator else second
  stores _ _ := ∅
  events := eventsOf
  core a ha := by
    rcases List.mem_cons.mp ha with rfl | ha
    · rfl
    · cases List.mem_singleton.mp ha
      rfl
  steady a _ := by
    split <;> rfl
  opened _ _ := .empty

set_option maxRecDepth 100000 in
theorem turns_deployment : (∀ a ∈ net.honest, coreInputs (deployment.turns a) = inputsOf a trace) ∧
    (∀ a ∈ net.honest, consensusInputs (deployment.turns a) = net.feed a trace) ∧
    ∀ a ∈ net.honest, (deployment.validator a).proposer.machine.Along
      (deployment.validator a).proposer.CanCount (proposerInputs (deployment.turns a)) := by
  decide +kernel

theorem hosts_trace : deployment.Hosts trace := by
  obtain ⟨hexecution, -⟩ := execution_trace
  obtain ⟨hinputs, -, hcounts⟩ := turns_deployment
  refine ⟨hinputs, hcounts, hexecution.unforged, hexecution.unambiguous,
    fun a ha pre e hpre => ?_, hexecution.fresh⟩
  have hadmissible := hexecution.admissible a ha pre e hpre
  cases e with
  | header h => exact hadmissible
  | certificate c => exact hadmissible
  | _ => trivial

set_option maxRecDepth 100000 in
theorem payload_trace : certified (proposal 1) ∈ net.feed (key 1) trace ∧
    (proposal 1).payload.entries = [(Worker.Requested.digest, 0)] ∧
    ∀ h ∈ net.headers trace, ∀ h' ∈ net.headers trace, h.digest = h'.digest →
      h.payload = h'.payload := by
  decide +kernel

/-- The batch in the first header is with its author, which has all the stake. -/
theorem available_trace : (proposal 1).payload.entries = [(Worker.Requested.digest, 0)] ∧
    ∃ S ⊆ (certified (proposal 1)).voters,
      committee2.validityThreshold.toNat ≤ committee2.stakeOf S ∧ ∀ k ∈ S, k ∈ net.honest ∧
        ∀ x ∈ (proposal 1).payload.entries, Validator.Holds (deployment.state k) x := by
  obtain ⟨hmem, hentries, hpayload⟩ := payload_trace
  obtain ⟨-, -, -, hproposals⟩ := execution_trace
  exact ⟨hentries, Deployment.available net deployment trace hosts_trace hpayload (key 1) (by decide)
    _ hmem (hproposals 1 (by decide)).2⟩

end Network.Follower

end Bullshark
