import Bullshark.Node.Validator
import Bullshark.Primary.Inventory
import Bullshark.Primary.Payload

/-!
# Node/Wiring — what the tasks of a validator receive from each other

In every run of a validator each task is in the state its own machine reaches on what it took, and
each channel holds what one task sent and the other has not taken yet (`wired`).  So what
is proved of a task under an assumption on its surroundings holds of it here where the other tasks
meet the assumption.  What the core receives of the `Proposer` and of the waiters is what the
theorems on the core, and on a network of cores, ask for (`supplied`).
-/

namespace Bullshark

namespace Core

variable [Crypto]

/-- The rounds handed to the `Proposer` are `u64`s. -/
theorem lt_of_mem_txProposer {core : Core} {is : List Event} {m : List Certificate × ℕ}
    (hm : m ∈ txProposer (core.machine.outputs is)) : m.2 < 2 ^ 64 := by
  obtain ⟨pre, e, -, hstep⟩ := core.machine.exists_step_of_mem (mem_txProposer.mp hm)
  cases hs : core.machine.state pre with
  | error p =>
    rw [hs] at hstep
    cases hstep
  | ok s =>
    rw [hs] at hstep
    obtain ⟨s₁, log, w, s₂, -, hE, hmem⟩ := exists_effect_of_mem hstep (by simp)
    cases hE with
    | @accept c _ =>
      rcases List.mem_append.mp hmem with hmem | hmem
      · obtain ⟨ps, hps⟩ := mem_handedOut hmem
        rw [(Emission.parents.inj hps).2]
        exact UInt64.toNat_lt _
      · cases List.mem_singleton.mp hmem
    | awaitParents _ _ _ _ => cases List.mem_singleton.mp hmem
    | awaitBatches _ _ _ => cases List.mem_singleton.mp hmem
    | awaitAncestors _ _ _ => cases List.mem_singleton.mp hmem
    | certify _ _ => cases List.mem_singleton.mp hmem
    | sendVote _ _ => cases List.mem_singleton.mp hmem
    | vote _ _ _ _ => cases List.mem_singleton.mp hmem
    | _ => cases hmem

end Core

namespace Validator

/-! ## What each task took -/

/-- What the core took. -/
def coreInputs (log : List Turn) : List Core.Event :=
  log.filterMap fun
    | .core event => some event
    | _ => none

/-- What the `Proposer` took. -/
def proposerInputs (log : List Turn) : List Proposer.Input :=
  log.filterMap fun
    | .proposer input => some input
    | _ => none

/-- What consensus took. -/
def consensusInputs (log : List Turn) : List Certificate :=
  log.filterMap fun
    | .consensus certificate => some certificate
    | _ => none

/-- What one worker took. -/
def workerInputs (id : WorkerId) (log : List Turn) : List Worker.Event :=
  log.filterMap fun
    | .worker id' event => if id' = id then some event else none
    | _ => none

theorem coreInputs_append (log w : List Turn) :
    coreInputs (log ++ w) = coreInputs log ++ coreInputs w := List.filterMap_append

theorem proposerInputs_append (log w : List Turn) :
    proposerInputs (log ++ w) = proposerInputs log ++ proposerInputs w := List.filterMap_append

variable [Crypto] [Base64]

/-- A header of our own, made of what the core handed out before: under its digest, of a later round
than those before, on parents of the round before it. -/
structure Made (v : Validator) (pre : List Core.Event) (h : Header) : Prop where
  author : h.author = v.core.name
  later : ∀ h' ∈ Core.ownHeaders pre, h'.round < h.round
  named : h.digest = h.id
  parented : Proposer.Parented v.core.committee (Core.txProposer (v.core.machine.outputs pre)) h

/-- The state of a validator whose tasks took these inputs. -/
structure Wired (v : Validator) (stores : WorkerId → Worker.Store) (s : State)
    (is : List Core.Event) (js : List Proposer.Input) (cs : List Certificate)
    (ws : WorkerId → List Worker.Event) : Prop where
  core : s.core = v.core.machine.state is
  proposer : s.proposer = v.proposer.machine.state js
  consensus : s.consensus = v.consensus.machine.state cs
  workers : ∀ id, s.workers id = ((v.worker id).machine (stores id)).state (ws id)
  parents : Proposer.received js ++ s.txParents = Core.txProposer (v.core.machine.outputs is)
  headers : Core.ownHeaders is ++ s.txHeaders = Proposer.headers (v.proposer.machine.outputs js)
  certificates : cs ++ s.txConsensus = Core.txConsensus (v.core.machine.outputs is)
  ordered : collected is ++ s.txOrdered = v.consensus.output cs
  headerWaiter : s.headerWaiter = Core.suspendedHeaders (v.core.machine.outputs is)
  certificateWaiter : s.certificateWaiter
    = Core.suspendedCertificates (v.core.machine.outputs is)
  returned : ∀ pre e, pre ++ [e] <+: is → v.core.Returned pre e
  made : v.proposer.machine.Along v.proposer.CanCount js →
    ∀ pre h, pre ++ [.ownHeader h] <+: is → v.Made pre h

namespace Wired

variable {v : Validator} {stores : WorkerId → Worker.Store} {s : State} {is : List Core.Event}
  {js : List Proposer.Input} {cs : List Certificate} {ws : WorkerId → List Worker.Event}

/-! ## The turns keep it -/

/-- **A turn of the core**, on what it is given of two channels. -/
theorem coreTurn (hw : v.Wired stores s is js cs ws) {e : Core.Event} {headers : List Header}
    {ordered : List Certificate} {digests : List (Digest × WorkerId)}
    (hheaders : Core.ownHeaders [e] ++ headers = s.txHeaders)
    (hordered : collected [e] ++ ordered = s.txOrdered) (hreturned : v.core.Returned is e)
    (hmade : v.proposer.machine.Along v.proposer.CanCount js →
      ∀ h, e = .ownHeader h → v.Made is h) :
    v.Wired stores
      (v.coreTurn { s with txHeaders := headers, txOrdered := ordered, txOthersDigests := digests }
        e).1 (is ++ [e]) js cs ws := by
  have hlast : ∀ {pre x}, pre ++ [x] <+: is ++ [e] → pre = is ∧ x = e ∨ pre ++ [x] <+: is := by
    intro pre x hpre
    refine (List.prefix_concat_iff.mp hpre).imp_left fun heq => ?_
    obtain ⟨hpre, hx⟩ := List.append_inj' heq rfl
    exact ⟨hpre, List.singleton_inj.mp hx⟩
  refine { hw with
    core := ?_, parents := ?_, headers := ?_, certificates := ?_, ordered := ?_, headerWaiter := ?_,
    certificateWaiter := ?_, returned := ?_, made := ?_ }
  · rw [Mealy.state_snoc, ← hw.core]
    rfl
  · rw [Mealy.outputs_snoc, Core.txProposer, List.filterMap_append, ← Core.txProposer,
      ← hw.parents, List.append_assoc, ← hw.core]
    rfl
  · rw [Core.ownHeaders, List.filterMap_append, ← Core.ownHeaders, List.append_assoc,
      ← hw.headers, ← hheaders]
    rfl
  · rw [Mealy.outputs_snoc, Core.txConsensus, List.filterMap_append, ← Core.txConsensus,
      ← hw.certificates, List.append_assoc, ← hw.core]
    rfl
  · rw [collected, List.filterMap_append, ← collected, List.append_assoc, ← hw.ordered,
      ← hordered]
    rfl
  · rw [Mealy.outputs_snoc, Core.suspendedHeaders, List.filterMap_append, ← Core.suspendedHeaders,
      ← hw.headerWaiter, ← hw.core]
    rfl
  · rw [Mealy.outputs_snoc, Core.suspendedCertificates, List.filterMap_append,
      ← Core.suspendedCertificates, ← hw.certificateWaiter, ← hw.core]
    rfl
  · intro pre x hpre
    rcases hlast hpre with ⟨rfl, rfl⟩ | hpre
    · exact hreturned
    · exact hw.returned pre x hpre
  · intro hcount pre h hpre
    rcases hlast hpre with ⟨rfl, he⟩ | hpre
    · exact hmade hcount h he.symm
    · exact hw.made hcount pre h hpre

/-- **A turn of the `Proposer`.** -/
theorem proposerTurn (hw : v.Wired stores s is js cs ws) {j : Proposer.Input}
    {parents : List (List Certificate × ℕ)} {digests : List (Digest × WorkerId)}
    (hparents : Proposer.received [j] ++ parents = s.txParents) :
    v.Wired stores (v.proposerTurn { s with txParents := parents, txOurDigests := digests } j).1
      is (js ++ [j]) cs ws := by
  refine { hw with proposer := ?_, parents := ?_, headers := ?_, made := ?_ }
  · rw [Mealy.state_snoc, ← hw.proposer]
    rfl
  · rw [Proposer.received_snoc, List.append_assoc, ← hw.parents, ← hparents]
    rfl
  · rw [Mealy.outputs_snoc, Proposer.headers_append, ← hw.headers, List.append_assoc,
      ← hw.proposer]
    rfl
  · exact fun hcount => hw.made (hcount.of_prefix (List.prefix_append _ _))

/-- **A turn of consensus.** -/
theorem consensusTurn (hw : v.Wired stores s is js cs ws) {c : Certificate}
    {certificates : List Certificate} (hcertificates : s.txConsensus = c :: certificates) :
    v.Wired stores (v.consensusTurn { s with txConsensus := certificates } c).1
      is js (cs ++ [c]) ws := by
  refine { hw with consensus := ?_, certificates := ?_, ordered := ?_ }
  · rw [Mealy.state_snoc, ← hw.consensus]
    rfl
  · rw [← hw.certificates, hcertificates, List.append_assoc]
    rfl
  · rw [Consensus.output, Mealy.outputs_snoc, Consensus.txOutput, List.flatMap_append,
      ← Consensus.txOutput, ← Consensus.output, ← hw.ordered, List.append_assoc, ← hw.consensus]
    rfl

/-- **A turn of a worker.** -/
theorem workerTurn (hw : v.Wired stores s is js cs ws) (id : WorkerId) (e : Worker.Event) :
    v.Wired stores (v.workerTurn s id e).1 is js cs (Function.update ws id (ws id ++ [e])) := by
  refine { hw with workers := fun id' => ?_ }
  by_cases hid : id' = id
  · subst hid
    rw [Function.update_self, Mealy.state_snoc, ← hw.workers id']
    exact Function.update_self _ _ _
  · rw [Function.update_of_ne hid]
    exact (Function.update_of_ne hid _ _).trans (hw.workers id')

/-- A header of the `Proposer` that the core takes next. -/
theorem made_of_txHeaders (hw : v.Wired stores s is js cs ws)
    (hcount : v.proposer.machine.Along v.proposer.CanCount js) {h : Header} {rest : List Header}
    (hrest : s.txHeaders = h :: rest) : v.Made is h := by
  have hreads : Proposer.received js <+: Core.txProposer (v.core.machine.outputs is) :=
    ⟨_, hw.parents⟩
  have hfed : Core.ownHeaders is ++ [h] <+: Proposer.headers (v.proposer.machine.outputs js) := by
    rw [← hw.headers, hrest]
    exact ⟨rest, by simp⟩
  have hmem : h ∈ Proposer.headers (v.proposer.machine.outputs js) := hfed.subset (by simp)
  have hcommittee : v.proposer.committee = v.core.committee := rfl
  have hname : v.proposer.name = v.core.name := rfl
  obtain ⟨⟨hauthor, -, hlater⟩, -⟩ :=
    Proposer.admissible_ownHeader hcommittee hname hreads hcount hfed
  have hchain := (Proposer.chained_run hcommittee hreads hcount).chain
  exact ⟨hauthor, hlater, (v.proposer.sourced_run js).named h hmem,
    (hchain.parented h hmem).mono hreads.subset⟩

end Wired

/-! ## Whole runs -/

/-- The same, of what the tasks took in these turns. -/
def WiredBy (v : Validator) (stores : WorkerId → Worker.Store) (s : State) (log : List Turn) : Prop :=
  v.Wired stores s (coreInputs log) (proposerInputs log) (consensusInputs log)
    fun id => workerInputs id log

namespace WiredBy

variable {v : Validator} {stores : WorkerId → Worker.Store} {s : State} {log : List Turn}

theorem core {e : Core.Event} (h : v.Wired stores s (coreInputs log ++ [e]) (proposerInputs log)
    (consensusInputs log) fun id => workerInputs id log) :
    v.WiredBy stores s (log ++ [.core e]) := by
  simpa [WiredBy, coreInputs, proposerInputs, consensusInputs, workerInputs] using h

theorem proposer {j : Proposer.Input} (h : v.Wired stores s (coreInputs log)
    (proposerInputs log ++ [j]) (consensusInputs log) fun id => workerInputs id log) :
    v.WiredBy stores s (log ++ [.proposer j]) := by
  simpa [WiredBy, coreInputs, proposerInputs, consensusInputs, workerInputs] using h

theorem consensus {c : Certificate} (h : v.Wired stores s (coreInputs log) (proposerInputs log)
    (consensusInputs log ++ [c]) fun id => workerInputs id log) :
    v.WiredBy stores s (log ++ [.consensus c]) := by
  simpa [WiredBy, coreInputs, proposerInputs, consensusInputs, workerInputs] using h

theorem worker {id : WorkerId} {e : Worker.Event} (h : v.Wired stores s (coreInputs log)
    (proposerInputs log) (consensusInputs log)
    (Function.update (fun id => workerInputs id log) id (workerInputs id log ++ [e]))) :
    v.WiredBy stores s (log ++ [.worker id e]) := by
  have hworkers : (fun id' => workerInputs id' (log ++ [.worker id e]))
      = Function.update (fun id => workerInputs id log) id (workerInputs id log ++ [e]) := by
    funext id'
    by_cases hid : id' = id
    · subst hid
      simp [workerInputs]
    · rw [Function.update_of_ne hid]
      simp [workerInputs, Ne.symm hid]
  rw [WiredBy, hworkers]
  simpa [coreInputs, proposerInputs, consensusInputs] using h

/-- **One step of a validator.** -/
theorem step (hw : v.WiredBy stores s log) {s' : State} {w : List Turn}
    (h : v.Transition s s' w) : v.WiredBy stores s' (log ++ w) := by
  have hidle : v.WiredBy stores s (log ++ []) := (List.append_nil log).symm ▸ hw
  cases h with
  | idle => exact hidle
  | frame hlink =>
    rw [receiveWorkerFrame]
    split
    · exact { hidle with }
    · exact { hidle with }
    · exact { hidle with }
  | lost id n => exact { hidle with }
  | worker id event => exact .worker (hw.workerTurn id event)
  | @core event headers ordered digests hheaders hordered _ hwaits =>
    refine .core (hw.coreTurn hheaders hordered ?_ fun hcount h hh => ?_)
    · cases event with
      | headerLoopback header =>
        rw [Waits, hw.headerWaiter] at hwaits
        exact hwaits
      | certificateLoopback certificate =>
        rw [Waits, hw.certificateWaiter] at hwaits
        exact Core.mem_suspendedCertificates.mp hwaits
      | _ => trivial
    · subst hh
      exact hw.made_of_txHeaders hcount hheaders.symm
  | @parents elapsed parents round rest hrest =>
    refine .proposer (hw.proposerTurn ?_)
    have hmem : (parents, round) ∈ Core.txProposer (v.core.machine.outputs (coreInputs log)) := by
      rw [← hw.parents, hrest]
      simp
    have hround : (UInt64.ofNat round).toNat = round :=
      UInt64.toNat_ofNat_of_lt' (Core.lt_of_mem_txProposer hmem)
    rw [hrest]
    exact congrArg (fun r => (parents, r) :: rest) hround
  | digest _ => exact .proposer (hw.proposerTurn rfl)
  | timer => exact .proposer (hw.proposerTurn rfl)
  | consensus hcertificates => exact .consensus (hw.consensusTurn hcertificates)

end WiredBy

variable (v : Validator) (stores : WorkerId → Worker.Store) (is : List Event)

/-- **In every run each task does what it does alone**, on what the others sent it. -/
theorem wired : v.WiredBy stores ((v.machine stores).state is) ((v.machine stores).outputs is) := by
  refine (v.machine stores).invariant (P := fun _ s log => v.WiredBy stores s log) ?_
    (fun _ e h => WiredBy.step h (v.transition_step _ e)) is
  exact
    { core := rfl
      proposer := rfl
      consensus := rfl
      workers := fun _ => rfl
      parents := rfl
      headers := rfl
      certificates := rfl
      ordered := rfl
      headerWaiter := rfl
      certificateWaiter := rfl
      returned := fun pre e hpre => absurd (List.prefix_nil.mp hpre) (by simp)
      made := fun _ pre h hpre => absurd (List.prefix_nil.mp hpre) (by simp) }

/-- **The other tasks do what the core relies on**: in every run in which the `Proposer` can count
its rounds, the waiters loop back what was suspended, each header of the `Proposer` is ours, under
its digest, of a later round than those before and on parents that the core handed out, consensus
receives the certificates in the order in which the core sent them, and the collector what consensus
ordered. -/
theorem supplied (hcount : v.proposer.machine.Along v.proposer.CanCount
      (proposerInputs ((v.machine stores).outputs is))) :
    (∀ pre e, pre ++ [e] <+: coreInputs ((v.machine stores).outputs is) → v.core.Returned pre e) ∧
    (∀ pre h, pre ++ [.ownHeader h] <+: coreInputs ((v.machine stores).outputs is) →
      v.Made pre h) ∧
    consensusInputs ((v.machine stores).outputs is)
      <+: Core.txConsensus (v.core.machine.outputs (coreInputs ((v.machine stores).outputs is))) ∧
    collected (coreInputs ((v.machine stores).outputs is))
      <+: v.consensus.output (consensusInputs ((v.machine stores).outputs is)) := by
  have hw := v.wired stores is
  exact ⟨hw.returned, hw.made hcount, ⟨_, hw.certificates⟩, ⟨_, hw.ordered⟩⟩

end Validator

namespace Validator.Alone

open Sample

def log : List Turn := (validator.machine fun _ => ∅).outputs events

set_option maxRecDepth 100000 in
theorem counts_log : validator.proposer.machine.Along validator.proposer.CanCount
      (proposerInputs log) ∧
    (Core.ownHeaders (coreInputs log)).map Header.round = [1, 2, 3] ∧
    (collected (coreInputs log)).map Certificate.round = [1] := by
  decide +kernel

/-- Three headers are made, and the collector is told of one certificate. -/
theorem supplied_alone :
    (Core.ownHeaders (coreInputs log)).map Header.round = [1, 2, 3] ∧
    (collected (coreInputs log)).map Certificate.round = [1] ∧
    (∀ pre h, pre ++ [.ownHeader h] <+: coreInputs log → validator.Made pre h) ∧
    collected (coreInputs log) <+: validator.consensus.output (consensusInputs log) := by
  obtain ⟨hcounts, hown, hcollected⟩ := counts_log
  obtain ⟨-, hmade, -, hordered⟩ := supplied validator (fun _ => ∅) events hcounts
  exact ⟨hown, hcollected, hmade, hordered⟩

end Validator.Alone

end Bullshark
