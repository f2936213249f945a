import Bullshark.Consensus.Order
import Bullshark.Machinery.Mealy

/-!
# Consensus/Run — the main loop of the consensus task

`Consensus::run` as a machine: it reads one certificate at a time and emits the sub-DAGs it commits
and, in dynamic mode, the outcome of each fallback it resolves.
-/

namespace Bullshark

namespace Consensus

/-- What the loop body decides about the leader round a certificate points at. -/
inductive Verdict
  /-- `continue` with nothing done. -/
  | wait
  /-- The fallback of this round is resolved without a commit. -/
  | skip (leaderRound : ℕ)
  /-- This leader is committed. -/
  | commit (leaderRound : ℕ) (leader : Certificate)
  deriving DecidableEq

/-- What the loop emits. -/
inductive Emission
  /-- `Fallback outcome round {} outcome {commit, skip}`. -/
  | fallback (leaderRound : ℕ) (committed : Bool)
  /-- The sub-DAG of a leader, flattened while `lastCommittedRound` was in force. -/
  | subDag (leader : Certificate) (lastCommittedRound : ℕ) (certificates : List Certificate)
  deriving DecidableEq

/-- The certificates an emission sends on `tx_output`. -/
def Emission.certificates : Emission → List Certificate
  | fallback _ _ => []
  | subDag _ _ certificates => certificates

/-- The sequence sent on `tx_output`. -/
def txOutput (emissions : List Emission) : List Certificate := emissions.flatMap Emission.certificates

/-- The outcomes of the fallback rounds. -/
def outcomes (emissions : List Emission) : List (ℕ × Bool) :=
  emissions.filterMap fun
    | .fallback leaderRound committed => some (leaderRound, committed)
    | .subDag _ _ _ => none

variable (self : Consensus)

/-- The leader round a certificate of this round may trigger. -/
def leaderRound (round : ℕ) : Option ℕ :=
  if self.dynamic then
    if round < 5 ∨ round % 4 ≠ 1 then none else some (round - 3)
  else
    if Round.pred round % 2 ≠ 0 ∨ Round.pred round < 2 then none else some (Round.pred round)

/-- The certificate `selected` for a leader round. -/
def selected (leaderRound : ℕ) (dag : Dag) : Except Panic (Option (Digest × Certificate)) :=
  if self.dynamic then self.fallbackLeader leaderRound dag else self.leader leaderRound dag

/-- The stake of all certificates of a round. -/
def roundStake (state : State) (round : ℕ) : Stake :=
  match state.dag.lookup round with
  | none => 0
  | some authorities => (authorities.values.map fun e => self.committee.stake e.2.origin).sum

/-- Does a certificate of the support round support the leader? -/
def supports (state : State) (leader : Digest × Certificate) (x : Certificate) :
    Except Panic Bool :=
  if self.dynamic then linked x leader.2 state.dag
  else .ok (decide (leader.1 ∈ x.header.parents))

/-- The stake of the certificates of a round that support the leader. -/
def supportStake (state : State) (round : ℕ) (leader : Digest × Certificate) :
    Except Panic Stake :=
  match state.dag.lookup round with
  | none => .error .wholeHistory
  | some authorities => authorities.values.foldlM (fun stake e => do
      if ← self.supports state leader e.2 then return stake + self.committee.stake e.2.origin
      else return stake) 0

def requiredSupport : Stake :=
  if self.dynamic then self.committee.quorumThreshold else self.committee.validityThreshold

/-- The part of the loop body that decides: `state` already holds the certificate. -/
def verdict (state : State) (round : ℕ) : Except Panic Verdict :=
  match self.leaderRound round with
  | none => .ok .wait
  | some leaderRound =>
    if leaderRound ≤ state.lastCommittedRound then .ok .wait
    else if self.dynamic ∧ leaderRound ∈ state.resolvedFallbackRounds then .ok .wait
    else if self.dynamic ∧ self.roundStake state round < self.committee.quorumThreshold then
      .ok .wait
    else do
      match ← self.selected leaderRound state.dag with
      | none => return if self.dynamic then .skip leaderRound else .wait
      | some leader =>
        let stake ← self.supportStake state round leader
        if stake < self.requiredSupport then
          return if self.dynamic then .skip leaderRound else .wait
        else return .commit leaderRound leader.2

/-- Flatten the sub-DAG of a leader and update the state with each of its certificates. -/
def commitLeader (state : State) (leader : Certificate) : State × Emission :=
  let ordered := self.orderDag leader state
  (ordered.foldl (fun state x => state.update x self.gcDepth) state,
    .subDag leader state.lastCommittedRound ordered)

/-- The commit loop: `leaders` from the oldest one on. -/
def commitLeaders (state : State) : List Certificate → State × List Emission
  | [] => (state, [])
  | leader :: leaders =>
    let first := self.commitLeader state leader
    let rest := commitLeaders first.1 leaders
    (rest.1, first.2 :: rest.2)

/-- Mark a fallback round as resolved. -/
def resolve (state : State) (leaderRound : ℕ) : State :=
  { state with resolvedFallbackRounds := insert leaderRound state.resolvedFallbackRounds }

variable [Crypto]

/-- The body of the main loop. -/
def process (state : State) (certificate : Certificate) : Except Panic (State × List Emission) := do
  let state := state.insert certificate
  match ← self.verdict state certificate.round with
  | .wait => return (state, [])
  | .skip leaderRound => return (resolve state leaderRound, [.fallback leaderRound false])
  | .commit leaderRound leader =>
    if self.dynamic then
      let committed := self.commitLeaders (resolve state leaderRound) [leader]
      return (committed.1, .fallback leaderRound true :: committed.2)
    else
      let leaders ← self.orderLeaders leader state
      return self.commitLeaders state leaders.reverse

/-- `Consensus::run`: a panic ends the task. -/
def machine : Mealy (Except Panic State) Certificate Emission where
  init := .ok (State.new (Certificate.genesis self.committee))
  step state certificate :=
    match state with
    | .error p => (.error p, [])
    | .ok state =>
      match self.process state certificate with
      | .error p => (.error p, [])
      | .ok (state, emissions) => (.ok state, emissions)

/-- The sequence sent on `tx_output` when the certificates `s` are received. -/
def output (s : List Certificate) : List Certificate := txOutput (self.machine.outputs s)

end Consensus

end Bullshark
