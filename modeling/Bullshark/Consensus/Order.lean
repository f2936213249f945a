import Bullshark.Consensus.State
import Bullshark.Machinery.Search

/-!
# Consensus/Order — leaders, links between them, and the flattening of a sub-DAG

The pure functions of `Consensus`: `leader`, `fallback_leader`, `order_leaders`, `linked` and
`order_dag`.  An `expect` that fails is an `Except.error`.  What can leave `u64`, `round - 1` and
`round + gc_depth`, wraps as in a release build.  The sums that cannot are those of `ℕ`:
`first_round + 2`, since the first round of a wave is three below a round that was received, and
`last_committed_round + 2`, since the leader walked back from is of an even round above it.
-/

namespace Bullshark

/-- The ways the consensus task can die. -/
inductive Consensus.Panic
  /-- `expect("We should have the whole history by now")`. -/
  | wholeHistory
  /-- `keys[seed % self.size()]` on an empty committee. -/
  | emptyCommittee
  deriving DecidableEq

/-- The immutable part of a `Consensus` instance; `dynamic` is `dynamic_adversary_enabled()`. -/
structure Consensus where
  committee : Committee
  gcDepth : ℕ
  dynamic : Bool

/-- `round - 1` on a `u64`, wrapping at zero. -/
def Round.pred (r : ℕ) : ℕ := if r = 0 then 2 ^ 64 - 1 else r - 1

namespace Consensus

variable (self : Consensus)

/-- The key `Committee::leader` elects for a seed. -/
def leaderKey (seed : ℕ) : Except Panic PublicKey :=
  match self.committee.leader seed with
  | some key => .ok key
  | none => .error .emptyCommittee

/-- `Consensus::leader`: the certificate originated by the leader of the round (if any). -/
def leader (round : ℕ) (dag : Dag) : Except Panic (Option (Digest × Certificate)) := do
  let leader ← self.leaderKey round
  return dag.get round leader

/-- The authority `fallback_leader` selects for the wave starting at `firstRound`. -/
def fallbackKey (firstRound : ℕ) : Except Panic (Option PublicKey) := do
  let firstSteady ← self.leaderKey firstRound
  let thirdSteady ← self.leaderKey (firstRound + 2)
  let candidates := self.committee.authorities.keys.filter fun authority =>
    decide (authority ≠ firstSteady ∧ authority ≠ thirdSteady)
  let wave : BitVec 64 := BitVec.ofNat 64 ((firstRound - 2) / 4)
  let mixed := wave * 0x9E3779B9#64 + wave.rotateLeft 7
  return candidates[mixed.toNat % candidates.length]?

/-- `Consensus::fallback_leader`. -/
def fallbackLeader (firstRound : ℕ) (dag : Dag) :
    Except Panic (Option (Digest × Certificate)) := do
  let fallback ← self.fallbackKey firstRound
  return fallback.bind (dag.get firstRound)

/-- One turn of the loop of `linked`: the certificates of round `r` some certificate of `parents`
names as a parent. -/
def linkedStep (dag : Dag) (parents : List Certificate) (r : ℕ) :
    Except Panic (List Certificate) :=
  match dag.lookup r with
  | none => .error .wholeHistory
  | some authorities =>
    .ok ((authorities.values.filter fun e =>
      parents.any fun x => decide (e.1 ∈ x.header.parents)).map Prod.snd)

/-- `Consensus::linked`: is there a path between two leaders? -/
def linked (leader prevLeader : Certificate) (dag : Dag) : Except Panic Bool := do
  let rounds := (List.range' prevLeader.round (leader.round - prevLeader.round)).reverse
  let parents ← rounds.foldlM (linkedStep dag) [leader]
  return parents.any fun x => x.partialEq prevLeader

/-- `Iterator::step_by(2)`. -/
def stepByTwo {α : Type*} : List α → List α
  | [] => []
  | [a] => [a]
  | a :: _ :: l => a :: stepByTwo l

/-- One turn of the loop of `order_leaders`: the leaders selected so far and the latest of them. -/
def orderLeadersStep (dag : Dag) (acc : List Certificate × Certificate) (r : ℕ) :
    Except Panic (List Certificate × Certificate) := do
  match ← self.leader r dag with
  | none => return acc
  | some (_, prevLeader) =>
    if ← linked acc.2 prevLeader dag then return (acc.1 ++ [prevLeader], prevLeader)
    else return acc

/-- The rounds `order_leaders` walks through:
`(last_committed_round + 2..leader.round()).rev().step_by(2)`. -/
def walkRounds (lastCommittedRound leaderRound : ℕ) : List ℕ :=
  stepByTwo (List.range' (lastCommittedRound + 2) (leaderRound - (lastCommittedRound + 2))).reverse

/-- `Consensus::order_leaders`: the past leaders that we didn't already commit. -/
def orderLeaders (leader : Certificate) (state : State) : Except Panic (List Certificate) := do
  let acc ← (walkRounds state.lastCommittedRound leader.round).foldlM
    (self.orderLeadersStep state.dag) ([leader], leader)
  return acc.1

/-- The parent of `x` with the given digest, where the DAG has it. -/
def findParent (state : State) (x : Certificate) (parent : Digest) : Option (Digest × Certificate) :=
  (state.dag.lookup (Round.pred x.round)).bind fun authorities =>
    authorities.values.find? fun e => decide (e.1 = parent)

/-- We reached a round that we already committed for this authority. -/
def alreadyCommitted (state : State) (certificate : Certificate) : Bool :=
  decide (state.lastCommitted.lookup certificate.origin = some certificate.round)

/-- One turn of the inner loop of `order_dag`: the buffer and the digests already ordered. -/
def pushParent (state : State) (x : Certificate) (acc : List Certificate × List Digest)
    (parent : Digest) : List Certificate × List Digest :=
  match findParent state x parent with
  | none => acc
  | some (digest, certificate) =>
    if digest ∈ acc.2 ∨ alreadyCommitted state certificate then acc
    else (certificate :: acc.1, digest :: acc.2)

/-- The loop of `order_dag`: pop a certificate, order it, push its parents. -/
def orderDagLoop (state : State) : ℕ → List Certificate → List Digest → List Certificate
  | 0, _, _ => []
  | _ + 1, [], _ => []
  | n + 1, x :: buffer, alreadyOrdered =>
    let acc := x.header.parents.elems.foldl (pushParent state x) (buffer, alreadyOrdered)
    x :: orderDagLoop state n acc.1 acc.2

/-- The entries of the DAG. -/
def dagSize (dag : Dag) : ℕ := (dag.values.map fun authorities => authorities.values.length).sum

/-- `Consensus::order_dag`: flatten the dag referenced by the input certificate.  Every entry of the
DAG is pushed at most once, so the loop ends within the fuel. -/
def orderDag (leader : Certificate) (state : State) : List Certificate :=
  ((orderDagLoop state (dagSize state.dag + 1) [leader] []).filter fun x =>
      decide (Round.add x.round self.gcDepth ≥ state.lastCommittedRound)).insertionSort
    fun x y => x.round ≤ y.round

end Consensus

end Bullshark
