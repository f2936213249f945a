import Bullshark.Primary.Messages

/-!
# Consensus/State — the DAG in memory and its clean-up

`State` of `consensus/src/lib.rs`: the last committed rounds and the DAG of the certificates
received, indexed by round and author.
-/

namespace Bullshark

/-- `a + b` on two `u64`, wrapping as in a release build. -/
def Round.add (a b : ℕ) : ℕ := (a + b) % 2 ^ 64

theorem Round.add_le (a b : ℕ) : Round.add a b ≤ a + b := Nat.mod_le _ _

/-- Where it does not overflow, it is the sum. -/
theorem Round.add_eq {a b : ℕ} (h : a + b < 2 ^ 64) : Round.add a b = a + b := Nat.mod_eq_of_lt h

/-- The representation of the DAG in memory. -/
abbrev Dag := HashMap ℕ (HashMap PublicKey (Digest × Certificate))

/-- The entry of an authority at a round. -/
def Dag.get (dag : Dag) (r : ℕ) (n : PublicKey) : Option (Digest × Certificate) :=
  (dag.lookup r).bind fun authorities => authorities.lookup n

/-- The state that needs to be persisted for crash-recovery. -/
structure State where
  /-- The last committed round. -/
  lastCommittedRound : ℕ
  /-- Keeps the last committed round for each authority. -/
  lastCommitted : HashMap PublicKey ℕ
  /-- Keeps the latest committed certificate (and its parents) for every authority. -/
  dag : Dag
  /-- Fallback rounds already committed or skipped by the active scheduler. -/
  resolvedFallbackRounds : Finset ℕ

namespace State

/-- Insert a certificate under its round and its author. -/
def insert [Crypto] (state : State) (c : Certificate) : State :=
  { state with
    dag := state.dag.insert c.round
      (AList.insert c.origin (c.digest, c) ((state.dag.lookup c.round).getD ∅)) }

/-- `State::new`. -/
def new [Crypto] (genesis : List Certificate) : State where
  lastCommittedRound := 0
  lastCommitted := AList.collect (genesis.map fun c => (c.origin, c.round))
  dag := AList.insert 0 (AList.collect (genesis.map fun c => (c.origin, (c.digest, c)))) ∅
  resolvedFallbackRounds := ∅

/-- One turn of the clean-up loop of `update`: drop what `name` made before `round`, and the rounds
left empty or below the garbage collection horizon. -/
def retainFrom (gcDepth lastCommittedRound : ℕ) (dag : Dag) (name : PublicKey)
    (round : ℕ) : Dag :=
  dag.retain fun r authorities =>
    let authorities := authorities.retain fun n x => if n ≠ name ∨ r ≥ round then some x else none
    if authorities.values ≠ [] ∧ Round.add r gcDepth ≥ lastCommittedRound then some authorities
    else none

/-- `State::update`: record a committed certificate and clean up. -/
def update (state : State) (certificate : Certificate) (gcDepth : ℕ) : State :=
  let lastCommitted : HashMap PublicKey ℕ :=
    state.lastCommitted.insert certificate.origin
      (match state.lastCommitted.lookup certificate.origin with
        | some r => max r certificate.round
        | none => certificate.round)
  let lastCommittedRound := lastCommitted.values.foldl max 0
  { state with
    lastCommitted
    lastCommittedRound
    dag := lastCommitted.entries.foldl
      (fun dag e => retainFrom gcDepth lastCommittedRound dag e.1 e.2) state.dag }

end State

end Bullshark
