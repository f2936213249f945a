import Bullshark.Machinery.LastWriter
import Bullshark.Primary.Proposer
import Bullshark.Primary.Sample
import Bullshark.Worker.Run

/-!
# Worker/PauseRegister — when a worker pauses

The primary tells its workers with every round it prepares whether to make batches in it.  The
messages may come late, out of order and more than once: `PrimaryReceiverHandler` keeps the one of
the highest round (`batchSilent_run`), and since the `Proposer` never sends two flags for one round
(`oneFlag_sent`) what a worker ends on depends on which messages have come, not on how.
-/

namespace Bullshark

/-- Equal rounds carry equal flags. -/
def OneFlag (l : List (UInt64 × Bool)) : Prop := ∀ x ∈ l, ∀ y ∈ l, x.1 = y.1 → x.2 = y.2

/-! ## What the proposer sends -/

namespace Proposer

/-- The rounds and flags of the `BatchSilent`s among these. -/
def pauses (sent : List Emission) : List (UInt64 × Bool) :=
  sent.filterMap fun
    | .batchSilent _ round pause => some (round, pause)
    | .header _ => none

section

variable [Crypto] (proposer : Proposer)

/-- Whether the workers pause in a round. -/
def pausesIn (round : UInt64) : Bool :=
  proposer.computeSilence round && proposer.pauseBatchesDuringSilence

/-- What `Proposer::run` sends from its start: the first round is prepared before the loop. -/
def sent (js : List Input) : List Emission :=
  (proposer.prepareRound (proposer.spawned.round + 1) proposer.spawned).2
    ++ proposer.machine.outputs js

/-- Every flag is that of its round. -/
def Flagged (sent : List Emission) : Prop := ∀ x ∈ pauses sent, x.2 = proposer.pausesIn x.1

variable {proposer}

theorem Flagged.append {sent sent' : List Emission} (h : proposer.Flagged sent)
    (h' : proposer.Flagged sent') : proposer.Flagged (sent ++ sent') := by
  intro x hx
  rw [pauses, List.filterMap_append] at hx
  exact (List.mem_append.mp hx).elim (h x) (h' x)

theorem flagged_nil : proposer.Flagged [] := fun x hx => by cases hx

theorem flagged_prepareRound (round : UInt64) (state : State) :
    proposer.Flagged (proposer.prepareRound round state).2 := by
  rw [prepareRound]
  split
  · exact flagged_nil
  · intro x hx
    obtain rfl := List.mem_singleton.mp hx
    rfl

theorem flagged_propose (state : State) : proposer.Flagged (proposer.propose state).2 := by
  have hadvance : proposer.Flagged (proposer.advanceRound state).2 := by
    rw [advanceRound]
    dsimp only
    split
    · exact flagged_prepareRound _ _
    · exact flagged_nil
  have hheader : ∀ header, proposer.Flagged [.header header] := fun header x hx => by cases hx
  rw [propose]
  dsimp only
  split
  · exact hadvance
  · exact hadvance.append (hheader _)

theorem flagged_check (elapsed : Bool) (state : State) :
    proposer.Flagged (proposer.check elapsed state).2 := by
  rw [check]
  split
  · exact flagged_propose state
  · exact flagged_nil

theorem flagged_select (state : State) (branch : Branch) :
    proposer.Flagged (proposer.select state branch).2 := by
  cases branch with
  | parents parents round =>
    change proposer.Flagged (proposer.takeParents parents round state).2
    rw [takeParents]
    split
    · exact flagged_prepareRound _ _
    · split
      · exact flagged_nil
      · exact flagged_nil
  | digest digest workerId => exact flagged_nil
  | timer => exact flagged_nil

variable (proposer) in
/-- **The flag is a function of the round**, in every run of the proposer. -/
theorem flagged_sent (js : List Input) : proposer.Flagged (proposer.sent js) := by
  refine (flagged_prepareRound _ _).append ?_
  refine Mealy.invariant (P := fun _ _ out => proposer.Flagged out) flagged_nil ?_ js
  intro js input hout
  exact hout.append ((flagged_check _ _).append (flagged_select _ _))

variable (proposer) in
theorem oneFlag_sent (js : List Input) : OneFlag (pauses (proposer.sent js)) := by
  intro x hx y hy hround
  rw [proposer.flagged_sent js x hx, proposer.flagged_sent js y hy, hround]

end

end Proposer

/-! ## The register -/

namespace Worker

/-- The `BatchSilent`s that are delivered, in order. -/
def delivered (is : List Event) : List (UInt64 × Bool) :=
  is.filterMap fun
    | .primaryMessage (.batchSilent round silent) => some (round, silent)
    | _ => none

theorem delivered_append (is js : List Event) :
    delivered (is ++ js) = delivered is ++ delivered js := List.filterMap_append

/-- The key of the register. -/
def pauseRound (x : UInt64 × Bool) : ℕ := x.1.toNat

theorem injOn_pauseRound {l : List (UInt64 × Bool)} (h : OneFlag l) :
    Set.InjOn pauseRound {x | x ∈ l} := by
  intro x hx y hy hround
  have hfst : x.1 = y.1 := UInt64.toNat_inj.mp hround
  exact Prod.ext hfst (h x hx y hy hfst)

section

variable [Crypto] [Base64] (worker : Worker)

omit [Crypto] in
theorem batchSilent_deliver (s : State) (txs : Option Batch) :
    (worker.deliver s txs).1.batchSilent = s.batchSilent := by
  obtain ⟨n, l, heq⟩ := worker.deliver_frame s txs
  rw [heq]

/-- Nothing else touches the register. -/
theorem batchSilent_frame (s : State) {e : Event} (he : delivered [e] = []) :
    (worker.step s e).1.batchSilent = s.batchSilent := by
  cases e with
  | primaryMessage message =>
    cases message with
    | batchSilent round silent => cases he
    | synchronize digests target => rfl
    | cleanup round => rfl
  | transaction message => rfl
  | workerMessage serialized =>
    rw [step, receiveWorkerMessage]
    split <;> rfl
  | makeBatch | batchTimer =>
    rw [step]
    split
    · exact batchSilent_deliver worker _ _
    · rfl
  | awaitQuorum | resolve handler | processOwn | processOthers | help =>
    rw [step]
    split <;> rfl

/-- **A `BatchSilent` is a write of the register.** -/
theorem batchSilent_step (s : State) (e : Event) :
    (worker.step s e).1.batchSilent
      = LastWriter.writeAll pauseRound s.batchSilent (delivered [e]) := by
  by_cases he : delivered [e] = []
  · rw [he, LastWriter.writeAll_nil, batchSilent_frame worker s he]
  · obtain ⟨x, hx⟩ := List.exists_mem_of_ne_nil _ he
    obtain ⟨e', he', hsome⟩ := List.mem_filterMap.mp hx
    obtain rfl := List.mem_singleton.mp he'
    split at hsome
    · next round silent =>
      have hwrite : delivered [.primaryMessage (.batchSilent round silent)] = [(round, silent)] :=
        rfl
      rw [hwrite, LastWriter.writeAll_cons, LastWriter.writeAll_nil, LastWriter.write, step,
        receivePrimaryMessage]
      exact apply_ite State.batchSilent _ _ _
    · cases hsome

/-- **The register after a run.** -/
theorem batchSilent_run (store : Store) (is : List Event) :
    ((worker.machine store).state is).batchSilent
      = LastWriter.writeAll pauseRound (0, false) (delivered is) := by
  induction is using List.reverseRecOn with
  | nil => rfl
  | append_singleton is e ih =>
    rw [Mealy.state_snoc, delivered_append, LastWriter.writeAll_append, ← ih]
    exact batchSilent_step worker _ e

/-- **The pause register converges**, in every run of a worker: it stands at the message of the
highest round delivered, whatever the order and the repetitions, its round never falls, and the
proposer keeps to one flag a round. -/
theorem batchSilent_converges (store : Store) {is : List Event} (h : OneFlag (delivered is)) :
    (delivered is = [] → ((worker.machine store).state is).batchSilent = (0, false)) ∧
    (∀ x ∈ delivered is, (∀ y ∈ delivered is, y.1 ≤ x.1) →
      ((worker.machine store).state is).batchSilent = x) ∧
    (∀ js, (∀ x, x ∈ delivered js ↔ x ∈ delivered is) →
      ((worker.machine store).state js).batchSilent
        = ((worker.machine store).state is).batchSilent) ∧
    (∀ pre, pre <+: is → ((worker.machine store).state pre).batchSilent.1
      ≤ ((worker.machine store).state is).batchSilent.1) ∧
    ∀ (proposer : Proposer) (js : List Proposer.Input),
      OneFlag (Proposer.pauses (proposer.sent js)) := by
  refine ⟨fun hnil => ?_, fun x hx hmax => ?_, fun js hsame => ?_, ?_, Proposer.oneFlag_sent⟩
  · rw [batchSilent_run, hnil, LastWriter.writeAll_nil]
  · rw [batchSilent_run]
    exact LastWriter.writeAll_eq_of_highest (injOn_pauseRound h) hx
      (fun y hy => UInt64.le_iff_toNat_le.mp (hmax y hy)) (Nat.zero_le _)
  · rw [batchSilent_run, batchSilent_run]
    exact LastWriter.writeAll_congr (injOn_pauseRound h) (fun _ _ => Nat.zero_le _) hsame
  · rintro pre ⟨post, rfl⟩
    rw [batchSilent_run, batchSilent_run, delivered_append, LastWriter.writeAll_append]
    have hle := (@LastWriter.key_le_writeAll _ _ _ pauseRound
      (LastWriter.writeAll pauseRound (0, false) (delivered pre)) (delivered post)).1
    exact UInt64.le_iff_toNat_le.mpr hle

/-- **A worker pauses as its proposer says**, for the highest round it was told of. -/
theorem batchSilent_of_proposer (store : Store) {proposer : Proposer} {js : List Proposer.Input}
    {is : List Event} (hsent : delivered is ⊆ Proposer.pauses (proposer.sent js))
    (hne : delivered is ≠ []) :
    ((worker.machine store).state is).batchSilent.2
      = proposer.pausesIn ((worker.machine store).state is).batchSilent.1 := by
  rw [batchSilent_run]
  rcases @LastWriter.writeAll_cases _ _ _ pauseRound (0, false) (delivered is)
    with hmem | ⟨-, hlow⟩
  · exact proposer.flagged_sent js _ (hsent hmem)
  · -- no round is below zero
    obtain ⟨x, hx⟩ := List.exists_mem_of_ne_nil _ hne
    exact absurd (hlow x hx) (Nat.not_lt_zero _)

end

/-! ## Late and repeated messages -/

namespace LateMessages

open Sample

def worker : Worker := ⟨key 1, 0, committee4, 100⟩

/-- Round 2 is silent; the message of round 1 is late, and that of round 2 comes twice. -/
def events : List Event :=
  [.primaryMessage (.batchSilent 2 true), .transaction [7],
    .primaryMessage (.batchSilent 1 false), .primaryMessage (.batchSilent 2 true)]

theorem delivered_events : delivered events = [(2, true), (1, false), (2, true)] := rfl

theorem oneFlag_events : OneFlag (delivered events) := by
  rw [delivered_events, OneFlag]
  simp

theorem batchSilent_events : ((worker.machine ∅).state events).batchSilent = (2, true) := by
  have hhighest : ∀ y ∈ delivered events, y.1 ≤ 2 := by
    rw [delivered_events]
    simp
  have hmem : (2, true) ∈ delivered events := by rw [delivered_events]; exact List.mem_cons_self
  exact (batchSilent_converges worker ∅ oneFlag_events).2.1 _ hmem hhighest

end LateMessages

end Worker

end Bullshark
