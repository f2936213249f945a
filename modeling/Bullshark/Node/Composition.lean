import Bullshark.Primary.Traffic
import Bullshark.Consensus.Commits
import Bullshark.Primary.Sample

/-!
# Node/Composition — the core, the consensus task and the collector between them

Consensus sends what it orders to the `GarbageCollector`, which tells the core how far consensus is.
Each holds a copy of the commit round that lags behind the one before it (`InStep`), so what the
core rejects as too old lies below the horizon of `order_dag`, now and ever after
(`horizons_agree`).
-/

namespace Bullshark

/-- A node: its core, and whether its consensus task runs in dynamic mode. -/
structure Node where
  core : Core
  dynamic : Bool

namespace Node

/-- The consensus task of the node, with the same depth of the garbage collector. -/
def consensus (node : Node) : Consensus := ⟨node.core.committee, node.core.gcDepth, node.dynamic⟩

/-- The states of the two tasks, and the ordered certificates the collector has not received. -/
structure State where
  core : Except Core.Panic Core.State
  consensus : Except Consensus.Panic Bullshark.State
  ordered : List Certificate

inductive Event
  /-- The core, or a task it shares the store with, receives something. -/
  | core (event : Core.Event)
  /-- Consensus receives a certificate. -/
  | certificate (certificate : Certificate)
  /-- The `GarbageCollector` receives the next ordered certificate. -/
  | collect

section

variable [Crypto]

/-- The three tasks, in any interleaving; only the collector tells the core what is committed. -/
def machine (node : Node) : Mealy State Event Certificate where
  init := ⟨.ok .new, .ok (.new (Certificate.genesis node.core.committee)), []⟩
  step
    | state, .core (.committed _) => (state, [])
    | state, .core event => ({ state with core := (node.core.machine.step state.core event).1 }, [])
    | state, .certificate certificate =>
      let turn := node.consensus.machine.step state.consensus certificate
      let output := Consensus.txOutput turn.2
      ({ state with consensus := turn.1, ordered := state.ordered ++ output }, output)
    | state, .collect =>
      match state.ordered with
      | [] => (state, [])
      | certificate :: ordered =>
        ({ state with
          core := (node.core.machine.step state.core (.committed certificate)).1, ordered }, [])

variable {node : Node}

/-! ## The core follows consensus -/

/-- A step of the core keeps its horizon at or below the one its consensus round stands for, and
changes that round only on a commit. -/
theorem core_step {s s' : Core.State} {e : Core.Event} (h : (node.core.step s e).1 = .ok s')
    (hs : s.Horizon node.core.gcDepth) :
    s'.Horizon node.core.gcDepth ∧ (s'.consensusRound = s.consensusRound ∨
      ∃ c, e = .committed c ∧ s'.consensusRound = max s.consensusRound c.round) := by
  obtain ⟨s₁, hturn, hnext⟩ := @Core.turn_step _ node.core s e []
  generalize (node.core.step s e).2 = w at hturn
  have hs₁ : s₁.Horizon node.core.gcDepth ∧ (s₁.consensusRound = s.consensusRound ∨
      ∃ c, e = .committed c ∧ s₁.consensusRound = max s.consensusRound c.round) := by
    cases hturn with
    | effects _ ht =>
      have hsame := Core.sameRounds_of_trace ht
      rw [Core.State.Horizon, hsame.gcRound, hsame.consensusRound]
      exact ⟨hs, Or.inl rfl⟩
    | propose ht =>
      have hsame := Core.sameRounds_of_trace ht
      rw [Core.State.Horizon, hsame.gcRound, hsame.consensusRound]
      exact ⟨hs, Or.inl rfl⟩
    | batch _ _ => exact ⟨hs, Or.inl rfl⟩
    | committed c =>
      exact ⟨hs.trans (Nat.sub_le_sub_right (le_max_left _ _) _), Or.inr ⟨c, rfl, rfl⟩⟩
  rcases hnext s' h with rfl | rfl
  · exact hs₁
  · rw [(Core.State.cleanUp_eq s₁ _).2.2.2]
    exact ⟨hs₁.1.cleanUp.1, hs₁.2⟩

/-- The copies of the commit round: the core's, those on their way, and that of consensus. -/
structure InStep (node : Node) (round : ℕ) (state : State) : Prop where
  core : ∀ s, state.core = .ok s → s.Horizon node.core.gcDepth ∧ s.consensusRound ≤ round
  ordered : ∀ c ∈ state.ordered, c.round ≤ round
  consensus : ∀ st, state.consensus = .ok st →
    Consensus.Keyed st.dag ∧ st.RoundIsMax ∧ st.lastCommittedRound = round

/-- A step of the core, on anything but a commit. -/
theorem InStep.core_event {round : ℕ} {state : State} (h : node.InStep round state)
    {e : Core.Event} (he : ∀ c, e ≠ .committed c) :
    node.InStep round { state with core := (node.core.machine.step state.core e).1 } where
  core s' hs' := by
    cases hcore : state.core with
    | error p =>
      rw [hcore] at hs'
      cases hs'
    | ok s =>
      rw [hcore] at hs'
      obtain ⟨hhorizon, hround⟩ := h.core s hcore
      obtain ⟨hhorizon', hsame | ⟨c, hc, -⟩⟩ := core_step hs' hhorizon
      · exact ⟨hhorizon', hsame.le.trans hround⟩
      · exact absurd hc (he c)
  ordered := h.ordered
  consensus := h.consensus

/-- The collector receives an ordered certificate. -/
theorem InStep.collect {round : ℕ} {state : State} (h : node.InStep round state) {c : Certificate}
    {ordered : List Certificate} (hordered : state.ordered = c :: ordered) :
    node.InStep round
      { state with core := (node.core.machine.step state.core (.committed c)).1, ordered } where
  core s' hs' := by
    have hc : c.round ≤ round := h.ordered c (hordered ▸ List.mem_cons_self)
    cases hcore : state.core with
    | error p =>
      rw [hcore] at hs'
      cases hs'
    | ok s =>
      rw [hcore] at hs'
      obtain ⟨hhorizon, hround⟩ := h.core s hcore
      obtain ⟨hhorizon', hsame | ⟨c', hc', hmax⟩⟩ := core_step hs' hhorizon
      · exact ⟨hhorizon', hsame.le.trans hround⟩
      · cases hc'
        exact ⟨hhorizon', hmax.le.trans (max_le hround hc)⟩
  ordered x hx := h.ordered x (hordered ▸ List.mem_cons_of_mem c hx)
  consensus := h.consensus

/-- Consensus receives a certificate: its last committed round rises, and what it sends is at or
above the horizon. -/
theorem InStep.certificate {round : ℕ} {state : State} (h : node.InStep round state)
    (c : Certificate) : ∃ round', round ≤ round' ∧
      node.InStep round' (node.machine.step state (.certificate c)).1 ∧
      ∀ y ∈ (node.machine.step state (.certificate c)).2, round ≤ y.round + node.core.gcDepth := by
  cases hcons : state.consensus with
  | error p =>
    have hstep : node.machine.step state (.certificate c) = (state, []) := by
      obtain ⟨core, consensus, ordered⟩ := state
      cases hcons
      simp [machine, Consensus.machine, Consensus.txOutput]
    rw [hstep]
    exact ⟨round, le_rfl, h, fun y hy => by cases hy⟩
  | ok st =>
    obtain ⟨hkeyed, hmax, hround⟩ := h.consensus st hcons
    cases hp : node.consensus.process st c with
    | error p =>
      have hstep : node.machine.step state (.certificate c)
          = ({ state with consensus := .error p }, []) := by
        simp [machine, hcons, Consensus.machine, hp, Consensus.txOutput]
      rw [hstep]
      exact ⟨round, le_rfl, ⟨h.core, h.ordered, fun st hst => by cases hst⟩, fun y hy => by cases hy⟩
    | ok result =>
      have hstep : node.machine.step state (.certificate c) =
          ({ state with
            consensus := .ok result.1, ordered := state.ordered ++ Consensus.txOutput result.2 },
            Consensus.txOutput result.2) := by
        simp only [machine, hcons, Consensus.step_of_process hp]
      have hcommits := Consensus.commits_process hkeyed hp
      have hadv := hcommits.advances hmax
      have hle : round ≤ result.1.lastCommittedRound := hround ▸ hadv.round_le
      rw [hstep]
      refine ⟨result.1.lastCommittedRound, hle, ⟨fun s hs => ?_, fun y hy => ?_, fun st' hst' => ?_⟩,
        fun y hy => hround ▸ (hadv.sent y hy).1⟩
      · exact ⟨(h.core s hs).1, (h.core s hs).2.trans hle⟩
      · rcases List.mem_append.mp hy with hy | hy
        · exact (h.ordered y hy).trans hle
        · exact (hadv.sent y hy).2
      · cases hst'
        exact ⟨hcommits.keyed (hkeyed.insert c), hadv.max, rfl⟩

/-- **One step of the node**: the commit round of consensus rises, the others stay behind it, and
nothing below the horizon is sent. -/
theorem InStep.step {round : ℕ} {state : State} (h : node.InStep round state) (e : Event) :
    ∃ round', round ≤ round' ∧ node.InStep round' (node.machine.step state e).1 ∧
      ∀ y ∈ (node.machine.step state e).2, round ≤ y.round + node.core.gcDepth := by
  cases e with
  | core event =>
    refine ⟨round, le_rfl, ?_, fun y hy => ?_⟩
    · cases event with
      | committed c => exact h
      | _ => exact h.core_event (by simp)
    · cases event <;> cases hy
  | certificate c => exact h.certificate c
  | collect =>
    cases hordered : state.ordered with
    | nil =>
      have hstep : node.machine.step state .collect = (state, []) := by simp [machine, hordered]
      rw [hstep]
      exact ⟨round, le_rfl, h, fun y hy => by cases hy⟩
    | cons c ordered =>
      have hstep : node.machine.step state .collect = ({ state with
          core := (node.core.machine.step state.core (.committed c)).1, ordered }, []) := by
        simp [machine, hordered]
      rw [hstep]
      exact ⟨round, le_rfl, h.collect hordered, fun y hy => by cases hy⟩

/-! ## Whole runs -/

theorem inStep_new : node.InStep 0 node.machine.init where
  core s hs := by
    cases hs
    exact ⟨Nat.zero_le _, le_rfl⟩
  ordered c hc := by cases hc
  consensus st hst := by
    cases hst
    refine ⟨Consensus.keyed_new _, ⟨fun n r hr => ?_, Or.inl rfl⟩, rfl⟩
    rw [Consensus.lookup_new hr]
    exact Nat.zero_le _

theorem inStep_run (es : List Event) : ∃ round, node.InStep round (node.machine.state es) := by
  induction es using List.reverseRecOn with
  | nil => exact ⟨0, inStep_new⟩
  | append_singleton es e ih =>
    obtain ⟨round, h⟩ := ih
    obtain ⟨round', -, h', -⟩ := h.step e
    exact ⟨round', Mealy.state_snoc node.machine es e ▸ h'⟩

/-- What happens after a state in step: the rounds only rise, and nothing below its horizon is
sent. -/
theorem InStep.extend {es : List Event} {round : ℕ} (h : node.InStep round (node.machine.state es))
    (fs : List Event) : ∃ round' sent, round ≤ round' ∧
      node.InStep round' (node.machine.state (es ++ fs)) ∧
      node.machine.outputs (es ++ fs) = node.machine.outputs es ++ sent ∧
      ∀ y ∈ sent, round ≤ y.round + node.core.gcDepth := by
  induction fs using List.reverseRecOn with
  | nil =>
    rw [List.append_nil]
    exact ⟨round, [], le_rfl, h, (List.append_nil _).symm, fun y hy => by cases hy⟩
  | append_singleton fs f ih =>
    obtain ⟨round', sent, hle, h', hout, hsent⟩ := ih
    obtain ⟨round'', hle', h'', hnew⟩ := h'.step f
    rw [← List.append_assoc, Mealy.state_snoc, Mealy.outputs_snoc, hout]
    refine ⟨round'', _, hle.trans hle', h'', List.append_assoc _ _ _, fun y hy => ?_⟩
    rcases List.mem_append.mp hy with hy | hy
    · exact hsent y hy
    · exact hle.trans (hnew y hy)

/-- **Admission and commit garbage collection agree**: a certificate that the core rejects as too
old is below the horizon of consensus already, and whatever happens next, no `order_dag` outputs
it. -/
theorem horizons_agree (node : Node) (es : List Event) (s : Core.State) (c : Certificate)
    (hs : (node.machine.state es).core = .ok s)
    (hold : node.core.sanitizeCertificate s c = .error (.tooOld c.digest c.round)) :
    (∀ st, (node.machine.state es).consensus = .ok st →
      c.round + node.core.gcDepth < st.lastCommittedRound) ∧
    ∀ fs, (∃ sent, node.machine.outputs (es ++ fs) = node.machine.outputs es ++ sent ∧ c ∉ sent) ∧
      ∀ st, (node.machine.state (es ++ fs)).consensus = .ok st →
        ∀ leader, c ∉ node.consensus.orderDag leader st := by
  obtain ⟨round, h⟩ := @inStep_run _ node es
  obtain ⟨hhorizon, hround⟩ := h.core s hs
  have hlt : c.round + node.core.gcDepth < round := by
    have hgc := Core.sanitizeCertificate_eq_tooOld_iff.mp hold
    rw [Core.State.Horizon] at hhorizon
    omega
  refine ⟨fun st hst => (h.consensus st hst).2.2.symm ▸ hlt, fun fs => ?_⟩
  obtain ⟨round', sent, hle, h', hout, hsent⟩ := h.extend fs
  refine ⟨⟨sent, hout, fun hc => ?_⟩, fun st hst leader hc => ?_⟩
  · have := hsent c hc
    omega
  · rw [Consensus.orderDag, List.mem_insertionSort, List.mem_filter] at hc
    have hkeep : st.lastCommittedRound ≤ c.round + node.core.gcDepth :=
      (of_decide_eq_true hc.2).trans (Round.add_le _ _)
    have := (h'.consensus st hst).2.2
    omega

end

/-! ## A certificate too old for both -/

namespace Lagging

open Sample

def committee : Committee := committee3 1 1 7

/-- The node of the first authority, with a horizon at the commit round. -/
def node : Node := ⟨⟨key 1, committee, 0, fun digest => sign digest (key 1)⟩, false⟩

def h1 : Certificate := certificate committee (key 3) 1 (Certificate.genesis committee)
def h2 : Certificate := certificate committee (key 3) 2 [h1]
def h3 : Certificate := certificate committee (key 3) 3 [h2]

/-- Consensus orders `h1` and `h2`, and the core learns of both. -/
def events : List Event :=
  [h1, h2, h3].map .certificate ++ [.collect, .collect, .core (.certificate h2)]

/-- The horizon of a core that is alive. -/
def horizon : Except Core.Panic Core.State → Option ℕ
  | .ok s => some s.gcRound
  | .error _ => none

set_option maxRecDepth 100000 in
theorem horizon_events : horizon (node.machine.state events).core = some 2 := by
  decide +kernel

theorem horizons_agree_h1 : ∃ s, (node.machine.state events).core = .ok s ∧
    node.core.sanitizeCertificate s h1 = .error (.tooOld h1.digest h1.round) ∧
    (∀ st, (node.machine.state events).consensus = .ok st →
      h1.round + node.core.gcDepth < st.lastCommittedRound) ∧
    ∀ fs, (∃ sent, node.machine.outputs (events ++ fs) = node.machine.outputs events ++ sent ∧
        h1 ∉ sent) ∧
      ∀ st, (node.machine.state (events ++ fs)).consensus = .ok st →
        ∀ leader, h1 ∉ node.consensus.orderDag leader st := by
  have hhorizon := horizon_events
  cases hs : (node.machine.state events).core with
  | error p =>
    rw [hs] at hhorizon
    cases hhorizon
  | ok s =>
    rw [hs] at hhorizon
    have hold : node.core.sanitizeCertificate s h1 = .error (.tooOld h1.digest h1.round) := by
      rw [Core.sanitizeCertificate_eq_tooOld_iff, Option.some.inj hhorizon]
      decide
    exact ⟨s, rfl, hold, horizons_agree node events s h1 hs hold⟩

end Lagging

end Node

end Bullshark
