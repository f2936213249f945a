import Bullshark.Primary.Effects

/-!
# Primary/Turns — one turn of the main loop, and whole runs

A turn hands one header, vote or certificate to a handler, after the checks its path makes
(`HandsHeader`, `HandsVote`, `HandsCertificate`); the rest is a sequence of effects.  `Invariant`
is the induction over runs: what the turns and the clean-up keep holds after every run, also in the
state a panic leaves behind.
-/

namespace Bullshark

namespace Core

open Handler

variable [Crypto] (core : Core)

/-- The event hands this header to `process_header`, alone or in a certificate. -/
def HandsHeader (state : State) (event : Event) (h : Header) : Prop :=
  match event with
  | .header header => h = header ∧ core.sanitizeHeader state header = .ok ()
  | .certificate certificate =>
    h = certificate.header ∧ core.sanitizeCertificate state certificate = .ok ()
  | .headerLoopback header => h = header
  | .certificateLoopback certificate => h = certificate.header
  | .ownHeader header => h = header
  | _ => False

/-- The event hands this certificate to `process_certificate`. -/
def HandsCertificate (state : State) (event : Event) (c : Certificate) : Prop :=
  match event with
  | .certificate certificate =>
    c = certificate ∧ core.sanitizeCertificate state certificate = .ok ()
  | .certificateLoopback certificate => c = certificate
  | _ => False

/-- The event hands this vote to `process_vote`. -/
def HandsVote (state : State) (event : Event) (v : Vote) : Prop :=
  match event with
  | .vote vote => v = vote ∧ core.sanitizeVote state vote = .ok ()
  | _ => False

/-- `process_own_header` up to the processing of the header. -/
def proposed (state : State) (header : Header) : State :=
  { state with currentHeader := header, votesAggregator := .new }

omit [Crypto] in
/-- The state the handlers of a turn start from. -/
def started (state : State) : Event → State
  | .ownHeader header => proposed state header
  | _ => state

/-- What the event gives to the handlers. -/
def given (state : State) (event : Event) : Given where
  store := state.store
  header := core.HandsHeader state event
  admitted := core.Admits (started state event)
  certificate := core.HandsCertificate state event
  cleared := core.Clears state
  vote := core.HandsVote state event

/-- The effects of a turn. -/
abbrev TurnEffect (state : State) (event : Event) := Effect core (core.given state event)

/-- What an event does before the clean-up: `Turn core state log event w state'`. -/
inductive Turn (state : State) (log : List Emission) : Event → List Emission → State → Prop
  | effects {event : Event} {w : List Emission} {state' : State}
      (hown : ∀ header, event ≠ .ownHeader header)
      (h : Trace (core.TurnEffect state event) state log w state') : Turn state log event w state'
  | propose {header : Header} {w : List Emission} {state' : State}
      (h : Trace (core.TurnEffect state (.ownHeader header)) (proposed state header)
        (log ++ [.broadcastHeader core.othersAddresses header]) w state') :
      Turn state log (.ownHeader header) (.broadcastHeader core.othersAddresses header :: w) state'
  | batch (digest : Digest) (workerId : WorkerId) :
      Turn state log (.batch digest workerId) [] (state.write (.batch digest workerId) .empty)
  | committed (certificate : Certificate) : Turn state log (.committed certificate) []
      { state with consensusRound := max state.consensusRound certificate.round }

variable {core} {state : State} {event : Event} {log : List Emission}

omit [Crypto] in
@[simp] theorem started_gcRound (state : State) (event : Event) :
    (started state event).gcRound = state.gcRound := by
  cases event <;> rfl

omit [Crypto] in
theorem started_of_ne (hown : ∀ header, event ≠ .ownHeader header) :
    started state event = state := by
  cases event with
  | ownHeader h => exact absurd rfl (hown h)
  | _ => rfl

omit [Crypto] in
/-- A handler behind a check: nothing happens where the check fails. -/
theorem traces_check {E : State → List Emission → List Emission → State → Prop} {α : Type}
    {f : State → Except DagError Unit} {x : CoreM α}
    (hx : f state = .ok () → Traces E x state log) :
    Traces E (do check (f (← get)); x) state log := by
  refine .of_run (run_bind_silent run_get) ?_
  cases hf : f state with
  | error e =>
    rw [run_bind_error (run_check_error e)]
    exact .nil
  | ok _ =>
    rw [run_bind_silent (run_check_ok _)]
    exact hx hf

/-- **A turn of the main loop is a sequence of effects.** -/
theorem turn_handle (hbatch : ∀ d w, event ≠ .batch d w) (hcommitted : ∀ c, event ≠ .committed c) :
    core.Turn state log event ((core.handle event).run state).emitted
      ((core.handle event).run state).state := by
  cases event with
  | header h =>
    exact .effects (by simp) (traces_check fun hs =>
      traces_processHeader ⟨Or.inl ⟨⟨rfl, hs⟩, id⟩, .refl _⟩)
  | vote v =>
    exact .effects (by simp) (traces_check fun hs => traces_processVote (Or.inl ⟨rfl, hs⟩) (.refl _))
  | certificate c =>
    exact .effects (by simp) (traces_check fun hs =>
      traces_processCertificate ⟨rfl, hs⟩ id ⟨Or.inl ⟨⟨rfl, hs⟩, id⟩, .refl _⟩)
  | headerLoopback h =>
    exact .effects (by simp) (traces_processHeader ⟨Or.inl ⟨rfl, id⟩, .refl _⟩)
  | certificateLoopback c =>
    exact .effects (by simp) (traces_processCertificate rfl id ⟨Or.inl ⟨rfl, id⟩, .refl _⟩)
  | ownHeader h =>
    rw [handle, processOwnHeader, run_bind_silent (run_modify _), run_bind_ok (run_emit _)]
    exact .propose (traces_processHeader ⟨Or.inl ⟨rfl, id⟩, .refl _⟩)
  | batch d w => exact absurd rfl (hbatch d w)
  | committed c => exact absurd rfl (hcommitted c)

omit [Crypto] in
theorem conclude_snd (o : Outcome State Emission Fault Unit) : (core.conclude o).2 = o.emitted := by
  rw [conclude]
  split <;> rfl

omit [Crypto] in
theorem conclude_fst {o : Outcome State Emission Fault Unit} {s : State}
    (h : (core.conclude o).1 = .ok s) : s = o.state.cleanUp core.gcDepth := by
  rw [conclude] at h
  split at h <;> cases h
  rfl

/-- **One step of the machine**: a turn, then the clean-up or the end. -/
theorem turn_step : ∃ state', core.Turn state log event (core.step state event).2 state' ∧
    ∀ s, (core.step state event).1 = .ok s → s = state' ∨ s = state'.cleanUp core.gcDepth := by
  have hturn : core.step state event = core.conclude ((core.handle event).run state) →
      (∀ d w, event ≠ .batch d w) → (∀ c, event ≠ .committed c) →
      ∃ state', core.Turn state log event (core.step state event).2 state' ∧
        ∀ s, (core.step state event).1 = .ok s → s = state' ∨ s = state'.cleanUp core.gcDepth := by
    intro hstep hb hc
    rw [hstep, conclude_snd]
    exact ⟨_, turn_handle hb hc, fun s hs => Or.inr (conclude_fst hs)⟩
  cases event with
  | batch d w => exact ⟨_, .batch d w, fun s hs => Or.inl (by cases hs; rfl)⟩
  | committed c => exact ⟨_, .committed c, fun s hs => Or.inl (by cases hs; rfl)⟩
  | header h => exact hturn rfl (by simp) (by simp)
  | vote v => exact hturn rfl (by simp) (by simp)
  | certificate c => exact hturn rfl (by simp) (by simp)
  | headerLoopback h => exact hturn rfl (by simp) (by simp)
  | certificateLoopback c => exact hturn rfl (by simp) (by simp)
  | ownHeader h => exact hturn rfl (by simp) (by simp)

/-- What a step emits, an effect emits, a header of our own that is broadcast apart. -/
theorem exists_effect_of_mem {m : Emission} (hm : m ∈ (core.step state event).2)
    (hne : ∀ a h, m ≠ .broadcastHeader a h) : ∃ s₁ log w s₂, SameRounds (started state event) s₁ ∧
      core.TurnEffect state event s₁ log w s₂ ∧ m ∈ w := by
  have htrace : ∀ {log w s₂}, Trace (core.TurnEffect state event) (started state event) log w s₂ →
      m ∈ w → ∃ s₁ log w s₂, SameRounds (started state event) s₁ ∧
        core.TurnEffect state event s₁ log w s₂ ∧ m ∈ w := fun ht hm =>
    ht.exists_of_mem (P := fun s _ => SameRounds (started state event) s)
      (fun _ _ _ _ hs hE => hs.trans hE.sameRounds) (.refl _) hm
  obtain ⟨state', hturn, -⟩ := @turn_step _ core state event []
  generalize (core.step state event).2 = w at hturn hm
  cases hturn with
  | effects hown ht =>
    rw [started_of_ne hown] at htrace ⊢
    exact htrace ht hm
  | propose ht =>
    rcases List.mem_cons.mp hm with rfl | hm
    · exact absurd rfl (hne _ _)
    · exact htrace ht hm
  | batch _ _ => cases hm
  | committed _ => cases hm

/-! ## Runs -/

/-- A state and a log within the turn that `e` starts in `s₀`, after the events `is`. -/
structure Within (core : Core) (is : List Event) (s₀ : State) (e : Event) (s : State)
    (log : List Emission) : Prop where
  same : SameRounds (started s₀ e) s
  log : core.machine.outputs is <+: log

/-- `P` holds before any event and is kept by whatever the steps that meet `Ok` do. -/
structure Invariant (core : Core) (Ok : List Event → Event → Prop)
    (P : List Event → State → List Emission → Prop) : Prop where
  init : P [] .new []
  /-- An event may pass unseen, once the task is dead. -/
  mono : ∀ {is e s}, Ok is e → P is s (core.machine.outputs is) →
    P (is ++ [e]) s (core.machine.outputs is)
  cleanUp : ∀ {is s out}, P is s out → P is (s.cleanUp core.gcDepth) out
  batch : ∀ {is s out} (d : Digest) (w : WorkerId), P is s out →
    P is (s.write (.batch d w) .empty) out
  committed : ∀ {is s out} (c : Certificate), P is s out →
    P is { s with consensusRound := max s.consensusRound c.round } out
  propose : ∀ {is s h}, core.machine.state is = .ok s → Ok is (.ownHeader h) →
    P is s (core.machine.outputs is) → P (is ++ [.ownHeader h]) (proposed s h)
      (core.machine.outputs is ++ [.broadcastHeader core.othersAddresses h])
  effect : ∀ {is e s₀ s log w s'}, core.machine.state is = .ok s₀ → Ok is e →
    P is s₀ (core.machine.outputs is) → core.Within is s₀ e s log → P (is ++ [e]) s log →
      core.TurnEffect s₀ e s log w s' → P (is ++ [e]) s' (log ++ w)

section Invariant

variable {Ok : List Event → Event → Prop} {P : List Event → State → List Emission → Prop}
  {is : List Event} {s : State}

/-- A turn keeps what every effect keeps. -/
theorem Invariant.turn (hP : core.Invariant Ok P) {e : Event} {w : List Emission} {s' : State}
    (hs : core.machine.state is = .ok s) (hok : Ok is e) (h : P is s (core.machine.outputs is))
    (hturn : core.Turn s (core.machine.outputs is) e w s') :
    P (is ++ [e]) s' (core.machine.outputs is ++ w) := by
  have htrace : ∀ {log w s₂}, Trace (core.TurnEffect s e) (started s e) log w s₂ →
      core.machine.outputs is <+: log → P (is ++ [e]) (started s e) log →
      P (is ++ [e]) s₂ (log ++ w) := by
    intro log w s₂ ht hlog h₁
    refine (ht.invariant (P := fun s' log => P (is ++ [e]) s' log ∧ core.Within is s e s' log)
      (fun s₁ log w s₂ h₁ hE => ⟨?_, ?_, ?_⟩) ⟨h₁, .refl _, hlog⟩).1
    · exact hP.effect hs hok h h₁.2 h₁.1 hE
    · exact h₁.2.same.trans hE.sameRounds
    · exact h₁.2.log.trans (List.prefix_append _ _)
  cases hturn with
  | effects hown ht =>
    have hstart : started s e = s := started_of_ne hown
    rw [hstart] at htrace
    exact htrace ht List.prefix_rfl (hP.mono hok h)
  | propose ht =>
    have := htrace ht (List.prefix_append _ _) (hP.propose hs hok h)
    rwa [List.append_assoc] at this
  | batch d w =>
    rw [List.append_nil]
    exact hP.batch d w (hP.mono hok h)
  | committed c =>
    rw [List.append_nil]
    exact hP.committed c (hP.mono hok h)

/-- **Induction over the runs of the core.** -/
theorem Invariant.run (hP : core.Invariant Ok P)
    (hok : ∀ pre e, pre ++ [e] <+: is → Ok pre e) :
    ∃ s, P is s (core.machine.outputs is) ∧ ∀ s', core.machine.state is = .ok s' → s' = s := by
  induction is using List.reverseRecOn with
  | nil => exact ⟨.new, hP.init, fun s' hs' => by cases hs'; rfl⟩
  | append_singleton is e ih =>
    obtain ⟨s, hs, hstate⟩ := ih fun pre e' hpre => hok pre e' (hpre.trans (List.prefix_append _ _))
    have hlast := hok is e List.prefix_rfl
    rw [Mealy.state_snoc, Mealy.outputs_snoc]
    cases hcur : core.machine.state is with
    | error p =>
      exact ⟨s, by simpa [machine] using hP.mono hlast hs, fun s' hs' => by cases hs'⟩
    | ok s₀ =>
      obtain rfl := hstate s₀ hcur
      obtain ⟨s₁, hturn, hnext⟩ := @turn_step _ core s₀ e (core.machine.outputs is)
      have hs₁ := hP.turn hcur hlast hs hturn
      cases hres : (core.step s₀ e).1 with
      | error p => exact ⟨s₁, hs₁, fun s' hs' => by simp [machine, hres] at hs'⟩
      | ok s₂ =>
        have hP₂ : P (is ++ [e]) s₂ (core.machine.outputs is ++ (core.step s₀ e).2) := by
          rcases hnext s₂ hres with rfl | rfl
          · exact hs₁
          · exact hP.cleanUp hs₁
        exact ⟨s₂, hP₂, fun s' hs' => by simpa [machine, hres, eq_comm] using hs'⟩

/-- The same, for a run that is still alive. -/
theorem Invariant.alive (hP : core.Invariant Ok P)
    (hok : ∀ pre e, pre ++ [e] <+: is → Ok pre e)
    (hs : core.machine.state is = .ok s) : P is s (core.machine.outputs is) := by
  obtain ⟨s', hs', heq⟩ := hP.run hok
  rwa [heq s hs]

end Invariant

end Core

end Bullshark
