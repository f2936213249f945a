import Bullshark.Primary.Traffic
import Bullshark.Primary.Sample

/-!
# Primary/CertificateWaiter — certificates suspended while the horizon moves

The core sends the `CertificateWaiter` every certificate whose ancestors it does not have, and gets
it back once all its parents are in the store (`certificate_waiter.rs`).  What waits is never
collected, while commits move the horizon: a certificate of the very round of the horizon is still
acceptable, and its parents are too old by one round (`parent_rejected`).  The clean-up of the
`HeaderWaiter` draws the line on the other side (`r <= gc_round`).  Off that line, no parent of an
acceptable certificate that waits is rejected (`spares_iff_offHorizon`).
-/

namespace Bullshark

/-! ## Where a suspended certificate comes from -/

namespace Core

open Handler

/-- The header the core starts with, or one of its own. -/
def Made (is : List Event) (h : Header) : Prop := h = default ∨ h ∈ ownHeaders is

theorem Made.mono {is : List Event} {e : Event} {h : Header} (hh : Made is h) :
    Made (is ++ [e]) h := hh.imp_right ownHeaders_mono

/-- A suspended certificate was received, or is on a header of our own. -/
structure Sourced (is : List Event) (s : State) (log : List Emission) : Prop where
  current : Made is s.currentHeader
  assembled : ∀ a c, .assembled a c ∈ log → Made is c.header
  suspended : ∀ c, .syncCertificate c ∈ log → .certificate c ∈ is ∨ Made is c.header

/-- A certificate that comes back was suspended. -/
def ComesBack [Crypto] (core : Core) (is : List Event) (e : Event) : Prop :=
  ∀ c, e = .certificateLoopback c → .syncCertificate c ∈ core.machine.outputs is

namespace Sourced

variable {is : List Event} {s s' : State} {log w : List Emission} {e : Event}

theorem mono (h : Sourced is s log) : Sourced (is ++ [e]) s log :=
  ⟨h.current.mono, fun a c hc => (h.assembled a c hc).mono,
    fun c hc => (h.suspended c hc).imp (List.mem_append_left _) Made.mono⟩

variable [Crypto] {core : Core}

/-- The certificates handed to a handler were received, or suspended before. -/
theorem hands {c : Certificate} (h : Sourced is s (core.machine.outputs is))
    (hback : core.ComesBack is e) (hc : core.HandsCertificate s e c) :
    .certificate c ∈ is ++ [e] ∨ Made (is ++ [e]) c.header := by
  cases e with
  | certificate x =>
    obtain ⟨rfl, -⟩ := hc
    exact Or.inl (List.mem_append_right _ List.mem_cons_self)
  | certificateLoopback x =>
    cases hc
    exact h.mono.suspended _ (hback _ rfl)
  | _ => cases hc

theorem invariant (core : Core) : core.Invariant core.ComesBack Sourced where
  init := ⟨Or.inl rfl, fun a c hc => (by cases hc), fun c hc => (by cases hc)⟩
  mono _ h := h.mono
  cleanUp {_ s _} h :=
    ⟨by rw [(State.cleanUp_eq s _).2.1]; exact h.current, h.assembled, h.suspended⟩
  batch _ _ h := ⟨h.current, h.assembled, h.suspended⟩
  committed _ h := ⟨h.current, h.assembled, h.suspended⟩
  propose _ _ h := ⟨Or.inr (ownHeader_mem_ownHeaders _ _),
    fun a c hc => h.mono.assembled a c (by simpa using hc),
    fun c hc => h.mono.suspended c (by simpa using hc)⟩
  effect _ hback h₀ _ h hE := by
    refine ⟨hE.sameRounds.currentHeader ▸ h.current, fun a c hc => ?_, fun c hc => ?_⟩
    · rcases List.mem_append.mp hc with hc | hc
      · exact h.assembled a c hc
      · exact hE.header_of_assembled hc ▸ h.current
    · rcases List.mem_append.mp hc with hc | hc
      · exact h.suspended c hc
      · exact (hE.source_of_syncCertificate hc).elim (h₀.hands hback) fun hc =>
          Or.inr (h.assembled _ c hc)

end Sourced

end Core

/-! ## The core and the waiter -/

namespace CertificateWaiter

/-- The core and the waiter, with the channels between them. -/
structure State where
  core : Except Core.Panic Core.State
  /-- The waiter pool, and what is on its way to it. -/
  waiting : List Certificate
  /-- What the waiter looped back and the core did not receive yet. -/
  resumed : List Certificate

inductive Event
  /-- The core, or a task it shares the store or the consensus round with, receives something. -/
  | core (event : Core.Event)
  /-- All parents of a certificate are in the store. -/
  | resume (certificate : Certificate)
  /-- The core receives the next certificate looped back. -/
  | loopback

/-- The certificates sent to the waiter. -/
def suspended (log : List Core.Emission) : List Certificate :=
  log.filterMap fun
    | .syncCertificate certificate => some certificate
    | _ => none

/-- `CertificateWaiter::waiter` returns: every parent can be read from the store. -/
def returns (store : Store) (certificate : Certificate) : Bool :=
  certificate.header.parents.elems.all fun x => (store.lookup (.digest x)).isSome

/-- The certificate the core receives from the network. -/
def Event.arrival : Event → Option Certificate
  | .core (.certificate certificate) => some certificate
  | _ => none

/-- The certificates the core received from the network. -/
def arrived (ks : List Event) : List Certificate := ks.filterMap Event.arrival

/-- The header the core receives from the `Proposer`. -/
def Event.proposal : Event → Option Header
  | .core (.ownHeader header) => some header
  | _ => none

/-- The headers the `Proposer` made. -/
def proposed (ks : List Event) : List Header := ks.filterMap Event.proposal

variable [Crypto]

omit [Crypto] in
/-- The waiter sends a certificate to the core. -/
def resume (state : State) (certificate : Certificate) : State :=
  match state.core with
  | .error _ => state
  | .ok s =>
    if certificate ∈ state.waiting ∧ returns s.store certificate then
      { state with
        waiting := state.waiting.erase certificate
        resumed := state.resumed ++ [certificate] }
    else state

/-- A turn of the core: what it suspends goes to the waiter. -/
def turn (core : Core) (state : State) (event : Core.Event) : State × List Core.Emission :=
  let (next, sent) := core.machine.step state.core event
  ({ state with core := next, waiting := state.waiting ++ suspended sent }, sent)

/-- The two tasks, in any interleaving with the tasks around them; only the waiter loops
certificates back. -/
def machine (core : Core) : Mealy State Event Core.Emission where
  init := ⟨.ok .new, [], []⟩
  step
    | state, .core (.certificateLoopback _) => (state, [])
    | state, .core event => turn core state event
    | state, .resume certificate => (resume state certificate, [])
    | state, .loopback =>
      match state.resumed with
      | [] => (state, [])
      | certificate :: resumed =>
        turn core { state with resumed } (.certificateLoopback certificate)

/-- What is certified, and what we propose ourselves, is built on the round before. -/
def Layered (ks : List Event) : Prop :=
  ∀ h ∈ (arrived ks).map Certificate.header ++ proposed ks, ∀ p ∈ arrived ks,
    p.digest ∈ h.parents.elems → h.round = 0 ∨ p.round + 1 = h.round

instance (ks : List Event) : Decidable (Layered ks) := inferInstanceAs (Decidable (∀ h ∈ _, _))

/-- The core does not reject as too old a parent of an acceptable certificate that waits. -/
def Spares (core : Core) (state : State) (k : Event) : Prop :=
  ∀ s ∈ state.core.toOption, ∀ p ∈ k.arrival, ∀ c ∈ state.waiting, s.gcRound ≤ c.round →
    p.digest ∈ c.header.parents.elems →
      core.sanitizeCertificate s p ≠ .error (.tooOld p.digest p.round)

/-- No certificate that waits for the one received is of the very round of the horizon. -/
def OffHorizon (state : State) (k : Event) : Prop :=
  ∀ s ∈ state.core.toOption, s.gcRound ≠ 0 → ∀ p ∈ k.arrival, ∀ c ∈ state.waiting,
    p.digest ∈ c.header.parents.elems → c.round ≠ s.gcRound

instance (core : Core) (state : State) (k : Event) : Decidable (Spares core state k) :=
  inferInstanceAs (Decidable (∀ s ∈ state.core.toOption, _))

instance (state : State) (k : Event) : Decidable (OffHorizon state k) :=
  inferInstanceAs (Decidable (∀ s ∈ state.core.toOption, _))

omit [Crypto] in
theorem mem_suspended {log : List Core.Emission} {c : Certificate} :
    c ∈ suspended log ↔ .syncCertificate c ∈ log :=
  List.mem_filterMap_iff_mem fun e _ => by cases e <;> simp

/-! ## A run of the core -/

/-- The core's part of a run of the two. -/
structure CoreRun (core : Core) (ks : List Event) (is : List Core.Event) : Prop where
  state : ((machine core).state ks).core = core.machine.state is
  outputs : (machine core).outputs ks = core.machine.outputs is
  comesBack : ∀ pre e, pre ++ [e] <+: is → core.ComesBack pre e
  waiting : ∀ c ∈ ((machine core).state ks).waiting, .syncCertificate c ∈ core.machine.outputs is
  resumed : ∀ c ∈ ((machine core).state ks).resumed, .syncCertificate c ∈ core.machine.outputs is
  events : ∀ e ∈ is, .core e ∈ ks ∨ ∃ c, e = .certificateLoopback c

variable {core : Core} {ks : List Event} {is : List Core.Event}

/-- A turn of the core. -/
theorem CoreRun.turn (h : CoreRun core ks is) {k : Event} {e : Core.Event}
    {resumed : List Certificate} (hresumed : resumed ⊆ ((machine core).state ks).resumed)
    (hstep : (machine core).step ((machine core).state ks) k
      = CertificateWaiter.turn core { (machine core).state ks with resumed } e)
    (hback : core.ComesBack is e) (hevent : .core e = k ∨ ∃ c, e = .certificateLoopback c) :
    CoreRun core (ks ++ [k]) (is ++ [e]) := by
  have hout : core.machine.outputs (is ++ [e])
      = core.machine.outputs is ++ (core.machine.step ((machine core).state ks).core e).2 := by
    rw [Mealy.outputs_snoc, h.state]
  constructor
  · rw [Mealy.state_snoc, Mealy.state_snoc, hstep, ← h.state]
    rfl
  · rw [Mealy.outputs_snoc, hout, hstep, h.outputs]
    rfl
  · intro pre e' hpre
    rcases List.prefix_concat_iff.mp hpre with heq | hpre
    · obtain ⟨rfl, rfl⟩ : pre = is ∧ e' = e := by simpa using heq
      exact hback
    · exact h.comesBack pre e' hpre
  · rw [Mealy.state_snoc, hstep, hout]
    refine List.forall_mem_append.mpr ⟨fun c hc => List.mem_append_left _ (h.waiting c hc), ?_⟩
    exact fun c hc => List.mem_append_right _ (mem_suspended.mp hc)
  · rw [Mealy.state_snoc, hstep, hout]
    exact fun c hc => List.mem_append_left _ (h.resumed c (hresumed hc))
  · refine List.forall_mem_append.mpr
      ⟨fun e' he' => (h.events e' he').imp_left (List.mem_append_left _), fun e' he' => ?_⟩
    rw [List.mem_singleton.mp he']
    exact hevent.imp_left fun heq => List.mem_append_right _ (List.mem_singleton.mpr heq)

/-- A step of the waiter alone. -/
theorem CoreRun.idle (h : CoreRun core ks is) {k : Event} {state : State}
    (hcore : state.core = ((machine core).state ks).core)
    (hwaiting : state.waiting ⊆ ((machine core).state ks).waiting)
    (hresumed : state.resumed
      ⊆ ((machine core).state ks).waiting ++ ((machine core).state ks).resumed)
    (hstep : (machine core).step ((machine core).state ks) k = (state, [])) :
    CoreRun core (ks ++ [k]) is := by
  constructor
  · rw [Mealy.state_snoc, hstep, hcore, h.state]
  · rw [Mealy.outputs_snoc, hstep, List.append_nil, h.outputs]
  · exact h.comesBack
  · rw [Mealy.state_snoc, hstep]
    exact fun c hc => h.waiting c (hwaiting hc)
  · rw [Mealy.state_snoc, hstep]
    exact fun c hc => (List.mem_append.mp (hresumed hc)).elim (h.waiting c) (h.resumed c)
  · exact fun e he => (h.events e he).imp_left (List.mem_append_left _)

omit [Crypto] in
/-- What the waiter sends back was waiting. -/
theorem resume_subset (state : State) (c : Certificate) :
    (resume state c).core = state.core ∧ (resume state c).waiting ⊆ state.waiting ∧
      (resume state c).resumed ⊆ state.waiting ++ state.resumed := by
  have hsame : state.core = state.core ∧ state.waiting ⊆ state.waiting ∧
      state.resumed ⊆ state.waiting ++ state.resumed :=
    ⟨rfl, List.Subset.refl _, List.subset_append_right _ _⟩
  rw [resume]
  split
  · exact hsame
  · split
    · next hc =>
      refine ⟨rfl, List.erase_subset, List.append_subset.mpr ⟨hsame.2.2, fun x hx => ?_⟩⟩
      rw [List.mem_singleton.mp hx]
      exact List.mem_append_left _ hc.1
    · exact hsame

theorem step_loopback_nil {state : State} (h : state.resumed = []) :
    (machine core).step state .loopback = (state, []) := by
  simp only [machine, h]

theorem step_loopback_cons {state : State} {c : Certificate} {rest : List Certificate}
    (h : state.resumed = c :: rest) : (machine core).step state .loopback
      = turn core { state with resumed := rest } (.certificateLoopback c) := by
  simp only [machine, h]

/-- **The core cannot tell**: its part of any run of the two is a run of its own, in which what
comes back was suspended before. -/
theorem exists_coreRun (core : Core) (ks : List Event) : ∃ is, CoreRun core ks is := by
  induction ks using List.reverseRecOn with
  | nil =>
    refine ⟨[], rfl, rfl, fun pre e hpre => ?_, fun c hc => ?_, fun c hc => ?_, fun e he => ?_⟩
    · simp at hpre
    · cases hc
    · cases hc
    · cases he
  | append_singleton ks k ih =>
    obtain ⟨is, h⟩ := ih
    have hidle : (machine core).step ((machine core).state ks) k = ((machine core).state ks, []) →
        ∃ is, CoreRun core (ks ++ [k]) is := fun hstep =>
      ⟨is, h.idle rfl (List.Subset.refl _) (List.subset_append_right _ _) hstep⟩
    cases k with
    | core e =>
      cases e with
      | certificateLoopback c => exact hidle rfl
      | _ =>
        refine ⟨_, h.turn (List.Subset.refl _) rfl ?_ (Or.inl rfl)⟩
        exact fun c hc => (by cases hc)
    | resume c =>
      obtain ⟨hcore, hwaiting, hresumed⟩ := resume_subset ((machine core).state ks) c
      exact ⟨is, h.idle hcore hwaiting hresumed rfl⟩
    | loopback =>
      cases hresumed : ((machine core).state ks).resumed with
      | nil => exact hidle (step_loopback_nil hresumed)
      | cons c rest =>
        refine ⟨_, h.turn ?_ (step_loopback_cons hresumed) ?_ (Or.inr ⟨c, rfl⟩)⟩
        · rw [hresumed]
          exact List.subset_cons_self _ _
        · rintro c' ⟨⟩
          exact h.resumed c (hresumed ▸ List.mem_cons_self)

/-! ## The horizon -/

omit [Crypto] in
theorem mem_arrived {c : Certificate} : c ∈ arrived ks ↔ .core (.certificate c) ∈ ks := by
  have hkind : ∀ (k : Event) c, k.arrival = some c ↔ k = .core (.certificate c) := by
    rintro (e | _ | _) c
    · cases e <;> simp [Event.arrival]
    · simp [Event.arrival]
    · simp [Event.arrival]
  exact List.mem_filterMap_iff_mem hkind

omit [Crypto] in
theorem mem_proposed {h : Header} : h ∈ proposed ks ↔ .core (.ownHeader h) ∈ ks := by
  have hkind : ∀ (k : Event) h, k.proposal = some h ↔ k = .core (.ownHeader h) := by
    rintro (e | _ | _) h
    · cases e <;> simp [Event.proposal]
    · simp [Event.proposal]
    · simp [Event.proposal]
  exact List.mem_filterMap_iff_mem hkind

omit [Crypto] in
theorem headers_subset {pre : List Event} (hpre : pre <+: ks) :
    (arrived pre).map Certificate.header ++ proposed pre
      ⊆ (arrived ks).map Certificate.header ++ proposed ks := by
  have harrived : arrived pre ⊆ arrived ks := (hpre.sublist.filterMap _).subset
  have hproposed : proposed pre ⊆ proposed ks := (hpre.sublist.filterMap _).subset
  exact List.append_subset.mpr ⟨List.subset_append_of_subset_left _ (List.map_subset _ harrived),
    List.subset_append_of_subset_right _ hproposed⟩

/-- **What waits for a certificate was received or is our own.** -/
theorem mem_headers_of_waiting {c : Certificate} (hc : c ∈ ((machine core).state ks).waiting)
    {d : Digest} (hd : d ∈ c.header.parents.elems) :
    c.header ∈ (arrived ks).map Certificate.header ++ proposed ks := by
  obtain ⟨is, hrun⟩ := exists_coreRun core ks
  obtain ⟨s, hs, -⟩ := (Core.Sourced.invariant core).run hrun.comesBack
  rcases hs.suspended c (hrun.waiting c hc) with hreceived | hdefault | hown
  · have hcore := (hrun.events _ hreceived).resolve_right (by simp)
    exact List.mem_append_left _ (List.mem_map_of_mem (mem_arrived.mpr hcore))
  · rw [hdefault] at hd
    cases hd
  · have hcore := (hrun.events _ (Core.mem_ownHeaders.mp hown)).resolve_right (by simp)
    exact List.mem_append_right _ (mem_proposed.mpr hcore)

/-- One step: where the parents are of the round before, they are too old exactly at the
horizon. -/
theorem spares_iff_of_layered {state : State} {k : Event}
    (hlayered : ∀ p ∈ k.arrival, ∀ c ∈ state.waiting,
      p.digest ∈ c.header.parents.elems → c.round = 0 ∨ p.round + 1 = c.round) :
    Spares core state k ↔ OffHorizon state k := by
  constructor
  · intro h s hs hne p hp c hc hd heq
    have hspared := h s hs p hp c hc heq.ge hd
    rw [Ne, Core.sanitizeCertificate_eq_tooOld_iff] at hspared
    have hround := hlayered p hp c hc hd
    omega
  · intro h s hs p hp c hc hacceptable hd
    rw [Ne, Core.sanitizeCertificate_eq_tooOld_iff]
    have hround := hlayered p hp c hc hd
    have hoff : s.gcRound ≠ 0 → c.round ≠ s.gcRound := fun hne => h s hs hne p hp c hc hd
    omega

/-- **Only at the horizon are the parents of what is acceptable too old**: along every run on
layered certificates, no parent of an acceptable certificate that waits is rejected as too old,
exactly where no certificate of the very round of the horizon waits for one received. -/
theorem spares_iff_offHorizon (core : Core) (ks : List Event) (hlayered : Layered ks) :
    (machine core).Along (Spares core) ks ↔ (machine core).Along OffHorizon ks := by
  refine forall_congr' fun pre => forall_congr' fun k => forall_congr' fun hpre => ?_
  refine spares_iff_of_layered fun p hp c hc hd => ?_
  have hheader := headers_subset ((List.prefix_append _ _).trans hpre)
    (mem_headers_of_waiting hc hd)
  have hk : k ∈ ks := hpre.subset (by simp)
  exact hlayered c.header hheader p (List.mem_filterMap.mpr ⟨k, hk, hp⟩) hd

end CertificateWaiter

namespace CertificateWaiter.Stranded

open Sample

/-- The core of the first of four authorities, with a horizon two rounds behind the commits. -/
def core : Core := ⟨key 1, committee4, 2, fun digest => sign digest (key 1)⟩

/-- A certificate of the first round. -/
def c1 (author : ℕ) : Certificate :=
  certificate committee4 (key author) 1 (Certificate.genesis committee4)

/-- A certificate of the second round. -/
def c2 : Certificate := certificate committee4 (key 2) 2 [c1 2, c1 3, c1 4]

/-- A certificate that consensus orders. -/
def ordered (round : UInt64) : Certificate := certificate committee4 (key 3) round []

/-- Two of three parents arrive before a commit of this round is noticed, the third one after. -/
def arrivals (round : UInt64) : List Event :=
  [.core (.certificate c2), .core (.certificate (c1 2)), .core (.committed (ordered round)),
    .core (.certificate (c1 3)), .core (.certificate (c1 4))]

/-- Then the certificate is looped back, if all its parents are there. -/
def resumption : List Event := [.resume c2, .loopback]

set_option maxRecDepth 100000 in
/-- **A commit strands a certificate**: it is acceptable, its last parent is rejected. -/
theorem parent_rejected : Layered (arrivals 4) ∧ ¬ (machine core).Along (Spares core) (arrivals 4) ∧
    ∀ c ∈ Core.txConsensus ((machine core).outputs (arrivals 4 ++ resumption)), c ≠ c2 := by
  decide +kernel

set_option maxRecDepth 100000 in
theorem offHorizon_early : Layered (arrivals 3 ++ resumption) ∧
    (machine core).Along OffHorizon (arrivals 3 ++ resumption) ∧
    c2 ∈ Core.txConsensus ((machine core).outputs (arrivals 3 ++ resumption)) := by
  decide +kernel

theorem spares_early : (machine core).Along (Spares core) (arrivals 3 ++ resumption) ∧
    c2 ∈ Core.txConsensus ((machine core).outputs (arrivals 3 ++ resumption)) :=
  ⟨(spares_iff_offHorizon core _ offHorizon_early.1).mpr offHorizon_early.2.1,
    offHorizon_early.2.2⟩

end CertificateWaiter.Stranded

end Bullshark
