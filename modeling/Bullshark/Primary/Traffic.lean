import Bullshark.Primary.Turns
import Bullshark.Primary.Acceptance

/-!
# Primary/Traffic — the runs a core is part of

`Admissible` says what the tasks around the core deliver: the waiters loop back what was suspended
before, the `Proposer` makes headers of our own with strictly increasing rounds, and nobody else can
sign a header in our name.  Everything else the network sends is arbitrary.
-/

namespace Bullshark

namespace Core

open Handler

/-- The headers the `Proposer` made so far. -/
def ownHeaders (is : List Event) : List Header :=
  is.filterMap fun
    | .ownHeader header => some header
    | _ => none

/-- The headers sent to the `HeaderWaiter`. -/
def suspendedHeaders (log : List Emission) : List Header :=
  log.filterMap fun
    | .syncParents _ header => some header
    | .syncBatches _ header => some header
    | _ => none

/-- The votes created. -/
def votes (log : List Emission) : List Vote :=
  log.filterMap fun
    | .created vote => some vote
    | _ => none

/-- The certificates sent on `tx_consensus`. -/
def txConsensus (log : List Emission) : List Certificate :=
  log.filterMap fun
    | .consensus certificate => some certificate
    | _ => none

theorem mem_ownHeaders {is : List Event} {h : Header} : h ∈ ownHeaders is ↔ .ownHeader h ∈ is :=
  List.mem_filterMap_iff_mem fun e _ => by cases e <;> simp

theorem mem_votes {log : List Emission} {v : Vote} : v ∈ votes log ↔ .created v ∈ log :=
  List.mem_filterMap_iff_mem fun e _ => by cases e <;> simp

theorem mem_txConsensus {log : List Emission} {c : Certificate} :
    c ∈ txConsensus log ↔ .consensus c ∈ log :=
  List.mem_filterMap_iff_mem fun e _ => by cases e <;> simp

theorem ownHeaders_mono {is : List Event} {e : Event} {h : Header} (hh : h ∈ ownHeaders is) :
    h ∈ ownHeaders (is ++ [e]) :=
  mem_ownHeaders.mpr (List.mem_append_left _ (mem_ownHeaders.mp hh))

theorem ownHeader_mem_ownHeaders (is : List Event) (h : Header) :
    h ∈ ownHeaders (is ++ [.ownHeader h]) :=
  mem_ownHeaders.mpr (List.mem_append_right _ List.mem_cons_self)

variable [Crypto] (core : Core)

/-- The waiters loop back what they were sent; the network sends anything. -/
def Returned (is : List Event) : Event → Prop
  | .headerLoopback h => h ∈ suspendedHeaders (core.machine.outputs is)
  | .certificateLoopback c => .syncCertificate c ∈ core.machine.outputs is
  | _ => True

/-- What the tasks around the core deliver after the events `is`. -/
def Admissible (is : List Event) : Event → Prop
  | .header h => h.author = core.name → h.verify core.committee = .ok () → h ∈ ownHeaders is
  | .certificate c => c.origin = core.name → c.header.verify core.committee = .ok () →
      c.header ∈ ownHeaders is
  | .headerLoopback h => h ∈ suspendedHeaders (core.machine.outputs is)
  | .certificateLoopback c => .syncCertificate c ∈ core.machine.outputs is
  | .ownHeader h => h.author = core.name ∧ 1 ≤ h.round ∧ ∀ h' ∈ ownHeaders is, h'.round < h.round
  | _ => True

instance (is : List Event) (e : Event) : Decidable (core.Admissible is e) :=
  match e with
  | .header h => inferInstanceAs (Decidable (h.author = core.name →
      h.verify core.committee = .ok () → h ∈ ownHeaders is))
  | .certificate c => inferInstanceAs (Decidable (c.origin = core.name →
      c.header.verify core.committee = .ok () → c.header ∈ ownHeaders is))
  | .headerLoopback h =>
    inferInstanceAs (Decidable (h ∈ suspendedHeaders (core.machine.outputs is)))
  | .certificateLoopback c =>
    inferInstanceAs (Decidable (.syncCertificate c ∈ core.machine.outputs is))
  | .ownHeader h => inferInstanceAs (Decidable (h.author = core.name ∧ 1 ≤ h.round ∧
      ∀ h' ∈ ownHeaders is, h'.round < h.round))
  | .vote _ => inferInstanceAs (Decidable True)
  | .batch _ _ => inferInstanceAs (Decidable True)
  | .committed _ => inferInstanceAs (Decidable True)

/-- Every event of the run is admissible after those before it. -/
def AdmissibleRun (is : List Event) : Prop := ∀ pre e, pre ++ [e] <+: is → core.Admissible pre e

instance (is : List Event) : Decidable (core.AdmissibleRun is) :=
  inferInstanceAs (Decidable (∀ pre e, _ → core.Admissible pre e))

variable {core} {is : List Event}

theorem Admissible.returned {e : Event} (h : core.Admissible is e) : core.Returned is e := by
  cases e with
  | headerLoopback x => exact h
  | certificateLoopback c => exact h
  | _ => trivial

omit [Crypto] in
/-- A header of the `Proposer` arrived after some of the events. -/
theorem exists_prefix_of_mem {h : Header} (hh : h ∈ ownHeaders is) :
    ∃ pre, pre ++ [.ownHeader h] <+: is := by
  obtain ⟨pre, post, rfl⟩ := List.append_of_mem (mem_ownHeaders.mp hh)
  exact ⟨pre, post, by rw [List.append_assoc, List.singleton_append]⟩

/-- The headers of the `Proposer` are ours and above round zero. -/
theorem AdmissibleRun.own (h : core.AdmissibleRun is) {x : Header} (hx : x ∈ ownHeaders is) :
    x.author = core.name ∧ 1 ≤ x.round := by
  obtain ⟨pre, hpre⟩ := exists_prefix_of_mem hx
  obtain ⟨hauthor, hround, -⟩ := h pre _ hpre
  exact ⟨hauthor, hround⟩

/-- The `Proposer` makes one header per round. -/
theorem AdmissibleRun.eq_of_round_eq (h : core.AdmissibleRun is) {x y : Header}
    (hx : x ∈ ownHeaders is) (hy : y ∈ ownHeaders is) (hr : x.round = y.round) : x = y := by
  have hlt : ∀ {x y pre pre'}, pre ++ [.ownHeader y] <+: is →
      pre' ++ [.ownHeader x] <+: pre → x.round < y.round := by
    intro x y pre pre' hpre hpre'
    exact (h pre _ hpre).2.2 x (mem_ownHeaders.mpr (hpre'.subset (by simp)))
  obtain ⟨prex, hprex⟩ := exists_prefix_of_mem hx
  obtain ⟨prey, hprey⟩ := exists_prefix_of_mem hy
  rcases List.prefix_or_prefix_of_prefix hprex hprey with hxy | hyx
  · rcases List.prefix_concat_iff.mp hxy with heq | hxy
    · exact (by simpa using heq : prex = prey ∧ x = y).2
    · exact absurd hr (hlt hprey hxy).ne
  · rcases List.prefix_concat_iff.mp hyx with heq | hyx
    · exact (by simpa using heq : prey = prex ∧ y = x).2.symm
    · exact absurd hr (hlt hprex hyx).ne'

theorem AdmissibleRun.of_prefix {js : List Event} (h : core.AdmissibleRun js) (hp : is <+: js) :
    core.AdmissibleRun is := fun pre e hpre => h pre e (hpre.trans hp)

/-! ## The checks on what the network sends -/

theorem sanitizeHeader_eq_ok {state : State} {h : Header}
    (hs : core.sanitizeHeader state h = .ok ()) :
    state.gcRound ≤ h.round ∧ h.verify core.committee = .ok () := by
  obtain ⟨hround, hverify⟩ := Except.bind_unit_eq_ok_iff.mp hs
  exact ⟨ensure_eq_ok.mp hround, hverify⟩

theorem sanitizeCertificate_eq_ok {state : State} {c : Certificate}
    (hs : core.sanitizeCertificate state c = .ok ()) :
    state.gcRound ≤ c.round ∧
      ((c.header.id = default ∧ c.round = 0) ∨ c.verifyQuorum core.committee = .ok ()) := by
  obtain ⟨hround, hverify⟩ := Except.bind_unit_eq_ok_iff.mp hs
  refine ⟨ensure_eq_ok.mp hround, ?_⟩
  rcases Certificate.verify_eq_ok_iff.mp hverify with ⟨g, hg, heq⟩ | hq
  · obtain ⟨name, -, rfl⟩ := List.mem_map.mp hg
    simp only [Certificate.partialEq, Bool.and_eq_true, decide_eq_true_eq] at heq
    exact Or.inl ⟨heq.1.1.symm, heq.1.2.symm⟩
  · exact Or.inr hq

/-- **A certificate is rejected as too old where its round is below the horizon**, and nowhere
else. -/
theorem sanitizeCertificate_eq_tooOld_iff {state : State} {c : Certificate} :
    core.sanitizeCertificate state c = .error (.tooOld c.digest c.round) ↔
      c.round < state.gcRound := by
  rw [sanitizeCertificate]
  by_cases h : state.gcRound ≤ c.round
  · refine iff_of_false ?_ (not_lt.mpr h)
    rw [ensure, if_pos h]
    exact c.verify_ne_tooOld _ _ _
  · refine iff_of_true ?_ (not_le.mp h)
    rw [ensure, if_neg h]
    rfl

theorem sanitizeVote_eq_ok {state : State} {v : Vote} (hs : core.sanitizeVote state v = .ok ()) :
    v.id = state.currentHeader.id ∧ v.origin = state.currentHeader.author ∧
      v.round = state.currentHeader.round := by
  obtain ⟨-, hs⟩ := Except.bind_unit_eq_ok_iff.mp hs
  obtain ⟨hsame, -⟩ := Except.bind_unit_eq_ok_iff.mp hs
  exact ensure_eq_ok.mp hsame

/-! ## The clean-up -/

omit [Crypto]

theorem State.lookup_retainFrom {V : Type} (g : ℕ) (m : HashMap ℕ V) (k : ℕ) :
    (State.retainFrom g m).lookup k = if g ≤ k then m.lookup k else none := by
  rw [State.retainFrom, AList.lookup_retain]
  split
  · cases m.lookup k <;> rfl
  · cases m.lookup k <;> rfl

/-- The clean-up forgets the rounds below the new horizon and nothing else. -/
theorem State.votedAt_cleanUp {s : State} {d r : ℕ} (h : (s.cleanUp d).gcRound ≤ r) :
    (s.cleanUp d).votedAt r = s.votedAt r := by
  rw [cleanUp] at h ⊢
  split at h
  · next hd => rw [if_pos hd, votedAt, State.lookup_retainFrom, if_pos h]; rfl
  · next hd => rw [if_neg hd]

theorem State.processingAt_cleanUp {s : State} {d r : ℕ} (h : (s.cleanUp d).gcRound ≤ r) :
    (s.cleanUp d).processingAt r = s.processingAt r := by
  rw [cleanUp] at h ⊢
  split at h
  · next hd => rw [if_pos hd, processingAt, State.lookup_retainFrom, if_pos h]; rfl
  · next hd => rw [if_neg hd]

theorem State.certificates_cleanUp {s : State} {d r : ℕ} {c : Certificate}
    (h : c ∈ ((s.cleanUp d).aggregatorAt r).certificates) :
    c ∈ (s.aggregatorAt r).certificates := by
  rw [cleanUp] at h
  split at h
  · rw [aggregatorAt, State.lookup_retainFrom] at h
    split at h
    · exact h
    · cases h
  · exact h

/-- What the clean-up leaves as it is. -/
theorem State.cleanUp_eq (s : State) (d : ℕ) : (s.cleanUp d).store = s.store ∧
    (s.cleanUp d).currentHeader = s.currentHeader ∧
    (s.cleanUp d).votesAggregator = s.votesAggregator ∧
    (s.cleanUp d).consensusRound = s.consensusRound := by
  rw [cleanUp]
  split <;> exact ⟨rfl, rfl, rfl, rfl⟩

/-- The horizon never passes the one the consensus round stands for. -/
def State.Horizon (s : State) (d : ℕ) : Prop := s.gcRound ≤ s.consensusRound - d

theorem State.Horizon.cleanUp {s : State} {d : ℕ} (h : s.Horizon d) :
    (s.cleanUp d).Horizon d ∧ s.gcRound ≤ (s.cleanUp d).gcRound := by
  rw [Horizon, State.cleanUp]
  split
  · exact ⟨le_rfl, h⟩
  · exact ⟨h, le_rfl⟩

/-! ## Where the headers in our name come from -/

/-- A header in our name is one the `Proposer` made, or carries the round and the id of a genesis
one. -/
def Ours (core : Core) (is : List Event) (h : Header) : Prop :=
  h.author = core.name → h ∈ ownHeaders is ∨ (h.round = 0 ∧ h.id = default)

theorem Ours.mono {core : Core} {is : List Event} {e : Event} {h : Header} (hh : core.Ours is h) :
    core.Ours (is ++ [e]) h := fun hname => (hh hname).imp_left ownHeaders_mono

theorem exists_pending_of_suspended {log : List Emission} {h : Header}
    (hh : h ∈ suspendedHeaders log) : ∃ e ∈ log, e.pending = some h := by
  obtain ⟨e, he, heq⟩ := List.mem_filterMap.mp hh
  cases e <;> cases heq <;> exact ⟨_, he, rfl⟩

/-- What the core holds, or sent to the waiters, in our name is ours. -/
structure Provenance (core : Core) (is : List Event) (s : State) (log : List Emission) : Prop where
  current : s.currentHeader = default ∨ s.currentHeader ∈ ownHeaders is
  pending : ∀ e ∈ log, ∀ h, e.pending = some h → core.Ours is h

namespace Provenance

variable {core : Core} {is : List Event} {s s' : State} {log w : List Emission}

theorem ours_current (h : core.Provenance is s log) : core.Ours is s.currentHeader := by
  intro hname
  rcases h.current with hdefault | hown
  · rw [hdefault]
    exact Or.inr ⟨rfl, rfl⟩
  · exact Or.inl hown

variable [Crypto]

/-- A header handed to a handler is ours, if it is in our name. -/
theorem hands (h : core.Provenance is s (core.machine.outputs is)) {e : Event}
    (hrun : core.AdmissibleRun (is ++ [e])) {x : Header} (hx : core.HandsHeader s e x) :
    core.Ours (is ++ [e]) x := by
  have hadm := hrun is e List.prefix_rfl
  cases e with
  | header y =>
    obtain ⟨rfl, hs⟩ := hx
    exact fun hname => Or.inl (ownHeaders_mono (hadm hname (sanitizeHeader_eq_ok hs).2))
  | certificate c =>
    obtain ⟨rfl, hs⟩ := hx
    intro hname
    rcases (sanitizeCertificate_eq_ok hs).2 with ⟨hid, hround⟩ | hq
    · exact Or.inr ⟨hround, hid⟩
    · exact Or.inl (ownHeaders_mono (hadm hname (Certificate.verifyQuorum_eq_ok_iff.mp hq).1))
  | headerLoopback y =>
    cases hx
    obtain ⟨e, he, hpending⟩ := exists_pending_of_suspended hadm
    exact (h.pending e he _ hpending).mono
  | certificateLoopback c =>
    cases hx
    exact (h.pending _ hadm _ rfl).mono
  | ownHeader y =>
    cases hx
    exact fun _ => Or.inl (ownHeader_mem_ownHeaders is _)
  | vote _ => cases hx
  | batch _ _ => cases hx
  | committed _ => cases hx

/-- The certificates handed to a handler carry headers that are. -/
theorem handsHeader_of_handsCertificate {e : Event} {c : Certificate}
    (hc : core.HandsCertificate s e c) : core.HandsHeader s e c.header := by
  cases e with
  | certificate _ => exact ⟨congrArg _ hc.1, hc.2⟩
  | certificateLoopback _ => exact congrArg _ hc
  | _ => cases hc

theorem effect {I : Given} (hH : ∀ x, I.header x → core.Ours is x)
    (hC : ∀ c, I.certificate c → I.header c.header) (h : core.Provenance is s log)
    (hE : Effect core I s log w s') : core.Provenance is s' (log ++ w) := by
  refine ⟨hE.sameRounds.currentHeader ▸ h.current, fun e he x hx => ?_⟩
  rcases List.mem_append.mp he with he | he
  · exact h.pending e he x hx
  · rcases hE.pending hC he hx with hgiven | rfl | ⟨e', he', hx'⟩
    · exact hH x hgiven
    · exact h.ours_current
    · exact h.pending e' he' x hx'

/-- **Headers in our name are ours, in every run.** -/
theorem invariant (core : Core) :
    core.Invariant (fun is e => core.AdmissibleRun (is ++ [e])) core.Provenance where
  init := ⟨Or.inl rfl, fun e he => by cases he⟩
  mono _ h := ⟨h.current.imp_right ownHeaders_mono, fun e he x hx => (h.pending e he x hx).mono⟩
  cleanUp {_ s _} h := ⟨by rw [(State.cleanUp_eq s _).2.1]; exact h.current, h.pending⟩
  batch _ _ h := ⟨h.current, h.pending⟩
  committed _ h := ⟨h.current, h.pending⟩
  propose _ _ h := ⟨Or.inr (ownHeader_mem_ownHeaders _ _), fun e he x hx => by
    rcases List.mem_append.mp he with he | he
    · exact (h.pending e he x hx).mono
    · rw [List.mem_singleton.mp he] at hx
      cases hx⟩
  effect _ hok h₀ _ h hE :=
    h.effect (fun _ hx => h₀.hands hok hx) (fun _ hc => handsHeader_of_handsCertificate hc) hE

end Provenance

end Core

end Bullshark
