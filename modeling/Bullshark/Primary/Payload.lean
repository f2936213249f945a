import Bullshark.Primary.Chain

/-!
# Primary/Payload — what the `Proposer` puts into its headers

A digest a worker sends waits in `digests` until a header takes it along; a silent round and a jump
leave it there.  The decision to be silent is computed once per round and cached with that round, so
a header is only made in a round that is not silent (`payload_conserved`).
-/

namespace Bullshark

namespace Proposer

/-- The digest a turn receives. -/
def Input.digest : Input → Option Digest
  | ⟨_, .digest digest _⟩ => some digest
  | _ => none

/-- The digests the workers sent. -/
def receivedDigests (is : List Input) : List Digest := is.filterMap Input.digest

/-- The digests of a header's payload. -/
def packed (h : Header) : List Digest := h.payload.keys

variable [Crypto] {proposer : Proposer}

/-- The cached decision belongs to its round, and the size to the digests that wait. -/
structure Cached (proposer : Proposer) (state : State) : Prop where
  silent : state.silent = proposer.computeSilence state.silenceRound
  size : state.payloadSize = 32 * state.digests.length

/-- What a step sends from the digests `before`: headers of rounds that are not silent, with digests
that do not wait any more `after` it. -/
structure Packs (proposer : Proposer) (before : List (Digest × WorkerId)) (w : List Emission)
    (after : List (Digest × WorkerId)) : Prop where
  round : ∀ h ∈ headers w, proposer.computeSilence h.rawRound = false
  digests : ∀ d, d ∈ before.map Prod.fst ↔
    d ∈ (headers w).flatMap packed ∨ d ∈ after.map Prod.fst

namespace Packs

variable {before middle after : List (Digest × WorkerId)} {w w' : List Emission}

/-- Nothing is taken where no header is made. -/
theorem of_headers_nil (h : headers w = []) : Packs proposer before w before :=
  ⟨by simp [h], by simp [h]⟩

theorem trans (h : Packs proposer before w middle) (h' : Packs proposer middle w' after) :
    Packs proposer before (w ++ w') after where
  round := by
    rw [headers_append]
    exact List.forall_mem_append.mpr ⟨h.round, h'.round⟩
  digests d := by
    rw [h.digests, h'.digests, headers_append, List.flatMap_append, List.mem_append, or_assoc]

end Packs

/-! ## The steps of a turn -/

/-- Preparing a round caches its decision, and leaves the digests alone. -/
theorem prepareRound_spec (proposer : Proposer) (round : UInt64) (state : State) :
    (proposer.prepareRound round state).1.silenceRound = round ∧
      (proposer.prepareRound round state).1.silent = proposer.computeSilence round ∧
      (proposer.prepareRound round state).1.digests = state.digests ∧
      (proposer.prepareRound round state).1.payloadSize = state.payloadSize := by
  rw [prepareRound]
  dsimp only
  split
  · exact ⟨rfl, rfl, rfl, rfl⟩
  · exact ⟨rfl, rfl, rfl, rfl⟩

/-- A header of the present round takes all digests along. -/
theorem packs_makeHeader {state : State} (h : proposer.computeSilence state.round = false) :
    Packs proposer state.digests (proposer.makeHeader state).2 [] where
  round := by
    intro x hx
    rw [List.mem_singleton.mp hx]
    exact h
  digests d := by
    have hkeys : d ∈ packed (Header.new proposer.name state.round (BTreeMap.collect state.digests)
        (BTreeSet.collect (state.lastParents.map Certificate.digest)) proposer.requestSignature) ↔
        d ∈ state.digests.map Prod.fst := BTreeMap.mem_keys_collect
    simp [makeHeader, headers, hkeys]

/-- Entering the next round, its decision is cached. -/
theorem advanceRound_spec {state : State} (h : Cached proposer state) :
    (proposer.advanceRound state).1.silent
        = proposer.computeSilence (proposer.advanceRound state).1.round ∧
      (proposer.advanceRound state).1.silenceRound = (proposer.advanceRound state).1.round ∧
      (proposer.advanceRound state).1.digests = state.digests ∧
      (proposer.advanceRound state).1.payloadSize = state.payloadSize := by
  rw [(proposer.advanceRound_eq state).1, advanceRound]
  dsimp only
  split
  · obtain ⟨hround, hsilent, hdigests, hsize⟩ :=
      proposer.prepareRound_spec (state.round + 1) { state with round := state.round + 1 }
    exact ⟨hsilent, hround, hdigests, hsize⟩
  · next hround =>
    have hround : state.silenceRound = state.round + 1 := not_not.mp hround
    exact ⟨hround ▸ h.silent, hround, rfl, rfl⟩

/-- Entering the next round: a silent one keeps the digests, any other makes a header of them. -/
theorem propose_spec {state : State} (h : Cached proposer state) :
    Cached proposer (proposer.propose state).1 ∧
      Packs proposer state.digests (proposer.propose state).2
        (proposer.propose state).1.digests := by
  obtain ⟨hsilent, hround, hdigests, hsize⟩ := advanceRound_spec h
  have hnone := (proposer.advanceRound_eq state).2.2
  rw [propose]
  dsimp only
  split
  · refine ⟨⟨?_, ?_⟩, ?_⟩
    · rw [hround]
      exact hsilent
    · rw [hsize, hdigests]
      exact h.size
    · rw [hdigests]
      exact .of_headers_nil hnone
  · next hloud =>
    have hloud : (proposer.advanceRound state).1.silent = false := by simpa using hloud
    have hpacks := packs_makeHeader (hsilent.symm.trans hloud)
    rw [hdigests] at hpacks
    refine ⟨⟨?_, rfl⟩, (Packs.of_headers_nil hnone).trans hpacks⟩
    exact hsilent.trans (congrArg proposer.computeSilence hround.symm)

theorem check_spec {state : State} (h : Cached proposer state) (elapsed : Bool) :
    Cached proposer (proposer.check elapsed state).1 ∧
      Packs proposer state.digests (proposer.check elapsed state).2
        (proposer.check elapsed state).1.digests := by
  rw [check]
  split
  · exact propose_spec h
  · exact ⟨h, .of_headers_nil rfl⟩

/-- Parents do not touch the digests; a jump prepares the round jumped to. -/
theorem takeParents_spec {state : State} (h : Cached proposer state) (parents : List Certificate)
    (round : UInt64) :
    Cached proposer (proposer.takeParents parents round state).1 ∧
      (proposer.takeParents parents round state).1.digests = state.digests := by
  rw [takeParents]
  split
  · obtain ⟨hround, hsilent, hdigests, hsize⟩ :=
      proposer.prepareRound_spec round { state with round, lastParents := parents }
    refine ⟨⟨?_, ?_⟩, hdigests⟩
    · rw [hround]
      exact hsilent
    · rw [hsize, hdigests]
      exact h.size
  · split
    · exact ⟨h, rfl⟩
    · exact ⟨⟨h.silent, h.size⟩, rfl⟩

theorem canAdvance_spec {state : State} (h : Cached proposer state) :
    Cached proposer (proposer.canAdvance state) ∧
      (proposer.canAdvance state).digests = state.digests := by
  rw [canAdvance]
  split
  · exact ⟨⟨h.silent, h.size⟩, rfl⟩
  · exact ⟨⟨h.silent, h.size⟩, rfl⟩

/-- One branch of the `select!`: the digest received waits. -/
theorem select_spec {state : State} (h : Cached proposer state) (input : Input) :
    Cached proposer (proposer.select state input.branch).1 ∧
      (proposer.select state input.branch).1.digests.map Prod.fst
        = state.digests.map Prod.fst ++ input.digest.toList := by
  obtain ⟨elapsed, branch⟩ := input
  cases branch with
  | parents parents round =>
    obtain ⟨hcached, hdigests⟩ := takeParents_spec h parents round
    obtain ⟨hcached', hdigests'⟩ := canAdvance_spec hcached
    exact ⟨hcached', by simp [select, hdigests', hdigests, Input.digest]⟩
  | digest digest workerId =>
    refine ⟨⟨h.silent, ?_⟩, by simp [select, Input.digest]⟩
    simp only [select, h.size, Digest.length_toBytes, List.length_append, List.length_singleton]
    omega
  | timer => exact ⟨h, by simp [select, Input.digest]⟩

/-! ## The run -/

/-- What holds of the headers made and the digests received so far. -/
structure Conserved (proposer : Proposer) (is : List Input) (state : State)
    (log : List Emission) : Prop where
  cached : Cached proposer state
  round : ∀ h ∈ headers log, proposer.computeSilence h.rawRound = false
  digests : ∀ d, d ∈ receivedDigests is ↔
    d ∈ (headers log).flatMap packed ∨ d ∈ state.digests.map Prod.fst

theorem Conserved.step {is : List Input} {state : State} {log : List Emission}
    (h : Conserved proposer is state log) (i : Input) :
    Conserved proposer (is ++ [i]) (proposer.step state i).1
      (log ++ (proposer.step state i).2) := by
  obtain ⟨hcached, hpacks⟩ := check_spec h.cached i.elapsed
  obtain ⟨hcached', hdigests⟩ := select_spec hcached i
  have hheaders : headers (proposer.step state i).2
      = headers (proposer.check i.elapsed state).2 := by
    rw [Proposer.step]
    dsimp only
    rw [headers_append, headers_select, List.append_nil]
  have hreceived : receivedDigests (is ++ [i]) = receivedDigests is ++ i.digest.toList := by
    rw [receivedDigests, List.filterMap_append, List.filterMap_cons, List.filterMap_nil]
    cases i.digest <;> rfl
  refine ⟨hcached', ?_, fun d => ?_⟩
  · rw [headers_append, hheaders]
    exact List.forall_mem_append.mpr ⟨h.round, hpacks.round⟩
  · have hafter : d ∈ (proposer.step state i).1.digests.map Prod.fst ↔
        d ∈ (proposer.check i.elapsed state).1.digests.map Prod.fst ∨ d ∈ i.digest.toList := by
      rw [← List.mem_append, ← hdigests]
      rfl
    rw [hreceived, List.mem_append, h.digests, hpacks.digests, headers_append, hheaders,
      List.flatMap_append, List.mem_append, hafter]
    simp only [or_assoc]

/-- **No digest is lost, and silence is kept**: along every run the digests received are those of
the headers made and those that wait, the size counts 32 bytes for each that waits, and every header
is of a round that is not silent. -/
theorem payload_conserved (proposer : Proposer) (is : List Input) :
    (∀ d, d ∈ receivedDigests is ↔ d ∈ (headers (proposer.machine.outputs is)).flatMap packed ∨
      d ∈ (proposer.machine.state is).digests.map Prod.fst) ∧
    (proposer.machine.state is).payloadSize = 32 * (proposer.machine.state is).digests.length ∧
    ∀ h ∈ headers (proposer.machine.outputs is), proposer.computeSilence h.rawRound = false := by
  obtain ⟨hround, hsilent, hdigests, hsize⟩ :=
    proposer.prepareRound_spec (proposer.spawned.round + 1) proposer.spawned
  have hempty : proposer.machine.init.digests = [] := hdigests
  have hinit : Conserved proposer [] proposer.machine.init [] := by
    refine ⟨⟨?_, ?_⟩, fun h hh => (by cases hh), fun d => ?_⟩
    · exact hsilent.trans (congrArg proposer.computeSilence hround.symm)
    · rw [hempty]
      exact hsize
    · rw [hempty]
      simp [receivedDigests, headers]
  have hrun := Mealy.invariant hinit (fun _ i h => h.step i) is
  exact ⟨hrun.digests, hrun.cached.size, hrun.round⟩

/-! ## Where the payload comes from -/

omit [Crypto] in
/-- The batch a turn receives, and its worker. -/
def Input.entry : Input → Option (Digest × WorkerId)
  | ⟨_, .digest digest workerId⟩ => some (digest, workerId)
  | _ => none

omit [Crypto] in
/-- The batches the workers reported. -/
def receivedEntries (is : List Input) : List (Digest × WorkerId) := is.filterMap Input.entry

/-- The batches in these headers. -/
def packedEntries (l : List Header) : List (Digest × WorkerId) := l.flatMap fun h => h.payload.entries

/-- The check at the top of the loop makes no header and keeps the batches, or makes one of them all,
under its digest. -/
theorem check_cases {state : State} (h : Cached proposer state) (elapsed : Bool) :
    (headers (proposer.check elapsed state).2 = [] ∧
      (proposer.check elapsed state).1.digests = state.digests) ∨
    ∃ x, headers (proposer.check elapsed state).2 = [x] ∧ x.digest = x.id ∧
      x.payload = BTreeMap.collect state.digests ∧ (proposer.check elapsed state).1.digests = [] := by
  obtain ⟨-, -, hdigests, -⟩ := advanceRound_spec h
  have hnone := (proposer.advanceRound_eq state).2.2
  rw [check]
  split
  · rw [propose]
    dsimp only
    split
    · exact Or.inl ⟨hnone, hdigests⟩
    · rw [headers_append, hnone, List.nil_append]
      exact Or.inr ⟨_, rfl, rfl, congrArg BTreeMap.collect hdigests, rfl⟩
  · exact Or.inl ⟨rfl, rfl⟩

/-- One branch of the `select!`: the batch received waits. -/
theorem digests_select {state : State} (h : Cached proposer state) (input : Input) :
    (proposer.select state input.branch).1.digests = state.digests ++ input.entry.toList := by
  obtain ⟨elapsed, branch⟩ := input
  cases branch with
  | parents parents round =>
    obtain ⟨hcached, hdigests⟩ := takeParents_spec h parents round
    obtain ⟨-, hdigests'⟩ := canAdvance_spec hcached
    exact (hdigests'.trans hdigests).trans (List.append_nil _).symm
  | digest digest workerId => rfl
  | timer => exact (List.append_nil _).symm

/-- The headers are under their digests; what waits and what is in them was received, no batch more
often than it was. -/
structure Sourced (proposer : Proposer) (is : List Input) (state : State) (log : List Emission) :
    Prop where
  cached : Cached proposer state
  named : ∀ h ∈ headers log, h.digest = h.id
  entries : (packedEntries (headers log) ++ state.digests).Subperm (receivedEntries is)

theorem Sourced.step {is : List Input} {state : State} {log : List Emission}
    (h : Sourced proposer is state log) (i : Input) :
    Sourced proposer (is ++ [i]) (proposer.step state i).1 (log ++ (proposer.step state i).2) := by
  have hcached := (check_spec h.cached i.elapsed).1
  have hreceived : receivedEntries (is ++ [i]) = receivedEntries is ++ i.entry.toList := by
    rw [receivedEntries, List.filterMap_append, List.filterMap_cons, List.filterMap_nil]
    cases i.entry <;> rfl
  have hheaders : headers (proposer.step state i).2 = headers (proposer.check i.elapsed state).2 := by
    rw [Proposer.step]
    dsimp only
    rw [headers_append, headers_select, List.append_nil]
  have hdigests : (proposer.step state i).1.digests
      = (proposer.check i.elapsed state).1.digests ++ i.entry.toList := digests_select hcached i
  refine ⟨(select_spec hcached i).1, ?_, ?_⟩
  · rw [headers_append, hheaders]
    refine List.forall_mem_append.mpr ⟨h.named, fun x hx => ?_⟩
    rcases check_cases h.cached i.elapsed with ⟨hnone, -⟩ | ⟨y, hone, hnamed, -, -⟩
    · rw [hnone] at hx
      cases hx
    · rw [hone] at hx
      rw [List.mem_singleton.mp hx]
      exact hnamed
  · rw [headers_append, hheaders, hdigests, hreceived, ← List.append_assoc]
    refine (List.subperm_append_right _).mpr (List.Subperm.trans ?_ h.entries)
    rw [packedEntries, packedEntries, List.flatMap_append, List.append_assoc]
    refine (List.subperm_append_left _).mpr ?_
    rcases check_cases h.cached i.elapsed with ⟨hnone, hkept⟩ | ⟨y, hone, -, hpayload, hkept⟩
    · rw [hnone, hkept]
      exact .refl _
    · rw [hone, hkept, List.append_nil, List.flatMap_singleton, hpayload]
      exact BTreeMap.subperm_collect _

/-- **Every run makes its headers of what the workers reported.** -/
theorem sourced_run (proposer : Proposer) (is : List Input) :
    Sourced proposer is (proposer.machine.state is) (proposer.machine.outputs is) := by
  obtain ⟨hround, hsilent, hdigests, hsize⟩ :=
    proposer.prepareRound_spec (proposer.spawned.round + 1) proposer.spawned
  have hempty : proposer.machine.init.digests = [] := hdigests
  have hinit : Sourced proposer [] proposer.machine.init [] :=
    ⟨⟨hsilent.trans (congrArg proposer.computeSilence hround.symm), hempty ▸ hsize⟩,
      fun h hh => (by cases hh), hempty ▸ List.nil_subperm⟩
  exact Mealy.invariant hinit (fun _ i h => h.step i) is

/-- A header carries batches that were reported. -/
theorem mem_receivedEntries (proposer : Proposer) (is : List Input) {h : Header}
    (hh : h ∈ headers (proposer.machine.outputs is)) :
    ∀ e ∈ h.payload.entries, e ∈ receivedEntries is := fun _ he =>
  (proposer.sourced_run is).entries.subset
    (List.mem_append_left _ (List.mem_flatMap.mpr ⟨h, hh, he⟩))

end Proposer

end Bullshark
