import Bullshark.Primary.Proposer
import Bullshark.Primary.HandedOut
import Bullshark.Primary.Delivered
import Bullshark.Primary.Validated

/-!
# Primary/Chain — the headers of one `Proposer`

The `Proposer` reads in order what the core hands out, and its headers form a chain: the rounds
increase strictly, and the parents of a header are certificates of the round before with a quorum
of stake (`chain_of_headers`).  An extra parent is never left alone, since after a jump, a proposal
or a silent round nothing was read of the round entered, so that what comes next of it is a quorum.

The round is a `u64` and `self.round += 1` wraps: a proposal with parents of the last round enters
round zero, and the chain starts again (`Proposer.Wrapped.rounds_restart`).
-/

namespace Bullshark

namespace Proposer

/-- The headers made. -/
def headers (log : List Emission) : List Header :=
  log.filterMap fun
    | .header header => some header
    | _ => none

/-- The messages of the core read so far. -/
def received (js : List Input) : List (List Certificate × ℕ) :=
  js.filterMap fun j =>
    match j.branch with
    | .parents parents round => some (parents, round.toNat)
    | _ => none

variable [Crypto]

/-- The parents of a header are certificates of the round before, the genesis or read from the core:
all of the genesis in the first round, and a quorum of stake in any other. -/
def Parented (committee : Committee) (messages : List (List Certificate × ℕ)) (h : Header) : Prop :=
  ∃ parents : List Certificate, h.parents = BTreeSet.collect (parents.map Certificate.digest) ∧
    (∀ p ∈ parents, p.round + 1 = h.round ∧
      (p ∈ Certificate.genesis committee ∨ ∃ m ∈ messages, p ∈ m.1)) ∧
    (h.round = 1 → Certificate.genesis committee ⊆ parents) ∧
    (h.round ≠ 1 → IsQuorum committee parents)

/-- A chain of headers: one per round at most, each on certificates of the round before. -/
structure IsChain (committee : Committee) (messages : List (List Certificate × ℕ))
    (hs : List Header) : Prop where
  increasing : hs.Pairwise fun h h' => h.round < h'.round
  parented : ∀ h ∈ hs, Parented committee messages h

omit [Crypto] in
/-- A turn that enters a new round can count up to it. -/
def CanCount (proposer : Proposer) (s : State) (j : Input) : Prop :=
  proposer.ready j.elapsed s = true → s.round.toNat + 1 < 2 ^ 64

omit [Crypto] in
instance (proposer : Proposer) (s : State) (j : Input) : Decidable (proposer.CanCount s j) :=
  inferInstanceAs (Decidable (_ → _))

theorem Parented.mono {committee : Committee} {messages messages' : List (List Certificate × ℕ)}
    {h : Header} (hh : Parented committee messages h) (hsub : messages ⊆ messages') :
    Parented committee messages' h := by
  obtain ⟨parents, heq, hround, hrest⟩ := hh
  refine ⟨parents, heq, fun p hp => ⟨(hround p hp).1, ?_⟩, hrest⟩
  exact (hround p hp).2.imp_right fun ⟨m, hm, hpm⟩ => ⟨m, hsub hm, hpm⟩

/-- **The parents of a first header are the genesis**, where no other certificate of round zero was
read. -/
theorem Parented.eq_genesis {committee : Committee} {messages : List (List Certificate × ℕ)}
    {h : Header} (hh : Parented committee messages h) (hone : h.round = 1)
    (honly : ∀ m ∈ messages, m.2 = 0 → ∀ p ∈ m.1,
      p.digest ∈ (Certificate.genesis committee).map Certificate.digest)
    (hround : ∀ m ∈ messages, ∀ p ∈ m.1, p.round = m.2) :
    h.parents = BTreeSet.collect ((Certificate.genesis committee).map Certificate.digest) := by
  obtain ⟨parents, heq, hparents, hgenesis, -⟩ := hh
  rw [heq]
  refine BTreeSet.collect_congr fun d => ⟨fun hd => ?_, fun hd => ?_⟩
  · obtain ⟨p, hp, rfl⟩ := List.mem_map.mp hd
    obtain ⟨hp0, hgen | ⟨m, hm, hpm⟩⟩ := hparents p hp
    · exact List.mem_map_of_mem hgen
    · have hzero : m.2 = 0 := by
        rw [← hround m hm p hpm]
        omega
      exact honly m hm hzero p hpm
  · exact List.map_subset _ (hgenesis hone) hd

omit [Crypto] in
theorem headers_append (log w : List Emission) : headers (log ++ w) = headers log ++ headers w := by
  rw [headers, List.filterMap_append]
  rfl

omit [Crypto] in
theorem received_snoc (js : List Input) (j : Input) :
    received (js ++ [j]) = received js ++ received [j] := by
  rw [received, List.filterMap_append]
  rfl

/-! ## What a turn changes -/

/-- The invariant: what was read is not of a later round, and of an earlier one while there are no
parents; the parents are of the round, and all of the genesis or a quorum. -/
structure Chained (committee : Committee) (messages : List (List Certificate × ℕ)) (s : State)
    (log : List Emission) : Prop where
  chain : IsChain committee messages (headers log)
  made : ∀ h ∈ headers log, h.round ≤ s.round.toNat
  read : ∀ m ∈ messages, m.2 ≤ s.round.toNat
  fresh : s.lastParents = [] → ∀ m ∈ messages, m.2 < s.round.toNat
  round : ∀ p ∈ s.lastParents, p.round = s.round.toNat
  origin : ∀ p ∈ s.lastParents, p ∈ Certificate.genesis committee ∨ ∃ m ∈ messages, p ∈ m.1
  genesis : s.round.toNat = 0 → Certificate.genesis committee ⊆ s.lastParents
  quorum : s.round.toNat ≠ 0 → s.lastParents ≠ [] → IsQuorum committee s.lastParents

variable {proposer : Proposer} {committee : Committee} {messages : List (List Certificate × ℕ)}
  {s s' : State} {log w : List Emission}

namespace Chained

/-- Changes elsewhere. -/
theorem of_eq (h : Chained committee messages s log) (hround : s'.round = s.round)
    (hparents : s'.lastParents = s.lastParents) (hw : headers w = []) :
    Chained committee messages s' (log ++ w) := by
  have hlog : headers (log ++ w) = headers log := by rw [headers_append, hw, List.append_nil]
  constructor
  · rw [hlog]; exact h.chain
  · rw [hlog, hround]; exact h.made
  · rw [hround]; exact h.read
  · rw [hround, hparents]; exact h.fresh
  · rw [hround, hparents]; exact h.round
  · rw [hparents]; exact h.origin
  · rw [hround, hparents]; exact h.genesis
  · rw [hround, hparents]; exact h.quorum

/-- Entering the next round, with no parents. -/
theorem next (h : Chained committee messages s log) (hround : s'.round.toNat = s.round.toNat + 1)
    (hparents : s'.lastParents = []) (hchain : IsChain committee messages (headers (log ++ w)))
    (hmade : ∀ x ∈ headers w, x.round ≤ s'.round.toNat) :
    Chained committee messages s' (log ++ w) where
  chain := hchain
  made x hx := by
    rcases List.mem_append.mp (headers_append log w ▸ hx) with hx | hx
    · have := h.made x hx
      omega
    · exact hmade x hx
  read m hm := by
    have := h.read m hm
    omega
  fresh _ m hm := by
    have := h.read m hm
    omega
  round p hp := by
    rw [hparents] at hp
    cases hp
  origin p hp := by
    rw [hparents] at hp
    cases hp
  genesis hzero := by omega
  quorum _ hne := absurd hparents hne

end Chained

/-- Preparing a round says whether it is silent, and nothing else. -/
theorem prepareRound_eq (r : UInt64) : (proposer.prepareRound r s).1.round = s.round ∧
    (proposer.prepareRound r s).1.lastParents = s.lastParents ∧
    headers (proposer.prepareRound r s).2 = [] := by
  rw [prepareRound]
  dsimp only
  split <;> exact ⟨rfl, rfl, rfl⟩

theorem advanceRound_eq (proposer : Proposer) (s : State) :
    (proposer.advanceRound s).1.round = s.round + 1 ∧
    (proposer.advanceRound s).1.lastParents = s.lastParents ∧
    headers (proposer.advanceRound s).2 = [] := by
  rw [advanceRound]
  dsimp only
  split
  · exact prepareRound_eq _
  · exact ⟨rfl, rfl, rfl⟩

/-- **What a proposal does**: it enters the next round with no parents left, silently or with a
header on the parents it had. -/
theorem propose_cases (proposer : Proposer) (s : State) :
    (proposer.propose s).1.round = s.round + 1 ∧ (proposer.propose s).1.lastParents = [] ∧
      (headers (proposer.propose s).2 = [] ∨ ∃ h, headers (proposer.propose s).2 = [h] ∧
        h.author = proposer.name ∧ h.rawRound = s.round + 1 ∧
        h.parents = BTreeSet.collect (s.lastParents.map Certificate.digest)) := by
  obtain ⟨hround, hparents, hsent⟩ := proposer.advanceRound_eq s
  rw [propose]
  dsimp only
  split
  · exact ⟨hround, rfl, Or.inl hsent⟩
  · have hmade := headers_append (proposer.advanceRound s).2
      (proposer.makeHeader (proposer.advanceRound s).1).2
    rw [hsent, List.nil_append] at hmade
    refine ⟨hround, rfl, Or.inr ⟨_, hmade, rfl, hround, ?_⟩⟩
    exact congrArg (fun l => BTreeSet.collect (l.map Certificate.digest)) hparents

omit [Crypto] in
theorem lastParents_ne_nil_of_ready {elapsed : Bool} (h : proposer.ready elapsed s = true) :
    s.lastParents ≠ [] := by
  rintro heq
  rw [ready, heq] at h
  simp at h

/-- Checking whether we can advance keeps the parents. -/
theorem canAdvance_eq (proposer : Proposer) (s : State) :
    (proposer.canAdvance s).round = s.round ∧
      (proposer.canAdvance s).lastParents = s.lastParents := by
  rw [canAdvance]
  split <;> exact ⟨rfl, rfl⟩

namespace Chained

/-- **The check at the top of the loop.** -/
theorem check {elapsed : Bool} (h : Chained committee messages s log)
    (hcount : proposer.ready elapsed s = true → s.round.toNat + 1 < 2 ^ 64) :
    Chained committee messages (proposer.check elapsed s).1
      (log ++ (proposer.check elapsed s).2) := by
  rw [Proposer.check]
  split
  · next hready =>
    obtain ⟨hround, hparents, hsent⟩ := proposer.propose_cases s
    have hnext : (s.round + 1).toNat = s.round.toNat + 1 := by
      rw [UInt64.toNat_add, UInt64.toNat_one]
      exact Nat.mod_eq_of_lt (hcount hready)
    have hstate : (proposer.propose s).1.round.toNat = s.round.toNat + 1 := by rw [hround, hnext]
    rcases hsent with hnone | ⟨x, hx, -, hxround, hxparents⟩
    · refine h.next hstate hparents ?_ ?_
      · rw [headers_append, hnone, List.append_nil]
        exact h.chain
      · rw [hnone]
        exact fun x hx => (by cases hx)
    · have hxround : x.round = s.round.toNat + 1 := by rw [Header.round, hxround, hnext]
      refine h.next hstate hparents ?_ ?_
      · rw [headers_append, hx]
        refine ⟨List.pairwise_append.mpr ⟨h.chain.increasing, List.pairwise_singleton _ _, ?_⟩, ?_⟩
        · intro y hy z hz
          rw [List.mem_singleton.mp hz, hxround]
          exact Nat.lt_succ_of_le (h.made y hy)
        · refine List.forall_mem_append.mpr ⟨h.chain.parented, fun z hz => ?_⟩
          rw [List.mem_singleton.mp hz]
          refine ⟨s.lastParents, hxparents, fun p hp => ⟨?_, h.origin p hp⟩, fun hone => ?_,
            fun hone => ?_⟩
          · rw [h.round p hp, hxround]
          · exact h.genesis (by omega)
          · exact h.quorum (by omega) (lastParents_ne_nil_of_ready hready)
      · intro y hy
        rw [hx] at hy
        rw [List.mem_singleton.mp hy, hxround, hstate]
  · rw [List.append_nil]
    exact h

omit [Crypto] in
/-- What is read next of the round the `Proposer` is in, or of a later one, is a quorum, unless
there are parents already. -/
theorem isQuorum_of_quorate {parents : List Certificate} {round : ℕ}
    (hquorate : Quorate committee (messages ++ [(parents, round)]))
    (hnew : ∀ m ∈ messages, m.2 < round) : IsQuorum committee parents := by
  obtain ⟨-, hq | ⟨qs, hqs, -⟩⟩ := hquorate messages parents round List.prefix_rfl
  · exact hq
  · exact absurd (hnew _ hqs) (lt_irrefl _)

section

variable {parents : List Certificate} {round : UInt64}

/-- One more message does not touch the chain. -/
theorem chain_snoc (h : Chained committee messages s log) (m : List Certificate × ℕ) :
    IsChain committee (messages ++ [m]) (headers log) :=
  ⟨h.chain.increasing, fun x hx => (h.chain.parented x hx).mono (List.subset_append_left _ _)⟩

theorem origin_snoc (h : Chained committee messages s log) (m : List Certificate × ℕ) :
    ∀ p ∈ s.lastParents, p ∈ Certificate.genesis committee ∨ ∃ m' ∈ messages ++ [m], p ∈ m'.1 :=
  fun p hp => (h.origin p hp).imp_right fun ⟨m', hm', hpm⟩ => ⟨m', List.mem_append_left _ hm', hpm⟩

/-- Parents of a later round. -/
theorem jump (h : Chained committee messages s log) (hlt : s.round.toNat < round.toNat)
    (hquorate : Quorate committee (messages ++ [(parents, round.toNat)])) :
    Chained committee (messages ++ [(parents, round.toNat)])
      { s with round, lastParents := parents } log where
  chain := h.chain_snoc _
  made x hx := (h.made x hx).trans hlt.le
  read := by
    refine List.forall_mem_append.mpr ⟨fun m hm => (h.read m hm).trans hlt.le, fun m hm => ?_⟩
    rw [List.mem_singleton.mp hm]
  fresh hnil := by
    have hquorum := isQuorum_of_quorate hquorate fun m hm => (h.read m hm).trans_lt hlt
    exact absurd hnil hquorum.ne_nil
  round := (hquorate messages parents round.toNat List.prefix_rfl).1
  origin p hp := Or.inr ⟨_, List.mem_append_right _ List.mem_cons_self, hp⟩
  genesis hzero := by
    have hzero : round.toNat = 0 := hzero
    omega
  quorum _ _ := isQuorum_of_quorate hquorate fun m hm => (h.read m hm).trans_lt hlt

/-- Parents of an earlier round. -/
theorem ignore (h : Chained committee messages s log) (hlt : round.toNat < s.round.toNat) :
    Chained committee (messages ++ [(parents, round.toNat)]) s log where
  chain := h.chain_snoc _
  made := h.made
  read := by
    refine List.forall_mem_append.mpr ⟨h.read, fun m hm => ?_⟩
    rw [List.mem_singleton.mp hm]
    exact hlt.le
  fresh hnil := by
    refine List.forall_mem_append.mpr ⟨h.fresh hnil, fun m hm => ?_⟩
    rw [List.mem_singleton.mp hm]
    exact hlt
  round := h.round
  origin := h.origin_snoc _
  genesis := h.genesis
  quorum := h.quorum

/-- Parents of the round the `Proposer` is in: the first of them are a quorum. -/
theorem extend (h : Chained committee messages s log) (heq : round.toNat = s.round.toNat)
    (hquorate : Quorate committee (messages ++ [(parents, round.toNat)])) :
    Chained committee (messages ++ [(parents, round.toNat)])
      { s with lastParents := s.lastParents ++ parents } log where
  chain := h.chain_snoc _
  made := h.made
  read := by
    refine List.forall_mem_append.mpr ⟨h.read, fun m hm => ?_⟩
    rw [List.mem_singleton.mp hm]
    exact heq.le
  fresh hnil := by
    obtain ⟨hnone, hparents⟩ := List.append_eq_nil_iff.mp hnil
    have hquorum := isQuorum_of_quorate hquorate (heq ▸ h.fresh hnone)
    exact absurd hparents hquorum.ne_nil
  round := by
    refine List.forall_mem_append.mpr ⟨h.round, ?_⟩
    rw [← heq]
    exact (hquorate messages parents round.toNat List.prefix_rfl).1
  origin := List.forall_mem_append.mpr ⟨h.origin_snoc _, fun p hp =>
    Or.inr ⟨_, List.mem_append_right _ List.mem_cons_self, hp⟩⟩
  genesis hzero := List.subset_append_of_subset_left _ (h.genesis hzero)
  quorum hpos _ := by
    by_cases hnone : s.lastParents = []
    · have hquorum := isQuorum_of_quorate hquorate (heq ▸ h.fresh hnone)
      exact hquorum.mono (List.subset_append_right _ _)
    · exact (h.quorum hpos hnone).mono (List.subset_append_left _ _)

/-- **Parents from the core.** -/
theorem takeParents (h : Chained committee messages s log)
    (hquorate : Quorate committee (messages ++ [(parents, round.toNat)])) :
    Chained committee (messages ++ [(parents, round.toNat)])
      (proposer.takeParents parents round s).1
      (log ++ (proposer.takeParents parents round s).2) := by
  rw [Proposer.takeParents]
  split
  · next hlt =>
    obtain ⟨hround, hparents, hsent⟩ := prepareRound_eq round
    exact (h.jump hlt hquorate).of_eq hround hparents hsent
  · next hge =>
    split
    · next hlt =>
      rw [List.append_nil]
      exact h.ignore hlt
    · next hle =>
      have hge : ¬ s.round.toNat < round.toNat := hge
      have hle : ¬ round.toNat < s.round.toNat := hle
      rw [List.append_nil]
      exact h.extend (by omega) hquorate

end

/-- **One turn of the loop.** -/
theorem step {j : Input} (h : Chained committee messages s log) (hcount : proposer.CanCount s j)
    (hquorate : Quorate committee (messages ++ received [j])) :
    Chained committee (messages ++ received [j]) (proposer.step s j).1
      (log ++ (proposer.step s j).2) := by
  have hchecked := h.check hcount
  rw [Proposer.step]
  dsimp only
  rw [← List.append_assoc]
  obtain ⟨elapsed, branch⟩ := j
  cases branch with
  | parents parents round =>
    obtain ⟨hround, hparents⟩ := proposer.canAdvance_eq
      (proposer.takeParents parents round (proposer.check elapsed s).1).1
    have htaken := (hchecked.takeParents hquorate).of_eq hround hparents (w := []) rfl
    rw [List.append_nil] at htaken
    exact htaken
  | digest digest workerId =>
    rw [show received [⟨elapsed, .digest digest workerId⟩] = [] from rfl, List.append_nil]
    exact hchecked.of_eq rfl rfl rfl
  | timer =>
    rw [show received [⟨elapsed, .timer⟩] = [] from rfl, List.append_nil]
    exact hchecked.of_eq rfl rfl rfl

end Chained

/-- The state before the loop: the genesis are the parents. -/
theorem chained_init (proposer : Proposer) :
    Chained proposer.committee [] proposer.machine.init [] := by
  obtain ⟨hround, hparents, -⟩ := @prepareRound_eq _ proposer proposer.spawned 1
  have hspawned : Chained proposer.committee [] proposer.spawned [] :=
    { chain := ⟨List.Pairwise.nil, fun h hh => (by cases hh)⟩
      made := fun h hh => (by cases hh)
      read := fun m hm => (by cases hm)
      fresh := fun _ m hm => (by cases hm)
      round := fun p hp => by
        rw [Certificate.round, Header.round, Core.round_of_mem_genesis hp]
        rfl
      origin := fun p hp => Or.inl hp
      genesis := fun _ => List.Subset.refl _
      quorum := fun hpos => absurd rfl hpos }
  exact hspawned.of_eq hround hparents rfl

/-- **Every turn keeps the chain**, in a run that reads in order what the core hands out. -/
theorem chained_run {core : Core} (hcommittee : proposer.committee = core.committee)
    {is : List Core.Event} {js : List Input}
    (hreads : received js <+: Core.txProposer (core.machine.outputs is))
    (hcount : proposer.machine.Along proposer.CanCount js) :
    Chained core.committee (received js) (proposer.machine.state js)
      (proposer.machine.outputs js) := by
  have hquorate := core.quorate_run is
  induction js using List.reverseRecOn with
  | nil => exact hcommittee ▸ proposer.chained_init
  | append_singleton js j ih =>
    rw [received_snoc] at hreads ⊢
    rw [Mealy.state_snoc, Mealy.outputs_snoc]
    have hprev := ih ((List.prefix_append _ _).trans hreads)
      (hcount.of_prefix (List.prefix_append _ _))
    exact hprev.step hcount.last (hquorate.of_prefix hreads)

/-- **The headers of one `Proposer` are a chain**: for whatever the core receives and however what
it hands out is interleaved with digests, timers and silent rounds, as long as the rounds can be
counted. -/
theorem chain_of_headers (core : Core) (proposer : Proposer)
    (hcommittee : proposer.committee = core.committee) (is : List Core.Event) (js : List Input)
    (hreads : received js <+: Core.txProposer (core.machine.outputs is))
    (hcount : proposer.machine.Along proposer.CanCount js) :
    IsChain core.committee (received js) (headers (proposer.machine.outputs js)) ∧
      ((∀ m ∈ received js, m.2 = 0 → ∀ p ∈ m.1,
          p.digest ∈ (Certificate.genesis core.committee).map Certificate.digest) →
        ∀ h ∈ headers (proposer.machine.outputs js), h.round = 1 → h.parents
          = BTreeSet.collect ((Certificate.genesis core.committee).map Certificate.digest)) := by
  have hchain := (chained_run hcommittee hreads hcount).chain
  have hquorate := core.quorate_run is
  refine ⟨hchain, fun honly h hh hone => ?_⟩
  refine (hchain.parented h hh).eq_genesis hone honly fun m hm => ?_
  exact hquorate.round (hreads.subset hm)

/-! ## What the core relies on -/

theorem headers_select (proposer : Proposer) (s : State) (branch : Branch) :
    headers (proposer.select s branch).2 = [] := by
  cases branch with
  | parents parents round =>
    rw [select, takeParents]
    dsimp only
    split
    · exact (prepareRound_eq round).2.2
    · split <;> rfl
  | digest digest workerId => rfl
  | timer => rfl

/-- The headers made are ours. -/
theorem author_of_mem_headers (proposer : Proposer) (js : List Input) :
    ∀ h ∈ headers (proposer.machine.outputs js), h.author = proposer.name := by
  refine Mealy.invariant (P := fun _ _ log => ∀ h ∈ headers log, h.author = proposer.name)
    (fun h hh => (by cases hh)) (fun js j ih h hh => ?_) js
  rw [headers_append] at hh
  rcases List.mem_append.mp hh with hh | hh
  · exact ih h hh
  · have hstep : headers (proposer.step (proposer.machine.state js) j).2
        = headers (proposer.check j.elapsed (proposer.machine.state js)).2 := by
      rw [Proposer.step]
      dsimp only
      rw [headers_append, headers_select, List.append_nil]
    rw [show proposer.machine.step = proposer.step from rfl, hstep, Proposer.check] at hh
    split at hh
    · obtain ⟨-, -, hnone | ⟨x, hx, hauthor, -⟩⟩ :=
        proposer.propose_cases (proposer.machine.state js)
      · rw [hnone] at hh
        cases hh
      · rw [hx] at hh
        rw [List.mem_singleton.mp hh]
        exact hauthor
    · cases hh

theorem Parented.one_le_round {h : Header} (hh : Parented committee messages h) : 1 ≤ h.round := by
  obtain ⟨parents, -, hround, -, hquorum⟩ := hh
  by_contra hzero
  have hne := (hquorum (by omega)).ne_nil
  obtain ⟨p, hp⟩ := List.exists_mem_of_ne_nil parents hne
  have := (hround p hp).1
  omega

theorem digest_mem_handedOutDigests {log : List Core.Emission} {m : List Certificate × ℕ}
    (hm : m ∈ Core.txProposer log) {p : Certificate} (hp : p ∈ m.1) :
    p.digest ∈ Core.handedOutDigests log := by
  obtain ⟨e, he, heq⟩ := List.mem_filterMap.mp hm
  cases e <;> cases heq
  exact List.mem_flatMap.mpr ⟨_, he, List.mem_map_of_mem hp⟩

/-- **The core is fed as it relies on**: the next header of the `Proposer` is ours, of a later round
than those before, on parents that are the genesis or were handed out. -/
theorem admissible_ownHeader {core : Core} (hcommittee : proposer.committee = core.committee)
    (hname : proposer.name = core.name) {is : List Core.Event} {js : List Input} {h : Header}
    (hreads : received js <+: Core.txProposer (core.machine.outputs is))
    (hcount : proposer.machine.Along proposer.CanCount js)
    (hfed : Core.ownHeaders is ++ [h] <+: headers (proposer.machine.outputs js)) :
    core.Admissible is (.ownHeader h) ∧ core.Furnished is (.ownHeader h) := by
  have hchain := (chained_run hcommittee hreads hcount).chain
  have hmem : h ∈ headers (proposer.machine.outputs js) := hfed.subset (by simp)
  have hparented := hchain.parented h hmem
  have hincreasing := hchain.increasing.sublist hfed.sublist
  refine ⟨⟨?_, hparented.one_le_round, fun h' hh' => ?_⟩, trivial, fun d hd => ?_⟩
  · rw [proposer.author_of_mem_headers js h hmem, hname]
  · exact (List.pairwise_append.mp hincreasing).2.2 h' hh' h List.mem_cons_self
  · obtain ⟨parents, heq, hround, -⟩ := hparented
    have hd : d ∈ BTreeSet.collect (parents.map Certificate.digest) := heq ▸ hd
    obtain ⟨p, hp, rfl⟩ := List.mem_map.mp (BTreeSet.mem_collect.mp hd)
    rcases (hround p hp).2 with hgen | ⟨m, hm, hpm⟩
    · exact Or.inl (List.find?_isSome.mpr ⟨p, hgen, decide_eq_true rfl⟩)
    · exact Or.inr (digest_mem_handedOutDigests (hreads.subset hm) hpm)

end Proposer

namespace Proposer.Wrapped

open Sample

/-- The `Proposer` of the first of four authorities, with so many silent ones in each round. -/
def proposer (faults : ℕ) : Proposer where
  name := key 1
  committee := committee4
  member := by decide
  adversaryFaults := faults
  adversarySeed := 0
  pauseBatchesDuringSilence := false
  requestSignature digest := sign digest (key 1)
  headerSize := 32

/-- Certificates of the last round arrive between two expirations of the timer. -/
def lastRound : List Input :=
  [⟨true, .timer⟩, ⟨false, .parents ([2, 3, 4].map Core.LastRound.last) (-1)⟩, ⟨true, .timer⟩]

set_option maxRecDepth 100000 in
theorem headers_lastRound :
    received lastRound
      <+: Core.txProposer (Core.LastRound.core.machine.outputs Core.LastRound.events) ∧
    (headers ((proposer 0).machine.outputs lastRound)).map Header.round = [1, 0] := by
  decide +kernel

/-- **After the last round comes round zero.** -/
theorem rounds_restart : (proposer 0).committee = Core.LastRound.core.committee ∧
    received lastRound
      <+: Core.txProposer (Core.LastRound.core.machine.outputs Core.LastRound.events) ∧
    ¬ IsChain committee4 (received lastRound)
      (headers ((proposer 0).machine.outputs lastRound)) := by
  obtain ⟨hreads, hrounds⟩ := headers_lastRound
  refine ⟨rfl, hreads, fun h => ?_⟩
  have hincreasing := List.pairwise_map.mpr h.increasing
  rw [hrounds] at hincreasing
  exact absurd hincreasing (by decide)

/-- A certificate of a round, on no parents. -/
def orphan (round : UInt64) (author : ℕ) : Certificate :=
  certificate committee4 (key author) round []

/-- What the core receives: all certificates of round three and a quorum of round four. -/
def arrivals : List Core.Event :=
  ([2, 3, 4, 1].map (orphan 3) ++ [2, 3, 4].map (orphan 4)).map .certificate

/-- The `Proposer` jumps to round three, is silent in round four and proposes again in the fifth. -/
def silentRound : List Input :=
  [⟨true, .timer⟩, ⟨false, .parents ([2, 3, 4].map (orphan 3)) 3⟩, ⟨false, .parents [orphan 3 1] 3⟩,
    ⟨true, .parents ([2, 3, 4].map (orphan 4)) 4⟩, ⟨true, .timer⟩]

set_option maxRecDepth 100000 in
theorem headers_silentRound :
    received silentRound <+: Core.txProposer (Core.LastRound.core.machine.outputs arrivals) ∧
    (proposer 1).machine.Along (proposer 1).CanCount silentRound ∧
    (headers ((proposer 1).machine.outputs silentRound)).map Header.round = [1, 5] := by
  decide +kernel

theorem chain_silentRound :
    (headers ((proposer 1).machine.outputs silentRound)).map Header.round = [1, 5] ∧
    IsChain committee4 (received silentRound)
      (headers ((proposer 1).machine.outputs silentRound)) :=
  ⟨headers_silentRound.2.2, (chain_of_headers Core.LastRound.core (proposer 1) rfl arrivals
    silentRound headers_silentRound.1 headers_silentRound.2.1).1⟩

end Proposer.Wrapped

end Bullshark
