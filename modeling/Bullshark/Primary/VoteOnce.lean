import Bullshark.Primary.Traffic
import Bullshark.Primary.Sample

/-!
# Primary/VoteOnce — one vote per author and round

`last_voted` keeps a core from voting for two headers of one author and round, as long as it
remembers the round.  The clean-up forgets it, and only the network path then checks the round: a
header that waited for its batches comes back unchecked and gets a second vote
(`equivocates`).  Where the waiters loop back nothing of a round already collected, no two votes
ever disagree (`votes_agree`).
-/

namespace Bullshark

namespace Core

open Handler

/-- No two votes name the same round and author, and different headers. -/
def VotesAgree (votes : List Vote) : Prop :=
  ∀ v ∈ votes, ∀ v' ∈ votes, v.round = v'.round → v.origin = v'.origin → v.id = v'.id

instance (votes : List Vote) : Decidable (VotesAgree votes) :=
  inferInstanceAs (Decidable (∀ v ∈ votes, ∀ v' ∈ votes, _))

/-- A waiter loops back nothing of a round already garbage collected. -/
def FreshLoopback : Except Panic State → Event → Prop
  | .ok s, .headerLoopback h => s.gcRound ≤ h.round
  | .ok s, .certificateLoopback c => s.gcRound ≤ c.round
  | _, _ => True

instance (r : Except Panic State) (e : Event) : Decidable (FreshLoopback r e) :=
  match r, e with
  | .ok s, .headerLoopback h => inferInstanceAs (Decidable (s.gcRound ≤ h.round))
  | .ok s, .certificateLoopback c => inferInstanceAs (Decidable (s.gcRound ≤ c.round))
  | .ok _, .header _ => inferInstanceAs (Decidable True)
  | .ok _, .vote _ => inferInstanceAs (Decidable True)
  | .ok _, .certificate _ => inferInstanceAs (Decidable True)
  | .ok _, .ownHeader _ => inferInstanceAs (Decidable True)
  | .ok _, .batch _ _ => inferInstanceAs (Decidable True)
  | .ok _, .committed _ => inferInstanceAs (Decidable True)
  | .error _, _ => inferInstanceAs (Decidable True)

variable [Crypto]

/-- The votes for others are on record from the horizon on, and those for us are on our headers. -/
structure Recorded (core : Core) (is : List Event) (s : State) (log : List Emission) : Prop where
  provenance : core.Provenance is s log
  horizon : s.Horizon core.gcDepth
  recorded : ∀ v ∈ votes log, v.origin ≠ core.name → s.gcRound ≤ v.round →
    v.origin ∈ s.votedAt v.round
  own : ∀ v ∈ votes log, v.origin = core.name →
    (∃ h ∈ ownHeaders is, v.round = h.round ∧ v.id = h.id) ∨ (v.round = 0 ∧ v.id = default)
  once : ∀ v ∈ votes log, ∀ v' ∈ votes log, v.origin ≠ core.name → v.round = v'.round →
    v.origin = v'.origin → v.id = v'.id

namespace Recorded

variable {core : Core} {is : List Event} {s s' : State} {log w : List Emission}

/-- A header of another author that a step hands over is not below the horizon. -/
theorem gcRound_le_of_hands {e : Event} {h : Header} (hadm : core.Admissible is e)
    (hfresh : FreshLoopback (.ok s) e) (hh : core.HandsHeader s e h) (hname : h.author ≠ core.name) :
    s.gcRound ≤ h.round := by
  cases e with
  | header x =>
    obtain ⟨rfl, hs⟩ := hh
    exact (sanitizeHeader_eq_ok hs).1
  | certificate c =>
    obtain ⟨rfl, hs⟩ := hh
    exact (sanitizeCertificate_eq_ok hs).1
  | headerLoopback x =>
    cases hh
    exact hfresh
  | certificateLoopback c =>
    cases hh
    exact hfresh
  | ownHeader x =>
    cases hh
    exact absurd hadm.1 hname
  | vote _ => cases hh
  | batch _ _ => cases hh
  | committed _ => cases hh

omit [Crypto] in
/-- An effect that creates no vote and forgets none. -/
theorem of_votes_eq (h : core.Recorded is s log) (hp : core.Provenance is s' (log ++ w))
    (hsame : SameRounds s s') (hvotes : votes w = []) (hvoted : s'.votedAt = s.votedAt) :
    core.Recorded is s' (log ++ w) := by
  have hlog : votes (log ++ w) = votes log := by
    rw [votes, List.filterMap_append, ← votes, ← votes, hvotes, List.append_nil]
  refine ⟨hp, ?_, ?_, ?_, ?_⟩
  · rw [State.Horizon, hsame.gcRound, hsame.consensusRound]
    exact h.horizon
  · rw [hlog, hsame.gcRound, hvoted]
    exact h.recorded
  · rw [hlog]
    exact h.own
  · rw [hlog]
    exact h.once

/-- **A new vote**: the header is not below the horizon and its author not on record, or it is
ours. -/
theorem vote (h : core.Recorded is s log) {x : Header}
    (hp : core.Provenance is (s.markVoted x)
      (log ++ [.created (Vote.new x core.name core.requestSignature)]))
    (hours : core.Ours is x) (hround : x.author ≠ core.name → s.gcRound ≤ x.round)
    (hnew : x.author ∉ s.votedAt x.round) : core.Recorded is (s.markVoted x)
      (log ++ [.created (Vote.new x core.name core.requestSignature)]) := by
  have hlog : ∀ v, v ∈ votes (log ++ [.created (Vote.new x core.name core.requestSignature)]) ↔
      v ∈ votes log ∨ v = Vote.new x core.name core.requestSignature := by
    intro v
    rw [mem_votes, List.mem_append, ← mem_votes]
    simp
  have hold : ∀ v ∈ votes log, v.origin ≠ core.name → v.origin = x.author → v.round ≠ x.round := by
    intro v hv hne horigin hr
    refine hnew (horigin ▸ hr ▸ h.recorded v hv hne ?_)
    exact hr ▸ hround (horigin ▸ hne)
  refine ⟨hp, h.horizon, ?_, ?_, ?_⟩
  · intro v hv hne hgc
    rw [State.votedAt_markVoted]
    rcases (hlog v).mp hv with hv | rfl
    · have hmem := h.recorded v hv hne hgc
      split
      · exact Finset.mem_insert_of_mem hmem
      · exact hmem
    · rw [Vote.new_origin, Vote.new_round, if_pos rfl]
      exact Finset.mem_insert_self _ _
  · intro v hv hname
    rcases (hlog v).mp hv with hv | rfl
    · exact h.own v hv hname
    · exact (hours hname).imp (fun hx => ⟨x, hx, rfl, rfl⟩) fun hx => hx
  · intro v hv v' hv' hne hr horigin
    rcases (hlog v).mp hv with hv | rfl
    · rcases (hlog v').mp hv' with hv' | rfl
      · exact h.once v hv v' hv' hne hr horigin
      · exact absurd hr (hold v hv hne horigin)
    · rcases (hlog v').mp hv' with hv' | rfl
      · exact absurd hr.symm (hold v' hv' (horigin ▸ hne) horigin.symm)
      · rfl

/-- **What is on record stays so, in every run that loops back nothing too old.** -/
theorem invariant (core : Core) : core.Invariant
    (fun is e => core.AdmissibleRun (is ++ [e]) ∧ FreshLoopback (core.machine.state is) e)
    core.Recorded where
  init := ⟨(Provenance.invariant core).init, Nat.zero_le _, by simp [votes], by simp [votes],
    by simp [votes]⟩
  mono hok h := ⟨(Provenance.invariant core).mono hok.1 h.provenance, h.horizon, h.recorded,
    fun v hv hname => (h.own v hv hname).imp_left fun ⟨x, hx, hv⟩ => ⟨x, ownHeaders_mono hx, hv⟩,
    h.once⟩
  cleanUp {_ s _} h := ⟨(Provenance.invariant core).cleanUp h.provenance, h.horizon.cleanUp.1,
    fun v hv hne hgc => by
      rw [State.votedAt_cleanUp hgc]
      exact h.recorded v hv hne (h.horizon.cleanUp.2.trans hgc), h.own, h.once⟩
  batch d w h := ⟨(Provenance.invariant core).batch d w h.provenance, h.horizon, h.recorded, h.own,
    h.once⟩
  committed c h := ⟨(Provenance.invariant core).committed c h.provenance,
    h.horizon.trans (Nat.sub_le_sub_right (le_max_left _ _) _), h.recorded, h.own, h.once⟩
  propose {is s x} hs hok h := by
    have hvotes : ∀ v, v ∈ votes (core.machine.outputs is ++
        [.broadcastHeader core.othersAddresses x]) ↔ v ∈ votes (core.machine.outputs is) := by
      intro v
      rw [mem_votes, List.mem_append, mem_votes]
      simp
    refine ⟨(Provenance.invariant core).propose hs hok.1 h.provenance, h.horizon, ?_, ?_, ?_⟩
    · exact fun v hv => h.recorded v ((hvotes v).mp hv)
    · exact fun v hv hname => (h.own v ((hvotes v).mp hv) hname).imp_left
        fun ⟨x, hx, hv⟩ => ⟨x, ownHeaders_mono hx, hv⟩
    · exact fun v hv v' hv' => h.once v ((hvotes v).mp hv) v' ((hvotes v').mp hv')
  effect {is e s₀ s log w s'} hs₀ hok h₀ hwithin h hE := by
    have hp := (Provenance.invariant core).effect hs₀ hok.1 h₀.provenance hwithin h.provenance hE
    have hfresh : FreshLoopback (.ok s₀) e := hs₀ ▸ hok.2
    have hsame := hE.sameRounds
    cases hE with
    | @vote x hh haccepts _ hnew =>
      refine h.vote hp ?_ (fun hname => ?_) hnew
      · rcases hh with hh | rfl
        · exact h₀.provenance.hands hok.1 hh.1
        · exact h.provenance.ours_current
      · rcases hh with hh | rfl
        · rw [hwithin.same.gcRound, started_gcRound]
          exact gcRound_le_of_hands (hok.1 is e List.prefix_rfl) hfresh hh.1 hname
        · rcases h.provenance.current with hdefault | hown
          · exact absurd (by rw [hdefault]; rfl) haccepts.parents_ne_nil
          · exact absurd (hok.1.own hown).1 hname
    | accept hc =>
      refine h.of_votes_eq hp hsame ?_ rfl
      rw [List.eq_nil_iff_forall_not_mem]
      intro v hv
      obtain ⟨ps, hps⟩ | hps := mem_accepted (mem_votes.mp hv) <;> cases hps
    | _ => exact h.of_votes_eq hp hsame rfl rfl

end Recorded

/-- **One vote per author and round**: in every run in which the waiters loop back nothing of a
round already garbage collected, the votes created agree. -/
theorem votes_agree (core : Core) (is : List Event) (hrun : core.AdmissibleRun is)
    (hfresh : core.machine.Along FreshLoopback is) : VotesAgree (votes (core.machine.outputs is)) := by
  obtain ⟨s, hrec, -⟩ := (Recorded.invariant core).run fun pre e hpre =>
    ⟨hrun.of_prefix hpre, hfresh pre e hpre⟩
  intro v hv v' hv' hr horigin
  by_cases hname : v.origin = core.name
  · rcases hrec.own v hv hname with ⟨x, hx, hxr, hxid⟩ | ⟨h0, hid⟩
    · rcases hrec.own v' hv' (horigin ▸ hname) with ⟨y, hy, hyr, hyid⟩ | ⟨h0, -⟩
      · have hxy : x = y := hrun.eq_of_round_eq hx hy (by rw [← hxr, hr, hyr])
        rw [hxid, hyid, hxy]
      · have := (hrun.own hx).2
        omega
    · rcases hrec.own v' hv' (horigin ▸ hname) with ⟨y, hy, hyr, -⟩ | ⟨-, hid'⟩
      · have := (hrun.own hy).2
        omega
      · rw [hid, hid']
  · exact hrec.once v hv v' hv' hname hr horigin

end Core

namespace Core.LateBatch

open Sample

/-- An authority of stake one with one worker. -/
def staffed : Authority :=
  let address : SocketAddr := ⟨.v4 0, 0⟩
  { authority 1 with workers := AList.insert 0 ⟨address, address, address⟩ ∅ }

def committee : Committee :=
  ⟨⟨[(key 1, staffed), (key 2, staffed), (key 3, staffed), (key 4, staffed)], by decide⟩⟩

/-- The core of the first authority. -/
def core : Core := ⟨key 1, committee, 50, fun digest => sign digest (key 1)⟩

def batch : Digest := ⟨7⟩

def genesisDigests : List Digest := (Certificate.genesis committee).map Certificate.digest

/-- The header of the second authority for round one... -/
def voted : Header := header (key 2) 1 .empty genesisDigests

/-- ...and another one, whose batch is late. -/
def suspended : Header := header (key 2) 1 ⟨[(batch, 0)], by decide⟩ genesisDigests

/-- A certificate consensus orders at round 52. -/
def ordered : Certificate := certificate committee (key 3) 52 []

/-- The suspended header comes back once round one is garbage collected. -/
def late : List Event :=
  [.header suspended, .header voted, .batch batch 0, .committed ordered, .header voted,
    .headerLoopback suspended]

/-- It comes back before. -/
def early : List Event :=
  [.header suspended, .header voted, .batch batch 0, .headerLoopback suspended,
    .committed ordered, .header voted]

set_option maxRecDepth 100000 in
theorem votes_late_early :
    (core.AdmissibleRun late ∧ ¬ VotesAgree (votes (core.machine.outputs late))) ∧
    (core.AdmissibleRun early ∧ core.machine.Along FreshLoopback early) ∧
    (votes (core.machine.outputs early)).map Vote.id = [voted.id] := by
  decide +kernel

/-- **The core votes for two headers of one author and round.** -/
theorem equivocates :
    core.AdmissibleRun late ∧ ¬ VotesAgree (votes (core.machine.outputs late)) :=
  votes_late_early.1

theorem votes_agree_early : (core.AdmissibleRun early ∧ core.machine.Along FreshLoopback early) ∧
    (votes (core.machine.outputs early)).map Vote.id = [voted.id] ∧
    VotesAgree (votes (core.machine.outputs early)) := by
  obtain ⟨-, hrun, hids⟩ := votes_late_early
  exact ⟨hrun, hids, votes_agree core early hrun.1 hrun.2⟩

end Core.LateBatch

end Bullshark
