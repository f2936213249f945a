import Bullshark.Primary.OwnVote

/-!
# Primary/Genuine — the certificates the core assembles

The aggregator keeps bare signatures and pairs them with whatever the current header is when the
quorum completes.  A vote from the network is checked against the current header; our own is not.
It is for the current header all the same, because a header of ours that comes back is on record as
voted for (`Settled`) — unless a certificate in our name that merely looks like our genesis
certificate brings one that never was ours (`foreign_vote`).  Where none does, what is assembled is
genuine, and once per header (`assembled_genuine`).
-/

namespace Bullshark

/-! ## A quorum is reached once -/

namespace VotesAggregator

variable {aggregator aggregator' : VotesAggregator} {vote : Vote} {committee : Committee}
  {header : Header} {certificate : Option Certificate} {made : Prop}

/-- The stake of some votes, without wrapping. -/
def stakeOf (committee : Committee) (votes : List (PublicKey × Signature)) : ℕ :=
  (votes.map fun v => committee.weight v.1).sum

theorem stakeOf_append (votes votes' : List (PublicKey × Signature)) :
    stakeOf committee (votes ++ votes') = stakeOf committee votes + stakeOf committee votes' := by
  rw [stakeOf, List.map_append, List.sum_append]
  rfl

theorem stakeOf_eq {votes : List (PublicKey × Signature)} (hnd : (votes.map Prod.fst).Nodup) :
    stakeOf committee votes = committee.stakeOf (votes.map Prod.fst).toFinset := by
  rw [Committee.stakeOf, List.sum_toFinset _ hnd, List.map_map]
  rfl

theorem stakeOf_le {votes : List (PublicKey × Signature)} (hnd : (votes.map Prod.fst).Nodup) :
    stakeOf committee votes ≤ committee.totalStake :=
  (stakeOf_eq hnd).le.trans (Committee.stakeOf_le_totalStake _)

/-- Where no certificate was made, the weight is that of all votes; where one was, the votes it was
made of are a quorum, and the weight is that of the others. -/
def Tally (aggregator : VotesAggregator) (committee : Committee) (made : Prop) : Prop :=
  (¬ made ∧ aggregator.weight.toNat = stakeOf committee aggregator.votes) ∨
    ∃ first rest, aggregator.votes = first ++ rest ∧
      committee.quorumThreshold.toNat ≤ stakeOf committee first ∧
      aggregator.weight.toNat = stakeOf committee rest

theorem tally_new (h : ¬ made) : new.Tally committee made := Or.inl ⟨h, rfl⟩

/-- One more vote, added without wrapping. -/
theorem toNat_weight_add (htotal : committee.totalStake < 2 ^ 31)
    {votes votes' : List (PublicKey × Signature)}
    (hvotes : aggregator'.votes = votes' ++ votes ++ [(vote.author, vote.signature)])
    (hweight : aggregator.weight.toNat = stakeOf committee votes) :
    (aggregator.weight + committee.stake vote.author).toNat
      = stakeOf committee (votes ++ [(vote.author, vote.signature)]) := by
  have hsum : aggregator.weight.toNat + (committee.stake vote.author).toNat
      = stakeOf committee (votes ++ [(vote.author, vote.signature)]) := by
    rw [stakeOf_append, hweight]
    simp [stakeOf, Committee.weight]
  have hle : stakeOf committee (votes ++ [(vote.author, vote.signature)]) ≤ committee.totalStake := by
    refine stakeOf_le (aggregator'.nodup.sublist (List.Sublist.map _ ?_))
    rw [hvotes, List.append_assoc]
    exact List.sublist_append_right _ _
  rw [UInt32.toNat_add, hsum]
  exact Nat.mod_eq_of_lt (by omega)

/-- **A vote keeps the tally, and completes a quorum once.** -/
theorem Tally.append (htotal : committee.totalStake < 2 ^ 31) (ht : aggregator.Tally committee made)
    (h : aggregator.append vote committee header = .ok (aggregator', certificate)) :
    (certificate = none ∧ aggregator'.Tally committee made) ∨
      (¬ made ∧ certificate ≠ none ∧ aggregator'.Tally committee True) := by
  obtain ⟨-, -, hvotes, hcases⟩ := append_eq_ok h
  rcases ht with ⟨hmade, hweight⟩ | ⟨first, rest, hsplit, hfirst, hweight⟩
  · have hall : aggregator'.votes
        = [] ++ aggregator.votes ++ [(vote.author, vote.signature)] := hvotes
    have hadd := toNat_weight_add htotal hall hweight
    rw [← hvotes] at hadd
    rcases hcases with ⟨hq, hzero, rfl⟩ | ⟨-, hsum, rfl⟩
    · refine Or.inr ⟨hmade, by simp, Or.inr ⟨aggregator'.votes, [], (List.append_nil _).symm, ?_, ?_⟩⟩
      · exact hadd ▸ UInt32.le_iff_toNat_le.mp hq
      · rw [hzero]
        rfl
    · exact Or.inl ⟨rfl, Or.inl ⟨hmade, by rw [hsum, hadd]⟩⟩
  · have hvotes' : aggregator'.votes = first ++ rest ++ [(vote.author, vote.signature)] := by
      rw [hvotes, hsplit]
    have hadd := toNat_weight_add htotal hvotes' hweight
    rw [List.append_assoc] at hvotes'
    rcases hcases with ⟨hq, -, -⟩ | ⟨-, hsum, rfl⟩
    · have hle : stakeOf committee aggregator'.votes ≤ committee.totalStake :=
        stakeOf_le aggregator'.nodup
      have hquorum := UInt32.le_iff_toNat_le.mp hq
      rw [hvotes', stakeOf_append] at hle
      rw [hadd] at hquorum
      have := Committee.toNat_quorumThreshold htotal
      omega
    · exact Or.inl ⟨rfl, Or.inr ⟨first, _, hvotes', hfirst, by rw [hsum, hadd]⟩⟩

end VotesAggregator

namespace Core

open Handler

section

variable [Crypto]

/-! ## Our own vote -/

/-- The certificates assembled. -/
def assembledCertificates (log : List Emission) : List Certificate :=
  log.filterMap fun
    | .assembled _ certificate => some certificate
    | _ => none

variable {core : Core} {is : List Event} {e : Event} {s₀ s s' : State} {log w : List Emission}
  {c : Certificate} {h : Header}

omit [Crypto] in
theorem mem_assembledCertificates : c ∈ assembledCertificates log ↔ ∃ a, .assembled a c ∈ log := by
  rw [assembledCertificates, List.mem_filterMap]
  constructor
  · rintro ⟨x, hx, heq⟩
    cases x <;> cases heq
    exact ⟨_, hx⟩
  · rintro ⟨a, ha⟩
    exact ⟨_, ha, rfl⟩

/-- **A header of ours that a step votes for is the current one**: any other was voted for or
rejected before. -/
theorem eq_current_of_votable (hrun : core.SuppliedRun (is ++ [e]))
    (hs₀ : core.machine.state is = .ok s₀) (hh : (core.given s₀ e).votable h)
    (hname : h.author = core.name) : h = (started s₀ e).currentHeader := by
  have hpre : core.SuppliedRun is := hrun.of_prefix (List.prefix_append _ _)
  have hstored := (Stored.invariant core).alive (fun pre e' hp => hpre.of_prefix hp) hs₀
  have hsettled := settled_run hpre hs₀
  obtain ⟨hhands, hadmits⟩ := hh
  have hold : (∀ x, e ≠ .ownHeader x) → s₀.gcRound ≤ h.round → False := by
    intro hown hround
    have hadmits' : core.Admits (started s₀ e) h := hadmits
    rw [started_of_ne hown] at hadmits'
    rcases hstored.hands hrun hhands hname with hmem | hnil
    · rcases hsettled.resolved h (ownHeaders_of_ne hown hmem) hround with hvoted | hno
      · exact hadmits'.new (hname ▸ hvoted)
      · exact hno hadmits'.accepts
    · exact hadmits'.accepts.parents_ne_nil hnil
  cases e with
  | ownHeader x => exact hhands
  | header x =>
    obtain ⟨rfl, hok⟩ := hhands
    exact (hold (by simp) (sanitizeHeader_eq_ok hok).1).elim
  | certificate x =>
    obtain ⟨rfl, hok⟩ := hhands
    exact (hold (by simp) (sanitizeCertificate_eq_ok hok).1).elim
  | headerLoopback x =>
    cases hhands
    obtain ⟨m, hm, heq⟩ := List.mem_filterMap.mp (hrun.admissible is _ List.prefix_rfl)
    exact absurd hname (hstored.waiting m hm _ (by cases m <;> cases heq <;> rfl)).2
  | certificateLoopback x =>
    cases hhands
    exact absurd hname (hstored.waiting _ (hrun.admissible is _ List.prefix_rfl) _ rfl).2
  | _ => cases hhands

/-! ## Genuine certificates -/

/-- The vote is by an authority, on exactly this header: it was received and verified, or is our
own. -/
def CastOn (core : Core) (is : List Event) (header : Header) (vote : PublicKey × Signature) : Prop :=
  0 < core.committee.stake vote.1 ∧ ∃ v : Vote, (v.author, v.signature) = vote ∧
    v.id = header.id ∧ v.round = header.round ∧ v.origin = header.author ∧
    ((.vote v ∈ is ∧ v.verify core.committee = .ok ()) ∨
      v = Vote.new header core.name core.requestSignature)

/-- The votes of the certificate are by distinct authorities of the committee, have a quorum of
stake, and were cast on exactly its header. -/
structure Genuine (core : Core) (is : List Event) (c : Certificate) : Prop where
  distinct : (c.votes.map Prod.fst).Nodup
  authorities : ∀ v ∈ c.votes, v.1 ∈ core.committee.authorities.keys
  quorum : core.committee.quorumThreshold.toNat
    ≤ core.committee.stakeOf (c.votes.map Prod.fst).toFinset
  cast : ∀ v ∈ c.votes, core.CastOn is c.header v

theorem CastOn.mono {vote : PublicKey × Signature} (hv : core.CastOn is h vote) :
    core.CastOn (is ++ [e]) h vote := by
  obtain ⟨hpos, v, heq, hid, hround, horigin, hv⟩ := hv
  exact ⟨hpos, v, heq, hid, hround, horigin, hv.imp_left fun h => ⟨List.mem_append_left _ h.1, h.2⟩⟩

theorem Genuine.mono (hc : core.Genuine is c) : core.Genuine (is ++ [e]) c :=
  ⟨hc.distinct, hc.authorities, hc.quorum, fun v hv => (hc.cast v hv).mono⟩

/-- A vote that is counted was cast on the current header. -/
theorem castOn_of_counted (hrun : core.SuppliedRun (is ++ [e]))
    (hname : 0 < core.committee.stake core.name) (hs₀ : core.machine.state is = .ok s₀)
    (hsame : SameRounds (started s₀ e) s) {v : Vote}
    (hv : core.HandsVote s₀ e v ∨ core.OwnVote (core.given s₀ e).votable s v) :
    core.CastOn (is ++ [e]) s.currentHeader (v.author, v.signature) := by
  rcases hv with hv | ⟨x, hx, -, hauthor, rfl⟩
  · cases e with
    | vote y =>
      obtain ⟨rfl, hok⟩ := hv
      have hcur : s.currentHeader = s₀.currentHeader := hsame.currentHeader
      obtain ⟨hid, horigin, hround⟩ := sanitizeVote_eq_ok hok
      obtain ⟨-, hok⟩ := Except.bind_unit_eq_ok_iff.mp hok
      obtain ⟨-, hverify⟩ := Except.bind_unit_eq_ok_iff.mp hok
      rw [hcur]
      exact ⟨(Vote.verify_eq_ok_iff.mp hverify).1, v, rfl, hid, hround, horigin,
        Or.inl ⟨List.mem_append_right _ List.mem_cons_self, hverify⟩⟩
    | _ => cases hv
  · have hcur : x = s.currentHeader := by
      rcases hx with hx | hx
      · exact (eq_current_of_votable hrun hs₀ hx hauthor).trans hsame.currentHeader.symm
      · exact hx
    rw [← hcur]
    exact ⟨hname, _, rfl, rfl, rfl, rfl, Or.inr rfl⟩

/-- What was counted for the current header, and what was assembled. -/
structure Counted (core : Core) (is : List Event) (s : State) (log : List Emission) : Prop where
  cast : ∀ v ∈ s.votesAggregator.votes, core.CastOn is s.currentHeader v
  tally : s.votesAggregator.Tally core.committee
    (∃ c ∈ assembledCertificates log, c.header = s.currentHeader)
  genuine : ∀ c ∈ assembledCertificates log, core.Genuine is c
  origin : ∀ c ∈ assembledCertificates log, c.header = default ∨ c.header ∈ ownHeaders is
  once : ((assembledCertificates log).map Certificate.header).Nodup

namespace Counted

/-- Messages other than an assembled certificate, and changes that keep the votes and the header. -/
theorem of_eq (hc : core.Counted is s log) (hagg : s'.votesAggregator = s.votesAggregator)
    (hcur : s'.currentHeader = s.currentHeader) (hw : assembledCertificates w = []) :
    core.Counted is s' (log ++ w) := by
  have hlog : assembledCertificates (log ++ w) = assembledCertificates log := by
    rw [assembledCertificates, List.filterMap_append]
    exact (congrArg (assembledCertificates log ++ ·) hw).trans (List.append_nil _)
  refine ⟨?_, ?_, ?_, ?_, ?_⟩
  · rw [hagg, hcur]
    exact hc.cast
  · rw [hagg, hcur, hlog]
    exact hc.tally
  · rw [hlog]
    exact hc.genuine
  · rw [hlog]
    exact hc.origin
  · rw [hlog]
    exact hc.once

/-- The votes collected, after one more. -/
theorem cast_append (hc : core.Counted is s log) {v : Vote} {aggregator : VotesAggregator}
    {certificate : Option Certificate}
    (happend : s.votesAggregator.append v core.committee s.currentHeader
      = .ok (aggregator, certificate))
    (hv : core.CastOn is s.currentHeader (v.author, v.signature)) :
    ∀ x ∈ aggregator.votes, core.CastOn is s.currentHeader x := by
  obtain ⟨-, -, hvotes, -⟩ := VotesAggregator.append_eq_ok happend
  intro x hx
  rw [hvotes] at hx
  rcases List.mem_append.mp hx with hx | hx
  · exact hc.cast x hx
  · rw [List.mem_singleton.mp hx]
    exact hv

/-- **A certificate is assembled.** -/
theorem certify (htotal : core.committee.totalStake < 2 ^ 31) (hc : core.Counted is s log)
    (hcurrent : s.currentHeader = default ∨ s.currentHeader ∈ ownHeaders is) {v : Vote}
    {aggregator : VotesAggregator} {c : Certificate}
    (happend : s.votesAggregator.append v core.committee s.currentHeader
      = .ok (aggregator, some c))
    (hv : core.CastOn is s.currentHeader (v.author, v.signature)) (a : List SocketAddr) :
    core.Counted is (s.setVotesAggregator aggregator) (log ++ [.assembled a c]) := by
  have hcast := hc.cast_append happend hv
  have hlog : assembledCertificates (log ++ [.assembled a c]) = assembledCertificates log ++ [c] := by
    rw [assembledCertificates, List.filterMap_append]
    rfl
  have hheader := VotesAggregator.header_of_append happend
  rcases hc.tally.append htotal happend with ⟨hnone, -⟩ | ⟨hmade, -, htally⟩
  · cases hnone
  · obtain ⟨-, -, -, ⟨hq, -, hcert⟩ | ⟨-, -, hcert⟩⟩ := VotesAggregator.append_eq_ok happend
    · have hvotes : c.votes = aggregator.votes := by
        cases hcert
        rfl
      have hgenuine : core.Genuine is c := by
        refine ⟨hvotes ▸ aggregator.nodup, fun x hx => ?_, ?_, fun x hx => ?_⟩
        · by_contra hnot
          have hpos := UInt32.lt_iff_toNat_lt.mp (hcast x (hvotes ▸ hx)).1
          have hzero : core.committee.weight x.1 = 0 := Committee.weight_eq_zero hnot
          rw [Committee.weight] at hzero
          exact absurd hpos (by simp [hzero])
        · rcases htally with ⟨hno, -⟩ | ⟨first, rest, hsplit, hfirst, -⟩
          · exact absurd trivial hno
          · rw [hvotes, ← VotesAggregator.stakeOf_eq aggregator.nodup, hsplit,
              VotesAggregator.stakeOf_append]
            exact hfirst.trans (Nat.le_add_right _ _)
        · rw [hheader]
          exact hcast x (hvotes ▸ hx)
      refine ⟨hcast, ?_, ?_, ?_, ?_⟩
      · have hmade' : (∃ x ∈ assembledCertificates (log ++ [.assembled a c]),
            x.header = s.currentHeader) = True :=
          eq_true ⟨c, hlog ▸ List.mem_append_right _ List.mem_cons_self, hheader⟩
        change aggregator.Tally core.committee (∃ x ∈ assembledCertificates
          (log ++ [.assembled a c]), x.header = s.currentHeader)
        rw [hmade']
        exact htally
      · rw [hlog]
        exact List.forall_mem_append.mpr ⟨hc.genuine, by simpa using hgenuine⟩
      · rw [hlog]
        refine List.forall_mem_append.mpr ⟨hc.origin, fun x hx => ?_⟩
        rw [List.mem_singleton.mp hx, hheader]
        exact hcurrent
      · rw [hlog, List.map_append, List.nodup_append]
        refine ⟨hc.once, List.nodup_singleton _, fun x hx y hy hxy => ?_⟩
        obtain ⟨z, hz, rfl⟩ := List.mem_map.mp hx
        have hy' : y = c.header := by simpa using hy
        exact hmade ⟨z, hz, hxy.trans (hy'.trans hheader)⟩
    · cases hcert

/-- The effects of a turn. -/
theorem effect (hname : 0 < core.committee.stake core.name)
    (htotal : core.committee.totalStake < 2 ^ 31) (hrun : core.SuppliedRun (is ++ [e]))
    (hs₀ : core.machine.state is = .ok s₀) (hwithin : core.Within is s₀ e s log)
    (hstored : core.Stored (is ++ [e]) s log) (h : core.Counted (is ++ [e]) s log)
    (hE : core.TurnEffect s₀ e s log w s') : core.Counted (is ++ [e]) s' (log ++ w) := by
  cases hE with
  | @count v aggregator hv happend =>
    have hcast := castOn_of_counted hrun hname hs₀ hwithin.same hv
    rw [List.append_nil]
    rcases h.tally.append htotal happend with ⟨-, htally⟩ | ⟨-, hsome, -⟩
    · exact ⟨h.cast_append happend hcast, htally, h.genuine, h.origin, h.once⟩
    · exact absurd rfl hsome
  | certify hv happend =>
    have hcast := castOn_of_counted hrun hname hs₀ hwithin.same hv
    exact h.certify htotal hstored.current happend hcast _
  | accept _ =>
    refine h.of_eq rfl rfl (List.eq_nil_iff_forall_not_mem.mpr fun x hx => ?_)
    obtain ⟨a, hx⟩ := mem_assembledCertificates.mp hx
    obtain ⟨ps, hps⟩ | hps := mem_accepted hx <;> cases hps
  | _ => exact h.of_eq rfl rfl rfl

/-- **What is assembled is genuine, in every run.** -/
theorem invariant (core : Core) (hname : 0 < core.committee.stake core.name)
    (htotal : core.committee.totalStake < 2 ^ 31) :
    core.Invariant (fun is e => core.SuppliedRun (is ++ [e]))
      (fun is s log => core.Stored is s log ∧ core.Counted is s log) where
  init := ⟨(Stored.invariant core).init, fun v hv => (by cases hv),
    VotesAggregator.tally_new (by simp [assembledCertificates]), fun c hc => (by cases hc),
    fun c hc => (by cases hc), List.nodup_nil⟩
  mono hok h := ⟨(Stored.invariant core).mono hok h.1, fun v hv => (h.2.cast v hv).mono, h.2.tally,
    fun c hc => (h.2.genuine c hc).mono, fun c hc => (h.2.origin c hc).imp_right ownHeaders_mono,
    h.2.once⟩
  cleanUp {is s out} h := by
    refine ⟨(Stored.invariant core).cleanUp h.1, ?_⟩
    have hsame := h.2.of_eq (w := []) (State.cleanUp_eq s core.gcDepth).2.2.1
      (State.cleanUp_eq s core.gcDepth).2.1 rfl
    rwa [List.append_nil] at hsame
  batch d w h := ⟨(Stored.invariant core).batch d w h.1,
    ⟨h.2.cast, h.2.tally, h.2.genuine, h.2.origin, h.2.once⟩⟩
  committed c h := ⟨(Stored.invariant core).committed c h.1,
    ⟨h.2.cast, h.2.tally, h.2.genuine, h.2.origin, h.2.once⟩⟩
  propose {is s x} hs hok h := by
    refine ⟨(Stored.invariant core).propose hs hok h.1, ?_⟩
    obtain ⟨-, hround, hlater⟩ := hok.admissible is _ List.prefix_rfl
    have hnew : ∀ c ∈ assembledCertificates (core.machine.outputs is), c.header ≠ x := by
      rintro c hc rfl
      rcases h.2.origin c hc with hdefault | hmem
      · rw [hdefault] at hround
        exact absurd hround (by decide)
      · exact absurd (hlater _ hmem) (lt_irrefl _)
    have hlog : assembledCertificates (core.machine.outputs is ++
        [.broadcastHeader core.othersAddresses x]) = assembledCertificates (core.machine.outputs is) := by
      rw [assembledCertificates, List.filterMap_append]
      exact List.append_nil _
    refine ⟨fun v hv => (by cases hv), VotesAggregator.tally_new ?_, ?_, ?_, ?_⟩
    · rw [hlog]
      rintro ⟨c, hc, heq⟩
      exact hnew c hc heq
    · rw [hlog]
      exact fun c hc => (h.2.genuine c hc).mono
    · rw [hlog]
      exact fun c hc => (h.2.origin c hc).imp_right ownHeaders_mono
    · rw [hlog]
      exact h.2.once
  effect hs₀ hok h₀ hwithin h hE := ⟨Stored.turnEffect hok h₀.1 h.1 hE,
    effect hname htotal hok hs₀ hwithin h.1 h.2 hE⟩

end Counted

end

end Core

namespace Core.Startup

open Sample

/-- The core of the first of four authorities, before its first header. -/
def core : Core := ⟨key 1, committee4, 50, fun digest => sign digest (key 1)⟩

/-- A certificate of the last round there is. -/
def last (author : ℕ) : Certificate := certificate committee4 (key author) (-1) []

/-- Our own genesis certificate, with three of those for parents. -/
def forged : Certificate :=
  let g := Certificate.genesisOf (key 1)
  { g with header := { g.header with
      parents := BTreeSet.collect ([last 2, last 3, last 4].map Certificate.digest) } }

/-- A vote on the header the core starts with. -/
def voteOf (author : ℕ) : Vote := Vote.new default (key author) fun digest => sign digest (key author)

/-- Our vote for the forged header is counted with two votes for the header the core starts with. -/
def events : List Event :=
  [last 2, last 3, last 4, forged].map .certificate ++ [voteOf 2, voteOf 3].map .vote

/-- Our vote for the forged header. -/
def ownVote : Vote := Vote.new forged.header core.name core.requestSignature

/-- The certificate assembled of the three. -/
def mixed : Certificate :=
  ⟨default, [ownVote, voteOf 2, voteOf 3].map fun v => (v.author, v.signature)⟩

end Core.Startup

end Bullshark
