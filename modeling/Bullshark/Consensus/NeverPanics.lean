import Bullshark.Consensus.Once

/-!
# Consensus/NeverPanics — no `expect` fails on a complete history

A complete history delivers the parents of a certificate before it.  No universe is assumed: authors
may equivocate, digests may collide, certificates may be repeated or come late.

`linked` expects every round between two certificates to be present in the DAG.  It is only asked
about rounds above the last committed one; below a certificate that was delivered every round down
to 1 has been delivered (`exists_round`), and nothing above the last committed round is ever removed
(`Covered`), as long as no commit takes a sum of a round and `gc_depth` that overflows.  Where one
does, the round it is of is dropped, and the next walk through it panics (`LostRounds.panics`).
-/

namespace Bullshark

namespace Consensus

section

variable [Crypto]

/-- Certificates of round 1 or more, each with a parent, whose parents are genesis certificates
(round 1) or certificates of the previous round delivered earlier. -/
structure CompleteHistory (committee : Committee) (s : List Certificate) : Prop where
  one_le : ∀ c ∈ s, 1 ≤ c.round
  parent : ∀ c ∈ s, ∃ d, d ∈ c.header.parents
  parentsFirst : ∀ pre c, pre ++ [c] <+: s → ∀ d ∈ c.header.parents,
    (c.round = 1 ∧ ∃ p ∈ Certificate.genesis committee, p.digest = d) ∨
      ∃ p ∈ pre, p.digest = d ∧ p.round + 1 = c.round

variable {self : Consensus} {state : State} {s : List Certificate} {committee : Committee}

theorem CompleteHistory.of_prefix {t : List Certificate} (h : CompleteHistory committee t)
    (hpre : s <+: t) : CompleteHistory committee s where
  one_le c hc := h.one_le c (hpre.subset hc)
  parent c hc := h.parent c (hpre.subset hc)
  parentsFirst pre c hc := h.parentsFirst pre c (hc.trans hpre)

/-- **Below a certificate delivered, every round down to 1 was delivered.** -/
theorem CompleteHistory.exists_round (h : CompleteHistory committee s) :
    ∀ (k : ℕ) {c : Certificate}, c ∈ s → ∀ {r : ℕ}, 1 ≤ r → c.round = r + k →
      ∃ p ∈ s, p.round = r
  | 0, c, hc, r, _, hr => ⟨c, hc, hr⟩
  | k + 1, c, hc, r, hone, hr => by
      obtain ⟨d, hd⟩ := h.parent c hc
      obtain ⟨pre, post, hsplit⟩ := List.append_of_mem hc
      rcases h.parentsFirst pre c ⟨post, by simp [hsplit]⟩ d hd with ⟨h1, -⟩ | ⟨p, hp, -, hround⟩
      · omega
      · have hps : p ∈ s := hsplit ▸ List.mem_append_left _ hp
        exact exists_round h k hps hone (by omega)

/-! ## What the DAG still covers -/

/-- The rounds above the last committed one in which something was delivered are present in the
DAG, and what is in it was delivered. -/
structure Covered (committee : Committee) (s : List Certificate) (state : State) : Prop where
  keyed : Keyed state.dag
  max : state.RoundIsMax
  supplied : Supplied committee s state.dag
  rows : ∀ c ∈ s, state.lastCommittedRound < c.round → ∃ n e, state.dag.get c.round n = some e

theorem covered_new (committee : Committee) :
    Covered committee [] (State.new (Certificate.genesis committee)) where
  keyed := keyed_new committee
  max := ⟨fun n r h => (lookup_new h).le, Or.inl rfl⟩
  supplied r n e he := by
    obtain ⟨-, c, hc, -, rfl⟩ := get_new.mp he
    exact hc
  rows c hc := by cases hc

theorem Covered.insert (h : Covered committee s state) (c : Certificate) :
    Covered committee (s ++ [c]) (state.insert c) where
  keyed := h.keyed.insert c
  max := h.max
  supplied := by
    refine Supplied.insert (fun r n e he => ?_) (by simp)
    have hmem := h.supplied r n e he
    simp only [List.mem_append] at hmem ⊢
    tauto
  rows x hx hround := by
    have hkeep : ∀ {n e}, state.dag.get x.round n = some e →
        ∃ e', (state.insert c).dag.get x.round n = some e' := by
      intro n e he
      rw [State.get_insert]
      split
      · exact ⟨_, rfl⟩
      · exact ⟨e, he⟩
    rcases List.mem_append.mp hx with hx | hx
    · obtain ⟨n, e, he⟩ := h.rows x hx hround
      exact ⟨n, hkeep he⟩
    · rw [List.mem_singleton.mp hx]
      exact ⟨c.origin, (c.digest, c), by rw [State.get_insert, if_pos ⟨rfl, rfl⟩]⟩

/-- **Recording commits removes nothing above the last committed round**, where no sum
overflows. -/
theorem Covered.updateAll (h : Covered committee s state) {gc : ℕ} (hsums : state.dag.SumsFit gc)
    (ys : List Certificate) : Covered committee s (State.updateAll gc state ys) where
  keyed := h.keyed.updateAll gc ys
  max := State.roundIsMax_updateAll gc h.max ys
  supplied := h.supplied.updateAll gc ys
  rows c hc hround := by
    by_cases hys : ys = []
    · rw [hys] at hround ⊢
      exact h.rows c hc hround
    · have hle := State.lastCommittedRound_le_updateAll gc h.max ys
      obtain ⟨n, e, he⟩ := h.rows c hc (hle.trans_lt hround)
      have hsum := Round.add_eq (hsums.of_get he)
      refine ⟨n, e, (State.get_updateAll gc hys).mpr ⟨he, fun r' hr' => ?_, by omega⟩⟩
      exact ((State.roundIsMax_updateAll gc h.max ys).1 n r' hr').trans hround.le

theorem Covered.commitLeaders {leaders : List Certificate} : ∀ {state : State},
    Covered committee s state → state.dag.SumsFit self.gcDepth →
      Covered committee s (self.commitLeaders state leaders).1 := by
  induction leaders with
  | nil => exact fun h _ => h
  | cons leader leaders ih =>
    exact fun {state} h hsums => ih (h.updateAll hsums (self.orderDag leader state))
      (State.sumsFit_updateAll self.gcDepth hsums (self.orderDag leader state))

theorem Covered.resolve (h : Covered committee s state) (lr : ℕ) :
    Covered committee s (resolve state lr) := ⟨h.keyed, h.max, h.supplied, h.rows⟩

/-- **Every round between the last committed one and a certificate of the DAG is present.** -/
theorem Covered.row (h : Covered committee s state) (hs : CompleteHistory committee s) {R : ℕ}
    {n : PublicKey} {e : Digest × Certificate} (he : state.dag.get R n = some e) {r : ℕ}
    (hlow : state.lastCommittedRound < r) (hr : r ≤ R) :
    ∃ authorities, state.dag.lookup r = some authorities := by
  have hround : e.2.round = R := (h.keyed _ _ _ he).2.1
  have hmem : e.2 ∈ s := by
    rcases List.mem_append.mp (h.supplied _ _ _ he) with hmem | hmem
    · exact hmem
    · have := round_genesis hmem
      omega
  obtain ⟨p, hp, rfl⟩ := hs.exists_round (r := r) (R - r) hmem (by omega) (by omega)
  obtain ⟨m, x, hx⟩ := h.rows p hp hlow
  obtain ⟨authorities, hlookup, -⟩ := Option.bind_eq_some_iff.mp hx
  exact ⟨authorities, hlookup⟩

/-! ## No panic -/

omit [Crypto] in
/-- `linked` returns where the rounds it walks through are present. -/
theorem linked_exists_ok {dag : Dag} {leader prevLeader : Certificate}
    (hrows : ∀ r, prevLeader.round ≤ r → r < leader.round →
      ∃ authorities, dag.lookup r = some authorities) :
    ∃ b, linked leader prevLeader dag = .ok b := by
  have hstep : ∀ parents : List Certificate, True →
      ∀ r ∈ (List.range' prevLeader.round (leader.round - prevLeader.round)).reverse,
        ∃ parents', linkedStep dag parents r = .ok parents' ∧ True := by
    intro parents _ r hr
    rw [List.mem_reverse, List.mem_range'_1] at hr
    obtain ⟨authorities, hlookup⟩ := hrows r hr.1 (by omega)
    exact ⟨_, by rw [linkedStep, hlookup], trivial⟩
  obtain ⟨parents, hparents, -⟩ := Except.foldlM_exists_ok hstep (b := [leader]) trivial
  exact ⟨_, by rw [linked, hparents]; rfl⟩

variable {n : PublicKey} {e : Digest × Certificate}

/-- The support of a leader above the last committed round is counted without a panic. -/
theorem Covered.supportStake_ok (h : Covered committee s state) (hs : CompleteHistory committee s)
    {round : ℕ} (he : state.dag.get round n = some e) {leader : Digest × Certificate}
    (hlow : state.lastCommittedRound < leader.2.round) :
    ∃ stake, self.supportStake state round leader = .ok stake := by
  obtain ⟨authorities, hlookup, -⟩ := Option.bind_eq_some_iff.mp he
  have hsupports : ∀ x ∈ authorities.values, ∃ b, self.supports state leader x.2 = .ok b := by
    intro x hx
    obtain ⟨m, hm⟩ := AList.mem_values.mp hx
    have hget : state.dag.get round m = some x := by
      rw [Dag.get, hlookup]
      exact hm
    have hround : x.2.round = round := (h.keyed _ _ _ hget).2.1
    rw [supports]
    split
    · exact linked_exists_ok fun r hr hlt => h.row hs hget (by omega) (by omega)
    · exact ⟨_, rfl⟩
  have hfold : ∀ stake : Stake, True → ∀ x ∈ authorities.values, ∃ stake',
      (do if ← self.supports state leader x.2 then return stake + self.committee.stake x.2.origin
          else return stake : Except Panic Stake) = .ok stake' ∧ True := by
    intro stake _ x hx
    obtain ⟨b, hb⟩ := hsupports x hx
    rw [hb]
    cases b
    · exact ⟨stake, rfl, trivial⟩
    · exact ⟨_, rfl, trivial⟩
  obtain ⟨stake, hstake, -⟩ := Except.foldlM_exists_ok hfold (b := 0) trivial
  exact ⟨stake, by rw [supportStake, hlookup]; exact hstake⟩

/-- The verdict is reached without a panic. -/
theorem Covered.verdict_ok (hsize : 0 < self.committee.size) (h : Covered committee s state)
    (hs : CompleteHistory committee s) {round : ℕ} (he : state.dag.get round n = some e) :
    ∃ v, self.verdict state round = .ok v := by
  rw [verdict]
  split
  · exact ⟨_, rfl⟩
  · next lr hlr =>
    split
    · exact ⟨_, rfl⟩
    next habove =>
    split
    · exact ⟨_, rfl⟩
    split
    · exact ⟨_, rfl⟩
    obtain ⟨key, hkey⟩ := elected_ok hsize lr
    rw [selected_eq hkey]
    cases hfound : key.bind (state.dag.get lr) with
    | none => exact ⟨_, rfl⟩
    | some leader =>
      obtain ⟨k, -, hget⟩ := Option.bind_eq_some_iff.mp hfound
      have hround : leader.2.round = lr := (h.keyed _ _ _ hget).2.1
      obtain ⟨stake, hstake⟩ : ∃ stake, self.supportStake state round leader = .ok stake :=
        h.supportStake_ok hs he (by omega)
      simp only [bind, Except.bind, hstake]
      split <;> exact ⟨_, rfl⟩

/-- The walk back through past leaders does not panic. -/
theorem Covered.orderLeaders_ok (hsize : 0 < self.committee.size) (h : Covered committee s state)
    (hs : CompleteHistory committee s) {leader : Certificate} {d : Digest}
    (he : state.dag.get leader.round n = some (d, leader)) :
    ∃ leaders, self.orderLeaders leader state = .ok leaders := by
  have hstep : ∀ acc : List Certificate × Certificate, acc.2.round ≤ leader.round →
      ∀ r ∈ walkRounds state.lastCommittedRound leader.round,
        ∃ acc', self.orderLeadersStep state.dag acc r = .ok acc' ∧ acc'.2.round ≤ leader.round := by
    intro acc hacc r hr
    obtain ⟨hlow, hhigh⟩ := mem_walkRounds hr
    obtain ⟨key, -, hleader⟩ := leader_eq hsize r
    replace hleader := hleader state.dag
    cases hget : state.dag.get r key with
    | none => exact ⟨acc, orderLeadersStep_none (hget ▸ hleader), hacc⟩
    | some prev =>
      have hround : prev.2.round = r := (h.keyed _ _ _ hget).2.1
      obtain ⟨b, hb⟩ : ∃ b, linked acc.2 prev.2 state.dag = .ok b :=
        linked_exists_ok fun r' hr' hlt => h.row hs he (by omega) (by omega)
      refine ⟨_, orderLeadersStep_some (hget ▸ hleader) hb, ?_⟩
      cases b with
      | false => exact hacc
      | true => exact hround.trans_le hhigh.le
  obtain ⟨acc, hacc, -⟩ := Except.foldlM_exists_ok hstep (b := ([leader], leader)) le_rfl
  exact ⟨acc.1, by rw [orderLeaders, hacc]; rfl⟩

/-- **A turn on a complete history does not panic**, and keeps the DAG covered. -/
theorem Covered.process (hsize : 0 < self.committee.size) (h : Covered committee s state)
    {c : Certificate} (hs : CompleteHistory committee (s ++ [c])) (hfits : self.Fits (.ok state) c) :
    ∃ result, self.process state c = .ok result ∧ Covered committee (s ++ [c]) result.1 := by
  have hinsert := h.insert c
  have hc : (state.insert c).dag.get c.round c.origin = some (c.digest, c) := by
    rw [State.get_insert, if_pos ⟨rfl, rfl⟩]
  obtain ⟨v, hv⟩ := hinsert.verdict_ok hsize hs hc
  simp only [Consensus.process, hv, bind, Except.bind]
  cases v with
  | wait => exact ⟨_, rfl, hinsert⟩
  | skip lr => exact ⟨_, rfl, hinsert.resolve lr⟩
  | commit lr leader =>
    obtain ⟨-, -, m, d, hget⟩ := exists_get_of_verdict hv
    have hround : leader.round = lr := (hinsert.keyed _ _ _ hget).2.1
    have hsums := hfits.sumsFit hv
    obtain ⟨leaders, hleaders⟩ := hinsert.orderLeaders_ok hsize hs (hround ▸ hget)
    cases self.dynamic with
    | true => exact ⟨_, rfl, (hinsert.resolve lr).commitLeaders hsums⟩
    | false =>
      simp only [hleaders]
      exact ⟨_, rfl, hinsert.commitLeaders hsums⟩

/-- The state of a run on a complete history. -/
theorem covered_run (hsize : 0 < self.committee.size) (hs : CompleteHistory self.committee s)
    (hfits : self.machine.Along self.Fits s) :
    ∃ state, self.machine.state s = .ok state ∧ Covered self.committee s state := by
  induction s using List.reverseRecOn with
  | nil => exact ⟨_, rfl, covered_new self.committee⟩
  | append_singleton s c ih =>
    have hpre : s <+: s ++ [c] := List.prefix_append _ _
    obtain ⟨state, hstate, hcov⟩ := ih (hs.of_prefix hpre) (hfits.of_prefix hpre)
    obtain ⟨result, hok, hcov'⟩ := hcov.process hsize hs (hstate ▸ hfits.last)
    refine ⟨result.1, ?_, hcov'⟩
    rw [Mealy.state_snoc, hstate, step_of_process hok]

/-- The candidates of `fallback_leader` for two steady leaders. -/
def fallbackCandidates (self : Consensus) (firstSteady thirdSteady : PublicKey) : List PublicKey :=
  self.committee.authorities.keys.filter fun authority =>
    decide (authority ≠ firstSteady ∧ authority ≠ thirdSteady)

omit [Crypto] in
/-- The index into the candidates is in bounds, where there is a candidate. -/
theorem fallbackKey_inBounds (hsize : 0 < self.committee.size) (firstRound : ℕ) :
    ∃ firstSteady thirdSteady, self.leaderKey firstRound = .ok firstSteady ∧
      self.leaderKey (firstRound + 2) = .ok thirdSteady ∧
      (self.fallbackCandidates firstSteady thirdSteady = [] ∨
        ∃ key ∈ self.fallbackCandidates firstSteady thirdSteady,
          self.fallbackKey firstRound = .ok (some key)) := by
  obtain ⟨firstSteady, h₁⟩ := leaderKey_ok hsize firstRound
  obtain ⟨thirdSteady, h₂⟩ := leaderKey_ok hsize (firstRound + 2)
  refine ⟨firstSteady, thirdSteady, h₁, h₂, or_iff_not_imp_left.mpr fun hne => ?_⟩
  have hindex : ∃ mixed : ℕ, self.fallbackKey firstRound
      = .ok (self.fallbackCandidates firstSteady thirdSteady)[mixed %
          (self.fallbackCandidates firstSteady thirdSteady).length]? :=
    ⟨_, by rw [fallbackKey, h₁, h₂]; rfl⟩
  obtain ⟨mixed, hmixed⟩ := hindex
  have hlt := Nat.mod_lt mixed (List.length_pos_iff.mpr hne)
  exact ⟨_, List.getElem_mem hlt, by rw [hmixed, List.getElem?_eq_getElem hlt]⟩

omit [Crypto] in
/-- `last_committed.values().max()` is taken of a non-empty map. -/
theorem values_update_ne_nil (state : State) (c : Certificate) (gc : ℕ) :
    (state.update c gc).lastCommitted.values ≠ [] := by
  intro hnil
  have hnone := AList.values_eq_nil_iff.mp hnil c.origin
  rw [State.lookup_update, if_pos rfl] at hnone
  cases hnone

/-- **Consensus never panics on complete histories**: in both modes, with a committee that is not
empty, where no commit takes a sum that overflows, every `expect` of the loop and of `linked`
succeeds, the maximum of `update` exists, and `fallback_leader` indexes its candidates in bounds. -/
theorem never_panics (hsize : 0 < self.committee.size) (hs : CompleteHistory self.committee s)
    (hfits : self.machine.Along self.Fits s) :
    (∃ state, self.machine.state s = .ok state) ∧
    (∀ (state : State) (c : Certificate),
      (state.update c self.gcDepth).lastCommitted.values ≠ []) ∧
    ∀ firstRound, ∃ firstSteady thirdSteady, self.leaderKey firstRound = .ok firstSteady ∧
      self.leaderKey (firstRound + 2) = .ok thirdSteady ∧
      (self.fallbackCandidates firstSteady thirdSteady = [] ∨
        ∃ key ∈ self.fallbackCandidates firstSteady thirdSteady,
          self.fallbackKey firstRound = .ok (some key)) := by
  obtain ⟨state, hstate, -⟩ := covered_run hsize hs hfits
  exact ⟨⟨state, hstate⟩, fun state c => values_update_ne_nil state c self.gcDepth,
    fallbackKey_inBounds hsize⟩

/-- Completeness, as a check on a sequence. -/
instance (s : List Certificate) : Decidable (CompleteHistory committee s) :=
  decidable_of_iff ((∀ c ∈ s, 1 ≤ c.round) ∧ (∀ c ∈ s, c.header.parents.elems ≠ []) ∧
    ∀ pre c, pre ++ [c] <+: s → ∀ d ∈ c.header.parents.elems,
      (c.round = 1 ∧ ∃ p ∈ Certificate.genesis committee, p.digest = d) ∨
        ∃ p ∈ pre, p.digest = d ∧ p.round + 1 = c.round)
    ⟨fun h => ⟨h.1, fun c hc => List.exists_mem_of_ne_nil _ (h.2.1 c hc), h.2.2⟩,
      fun h => ⟨h.one_le, fun c hc => (h.parent c hc).elim fun _ => List.ne_nil_of_mem,
        h.parentsFirst⟩⟩

end

/-! ## A history with a repetition and an equivocation -/

namespace Untidy

open Sample

def cert (author : ℕ) (round : UInt64) (parents : List Certificate) : Certificate :=
  certificate committee4 (key author) round parents

def a (n : ℕ) : Certificate := cert n 1 (Certificate.genesis committee4)

def b (n : ℕ) : Certificate := cert n 2 [a 1, a 2, a 3]

def c (n : ℕ) : Certificate := cert n 3 [b 1, b 2, b 3]

/-- Another certificate of round 2 by the leader. -/
def b' : Certificate := cert 3 2 [a 1, a 2]

/-- The leader of round 2 is committed; then a certificate of round 1 is repeated, one comes late,
and the leader's other certificate arrives. -/
def history : List Certificate :=
  [a 1, a 2, a 3, b 1, b 2, b 3, c 1, c 2, a 1, a 4, b', c 3]

set_option maxRecDepth 100000 in
theorem complete : CompleteHistory committee4 history ∧
    Consensus.output ⟨committee4, 50, false⟩ history ≠ [] ∧
    ∀ dynamic, (Consensus.machine ⟨committee4, 50, dynamic⟩).Along
      (Consensus.Fits ⟨committee4, 50, dynamic⟩) history := by
  decide +kernel

theorem never_panics_untidy : CompleteHistory committee4 history ∧
    Consensus.output ⟨committee4, 50, false⟩ history ≠ [] ∧
    ∀ dynamic, ∃ state, (Consensus.machine ⟨committee4, 50, dynamic⟩).state history = .ok state :=
  have hsize : 0 < committee4.size := by decide
  ⟨complete.1, complete.2.1, fun dynamic =>
    (never_panics hsize complete.1 (complete.2.2 dynamic)).1⟩

end Untidy

/-! ## A walk through rounds that were dropped

Three authorities, and a `gc_depth` of `2 ^ 64 - 6`.  No leader is due on the way up to `p 7`.  Then
the leader of round 2 and a vote for it arrive: it is committed, and rounds 6 and 7 are dropped,
because `7 + gc_depth` is 1.  The next leader is `x 8`, and the walk back looks for a path from it
to `p 5`. -/

namespace LostRounds

open Sample

def committee : Committee := committee3 1 1 1

def task : Consensus := ⟨committee, 2 ^ 64 - 6, false⟩

def cert (author : ℕ) (round : UInt64) (parents : List Certificate) : Certificate :=
  certificate committee (key author) round parents

def p1 : Certificate := cert 1 1 (Certificate.genesis committee)
def p2 : Certificate := cert 1 2 [p1]
def p3 : Certificate := cert 1 3 [p2]
def p4 : Certificate := cert 1 4 [p3]
def p5 : Certificate := cert 3 5 [p4]
def p6 : Certificate := cert 2 6 [p5]
def p7 : Certificate := cert 1 7 [p6]

/-- The leader of round 2, and a vote for it. -/
def c2 : Certificate := cert 3 2 [p1]
def c3 : Certificate := cert 2 3 [c2]

/-- The leader of round 8, and a vote for it. -/
def x8 : Certificate := cert 3 8 [p7]
def x9 : Certificate := cert 1 9 [x8]

def history : List Certificate := [p1, p2, p3, p4, p5, p6, p7, c2, c3, x8, x9]

set_option maxRecDepth 100000 in
theorem evaluated : CompleteHistory committee history ∧
    (task.machine.state history).isOk = false := by
  decide +kernel

/-- **The history is complete, and the task panics.** -/
theorem panics : 0 < task.committee.size ∧ CompleteHistory task.committee history ∧
    ¬ ∃ state, task.machine.state history = .ok state := by
  refine ⟨by decide, evaluated.1, ?_⟩
  rintro ⟨state, hstate⟩
  have hpanic := evaluated.2
  rw [hstate] at hpanic
  cases hpanic

end LostRounds

end Consensus

end Bullshark
