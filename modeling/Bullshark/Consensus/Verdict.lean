import Bullshark.Consensus.Invariant

/-!
# Consensus/Verdict — what the loop body decides

In both modes the loop body asks three things: is a leader round due (`Due`), is the elected
certificate in the DAG, and does enough stake of the support round stand behind it (`Backed`).
On a state of a run it does not panic, and `verdict_spec` says what it answers, in terms of the
certificates the DAG holds and of their causal history alone.
-/

namespace Bullshark

variable [Crypto]

namespace Consensus

variable {self : Consensus} {G : Universe self.committee}

open Universe

/-! ## The certificates of a round -/

/-- The certificates the DAG holds at a round. -/
def visible (dag : Dag) (r : ℕ) : List Certificate :=
  match dag.lookup r with
  | none => []
  | some authorities => authorities.values.map Prod.snd

omit [Crypto] in
theorem mem_visible_iff {dag : Dag} {r : ℕ} {c : Certificate} :
    c ∈ visible dag r ↔ ∃ n d, dag.get r n = some (d, c) := by
  simp only [visible, Dag.get]
  cases dag.lookup r with
  | none => simp
  | some authorities =>
    simp only [List.mem_map, AList.mem_values, Option.bind_some]
    constructor
    · rintro ⟨e, ⟨n, hn⟩, rfl⟩
      exact ⟨n, e.1, hn⟩
    · rintro ⟨n, d, hn⟩
      exact ⟨(d, c), ⟨n, hn⟩, rfl⟩

theorem mem_visible {dag : Dag} (hE : G.Entries dag) {r : ℕ} {c : Certificate} :
    c ∈ visible dag r ↔ Holds dag c ∧ c.round = r := by
  rw [mem_visible_iff]
  constructor
  · rintro ⟨n, d, hget⟩
    exact ⟨hE.holds hget, (hE _ _ _ hget).2.1⟩
  · rintro ⟨hold, rfl⟩
    exact ⟨c.origin, c.digest, hold⟩

/-- The certificates of a round have distinct authors. -/
theorem nodup_origin_visible {dag : Dag} (hE : G.Entries dag) (r : ℕ) :
    ((visible dag r).map Certificate.origin).Nodup := by
  rw [visible]
  cases hlookup : dag.lookup r with
  | none => exact List.nodup_nil
  | some authorities =>
    have hkeys : (authorities.values.map Prod.snd).map Certificate.origin = authorities.keys := by
      rw [AList.values, AList.keys, List.keys, List.map_map, List.map_map]
      refine List.map_congr_left fun e he => ?_
      have hget : dag.get r e.1 = some e.2 := by
        rw [Dag.get, hlookup]
        exact AList.mem_lookup_iff.mpr he
      exact (hE _ _ _ hget).2.2.1
    rw [hkeys]
    exact authorities.nodupKeys

open Classical in
/-- The authors of the certificates of a round that satisfy `P`. -/
noncomputable def authorsOf (dag : Dag) (r : ℕ) (P : Certificate → Prop) : Finset PublicKey :=
  (((visible dag r).filter fun c => decide (P c)).map Certificate.origin).toFinset

theorem mem_authorsOf {dag : Dag} (hE : G.Entries dag) {r : ℕ} {P : Certificate → Prop}
    {n : PublicKey} :
    n ∈ authorsOf dag r P ↔ ∃ c, Holds dag c ∧ c.round = r ∧ P c ∧ c.origin = n := by
  simp only [authorsOf, List.mem_toFinset, List.mem_map, List.mem_filter, mem_visible hE,
    decide_eq_true_eq]
  exact exists_congr fun c => by tauto

open Classical in
/-- A sum over the certificates that satisfy `P` is one over their authors. -/
theorem sum_filter_visible {M : Type*} [AddCommMonoid M] (f : PublicKey → M) {dag : Dag}
    (hE : G.Entries dag) (r : ℕ) (P : Certificate → Prop) :
    (((visible dag r).filter fun c => decide (P c)).map fun c => f c.origin).sum
      = ∑ n ∈ authorsOf dag r P, f n := by
  have hnd : (((visible dag r).filter fun c => decide (P c)).map Certificate.origin).Nodup :=
    (nodup_origin_visible hE r).sublist (List.filter_sublist.map _)
  rw [authorsOf, List.sum_toFinset _ hnd, List.map_map]
  rfl

/-- The authors of a round depend on what the DAG holds alone. -/
theorem authorsOf_congr {dag dag' : Dag} (hE : G.Entries dag) (hE' : G.Entries dag') {r : ℕ}
    {P : Certificate → Prop} (h : ∀ c, c.round = r → (Holds dag c ↔ Holds dag' c)) :
    authorsOf dag r P = authorsOf dag' r P := by
  ext n
  rw [mem_authorsOf hE, mem_authorsOf hE']
  refine exists_congr fun c => ⟨?_, ?_⟩
  · rintro ⟨hold, hr, h'⟩
    exact ⟨(h c hr).mp hold, hr, h'⟩
  · rintro ⟨hold, hr, h'⟩
    exact ⟨(h c hr).mpr hold, hr, h'⟩

/-! ## The sums of the loop body -/

omit [Crypto] in
theorem roundStake_eq_sum (state : State) (r : ℕ) :
    self.roundStake state r
      = ((visible state.dag r).map fun c => self.committee.stake c.origin).sum := by
  rw [roundStake, visible]
  cases state.dag.lookup r with
  | none => rfl
  | some authorities =>
    simp only [List.map_map]
    rfl

/-- The stake of a round is that of the authors it has certificates of. -/
theorem roundStake_eq {state : State} (hE : G.Entries state.dag) (r : ℕ) :
    self.roundStake state r
      = ∑ n ∈ authorsOf state.dag r fun _ => True, self.committee.stake n := by
  rw [roundStake_eq_sum, ← sum_filter_visible _ hE]
  simp

omit [Crypto] in
/-- A sum over those entries a fallible test selects, where the test does not fail. -/
theorem foldlM_stake {test : Certificate → Except Panic Bool} {P : Certificate → Bool}
    (l : List (Digest × Certificate)) (h : ∀ e ∈ l, test e.2 = .ok (P e.2)) (acc : Stake) :
    (l.foldlM (fun stake e => do
      if ← test e.2 then return stake + self.committee.stake e.2.origin else return stake) acc
        : Except Panic Stake)
      = .ok (acc + (((l.map Prod.snd).filter P).map
          fun c => self.committee.stake c.origin).sum) := by
  induction l generalizing acc with
  | nil => simp [pure, Except.pure]
  | cons e l ih =>
    have hl : ∀ e ∈ l, test e.2 = .ok (P e.2) := fun x hx => h x (List.mem_cons_of_mem _ hx)
    rw [List.foldlM_cons, h e List.mem_cons_self]
    cases hP : P e.2 with
    | true =>
      rw [List.map_cons, List.filter_cons_of_pos hP, List.map_cons, List.sum_cons, ← add_assoc]
      exact ih hl _
    | false =>
      rw [List.map_cons, List.filter_cons_of_neg (by simp [hP])]
      exact ih hl _

open Classical in
/-- The stake behind a leader, where the support test does not fail. -/
theorem supportStake_eq {state : State} (hE : G.Entries state.dag) {c : Certificate}
    (hc : Holds state.dag c) {leader : Digest × Certificate} {P : Certificate → Prop}
    (h : ∀ x, Holds state.dag x → x.round = c.round →
      self.supports state leader x = .ok (decide (P x))) :
    self.supportStake state c.round leader
      = .ok (∑ n ∈ authorsOf state.dag c.round P, self.committee.stake n) := by
  obtain ⟨authorities, hlookup, -⟩ := Option.bind_eq_some_iff.mp hc
  have hvisible : visible state.dag c.round = authorities.values.map Prod.snd := by
    rw [visible, hlookup]
  have htest : ∀ e ∈ authorities.values,
      self.supports state leader e.2 = .ok (decide (P e.2)) := by
    intro e he
    have hmem : e.2 ∈ visible state.dag c.round := by
      rw [hvisible]
      exact List.mem_map.mpr ⟨e, he, rfl⟩
    obtain ⟨hold, hr⟩ := (mem_visible hE).mp hmem
    exact h e.2 hold hr
  rw [supportStake, hlookup]
  show List.foldlM _ 0 authorities.values = _
  rw [foldlM_stake (P := fun x => decide (P x)) _ htest, zero_add, ← hvisible, sum_filter_visible _ hE]

/-! ## Elections -/

/-- A universe with a certificate has an authority to elect. -/
theorem size_pos {c : Certificate} (hc : c ∈ G.certs) : 0 < self.committee.size := by
  obtain ⟨g, hcg, hr⟩ := exists_reaches_round c.round hc (Nat.zero_add _).symm
  have hgen := (G.genesis g).mpr ⟨hcg.mem hc, hr⟩
  obtain ⟨name, hname, -⟩ := List.mem_map.mp hgen
  rw [Committee.size, ← List.length_map (f := Prod.fst)]
  exact List.length_pos_of_mem hname

omit [Crypto] in
theorem leaderKey_ok (hsize : 0 < self.committee.size) (seed : ℕ) :
    ∃ key, self.leaderKey seed = .ok key := by
  have hlt : seed % self.committee.size < self.committee.authorities.keys.length := by
    rw [BTreeMap.keys, List.length_map]
    exact Nat.mod_lt _ hsize
  refine ⟨self.committee.authorities.keys[seed % self.committee.size], ?_⟩
  rw [leaderKey, Committee.leader, List.getElem?_eq_getElem hlt]

/-- The authority elected for a leader round: the steady leader, or the fallback. -/
def elected (self : Consensus) (leaderRound : ℕ) : Except Panic (Option PublicKey) :=
  if self.dynamic then self.fallbackKey leaderRound
  else (self.leaderKey leaderRound).map some

omit [Crypto] in
theorem elected_ok (hsize : 0 < self.committee.size) (lr : ℕ) :
    ∃ key, self.elected lr = .ok key := by
  obtain ⟨k₁, h₁⟩ := leaderKey_ok hsize lr
  obtain ⟨k₂, h₂⟩ := leaderKey_ok hsize (lr + 2)
  rw [elected]
  split
  · exact ⟨_, by rw [fallbackKey, h₁, h₂]; rfl⟩
  · exact ⟨_, by rw [h₁]; rfl⟩

omit [Crypto] in
/-- The loop body looks up the certificate of the elected authority. -/
theorem selected_eq {lr : ℕ} {key : Option PublicKey} (h : self.elected lr = .ok key) (dag : Dag) :
    self.selected lr dag = .ok (key.bind (dag.get lr)) := by
  rw [elected] at h
  rw [selected]
  split at h
  · next hdyn =>
    rw [if_pos hdyn, fallbackLeader, h]
    rfl
  · next hdyn =>
    rw [if_neg hdyn, leader]
    cases hkey : self.leaderKey lr with
    | error p => rw [hkey] at h; cases h
    | ok k =>
      rw [hkey] at h
      cases h
      rfl

/-! ## The verdict -/

/-- A leader round is due at a certificate of this round. -/
structure Due (task : Consensus) (state : State) (round lr : ℕ) : Prop where
  leaderRound : task.leaderRound round = some lr
  above : state.lastCommittedRound < lr
  fresh : task.dynamic → lr ∉ state.resolvedFallbackRounds
  quorum : task.dynamic → task.committee.quorumThreshold ≤ task.roundStake state round

/-- A certificate stands behind a leader: it names it as a parent, or, in dynamic mode, has it in
its causal history. -/
def StandsBehind (self : Consensus) (G : Universe self.committee) (leader x : Certificate) : Prop :=
  if self.dynamic then G.Reaches x leader else G.Parent x leader

/-- The elected certificate is in the DAG, and enough stake stands behind it. -/
structure Backed (task : Consensus) (G : Universe task.committee) (state : State) (round lr : ℕ)
    (leader : Certificate) : Prop where
  elected : task.elected lr = .ok (some leader.origin)
  atRound : leader.round = lr
  holds : Holds state.dag leader
  stake : task.requiredSupport ≤
    ∑ n ∈ authorsOf state.dag round (task.StandsBehind G leader), task.committee.stake n

omit [Crypto] in
/-- A leader round lies below the round it is due at. -/
theorem leaderRound_lt {round lr : ℕ} (h : self.leaderRound round = some lr) : lr < round := by
  rw [leaderRound] at h
  split at h
  · split at h
    · cases h
    · next hround =>
      cases h
      omega
  · split at h
    · cases h
    · next hround =>
      cases h
      rw [Round.pred] at hround ⊢
      split
      · next h0 => rw [if_pos h0] at hround; omega
      · next h0 => omega

variable {s out : List Certificate} {state : State}

open Classical in
/-- The support test of either mode does not fail, where the DAG holds the history it looks at. -/
theorem supports_eq (hE : G.Entries state.dag) {leader x : Certificate} (hl : Holds state.dag leader)
    (hx : Holds state.dag x) (hle : leader.round ≤ x.round)
    (hcomplete : G.Complete state.dag leader.round x) :
    self.supports state (leader.digest, leader) x
      = .ok (decide (self.StandsBehind G leader x)) := by
  have hlG := (hE _ _ _ hl).2.2.2
  have hxG := (hE _ _ _ hx).2.2.2
  rw [supports]
  split
  · next hdyn =>
    rw [linked_eq hE hxG hlG hle hcomplete]
    simp only [StandsBehind, if_pos hdyn]
  · next hdyn =>
    refine congrArg Except.ok (Bool.eq_iff_iff.mpr ?_)
    simp only [decide_eq_true_eq, StandsBehind, if_neg hdyn]
    exact ⟨fun h => ⟨hxG, hlG, h⟩, fun h => h.2.2⟩

open Classical in
/-- **The verdict of the loop body**, on a state that holds a certificate of the round, and the
history of what it holds down to the leader round that is due. -/
theorem verdict_spec_of_complete (hE : G.Entries state.dag) {c : Certificate}
    (hc : Holds state.dag c) (hcomplete : ∀ lr, self.Due state c.round lr →
      ∀ x, Holds state.dag x → G.Complete state.dag lr x) :
    ((∀ lr, ¬ self.Due state c.round lr) ∧ self.verdict state c.round = .ok .wait) ∨
    ∃ lr, self.Due state c.round lr ∧
      ((∃ leader, self.Backed G state c.round lr leader ∧
          self.verdict state c.round = .ok (.commit lr leader)) ∨
        ((∀ leader, ¬ self.Backed G state c.round lr leader) ∧
          self.verdict state c.round = .ok (if self.dynamic then .skip lr else .wait))) := by
  have hcG := (hE _ _ _ hc).2.2.2
  rw [verdict]
  cases hlr : self.leaderRound c.round with
  | none => exact Or.inl ⟨fun lr h => by simp [h.leaderRound] at hlr, rfl⟩
  | some lr =>
    have hwait : ¬ self.Due state c.round lr → ∀ lr', ¬ self.Due state c.round lr' := by
      intro h lr' hdue
      rw [hdue.leaderRound] at hlr
      cases hlr
      exact h hdue
    by_cases habove : lr ≤ state.lastCommittedRound
    · exact Or.inl ⟨hwait fun h => absurd h.above (by omega), by simp [habove]⟩
    by_cases hfresh : self.dynamic ∧ lr ∈ state.resolvedFallbackRounds
    · exact Or.inl ⟨hwait fun h => h.fresh hfresh.1 hfresh.2, by simp [hfresh]⟩
    by_cases hquorum : self.dynamic ∧ self.roundStake state c.round < self.committee.quorumThreshold
    · refine Or.inl ⟨hwait fun h => absurd (h.quorum hquorum.1) (UInt32.not_le.mpr hquorum.2), ?_⟩
      simp [hquorum]
    -- the round is due: look up the elected certificate
    have hdue : self.Due state c.round lr := ⟨hlr, not_le.mp habove, fun hd hr => hfresh ⟨hd, hr⟩,
      fun hd => UInt32.not_lt.mp fun hlt => hquorum ⟨hd, hlt⟩⟩
    refine Or.inr ⟨lr, hdue, ?_⟩
    obtain ⟨key, hkey⟩ := elected_ok (size_pos hcG) lr
    simp only [if_neg habove, if_neg hfresh, if_neg hquorum, selected_eq hkey]
    cases hsel : key.bind (state.dag.get lr) with
    | none =>
      refine Or.inr ⟨fun leader hb => ?_, ?_⟩
      · rw [hb.elected] at hkey
        cases hkey
        have hold := hb.holds
        rw [Holds, hb.atRound] at hold
        rw [Option.bind_some, hold] at hsel
        cases hsel
      · rfl
    | some e =>
      obtain ⟨n, hn, hget⟩ := Option.bind_eq_some_iff.mp hsel
      obtain ⟨h1, h2, h3, h4⟩ := hE _ _ _ hget
      have hold := hE.holds hget
      have he : (e.2.digest, e.2) = e := Prod.ext h1.symm rfl
      have htest : ∀ x, Holds state.dag x → x.round = c.round →
          self.supports state e x = .ok (decide (self.StandsBehind G e.2 x)) := by
        intro x hx hxr
        have := leaderRound_lt hlr
        rw [← supports_eq hE hold hx (by omega) (h2.symm ▸ hcomplete lr hdue x hx), he]
      have hstake := supportStake_eq hE hc htest
      simp only [bind, Except.bind, hstake]
      subst hn
      by_cases hlt : ∑ n ∈ authorsOf state.dag c.round (self.StandsBehind G e.2),
          self.committee.stake n < self.requiredSupport
      · refine Or.inr ⟨fun leader hb => ?_, ?_⟩
        · have hsame : leader = e.2 := by
            rw [hb.elected] at hkey
            cases hkey
            exact G.unique _ (hE _ _ _ hb.holds).2.2.2 _ h4
              (hb.atRound.trans h2.symm) h3.symm
          subst hsame
          exact absurd hlt (UInt32.not_lt.mpr hb.stake)
        · simp only [if_pos hlt]
          rfl
      · refine Or.inl ⟨e.2, ⟨h3 ▸ hkey, h2, hold, UInt32.not_lt.mp hlt⟩, ?_⟩
        simp only [if_neg hlt]
        rfl

/-- On a state of a run the DAG holds that history. -/
theorem verdict_spec (hinv : self.Inv G s out state) (hs : G.Delivery s) {c : Certificate}
    (hc : Holds state.dag c) :
    ((∀ lr, ¬ self.Due state c.round lr) ∧ self.verdict state c.round = .ok .wait) ∨
    ∃ lr, self.Due state c.round lr ∧
      ((∃ leader, self.Backed G state c.round lr leader ∧
          self.verdict state c.round = .ok (.commit lr leader)) ∨
        ((∀ leader, ¬ self.Backed G state c.round lr leader) ∧
          self.verdict state c.round = .ok (if self.dynamic then .skip lr else .wait))) :=
  verdict_spec_of_complete hinv.entries hc fun _ hdue x hx =>
    hinv.complete hs (hinv.known x hx) hdue.above

omit [Crypto] in
theorem Due.unique {round lr lr' : ℕ} (h : self.Due state round lr) (h' : self.Due state round lr') :
    lr = lr' := Option.some.inj (h.leaderRound.symm.trans h'.leaderRound)

/-- At most one certificate is elected for a leader round. -/
theorem Backed.unique {round round' lr : ℕ} {leader leader' : Certificate} {state' : State}
    (hE : G.Entries state.dag) (hE' : G.Entries state'.dag)
    (h : self.Backed G state round lr leader) (h' : self.Backed G state' round' lr leader') :
    leader = leader' := by
  have horigin : some leader.origin = some leader'.origin :=
    Except.ok.inj (h.elected.symm.trans h'.elected)
  exact G.unique _ (hE _ _ _ h.holds).2.2.2 _ (hE' _ _ _ h'.holds).2.2.2
    (h.atRound.trans h'.atRound.symm) (Option.some.inj horigin)

/-- A backed leader of a due round is committed. -/
theorem verdict_eq_commit (hinv : self.Inv G s out state) (hs : G.Delivery s) {c : Certificate}
    (hc : Holds state.dag c) {lr : ℕ} {leader : Certificate} (hdue : self.Due state c.round lr)
    (hb : self.Backed G state c.round lr leader) :
    self.verdict state c.round = .ok (.commit lr leader) := by
  rcases verdict_spec hinv hs hc with ⟨hnone, -⟩ | ⟨lr', hdue', ⟨leader', hb', hv⟩ | ⟨hnone, -⟩⟩
  · exact absurd hdue (hnone lr)
  · obtain rfl := hdue.unique hdue'
    rw [hv, hb.unique hinv.entries hinv.entries hb']
  · obtain rfl := hdue.unique hdue'
    exact absurd hb (hnone leader)

/-- A due fallback round without a backed leader is skipped. -/
theorem verdict_eq_skip (hdyn : self.dynamic = true) (hinv : self.Inv G s out state)
    (hs : G.Delivery s) {c : Certificate} (hc : Holds state.dag c) {lr : ℕ}
    (hdue : self.Due state c.round lr) (hb : ∀ leader, ¬ self.Backed G state c.round lr leader) :
    self.verdict state c.round = .ok (.skip lr) := by
  rcases verdict_spec hinv hs hc with ⟨hnone, -⟩ | ⟨lr', hdue', ⟨leader', hb', -⟩ | ⟨-, hv⟩⟩
  · exact absurd hdue (hnone lr)
  · obtain rfl := hdue.unique hdue'
    exact absurd hb' (hb leader')
  · obtain rfl := hdue.unique hdue'
    rw [hv, if_pos hdyn]

end Consensus

end Bullshark
