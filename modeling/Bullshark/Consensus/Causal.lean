import Bullshark.Consensus.Steps
import Bullshark.Primary.Sample

/-!
# Consensus/Causal — is the committed sequence causally complete?

A certificate is sent after its parents, unless one of them is below the horizon: that is what
`order_dag` is for.  The clean-up works against it.  When a certificate of an author is committed,
everything older of that author leaves the DAG, sent or not, and a later leader that has it in its
history is flattened without it.

`causally_complete` holds of the runs in which no commit leaves such a certificate behind
(`Keeps`), and none takes a sum of a round and `gc_depth` that overflows.
-/

namespace Bullshark

namespace Consensus

section

variable [Crypto]

variable {self : Consensus} {G : Universe self.committee}

open Universe

variable {s out : List Certificate} {state : State}

/-! ## The property -/

/-- Every certificate of a flattened sub-DAG is sent after its parents, those of round 0 and those
below the horizon in force apart. -/
def CausallyComplete {committee : Committee} (G : Universe committee) (gcDepth : ℕ)
    (emissions : List Emission) : Prop :=
  ∀ sent leader lcr certificates rest,
    emissions = sent ++ .subDag leader lcr certificates :: rest →
      ∀ before c after, certificates = before ++ c :: after →
        ∀ p, G.Parent c p → 1 ≤ p.round → lcr ≤ p.round + gcDepth →
          p ∈ txOutput sent ++ before

/-! ## The condition on a step -/

/-- The certificates the DAG holds. -/
def held (dag : Dag) : List Certificate :=
  dag.values.flatMap fun authorities => authorities.values.map Prod.snd

omit [Crypto] in
theorem mem_held {dag : Dag} {r : ℕ} {n : PublicKey} {e : Digest × Certificate}
    (h : dag.get r n = some e) : e.2 ∈ held dag := by
  obtain ⟨authorities, hlookup, hn⟩ := Option.bind_eq_some_iff.mp h
  exact List.mem_flatMap.mpr ⟨authorities, AList.mem_values.mpr ⟨_, hlookup⟩,
    List.mem_map.mpr ⟨e, AList.mem_values.mpr ⟨_, hn⟩, rfl⟩⟩

/-- Committing this leader leaves behind no certificate `e` of the DAG that is not sent: `e` is not
below its author's last committed round, and no certificate of its author in the flattened sub-DAG
is newer.  The horizon is the one of ℕ: no sum of a step that `Fits` wraps. -/
def Keeps (self : Consensus) (state : State) (leader : Certificate) : Prop :=
  ∀ e ∈ held state.dag, 1 ≤ e.round → leader.round ≤ e.round + self.gcDepth →
    alreadyCommitted state e = false → e ∉ self.orderDag leader state →
      state.lastRound e.origin ≤ e.round ∧
        ∀ y ∈ self.orderDag leader state, y.origin = e.origin → y.round ≤ e.round

/-- Each commit of the commit loop, from the oldest leader on, leaves nothing behind. -/
def KeepsAll (self : Consensus) (state : State) : List Certificate → Prop
  | [] => True
  | leader :: leaders =>
    self.Keeps state leader ∧ self.KeepsAll (self.commitLeader state leader).1 leaders

/-- The commit loop over the leaders `order_leaders` returned leaves nothing behind. -/
def LoopKeeps (self : Consensus) (state : State) : Except Panic (List Certificate) → Prop
  | .ok leaders => self.KeepsAll state leaders.reverse
  | .error _ => True

/-- If this verdict commits a leader, then the commit loop leaves nothing behind. -/
def CommitsKeep (self : Consensus) (state : State) : Except Panic Verdict → Prop
  | .ok (.commit _ leader) => self.LoopKeeps state (self.orderLeaders leader state)
  | _ => True

/-- The commits of the step leave nothing behind. -/
def LeavesNothing (self : Consensus) : Except Panic State → Certificate → Prop
  | .ok state, c => self.CommitsKeep (state.insert c) (self.verdict (state.insert c) c.round)
  | .error _, _ => True

instance (state : State) (leader : Certificate) : Decidable (self.Keeps state leader) :=
  inferInstanceAs (Decidable (∀ e ∈ held state.dag, _))

instance decidableKeepsAll :
    ∀ (leaders : List Certificate) (state : State), Decidable (self.KeepsAll state leaders)
  | [], _ => .isTrue trivial
  | leader :: leaders, state =>
    @instDecidableAnd _ _ _ (decidableKeepsAll leaders (self.commitLeader state leader).1)

instance (state : State) :
    ∀ leaders : Except Panic (List Certificate), Decidable (self.LoopKeeps state leaders)
  | .ok leaders => inferInstanceAs (Decidable (self.KeepsAll state leaders.reverse))
  | .error _ => .isTrue trivial

instance (state : State) :
    ∀ verdict : Except Panic Verdict, Decidable (self.CommitsKeep state verdict)
  | .ok (.commit _ leader) =>
    inferInstanceAs (Decidable (self.LoopKeeps state (self.orderLeaders leader state)))
  | .ok (.skip _) => .isTrue trivial
  | .ok .wait => .isTrue trivial
  | .error _ => .isTrue trivial

instance : ∀ (state : Except Panic State) (c : Certificate),
    Decidable (self.LeavesNothing state c)
  | .ok state, c => inferInstanceAs (Decidable (self.CommitsKeep (state.insert c) _))
  | .error _, _ => .isTrue trivial

/-! ## Nothing is lost -/

/-- What was received, is above round 0 and not below the horizon, is in the DAG or was sent. -/
def Retained (self : Consensus) (G : Universe self.committee) (s out : List Certificate)
    (state : State) : Prop :=
  ∀ p, G.Known s p → 1 ≤ p.round → state.lastCommittedRound ≤ p.round + self.gcDepth →
    Holds state.dag p ∨ p ∈ out

/-- The certificate at its author's last committed round was sent. -/
theorem Inv.sent_of_alreadyCommitted (hinv : self.Inv G s out state) (hs : G.Delivery s)
    {p : Certificate} (hp : Holds state.dag p) (hr : 1 ≤ p.round)
    (h : alreadyCommitted state p = true) : p ∈ out := by
  rcases hinv.committed (of_decide_eq_true h) with h0 | ⟨c, hc, ho, hcr⟩
  · omega
  · rwa [← G.unique c ((hinv.output c hc).mem hs) p (hinv.entries _ _ _ hp).2.2.2 hcr ho]

theorem Retained.insert (hret : self.Retained G s out state) (hinv : self.Inv G s out state)
    {c : Certificate} (hc : c ∈ G.certs) :
    self.Retained G (s ++ [c]) out (state.insert c) := by
  intro p hp hr hgc
  rw [holds_insert hinv.entries hc]
  rcases hp with hp | hp
  · rcases List.mem_append.mp hp with hp | hp
    · exact (hret p (Or.inl hp) hr hgc).imp_left Or.inr
    · exact Or.inl (Or.inl (List.mem_singleton.mp hp))
  · exact (hret p (Or.inr hp) hr hgc).imp_left Or.inr

/-- **A commit that leaves nothing behind loses nothing.** -/
theorem Retained.commitLeader (hret : self.Retained G s out state) (hinv : self.Inv G s out state)
    (hs : G.Delivery s) {leader : Certificate} (hl : self.Committable G s state leader)
    (hkeeps : self.Keeps state leader) :
    self.Retained G s (out ++ self.orderDag leader state) (self.commitLeader state leader).1 := by
  intro p hp hr hgc
  have hlt := hl.above
  rw [lastCommittedRound_commitLeader hinv hs hl] at hgc
  rw [holds_commitLeader hinv hs hl, List.mem_append]
  rcases hret p hp hr (by omega) with hold | hout
  · by_cases hmem : p ∈ self.orderDag leader state
    · exact Or.inr (Or.inr hmem)
    cases hac : alreadyCommitted state p with
    | true => exact Or.inr (Or.inl (hinv.sent_of_alreadyCommitted hs hold hr hac))
    | false =>
      obtain ⟨hlast, hnewer⟩ := hkeeps p (mem_held hold) hr hgc hac hmem
      refine Or.inl ⟨hold, State.lastRound_le_iff.mpr fun r hr' => ?_, hgc⟩
      rcases State.lookup_updateAll_cases _ _ _ hr' with hold' | ⟨y, hy, ho, hyr⟩
      · exact State.lastRound_le_iff.mp hlast r hold'
      · rw [← hyr]
        exact hnewer y hy ho
  · exact Or.inr (Or.inl hout)

/-! ## One flattened sub-DAG -/

/-- **The parents of a flattened certificate come before it**, or were sent before. -/
theorem Retained.parent_before (hret : self.Retained G s out state)
    (hinv : self.Inv G s out state) (hs : G.Delivery s) {leader : Certificate}
    (hl : self.Committable G s state leader) {before after : List Certificate} {c p : Certificate}
    (hsplit : self.orderDag leader state = before ++ c :: after) (hp : G.Parent c p)
    (hr : 1 ≤ p.round) (hgc : state.lastCommittedRound ≤ p.round + self.gcDepth) :
    p ∈ out ++ before := by
  have hlG := hl.known.mem hs
  have hcmem : c ∈ self.orderDag leader state := by rw [hsplit]; simp
  have hsub := ((mem_orderDag hinv.entries hlG).mp hcmem).1
  have hknown := (hl.known.reaches hs (SubDag.reaches hinv.entries hsub)).parent hs hp
  rw [List.mem_append]
  rcases hret p hknown hr hgc with hold | hout
  · cases hac : alreadyCommitted state p with
    | true => exact Or.inl (hinv.sent_of_alreadyCommitted hs hold hr hac)
    | false =>
      have hpsub : G.SubDag state leader p :=
        hsub.tail ⟨p.digest, (mem_edges hinv.entries).mpr ⟨rfl, hp, hold, hac⟩⟩
      have hpmem := (mem_orderDag_iff hinv.entries hlG hl.fits).mpr ⟨hpsub, hgc⟩
      have hsorted : (self.orderDag leader state).Pairwise fun x y => x.round ≤ y.round :=
        pairwise_orderDag leader state
      rw [hsplit] at hpmem hsorted
      refine Or.inr ((List.mem_append.mp hpmem).resolve_right fun hlater => ?_)
      have hpr := hp.round_succ
      rcases List.mem_cons.mp hlater with rfl | hlater
      · omega
      · have := (List.pairwise_cons.mp (List.pairwise_append.mp hsorted).2.1).1 p hlater
        omega
  · exact Or.inl hout

theorem CausallyComplete.append {committee : Committee} {H : Universe committee} {gcDepth : ℕ}
    {sent : List Emission} (h : CausallyComplete H gcDepth sent) {e : Emission}
    (he : ∀ leader lcr certificates, e = .subDag leader lcr certificates →
      ∀ before c after, certificates = before ++ c :: after →
        ∀ p, H.Parent c p → 1 ≤ p.round → lcr ≤ p.round + gcDepth → p ∈ txOutput sent ++ before) :
    CausallyComplete H gcDepth (sent ++ [e]) := by
  intro sent' leader lcr certificates rest heq
  rcases List.eq_nil_or_concat rest with rfl | ⟨rest, e', rfl⟩
  · obtain ⟨rfl, hlast⟩ := List.append_inj' heq rfl
    exact he leader lcr certificates (List.singleton_inj.mp hlast)
  · rw [List.concat_eq_append, ← List.cons_append, ← List.append_assoc] at heq
    obtain ⟨heq, -⟩ := List.append_inj' heq rfl
    exact h sent' leader lcr certificates rest heq

/-! ## The commit loop and whole runs -/

theorem CausallyComplete.commitLeaders (hs : G.Delivery s) : ∀ {leaders : List Certificate}
    {state : State} {sent : List Emission}, CausallyComplete G self.gcDepth sent →
      self.Inv G s (txOutput sent) state → self.Retained G s (txOutput sent) state →
      (∀ x ∈ leaders, self.Committable G s state x) →
      (leaders.Pairwise fun x y => x.round < y.round) → self.KeepsAll state leaders →
      CausallyComplete G self.gcDepth (sent ++ (self.commitLeaders state leaders).2) ∧
        self.Retained G s (txOutput (sent ++ (self.commitLeaders state leaders).2))
          (self.commitLeaders state leaders).1
  | [], _, sent, hcc, _, hret, _, _, _ => (List.append_nil sent).symm ▸ ⟨hcc, hret⟩
  | leader :: leaders, state, sent, hcc, hinv, hret, hcommit, hrise, hkeeps => by
      obtain ⟨hl, hrest⟩ := List.forall_mem_cons.mp hcommit
      obtain ⟨hhead, htail⟩ := List.pairwise_cons.mp hrise
      have hout : txOutput (sent ++ [(self.commitLeader state leader).2])
          = txOutput sent ++ self.orderDag leader state := by
        rw [txOutput_append]
        exact congrArg _ (List.append_nil _)
      have hcc' := hcc.append (e := (self.commitLeader state leader).2) fun _ _ _ he before c after
          hsplit p hp hr hgc => by
        cases he
        exact hret.parent_before hinv hs hl hsplit hp hr hgc
      have key := CausallyComplete.commitLeaders hs hcc' (hout ▸ hinv.commitLeader hs hl)
        (hout ▸ hret.commitLeader hinv hs hl hkeeps.1)
        (fun x hx => hl.commitLeader hinv hs (hrest x hx) (hhead x hx)) htail hkeeps.2
      rw [List.append_assoc] at key
      exact key

/-- **The committed sequence is causally complete**, in every run in steady mode whose commits leave
no certificate behind and take no sum that overflows. -/
theorem causally_complete (hsteady : self.dynamic = false) (hs : G.Delivery s)
    (hfits : self.machine.Along self.Fits s)
    (hleaves : self.machine.Along self.LeavesNothing s) :
    CausallyComplete G self.gcDepth (self.machine.outputs s) := by
  have key : ∀ {s : List Certificate} {state : State}, G.Delivery s →
      self.machine.Along self.Fits s → self.machine.Along self.LeavesNothing s →
      self.machine.state s = .ok state →
      CausallyComplete G self.gcDepth (self.machine.outputs s) ∧
        self.Retained G s (self.output s) state := by
    intro s
    induction s using List.reverseRecOn with
    | nil =>
      intro state _ _ _ hstate
      cases hstate
      refine ⟨fun sent _ _ _ rest heq => ?_, fun p hp hr _ => ?_⟩
      · simp at heq
      · exact absurd hr (by have := hp.resolve_left (by simp); omega)
    | append_singleton s c ih =>
      intro state hs hfits hleaves hstate
      have hpre : s <+: s ++ [c] := List.prefix_append _ _
      obtain ⟨st, result, hst, hinv, hstep, hturn⟩ := turn_run hs hfits
      obtain ⟨hcc, hret⟩ := ih (hs.of_prefix hpre) (hfits.of_prefix hpre) (hleaves.of_prefix hpre)
        hst
      have hc : c ∈ G.certs := hs.mem c (List.mem_append_right _ List.mem_cons_self)
      have hhold : Holds (st.insert c).dag c := (holds_insert hinv.entries hc).mpr (Or.inl rfl)
      have hinv' := hinv.insert hc
      have hret' := hret.insert hinv hc
      rw [Mealy.state_snoc, hstep] at hstate
      cases hstate
      rw [output, Mealy.outputs_snoc, hstep]
      cases hturn with
      | wait _ => exact (List.append_nil (self.machine.outputs s)).symm ▸ ⟨hcc, hret'⟩
      | skip hdyn _ _ => rw [hsteady] at hdyn; cases hdyn
      | fallback hdyn _ _ _ => rw [hsteady] at hdyn; cases hdyn
      | steady _ hdue hb hsums hok hleaders =>
        have hkeeps : self.LeavesNothing (.ok st) c := hst ▸ hleaves.last
        rw [LeavesNothing, verdict_eq_commit hinv' hs hhold hdue hb, CommitsKeep, hok] at hkeeps
        exact hcc.commitLeaders hs hinv' hret'
          (hleaders.committable (hb.committable hinv' hdue hsums)) hleaders.rises hkeeps
  obtain ⟨state, hstate, -⟩ := inv_run hs hfits
  exact (key hs hfits hleaves hstate).1

end

/-! ## A certificate left behind

Three authorities, one of which, `h`, is a quorum on its own.  The leader of round 2 is `a 2`, which
does not name its author's own `a 1`: committing it drops `a 1` from the DAG.  The next leader,
`h 4`, has `a 1` in its history through `b 3` and `b 2`; these are sent, and `a 1` is not. -/

namespace LeftBehind

open Sample

def committee : Committee := committee3 1 7 1

def task : Consensus := ⟨committee, 50, false⟩

def cert (author : ℕ) (round : UInt64) (parents : List Certificate) : Certificate :=
  certificate committee (key author) round parents

def h1 : Certificate := cert 2 1 (Certificate.genesis committee)
def a1 : Certificate := cert 3 1 (Certificate.genesis committee)
def h2 : Certificate := cert 2 2 [h1]
def a2 : Certificate := cert 3 2 [h1]
def b2 : Certificate := cert 1 2 [h1, a1]
def h3 : Certificate := cert 2 3 [h2, a2]
def b3 : Certificate := cert 1 3 [h2, b2]
def h4 : Certificate := cert 2 4 [h3, b3]
def h5 : Certificate := cert 2 5 [h4]

/-- `a 1` is received before `a 2` is committed. -/
def dropped : List Certificate := [h1, a1, h2, a2, h3, b2, b3, h4, h5]

/-- `a 1` is received after `a 2` is committed. -/
def spared : List Certificate := [h1, h2, a2, h3, a1, b2, b3, h4, h5]

def certs : List Certificate := Certificate.genesis committee ++ dropped

set_option maxRecDepth 100000 in
theorem deliverable : Universe.WellFormed committee certs ∧
    ((∀ x ∈ dropped, x ∈ certs) ∧ Universe.ParentsFirst committee dropped ∧ dropped.Nodup) ∧
    ((∀ x ∈ spared, x ∈ certs) ∧ Universe.ParentsFirst committee spared) ∧
    (task.machine.outputs dropped
      = [.subDag a2 0 [h1, a2], .subDag h4 2 [h2, b2, h3, b3, h4]] ∧
    a1.digest ∈ b2.header.parents ∧ 1 ≤ a1.round ∧ 2 ≤ a1.round + task.gcDepth ∧
    a1 ∉ txOutput [.subDag a2 0 [h1, a2]] ++ [h2]) ∧
    a1 ∈ task.output spared ∧ task.machine.Along task.Fits spared ∧
    task.machine.Along task.LeavesNothing spared := by
  decide +kernel

theorem wellFormed : Universe.WellFormed committee certs := deliverable.1

theorem delivery_dropped : (Universe.ofList certs wellFormed).Delivery dropped :=
  Universe.delivery_ofList wellFormed deliverable.2.1.1 deliverable.2.1.2.1

theorem delivery_spared : (Universe.ofList certs wellFormed).Delivery spared :=
  Universe.delivery_ofList wellFormed deliverable.2.2.1.1 deliverable.2.2.1.2

theorem parent_b2_a1 : (Universe.ofList certs wellFormed).Parent b2 a1 := by
  have hb2 : b2 ∈ certs := by simp [certs, dropped]
  have ha1 : a1 ∈ certs := by simp [certs, dropped]
  obtain ⟨-, -, -, ⟨-, hdigest, -⟩, -⟩ := deliverable
  exact ⟨hb2, ha1, hdigest⟩

/-- **`b 2` is sent without its parent `a 1`.** -/
theorem not_causally_complete :
    task.dynamic = false ∧ (Universe.ofList certs wellFormed).Delivery dropped ∧ dropped.Nodup ∧
      ¬ CausallyComplete (Universe.ofList certs wellFormed) task.gcDepth
        (task.machine.outputs dropped) := by
  obtain ⟨-, ⟨-, -, hnodup⟩, -, ⟨houtputs, -, hround, hhorizon, hmissing⟩, -⟩ := deliverable
  refine ⟨rfl, delivery_dropped, hnodup, fun hcc => hmissing ?_⟩
  exact hcc [.subDag a2 0 [h1, a2]] h4 2 [h2, b2, h3, b3, h4] [] houtputs [h2] b2 [h3, b3, h4] rfl
    a1 parent_b2_a1 hround hhorizon

/-- Where `a 1` comes after the commit of `a 2`, it is sent in its turn. -/
theorem causally_complete_spared :
    a1 ∈ task.output spared ∧ task.machine.Along task.Fits spared ∧
      task.machine.Along task.LeavesNothing spared ∧
      CausallyComplete (Universe.ofList certs wellFormed) task.gcDepth
        (task.machine.outputs spared) := by
  obtain ⟨-, -, -, -, hmem, hfits, hleaves⟩ := deliverable
  exact ⟨hmem, hfits, hleaves, causally_complete rfl delivery_spared hfits hleaves⟩

end LeftBehind

end Consensus

end Bullshark
