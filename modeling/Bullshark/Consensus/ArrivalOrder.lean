import Bullshark.Consensus.Causal
import Bullshark.Consensus.OnTime

/-!
# Consensus/ArrivalOrder — does the flattened sub-DAG depend on the order of arrival?

Two validators that sent the same so far hold the same certificates above the horizon, except those
below their author's last committed round: such a certificate was dropped if it came before its
author's newer one was committed, and is in the DAG if it came after.  `orderDag_eq_iff` says that
`order_dag` returns the same list on both exactly when they agree on the late certificates it
meets, as long as no sum of a round and `gc_depth` overflows.
-/

namespace Bullshark

namespace Consensus

section

variable [Crypto]

variable {self : Consensus} {G : Universe self.committee}

open Universe

variable {s t out : List Certificate} {state state' : State}

/-- The two states agree on the late parents of what the leader reaches in the first. -/
def AgreeOnLate (self : Consensus) (G : Universe self.committee) (leader : Certificate)
    (state state' : State) : Prop :=
  ∀ x, G.SubDag state leader x → ∀ p, G.Parent x p → self.Late state p →
    (Holds state.dag p ↔ Holds state'.dag p)

omit [Crypto] in
/-- A late certificate is not the last committed one of its author. -/
theorem Late.alreadyCommitted {c : Certificate} (h : self.Late state c) :
    alreadyCommitted state c = false := by
  refine decide_eq_false fun heq => ?_
  have := h.2
  rw [State.lastRound, heq, Option.getD_some] at this
  omega

omit [Crypto] in
theorem late_congr (hround : state.lastCommittedRound = state'.lastCommittedRound)
    (hlast : ∀ n, state.lastCommitted.lookup n = state'.lastCommitted.lookup n) {c : Certificate} :
    self.Late state c ↔ self.Late state' c := by
  rw [Late, Late, hround, State.lastRound, State.lastRound, hlast]

/-- A late parent of a flattened certificate is flattened exactly if the DAG holds it. -/
theorem late_mem_orderDag_iff (hinv : self.Inv G s out state) (hs : G.Delivery s)
    {leader x p : Certificate} (hl : G.Known s leader)
    (hfits : leader.round + self.gcDepth < 2 ^ 64) (hx : x ∈ self.orderDag leader state)
    (hp : G.Parent x p) (hlate : self.Late state p) (hne : p.round < leader.round) :
    p ∈ self.orderDag leader state ↔ Holds state.dag p := by
  rw [mem_orderDag_iff hinv.entries (hl.mem hs) hfits] at hx ⊢
  constructor
  · rintro ⟨hsub, -⟩
    rcases hsub.cases hinv.entries with rfl | ⟨hold, -⟩
    · omega
    · exact hold
  · intro hold
    exact ⟨hx.1.tail ⟨p.digest, (mem_edges hinv.entries).mpr
      ⟨rfl, hp, hold, hlate.alreadyCommitted⟩⟩, hlate.1⟩

/-- **The flattened sub-DAGs of a leader agree exactly when the two states agree on the late
certificates the search meets**, where no sum of a round and `gc_depth` overflows. -/
theorem orderDag_eq_iff (hs : G.Delivery s) (ht : G.Delivery t)
    (hfits : self.machine.Along self.Fits s) (hfits' : self.machine.Along self.Fits t)
    (hstate : self.machine.state s = .ok state) (hstate' : self.machine.state t = .ok state')
    (hsame : self.output s = self.output t) {leader : Certificate}
    (hl : Holds state.dag leader) (hl' : Holds state'.dag leader)
    (hleader : leader.round + self.gcDepth < 2 ^ 64) :
    self.orderDag leader state = self.orderDag leader state' ↔
      self.AgreeOnLate G leader state state' := by
  obtain ⟨_, hst, hinv⟩ := inv_run hs hfits
  obtain rfl := Except.ok.inj (hstate.symm.trans hst)
  obtain ⟨_, hst', hinv'⟩ := inv_run ht hfits'
  obtain rfl := Except.ok.inj (hstate'.symm.trans hst')
  rw [← hsame] at hinv'
  have hround := hinv.lastCommittedRound_eq hinv'
  have hlast := hinv.lookup_eq hinv'
  have hknown := hinv.known _ hl
  have hknown' := hinv'.known _ hl'
  constructor
  · intro heq x hx p hp hlate
    have hreach := SubDag.reaches hinv.entries hx
    have hr := hp.round_succ
    have hle := hreach.round_le
    have hxmem : x ∈ self.orderDag leader state :=
      (mem_orderDag_iff hinv.entries (hknown.mem hs) hleader).mpr
        ⟨hx, by have := hlate.1; omega⟩
    rw [← late_mem_orderDag_iff hinv hs hknown hleader hxmem hp hlate (by omega),
      ← late_mem_orderDag_iff hinv' ht hknown' hleader (heq ▸ hxmem) hp
        ((late_congr hround hlast).mp hlate) (by omega), heq]
  · intro hagree
    refine orderDag_congr hinv.entries hinv'.entries hround hlast (hknown.mem hs) hleader
      fun x hx p hp hgc => ?_
    by_cases hlate : self.Late state p
    · exact hagree x hx p hp hlate
    -- what is not late is held by both
    have hreach := (SubDag.reaches hinv.entries hx).tail hp
    have hfresh : state.lastRound p.origin ≤ p.round := not_lt.mp fun hlt => hlate ⟨hgc, hlt⟩
    refine iff_of_true (hinv.kept p (hknown.reaches hs hreach) hfresh hgc)
      (hinv'.kept p (hknown'.reaches ht hreach) ?_ (hround ▸ hgc))
    rwa [State.lastRound, ← hlast]

end

namespace LeftBehind

open Sample

/-! ## The certificate left behind, again

The validator of `dropped` lost `a 1` when `a 2` was committed; the one of `spared` received it
after that, and still holds it.  Both sent the same before `h 5` arrives. -/

/-- `dropped`, up to the leader of round 4. -/
def without : List Certificate := [h1, a1, h2, a2, h3, b2, b3, h4]

/-- `spared`, up to the leader of round 4. -/
def within : List Certificate := [h1, h2, a2, h3, a1, b2, b3, h4]

/-- `without`, with `a 1` first. -/
def withoutToo : List Certificate := [a1, h1, h2, a2, h3, b2, b3, h4]

set_option maxRecDepth 100000 in
theorem deliverable_prefixes :
    ((∀ x ∈ without, x ∈ certs) ∧ Universe.ParentsFirst committee without ∧ without.Nodup) ∧
    ((∀ x ∈ within, x ∈ certs) ∧ Universe.ParentsFirst committee within ∧ within.Nodup) ∧
    ((∀ x ∈ withoutToo, x ∈ certs) ∧ Universe.ParentsFirst committee withoutToo) ∧
    task.output without = task.output within ∧
    (task.reached without).dag.get h4.round h4.origin = some (h4.digest, h4) ∧
    (task.reached within).dag.get h4.round h4.origin = some (h4.digest, h4) ∧
    (task.reached withoutToo).dag.get h4.round h4.origin = some (h4.digest, h4) ∧
    (task.reached without).lastCommittedRound < h4.round ∧
    task.orderDag h4 (task.reached without) ≠ task.orderDag h4 (task.reached within) ∧
    task.output without = task.output withoutToo ∧
    task.orderDag h4 (task.reached without) = task.orderDag h4 (task.reached withoutToo) ∧
    task.machine.Along task.Fits without ∧ task.machine.Along task.Fits within ∧
    task.machine.Along task.Fits withoutToo ∧ h4.round + task.gcDepth < 2 ^ 64 := by
  decide +kernel

theorem delivery_without : (Universe.ofList certs wellFormed).Delivery without :=
  Universe.delivery_ofList wellFormed deliverable_prefixes.1.1 deliverable_prefixes.1.2.1

theorem delivery_within : (Universe.ofList certs wellFormed).Delivery within :=
  Universe.delivery_ofList wellFormed deliverable_prefixes.2.1.1 deliverable_prefixes.2.1.2.1

theorem delivery_withoutToo : (Universe.ofList certs wellFormed).Delivery withoutToo :=
  Universe.delivery_ofList wellFormed deliverable_prefixes.2.2.1.1
    deliverable_prefixes.2.2.1.2

/-- **The two validators flatten `h 4` differently.** -/
theorem orderDag_differs :
    task.dynamic = false ∧ (Universe.ofList certs wellFormed).Delivery without ∧ without.Nodup ∧
      (Universe.ofList certs wellFormed).Delivery within ∧ within.Nodup ∧
      task.machine.state without = .ok (task.reached without) ∧
      task.machine.state within = .ok (task.reached within) ∧
      task.output without = task.output within ∧
      Universe.Holds (task.reached without).dag h4 ∧ Universe.Holds (task.reached within).dag h4 ∧
      (task.reached without).lastCommittedRound < h4.round ∧
      task.orderDag h4 (task.reached without) ≠ task.orderDag h4 (task.reached within) := by
  obtain ⟨⟨-, -, hnodup⟩, ⟨-, -, hnodup'⟩, -, hsame, hholds, hholds', -, hround, hdiffer, -, -, hfits,
    hfits', -⟩ := deliverable_prefixes
  exact ⟨rfl, delivery_without, hnodup, delivery_within, hnodup',
    state_eq_reached delivery_without hfits, state_eq_reached delivery_within hfits', hsame, hholds,
    hholds', hround, hdiffer⟩

/-- Two validators that both lost `a 1` agree on what is late, and flatten `h 4` alike. -/
theorem orderDag_eq_iff_without :
    (task.orderDag h4 (task.reached without) = task.orderDag h4 (task.reached withoutToo) ↔
        task.AgreeOnLate (Universe.ofList certs wellFormed) h4 (task.reached without)
          (task.reached withoutToo)) ∧
      task.orderDag h4 (task.reached without) = task.orderDag h4 (task.reached withoutToo) := by
  obtain ⟨-, -, -, -, hholds, -, hholds', -, -, hsame, halike, hfits, -, hfits', hleader⟩ :=
    deliverable_prefixes
  exact ⟨orderDag_eq_iff delivery_without delivery_withoutToo hfits hfits'
    (state_eq_reached delivery_without hfits) (state_eq_reached delivery_withoutToo hfits') hsame
    hholds hholds' hleader, halike⟩

end LeftBehind

end Consensus

end Bullshark
