import Bullshark.Config.Stake
import Bullshark.Primary.Sample
import Bullshark.Worker.Tasks

/-!
# Worker/QuorumWaiter — when a batch is released

The stake a batch has is compared with the threshold each time a handler completes, and only then.
What is released is right as long as the comparison is made when it matters: where our own stake is
a quorum and no handler completes, or there is none, the batch is dropped (`releasedExactly_iff`).
-/

namespace Bullshark

namespace Worker

namespace QuorumWaiter

/-- The main loop on one message: the handlers complete in this order. -/
def resolveAll (committee : Committee) :
    Option QuorumWaiter → List ℕ → Option QuorumWaiter × List SerializedBatchMessage
  | waiter, [] => (waiter, [])
  | none, _ => (none, [])
  | some waiter, handler :: handlers =>
    let (next, sent) := waiter.resolve committee handler
    let (last, rest) := resolveAll committee next handlers
    (last, sent.toList ++ rest)

/-- What is forwarded on `tx_batch` for a message. -/
def forwarded (committee : Committee) (stake : Stake) (message : QuorumWaiterMessage)
    (handlers : List ℕ) : List SerializedBatchMessage :=
  (resolveAll committee (receive committee stake message) handlers).2

/-- Our stake with that of the authorities whose handlers completed. -/
def heldBy (committee : Committee) (stake : Stake) (done : List (PublicKey × ℕ)) : ℕ :=
  stake.toNat + (done.map fun h => committee.weight h.1).sum

/-- The batch is forwarded, once, if a quorum holds it, and not otherwise. -/
def ReleasedExactly (committee : Committee) (stake : Stake) (message : QuorumWaiterMessage)
    (done : List (PublicKey × ℕ)) : Prop :=
  forwarded committee stake message (done.map Prod.snd)
    = if committee.quorumThreshold.toNat ≤ heldBy committee stake done then [message.batch] else []

/-- At some completion, the `u32` sum of our stake and of those completed reaches the threshold. -/
def Reached (committee : Committee) (stake : Stake) (done : List (PublicKey × ℕ)) : Prop :=
  ∃ first, first ≠ [] ∧ first <+: done ∧
    committee.quorumThreshold ≤ stake + (first.map fun h => committee.stake h.1).sum

variable {committee : Committee}

/-! ## The loop over the completions -/

@[simp] theorem not_reached_nil (stake : Stake) : ¬ Reached committee stake [] := by
  rintro ⟨first, hne, hprefix, -⟩
  exact hne (List.prefix_nil.mp hprefix)

/-- The first completion reaches the threshold, or a later one does. -/
theorem reached_cons {stake : Stake} {h : PublicKey × ℕ} {done : List (PublicKey × ℕ)} :
    Reached committee stake (h :: done) ↔
      committee.quorumThreshold ≤ stake + committee.stake h.1 ∨
        Reached committee (stake + committee.stake h.1) done := by
  constructor
  · rintro ⟨first, hne, hprefix, hsum⟩
    obtain ⟨x, first, rfl⟩ := List.exists_cons_of_ne_nil hne
    obtain ⟨rfl, hrest⟩ := List.cons_prefix_cons.mp hprefix
    rw [List.map_cons, List.sum_cons, ← add_assoc] at hsum
    by_cases hnil : first = []
    · rw [hnil] at hsum
      exact Or.inl (by simpa using hsum)
    · exact Or.inr ⟨first, hnil, hrest, hsum⟩
  · rintro (hnow | ⟨first, -, hprefix, hsum⟩)
    · exact ⟨[h], by simp, by simp, by simpa using hnow⟩
    · refine ⟨h :: first, by simp, List.cons_prefix_cons.mpr ⟨rfl, hprefix⟩, ?_⟩
      rwa [List.map_cons, List.sum_cons, ← add_assoc]

/-- A key is looked up to its entry, where the keys are distinct. -/
theorem lookup_eq_some_of_mem {l : List (ℕ × Stake)} (hnodup : (l.map Prod.fst).Nodup) {k : ℕ}
    {s : Stake} (h : (k, s) ∈ l) : l.lookup k = some s := by
  induction l with
  | nil => cases h
  | cons e l ih =>
    obtain ⟨hne, hnodup'⟩ := List.nodup_cons.mp hnodup
    rcases List.mem_cons.mp h with rfl | hmem
    · simp
    · have hk : k ≠ e.1 := fun hk => hne (hk ▸ List.mem_map.mpr ⟨(k, s), hmem, rfl⟩)
      rw [List.lookup_cons, beq_false_of_ne hk]
      exact ih hnodup' hmem

theorem resolveAll_none (handlers : List ℕ) :
    resolveAll committee none handlers = (none, []) := by
  cases handlers <;> rfl

/-- **The loop forwards the batch when the running sum reaches the threshold**: the handlers wait
under distinct numbers, and those of `done` are among them. -/
theorem forwarded_resolveAll {done : List (PublicKey × ℕ)} :
    ∀ waiter : QuorumWaiter, (waiter.waitForQuorum.map Prod.fst).Nodup →
      (done.map Prod.snd).Nodup →
      (∀ h ∈ done, (h.2, committee.stake h.1) ∈ waiter.waitForQuorum) →
      ((Reached committee waiter.totalStake done →
          (resolveAll committee waiter.next (done.map Prod.snd)).2 = [waiter.batch]) ∧
        (¬ Reached committee waiter.totalStake done →
          (resolveAll committee waiter.next (done.map Prod.snd)).2 = [])) := by
  induction done with
  | nil => exact fun _ _ _ _ => ⟨fun h => absurd h (not_reached_nil _), fun _ => rfl⟩
  | cons h done ih =>
    intro waiter hkeys hdone hwait
    obtain ⟨hnew, hdone'⟩ := List.nodup_cons.mp hdone
    obtain ⟨hmem, hwait'⟩ := List.forall_mem_cons.mp hwait
    have hnext : waiter.next = some waiter := by
      rw [next, if_neg (List.ne_nil_of_mem hmem)]
    have hlookup := lookup_eq_some_of_mem hkeys hmem
    rw [reached_cons, hnext, List.map_cons, resolveAll, resolve, hlookup]
    dsimp only
    by_cases hreach : committee.quorumThreshold ≤ waiter.totalStake + committee.stake h.1
    · rw [if_pos hreach, resolveAll_none]
      exact ⟨fun _ => rfl, fun hnot => absurd (Or.inl hreach) hnot⟩
    · rw [if_neg hreach, or_iff_right hreach]
      -- the handler no longer waits; the others of `done` have other numbers
      refine ih ⟨waiter.batch, waiter.waitForQuorum.eraseP fun x => x.1 = h.2,
        waiter.totalStake + committee.stake h.1⟩
        (hkeys.sublist (List.eraseP_sublist.map Prod.fst)) hdone' fun x hx => ?_
      have hother : x.2 ≠ h.2 := fun heq => hnew (heq ▸ List.mem_map_of_mem hx)
      exact (List.mem_eraseP_of_neg (by simpa using hother)).mpr (hwait' x hx)

/-- What the loop makes of a message. -/
theorem forwarded_eq (committee : Committee) (stake : Stake) {message : QuorumWaiterMessage}
    {done : List (PublicKey × ℕ)} (hhandlers : (message.handlers.map Prod.snd).Nodup)
    (hdone : (done.map Prod.snd).Nodup) (hsub : done ⊆ message.handlers) :
    (Reached committee stake done →
        forwarded committee stake message (done.map Prod.snd) = [message.batch]) ∧
      (¬ Reached committee stake done →
        forwarded committee stake message (done.map Prod.snd) = []) := by
  refine forwarded_resolveAll ⟨message.batch,
    message.handlers.map fun h => (h.2, committee.stake h.1), stake⟩ ?_ hdone fun h hh => ?_
  · rw [List.map_map]
    exact hhandlers
  · exact List.mem_map_of_mem (f := fun h : PublicKey × ℕ => (h.2, committee.stake h.1)) (hsub hh)

/-! ## The stake that holds the batch -/

/-- The `u32` sum is at most the stake. -/
theorem toNat_le_heldBy (stake : Stake) (done : List (PublicKey × ℕ)) :
    (stake + (done.map fun h => committee.stake h.1).sum).toNat ≤ heldBy committee stake done := by
  have hsum : ((done.map fun h => committee.stake h.1).sum).toNat
      ≤ (done.map fun h => committee.weight h.1).sum := by
    rw [toNat_sum, List.map_map]
    exact Nat.mod_le _ _
  rw [UInt32.toNat_add, heldBy]
  exact (Nat.mod_le _ _).trans (Nat.add_le_add_left hsum _)

/-- More completions hold more. -/
theorem heldBy_mono {stake : Stake} {first done : List (PublicKey × ℕ)} (h : first <+: done) :
    heldBy committee stake first ≤ heldBy committee stake done := by
  obtain ⟨rest, rfl⟩ := h
  rw [heldBy, heldBy, List.map_append, List.sum_append]
  omega

theorem Reached.le_heldBy {stake : Stake} {done : List (PublicKey × ℕ)}
    (h : Reached committee stake done) :
    committee.quorumThreshold.toNat ≤ heldBy committee stake done := by
  obtain ⟨first, -, hprefix, hsum⟩ := h
  exact (UInt32.le_iff_toNat_le.mp hsum).trans ((toNat_le_heldBy _ _).trans (heldBy_mono hprefix))

/-- **A batch is released exactly when a quorum holds it, if the threshold is tested in time**: there
is no quorum, or one is found at some completion. -/
theorem releasedExactly_iff (committee : Committee) (stake : Stake) (message : QuorumWaiterMessage)
    (done : List (PublicKey × ℕ)) (hhandlers : (message.handlers.map Prod.snd).Nodup)
    (hdone : (done.map Prod.snd).Nodup) (hsub : done ⊆ message.handlers) :
    ReleasedExactly committee stake message done ↔
      heldBy committee stake done < committee.quorumThreshold.toNat ∨
        Reached committee stake done := by
  obtain ⟨hreached, hnot⟩ := forwarded_eq committee stake hhandlers hdone hsub
  rw [ReleasedExactly]
  by_cases h : Reached committee stake done
  · rw [hreached h, if_pos h.le_heldBy]
    exact iff_of_true rfl (Or.inr h)
  · rw [hnot h, or_iff_left h]
    by_cases hheld : committee.quorumThreshold.toNat ≤ heldBy committee stake done
    · rw [if_pos hheld]
      exact iff_of_false (by simp) hheld.not_gt
    · rw [if_neg hheld]
      exact iff_of_true rfl (not_le.mp hheld)

/-- Where the stakes fit in `u32`, the test is in time unless our own stake is a quorum and no
handler completes. -/
theorem held_lt_or_reached_iff {stake : Stake} {done : List (PublicKey × ℕ)}
    (hfits : heldBy committee stake done < 2 ^ 32) :
    heldBy committee stake done < committee.quorumThreshold.toNat ∨ Reached committee stake done ↔
      stake < committee.quorumThreshold ∨ done ≠ [] := by
  have hexact : (stake + (done.map fun h => committee.stake h.1).sum).toNat
      = heldBy committee stake done := by
    rw [UInt32.toNat_add, toNat_sum, List.map_map, Nat.add_mod_mod]
    exact Nat.mod_eq_of_lt hfits
  constructor
  · rintro (hheld | ⟨first, hne, hprefix, -⟩)
    · refine Or.inl (UInt32.lt_iff_toNat_lt.mpr (lt_of_le_of_lt ?_ hheld))
      exact Nat.le_add_right _ _
    · refine Or.inr fun hnil => hne (List.prefix_nil.mp (hnil ▸ hprefix))
  · intro h
    by_cases hnil : done = []
    · subst hnil
      exact Or.inl (UInt32.lt_iff_toNat_lt.mp (h.resolve_right (· rfl)))
    · rcases lt_or_ge (heldBy committee stake done) committee.quorumThreshold.toNat with hlt | hge
      · exact Or.inl hlt
      · refine Or.inr ⟨done, hnil, List.prefix_rfl, UInt32.le_iff_toNat_le.mpr ?_⟩
        rwa [hexact]

end QuorumWaiter

end Worker

namespace Worker.QuorumWaiter.Alone

/-- A committee of one authority. -/
def committee : Committee :=
  let address : SocketAddr := ⟨.v4 0, 0⟩
  ⟨⟨[(⟨1⟩, ⟨1, ⟨address, address⟩, ∅⟩)], by decide⟩⟩

/-- Its worker has no one to send a batch to. -/
def message : QuorumWaiterMessage := ⟨[0], []⟩

/-- **The batch is dropped**: one of one stake is a quorum. -/
theorem dropped : committee.quorumThreshold = 1 ∧ ¬ ReleasedExactly committee 1 message [] := by
  refine ⟨by decide +kernel, fun h => ?_⟩
  have hquorum : committee.quorumThreshold.toNat ≤ heldBy committee 1 [] := by decide +kernel
  rw [ReleasedExactly, if_pos hquorum] at h
  cases h

end Worker.QuorumWaiter.Alone

/-! ## A quorum part-way through the completions -/

namespace Worker.QuorumWaiter.OfFour

open Sample

/-- The first authority's batch, sent to the three others; three are a quorum. -/
def message : QuorumWaiterMessage := ⟨[0], [(key 2, 7), (key 3, 8), (key 4, 9)]⟩

/-- The order in which they acknowledge. -/
def done : List (PublicKey × ℕ) := [(key 3, 8), (key 2, 7), (key 4, 9)]

/-- With our stake the second acknowledgment makes a quorum; the third changes nothing. -/
theorem released : forwarded committee4 1 message [8] = [] ∧
    forwarded committee4 1 message [8, 7] = [[0]] ∧ ReleasedExactly committee4 1 message done :=
  ⟨by decide +kernel, by decide +kernel,
    (releasedExactly_iff committee4 1 message done (by decide) (by decide) (by decide)).mpr
      ((held_lt_or_reached_iff (by decide +kernel)).mpr (Or.inr (by decide)))⟩

end Worker.QuorumWaiter.OfFour

end Bullshark
