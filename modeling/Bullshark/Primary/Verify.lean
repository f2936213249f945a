import Bullshark.Primary.Messages
import Bullshark.Machinery.Fallible

/-!
# Primary/Verify — what the checks on messages accept

`Header::verify` and the quorum branch of `Certificate::verify`, each as the list of the conditions
under which it returns `Ok`.
-/

namespace Bullshark

namespace Header

variable [Crypto]

/-- **What `Header::verify` accepts.** -/
theorem verify_eq_ok_iff {h : Header} {committee : Committee} :
    h.verify committee = .ok () ↔
      h.digest = h.id ∧ 0 < committee.stake h.author ∧
        (∀ w ∈ h.payload.values, ∃ a, committee.worker h.author w = .ok a) ∧
        h.signature.verify h.id h.author = true := by
  have hworker : ∀ w, h.checkWorker committee w = .ok () ↔
      ∃ a, committee.worker h.author w = .ok a := by
    intro w
    rw [checkWorker]
    cases committee.worker h.author w <;> simp
  simp only [verify, Except.bind_unit_eq_ok_iff, ensure_eq_ok, Except.forM_eq_ok_iff, hworker,
    gt_iff_lt]

/-- `Header::verify` does not look at how old the header is. -/
theorem verify_ne_tooOld (h : Header) (committee : Committee) (d : Digest) (r : ℕ) :
    h.verify committee ≠ .error (.tooOld d r) := by
  refine Except.bind_ne_error (ensure_ne_error (by simp)) fun _ => ?_
  refine Except.bind_ne_error (ensure_ne_error (by simp)) fun _ => ?_
  refine Except.bind_ne_error (Except.forM_ne_error (fun w => ?_) _) fun _ =>
    ensure_ne_error (by simp)
  rw [checkWorker]
  cases committee.worker h.author w <;> simp

end Header

namespace Vote

variable [Crypto]

section New

variable (header : Header) (author : PublicKey) (requestSignature : Digest → Signature)

@[simp] theorem new_id : (new header author requestSignature).id = header.id := rfl

@[simp] theorem new_round : (new header author requestSignature).round = header.round := rfl

@[simp] theorem new_origin : (new header author requestSignature).origin = header.author := rfl

@[simp] theorem new_author : (new header author requestSignature).author = author := rfl

end New

/-- **What `Vote::verify` accepts.** -/
theorem verify_eq_ok_iff {v : Vote} {committee : Committee} :
    v.verify committee = .ok () ↔
      0 < committee.stake v.author ∧ v.signature.verify v.digest v.author = true := by
  simp only [verify, Except.bind_unit_eq_ok_iff, ensure_eq_ok, gt_iff_lt]

end Vote

namespace Certificate

/-- The loop over the votes: distinct authorities of positive stake, and the sum of their stakes. -/
theorem foldlM_countVote_eq_ok_iff {committee : Committee} :
    ∀ {votes : List (PublicKey × Signature)} {acc acc' : Stake × List PublicKey},
      votes.foldlM (countVote committee) acc = .ok acc' ↔
        ((votes.map Prod.fst).Nodup ∧ (∀ v ∈ votes, v.1 ∉ acc.2) ∧
          ∀ v ∈ votes, 0 < committee.stake v.1) ∧
        acc' = (acc.1 + (votes.map fun v => committee.stake v.1).sum,
          (votes.map Prod.fst).reverse ++ acc.2)
  | [], acc, acc' => by
      simp [pure, Except.pure, eq_comm]
  | v :: votes, acc, acc' => by
      have hstep : ∀ acc₁, countVote committee acc v = .ok acc₁ ↔
          (v.1 ∉ acc.2 ∧ 0 < committee.stake v.1) ∧
            acc₁ = (acc.1 + committee.stake v.1, v.1 :: acc.2) := by
        intro acc₁
        simp only [countVote, Except.bind_unit_eq_ok_iff, ensure_eq_ok, pure, Except.pure,
          Except.ok.injEq, and_assoc]
        exact and_congr_right fun _ => and_congr_right fun _ => eq_comm
      rw [List.foldlM_cons, Except.bind_eq_ok_iff]
      simp only [hstep, foldlM_countVote_eq_ok_iff]
      simp only [List.map_cons, List.nodup_cons, List.sum_cons, List.reverse_cons,
        List.append_assoc, List.singleton_append]
      constructor
      · rintro ⟨_, ⟨⟨hnew, hpos⟩, rfl⟩, ⟨hnd, hdisj, hall⟩, rfl⟩
        refine ⟨⟨⟨fun hmem => ?_, hnd⟩, List.forall_mem_cons.mpr ⟨hnew, fun w hw hmem => ?_⟩,
          List.forall_mem_cons.mpr ⟨hpos, hall⟩⟩, by rw [add_assoc]⟩
        · obtain ⟨w, hw, hwv⟩ := List.mem_map.mp hmem
          exact hdisj w hw (hwv ▸ List.mem_cons_self)
        · exact hdisj w hw (List.mem_cons_of_mem _ hmem)
      · rintro ⟨⟨⟨hv, hnd⟩, hdisj, hall⟩, rfl⟩
        obtain ⟨hnew, hdisj⟩ := List.forall_mem_cons.mp hdisj
        obtain ⟨hpos, hall⟩ := List.forall_mem_cons.mp hall
        refine ⟨_, ⟨⟨hnew, hpos⟩, rfl⟩, ⟨hnd, fun w hw hmem => ?_, hall⟩, by rw [add_assoc]⟩
        rcases List.mem_cons.mp hmem with hwv | hmem
        · exact hv (List.mem_map.mpr ⟨w, hw, hwv⟩)
        · exact hdisj w hw hmem

variable [Crypto]

/-- **What the quorum branch of `Certificate::verify` accepts.** -/
theorem verifyQuorum_eq_ok_iff {c : Certificate} {committee : Committee} :
    c.verifyQuorum committee = .ok () ↔
      c.header.verify committee = .ok () ∧ (c.votes.map Prod.fst).Nodup ∧
        (∀ v ∈ c.votes, 0 < committee.stake v.1) ∧
        committee.quorumThreshold ≤ (c.votes.map fun v => committee.stake v.1).sum ∧
        ∀ v ∈ c.votes, Signature.verifies c.digest v = true := by
  have hcount : ∀ weight : Stake,
      (do ensure (weight ≥ committee.quorumThreshold) .certificateRequiresQuorum
          ensure (Signature.verifyBatch c.digest c.votes) .invalidSignature
        : Except DagError Unit) = .ok () ↔
        committee.quorumThreshold ≤ weight ∧ ∀ v ∈ c.votes, Signature.verifies c.digest v = true := by
    intro weight
    rw [Except.bind_unit_eq_ok_iff, ensure_eq_ok, ensure_eq_ok, Signature.verifyBatch_eq_all,
      List.all_eq_true, ge_iff_le]
  rw [verifyQuorum, Except.bind_unit_eq_ok_iff, Except.bind_eq_ok_iff]
  refine and_congr_right fun _ => ?_
  constructor
  · rintro ⟨acc, hacc, hrest⟩
    obtain ⟨⟨hnd, -, hpos⟩, rfl⟩ := foldlM_countVote_eq_ok_iff.mp hacc
    obtain ⟨hweight, hsig⟩ := (hcount (0 + (c.votes.map fun v => committee.stake v.1).sum)).mp hrest
    exact ⟨hnd, hpos, by simpa using hweight, hsig⟩
  · rintro ⟨hnd, hpos, hweight, hsig⟩
    refine ⟨_, foldlM_countVote_eq_ok_iff.mpr ⟨⟨hnd, fun v _ hv => ?_, hpos⟩, rfl⟩, ?_⟩
    · cases hv
    · exact (hcount (0 + (c.votes.map fun v => committee.stake v.1).sum)).mpr
        ⟨by simpa using hweight, hsig⟩

/-- `Certificate::verify` does not look at how old the certificate is. -/
theorem verify_ne_tooOld (c : Certificate) (committee : Committee) (d : Digest) (r : ℕ) :
    c.verify committee ≠ .error (.tooOld d r) := by
  rw [verify]
  split
  · simp
  · refine Except.bind_ne_error (c.header.verify_ne_tooOld committee d r) fun _ => ?_
    refine Except.bind_ne_error (Except.foldlM_ne_error (fun acc v => ?_) _ _) fun _ => ?_
    · refine Except.bind_ne_error (ensure_ne_error (by simp)) fun _ => ?_
      exact Except.bind_ne_error (ensure_ne_error (by simp)) fun _ => (by simp [pure, Except.pure])
    · exact Except.bind_ne_error (ensure_ne_error (by simp)) fun _ => ensure_ne_error (by simp)

end Certificate

end Bullshark
