import Bullshark.Consensus.Linked

/-!
# Consensus/Invariant — what every run of the consensus task keeps

`Inv s out state` relates a state to the certificates `s` received and `out` sent so far.  Its
heart is `kept`: a certificate received is in the DAG unless it lies below its author's last
committed round or below the horizon.  Insertion keeps it, whatever is received and in whatever
order, and so does the commit of a leader, as long as no sum of a round of the DAG and `gc_depth`
overflows (`Committable`).
-/

namespace Bullshark

variable [Crypto]

namespace Consensus

variable {self : Consensus} {G : Universe self.committee}

open Universe

/-- What holds of the state after receiving `s` and sending `out`. -/
structure Inv (task : Consensus) (G : Universe task.committee) (s out : List Certificate)
    (state : State) : Prop where
  entries : G.Entries state.dag
  /-- The DAG holds nothing that was not received. -/
  known : ∀ c, Holds state.dag c → G.Known s c
  /-- The DAG lost nothing but what fell behind its author or below the horizon. -/
  kept : ∀ c, G.Known s c → state.lastRound c.origin ≤ c.round →
    state.lastCommittedRound ≤ c.round + task.gcDepth → Holds state.dag c
  max : state.RoundIsMax
  /-- The last committed rounds are those of the certificates sent. -/
  history : ∀ n, state.lastCommitted.lookup n = (State.updateAll task.gcDepth
    (State.new (Certificate.genesis task.committee)) out).lastCommitted.lookup n
  output : ∀ c ∈ out, G.Known s c

variable {s out : List Certificate} {state : State}

/-! ## The initial state -/

omit [Crypto] in
theorem map_origin_genesis (committee : Committee) :
    (Certificate.genesis committee).map Certificate.origin = committee.authorities.keys := by
  rw [Certificate.genesis, List.map_map]
  exact List.map_id _

theorem get_new {committee : Committee} {r : ℕ} {n : PublicKey} {e : Digest × Certificate} :
    (State.new (Certificate.genesis committee)).dag.get r n = some e ↔
      r = 0 ∧ ∃ c ∈ Certificate.genesis committee, c.origin = n ∧ (c.digest, c) = e := by
  have hnd : (((Certificate.genesis committee).map fun c => (c.origin, (c.digest, c))).map
      Prod.fst).Nodup := by
    rw [List.map_map]
    exact (map_origin_genesis committee).symm ▸ committee.authorities.nodup_keys
  rw [State.new, Dag.get, AList.lookup_insert_eq]
  by_cases hr : r = 0
  · rw [if_pos hr, Option.bind_some, AList.lookup_collect_eq_some_iff hnd, List.mem_map]
    simp [hr]
  · simp [hr]

omit [Crypto] in
theorem round_genesis {committee : Committee} {c : Certificate}
    (h : c ∈ Certificate.genesis committee) : c.round = 0 := by
  obtain ⟨name, -, rfl⟩ := List.mem_map.mp h
  rfl

/-- At the start the last committed round of every authority is zero. -/
theorem lookup_new_eq_some_iff {committee : Committee} {n : PublicKey} {r : ℕ} :
    (State.new (Certificate.genesis committee)).lastCommitted.lookup n = some r ↔
      n ∈ committee.authorities.keys ∧ r = 0 := by
  have hnd : (((Certificate.genesis committee).map fun c => (c.origin, c.round)).map
      Prod.fst).Nodup := by
    rw [List.map_map]
    exact (map_origin_genesis committee).symm ▸ committee.authorities.nodup_keys
  rw [State.new, AList.lookup_collect_eq_some_iff hnd, List.mem_map]
  constructor
  · rintro ⟨c, hc, heq⟩
    cases heq
    obtain ⟨name, hname, rfl⟩ := List.mem_map.mp hc
    exact ⟨hname, rfl⟩
  · rintro ⟨hn, rfl⟩
    exact ⟨Certificate.genesisOf n, List.mem_map_of_mem hn, rfl⟩

theorem lookup_new {committee : Committee} {n : PublicKey} {r : ℕ}
    (h : (State.new (Certificate.genesis committee)).lastCommitted.lookup n = some r) : r = 0 :=
  (lookup_new_eq_some_iff.mp h).2

theorem inv_new : self.Inv G [] [] (State.new (Certificate.genesis self.committee)) where
  entries := by
    intro r n e he
    obtain ⟨rfl, c, hc, rfl, rfl⟩ := get_new.mp he
    exact ⟨rfl, round_genesis hc, rfl, ((G.genesis c).mp hc).1⟩
  known := by
    intro c hc
    obtain ⟨-, c', hc', -, heq⟩ := get_new.mp hc
    have hcc : c' = c := congrArg Prod.snd heq
    exact Or.inr ((G.genesis c).mp (hcc ▸ hc'))
  kept := by
    rintro c (hc | hc) _ _
    · cases hc
    · exact get_new.mpr ⟨hc.2, c, (G.genesis c).mpr hc, rfl, rfl⟩
  max := ⟨fun n r hr => by rw [lookup_new hr]; exact Nat.zero_le _, Or.inl rfl⟩
  history := fun n => rfl
  output := fun c hc => by cases hc

/-- The last committed round of an author is that of a certificate sent. -/
theorem Inv.committed (hinv : self.Inv G s out state) {n : PublicKey} {r : ℕ}
    (h : state.lastCommitted.lookup n = some r) :
    r = 0 ∨ ∃ c ∈ out, c.origin = n ∧ c.round = r := by
  rw [hinv.history] at h
  exact (State.lookup_updateAll_cases _ _ _ h).imp_left lookup_new

/-! ## Receiving a certificate -/

/-- Insertion adds the certificate and nothing else. -/
theorem holds_insert (hE : G.Entries state.dag) {c : Certificate} (hc : c ∈ G.certs)
    {x : Certificate} : Holds (state.insert c).dag x ↔ x = c ∨ Holds state.dag x := by
  rw [Holds, State.get_insert]
  by_cases hkey : x.round = c.round ∧ x.origin = c.origin
  · rw [if_pos hkey]
    constructor
    · intro h
      exact Or.inl (Prod.ext_iff.mp (Option.some.inj h)).2.symm
    · rintro (rfl | hx)
      · rfl
      · rw [G.unique x (hE _ _ _ hx).2.2.2 c hc hkey.1 hkey.2]
  · rw [if_neg hkey]
    constructor
    · exact Or.inr
    · rintro (rfl | hx)
      · exact absurd ⟨rfl, rfl⟩ hkey
      · exact hx

theorem entries_insert (hE : G.Entries state.dag) {c : Certificate} (hc : c ∈ G.certs) :
    G.Entries (state.insert c).dag := by
  intro r n e he
  rw [State.get_insert] at he
  split at he
  · next hkey =>
    cases he
    exact ⟨rfl, hkey.1.symm, hkey.2.symm, hc⟩
  · exact hE r n e he

/-- What is held after a certificate was received, was received. -/
theorem known_insert (hE : G.Entries state.dag) {c : Certificate} (hc : c ∈ G.certs)
    (hknown : ∀ x, Holds state.dag x → G.Known s x) (x : Certificate)
    (hx : Holds (state.insert c).dag x) : G.Known (s ++ [c]) x := by
  rcases (holds_insert hE hc).mp hx with rfl | hx
  · exact Or.inl (List.mem_append_right _ List.mem_cons_self)
  · exact (hknown x hx).mono c

/-- **Receiving a certificate keeps the invariant.** -/
theorem Inv.insert (hinv : self.Inv G s out state) {c : Certificate} (hc : c ∈ G.certs) :
    self.Inv G (s ++ [c]) out (state.insert c) where
  entries := entries_insert hinv.entries hc
  known := known_insert hinv.entries hc hinv.known
  kept := by
    intro x hx hlast hgc
    rw [holds_insert hinv.entries hc]
    rcases hx with hx | hx
    · rcases List.mem_append.mp hx with hx | hx
      · exact Or.inr (hinv.kept x (Or.inl hx) hlast hgc)
      · exact Or.inl (List.mem_singleton.mp hx)
    · exact Or.inr (hinv.kept x (Or.inr hx) hlast hgc)
  max := hinv.max
  history := hinv.history
  output := fun x hx => (hinv.output x hx).mono c

/-- Nothing known above the last committed round has left the DAG. -/
theorem Inv.holds_of_lt (hinv : self.Inv G s out state) {c : Certificate} (hc : G.Known s c)
    (hlt : state.lastCommittedRound < c.round) : Holds state.dag c :=
  hinv.kept c hc (State.lastRound_le_iff.mpr fun r hr => (hinv.max.1 _ r hr).trans hlt.le)
    (by omega)

/-- **Above the last committed round the DAG holds the history of what it holds.** -/
theorem Inv.complete (hinv : self.Inv G s out state) (hs : G.Delivery s) {c : Certificate}
    (hc : G.Known s c) {low : ℕ} (hlow : state.lastCommittedRound < low) :
    G.Complete state.dag low c := fun _ hp hr _ =>
  hinv.holds_of_lt (hc.reaches hs hp) (hlow.trans_le hr)

/-! ## Committing a leader -/

section CommitLeader

variable {leader : Certificate}

/-- A leader that may be committed: received, above the last committed round, and no sum of a round
and `gc_depth` that its commit takes overflows. -/
structure Committable (task : Consensus) (G : Universe task.committee) (s : List Certificate)
    (state : State) (leader : Certificate) : Prop where
  known : G.Known s leader
  above : state.lastCommittedRound < leader.round
  fits : leader.round + task.gcDepth < 2 ^ 64
  sums : state.dag.SumsFit task.gcDepth

omit [Crypto] in
/-- The leader is part of its own sub-DAG. -/
theorem leader_mem_orderDag (hlt : state.lastCommittedRound < leader.round)
    (hfits : leader.round + self.gcDepth < 2 ^ 64) : leader ∈ self.orderDag leader state := by
  rw [orderDag, List.mem_insertionSort, List.mem_filter, decide_eq_true_eq, Round.add_eq hfits]
  exact ⟨List.mem_cons_self, by omega⟩

theorem Committable.mem_orderDag (hl : self.Committable G s state leader) :
    leader ∈ self.orderDag leader state := leader_mem_orderDag hl.above hl.fits

omit [Crypto] in
theorem commitLeader_fst (state : State) (leader : Certificate) :
    (self.commitLeader state leader).1
      = State.updateAll self.gcDepth state (self.orderDag leader state) := rfl

omit [Crypto] in
theorem lastRound_le_commitLeader (state : State) (leader : Certificate) (n : PublicKey) :
    state.lastRound n ≤ (self.commitLeader state leader).1.lastRound n :=
  State.lastRound_le_iff.mpr fun r hr => by
    obtain ⟨r', hr', hle⟩ := State.lookup_updateAll_mono self.gcDepth
      (self.orderDag leader state) state hr
    exact hle.trans (State.lastRound_le_iff.mp le_rfl r' hr')

/-- A commit does not bring the last committed round above that of the leader. -/
theorem lastCommittedRound_commitLeader_le (hE : G.Entries state.dag) (hmax : state.RoundIsMax)
    (hl : leader ∈ G.certs) (hlt : state.lastCommittedRound < leader.round) :
    (self.commitLeader state leader).1.lastCommittedRound ≤ leader.round := by
  rw [commitLeader_fst]
  rcases (State.roundIsMax_updateAll self.gcDepth hmax (self.orderDag leader state)).2 with
    h0 | ⟨n, hn⟩
  · omega
  · rcases State.lookup_updateAll_cases _ _ _ hn with hold | ⟨y, hy, -, hyr⟩
    · exact (hmax.1 n _ hold).trans hlt.le
    · rw [← hyr]
      exact (SubDag.reaches hE ((Universe.mem_orderDag hE hl).mp hy).1).round_le

/-- **After committing a leader, its round is the last committed one.** -/
theorem lastCommittedRound_commitLeader (hinv : self.Inv G s out state) (hs : G.Delivery s)
    (hl : self.Committable G s state leader) :
    (self.commitLeader state leader).1.lastCommittedRound = leader.round := by
  refine le_antisymm (lastCommittedRound_commitLeader_le hinv.entries hinv.max (hl.known.mem hs)
    hl.above) ?_
  obtain ⟨r, hr, hle⟩ := State.lookup_updateAll_of_mem self.gcDepth state hl.mem_orderDag
  exact hle.trans ((State.roundIsMax_updateAll self.gcDepth hinv.max _).1 _ r hr)

/-- What the clean-up after a commit leaves in the DAG. -/
theorem holds_commitLeader (hinv : self.Inv G s out state) (hs : G.Delivery s)
    (hl : self.Committable G s state leader) {x : Certificate} :
    Holds (self.commitLeader state leader).1.dag x ↔
      Holds state.dag x ∧ (self.commitLeader state leader).1.lastRound x.origin ≤ x.round ∧
        leader.round ≤ x.round + self.gcDepth := by
  rw [← lastCommittedRound_commitLeader hinv hs hl, Holds, commitLeader_fst, State.lastRound_le_iff,
    State.get_updateAll _ (List.ne_nil_of_mem hl.mem_orderDag)]
  refine and_congr_right fun hx => ?_
  rw [Round.add_eq (hl.sums.of_get hx)]

omit [Crypto] in
/-- A commit adds nothing to the DAG. -/
theorem get_of_get_commitLeader {r : ℕ} {n : PublicKey} {e : Digest × Certificate}
    (h : (self.commitLeader state leader).1.dag.get r n = some e) : state.dag.get r n = some e :=
  State.get_of_get_updateAll _ h

theorem entries_commitLeader (hE : G.Entries state.dag) :
    G.Entries (self.commitLeader state leader).1.dag := fun r n e he =>
  hE r n e (get_of_get_commitLeader he)

/-- **Committing a leader keeps the invariant.** -/
theorem Inv.commitLeader (hinv : self.Inv G s out state) (hs : G.Delivery s)
    (hl : self.Committable G s state leader) :
    self.Inv G s (out ++ self.orderDag leader state) (self.commitLeader state leader).1 where
  entries := entries_commitLeader hinv.entries
  known := fun x hx => hinv.known x ((holds_commitLeader hinv hs hl).mp hx).1
  kept := by
    intro x hx hlast hgc
    have hlt := hl.above
    rw [lastCommittedRound_commitLeader hinv hs hl] at hgc
    refine (holds_commitLeader hinv hs hl).mpr ⟨hinv.kept x hx ?_ (by omega), hlast, hgc⟩
    exact (lastRound_le_commitLeader state leader x.origin).trans hlast
  max := State.roundIsMax_updateAll _ hinv.max _
  history := fun n => by
    rw [State.updateAll_append]
    exact State.lookup_updateAll_congr _ hinv.history _ n
  output := by
    intro c hc
    rcases List.mem_append.mp hc with hc | hc
    · exact hinv.output c hc
    · exact hl.known.reaches hs (SubDag.reaches hinv.entries
        ((Universe.mem_orderDag hinv.entries (hl.known.mem hs)).mp hc).1)

/-- After a commit, a leader above the one committed may be committed still. -/
theorem Committable.commitLeader (hinv : self.Inv G s out state) (hs : G.Delivery s)
    (hl : self.Committable G s state leader) {x : Certificate}
    (hx : self.Committable G s state x) (hlt : leader.round < x.round) :
    self.Committable G s (self.commitLeader state leader).1 x where
  known := hx.known
  above := by rwa [lastCommittedRound_commitLeader hinv hs hl]
  fits := hx.fits
  sums := State.sumsFit_updateAll _ hx.sums _

end CommitLeader

end Consensus

end Bullshark
