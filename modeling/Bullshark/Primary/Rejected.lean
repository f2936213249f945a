import Bullshark.Primary.Traffic
import Bullshark.Primary.Sample

/-!
# Primary/Rejected — certificates that were rejected before

The checks of `process_header` depend on the parents the store has and on nothing else (`judge`), so
a header they reject is rejected again as long as its parents stay the same.  But the header is
marked as being processed first, and `process_certificate` skips the checks of a header that is: a
certificate rejected once is accepted the second time, unless the mark was collected or an ancestor
is missing (`stays_rejected_iff`).
-/

namespace Bullshark

namespace Core

open Handler

variable [Crypto]

/-- What `process_header` makes of the parents that the store has. -/
def judge (core : Core) (store : Store) (header : Header) : Except DagError Unit := do
  let (missing, parents) ← Synchronizer.findParents core.committee store header
  if missing = [] ∧ parents ≠ [] then core.checkParents header parents

/-- The core in a state it may have reached in any way. -/
def resume (core : Core) (state : State) : Mealy (Except Panic State) Event Emission :=
  { core.machine with init := .ok state }

/-- `process_certificate` returned an error in the state `s`; the events `js` later, the store has
the same under the digests of the parents. -/
structure RejectedBefore (core : Core) (s : State) (c : Certificate) (js : List Event)
    (s' : State) : Prop where
  rejected : ∃ e, ((core.processCertificate c).run s).result = .error (.error e)
  run : (core.resume (((core.processCertificate c).run s).state.cleanUp core.gcDepth)).state js
    = .ok s'
  parents : ∀ d ∈ c.header.parents, s'.store.lookup (.digest d) = s.store.lookup (.digest d)

/-- Processing the certificate stores nothing, counts no parent of the next round, and does not send
it to consensus. -/
structure Ignores (core : Core) (s : State) (c : Certificate) : Prop where
  store : ((core.processCertificate c).run s).state.store = s.store
  aggregators : ((core.processCertificate c).run s).state.certificatesAggregators
    = s.certificatesAggregators
  consensus : .consensus c ∉ ((core.processCertificate c).run s).emitted

/-- Processing the certificate stores it, counts it among the parents of the next round, and sends
it to consensus. -/
structure Takes (core : Core) (s : State) (c : Certificate) : Prop where
  store : ((core.processCertificate c).run s).state.store.lookup (.digest c.digest)
    = some (.certificate c)
  aggregators : ((core.processCertificate c).run s).state.aggregatorAt c.round
    = ((s.aggregatorAt c.round).append c core.committee).1
  consensus : .consensus c ∈ ((core.processCertificate c).run s).emitted

/-- The checks are skipped, and nothing seems to be missing. -/
def SlipsThrough (core : Core) (s : State) (c : Certificate) : Prop :=
  c.header.id ∈ s.processingAt c.header.round ∧
    Synchronizer.hasAncestors core.committee s.store c = true

variable {core : Core} {header : Header} {c : Certificate} {s s' : State} {js : List Event}
  {store store' : Store}

@[simp] theorem state_resume_nil : (core.resume s).state [] = .ok s := rfl

/-! ## The verdict on the parents -/

theorem findParents_congr
    (h : ∀ d ∈ header.parents, store'.lookup (.digest d) = store.lookup (.digest d)) :
    Synchronizer.findParents core.committee store' header
      = Synchronizer.findParents core.committee store header := by
  have hfold : ∀ (digests : List Digest) (acc : List Digest × List Certificate),
      (∀ d ∈ digests, store'.lookup (.digest d) = store.lookup (.digest d)) →
      digests.foldlM (Synchronizer.findParent core.committee store') acc
        = digests.foldlM (Synchronizer.findParent core.committee store) acc := by
    intro digests
    induction digests with
    | nil => exact fun _ _ => rfl
    | cons d digests ih =>
      intro acc hd
      obtain ⟨hfirst, hrest⟩ := List.forall_mem_cons.mp hd
      rw [List.foldlM_cons, List.foldlM_cons, Synchronizer.findParent, Synchronizer.findParent,
        hfirst]
      exact bind_congr fun acc' => ih acc' hrest
  exact hfold _ _ h

/-- **The verdict depends on the parents only.** -/
theorem judge_congr
    (h : ∀ d ∈ header.parents, store'.lookup (.digest d) = store.lookup (.digest d)) :
    core.judge store' header = core.judge store header := by
  rw [judge, judge, findParents_congr h]

theorem hasAncestors_congr
    (h : ∀ d ∈ c.header.parents, store'.lookup (.digest d) = store.lookup (.digest d)) :
    Synchronizer.hasAncestors core.committee store' c
      = Synchronizer.hasAncestors core.committee store c := by
  rw [Synchronizer.hasAncestors, Synchronizer.hasAncestors, Bool.eq_iff_iff, List.all_eq_true,
    List.all_eq_true]
  refine forall₂_congr fun d hd => ?_
  rw [Synchronizer.has, Synchronizer.has, h d hd]

/-- **A header that does not pass is rejected**, and is marked as being processed. -/
theorem run_admitHeader_error {e : DagError} (h : core.judge s.store header = .error e) :
    (core.admitHeader header).run s = ⟨.error (.error e), [], s.markProcessing header⟩ := by
  rw [admitHeader, run_bind_silent (run_modify _)]
  rw [judge] at h
  cases hfind : Synchronizer.findParents core.committee s.store header with
  | error e' =>
    rw [hfind] at h
    cases h
    exact run_bind_error (run_getParents_error hfind)
  | ok found =>
    obtain ⟨missing, parents⟩ := found
    rw [hfind] at h
    replace h : (if missing = [] ∧ parents ≠ [] then core.checkParents header parents
      else pure ()) = .error e := h
    split at h
    · next hfound =>
      obtain ⟨rfl, hne⟩ := hfound
      have hrun := @run_getParents _ core header (s.markProcessing header) [] parents hfind
      rw [if_pos rfl] at hrun
      rw [run_bind_silent hrun, if_neg hne, h]
      exact run_bind_error (run_check_error e)
    · cases h

/-- **Any other header is not rejected**: it waits, or goes on to the vote. -/
theorem result_admitHeader_ok (h : core.judge s.store header = .ok ()) :
    ∃ b, ((core.admitHeader header).run s).result = .ok b := by
  have hcases := @admitHeader_cases _ core header s
  generalize hr : (core.admitHeader header).run s = o at hcases
  cases hcases with
  | rejected e hacc =>
    rw [judge] at h
    cases hfind : Synchronizer.findParents core.committee s.store header with
    | error e' =>
      rw [hfind] at h
      cases h
    | ok found =>
      obtain ⟨missing, parents⟩ := found
      rw [hfind] at h
      replace h : (if missing = [] ∧ parents ≠ [] then core.checkParents header parents
        else pure ()) = .ok () := h
      have hrun := @run_getParents _ core header (s.markProcessing header) missing parents hfind
      split at h
      · next hfound =>
        obtain ⟨rfl, hne⟩ := hfound
        exact absurd ⟨parents, hfind, hne, h⟩ hacc
      · next hwaits =>
        -- no parents are handed on, so the checks are not reached
        have hnil : ∃ w, (core.getParents header).run (s.markProcessing header)
            = ⟨.ok [], w, s.markProcessing header⟩ := by
          by_cases hm : missing = []
          · obtain rfl : parents = [] := not_not.mp fun hne => hwaits ⟨hm, hne⟩
            exact ⟨[], by rw [hrun, if_pos hm]⟩
          · exact ⟨_, by rw [hrun, if_neg hm]⟩
        obtain ⟨w, hw⟩ := hnil
        rw [admitHeader, run_bind_silent (run_modify _), run_bind_ok hw, if_pos rfl] at hr
        cases hr
  | _ => exact ⟨_, rfl⟩

/-! ## The two halves of `process_certificate` -/

omit [Crypto] in
/-- An `expect` lets no error through. -/
theorem result_expect_ne {p : Panic} {x : CoreM Unit} {e : DagError} :
    ((expect p x).run s).result ≠ .error (.error e) := by
  rw [expect, mapError]
  rcases hx : x.run s with ⟨(_ | _) | _, w, s₁⟩ <;> simp [hx]

/-- **`process_header` returns an error where the parents do not pass**, and nowhere else. -/
theorem result_processHeader_eq_error_iff {e : DagError} :
    ((core.processHeader header).run s).result = .error (.error e) ↔
      core.judge s.store header = .error e := by
  constructor
  · intro h
    cases hj : core.judge s.store header with
    | error e' =>
      rw [processHeader, processHeaderWith, run_bind_error (run_admitHeader_error hj)] at h
      cases h
      rfl
    | ok _ =>
      obtain ⟨b, hb⟩ := result_admitHeader_ok hj
      rcases hr : (core.admitHeader header).run s with ⟨r, w, s₁⟩
      rw [hr] at hb
      cases hb
      rw [processHeader, processHeaderWith, run_bind_ok hr] at h
      cases b with
      | false => cases h
      | true =>
        rw [if_pos rfl, run_bind_ok (run_emit _), dispatchVoteWith] at h
        split at h
        · exact absurd h result_expect_ne
        · split at h <;> cases h
  · intro h
    rw [processHeader, processHeaderWith, run_bind_error (run_admitHeader_error h)]

/-- **`process_certificate` returns an error where the header is not being processed and its
parents do not pass.** -/
theorem result_processCertificate_eq_error_iff {e : DagError} :
    ((core.processCertificate c).run s).result = .error (.error e) ↔
      c.header.id ∉ s.processingAt c.header.round ∧ core.judge s.store c.header = .error e := by
  by_cases hmem : c.header.id ∈ s.processingAt c.header.round
  · rw [processCertificate, result_processCertificate_of_mem hmem]
    simp [hmem]
  · rw [processCertificate, processCertificateWith, ← result_processHeader_eq_error_iff]
    have hrun := @run_processEmbedded_of_not_mem core.processHeader c s hmem
    rcases hh : (core.processHeader c.header).run s with ⟨f | _, w, s₁⟩
    · rw [hh] at hrun
      rw [run_bind_error hrun]
      simp [hmem]
    · rw [hh] at hrun
      rw [run_bind_ok hrun, Outcome.after, result_deliver_accept]
      simp

/-! ## The second time -/

/-- **The header of a rejected certificate is rejected by its parents**, then and ever after. -/
theorem RejectedBefore.judge (h : core.RejectedBefore s c js s') :
    ∃ e, core.judge s'.store c.header = .error e := by
  obtain ⟨e, he⟩ := h.rejected
  exact ⟨e, (judge_congr h.parents).trans (result_processCertificate_eq_error_iff.mp he).2⟩

/-- **A certificate whose checks are skipped is taken**, whatever the checks would say. -/
theorem SlipsThrough.takes (h : core.SlipsThrough s c) : core.Takes s c := by
  have hrun : (core.processCertificate c).run s = (core.acceptCertificate c).run s := by
    have hdeliver := @run_deliverCertificate _ core c s
    rw [if_pos h.2] at hdeliver
    rw [processCertificate, processCertificateWith,
      run_bind_silent (run_processEmbedded_of_mem h.1), run_bind_silent hdeliver, if_pos rfl]
  refine ⟨?_, ?_, ?_⟩
  · rw [hrun, run_acceptCertificate]
    exact AList.lookup_insert _
  · rw [hrun, run_acceptCertificate, State.aggregatorAt, accepted, State.setAggregator]
    dsimp only
    rw [AList.lookup_insert]
    rfl
  · rw [hrun, run_acceptCertificate]
    exact List.mem_append_right _ List.mem_cons_self

/-- **A certificate whose header the checks reject is ignored**, if they are made or an ancestor is
missing. -/
theorem ignores_of_judge {e : DagError} (hj : core.judge s.store c.header = .error e)
    (h : ¬ core.SlipsThrough s c) : core.Ignores s c := by
  by_cases hmem : c.header.id ∈ s.processingAt c.header.round
  · have hancestors : ¬ Synchronizer.hasAncestors core.committee s.store c = true :=
      fun hancestors => h ⟨hmem, hancestors⟩
    have hdeliver := @run_deliverCertificate _ core c s
    rw [if_neg hancestors] at hdeliver
    have hrun : (core.processCertificate c).run s = ⟨.ok (), [.syncCertificate c], s⟩ := by
      rw [processCertificate, processCertificateWith,
        run_bind_silent (run_processEmbedded_of_mem hmem), run_bind_ok hdeliver,
        if_neg Bool.false_ne_true]
      rfl
    exact ⟨by rw [hrun], by rw [hrun], by simp [hrun]⟩
  · have hheader : (core.processHeader c.header).run s
        = ⟨.error (.error e), [], s.markProcessing c.header⟩ := by
      rw [processHeader, processHeaderWith, run_bind_error (run_admitHeader_error hj)]
    have hrun : (core.processCertificate c).run s
        = ⟨.error (.error e), [], s.markProcessing c.header⟩ := by
      rw [processCertificate, processCertificateWith,
        run_bind_error ((run_processEmbedded_of_not_mem hmem).trans hheader)]
    exact ⟨by rw [hrun]; rfl, by rw [hrun]; rfl, by simp [hrun]⟩

/-- **A rejected certificate stays rejected exactly where it does not slip through**: the mark was
collected in between, or an ancestor is missing. -/
theorem stays_rejected_iff (h : core.RejectedBefore s c js s') :
    core.Ignores s' c ↔ ¬ (c.header.id ∈ s'.processingAt c.header.round ∧
      Synchronizer.hasAncestors core.committee s.store c = true) := by
  rw [← hasAncestors_congr h.parents]
  obtain ⟨e, he⟩ := h.judge
  constructor
  · exact fun hignores hslips => hignores.consensus (SlipsThrough.takes hslips).consensus
  · exact ignores_of_judge he

/-! ## The mark stays until it is collected -/

theorem processing_kept_of_turn {e : Event} {w log : List Emission} (hturn : core.Turn s log e w s')
    (r : ℕ) : s.processingAt r ⊆ s'.processingAt r ∧ s'.gcRound = s.gcRound ∧
      s.consensusRound ≤ s'.consensusRound := by
  cases hturn with
  | effects hown ht =>
    have hsame := sameRounds_of_trace ht
    exact ⟨(subset_of_trace ht r).2, hsame.gcRound, hsame.consensusRound.ge⟩
  | propose ht =>
    have hsame := sameRounds_of_trace ht
    exact ⟨(subset_of_trace ht r).2, hsame.gcRound, hsame.consensusRound.ge⟩
  | batch d w => exact ⟨fun _ h => h, rfl, le_rfl⟩
  | committed c => exact ⟨fun _ h => h, rfl, le_max_left _ _⟩

/-- **A header stays marked** until the horizon has passed its round. -/
theorem processing_kept {id : Digest} {r : ℕ} (hid : s.gcRound ≤ r → id ∈ s.processingAt r)
    (hhorizon : s.Horizon core.gcDepth) (hrun : (core.resume s).state js = .ok s')
    (hr : s'.gcRound ≤ r) : id ∈ s'.processingAt r := by
  have hinv := (core.resume s).invariant
    (P := fun _ res _ => ∀ s', res = .ok s' → s'.Horizon core.gcDepth ∧
      (s'.gcRound ≤ r → id ∈ s'.processingAt r))
    (fun s' hs' => by cases hs'; exact ⟨hhorizon, hid⟩) (fun is e ih s₂ hs₂ => ?_) js
  · exact (hinv s' hrun).2 hr
  · cases hcur : (core.resume s).state is with
    | error p =>
      rw [hcur] at hs₂
      cases hs₂
    | ok s₁ =>
      rw [hcur] at hs₂
      obtain ⟨hhorizon₁, hid₁⟩ := ih s₁ hcur
      obtain ⟨s₃, hturn, hnext⟩ := @turn_step _ core s₁ e []
      obtain ⟨hsub, hgc, hconsensus⟩ := processing_kept_of_turn hturn r
      have hhorizon₃ : s₃.Horizon core.gcDepth := by
        rw [State.Horizon] at hhorizon₁ ⊢
        omega
      rcases hnext s₂ hs₂ with rfl | rfl
      · exact ⟨hhorizon₃, fun hle => hsub (hid₁ (hgc ▸ hle))⟩
      · obtain ⟨hclean, hle₃⟩ := hhorizon₃.cleanUp
        refine ⟨hclean, fun hle => ?_⟩
        rw [State.processingAt_cleanUp hle]
        exact hsub (hid₁ (hgc ▸ hle₃.trans hle))

/-- **From the network, a rejected certificate is taken the second time**, if its parents are there:
`sanitize_certificate` turns it down only once the mark may be gone. -/
theorem RejectedBefore.takes (h : core.RejectedBefore s c js s') (hhorizon : s.Horizon core.gcDepth)
    (hsanitize : core.sanitizeCertificate s' c = .ok ())
    (hancestors : Synchronizer.hasAncestors core.committee s.store c = true) : core.Takes s' c := by
  obtain ⟨e, he⟩ := h.rejected
  obtain ⟨hmem, hj⟩ := result_processCertificate_eq_error_iff.mp he
  have hstate : ((core.processCertificate c).run s).state = s.markProcessing c.header := by
    rw [processCertificate, processCertificateWith, run_bind_error
      ((run_processEmbedded_of_not_mem hmem).trans (run_bind_error (run_admitHeader_error hj)))]
  have hrun := h.run
  rw [hstate] at hrun
  have hmarked : State.Horizon (s.markProcessing c.header) core.gcDepth := hhorizon
  refine SlipsThrough.takes ⟨processing_kept (fun hle => ?_) hmarked.cleanUp.1 hrun
    (sanitizeCertificate_eq_ok hsanitize).1, (hasAncestors_congr h.parents).trans hancestors⟩
  rw [State.processingAt_cleanUp hle, State.processingAt_markProcessing, if_pos rfl]
  exact Finset.mem_insert_self _ _

end Core

namespace Core.Retried

open Sample

/-- The core of the first of four authorities. -/
def core : Core := ⟨key 1, committee4, 50, fun digest => sign digest (key 1)⟩

def c1 : Certificate := certificate committee4 (key 2) 1 (Certificate.genesis committee4)
def c51 : Certificate := certificate committee4 (key 2) 51 []

/-- The genesis certificate of a third authority, with a certificate of round one for a parent. -/
def malformed : Certificate :=
  let g := Certificate.genesisOf (key 3)
  { g with header := { g.header with parents := BTreeSet.collect [c1.digest] } }

/-- The state of a core that is alive. -/
def alive : Except Panic State → State
  | .ok s => s
  | .error _ => .new

theorem eq_ok_alive {r : Except Panic State} (h : r.isOk = true) : r = .ok (alive r) := by
  cases r with
  | ok s => rfl
  | error p => cases h

/-- The parent is there. -/
def before : State := alive (core.machine.state [.certificate c1])

/-- The certificate was rejected. -/
def again : State := ((core.processCertificate malformed).run before).state.cleanUp core.gcDepth

/-- Consensus moves on, and the next clean-up collects the mark. -/
def between : List Event := [.committed c51, .certificate c1]

def later : State := alive ((core.resume again).state between)

set_option maxRecDepth 100000 in
theorem retried : (core.machine.state [.certificate c1]).isOk = true ∧
    core.sanitizeCertificate before malformed = .ok () ∧
    ((core.processCertificate malformed).run before).result
      = .error (.error (.malformedHeader malformed.header.id)) ∧
    (∀ d ∈ malformed.header.parents.elems,
      again.store.lookup (.digest d) = before.store.lookup (.digest d) ∧
      later.store.lookup (.digest d) = before.store.lookup (.digest d)) ∧
    core.sanitizeCertificate again malformed = .ok () ∧
    .consensus malformed ∈ ((core.processCertificate malformed).run again).emitted ∧
    again.store.lookup (.digest malformed.digest) = none ∧
    ((core.processCertificate malformed).run again).state.store.lookup (.digest malformed.digest)
      = some (.certificate malformed) ∧
    ((core.resume again).state between).isOk = true ∧
    malformed.header.id ∉ later.processingAt malformed.header.round := by
  decide +kernel

/-- **A rejected certificate is accepted**: it is malformed, `sanitize_certificate` lets it pass
twice, and the second time it is stored and sent to consensus. -/
theorem rejected_then_taken : core.machine.state [.certificate c1] = .ok before ∧
    core.sanitizeCertificate before malformed = .ok () ∧
    core.RejectedBefore before malformed [] again ∧
    core.sanitizeCertificate again malformed = .ok () ∧
    again.store.lookup (.digest malformed.digest) = none ∧
    ((core.processCertificate malformed).run again).state.store.lookup (.digest malformed.digest)
      = some (.certificate malformed) ∧
    .consensus malformed ∈ ((core.processCertificate malformed).run again).emitted ∧
    ¬ core.Ignores again malformed := by
  obtain ⟨hok, hfirst, hrejected, hparents, hsecond, hsent, hnew, hstored, -⟩ := retried
  have hbefore : core.RejectedBefore before malformed [] again :=
    ⟨⟨_, hrejected⟩, state_resume_nil, fun d hd => (hparents d (BTreeSet.mem_def.mp hd)).1⟩
  exact ⟨eq_ok_alive hok, hfirst, hbefore, hsecond, hnew, hstored, hsent,
    fun hignores => hignores.consensus hsent⟩

theorem exists_later : ∃ s', (core.resume again).state between = .ok s' ∧
    (∀ d ∈ malformed.header.parents.elems,
      s'.store.lookup (.digest d) = before.store.lookup (.digest d)) ∧
    malformed.header.id ∉ s'.processingAt malformed.header.round := by
  obtain ⟨-, -, -, hparents, -, -, -, -, halive, hcollected⟩ := retried
  exact ⟨later, eq_ok_alive halive, fun d hd => (hparents d hd).2, hcollected⟩

theorem stays_rejected_collected :
    ∃ s', core.RejectedBefore before malformed between s' ∧ core.Ignores s' malformed := by
  obtain ⟨s', hs', hparents, hcollected⟩ := exists_later
  have hlater : core.RejectedBefore before malformed between s' :=
    ⟨⟨_, retried.2.2.1⟩, hs', fun d hd => hparents d (BTreeSet.mem_def.mp hd)⟩
  exact ⟨s', hlater, (stays_rejected_iff hlater).mpr fun hslips => hcollected hslips.1⟩

end Core.Retried

end Bullshark
