import Bullshark.Primary.Core

/-!
# Primary/Handlers — what each handler of the core does

One lemma per handler: `admitHeader_cases` lists the ways the first part of `process_header` can
end, `run_acceptCertificate` and `run_deliverCertificate` are the two halves of
`process_certificate`.  `processHeader_eq` is the recursive equation of the source: after our own
vote is counted, a nested `process_header` cannot count it again, so it makes no further call.
-/

namespace Bullshark

namespace Core

open Handler

variable [Crypto] {core : Core} {recur recur' : Header → CoreM Unit} {header : Header}
  {certificate : Certificate} {state : State}

/-! ## What an update leaves as it is -/

namespace State

omit [Crypto]

variable (state) (round : ℕ) (key : StoreKey) (value : StoreValue) (votes : VotesAggregator)
  (certificates : CertificatesAggregator)

@[simp] theorem votedAt_markProcessing (header : Header) :
    (state.markProcessing header).votedAt round = state.votedAt round := rfl

@[simp] theorem votedAt_write : (state.write key value).votedAt round = state.votedAt round := rfl

theorem votedAt_markVoted (header : Header) : (state.markVoted header).votedAt round =
    if round = header.round then insert header.author (state.votedAt round)
    else state.votedAt round := by
  rw [votedAt, markVoted, AList.lookup_insert_eq]
  split
  · next h => rw [h]; rfl
  · rfl

theorem processingAt_markProcessing (header : Header) :
    (state.markProcessing header).processingAt round =
      if round = header.round then insert header.id (state.processingAt round)
      else state.processingAt round := by
  rw [processingAt, markProcessing, AList.lookup_insert_eq]
  split
  · next h => rw [h]; rfl
  · rfl

end State

/-! ## The questions to the synchronizer -/

omit [Crypto] in
@[simp] theorem run_check_ok {α : Type} (a : α) :
    (check (.ok a)).run state = (⟨.ok a, [], state⟩ : Outcome State Emission Fault α) := rfl

omit [Crypto] in
@[simp] theorem run_check_error {α : Type} (e : DagError) :
    (check (.error e)).run state = (⟨.error (.error e), [], state⟩ : Outcome State Emission Fault α) := rfl

theorem run_getParents_error {e : DagError}
    (h : Synchronizer.findParents core.committee state.store header = .error e) :
    (core.getParents header).run state = ⟨.error (.error e), [], state⟩ := by
  rw [getParents, run_bind_silent run_get, h, run_bind_error (run_check_error e)]

theorem run_getParents {missing : List Digest} {parents : List Certificate}
    (h : Synchronizer.findParents core.committee state.store header = .ok (missing, parents)) :
    (core.getParents header).run state = if missing = [] then ⟨.ok parents, [], state⟩
      else ⟨.ok [], [.syncParents missing header], state⟩ := by
  rw [getParents, run_bind_silent run_get, h, run_bind_silent (run_check_ok _)]
  dsimp only
  split
  · rfl
  · rw [run_bind_ok (run_emit _)]
    rfl

omit [Crypto] in
theorem run_missingPayload : (core.missingPayload header).run state =
    if Synchronizer.missingBatches core.name state.store header = [] then ⟨.ok false, [], state⟩
    else ⟨.ok true,
      [.syncBatches (Synchronizer.missingBatches core.name state.store header) header], state⟩ := by
  rw [missingPayload, run_bind_silent run_get]
  dsimp only
  split
  · rfl
  · rw [run_bind_ok (run_emit _)]
    rfl

theorem run_deliverCertificate : (core.deliverCertificate certificate).run state =
    if Synchronizer.hasAncestors core.committee state.store certificate then ⟨.ok true, [], state⟩
    else ⟨.ok false, [.syncCertificate certificate], state⟩ := by
  rw [deliverCertificate, run_bind_silent run_get]
  split
  · rfl
  · rw [run_bind_ok (run_emit _)]
    rfl

/-! ## `process_header` up to the vote -/

/-- The parents of the header are all there, from the previous round, and a quorum. -/
def Accepts (core : Core) (store : Store) (header : Header) : Prop :=
  ∃ parents, Synchronizer.findParents core.committee store header = .ok ([], parents) ∧
    parents ≠ [] ∧ core.checkParents header parents = .ok ()

/-- The parents are accepted, the payload is there, and the author was not voted for yet. -/
structure Admits (core : Core) (state : State) (header : Header) : Prop where
  accepts : core.Accepts state.store header
  batches : Synchronizer.missingBatches core.name state.store header = []
  new : header.author ∉ state.votedAt header.round

/-- The ways `admitHeader` can end. -/
inductive Admission (core : Core) (header : Header) (state : State) :
    Outcome State Emission Fault Bool → Prop
  | rejected (e : DagError) (h : ¬ core.Accepts state.store header) :
      Admission core header state ⟨.error (.error e), [], state.markProcessing header⟩
  | parentless (h : ¬ core.Accepts state.store header) (hnil : header.parents.elems = []) :
      Admission core header state ⟨.ok false, [], state.markProcessing header⟩
  | awaitsParents (missing : List Digest) (h : ¬ core.Accepts state.store header)
      (d : Digest) (hd : d ∈ header.parents)
      (hmissing : Synchronizer.has core.committee state.store d = false) :
      Admission core header state
        ⟨.ok false, [.syncParents missing header], state.markProcessing header⟩
  | awaitsBatches (h : core.Accepts state.store header) (hname : header.author ≠ core.name) :
      Admission core header state ⟨.ok false,
        [.syncBatches (Synchronizer.missingBatches core.name state.store header) header],
        state.markProcessing header⟩
  | alreadyVoted (h : core.Accepts state.store header)
      (hbatches : Synchronizer.missingBatches core.name state.store header = [])
      (hvoted : header.author ∈ state.votedAt header.round) :
      Admission core header state ⟨.ok false, [],
        (state.markProcessing header).write (.digest header.id) (.header header)⟩
  | admitted (h : core.Admits state header) :
      Admission core header state ⟨.ok true, [],
        ((state.markProcessing header).write (.digest header.id) (.header header)).markVoted
          header⟩

/-- Where nothing is missing, a header without parents is the only one no parent is found for. -/
theorem parents_eq_nil {store : Store}
    (h : Synchronizer.findParents core.committee store header = .ok ([], [])) :
    header.parents.elems = [] := by
  have hfound := (Synchronizer.findParents_eq_ok h).2 rfl
  exact List.eq_nil_of_length_eq_zero hfound.length_eq

/-- A header with parents that are accepted has parents. -/
theorem Accepts.parents_ne_nil {store : Store} (h : core.Accepts store header) :
    header.parents.elems ≠ [] := by
  obtain ⟨parents, hfind, hne, -⟩ := h
  intro hnil
  have hfound := (Synchronizer.findParents_eq_ok hfind).2 rfl
  rw [hnil] at hfound
  cases hfound
  exact hne rfl

/-- **How the first part of `process_header` ends.** -/
theorem admitHeader_cases : Admission core header state ((core.admitHeader header).run state) := by
  have hstore : (state.markProcessing header).store = state.store := rfl
  rw [admitHeader, run_bind_silent (run_modify _)]
  cases hfind : Synchronizer.findParents core.committee state.store header with
  | error e =>
    rw [← hstore] at hfind
    rw [run_bind_error (run_getParents_error hfind)]
    exact .rejected e fun ⟨_, h, _⟩ => by rw [← hstore, hfind] at h; cases h
  | ok found =>
    obtain ⟨missing, parents⟩ := found
    have hrun := @run_getParents _ core header (state.markProcessing header) missing parents hfind
    by_cases hm : missing = []
    · subst hm
      rw [if_pos rfl] at hrun
      rw [run_bind_silent hrun]
      by_cases hnil : parents = []
      · subst hnil
        refine .parentless (fun ⟨_, h, hne, _⟩ => ?_) (parents_eq_nil hfind)
        rw [hfind] at h
        cases h
        exact hne rfl
      · rw [if_neg hnil]
        cases hcheck : core.checkParents header parents with
        | error e =>
          rw [run_bind_error (run_check_error e)]
          refine .rejected e fun ⟨_, h, _, hok⟩ => ?_
          rw [hfind] at h
          cases h
          rw [hcheck] at hok
          cases hok
        | ok _ =>
          have hacc : core.Accepts state.store header := ⟨parents, hfind, hnil, hcheck⟩
          rw [run_bind_silent (run_check_ok _)]
          have hpay := @run_missingPayload core header (state.markProcessing header)
          by_cases hb : Synchronizer.missingBatches core.name state.store header = []
          · rw [hstore, if_pos hb] at hpay
            rw [run_bind_silent hpay, if_neg Bool.false_ne_true, run_bind_silent (run_modify _),
              run_bind_silent run_get]
            rw [State.votedAt_write, State.votedAt_markProcessing]
            by_cases hvoted : header.author ∈ state.votedAt header.round
            · rw [if_pos hvoted]
              exact .alreadyVoted hacc hb hvoted
            · rw [if_neg hvoted]
              exact .admitted ⟨hacc, hb, hvoted⟩
          · rw [hstore, if_neg hb] at hpay
            rw [run_bind_ok hpay]
            refine .awaitsBatches hacc fun hname => hb ?_
            rw [Synchronizer.missingBatches, if_pos hname]
    · rw [if_neg hm] at hrun
      rw [run_bind_ok hrun]
      obtain ⟨d, hd⟩ := List.exists_mem_of_ne_nil _ hm
      obtain ⟨hmem, hhas⟩ := (Synchronizer.findParents_eq_ok hfind).1 d hd
      refine .awaitsParents missing (fun ⟨_, h, _⟩ => ?_) d hmem hhas
      rw [hfind] at h
      cases h
      exact hm rfl

/-! ## The verdict on the parents -/

section Verdict

variable {store store' : Store}

omit [Crypto] in
/-- The same round and author. -/
def SameSlot (c c' : Certificate) : Prop :=
  c.header.rawRound = c'.header.rawRound ∧ c.origin = c'.origin

omit [Crypto] in
/-- The check of the parents reads their rounds and authors only. -/
theorem foldlM_countParent_congr {parents parents' : List Certificate}
    (h : List.Forall₂ SameSlot parents parents') : ∀ stake,
      parents.foldlM (core.countParent header) stake
        = parents'.foldlM (core.countParent header) stake := by
  induction h with
  | nil => exact fun _ => rfl
  | cons hslot _ ih =>
    intro stake
    rw [List.foldlM_cons, List.foldlM_cons, countParent, countParent, hslot.1, hslot.2]
    simp only [ih]

omit [Crypto] in
theorem checkParents_congr {parents parents' : List Certificate}
    (h : List.Forall₂ SameSlot parents parents') :
    core.checkParents header parents = core.checkParents header parents' := by
  rw [checkParents, checkParents, foldlM_countParent_congr h]

theorem foldlM_findParent_of_found {committee : Committee} {digests : List Digest}
    {parents : List Certificate}
    (h : List.Forall₂ (Synchronizer.Found committee store) digests parents) :
    ∀ acc, digests.foldlM (Synchronizer.findParent committee store) acc
      = .ok (acc.1, acc.2 ++ parents) := by
  induction h with
  | nil =>
    intro acc
    rw [List.append_nil]
    rfl
  | @cons d c digests parents hfound _ ih =>
    intro acc
    have hd : Synchronizer.findParent committee store acc d = .ok (acc.1, acc.2 ++ [c]) := by
      rcases hfound with hg | ⟨hg, hs⟩
      · simp [Synchronizer.findParent, hg]
      · simp [Synchronizer.findParent, hg, hs, StoreValue.deserialize]
    rw [List.foldlM_cons, hd]
    refine (ih _).trans ?_
    simp

/-- **The verdict on a header whose parents are all there does not change** with the store, as long
as what is found under a digest keeps its round and author. -/
theorem Accepts.of_found (hacc : core.Accepts store' header)
    (hfound : ∀ d ∈ header.parents, ∀ c', Synchronizer.Found core.committee store' d c' →
      ∃ c, Synchronizer.Found core.committee store d c ∧ SameSlot c' c) :
    core.Accepts store header := by
  obtain ⟨parents', hfind, hne, hcheck⟩ := hacc
  have hparents' := (Synchronizer.findParents_eq_ok hfind).2 rfl
  have hex : ∀ (digests : List Digest) (parents' : List Certificate),
      List.Forall₂ (Synchronizer.Found core.committee store') digests parents' →
      (∀ d ∈ digests, d ∈ header.parents) → ∃ parents,
        List.Forall₂ (Synchronizer.Found core.committee store) digests parents ∧
          List.Forall₂ SameSlot parents' parents := by
    intro digests parents' h hmem
    induction h with
    | nil => exact ⟨[], .nil, .nil⟩
    | cons hd _ ih =>
      obtain ⟨hmem₁, hmem₂⟩ := List.forall_mem_cons.mp hmem
      obtain ⟨c, hc, hslot⟩ := hfound _ hmem₁ _ hd
      obtain ⟨parents, hp, hslots⟩ := ih hmem₂
      exact ⟨c :: parents, .cons hc hp, .cons hslot hslots⟩
  obtain ⟨parents, hp, hslots⟩ := hex _ _ hparents' fun d hd => hd
  refine ⟨parents, ?_, ?_, checkParents_congr hslots ▸ hcheck⟩
  · exact foldlM_findParent_of_found hp ([], [])
  · rintro rfl
    cases hslots
    exact hne rfl

/-- Apart from headers, the new store has nothing that the old one does not have. -/
structure OnlyHeaders (old new : Store) : Prop where
  certificates : ∀ d c, new.lookup (.digest d) = some (.certificate c) →
    old.lookup (.digest d) = some (.certificate c)
  batches : ∀ d w, new.lookup (.batch d w) = old.lookup (.batch d w)

omit [Crypto] in
theorem OnlyHeaders.refl (store : Store) : OnlyHeaders store store := ⟨fun _ _ h => h, fun _ _ => rfl⟩

omit [Crypto] in
theorem OnlyHeaders.insert (h : OnlyHeaders store store') (d : Digest) (x : Header) :
    OnlyHeaders store (store'.insert (.digest d) (.header x)) where
  certificates d' c hc := by
    rw [AList.lookup_insert_eq] at hc
    split at hc
    · cases hc
    · exact h.certificates d' c hc
  batches d' w := by
    rw [AList.lookup_insert_eq, if_neg (by simp)]
    exact h.batches d' w

/-- The verdict does not depend on the headers stored. -/
theorem OnlyHeaders.accepts (h : OnlyHeaders store store') (hacc : core.Accepts store' header) :
    core.Accepts store header :=
  hacc.of_found fun d _ c hc =>
    ⟨c, hc.imp_right fun hs => ⟨hs.1, h.certificates d c hs.2⟩, rfl, rfl⟩

omit [Crypto] in
theorem OnlyHeaders.missingBatches (h : OnlyHeaders store store') (name : PublicKey) :
    Synchronizer.missingBatches name store header = Synchronizer.missingBatches name store' header := by
  simp only [Synchronizer.missingBatches, h.batches]

end Verdict

/-! ## `process_certificate` -/

omit [Crypto] in
/-- The message to the `Proposer`, where there are enough parents. -/
def handedOut (parents : Option (List Certificate)) (round : ℕ) : List Emission :=
  parents.elim [] fun certificates => [.parents certificates round]

omit [Crypto] in
theorem mem_handedOut {parents : Option (List Certificate)} {round : ℕ} {e : Emission}
    (h : e ∈ handedOut parents round) : ∃ ps, e = .parents ps round := by
  cases parents with
  | none => cases h
  | some ps => exact ⟨ps, List.mem_singleton.mp h⟩

omit [Crypto] in
/-- What is sent when a certificate is accepted: parents of its round, and the certificate. -/
theorem mem_accepted {parents : Option (List Certificate)} {round : ℕ} {c : Certificate}
    {e : Emission} (h : e ∈ handedOut parents round ++ [.consensus c]) :
    (∃ ps, e = .parents ps round) ∨ e = .consensus c :=
  (List.mem_append.mp h).imp mem_handedOut List.mem_singleton.mp

/-- The state once a certificate is stored and counted among the parents of the next round. -/
def accepted (core : Core) (certificate : Certificate) (state : State) : State :=
  (state.write (.digest certificate.digest) (.certificate certificate)).setAggregator
    certificate.round ((state.aggregatorAt certificate.round).append certificate core.committee).1

theorem run_acceptCertificate : (core.acceptCertificate certificate).run state =
    ⟨.ok (), handedOut ((state.aggregatorAt certificate.round).append certificate
      core.committee).2 certificate.round ++ [.consensus certificate],
      core.accepted certificate state⟩ := by
  have hagg : (state.write (.digest certificate.digest) (.certificate certificate)).aggregatorAt
      certificate.round = state.aggregatorAt certificate.round := rfl
  rw [acceptCertificate, run_bind_silent (run_modify _), run_bind_silent run_get, hagg, accepted]
  rcases (state.aggregatorAt certificate.round).append certificate core.committee with
    ⟨aggregator, _ | parents⟩
  · rfl
  · rfl

omit [Crypto] in
theorem run_processEmbedded_of_mem
    (h : certificate.header.id ∈ state.processingAt certificate.header.round) :
    (processEmbeddedWith recur certificate).run state = ⟨.ok (), [], state⟩ := by
  rw [processEmbeddedWith, run_bind_silent run_get, if_neg (not_not.mpr h)]
  rfl

omit [Crypto] in
theorem run_processEmbedded_of_not_mem
    (h : certificate.header.id ∉ state.processingAt certificate.header.round) :
    (processEmbeddedWith recur certificate).run state = (recur certificate.header).run state := by
  rw [processEmbeddedWith, run_bind_silent run_get, if_pos h]

/-- Once the embedded header is processed, nothing in `process_certificate` fails. -/
theorem result_deliver_accept (certificate : Certificate) (state : State) :
    ((do if ← core.deliverCertificate certificate then core.acceptCertificate certificate
      : CoreM Unit).run state).result = .ok () := by
  rcases hd : Synchronizer.hasAncestors core.committee state.store certificate with _ | _
  · have hrun := @run_deliverCertificate _ core certificate state
    rw [hd, if_neg Bool.false_ne_true] at hrun
    rw [run_bind_ok hrun]
    rfl
  · have hrun := @run_deliverCertificate _ core certificate state
    rw [hd, if_pos rfl] at hrun
    rw [run_bind_silent hrun, if_pos rfl, run_acceptCertificate]

/-- **A certificate whose header is being processed is processed without an error.** -/
theorem result_processCertificate_of_mem
    (h : certificate.header.id ∈ state.processingAt certificate.header.round) :
    ((core.processCertificateWith recur certificate).run state).result = .ok () := by
  rw [processCertificateWith, run_bind_silent (run_processEmbedded_of_mem h)]
  exact result_deliver_accept certificate state

/-! ## The recursion of the source -/

theorem admitHeader_votesAggregator {b : Bool} {w : List Emission} {state' : State}
    (h : (core.admitHeader header).run state = ⟨.ok b, w, state'⟩) :
    state'.votesAggregator = state.votesAggregator ∧ state'.currentHeader = state.currentHeader := by
  have hcases := @admitHeader_cases _ core header state
  rw [h] at hcases
  cases hcases <;> exact ⟨rfl, rfl⟩

theorem processCertificateWith_congr
    (h : (recur certificate.header).run state = (recur' certificate.header).run state) :
    (core.processCertificateWith recur certificate).run state
      = (core.processCertificateWith recur' certificate).run state := by
  refine run_bind_congr_left ?_
  by_cases hmem : certificate.header.id ∈ state.processingAt certificate.header.round
  · rw [run_processEmbedded_of_mem hmem, run_processEmbedded_of_mem hmem]
  · rw [run_processEmbedded_of_not_mem hmem, run_processEmbedded_of_not_mem hmem, h]

/-- A vote is counted and, at a quorum, the certificate of the current header is processed with the
voter among the used authorities. -/
theorem processVoteWith_congr {vote : Vote}
    (h : ∀ (h : Header) (s : State), vote.author ∈ s.votesAggregator.used →
      (recur h).run s = (recur' h).run s) :
    (core.processVoteWith recur vote).run state = (core.processVoteWith recur' vote).run state := by
  rw [processVoteWith, processVoteWith, run_bind_silent run_get, run_bind_silent run_get]
  refine run_bind_congr fun a w s' hr => ?_
  rcases happend : state.votesAggregator.append vote core.committee state.currentHeader with
    e | ⟨aggregator, _ | c⟩
  · rw [happend, run_check_error] at hr
    cases hr
  · rw [happend, run_check_ok] at hr
    cases hr
    rfl
  · rw [happend, run_check_ok] at hr
    cases hr
    dsimp only
    rw [run_bind_silent (run_modify _), run_bind_silent (run_modify _), run_bind_ok (run_emit _),
      run_bind_ok (run_emit _), expect, expect]
    refine congrArg (Outcome.after · _) (run_mapError_congr (processCertificateWith_congr (h _ _ ?_)))
    obtain ⟨-, hused, -⟩ := VotesAggregator.append_eq_ok happend
    rw [State.setVotesAggregator, hused]
    exact Finset.mem_insert_self _ _

/-- With our own vote counted, `process_header` calls nothing. -/
theorem processHeaderWith_of_used (h : core.name ∈ state.votesAggregator.used) :
    (core.processHeaderWith recur header).run state
      = (core.processHeaderWith recur' header).run state := by
  refine run_bind_congr fun b w s' hr => ?_
  have hused : core.name ∈ s'.votesAggregator.used := (admitHeader_votesAggregator hr).1 ▸ h
  cases b with
  | false => rfl
  | true =>
    rw [if_pos rfl, if_pos rfl, run_bind_ok (run_emit _), run_bind_ok (run_emit _), dispatchVoteWith,
      dispatchVoteWith]
    refine congrArg (Outcome.after · _) ?_
    split
    · refine run_mapError_congr ?_
      rw [processVoteWith, processVoteWith, run_bind_silent run_get, run_bind_silent run_get]
      refine run_bind_congr fun a w s'' hcheck => ?_
      rcases happend : s'.votesAggregator.append (Vote.new header core.name core.requestSignature)
        core.committee s'.currentHeader with e | r
      · rw [happend, run_check_error] at hcheck
        cases hcheck
      · exact absurd hused (VotesAggregator.append_eq_ok happend).1
    · rfl

/-- Nor does a nested `process_header`, wherever it is called from. -/
theorem processHeaderWith_twice (header : Header) :
    core.processHeaderWith (core.processHeaderWith recur) header
      = core.processHeaderWith (core.processHeaderWith recur') header := by
  refine congrArg Handler.mk (funext fun state => ?_)
  refine run_bind_congr fun b w s' hr => ?_
  cases b with
  | false => rfl
  | true =>
    rw [if_pos rfl, if_pos rfl, run_bind_ok (run_emit _), run_bind_ok (run_emit _), dispatchVoteWith,
      dispatchVoteWith]
    refine congrArg (Outcome.after · _) ?_
    split
    · exact run_mapError_congr (processVoteWith_congr fun h s hused => processHeaderWith_of_used hused)
    · rfl

/-- **The recursive equation of the source**: `process_header` is its own body, with itself as the
call it leads to. -/
theorem processHeader_eq (header : Header) :
    core.processHeader header = core.processHeaderWith core.processHeader header :=
  processHeaderWith_twice header

end Core

end Bullshark
