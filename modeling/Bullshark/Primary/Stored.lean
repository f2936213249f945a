import Bullshark.Primary.Traffic

/-!
# Primary/Stored — what the store holds, and the verdict on our own headers

The parents of our own headers are certificates the core stored before it handed them to the
`Proposer`, so no header of ours ever waits for them.  Where digests do not collide, a stored
certificate is only overwritten by one of the same round and author: the verdict on a header whose
parents are all there never changes (`Accepts.of_write`).
-/

namespace Bullshark

namespace Core

open Handler

/-- The headers that occur in a run, with the one the core starts with. -/
def seenHeaders (is : List Event) : List Header :=
  default :: is.filterMap fun
    | .header h => some h
    | .certificate c => some c.header
    | .ownHeader h => some h
    | _ => none

theorem default_mem_seenHeaders (is : List Event) : default ∈ seenHeaders is := List.mem_cons_self

theorem seenHeaders_mono {is : List Event} {e : Event} {h : Header} (hh : h ∈ seenHeaders is) :
    h ∈ seenHeaders (is ++ [e]) := by
  rw [seenHeaders, List.filterMap_append]
  rcases List.mem_cons.mp hh with rfl | hh
  · exact List.mem_cons_self
  · exact List.mem_cons_of_mem _ (List.mem_append_left _ hh)

theorem mem_seenHeaders_of_own {is : List Event} {h : Header} (hh : h ∈ ownHeaders is) :
    h ∈ seenHeaders is :=
  List.mem_cons_of_mem _ (List.mem_filterMap.mpr ⟨_, mem_ownHeaders.mp hh, rfl⟩)

variable [Crypto]

/-- No two digests of these headers, or of certificates on them, collide: a certificate's digest
determines its round and author, and is no header's id. -/
structure NoCollision (headers : List Header) : Prop where
  certificates : ∀ h ∈ headers, ∀ h' ∈ headers,
    Certificate.digest ⟨h, []⟩ = Certificate.digest ⟨h', []⟩ →
      h.rawRound = h'.rawRound ∧ h.author = h'.author
  headers : ∀ h ∈ headers, ∀ h' ∈ headers, h.id ≠ Certificate.digest ⟨h', []⟩

instance (headers : List Header) : Decidable (NoCollision headers) :=
  decidable_of_iff
    ((∀ h ∈ headers, ∀ h' ∈ headers, Certificate.digest ⟨h, []⟩ = Certificate.digest ⟨h', []⟩ →
      h.rawRound = h'.rawRound ∧ h.author = h'.author) ∧
      ∀ h ∈ headers, ∀ h' ∈ headers, h.id ≠ Certificate.digest ⟨h', []⟩)
    ⟨fun h => ⟨h.1, h.2⟩, fun h => ⟨h.1, h.2⟩⟩

theorem NoCollision.of_subset {l l' : List Header} (h : NoCollision l') (hsub : l ⊆ l') :
    NoCollision l :=
  ⟨fun x hx y hy => h.certificates x (hsub hx) y (hsub hy),
    fun x hx y hy => h.headers x (hsub hx) y (hsub hy)⟩

/-- What may be stored under a digest. -/
def Names (headers : List Header) (d : Digest) : StoreValue → Prop
  | .header h => h.id = d ∧ h ∈ headers
  | .certificate c => c.digest = d ∧ c.header ∈ headers
  | .empty => False

/-! ## The verdict on the parents -/

section Verdict

variable {core : Core} {store store' : Store} {header : Header}

/-- A write under a digest keeps the verdict on a header whose parents are all there. -/
theorem Accepts.of_write {headers : List Header} {d : Digest} {v : StoreValue}
    (hnc : NoCollision headers)
    (hstore : ∀ d v, store.lookup (.digest d) = some v → Names headers d v) (hv : Names headers d v)
    (hpresent : ∀ d ∈ header.parents, Synchronizer.has core.committee store d = true)
    (hacc : core.Accepts (store.insert (.digest d) v) header) : core.Accepts store header := by
  refine hacc.of_found fun x hx c' hc' => ?_
  rcases hc' with hg | ⟨hg, hs⟩
  · exact ⟨c', Or.inl hg, rfl, rfl⟩
  · rw [AList.lookup_insert_eq] at hs
    split at hs
    · next hkey =>
      cases hkey
      cases hs
      have hhas := hpresent d hx
      rw [Synchronizer.has, hg, Option.isSome_none, Bool.false_or] at hhas
      obtain ⟨old, hold⟩ := Option.isSome_iff_exists.mp hhas
      have hnames := hstore d old hold
      cases old with
      | header h => exact absurd (hnames.1.trans hv.1.symm) (hnc.headers h hnames.2 c'.header hv.2)
      | certificate c =>
        obtain ⟨hround, hauthor⟩ := hnc.certificates c'.header hv.2 c.header hnames.2
          (hv.1.trans hnames.1.symm)
        exact ⟨c, Or.inr ⟨hg, hold⟩, hround, hauthor⟩
      | empty => exact hnames.elim
    · exact ⟨c', Or.inr ⟨hg, hs⟩, rfl, rfl⟩

end Verdict

/-! ## The runs of a core -/

/-- The digests of the certificates handed to the `Proposer`. -/
def handedOutDigests (log : List Emission) : List Digest :=
  log.flatMap fun
    | .parents certificates _ => certificates.map Certificate.digest
    | _ => []

/-- The digests of the certificates stored, each of which is sent to consensus. -/
def sentDigests (log : List Emission) : List Digest := (txConsensus log).map Certificate.digest

theorem sentDigests_append {log w : List Emission} :
    sentDigests (log ++ w) = sentDigests log ++ sentDigests w := by
  rw [sentDigests, txConsensus, List.filterMap_append, List.map_append]
  rfl

/-- What the `Proposer` and the network deliver, beyond `Admissible`: the parents of our own headers
are genesis certificates or were handed out to the `Proposer` or stored, and a certificate in our
name that looks like the genesis one is the genesis one. -/
def Supplied (core : Core) (is : List Event) : Event → Prop
  | .ownHeader h => ∀ d ∈ h.parents.elems, (Synchronizer.genesis core.committee d).isSome ∨
      d ∈ handedOutDigests (core.machine.outputs is) ∨ d ∈ sentDigests (core.machine.outputs is)
  | .certificate c => c.origin = core.name → (Certificate.genesis core.committee).any (·.partialEq c) →
      c ∈ Certificate.genesis core.committee
  | _ => True

instance (core : Core) (is : List Event) (e : Event) : Decidable (core.Supplied is e) :=
  match e with
  | .ownHeader h => inferInstanceAs (Decidable (∀ d ∈ h.parents.elems,
      (Synchronizer.genesis core.committee d).isSome ∨
        d ∈ handedOutDigests (core.machine.outputs is) ∨
          d ∈ sentDigests (core.machine.outputs is)))
  | .certificate c => inferInstanceAs (Decidable (c.origin = core.name →
      (Certificate.genesis core.committee).any (·.partialEq c) →
        c ∈ Certificate.genesis core.committee))
  | .header _ => inferInstanceAs (Decidable True)
  | .vote _ => inferInstanceAs (Decidable True)
  | .headerLoopback _ => inferInstanceAs (Decidable True)
  | .certificateLoopback _ => inferInstanceAs (Decidable True)
  | .batch _ _ => inferInstanceAs (Decidable True)
  | .committed _ => inferInstanceAs (Decidable True)

/-- A run with a `Proposer` that takes its parents from the core, authentic headers in our name, and
no collisions. -/
structure SuppliedRun (core : Core) (is : List Event) : Prop where
  admissible : core.AdmissibleRun is
  supplied : ∀ pre e, pre ++ [e] <+: is → core.Supplied pre e
  noCollision : NoCollision (seenHeaders is)

instance (core : Core) (is : List Event) : Decidable (core.SuppliedRun is) :=
  decidable_of_iff (core.AdmissibleRun is ∧ (∀ pre e, pre ++ [e] <+: is → core.Supplied pre e) ∧
    NoCollision (seenHeaders is)) ⟨fun h => ⟨h.1, h.2.1, h.2.2⟩, fun h => ⟨h.1, h.2, h.3⟩⟩

theorem SuppliedRun.of_prefix {core : Core} {is js : List Event} (h : core.SuppliedRun js)
    (hp : is <+: js) : core.SuppliedRun is where
  admissible := h.admissible.of_prefix hp
  supplied pre e hpre := h.supplied pre e (hpre.trans hp)
  noCollision := h.noCollision.of_subset (List.cons_subset_cons _ (hp.sublist.filterMap _).subset)

omit [Crypto] in
/-- The header that waits, with a waiter. -/
def Emission.waiting : Emission → Option Header
  | .syncParents _ h => some h
  | .syncBatches _ h => some h
  | .syncCertificate c => some c.header
  | _ => none

/-- What the core stored, holds and sent away. -/
structure Stored (core : Core) (is : List Event) (s : State) (log : List Emission) : Prop where
  current : s.currentHeader = default ∨ s.currentHeader ∈ ownHeaders is
  assembled : ∀ c a, .assembled a c ∈ log → c.header = default ∨ c.header ∈ ownHeaders is
  /-- No header of ours ever waits. -/
  waiting : ∀ e ∈ log, ∀ h, e.waiting = some h → h ∈ seenHeaders is ∧ h.author ≠ core.name
  store : ∀ d v, s.store.lookup (.digest d) = some v → Names (seenHeaders is) d v
  handed : ∀ d ∈ handedOutDigests log, (s.store.lookup (.digest d)).isSome
  sent : ∀ d ∈ sentDigests log, (s.store.lookup (.digest d)).isSome
  collected : ∀ r, ∀ c ∈ (s.aggregatorAt r).certificates, (s.store.lookup (.digest c.digest)).isSome
  /-- The parents of our own headers are there. -/
  present : ∀ x ∈ ownHeaders is, ∀ d ∈ x.parents, Synchronizer.has core.committee s.store d = true

namespace Stored

variable {core : Core} {is : List Event} {s s' : State} {log w : List Emission}

theorem mono {e : Event} (h : core.Stored is s log)
    (hpresent : ∀ x ∈ ownHeaders (is ++ [e]), x ∉ ownHeaders is → ∀ d ∈ x.parents,
      Synchronizer.has core.committee s.store d = true) : core.Stored (is ++ [e]) s log where
  current := h.current.imp_right ownHeaders_mono
  assembled c a hc := (h.assembled c a hc).imp_right ownHeaders_mono
  waiting e he x hx := ⟨seenHeaders_mono (h.waiting e he x hx).1, (h.waiting e he x hx).2⟩
  store d v hv := by
    have := h.store d v hv
    cases v with
    | header x => exact ⟨this.1, seenHeaders_mono this.2⟩
    | certificate c => exact ⟨this.1, seenHeaders_mono this.2⟩
    | empty => exact this
  handed := h.handed
  sent := h.sent
  collected := h.collected
  present x hx d hd := by
    by_cases hold : x ∈ ownHeaders is
    · exact h.present x hold d hd
    · exact hpresent x hx hold d hd

/-- A header in our name that a step hands over is our own or has no parents. -/
theorem hands (h : core.Stored is s (core.machine.outputs is)) {e : Event}
    (hrun : core.SuppliedRun (is ++ [e])) {x : Header} (hx : core.HandsHeader s e x)
    (hname : x.author = core.name) : x ∈ ownHeaders (is ++ [e]) ∨ x.parents.elems = [] := by
  have hadm := hrun.admissible is e List.prefix_rfl
  have hsup := hrun.supplied is e List.prefix_rfl
  cases e with
  | header y =>
    obtain ⟨rfl, hs⟩ := hx
    exact Or.inl (ownHeaders_mono (hadm hname (sanitizeHeader_eq_ok hs).2))
  | certificate c =>
    obtain ⟨rfl, hs⟩ := hx
    obtain ⟨-, hverify⟩ := Except.bind_unit_eq_ok_iff.mp hs
    rcases Certificate.verify_eq_ok_iff.mp hverify with hlooks | hq
    · obtain ⟨name, -, hgen⟩ := List.mem_map.mp (hsup hname (List.any_eq_true.mpr hlooks))
      exact Or.inr (by rw [← hgen]; rfl)
    · exact Or.inl (ownHeaders_mono (hadm hname (Certificate.verifyQuorum_eq_ok_iff.mp hq).1))
  | headerLoopback y =>
    cases hx
    obtain ⟨e, he, heq⟩ := List.mem_filterMap.mp hadm
    exact absurd hname (h.waiting e he _ (by cases e <;> cases heq <;> rfl)).2
  | certificateLoopback c =>
    cases hx
    exact absurd hname (h.waiting _ hadm _ rfl).2
  | ownHeader y =>
    cases hx
    exact Or.inl (ownHeader_mem_ownHeaders is _)
  | vote _ => cases hx
  | batch _ _ => cases hx
  | committed _ => cases hx

/-- A header that a step hands over occurs in the run. -/
theorem hands_seen (h : core.Stored is s (core.machine.outputs is)) {e : Event}
    (hadm : core.Admissible is e) {x : Header} (hx : core.HandsHeader s e x) :
    x ∈ seenHeaders (is ++ [e]) := by
  have hlast : ∀ y, (match e with
      | .header h => some h
      | .certificate c => some c.header
      | .ownHeader h => some h
      | _ => none) = some y → y ∈ seenHeaders (is ++ [e]) := fun y hy =>
    List.mem_cons_of_mem _ (List.mem_filterMap.mpr ⟨e, by simp, hy⟩)
  cases e with
  | header y => exact hlast x (congrArg some hx.1.symm)
  | certificate c => exact hlast x (congrArg some hx.1.symm)
  | headerLoopback y =>
    cases hx
    obtain ⟨e, he, heq⟩ := List.mem_filterMap.mp hadm
    exact seenHeaders_mono (h.waiting e he _ (by cases e <;> cases heq <;> rfl)).1
  | certificateLoopback c =>
    cases hx
    exact seenHeaders_mono (h.waiting _ hadm _ rfl).1
  | ownHeader y => exact hlast x (congrArg some hx.symm)
  | vote _ => cases hx
  | batch _ _ => cases hx
  | committed _ => cases hx

/-- Emitting messages. -/
theorem emit (h : core.Stored is s log)
    (hassembled : ∀ c a, .assembled a c ∈ w → c.header = default ∨ c.header ∈ ownHeaders is)
    (hwaiting : ∀ e ∈ w, ∀ x, e.waiting = some x → x ∈ seenHeaders is ∧ x.author ≠ core.name)
    (hhanded : ∀ d ∈ handedOutDigests w, (s.store.lookup (.digest d)).isSome)
    (hsent : ∀ d ∈ sentDigests w, (s.store.lookup (.digest d)).isSome) :
    core.Stored is s (log ++ w) where
  current := h.current
  assembled c a hc := (List.mem_append.mp hc).elim (h.assembled c a) (hassembled c a)
  waiting e he := (List.mem_append.mp he).elim (h.waiting e) (hwaiting e)
  store := h.store
  handed d hd := by
    rw [handedOutDigests, List.flatMap_append] at hd
    exact (List.mem_append.mp hd).elim (h.handed d) (hhanded d)
  sent d hd := by
    rw [sentDigests_append] at hd
    exact (List.mem_append.mp hd).elim (h.sent d) (hsent d)
  collected := h.collected
  present := h.present

/-- A change of the state that keeps the store, the current header and the aggregators. -/
theorem of_store_eq (h : core.Stored is s log) (hcur : s'.currentHeader = s.currentHeader)
    (hstore : s'.store = s.store) (hagg : s'.certificatesAggregators = s.certificatesAggregators) :
    core.Stored is s' log where
  current := hcur ▸ h.current
  assembled := h.assembled
  waiting := h.waiting
  store := hstore ▸ h.store
  handed := hstore ▸ h.handed
  sent := hstore ▸ h.sent
  collected r := by
    rw [State.aggregatorAt, hagg, hstore]
    exact h.collected r
  present := hstore ▸ h.present

omit [Crypto] in
theorem isSome_lookup_insert {store : Store} {k k' : StoreKey} {v : StoreValue}
    (h : (store.lookup k).isSome) : ((store.insert k' v).lookup k).isSome := by
  rw [AList.lookup_insert_eq]
  split
  · rfl
  · exact h

theorem has_insert {store : Store} {d : Digest} {k : StoreKey} {v : StoreValue}
    (h : Synchronizer.has core.committee store d = true) :
    Synchronizer.has core.committee (store.insert k v) d = true := by
  rw [Synchronizer.has, Bool.or_eq_true] at *
  exact h.imp_right isSome_lookup_insert

/-- Writing a header or a certificate of the run, or a batch. -/
theorem write (h : core.Stored is s log) {k : StoreKey} {v : StoreValue}
    (hv : ∀ d, k = .digest d → Names (seenHeaders is) d v) :
    core.Stored is (s.write k v) log where
  current := h.current
  assembled := h.assembled
  waiting := h.waiting
  store d v' hv' := by
    rw [State.write, AList.lookup_insert_eq] at hv'
    split at hv'
    · next hk =>
      cases hv'
      exact hv d hk.symm
    · exact h.store d v' hv'
  handed d hd := isSome_lookup_insert (h.handed d hd)
  sent d hd := isSome_lookup_insert (h.sent d hd)
  collected r c hc := isSome_lookup_insert (h.collected r c hc)
  present x hx d hd := has_insert (h.present x hx d hd)

/-- Counting a stored certificate among the parents of the next round. -/
theorem setAggregator (h : core.Stored is s log) {r : ℕ} {aggregator : CertificatesAggregator}
    (hagg : ∀ c ∈ aggregator.certificates, (s.store.lookup (.digest c.digest)).isSome) :
    core.Stored is (s.setAggregator r aggregator) log where
  current := h.current
  assembled := h.assembled
  waiting := h.waiting
  store := h.store
  handed := h.handed
  sent := h.sent
  collected r' c hc := by
    rw [State.aggregatorAt, State.setAggregator, AList.lookup_insert_eq] at hc
    split at hc
    · exact hagg c hc
    · exact h.collected r' c hc
  present := h.present

/-- **Accepting a certificate of the run.** -/
theorem accept (h : core.Stored is s log) {c : Certificate} (hc : c.header ∈ seenHeaders is) :
    core.Stored is (core.accepted c s) (log ++ (handedOut
      ((s.aggregatorAt c.round).append c core.committee).2 c.round ++ [.consensus c])) := by
  have hwrite : core.Stored is (s.write (.digest c.digest) (.certificate c)) log :=
    h.write fun d hd => by cases hd; exact ⟨rfl, hc⟩
  have hstored : ∀ x, x ∈ (s.aggregatorAt c.round).certificates ∨ x = c →
      ((s.write (.digest c.digest) (.certificate c)).store.lookup (.digest x.digest)).isSome := by
    rintro x (hx | rfl)
    · exact hwrite.collected c.round x hx
    · rw [State.write, AList.lookup_insert_eq, if_pos rfl]
      rfl
  rcases happend : (s.aggregatorAt c.round).append c core.committee with ⟨aggregator, parents⟩
  obtain ⟨hkept, hout⟩ := CertificatesAggregator.mem_append happend
  have hset : core.Stored is (core.accepted c s) log := by
    rw [accepted, happend]
    exact hwrite.setAggregator fun x hx => hstored x (hkept x hx)
  have hsilent : ∀ e ∈ handedOut parents c.round ++ [.consensus c],
      (∃ ps, parents = some ps ∧ e = .parents ps c.round) ∨ e = .consensus c := by
    intro e he
    cases parents with
    | none => simpa [handedOut] using he
    | some ps => simpa [handedOut] using he
  refine hset.emit (fun x a hx => ?_) (fun e he x hx => ?_) (fun d hd => ?_) (fun d hd => ?_)
  · rcases hsilent _ hx with ⟨ps, -, hps⟩ | hps <;> cases hps
  · rcases hsilent _ he with ⟨ps, -, rfl⟩ | rfl <;> cases hx
  · obtain ⟨e, he, hd⟩ := List.mem_flatMap.mp hd
    rcases hsilent _ he with ⟨ps, hps, rfl⟩ | rfl
    · obtain ⟨x, hx, rfl⟩ := List.mem_map.mp hd
      exact hstored x (hout ps hps x hx)
    · cases hd
  · obtain ⟨x, hx, rfl⟩ := List.mem_map.mp hd
    rcases hsilent _ (mem_txConsensus.mp hx) with ⟨ps, -, hps⟩ | hps
    · cases hps
    · cases hps
      exact hstored _ (Or.inr rfl)

omit [Crypto] in
/-- The header occurs in the run and, if it is in our name, is our own or has no parents. -/
def Known (core : Core) (is : List Event) (x : Header) : Prop :=
  x ∈ seenHeaders is ∧ (x.author = core.name → x ∈ ownHeaders is ∨ x.parents.elems = [])

omit [Crypto] in
theorem known_of_own {x : Header} (h : x = default ∨ x ∈ ownHeaders is) : Known core is x := by
  rcases h with rfl | hx
  · exact ⟨default_mem_seenHeaders is, fun _ => Or.inr rfl⟩
  · exact ⟨mem_seenHeaders_of_own hx, fun _ => Or.inl hx⟩

/-- A header with a parent missing is not in our name. -/
theorem author_ne_of_missing (h : core.Stored is s log) {x : Header} {d : Digest}
    (hx : Known core is x) (hd : d ∈ x.parents)
    (hmissing : Synchronizer.has core.committee s.store d = false) : x.author ≠ core.name := by
  intro hname
  rcases hx.2 hname with hown | hnil
  · rw [h.present x hown d hd] at hmissing
    cases hmissing
  · rw [BTreeSet.mem_def, hnil] at hd
    cases hd

/-- **Every effect keeps what is stored.** -/
theorem effect {I : Given} (hH : ∀ x, I.header x → Known core is x)
    (hC : ∀ c, I.certificate c → I.header c.header) (h : core.Stored is s log)
    (hE : Effect core I s log w s') : core.Stored is s' (log ++ w) := by
  have hheader : ∀ x, I.header x ∨ x = s.currentHeader → Known core is x := by
    rintro x (hx | rfl)
    · exact hH x hx
    · exact known_of_own h.current
  have hcert : ∀ c, I.certificate c ∨ .assembled core.othersAddresses c ∈ log → Known core is c.header := by
    rintro c (hc | hc)
    · exact hH _ (hC c hc)
    · exact known_of_own (h.assembled c _ hc)
  have hwaits : ∀ (e : Emission) (x : Header), e.waiting = some x → x ∈ seenHeaders is →
      x.author ≠ core.name → core.Stored is s (log ++ [e]) := by
    intro e x he hseen hname
    refine h.emit (fun c a hc => ?_) (fun e' he' y hy => ?_) (fun d hd => ?_) (fun d hd => ?_)
    · cases List.mem_singleton.mp hc
      cases he
    · rw [List.mem_singleton.mp he', he] at hy
      cases hy
      exact ⟨hseen, hname⟩
    · cases e <;> cases he <;> cases hd
    · cases e <;> cases he <;> cases hd
  have hupdate : ∀ s', s'.currentHeader = s.currentHeader → s'.store = s.store →
      s'.certificatesAggregators = s.certificatesAggregators → core.Stored is s' (log ++ []) := by
    intro s' hcur hstore hagg
    rw [List.append_nil]
    exact h.of_store_eq hcur hstore hagg
  cases hE with
  | processing hh => exact hupdate _ rfl rfl rfl
  | @awaitParents x d missing hh hd hmissing =>
    exact hwaits _ x rfl (hheader x hh).1 (h.author_ne_of_missing (hheader x hh) hd hmissing)
  | @awaitBatches x missing hh hname => exact hwaits _ x rfl (hheader x hh).1 hname
  | @storeHeader x hh hacc =>
    rw [List.append_nil]
    refine h.write fun d hd => ?_
    cases hd
    exact ⟨rfl, (hheader x hh).1⟩
  | @vote x _ _ _ _ =>
    have hs : core.Stored is (s.markVoted x) log := h.of_store_eq rfl rfl rfl
    exact hs.emit (by simp) (by simp [Emission.waiting]) (by simp [handedOutDigests])
      (by simp [sentDigests, txConsensus])
  | sendVote address v =>
    exact h.emit (by simp) (by simp [Emission.waiting]) (by simp [handedOutDigests])
      (by simp [sentDigests, txConsensus])
  | count hv happend => exact hupdate _ rfl rfl rfl
  | @certify v aggregator c hv happend =>
    have hs : core.Stored is (s.setVotesAggregator aggregator) log := h.of_store_eq rfl rfl rfl
    refine hs.emit (fun c a hc => ?_) (by simp [Emission.waiting]) (by simp [handedOutDigests])
      (by simp [sentDigests, txConsensus])
    cases List.mem_singleton.mp hc
    rw [VotesAggregator.header_of_append happend]
    exact h.current
  | @awaitAncestors c d hc hd hmissing =>
    exact hwaits _ c.header rfl (hcert c hc).1 (h.author_ne_of_missing (hcert c hc) hd hmissing)
  | @accept c hc => exact h.accept (hcert c (hc.imp_left And.left)).1

/-- The parents of a header of the `Proposer` are there before the core gets it. -/
theorem present_of_supplied (h : core.Stored is s (core.machine.outputs is)) {e : Event}
    (hrun : core.SuppliedRun (is ++ [e])) {x : Header} (hx : x ∈ ownHeaders (is ++ [e]))
    (hnew : x ∉ ownHeaders is) {d : Digest} (hd : d ∈ x.parents) :
    Synchronizer.has core.committee s.store d = true := by
  have hsup := hrun.supplied is e List.prefix_rfl
  rcases List.mem_append.mp (mem_ownHeaders.mp hx) with hold | hlast
  · exact absurd (mem_ownHeaders.mpr hold) hnew
  · cases List.mem_singleton.mp hlast
    rw [Synchronizer.has, Bool.or_eq_true]
    exact (hsup d hd).imp_right (Or.elim · (h.handed d) (h.sent d))

/-- An effect of a turn keeps what is stored. -/
theorem turnEffect {e : Event} {s₀ : State} (hrun : core.SuppliedRun (is ++ [e]))
    (h₀ : core.Stored is s₀ (core.machine.outputs is)) (h : core.Stored (is ++ [e]) s log)
    (hE : core.TurnEffect s₀ e s log w s') : core.Stored (is ++ [e]) s' (log ++ w) :=
  h.effect (fun _ hx => ⟨h₀.hands_seen (hrun.admissible is e List.prefix_rfl) hx, h₀.hands hrun hx⟩)
    (fun _ hc => Provenance.handsHeader_of_handsCertificate hc) hE

/-- **In every run, the store has the parents of our own headers and none of them waits.** -/
theorem invariant (core : Core) :
    core.Invariant (fun is e => core.SuppliedRun (is ++ [e])) core.Stored where
  init :=
    { current := Or.inl rfl
      assembled := by simp
      waiting := by simp
      store := fun d v hv => by cases hv
      handed := by simp [handedOutDigests]
      sent := fun d hd => (by cases hd)
      collected := fun r c hc => by cases hc
      present := by simp [ownHeaders] }
  mono hok h := h.mono fun _ hx hnew _ hd => h.present_of_supplied hok hx hnew hd
  cleanUp {is s out} h :=
    { current := by rw [(State.cleanUp_eq s _).2.1]; exact h.current
      assembled := h.assembled
      waiting := h.waiting
      store := by rw [(State.cleanUp_eq s _).1]; exact h.store
      handed := by rw [(State.cleanUp_eq s _).1]; exact h.handed
      sent := by rw [(State.cleanUp_eq s _).1]; exact h.sent
      collected := fun r c hc => by
        rw [(State.cleanUp_eq s _).1]
        exact h.collected r c (State.certificates_cleanUp hc)
      present := by rw [(State.cleanUp_eq s _).1]; exact h.present }
  batch d w h := h.write fun _ hd => by cases hd
  committed c h := h.of_store_eq rfl rfl rfl
  propose {is s x} _ hok h := by
    have hmono := h.mono (e := .ownHeader x) fun _ hx hnew _ hd => h.present_of_supplied hok hx hnew hd
    have hpropose : core.Stored (is ++ [.ownHeader x]) (proposed s x) (core.machine.outputs is) :=
      { hmono with current := Or.inr (ownHeader_mem_ownHeaders is x) }
    exact hpropose.emit (by simp) (by simp [Emission.waiting]) (by simp [handedOutDigests])
      (by simp [sentDigests, txConsensus])
  effect _ hok h₀ _ h hE := turnEffect hok h₀ h hE

end Stored

end Core

end Bullshark
