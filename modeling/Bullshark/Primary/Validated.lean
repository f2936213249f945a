import Bullshark.Primary.Traffic

/-!
# Primary/Validated — what the core votes for

A vote is created for a header that passed `Header::verify` or is our own, whose parents are a
quorum of certificates of the previous round, and whose payload is there (`Validated`).  Two things
can go wrong.  Rounds are compared as `x.round() + 1 == header.round`, which wraps: parents of the
last round there is are accepted for a header of round zero, which may be one that nobody signed
(`unsigned_voted`).  And an author with a genesis certificate and another one of round zero among
the parents counts twice.  Apart from these, every vote is for validated data
(`votes_certify_validated_data`).
-/

namespace Bullshark

namespace Core

open Handler

/-! ## The certificates of a store -/

/-- The certificate stored under a digest. -/
def certificateAt (store : Store) (d : Digest) : Option Certificate :=
  (store.lookup (.digest d)).bind fun
    | .certificate c => some c
    | _ => none

/-- The certificates stored. -/
def certificates (store : Store) : List Certificate :=
  store.values.filterMap fun
    | .certificate c => some c
    | _ => none

/-- At most one certificate is stored per round and author. -/
def UniqueCertificates (store : Store) : Prop :=
  ∀ c ∈ certificates store, ∀ c' ∈ certificates store,
    c.round = c'.round → c.origin = c'.origin → c = c'

instance (store : Store) : Decidable (UniqueCertificates store) :=
  inferInstanceAs (Decidable (∀ c ∈ certificates store, ∀ c' ∈ certificates store, _ → _ → _))

/-- The same, of a core that is alive. -/
def UniqueIn : Except Panic State → Prop
  | .ok s => UniqueCertificates s.store
  | .error _ => True

instance : ∀ s : Except Panic State, Decidable (UniqueIn s)
  | .ok s => inferInstanceAs (Decidable (UniqueCertificates s.store))
  | .error _ => inferInstanceAs (Decidable True)

theorem certificateAt_eq_some {store : Store} {d : Digest} {c : Certificate} :
    certificateAt store d = some c ↔ store.lookup (.digest d) = some (.certificate c) := by
  rw [certificateAt, Option.bind_eq_some_iff]
  constructor
  · rintro ⟨v, hv, hc⟩
    cases v <;> cases hc
    exact hv
  · exact fun h => ⟨_, h, rfl⟩

theorem mem_certificates {store : Store} {d : Digest} {c : Certificate}
    (h : store.lookup (.digest d) = some (.certificate c)) : c ∈ certificates store :=
  List.mem_filterMap.mpr ⟨_, AList.mem_values.mpr ⟨_, h⟩, rfl⟩

/-! ## The two slips -/

/-- The header is of round zero, and a parent in the store is of the last round there is. -/
def WrapsAround (store : Store) (h : Header) : Prop :=
  h.rawRound = 0 ∧ ∃ d ∈ h.parents.elems, ∃ c ∈ certificateAt store d, c.header.rawRound + 1 = 0

instance (store : Store) (h : Header) : Decidable (WrapsAround store h) :=
  inferInstanceAs (Decidable (_ ∧ ∃ d ∈ h.parents.elems, ∃ c ∈ certificateAt store d, _))

section

variable [Crypto]

/-- The genesis certificate of an author and another one of round zero are both parents. -/
def DoublesGenesis (core : Core) (store : Store) (h : Header) : Prop :=
  ∃ d ∈ h.parents.elems, ∃ g ∈ Synchronizer.genesis core.committee d,
    ∃ d' ∈ h.parents.elems, ∃ c ∈ certificateAt store d',
      Synchronizer.genesis core.committee d' = none ∧ c.round = 0 ∧ c.origin = g.origin

instance (core : Core) (store : Store) (h : Header) : Decidable (core.DoublesGenesis store h) :=
  inferInstanceAs (Decidable (∃ d ∈ h.parents.elems, ∃ g ∈ Synchronizer.genesis core.committee d,
    ∃ d' ∈ h.parents.elems, ∃ c ∈ certificateAt store d', _ ∧ _ ∧ _))

/-- Neither happens. -/
def ParentsCount (core : Core) (store : Store) (h : Header) : Prop :=
  ¬ WrapsAround store h ∧ ¬ core.DoublesGenesis store h

instance (core : Core) (store : Store) (h : Header) : Decidable (core.ParentsCount store h) :=
  inferInstanceAs (Decidable (_ ∧ _))

omit [Crypto] in
/-- The header in an event. -/
def Event.offers : Event → Option Header
  | .header h => some h
  | .certificate c => some c.header
  | .headerLoopback h => some h
  | .certificateLoopback c => some c.header
  | .ownHeader h => some h
  | _ => none

instance (core : Core) (s : State) : ∀ (e : Event) (h : Header), Decidable (core.HandsHeader s e h)
  | .header x, h => inferInstanceAs (Decidable (h = x ∧ core.sanitizeHeader s x = .ok ()))
  | .certificate c, h =>
    inferInstanceAs (Decidable (h = c.header ∧ core.sanitizeCertificate s c = .ok ()))
  | .headerLoopback x, h => inferInstanceAs (Decidable (h = x))
  | .certificateLoopback c, h => inferInstanceAs (Decidable (h = c.header))
  | .ownHeader x, h => inferInstanceAs (Decidable (h = x))
  | .vote _, _ => inferInstanceAs (Decidable False)
  | .batch _ _, _ => inferInstanceAs (Decidable False)
  | .committed _, _ => inferInstanceAs (Decidable False)

/-- Neither happens to the header that is handed over, nor to the current one. -/
def HandsCounting (core : Core) : Except Panic State → Event → Prop
  | .ok s, e => core.ParentsCount s.store s.currentHeader ∧
      ∀ h ∈ e.offers, core.HandsHeader s e h → core.ParentsCount s.store h
  | .error _, _ => True

instance (core : Core) : ∀ (s : Except Panic State) (e : Event), Decidable (core.HandsCounting s e)
  | .ok s, e => inferInstanceAs (Decidable (core.ParentsCount s.store s.currentHeader ∧
      ∀ h ∈ e.offers, core.HandsHeader s e h → core.ParentsCount s.store h))
  | .error _, _ => inferInstanceAs (Decidable True)

/-! ## What a vote vouches for -/

/-- The certificate is in the genesis or in the store, under its digest. -/
def Has (core : Core) (store : Store) (d : Digest) (c : Certificate) : Prop :=
  c.digest = d ∧ (c ∈ Certificate.genesis core.committee ∨
    store.lookup (.digest d) = some (.certificate c))

/-- The parents of the header are there, of the previous round, and their authors have a quorum. -/
structure Parents (core : Core) (store : Store) (h : Header) (parents : List Certificate) :
    Prop where
  has : List.Forall₂ (core.Has store) h.parents.elems parents
  round : ∀ p ∈ parents, p.round + 1 = h.round
  quorum : core.committee.quorumThreshold.toNat
    ≤ core.committee.stakeOf (parents.map Certificate.origin).toFinset

/-- The header was verified or is our own, and its parents and its payload are there. -/
structure Validated (core : Core) (is : List Event) (store : Store) (h : Header) : Prop where
  origin : h.verify core.committee = .ok () ∨ h ∈ ownHeaders is
  parents : ∃ parents, core.Parents store h parents
  payload : h.author ≠ core.name →
    ∀ entry ∈ h.payload.entries, (store.lookup (.batch entry.1 entry.2)).isSome

variable {core : Core} {is : List Event} {s s' : State} {log w : List Emission} {store : Store}
  {h : Header}

omit [Crypto] in
theorem foldlM_countParent_eq_ok : ∀ {parents : List Certificate} {stake stake' : Stake},
    parents.foldlM (core.countParent h) stake = .ok stake' →
      (∀ p ∈ parents, p.header.rawRound + 1 = h.rawRound) ∧
        stake' = stake + (parents.map fun p => core.committee.stake p.origin).sum
  | [], stake, stake', hok => by
      cases hok
      simp
  | p :: parents, stake, stake', hok => by
      obtain ⟨stake₁, hp, hrest⟩ := Except.bind_eq_ok_iff.mp hok
      obtain ⟨hround, hp⟩ := Except.bind_unit_eq_ok_iff.mp hp
      cases hp
      obtain ⟨hrounds, rfl⟩ := foldlM_countParent_eq_ok hrest
      refine ⟨List.forall_mem_cons.mpr ⟨ensure_eq_ok.mp hround, hrounds⟩, ?_⟩
      rw [List.map_cons, List.sum_cons, add_assoc]

omit [Crypto] in
/-- **What the check of the parents accepts**, with the stakes added without wrapping. -/
theorem checkParents_eq_ok {parents : List Certificate}
    (hok : core.checkParents h parents = .ok ()) :
    (∀ p ∈ parents, p.header.rawRound + 1 = h.rawRound) ∧
      core.committee.quorumThreshold.toNat
        ≤ (parents.map fun p => core.committee.weight p.origin).sum := by
  obtain ⟨stake, hfold, hq⟩ := Except.bind_eq_ok_iff.mp hok
  obtain ⟨hrounds, rfl⟩ := foldlM_countParent_eq_ok hfold
  refine ⟨hrounds, (UInt32.le_iff_toNat_le.mp (ensure_eq_ok.mp hq)).trans ?_⟩
  rw [zero_add, toNat_sum, List.map_map]
  exact Nat.mod_le _ _

/-- The certificates of a store are stored under their digests. -/
def Keyed (store : Store) : Prop :=
  ∀ d c, store.lookup (.digest d) = some (.certificate c) → c.digest = d

theorem genesis_eq_some {d : Digest} {g : Certificate}
    (hg : Synchronizer.genesis core.committee d = some g) :
    g ∈ Certificate.genesis core.committee ∧ g.digest = d :=
  ⟨List.mem_of_find?_eq_some hg, by simpa using List.find?_some hg⟩

theorem has_of_found (hkeyed : Keyed store) {d : Digest} {c : Certificate}
    (hfound : Synchronizer.Found core.committee store d c) : core.Has store d c := by
  rcases hfound with hg | ⟨-, hs⟩
  · exact ⟨(genesis_eq_some hg).2, Or.inl (genesis_eq_some hg).1⟩
  · exact ⟨hkeyed d c hs, Or.inr hs⟩

theorem map_digest_of_has {digests : List Digest} {parents : List Certificate}
    (hhas : List.Forall₂ (core.Has store) digests parents) :
    parents.map Certificate.digest = digests := by
  induction hhas with
  | nil => rfl
  | cons hd _ ih => rw [List.map_cons, hd.1, ih]

omit [Crypto] in
theorem round_of_mem_genesis {g : Certificate} {committee : Committee}
    (hg : g ∈ Certificate.genesis committee) : g.header.rawRound = 0 := by
  obtain ⟨name, -, rfl⟩ := List.mem_map.mp hg
  rfl

theorem exists_found_of_mem {digests : List Digest} {parents : List Certificate}
    (hfound : List.Forall₂ (Synchronizer.Found core.committee store) digests parents)
    {p : Certificate} (hp : p ∈ parents) :
    ∃ d ∈ digests, Synchronizer.Found core.committee store d p := by
  induction hfound with
  | nil => cases hp
  | cons hd _ ih =>
    rcases List.mem_cons.mp hp with rfl | hp
    · exact ⟨_, List.mem_cons_self, hd⟩
    · obtain ⟨d, hmem, hd⟩ := ih hp
      exact ⟨d, List.mem_cons_of_mem _ hmem, hd⟩

/-- **The rounds of the parents do not wrap**, where no parent is of the last round. -/
theorem round_of_found {parents : List Certificate} (hwraps : ¬ WrapsAround store h)
    (hfound : List.Forall₂ (Synchronizer.Found core.committee store) h.parents.elems parents)
    (hrounds : ∀ p ∈ parents, p.header.rawRound + 1 = h.rawRound) :
    ∀ p ∈ parents, p.round + 1 = h.round := by
  intro p hp
  have hne : p.header.rawRound + 1 ≠ 0 := by
    intro hzero
    obtain ⟨d, hd, hg | ⟨-, hs⟩⟩ := exists_found_of_mem hfound hp
    · rw [round_of_mem_genesis (genesis_eq_some hg).1] at hzero
      cases hzero
    · exact hwraps ⟨(hrounds p hp).symm.trans hzero, d, hd, p, certificateAt_eq_some.mpr hs, hzero⟩
  have hlt : p.header.rawRound.toNat + 1 < 2 ^ 64 := by
    by_contra hge
    refine hne (UInt64.toNat_inj.mp ?_)
    have hbound := p.header.rawRound.toNat_lt
    rw [UInt64.toNat_add]
    change (p.header.rawRound.toNat + 1) % 2 ^ 64 = 0
    omega
  rw [Header.round, ← hrounds p hp, UInt64.toNat_add]
  exact (Nat.mod_eq_of_lt hlt).symm

/-- **The parents have distinct authors**, where the store has one certificate per round and author
and no author's genesis certificate is doubled. -/
theorem nodup_origins {parents : List Certificate} (hkeyed : Keyed store)
    (hunique : UniqueCertificates store) (hdoubles : ¬ core.DoublesGenesis store h)
    (hfound : List.Forall₂ (Synchronizer.Found core.committee store) h.parents.elems parents)
    (hrounds : ∀ p ∈ parents, p.header.rawRound + 1 = h.rawRound) :
    (parents.map Certificate.origin).Nodup := by
  have hdigests := map_digest_of_has (hfound.imp fun d c hc => has_of_found hkeyed hc)
  have hnodup : parents.Nodup := List.Nodup.of_map _ (hdigests ▸ h.parents.nodup_elems)
  have hmixed : ∀ p ∈ parents, ∀ q ∈ parents, p ∈ Certificate.genesis core.committee →
      ∀ d ∈ h.parents.elems, Synchronizer.genesis core.committee d = some p →
      ∀ d' ∈ h.parents.elems, Synchronizer.genesis core.committee d' = none →
      store.lookup (.digest d') = some (.certificate q) → p.origin = q.origin → False := by
    intro p hp q hq hgen d hd hg d' hd' hnone hs horigin
    have hround : q.header.rawRound = 0 := by
      have := (hrounds q hq).trans (hrounds p hp).symm
      rw [round_of_mem_genesis hgen] at this
      exact add_right_cancel this
    refine hdoubles ⟨d, hd, p, hg, d', hd', q, certificateAt_eq_some.mpr hs, hnone, ?_, horigin.symm⟩
    rw [Certificate.round, Header.round, hround]
    rfl
  refine hnodup.map_on fun p hp q hq horigin => ?_
  obtain ⟨d, hd, hpd⟩ := exists_found_of_mem hfound hp
  obtain ⟨d', hd', hqd⟩ := exists_found_of_mem hfound hq
  rcases hpd with hg | ⟨hnone, hs⟩
  · rcases hqd with hg' | ⟨hnone', hs'⟩
    · obtain ⟨name, -, rfl⟩ := List.mem_map.mp (genesis_eq_some hg).1
      obtain ⟨name', -, rfl⟩ := List.mem_map.mp (genesis_eq_some hg').1
      exact congrArg Certificate.genesisOf horigin
    · exact (hmixed p hp q hq (genesis_eq_some hg).1 d hd hg d' hd' hnone' hs' horigin).elim
  · rcases hqd with hg' | ⟨hnone', hs'⟩
    · exact (hmixed q hq p hp (genesis_eq_some hg').1 d' hd' hg' d hd hnone hs horigin.symm).elim
    · refine hunique p (mem_certificates hs) q (mem_certificates hs') ?_ horigin
      have := (hrounds p hp).trans (hrounds q hq).symm
      rw [Certificate.round, Certificate.round, Header.round, Header.round, add_right_cancel this]

/-- **A header whose parents are accepted has a quorum of parents.** -/
theorem Accepts.parents (hacc : core.Accepts store h) (hkeyed : Keyed store)
    (hunique : UniqueCertificates store) (hcount : core.ParentsCount store h) :
    ∃ parents, core.Parents store h parents := by
  obtain ⟨parents, hfind, -, hcheck⟩ := hacc
  have hfound := (Synchronizer.findParents_eq_ok hfind).2 rfl
  obtain ⟨hrounds, hquorum⟩ := checkParents_eq_ok hcheck
  refine ⟨parents, hfound.imp fun d c hc => has_of_found hkeyed hc,
    round_of_found hcount.1 hfound hrounds, ?_⟩
  have hnodup := nodup_origins hkeyed hunique hcount.2 hfound hrounds
  rw [Committee.stakeOf, List.sum_toFinset _ hnodup, List.map_map]
  exact hquorum

/-- A header of round zero is not accepted, where no parent is of the last round. -/
theorem Accepts.round_ne_zero (hacc : core.Accepts store h) (hwraps : ¬ WrapsAround store h) :
    h.rawRound ≠ 0 := by
  obtain ⟨parents, hfind, hne, hcheck⟩ := hacc
  have hfound := (Synchronizer.findParents_eq_ok hfind).2 rfl
  obtain ⟨p, hp⟩ := List.exists_mem_of_ne_nil _ hne
  have hround := round_of_found hwraps hfound (checkParents_eq_ok hcheck).1 p hp
  intro hzero
  rw [Header.round, hzero] at hround
  cases hround

/-! ## Where the headers come from -/

/-- The header was verified, is our own, or is of round zero. -/
def Screened (core : Core) (is : List Event) (h : Header) : Prop :=
  h.verify core.committee = .ok () ∨ h ∈ ownHeaders is ∨ h.rawRound = 0

theorem Screened.mono {e : Event} (hh : core.Screened is h) : core.Screened (is ++ [e]) h :=
  hh.imp_right (Or.imp_left ownHeaders_mono)

/-- The headers the core holds or sent to the waiters are screened, and the certificates are stored
under their digests. -/
structure Screens (core : Core) (is : List Event) (s : State) (log : List Emission) : Prop where
  current : s.currentHeader = default ∨ s.currentHeader ∈ ownHeaders is
  pending : ∀ e ∈ log, ∀ h, e.pending = some h → core.Screened is h
  keyed : Keyed s.store

namespace Screens

theorem screened_current (hs : core.Screens is s log) : core.Screened is s.currentHeader := by
  rcases hs.current with hdefault | hown
  · rw [hdefault]
    exact Or.inr (Or.inr rfl)
  · exact Or.inr (Or.inl hown)

/-- A header handed to a handler is screened. -/
theorem hands (hs : core.Screens is s (core.machine.outputs is)) {e : Event}
    (hret : core.Returned is e) (hh : core.HandsHeader s e h) : core.Screened (is ++ [e]) h := by
  cases e with
  | header x =>
    obtain ⟨rfl, hok⟩ := hh
    exact Or.inl (sanitizeHeader_eq_ok hok).2
  | certificate c =>
    obtain ⟨rfl, hok⟩ := hh
    rcases (sanitizeCertificate_eq_ok hok).2 with ⟨-, hround⟩ | hq
    · exact Or.inr (Or.inr (UInt64.toNat_inj.mp hround))
    · exact Or.inl (Certificate.verifyQuorum_eq_ok_iff.mp hq).1
  | headerLoopback x =>
    cases hh
    obtain ⟨e, he, hpending⟩ := exists_pending_of_suspended hret
    exact (hs.pending e he _ hpending).mono
  | certificateLoopback c =>
    cases hh
    exact (hs.pending _ hret _ rfl).mono
  | ownHeader x =>
    cases hh
    exact Or.inr (Or.inl (ownHeader_mem_ownHeaders is _))
  | vote _ => cases hh
  | batch _ _ => cases hh
  | committed _ => cases hh

theorem keyed_write (hkeyed : Keyed s.store) {k : StoreKey} {v : StoreValue}
    (hv : ∀ c, v = .certificate c → k = .digest c.digest) : Keyed (s.write k v).store := by
  intro d c hc
  rw [State.write, AList.lookup_insert_eq] at hc
  split at hc
  · next hk =>
    cases hc
    rw [hv c rfl] at hk
    cases hk
    rfl
  · exact hkeyed d c hc

theorem keyed_effect {I : Given} (hkeyed : Keyed s.store) (hE : Effect core I s log w s') :
    Keyed s'.store := by
  cases hE with
  | storeHeader _ _ => exact keyed_write hkeyed fun c hc => (by cases hc)
  | @accept x _ => exact @keyed_write _ s hkeyed _ (.certificate x) fun c hc => (by cases hc; rfl)
  | _ => exact hkeyed

/-- **What the core holds and sends to the waiters is screened, in every run.** -/
theorem invariant (core : Core) : core.Invariant core.Returned core.Screens where
  init := ⟨Or.inl rfl, fun e he => (by cases he), fun d c hc => (by cases hc)⟩
  mono _ h := ⟨h.current.imp_right ownHeaders_mono,
    fun e he x hx => (h.pending e he x hx).mono, h.keyed⟩
  cleanUp {_ s _} h := ⟨(State.cleanUp_eq s _).2.1 ▸ h.current, h.pending,
    (State.cleanUp_eq s _).1 ▸ h.keyed⟩
  batch _ _ h := ⟨h.current, h.pending, keyed_write h.keyed fun c hc => (by cases hc)⟩
  committed _ h := ⟨h.current, h.pending, h.keyed⟩
  propose _ _ h := by
    refine ⟨Or.inr (ownHeader_mem_ownHeaders _ _), fun e he x hx => ?_, h.keyed⟩
    rcases List.mem_append.mp he with he | he
    · exact (h.pending e he x hx).mono
    · rw [List.mem_singleton.mp he] at hx
      cases hx
  effect _ hret h₀ _ h hE := by
    refine ⟨hE.sameRounds.currentHeader ▸ h.current, fun e he x hx => ?_, keyed_effect h.keyed hE⟩
    rcases List.mem_append.mp he with he | he
    · exact h.pending e he x hx
    · rcases hE.pending (fun _ hc => Provenance.handsHeader_of_handsCertificate hc) he hx with
        hgiven | rfl | ⟨e', he', hx'⟩
      · exact h₀.hands hret hgiven
      · exact h.screened_current
      · exact h.pending e' he' x hx'

end Screens

/-! ## The votes -/

/-- A vote a step creates is for the header handed over or the current one, whose parents and
payload the store has when the step starts. -/
theorem accepts_of_created {e : Event} {v : Vote} (hv : .created v ∈ (core.step s e).2) :
    ∃ h, (core.HandsHeader s e h ∨ h = s.currentHeader) ∧
      v = Vote.new h core.name core.requestSignature ∧ core.Accepts s.store h ∧
      Synchronizer.missingBatches core.name s.store h = [] := by
  obtain ⟨s₁, log, w, s₂, hsame, hE, hmem⟩ := exists_effect_of_mem hv (by simp)
  cases hE with
  | @vote x hh haccepts hbatches _ =>
    have hvote : v = Vote.new x core.name core.requestSignature := by simpa using hmem
    refine ⟨x, ?_, hvote, haccepts, hbatches⟩
    rcases hh with hh | rfl
    · exact Or.inl hh.1
    · rw [hsame.currentHeader]
      cases e with
      | ownHeader y => exact Or.inl rfl
      | _ => exact Or.inr rfl
  | accept _ =>
    obtain ⟨ps, hps⟩ | hps := mem_accepted hmem <;> cases hps
  | awaitParents _ _ _ _ => cases List.mem_singleton.mp hmem
  | awaitBatches _ _ _ => cases List.mem_singleton.mp hmem
  | awaitAncestors _ _ _ => cases List.mem_singleton.mp hmem
  | certify _ _ => cases List.mem_singleton.mp hmem
  | sendVote _ _ => cases List.mem_singleton.mp hmem
  | _ => cases hmem

omit [Crypto] in
theorem payload_of_missingBatches (hbatches : Synchronizer.missingBatches core.name store h = [])
    (hname : h.author ≠ core.name) :
    ∀ entry ∈ h.payload.entries, (store.lookup (.batch entry.1 entry.2)).isSome := by
  rw [Synchronizer.missingBatches, if_neg hname] at hbatches
  intro entry hentry
  by_contra hmissing
  have : entry ∈ h.payload.entries.filter fun e => (store.lookup (.batch e.1 e.2)).isNone :=
    List.mem_filter.mpr ⟨hentry, by simpa using hmissing⟩
  rw [hbatches] at this
  cases this

omit [Crypto] in
theorem offers_of_hands [Crypto] {e : Event} (hh : core.HandsHeader s e h) : h ∈ e.offers := by
  cases e with
  | header _ => exact congrArg some hh.1.symm
  | certificate _ => exact congrArg some hh.1.symm
  | headerLoopback _ => exact congrArg some (Eq.symm hh)
  | certificateLoopback _ => exact congrArg some (Eq.symm hh)
  | ownHeader _ => exact congrArg some (Eq.symm hh)
  | _ => cases hh

/-- **Votes certify validated data**: in every run with at most one stored certificate per round and
author, in which no header is handed over whose parents' rounds wrap or whose parents double a
genesis certificate, every vote created is for a header that was verified or is our own, whose
parents, of the previous round and from a quorum of authors, and whose payload are in the store. -/
theorem votes_certify_validated_data (core : Core) (is : List Event)
    (hrun : ∀ pre e, pre ++ [e] <+: is → core.Returned pre e)
    (hunique : core.machine.Along (fun s _ => UniqueIn s) is)
    (hcounts : core.machine.Along core.HandsCounting is) :
    ∀ pre e s v, pre ++ [e] <+: is → core.machine.state pre = .ok s →
      .created v ∈ (core.step s e).2 → ∃ h, (core.HandsHeader s e h ∨ h = s.currentHeader) ∧
        v = Vote.new h core.name core.requestSignature ∧ core.Validated (pre ++ [e]) s.store h := by
  intro pre e s v hpre hs hv
  obtain ⟨h, hh, rfl, haccepts, hbatches⟩ := accepts_of_created hv
  have hscreens := (Screens.invariant core).alive (fun pre' e' hp => hrun pre' e'
    (hp.trans ((List.prefix_append _ _).trans hpre))) hs
  have huniq : UniqueIn (.ok s) := hs ▸ hunique pre e hpre
  have hcount : core.HandsCounting (.ok s) e := hs ▸ hcounts pre e hpre
  have hparents : core.ParentsCount s.store h := by
    rcases hh with hh | rfl
    · exact hcount.2 h (offers_of_hands hh) hh
    · exact hcount.1
  have hscreened : core.Screened (pre ++ [e]) h := by
    rcases hh with hh | rfl
    · exact hscreens.hands (hrun pre e hpre) hh
    · exact hscreens.screened_current.mono
  refine ⟨h, hh, rfl, ⟨?_, haccepts.parents hscreens.keyed huniq hparents,
    payload_of_missingBatches hbatches⟩⟩
  rcases hscreened with hverified | hown | hzero
  · exact Or.inl hverified
  · exact Or.inr hown
  · exact absurd hzero (haccepts.round_ne_zero hparents.1)

end

end Core

namespace Core.LastRound

open Sample

/-- The core of the first of four authorities. -/
def core : Core := ⟨key 1, committee4, 50, fun digest => sign digest (key 1)⟩

/-- A certificate of the last round there is. -/
def last (author : ℕ) : Certificate := certificate committee4 (key author) (-1) []

/-- The genesis certificate of the second authority, with three of those for parents. -/
def forged : Certificate :=
  let g := Certificate.genesisOf (key 2)
  { g with header := { g.header with
      parents := BTreeSet.collect ([last 2, last 3, last 4].map Certificate.digest) } }

/-- What the core receives before it votes for the header in `forged`. -/
def events : List Event := [last 2, last 3, last 4].map .certificate

def c1 (author : ℕ) : Certificate :=
  certificate committee4 (key author) 1 (Certificate.genesis committee4)

/-- A header of the second round. -/
def proposal : Header := header (key 2) 2 .empty ([c1 2, c1 3, c1 4].map Certificate.digest)

/-- Its parents arrive after it, and the core votes for it once it is looped back. -/
def suspended : List Event :=
  [.header proposal, .certificate (c1 2), .certificate (c1 3), .certificate (c1 4)]

/-- The state of a core that is alive. -/
def alive : Except Panic State → State
  | .ok s => s
  | .error _ => .new

/-- The vote for a header. -/
def voteFor (h : Header) : Vote := Vote.new h core.name core.requestSignature

theorem eq_ok_alive {r : Except Panic State} (h : r.isOk = true) : r = .ok (alive r) := by
  cases r with
  | ok s => rfl
  | error p => cases h

set_option maxRecDepth 100000 in
theorem run_forged : core.AdmissibleRun (events ++ [.certificate forged]) ∧
    core.machine.Along (fun s _ => UniqueIn s) (events ++ [.certificate forged]) ∧
    (core.machine.state events).isOk = true ∧
    .created (voteFor forged.header)
      ∈ (core.step (alive (core.machine.state events)) (.certificate forged)).2 ∧
    (alive (core.machine.state events)).currentHeader = default := by
  decide +kernel

set_option maxRecDepth 100000 in
theorem forged_unverified : forged.header.verify committee4 ≠ .ok () ∧
    forged.header ∉ ownHeaders (events ++ [.certificate forged]) ∧
    voteFor forged.header ≠ Vote.new default core.name core.requestSignature := by
  decide +kernel

/-- **The core votes for a header that nobody signed.** -/
theorem unsigned_voted :
    (∀ pre e, pre ++ [e] <+: events ++ [.certificate forged] → core.Returned pre e) ∧
    core.machine.Along (fun s _ => UniqueIn s) (events ++ [.certificate forged]) ∧
    ∃ s v, core.machine.state events = .ok s ∧
      .created v ∈ (core.step s (.certificate forged)).2 ∧
      ∀ h, core.HandsHeader s (.certificate forged) h ∨ h = s.currentHeader →
        v = Vote.new h core.name core.requestSignature →
          ¬ core.Validated (events ++ [.certificate forged]) s.store h := by
  obtain ⟨hrun, hunique, hok, hcreated, hcurrent⟩ := run_forged
  obtain ⟨hverify, hown, hvote⟩ := forged_unverified
  refine ⟨fun pre e hpre => (hrun pre e hpre).returned, hunique, _, _, eq_ok_alive hok, hcreated,
    fun h hh heq hvalid => ?_⟩
  rcases hh with ⟨rfl, -⟩ | hcur
  · exact hvalid.origin.elim hverify hown
  · rw [hcur, hcurrent] at heq
    exact hvote heq

set_option maxRecDepth 100000 in
theorem run_suspended : core.AdmissibleRun (suspended ++ [.headerLoopback proposal]) ∧
    core.machine.Along (fun s _ => UniqueIn s) (suspended ++ [.headerLoopback proposal]) ∧
    core.machine.Along core.HandsCounting (suspended ++ [.headerLoopback proposal]) ∧
    (core.machine.state suspended).isOk = true ∧
    .created (voteFor proposal)
      ∈ (core.step (alive (core.machine.state suspended)) (.headerLoopback proposal)).2 := by
  decide +kernel

theorem votes_certify_validated_data_suspended :
    core.machine.Along core.HandsCounting (suspended ++ [.headerLoopback proposal]) ∧
    ∃ s v, core.machine.state suspended = .ok s ∧
      .created v ∈ (core.step s (.headerLoopback proposal)).2 ∧
      ∃ h, (core.HandsHeader s (.headerLoopback proposal) h ∨ h = s.currentHeader) ∧
        v = Vote.new h core.name core.requestSignature ∧
        core.Validated (suspended ++ [.headerLoopback proposal]) s.store h := by
  obtain ⟨hrun, hunique, hcounts, hok, hcreated⟩ := run_suspended
  have hs := eq_ok_alive hok
  have hvalid := votes_certify_validated_data core (suspended ++ [.headerLoopback proposal])
    (fun pre e hpre => (hrun pre e hpre).returned) hunique hcounts suspended
    (.headerLoopback proposal) _ _ List.prefix_rfl hs hcreated
  exact ⟨hcounts, _, _, hs, hcreated, hvalid⟩

end Core.LastRound

end Bullshark
