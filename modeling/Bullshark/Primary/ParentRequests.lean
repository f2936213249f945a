import Bullshark.Primary.HeaderWaiter
import Bullshark.Primary.Sample

/-!
# Primary/ParentRequests — the parents a suspended header waits for stay on the retry list

A request for a parent carries the round of the first header that asked for it, and the clean-up
drops requests and pending headers each by its own round.  A branch of the `select!` never takes an
awaited parent off the list (`OnRetryList.change`); the clean-up does so exactly when a header it
keeps waits for a parent that a header of a collected round asked for first (`onRetryList_cleanUp`).
-/

namespace Bullshark

namespace HeaderWaiter

variable {self : HeaderWaiter}

/-- **Every awaited parent is on the retry list**: of the headers still pending, the parents that
are not in the store. -/
def OnRetryList (s : State) : Prop :=
  ∀ w ∈ s.waiting, s.IsPending w → ∀ d ∈ w.parents, s.store.lookup (.digest d) = none →
    (s.parentRequests.lookup d).isSome

/-- Where the clean-up keeps a header, it keeps the requests for the parents the header waits for:
they were made by headers of rounds that are not collected either. -/
def Spared (self : HeaderWaiter) (s : State) : Prop :=
  s.consensusRound > self.gcDepth → ∀ w ∈ s.waiting, s.IsPending w →
    s.consensusRound - self.gcDepth < w.deliver.round →
      ∀ d ∈ w.parents, s.store.lookup (.digest d) = none →
        ∀ x ∈ s.parentRequests.lookup d, s.consensusRound - self.gcDepth < x.1

instance (s : State) : Decidable (OnRetryList s) :=
  inferInstanceAs (Decidable (∀ _ ∈ _, _ → ∀ _ ∈ _, _ → _))

instance (self : HeaderWaiter) (s : State) : Decidable (Spared self s) :=
  inferInstanceAs (Decidable (_ → ∀ _ ∈ _, _ → _ → ∀ _ ∈ _, _ → ∀ _ ∈ _, _))

/-! ## The clean-up -/

/-- What the clean-up keeps is pending and requested as before, and of a round not collected. -/
theorem cleanUp_maps {s : State} (hround : s.consensusRound > self.gcDepth) :
    (∀ w, (self.cleanUp s).IsPending w ↔
      s.IsPending w ∧ s.consensusRound - self.gcDepth < w.deliver.round) ∧
    ∀ d, ((self.cleanUp s).parentRequests.lookup d).isSome ↔
      ∃ x ∈ s.parentRequests.lookup d, s.consensusRound - self.gcDepth < x.1 := by
  rw [cleanUp, if_pos hround]
  refine ⟨fun w => ?_, fun d => ?_⟩
  · simp only [State.IsPending, AList.lookup_retain, Option.bind_eq_some_iff]
    constructor
    · rintro ⟨x, hx, hkeep⟩
      split at hkeep
      · next hlt =>
        cases hkeep
        exact ⟨hx, hlt⟩
      · cases hkeep
    · rintro ⟨hx, hlt⟩
      exact ⟨_, hx, if_pos hlt⟩
  · simp only [AList.lookup_retain, Option.isSome_iff_exists, Option.bind_eq_some_iff,
      Option.mem_def]
    constructor
    · rintro ⟨x, y, hy, hkeep⟩
      split at hkeep
      · exact ⟨y, hy, ‹_›⟩
      · cases hkeep
    · rintro ⟨x, hx, hlt⟩
      exact ⟨x, x, hx, if_pos hlt⟩

/-- **The clean-up leaves the awaited parents on the list exactly when it spares them.** -/
theorem onRetryList_cleanUp {s : State} (h : OnRetryList s) :
    OnRetryList (self.cleanUp s) ↔ Spared self s := by
  obtain ⟨-, hstore, hwaiting, -⟩ := self.cleanUp_spec s
  rw [OnRetryList, hstore, hwaiting]
  by_cases hround : s.consensusRound > self.gcDepth
  · obtain ⟨hpending, hrequests⟩ := self.cleanUp_maps hround
    simp only [hpending, hrequests]
    constructor
    · intro hlist _ w hw hp hlt d hd hnone x hx
      obtain ⟨y, hy, hkept⟩ := hlist w hw ⟨hp, hlt⟩ d hd hnone
      cases Option.mem_unique hx hy
      exact hkept
    · rintro hspared w hw ⟨hp, hlt⟩ d hd hnone
      obtain ⟨x, hx⟩ := Option.isSome_iff_exists.mp (h w hw hp d hd hnone)
      exact ⟨x, hx, hspared hround w hw hp hlt d hd hnone x hx⟩
  · rw [cleanUp, if_neg hround]
    exact iff_of_true h fun hlt => absurd hlt hround

section Run

variable [Crypto]

/-! ## The branches -/

omit [Crypto] in
/-- A header joins the pool: the waiters of other headers stay as they are, and an old one for the
same header is not pending any more. -/
theorem isPending_suspend {s : State} {waitFor : List StoreKey} {header : Header}
    (hfresh : ∀ w ∈ s.waiting, w.number < s.created) {w : Waiter}
    (hw : w ∈ (s.suspend waitFor header).waiting) (hp : (s.suspend waitFor header).IsPending w) :
    w = ⟨s.created, waitFor, header⟩ ∨ (w ∈ s.waiting ∧ s.IsPending w) := by
  rcases List.mem_append.mp hw with hw | hw
  · refine Or.inr ⟨hw, ?_⟩
    have hlookup : (s.pending.insert header.id (header.round, s.created)).lookup w.deliver.id
        = some (w.deliver.round, w.number) := hp
    rw [AList.lookup_insert_eq] at hlookup
    split at hlookup
    · exact absurd (Prod.mk.inj (Option.some.inj hlookup)).2.symm (hfresh w hw).ne
    · exact hlookup
  · exact Or.inl (List.mem_singleton.mp hw)

omit [Crypto] in
theorem OnRetryList.suspend {s : State} (h : OnRetryList s)
    (hfresh : ∀ w ∈ s.waiting, w.number < s.created) {waitFor : List StoreKey} {header : Header}
    {requests : HashMap Digest (ℕ × ℕ)}
    (hkeeps : ∀ d, (s.parentRequests.lookup d).isSome → (requests.lookup d).isSome)
    (hnew : ∀ d, .digest d ∈ waitFor → (requests.lookup d).isSome) :
    OnRetryList { s.suspend waitFor header with parentRequests := requests } := by
  intro w hw hp d hd hnone
  rcases isPending_suspend hfresh hw hp with rfl | ⟨hw, hp⟩
  · exact hnew d (Waiter.mem_parents.mp hd)
  · exact hkeeps d (h w hw hp d hd hnone)

/-- The parents of a header that resumes are all there. -/
theorem has_of_resumed {s : State} {w : Waiter} (hcovered : Covered self s.store w)
    (hholds : s.holds w = true) {d : Digest} (hd : d ∈ w.deliver.parents.elems) :
    Synchronizer.has self.committee s.store d = true := by
  rcases hcovered.2 d hd with hparent | hhas
  · rw [Synchronizer.has, Bool.or_eq_true]
    exact Or.inr (List.all_eq_true.mp hholds _ (Waiter.mem_parents.mp hparent))
  · exact hhas

/-- A header that resumes takes off the list what is in the store or a genesis certificate. -/
theorem OnRetryList.resume {s : State} (h : OnRetryList s) (hinv : Inv self s) {w : Waiter}
    (hw : w ∈ s.waiting) (hholds : s.holds w = true) : OnRetryList (s.resume w) := by
  intro x hx hp d hd hnone
  have hx := List.mem_of_mem_erase hx
  have hpending : (s.pending.erase w.deliver.id).lookup x.deliver.id
      = some (x.deliver.round, x.number) := hp
  have hother : x.deliver.id ≠ w.deliver.id := by
    intro heq
    rw [heq, AList.lookup_erase] at hpending
    cases hpending
  rw [AList.lookup_erase_ne hother] at hpending
  have hkept : d ∉ w.deliver.parents.elems := by
    intro hmem
    have hhas := has_of_resumed (hinv.covered w hw) hholds hmem
    rw [Synchronizer.has, (hinv.covered x hx).1 d hd] at hhas
    have hsome : (s.store.lookup (.digest d)).isSome = true := hhas
    have hnone : s.store.lookup (.digest d) = none := hnone
    rw [hnone] at hsome
    cases hsome
  have hrequests : (s.resume w).parentRequests.lookup d = s.parentRequests.lookup d :=
    (AList.lookup_foldl_erase _ _ _).trans (if_neg hkept)
  rw [hrequests]
  exact h x hx hpending d hd hnone

/-- **No branch takes an awaited parent off the list.** -/
theorem OnRetryList.change {s s' : State} (h : OnRetryList s) (hinv : Inv self s) {e : Event}
    {sent : List Emission} {cleans : Bool} (hchange : Change self s e sent cleans s') :
    OnRetryList s' := by
  cases hchange with
  | idle => exact h
  | asked => exact h
  | written key value =>
    intro w hw hp d hd hnone
    refine h w hw hp d hd ?_
    rw [AList.lookup_insert_eq] at hnone
    split at hnone
    · cases hnone
    · exact hnone
  | committed => exact h
  | skipped => exact h
  | syncBatches now missing header rest hrx hnew hsend =>
    have hrest : OnRetryList { s with rxSynchronizer := rest } := h
    exact hrest.suspend hinv.fresh (fun _ hsome => hsome) fun d hd => by simp at hd
  | syncParents now missing header rest hrx hnew =>
    have hrest : OnRetryList { s with rxSynchronizer := rest } := h
    refine hrest.suspend hinv.fresh (fun d hsome => ?_) fun d hd => ?_
    · exact isSome_lookup_foldl_requestParent (Or.inr hsome)
    · exact isSome_lookup_foldl_requestParent (Or.inl (by simpa using hd))
  | resumed w hw hholds => exact h.resume hinv hw hholds
  | dropped w hw => exact fun x hx => h x (List.mem_of_mem_erase hx)
  | retried => exact h

/-! ## The run -/

/-- **The condition on a step**: if it goes on to the clean-up, that one spares the awaited
parents. -/
def Spares (self : HeaderWaiter) (_ : List Emission) (s : State) (e : Event) : Prop :=
  (self.take s e).cleans = true → ∀ s₁ ∈ (self.take s e).state.toOption, Spared self s₁

instance (self : HeaderWaiter) (log : List Emission) (s : State) (e : Event) :
    Decidable (Spares self log s e) :=
  inferInstanceAs (Decidable (_ = _ → ∀ _ ∈ _, _))

/-- **One step** keeps the awaited parents on the list. -/
theorem OnRetryList.step {s s' : State} (h : OnRetryList s) (hinv : Inv self s) {e : Event}
    {log : List Emission} (hspares : Spares self log s e) (hstep : (self.step s e).1 = .ok s') :
    OnRetryList s' := by
  obtain ⟨s₁, htake, rfl⟩ := step_eq_ok hstep
  have hbranch := h.change hinv (take_change htake)
  split
  · next hcleans =>
    exact (onRetryList_cleanUp hbranch).mpr
      (hspares hcleans s₁ (Except.toOption_eq_some_iff.mpr htake))
  · exact hbranch

/-- **Every awaited parent stays on the retry list exactly when every clean-up spares the requests
that pending headers of later rounds rest on**: for every run. -/
theorem onRetryList_iff_spares (self : HeaderWaiter) (is : List Event) :
    (∀ pre, pre <+: is → ∀ s, self.machine.state pre = .ok s → OnRetryList s) ↔
      self.Along (Spares self) is := by
  constructor
  · intro h pre e hpre s hs
    have hs := Except.toOption_eq_some_iff.mp hs
    have hlist := h pre ((List.prefix_append _ _).trans hpre) s hs
    intro hcleans s₁ htake
    have htake := Except.toOption_eq_some_iff.mp htake
    have hstep : (self.step s e).1 = .ok (self.cleanUp s₁) := by
      rw [step]
      dsimp only
      rw [if_pos hcleans, htake]
      rfl
    have hafter := h (pre ++ [e]) hpre _ ((run_snoc hs e).1.trans hstep)
    exact (onRetryList_cleanUp (hlist.change (inv hs) (take_change htake))).mp hafter
  · intro hspares pre hpre s hs
    exact run_invariant (P := fun _ s => OnRetryList s) (fun w hw => (by cases hw))
      (fun hs hlist hcond hstep => hlist.step (inv hs) hcond hstep) (hspares.of_prefix hpre) hs

/-! ## Headers of one round -/

/-- The headers suspended so far that wait for the same parent are of the same round. -/
def SameRounds (log : List Emission) : Prop :=
  ∀ waitFor header, .suspended waitFor header ∈ log →
    ∀ waitFor' header', .suspended waitFor' header' ∈ log →
      ∀ d, .digest d ∈ waitFor → .digest d ∈ waitFor' → header.round = header'.round

/-- What waits was suspended, and a request is of the round of a header suspended for the parent. -/
structure Recorded (log : List Emission) (s : State) : Prop where
  waiting : ∀ w ∈ s.waiting, .suspended w.waitFor w.deliver ∈ log
  requests : ∀ d x, s.parentRequests.lookup d = some x →
    ∃ waitFor header, .suspended waitFor header ∈ log ∧ .digest d ∈ waitFor ∧ header.round = x.1

omit [Crypto] in
theorem Recorded.spared {log : List Emission} {s : State} (h : Recorded log s)
    (hsame : SameRounds log) : Spared self s := by
  intro _ w hw _ hlt d hd _ x hx
  obtain ⟨waitFor, header, hmem, hwait, hround⟩ := h.requests d x hx
  rw [← hround, hsame _ _ hmem _ _ (h.waiting w hw) d hwait (Waiter.mem_parents.mp hd)]
  exact hlt

omit [Crypto] in
/-- Nothing joins the pool, and nothing is requested. -/
theorem Recorded.idle {log sent : List Emission} {s s' : State} (h : Recorded log s)
    (hwaiting : ∀ w ∈ s'.waiting, w ∈ s.waiting)
    (hrequests : ∀ d x, s'.parentRequests.lookup d = some x → s.parentRequests.lookup d = some x) :
    Recorded (log ++ sent) s' where
  waiting w hw := List.mem_append_left _ (h.waiting w (hwaiting w hw))
  requests d x hx := by
    obtain ⟨waitFor, header, hmem, hd⟩ := h.requests d x (hrequests d x hx)
    exact ⟨waitFor, header, List.mem_append_left _ hmem, hd⟩

omit [Crypto] in
/-- A request is one from before, or of the round of this header. -/
theorem lookup_foldl_requestParent {round now : ℕ} {missing : List Digest} {d : Digest}
    {x : ℕ × ℕ} : ∀ {acc : HashMap Digest (ℕ × ℕ) × List Digest},
      (missing.foldl (requestParent round now) acc).1.lookup d = some x →
        acc.1.lookup d = some x ∨ (d ∈ missing ∧ x.1 = round) := by
  induction missing with
  | nil => exact fun h => Or.inl h
  | cons y missing ih =>
    intro acc h
    rw [List.foldl_cons] at h
    rcases ih h with hlookup | ⟨hmem, hround⟩
    · rw [requestParent] at hlookup
      split at hlookup
      · exact Or.inl hlookup
      · rw [AList.lookup_insert_eq] at hlookup
        split at hlookup
        · next heq =>
          cases hlookup
          exact Or.inr ⟨heq ▸ List.mem_cons_self, rfl⟩
        · exact Or.inl hlookup
    · exact Or.inr ⟨List.mem_cons_of_mem _ hmem, hround⟩

omit [Crypto] in
/-- A header joins the pool. -/
theorem Recorded.suspended {log sent : List Emission} {s s' : State} (h : Recorded log s)
    {waitFor : List StoreKey} {header : Header}
    (hwaiting : s'.waiting = s.waiting ++ [⟨s.created, waitFor, header⟩])
    (hrequests : ∀ d x, s'.parentRequests.lookup d = some x →
      s.parentRequests.lookup d = some x ∨ (.digest d ∈ waitFor ∧ x.1 = header.round)) :
    Recorded (log ++ .suspended waitFor header :: sent) s' := by
  have hnow : .suspended waitFor header ∈ log ++ .suspended waitFor header :: sent :=
    List.mem_append_right _ List.mem_cons_self
  refine ⟨?_, fun d x hx => ?_⟩
  · rw [hwaiting]
    exact List.forall_mem_append.mpr ⟨fun w hw => List.mem_append_left _ (h.waiting w hw),
      List.forall_mem_singleton.mpr hnow⟩
  · rcases hrequests d x hx with hold | ⟨hd, hround⟩
    · obtain ⟨waitFor', header', hmem, hd⟩ := h.requests d x hold
      exact ⟨waitFor', header', List.mem_append_left _ hmem, hd⟩
    · exact ⟨waitFor, header, hnow, hd, hround.symm⟩

theorem Recorded.change {log : List Emission} {s s' : State} (h : Recorded log s) {e : Event}
    {sent : List Emission} {cleans : Bool} (hchange : Change self s e sent cleans s') :
    Recorded (log ++ sent) s' := by
  cases hchange with
  | syncBatches now missing header rest hrx hnew hsend =>
    exact h.suspended rfl fun d x hx => Or.inl hx
  | syncParents now missing header rest hrx hnew =>
    refine h.suspended rfl fun d x hx => ?_
    exact (lookup_foldl_requestParent hx).imp_right fun ⟨hd, hround⟩ =>
      ⟨List.mem_map_of_mem hd, hround⟩
  | resumed w hw hholds =>
    refine h.idle (fun _ hx => List.mem_of_mem_erase hx) fun d x hx => ?_
    have hx : (w.deliver.parents.elems.foldl (fun m x => m.erase x) s.parentRequests).lookup d
        = some x := hx
    rw [AList.lookup_foldl_erase] at hx
    split at hx
    · cases hx
    · exact hx
  | dropped w hw => exact h.idle (fun _ hx => List.mem_of_mem_erase hx) fun _ _ hx => hx
  | _ => exact h.idle (fun _ hx => hx) fun _ _ hx => hx

omit [Crypto] in
theorem Recorded.cleanUp {log : List Emission} {s : State} (h : Recorded log s) :
    Recorded log (self.cleanUp s) := by
  rw [HeaderWaiter.cleanUp]
  split
  · refine ⟨h.waiting, fun d x hx => h.requests d x ?_⟩
    have hx := (AList.lookup_retain s.parentRequests _ d).symm.trans hx
    obtain ⟨y, hy, hkeep⟩ := Option.bind_eq_some_iff.mp hx
    split at hkeep
    · cases hkeep
      exact hy
    · cases hkeep
  · exact h

theorem recorded {is : List Event} {s : State} (hs : self.machine.state is = .ok s) :
    Recorded (self.machine.outputs is) s :=
  run_invariant (P := Recorded) (C := fun _ _ _ => True)
    ⟨fun w hw => (by cases hw), fun d x hx => (by simp [State.new] at hx)⟩
    (fun _ h _ hstep =>
      step_of_change (fun _ hchange => h.change hchange) (fun _ h => h.cleanUp) hstep)
    (fun _ _ _ _ _ => trivial) hs

/-- **In a run whose headers wait for a parent only with others of their round**, every clean-up
spares the requests. -/
theorem along_spares_of_sameRounds {is : List Event}
    (hsame : SameRounds (self.machine.outputs is)) : self.Along (Spares self) is := by
  intro pre e hpre s hs _ s₁ htake
  have hs := Except.toOption_eq_some_iff.mp hs
  have hchange := take_change (Except.toOption_eq_some_iff.mp htake)
  have hrecorded := recorded hs
  refine (hrecorded.change hchange).spared fun waitFor header hmem waitFor' header' hmem' => ?_
  have hsub := (self.machine.outputs_prefix hpre).subset
  rw [(run_snoc hs e).2] at hsub
  exact hsame _ _ (hsub hmem) _ _ (hsub hmem')

end Run

end HeaderWaiter

namespace HeaderWaiter.LateRound

open Sample

def task : HeaderWaiter := ⟨key 1, committee4, 50, 5000, 3⟩

/-- The digest of a certificate nobody has. -/
def absent : Digest := Digest.hash [7]

/-- A header that claims a round and has the same parent, together with two genesis certificates. -/
def child (n : ℕ) (round : UInt64) : Header :=
  header (key n) round .empty
    (absent :: ((Certificate.genesis committee4).take 2).map Certificate.digest)

/-- Headers of rounds 5 and 60 wait for the parent; then consensus reaches round 55, and the timer
fires. -/
def collected : List Event :=
  [.getParents (child 2 5), .getParents (child 3 60), .message 0, .message 1, .committed 55,
    .timer 10000]

set_option maxRecDepth 100000 in
/-- **The clean-up takes the parent of a header it keeps off the retry list.** -/
theorem not_onRetryList_collected : (child 2 5).verify committee4 = .ok () ∧
    (child 3 60).verify committee4 = .ok () ∧
    ∃ s, task.machine.state collected = .ok s ∧ ¬ OnRetryList s := by
  have hverify : (child 2 5).verify committee4 = .ok () ∧
      (child 3 60).verify committee4 = .ok () := by
    decide +kernel
  have hrun : (task.machine.state collected).toOption.map (fun s => decide (OnRetryList s))
      = some false := by
    decide +kernel
  obtain ⟨s, hs, hfalse⟩ := Except.exists_of_map_toOption hrun
  exact ⟨hverify.1, hverify.2, s, hs, of_decide_eq_false hfalse⟩

end HeaderWaiter.LateRound

end Bullshark
