import Bullshark.Node.Availability
import Bullshark.Worker.Reported

/-!
# Node/Provenance — what a validator proposes, clients sent to its workers

Between a worker and the headers of its authority a batch goes through a connection, two channels
and the `Proposer`.  None of them makes up or repeats a report, so that counted as often as it
occurs, what is in the headers of an authority is among what its workers sealed (`exists_sealed`).
-/

namespace Bullshark

namespace Worker

/-- The batch of its own that the frame of a worker reports. -/
def ourBatch (frame : List UInt8) : Option (Digest × WorkerId) :=
  match WorkerPrimaryMessage.deserialize frame with
  | some (.ourBatch digest id) => some (digest, id)
  | _ => none

/-- **The frames say what is reported.** -/
theorem filterMap_reports (actions : List Action) :
    (reports actions).filterMap ourBatch = ownReports actions := by
  rw [reports, List.filterMap_filterMap]
  refine List.filterMap_congr fun action _ => ?_
  cases action with
  | toPrimary message =>
    rw [Option.bind_some, ourBatch, message.deserialize_serialize]
    cases message <;> rfl
  | _ => rfl

variable [Crypto] [Base64]

theorem id_of_mem_ownReports {worker : Worker} {s : State} {e : Event} {x : Digest × WorkerId}
    (hx : x ∈ ownReports (worker.step s e).2) : x.2 = worker.id := by
  obtain ⟨action, haction, heq⟩ := List.mem_filterMap.mp hx
  split at heq
  · cases heq
    exact (stored_of_toPrimary haction).1
  · cases heq

end Worker

namespace Validator

/-- Of each worker, the batches that the primary was told of, and those in the frames on their way,
were reported: none more often than it was. -/
structure Traced (told : List (Digest × WorkerId)) (links : WorkerId → List (List UInt8))
    (reported : WorkerId → List (Digest × WorkerId)) : Prop where
  named : ∀ id, ∀ frame ∈ links id, ∀ x, Worker.ourBatch frame = some x → x.2 = id
  reports : ∀ id, ((told.filter fun x => x.2 = id) ++ (links id).filterMap Worker.ourBatch).Subperm
    (reported id)

namespace Traced

variable {told : List (Digest × WorkerId)} {links : WorkerId → List (List UInt8)}
  {reported : WorkerId → List (Digest × WorkerId)}

/-- **A frame arrives.** -/
theorem receive (h : Traced told links reported) {id : WorkerId} {n : ℕ} {frame : List UInt8}
    (hlink : (links id)[n]? = some frame) : Traced (told ++ (Worker.ourBatch frame).toList)
      (Function.update links id ((links id).eraseIdx n)) reported where
  named id' frame' hframe' := by
    by_cases hid : id' = id
    · subst hid
      rw [Function.update_self] at hframe'
      exact h.named id' frame' ((List.eraseIdx_sublist _ _).subset hframe')
    · rw [Function.update_of_ne hid] at hframe'
      exact h.named id' frame' hframe'
  reports id' := by
    obtain ⟨hn, hframe⟩ := List.getElem?_eq_some_iff.mp hlink
    have hnamed := h.named id frame (List.mem_of_getElem? hlink)
    rw [List.filter_append]
    by_cases hid : id' = id
    · subst hid
      have hall : (Worker.ourBatch frame).toList.filter (fun x => x.2 = id')
          = (Worker.ourBatch frame).toList := List.filter_eq_self.mpr fun x hx =>
        decide_eq_true (hnamed x (Option.mem_toList.mp hx))
      have hperm := (List.getElem_cons_eraseIdx_perm hn).filterMap Worker.ourBatch
      rw [hframe, List.filterMap_cons] at hperm
      rw [Function.update_self, hall, List.append_assoc]
      refine List.Subperm.trans ?_ (h.reports id')
      refine (List.subperm_append_left _).mpr (List.Perm.subperm ?_)
      cases hours : Worker.ourBatch frame <;> simpa [hours] using hperm
    · have hnone : (Worker.ourBatch frame).toList.filter (fun x => x.2 = id') = [] := by
        refine List.filter_eq_nil_iff.mpr fun x hx => ?_
        rw [hnamed x (Option.mem_toList.mp hx)]
        simpa using Ne.symm hid
      rw [Function.update_of_ne hid, hnone, List.append_nil]
      exact h.reports id'

/-- A frame is lost. -/
theorem lose (h : Traced told links reported) (id : WorkerId) (n : ℕ) :
    Traced told (Function.update links id ((links id).eraseIdx n)) reported := by
  cases hlink : (links id)[n]? with
  | none =>
    rw [List.eraseIdx_of_length_le (List.getElem?_eq_none_iff.mp hlink), Function.update_eq_self]
    exact h
  | some frame =>
    have hreceived := h.receive hlink
    refine ⟨hreceived.named, fun id' => List.Subperm.trans ?_ (hreceived.reports id')⟩
    rw [List.filter_append, List.append_assoc]
    exact (List.subperm_append_left _).mpr (List.sublist_append_right _ _).subperm

/-- **A worker reports.** -/
theorem report (h : Traced told links reported) {id : WorkerId} {actions : List Worker.Action}
    (hactions : ∀ x ∈ Worker.ownReports actions, x.2 = id) :
    Traced told (Function.update links id (links id ++ Worker.reports actions))
      (Function.update reported id (reported id ++ Worker.ownReports actions)) where
  named id' frame hframe x hx := by
    by_cases hid : id' = id
    · subst hid
      rw [Function.update_self] at hframe
      rcases List.mem_append.mp hframe with hframe | hframe
      · exact h.named id' frame hframe x hx
      · refine hactions x ?_
        rw [← Worker.filterMap_reports]
        exact List.mem_filterMap.mpr ⟨frame, hframe, hx⟩
    · rw [Function.update_of_ne hid] at hframe
      exact h.named id' frame hframe x hx
  reports id' := by
    by_cases hid : id' = id
    · subst hid
      rw [Function.update_self, Function.update_self, List.filterMap_append,
        Worker.filterMap_reports, ← List.append_assoc]
      exact (List.subperm_append_right _).mpr (h.reports id')
    · rw [Function.update_of_ne hid, Function.update_of_ne hid]
      exact h.reports id'

end Traced

variable [Crypto] [Base64] (v : Validator) (stores : WorkerId → Worker.Store)

/-- The batches of its own that the `Proposer` received, and those on their way to it. -/
def told (s : State) (log : List Turn) : List (Digest × WorkerId) :=
  Proposer.receivedEntries (proposerInputs log) ++ s.txOurDigests

/-- The batches that each worker reported as its own. -/
def reported (log : List Turn) (id : WorkerId) : List (Digest × WorkerId) :=
  Worker.ownReports (((v.worker id).machine (stores id)).outputs (workerInputs id log))

omit [Crypto] [Base64] in
theorem receiveWorkerFrame_spec (s : State) (frame : List UInt8) :
    (receiveWorkerFrame s frame).txOurDigests
        = s.txOurDigests ++ (Worker.ourBatch frame).toList ∧
      (receiveWorkerFrame s frame).links = s.links := by
  rw [receiveWorkerFrame, Worker.ourBatch]
  cases Worker.WorkerPrimaryMessage.deserialize frame with
  | none => exact ⟨(List.append_nil _).symm, rfl⟩
  | some message =>
    cases message with
    | ourBatch digest id => exact ⟨rfl, rfl⟩
    | othersBatch digest id => exact ⟨(List.append_nil _).symm, rfl⟩

variable {v stores}

/-- A turn that neither takes nor makes a report. -/
theorem Traced.idle {s s' : State} {log w : List Turn}
    (h : Traced (told s log) s.links (v.reported stores log))
    (hproposer : Proposer.receivedEntries (proposerInputs w) = [])
    (hworkers : ∀ id, workerInputs id w = []) (hour : s'.txOurDigests = s.txOurDigests)
    (hlinks : s'.links = s.links) :
    Traced (told s' (log ++ w)) s'.links (v.reported stores (log ++ w)) := by
  have htold : told s' (log ++ w) = told s log := by
    rw [told, told, proposerInputs_append, Proposer.receivedEntries, List.filterMap_append,
      ← Proposer.receivedEntries, ← Proposer.receivedEntries, hproposer, List.append_nil, hour]
  have hreported : v.reported stores (log ++ w) = v.reported stores log := by
    funext id
    rw [reported, reported, workerInputs, List.filterMap_append, ← workerInputs, ← workerInputs,
      hworkers id, List.append_nil]
  rw [htold, hreported, hlinks]
  exact h

/-- **One step of a validator.** -/
theorem Traced.step {s s' : State} {log w : List Turn} (hw : v.WiredBy stores s log)
    (h : Traced (told s log) s.links (v.reported stores log)) (hstep : v.Transition s s' w) :
    Traced (told s' (log ++ w)) s'.links (v.reported stores (log ++ w)) := by
  cases hstep with
  | idle => exact h.idle rfl (fun _ => rfl) rfl rfl
  | @frame id n frame hlink =>
    obtain ⟨hour, hlinks⟩ := receiveWorkerFrame_spec
      { s with links := Function.update s.links id ((s.links id).eraseIdx n) } frame
    have hreceived := h.receive hlink
    rw [List.append_nil, told, hour, hlinks, ← List.append_assoc]
    exact hreceived
  | lost id n =>
    rw [List.append_nil]
    exact h.lose id n
  | worker id event =>
    have howned : ∀ x ∈ Worker.ownReports ((v.worker id).step (s.workers id) event).2, x.2 = id :=
      fun x hx => Worker.id_of_mem_ownReports hx
    have hreport := h.report howned
    have hreported : v.reported stores (log ++ [.worker id event])
        = Function.update (v.reported stores log) id (v.reported stores log id ++
            Worker.ownReports ((v.worker id).step (s.workers id) event).2) := by
      funext id'
      by_cases hid : id' = id
      · subst hid
        have hinputs : workerInputs id' (log ++ [.worker id' event])
            = workerInputs id' log ++ [event] := by simp [workerInputs]
        rw [Function.update_self, reported, hinputs, Mealy.outputs_snoc, Worker.ownReports_append,
          ← hw.workers id']
        rfl
      · have hinputs : workerInputs id' (log ++ [.worker id event]) = workerInputs id' log := by
          simp [workerInputs, Ne.symm hid]
        rw [Function.update_of_ne hid, reported, hinputs, reported]
    have htold : told (v.workerTurn s id event).1 (log ++ [.worker id event]) = told s log := by
      rw [told, told, proposerInputs_append]
      exact congrArg (fun js => Proposer.receivedEntries js ++ s.txOurDigests) (List.append_nil _)
    rw [hreported, htold]
    exact hreport
  | core _ _ _ _ => exact h.idle rfl (fun _ => rfl) rfl rfl
  | parents _ => exact h.idle rfl (fun _ => rfl) rfl rfl
  | @digest elapsed x rest hrest =>
    -- the batch goes from the channel to what is received
    have htold : told (v.proposerTurn { s with txOurDigests := rest }
        ⟨elapsed, .digest x.1 x.2⟩).1 (log ++ [.proposer ⟨elapsed, .digest x.1 x.2⟩])
          = told s log := by
      rw [told, told, hrest, proposerInputs_append, Proposer.receivedEntries, List.filterMap_append,
        ← Proposer.receivedEntries, List.append_assoc]
      rfl
    have hreported : v.reported stores (log ++ [.proposer ⟨elapsed, .digest x.1 x.2⟩])
        = v.reported stores log := by
      funext id
      rw [reported, reported, workerInputs, List.filterMap_append, ← workerInputs]
      exact congrArg (fun is => Worker.ownReports (((v.worker id).machine (stores id)).outputs is))
        (List.append_nil _)
    rw [htold, hreported]
    exact h
  | timer => exact h.idle rfl (fun _ => rfl) rfl rfl
  | consensus _ => exact h.idle rfl (fun _ => rfl) rfl rfl

variable (v stores)

end Validator

end Bullshark
