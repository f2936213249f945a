import Bullshark.Machinery.Collections
import Bullshark.Network.ReliableSender

/-!
# Network/Link — a connection and the receiver it connects to

The `Connection` of the `ReliableSender` with the `Receiver` at its other end.  The `Receiver` has a
runner for each stream, which dispatches the frames it receives and answers each.  The connection
may leave a stream before all its frames were received: then what was not acknowledged is sent again
on the next stream, while the old runner goes on.  So a message may be dispatched more than once, and
a second copy after later messages; but the first copies come in the order of submission, and what
is acknowledged was dispatched (`delivers`).
-/

namespace Bullshark

namespace Network

/-- The frames of a stream that the peer did not receive yet. -/
def Stream.underway (stream : Stream) : List InnerMessage := stream.frames.drop stream.received

namespace Stream

variable {stream : Stream}

theorem arrived_append_underway (stream : Stream) :
    stream.arrived ++ stream.underway = stream.frames := List.take_append_drop _ _

/-- The next frame arrives, if there is one. -/
theorem arrived_arrive (h : stream.received ≤ stream.frames.length) :
    stream.arrive.arrived = stream.arrived ++ stream.underway.head?.toList := by
  rw [arrived, arrived, arrive, underway]
  rcases h.eq_or_lt with heq | hlt
  · rw [min_eq_right (by omega), heq, List.drop_length]
    simp
  · rw [min_eq_left hlt, List.take_add_one, List.head?_drop]

theorem arrived_push (h : stream.received ≤ stream.frames.length) (message : InnerMessage) :
    (stream.push message).arrived = stream.arrived := List.take_append_of_le_length h

end Stream

namespace Connection

variable {is : List Event} {c : Connection} {outs : List Action} {m m' : InnerMessage}

/-- The handlers are numbered in the order of submission. -/
theorem map_cancelHandler_submitted (is : List Event) :
    (submitted is).map InnerMessage.cancelHandler = List.range' 0 (submitted is).length := by
  rw [submitted, List.map_map, List.length_map, List.length_zipIdx, ← List.zipIdx_map_snd]
  rfl

theorem pairwise_submitted (is : List Event) :
    (submitted is).Pairwise fun m m' => m.cancelHandler < m'.cancelHandler := by
  refine List.pairwise_map.mp ?_
  rw [map_cancelHandler_submitted]
  exact List.pairwise_lt_range'

/-- The handler of a message is its number. -/
theorem getElem?_submitted (h : m ∈ submitted is) : (submitted is)[m.cancelHandler]? = some m := by
  obtain ⟨⟨data, n⟩, hx, rfl⟩ := List.mem_map.mp h
  rw [submitted, List.getElem?_map, List.getElem?_zipIdx, List.mem_zipIdx_iff_getElem?.mp hx,
    Nat.zero_add]
  rfl

theorem data_submitted (is : List Event) :
    (submitted is).map InnerMessage.data = is.filterMap Event.data? := by
  rw [submitted, List.map_map]
  exact List.zipIdx_map_fst 0 _

/-- Only a cancellation closes a handler. -/
theorem Move.closed_eq {e : Event} {c c' : Connection} {acts : List Action} (h : Move c e c' acts)
    (he : ∀ handler, e ≠ .cancel handler) : c'.closed = c.closed := by
  cases h with
  | cancel handler => exact absurd rfl (he handler)
  | _ => rfl

theorem Move.closed_subset {e : Event} {c c' : Connection} {acts : List Action}
    (h : Move c e c' acts) : c.closed ⊆ c'.closed := by
  cases h with
  | cancel handler => exact Finset.subset_insert _ _
  | _ => exact Finset.Subset.refl _

/-- What was dropped has its handler closed. -/
theorem closed_of_dropped (is : List Event) {m : InnerMessage}
    (hm : .dropped m ∈ machine.outputs is) : m.cancelHandler ∈ (machine.state is).closed := by
  refine machine.invariant (P := fun _ c outs => ∀ m, .dropped m ∈ outs → m.cancelHandler ∈ c.closed)
    (fun m hm => (by cases hm)) (fun is e h m hm => ?_) is m hm
  have hmove := move_step (machine.state is) e
  rcases List.mem_append.mp hm with hm | hm
  · exact hmove.closed_subset (h m hm)
  · exact hmove.closed_subset (hmove.closed_of_dropped hm)

/-- **The frames of a stream leave nothing out**: what was submitted before one of them is written
before it on the stream, unless it was settled. -/
theorem Inv.mem_of_frames (h : Inv is c outs) {pre post : List InnerMessage}
    (hframes : c.stream.frames = pre ++ m :: post) (hm' : m' ∈ submitted is)
    (hlt : m'.cancelHandler < m.cancelHandler) : m' ∈ pre ∨ m' ∈ Connection.gone outs := by
  by_cases hgone : m' ∈ Connection.gone outs
  · exact Or.inr hgone
  · refine Or.inl ?_
    have hqueue : m' ∈ c.queue := by
      rw [h.queue]
      exact List.mem_filter.mpr ⟨hm', decide_eq_true hgone⟩
    have hsent : m' ∈ c.sent := by
      obtain ⟨answered, hmatched, -⟩ := h.matched
      rw [Connection.queue, List.append_assoc] at hqueue
      rw [Connection.sent, hmatched, List.append_assoc, List.append_assoc]
      exact List.mem_append_right _ hqueue
    have hsorted := (pairwise_submitted is).sublist h.sent
    rw [Connection.sent, hframes, List.append_assoc, List.append_assoc] at hsent hsorted
    obtain ⟨-, hlater, -⟩ := List.pairwise_append.mp hsorted
    rcases List.mem_append.mp hsent with hpre | hpost
    · exact hpre
    · rcases List.mem_cons.mp hpost with rfl | hpost
      · exact absurd hlt (lt_irrefl _)
      · exact absurd hlt ((List.rel_of_pairwise_cons hlater hpost).not_gt)

end Connection

/-! ## The link -/

/-- A connection, and the runners of the `Receiver` that it connects to. -/
structure Link where
  connection : Connection
  /-- Of each stream that the connection has left, the frames that its runner did not receive yet. -/
  left : List (List InnerMessage)

namespace Link

inductive Event
  /-- The connection does something, or the runner of its stream receives a frame. -/
  | connection (event : Network.Event)
  /-- The runner of a stream that the connection has left receives a frame. -/
  | late (n : ℕ)

inductive Emission
  /-- The connection did something. -/
  | took (event : Network.Event)
  /-- `MessageHandler::dispatch`. -/
  | dispatched (message : InnerMessage)

/-- The stream that the connection leaves for this state, if it leaves one. -/
def leaves (c c' : Connection) : List (List InnerMessage) :=
  match c.phase, c'.phase with
  | .connected _ _, .connected _ _ => []
  | .connected _ stream, _ => [stream.underway]
  | _, _ => []

/-- The message that the runner of the stream receives. -/
def arrival (c : Connection) : Network.Event → Option InnerMessage
  | .arrive => c.stream.underway.head?
  | _ => none

/-- The runner answers what it has received, and nothing else. -/
def step (link : Link) : Event → Link × List Emission
  | .connection event =>
    if link.connection.PeerAnswers event then
      let turn := link.connection.step event
      (⟨turn.1, link.left ++ leaves link.connection turn.1⟩,
        .took event :: (arrival link.connection event).toList.map .dispatched)
    else (link, [])
  | .late n =>
    match link.left[n]? with
    | some (message :: rest) => ({ link with left := link.left.set n rest }, [.dispatched message])
    | _ => (link, [])

def machine : Mealy Link Event Emission := ⟨⟨.new, []⟩, step⟩

/-- The data that an event submits. -/
def Event.data? : Event → Option (List UInt8)
  | .connection event => event.data?
  | .late _ => none

/-- The cancel handlers that an event notifies. -/
def notifies (link : Link) : Event → List ℕ
  | .connection event =>
    if link.connection.PeerAnswers event then
      (link.connection.step event).2.filterMap fun
        | .acknowledged message _ => some message.cancelHandler
        | _ => none
    else []
  | .late _ => []

/-- What the connection did. -/
def taken (log : List Emission) : List Network.Event :=
  log.filterMap fun
    | .took event => some event
    | .dispatched _ => none

/-- What the `Receiver` dispatched. -/
def dispatched (log : List Emission) : List InnerMessage :=
  log.filterMap fun
    | .dispatched message => some message
    | .took _ => none

/-- What the connection settled. -/
def actions (log : List Emission) : List Action := Connection.machine.outputs (taken log)

/-- What was submitted. -/
def submitted (log : List Emission) : List InnerMessage := Connection.submitted (taken log)

theorem taken_append (log w : List Emission) : taken (log ++ w) = taken log ++ taken w :=
  List.filterMap_append

theorem dispatched_append (log w : List Emission) :
    dispatched (log ++ w) = dispatched log ++ dispatched w := List.filterMap_append

theorem mem_dispatched {log : List Emission} {m : InnerMessage} :
    m ∈ dispatched log ↔ .dispatched m ∈ log :=
  List.mem_filterMap_iff_mem (fun e _ => by cases e <;> simp)

/-! ## What holds of every run -/

/-- The message was dispatched, or it was cancelled and dropped. -/
def Settled (log : List Emission) (m : InnerMessage) : Prop :=
  m ∈ dispatched log ∨ .dropped m ∈ actions log

/-- These frames were submitted, and each is behind all that was submitted before it and is not
settled. -/
structure Follows (log : List Emission) (frames : List InnerMessage) : Prop where
  submitted : frames ⊆ submitted log
  behind : ∀ pre m post, frames = pre ++ m :: post → ∀ m' ∈ Link.submitted log,
    m'.cancelHandler < m.cancelHandler → m' ∈ pre ∨ Settled log m'

/-- The runner received no more than was written; what it received was dispatched, and so was what
was acknowledged; the frames on a stream that was left are in order. -/
structure Inv (link : Link) (log : List Emission) : Prop where
  connection : link.connection = Connection.machine.state (taken log)
  received : link.connection.stream.received ≤ link.connection.stream.frames.length
  arrived : ∀ m ∈ link.connection.stream.arrived, m ∈ dispatched log
  acknowledged : ∀ m bytes, .acknowledged m bytes ∈ actions log → m ∈ dispatched log
  submitted : ∀ m ∈ dispatched log, m ∈ submitted log
  left : ∀ frames ∈ link.left, Follows log frames

variable {link : Link} {log w : List Emission} {frames : List InnerMessage} {m : InnerMessage}

theorem prefix_submitted (log w : List Emission) : submitted log <+: submitted (log ++ w) := by
  rw [submitted, submitted, taken_append, Connection.submitted, Connection.submitted,
    List.filterMap_append, List.zipIdx_append, List.map_append]
  exact List.prefix_append _ _

theorem prefix_actions (log w : List Emission) : actions log <+: actions (log ++ w) := by
  rw [actions, actions, taken_append]
  exact Connection.machine.outputs_prefix (List.prefix_append _ _)

theorem Settled.append (h : Settled log m) (w : List Emission) : Settled (log ++ w) m := by
  refine h.imp (fun h => ?_) fun h => (prefix_actions log w).subset h
  rw [dispatched_append]
  exact List.mem_append_left _ h

/-- What is submitted later comes behind. -/
theorem Follows.append (h : Follows log frames) (w : List Emission) : Follows (log ++ w) frames where
  submitted := List.Subset.trans h.submitted (prefix_submitted log w).subset
  behind pre m post hframes m' hm' hlt := by
    obtain ⟨later, hlater⟩ := prefix_submitted log w
    have hm : m ∈ Link.submitted log := h.submitted (hframes ▸ List.mem_append_right _ List.mem_cons_self)
    rw [← hlater] at hm'
    rcases List.mem_append.mp hm' with hm' | hm'
    · exact (h.behind pre m post hframes m' hm' hlt).imp_right fun h => h.append w
    · have hsorted := Connection.pairwise_submitted (taken (log ++ w))
      rw [show Connection.submitted (taken (log ++ w)) = Link.submitted log ++ later from hlater.symm]
        at hsorted
      exact absurd hlt ((List.pairwise_append.mp hsorted).2.2 m hm m' hm').not_gt

/-- **The frames on the way follow what was submitted before them.** -/
theorem Inv.follows_underway (h : Inv link log) :
    Follows log link.connection.stream.underway where
  submitted m hm := by
    have hinv := Connection.inv (taken log)
    rw [← h.connection] at hinv
    refine hinv.sent.subset (List.mem_append_left _ (List.mem_append_left _ ?_))
    exact List.mem_of_mem_drop hm
  behind pre m post hunderway m' hm' hlt := by
    have hinv := Connection.inv (taken log)
    rw [← h.connection] at hinv
    have hframes : link.connection.stream.frames
        = (link.connection.stream.arrived ++ pre) ++ m :: post := by
      rw [← link.connection.stream.arrived_append_underway, hunderway, List.append_assoc]
    rcases hinv.mem_of_frames hframes hm' hlt with hpre | hgone
    · exact (List.mem_append.mp hpre).symm.imp_right fun hmem => Or.inl (h.arrived m' hmem)
    · refine Or.inr ((Connection.mem_gone.mp hgone).imp_left fun ⟨bytes, hack⟩ => ?_)
      exact h.acknowledged m' bytes hack

/-- **What is dispatched is on a stream**, the first of what is underway on it. -/
theorem exists_follows_of_dispatched (h : Inv link log) {e : Event}
    (hm : .dispatched m ∈ (link.step e).2) : ∃ rest, Follows log (m :: rest) := by
  cases e with
  | connection event =>
    rw [step] at hm
    split at hm
    · rcases List.mem_cons.mp hm with hm | hm
      · cases hm
      · obtain ⟨m', hm', heq⟩ := List.mem_map.mp hm
        cases heq
        have harrival := Option.mem_toList.mp hm'
        cases event with
        | arrive =>
          obtain ⟨rest, hrest⟩ := List.head?_eq_some_iff.mp harrival
          exact ⟨rest, hrest ▸ h.follows_underway⟩
        | _ => cases harrival
    · cases hm
  | late n =>
    rw [step] at hm
    split at hm
    · next m' rest hleft =>
      cases List.mem_singleton.mp hm
      exact ⟨rest, h.left _ (List.mem_of_getElem? hleft)⟩
    · cases hm

/-! ## The steps keep it -/

/-- The first of the frames is dispatched. -/
theorem Follows.tail {rest : List InnerMessage} (h : Follows log (m :: rest)) :
    Follows (log ++ [.dispatched m]) rest where
  submitted := List.Subset.trans (List.subset_cons_self _ _) (h.append _).submitted
  behind pre x post hrest m' hm' hlt := by
    rcases (h.append [.dispatched m]).behind (m :: pre) x post (by rw [hrest]; rfl) m' hm' hlt
      with hpre | hsettled
    · rcases List.mem_cons.mp hpre with rfl | hpre
      · exact Or.inr (Or.inl (mem_dispatched.mpr (by simp)))
      · exact Or.inl hpre
    · exact Or.inr hsettled

/-- A step of the connection: on its stream nothing has arrived but by an arrival. -/
theorem arrived_move {c c' : Connection} {e : Network.Event} {acts : List Action}
    (h : Connection.Move c e c' acts) (hc : c.stream.received ≤ c.stream.frames.length) :
    c'.stream.received ≤ c'.stream.frames.length ∧
      ∀ m ∈ c'.stream.arrived, m ∈ c.stream.arrived ∨ m ∈ arrival c e := by
  cases h with
  | connect hp => exact ⟨le_rfl, fun m hm => (by cases hm)⟩
  | refuse hp => exact ⟨le_rfl, fun m hm => (by cases hm)⟩
  | timer hp => exact ⟨le_rfl, fun m hm => (by cases hm)⟩
  | lose e error p stream hp he => exact ⟨le_rfl, fun m hm => (by cases hm)⟩
  | send m ms p stream hp hb =>
    have hs : c.stream = stream := by rw [Connection.stream, hp]
    rw [hs] at hc ⊢
    refine ⟨?_, fun x hx => Or.inl (Stream.arrived_push hc m ▸ hx)⟩
    show stream.received ≤ (stream.frames ++ [m]).length
    rw [List.length_append]
    omega
  | acknowledge bytes m p stream hp =>
    have hs : c.stream = stream := by rw [Connection.stream, hp]
    rw [hs] at hc ⊢
    exact ⟨hc, fun x hx => Or.inl hx⟩
  | arrive p stream hp =>
    have hs : c.stream = stream := by rw [Connection.stream, hp]
    rw [arrival, hs]
    rw [hs] at hc
    refine ⟨min_le_right _ _, fun x hx => ?_⟩
    have hx : x ∈ stream.arrive.arrived := hx
    rw [Stream.arrived_arrive hc] at hx
    exact (List.mem_append.mp hx).imp_right fun hx => Option.mem_toList.mp hx
  | _ => exact ⟨hc, fun m hm => Or.inl hm⟩

/-- **The runner of a stream that was left receives a frame.** -/
theorem Inv.late (h : Inv link log) {n : ℕ} {rest : List InnerMessage}
    (hleft : link.left[n]? = some (m :: rest)) :
    Inv { link with left := link.left.set n rest } (log ++ [.dispatched m]) := by
  have hfollows := h.left _ (List.mem_of_getElem? hleft)
  have htaken : taken (log ++ [.dispatched m]) = taken log := by simp [taken]
  have hold : ∀ {x}, x ∈ dispatched log → x ∈ dispatched (log ++ [.dispatched m]) := fun hx =>
    mem_dispatched.mpr (List.mem_append_left _ (mem_dispatched.mp hx))
  refine
    { connection := htaken ▸ h.connection
      received := h.received
      arrived := fun x hx => hold (h.arrived x hx)
      acknowledged := fun x bytes hx => hold (h.acknowledged x bytes ?_)
      submitted := fun x hx => (prefix_submitted log _).subset ?_
      left := fun frames hframes => ?_ }
  · rwa [actions, htaken] at hx
  · rw [dispatched_append] at hx
    rcases List.mem_append.mp hx with hx | hx
    · exact h.submitted x hx
    · cases List.mem_singleton.mp hx
      exact hfollows.submitted List.mem_cons_self
  · rcases List.mem_or_eq_of_mem_set hframes with hframes | rfl
    · exact (h.left frames hframes).append _
    · exact hfollows.tail

/-- **A step of the connection**, with the frame that arrives. -/
theorem Inv.take (h : Inv link log) {event : Network.Event}
    (hpeer : link.connection.PeerAnswers event) :
    Inv ⟨(link.connection.step event).1,
        link.left ++ leaves link.connection (link.connection.step event).1⟩
      (log ++ .took event :: (arrival link.connection event).toList.map .dispatched) := by
  have hmove := Connection.move_step link.connection event
  have hinv := Connection.inv (taken log)
  rw [← h.connection] at hinv
  obtain ⟨hreceived, harrived⟩ := arrived_move hmove h.received
  have htaken : taken (log ++ .took event :: (arrival link.connection event).toList.map .dispatched)
      = taken log ++ [event] := by
    rw [taken_append]
    cases arrival link.connection event <;> rfl
  have hdispatched : dispatched
      (log ++ .took event :: (arrival link.connection event).toList.map .dispatched)
        = dispatched log ++ (arrival link.connection event).toList := by
    rw [dispatched_append]
    cases arrival link.connection event <;> rfl
  have hactions : actions (log ++ .took event :: (arrival link.connection event).toList.map
      .dispatched) = actions log ++ (link.connection.step event).2 := by
    rw [actions, htaken, Mealy.outputs_snoc, ← h.connection]
    rfl
  refine
    { connection := ?_
      received := hreceived
      arrived := fun x hx => ?_
      acknowledged := fun x bytes hx => ?_
      submitted := fun x hx => (prefix_submitted log _).subset ?_
      left := fun frames hframes => ?_ }
  · rw [htaken, Mealy.state_snoc, ← h.connection]
    rfl
  · rw [hdispatched]
    rcases harrived x hx with hx | hx
    · exact List.mem_append_left _ (h.arrived x hx)
    · exact List.mem_append_right _ (Option.mem_toList.mpr hx)
  · rw [hdispatched]
    rw [hactions] at hx
    rcases List.mem_append.mp hx with hx | hx
    · exact List.mem_append_left _ (h.acknowledged x bytes hx)
    · exact List.mem_append_left _ (h.arrived x (hmove.arrived hinv.matched hpeer hx))
  · rw [hdispatched] at hx
    rcases List.mem_append.mp hx with hx | hx
    · exact h.submitted x hx
    · cases event with
      | arrive => exact h.follows_underway.submitted (List.mem_of_mem_head? (Option.mem_toList.mp hx))
      | _ => cases hx
  · rcases List.mem_append.mp hframes with hframes | hframes
    · exact (h.left frames hframes).append _
    · rw [leaves] at hframes
      split at hframes
      · cases hframes
      · next p stream hp _ =>
        have hs : link.connection.stream = stream := by rw [Connection.stream, hp]
        rw [List.mem_singleton.mp hframes, ← hs]
        exact h.follows_underway.append _
      · cases hframes

/-- **One step of a link.** -/
theorem Inv.step (h : Inv link log) (e : Event) :
    Inv (link.step e).1 (log ++ (link.step e).2) := by
  have hidle : Inv link (log ++ []) := (List.append_nil log).symm ▸ h
  cases e with
  | connection event =>
    rw [Link.step]
    split
    · next hpeer => exact h.take hpeer
    · exact hidle
  | late n =>
    rw [Link.step]
    split
    · next hleft => exact h.late hleft
    · exact hidle

theorem inv (is : List Event) : Inv (machine.state is) (machine.outputs is) := by
  refine machine.invariant (P := fun _ link log => Inv link log) ?_ (fun _ e h => h.step e) is
  exact
    { connection := rfl
      received := le_rfl
      arrived := fun m hm => (by cases hm)
      acknowledged := fun m bytes hm => (by cases hm)
      submitted := fun m hm => (by cases hm)
      left := fun frames hframes => (by cases hframes) }

/-! ## What is submitted, and who is notified -/

/-- A step submits the data of its event. -/
theorem data_submitted_snoc (is : List Event) (e : Event) :
    (submitted (machine.outputs (is ++ [e]))).map InnerMessage.data
      = (submitted (machine.outputs is)).map InnerMessage.data ++ e.data?.toList := by
  rw [Mealy.outputs_snoc, submitted, submitted, Connection.data_submitted,
    Connection.data_submitted, taken_append, List.filterMap_append]
  congr 1
  show (taken ((machine.state is).step e).2).filterMap Network.Event.data? = _
  cases e with
  | connection event =>
    rw [step]
    split
    · have htaken : taken (.took event :: (arrival (machine.state is).connection event).toList.map
          .dispatched) = [event] := by
        cases arrival (machine.state is).connection event <;> rfl
      rw [htaken, Event.data?]
      cases hdata : event.data? <;> simp [hdata]
    · next hpeer =>
      cases event with
      | response bytes => rfl
      | _ => exact absurd trivial hpeer
  | late n =>
    rw [step]
    split
    · rfl
    · rfl

/-- **Who is notified, its message was dispatched.** -/
theorem exists_of_mem_notifies {is : List Event} {e : Event} {n : ℕ}
    (hn : n ∈ (machine.state is).notifies e) :
    ∃ m ∈ dispatched (machine.outputs is), m.cancelHandler = n := by
  have h := inv is
  cases e with
  | connection event =>
    rw [notifies] at hn
    split at hn
    · next hpeer =>
      obtain ⟨act, hact, heq⟩ := List.mem_filterMap.mp hn
      cases act with
      | acknowledged m bytes =>
        have hinv := Connection.inv (taken (machine.outputs is))
        rw [← h.connection] at hinv
        refine ⟨m, h.arrived m ?_, Option.some.inj heq⟩
        exact (Connection.move_step _ event).arrived hinv.matched hpeer hact
      | dropped m => cases heq
      | failed error => cases heq
    · cases hn
  | late n => cases hn

/-- A link over which these data were submitted, in order, and these messages dispatched. -/
def Carries (link : Link) (data : List (List UInt8)) (messages : List InnerMessage) : Prop :=
  ∃ is, link = machine.state is ∧
    (submitted (machine.outputs is)).map InnerMessage.data = data ∧
    dispatched (machine.outputs is) = messages

section

variable {data : List (List UInt8)} {messages : List InnerMessage}

theorem carries_new : Carries ⟨.new, []⟩ [] [] := ⟨[], rfl, rfl, rfl⟩

theorem Carries.step (h : Carries link data messages) (e : Event) :
    Carries (link.step e).1 (data ++ e.data?.toList) (messages ++ dispatched (link.step e).2) := by
  obtain ⟨is, rfl, rfl, rfl⟩ := h
  refine ⟨is ++ [e], (machine.state_snoc is e).symm, data_submitted_snoc is e, ?_⟩
  rw [Mealy.outputs_snoc, dispatched_append]
  rfl

theorem Carries.submit (h : Carries link data messages) (bytes : List UInt8) :
    Carries (link.step (.connection (.submit bytes))).1 (data ++ [bytes]) messages := by
  have hstep := h.step (.connection (.submit bytes))
  rwa [show dispatched (link.step (.connection (.submit bytes))).2 = [] from rfl,
    List.append_nil] at hstep

theorem Carries.cancel (h : Carries link data messages) (handler : ℕ) :
    Carries (link.step (.connection (.cancel handler))).1 data messages := by
  have hstep := h.step (.connection (.cancel handler))
  rwa [show dispatched (link.step (.connection (.cancel handler))).2 = [] from rfl,
    List.append_nil, show Event.data? (.connection (.cancel handler)) = none from rfl,
    Option.toList_none, List.append_nil] at hstep

theorem Carries.getElem?_handler (h : Carries link data messages) (hm : m ∈ messages) :
    data[m.cancelHandler]? = some m.data := by
  obtain ⟨is, rfl, rfl, rfl⟩ := h
  rw [List.getElem?_map, submitted, Connection.getElem?_submitted ((inv is).submitted m hm)]
  rfl

theorem Carries.exists_of_notifies (h : Carries link data messages) {e : Event} {n : ℕ}
    (hn : n ∈ link.notifies e) : ∃ m ∈ messages, m.cancelHandler = n := by
  obtain ⟨is, rfl, rfl, rfl⟩ := h
  exact exists_of_mem_notifies hn

theorem Carries.created (h : Carries link data messages) :
    link.connection.created = data.length := by
  obtain ⟨is, rfl, rfl, rfl⟩ := h
  rw [(inv is).connection, (Connection.inv _).created, List.length_map]
  rfl

/-- **A message whose handler is not closed** is still to be sent, or was dispatched. -/
theorem Carries.queue_or_dispatched (h : Carries link data messages) {n : ℕ} {bytes : List UInt8}
    (hn : data[n]? = some bytes) (hopen : n ∉ link.connection.closed) :
    ⟨bytes, n⟩ ∈ link.connection.queue ∨ ⟨bytes, n⟩ ∈ messages := by
  obtain ⟨is, rfl, rfl, rfl⟩ := h
  have hmem : ⟨bytes, n⟩ ∈ submitted (machine.outputs is) := by
    rw [submitted, Connection.data_submitted] at hn
    exact List.mem_map.mpr ⟨(bytes, n), List.mem_zipIdx_iff_getElem?.mpr hn, rfl⟩
  rw [(inv is).connection] at hopen ⊢
  by_cases hgone : ⟨bytes, n⟩ ∈ Connection.gone (actions (machine.outputs is))
  · rcases Connection.mem_gone.mp hgone with ⟨ack, hack⟩ | hdropped
    · exact Or.inr ((inv is).acknowledged _ ack hack)
    · exact absurd (Connection.closed_of_dropped _ hdropped) hopen
  · rw [(Connection.inv _).queue]
    exact Or.inl (List.mem_filter.mpr ⟨hmem, decide_eq_true hgone⟩)

end

/-- **A link delivers**, whatever happens to the connection and its streams: what is dispatched was
submitted; what is acknowledged was dispatched; a message is dispatched only once each one submitted
before it was, or was cancelled; and a message that was not cancelled was dispatched, or is still to
be sent. -/
theorem delivers (is : List Event) :
    (∀ m ∈ dispatched (machine.outputs is), m ∈ submitted (machine.outputs is)) ∧
    (∀ m bytes, .acknowledged m bytes ∈ actions (machine.outputs is) →
      m ∈ dispatched (machine.outputs is)) ∧
    (∀ e m, .dispatched m ∈ (machine.step (machine.state is) e).2 →
      ∀ m' ∈ submitted (machine.outputs is), m'.cancelHandler < m.cancelHandler →
        m' ∈ dispatched (machine.outputs is) ∨
          .cancel m'.cancelHandler ∈ taken (machine.outputs is)) ∧
    ∀ m ∈ submitted (machine.outputs is), .cancel m.cancelHandler ∉ taken (machine.outputs is) →
      m ∈ (machine.state is).connection.queue ∨ m ∈ dispatched (machine.outputs is) := by
  have h := inv is
  have hinv := Connection.inv (taken (machine.outputs is))
  refine ⟨h.submitted, h.acknowledged, fun e m hm m' hm' hlt => ?_, fun m hm hcancel => ?_⟩
  · obtain ⟨rest, hfollows⟩ := exists_follows_of_dispatched h hm
    rcases hfollows.behind [] m rest rfl m' hm' hlt with hpre | hsettled
    · cases hpre
    · exact hsettled.imp_right fun hdropped => hinv.dropped m' hdropped
  · rw [h.connection]
    by_cases hgone : m ∈ Connection.gone (actions (machine.outputs is))
    · rcases Connection.mem_gone.mp hgone with ⟨bytes, hack⟩ | hdropped
      · exact Or.inr (h.acknowledged m bytes hack)
      · exact absurd (hinv.dropped m hdropped) hcancel
    · rw [hinv.queue]
      exact Or.inl (List.mem_filter.mpr ⟨hm, decide_eq_true hgone⟩)

/-- The connection is lost before the ACK of a message that is underway; the old runner receives it
after the new one received it and the next one. -/
example : (dispatched (machine.outputs ([.submit [0], .submit [1], .connect true, .receive,
    .write true, .response none, .connect true, .write true, .arrive, .receive, .write true,
      .arrive].map .connection ++ [.late 0]))).map InnerMessage.data = [[0], [1], [0]] := by
  decide

end Link

end Network

end Bullshark
