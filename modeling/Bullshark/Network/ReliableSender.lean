import Bullshark.Machinery.Mealy
import Mathlib.Data.Finset.Insert
import Mathlib.Data.List.Nodup

/-!
# Network/ReliableSender — one connection that re-transmits until it is acknowledged

The `Connection` of `reliable_sender.rs`.  A message goes from the channel to the buffer, from there
on the wire and to `pending_replies`, and leaves with an ACK; an error anywhere puts it back.  The
three queues one after the other always hold, in the order of submission, what was submitted and is
neither acknowledged nor dropped after it was cancelled.  ACKs are matched by position; with a peer
that answers frame by frame, the right handler is notified (`reliable`).

The events are what happens to the task from outside: calls, cancellations, and the outcome of what
it waits for.  A write takes one step; what is submitted or cancelled meanwhile comes after it.
-/

namespace Bullshark

namespace Network

/-- Simple message used by `ReliableSender` to communicate with its connections. -/
structure InnerMessage where
  /-- The data to transmit. -/
  data : List UInt8
  /-- The cancel handler: the number of the channel that `ReliableSender::send` opened for it. -/
  cancelHandler : ℕ
  deriving DecidableEq

inductive NetworkError
  | failedToConnect (retry : ℕ)
  | failedToSendMessage
  | failedToReceiveAck
  | unexpectedAck
  deriving DecidableEq

/-- A TCP stream, seen from outside: the frames written on it in order, how many of them the peer
has received, and how many replies were read. -/
structure Stream where
  frames : List InnerMessage
  received : ℕ
  replies : ℕ

namespace Stream

def new : Stream := ⟨[], 0, 0⟩

def push (stream : Stream) (message : InnerMessage) : Stream :=
  { stream with frames := stream.frames ++ [message] }

def reply (stream : Stream) : Stream := { stream with replies := stream.replies + 1 }

/-- The peer receives the next frame, if there is one. -/
def arrive (stream : Stream) : Stream :=
  { stream with received := min (stream.received + 1) stream.frames.length }

/-- The frames that the peer received. -/
def arrived (stream : Stream) : List InnerMessage := stream.frames.take stream.received

end Stream

/-- Where the task is. -/
inductive Phase
  /-- In `TcpStream::connect`. -/
  | connecting
  /-- Waiting before it attempts to reconnect. -/
  | waiting
  /-- In `keep_alive`, with the messages transmitted that were not acknowledged yet. -/
  | connected (pendingReplies : List InnerMessage) (stream : Stream)

/-- A connection is responsible to reliably establish (and keep alive) a connection with a single
peer. -/
structure Connection where
  /-- Channel from which the connection receives its commands. -/
  receiver : List InnerMessage
  /-- Buffer keeping all messages that need to be re-transmitted. -/
  buffer : List InnerMessage
  delay : ℕ
  retry : ℕ
  phase : Phase
  /-- The handlers whose receiver was dropped. -/
  closed : Finset ℕ
  /-- The number of handlers created. -/
  created : ℕ

/-- What happens to a connection. -/
inductive Event
  /-- `ReliableSender::send`. -/
  | submit (data : List UInt8)
  /-- The caller drops a cancel handler. -/
  | cancel (handler : ℕ)
  /-- `TcpStream::connect` returns. -/
  | connect (ok : Bool)
  /-- The timer of the `'waiter` loop. -/
  | timer
  /-- The channel yields a message. -/
  | receive
  /-- A turn of the loop over the buffer, with the outcome of the write if there is one. -/
  | write (ok : Bool)
  /-- `reader.next()` yields a frame, an error or the end of the stream. -/
  | response (bytes : Option (List UInt8))
  /-- The peer receives the next frame. -/
  | arrive

/-- What a connection does. -/
inductive Action
  /-- The handler is notified. -/
  | acknowledged (message : InnerMessage) (bytes : List UInt8)
  /-- A message that was cancelled is dropped. -/
  | dropped (message : InnerMessage)
  | failed (error : NetworkError)
  deriving DecidableEq

/-- The data that an event submits. -/
def Event.data? : Event → Option (List UInt8)
  | .submit data => some data
  | _ => none

/-- The message that an action settles. -/
def Action.message? : Action → Option InnerMessage
  | .acknowledged message _ => some message
  | .dropped message => some message
  | .failed _ => none

namespace Connection

/-- The initial delay to wait before re-attempting a connection (in ms). -/
def retryDelay : ℕ := 200

/-- `Connection::spawn`. -/
def new : Connection where
  receiver := []
  buffer := []
  delay := retryDelay
  retry := 0
  phase := .connecting
  closed := ∅
  created := 0

/-- `pending_replies`; there is none outside of `keep_alive`. -/
def pendingReplies (c : Connection) : List InnerMessage :=
  match c.phase with
  | .connected pendingReplies _ => pendingReplies
  | _ => []

/-- The stream that the connection is on. -/
def stream (c : Connection) : Stream :=
  match c.phase with
  | .connected _ stream => stream
  | _ => .new

/-- `oneshot::Sender::is_closed`. -/
def isClosed (c : Connection) (m : InnerMessage) : Bool := decide (m.cancelHandler ∈ c.closed)

/-- `while let Some(message) = pending_replies.pop_back() { buffer.push_front(message) }`. -/
def putBack (pendingReplies buffer : List InnerMessage) : List InnerMessage :=
  pendingReplies.reverse.foldl (fun buffer message => message :: buffer) buffer

/-- The end of `keep_alive`. -/
def lose (c : Connection) (pendingReplies : List InnerMessage) (error : NetworkError) :
    Connection × List Action :=
  ({ c with buffer := putBack pendingReplies c.buffer, phase := .connecting }, [.failed error])

/-- A message from the channel. -/
def receive (c : Connection) : Connection × List Action :=
  match c.receiver, c.phase with
  | message :: receiver, .waiting =>
    -- Drain the channel into the buffer, and clean it up.
    let buffer := c.buffer ++ [message]
    ({ c with receiver := receiver, buffer := buffer.filter fun m => !c.isClosed m },
      (buffer.filter c.isClosed).map .dropped)
  | message :: receiver, .connected _ _ =>
    -- The task listens once it has tried to send all messages of the buffer.
    match c.buffer with
    | [] => ({ c with receiver := receiver, buffer := [message] }, [])
    | _ :: _ => (c, [])
  | _, _ => (c, [])

/-- A turn of the loop over the buffer. -/
def write (c : Connection) (ok : Bool) : Connection × List Action :=
  match c.phase, c.buffer with
  | .connected pendingReplies stream, message :: buffer =>
    -- Skip messages that have been cancelled.
    if c.isClosed message then ({ c with buffer := buffer }, [.dropped message])
    else if ok then
      ({ c with
          buffer := buffer
          phase := .connected (pendingReplies ++ [message]) (stream.push message) }, [])
    else { c with buffer := message :: buffer }.lose pendingReplies .failedToSendMessage
  | _, _ => (c, [])

/-- A response from the peer. -/
def response (c : Connection) (bytes : Option (List UInt8)) : Connection × List Action :=
  match c.phase, c.buffer with
  | .connected [] _, [] => c.lose [] .unexpectedAck
  | .connected (message :: pendingReplies) stream, [] =>
    match bytes with
    | some bytes =>
      ({ c with phase := .connected pendingReplies stream.reply }, [.acknowledged message bytes])
    | none => c.lose (message :: pendingReplies) .failedToReceiveAck
  | _, _ => (c, [])

/-- `Connection::run` and `Connection::keep_alive`, with the caller and the peer around them. -/
def step (c : Connection) : Event → Connection × List Action
  | .submit data =>
    ({ c with receiver := c.receiver ++ [⟨data, c.created⟩], created := c.created + 1 }, [])
  | .cancel handler =>
    if handler < c.created then ({ c with closed := insert handler c.closed }, []) else (c, [])
  | .connect ok =>
    match c.phase with
    | .connecting =>
      if ok then ({ c with delay := retryDelay, retry := 0, phase := .connected [] .new }, [])
      else ({ c with phase := .waiting }, [.failed (.failedToConnect c.retry)])
    | _ => (c, [])
  | .timer =>
    match c.phase with
    | .waiting =>
      ({ c with delay := min (2 * c.delay) 60000, retry := c.retry + 1, phase := .connecting }, [])
    | _ => (c, [])
  | .receive => c.receive
  | .write ok => c.write ok
  | .response bytes => c.response bytes
  | .arrive =>
    match c.phase with
    | .connected pendingReplies stream =>
      ({ c with phase := .connected pendingReplies stream.arrive }, [])
    | _ => (c, [])

def machine : Mealy Connection Event Action := ⟨new, step⟩

/-! ## The three queues -/

/-- `pending_replies`, the buffer and the channel, one after the other. -/
def queue (c : Connection) : List InnerMessage := c.pendingReplies ++ c.buffer ++ c.receiver

/-- The messages that left the queues, acknowledged or dropped. -/
def gone (actions : List Action) : List InnerMessage := actions.filterMap Action.message?

@[simp] theorem gone_nil : gone [] = [] := rfl

@[simp] theorem gone_acknowledged (m : InnerMessage) (bytes : List UInt8) :
    gone [.acknowledged m bytes] = [m] := rfl

@[simp] theorem gone_dropped (m : InnerMessage) : gone [.dropped m] = [m] := rfl

@[simp] theorem gone_failed (e : NetworkError) : gone [.failed e] = [] := rfl

@[simp] theorem gone_append (as bs : List Action) : gone (as ++ bs) = gone as ++ gone bs :=
  List.filterMap_append

@[simp] theorem gone_map_dropped (ms : List InnerMessage) : gone (ms.map .dropped) = ms := by
  rw [gone, List.filterMap_map]
  exact List.filterMap_some

theorem mem_gone {m : InnerMessage} {actions : List Action} :
    m ∈ gone actions ↔ (∃ bytes, .acknowledged m bytes ∈ actions) ∨ .dropped m ∈ actions := by
  constructor
  · intro h
    obtain ⟨a, ha, hm⟩ := List.mem_filterMap.mp h
    cases a with
    | acknowledged m' bytes => exact Or.inl ⟨bytes, Option.some.inj hm ▸ ha⟩
    | dropped m' => exact Or.inr (Option.some.inj hm ▸ ha)
    | failed e => exact absurd hm (Option.some_ne_none m).symm
  · rintro (⟨bytes, h⟩ | h)
    · exact List.mem_filterMap.mpr ⟨_, h, rfl⟩
    · exact List.mem_filterMap.mpr ⟨_, h, rfl⟩

/-- **Putting back keeps the order**: what was transmitted comes before what was not. -/
@[simp] theorem putBack_eq (pendingReplies buffer : List InnerMessage) :
    putBack pendingReplies buffer = pendingReplies ++ buffer := by
  rw [putBack, List.foldl_reverse, List.foldr_cons_eq_append, List.map_id']

/-- The message that an event puts into the channel. -/
def pushed (c : Connection) : Event → List InnerMessage
  | .submit data => [⟨data, c.created⟩]
  | _ => []

/-- What is taken out of a part of a list without duplicates is taken out of the list. -/
theorem filter_notMem_filter {l₁ l₂ l₃ : List InnerMessage} (p : InnerMessage → Bool)
    (h : (l₁ ++ l₂ ++ l₃).Nodup) :
    (l₁ ++ l₂ ++ l₃).filter (· ∉ l₂.filter p) = l₁ ++ l₂.filter (fun m => !p m) ++ l₃ := by
  obtain ⟨h12, -, h3⟩ := List.nodup_append'.mp h
  obtain ⟨-, -, h1⟩ := List.nodup_append'.mp h12
  rw [List.filter_append, List.filter_append]
  congr 1
  · congr 1
    · refine List.filter_eq_self.mpr fun m hm => decide_eq_true fun hmem => ?_
      exact h1 hm (List.mem_of_mem_filter hmem)
    · refine List.filter_congr fun m hm => ?_
      simp [hm]
  · refine List.filter_eq_self.mpr fun m hm => decide_eq_true fun hmem => ?_
    exact h3 (List.mem_append_right _ (List.mem_of_mem_filter hmem)) hm

theorem filter_ne_append_cons {l₁ l₂ : List InnerMessage} {m : InnerMessage}
    (h : (l₁ ++ m :: l₂).Nodup) : (l₁ ++ m :: l₂).filter (· ∉ [m]) = l₁ ++ l₂ := by
  have h' : (l₁ ++ [m] ++ l₂).Nodup := by rwa [List.append_assoc]
  simpa using filter_notMem_filter (fun _ => true) h'

/-! ## What a step does -/

/-- The branches of `step`. -/
inductive Move (c : Connection) : Event → Connection → List Action → Prop
  | idle (e : Event) (he : c.pushed e = []) : Move c e c []
  | submit (data : List UInt8) : Move c (.submit data)
      { c with receiver := c.receiver ++ [⟨data, c.created⟩], created := c.created + 1 } []
  | cancel (handler : ℕ) : Move c (.cancel handler) { c with closed := insert handler c.closed } []
  | connect (hp : c.phase = .connecting) : Move c (.connect true)
      { c with delay := retryDelay, retry := 0, phase := .connected [] .new } []
  | refuse (hp : c.phase = .connecting) : Move c (.connect false)
      { c with phase := .waiting } [.failed (.failedToConnect c.retry)]
  | timer (hp : c.phase = .waiting) : Move c .timer
      { c with delay := min (2 * c.delay) 60000, retry := c.retry + 1, phase := .connecting } []
  | drain (m : InnerMessage) (ms : List InnerMessage) (hp : c.phase = .waiting)
      (hr : c.receiver = m :: ms) : Move c .receive
      { c with receiver := ms, buffer := (c.buffer ++ [m]).filter fun m => !c.isClosed m }
      (((c.buffer ++ [m]).filter c.isClosed).map .dropped)
  | receive (m : InnerMessage) (ms : List InnerMessage) (hr : c.receiver = m :: ms)
      (hb : c.buffer = []) : Move c .receive { c with receiver := ms, buffer := [m] } []
  | skip (ok : Bool) (m : InnerMessage) (ms : List InnerMessage) (hb : c.buffer = m :: ms)
      (hc : c.isClosed m) : Move c (.write ok) { c with buffer := ms } [.dropped m]
  | send (m : InnerMessage) (ms p : List InnerMessage) (stream : Stream)
      (hp : c.phase = .connected p stream) (hb : c.buffer = m :: ms) : Move c (.write true)
      { c with buffer := ms, phase := .connected (p ++ [m]) (stream.push m) } []
  | acknowledge (bytes : List UInt8) (m : InnerMessage) (p : List InnerMessage) (stream : Stream)
      (hp : c.phase = .connected (m :: p) stream) : Move c (.response (some bytes))
      { c with phase := .connected p stream.reply } [.acknowledged m bytes]
  | lose (e : Event) (error : NetworkError) (p : List InnerMessage) (stream : Stream)
      (hp : c.phase = .connected p stream) (he : c.pushed e = []) : Move c e
      { c with buffer := p ++ c.buffer, phase := .connecting } [.failed error]
  | arrive (p : List InnerMessage) (stream : Stream) (hp : c.phase = .connected p stream) :
      Move c .arrive { c with phase := .connected p stream.arrive } []

theorem lose_eq (c : Connection) (p : List InnerMessage) (error : NetworkError) :
    c.lose p error
      = ({ c with buffer := p ++ c.buffer, phase := .connecting }, [.failed error]) := by
  rw [lose, putBack_eq]

theorem move_receive (c : Connection) : Move c .receive c.receive.1 c.receive.2 := by
  rw [receive]
  split
  case h_1 m ms hr hp => exact .drain m ms hp hr
  case h_2 m ms p stream hr hp =>
    split
    case h_1 hb => exact .receive m ms hr hb
    case h_2 => exact .idle _ rfl
  case h_3 => exact .idle _ rfl

theorem move_write (c : Connection) (ok : Bool) :
    Move c (.write ok) (c.write ok).1 (c.write ok).2 := by
  rw [write]
  split
  case h_2 => exact .idle _ rfl
  case h_1 p stream m ms hp hb =>
    split
    case isTrue hc => exact .skip ok m ms hb hc
    case isFalse =>
      cases ok with
      | true => exact .send m ms p stream hp hb
      | false =>
        rw [if_neg Bool.false_ne_true, lose_eq, ← hb]
        exact .lose _ _ p stream hp rfl

theorem move_response (c : Connection) (bytes : Option (List UInt8)) :
    Move c (.response bytes) (c.response bytes).1 (c.response bytes).2 := by
  rw [response]
  split
  case h_1 stream hp hb =>
    rw [lose_eq]
    exact .lose _ _ [] stream hp rfl
  case h_2 m p stream hp hb =>
    cases bytes with
    | some bytes => exact .acknowledge bytes m p stream hp
    | none =>
      rw [lose_eq]
      exact .lose _ _ (m :: p) stream hp rfl
  case h_3 => exact .idle _ rfl

theorem move_step (c : Connection) (e : Event) : Move c e (c.step e).1 (c.step e).2 := by
  cases e with
  | submit data => exact .submit data
  | cancel handler =>
    rw [step]
    split
    case isTrue => exact .cancel handler
    case isFalse => exact .idle _ rfl
  | connect ok =>
    rw [step]
    split
    case h_1 hp =>
      cases ok with
      | true => exact .connect hp
      | false => exact .refuse hp
    case h_2 => exact .idle _ rfl
  | timer =>
    rw [step]
    split
    case h_1 hp => exact .timer hp
    case h_2 => exact .idle _ rfl
  | receive => exact c.move_receive
  | write ok => exact c.move_write ok
  | response bytes => exact c.move_response bytes
  | arrive =>
    rw [step]
    split
    case h_1 p stream hp => exact .arrive p stream hp
    case h_2 => exact .idle _ rfl

variable {c c' : Connection} {e : Event} {acts : List Action}

/-- **A step keeps what it does not settle**: the queues after it hold what they held and what it
put into the channel, in order, less the messages acknowledged or dropped. -/
theorem Move.queue (h : Move c e c' acts) (hnd : (c.queue ++ c.pushed e).Nodup) :
    c'.queue = (c.queue ++ c.pushed e).filter (· ∉ gone acts) := by
  cases h with
  | idle e he => simp [he]
  | submit data => simp [Connection.queue, pendingReplies, pushed]
  | cancel handler => simp [Connection.queue, pendingReplies, pushed]
  | connect hp => simp [Connection.queue, pendingReplies, pushed, hp]
  | refuse hp => simp [Connection.queue, pendingReplies, pushed, hp]
  | timer hp => simp [Connection.queue, pendingReplies, pushed, hp]
  | drain m ms hp hr =>
    have hq : ([] ++ (c.buffer ++ [m]) ++ ms).Nodup := by
      simpa [Connection.queue, pendingReplies, pushed, hp, hr] using hnd
    simpa [Connection.queue, pendingReplies, pushed, hp, hr] using
      (filter_notMem_filter c.isClosed hq).symm
  | receive m ms hr hb => simp [Connection.queue, pendingReplies, pushed, hr, hb]
  | skip ok m ms hb hc =>
    have hq : (c.pendingReplies ++ m :: (ms ++ c.receiver)).Nodup := by
      simpa [Connection.queue, pushed, hb] using hnd
    simpa [Connection.queue, pendingReplies, pushed, hb] using (filter_ne_append_cons hq).symm
  | send m ms p stream hp hb => simp [Connection.queue, pendingReplies, pushed, hp, hb]
  | acknowledge bytes m p stream hp =>
    have hq : ([] ++ m :: (p ++ c.buffer ++ c.receiver)).Nodup := by
      simpa [Connection.queue, pendingReplies, pushed, hp] using hnd
    simpa [Connection.queue, pendingReplies, pushed, hp] using (filter_ne_append_cons hq).symm
  | lose e error p stream hp he => simp [Connection.queue, pendingReplies, he, hp]
  | arrive p stream hp => simp [Connection.queue, pendingReplies, pushed, hp]

theorem Move.subset_of_gone (h : Move c e c' acts) : gone acts ⊆ c.queue := by
  intro m hm
  cases h with
  | drain m' ms hp hr =>
    rw [gone_map_dropped] at hm
    have := List.mem_of_mem_filter hm
    simp only [Connection.queue, hr, List.mem_append, List.mem_cons] at this ⊢
    tauto
  | skip ok m' ms hb hc =>
    rw [gone_dropped, List.mem_singleton] at hm
    simp [Connection.queue, hb, hm]
  | acknowledge bytes m' p stream hp =>
    rw [gone_acknowledged, List.mem_singleton] at hm
    simp [Connection.queue, pendingReplies, hp, hm]
  | _ => exact absurd hm List.not_mem_nil

theorem Move.closed_of_dropped (h : Move c e c' acts) {m : InnerMessage}
    (hm : .dropped m ∈ acts) : m.cancelHandler ∈ c.closed := by
  cases h with
  | drain m' ms hp hr =>
    obtain ⟨m'', hm'', heq⟩ := List.mem_map.mp hm
    obtain rfl : m'' = m := Action.dropped.inj heq
    have hclosed : c.isClosed m'' = true := List.of_mem_filter hm''
    exact of_decide_eq_true hclosed
  | skip ok m' ms hb hc =>
    obtain rfl : m = m' := by simpa using hm
    exact of_decide_eq_true hc
  | _ => simp at hm

theorem Move.closed (h : Move c e c' acts) {handler : ℕ} (hc : handler ∈ c'.closed) :
    handler ∈ c.closed ∨ e = .cancel handler := by
  cases h with
  | cancel handler' =>
    rcases Finset.mem_insert.mp hc with rfl | hc
    · exact Or.inr rfl
    · exact Or.inl hc
  | _ => exact Or.inl hc

theorem Move.created (h : Move c e c' acts) : c'.created = c.created + (c.pushed e).length := by
  cases h with
  | idle e he => simp [he]
  | lose e error p stream hp he => simp [he]
  | _ => rfl

/-! ## The stream -/

/-- The frames of the stream that were not answered are those in `pending_replies`. -/
def Matched (c : Connection) : Prop :=
  ∃ answered, c.stream.frames = answered ++ c.pendingReplies ∧
    answered.length = c.stream.replies

/-- What was written on the stream, and what is still to be written. -/
def sent (c : Connection) : List InnerMessage := c.stream.frames ++ c.buffer ++ c.receiver

theorem Move.matched (h : Move c e c' acts) (hc : c.Matched) : c'.Matched := by
  obtain ⟨answered, hframes, hlen⟩ := hc
  cases h with
  | connect hp => exact ⟨[], rfl, rfl⟩
  | refuse hp => exact ⟨[], rfl, rfl⟩
  | timer hp => exact ⟨[], rfl, rfl⟩
  | lose e error p stream hp he => exact ⟨[], rfl, rfl⟩
  | send m ms p stream hp hb =>
    refine ⟨answered, ?_, ?_⟩
    · have : stream.frames = answered ++ p := by
        simpa [Connection.stream, pendingReplies, hp] using hframes
      simp [Connection.stream, pendingReplies, Stream.push, this]
    · simpa [Connection.stream, Stream.push, hp] using hlen
  | acknowledge bytes m p stream hp =>
    refine ⟨answered ++ [m], ?_, ?_⟩
    · simpa [Connection.stream, pendingReplies, Stream.reply, hp] using hframes
    · simpa [Connection.stream, Stream.reply, hp] using hlen
  | arrive p stream hp =>
    refine ⟨answered, ?_, ?_⟩
    · simpa [Connection.stream, pendingReplies, Stream.arrive, hp] using hframes
    · simpa [Connection.stream, Stream.arrive, hp] using hlen
  | _ => exact ⟨answered, hframes, hlen⟩

theorem Move.sent (h : Move c e c' acts) (hc : c.Matched) :
    c'.sent.Sublist (c.sent ++ c.pushed e) := by
  cases h with
  | connect hp => simp [Connection.sent, Connection.stream, Stream.new, pushed, hp]
  | drain m ms hp hr =>
    have hkept : ((c.buffer ++ [m]).filter fun m => !c.isClosed m).Sublist (c.buffer ++ [m]) :=
      List.filter_sublist
    have := hkept.append_right ms
    simpa [Connection.sent, Connection.stream, pushed, hp, hr, Stream.new] using this
  | receive m ms hr hb => simp [Connection.sent, Connection.stream, pushed, hr, hb]
  | skip ok m ms hb hc =>
    simp [Connection.sent, Connection.stream, pushed, hb]
  | send m ms p stream hp hb =>
    simp [Connection.sent, Connection.stream, Stream.push, pushed, hp, hb]
  | lose e error p stream hp he =>
    obtain ⟨answered, hframes, -⟩ := hc
    have : stream.frames = answered ++ p := by
      simpa [Connection.stream, pendingReplies, hp] using hframes
    simp [Connection.sent, Connection.stream, Stream.new, hp, he, this]
  | idle e he => simp [he]
  | submit data => simp [Connection.sent, Connection.stream, pushed]
  | cancel handler => simp [Connection.sent, Connection.stream, pushed]
  | refuse hp => simp [Connection.sent, Connection.stream, pushed, hp]
  | timer hp => simp [Connection.sent, Connection.stream, pushed, hp]
  | acknowledge bytes m p stream hp =>
    simp [Connection.sent, Connection.stream, Stream.reply, pushed, hp]
  | arrive p stream hp => simp [Connection.sent, Connection.stream, Stream.arrive, pushed, hp]

/-! ## Runs -/

/-- The messages submitted, each with the handler that `send` opened for it. -/
def submitted (is : List Event) : List InnerMessage :=
  (is.filterMap Event.data?).zipIdx.map fun x => ⟨x.1, x.2⟩

theorem submitted_snoc {is : List Event} {c : Connection} (e : Event)
    (hc : c.created = (submitted is).length) :
    submitted (is ++ [e]) = submitted is ++ c.pushed e := by
  have hlen : (is.filterMap Event.data?).length = c.created := by rw [hc]; simp [submitted]
  rw [submitted, List.filterMap_append, List.zipIdx_append, List.map_append]
  cases e <;> simp [submitted, Event.data?, pushed, hlen]

/-- No two submissions have the same handler. -/
theorem submitted_nodup (is : List Event) : (submitted is).Nodup := by
  refine List.Nodup.of_map InnerMessage.cancelHandler ?_
  have : (submitted is).map InnerMessage.cancelHandler
      = (is.filterMap Event.data?).zipIdx.map Prod.snd := by
    rw [submitted, List.map_map]
    rfl
  rw [this, List.zipIdx_map_snd]
  exact List.nodup_range'

/-- What holds of every run. -/
structure Inv (is : List Event) (c : Connection) (outs : List Action) : Prop where
  queue : c.queue = (submitted is).filter (· ∉ gone outs)
  created : c.created = (submitted is).length
  gone : gone outs ⊆ submitted is
  closed : ∀ handler ∈ c.closed, .cancel handler ∈ is
  dropped : ∀ m, .dropped m ∈ outs → .cancel m.cancelHandler ∈ is
  matched : c.Matched
  sent : c.sent.Sublist (submitted is)

theorem Inv.nodup {is : List Event} {c : Connection} {outs : List Action} (h : Inv is c outs)
    (e : Event) : (c.queue ++ c.pushed e).Nodup := by
  have hsub : (c.queue ++ c.pushed e).Sublist (submitted (is ++ [e])) := by
    rw [submitted_snoc e h.created, h.queue]
    exact List.filter_sublist.append_right _
  exact (submitted_nodup _).sublist hsub

/-- What is submitted next was not settled before. -/
theorem Inv.pushed {is : List Event} {c : Connection} {outs : List Action} (h : Inv is c outs)
    (e : Event) : (c.pushed e).filter (· ∉ Connection.gone outs) = c.pushed e := by
  have hnd := submitted_nodup (is ++ [e])
  rw [submitted_snoc e h.created] at hnd
  refine List.filter_eq_self.mpr fun m hm => decide_eq_true fun hgone => ?_
  exact (List.nodup_append'.mp hnd).2.2 (h.gone hgone) hm

theorem Inv.step {is : List Event} {c : Connection} {outs : List Action} (h : Inv is c outs)
    (hm : Move c e c' acts) : Inv (is ++ [e]) c' (outs ++ acts) where
  queue := by
    have hq : c.queue ++ c.pushed e
        = (submitted (is ++ [e])).filter (· ∉ Connection.gone outs) := by
      rw [submitted_snoc e h.created, List.filter_append, h.pushed e, h.queue]
    rw [hm.queue (h.nodup e), hq, List.filter_filter]
    refine List.filter_congr fun m _ => ?_
    rw [gone_append, ← Bool.decide_and, decide_eq_decide, List.mem_append, not_or, and_comm]
  created := by rw [hm.created, submitted_snoc e h.created, List.length_append, h.created]
  gone := by
    rw [submitted_snoc e h.created, gone_append]
    intro m hgone
    rcases List.mem_append.mp hgone with hgone | hgone
    · exact List.mem_append_left _ (h.gone hgone)
    · have hmem : m ∈ c.queue := hm.subset_of_gone hgone
      rw [h.queue] at hmem
      exact List.mem_append_left _ (List.mem_of_mem_filter hmem)
  closed := by
    intro handler hc
    rcases hm.closed hc with hc | rfl
    · exact List.mem_append_left _ (h.closed handler hc)
    · exact List.mem_append_right _ List.mem_cons_self
  dropped := by
    intro m hd
    rcases List.mem_append.mp hd with hd | hd
    · exact List.mem_append_left _ (h.dropped m hd)
    · exact List.mem_append_left _ (h.closed _ (hm.closed_of_dropped hd))
  matched := hm.matched h.matched
  sent := by
    rw [submitted_snoc e h.created]
    exact (hm.sent h.matched).trans (h.sent.append_right _)

theorem inv (is : List Event) : Inv is (machine.state is) (machine.outputs is) := by
  refine machine.invariant ?_ (fun is e h => h.step (move_step _ e)) is
  exact
    { queue := rfl
      created := rfl
      gone := List.nil_subset _
      closed := fun handler hc => absurd hc (Finset.notMem_empty handler)
      dropped := fun m hd => absurd hd List.not_mem_nil
      matched := ⟨[], rfl, rfl⟩
      sent := List.Sublist.refl _ }

/-! ## A peer that answers -/

/-- The peer answers each frame that it received with one reply, in order: there is a reply to read
only if fewer were read than frames arrived. -/
def PeerAnswers (c : Connection) : Event → Prop
  | .response (some _) => c.stream.replies < c.stream.received
  | _ => True

instance (c : Connection) (e : Event) : Decidable (c.PeerAnswers e) :=
  match e with
  | .response (some _) => inferInstanceAs (Decidable (_ < _))
  | .response none => .isTrue trivial
  | .submit _ | .cancel _ | .connect _ | .timer | .receive | .write _ | .arrive => .isTrue trivial

/-- **A reply resolves the frame that it answers**: the message was received on that stream. -/
theorem Move.arrived (h : Move c e c' acts) (hc : c.Matched) (hpeer : c.PeerAnswers e)
    {m : InnerMessage} {bytes : List UInt8} (ha : .acknowledged m bytes ∈ acts) :
    m ∈ c.stream.arrived := by
  cases h with
  | acknowledge bytes' m' p stream hp =>
    obtain ⟨answered, hframes, hlen⟩ := hc
    obtain rfl : m = m' := by simpa using (Action.acknowledged.inj (List.mem_singleton.mp ha)).1
    have hframes' : c.stream.frames = answered ++ m :: p := by
      simpa [pendingReplies, hp] using hframes
    have hlt : answered.length < c.stream.received := hlen ▸ hpeer
    rw [Stream.arrived, hframes', List.take_append]
    refine List.mem_append_right _ ?_
    rw [List.take_cons (Nat.sub_pos_of_lt hlt)]
    exact List.mem_cons_self
  | _ => simp at ha

/-- **Nothing is lost, duplicated or reordered**, whatever happens to a connection: its queues hold
what was submitted and is neither acknowledged nor dropped; what is dropped was cancelled; what is
written on a stream, and what is still to be written, is in order.  With a peer that answers, a
handler is notified only once the peer has received its message on that stream. -/
theorem reliable :
    (∀ is, (machine.state is).queue = (submitted is).filter (· ∉ gone (machine.outputs is))) ∧
    (∀ is, (machine.state is).queue.Nodup) ∧
    (∀ is e m, .dropped m ∈ (machine.step (machine.state is) e).2 →
      m.cancelHandler ∈ (machine.state is).closed) ∧
    (∀ is, ∀ m ∈ submitted is, .cancel m.cancelHandler ∉ is →
      m ∈ (machine.state is).queue ∨ ∃ bytes, .acknowledged m bytes ∈ machine.outputs is) ∧
    (∀ is, (machine.state is).sent.Sublist (submitted is)) ∧
    ∀ is e, machine.Along PeerAnswers (is ++ [e]) → ∀ m bytes,
      .acknowledged m bytes ∈ (machine.step (machine.state is) e).2 →
        m ∈ (machine.state is).stream.arrived := by
  refine ⟨fun is => (inv is).queue, fun is => ?_,
    fun is e m hm => (move_step _ e).closed_of_dropped hm, fun is m hm hcancel => ?_,
    fun is => (inv is).sent, fun is e hpeer m bytes ha => ?_⟩
  · exact (inv is).queue ▸ (submitted_nodup is).filter _
  · by_cases hgone : m ∈ gone (machine.outputs is)
    · rcases mem_gone.mp hgone with hack | hdrop
      · exact Or.inr hack
      · exact absurd ((inv is).dropped m hdrop) hcancel
    · rw [(inv is).queue]
      exact Or.inl (List.mem_filter.mpr ⟨hm, decide_eq_true hgone⟩)
  · exact (move_step _ e).arrived (inv is).matched hpeer.last ha

namespace Flaky

/-- Three messages, the second one cancelled; the write of the third fails. -/
def before : List Event :=
  [.submit [0], .submit [1], .submit [2], .connect false, .receive, .receive, .cancel 1, .timer,
    .connect true, .write true, .write true, .receive, .write false, .connect true, .write true,
    .write true, .arrive]

def reply : Event := .response (some [65])

/-- The first message is resolved once it arrived on the second stream; the third one is kept. -/
theorem reliable_before : (machine.state (before ++ [reply])).queue = [⟨[2], 2⟩] ∧
    ⟨[0], 0⟩ ∈ (machine.state before).stream.arrived := by
  constructor
  · rw [reliable.1 (before ++ [reply])]
    decide
  · exact reliable.2.2.2.2.2 before reply (by decide) ⟨[0], 0⟩ [65] (by decide)

end Flaky

end Connection

end Network

end Bullshark
