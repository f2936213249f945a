import Bullshark.Network.Link
import Bullshark.Primary.Frames
import Bullshark.Primary.Sample
import Bullshark.Primary.Traffic

/-!
# Primary/CancelHandlers — what the core sends, until its round is collected

The core sends through its `ReliableSender`, which has a connection for each address, and keeps the
cancel handlers under the round of the message.  The clean-up at the end of a turn drops those of
the rounds collected; dropping a handler cancels its message.

So a message is cancelled if and only if its round is collected, and until then it is retried or was
delivered; nothing else is delivered (`sent_until_collected`).
-/

namespace Bullshark

open Network (Link InnerMessage)

namespace Core

/-- Where to an emission is sent, under which round, and as what. -/
def Emission.outgoing : Emission → List (SocketAddr × ℕ × PrimaryMessage)
  | .send address vote => [(address, vote.round, .vote vote)]
  | .broadcastHeader addresses header =>
    addresses.map fun address => (address, header.round, .header header)
  | .assembled addresses certificate =>
    addresses.map fun address => (address, certificate.round, .certificate certificate)
  | _ => []

/-- The events that are turns of the main loop; the others are those of the tasks around it. -/
def Event.isTurn : Event → Bool
  | .batch _ _ => false
  | .committed _ => false
  | _ => true

/-- The core, its connections, and the cancel handlers that it keeps. -/
structure Sender where
  core : Except Panic State
  links : SocketAddr → Link
  /-- Keeps the cancel handlers of the messages we sent: of each, the address and the number. -/
  cancelHandlers : HashMap ℕ (List (SocketAddr × ℕ))

namespace Sender

inductive Event
  | core (event : Core.Event)
  /-- Something happens on the link to an address. -/
  | link (address : SocketAddr) (event : Link.Event)

inductive Output
  | core (emission : Emission)
  /-- `MessageHandler::dispatch`, at the other end. -/
  | delivered (address : SocketAddr) (message : InnerMessage)

def new : Sender := ⟨.ok .new, fun _ => ⟨.new, []⟩, ∅⟩

/-- `self.cancel_handlers.entry(round)`. -/
def handlersAt (s : Sender) (round : ℕ) : List (SocketAddr × ℕ) :=
  (s.cancelHandlers.lookup round).getD []

/-- Cancel handlers are dropped. -/
def dropHandlers (links : SocketAddr → Link) (handlers : List (SocketAddr × ℕ)) :
    SocketAddr → Link :=
  handlers.foldl (fun links h =>
    Function.update links h.1 ((links h.1).step (.connection (.cancel h.2))).1) links

/-- Submitting and cancelling are for the core to do. -/
def isCore : Link.Event → Bool
  | .connection (.submit _) => true
  | .connection (.cancel _) => true
  | _ => false

/-- The handlers of these rounds are dropped. -/
def forget (s : Sender) (rounds : ℕ → Bool) : Sender :=
  { s with
    links := dropHandlers s.links
      ((s.cancelHandlers.entries.filter fun e => rounds e.1).flatMap fun e => e.2)
    cancelHandlers := s.cancelHandlers.retain fun k v => if rounds k then none else some v }

/-- `self.cancel_handlers.retain(|k, _| k >= &gc_round)`; a core that panicked drops them all. -/
def cleanUp (gcDepth : ℕ) (s : Sender) : Sender :=
  match s.core with
  | .error _ => s.forget fun _ => true
  | .ok state =>
    if state.consensusRound > gcDepth then
      s.forget fun round => decide (round < state.consensusRound - gcDepth)
    else s

section

variable [Base64]

/-- `ReliableSender::send`; the handler is kept. -/
def send (s : Sender) (x : SocketAddr × ℕ × PrimaryMessage) : Sender :=
  { s with
    links := Function.update s.links x.1
      ((s.links x.1).step (.connection (.submit x.2.2.serialize))).1
    cancelHandlers := s.cancelHandlers.insert x.2.1
      (s.handlersAt x.2.1 ++ [(x.1, (s.links x.1).connection.created)]) }

variable [Crypto] (core : Core)

/-- One event.  In a turn the core sends as it goes; the clean-up comes last. -/
def step (s : Sender) : Event → Sender × List Output
  | .core e =>
    let turn := core.machine.step s.core e
    let sent := (turn.2.flatMap Emission.outgoing).foldl send { s with core := turn.1 }
    (if e.isTurn then sent.cleanUp core.gcDepth else sent, turn.2.map .core)
  | .link address e =>
    if isCore e then (s, [])
    else
      let turn := (s.links address).step e
      ({ s with links := Function.update s.links address turn.1 },
        (Link.dispatched turn.2).map (.delivered address))

def machine : Mealy Sender Event Output := ⟨new, step core⟩

end

/-! ## What was sent and delivered -/

/-- What of this goes to an address, each with its round. -/
def toAddress (address : SocketAddr) (xs : List (SocketAddr × ℕ × PrimaryMessage)) :
    List (ℕ × PrimaryMessage) :=
  xs.filterMap fun x => if x.1 = address then some x.2 else none

def Output.outgoing : Output → List (SocketAddr × ℕ × PrimaryMessage)
  | .core emission => emission.outgoing
  | .delivered _ _ => []

/-- What was sent to an address, in order. -/
def sentTo (address : SocketAddr) (outs : List Output) : List (ℕ × PrimaryMessage) :=
  toAddress address (outs.flatMap Output.outgoing)

/-- What was delivered there. -/
def deliveredTo (address : SocketAddr) (outs : List Output) : List InnerMessage :=
  outs.filterMap fun
    | .core _ => none
    | .delivered address' message => if address' = address then some message else none

theorem toAddress_append (address : SocketAddr) (xs ys : List (SocketAddr × ℕ × PrimaryMessage)) :
    toAddress address (xs ++ ys) = toAddress address xs ++ toAddress address ys :=
  List.filterMap_append

theorem toAddress_singleton (address : SocketAddr) (x : SocketAddr × ℕ × PrimaryMessage) :
    toAddress address [x] = if x.1 = address then [x.2] else [] := by
  rw [toAddress, List.filterMap_cons]
  split
  · next h => rw [if_neg fun heq => by simp [heq] at h]; rfl
  · next h => rw [Option.ite_none_right_eq_some] at h; rw [if_pos h.1, Option.some.inj h.2]; rfl

theorem sentTo_append (address : SocketAddr) (outs w : List Output) :
    sentTo address (outs ++ w) = sentTo address outs ++ sentTo address w := by
  rw [sentTo, List.flatMap_append, toAddress_append]
  rfl

theorem deliveredTo_append (address : SocketAddr) (outs w : List Output) :
    deliveredTo address (outs ++ w) = deliveredTo address outs ++ deliveredTo address w :=
  List.filterMap_append

theorem sentTo_map_core (address : SocketAddr) (w : List Emission) :
    sentTo address (w.map .core) = toAddress address (w.flatMap Emission.outgoing) := by
  rw [sentTo, List.flatMap_map]
  rfl

theorem deliveredTo_map_core (address : SocketAddr) (w : List Emission) :
    deliveredTo address (w.map .core) = [] := by
  rw [deliveredTo, List.filterMap_map]
  exact List.filterMap_eq_nil_iff.mpr fun _ _ => rfl

theorem sentTo_map_delivered (address address' : SocketAddr) (ms : List InnerMessage) :
    sentTo address (ms.map (.delivered address')) = [] := by
  have hnil : (ms.map (Output.delivered address')).flatMap Output.outgoing = [] := by
    rw [List.flatMap_map]
    exact List.flatMap_eq_nil_iff.mpr fun _ _ => rfl
  rw [sentTo, hnil]
  rfl

theorem deliveredTo_map_delivered (address address' : SocketAddr) (ms : List InnerMessage) :
    deliveredTo address (ms.map (.delivered address')) = if address' = address then ms else [] := by
  rw [deliveredTo, List.filterMap_map]
  split
  · next h => exact (List.filterMap_congr fun m _ => if_pos h).trans List.filterMap_some
  · next h => exact List.filterMap_eq_nil_iff.mpr fun m _ => if_neg h

/-! ## The handlers that are kept -/

variable {s : Sender} {sent : SocketAddr → List (ℕ × PrimaryMessage)}
  {messages : SocketAddr → List InnerMessage} {links : SocketAddr → Link} {a : SocketAddr}
  {r n : ℕ}

theorem mem_handlersAt {h : SocketAddr × ℕ} :
    h ∈ s.handlersAt r ↔ ∃ l, ⟨r, l⟩ ∈ s.cancelHandlers.entries ∧ h ∈ l := by
  rw [handlersAt]
  cases hl : s.cancelHandlers.lookup r with
  | none =>
    refine ⟨fun h => (by cases h), fun ⟨l, hl', _⟩ => ?_⟩
    exact absurd (AList.mem_lookup_iff.mpr hl') (by rw [hl]; exact Option.not_mem_none _)
  | some l =>
    refine ⟨fun h => ⟨l, AList.mem_lookup_iff.mp hl, h⟩, fun ⟨l', hl', hh⟩ => ?_⟩
    have heq : some l = some l' := hl.symm.trans (AList.mem_lookup_iff.mpr hl')
    exact Option.some.inj heq ▸ hh

/-- A message whose handler is dropped is cancelled. -/
theorem closed_cancel {c : Network.Connection} (h : n < c.created) :
    (c.step (.cancel n)).1.closed = insert n c.closed := by
  rw [Network.Connection.step, if_pos h]

variable [Base64]

/-- The frames of these messages. -/
def frames (xs : List (ℕ × PrimaryMessage)) : List (List UInt8) :=
  xs.map fun x => x.2.serialize

/-- Each link carries what was sent, and the handlers kept are those of the messages that are not
cancelled, under their rounds. -/
structure Kept (s : Sender) (sent : SocketAddr → List (ℕ × PrimaryMessage))
    (messages : SocketAddr → List InnerMessage) : Prop where
  carries : ∀ a, (s.links a).Carries (frames (sent a)) (messages a)
  closed : ∀ a, ∀ n ∈ (s.links a).connection.closed, n < (sent a).length
  handlers : ∀ a r n, (a, n) ∈ s.handlersAt r ↔
    (∃ m, (sent a)[n]? = some (r, m)) ∧ n ∉ (s.links a).connection.closed

/-- **Handlers are dropped**, and these messages cancelled. -/
theorem carries_dropHandlers (handlers : List (SocketAddr × ℕ)) :
    ∀ links : SocketAddr → Link, (∀ a, (links a).Carries (frames (sent a)) (messages a)) →
      (∀ h ∈ handlers, h.2 < (sent h.1).length) → ∀ a,
        (dropHandlers links handlers a).Carries (frames (sent a)) (messages a) ∧
        ∀ n, n ∈ (dropHandlers links handlers a).connection.closed ↔
          n ∈ (links a).connection.closed ∨ (a, n) ∈ handlers := by
  induction handlers with
  | nil => exact fun links hcarries _ a => ⟨hcarries a, fun n => by simp [dropHandlers]⟩
  | cons h handlers ih =>
    intro links hcarries hlt a
    obtain ⟨hhead, hrest⟩ := List.forall_mem_cons.mp hlt
    have hclosed : ((links h.1).step (.connection (.cancel h.2))).1.connection.closed
        = insert h.2 (links h.1).connection.closed := by
      refine closed_cancel ?_
      rw [(hcarries h.1).created, frames, List.length_map]
      exact hhead
    have hnext : ∀ b, (Function.update links h.1
        ((links h.1).step (.connection (.cancel h.2))).1 b).Carries (frames (sent b)) (messages b) := by
      intro b
      rcases eq_or_ne b h.1 with rfl | hne
      · rw [Function.update_self]
        exact (hcarries h.1).cancel h.2
      · rw [Function.update_of_ne hne]
        exact hcarries b
    obtain ⟨hlast, hiff⟩ := ih _ hnext hrest a
    refine ⟨hlast, fun n => (hiff n).trans ?_⟩
    rw [List.mem_cons, ← or_assoc]
    refine or_congr_left ?_
    rcases eq_or_ne a h.1 with rfl | hne
    · rw [Function.update_self, hclosed, Finset.mem_insert, or_comm, Prod.ext_iff]
      simp
    · rw [Function.update_of_ne hne, Prod.ext_iff]
      simp [hne]

/-- **The handlers of some rounds are dropped**: the messages of these rounds are cancelled, and no
others. -/
theorem Kept.forget (h : Kept s sent messages) (rounds : ℕ → Bool) :
    Kept (s.forget rounds) sent messages ∧
    (∀ a n, n ∈ ((s.forget rounds).links a).connection.closed ↔
      n ∈ (s.links a).connection.closed ∨ ∃ r, rounds r ∧ (a, n) ∈ s.handlersAt r) ∧
    ∀ r, (s.forget rounds).handlersAt r = if rounds r then [] else s.handlersAt r := by
  have hdropped : ∀ x : SocketAddr × ℕ,
      x ∈ ((s.cancelHandlers.entries.filter fun e => rounds e.1).flatMap fun e => e.2) ↔
        ∃ r, rounds r ∧ x ∈ s.handlersAt r := by
    intro x
    constructor
    · intro hx
      obtain ⟨⟨r, l⟩, he, hl⟩ := List.mem_flatMap.mp hx
      obtain ⟨hmem, hr⟩ := List.mem_filter.mp he
      exact ⟨r, hr, mem_handlersAt.mpr ⟨l, hmem, hl⟩⟩
    · rintro ⟨r, hr, hx⟩
      obtain ⟨l, hmem, hl⟩ := mem_handlersAt.mp hx
      exact List.mem_flatMap.mpr ⟨⟨r, l⟩, List.mem_filter.mpr ⟨hmem, hr⟩, hl⟩
  have hlt : ∀ x ∈ ((s.cancelHandlers.entries.filter fun e => rounds e.1).flatMap fun e => e.2),
      x.2 < (sent x.1).length := by
    intro x hx
    obtain ⟨r, -, hx⟩ := (hdropped x).mp hx
    obtain ⟨m, hm⟩ := ((h.handlers x.1 r x.2).mp hx).1
    exact (List.getElem?_eq_some_iff.mp hm).1
  have hlinks := carries_dropHandlers _ s.links h.carries hlt
  have hclosed : ∀ a n, n ∈ ((s.forget rounds).links a).connection.closed ↔
      n ∈ (s.links a).connection.closed ∨ ∃ r, rounds r ∧ (a, n) ∈ s.handlersAt r := fun a n =>
    ((hlinks a).2 n).trans (or_congr_right (hdropped (a, n)))
  have hkept : ∀ r, (s.forget rounds).handlersAt r = if rounds r then [] else s.handlersAt r := by
    intro r
    rw [handlersAt, Sender.forget, AList.lookup_retain]
    cases hr : rounds r with
    | true => cases s.cancelHandlers.lookup r <;> rfl
    | false =>
      rw [if_neg Bool.false_ne_true, handlersAt]
      cases s.cancelHandlers.lookup r <;> rfl
  refine ⟨⟨fun a => (hlinks a).1, fun a n hn => ?_, fun a r n => ?_⟩, hclosed, hkept⟩
  · rcases (hclosed a n).mp hn with hn | ⟨r, -, hn⟩
    · exact h.closed a n hn
    · obtain ⟨m, hm⟩ := ((h.handlers a r n).mp hn).1
      exact (List.getElem?_eq_some_iff.mp hm).1
  · -- a message has one round, so its handler is dropped with that round only
    have hround : ∀ r' m m', (sent a)[n]? = some (r, m) → (sent a)[n]? = some (r', m') → r = r' := by
      intro r' m m' hm hm'
      exact congrArg Prod.fst (Option.some.inj (hm.symm.trans hm'))
    rw [hkept, hclosed]
    split
    · next hr =>
      refine ⟨fun hmem => (by cases hmem), fun ⟨⟨m, hm⟩, hopen⟩ => ?_⟩
      obtain ⟨hopen, hnone⟩ := not_or.mp hopen
      exact absurd ⟨r, hr, (h.handlers a r n).mpr ⟨⟨m, hm⟩, hopen⟩⟩ hnone
    · next hr =>
      rw [h.handlers]
      refine and_congr_right fun ⟨m, hm⟩ => not_congr ⟨Or.inl, fun hn => ?_⟩
      rcases hn with hn | ⟨r', hr', hn⟩
      · exact hn
      · obtain ⟨m', hm'⟩ := ((h.handlers a r' n).mp hn).1
        exact absurd (hround r' m m' hm hm' ▸ hr') hr

/-- **A message is sent.** -/
theorem Kept.send (h : Kept s sent messages) (x : SocketAddr × ℕ × PrimaryMessage) :
    Kept (s.send x) (fun a => sent a ++ toAddress a [x]) messages ∧
      ∀ a, ((s.send x).links a).connection.closed = (s.links a).connection.closed := by
  have hclosed : ∀ a, ((s.send x).links a).connection.closed = (s.links a).connection.closed := by
    intro a
    rw [Sender.send]
    dsimp only
    rcases eq_or_ne a x.1 with rfl | hne
    · rw [Function.update_self]
      rfl
    · rw [Function.update_of_ne hne]
  have hcreated : (s.links x.1).connection.created = (sent x.1).length := by
    rw [(h.carries x.1).created, frames, List.length_map]
  have hother : ∀ {a}, a ≠ x.1 → toAddress a [x] = [] := fun hne => by
    rw [toAddress_singleton, if_neg hne.symm]
  have hself : toAddress x.1 [x] = [x.2] := by rw [toAddress_singleton, if_pos rfl]
  refine ⟨⟨fun a => ?_, fun a n hn => ?_, fun a r n => ?_⟩, hclosed⟩
  · rw [Sender.send]
    dsimp only
    rcases eq_or_ne a x.1 with rfl | hne
    · rw [Function.update_self, hself, frames, List.map_append]
      exact (h.carries x.1).submit _
    · rw [Function.update_of_ne hne, hother hne, List.append_nil]
      exact h.carries a
  · rw [hclosed] at hn
    rw [List.length_append]
    exact Nat.lt_add_right _ (h.closed a n hn)
  · have hhandlers : (s.send x).handlersAt r = if r = x.2.1
        then s.handlersAt r ++ [(x.1, (sent x.1).length)] else s.handlersAt r := by
      rw [handlersAt, Sender.send, AList.lookup_insert_eq]
      split
      · next heq => rw [heq, hcreated]; rfl
      · rfl
    have hfresh : (sent x.1).length ∉ (s.links x.1).connection.closed := fun hn =>
      absurd (h.closed _ _ hn) (lt_irrefl _)
    rw [hhandlers, hclosed]
    rcases eq_or_ne a x.1 with rfl | hne
    · have hold : (x.1, n) ∈ s.handlersAt r → n < (sent x.1).length := fun hmem => by
        obtain ⟨m, hm⟩ := ((h.handlers _ _ _).mp hmem).1
        exact (List.getElem?_eq_some_iff.mp hm).1
      rw [hself]
      rcases lt_trichotomy n (sent x.1).length with hlt | rfl | hgt
      · rw [List.getElem?_append_left hlt, ← h.handlers]
        split
        · simp [hlt.ne]
        · rfl
      · rw [List.getElem?_concat_length]
        split
        · next heq =>
          exact iff_of_true (List.mem_append_right _ List.mem_cons_self)
            ⟨⟨x.2.2, by rw [heq]⟩, hfresh⟩
        · next hr =>
          refine iff_of_false (fun hmem => lt_irrefl _ (hold hmem)) fun ⟨⟨m, hm⟩, _⟩ => hr ?_
          exact (congrArg Prod.fst (Option.some.inj hm)).symm
      · rw [List.getElem?_eq_none (by rw [List.length_append, List.length_singleton]; omega)]
        refine iff_of_false (fun hmem => ?_) fun ⟨⟨m, hm⟩, _⟩ => (by cases hm)
        split at hmem
        · rcases List.mem_append.mp hmem with hmem | hmem
          · exact absurd (hold hmem) hgt.le.not_gt
          · exact hgt.ne' (congrArg Prod.snd (List.mem_singleton.mp hmem))
        · exact absurd (hold hmem) hgt.le.not_gt
    · rw [hother hne, List.append_nil, ← h.handlers]
      split
      · simp [hne]
      · rfl

/-- The core sends as it goes. -/
theorem Kept.sendAll (xs : List (SocketAddr × ℕ × PrimaryMessage)) :
    ∀ {s : Sender} {sent : SocketAddr → List (ℕ × PrimaryMessage)}, Kept s sent messages →
      Kept (xs.foldl Sender.send s) (fun a => sent a ++ toAddress a xs) messages ∧
      (xs.foldl Sender.send s).core = s.core ∧
      ∀ a, ((xs.foldl Sender.send s).links a).connection.closed
        = (s.links a).connection.closed := by
  induction xs with
  | nil => exact fun h => ⟨by simpa [toAddress] using h, rfl, fun _ => rfl⟩
  | cons x xs ih =>
    intro s sent h
    obtain ⟨hsent, hclosed⟩ := h.send x
    obtain ⟨hkept, hcore, hclosed'⟩ := ih hsent
    refine ⟨?_, hcore, fun a => (hclosed' a).trans (hclosed a)⟩
    simp only [List.append_assoc, ← toAddress_append, List.singleton_append] at hkept
    exact hkept

/-- **Something happens on a link** that is not for the core to do. -/
theorem Kept.link (h : Kept s sent messages) (a : SocketAddr) {e : Link.Event}
    (he : isCore e = false) :
    Kept { s with links := Function.update s.links a ((s.links a).step e).1 } sent
      (Function.update messages a (messages a ++ Link.dispatched ((s.links a).step e).2)) ∧
    ∀ b, (Function.update s.links a ((s.links a).step e).1 b).connection.closed
      = (s.links b).connection.closed := by
  have hdata : e.data? = none := by
    cases e with
    | connection event =>
      cases event with
      | submit data => cases he
      | _ => rfl
    | late n => rfl
  have hsame : ((s.links a).step e).1.connection.closed = (s.links a).connection.closed := by
    cases e with
    | connection event =>
      rw [Link.step]
      split
      · refine (Network.Connection.move_step _ event).closed_eq ?_
        rintro handler rfl
        cases he
      · rfl
    | late n =>
      rw [Link.step]
      split
      · rfl
      · rfl
  have hclosed : ∀ b, (Function.update s.links a ((s.links a).step e).1 b).connection.closed
      = (s.links b).connection.closed := by
    intro b
    rcases eq_or_ne b a with rfl | hne
    · rw [Function.update_self, hsame]
    · rw [Function.update_of_ne hne]
  refine ⟨⟨fun b => ?_, fun b n hn => ?_, fun b r n => ?_⟩, hclosed⟩
  · dsimp only
    rcases eq_or_ne b a with rfl | hne
    · rw [Function.update_self, Function.update_self]
      have hstep := (h.carries b).step e
      rwa [hdata, Option.toList_none, List.append_nil] at hstep
    · rw [Function.update_of_ne hne, Function.update_of_ne hne]
      exact h.carries b
  · rw [hclosed] at hn
    exact h.closed b n hn
  · rw [hclosed]
    exact h.handlers b r n

/-! ## The core's rounds -/

section

variable [Crypto] {core : Core} {state state' : State}

omit [Base64] in
/-- What a turn leaves of the two rounds. -/
theorem sameRounds_handle {e : Core.Event} (he : e.isTurn) :
    ((core.handle e).run state).state.gcRound = state.gcRound ∧
      ((core.handle e).run state).state.consensusRound = state.consensusRound := by
  have hturn : core.Turn state [] e ((core.handle e).run state).emitted
      ((core.handle e).run state).state :=
    turn_handle (fun d w heq => by subst heq; cases he) fun c heq => by subst heq; cases he
  generalize ((core.handle e).run state).state = s at hturn ⊢
  generalize ((core.handle e).run state).emitted = w at hturn
  cases hturn with
  | effects hown h =>
    obtain ⟨-, hgc, hconsensus⟩ := sameRounds_of_trace h
    exact ⟨hgc, hconsensus⟩
  | propose h =>
    obtain ⟨-, hgc, hconsensus⟩ := sameRounds_of_trace h
    exact ⟨hgc, hconsensus⟩
  | batch d w => cases he
  | committed c => cases he

omit [Base64] in
/-- **The horizon only moves on**, at the end of a turn, to where the consensus round tells. -/
theorem rounds_step {e : Core.Event} (hstate : state.Horizon core.gcDepth)
    (h : (core.step state e).1 = .ok state') :
    state'.Horizon core.gcDepth ∧
      if e.isTurn then state.gcRound ≤ state'.gcRound ∧
        state'.gcRound = state'.consensusRound - core.gcDepth
      else state'.gcRound = state.gcRound ∧ (core.step state e).2 = [] := by
  have hturn : e.isTurn → core.step state e = core.conclude ((core.handle e).run state) →
      state'.Horizon core.gcDepth ∧ state.gcRound ≤ state'.gcRound ∧
        state'.gcRound = state'.consensusRound - core.gcDepth := by
    intro he hstep
    rw [hstep] at h
    obtain rfl := conclude_fst h
    obtain ⟨hgc, hconsensus⟩ : ((core.handle e).run state).state.gcRound = state.gcRound ∧
        ((core.handle e).run state).state.consensusRound = state.consensusRound :=
      sameRounds_handle he
    have hhorizon : ((core.handle e).run state).state.Horizon core.gcDepth := by
      rw [State.Horizon, hgc, hconsensus]
      exact hstate
    obtain ⟨hnext, hle⟩ := hhorizon.cleanUp
    refine ⟨hnext, hgc ▸ hle, le_antisymm hnext ?_⟩
    rw [State.cleanUp]
    split
    · exact le_rfl
    · next hdepth => exact (Nat.sub_eq_zero_of_le (not_lt.mp hdepth)).le.trans (Nat.zero_le _)
  cases e with
  | batch d w =>
    cases h
    exact ⟨hstate, rfl, rfl⟩
  | committed c =>
    cases h
    exact ⟨hstate.trans (Nat.sub_le_sub_right (le_max_left _ _) _), rfl, rfl⟩
  | _ => exact hturn rfl rfl

/-! ## Whole runs -/

/-- What holds of every run; that of the handlers and the horizon, while the core is alive. -/
structure Inv (core : Core) (s : Sender) (outs : List Output) : Prop where
  kept : Kept s (fun a => sentTo a outs) fun a => deliveredTo a outs
  horizon : ∀ state, s.core = .ok state → state.Horizon core.gcDepth
  closed : ∀ state, s.core = .ok state → ∀ a, ∀ n ∈ (s.links a).connection.closed,
    ∃ r m, (sentTo a outs)[n]? = some (r, m) ∧ r < state.gcRound
  collected : ∀ state, s.core = .ok state → ∀ r < state.gcRound, s.handlersAt r = []

omit [Crypto] in
/-- **The clean-up cancels what is collected.** -/
theorem Inv.cleanUp {outs : List Output}
    (hkept : Kept s (fun a => sentTo a outs) fun a => deliveredTo a outs)
    (halive : ∀ state, s.core = .ok state → state.Horizon core.gcDepth ∧
      state.gcRound = state.consensusRound - core.gcDepth ∧
      ∀ a, ∀ n ∈ (s.links a).connection.closed,
        ∃ r m, (sentTo a outs)[n]? = some (r, m) ∧ r < state.gcRound) :
    Inv core (s.cleanUp core.gcDepth) outs := by
  rw [Sender.cleanUp]
  split
  · next p hp =>
    refine ⟨(hkept.forget _).1, ?_, ?_, ?_⟩ <;>
    · intro state hstate
      exact absurd (hp.symm.trans hstate) (by simp)
  · next state hs =>
    obtain ⟨hhorizon, hgc, hclosed⟩ := halive state hs
    have hsame : ∀ {state'}, s.core = .ok state' → state' = state := fun hs' =>
      (Except.ok.inj (hs.symm.trans hs')).symm
    split
    · obtain ⟨hkept', hclosed', hhandlers⟩ :=
        hkept.forget fun round => decide (round < state.consensusRound - core.gcDepth)
      refine ⟨hkept', fun state' hs' => hsame hs' ▸ hhorizon, fun state' hs' a n hn => ?_,
        fun state' hs' r hr => ?_⟩
      · obtain rfl := hsame hs'
        rcases (hclosed' a n).mp hn with hn | ⟨r, hr, hmem⟩
        · exact hclosed a n hn
        · obtain ⟨m, hm⟩ := ((hkept.handlers a r n).mp hmem).1
          exact ⟨r, m, hm, hgc ▸ of_decide_eq_true hr⟩
      · obtain rfl := hsame hs'
        rw [hhandlers, if_pos (decide_eq_true (hgc ▸ hr))]
    · next hdepth =>
      refine ⟨hkept, fun state' hs' => hsame hs' ▸ hhorizon,
        fun state' hs' a n hn => hsame hs' ▸ hclosed a n hn, fun state' hs' r hr => ?_⟩
      obtain rfl := hsame hs'
      omega

/-- **A turn of the core.** -/
theorem Inv.coreTurn {outs : List Output} (h : Inv core s outs) (e : Core.Event) :
    Inv core (Sender.step core s (.core e)).1 (outs ++ (Sender.step core s (.core e)).2) := by
  rw [Sender.step]
  dsimp only
  obtain ⟨hkept, hcore, hclosed⟩ := Kept.sendAll
    (s := { s with core := (core.machine.step s.core e).1 })
    ((core.machine.step s.core e).2.flatMap Emission.outgoing)
    ⟨h.kept.carries, h.kept.closed, h.kept.handlers⟩
  have hkept' : Kept (((core.machine.step s.core e).2.flatMap Emission.outgoing).foldl Sender.send
      { s with core := (core.machine.step s.core e).1 })
      (fun a => sentTo a (outs ++ (core.machine.step s.core e).2.map .core))
      fun a => deliveredTo a (outs ++ (core.machine.step s.core e).2.map .core) := by
    simpa only [sentTo_append, sentTo_map_core, deliveredTo_append, deliveredTo_map_core,
      List.append_nil] using hkept
  have hrounds : ∀ state', (core.machine.step s.core e).1 = .ok state' →
      ∃ state, s.core = .ok state ∧ state'.Horizon core.gcDepth ∧
        if e.isTurn then state.gcRound ≤ state'.gcRound ∧
          state'.gcRound = state'.consensusRound - core.gcDepth
        else state'.gcRound = state.gcRound ∧ (core.machine.step s.core e).2 = [] := by
    intro state' hstate'
    cases hs : s.core with
    | error p =>
      rw [hs] at hstate'
      cases hstate'
    | ok state =>
      rw [hs] at hstate'
      exact ⟨state, rfl, rounds_step (h.horizon state hs) hstate'⟩
  split
  · next he =>
    refine Inv.cleanUp hkept' fun state' hs' => ?_
    obtain ⟨state, hs, hhorizon, hle⟩ := hrounds state' (hcore.symm.trans hs')
    rw [if_pos he] at hle
    refine ⟨hhorizon, hle.2, fun a n hn => ?_⟩
    rw [hclosed] at hn
    obtain ⟨r, m, hm, hr⟩ := h.closed state hs a n hn
    rw [sentTo_append]
    exact ⟨r, m, List.getElem?_append_of_some hm, hr.trans_le hle.1⟩
  · next he =>
    refine ⟨hkept', fun state' hs' => ?_, fun state' hs' a n hn => ?_, fun state' hs' r hr => ?_⟩
    · obtain ⟨state, -, hhorizon, -⟩ := hrounds state' (hcore.symm.trans hs')
      exact hhorizon
    · obtain ⟨state, hs, -, hsame⟩ := hrounds state' (hcore.symm.trans hs')
      rw [if_neg he] at hsame
      rw [hclosed] at hn
      obtain ⟨r, m, hm, hr⟩ := h.closed state hs a n hn
      rw [sentTo_append]
      exact ⟨r, m, List.getElem?_append_of_some hm, hsame.1.symm ▸ hr⟩
    · obtain ⟨state, hs, -, hsame⟩ := hrounds state' (hcore.symm.trans hs')
      rw [if_neg he] at hsame
      rw [hsame.2]
      exact h.collected state hs r (hsame.1 ▸ hr)

/-- **One event.** -/
theorem Inv.step {outs : List Output} (h : Inv core s outs) (e : Event) :
    Inv core (Sender.step core s e).1 (outs ++ (Sender.step core s e).2) := by
  cases e with
  | core e => exact h.coreTurn e
  | link a e =>
    rw [Sender.step]
    split
    · exact (List.append_nil outs).symm ▸ h
    · next he =>
      obtain ⟨hkept, hclosed⟩ := h.kept.link a (Bool.eq_false_of_not_eq_true he)
      have hsent : ∀ b, sentTo b (outs ++ (Link.dispatched ((s.links a).step e).2).map
          (.delivered a)) = sentTo b outs := fun b => by
        rw [sentTo_append, sentTo_map_delivered, List.append_nil]
      refine ⟨?_, h.horizon, fun state hs b n hn => ?_, h.collected⟩
      · simp only [hsent]
        convert hkept using 2 with b
        rw [deliveredTo_append, deliveredTo_map_delivered]
        split
        · next heq => rw [← heq, Function.update_self]
        · next hne => rw [Function.update_of_ne (Ne.symm hne), List.append_nil]
      · rw [hsent]
        rw [hclosed] at hn
        exact h.closed state hs b n hn

theorem inv (core : Core) (es : List Event) :
    Inv core ((machine core).state es) ((machine core).outputs es) := by
  refine (machine core).invariant (P := fun _ s outs => Inv core s outs) ?_
    (fun _ e h => h.step e) es
  refine ⟨⟨fun a => Link.carries_new, fun a n hn => ?_, fun a r n => ?_⟩, ?_, ?_, ?_⟩
  · exact absurd hn (Finset.notMem_empty n)
  · exact iff_of_false (fun hmem => by cases hmem) fun ⟨⟨m, hm⟩, _⟩ => (by cases hm)
  · rintro state hs
    cases hs
    exact Nat.zero_le _
  · exact fun state hs a n hn => absurd hn (Finset.notMem_empty n)
  · exact fun state hs r hr => rfl

/-- **What the core sends is cancelled once its round is collected, and no sooner.**  In every run,
whatever happens to the connections: as long as the core is alive, a message that it sent is
cancelled if and only if its round is below the horizon; unless it is cancelled it is still to be
sent, or was delivered; and all that is delivered at an address was sent there. -/
theorem sent_until_collected (core : Core) (es : List Event) {state : State}
    (hs : ((machine core).state es).core = .ok state) (a : SocketAddr) :
    (∀ n r m, (sentTo a ((machine core).outputs es))[n]? = some (r, m) →
      (n ∈ (((machine core).state es).links a).connection.closed ↔ r < state.gcRound) ∧
      (state.gcRound ≤ r →
        ⟨m.serialize, n⟩ ∈ (((machine core).state es).links a).connection.queue ∨
          ⟨m.serialize, n⟩ ∈ deliveredTo a ((machine core).outputs es))) ∧
    ∀ x ∈ deliveredTo a ((machine core).outputs es), ∃ r m,
      (sentTo a ((machine core).outputs es))[x.cancelHandler]? = some (r, m) ∧
        x.data = m.serialize := by
  have h := inv core es
  refine ⟨fun n r m hsent => ?_, fun x hx => ?_⟩
  · have hclosed : n ∈ (((machine core).state es).links a).connection.closed ↔ r < state.gcRound := by
      constructor
      · intro hn
        obtain ⟨r', m', hsent', hr'⟩ := h.closed state hs a n hn
        have hround : r = r' := congrArg Prod.fst (Option.some.inj (hsent.symm.trans hsent'))
        exact hround ▸ hr'
      · intro hr
        by_contra hopen
        have hmem := (h.kept.handlers a r n).mpr ⟨⟨m, hsent⟩, hopen⟩
        rw [h.collected state hs r hr] at hmem
        cases hmem
    refine ⟨hclosed, fun hr => (h.kept.carries a).queue_or_dispatched ?_ fun hn => ?_⟩
    · rw [frames, List.getElem?_map, hsent]
      rfl
    · exact absurd (hclosed.mp hn) hr.not_gt
  · have hdata := (h.kept.carries a).getElem?_handler hx
    rw [frames, List.getElem?_map] at hdata
    obtain ⟨⟨r, m⟩, hm, hframe⟩ := Option.map_eq_some_iff.mp hdata
    exact ⟨r, m, hm, hframe.symm⟩

end

end Sender

/-! ## A header that is collected -/

namespace Sender.Collected

open Sample

def address (n : ℕ) : SocketAddr := ⟨.v4 (BitVec.ofNat 32 n), 4000⟩

def member (n : ℕ) : Authority := { authority 1 with primary := ⟨address n, address n⟩ }

/-- Three authorities, each with its address. -/
def committee : Committee :=
  ⟨⟨[(key 1, member 1), (key 2, member 2), (key 3, member 3)], by simp only [List.map]; decide⟩⟩

def core : Core := ⟨key 1, committee, 1, fun digest => sign digest (key 1)⟩

def proposal : Header :=
  header (key 1) 1 .empty ((Certificate.genesis committee).map Certificate.digest)

/-- The second authority receives the header, the third does not answer; then consensus reaches the
third round. -/
def events : List Event :=
  .core (.ownHeader proposal) ::
    [.connect true, .receive, .write true, .arrive].map (fun e => .link (address 2) (.connection e))
    ++ [.core (.committed (certificate committee (key 2) 3 [])), .core (.header proposal)]

theorem exists_of_gcRound {x : Except Panic State} {g : ℕ}
    (h : x.toOption.map State.gcRound = some g) : ∃ state, x = .ok state ∧ state.gcRound = g := by
  cases x with
  | error p => cases h
  | ok state => exact ⟨state, rfl, Option.some.inj h⟩

set_option maxRecDepth 100000 in
theorem collected_events :
    ((machine core).state events).core.toOption.map State.gcRound = some 2 ∧
    (sentTo (address 3) ((machine core).outputs events))[0]? = some (1, .header proposal) := by
  decide +kernel

/-- The header is cancelled. -/
theorem sent_until_collected_events : ∃ state, ((machine core).state events).core = .ok state ∧
    state.gcRound = 2 ∧
    (0 ∈ (((machine core).state events).links (address 3)).connection.closed ↔
      1 < state.gcRound) := by
  obtain ⟨state, hs, hgc⟩ := exists_of_gcRound collected_events.1
  exact ⟨state, hs, hgc, ((sent_until_collected core events hs (address 3)).1 0 1
    (.header proposal) collected_events.2).1⟩

end Sender.Collected

end Core

end Bullshark
