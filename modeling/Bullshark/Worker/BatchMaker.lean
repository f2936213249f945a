import Bullshark.Machinery.Mealy
import Bullshark.Worker.Tasks

/-!
# Worker/BatchMaker — the loop that turns transactions into batches

`BatchMaker::run` with the three things it waits for: the watch that pauses it, the channel of
transactions, the timer.  A step is one event around the task or one poll of it, so they interleave
in any order.  With the `benchmark` feature a seal first looks for sample transactions and reads the
first byte of each before it looks at the length: an empty transaction ends the task
(`never_panics_iff`).  Otherwise every transaction leaves in a batch, in order (`batches_flatten`).
-/

namespace Bullshark

namespace Worker

namespace BatchMaker

/-! ## Sample transactions -/

/-- An index or a slice out of bounds. -/
inductive Panic
  | outOfBounds
  deriving DecidableEq

/-- `tx[0] == 0u8 && tx.len() > 8`. -/
def isSample (tx : Transaction) : Except Panic Bool :=
  match tx[0]? with
  | none => .error .outOfBounds
  | some first => .ok (first == 0 && decide (tx.length > 8))

/-- `tx[1..9]`. -/
def sampleId (tx : Transaction) : Except Panic (List UInt8) :=
  if 9 ≤ tx.length then .ok ((tx.drop 1).take 8) else .error .outOfBounds

/-- Look for sample txs (they all start with 0) and gather their txs id (the next 8 bytes). -/
def sampleIds : Batch → Except Panic (List (List UInt8))
  | [] => .ok []
  | tx :: batch => do
    let sample ← isSample tx
    if sample then
      let id ← sampleId tx
      let ids ← sampleIds batch
      return id :: ids
    else sampleIds batch

/-! ## The loop -/

structure Settings where
  /-- The preferred batch size (in bytes). -/
  batchSize : ℕ
  /-- Built with the `benchmark` feature. -/
  benchmark : Bool
  /-- What the watch of the proposer's rounds is created with. -/
  batchSilent : UInt64 × Bool

/-- Where the task is. -/
inductive Point
  /-- At the top of the loop. -/
  | top
  /-- Paused, waiting for the watch to change. -/
  | paused
  /-- At the `select!`. -/
  | select
  | returned
  | panicked
  deriving DecidableEq

structure State where
  maker : BatchMaker
  point : Point
  /-- Channel to receive transactions from the network. -/
  rxTransaction : List Transaction
  /-- Current proposer round and whether local batch production is paused. -/
  batchSilent : UInt64 × Bool
  /-- The value of the watch was not seen yet. -/
  changed : Bool
  /-- The sender of the watch is gone. -/
  closed : Bool
  /-- The timer has elapsed. -/
  elapsed : Bool
  deriving DecidableEq

inductive Event
  /-- `TxReceiverHandler::dispatch` hands on a frame of a client. -/
  | transaction (frame : Transaction)
  /-- The primary pauses or resumes batch production. -/
  | batchSilent (value : UInt64 × Bool)
  /-- The sender of the watch is dropped. -/
  | hangUp
  | elapse
  /-- The task is polled. -/
  | turn
  deriving DecidableEq

inductive Emission
  /-- A transaction is received. -/
  | received (transaction : Transaction)
  /-- A batch is sealed. -/
  | sealed (batch : Batch)
  deriving DecidableEq

/-- The bytes of a batch's transactions. -/
def size (batch : Batch) : ℕ := (batch.map List.length).sum

variable (settings : Settings)

/-- `BatchMaker::seal`, where a batch is made; the ids are gathered before the batch is drained. -/
def conclude (s : State) : BatchMaker × Option Batch → State × List Emission
  | (maker, none) => ({ s with maker, point := .top }, [])
  | (maker, some batch) =>
    match if settings.benchmark then sampleIds batch else .ok [] with
    | .error _ => ({ s with maker := ⟨batch, size batch⟩, point := .panicked }, [])
    | .ok _ => ({ s with maker, point := .top, elapsed := false }, [.sealed batch])

/-- `changed()` completes: the timer is reset unless batch production is paused. -/
def resume (s : State) : State :=
  if s.changed then
    { s with changed := false, point := .top, elapsed := s.elapsed && s.batchSilent.2 }
  else { s with point := .returned }

/-- The task runs to where it next waits, or to the top of the loop. -/
def turn (s : State) : State × List Emission :=
  match s.point with
  | .top => ({ s with point := if s.batchSilent.2 then .paused else .select }, [])
  | .paused => if s.changed || s.closed then (resume s, []) else (s, [])
  | .select =>
    if s.changed || s.closed then (resume s, [])
    else
      match s.rxTransaction with
      | transaction :: rxTransaction =>
        let (s, sent) := conclude settings { s with rxTransaction }
          (receive settings.batchSize s.maker transaction)
        (s, .received transaction :: sent)
      | [] =>
        if s.elapsed then conclude settings { s with elapsed := false } s.maker.timer else (s, [])
  | .returned => (s, [])
  | .panicked => (s, [])

def step (s : State) : Event → State × List Emission
  | .transaction frame => ({ s with rxTransaction := s.rxTransaction ++ [frame] }, [])
  | .batchSilent value =>
    (if s.closed then s else { s with batchSilent := value, changed := true }, [])
  | .hangUp => ({ s with closed := true }, [])
  | .elapse => ({ s with elapsed := true }, [])
  | .turn => turn settings s

/-- `BatchMaker::run`, in any interleaving with what it waits for. -/
def machine : Mealy State Event Emission where
  init := ⟨new, .top, [], settings.batchSilent, false, false, false⟩
  step := step settings

/-- The frames of the clients. -/
def frames (is : List Event) : List Transaction :=
  is.filterMap fun
    | .transaction frame => some frame
    | _ => none

/-- The transactions received. -/
def received (log : List Emission) : List Transaction :=
  log.filterMap fun
    | .received transaction => some transaction
    | .sealed _ => none

/-- The batches sealed. -/
def batches (log : List Emission) : List Batch :=
  log.filterMap fun
    | .sealed batch => some batch
    | .received _ => none

/-- This iteration of the loop reads from the watch that batch production is paused. -/
def ObservesPause (s : State) : Prop :=
  s.point = .paused ∨
    s.batchSilent.2 = true ∧ (s.point = .top ∨ s.point = .select ∧ s.changed = true)

@[simp] theorem frames_append (is js : List Event) :
    frames (is ++ js) = frames is ++ frames js := List.filterMap_append

@[simp] theorem received_append (log w : List Emission) :
    received (log ++ w) = received log ++ received w := List.filterMap_append

@[simp] theorem batches_append (log w : List Emission) :
    batches (log ++ w) = batches log ++ batches w := List.filterMap_append

@[simp] theorem received_cons_received (tx : Transaction) (w : List Emission) :
    received (.received tx :: w) = tx :: received w := rfl

@[simp] theorem batches_cons_received (tx : Transaction) (w : List Emission) :
    batches (.received tx :: w) = batches w := rfl

@[simp] theorem size_append (b b' : Batch) : size (b ++ b') = size b + size b' := by
  simp [size]

/-- **The ids are gathered exactly where no transaction is empty.** -/
theorem exists_sampleIds_iff {batch : Batch} :
    (∃ ids, sampleIds batch = .ok ids) ↔ [] ∉ batch := by
  induction batch with
  | nil => simp [sampleIds]
  | cons tx batch ih =>
    cases tx with
    | nil => simp [sampleIds, isSample, bind, Except.bind]
    | cons first rest =>
      rw [List.mem_cons, or_iff_right (by simp), ← ih, sampleIds]
      cases hsample : isSample (first :: rest) with
      | error e => cases hsample
      | ok sample =>
        cases sample with
        | false => exact Iff.rfl
        | true =>
          -- the guard has looked at the length
          have hlong : 9 ≤ (first :: rest).length := by
            simp only [isSample, List.getElem?_cons_zero, Except.ok.injEq, Bool.and_eq_true,
              decide_eq_true_eq] at hsample
            exact hsample.2
          rw [sampleId, if_pos hlong]
          cases sampleIds batch with
          | error e => simp [bind, Except.bind]
          | ok ids => simp [bind, Except.bind, pure, Except.pure]

/-! ## One step -/

variable {settings : Settings}

/-- The size is that of the batch; it is below the preferred size, unless a seal went out of
bounds. -/
structure Consistent (settings : Settings) (s : State) : Prop where
  size : s.maker.currentBatchSize = size s.maker.currentBatch
  panicked : s.point = .panicked → settings.benchmark = true ∧ [] ∈ s.maker.currentBatch
  below : 0 < settings.batchSize → s.point ≠ .panicked →
    s.maker.currentBatchSize < settings.batchSize

/-- A sealed batch is not empty, and its last transaction filled it. -/
def Filled (settings : Settings) (b : Batch) : Prop :=
  b ≠ [] ∧ size b.dropLast < settings.batchSize

/-- What is made of the batch `before`: it waits, as it is small, or it is sealed. -/
structure Makes (settings : Settings) (before : BatchMaker) (made : BatchMaker × Option Batch) :
    Prop where
  size : before.currentBatchSize = size before.currentBatch
  outcome : (made = (before, none) ∧
      (0 < settings.batchSize → before.currentBatchSize < settings.batchSize)) ∨
    (made = (new, some before.currentBatch) ∧
      (0 < settings.batchSize → Filled settings before.currentBatch))

/-- What a step does to the transactions. -/
structure Accounts (settings : Settings) (s : State) (e : Event) (s' : State)
    (w : List Emission) : Prop where
  consistent : Consistent settings s'
  batch : (batches w).flatten ++ s'.maker.currentBatch = s.maker.currentBatch ++ received w
  channel : received w ++ s'.rxTransaction = s.rxTransaction ++ frames [e]
  filled : 0 < settings.batchSize → ∀ b ∈ batches w, Filled settings b

theorem makes_receive {s : State} (h : Consistent settings s) (hpoint : s.point = .select)
    (tx : Transaction) :
    Makes settings ⟨s.maker.currentBatch ++ [tx], s.maker.currentBatchSize + tx.length⟩
      (receive settings.batchSize s.maker tx) where
  size := by simp [h.size, BatchMaker.size]
  outcome := by
    rw [receive]
    dsimp only
    split
    · refine Or.inr ⟨rfl, fun hpos => ⟨by simp, ?_⟩⟩
      rw [List.dropLast_concat, ← h.size]
      exact h.below hpos (by simp [hpoint])
    · next hsmall => exact Or.inl ⟨rfl, fun _ => not_le.mp hsmall⟩

theorem makes_timer {s : State} (h : Consistent settings s) (hpoint : s.point = .select) :
    Makes settings s.maker s.maker.timer where
  size := h.size
  outcome := by
    rw [timer]
    split
    · next hne =>
      refine Or.inr ⟨rfl, fun hpos => ⟨hne, lt_of_le_of_lt ?_ (h.below hpos (by simp [hpoint]))⟩⟩
      conv_rhs => rw [h.size, ← List.dropLast_append_getLast hne, size_append]
      exact Nat.le_add_right _ _
    · exact Or.inl ⟨rfl, fun hpos => h.below hpos (by simp [hpoint])⟩

/-- **A seal loses nothing**: the batch waits, is sealed, or is still there when the ids go out of
bounds. -/
theorem conclude_spec {s : State} {before : BatchMaker} {made : BatchMaker × Option Batch}
    (h : Makes settings before made) :
    Consistent settings (conclude settings s made).1 ∧
      (batches (conclude settings s made).2).flatten ++ (conclude settings s made).1.maker.currentBatch
        = before.currentBatch ∧
      received (conclude settings s made).2 = [] ∧
      (conclude settings s made).1.rxTransaction = s.rxTransaction ∧
      (0 < settings.batchSize → ∀ b ∈ batches (conclude settings s made).2, Filled settings b) := by
  rcases h.outcome with ⟨rfl, hsmall⟩ | ⟨rfl, hfilled⟩
  · exact ⟨⟨h.size, by simp [conclude], fun hpos _ => hsmall hpos⟩, by simp [conclude, batches],
      rfl, rfl, by simp [conclude, batches]⟩
  · rw [conclude]
    split
    · next e herror =>
      have hpanic : settings.benchmark = true ∧ [] ∈ before.currentBatch := by
        by_cases hbench : settings.benchmark = true
        · refine ⟨hbench, ?_⟩
          by_contra hnot
          obtain ⟨ids, hids⟩ := exists_sampleIds_iff.mpr hnot
          simp [hbench, hids] at herror
        · simp [hbench] at herror
      exact ⟨⟨rfl, fun _ => hpanic, fun _ hnot => absurd rfl hnot⟩, by simp [batches], rfl, rfl,
        by simp [batches]⟩
    · refine ⟨⟨rfl, by simp, fun hpos _ => hpos⟩, by simp [batches, new], rfl, rfl, ?_⟩
      simpa [batches] using hfilled

/-- A step that leaves the batch alone. -/
theorem Accounts.idle {s s' : State} {e : Event} (h : Consistent settings s)
    (hmaker : s'.maker = s.maker) (hpoint : s'.point = .panicked ↔ s.point = .panicked)
    (hrx : s'.rxTransaction = s.rxTransaction ++ frames [e]) : Accounts settings s e s' [] where
  consistent := by
    refine ⟨?_, fun hp => ?_, fun hpos hp => ?_⟩
    · rw [hmaker]
      exact h.size
    · rw [hmaker]
      exact h.panicked (hpoint.mp hp)
    · rw [hmaker]
      exact h.below hpos (mt hpoint.mpr hp)
  batch := by simp [batches, received, hmaker]
  channel := by simp [received, hrx]
  filled := by simp [batches]

theorem resume_spec (s : State) : (resume s).maker = s.maker ∧
    (resume s).rxTransaction = s.rxTransaction ∧ (resume s).point ≠ .panicked := by
  rw [resume]
  split
  · exact ⟨rfl, rfl, by simp⟩
  · exact ⟨rfl, rfl, by simp⟩

/-- Waiting for the watch to change. -/
theorem Accounts.resume {s : State} (h : Consistent settings s) (hpoint : s.point ≠ .panicked) :
    Accounts settings s .turn (resume s) [] := by
  obtain ⟨hmaker, hrx, hlive⟩ := resume_spec s
  exact .idle h hmaker (iff_of_false hlive hpoint) (by simp [hrx, frames])

theorem turn_receive (settings : Settings) {s : State} (hpoint : s.point = .select)
    (hquiet : (s.changed || s.closed) = false) {tx : Transaction} {rest : List Transaction}
    (hrx : s.rxTransaction = tx :: rest) :
    turn settings s
      = ((conclude settings { s with rxTransaction := rest }
          (receive settings.batchSize s.maker tx)).1,
        .received tx :: (conclude settings { s with rxTransaction := rest }
          (receive settings.batchSize s.maker tx)).2) := by
  simp only [turn, hpoint, hquiet, hrx, Bool.false_eq_true, if_false]

theorem turn_timer (settings : Settings) {s : State} (hpoint : s.point = .select)
    (hquiet : (s.changed || s.closed) = false) (hrx : s.rxTransaction = []) :
    turn settings s
      = if s.elapsed then conclude settings { s with elapsed := false } s.maker.timer
        else (s, []) := by
  simp only [turn, hpoint, hquiet, hrx, Bool.false_eq_true, if_false]

/-- The `select!`, once the watch has not changed. -/
theorem accounts_select {s : State} (h : Consistent settings s) (hpoint : s.point = .select)
    (hquiet : (s.changed || s.closed) = false) :
    Accounts settings s .turn (turn settings s).1 (turn settings s).2 := by
  cases hrx : s.rxTransaction with
  | cons tx rest =>
    obtain ⟨hconsistent, hbatch, hnone, hchannel, hfilled⟩ :=
      conclude_spec (s := { s with rxTransaction := rest }) (makes_receive h hpoint tx)
    rw [turn_receive settings hpoint hquiet hrx]
    refine ⟨hconsistent, ?_, ?_, hfilled⟩
    · rw [batches_cons_received, received_cons_received, hnone]
      exact hbatch
    · rw [received_cons_received, hnone, hchannel, hrx]
      simp [frames]
  | nil =>
    rw [turn_timer settings hpoint hquiet hrx]
    split
    · obtain ⟨hconsistent, hbatch, hnone, hchannel, hfilled⟩ :=
        conclude_spec (s := { s with elapsed := false }) (makes_timer h hpoint)
      refine ⟨hconsistent, ?_, ?_, hfilled⟩
      · rw [hbatch, hnone, List.append_nil]
      · rw [hnone, hchannel]
        simp [frames]
    · exact .idle h rfl Iff.rfl (by simp [frames])

theorem turn_accounts {s : State} (h : Consistent settings s) :
    Accounts settings s .turn (turn settings s).1 (turn settings s).2 := by
  cases hpoint : s.point with
  | top =>
    rw [turn, hpoint]
    refine .idle h rfl (iff_of_false ?_ (by simp [hpoint])) (by simp [frames])
    dsimp only
    split <;> simp
  | paused =>
    rw [turn, hpoint]
    dsimp only
    split
    · exact .resume h (by simp [hpoint])
    · exact .idle h rfl Iff.rfl (by simp [frames])
  | select =>
    cases hquiet : s.changed || s.closed with
    | true =>
      rw [turn, hpoint]
      dsimp only
      rw [if_pos hquiet]
      exact .resume h (by simp [hpoint])
    | false => exact accounts_select h hpoint hquiet
  | returned =>
    rw [turn, hpoint]
    exact .idle h rfl Iff.rfl (by simp [frames])
  | panicked =>
    rw [turn, hpoint]
    exact .idle h rfl Iff.rfl (by simp [frames])

/-- **A step accounts for every transaction.** -/
theorem step_accounts {s : State} (h : Consistent settings s) (e : Event) :
    Accounts settings s e (step settings s e).1 (step settings s e).2 := by
  cases e with
  | transaction frame => exact .idle h rfl Iff.rfl rfl
  | batchSilent value =>
    rw [step]
    dsimp only
    split
    · exact .idle h rfl Iff.rfl (by simp [frames])
    · exact .idle h rfl Iff.rfl (by simp [frames])
  | hangUp => exact .idle h rfl Iff.rfl (by simp [step, frames])
  | elapse => exact .idle h rfl Iff.rfl (by simp [step, frames])
  | turn => exact turn_accounts h

/-- **An iteration that observes the pause** emits nothing and leaves the batch and the channel
alone. -/
theorem step_of_observesPause (settings : Settings) {s : State} (h : ObservesPause s) (e : Event) :
    (step settings s e).2 = [] ∧ (step settings s e).1.maker = s.maker ∧
      (step settings s e).1.rxTransaction = s.rxTransaction ++ frames [e] := by
  cases e with
  | transaction frame => exact ⟨rfl, rfl, rfl⟩
  | batchSilent value =>
    rw [step]
    dsimp only
    split
    · exact ⟨rfl, rfl, by simp [frames]⟩
    · exact ⟨rfl, rfl, by simp [frames]⟩
  | hangUp => exact ⟨rfl, rfl, by simp [step, frames]⟩
  | elapse => exact ⟨rfl, rfl, by simp [step, frames]⟩
  | turn =>
    have hnone : frames [Event.turn] = [] := rfl
    obtain ⟨hmaker, hrx, -⟩ := resume_spec s
    rw [step, turn, hnone, List.append_nil]
    rcases h with hpoint | ⟨hpause, hpoint | ⟨hpoint, hchanged⟩⟩
    · rw [hpoint]
      dsimp only
      split
      · exact ⟨rfl, hmaker, hrx⟩
      · exact ⟨rfl, rfl, rfl⟩
    · rw [hpoint]
      exact ⟨rfl, rfl, rfl⟩
    · rw [hpoint]
      dsimp only
      rw [hchanged, Bool.true_or, if_pos rfl]
      exact ⟨rfl, hmaker, hrx⟩

/-! ## The run -/

/-- What was received, sealed and kept so far. -/
structure Kept (settings : Settings) (is : List Event) (s : State) (log : List Emission) : Prop where
  consistent : Consistent settings s
  batch : (batches log).flatten ++ s.maker.currentBatch = received log
  channel : received log ++ s.rxTransaction = frames is
  filled : 0 < settings.batchSize → ∀ b ∈ batches log, Filled settings b

theorem Kept.step {is : List Event} {s : State} {log : List Emission} (h : Kept settings is s log)
    (e : Event) : Kept settings (is ++ [e]) (step settings s e).1
      (log ++ (BatchMaker.step settings s e).2) := by
  obtain ⟨hconsistent, hbatch, hchannel, hfilled⟩ := step_accounts h.consistent e
  refine ⟨hconsistent, ?_, ?_, fun hpos => ?_⟩
  · rw [batches_append, List.flatten_append, List.append_assoc, hbatch, ← List.append_assoc,
      h.batch, received_append]
  · rw [received_append, List.append_assoc, hchannel, ← List.append_assoc, h.channel, frames_append]
  · rw [batches_append]
    exact List.forall_mem_append.mpr ⟨h.filled hpos, hfilled hpos⟩

theorem kept (settings : Settings) (is : List Event) :
    Kept settings is ((machine settings).state is) ((machine settings).outputs is) := by
  have hinit : Kept settings [] (machine settings).init [] :=
    ⟨⟨rfl, fun hp => (by cases hp), fun hpos _ => hpos⟩, rfl, rfl, fun _ b hb => (by cases hb)⟩
  exact Mealy.invariant hinit (fun _ e h => h.step e) is

/-- **No transaction is lost, duplicated or reordered**: along every run the batches sealed, with
the current batch, are the transactions received, which with those in the channel are the frames of
the clients; the size is right and below the preferred one, each batch sealed was filled by its last
transaction, and a pause stops both sealing and receiving. -/
theorem batches_flatten (settings : Settings) (hpos : 0 < settings.batchSize) (is : List Event) :
    ((batches ((machine settings).outputs is)).flatten
        ++ ((machine settings).state is).maker.currentBatch
      = received ((machine settings).outputs is) ∧
      received ((machine settings).outputs is) ++ ((machine settings).state is).rxTransaction
        = frames is) ∧
    ((machine settings).state is).maker.currentBatchSize
      = size ((machine settings).state is).maker.currentBatch ∧
    (((machine settings).state is).point ≠ .panicked →
      ((machine settings).state is).maker.currentBatchSize < settings.batchSize) ∧
    (settings.benchmark = false → ((machine settings).state is).point ≠ .panicked) ∧
    (∀ b ∈ batches ((machine settings).outputs is), Filled settings b) ∧
    (ObservesPause ((machine settings).state is) → ∀ e,
      ((machine settings).step ((machine settings).state is) e).2 = [] ∧
      ((machine settings).step ((machine settings).state is) e).1.maker
        = ((machine settings).state is).maker) := by
  have h := kept settings is
  refine ⟨⟨h.batch, h.channel⟩, h.consistent.size, h.consistent.below hpos, fun hbench hp => ?_,
    h.filled hpos, fun hpause e => ?_⟩
  · exact absurd (h.consistent.panicked hp).1 (by simp [hbench])
  · obtain ⟨hsent, hmaker, -⟩ := step_of_observesPause settings hpause e
    exact ⟨hsent, hmaker⟩

/-- A transaction waits out a pause, and is sealed after it. -/
theorem batches_flatten_resumed :
    ((batches ((machine ⟨2, false, (1, true)⟩).outputs [.transaction [7], .turn])).flatten
        ++ ((machine ⟨2, false, (1, true)⟩).state [.transaction [7], .turn]).maker.currentBatch
      = received ((machine ⟨2, false, (1, true)⟩).outputs [.transaction [7], .turn])) ∧
    ObservesPause ((machine ⟨2, false, (1, true)⟩).state [.transaction [7], .turn]) ∧
    batches ((machine ⟨2, false, (1, true)⟩).outputs [.transaction [7], .turn, .batchSilent (2, false),
      .turn, .turn, .turn, .elapse, .turn, .turn]) = [[[7]]] :=
  ⟨(batches_flatten ⟨2, false, (1, true)⟩ (by decide) [.transaction [7], .turn]).1.1,
    Or.inl (by decide), by decide⟩

/-! ## Empty transactions -/

/-- The task is at the `select!` and the watch is quiet. -/
structure Ready (s : State) : Prop where
  point : s.point = .select
  quiet : (s.changed || s.closed) = false
  running : s.batchSilent.2 = false

/-- A seal over an empty transaction goes out of bounds. -/
theorem point_conclude_of_nil_mem (hbench : settings.benchmark = true) {s : State}
    {maker : BatchMaker} {batch : Batch} (h : [] ∈ batch) :
    (conclude settings s (maker, some batch)).1.point = .panicked := by
  rw [conclude]
  split
  · rfl
  · next ids hids =>
    rw [if_pos hbench] at hids
    exact absurd h (exists_sampleIds_iff.mp ⟨ids, hids⟩)

/-- At the top of the loop, with the watch quiet, the task goes on to the `select!`. -/
theorem ready_turn {s : State} (hpoint : s.point = .top) (hquiet : (s.changed || s.closed) = false)
    (hrunning : s.batchSilent.2 = false) : Ready (turn settings s).1 := by
  rw [turn, hpoint]
  exact ⟨by simp [hrunning], hquiet, hrunning⟩

/-- One transaction is received: a seal over an empty one panics, and otherwise the empty one still
waits, in the batch or in the channel. -/
theorem receive_of_ready (hbench : settings.benchmark = true) {s : State} (h : Ready s)
    {tx : Transaction} {rest : List Transaction} (hrx : s.rxTransaction = tx :: rest)
    (hnil : [] ∈ s.maker.currentBatch ++ s.rxTransaction) :
    (turn settings s).1.point = .panicked ∨
      Ready (turn settings (turn settings s).1).1 ∧
        (turn settings (turn settings s).1).1.rxTransaction = rest ∧
        [] ∈ (turn settings (turn settings s).1).1.maker.currentBatch ++ rest := by
  have hturn := turn_receive settings h.point h.quiet hrx
  have hkeep : ∀ s' : State, (turn settings s).1 = s' → s'.point = .top →
      (s'.changed || s'.closed) = false → s'.batchSilent.2 = false → s'.rxTransaction = rest →
      [] ∈ s'.maker.currentBatch ++ rest →
      Ready (turn settings (turn settings s).1).1 ∧
        (turn settings (turn settings s).1).1.rxTransaction = rest ∧
        [] ∈ (turn settings (turn settings s).1).1.maker.currentBatch ++ rest := by
    rintro s' rfl hpoint hquiet hrunning hrest hmem
    refine ⟨ready_turn hpoint hquiet hrunning, ?_, ?_⟩
    · rw [turn, hpoint]
      exact hrest
    · rw [turn, hpoint]
      exact hmem
  rw [hrx] at hnil
  rw [receive] at hturn
  dsimp only at hturn
  split at hturn
  · by_cases hbatch : [] ∈ s.maker.currentBatch ++ [tx]
    · exact Or.inl (by rw [hturn]; exact point_conclude_of_nil_mem hbench hbatch)
    · obtain ⟨ids, hids⟩ := exists_sampleIds_iff.mpr hbatch
      simp only [sealBatch, conclude, hbench, if_true, hids] at hturn
      refine Or.inr (hkeep _ (congrArg Prod.fst hturn) rfl h.quiet h.running rfl ?_)
      -- the batch that is sealed has none, so it is still in the channel
      rw [List.append_cons] at hnil
      have hrest := (List.mem_append.mp hnil).resolve_left hbatch
      exact List.mem_append_right _ hrest
  · simp only [conclude] at hturn
    refine Or.inr (hkeep _ (congrArg Prod.fst hturn) rfl h.quiet h.running rfl ?_)
    simpa using hnil

/-- **An empty transaction is fatal**: from where one waits, in the batch or in the channel, some
polls and one elapse of the timer end the task. -/
theorem exists_panicked (hbench : settings.benchmark = true) :
    ∀ {rx : List Transaction} {is : List Event}, Ready ((machine settings).state is) →
      ((machine settings).state is).rxTransaction = rx →
      [] ∈ ((machine settings).state is).maker.currentBatch ++ rx →
      ∃ js, frames js = [] ∧ ((machine settings).state (is ++ js)).point = .panicked := by
  intro rx
  induction rx with
  | nil =>
    intro is h hrx hnil
    rw [List.append_nil] at hnil
    refine ⟨[.elapse, .turn], rfl, ?_⟩
    rw [show is ++ [.elapse, .turn] = is ++ [.elapse] ++ [.turn] by simp, Mealy.state_snoc,
      Mealy.state_snoc]
    have hready : Ready ({ (machine settings).state is with elapsed := true }) :=
      ⟨h.point, h.quiet, h.running⟩
    have hturn := turn_timer settings hready.point hready.quiet hrx
    rw [if_pos rfl, timer, if_pos (List.ne_nil_of_mem hnil)] at hturn
    exact (congrArg (fun r => r.1.point) hturn).trans (point_conclude_of_nil_mem hbench hnil)
  | cons tx rest ih =>
    intro is h hrx hnil
    have hturns : (machine settings).state (is ++ [.turn, .turn])
        = (turn settings (turn settings ((machine settings).state is)).1).1 := by
      rw [show is ++ [.turn, .turn] = is ++ [.turn] ++ [.turn] by simp, Mealy.state_snoc,
        Mealy.state_snoc]
      rfl
    rcases receive_of_ready hbench h hrx (hrx ▸ hnil) with hpanicked | ⟨hready, hrest, hnil⟩
    · refine ⟨[.turn], rfl, ?_⟩
      rw [Mealy.state_snoc]
      exact hpanicked
    · rw [← hturns] at hready hrest hnil
      obtain ⟨js, hjs, hpanicked⟩ := ih hready hrest hnil
      refine ⟨[.turn, .turn] ++ js, ?_, ?_⟩
      · rw [frames_append, hjs]
        rfl
      · rwa [← List.append_assoc]

/-- The watch is opened, then the clients send these frames. -/
def opening (fs : List Transaction) : List Event :=
  [.batchSilent (0, false), .turn, .turn, .turn] ++ fs.map .transaction

theorem frames_opening (fs : List Transaction) : frames (opening fs) = fs := by
  rw [opening, frames_append]
  induction fs with
  | nil => rfl
  | cons f fs ih => exact congrArg (f :: ·) ih

/-- After it, the task is ready and all frames are in the channel. -/
theorem ready_opening (settings : Settings) (fs : List Transaction) :
    Ready ((machine settings).state (opening fs)) ∧
      ((machine settings).state (opening fs)).rxTransaction = fs := by
  induction fs using List.reverseRecOn with
  | nil =>
    obtain ⟨batchSize, benchmark, round, pause⟩ := settings
    cases pause <;> exact ⟨⟨rfl, rfl, rfl⟩, rfl⟩
  | append_singleton fs f ih =>
    obtain ⟨hready, hrx⟩ := ih
    have hopening : opening (fs ++ [f]) = opening fs ++ [.transaction f] := by simp [opening]
    rw [hopening, Mealy.state_snoc]
    exact ⟨⟨hready.point, hready.quiet, hready.running⟩, congrArg (· ++ [f]) hrx⟩

/-- **What the clients may send**: with the `benchmark` feature, no run on these frames goes out of
bounds exactly when none of them is empty. -/
theorem never_panics_iff (batchSize : ℕ) (batchSilent : UInt64 × Bool) (fs : List Transaction) :
    (∀ is, frames is = fs →
      ((machine ⟨batchSize, true, batchSilent⟩).state is).point ≠ .panicked) ↔
      ∀ frame ∈ fs, frame ≠ [] := by
  constructor
  · rintro hsafe frame hframe rfl
    obtain ⟨hready, hrx⟩ := ready_opening ⟨batchSize, true, batchSilent⟩ fs
    obtain ⟨js, hjs, hpanicked⟩ := exists_panicked rfl hready hrx
      (List.mem_append_right _ hframe)
    exact hsafe (opening fs ++ js) (by simp [frames_opening, hjs]) hpanicked
  · rintro hfull is rfl hpanicked
    have h := kept ⟨batchSize, true, batchSilent⟩ is
    have hempty := (h.consistent.panicked hpanicked).2
    refine hfull [] ?_ rfl
    rw [← h.channel, ← h.batch]
    exact List.mem_append_left _ (List.mem_append_right _ hempty)

/-- **One empty frame ends the task.** -/
theorem empty_frame_panics : ((machine ⟨200, true, (0, false)⟩).state
    [.transaction [], .turn, .turn, .turn, .elapse, .turn]).point = .panicked := by decide

end BatchMaker

end Worker

end Bullshark
