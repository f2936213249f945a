import Bullshark.Machinery.Collections
import Bullshark.Machinery.Mealy

/-!
# Store/Commands — the command loop of the store

The task `Store::new` spawns: it owns the database and answers `Write`, `Read` and `NotifyRead`
commands one at a time.  A `NotifyRead` of a key that was never written leaves its sender among the
obligations of the key; the next write of the key pays them all.

The database is a parameter: `Database` lists the two operations the loop calls, `Lawful` what it
relies on.  A sender is a `oneshot` end, made for one command: no two commands carry the same.

* `get_state` / `owed_state` — the state of the task, read off the commands processed.
* `answers_at_once`, `answers_waiting`, `answers_paid` — what each sender is sent, and when.
-/

namespace Bullshark

namespace Store

abbrev Key := List UInt8

abbrev Value := List UInt8

/-- The operations of `rocksdb::DB` the loop calls. -/
structure Database (D E : Type) where
  put : D → Key → Value → D × Except E Unit
  get : D → Key → Except E (Option Value)

/-- Opened empty, the database is a map whose operations succeed. -/
structure Database.Lawful {D E : Type} (rocks : Database D E) (opened : D) : Prop where
  get_opened : ∀ key, rocks.get opened key = .ok none
  get_put : ∀ db key value key' found, rocks.get db key' = .ok found →
    rocks.get (rocks.put db key value).1 key' = .ok (if key' = key then some value else found)

/-- `StoreCommand`. -/
inductive StoreCommand (S : Type)
  | write (key : Key) (value : Value)
  | read (key : Key) (sender : S)
  | notifyRead (key : Key) (sender : S)
  deriving DecidableEq

/-- What is sent on a `oneshot` channel. -/
inductive Reply (S E : Type)
  | read (sender : S) (response : Except E (Option Value))
  | notifyRead (sender : S) (response : Except E Value)

/-- The variables of the task. -/
structure Task (D S : Type) where
  db : D
  obligations : HashMap Key (List S)

variable {D E S : Type} (rocks : Database D E) (opened : D)

/-- One turn of the loop. -/
def handle (task : Task D S) : StoreCommand S → Task D S × List (Reply S E)
  | .write key value =>
    let db := (rocks.put task.db key value).1
    match task.obligations.lookup key with
    | some senders =>
      (⟨db, task.obligations.erase key⟩, senders.map fun s => .notifyRead s (.ok value))
    | none => (⟨db, task.obligations⟩, [])
  | .read key sender => (task, [.read sender (rocks.get task.db key)])
  | .notifyRead key sender =>
    match rocks.get task.db key with
    | .ok none =>
      (⟨task.db, task.obligations.insert key
        ((task.obligations.lookup key).getD [] ++ [sender])⟩, [])
    | .ok (some value) => (task, [.notifyRead sender (.ok value)])
    | .error e => (task, [.notifyRead sender (.error e)])

/-- The store task, from the database `Store::new` opened. -/
def machine : Mealy (Task D S) (StoreCommand S) (Reply S E) where
  init := ⟨opened, ∅⟩
  step := handle rocks

@[simp] theorem machine_step (task : Task D S) (command : StoreCommand S) :
    (machine rocks opened).step task command = handle rocks task command := rfl

/-! ## What a sequence of commands asks for -/

/-- The value of the last write of a key. -/
def lastWrite (key : Key) (commands : List (StoreCommand S)) : Option Value :=
  commands.foldl (fun found command =>
    match command with
    | .write key' value => if key = key' then some value else found
    | _ => found) none

/-- The sender a command carries. -/
def StoreCommand.sender : StoreCommand S → Option S
  | .write _ _ => none
  | .read _ sender => some sender
  | .notifyRead _ sender => some sender

def senders (commands : List (StoreCommand S)) : List S := commands.filterMap StoreCommand.sender

/-- The sender of a `NotifyRead` of this key. -/
def StoreCommand.notified (key : Key) : StoreCommand S → Option S
  | .notifyRead key' sender => if key = key' then some sender else none
  | _ => none

/-- The senders that asked to be notified of a key, oldest first. -/
def asked (key : Key) (commands : List (StoreCommand S)) : List S :=
  commands.filterMap (StoreCommand.notified key)

def Reply.sender : Reply S E → S
  | .read sender _ => sender
  | .notifyRead sender _ => sender

/-- What was sent to a sender. -/
def answers [DecidableEq S] (sender : S) (replies : List (Reply S E)) : List (Reply S E) :=
  replies.filter fun reply => decide (reply.sender = sender)

/-- The senders registered for a key. -/
def Task.owed (task : Task D S) (key : Key) : List S := (task.obligations.lookup key).getD []

theorem lastWrite_snoc (key : Key) (commands : List (StoreCommand S)) (command : StoreCommand S) :
    lastWrite key (commands ++ [command]) = match command with
      | .write key' value => if key = key' then some value else lastWrite key commands
      | _ => lastWrite key commands := by
  rw [lastWrite, List.foldl_append]
  rfl

theorem lastWrite_eq_none_iff {key : Key} {commands : List (StoreCommand S)} :
    lastWrite key commands = none ↔ ∀ value, .write key value ∉ commands := by
  induction commands using List.reverseRecOn with
  | nil => simp [lastWrite]
  | append_singleton commands command ih =>
    rw [lastWrite_snoc]
    cases command with
    | write key' value =>
      by_cases hk : key = key'
      · subst hk
        simpa using ⟨value, fun _ => rfl⟩
      · simp [hk, ih]
    | read key' sender => simp [ih]
    | notifyRead key' sender => simp [ih]

theorem asked_snoc (key : Key) (commands : List (StoreCommand S)) (command : StoreCommand S) :
    asked key (commands ++ [command]) = asked key commands ++ (command.notified key).toList := by
  rw [asked, List.filterMap_append]
  cases h : command.notified key with
  | none => rw [List.filterMap_cons_none h]; rfl
  | some sender => rw [List.filterMap_cons_some h]; rfl

theorem mem_asked {key : Key} {commands : List (StoreCommand S)} {sender : S} :
    sender ∈ asked key commands ↔ .notifyRead key sender ∈ commands := by
  refine List.mem_filterMap_iff_mem fun command s => ?_
  cases command with
  | write key' value => simp [StoreCommand.notified]
  | read key' s' => simp [StoreCommand.notified]
  | notifyRead key' s' =>
    simp only [StoreCommand.notified, StoreCommand.notifyRead.injEq]
    by_cases h : key = key'
    · simp [h]
    · simp [h, Ne.symm h]

theorem mem_senders_of_mem {commands : List (StoreCommand S)} {command : StoreCommand S}
    {sender : S} (h : command ∈ commands) (hs : command.sender = some sender) :
    sender ∈ senders commands := List.mem_filterMap.mpr ⟨command, h, hs⟩

theorem asked_sublist (key : Key) (commands : List (StoreCommand S)) :
    (asked key commands).Sublist (senders commands) := by
  induction commands with
  | nil => exact .slnil
  | cons command commands ih =>
    rw [asked, senders, List.filterMap_cons, List.filterMap_cons]
    cases command with
    | write key' value => exact ih
    | read key' sender => exact ih.cons _
    | notifyRead key' sender =>
      by_cases hk : key = key'
      · simpa [StoreCommand.notified, StoreCommand.sender, hk, asked, senders] using ih
      · simpa [StoreCommand.notified, StoreCommand.sender, hk, asked, senders] using ih.cons sender

@[simp] theorem senders_append (l l' : List (StoreCommand S)) :
    senders (l ++ l') = senders l ++ senders l' := List.filterMap_append

@[simp] theorem answers_append [DecidableEq S] (sender : S) (l l' : List (Reply S E)) :
    answers sender (l ++ l') = answers sender l ++ answers sender l' := List.filter_append _ _

/-- With distinct senders, a sender is that of one command. -/
theorem eq_of_sender {commands : List (StoreCommand S)} (hnodup : (senders commands).Nodup)
    {c c' : StoreCommand S} (hc : c ∈ commands) (hc' : c' ∈ commands) {sender : S}
    (hs : c.sender = some sender) (hs' : c'.sender = some sender) : c = c' := by
  induction commands with
  | nil => cases hc
  | cons d commands ih =>
    cases hd : d.sender with
    | none =>
      rw [senders, List.filterMap_cons_none hd] at hnodup
      have hne : ∀ {x : StoreCommand S}, x.sender = some sender → x ≠ d := by
        rintro x hx rfl
        rw [hd] at hx
        cases hx
      exact ih hnodup (List.mem_of_ne_of_mem (hne hs) hc) (List.mem_of_ne_of_mem (hne hs') hc')
    | some s =>
      rw [senders, List.filterMap_cons_some hd] at hnodup
      obtain ⟨hnot, hnodup⟩ := List.nodup_cons.mp hnodup
      rcases List.mem_cons.mp hc with rfl | hmem
      · rcases List.mem_cons.mp hc' with rfl | hmem'
        · rfl
        · cases hd.symm.trans hs
          exact absurd (mem_senders_of_mem hmem' hs') hnot
      · rcases List.mem_cons.mp hc' with rfl | hmem'
        · cases hd.symm.trans hs'
          exact absurd (mem_senders_of_mem hmem hs) hnot
        · exact ih hnodup hmem hmem'

/-! ## The state, read off the commands -/

variable {rocks} {opened}

/-- **The database holds the last value written under each key.** -/
theorem get_state (hdb : rocks.Lawful opened) (key : Key) (commands : List (StoreCommand S)) :
    rocks.get ((machine rocks opened).state commands).db key = .ok (lastWrite key commands) := by
  refine (machine rocks opened).invariant
    (P := fun commands task _ => rocks.get task.db key = .ok (lastWrite key commands))
    (hdb.get_opened key) (fun commands command ih => ?_) commands
  rw [lastWrite_snoc]
  show rocks.get (handle rocks _ command).1.db key = _
  cases command with
  | write key' value =>
    rw [handle]
    split <;> exact hdb.get_put _ key' value key _ ih
  | read key' sender => exact ih
  | notifyRead key' sender =>
    rw [handle]
    split <;> exact ih

theorem owed_handle_write (task : Task D S) (key key' : Key) (value : Value) :
    (handle rocks task (.write key' value)).1.owed key
      = if key = key' then [] else task.owed key := by
  rw [handle, Task.owed, Task.owed]
  by_cases hk : key = key'
  · subst hk
    rw [if_pos rfl]
    cases hlookup : task.obligations.lookup key with
    | none => simp [hlookup]
    | some senders => simp
  · rw [if_neg hk]
    split
    · rw [AList.lookup_erase_ne hk]
    · rfl

theorem owed_handle_notifyRead (task : Task D S) (key key' : Key) (sender : S)
    {found : Option Value} (hget : rocks.get task.db key' = .ok found) :
    (handle rocks task (.notifyRead key' sender)).1.owed key
      = if key = key' ∧ found = none then task.owed key ++ [sender] else task.owed key := by
  cases found with
  | some value => simp [handle, hget]
  | none =>
    by_cases hk : key = key'
    · subst hk
      simp [handle, hget, Task.owed]
    · simp [handle, hget, Task.owed, hk]

/-- **A key is owed to everyone who asked for it, until it is written.** -/
theorem owed_state (hdb : rocks.Lawful opened) (key : Key) (commands : List (StoreCommand S)) :
    ((machine rocks opened).state commands).owed key
      = if lastWrite key commands = none then asked key commands else [] := by
  induction commands using List.reverseRecOn with
  | nil => rfl
  | append_singleton commands command ih =>
    rw [Mealy.state_snoc, lastWrite_snoc, asked_snoc]
    cases command with
    | write key' value =>
      rw [machine_step, owed_handle_write, ih]
      by_cases hk : key = key'
      · simp [hk]
      · simp [hk, StoreCommand.notified]
    | read key' sender =>
      simpa [StoreCommand.notified, handle] using ih
    | notifyRead key' sender =>
      rw [machine_step, owed_handle_notifyRead _ key key' sender (get_state hdb key' commands), ih]
      by_cases hk : key = key'
      · subst hk
        cases hlast : lastWrite key commands with
        | none => simp [StoreCommand.notified]
        | some value => simp
      · simp [hk, StoreCommand.notified]

/-! ## Who is answered in a turn -/

variable [DecidableEq S]

/-- A turn answers the sender of its command, or those its key is owed to. -/
theorem answers_handle_eq_nil {task : Task D S} {command : StoreCommand S} {sender : S}
    (hown : command.sender ≠ some sender)
    (howed : ∀ key value, command = .write key value → sender ∉ task.owed key) :
    answers sender (handle rocks task command).2 = [] := by
  cases command with
  | write key value =>
    have hnot := howed key value rfl
    rw [handle, answers]
    split
    · next senders hlookup =>
      rw [Task.owed, hlookup, Option.getD_some] at hnot
      refine List.filter_eq_nil_iff.mpr fun reply hreply => ?_
      obtain ⟨s, hs, rfl⟩ := List.mem_map.mp hreply
      intro h
      obtain rfl : s = sender := of_decide_eq_true h
      exact hnot hs
    · rfl
  | read key s =>
    have hne : s ≠ sender := fun h => hown (congrArg some h)
    simp [handle, answers, Reply.sender, hne]
  | notifyRead key s =>
    have hne : s ≠ sender := fun h => hown (congrArg some h)
    rw [handle]
    split <;> simp [answers, Reply.sender, hne]

/-- A write answers each of those its key is owed to with the value written. -/
theorem answers_handle_write {task : Task D S} {key : Key} {value : Value} {sender : S}
    (hnodup : (task.owed key).Nodup) (hmem : sender ∈ task.owed key) :
    answers sender (handle rocks task (.write key value)).2
      = [.notifyRead sender (.ok value)] := by
  rw [Task.owed] at hnodup hmem
  rw [handle]
  cases hlookup : task.obligations.lookup key with
  | none => rw [hlookup] at hmem; cases hmem
  | some senders =>
    rw [hlookup, Option.getD_some] at hnodup hmem
    rw [answers, List.filter_map]
    have hfilter : senders.filter ((fun reply : Reply S E => decide (reply.sender = sender)) ∘
        fun s => .notifyRead s (.ok value)) = [sender] := by
      have : (fun reply : Reply S E => decide (reply.sender = sender)) ∘
          (fun s => Reply.notifyRead s (.ok value)) = fun s => s == sender := by
        funext s
        exact (Bool.beq_eq_decide_eq s sender).symm
      rw [this, List.filter_beq, List.count_eq_one_of_mem hnodup hmem, List.replicate_one]
    simp only [hfilter, List.map_singleton]

/-! ## Who is answered in a run -/

variable {commands : List (StoreCommand S)}

omit [DecidableEq S] in
theorem mem_owed_iff (hdb : rocks.Lawful opened) {key : Key} {sender : S} :
    sender ∈ ((machine rocks opened).state commands).owed key ↔
      .notifyRead key sender ∈ commands ∧ ∀ value, .write key value ∉ commands := by
  rw [owed_state hdb, ← lastWrite_eq_none_iff]
  by_cases h : lastWrite key commands = none
  · simp [h, mem_asked]
  · simp [h]

/-- While no command carries the sender and no key owed to it is written, nothing is sent to it. -/
theorem answers_stable {sender : S} {pre post : List (StoreCommand S)}
    (hfresh : sender ∉ senders post)
    (howed : ∀ mid key value, mid ++ [.write key value] <+: post →
      sender ∉ ((machine rocks opened).state (pre ++ mid)).owed key) :
    answers sender ((machine rocks opened).outputs (pre ++ post))
      = answers sender ((machine rocks opened).outputs pre) := by
  induction post using List.reverseRecOn with
  | nil => rw [List.append_nil]
  | append_singleton post command ih =>
    rw [senders_append, List.mem_append, not_or] at hfresh
    rw [← List.append_assoc, Mealy.outputs_snoc, answers_append, machine_step,
      ih hfresh.1 fun mid key value h => howed mid key value (h.trans (List.prefix_append _ _)),
      answers_handle_eq_nil, List.append_nil]
    · exact fun h => hfresh.2 (mem_senders_of_mem List.mem_cons_self h)
    · rintro key value rfl
      exact howed post key value List.prefix_rfl

theorem answers_of_notMem (hdb : rocks.Lawful opened) {sender : S} (h : sender ∉ senders commands) :
    answers sender ((machine rocks opened).outputs commands) = [] := by
  rw [← List.nil_append commands, answers_stable h fun mid key value hupto hmem => h ?_]
  · rfl
  · have hmem' := ((mem_owed_iff hdb).mp hmem).1
    exact mem_senders_of_mem (hupto.subset (List.mem_append_left _ hmem')) rfl

section Command

variable {pre post : List (StoreCommand S)} {command : StoreCommand S} {sender : S}

omit [DecidableEq S] in
theorem notMem_senders (hnodup : (senders (pre ++ [command] ++ post)).Nodup)
    (hs : command.sender = some sender) : sender ∉ senders pre ∧ sender ∉ senders post := by
  simp only [senders_append, List.nodup_append] at hnodup
  have hmem : sender ∈ senders [command] := mem_senders_of_mem List.mem_cons_self hs
  exact ⟨fun h => hnodup.1.2.2 sender h sender hmem rfl,
    fun h => hnodup.2.2 sender (List.mem_append_right _ hmem) sender h rfl⟩

omit [DecidableEq S] in
/-- What is owed to the sender of a command was asked for by that command. -/
theorem eq_of_owed (hdb : rocks.Lawful opened)
    (hnodup : (senders (pre ++ [command] ++ post)).Nodup) (hs : command.sender = some sender)
    {mid : List (StoreCommand S)} (hmid : mid <+: post) {key : Key}
    (h : sender ∈ ((machine rocks opened).state (pre ++ [command] ++ mid)).owed key) :
    command = .notifyRead key sender := by
  obtain ⟨hmem, -⟩ := (mem_owed_iff hdb).mp h
  refine eq_of_sender hnodup (List.mem_append_left _ (by simp)) ?_ hs rfl
  exact ((List.prefix_append_right_inj _).mpr hmid).subset hmem

/-- The answer to a command that is answered at once is the only one to its sender. -/
theorem answers_at_once (hdb : rocks.Lawful opened)
    (hnodup : (senders (pre ++ [command] ++ post)).Nodup) (hs : command.sender = some sender)
    (hdone : ∀ key, command = .notifyRead key sender → lastWrite key pre ≠ none) :
    answers sender ((machine rocks opened).outputs (pre ++ [command] ++ post))
      = answers sender (handle rocks ((machine rocks opened).state pre) command).2 := by
  obtain ⟨hpre, hpost⟩ := notMem_senders hnodup hs
  rw [answers_stable hpost, Mealy.outputs_snoc, answers_append, answers_of_notMem hdb hpre]
  · rfl
  · intro mid key value hmid hmem
    have hcommand := eq_of_owed hdb hnodup hs ((List.prefix_append _ _).trans hmid) hmem
    refine hdone key hcommand (lastWrite_eq_none_iff.mpr fun value' hwrite => ?_)
    exact ((mem_owed_iff hdb).mp hmem).2 value'
      (List.mem_append_left _ (List.mem_append_left _ hwrite))

omit [DecidableEq S] in
/-- Until its key is written, the sender of a `NotifyRead` stays registered. -/
theorem owed_waiting (hdb : rocks.Lawful opened) {key : Key}
    (hpost : ∀ value, .write key value ∉ post) (hpre : lastWrite key pre = none) :
    sender ∈ ((machine rocks opened).state (pre ++ [.notifyRead key sender] ++ post)).owed key := by
  refine (mem_owed_iff hdb).mpr ⟨by simp, fun value h => ?_⟩
  rcases List.mem_append.mp h with h | h
  · exact lastWrite_eq_none_iff.mp hpre value (by simpa using h)
  · exact hpost value h

/-- Until its key is written, the sender of a `NotifyRead` is sent nothing. -/
theorem answers_waiting (hdb : rocks.Lawful opened) {key : Key}
    (hnodup : (senders (pre ++ [.notifyRead key sender] ++ post)).Nodup)
    (hmid : ∀ value, .write key value ∉ post) (hpre : lastWrite key pre = none) :
    answers sender ((machine rocks opened).outputs (pre ++ [.notifyRead key sender] ++ post))
      = [] := by
  obtain ⟨hnot, hpost⟩ := notMem_senders hnodup rfl
  rw [answers_stable hpost, Mealy.outputs_snoc, answers_append, answers_of_notMem hdb hnot,
    machine_step, handle, get_state hdb, hpre]
  · rfl
  · intro mid key' value hupto hmem
    have hcommand := eq_of_owed hdb hnodup rfl ((List.prefix_append _ _).trans hupto) hmem
    cases hcommand
    exact hmid value (hupto.subset (List.mem_append_right _ List.mem_cons_self))

/-- The first write of the key after it pays the sender of a `NotifyRead`, once and for all. -/
theorem answers_paid (hdb : rocks.Lawful opened) {key : Key} {value : Value}
    {mid : List (StoreCommand S)}
    (hnodup : (senders (pre ++ [.notifyRead key sender] ++ mid ++ [.write key value] ++ post)).Nodup)
    (hmid : ∀ value, .write key value ∉ mid) (hpre : lastWrite key pre = none) :
    answers sender (handle rocks ((machine rocks opened).state
        (pre ++ [.notifyRead key sender] ++ mid)) (.write key value)).2
      = [.notifyRead sender (.ok value)] ∧
    answers sender ((machine rocks opened).outputs
        (pre ++ [.notifyRead key sender] ++ mid ++ [.write key value] ++ post))
      = [.notifyRead sender (.ok value)] := by
  have hsplit : pre ++ [.notifyRead key sender] ++ mid ++ [.write key value] ++ post
      = pre ++ [.notifyRead key sender] ++ (mid ++ [.write key value] ++ post) := by simp
  have hnodupMid : (senders (pre ++ [.notifyRead key sender] ++ mid)).Nodup := by
    rw [senders_append, senders_append] at hnodup
    exact (List.nodup_append.mp (List.nodup_append.mp hnodup).1).1
  have hpaid : answers sender (handle rocks ((machine rocks opened).state
      (pre ++ [.notifyRead key sender] ++ mid)) (.write key value)).2
      = [.notifyRead sender (.ok value)] := by
    refine answers_handle_write ?_ (owed_waiting hdb hmid hpre)
    rw [owed_state hdb]
    split
    · exact (asked_sublist key _).nodup hnodupMid
    · exact List.nodup_nil
  refine ⟨hpaid, ?_⟩
  rw [hsplit] at hnodup
  have hfresh := (notMem_senders hnodup rfl).2
  rw [senders_append, List.mem_append, not_or] at hfresh
  rw [answers_stable hfresh.2, Mealy.outputs_snoc, answers_append,
    answers_waiting hdb hnodupMid hmid hpre, machine_step, hpaid]
  · rfl
  · -- the key is written: nothing is owed to the sender any more
    intro mid' key' value' hupto hmem
    obtain ⟨hasked, hnever⟩ := (mem_owed_iff hdb).mp hmem
    have hmid' : mid ++ [.write key value] ++ mid' <+: mid ++ [.write key value] ++ post :=
      (List.prefix_append_right_inj _).mpr ((List.prefix_append _ _).trans hupto)
    have hcommand := eq_of_owed hdb hnodup rfl hmid' (by simpa using hmem)
    cases hcommand
    exact hnever value (by simp)

end Command

/-- **Notifications are neither lost nor duplicated.**  Every `Read` is answered at once, with the
last value written under its key; every `NotifyRead` is answered once: at once if its key was written
before, and otherwise by the first write of its key, its sender being registered until then; and a
key that is owed to anyone was never written. -/
theorem notifications_exact (hdb : rocks.Lawful opened) (hnodup : (senders commands).Nodup) :
    (∀ pre key sender, pre ++ [.read key sender] <+: commands →
      (handle rocks ((machine rocks opened).state pre) (.read key sender)).2
          = [.read sender (.ok (lastWrite key pre))] ∧
        answers sender ((machine rocks opened).outputs commands)
          = [.read sender (.ok (lastWrite key pre))]) ∧
    (∀ pre key sender, pre ++ [.notifyRead key sender] <+: commands →
      (∀ value, lastWrite key pre = some value →
        (handle rocks ((machine rocks opened).state pre) (.notifyRead key sender)).2
            = [.notifyRead sender (.ok value)] ∧
          answers sender ((machine rocks opened).outputs commands)
            = [.notifyRead sender (.ok value)]) ∧
      (lastWrite key pre = none → ∀ mid, pre ++ [.notifyRead key sender] ++ mid <+: commands →
        (∀ value, .write key value ∉ mid) →
          answers sender ((machine rocks opened).outputs
              (pre ++ [.notifyRead key sender] ++ mid)) = [] ∧
            sender ∈ ((machine rocks opened).state
              (pre ++ [.notifyRead key sender] ++ mid)).owed key ∧
            ∀ value, pre ++ [.notifyRead key sender] ++ mid ++ [.write key value] <+: commands →
              answers sender (handle rocks ((machine rocks opened).state
                  (pre ++ [.notifyRead key sender] ++ mid)) (.write key value)).2
                = [.notifyRead sender (.ok value)] ∧
              answers sender ((machine rocks opened).outputs commands)
                = [.notifyRead sender (.ok value)])) ∧
    ∀ key sender, sender ∈ ((machine rocks opened).state commands).owed key →
      lastWrite key commands = none := by
  refine ⟨?_, ?_, fun key sender h => lastWrite_eq_none_iff.mpr ((mem_owed_iff hdb).mp h).2⟩
  · rintro pre key sender ⟨post, rfl⟩
    rw [answers_at_once hdb hnodup rfl fun _ h => (by cases h), handle, get_state hdb]
    exact ⟨rfl, by simp [answers, Reply.sender]⟩
  · rintro pre key sender ⟨post, rfl⟩
    refine ⟨fun value hvalue => ?_, fun hnone mid hmid hnever =>
      ⟨?_, owed_waiting hdb hnever hnone, ?_⟩⟩
    · have hdone : ∀ key', StoreCommand.notifyRead key sender = .notifyRead key' sender →
          lastWrite key' pre ≠ none := by
        rintro key' ⟨⟩
        rw [hvalue]
        exact Option.some_ne_none value
      rw [answers_at_once hdb hnodup rfl hdone, handle, get_state hdb, hvalue]
      exact ⟨rfl, by simp [answers, Reply.sender]⟩
    · obtain ⟨rest, hrest⟩ := hmid
      rw [← hrest, senders_append] at hnodup
      exact answers_waiting hdb (List.nodup_append.mp hnodup).1 hnever hnone
    · rintro value ⟨rest, hrest⟩
      rw [← hrest] at hnodup ⊢
      exact answers_paid hdb hnodup hnever hnone

/-! ## A key asked for twice -/

namespace AskedTwice

/-- A database in memory. -/
def memory : Database (HashMap Key Value) Unit where
  put db key value := (db.insert key value, .ok ())
  get db key := .ok (db.lookup key)

theorem lawful : memory.Lawful ∅ where
  get_opened _ := rfl
  get_put db key value key' found h := by
    obtain rfl := Except.ok.inj h
    exact congrArg Except.ok (AList.lookup_insert_eq db key key' value)

/-- Two senders wait for key `[7]`; another key is written first. -/
def session : List (StoreCommand ℕ) :=
  [.notifyRead [7] 0, .write [8] [1], .notifyRead [7] 1, .read [7] 2, .write [7] [5],
    .write [7] [6], .notifyRead [7] 3]

theorem session_answers :
    (senders session).Nodup ∧
      answers 1 ((machine memory ∅).outputs session) = [.notifyRead 1 (.ok [5])] ∧
      answers 2 ((machine memory ∅).outputs session) = [.read 2 (.ok none)] ∧
      answers 3 ((machine memory ∅).outputs session) = [.notifyRead 3 (.ok [6])] := by
  have hnodup : (senders session).Nodup := by decide
  obtain ⟨hread, hnotify, -⟩ := notifications_exact lawful hnodup
  refine ⟨hnodup, ?_, (hread (session.take 3) [7] 2 ⟨session.drop 4, rfl⟩).2, ?_⟩
  · exact (((hnotify (session.take 2) [7] 1 ⟨session.drop 3, rfl⟩).2 rfl [.read [7] 2]
      ⟨session.drop 4, rfl⟩ (by simp)).2.2 [5] ⟨session.drop 5, rfl⟩).2
  · exact ((hnotify (session.take 6) [7] 3 ⟨[], rfl⟩).1 [6] rfl).2

end AskedTwice

end Store

end Bullshark
