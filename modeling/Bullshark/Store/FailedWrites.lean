import Bullshark.Store.Commands

/-!
# Store/FailedWrites — a write that fails is announced as if it had succeeded

The command loop drops the result of `put` and pays the obligations of the key all the same.  So a
`NotifyRead` can be answered with a value that the database does not hold.  It happens exactly when
a `put` fails of a key that is owed to someone (`available_iff_durable`); the answers given at once
are read from the database and are always true.
-/

namespace Bullshark

namespace Store

variable {D E S : Type} {rocks : Database D E} {opened : D} {commands : List (StoreCommand S)}

/-- A `put` that succeeds writes one key, and one that fails writes nothing. -/
structure Database.Honest (rocks : Database D E) : Prop where
  get_put_ok : ∀ db key value key', (rocks.put db key value).2 = .ok () →
    rocks.get (rocks.put db key value).1 key'
      = if key' = key then .ok (some value) else rocks.get db key'
  get_put_error : ∀ db key value key' e, (rocks.put db key value).2 = .error e →
    rocks.get (rocks.put db key value).1 key' = rocks.get db key'

/-- **Answered means available**: when a `NotifyRead` of a key is answered with a value, a `Read` of
the key that is processed next returns it. -/
def Available (rocks : Database D E) (opened : D) (commands : List (StoreCommand S)) : Prop :=
  ∀ pre command, pre ++ [command] <+: commands → ∀ key sender value,
    .notifyRead key sender ∈ pre ++ [command] →
      .notifyRead sender (.ok value) ∈ (handle rocks ((machine rocks opened).state pre) command).2 →
        ∀ reader, (handle rocks ((machine rocks opened).state (pre ++ [command]))
          (.read key reader)).2 = [.read reader (.ok (some value))]

/-- A `put` does not fail where the key is owed to someone. -/
def Durable (rocks : Database D E) (task : Task D S) : StoreCommand S → Prop
  | .write key value => task.owed key ≠ [] → (rocks.put task.db key value).2 = .ok ()
  | _ => True

instance [DecidableEq S] [DecidableEq E] (task : Task D S) :
    ∀ command, Decidable (Durable rocks task command)
  | .write _ _ => inferInstanceAs (Decidable (_ → _ = _))
  | .read _ _ | .notifyRead _ _ => isTrue trivial

/-! ## Who waits -/

theorem handle_read (task : Task D S) (key : Key) (reader : S) :
    handle rocks task (.read key reader) = (task, [.read reader (rocks.get task.db key)]) := rfl

/-- What a `put` of another key leaves to be read. -/
theorem get_put_of_ne (hdb : rocks.Honest) {db : D} {key key' : Key} {value : Value}
    (hne : key' ≠ key) : rocks.get (rocks.put db key value).1 key' = rocks.get db key' := by
  cases hput : (rocks.put db key value).2 with
  | ok u => rw [hdb.get_put_ok db key value key' hput, if_neg hne]
  | error e => exact hdb.get_put_error db key value key' e hput

/-- The database after a turn. -/
theorem db_handle_write (task : Task D S) (key : Key) (value : Value) :
    (handle rocks task (.write key value)).1.db = (rocks.put task.db key value).1 := by
  rw [handle]
  split <;> rfl

theorem db_handle_notifyRead (task : Task D S) (key : Key) (sender : S) :
    (handle rocks task (.notifyRead key sender)).1.db = task.db := by
  rw [handle]
  split <;> rfl

/-- A `NotifyRead` registers its own sender at most, where the database has nothing. -/
theorem owed_handle_cases {task : Task D S} {key key' : Key} {sender sender' : S}
    (h : sender ∈ (handle rocks task (.notifyRead key' sender')).1.owed key) :
    sender ∈ task.owed key ∨
      (key = key' ∧ sender = sender' ∧ rocks.get task.db key = .ok none) := by
  cases hget : rocks.get task.db key' with
  | error e =>
    rw [handle, hget] at h
    exact Or.inl h
  | ok found =>
    rw [owed_handle_notifyRead _ key key' sender' hget] at h
    split at h
    · next hnew =>
      obtain ⟨rfl, rfl⟩ := hnew
      exact (List.mem_append.mp h).imp_right fun h => ⟨rfl, List.mem_singleton.mp h, hget⟩
    · exact Or.inl h

/-- **Who waits for a key asked for it, and the database does not have it.** -/
theorem waits (hdb : rocks.Honest) {key : Key} {sender : S}
    (h : sender ∈ ((machine rocks opened).state commands).owed key) :
    .notifyRead key sender ∈ commands ∧
      rocks.get ((machine rocks opened).state commands).db key = .ok none := by
  induction commands using List.reverseRecOn with
  | nil => cases h
  | append_singleton commands command ih =>
    rw [Mealy.state_snoc, machine_step] at h ⊢
    cases command with
    | write key' value =>
      rw [owed_handle_write] at h
      split at h
      · cases h
      · next hne =>
        obtain ⟨hasked, hget⟩ := ih h
        rw [db_handle_write, get_put_of_ne hdb hne]
        exact ⟨List.mem_append_left _ hasked, hget⟩
    | read key' s =>
      obtain ⟨hasked, hget⟩ := ih h
      exact ⟨List.mem_append_left _ hasked, hget⟩
    | notifyRead key' s =>
      rw [db_handle_notifyRead]
      rcases owed_handle_cases h with h | ⟨rfl, rfl, hget⟩
      · obtain ⟨hasked, hget⟩ := ih h
        exact ⟨List.mem_append_left _ hasked, hget⟩
      · exact ⟨List.mem_append_right _ List.mem_cons_self, hget⟩

/-! ## What is announced -/

/-- What a turn announces: a write the value written, to those its key is owed to, and a
`NotifyRead` what the database has, to its own sender. -/
theorem notified_cases {task : Task D S} {command : StoreCommand S} {sender : S} {value : Value}
    (h : .notifyRead sender (.ok value) ∈ (handle rocks task command).2) :
    (∃ key, command = .write key value ∧ sender ∈ task.owed key) ∨
      ∃ key, command = .notifyRead key sender ∧ rocks.get task.db key = .ok (some value) := by
  cases command with
  | write key value' =>
    rw [handle] at h
    split at h
    · next senders hlookup =>
      obtain ⟨s, hs, heq⟩ := List.mem_map.mp h
      cases heq
      exact Or.inl ⟨key, rfl, by rw [Task.owed, hlookup]; exact hs⟩
    · cases h
  | read key s => simp [handle] at h
  | notifyRead key s =>
    rw [handle] at h
    split at h
    · cases h
    · next value' hget =>
      cases List.mem_singleton.mp h
      exact Or.inr ⟨key, rfl, hget⟩
    · cases List.mem_singleton.mp h

/-- A write announces its value to everyone its key is owed to. -/
theorem mem_handle_write {task : Task D S} {key : Key} {sender : S} (value : Value)
    (h : sender ∈ task.owed key) :
    .notifyRead sender (.ok value) ∈ (handle rocks task (.write key value)).2 := by
  rw [Task.owed] at h
  rw [handle]
  cases hlookup : task.obligations.lookup key with
  | none =>
    rw [hlookup] at h
    cases h
  | some senders =>
    rw [hlookup] at h
    exact List.mem_map.mpr ⟨sender, h, rfl⟩

/-- **A value is announced that cannot be read exactly when a `put` fails of a key that is owed to
someone**: in every run of the store. -/
theorem available_iff_durable (hdb : rocks.Honest) (hnodup : (senders commands).Nodup) :
    Available rocks opened commands ↔ (machine rocks opened).Along (Durable rocks) commands := by
  constructor
  · intro h pre command hpre
    cases command with
    | write key value =>
      intro howed
      obtain ⟨sender, hsender⟩ := List.exists_mem_of_ne_nil _ howed
      obtain ⟨hasked, hnone⟩ := waits hdb hsender
      have hread := h pre _ hpre key sender value (List.mem_append_left _ hasked)
        (mem_handle_write value hsender) sender
      rw [Mealy.state_snoc, machine_step, handle_read, db_handle_write] at hread
      cases hput : (rocks.put ((machine rocks opened).state pre).db key value).2 with
      | ok u => rfl
      | error e =>
        -- nothing was written, and nothing was there before
        rw [hdb.get_put_error _ key value key e hput, hnone] at hread
        cases hread
    | read key s => trivial
    | notifyRead key s => trivial
  · intro h pre command hpre key sender value hasked hsent reader
    have hnodup' : (senders (pre ++ [command])).Nodup :=
      hnodup.sublist (hpre.sublist.filterMap _)
    rw [handle_read, Mealy.state_snoc, machine_step]
    rcases notified_cases hsent with ⟨key', rfl, howed⟩ | ⟨key', rfl, hget⟩
    · have hmem := List.mem_append_left [.write key' value] (waits hdb howed).1
      cases eq_of_sender hnodup' hasked hmem rfl rfl
      have hput := h pre _ hpre (List.ne_nil_of_mem howed)
      rw [db_handle_write, hdb.get_put_ok _ key value key hput, if_pos rfl]
    · have hmem : .notifyRead key' sender ∈ pre ++ [.notifyRead key' sender] :=
        List.mem_append_right _ List.mem_cons_self
      cases eq_of_sender hnodup' hasked hmem rfl rfl
      rw [db_handle_notifyRead, hget]

/-! ## A database whose writes fail -/

namespace Flaky

/-- A database in memory, beside which of the next writes fail. -/
def flaky : Database (HashMap Key Value × List Bool) Unit where
  put db key value :=
    match db.2 with
    | true :: failures => ((db.1, failures), .error ())
    | _ :: failures => ((db.1.insert key value, failures), .ok ())
    | [] => ((db.1.insert key value, []), .ok ())
  get db key := .ok (db.1.lookup key)

theorem honest : flaky.Honest where
  get_put_ok db key value key' hput := by
    obtain ⟨m, failures⟩ := db
    have hinsert : ∀ failures' : List Bool, flaky.get (m.insert key value, failures') key'
        = if key' = key then .ok (some value) else flaky.get (m, failures) key' := by
      intro failures'
      simp only [flaky, AList.lookup_insert_eq]
      split <;> rfl
    match failures with
    | [] => exact hinsert []
    | false :: failures => exact hinsert failures
    | true :: failures => cases hput
  get_put_error db key value key' e hput := by
    obtain ⟨m, failures⟩ := db
    match failures with
    | [] => cases hput
    | false :: failures => cases hput
    | true :: failures => rfl

/-- A waiter, then a write of its key. -/
def session : List (StoreCommand ℕ) := [.notifyRead [7] 0, .write [7] [5]]

/-- **The write fails, and is announced.** -/
theorem announced : ¬ Available flaky (∅, [true]) session := by
  intro h
  have hsent : .notifyRead 0 (.ok [5]) ∈ (handle flaky
      ((machine flaky (∅, [true])).state [.notifyRead [7] 0]) (.write [7] [5])).2 :=
    mem_handle_write [5] (by decide)
  have hread := h [.notifyRead [7] 0] (.write [7] [5]) List.prefix_rfl [7] 0 [5]
    List.mem_cons_self hsent 1
  cases hread

/-- The write that fails is of a key that nobody waits for. -/
theorem available_before : Available flaky (∅, [true]) (.write [7] [6] :: session) :=
  (available_iff_durable honest (by decide)).mpr (by decide)

end Flaky

end Store

end Bullshark
