import Mathlib.Data.List.Basic

/-!
# Machinery/Handler — computations that change a state, emit messages and may fail

A handler runs from a state to an outcome: a result, the messages it emitted and the state it left.
A failure keeps what was done before it.  `Traces E x s log` says that running `x` from `s` is a
sequence of elementary effects `E`, where an effect may look at everything emitted so far;
`Trace.invariant` is the induction over such a sequence.
-/

/-- What a run of a handler leaves behind. -/
structure Outcome (σ ω ε α : Type) where
  result : Except ε α
  emitted : List ω
  state : σ

/-- The outcome of a run that goes on after `w` was emitted. -/
def Outcome.after {σ ω ε α : Type} (o : Outcome σ ω ε α) (w : List ω) : Outcome σ ω ε α :=
  ⟨o.result, w ++ o.emitted, o.state⟩

/-- A computation on a state `σ` that emits `ω`s and may fail with an `ε`. -/
structure Handler (σ ω ε α : Type) where
  run : σ → Outcome σ ω ε α

namespace Handler

variable {σ ω ε α β : Type}

instance : Monad (Handler σ ω ε) where
  pure a := ⟨fun s => ⟨.ok a, [], s⟩⟩
  bind x f := ⟨fun s =>
    match x.run s with
    | ⟨.error e, w, s'⟩ => ⟨.error e, w, s'⟩
    | ⟨.ok a, w, s'⟩ => ((f a).run s').after w⟩

/-- Read the state. -/
def get : Handler σ ω ε σ := ⟨fun s => ⟨.ok s, [], s⟩⟩

/-- Change the state. -/
def modify (f : σ → σ) : Handler σ ω ε Unit := ⟨fun s => ⟨.ok (), [], f s⟩⟩

/-- Emit one message. -/
def emit (m : ω) : Handler σ ω ε Unit := ⟨fun s => ⟨.ok (), [m], s⟩⟩

/-- Fail. -/
def throw (e : ε) : Handler σ ω ε α := ⟨fun s => ⟨.error e, [], s⟩⟩

/-- Replace the failures of a handler. -/
def mapError (f : ε → ε) (x : Handler σ ω ε α) : Handler σ ω ε α := ⟨fun s =>
  match x.run s with
  | ⟨.error e, w, s'⟩ => ⟨.error (f e), w, s'⟩
  | ⟨.ok a, w, s'⟩ => ⟨.ok a, w, s'⟩⟩

/-- A computation that reads nothing and emits nothing: `?` on a value at hand. -/
def ofExcept {ε' : Type} (f : ε' → ε) : Except ε' α → Handler σ ω ε α
  | .error e => throw (f e)
  | .ok a => pure a

/-! ## Running a handler -/

variable {s : σ}

@[simp] theorem run_pure (a : α) : (pure a : Handler σ ω ε α).run s = ⟨.ok a, [], s⟩ := rfl

@[simp] theorem run_get : (get : Handler σ ω ε σ).run s = ⟨.ok s, [], s⟩ := rfl

@[simp] theorem run_modify (f : σ → σ) :
    (modify f : Handler σ ω ε Unit).run s = ⟨.ok (), [], f s⟩ := rfl

@[simp] theorem run_emit (m : ω) :
    (emit m : Handler σ ω ε Unit).run s = ⟨.ok (), [m], s⟩ := rfl

@[simp] theorem run_throw (e : ε) :
    (throw e : Handler σ ω ε α).run s = ⟨.error e, [], s⟩ := rfl

/-- The outcome of two handlers, one after the other. -/
theorem run_bind_ok {x : Handler σ ω ε α} {f : α → Handler σ ω ε β} {a : α} {w : List ω} {s' : σ}
    (h : x.run s = ⟨.ok a, w, s'⟩) : (x >>= f).run s = ((f a).run s').after w := by
  simp only [bind, h]

/-- The same, where the first emits nothing. -/
theorem run_bind_silent {x : Handler σ ω ε α} {f : α → Handler σ ω ε β} {a : α} {s' : σ}
    (h : x.run s = ⟨.ok a, [], s'⟩) : (x >>= f).run s = (f a).run s' := by
  rw [run_bind_ok h]
  rfl

/-- A failure of the first is the outcome of both. -/
theorem run_bind_error {x : Handler σ ω ε α} {f : α → Handler σ ω ε β} {e : ε} {w : List ω}
    {s' : σ} (h : x.run s = ⟨.error e, w, s'⟩) : (x >>= f).run s = ⟨.error e, w, s'⟩ := by
  simp only [bind, h]

/-- What follows a handler may be replaced where it is run. -/
theorem run_bind_congr {x : Handler σ ω ε α} {f g : α → Handler σ ω ε β}
    (h : ∀ a w s', x.run s = ⟨.ok a, w, s'⟩ → (f a).run s' = (g a).run s') :
    (x >>= f).run s = (x >>= g).run s := by
  rcases hr : x.run s with ⟨e | a, w, s'⟩
  · rw [run_bind_error hr, run_bind_error hr]
  · rw [run_bind_ok hr, run_bind_ok hr, h a w s' hr]

/-- A handler may be replaced by one with the same outcome. -/
theorem run_bind_congr_left {x y : Handler σ ω ε α} {f : α → Handler σ ω ε β}
    (h : x.run s = y.run s) : (x >>= f).run s = (y >>= f).run s := by
  simp only [bind, h]

theorem run_mapError_congr {x y : Handler σ ω ε α} {f : ε → ε} (h : x.run s = y.run s) :
    (mapError f x).run s = (mapError f y).run s := by
  simp only [mapError, h]

theorem run_mapError_ok {x : Handler σ ω ε α} {f : ε → ε} {a : α} {w : List ω} {s' : σ}
    (h : x.run s = ⟨.ok a, w, s'⟩) : (mapError f x).run s = ⟨.ok a, w, s'⟩ := by
  simp only [mapError, h]

theorem state_mapError (x : Handler σ ω ε α) (f : ε → ε) :
    ((mapError f x).run s).state = (x.run s).state := by
  rcases h : x.run s with ⟨_ | _, w, s'⟩ <;> simp only [mapError, h]

/-! ## Handlers as sequences of effects -/

/-- A sequence of effects from `s`: what it emits and where it leads.  An effect `E s log w s'`
takes `s` to `s'` and emits `w`, where `log` was emitted before. -/
inductive Trace (E : σ → List ω → List ω → σ → Prop) (s : σ) (log : List ω) : List ω → σ → Prop
  | nil : Trace E s log [] s
  | snoc {w w' : List ω} {s' s'' : σ} :
      Trace E s log w s' → E s' (log ++ w) w' s'' → Trace E s log (w ++ w') s''

namespace Trace

variable {E : σ → List ω → List ω → σ → Prop} {log w w' : List ω} {s' s'' : σ}

theorem single (h : E s log w s') : Trace E s log w s' :=
  List.nil_append w ▸ nil.snoc (by rwa [List.append_nil])

theorem trans (h : Trace E s log w s') (h' : Trace E s' (log ++ w) w' s'') :
    Trace E s log (w ++ w') s'' := by
  induction h' with
  | nil => rwa [List.append_nil]
  | snoc _ hE ih =>
    rw [← List.append_assoc]
    exact ih.snoc (by rwa [← List.append_assoc])

/-- **Induction over a sequence of effects**: what every effect keeps holds at the end. -/
theorem invariant {P : σ → List ω → Prop}
    (hE : ∀ s log w s', P s log → E s log w s' → P s' (log ++ w)) (h : Trace E s log w s')
    (h0 : P s log) : P s' (log ++ w) := by
  induction h with
  | nil => rwa [List.append_nil]
  | snoc _ hstep ih =>
    rw [← List.append_assoc]
    exact hE _ _ _ _ ih hstep

/-- What a sequence of effects emits, one of them emits, from a state that has what every effect
keeps. -/
theorem exists_of_mem {P : σ → List ω → Prop}
    (hE : ∀ s log w s', P s log → E s log w s' → P s' (log ++ w)) (h : Trace E s log w s')
    (h0 : P s log) {m : ω} (hm : m ∈ w) :
    ∃ s₁ log₁ w₁ s₂, P s₁ log₁ ∧ E s₁ log₁ w₁ s₂ ∧ m ∈ w₁ := by
  induction h with
  | nil => cases hm
  | snoc ht hstep ih =>
    rcases List.mem_append.mp hm with hm | hm
    · exact ih hm
    · exact ⟨_, _, _, _, ht.invariant hE h0, hstep, hm⟩

end Trace

/-- Running `x` from `s`, after `log` was emitted, is a sequence of effects. -/
def Traces (E : σ → List ω → List ω → σ → Prop) (x : Handler σ ω ε α) (s : σ) (log : List ω) :
    Prop := Trace E s log (x.run s).emitted (x.run s).state

section Traces

variable {E : σ → List ω → List ω → σ → Prop} {log : List ω} {x : Handler σ ω ε α}

/-- The trace of a run whose outcome is known. -/
theorem Traces.of_run {o : Outcome σ ω ε α} (hr : x.run s = o)
    (h : Trace E s log o.emitted o.state) : Traces E x s log := by
  rwa [Traces, hr]

theorem traces_pure (a : α) : Traces E (pure a : Handler σ ω ε α) s log := .nil

theorem traces_emit {m : ω} (h : E s log [m] s) :
    Traces E (emit m : Handler σ ω ε Unit) s log := .single h

theorem traces_mapError {f : ε → ε} (h : Traces E x s log) : Traces E (mapError f x) s log := by
  unfold Traces mapError at *
  rcases hx : x.run s with ⟨_ | _, w, s'⟩ <;> simpa [hx] using h

/-- A handler and what follows it, each a sequence of effects. -/
theorem traces_bind {f : α → Handler σ ω ε β} (hx : Traces E x s log)
    (hf : ∀ a w s', x.run s = ⟨.ok a, w, s'⟩ → Traces E (f a) s' (log ++ w)) :
    Traces E (x >>= f) s log := by
  rcases hr : x.run s with ⟨e | a, w, s'⟩
  · unfold Traces at *
    rw [run_bind_error hr]
    rwa [hr] at hx
  · have hrest := hf a w s' hr
    unfold Traces at *
    rw [run_bind_ok hr]
    rw [hr] at hx
    exact hx.trans hrest

end Traces

end Handler
