import LayeredMultimap.Error

/-!
# Outcomes of operations

An operation on a state comes to a result, a new state and a trace. A failed operation keeps the
state and the trace that it had reached: nothing is rolled back by itself, so that what a failing
operation leaves behind is part of its meaning. `andThen` runs one operation after another and stops
at a failure.
-/

namespace LayeredMultimap

/-- The result of an operation, the state that it leaves and the events that it caused. -/
@[ext]
structure Outcome (σ E α : Type) where
  result : Except MapError α
  state : σ
  trace : List E

namespace Outcome

variable {σ τ E α β γ : Type}

def ok (a : α) (s : σ) : Outcome σ E α := ⟨.ok a, s, []⟩

def fail (e : MapError) (s : σ) : Outcome σ E α := ⟨.error e, s, []⟩

/-- A change of the state that reports on itself. -/
def ofPair (p : α × σ) : Outcome σ E α := ok p.1 p.2

/-- An attempt beside a state, which it leaves as it is. -/
def ofAttempt (x : Attempt E α) (s : σ) : Outcome σ E α :=
  ⟨x.result.mapError .transform, s, x.trace⟩

/-- Views the state of an outcome as part of another one. -/
def mapState (f : σ → τ) (o : Outcome σ E α) : Outcome τ E α := ⟨o.result, f o.state, o.trace⟩

def map (f : α → β) (o : Outcome σ E α) : Outcome σ E β := ⟨o.result.map f, o.state, o.trace⟩

def after (t : List E) (o : Outcome σ E α) : Outcome σ E α := ⟨o.result, o.state, t ++ o.trace⟩

/-- Goes on with another operation, unless there was a failure. -/
def andThen (o : Outcome σ E α) (f : α → σ → Outcome σ E β) : Outcome σ E β :=
  match o.result with
  | .ok a => (f a o.state).after o.trace
  | .error e => ⟨.error e, o.state, o.trace⟩

/-! ## Equations -/

@[simp] theorem result_mapState (f : σ → τ) (o : Outcome σ E α) :
    (o.mapState f).result = o.result := rfl

@[simp] theorem state_mapState (f : σ → τ) (o : Outcome σ E α) :
    (o.mapState f).state = f o.state := rfl

@[simp] theorem trace_mapState (f : σ → τ) (o : Outcome σ E α) :
    (o.mapState f).trace = o.trace := rfl

@[simp] theorem result_map (f : α → β) (o : Outcome σ E α) :
    (o.map f).result = o.result.map f := rfl

@[simp] theorem state_map (f : α → β) (o : Outcome σ E α) : (o.map f).state = o.state := rfl

@[simp] theorem trace_map (f : α → β) (o : Outcome σ E α) : (o.map f).trace = o.trace := rfl

@[simp] theorem result_after (t : List E) (o : Outcome σ E α) :
    (o.after t).result = o.result := rfl

@[simp] theorem state_after (t : List E) (o : Outcome σ E α) : (o.after t).state = o.state := rfl

@[simp] theorem trace_after (t : List E) (o : Outcome σ E α) :
    (o.after t).trace = t ++ o.trace := rfl

theorem after_after (s t : List E) (o : Outcome σ E α) :
    (o.after t).after s = o.after (s ++ t) := by
  ext1 <;> simp

theorem andThen_of_ok {o : Outcome σ E α} {a : α} (h : o.result = .ok a)
    (f : α → σ → Outcome σ E β) : o.andThen f = (f a o.state).after o.trace := by
  simp only [andThen, h]

theorem andThen_of_error {o : Outcome σ E α} {e : MapError} (h : o.result = .error e)
    (f : α → σ → Outcome σ E β) : o.andThen f = ⟨.error e, o.state, o.trace⟩ := by
  simp only [andThen, h]

@[simp] theorem ok_andThen (a : α) (s : σ) (f : α → σ → Outcome σ E β) :
    (ok a s : Outcome σ E α).andThen f = f a s := rfl

@[simp] theorem after_andThen (t : List E) (o : Outcome σ E α) (f : α → σ → Outcome σ E β) :
    (o.after t).andThen f = (o.andThen f).after t := by
  cases h : o.result with
  | ok a =>
    rw [andThen_of_ok h, andThen_of_ok (by simpa using h), after_after]
    rfl
  | error e => rw [andThen_of_error h, andThen_of_error (by simpa using h)]; rfl

theorem andThen_andThen (o : Outcome σ E α) (f : α → σ → Outcome σ E β)
    (g : β → σ → Outcome σ E γ) :
    (o.andThen f).andThen g = o.andThen fun a s => (f a s).andThen g := by
  cases h : o.result with
  | ok a => rw [andThen_of_ok h, andThen_of_ok h, after_andThen]
  | error e => rw [andThen_of_error h, andThen_of_error h, andThen_of_error rfl]

theorem ofAttempt_andThen_of_ok {x : Attempt E α} {a : α} (h : x.result = .ok a) (s : σ)
    (f : α → σ → Outcome σ E β) : (ofAttempt x s).andThen f = (f a s).after x.trace := by
  simp only [andThen, ofAttempt, h]
  rfl

theorem ofAttempt_andThen_of_error {x : Attempt E α} {e : TransformFailure}
    (h : x.result = .error e) (s : σ) (f : α → σ → Outcome σ E β) :
    (ofAttempt x s).andThen f = ⟨.error (.transform e), s, x.trace⟩ := by
  simp only [andThen, ofAttempt, h]
  rfl

theorem ofAttempt_ofTraced (x : Traced E α) (s : σ) :
    ofAttempt (Attempt.ofTraced x) s = (ok x.value s).after x.trace := rfl

theorem map_after (f : α → β) (t : List E) (o : Outcome σ E α) :
    (o.after t).map f = (o.map f).after t := rfl

theorem mapState_after (f : σ → τ) (t : List E) (o : Outcome σ E α) :
    (o.after t).mapState f = (o.mapState f).after t := rfl

/-- Two runs whose continuations agree on the states that they reach. -/
theorem mapState_andThen {o : Outcome σ E α} {f : σ → τ} {g : α → σ → Outcome σ E β}
    {g' : α → τ → Outcome τ E β} (h : ∀ a, g' a (f o.state) = (g a o.state).mapState f) :
    (o.mapState f).andThen g' = (o.andThen g).mapState f := by
  cases ho : o.result with
  | ok a =>
    have ho' : (o.mapState f).result = .ok a := ho
    rw [andThen_of_ok ho, andThen_of_ok ho', state_mapState, h]
    rfl
  | error e =>
    have ho' : (o.mapState f).result = .error e := ho
    rw [andThen_of_error ho, andThen_of_error ho']
    rfl

end Outcome

end LayeredMultimap
