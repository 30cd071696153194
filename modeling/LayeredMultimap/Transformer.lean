import LayeredMultimap.Predicate

/-!
# Transformers

A transformer turns a value into another value of the same type or fails with a message. An
attempt is a traced computation that can fail; the events before a failure are kept, and nothing
happens after it.
-/

namespace LayeredMultimap

/-- Why a transformer gave no value. -/
structure TransformFailure where
  cause : String
deriving DecidableEq

namespace TransformFailure

def message (e : TransformFailure) : String := "Transformer failed: " ++ e.cause

end TransformFailure

/-- Traced computations that can fail. -/
abbrev Attempt (E : Type) := ExceptT TransformFailure (Traced E)

namespace Attempt

variable {E α : Type}

def ofTraced (x : Traced E α) : Attempt E α := ExceptT.lift x

def trace (x : Attempt E α) : List E := Traced.trace x.run

def result (x : Attempt E α) : Except TransformFailure α := Traced.value x.run

end Attempt

/-- Transformers of values of type `α` whose calls cause events of type `E`. -/
inductive Transformer (E α : Type) where
  | nop
  | const (v : α)
  | call (f : α → Attempt E α)
  | chain (first next : Transformer E α)
  | branch (p : Condition E α) (yes no : Transformer E α)

namespace Transformer

variable {E α : Type}

/-- The outcome of a transformer on an input. A chain hands the result of its first part to the
next one; a branch asks its condition about the input once, before either side runs. -/
def run [DecidableEq α] : Transformer E α → α → Attempt E α
  | .nop, x => pure x
  | .const v, _ => pure v
  | .call f, x => f x
  | .chain a b, x => do
    let y ← a.run x
    b.run y
  | .branch p a b, x => do
    if ← Attempt.ofTraced (p.test x) then a.run x else b.run x

/-- The outcome of a transformer that may be absent; without one the input is kept. -/
def run? [DecidableEq α] : Option (Transformer E α) → α → Attempt E α
  | none, x => pure x
  | some t, x => t.run x

def ofFunction (f : α → α) : Transformer E α := .call fun x => pure (f x)

def ofFallible (f : α → Except TransformFailure α) : Transformer E α :=
  .call fun x => ExceptT.mk (pure (f x))

/-- Lets the inputs pass that satisfy the condition and fails with `cause` on the others. -/
def require [DecidableEq α] (p : Condition E α) (cause : String) : Transformer E α :=
  .call fun x => do
    if ← Attempt.ofTraced (p.test x) then pure x else throw ⟨cause⟩

/-- Records an event before each call. -/
def noted [DecidableEq α] (note : α → E) (t : Transformer E α) : Transformer E α :=
  .call fun x => do
    Attempt.ofTraced (Traced.emit (note x))
    t.run x

end Transformer

end LayeredMultimap
