import LayeredMultimap.Trace

/-!
# Predicates

Predicates are built from leaves by the logical combinators. The leaves of a predicate over given
inputs compare the input or ask a function about it; over inputs that may be absent they can also
ask about absence, and refer to a predicate over given inputs for the rest.

Conjunctions and disjunctions are tested from left to right and stop at the operand that decides,
so a predicate stands for an answer and for the sequence of leaf tests that leads to it.
-/

namespace LayeredMultimap

/-- Predicates over leaves `L`. -/
inductive Predicate (L : Type) where
  | leaf (l : L)
  | constant (b : Bool)
  | not (p : Predicate L)
  | and (p q : Predicate L)
  | or (p q : Predicate L)
  | all (ps : List (Predicate L))
  | any (ps : List (Predicate L))

/-- Leaves that answer about inputs of type `I`, causing events of type `E`. -/
class Leaf (L : Type) (I E : outParam Type) where
  ask : L → I → Traced E Bool

namespace Predicate

variable {L I E : Type} [Leaf L I E]

mutual

/-- The answer of a predicate about an input; only the leaf tests that it needs happen. -/
def test : Predicate L → I → Traced E Bool
  | .leaf l, x => Leaf.ask l x
  | .constant b, _ => pure b
  | .not p, x => do return !(← p.test x)
  | .and p q, x => do if ← p.test x then q.test x else pure false
  | .or p q, x => do if ← p.test x then pure true else q.test x
  | .all ps, x => testAll ps x
  | .any ps, x => testAny ps x

/-- Whether every predicate of a list holds, asked up to the first that does not. -/
def testAll : List (Predicate L) → I → Traced E Bool
  | [], _ => pure true
  | p :: ps, x => do if ← p.test x then testAll ps x else pure false

/-- Whether some predicate of a list holds, asked up to the first that does. -/
def testAny : List (Predicate L) → I → Traced E Bool
  | [], _ => pure false
  | p :: ps, x => do if ← p.test x then pure true else testAny ps x

end

def evaluate (p : Predicate L) (x : I) : Traced E Bool := p.test x

end Predicate

/-! ## Leaves over given inputs -/

/-- Leaves of a predicate over given inputs. -/
inductive Check (E α : Type) where
  | equal (v : α)
  | ask (f : α → Traced E Bool)

instance {E α : Type} [DecidableEq α] : Leaf (Check E α) α E where
  ask
    | .equal v, x => pure (decide (x = v))
    | .ask f, x => f x

abbrev Condition (E α : Type) := Predicate (Check E α)

namespace Condition

variable {E α : Type}

def equal (v : α) : Condition E α := .leaf (.equal v)

def satisfies (f : α → Bool) : Condition E α := .leaf (.ask fun x => pure (f x))

end Condition

/-! ## Leaves over inputs that may be absent -/

/-- Leaves of a predicate over inputs that may be absent. The last two ask a predicate about the
input that is there, and settle the absent input without asking it. -/
inductive OptionalCheck (E α : Type) where
  | plain (c : Check E (Option α))
  | absent
  | present
  | absentOr (p : Condition E α)
  | presentAnd (p : Condition E α)

instance {E α : Type} [DecidableEq α] : Leaf (OptionalCheck E α) (Option α) E where
  ask
    | .plain c, x => Leaf.ask c x
    | .absent, x => pure x.isNone
    | .present, x => pure x.isSome
    | .absentOr _, none => pure true
    | .absentOr p, some x => p.test x
    | .presentAnd _, none => pure false
    | .presentAnd p, some x => p.test x

abbrev OptionalCondition (E α : Type) := Predicate (OptionalCheck E α)

namespace Predicate

variable {E α : Type} [DecidableEq α]

/-- Records an event before each test of a predicate over given inputs. -/
def noted (note : α → E) (p : Condition E α) : Condition E α :=
  .leaf (.ask fun x => do Traced.emit (note x); p.test x)

/-- Records an event before each test of a predicate over inputs that may be absent. -/
def notedOptional (note : Option α → E) (p : OptionalCondition E α) : OptionalCondition E α :=
  .leaf (.plain (.ask fun x => do Traced.emit (note x); p.test x))

end Predicate

end LayeredMultimap
