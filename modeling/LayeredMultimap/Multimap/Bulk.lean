import LayeredMultimap.Multimap

/-!
# Bulk insertions

Bulk insertions take their items from a source, one at a time: an item is drawn when its turn
comes, and after a failure nothing more is drawn. What was inserted before a failure stays.

Mappings go through `put`. The values for a single key take a shorter way: they are transformed by
the outermost layer only and then added to the bag of the key directly, so that no inner layer sees
them and the base cannot refuse them.
-/

namespace LayeredMultimap

/-- Items that are drawn one after the other, each draw with its own events. -/
abbrev Source (E α : Type) := List (Traced E α)

namespace Source

variable {E α : Type}

/-- The source of a list whose draws go unnoticed. -/
def ofList (xs : List α) : Source E α := xs.map pure

/-- The source of a list that records an event for each draw. -/
def noted (note : α → E) (xs : List α) : Source E α :=
  xs.map fun x => do Traced.emit (note x); pure x

def items (s : Source E α) : List α := s.map (·.value)

def drawn (s : Source E α) : List E := s.flatMap (·.trace)

end Source

namespace Content

variable {d : Discipline} {E K V : Type} [Ord K] [DecidableEq V] [Ord V]

/-- Draws values, passes each through `f` and adds it under a key before the next one is drawn, up
to the first failure. Reports whether one of the additions changed the content. -/
def pour (c : Content d K V) (f : V → Attempt E V) (k : K) :
    Source E V → Outcome (Content d K V) E Bool
  | [] => .ok false c
  | s :: r =>
    ((Outcome.ofAttempt (f s.value) c).after s.trace).andThen fun v c =>
      let added := c.add k v
      (pour added.2 f k r).map (added.1 || ·)

end Content

namespace Multimap

variable {d : Discipline} {E K V : Type} [DecidableEq K] [Ord K] [DecidableEq V] [Ord V]

/-- Puts drawn mappings one after the other, up to the first failure. Reports whether one of them
changed the content. -/
def putPairs (m : Multimap d E K V) : Source E (K × V) → Outcome (Multimap d E K V) E Bool
  | [] => .ok false m
  | s :: r =>
    ((m.put s.value.1 s.value.2).after s.trace).andThen fun here m =>
      (m.putPairs r).map (here || ·)

/-- Puts every mapping of another multimap. -/
def putFrom {d' : Discipline} (m : Multimap d E K V) (other : Multimap d' E K V) :
    Outcome (Multimap d E K V) E Bool :=
  m.putPairs (Source.ofList other.mappings)

/-- Adds drawn values under one key. The key and the first value are transformed before the
content is touched, so that a failure up to there leaves no trace of the key. -/
def putValues (m : Multimap d E K V) (k : K) :
    Source E V → Outcome (Multimap d E K V) E Bool
  | [] => .ok false m
  | s :: r =>
    ((Outcome.ofAttempt (m.outer.passKey k) m).after s.trace).andThen fun k m =>
      m.onContent fun c => c.pour m.outer.passValue k (pure s.value :: r)

/-! ## Arguments that may be absent -/

def putValues? (m : Multimap d E K V) (k : K) :
    Option (Source E V) → Outcome (Multimap d E K V) E Bool
  | none => .fail (.nullArgument "values") m
  | some vs => m.putValues k vs

def putPairs? (m : Multimap d E K V) :
    Option (Source E (K × V)) → Outcome (Multimap d E K V) E Bool
  | none => .fail (.nullArgument "map") m
  | some ps => m.putPairs ps

def putFrom? {d' : Discipline} (m : Multimap d E K V) :
    Option (Multimap d' E K V) → Outcome (Multimap d E K V) E Bool
  | none => .fail (.nullArgument "map") m
  | some other => m.putFrom other

end Multimap

end LayeredMultimap
