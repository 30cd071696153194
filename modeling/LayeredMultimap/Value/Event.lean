import LayeredMultimap.Base
import LayeredMultimap.Value.Functions

/-!
# Events over dynamic values

What the functions of a multimap over dynamic values can be seen to do: predicates and transformers
that tell of their inputs, sources that tell of their items, and the log.
-/

namespace LayeredMultimap

/-- Something that is seen to happen. -/
inductive Event where
  | called (id : String) (input : Option Value)
  | drew (v : Value)
  | drewMapping (k v : Value)
  | logged (r : LogRecord)

instance : Logging Event := ⟨.logged⟩

instance : ToString Value := ⟨Value.text⟩

namespace Refusal

/-- The reason for which a mapping is refused. -/
def describe (k v : Value) : String := k.text ++ " => " ++ v.text

/-- Refuses the mappings of which the condition holds for the chosen part. -/
def byPart (part : Value → Value → Value) (p : Condition Event Value) (k v : Value) :
    Traced Event (Option String) := do
  if ← p.test (part k v) then pure (some (describe k v)) else pure none

/-- Refuses keys. -/
def ofKey : Condition Event Value → Value → Value → Traced Event (Option String) :=
  byPart fun k _ => k

/-- Refuses values. -/
def ofValue : Condition Event Value → Value → Value → Traced Event (Option String) :=
  byPart fun _ v => v

end Refusal

end LayeredMultimap
