import LayeredMultimap.Transformer

/-!
# Layers

A layer transforms the mappings that are put through it: the key first, then the value. Where a
transformer is absent the input is kept and nothing is called.
-/

namespace LayeredMultimap

/-- The transformers of one layer. -/
structure Layer (E K V : Type) where
  key : Option (Transformer E K)
  value : Option (Transformer E V)

namespace Layer

variable {E K V : Type}

/-- The layer that changes nothing. -/
def empty : Layer E K V := ⟨none, none⟩

/-- Which transformers the layer has. -/
def flags (l : Layer E K V) : Bool × Bool := (l.key.isSome, l.value.isSome)

variable [DecidableEq K] [DecidableEq V]

/-- Transforms a key. -/
def passKey (l : Layer E K V) (k : K) : Attempt E K := Transformer.run? l.key k

/-- Transforms a value. -/
def passValue (l : Layer E K V) (v : V) : Attempt E V := Transformer.run? l.value v

/-- Transforms a mapping, the key before the value. -/
def pass (l : Layer E K V) (k : K) (v : V) : Attempt E (K × V) := do
  let k ← l.passKey k
  let v ← l.passValue v
  pure (k, v)

end Layer

end LayeredMultimap
