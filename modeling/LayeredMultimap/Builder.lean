import LayeredMultimap.Multimap.Recast

/-!
# Building a layered multimap

A builder collects a multimap, the transformers of a layer and the choice whether the content is
recast. Building puts the layer around the multimap, or fails if there is none.
-/

namespace LayeredMultimap

/-- What has been set so far for a new layered multimap. -/
structure Builder (d : Discipline) (E K V : Type) where
  map : Option (Multimap d E K V)
  layer : Layer E K V
  existing : Bool

/-- One setting of a builder. -/
inductive Setting (d : Discipline) (E K V : Type) where
  | map (m : Multimap d E K V)
  | key (t : Transformer E K)
  | value (t : Transformer E V)
  | existing (b : Bool)

namespace Builder

variable {d : Discipline} {E K V : Type}

def new : Builder d E K V := ⟨none, .empty, false⟩

/-- Sets one thing and leaves the others as they are. -/
def set (b : Builder d E K V) : Setting d E K V → Builder d E K V
  | .map m => { b with map := some m }
  | .key t => { b with layer := { b.layer with key := some t } }
  | .value t => { b with layer := { b.layer with value := some t } }
  | .existing e => { b with existing := e }

def setAll (b : Builder d E K V) (ss : List (Setting d E K V)) : Builder d E K V := ss.foldl set b

variable [DecidableEq K] [Ord K] [DecidableEq V] [Ord V] [Logging E]

/-- Puts the layer around the multimap. A failed recast gives its error only. -/
def build (b : Builder d E K V) : Traced E (Except MapError (Multimap d E K V)) :=
  match b.map with
  | none => pure (.error (.nullArgument "map"))
  | some m =>
    if b.existing then do
      return (← m.recast b.layer).mapError (·.error)
    else pure (.ok (m.under b.layer))

end Builder

end LayeredMultimap
