import LayeredMultimap.Bag

/-!
# Edits of a bag

The single operations on a bag as data, their replies, and runs of them.
-/

namespace LayeredMultimap

/-- One operation on a bag. -/
inductive Edit (V : Type) where
  | add (v : V)
  | remove (v : V)
  | contains (v : V)
  | size
  | isEmpty
  | list
  | drain
deriving DecidableEq

/-- What an edit reports. -/
inductive Reply (V : Type) where
  | flag (b : Bool)
  | count (n : Nat)
  | values (vs : List V)
deriving DecidableEq

namespace Bag

variable {d : Discipline} {V : Type} [DecidableEq V] [Ord V]

/-- The reply to one edit and the bag after it. Draining lists the values and leaves none. -/
def edit (b : Bag d V) : Edit V → Reply V × Bag d V
  | .add v => ((b.add v).map .flag id)
  | .remove v => ((b.remove v).map .flag id)
  | .contains v => (.flag (b.contains v), b)
  | .size => (.count b.size, b)
  | .isEmpty => (.flag b.isEmpty, b)
  | .list => (.values b.toList, b)
  | .drain => (.values b.toList, empty)

/-- The replies to a run of edits, each with the bag after it. -/
def history (b : Bag d V) : List (Edit V) → List (Reply V × Bag d V)
  | [] => []
  | e :: es => b.edit e :: (b.edit e).2.history es

def editAll (b : Bag d V) : List (Edit V) → Bag d V
  | [] => b
  | e :: es => (b.edit e).2.editAll es

def replies (b : Bag d V) (es : List (Edit V)) : List (Reply V) := (b.history es).map (·.1)

end Bag

end LayeredMultimap
