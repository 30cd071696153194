import LayeredMultimap.Multimap.Bulk

/-!
# Operations

The operations on a multimap as data, with what each of them reports, so that runs of operations
can be spoken of.
-/

namespace LayeredMultimap

/-- What an operation reports. -/
inductive Report (K V : Type) where
  | done
  | flag (b : Bool)
  | count (n : Nat)
  | keys (ks : List K)
  | values (vs : List V)
  | bag (vs : Option (List V))
  | mappings (ps : List (K × V))
  | groups (gs : List (K × List V))
  | replies (rs : List (Reply V))
  | flags (fs : Option (Bool × Bool))
  | text (s : Option String)

/-- A question about the content of a multimap. -/
inductive Query (K V : Type) where
  | size
  | isEmpty
  | keyCount
  | containsKey (k : K)
  | containsValue (v : V)
  | containsMapping (k : K) (v : V)
  | get (k : K)
  | mappings
  | keys
  | values

/-- A query or a change of a multimap. The arguments of bulk insertions may be absent. -/
inductive Operation (E K V : Type) where
  | query (q : Query K V)
  | put (k : K) (v : V)
  | putValues (k : K) (vs : Option (Source E V))
  | putPairs (ps : Option (Source E (K × V)))
  | putFrom {d : Discipline} (other : Option (Multimap d E K V))
  | edit (k : K) (es : List (Edit V))
  | remove (k : K)
  | removeMapping (k : K) (v : V)
  | clear
  | drain

variable {d : Discipline} {E K V : Type} [Ord K] [DecidableEq V] [Ord V]

/-- The answer of a multimap to a query. -/
def Multimap.answer (m : Multimap d E K V) : Query K V → Report K V
  | .size => .count m.size
  | .isEmpty => .flag m.isEmpty
  | .keyCount => .count m.keyCount
  | .containsKey k => .flag (m.containsKey k)
  | .containsValue v => .flag (m.containsValue v)
  | .containsMapping k v => .flag (m.containsMapping k v)
  | .get k => .bag ((m.get? k).map Bag.toList)
  | .mappings => .mappings m.mappings
  | .keys => .keys m.keys
  | .values => .values m.values

/-- Runs an operation on a multimap. -/
def Multimap.operate [DecidableEq K] (m : Multimap d E K V) :
    Operation E K V → Outcome (Multimap d E K V) E (Report K V)
  | .query q => .ok (m.answer q) m
  | .put k v => (m.put k v).map .flag
  | .putValues k vs => (m.putValues? k vs).map .flag
  | .putPairs ps => (m.putPairs? ps).map .flag
  | .putFrom other => (m.putFrom? other).map .flag
  | .edit k es => (Outcome.ofPair (m.edit k es)).map .replies
  | .remove k => (Outcome.ofPair (m.remove k)).map fun b => .bag (b.map Bag.toList)
  | .removeMapping k v => (Outcome.ofPair (m.removeMapping k v)).map .flag
  | .clear => .ok .done m.clear
  | .drain =>
    (Outcome.ofPair m.drain).map fun gs => .groups (gs.map fun g => (g.1, g.2.toList))

end LayeredMultimap
