import LayeredMultimap.Multimap.Operation
import Mathlib.Data.List.Dedup

/-!
# Flat sequences of mappings

The plainest picture of a multimap: one sequence of mappings, oldest first, and nothing that is kept
by key. Every operation on a plain multimap is said here as an insertion into the sequence, a
deletion from it or a selection of some of it. Keys come in ascending order where they are listed,
and so do the values of a key, unless the discipline keeps sequences.
-/

namespace LayeredMultimap.Flat

variable {E K V : Type}

/-- The order in which the values of a key are listed. -/
def arrange [Ord V] : Discipline → List V → List V
  | .sequence, vs => vs
  | .distinct, vs => Ascending.sort vs
  | .ascending, vs => Ascending.sort vs

section Selection

variable [DecidableEq K]

/-- The values of a key. -/
def valuesOf (ps : List (K × V)) (k : K) : List V := (ps.filter (·.1 = k)).map (·.2)

/-- The mappings of the other keys. -/
def without (ps : List (K × V)) (k : K) : List (K × V) := ps.filter (·.1 ≠ k)

/-- The values of a key, if there are any. -/
def get? [Ord V] (d : Discipline) (ps : List (K × V)) (k : K) : Option (List V) :=
  if (valuesOf ps k).isEmpty then none else some (arrange d (valuesOf ps k))

variable [Ord K]

/-- The keys, each once. -/
def keys (ps : List (K × V)) : List K := Ascending.sort (ps.map (·.1)).dedup

variable [Ord V]

/-- The keys with their values. -/
def groups (d : Discipline) (ps : List (K × V)) : List (K × List V) :=
  (keys ps).map fun k => (k, arrange d (valuesOf ps k))

/-- The mappings, group by group. -/
def mappings (d : Discipline) (ps : List (K × V)) : List (K × V) :=
  (groups d ps).flatMap fun g => g.2.map (g.1, ·)

end Selection

variable [DecidableEq K] [DecidableEq V]

/-- Appends a mapping, unless it is there already and the discipline keeps single occurrences. -/
def insert (d : Discipline) (ps : List (K × V)) (p : K × V) : Bool × List (K × V) :=
  if d ≠ .sequence ∧ p ∈ ps then (false, ps) else (true, ps ++ [p])

/-- Inserts mappings one after the other, and says whether one of them was appended. -/
def insertAll (d : Discipline) (ps : List (K × V)) : List (K × V) → Bool × List (K × V)
  | [] => (false, ps)
  | q :: qs =>
    let inserted := insert d ps q
    let rest := insertAll d inserted.2 qs
    (inserted.1 || rest.1, rest.2)

variable [Ord V]

/-- One edit of the values of a key, as an insertion, a deletion or a read of its mappings. -/
def edit (d : Discipline) (k : K) (ps : List (K × V)) : Edit V → Reply V × List (K × V)
  | .add v => (insert d ps (k, v)).map .flag id
  | .remove v => (.flag (decide ((k, v) ∈ ps)), ps.erase (k, v))
  | .contains v => (.flag (decide ((k, v) ∈ ps)), ps)
  | .size => (.count (valuesOf ps k).length, ps)
  | .isEmpty => (.flag (valuesOf ps k).isEmpty, ps)
  | .list => (.values (arrange d (valuesOf ps k)), ps)
  | .drain => (.values (arrange d (valuesOf ps k)), without ps k)

/-- A run of edits of the values of a key, with their replies. -/
def edits (d : Discipline) (k : K) (ps : List (K × V)) :
    List (Edit V) → List (Reply V) × List (K × V)
  | [] => ([], ps)
  | e :: es =>
    let edited := edit d k ps e
    let rest := edits d k edited.2 es
    (edited.1 :: rest.1, rest.2)

variable [Ord K]

/-- The answer to a query. -/
def answer (d : Discipline) (ps : List (K × V)) : Query K V → Report K V
  | .size => .count ps.length
  | .isEmpty => .flag ps.isEmpty
  | .keyCount => .count (ps.map (·.1)).dedup.length
  | .containsKey k => .flag (decide (k ∈ ps.map (·.1)))
  | .containsValue v => .flag (decide (v ∈ ps.map (·.2)))
  | .containsMapping k v => .flag (decide ((k, v) ∈ ps))
  | .get k => .bag (get? d ps k)
  | .mappings => .mappings (mappings d ps)
  | .keys => .keys (keys ps)
  | .values => .values (Ascending.sort (ps.map (·.2)))

/-- What an insertion of several mappings reports, and the sequence after it. -/
def insertion (d : Discipline) (ps qs : List (K × V)) :
    Except MapError (Report K V) × List (K × V) :=
  (.ok (.flag (insertAll d ps qs).1), (insertAll d ps qs).2)

/-- What an operation comes to, and the sequence after it. -/
def operate (d : Discipline) (ps : List (K × V)) :
    Operation E K V → Except MapError (Report K V) × List (K × V)
  | .query q => (.ok (answer d ps q), ps)
  | .put k v => insertion d ps [(k, v)]
  | .putValues _ none => (.error (.nullArgument "values"), ps)
  | .putValues k (some vs) => insertion d ps (vs.items.map (k, ·))
  | .putPairs none => (.error (.nullArgument "map"), ps)
  | .putPairs (some qs) => insertion d ps qs.items
  | .putFrom none => (.error (.nullArgument "map"), ps)
  | .putFrom (some other) => insertion d ps other.mappings
  | .edit k es => (.ok (.replies (edits d k ps es).1), (edits d k ps es).2)
  | .remove k => (.ok (.bag (get? d ps k)), without ps k)
  | .removeMapping k v => (.ok (.flag (decide ((k, v) ∈ ps))), ps.erase (k, v))
  | .clear => (.ok .done, [])
  | .drain => (.ok (.groups (groups d ps)), [])

end LayeredMultimap.Flat
