import LayeredMultimap.Bag.Edit
import LayeredMultimap.Table

/-!
# The content of a multimap

The content is a table from keys to bags. A key may be left with an empty bag; such a key is not
reported by any read, and a change that empties the bag of a key drops the key.

## Reads

`size`, `keyCount`, `containsKey`, `containsValue`, `containsMapping`, `get?`, `mappings`, `keys`,
`values` and `groups`.

## Changes

`add`, `extend`, `edit`, `remove`, `removeMapping` and `drain`, each with its report.
-/

namespace LayeredMultimap

/-- Bags of values by key. -/
abbrev Content (d : Discipline) (K V : Type) := Table K (Bag d V)

namespace Content

variable {d : Discipline} {K V : Type}

/-- The number of mappings. -/
def size (c : Content d K V) : Nat := c.entries.foldr (fun e n => e.2.size + n) 0

def isEmpty (c : Content d K V) : Bool := c.size == 0

/-- The keys that have values, each with its bag. -/
def groups (c : Content d K V) : List (K × Bag d V) := c.entries.filter fun e => !e.2.isEmpty

/-- The number of keys that have values. -/
def keyCount (c : Content d K V) : Nat := c.entries.countP fun e => !e.2.isEmpty

def keys (c : Content d K V) : List K := c.groups.map (·.1)

/-- Whether some key has the value. -/
def containsValue [DecidableEq V] (c : Content d K V) (v : V) : Bool :=
  c.entries.any fun e => e.2.contains v

/-- The key-value mappings; a key comes once per value. -/
def mappings [Ord V] (c : Content d K V) : List (K × V) :=
  c.entries.flatMap fun e => e.2.toList.map (e.1, ·)

/-- All values of all keys in ascending order. -/
def values [Ord V] (c : Content d K V) : List V :=
  Ascending.sort (c.entries.flatMap (·.2.toList))

/-- All keys with their values, those with an empty bag included. -/
def listing [Ord V] (c : Content d K V) : List (K × List V) :=
  c.entries.map fun e => (e.1, e.2.toList)

section Lookup

variable [Ord K]

/-- The bag of a key, if it has values. -/
def get? (c : Content d K V) (k : K) : Option (Bag d V) :=
  (c.find? k).filter fun b => !b.isEmpty

/-- Whether a key has values. -/
def containsKey (c : Content d K V) (k : K) : Bool := (c.find? k).any fun b => !b.isEmpty

def containsMapping [DecidableEq V] (c : Content d K V) (k : K) (v : V) : Bool :=
  (c.find? k).any fun b => b.contains v

/-- The bag to work on for a key: its own one or a new one. -/
def bag (c : Content d K V) (k : K) : Bag d V := (c.find? k).getD .empty

/-- Drops a key and hands its bag out, if it had values. -/
def remove (c : Content d K V) (k : K) : Option (Bag d V) × Content d K V :=
  (c.get? k, c.erase k)

/-- Takes one occurrence of a mapping out, and says whether there was one. A key that is left
without values is dropped. -/
def removeMapping [DecidableEq V] (c : Content d K V) (k : K) (v : V) : Bool × Content d K V :=
  match c.find? k with
  | none => (false, c)
  | some b =>
    let removed := b.remove v
    (removed.1, if removed.2.isEmpty then c.erase k else c.insert k removed.2)

/-- Hands all groups out and leaves nothing. -/
def drain (c : Content d K V) : List (K × Bag d V) × Content d K V := (c.groups, .empty)

variable [DecidableEq V] [Ord V]

/-- Adds a value under a key, and says whether the content changed. -/
def add (c : Content d K V) (k : K) (v : V) : Bool × Content d K V :=
  let added := (c.bag k).add v
  (added.1, c.insert k added.2)

def extend (c : Content d K V) : List (K × V) → Content d K V
  | [] => c
  | (k, v) :: r => (c.add k v).2.extend r

def ofMappings (ps : List (K × V)) : Content d K V := extend .empty ps

/-- Edits the bag of a key, which is created if need be and stays, even if it is empty. -/
def edit (c : Content d K V) (k : K) (es : List (Edit V)) : List (Reply V) × Content d K V :=
  ((c.bag k).replies es, c.insert k ((c.bag k).editAll es))

/-- Gives a key an empty bag if it has none. -/
def touch (c : Content d K V) (k : K) : Content d K V := (c.edit k []).2

end Lookup

end Content

end LayeredMultimap
