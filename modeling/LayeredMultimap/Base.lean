import LayeredMultimap.Content
import LayeredMultimap.Outcome

/-!
# Base maps

A base map is a content with a rule that may refuse mappings. The rule is asked by `put` only;
changes that work on bags directly are not subject to it.
-/

namespace LayeredMultimap

/-- A content and the rule that says which mappings `put` refuses, and why. -/
structure Base (d : Discipline) (E K V : Type) where
  content : Content d K V
  refusal : K → V → Traced E (Option String)

namespace Base

variable {d : Discipline} {E K V : Type}

/-- The base map that holds the content and refuses nothing. -/
def ofContent (c : Content d K V) : Base d E K V := ⟨c, fun _ _ => pure none⟩

variable [Ord K] [DecidableEq V] [Ord V]

/-- Puts a mapping, unless the rule refuses it; a refused mapping changes nothing. -/
def put (b : Base d E K V) (k : K) (v : V) : Outcome (Base d E K V) E Bool :=
  let asked := b.refusal k v
  match asked.value with
  | some cause => ⟨.error (.rejected cause), b, asked.trace⟩
  | none =>
    let added := b.content.add k v
    ⟨.ok added.1, { b with content := added.2 }, asked.trace⟩

end Base

end LayeredMultimap
