import LayeredMultimap.Multimap.Bulk

/-!
# Putting a layer around a multimap

A layer can be put around a multimap in two ways. `under` leaves the content as it is, so
that only later insertions are transformed. `recast` takes the content out and puts it back
through the new layer, mapping by mapping; `recastIn` does so with the groups in any order.

The first mapping that cannot be put back stops the recast. That mapping is lost; the mappings
after it go back into their bags as they were, past all layers and past the refusal rule, and the
multimap is handed back without the new layer.
-/

namespace LayeredMultimap.Multimap

variable {d : Discipline} {E K V : Type}

/-- The mappings of a list of groups, group by group, the values of a group in bag order. -/
def flatten (gs : List (K × Bag d V)) : List (K × V) :=
  gs.flatMap fun g => g.2.members.map (g.1, ·)

variable [DecidableEq K] [Ord K] [DecidableEq V] [Ord V]

/-- Adds mappings to their bags directly. -/
def refill (ps : List (K × V)) (m : Multimap d E K V) : Multimap d E K V :=
  m.withContent (m.content.extend ps)

/-- Puts mappings one after the other. At the first failure the mappings behind it go back into
the multimap under the outermost layer, which is handed back with the error. -/
def reinsert [Logging E] :
    List (K × V) → Multimap d E K V →
      Traced E (Except (RecastError (Multimap d E K V)) (Multimap d E K V))
  | [], m => pure (.ok m)
  | (k, v) :: r, m =>
    let o := m.put k v
    match o.result with
    | .ok _ => (reinsert r o.state).after o.trace
    | .error e =>
      ⟨o.trace ++ [Logging.logged (.stopped e)], .error ⟨e, refill r o.state.unwrap⟩⟩

/-- Puts a layer around a multimap whose content stays as it is. -/
def under (m : Multimap d E K V) (l : Layer E K V) : Multimap d E K V := .layered l m

/-- Recasts a multimap whose groups come in the order of `gs`. -/
def recastIn [Logging E] (m : Multimap d E K V) (l : Layer E K V) (gs : List (K × Bag d V)) :
    Traced E (Except (RecastError (Multimap d E K V)) (Multimap d E K V)) :=
  if m.isEmpty then pure (.ok (m.under l))
  else (reinsert (flatten gs) (m.drain.2.under l)).after [Logging.logged (.recasting gs.length)]

/-- Puts a layer around a multimap and recasts the content through it. -/
def recast [Logging E] (m : Multimap d E K V) (l : Layer E K V) :
    Traced E (Except (RecastError (Multimap d E K V)) (Multimap d E K V)) :=
  m.recastIn l m.drain.1

end LayeredMultimap.Multimap
