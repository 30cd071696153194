import LayeredMultimap.Builder
import LayeredMultimap.Proofs.Ghost.Operation
import LayeredMultimap.Proofs.Recast

/-!
# Recasts and builds on keys without values

A recast starts from the groups, in which ghosts have no part: it finds the same number of keys and
the same mappings, or none to recast. From there on it is a run of puts.
-/

namespace LayeredMultimap

/-- Traced computations with equal traces and related values. -/
structure Traced.Agree {E α : Type} (R : α → α → Prop) (x x' : Traced E α) : Prop where
  trace : x.trace = x'.trace
  value : R x.value x'.value

theorem Traced.Agree.after {E α : Type} {R : α → α → Prop} {x x' : Traced E α} (h : x.Agree R x')
    (t : List E) : (x.after t).Agree R (x'.after t) :=
  ⟨congrArg (t ++ ·) h.trace, h.value⟩

/-- Two successes or two failures, each with things that are related. -/
inductive EndsAlike {ε α : Type} (S : ε → ε → Prop) (R : α → α → Prop) :
    Except ε α → Except ε α → Prop
  | ok {a a' : α} (h : R a a') : EndsAlike S R (.ok a) (.ok a')
  | error {e e' : ε} (h : S e e') : EndsAlike S R (.error e) (.error e')

theorem EndsAlike.mapError {ε δ α : Type} {S : ε → ε → Prop} {R : α → α → Prop}
    {x x' : Except ε α} (h : EndsAlike S R x x') {T : δ → δ → Prop} {f : ε → δ}
    (hf : ∀ e e', S e e' → T (f e) (f e')) :
    EndsAlike T R (x.mapError f) (x'.mapError f) := by
  cases h with
  | ok h => exact .ok h
  | error h => exact .error (hf _ _ h)

variable {d : Discipline} {E K V : Type} [Ord K]

/-- Failed recasts that show the same error and hand back multimaps that differ in ghosts only. -/
structure RecastError.GhostEq (e e' : RecastError (Multimap d E K V)) : Prop where
  error : e.error = e'.error
  map : e.map.GhostEq e'.map

namespace Multimap

variable [DecidableEq K] [DecidableEq V] [Ord V] [Std.LawfulEqOrd K] [Std.TransOrd K]
  {m m' : Multimap d E K V}

theorem refill_ghostEq (h : m.GhostEq m') (ps : List (K × V)) :
    (refill ps m).GhostEq (refill ps m') := h.withContent (h.content.extend ps)

variable [Logging E]

theorem reinsert_agree (h : m.GhostEq m') (ps : List (K × V)) :
    (reinsert ps m).Agree (EndsAlike RecastError.GhostEq GhostEq) (reinsert ps m') := by
  induction ps generalizing m m' with
  | nil => exact ⟨rfl, .ok h⟩
  | cons p ps ih =>
    have hput := put_agree h p.1 p.2
    rw [reinsert, reinsert]
    simp only [← hput.result, ← hput.trace]
    cases (m.put p.1 p.2).result with
    | ok b => exact (ih hput.state).after _
    | error e => exact ⟨rfl, .error ⟨rfl, refill_ghostEq hput.state.unwrap ps⟩⟩

theorem recast_agree (h : m.GhostEq m') (l : Layer E K V) :
    (m.recast l).Agree (EndsAlike RecastError.GhostEq GhostEq) (m'.recast l) := by
  cases hempty : m.isEmpty with
  | true =>
    rw [recast_of_isEmpty hempty, recast_of_isEmpty (h.isEmpty_eq.symm.trans hempty)]
    exact ⟨rfl, .ok (.layered l h)⟩
  | false =>
    -- equal mappings would not do: the log is told the number of groups
    have hgroups : m.drain.1 = m'.drain.1 := h.content.groups_eq
    have hcleared : m.clear.GhostEq m'.clear :=
      h.withContent (Content.ghostEq_self Table.ascends_empty)
    rw [recast_of_isEmpty_eq_false hempty,
      recast_of_isEmpty_eq_false (h.isEmpty_eq.symm.trans hempty), ← hgroups]
    exact (reinsert_agree (.layered l hcleared) _).after _

end Multimap

/-! ## Builders -/

/-- Builders that differ at most in ghosts of their multimaps. -/
structure Builder.GhostEq (b b' : Builder d E K V) : Prop where
  map : Option.Rel Multimap.GhostEq b.map b'.map
  layer : b.layer = b'.layer
  existing : b.existing = b'.existing

variable [DecidableEq K] [DecidableEq V] [Ord V] [Std.LawfulEqOrd K] [Std.TransOrd K]

theorem Builder.build_agree [Logging E] {b b' : Builder d E K V} (h : b.GhostEq b') :
    b.build.Agree (EndsAlike Eq Multimap.GhostEq) b'.build := by
  obtain ⟨map, layer, existing⟩ := b
  obtain ⟨map', layer', existing'⟩ := b'
  obtain ⟨hmap, rfl, rfl⟩ := h
  cases hmap with
  | none => exact ⟨rfl, .error rfl⟩
  | @some m m' hm =>
    cases existing with
    | false => exact ⟨rfl, .ok (.layered layer hm)⟩
    | true =>
      obtain ⟨htrace, hvalue⟩ := Multimap.recast_agree hm layer
      exact ⟨congrArg (· ++ []) htrace, hvalue.mapError fun _ _ he => he.error⟩

end LayeredMultimap
