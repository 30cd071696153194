import LayeredMultimap.Predicate
import Mathlib.Data.Bool.Basic

/-!
# Connectives of traced answers

A conjunction asks on while the answers are `true`, a disjunction while they are `false`. Both are
`Traced.join`, for the answer that leaves the matter open. For each of the two answers `join` makes
traced answers a monoid with that answer as its unit, and negation takes one of these monoids to the
other (`Traced.negateIf_join`). The tests of conjunctions, disjunctions and their forms over lists
are told in these terms here, so that no other module looks into them.
-/

namespace LayeredMultimap

namespace Traced

variable {E : Type} {unit : Bool} {a : Traced E Bool}

/-- Asks `a`, and then `b` if the answer is `unit`, which leaves the matter open. -/
def join (unit : Bool) (a b : Traced E Bool) : Traced E Bool := do
  if (← a) = unit then b else pure !unit

/-- Asks one after the other up to the first answer that is not `unit`. -/
def joinAll (unit : Bool) (as : List (Traced E Bool)) : Traced E Bool :=
  as.foldr (join unit) (pure unit)

/-- Asks `a` and turns the answer round, if it is to be negated. -/
def negateIf (neg : Bool) (a : Traced E Bool) : Traced E Bool := (neg ^^ ·) <$> a

theorem join_true (a b : Traced E Bool) :
    join true a b = (do if ← a then b else pure false) := rfl

theorem join_false (a b : Traced E Bool) :
    join false a b = (do if ← a then pure true else b) :=
  bind_congr fun v => by cases v <;> rfl

theorem join_of_open (h : a.value = unit) (b : Traced E Bool) : join unit a b = b.after a.trace := by
  ext1 <;> simp [join, h]

theorem join_of_settled (h : a.value = !unit) (b : Traced E Bool) : join unit a b = a := by
  ext1 <;> simp [join, h]

theorem pure_join (unit : Bool) (b : Traced E Bool) : join unit (pure unit) b = b :=
  join_of_open (value_pure unit) b

theorem join_pure (a : Traced E Bool) : join unit a (pure unit) = a := by
  cases Bool.eq_or_eq_not a.value unit with
  | inl h => rw [join_of_open h]; ext1 <;> simp [h]
  | inr h => rw [join_of_settled h]

theorem join_assoc (a b c : Traced E Bool) :
    join unit (join unit a b) c = join unit a (join unit b c) := by
  cases Bool.eq_or_eq_not a.value unit with
  | inr h => rw [join_of_settled h, join_of_settled h, join_of_settled h]
  | inl h =>
    rw [join_of_open h, join_of_open h]
    cases Bool.eq_or_eq_not b.value unit with
    | inl hb =>
      rw [join_of_open hb, join_of_open (a := b.after a.trace) hb]
      ext1 <;> simp
    | inr hb => rw [join_of_settled hb, join_of_settled (a := b.after a.trace) hb]

@[simp] theorem joinAll_nil (unit : Bool) : joinAll unit [] = (pure unit : Traced E Bool) := rfl

@[simp] theorem joinAll_cons (a : Traced E Bool) (as : List (Traced E Bool)) :
    joinAll unit (a :: as) = join unit a (joinAll unit as) := rfl

theorem joinAll_append (as bs : List (Traced E Bool)) :
    joinAll unit (as ++ bs) = join unit (joinAll unit as) (joinAll unit bs) := by
  induction as with
  | nil => rw [List.nil_append, joinAll_nil, pure_join]
  | cons a as ih => rw [List.cons_append, joinAll_cons, joinAll_cons, ih, join_assoc]

/-! ## Negation -/

theorem negateIf_false (a : Traced E Bool) : negateIf false a = a := by ext1 <;> simp [negateIf]

theorem negateIf_pure (neg b : Bool) :
    negateIf neg (pure b) = (pure (neg ^^ b) : Traced E Bool) := rfl

theorem negateIf_negateIf (neg neg' : Bool) (a : Traced E Bool) :
    negateIf neg (negateIf neg' a) = negateIf (neg ^^ neg') a := by
  ext1 <;> simp [negateIf]

/-- Under a negation the answers change their parts, and the order in which they are asked for is
the same. -/
theorem negateIf_join (neg : Bool) (a b : Traced E Bool) :
    negateIf neg (join unit a b) = join (neg ^^ unit) (negateIf neg a) (negateIf neg b) := by
  cases Bool.eq_or_eq_not a.value unit with
  | inl h =>
    have hneg : (negateIf neg a).value = (neg ^^ unit) := by simp [negateIf, h]
    rw [join_of_open h, join_of_open hneg]
    ext1 <;> simp [negateIf]
  | inr h =>
    have hneg : (negateIf neg a).value = !(neg ^^ unit) := by simp [negateIf, h]
    rw [join_of_settled h, join_of_settled hneg]

theorem negateIf_joinAll (neg : Bool) (as : List (Traced E Bool)) :
    negateIf neg (joinAll unit as) = joinAll (neg ^^ unit) (as.map (negateIf neg)) := by
  induction as with
  | nil => rw [joinAll_nil, negateIf_pure, List.map_nil, joinAll_nil]
  | cons a as ih => rw [joinAll_cons, negateIf_join, ih, List.map_cons, joinAll_cons]

end Traced

/-! ## Predicates -/

namespace Predicate

open Traced

variable {L I E : Type}

/-- Induction on predicates: what holds of a combination if it holds of its operands, however many
they are, holds of all predicates. -/
@[elab_as_elim]
theorem induct {motive : Predicate L → Prop} (leaf : ∀ l, motive (.leaf l))
    (constant : ∀ b, motive (.constant b)) (not : ∀ p, motive p → motive (.not p))
    (and : ∀ p q, motive p → motive q → motive (.and p q))
    (or : ∀ p q, motive p → motive q → motive (.or p q))
    (all : ∀ ps, (∀ p ∈ ps, motive p) → motive (.all ps))
    (any : ∀ ps, (∀ p ∈ ps, motive p) → motive (.any ps)) (p : Predicate L) : motive p :=
  @Predicate.rec L motive (fun ps => ∀ p ∈ ps, motive p) leaf constant not and or all any
    (fun _ h => nomatch h)
    (fun _ _ hp hps _ hq => (List.mem_cons.1 hq).elim (fun h => h ▸ hp) (hps _)) p

variable [Leaf L I E]

theorem test_not (p : Predicate L) (x : I) : (not p).test x = negateIf true (p.test x) := by
  rw [test]
  ext1 <;> simp [negateIf]

theorem test_and (p q : Predicate L) (x : I) :
    (and p q).test x = join true (p.test x) (q.test x) := by
  rw [test, join_true]

theorem test_or (p q : Predicate L) (x : I) :
    (or p q).test x = join false (p.test x) (q.test x) := by
  rw [test, join_false]

theorem test_all (ps : List (Predicate L)) (x : I) :
    (all ps).test x = joinAll true (ps.map (·.test x)) := by
  rw [test]
  induction ps with
  | nil => rw [testAll, List.map_nil, joinAll_nil]
  | cons p ps ih => rw [testAll, ih, List.map_cons, joinAll_cons, join_true]

theorem test_any (ps : List (Predicate L)) (x : I) :
    (any ps).test x = joinAll false (ps.map (·.test x)) := by
  rw [test]
  induction ps with
  | nil => rw [testAny, List.map_nil, joinAll_nil]
  | cons p ps ih => rw [testAny, ih, List.map_cons, joinAll_cons, join_false]

end Predicate

end LayeredMultimap
