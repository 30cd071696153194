import LayeredMultimap.Proofs.Connectives

/-!
# Negations at the leaves

A negation can be pushed through a predicate until it stands in front of leaves only: on its way
conjunctions become disjunctions, absence becomes presence, and the other way round. The normal form
gives every answer that the predicate gives, after the same tests in the same order.

`push` does both signs at once, since a negation that is met changes one into the other. What is
proved by induction is therefore told of both: the pushed predicate tests like the predicate with the
sign put back in front (`test_push`).
-/

namespace LayeredMultimap

namespace Predicate

open Traced

variable {L I E : Type}

/-- A predicate with a negation in front of it, or without one. -/
def signed : Bool → Predicate L → Predicate L
  | false, p => p
  | true, p => .not p

mutual

/-- A predicate, or its negation, with every negation at the leaves. How a leaf is written there,
under a negation or without one, is told by `literal`. -/
def push (literal : Bool → L → Predicate L) : Predicate L → Bool → Predicate L
  | .leaf l, neg => literal neg l
  | .constant b, neg => signed neg (.constant b)
  | .not p, neg => push literal p !neg
  | .and p q, false => .and (push literal p false) (push literal q false)
  | .and p q, true => .or (push literal p true) (push literal q true)
  | .or p q, false => .or (push literal p false) (push literal q false)
  | .or p q, true => .and (push literal p true) (push literal q true)
  | .all ps, false => .all (pushAll literal ps false)
  | .all ps, true => .any (pushAll literal ps true)
  | .any ps, false => .any (pushAll literal ps false)
  | .any ps, true => .all (pushAll literal ps true)

def pushAll (literal : Bool → L → Predicate L) : List (Predicate L) → Bool → List (Predicate L)
  | [], _ => []
  | p :: ps, neg => push literal p neg :: pushAll literal ps neg

end

/-- Built from literals by combinations of them, without a negation. -/
inductive Joins (Literal : Predicate L → Prop) : Predicate L → Prop
  | literal {p : Predicate L} (h : Literal p) : Joins Literal p
  | and {p q : Predicate L} (hp : Joins Literal p) (hq : Joins Literal q) : Joins Literal (.and p q)
  | or {p q : Predicate L} (hp : Joins Literal p) (hq : Joins Literal q) : Joins Literal (.or p q)
  | all {ps : List (Predicate L)} (h : ∀ p ∈ ps, Joins Literal p) : Joins Literal (.all ps)
  | any {ps : List (Predicate L)} (h : ∀ p ∈ ps, Joins Literal p) : Joins Literal (.any ps)

theorem pushAll_eq_map (literal : Bool → L → Predicate L) (ps : List (Predicate L)) (neg : Bool) :
    pushAll literal ps neg = ps.map (push literal · neg) := by
  induction ps with
  | nil => rw [pushAll, List.map_nil]
  | cons p ps ih => rw [pushAll, ih, List.map_cons]

/-! ## The shape -/

section Shape

variable {literal : Bool → L → Predicate L} {Literal : Predicate L → Prop}

theorem joins_pushAll {ps : List (Predicate L)} {neg : Bool}
    (h : ∀ p ∈ ps, Joins Literal (push literal p neg)) :
    ∀ p ∈ pushAll literal ps neg, Joins Literal p := by
  rw [pushAll_eq_map]
  exact List.forall_mem_map.2 h

theorem joins_push (hleaf : ∀ neg l, Literal (literal neg l))
    (hconstant : ∀ neg b, Literal (signed neg (.constant b))) (p : Predicate L) (neg : Bool) :
    Joins Literal (push literal p neg) := by
  induction p using induct generalizing neg with
  | leaf l => rw [push]; exact .literal (hleaf neg l)
  | constant b => rw [push]; exact .literal (hconstant neg b)
  | not p ih => rw [push]; exact ih !neg
  | and p q hp hq =>
    cases neg with
    | false => rw [push]; exact .and (hp false) (hq false)
    | true => rw [push]; exact .or (hp true) (hq true)
  | or p q hp hq =>
    cases neg with
    | false => rw [push]; exact .or (hp false) (hq false)
    | true => rw [push]; exact .and (hp true) (hq true)
  | all ps ih =>
    have hpushed := joins_pushAll fun p hp => ih p hp neg
    cases neg with
    | false => rw [push]; exact .all hpushed
    | true => rw [push]; exact .any hpushed
  | any ps ih =>
    have hpushed := joins_pushAll fun p hp => ih p hp neg
    cases neg with
    | false => rw [push]; exact .any hpushed
    | true => rw [push]; exact .all hpushed

end Shape

/-! ## The tests -/

variable [Leaf L I E] {literal : Bool → L → Predicate L} {x : I}

theorem test_signed (neg : Bool) (p : Predicate L) (x : I) :
    (signed neg p).test x = negateIf neg (p.test x) := by
  cases neg with
  | false => rw [signed, negateIf_false]
  | true => rw [signed, test_not]

theorem map_test_pushAll {ps : List (Predicate L)} {neg : Bool}
    (h : ∀ p ∈ ps, (push literal p neg).test x = negateIf neg (p.test x)) :
    (pushAll literal ps neg).map (·.test x) = (ps.map (·.test x)).map (negateIf neg) := by
  rw [pushAll_eq_map, List.map_map, List.map_map]
  exact List.map_congr_left h

theorem test_push (hleaf : ∀ neg l, (literal neg l).test x = negateIf neg (Leaf.ask l x))
    (p : Predicate L) (neg : Bool) : (push literal p neg).test x = negateIf neg (p.test x) := by
  induction p using induct generalizing neg with
  | leaf l => rw [push, test, hleaf]
  | constant b => rw [push, test_signed]
  | not p ih => rw [push, ih, test_not, negateIf_negateIf, Bool.xor_true]
  | and p q hp hq =>
    rw [test_and, negateIf_join, ← hp, ← hq]
    cases neg with
    | false => rw [push, test_and]; rfl
    | true => rw [push, test_or]; rfl
  | or p q hp hq =>
    rw [test_or, negateIf_join, ← hp, ← hq]
    cases neg with
    | false => rw [push, test_or]; rfl
    | true => rw [push, test_and]; rfl
  | all ps ih =>
    rw [test_all, negateIf_joinAll, ← map_test_pushAll fun p hp => ih p hp neg]
    cases neg with
    | false => rw [push, test_all]; rfl
    | true => rw [push, test_any]; rfl
  | any ps ih =>
    rw [test_any, negateIf_joinAll, ← map_test_pushAll fun p hp => ih p hp neg]
    cases neg with
    | false => rw [push, test_any]; rfl
    | true => rw [push, test_all]; rfl

/-! ## Normal forms -/

/-- A leaf or a constant, negated or not. -/
inductive IsLiteral : Predicate L → Prop
  | leaf (neg : Bool) (l : L) : IsLiteral (signed neg (.leaf l))
  | constant (neg : Bool) (b : Bool) : IsLiteral (signed neg (.constant b))

/-- No negation but in front of leaves and constants. -/
abbrev NegationNormal : Predicate L → Prop := Joins IsLiteral

/-- The negation normal form of a predicate with a negation in front of it, or without one. -/
def nnfUnder (neg : Bool) (p : Predicate L) : Predicate L :=
  push (fun neg l => signed neg (.leaf l)) p neg

/-- The negation normal form. -/
def nnf (p : Predicate L) : Predicate L := p.nnfUnder false

omit [Leaf L I E] in
theorem negationNormal_nnfUnder (neg : Bool) (p : Predicate L) : (p.nnfUnder neg).NegationNormal :=
  joins_push .leaf .constant p neg

theorem test_nnfUnder (neg : Bool) (p : Predicate L) (x : I) :
    (p.nnfUnder neg).test x = negateIf neg (p.test x) :=
  test_push (fun neg l => by rw [test_signed, test]) p neg

end Predicate

namespace OptionalCondition

open Predicate Traced

variable {E α : Type}

/-- A leaf over inputs that may be absent, under a negation or without one. Absence is settled by
the leaf, so that the negation goes on to the predicate about the input that is there. -/
def literal : Bool → OptionalCheck E α → OptionalCondition E α
  | neg, .plain c => signed neg (.leaf (.plain c))
  | false, .absent => .leaf .absent
  | true, .absent => .leaf .present
  | false, .present => .leaf .present
  | true, .present => .leaf .absent
  | false, .absentOr p => .leaf (.absentOr (p.nnfUnder false))
  | true, .absentOr p => .leaf (.presentAnd (p.nnfUnder true))
  | false, .presentAnd p => .leaf (.presentAnd (p.nnfUnder false))
  | true, .presentAnd p => .leaf (.absentOr (p.nnfUnder true))

/-- A literal over inputs that may be absent: only a plain leaf or a constant may be negated, and
what is asked about an input that is there is in normal form. -/
inductive IsLiteral : OptionalCondition E α → Prop
  | plain (neg : Bool) (c : Check E (Option α)) : IsLiteral (signed neg (.leaf (.plain c)))
  | constant (neg : Bool) (b : Bool) : IsLiteral (signed neg (.constant b))
  | absent : IsLiteral (.leaf .absent)
  | present : IsLiteral (.leaf .present)
  | absentOr {p : Condition E α} (h : p.NegationNormal) : IsLiteral (.leaf (.absentOr p))
  | presentAnd {p : Condition E α} (h : p.NegationNormal) : IsLiteral (.leaf (.presentAnd p))

abbrev NegationNormal : OptionalCondition E α → Prop := Joins IsLiteral

/-- The negation normal form over inputs that may be absent. -/
def nnf (p : OptionalCondition E α) : OptionalCondition E α := push literal p false

theorem isLiteral_literal (neg : Bool) (l : OptionalCheck E α) : IsLiteral (literal neg l) := by
  cases l with
  | plain c => exact .plain neg c
  | absent => cases neg with
    | false => exact .absent
    | true => exact .present
  | present => cases neg with
    | false => exact .present
    | true => exact .absent
  | absentOr p => cases neg with
    | false => exact .absentOr (negationNormal_nnfUnder false p)
    | true => exact .presentAnd (negationNormal_nnfUnder true p)
  | presentAnd p => cases neg with
    | false => exact .presentAnd (negationNormal_nnfUnder false p)
    | true => exact .absentOr (negationNormal_nnfUnder true p)

variable [DecidableEq α]

theorem test_literal (neg : Bool) (l : OptionalCheck E α) (x : Option α) :
    (literal neg l).test x = negateIf neg (Leaf.ask l x) := by
  cases l with
  | plain c => rw [literal, test_signed, test]
  | absent => cases neg <;> cases x <;> rfl
  | present => cases neg <;> cases x <;> rfl
  | absentOr p =>
    cases x with
    | none => cases neg <;> rfl
    | some x =>
      have h : Leaf.ask (OptionalCheck.absentOr p) (some x) = p.test x := rfl
      rw [h, ← test_nnfUnder]
      cases neg <;> rfl
  | presentAnd p =>
    cases x with
    | none => cases neg <;> rfl
    | some x =>
      have h : Leaf.ask (OptionalCheck.presentAnd p) (some x) = p.test x := rfl
      rw [h, ← test_nnfUnder]
      cases neg <;> rfl

end OptionalCondition

namespace Predicate

/-- **Negations can be pushed to the leaves.** These are then tested in the same order, and as far.
-/
theorem negation_at_leaves {L I E α : Type} [Leaf L I E] [DecidableEq α] :
    (∀ p : Predicate L, p.nnf.NegationNormal ∧ ∀ x : I, p.nnf.test x = p.test x ∧
      p.evaluate x = p.test x ∧ p.nnf.evaluate x = p.nnf.test x) ∧
    ∀ p : OptionalCondition E α, (OptionalCondition.nnf p).NegationNormal ∧ ∀ x : Option α,
      (OptionalCondition.nnf p).test x = p.test x ∧ p.evaluate x = p.test x ∧
        (OptionalCondition.nnf p).evaluate x = (OptionalCondition.nnf p).test x := by
  refine ⟨fun p => ⟨negationNormal_nnfUnder false p, fun x => ⟨?_, rfl, rfl⟩⟩,
    fun p => ⟨?_, fun x => ⟨?_, rfl, rfl⟩⟩⟩
  · rw [nnf, test_nnfUnder, Traced.negateIf_false]
  · exact joins_push OptionalCondition.isLiteral_literal .constant p false
  · rw [OptionalCondition.nnf, test_push (fun neg l => OptionalCondition.test_literal neg l x),
      Traced.negateIf_false]

example {L : Type} (a b c : L) :
    nnf (.not (.all [.leaf a, .not (.leaf b), .or (.leaf a) (.not (.not (.leaf c)))])) =
      .any [.not (.leaf a), .leaf b, .and (.not (.leaf a)) (.not (.leaf c))] := rfl

end Predicate

end LayeredMultimap
