import LayeredMultimap.Proofs.Bracketing
import LayeredMultimap.Proofs.Connectives

/-!
# Connectives over lists

A conjunction over a list is the binary conjunction done again and again, and a disjunction over a
list the binary disjunction: whatever the brackets are, and however the list is cut into lists inside
it, the answer and the tests before it are the same. All of it is said of the two connectives at
once (`Predicate.Iterates`), since both come to `Traced.join`.
-/

namespace LayeredMultimap.Predicate

open Traced

variable {L I E : Type} [Leaf L I E]

/-- Predicates are asked in turn up to the first answer that is not `unit`, if there is one, each of
them once. That answer is the one that is given, behind the events of these tests and no others. -/
def SettledInTurn (unit : Bool) (ps : List (Predicate L)) (x : I) (asked : Traced E Bool) : Prop :=
  ((∀ p ∈ ps, (p.test x).value = unit) ∧ asked = ⟨ps.flatMap fun p => (p.test x).trace, unit⟩) ∨
    ∃ before p after, ps = before ++ p :: after ∧ (∀ q ∈ before, (q.test x).value = unit) ∧
      (p.test x).value = (!unit) ∧
      asked = ⟨(before ++ [p]).flatMap fun q => (q.test x).trace, !unit⟩

/-- A connective over lists iterates a binary one, with the constant `unit` behind the last operand:
by one operand after the other, with the brackets in any other way, and list by list. -/
structure Iterates (binary : Predicate L → Predicate L → Predicate L)
    (list : List (Predicate L) → Predicate L) (unit : Bool) : Prop where
  fold (ps : List (Predicate L)) (x : I) :
    (ps.foldr binary (.constant unit)).test x = (list ps).test x
  bracketing {ps : List (Predicate L)} {t : Bracketing (Predicate L)}
    (ht : t.row = ps ++ [.constant unit]) (x : I) : (t.fold binary).test x = (list ps).test x
  append (ps qs : List (Predicate L)) (x : I) :
    (list (ps ++ qs)).test x = (binary (list ps) (list qs)).test x
  nested (before ps after : List (Predicate L)) (x : I) :
    (list (before ++ list ps :: after)).test x = (list (before ++ ps ++ after)).test x
  asked (ps : List (Predicate L)) (x : I) : SettledInTurn unit ps x ((list ps).test x)

theorem settledInTurn_joinAll (unit : Bool) (ps : List (Predicate L)) (x : I) :
    SettledInTurn unit ps x (joinAll unit (ps.map (·.test x))) := by
  induction ps with
  | nil => exact .inl ⟨List.forall_mem_nil _, rfl⟩
  | cons p ps ih =>
    rw [List.map_cons, joinAll_cons]
    cases Bool.eq_or_eq_not (p.test x).value unit with
    | inr hp =>
      -- the first operand settles the matter
      refine .inr ⟨[], p, ps, rfl, List.forall_mem_nil _, hp, ?_⟩
      rw [join_of_settled hp]
      ext1 <;> simp [hp]
    | inl hp =>
      rw [join_of_open hp]
      rcases ih with ⟨hall, hps⟩ | ⟨before, q, after, rfl, hbefore, hq, hps⟩
      · rw [hps]
        exact .inl ⟨List.forall_mem_cons.2 ⟨hp, hall⟩, rfl⟩
      · rw [hps]
        exact .inr ⟨p :: before, q, after, rfl, List.forall_mem_cons.2 ⟨hp, hbefore⟩, hq, rfl⟩

section Iterates

variable {binary : Predicate L → Predicate L → Predicate L}
  {list : List (Predicate L) → Predicate L} {unit : Bool}

theorem test_foldr (hbinary : ∀ p q (x : I), (binary p q).test x = join unit (p.test x) (q.test x))
    (ps : List (Predicate L)) (x : I) :
    (ps.foldr binary (.constant unit)).test x = joinAll unit (ps.map (·.test x)) := by
  induction ps with
  | nil => rw [List.foldr_nil, test, List.map_nil, joinAll_nil]
  | cons p ps ih => rw [List.foldr_cons, hbinary, ih, List.map_cons, joinAll_cons]

theorem test_bracketing
    (hbinary : ∀ p q (x : I), (binary p q).test x = join unit (p.test x) (q.test x))
    (t : Bracketing (Predicate L)) (x : I) :
    (t.fold binary).test x = joinAll unit (t.row.map (·.test x)) := by
  refine t.fold_eq_row (·.test x) (fun ps => joinAll unit (ps.map (·.test x))) (join unit)
    (fun p q => hbinary p q x) (fun p => ?_) fun ps qs => ?_
  · rw [List.map_singleton, joinAll_cons, joinAll_nil, join_pure]
  · rw [List.map_append, joinAll_append]

/-- All that is needed of two connectives is that they join answers in the same way. -/
theorem iterates_of_join
    (hbinary : ∀ p q (x : I), (binary p q).test x = join unit (p.test x) (q.test x))
    (hlist : ∀ ps (x : I), (list ps).test x = joinAll unit (ps.map (·.test x))) :
    Iterates binary list unit where
  fold ps x := by rw [test_foldr hbinary, hlist]
  bracketing ht x := by
    rw [test_bracketing hbinary, ht, hlist, List.map_append, joinAll_append, List.map_singleton,
      joinAll_cons, joinAll_nil, test, pure_join, join_pure]
  append ps qs x := by rw [hbinary, hlist, hlist, hlist, List.map_append, joinAll_append]
  nested before ps after x := by
    rw [hlist, hlist, List.map_append, List.map_cons, joinAll_append, joinAll_cons, hlist,
      List.map_append, List.map_append, joinAll_append, joinAll_append, join_assoc]
  asked ps x := by
    rw [hlist]
    exact settledInTurn_joinAll unit ps x

end Iterates

/-- **Connectives over lists are iterated binary ones**, whatever the brackets of these are. -/
theorem lists_iterate_pairs :
    Iterates (.and : Predicate L → _) .all true ∧ Iterates (.or : Predicate L → _) .any false :=
  ⟨iterates_of_join test_and test_all, iterates_of_join test_or test_any⟩

/-- Asks whether a number divides the input, and tells of the number. -/
def divides (n : Nat) : Condition Nat Nat :=
  noted (fun _ => n) (.satisfies fun x => decide (n ∣ x))

/-- The input 4 is settled by the second of three questions, and the input 30 by none. -/
theorem lists_iterate_pairs_dividing :
    let ps := [divides 2, divides 3, divides 5]
    let t : Bracketing (Condition Nat Nat) := .pair (.pair (.single (divides 2))
      (.single (divides 3))) (.pair (.single (divides 5)) (.single (.constant true)))
    (t.row = ps ++ [.constant true] ∧ (t.fold .and).test 4 = (all ps).test 4 ∧
      (all ps).test 4 = ⟨[2, 3], false⟩ ∧ SettledInTurn true ps 4 ((all ps).test 4)) ∧
    ((all [divides 2, all [divides 3, divides 5]]).test 30 = (all ps).test 30 ∧
      (all ps).test 30 = ⟨[2, 3, 5], true⟩) ∧
    (any [divides 7, any [divides 2, divides 3], divides 5]).test 4 = ⟨[7, 2], true⟩ := by
  intro ps t
  obtain ⟨hall, hany⟩ := lists_iterate_pairs (L := Check Nat Nat)
  have hrow : t.row = ps ++ [.constant true] := rfl
  refine ⟨⟨hrow, hall.bracketing hrow 4, rfl, hall.asked ps 4⟩,
    ⟨hall.nested [divides 2] [divides 3, divides 5] [] 30, rfl⟩, ?_⟩
  exact hany.nested [divides 7] [divides 2, divides 3] [divides 5] 4

end LayeredMultimap.Predicate
