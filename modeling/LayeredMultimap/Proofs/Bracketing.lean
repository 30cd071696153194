/-!
# Bracketings

A binary operation takes a row of operands together in many ways, one for each way to put brackets
around them. A bracketing is such a way, apart from the operation. Where what is taken together is
told by a meaning of whole rows, the brackets do not matter (`Bracketing.fold_eq_row`).
-/

namespace LayeredMultimap

/-- A row with brackets, in which every pair of brackets holds two neighbours. -/
inductive Bracketing (α : Type) where
  | single (a : α)
  | pair (l r : Bracketing α)

namespace Bracketing

variable {α : Type}

/-- The row without the brackets. -/
def row : Bracketing α → List α
  | .single a => [a]
  | .pair l r => l.row ++ r.row

/-- Takes the row together by a binary operation, as the brackets say. -/
def fold (f : α → α → α) : Bracketing α → α
  | .single a => a
  | .pair l r => f (l.fold f) (r.fold f)

/-- A meaning of operands and one of rows agree, if they do so on a row of one and if both follow
what the operation means. -/
theorem fold_eq_row {β : Type} {f : α → α → α} (meaning : α → β) (rowMeaning : List α → β)
    (join : β → β → β) (hf : ∀ a b, meaning (f a b) = join (meaning a) (meaning b))
    (hsingle : ∀ a, rowMeaning [a] = meaning a)
    (happend : ∀ as bs, rowMeaning (as ++ bs) = join (rowMeaning as) (rowMeaning bs))
    (t : Bracketing α) : meaning (t.fold f) = rowMeaning t.row := by
  induction t with
  | single a => rw [fold, row, hsingle]
  | pair l r hl hr => rw [fold, row, hf, hl, hr, happend]

end Bracketing

end LayeredMultimap
