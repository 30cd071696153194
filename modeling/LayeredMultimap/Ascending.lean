/-!
# Ascending lists

Insertion of a value into an ascending list, and the ascending arrangement of any list. Both keep
every occurrence of every value. The definitions recurse on the list alone, so that they compute
on closed terms.
-/

namespace LayeredMultimap.Ascending

variable {α : Type} [Ord α]

/-- Inserts a value in front of the first one that is not smaller. -/
def insert (x : α) : List α → List α
  | [] => [x]
  | y :: ys => if (compare x y).isLE then x :: y :: ys else y :: insert x ys

/-- The values of a list in ascending order. -/
def sort : List α → List α
  | [] => []
  | x :: xs => insert x (sort xs)

theorem insert_perm (x : α) (xs : List α) : (insert x xs).Perm (x :: xs) := by
  induction xs with
  | nil => exact .refl _
  | cons y ys ih =>
    unfold insert
    split
    · exact .refl _
    · exact (ih.cons y).trans (.swap x y ys)

theorem sort_perm (xs : List α) : (sort xs).Perm xs := by
  induction xs with
  | nil => exact .refl _
  | cons x xs ih => exact (insert_perm x _).trans (ih.cons x)

theorem mem_insert {x a : α} {xs : List α} : a ∈ insert x xs ↔ a = x ∨ a ∈ xs := by
  simp [(insert_perm x xs).mem_iff]

@[simp] theorem mem_sort {a : α} {xs : List α} : a ∈ sort xs ↔ a ∈ xs :=
  (sort_perm xs).mem_iff

@[simp] theorem length_sort (xs : List α) : (sort xs).length = xs.length :=
  (sort_perm xs).length_eq

end LayeredMultimap.Ascending
