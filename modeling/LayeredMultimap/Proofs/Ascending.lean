import LayeredMultimap.Ascending

/-!
# Ascending arrangements

The ascending arrangement of a list is ascending, and it is the only list with the same values that
is: so it depends on how often each value occurs, and on nothing else.
-/

namespace LayeredMultimap.Ascending

variable {α : Type} [Ord α] [Std.TransOrd α]

theorem pairwise_insert (x : α) {xs : List α}
    (h : xs.Pairwise fun a b => (compare a b).isLE) :
    (insert x xs).Pairwise fun a b => (compare a b).isLE := by
  induction xs with
  | nil => exact List.pairwise_singleton _ _
  | cons y ys ih =>
    obtain ⟨hy, hys⟩ := List.pairwise_cons.1 h
    unfold insert
    by_cases hxy : (compare x y).isLE
    · rw [if_pos hxy]
      refine List.pairwise_cons.2 ⟨fun a ha => ?_, h⟩
      rcases List.mem_cons.1 ha with rfl | ha
      · exact hxy
      · exact Std.TransOrd.isLE_trans hxy (hy a ha)
    · rw [if_neg hxy]
      refine List.pairwise_cons.2 ⟨fun a ha => ?_, ih hys⟩
      rcases mem_insert.1 ha with rfl | ha
      · have hgt : compare a y = .gt := by
          cases hc : compare a y <;> simp [hc] at hxy ⊢
        rw [Std.OrientedCmp.lt_of_gt hgt]
        rfl
      · exact hy a ha

theorem pairwise_sort (xs : List α) : (sort xs).Pairwise fun a b => (compare a b).isLE := by
  induction xs with
  | nil => exact .nil
  | cons x xs ih => exact pairwise_insert x ih

variable [Std.LawfulEqOrd α]

omit [Std.TransOrd α] in
theorem pairwise_lt_of_nodup {xs : List α} (hnodup : xs.Nodup)
    (h : xs.Pairwise fun a b => (compare a b).isLE) :
    xs.Pairwise fun a b => compare a b = .lt := by
  refine (hnodup.and h).imp fun {a b} hab => ?_
  obtain ⟨hne, hle⟩ := hab
  rcases Ordering.isLE_iff_eq_lt_or_eq_eq.1 hle with hlt | heq
  · exact hlt
  · exact absurd (Std.LawfulEqOrd.eq_of_compare heq) hne

theorem eq_of_perm {xs ys : List α} (hxs : xs.Pairwise fun a b => (compare a b).isLE)
    (hys : ys.Pairwise fun a b => (compare a b).isLE) (h : xs.Perm ys) : xs = ys := by
  refine h.eq_of_pairwise (fun a b _ _ hab hba => ?_) hxs hys
  exact Std.LawfulEqOrd.eq_of_compare (Std.OrientedCmp.isLE_antisymm hab hba)

theorem sort_eq_of_perm {xs ys : List α} (h : xs.Perm ys) : sort xs = sort ys :=
  eq_of_perm (pairwise_sort xs) (pairwise_sort ys)
    (((sort_perm xs).trans h).trans (sort_perm ys).symm)

theorem insert_sort (x : α) (xs : List α) : insert x (sort xs) = sort (xs ++ [x]) :=
  sort_eq_of_perm (List.perm_append_singleton x xs).symm

theorem erase_sort [BEq α] [LawfulBEq α] (x : α) (xs : List α) :
    (sort xs).erase x = sort (xs.erase x) :=
  eq_of_perm ((pairwise_sort xs).sublist List.erase_sublist) (pairwise_sort _)
    (((sort_perm xs).erase x).trans (sort_perm _).symm)

omit [Std.TransOrd α] [Std.LawfulEqOrd α] in
theorem erase_insert [BEq α] [LawfulBEq α] {x : α} {xs : List α} (h : x ∉ xs) :
    (insert x xs).erase x = xs := by
  induction xs with
  | nil => exact List.erase_cons_head _ _
  | cons y ys ih =>
    rw [List.mem_cons, not_or] at h
    obtain ⟨hy, hys⟩ := h
    unfold insert
    split
    · exact List.erase_cons_head _ _
    · rw [List.erase_cons_tail (by simpa using Ne.symm hy), ih hys]

end LayeredMultimap.Ascending
