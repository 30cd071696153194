/-!
# Dynamic values

Booleans, 64-bit integers, strings and lists of values, with their text form and their order:
values of different types are ordered by type, strings by code point, and lists element by element
with the shorter one first.
-/

namespace LayeredMultimap

/-- Values whose type is known only when the program runs. -/
inductive Value where
  | bool (b : Bool)
  | int (i : Int64)
  | str (s : String)
  | list (vs : List Value)

namespace Value

mutual

/-- The text form of a value; a string is its own text. -/
def text : Value → String
  | .bool true => "true"
  | .bool false => "false"
  | .int i => toString i.toInt
  | .str s => s
  | .list vs => "[" ++ ", ".intercalate (texts vs) ++ "]"

/-- The text forms of the values of a list. -/
def texts : List Value → List String
  | [] => []
  | v :: vs => v.text :: texts vs

end

/-! ## Order -/

/-- The place of a type in the order of values. -/
def rank : Value → Nat
  | .bool _ => 0
  | .int _ => 1
  | .str _ => 2
  | .list _ => 3

mutual

/-- How two values compare. -/
def order : Value → Value → Ordering
  | .bool a, .bool b => compare a b
  | .int a, .int b => compare a b
  | .str a, .str b => compare a b
  | .list as, .list bs => orderList as bs
  | a, b => compare a.rank b.rank

/-- How two lists of values compare. -/
def orderList : List Value → List Value → Ordering
  | [], [] => .eq
  | [], _ :: _ => .lt
  | _ :: _, [] => .gt
  | a :: as, b :: bs => (order a b).then (orderList as bs)

end

instance : Ord Value := ⟨order⟩

mutual

theorem order_swap : (a b : Value) → order a b = (order b a).swap
  | .bool a, .bool b => by simpa [order] using Std.OrientedOrd.eq_swap
  | .int a, .int b => by simpa [order] using Std.OrientedOrd.eq_swap
  | .str a, .str b => by simpa [order] using Std.OrientedOrd.eq_swap
  | .list as, .list bs => by simpa [order] using orderList_swap as bs
  | .bool _, .int _ | .bool _, .str _ | .bool _, .list _
  | .int _, .bool _ | .int _, .str _ | .int _, .list _
  | .str _, .bool _ | .str _, .int _ | .str _, .list _
  | .list _, .bool _ | .list _, .int _ | .list _, .str _ => rfl

theorem orderList_swap : (as bs : List Value) → orderList as bs = (orderList bs as).swap
  | [], [] | [], _ :: _ | _ :: _, [] => rfl
  | a :: as, b :: bs => by
    rw [orderList, orderList, order_swap a b, orderList_swap as bs, Ordering.swap_then]

end

mutual

theorem eq_of_order : (a b : Value) → order a b = .eq → a = b
  | .bool a, .bool b, h => by
    rw [order] at h; rw [Std.LawfulEqOrd.eq_of_compare h]
  | .int a, .int b, h => by
    rw [order] at h; rw [Std.LawfulEqOrd.eq_of_compare h]
  | .str a, .str b, h => by
    rw [order] at h; rw [Std.LawfulEqOrd.eq_of_compare h]
  | .list as, .list bs, h => by
    rw [order] at h; rw [eq_of_orderList as bs h]
  | .bool _, .int _, h | .bool _, .str _, h | .bool _, .list _, h
  | .int _, .bool _, h | .int _, .str _, h | .int _, .list _, h
  | .str _, .bool _, h | .str _, .int _, h | .str _, .list _, h
  | .list _, .bool _, h | .list _, .int _, h | .list _, .str _, h => by cases h

theorem eq_of_orderList : (as bs : List Value) → orderList as bs = .eq → as = bs
  | [], [], _ => rfl
  | [], _ :: _, h | _ :: _, [], h => by cases h
  | a :: as, b :: bs, h => by
    rw [orderList, Ordering.then_eq_eq] at h
    rw [eq_of_order a b h.1, eq_of_orderList as bs h.2]

end

mutual

theorem order_self : (a : Value) → order a a = .eq
  | .bool a => by rw [order]; exact Std.ReflOrd.compare_self
  | .int a => by rw [order]; exact Std.ReflOrd.compare_self
  | .str a => by rw [order]; exact Std.ReflOrd.compare_self
  | .list as => by rw [order]; exact orderList_self as

theorem orderList_self : (as : List Value) → orderList as as = .eq
  | [] => rfl
  | a :: as => by rw [orderList, order_self a, orderList_self as]; rfl

end

/-- Values of different types compare as their types do. -/
theorem order_of_rank_ne {a b : Value} (h : a.rank ≠ b.rank) :
    order a b = compare a.rank b.rank := by
  cases a <;> cases b <;> first | rfl | exact absurd rfl h

theorem rank_le_of_order {a b : Value} (h : order a b = .lt) : a.rank ≤ b.rank := by
  by_cases hr : a.rank = b.rank
  · exact Nat.le_of_eq hr
  · rw [order_of_rank_ne hr] at h
    exact Nat.le_of_lt (Nat.compare_eq_lt.1 h)

mutual

theorem order_trans (a b c : Value) (hab : order a b = .lt) (hbc : order b c = .lt) :
    order a c = .lt := by
  by_cases hr : a.rank = c.rank
  · have hb : b.rank = c.rank :=
      Nat.le_antisymm (rank_le_of_order hbc) (hr ▸ rank_le_of_order hab)
    cases a <;> cases c <;> simp only [rank, reduceCtorEq, Nat.reduceEqDiff] at hr <;>
      cases b <;> simp only [rank, reduceCtorEq, Nat.reduceEqDiff] at hb
    · rw [order] at *; exact Std.TransCmp.lt_trans hab hbc
    · rw [order] at *; exact Std.TransCmp.lt_trans hab hbc
    · rw [order] at *; exact Std.TransCmp.lt_trans hab hbc
    · rw [order] at *; exact orderList_trans _ _ _ hab hbc
  · rw [order_of_rank_ne hr, Nat.compare_eq_lt]
    have := rank_le_of_order hab
    have := rank_le_of_order hbc
    omega

theorem orderList_trans : (as bs cs : List Value) →
    orderList as bs = .lt → orderList bs cs = .lt → orderList as cs = .lt
  | [], _, _ :: _, _, _ => rfl
  | [], [], [], h, _ => h
  | [], _ :: _, [], _, h => by cases h
  | _ :: _, [], _, h, _ => by cases h
  | _ :: _, _ :: _, [], _, h => by cases h
  | a :: as, b :: bs, c :: cs, hab, hbc => by
    rw [orderList, Ordering.then_eq_lt] at hab hbc ⊢
    rcases hab with hab | ⟨hab, hab'⟩ <;> rcases hbc with hbc | ⟨hbc, hbc'⟩
    · exact .inl (order_trans a b c hab hbc)
    · exact .inl (eq_of_order b c hbc ▸ hab)
    · exact .inl (eq_of_order a b hab ▸ hbc)
    · refine .inr ⟨?_, orderList_trans as bs cs hab' hbc'⟩
      rw [eq_of_order a b hab, hbc]

end

instance : Std.OrientedOrd Value where
  eq_swap := order_swap _ _

instance : Std.LawfulEqOrd Value where
  compare_self := order_self _
  eq_of_compare := eq_of_order _ _

instance : Std.TransOrd Value where
  isLE_trans {a b c} hab hbc := by
    change (order a b).isLE = true at hab
    change (order b c).isLE = true at hbc
    change (order a c).isLE = true
    rw [Ordering.isLE_iff_eq_lt_or_eq_eq] at *
    rcases hab with hab | hab
    · rcases hbc with hbc | hbc
      · exact .inl (order_trans a b c hab hbc)
      · exact .inl (eq_of_order b c hbc ▸ hab)
    · exact eq_of_order a b hab ▸ hbc

instance : DecidableEq Value := fun a b =>
  decidable_of_iff (compare a b = .eq) Std.LawfulEqOrd.compare_eq_iff_eq

end Value

end LayeredMultimap
