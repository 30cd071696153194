import LayeredMultimap.Ascending

/-!
# Bags

A bag holds the values of one key. Its discipline says which additions change it and in which
order its values are listed: a sequence keeps every addition in order of arrival, the other two
hold a value at most once. A distinct bag remembers arrival but lists its values in ascending
order, since nothing may depend on the order inside it; an ascending bag keeps them sorted.
-/

namespace LayeredMultimap

/-- Which values a bag accepts, and how it orders them. -/
inductive Discipline where
  | sequence
  | distinct
  | ascending
deriving DecidableEq

/-- The values held under one key. -/
@[ext]
structure Bag (d : Discipline) (V : Type) where
  members : List V
deriving DecidableEq

namespace Bag

variable {d : Discipline} {V : Type}

def empty : Bag d V := ⟨[]⟩

def size (b : Bag d V) : Nat := b.members.length

def isEmpty (b : Bag d V) : Bool := b.size == 0

/-- The values in the order in which the bag lists them. -/
def toList [Ord V] (b : Bag d V) : List V :=
  match d with
  | .sequence => b.members
  | .distinct => Ascending.sort b.members
  | .ascending => b.members

section Membership

variable [DecidableEq V]

def contains (b : Bag d V) (v : V) : Bool := decide (v ∈ b.members)

/-- Takes the oldest occurrence of a value out of the bag, and says whether there was one. -/
def remove (b : Bag d V) (v : V) : Bool × Bag d V := (b.contains v, ⟨b.members.erase v⟩)

/-- Adds a value where the discipline allows it, and says whether the bag changed. -/
def add [Ord V] (b : Bag d V) (v : V) : Bool × Bag d V :=
  match d with
  | .sequence => (true, ⟨b.members ++ [v]⟩)
  | .distinct => if b.contains v then (false, b) else (true, ⟨b.members ++ [v]⟩)
  | .ascending => if b.contains v then (false, b) else (true, ⟨Ascending.insert v b.members⟩)

end Membership

/-! ## Operations on the view -/

@[simp] theorem members_empty : (empty : Bag d V).members = [] := rfl

theorem toList_perm [Ord V] (b : Bag d V) : b.toList.Perm b.members := by
  cases d
  · exact .refl _
  · exact Ascending.sort_perm _
  · exact .refl _

@[simp] theorem mem_toList [Ord V] {b : Bag d V} {v : V} : v ∈ b.toList ↔ v ∈ b.members :=
  b.toList_perm.mem_iff

@[simp] theorem length_toList [Ord V] (b : Bag d V) : b.toList.length = b.size :=
  b.toList_perm.length_eq

@[simp] theorem isEmpty_iff {b : Bag d V} : b.isEmpty = true ↔ b.members = [] := by
  simp [isEmpty, size]

section Membership

variable [DecidableEq V]

@[simp] theorem contains_iff {b : Bag d V} {v : V} : b.contains v = true ↔ v ∈ b.members := by
  simp [contains]

theorem perm_of_remove {b : Bag d V} {v : V} (h : (b.remove v).1 = true) :
    b.members.Perm (v :: (b.remove v).2.members) :=
  List.perm_cons_erase (contains_iff.1 h)

theorem remove_snd_of_false {b : Bag d V} {v : V} (h : (b.remove v).1 = false) :
    (b.remove v).2 = b := by
  have hv : v ∉ b.members := by simpa [remove, contains] using h
  simp [remove, List.erase_of_not_mem hv]

theorem add_fst [Ord V] (b : Bag d V) (v : V) :
    (b.add v).1 = (d == .sequence || !b.contains v) := by
  cases d <;> cases h : b.contains v <;> simp [add, h]

theorem perm_of_add [Ord V] {b : Bag d V} {v : V} (h : (b.add v).1 = true) :
    (b.add v).2.members.Perm (v :: b.members) := by
  cases d with
  | sequence => exact List.perm_append_singleton v b.members
  | distinct =>
    cases hv : b.contains v with
    | true => simp [add, hv] at h
    | false => simp [add, hv]
  | ascending =>
    cases hv : b.contains v with
    | true => simp [add, hv] at h
    | false => simpa [add, hv] using Ascending.insert_perm v b.members

theorem add_snd_of_false [Ord V] {b : Bag d V} {v : V} (h : (b.add v).1 = false) :
    (b.add v).2 = b := by
  cases d with
  | sequence => simp [add] at h
  | distinct | ascending =>
    cases hv : b.contains v with
    | true => simp [add, hv]
    | false => simp [add, hv] at h

end Membership

end Bag

end LayeredMultimap
