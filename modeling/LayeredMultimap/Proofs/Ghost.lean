import LayeredMultimap.Multimap.Operation
import LayeredMultimap.Proofs.Lookup

/-!
# Keys without values

A key with an empty bag is a ghost. Two contents that differ in ghosts only have the same groups
(`Content.GhostEq.groups_eq`), so no read tells them apart, and every change takes them to contents
that again differ in ghosts only.
-/

namespace LayeredMultimap

variable {d : Discipline} {E K V : Type} [Ord K]

/-- Two contents differ in keys with an empty bag only. -/
structure Content.GhostEq (c c' : Content d K V) : Prop where
  left : c.Ascends
  right : c'.Ascends
  get?_eq : ∀ k, c.get? k = c'.get? k

namespace Content

theorem ghostEq_self {c : Content d K V} (h : c.Ascends) : c.GhostEq c := ⟨h, h, fun _ => rfl⟩

theorem ghostEq_of_bag {c c' : Content d K V} (h : c.Ascends) (h' : c'.Ascends)
    (hbag : c.bag = c'.bag) : c.GhostEq c' :=
  ⟨h, h', fun k => by rw [Content.get?_eq, Content.get?_eq, hbag]⟩

namespace GhostEq

variable {c c' : Content d K V}

theorem symm (h : c.GhostEq c') : c'.GhostEq c := ⟨h.right, h.left, fun k => (h.get?_eq k).symm⟩

theorem bag_eq (h : c.GhostEq c') : c.bag = c'.bag := by
  funext k
  rw [bag_eq_getD, bag_eq_getD, h.get?_eq]

variable [DecidableEq K] [Std.LawfulEqOrd K]

/-! ## Changes -/

theorem erase (h : c.GhostEq c') (k : K) : Content.GhostEq (c.erase k) (c'.erase k) := by
  refine ghostEq_of_bag (h.left.erase k) (h.right.erase k) ?_
  rw [bag_erase, bag_erase, h.bag_eq]

variable [Std.TransOrd K]

theorem insert (h : c.GhostEq c') (k : K) (b : Bag d V) :
    Content.GhostEq (c.insert k b) (c'.insert k b) := by
  refine ghostEq_of_bag (h.left.insert k b) (h.right.insert k b) ?_
  rw [bag_insert, bag_insert, h.bag_eq]

theorem removeMapping [DecidableEq V] (h : c.GhostEq c') (k : K) (v : V) :
    (c.removeMapping k v).1 = (c'.removeMapping k v).1 ∧
      (c.removeMapping k v).2.GhostEq (c'.removeMapping k v).2 := by
  refine ⟨by rw [removeMapping_fst, removeMapping_fst, h.bag_eq], ghostEq_of_bag
    (ascends_removeMapping h.left k v) (ascends_removeMapping h.right k v) ?_⟩
  rw [bag_removeMapping, bag_removeMapping, h.bag_eq]

section Additions

variable [DecidableEq V] [Ord V]

theorem add (h : c.GhostEq c') (k : K) (v : V) :
    (c.add k v).1 = (c'.add k v).1 ∧ (c.add k v).2.GhostEq (c'.add k v).2 := by
  rw [Content.add, Content.add, h.bag_eq]
  exact ⟨rfl, h.insert k _⟩

theorem extend (h : c.GhostEq c') (ps : List (K × V)) : (c.extend ps).GhostEq (c'.extend ps) := by
  induction ps generalizing c c' with
  | nil => exact h
  | cons p ps ih => exact ih (h.add p.1 p.2).2

theorem edit (h : c.GhostEq c') (k : K) (es : List (Edit V)) :
    (c.edit k es).1 = (c'.edit k es).1 ∧ (c.edit k es).2.GhostEq (c'.edit k es).2 := by
  rw [Content.edit, Content.edit, h.bag_eq]
  exact ⟨rfl, h.insert k _⟩

theorem touch (h : c.GhostEq c') (k : K) : c.GhostEq (c'.touch k) := by
  have hbag : (c'.touch k).bag = Function.update c'.bag k (c'.bag k) := bag_insert c' k _
  refine ghostEq_of_bag h.left (h.right.insert k _) ?_
  rw [hbag, Function.update_eq_self, h.bag_eq]

theorem touchAll (h : c.GhostEq c') (ks : List K) : c.GhostEq (ks.foldl Content.touch c') := by
  induction ks generalizing c' with
  | nil => exact h
  | cons k ks ih => exact ih (h.touch k)

end Additions

/-! ## Reads -/

omit [DecidableEq K]

theorem groups_eq (h : c.GhostEq c') : c.groups = c'.groups := by
  have hfind : ∀ k, c.get? k = Table.find? ⟨c'.groups⟩ k := fun k => by
    rw [find?_groups h.right, h.get?_eq]
  exact groups_eq_entries h.left (ascends_groups h.right) hfind

theorem size_eq (h : c.GhostEq c') : c.size = c'.size := by
  rw [← length_flatten_groups, ← length_flatten_groups, h.groups_eq]

theorem mappings_eq [Ord V] (h : c.GhostEq c') : c.mappings = c'.mappings := by
  rw [mappings_eq_flatMap_groups, mappings_eq_flatMap_groups, h.groups_eq]

end GhostEq

end Content

namespace Multimap

/-- Two multimaps with the same layers and the same refusal rule, whose contents differ in keys with
an empty bag only. -/
inductive GhostEq : Multimap d E K V → Multimap d E K V → Prop
  | base {c c' : Content d K V} (refusal : K → V → Traced E (Option String)) (h : c.GhostEq c') :
      GhostEq (.base ⟨c, refusal⟩) (.base ⟨c', refusal⟩)
  | layered (l : Layer E K V) {m m' : Multimap d E K V} (h : GhostEq m m') :
      GhostEq (.layered l m) (.layered l m')

theorem ghostEq_withContent (m : Multimap d E K V) {c c' : Content d K V} (h : c.GhostEq c') :
    (m.withContent c).GhostEq (m.withContent c') := by
  induction m with
  | base b => exact .base b.refusal h
  | layered l m ih => exact .layered l ih

namespace GhostEq

variable {m m' : Multimap d E K V}

theorem content (h : m.GhostEq m') : m.content.GhostEq m'.content := by
  induction h with
  | base _ h => exact h
  | layered _ _ ih => exact ih

theorem withContent (h : m.GhostEq m') {c c' : Content d K V} (hc : c.GhostEq c') :
    (m.withContent c).GhostEq (m'.withContent c') := by
  induction h with
  | base refusal _ => exact .base refusal hc
  | layered l _ ih => exact .layered l ih

theorem outer_eq (h : m.GhostEq m') : m.outer = m'.outer := by cases h <;> rfl

theorem flags?_eq (h : m.GhostEq m') : m.flags? = m'.flags? := by cases h <;> rfl

theorem depth_eq (h : m.GhostEq m') : m.depth = m'.depth := by
  induction h with
  | base _ _ => rfl
  | layered _ _ ih => exact congrArg (· + 1) ih

theorem unwrap (h : m.GhostEq m') : m.unwrap.GhostEq m'.unwrap := by
  cases h with
  | base refusal h => exact .base refusal h
  | layered _ h => exact h

theorem peel (h : m.GhostEq m') (n : Nat) : (m.peel n).GhostEq (m'.peel n) := by
  induction n generalizing m m' with
  | zero => exact h
  | succ n ih => exact ih h.unwrap

theorem wrap (h : m.GhostEq m') (n : Nat) : (m.wrap n).GhostEq (m'.wrap n) := by
  induction n with
  | zero => exact h
  | succ n ih => exact .layered .empty ih

variable [Std.LawfulEqOrd K] [Std.TransOrd K]

/-! ## Reads of a multimap -/

theorem isEmpty_eq (h : m.GhostEq m') : m.isEmpty = m'.isEmpty :=
  congrArg (· == 0) h.content.size_eq

theorem mappings_eq [Ord V] (h : m.GhostEq m') : m.mappings = m'.mappings := h.content.mappings_eq

/-- No query tells a key with an empty bag from a missing one. -/
theorem answer_eq [DecidableEq V] [Ord V] (h : m.GhostEq m') (q : Query K V) :
    m.answer q = m'.answer q := by
  have hc := h.content
  cases q with
  | size => exact congrArg _ hc.size_eq
  | isEmpty => exact congrArg _ h.isEmpty_eq
  | keyCount =>
    have hcount : m.content.keyCount = m'.content.keyCount := by
      rw [Content.keyCount_eq_length_groups, Content.keyCount_eq_length_groups, hc.groups_eq]
    exact congrArg _ hcount
  | containsKey k =>
    have hkey : m.content.containsKey k = m'.content.containsKey k := by
      rw [Content.containsKey_eq, Content.containsKey_eq, hc.bag_eq]
    exact congrArg _ hkey
  | containsValue v =>
    have hvalue : m.content.containsValue v = m'.content.containsValue v := by
      rw [Content.containsValue_eq, Content.containsValue_eq, hc.mappings_eq]
    exact congrArg _ hvalue
  | containsMapping k v =>
    have hmapping : m.content.containsMapping k v = m'.content.containsMapping k v := by
      rw [Content.containsMapping_eq, Content.containsMapping_eq, hc.bag_eq]
    exact congrArg _ hmapping
  | get k => exact congrArg (fun b => Report.bag (b.map Bag.toList)) (hc.get?_eq k)
  | mappings => exact congrArg _ h.mappings_eq
  | keys => exact congrArg (fun gs => Report.keys (gs.map (·.1))) hc.groups_eq
  | values =>
    have hvalues : m.content.values = m'.content.values := by
      rw [Content.values_eq, Content.values_eq, hc.mappings_eq]
    exact congrArg _ hvalues

end GhostEq

end Multimap

end LayeredMultimap
