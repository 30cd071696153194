import LayeredMultimap.Proofs.Stored

/-!
# The same mappings, each once

A multimap whose bags keep every addition is set against one with the same layers and the same
refusal rule whose bags hold a value at most once. `Condenses` says that the second one holds the
mappings of the first, each of them once. Then most reads cannot tell them apart
(`Multimap.Condenses.readsAlike`), and an addition takes both to contents that are again so related.
-/

namespace LayeredMultimap

variable {d : Discipline} {E K V : Type}

/-! ## Bags -/

/-- The bag `b'` holds the values of the sequence `b`, each of them once. -/
structure Bag.Condenses (b : Bag .sequence V) (b' : Bag d V) : Prop where
  mem : ∀ v, v ∈ b'.members ↔ v ∈ b.members
  nodup : b'.members.Nodup

namespace Bag

theorem condenses_empty : (empty : Bag .sequence V).Condenses (empty : Bag d V) :=
  ⟨fun _ => Iff.rfl, .nil⟩

namespace Condenses

variable {b : Bag .sequence V} {b' : Bag d V}

theorem isEmpty_eq (h : b.Condenses b') : b'.isEmpty = b.isEmpty := by
  rw [Bool.eq_iff_iff, isEmpty_iff, isEmpty_iff, List.eq_nil_iff_forall_not_mem,
    List.eq_nil_iff_forall_not_mem]
  exact forall_congr' fun v => not_congr (h.mem v)

variable [DecidableEq V]

theorem contains_eq (h : b.Condenses b') (v : V) : b'.contains v = b.contains v := by
  rw [Bool.eq_iff_iff, contains_iff, contains_iff, h.mem]

variable [Ord V]

theorem toList_perm (h : b.Condenses b') : b'.toList.Perm b.toList.dedup := by
  refine (Bag.toList_perm b').trans ?_
  refine (List.perm_ext_iff_of_nodup h.nodup (List.nodup_dedup _)).2 fun v => ?_
  rw [List.mem_dedup, mem_toList, h.mem]

/-- A sequence takes every value; the other bag takes those that the sequence did not have. -/
theorem add_fst (hd : d ≠ .sequence) (h : b.Condenses b') (v : V) :
    (b'.add v).1 = !b.contains v := by
  rw [Bag.add_fst, h.contains_eq, beq_eq_false_iff_ne.2 hd, Bool.false_or]

theorem add (hd : d ≠ .sequence) (h : b.Condenses b') (v : V) :
    (b.add v).2.Condenses (b'.add v).2 := by
  refine ⟨fun w => ?_, nodup_add hd h.nodup v⟩
  rw [mem_add, mem_add, h.mem]

end Condenses

theorem condenses_addAll [DecidableEq V] [Ord V] (hd : d ≠ .sequence) {vs ws : List V}
    (h : ∀ v, v ∈ ws ↔ v ∈ vs) :
    ((empty : Bag .sequence V).addAll vs).Condenses ((empty : Bag d V).addAll ws) := by
  refine ⟨fun v => ?_, nodup_addAll hd .nil ws⟩
  rw [mem_addAll, mem_addAll, h]
  rfl

end Bag

/-! ## Contents -/

section

variable [Ord K]

/-- The bags of `c'` hold the values of the sequences of `c`, each of them once. -/
structure Content.Condenses (c : Content .sequence K V) (c' : Content d K V) : Prop where
  left : c.Ascends
  right : c'.Ascends
  bags : ∀ k, (c.bag k).Condenses (c'.bag k)

namespace Content

theorem condenses_empty : Condenses (.empty : Content .sequence K V) (.empty : Content d K V) :=
  ⟨Table.ascends_empty, Table.ascends_empty, fun _ => Bag.condenses_empty⟩

variable [Std.LawfulEqOrd K] [DecidableEq K]

namespace Condenses

variable {c : Content .sequence K V} {c' : Content d K V}

/-! ### Changes -/

theorem erase (h : c.Condenses c') (k : K) : Condenses (c.erase k) (c'.erase k) := by
  refine ⟨h.left.erase k, h.right.erase k, fun l => ?_⟩
  rw [bag_erase, bag_erase]
  by_cases hl : l = k
  · rw [hl, Function.update_self, Function.update_self]
    exact Bag.condenses_empty
  · rw [Function.update_of_ne hl, Function.update_of_ne hl]
    exact h.bags l

variable [Std.TransOrd K]

theorem insert (h : c.Condenses c') (k : K) {b : Bag .sequence V} {b' : Bag d V}
    (hb : b.Condenses b') : Condenses (c.insert k b) (c'.insert k b') := by
  refine ⟨h.left.insert k b, h.right.insert k b', fun l => ?_⟩
  rw [bag_insert, bag_insert]
  by_cases hl : l = k
  · rwa [hl, Function.update_self, Function.update_self]
  · rw [Function.update_of_ne hl, Function.update_of_ne hl]
    exact h.bags l

variable [DecidableEq V] [Ord V]

theorem add (hd : d ≠ .sequence) (h : c.Condenses c') (k : K) (v : V) :
    (c.add k v).2.Condenses (c'.add k v).2 := h.insert k ((h.bags k).add hd v)

/-! ### Reads -/

omit [DecidableEq K] [Std.LawfulEqOrd K] [Std.TransOrd K] [Ord V] in
theorem containsMapping_eq (h : c.Condenses c') (k : K) (v : V) :
    c'.containsMapping k v = c.containsMapping k v := by
  rw [Content.containsMapping_eq, Content.containsMapping_eq, (h.bags k).contains_eq]

omit [DecidableEq K] [Std.LawfulEqOrd K] [Std.TransOrd K] [Ord V] [DecidableEq V] in
theorem containsKey_eq (h : c.Condenses c') (k : K) : c'.containsKey k = c.containsKey k := by
  rw [Content.containsKey_eq, Content.containsKey_eq, (h.bags k).isEmpty_eq]

omit [Std.TransOrd K] in
theorem mem_mappings (h : c.Condenses c') (p : K × V) : p ∈ c'.mappings ↔ p ∈ c.mappings := by
  rw [mem_mappings_iff_bag h.left, mem_mappings_iff_bag h.right, (h.bags p.1).mem]

omit [Std.TransOrd K] in
theorem containsValue_eq (h : c.Condenses c') (v : V) : c'.containsValue v = c.containsValue v := by
  rw [Content.containsValue_eq, Content.containsValue_eq, decide_eq_decide, List.mem_map,
    List.mem_map]
  exact exists_congr fun p => and_congr_left fun _ => h.mem_mappings p

omit [DecidableEq K] [DecidableEq V] [Ord V] in
theorem keys_eq (h : c.Condenses c') : c'.keys = c.keys := by
  refine Table.Ascends.domain_eq (ascends_groups h.right) (ascends_groups h.left) fun k => ?_
  have hkeys : k ∈ c'.keys ↔ k ∈ c.keys := by
    rw [mem_keys_iff h.right, mem_keys_iff h.left, (h.bags k).isEmpty_eq]
  exact hkeys

omit [DecidableEq K] [DecidableEq V] [Ord V] in
theorem keyCount_eq (h : c.Condenses c') : c'.keyCount = c.keyCount := by
  have hlen : c'.keys.length = c.keys.length := by rw [h.keys_eq]
  rwa [keys, keys, List.length_map, List.length_map, ← keyCount_eq_length_groups,
    ← keyCount_eq_length_groups] at hlen

omit [DecidableEq K] [Std.LawfulEqOrd K] [Std.TransOrd K] in
theorem get?_rel (h : c.Condenses c') (k : K) :
    Option.Rel (fun b b' => b'.toList.Perm b.toList.dedup) (c.get? k) (c'.get? k) := by
  rw [get?_eq, get?_eq, (h.bags k).isEmpty_eq]
  cases (c.bag k).isEmpty with
  | true => exact .none
  | false => exact .some (h.bags k).toList_perm

omit [Std.TransOrd K] in
theorem size_le (h : c.Condenses c') : c'.size ≤ c.size := by
  have hnodup : c'.mappings.Nodup := List.nodup_iff_count_le_one.2 fun p => by
    rw [count_mappings h.right p.1 p.2]
    exact List.nodup_iff_count_le_one.1 (h.bags p.1).nodup p.2
  rw [← length_mappings, ← length_mappings]
  exact (List.subperm_of_subset hnodup fun p => (h.mem_mappings p).1).length_le

end Condenses

theorem ofMappings_condenses [Std.TransOrd K] [DecidableEq V] [Ord V] (hd : d ≠ .sequence)
    {ps qs : List (K × V)} (h : ∀ p, p ∈ qs ↔ p ∈ ps) :
    (ofMappings ps : Content .sequence K V).Condenses (ofMappings qs : Content d K V) := by
  refine ⟨ascends_ofMappings ps, ascends_ofMappings qs, fun k => ?_⟩
  rw [ofMappings, ofMappings, bag_extend, bag_extend]
  refine Bag.condenses_addAll hd fun v => ?_
  rw [Flat.mem_valuesOf, Flat.mem_valuesOf, h]

end Content

/-! ## Multimaps -/

namespace Multimap

/-- Two multimaps with the same layers and the same refusal rule, of which the second one holds the
mappings of the first, each of them once. -/
inductive Condenses : Multimap .sequence E K V → Multimap d E K V → Prop
  | base {c : Content .sequence K V} {c' : Content d K V}
      (refusal : K → V → Traced E (Option String)) (h : c.Condenses c') :
      Condenses (.base ⟨c, refusal⟩) (.base ⟨c', refusal⟩)
  | layered (l : Layer E K V) {m : Multimap .sequence E K V} {m' : Multimap d E K V}
      (h : Condenses m m') : Condenses (.layered l m) (.layered l m')

/-- Reads that find the same mappings and the same keys, and under each key the distinct values. -/
structure ReadsAlike [DecidableEq V] [Ord V] (m : Multimap .sequence E K V)
    (m' : Multimap d E K V) : Prop where
  containsMapping : ∀ k v, m'.containsMapping k v = m.containsMapping k v
  containsKey : ∀ k, m'.containsKey k = m.containsKey k
  containsValue : ∀ v, m'.containsValue v = m.containsValue v
  keyCount : m'.keyCount = m.keyCount
  keys : m'.keys = m.keys
  get : ∀ k, Option.Rel (fun b b' => b'.toList.Perm b.toList.dedup) (m.get? k) (m'.get? k)
  size : m'.size ≤ m.size

namespace Condenses

variable {m : Multimap .sequence E K V} {m' : Multimap d E K V}

theorem content (h : m.Condenses m') : m.content.Condenses m'.content := by
  induction h with
  | base _ h => exact h
  | layered _ _ ih => exact ih

theorem withContent (h : m.Condenses m') {c : Content .sequence K V} {c' : Content d K V}
    (hc : c.Condenses c') : (m.withContent c).Condenses (m'.withContent c') := by
  induction h with
  | base refusal _ => exact .base refusal hc
  | layered l _ ih => exact .layered l ih

theorem outer_eq (h : m.Condenses m') : m.outer = m'.outer := by cases h <;> rfl

theorem layers_eq (h : m.Condenses m') : m.layers = m'.layers := by
  induction h with
  | base _ _ => rfl
  | layered l _ ih => exact congrArg (l :: ·) ih

theorem unwrap (h : m.Condenses m') : m.unwrap.Condenses m'.unwrap := by
  cases h with
  | base refusal h => exact .base refusal h
  | layered _ h => exact h

theorem peel (h : m.Condenses m') (n : Nat) : (m.peel n).Condenses (m'.peel n) := by
  induction n generalizing m m' with
  | zero => exact h
  | succ n ih => exact ih h.unwrap

/-- What becomes of a mapping on its way to the base hangs on the layers and the rule alone. -/
theorem arrival_eq [DecidableEq K] [DecidableEq V] (h : m.Condenses m') (k : K) (v : V) :
    m.arrival k v = m'.arrival k v := by
  induction h generalizing k v with
  | base _ _ => rfl
  | layered l _ ih =>
    cases hl : (l.pass k v).result with
    | ok p => rw [arrival_layered_of_ok hl, arrival_layered_of_ok hl, ih]
    | error e => rw [arrival_layered_of_error hl, arrival_layered_of_error hl]

theorem readsAlike [Std.LawfulEqOrd K] [Std.TransOrd K] [DecidableEq K] [DecidableEq V] [Ord V]
    (h : m.Condenses m') : m.ReadsAlike m' where
  containsMapping := h.content.containsMapping_eq
  containsKey := h.content.containsKey_eq
  containsValue := h.content.containsValue_eq
  keyCount := h.content.keyCount_eq
  keys := h.content.keys_eq
  get := h.content.get?_rel
  size := h.content.size_le

end Condenses

end Multimap

end

end LayeredMultimap
