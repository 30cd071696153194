import LayeredMultimap.Proofs.Representation
import Mathlib.Algebra.GroupWithZero.Nat

/-!
# Reads of one content

Each read of a multimap counts, tests or lists what its content holds in a way of its own: some pass
over the entries and leave empty bags out, others rely on an empty bag adding nothing.
`Multimap.ReadsCohere` says that they all describe the same mappings. It needs no more than that the
keys of the content ascend.
-/

namespace LayeredMultimap

variable {d : Discipline} {E K V : Type}

/-! ## Contents -/

namespace Content

theorem sum_size_groups (c : Content d K V) : (c.groups.map (·.2.size)).sum = c.size := by
  have hlength := c.length_flatten_groups
  rw [Multimap.flatten, List.length_flatMap] at hlength
  simpa [Bag.size] using hlength

theorem isEmpty_iff_keyCount (c : Content d K V) : c.isEmpty = true ↔ c.keyCount = 0 := by
  rw [isEmpty, beq_iff_eq, ← sum_size_groups, List.sum_eq_zero_iff_forall_eq_nat,
    keyCount_eq_length_groups, List.length_eq_zero_iff, List.eq_nil_iff_forall_not_mem]
  constructor
  · intro hzero g hg
    have hempty : g.2.size = 0 := hzero _ (List.mem_map_of_mem hg)
    have hfull : (!g.2.isEmpty) = true := (List.mem_filter.1 hg).2
    simp [Bag.isEmpty, hempty] at hfull
  · intro hnone n hn
    obtain ⟨g, hg, -⟩ := List.mem_map.1 hn
    exact absurd hg (hnone g)

variable [Ord K]

theorem containsKey_iff_get? (c : Content d K V) (k : K) :
    c.containsKey k = true ↔ (c.get? k).isSome = true := by
  rw [containsKey_eq, get?_eq]
  cases (c.bag k).isEmpty <;> simp

theorem containsMapping_iff_get? [DecidableEq V] (c : Content d K V) (k : K) (v : V) :
    c.containsMapping k v = true ↔ ∃ b, c.get? k = some b ∧ b.contains v = true := by
  rw [containsMapping_eq, get?_eq]
  cases hempty : (c.bag k).isEmpty with
  | true =>
    rw [Bag.eq_empty hempty]
    simp [Bag.contains]
  | false => simp

variable [Std.LawfulEqOrd K]

theorem get?_of_mem_groups [Std.OrientedOrd K] {c : Content d K V} (h : c.Ascends)
    {g : K × Bag d V} (hg : g ∈ c.groups) : c.get? g.1 = some g.2 := by
  rw [← find?_groups h]
  exact (ascends_groups h).find?_of_mem hg

theorem sum_size_get? [Std.OrientedOrd K] {c : Content d K V} (h : c.Ascends) :
    (c.keys.map fun k => (c.get? k).elim 0 Bag.size).sum = c.size := by
  have hsizes : (c.keys.map fun k => (c.get? k).elim 0 Bag.size) = c.groups.map (·.2.size) := by
    rw [keys, List.map_map]
    apply List.map_congr_left
    intro g hg
    rw [Function.comp_apply, get?_of_mem_groups h hg]
    rfl
  rw [hsizes, sum_size_groups]

theorem nodup_keys {c : Content d K V} (h : c.Ascends) : c.keys.Nodup :=
  (ascends_groups h).nodup_domain

/-- The values of a key come among the mappings as its bag lists them. -/
theorem valuesOf_mappings [DecidableEq K] [Ord V] {c : Content d K V} (h : c.Ascends) (k : K) :
    Flat.valuesOf c.mappings k = (c.bag k).toList := by
  have hnone : (Bag.empty : Bag d V).toList = [] := toList_of_isEmpty rfl
  obtain ⟨es⟩ := c
  simp only [Table.Ascends, mappings, bag, Table.find?] at h ⊢
  induction es with
  | nil => exact hnone.symm
  | cons e r ih =>
    obtain ⟨l, b⟩ := e
    obtain ⟨hl, hr⟩ := List.pairwise_cons.1 h
    rw [List.flatMap_cons, Flat.valuesOf_append, ih hr]
    by_cases hk : l = k
    · subst hk
      have hrest : Table.findIn l r = none := Table.findIn_eq_none hl
      rw [Flat.valuesOf_map_self, hrest, Option.getD_none, hnone, List.append_nil]
      simp [Table.findIn]
    · rw [Flat.valuesOf_map_of_ne hk]
      simp [Table.findIn, Ne.symm hk]

end Content

/-! ## Multimaps -/

namespace Multimap

variable [Ord K] [DecidableEq K] [DecidableEq V] [Ord V]

/-- All reads of a multimap describe the same mappings. What a drain and a removal hand out is read
as well. -/
structure ReadsCohere (m : Multimap d E K V) : Prop where
  size_mappings : m.mappings.length = m.size
  size_values : m.values.length = m.size
  size_get : (m.keys.map fun k => (m.get? k).elim 0 Bag.size).sum = m.size
  size_drain : (m.drain.1.map (·.2.size)).sum = m.size
  keyCount_keys : m.keys.length = m.keyCount
  keyCount_drain : m.drain.1.length = m.keyCount
  nodup_keys : m.keys.Nodup
  isEmpty_size : m.isEmpty = true ↔ m.size = 0
  isEmpty_keyCount : m.isEmpty = true ↔ m.keyCount = 0
  isEmpty_mappings : m.isEmpty = true ↔ m.mappings = []
  containsKey_get : ∀ k, m.containsKey k = true ↔ (m.get? k).isSome = true
  containsKey_keys : ∀ k, m.containsKey k = true ↔ k ∈ m.keys
  containsMapping_mappings : ∀ k v, m.containsMapping k v = true ↔ (k, v) ∈ m.mappings
  containsMapping_get : ∀ k v,
    m.containsMapping k v = true ↔ ∃ b, m.get? k = some b ∧ b.contains v = true
  containsValue_values : ∀ v, m.containsValue v = true ↔ v ∈ m.values
  values_mappings : m.values.Perm (m.mappings.map (·.2))
  get_mappings : ∀ k, Flat.valuesOf m.mappings k = (m.get? k).elim [] Bag.toList
  remove_get : ∀ k, (m.remove k).1 = m.get? k

variable [Std.TransOrd K] [Std.LawfulEqOrd K] {m : Multimap d E K V}

theorem readsCohere_of_ascends (h : m.content.Ascends) : m.ReadsCohere where
  size_mappings := m.content.length_mappings
  size_values := by
    rw [values, Content.values_eq, Ascending.length_sort, List.length_map]
    exact m.content.length_mappings
  size_get := Content.sum_size_get? h
  size_drain := m.content.sum_size_groups
  keyCount_keys := by
    rw [keys, Content.keys, List.length_map]
    exact m.content.keyCount_eq_length_groups.symm
  keyCount_drain := m.content.keyCount_eq_length_groups.symm
  nodup_keys := Content.nodup_keys h
  isEmpty_size := beq_iff_eq
  isEmpty_keyCount := m.content.isEmpty_iff_keyCount
  isEmpty_mappings := mappings_eq_nil_iff.symm
  containsKey_get := m.content.containsKey_iff_get?
  containsKey_keys k := by
    rw [keys, Content.mem_keys_iff h, containsKey, Content.containsKey_eq, Bool.not_eq_true']
  containsMapping_mappings k v := by
    rw [mappings, Content.mem_mappings_iff_bag h, containsMapping, Content.containsMapping_eq,
      Bag.contains_iff]
  containsMapping_get := m.content.containsMapping_iff_get?
  containsValue_values v := by
    rw [containsValue, Content.containsValue_eq, values, Content.values_eq, Ascending.mem_sort,
      decide_eq_true_iff]
  values_mappings := by
    rw [values, Content.values_eq]
    exact Ascending.sort_perm _
  get_mappings k := by
    rw [mappings, Content.valuesOf_mappings h, get?, Content.bag_eq_getD]
    cases m.content.get? k with
    | none => exact Content.toList_of_isEmpty rfl
    | some b => rfl
  remove_get _ := rfl

end Multimap

variable [Ord K] [DecidableEq K] [DecidableEq V] [Ord V] [Std.TransOrd K] [Std.LawfulEqOrd K]
  [Std.TransOrd V] [Std.LawfulEqOrd V] [Logging E] [ToString K] [ToString V]

/-- In whatever orders its recasts find the groups, a run leaves a multimap whose reads cohere. -/
theorem Step.RunsAllTo.readsCohere {ss : List (Step E K V)} {m : Multimap d E K V}
    {x : List (Answer d E K V) × Multimap d E K V} (h : RunsAllTo ss m x)
    (hm : m.content.WellFormed) (n : Nat) : (x.2.peel n).ReadsCohere := by
  apply Multimap.readsCohere_of_ascends
  rw [Multimap.content_peel]
  exact (h.wellFormed hm).ascends

/-- **All reads describe one content**, seen from any depth and after any steps. -/
theorem reads_cohere (ls : List (Layer E K V)) (refusal : K → V → Traced E (Option String))
    (ps : List (K × V)) (ss : List (Step E K V)) (n : Nat) :
    ((Step.runAll ss (Multimap.stack d ls refusal ps)).2.peel n).ReadsCohere :=
  (Step.runsAllTo_runAll ss _).readsCohere (Multimap.wellFormed_stack ls refusal ps) n

/-- An edit that leaves a ghost, and values for a key of which one comes twice. -/
def haunting : List (Step Event Nat Nat) :=
  [.operate 0 (.edit 1 [.drain]), .operate 1 (.putValues 2 (some (Source.ofList [5, 4, 5])))]

/-- The run on sequences. -/
def hauntedStack : Multimap .sequence Event Nat Nat :=
  (Step.runAll haunting (Multimap.stack .sequence tens (fun _ _ => pure none) [(1, 4), (2, 5)])).2

theorem reads_cohere_haunted :
    hauntedStack.content.listing = [(1, []), (2, [5, 5, 4, 5])] ∧
    hauntedStack.mappings = [(2, 5), (2, 5), (2, 4), (2, 5)] ∧
    ∀ n, (hauntedStack.peel n).ReadsCohere :=
  ⟨rfl, rfl, reads_cohere tens (fun _ _ => pure none) [(1, 4), (2, 5)] haunting⟩

end LayeredMultimap
