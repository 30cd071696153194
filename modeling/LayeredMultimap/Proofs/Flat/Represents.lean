import LayeredMultimap.Proofs.Batch
import LayeredMultimap.Proofs.Flat.Values
import LayeredMultimap.Proofs.Lookup

/-!
# Contents and flat sequences

A content represents a flat sequence of mappings if the bag of every key holds the values that the
sequence has for it. Keys with an empty bag do not matter. Every change of a content is matched by
the change of the sequence, and every read gives what the sequence says.
-/

namespace LayeredMultimap

variable {d : Discipline} {E K V : Type} [DecidableEq K] [Ord K] [Ord V]

/-- The bags of a content hold the values of a flat sequence. -/
structure Represents (c : Content d K V) (ps : List (K × V)) : Prop where
  ascends : c.Ascends
  bag_eq : ∀ k, c.bag k = Bag.ofValues d (Flat.valuesOf ps k)

namespace Represents

variable {c c' : Content d K V} {ps ps' : List (K × V)}

theorem empty : Represents (.empty : Content d K V) [] where
  ascends := Table.ascends_empty
  bag_eq k := by simp [Flat.valuesOf]

/-- A new bag for one key matches a change of the values of that key alone. -/
theorem update (h : Represents c ps) (k : K) (hasc : c'.Ascends)
    (hbag : c'.bag = Function.update c.bag k (Bag.ofValues d (Flat.valuesOf ps' k)))
    (hvalues : ∀ l, l ≠ k → Flat.valuesOf ps' l = Flat.valuesOf ps l) : Represents c' ps' where
  ascends := hasc
  bag_eq l := by
    rw [hbag]
    by_cases hl : l = k
    · rw [hl, Function.update_self]
    · rw [Function.update_of_ne hl, h.bag_eq, hvalues l hl]

theorem get?_eq (h : Represents c ps) (k : K) :
    (c.get? k).map Bag.toList = Flat.get? d ps k := by
  rw [Content.get?_eq, h.bag_eq, Bag.isEmpty_ofValues, Flat.get?]
  split_ifs
  · rfl
  · exact congrArg some (Bag.toList_ofValues _)

/-! ## Changes at one key -/

variable [Std.LawfulEqOrd K]

theorem mappings_perm [DecidableEq V] (h : Represents c ps) : c.mappings.Perm ps := by
  refine List.perm_iff_count.2 fun p => ?_
  obtain ⟨k, v⟩ := p
  rw [Content.count_mappings h.ascends, h.bag_eq, (Bag.members_ofValues_perm _).count_eq,
    Flat.count_valuesOf]

theorem erase (h : Represents c ps) (k : K) : Represents (c.erase k) (Flat.without ps k) := by
  refine h.update k (h.ascends.erase k) ?_ fun _ hl => Flat.valuesOf_without_of_ne ps hl
  rw [Content.bag_erase, Flat.valuesOf_without_self, Bag.ofValues_nil]

theorem size_eq [DecidableEq V] (h : Represents c ps) : c.size = ps.length := by
  rw [← Content.length_mappings, h.mappings_perm.length_eq]

variable [Std.TransOrd K]

theorem insert (h : Represents c ps) (k : K)
    (hvalues : ∀ l, l ≠ k → Flat.valuesOf ps' l = Flat.valuesOf ps l) :
    Represents (c.insert k (Bag.ofValues d (Flat.valuesOf ps' k))) ps' :=
  h.update k (h.ascends.insert k _) (Content.bag_insert c k _) hvalues

/-! ## Groups -/

theorem groups_eq (h : Represents c ps) :
    c.groups = (Flat.keys ps).map fun k => (k, Bag.ofValues d (Flat.valuesOf ps k)) := by
  let t : Table K (Bag d V) :=
    ⟨(Flat.keys ps).map fun k => (k, Bag.ofValues d (Flat.valuesOf ps k))⟩
  have ht : t.Ascends := List.pairwise_map.2 (Flat.pairwise_keys ps)
  refine Content.groups_eq_entries h.ascends ht fun k => ?_
  rw [Content.get?_eq, h.bag_eq, Bag.isEmpty_ofValues, Table.find?, Table.findIn_map]
  by_cases hk : k ∈ Flat.keys ps
  · rw [if_pos hk, Flat.mem_keys.1 hk]
    rfl
  · rw [if_neg hk, if_pos]
    simpa using fun hne => hk (Flat.mem_keys.2 hne)

theorem toList_groups (h : Represents c ps) :
    (c.groups.map fun g => (g.1, g.2.toList)) = Flat.groups d ps := by
  rw [h.groups_eq, List.map_map]
  exact List.map_congr_left fun k _ => congrArg (Prod.mk k) (Bag.toList_ofValues _)

theorem keys_eq (h : Represents c ps) : c.keys = Flat.keys ps := by
  rw [Content.keys, h.groups_eq, List.map_map]
  exact List.map_id _

theorem mappings_eq (h : Represents c ps) : c.mappings = Flat.mappings d ps := by
  rw [Content.mappings_eq_flatMap_groups, Flat.mappings, ← h.toList_groups, List.flatMap_map]

variable [DecidableEq V] [Std.TransOrd V] [Std.LawfulEqOrd V]

/-! ## Insertions and removals -/

theorem add (h : Represents c ps) (k : K) (v : V) :
    (c.add k v).1 = (Flat.insert d ps (k, v)).1 ∧
      Represents (c.add k v).2 (Flat.insert d ps (k, v)).2 := by
  rw [Content.add, h.bag_eq, Flat.add_bag]
  exact ⟨rfl, h.insert k fun _ hl => Flat.valuesOf_insert_of_ne ps v hl⟩

theorem addAll (h : Represents c ps) (qs : List (K × V)) :
    (c.addAll qs).1 = (Flat.insertAll d ps qs).1 ∧
      Represents (c.extend qs) (Flat.insertAll d ps qs).2 := by
  induction qs generalizing c ps with
  | nil => exact ⟨rfl, h⟩
  | cons q qs ih =>
    obtain ⟨hflag, hadd⟩ := h.add q.1 q.2
    obtain ⟨hflags, hrest⟩ := ih hadd
    refine ⟨?_, hrest⟩
    rw [Content.addAll, Flat.insertAll]
    simp only [hflag, hflags]

theorem removeMapping (h : Represents c ps) (k : K) (v : V) :
    (c.removeMapping k v).1 = decide ((k, v) ∈ ps) ∧
      Represents (c.removeMapping k v).2 (ps.erase (k, v)) := by
  have hremove := Bag.remove_ofValues (d := d) (Flat.valuesOf ps k) v
  refine ⟨?_, h.update k (Content.ascends_removeMapping h.ascends k v) ?_ ?_⟩
  · rw [Content.removeMapping_fst, h.bag_eq, Bag.contains_ofValues]
    simp only [Flat.mem_valuesOf]
  · rw [Content.bag_removeMapping, h.bag_eq, hremove, Flat.valuesOf_erase_self]
  · exact fun _ hl => Flat.valuesOf_erase_of_ne ps v hl

theorem edit (h : Represents c ps) (k : K) (es : List (Edit V)) :
    (c.edit k es).1 = (Flat.edits d k ps es).1 ∧
      Represents (c.edit k es).2 (Flat.edits d k ps es).2 := by
  obtain ⟨hreplies, hbag⟩ := Flat.edits_bag (d := d) ps k es
  rw [Content.edit, h.bag_eq, hreplies, hbag]
  exact ⟨rfl, h.insert k fun _ hl => Flat.valuesOf_edits_of_ne ps es hl⟩

/-! ## Reads -/

theorem answer_eq (h : Represents c ps) (q : Query K V) :
    (Multimap.ofContent c : Multimap d E K V).answer q = Flat.answer d ps q := by
  cases q with
  | size => exact congrArg _ h.size_eq
  | isEmpty =>
    have hempty : c.isEmpty = ps.isEmpty := by
      rw [Content.isEmpty, h.size_eq]
      cases ps <;> rfl
    exact congrArg _ hempty
  | keyCount =>
    have hcount : c.keyCount = (ps.map (·.1)).dedup.length := by
      rw [Content.keyCount_eq_length_groups, h.groups_eq, List.length_map, Flat.keys,
        Ascending.length_sort]
    exact congrArg _ hcount
  | containsKey k =>
    have hkey : c.containsKey k = decide (k ∈ ps.map (·.1)) := by
      rw [Content.containsKey_eq, h.bag_eq, Bag.isEmpty_ofValues, Bool.eq_iff_iff,
        decide_eq_true_iff, Flat.mem_map_fst, Bool.not_eq_true']
    exact congrArg _ hkey
  | containsValue v =>
    have hvalue : c.containsValue v = decide (v ∈ ps.map (·.2)) := by
      rw [Content.containsValue_eq]
      simp only [(h.mappings_perm.map (·.2)).mem_iff]
    exact congrArg _ hvalue
  | containsMapping k v =>
    have hmapping : c.containsMapping k v = decide ((k, v) ∈ ps) := by
      rw [Content.containsMapping_eq, h.bag_eq, Bag.contains_ofValues]
      simp only [Flat.mem_valuesOf]
    exact congrArg _ hmapping
  | get k => exact congrArg _ (h.get?_eq k)
  | mappings => exact congrArg _ h.mappings_eq
  | keys => exact congrArg _ h.keys_eq
  | values =>
    have hvalues : c.values = Ascending.sort (ps.map (·.2)) := by
      rw [Content.values_eq]
      exact Ascending.sort_eq_of_perm (h.mappings_perm.map _)
    exact congrArg _ hvalues

end Represents

end LayeredMultimap
