import LayeredMultimap.Multimap.Recast
import Mathlib.Data.List.Count

/-!
# The mappings of a content

A change at one key splits a content into the bag of that key and the rest (`mappings_insert`,
`mappings_perm`), so that what an addition does to all mappings follows from what it does to one bag
(`mappings_add`).
-/

namespace LayeredMultimap

namespace Table

variable {K β : Type} [Ord K]

theorem filter_eq_self_of_lt {k : K} {es : List (K × β)} (h : ∀ e ∈ es, compare k e.1 = .lt) :
    (es.filter fun e => !(compare k e.1 == .eq)) = es :=
  List.filter_eq_self.2 fun e he => by simp [h e he]

theorem erase_of_find?_eq_none {t : Table K β} {k : K} (h : t.find? k = none) : t.erase k = t := by
  obtain ⟨es⟩ := t
  simp only [find?, erase] at h ⊢
  congr 1
  refine List.filter_eq_self.2 fun e he => ?_
  induction es with
  | nil => cases he
  | cons a r ih =>
    by_cases ha : compare k a.1 = .eq
    · simp [findIn, ha] at h
    · rcases List.mem_cons.1 he with rfl | he
      · simp [ha]
      · exact ih (by simpa [findIn, ha] using h) he

variable [Std.LawfulEqOrd K]

theorem Ascends.entries_insert [Std.TransOrd K] {t : Table K β} (h : t.Ascends) (k : K) (b : β) :
    (t.insert k b).entries.Perm ((k, b) :: (t.erase k).entries) := by
  obtain ⟨es⟩ := t
  simp only [Ascends, Table.insert, Table.erase] at h ⊢
  induction es with
  | nil => exact .refl _
  | cons e r ih =>
    obtain ⟨l, c⟩ := e
    obtain ⟨hl, hr⟩ := List.pairwise_cons.1 h
    unfold insertIn
    cases hk : compare k l with
    | lt =>
      have hall : ∀ e ∈ (l, c) :: r, compare k e.1 = .lt := fun e he => by
        rcases List.mem_cons.1 he with rfl | he
        · exact hk
        · exact Std.TransCmp.lt_trans hk (hl e he)
      rw [filter_eq_self_of_lt hall]
    | eq =>
      obtain rfl := Std.LawfulEqOrd.eq_of_compare hk
      rw [List.filter_cons_of_neg (by simp), filter_eq_self_of_lt hl]
    | gt =>
      rw [List.filter_cons_of_pos (by simp [hk])]
      exact ((ih hr).cons _).trans (.swap _ _ _)

theorem Ascends.entries_of_find? {t : Table K β} (h : t.Ascends) {k : K} {b : β}
    (hb : t.find? k = some b) : t.entries.Perm ((k, b) :: (t.erase k).entries) := by
  obtain ⟨es⟩ := t
  simp only [Ascends, Table.find?, Table.erase] at h hb ⊢
  induction es with
  | nil => cases hb
  | cons e r ih =>
    obtain ⟨l, c⟩ := e
    obtain ⟨hl, hr⟩ := List.pairwise_cons.1 h
    by_cases hk : compare k l = .eq
    · obtain rfl := Std.LawfulEqOrd.eq_of_compare hk
      obtain rfl : c = b := by simpa [findIn, hk] using hb
      rw [List.filter_cons_of_neg (by simp), filter_eq_self_of_lt hl]
    · rw [List.filter_cons_of_pos (by simp [hk])]
      exact ((ih hr (by simpa [findIn, hk] using hb)).cons _).trans (.swap _ _ _)

end Table

namespace Content

variable {d : Discipline} {K V : Type}

theorem length_mappings [Ord V] (c : Content d K V) : c.mappings.length = c.size := by
  obtain ⟨es⟩ := c
  simp only [mappings, size]
  induction es with
  | nil => rfl
  | cons e r ih => simp [ih]

theorem length_flatten_groups (c : Content d K V) :
    (Multimap.flatten c.groups).length = c.size := by
  obtain ⟨es⟩ := c
  simp only [groups, Multimap.flatten, size]
  induction es with
  | nil => rfl
  | cons e r ih =>
    by_cases he : e.2.isEmpty = true
    · have hz : e.2.size = 0 := by simpa [Bag.isEmpty] using he
      rw [List.filter_cons_of_neg (by simp [he]), ih, List.foldr_cons, hz, Nat.zero_add]
    · rw [List.filter_cons_of_pos (by simp [he])]
      simp [ih, Bag.size]

theorem toList_of_isEmpty [Ord V] {b : Bag d V} (h : b.isEmpty = true) : b.toList = [] :=
  List.eq_nil_of_length_eq_zero (by simpa [Bag.isEmpty] using h)

theorem mappings_eq_flatMap_groups [Ord V] (c : Content d K V) :
    c.mappings = c.groups.flatMap fun g => g.2.toList.map (g.1, ·) := by
  obtain ⟨es⟩ := c
  simp only [mappings, groups]
  induction es with
  | nil => rfl
  | cons e r ih =>
    by_cases he : e.2.isEmpty = true
    · rw [List.filter_cons_of_neg (by simp [he]), List.flatMap_cons, ih, toList_of_isEmpty he]
      rfl
    · rw [List.filter_cons_of_pos (by simp [he]), List.flatMap_cons, List.flatMap_cons, ih]

theorem keyCount_eq_length_groups (c : Content d K V) : c.keyCount = c.groups.length :=
  List.countP_eq_length_filter

theorem containsValue_eq [Ord V] [DecidableEq V] (c : Content d K V) (v : V) :
    c.containsValue v = decide (v ∈ c.mappings.map (·.2)) := by
  rw [Bool.eq_iff_iff, decide_eq_true_iff]
  simp [containsValue, mappings, Bag.contains]

theorem values_eq [Ord V] (c : Content d K V) :
    c.values = Ascending.sort (c.mappings.map (·.2)) := by
  simp [values, mappings, List.map_flatMap, Function.comp_def]

variable [Ord K] [Std.LawfulEqOrd K] [Ord V]

/-- The mappings of a content: those of a key and those of the other keys. -/
theorem mappings_perm {c : Content d K V} (h : c.Ascends) (k : K) :
    c.mappings.Perm ((c.bag k).toList.map (k, ·) ++ mappings (c.erase k)) := by
  cases hb : c.find? k with
  | none =>
    have hnil : (Bag.empty : Bag d V).toList = [] := toList_of_isEmpty rfl
    rw [bag, hb, Option.getD_none, hnil, Table.erase_of_find?_eq_none hb]
    exact .refl _
  | some b =>
    rw [bag, hb, Option.getD_some]
    exact (h.entries_of_find? hb).flatMap_right _

theorem not_mem_mappings_erase (c : Content d K V) (k : K) (v : V) :
    (k, v) ∉ mappings (c.erase k) := by
  intro h
  obtain ⟨e, he, hv⟩ := List.mem_flatMap.1 h
  obtain ⟨w, -, hw⟩ := List.mem_map.1 hv
  obtain rfl : e.1 = k := congrArg Prod.fst hw
  simp [Table.erase] at he

theorem count_mappings [DecidableEq K] [DecidableEq V] {c : Content d K V} (h : c.Ascends) (k : K)
    (v : V) : c.mappings.count (k, v) = (c.bag k).members.count v := by
  have hinj : Function.Injective (fun v : V => (k, v)) := fun a b hab => congrArg Prod.snd hab
  have hrest := List.count_eq_zero_of_not_mem (not_mem_mappings_erase c k v)
  rw [(mappings_perm h k).count_eq, List.count_append, hrest, Nat.add_zero,
    List.count_map_of_injective _ _ hinj, (Bag.toList_perm _).count_eq]

variable [Std.TransOrd K]

theorem mappings_insert {c : Content d K V} (h : c.Ascends) (k : K) (b : Bag d V) :
    (mappings (c.insert k b)).Perm (b.toList.map (k, ·) ++ mappings (c.erase k)) :=
  (h.entries_insert k b).flatMap_right _

variable [DecidableEq V]

theorem ascends_add {c : Content d K V} (h : c.Ascends) (k : K) (v : V) : (c.add k v).2.Ascends :=
  h.insert k _

theorem ascends_extend {c : Content d K V} (h : c.Ascends) (ps : List (K × V)) :
    (c.extend ps).Ascends := by
  induction ps generalizing c with
  | nil => exact h
  | cons p ps ih => exact ih (ascends_add h p.1 p.2)

theorem ascends_ofMappings (ps : List (K × V)) : (ofMappings ps : Content d K V).Ascends :=
  ascends_extend Table.ascends_empty ps

theorem mappings_add {c : Content d K V} (h : c.Ascends) (k : K) (v : V) :
    (c.add k v).2.mappings.Perm (if (c.add k v).1 then (k, v) :: c.mappings else c.mappings) := by
  have hins := mappings_insert h k ((c.bag k).add v).2
  have hold := mappings_perm h k
  cases hadd : ((c.bag k).add v).1 with
  | true =>
    have hbag : ((c.bag k).add v).2.toList.Perm (v :: (c.bag k).toList) :=
      ((Bag.toList_perm _).trans (Bag.perm_of_add hadd)).trans ((Bag.toList_perm _).symm.cons v)
    simp only [add, hadd, if_true]
    exact (hins.trans ((hbag.map _).append_right _)).trans (hold.symm.cons _)
  | false =>
    rw [Bag.add_snd_of_false hadd] at hins
    simp only [add, hadd, Bag.add_snd_of_false hadd]
    exact hins.trans hold.symm

theorem mappings_extend_sequence {c : Content .sequence K V} (h : c.Ascends) (ps : List (K × V)) :
    (c.extend ps).mappings.Perm (c.mappings ++ ps) := by
  induction ps generalizing c with
  | nil => simp [extend]
  | cons p ps ih =>
    have hadd : (c.add p.1 p.2).2.mappings.Perm (p :: c.mappings) := mappings_add h p.1 p.2
    have hmid : (p :: c.mappings ++ ps).Perm (c.mappings ++ p :: ps) := List.perm_middle.symm
    exact ((ih (ascends_add h p.1 p.2)).trans (hadd.append_right ps)).trans hmid

end Content

end LayeredMultimap
