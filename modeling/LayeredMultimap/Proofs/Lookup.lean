import LayeredMultimap.Proofs.Mappings
import Mathlib.Logic.Function.Basic

/-!
# The bags of a content

All look-ups in a content follow from the bag of the key (`get?_eq`, `containsKey_eq`,
`containsMapping_eq`), and every change gives one key a new bag and leaves the others alone
(`bag_insert`, `bag_erase`, `bag_removeMapping`). A key with an empty bag is told apart from a
missing one by none of these equations.
-/

namespace LayeredMultimap

theorem Table.findIn_map {K β : Type} [Ord K] [Std.LawfulEqOrd K] [DecidableEq K] (f : K → β)
    (k : K) (ks : List K) :
    findIn k (ks.map fun l => (l, f l)) = if k ∈ ks then some (f k) else none := by
  induction ks with
  | nil => rfl
  | cons l ks ih =>
    by_cases hk : k = l
    · simp [findIn, hk]
    · simp [findIn, hk, ih]

theorem Bag.eq_empty {d : Discipline} {V : Type} {b : Bag d V} (h : b.isEmpty = true) :
    b = .empty := by
  ext1
  exact Bag.isEmpty_iff.1 h

theorem Bag.isEmpty_of_mem {d : Discipline} {V : Type} {b : Bag d V} {v : V} (h : v ∈ b.members) :
    b.isEmpty = false := by
  by_contra hempty
  rw [Bool.not_eq_false, Bag.isEmpty_iff] at hempty
  rw [hempty] at h
  cases h

namespace Content

variable {d : Discipline} {K V : Type} [Ord K]

/-! ## Reads -/

theorem get?_eq (c : Content d K V) (k : K) :
    c.get? k = if (c.bag k).isEmpty then none else some (c.bag k) := by
  rw [get?, bag]
  cases c.find? k with
  | none => rfl
  | some b => cases h : b.isEmpty <;> simp [Option.filter, h]

theorem bag_eq_getD (c : Content d K V) (k : K) : c.bag k = (c.get? k).getD .empty := by
  rw [get?_eq]
  cases h : (c.bag k).isEmpty with
  | true => exact Bag.eq_empty h
  | false => rfl

theorem containsKey_eq (c : Content d K V) (k : K) : c.containsKey k = !(c.bag k).isEmpty := by
  rw [containsKey, bag]
  cases c.find? k <;> rfl

theorem containsMapping_eq [DecidableEq V] (c : Content d K V) (k : K) (v : V) :
    c.containsMapping k v = (c.bag k).contains v := by
  rw [containsMapping, bag]
  cases c.find? k with
  | none => simp [Bag.contains]
  | some b => rfl

@[simp] theorem bag_empty (k : K) : bag (.empty : Content d K V) k = .empty := rfl

/-! ## Changes -/

theorem removeMapping_fst [DecidableEq V] (c : Content d K V) (k : K) (v : V) :
    (c.removeMapping k v).1 = (c.bag k).contains v := by
  rw [removeMapping, bag]
  cases c.find? k with
  | none => simp [Bag.contains]
  | some b => rfl

/-- All that a removal can do: nothing, or drop the key, or set its bag to one that has values. -/
theorem removeMapping_snd_cases [DecidableEq V] (c : Content d K V) (k : K) (v : V) :
    (c.find? k = none ∧ (c.removeMapping k v).2 = c) ∨
      ∃ b, c.find? k = some b ∧
        ((b.remove v).2.isEmpty = true ∧ (c.removeMapping k v).2 = c.erase k ∨
          (b.remove v).2.isEmpty = false ∧
            (c.removeMapping k v).2 = c.insert k (b.remove v).2) := by
  unfold removeMapping
  cases c.find? k with
  | none => exact .inl ⟨rfl, rfl⟩
  | some b =>
    refine .inr ⟨b, rfl, ?_⟩
    by_cases hempty : (b.remove v).2.isEmpty = true
    · exact .inl ⟨hempty, if_pos hempty⟩
    · exact .inr ⟨Bool.eq_false_iff.2 hempty, if_neg hempty⟩

section Changes

variable [DecidableEq K] [Std.LawfulEqOrd K]

theorem bag_insert (c : Content d K V) (k : K) (b : Bag d V) :
    bag (c.insert k b) = Function.update c.bag k b := by
  funext l
  by_cases hl : l = k
  · rw [hl, Function.update_self, bag, Table.find?_insert_self]
    rfl
  · rw [Function.update_of_ne hl, bag, Table.find?_insert_of_ne c b hl]
    rfl

theorem bag_erase (c : Content d K V) (k : K) :
    bag (c.erase k) = Function.update c.bag k .empty := by
  funext l
  by_cases hl : l = k
  · rw [hl, Function.update_self, bag, Table.find?_erase_self]
    rfl
  · rw [Function.update_of_ne hl, bag, Table.find?_erase_of_ne c hl]
    rfl

theorem bag_removeMapping [DecidableEq V] (c : Content d K V) (k : K) (v : V) :
    (c.removeMapping k v).2.bag = Function.update c.bag k ((c.bag k).remove v).2 := by
  obtain ⟨hb, hsame⟩ | ⟨b, hb, ⟨hempty, hdrop⟩ | ⟨-, hset⟩⟩ := c.removeMapping_snd_cases k v
  · have hbag : ((c.bag k).remove v).2 = c.bag k := by
      rw [bag, hb]
      rfl
    rw [hsame, hbag, Function.update_eq_self]
  · rw [hdrop, bag_erase, bag, hb, Option.getD_some, Bag.eq_empty hempty]
  · rw [hset, bag_insert, bag, hb, Option.getD_some]

end Changes

variable [Std.LawfulEqOrd K]

/-! ## The order of the keys -/

theorem ascends_removeMapping [Std.TransOrd K] [DecidableEq V] {c : Content d K V} (h : c.Ascends)
    (k : K) (v : V) : (c.removeMapping k v).2.Ascends := by
  obtain ⟨-, hsame⟩ | ⟨b, -, ⟨-, hdrop⟩ | ⟨-, hset⟩⟩ := c.removeMapping_snd_cases k v
  · rwa [hsame]
  · rw [hdrop]
    exact h.erase k
  · rw [hset]
    exact h.insert k _

/-! ## Groups -/

omit [Std.LawfulEqOrd K] in
theorem ascends_groups {c : Content d K V} (h : c.Ascends) : Table.Ascends ⟨c.groups⟩ :=
  List.Pairwise.sublist List.filter_sublist h

/-- The groups are a table of their own, in which the keys without values are missing. -/
theorem find?_groups {c : Content d K V} (h : c.Ascends) (k : K) :
    Table.find? ⟨c.groups⟩ k = c.get? k := by
  obtain ⟨es⟩ := c
  simp only [Table.Ascends, groups, get?, Table.find?] at h ⊢
  induction es with
  | nil => rfl
  | cons e r ih =>
    obtain ⟨l, b⟩ := e
    obtain ⟨hl, hr⟩ := List.pairwise_cons.1 h
    by_cases hk : compare k l = .eq
    · obtain rfl := Std.LawfulEqOrd.eq_of_compare hk
      cases hb : b.isEmpty with
      | true =>
        have hnone : Table.findIn k (r.filter fun e => !e.2.isEmpty) = none :=
          Table.findIn_eq_none fun e he => hl e (List.mem_filter.1 he).1
        rw [List.filter_cons_of_neg (by simp [hb]), hnone]
        simp [Table.findIn, Option.filter, hb]
      | false =>
        rw [List.filter_cons_of_pos (by simp [hb])]
        simp [Table.findIn, Option.filter, hb]
    · cases hb : b.isEmpty with
      | true =>
        rw [List.filter_cons_of_neg (by simp [hb]), ih hr]
        simp [Table.findIn, hk]
      | false =>
        rw [List.filter_cons_of_pos (by simp [hb])]
        simpa [Table.findIn, hk] using ih hr

theorem groups_eq_entries [Std.TransOrd K] {c : Content d K V} (h : c.Ascends)
    {t : Table K (Bag d V)} (ht : t.Ascends) (hfind : ∀ k, c.get? k = t.find? k) :
    c.groups = t.entries := by
  have heq : (⟨c.groups⟩ : Table K (Bag d V)) = t :=
    (ascends_groups h).ext ht fun k => by rw [find?_groups h, hfind]
  exact congrArg Table.entries heq

end Content

end LayeredMultimap
