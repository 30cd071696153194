import LayeredMultimap.Proofs.Ascending
import LayeredMultimap.Proofs.Flat
import Mathlib.Tactic.SplitIfs

/-!
# The values of a key in a flat sequence

`Bag.ofValues` is the bag that holds the values of one key, and each change of a bag is the change
of the values behind it. In the sequence itself a change at one key leaves the values of the other
keys alone.
-/

namespace LayeredMultimap

variable {d : Discipline} {E K V : Type}

/-! ## Bags -/

/-- The bag of values that were added in the given order. -/
def Bag.ofValues [Ord V] (d : Discipline) (vs : List V) : Bag d V :=
  match d with
  | .sequence => ⟨vs⟩
  | .distinct => ⟨vs⟩
  | .ascending => ⟨Ascending.sort vs⟩

namespace Bag

variable [Ord V]

@[simp] theorem toList_ofValues (vs : List V) : (ofValues d vs).toList = Flat.arrange d vs := by
  cases d <;> rfl

theorem members_ofValues_perm (vs : List V) : (ofValues d vs).members.Perm vs := by
  cases d
  · exact .refl _
  · exact .refl _
  · exact Ascending.sort_perm vs

@[simp] theorem size_ofValues (vs : List V) : (ofValues d vs).size = vs.length :=
  (members_ofValues_perm vs).length_eq

@[simp] theorem isEmpty_ofValues (vs : List V) : (ofValues d vs).isEmpty = vs.isEmpty := by
  rw [isEmpty, size_ofValues]
  cases vs <;> rfl

@[simp] theorem ofValues_nil : ofValues d ([] : List V) = empty := by
  cases d <;> rfl

variable [DecidableEq V]

@[simp] theorem contains_ofValues (vs : List V) (v : V) :
    (ofValues d vs).contains v = decide (v ∈ vs) := by
  simp [contains, (members_ofValues_perm vs).mem_iff]

variable [Std.TransOrd V] [Std.LawfulEqOrd V]

theorem add_ofValues (vs : List V) (v : V) :
    (ofValues d vs).add v =
      if d ≠ .sequence ∧ v ∈ vs then (false, ofValues d vs)
      else (true, ofValues d (vs ++ [v])) := by
  cases d with
  | sequence => rfl
  | distinct =>
    by_cases hv : v ∈ vs
    · rw [if_pos ⟨by decide, hv⟩]
      simp [add, hv]
    · rw [if_neg (fun h => hv h.2)]
      simp [add, hv, ofValues]
  | ascending =>
    by_cases hv : v ∈ vs
    · rw [if_pos ⟨by decide, hv⟩]
      simp [add, hv]
    · rw [if_neg (fun h => hv h.2)]
      simp [add, hv, ofValues, Ascending.insert_sort]

theorem remove_ofValues (vs : List V) (v : V) :
    (ofValues d vs).remove v = (decide (v ∈ vs), ofValues d (vs.erase v)) := by
  rw [remove, contains_ofValues]
  cases d with
  | sequence => rfl
  | distinct => rfl
  | ascending => simp [ofValues, Ascending.erase_sort]

end Bag

/-! ## The values of a key -/

namespace Flat

variable [DecidableEq K]

@[simp] theorem mem_valuesOf {ps : List (K × V)} {k : K} {v : V} :
    v ∈ valuesOf ps k ↔ (k, v) ∈ ps := by
  simp [valuesOf]

theorem valuesOf_cons_self (ps : List (K × V)) (k : K) (v : V) :
    valuesOf ((k, v) :: ps) k = v :: valuesOf ps k := by
  simp [valuesOf]

theorem valuesOf_cons_of_ne (ps : List (K × V)) {k l : K} (v : V) (h : l ≠ k) :
    valuesOf ((l, v) :: ps) k = valuesOf ps k := by
  simp [valuesOf, h]

theorem valuesOf_perm {ps qs : List (K × V)} (h : ps.Perm qs) (k : K) :
    (valuesOf ps k).Perm (valuesOf qs k) := (h.filter _).map _

theorem valuesOf_append (ps qs : List (K × V)) (k : K) :
    valuesOf (ps ++ qs) k = valuesOf ps k ++ valuesOf qs k := by
  simp [valuesOf]

theorem valuesOf_map_self (k : K) (vs : List V) : valuesOf (vs.map (k, ·)) k = vs := by
  simp [valuesOf, List.filter_map, Function.comp_def]

theorem valuesOf_map_of_ne {k l : K} (h : l ≠ k) (vs : List V) : valuesOf (vs.map (l, ·)) k = [] := by
  simp [valuesOf, List.filter_map, Function.comp_def, h]

theorem valuesOf_append_self (ps : List (K × V)) (k : K) (v : V) :
    valuesOf (ps ++ [(k, v)]) k = valuesOf ps k ++ [v] := by
  simp [valuesOf]

theorem valuesOf_append_of_ne (ps : List (K × V)) {k l : K} (v : V) (h : l ≠ k) :
    valuesOf (ps ++ [(k, v)]) l = valuesOf ps l := by
  simp [valuesOf, h.symm]

@[simp] theorem valuesOf_without_self (ps : List (K × V)) (k : K) :
    valuesOf (without ps k) k = [] := by
  simp [valuesOf, without]

theorem valuesOf_without_of_ne (ps : List (K × V)) {k l : K} (h : l ≠ k) :
    valuesOf (without ps k) l = valuesOf ps l := by
  rw [valuesOf, without, List.filter_filter]
  refine congrArg _ (List.filter_congr fun p _ => ?_)
  by_cases hp : p.1 = l <;> simp [hp, h]

/-! ## Keys -/

theorem mem_map_fst {ps : List (K × V)} {k : K} :
    k ∈ ps.map (·.1) ↔ (valuesOf ps k).isEmpty = false := by
  rw [List.isEmpty_eq_false_iff_exists_mem]
  simp

theorem mem_keys [Ord K] {ps : List (K × V)} {k : K} :
    k ∈ keys ps ↔ (valuesOf ps k).isEmpty = false := by
  rw [keys, Ascending.mem_sort, List.mem_dedup, mem_map_fst]

theorem pairwise_keys [Ord K] [Std.TransOrd K] [Std.LawfulEqOrd K] (ps : List (K × V)) :
    (keys ps).Pairwise fun a b => compare a b = .lt := by
  have hnodup : (keys ps).Nodup :=
    (Ascending.sort_perm _).nodup_iff.2 (List.nodup_dedup _)
  exact Ascending.pairwise_lt_of_nodup hnodup (Ascending.pairwise_sort _)

/-! ## Deletions -/

variable [DecidableEq V]

theorem valuesOf_erase_self (ps : List (K × V)) (k : K) (v : V) :
    valuesOf (ps.erase (k, v)) k = (valuesOf ps k).erase v := by
  induction ps with
  | nil => rfl
  | cons p ps ih =>
    obtain ⟨l, w⟩ := p
    by_cases hl : l = k
    · subst hl
      by_cases hw : w = v
      · subst hw
        simp [valuesOf_cons_self]
      · have hp : ((l, w) == (l, v)) = false := by simp [hw]
        rw [List.erase_cons_tail (by simp [hp]), valuesOf_cons_self, valuesOf_cons_self,
          List.erase_cons_tail (by simpa using hw), ih]
    · have hp : ((l, w) == (k, v)) = false := by simp [hl]
      rw [List.erase_cons_tail (by simp [hp]), valuesOf_cons_of_ne _ _ hl,
        valuesOf_cons_of_ne _ _ hl, ih]

theorem valuesOf_erase_of_ne (ps : List (K × V)) {k l : K} (v : V) (h : l ≠ k) :
    valuesOf (ps.erase (k, v)) l = valuesOf ps l := by
  induction ps with
  | nil => rfl
  | cons p ps ih =>
    by_cases hp : p = (k, v)
    · subst hp
      rw [List.erase_cons_head, valuesOf_cons_of_ne _ _ h.symm]
    · rw [List.erase_cons_tail (by simpa using hp)]
      by_cases hl : p.1 = l
      · subst hl
        rw [valuesOf_cons_self, valuesOf_cons_self, ih]
      · rw [valuesOf_cons_of_ne _ _ hl, valuesOf_cons_of_ne _ _ hl, ih]

theorem count_valuesOf (ps : List (K × V)) (k : K) (v : V) :
    (valuesOf ps k).count v = ps.count (k, v) := by
  induction ps with
  | nil => rfl
  | cons p ps ih =>
    obtain ⟨l, w⟩ := p
    by_cases hl : l = k
    · subst hl
      rw [valuesOf_cons_self, List.count_cons, List.count_cons, ih]
      simp
    · rw [valuesOf_cons_of_ne _ _ hl, ih, List.count_cons_of_ne]
      simpa using fun h => absurd h hl

/-! ## Edits -/

theorem valuesOf_insert_of_ne (ps : List (K × V)) {k l : K} (v : V) (h : l ≠ k) :
    valuesOf (insert d ps (k, v)).2 l = valuesOf ps l := by
  rw [insert]
  split_ifs
  · rfl
  · exact valuesOf_append_of_ne ps v h

variable [Ord V]

theorem valuesOf_edit_of_ne (ps : List (K × V)) {k l : K} (e : Edit V) (h : l ≠ k) :
    valuesOf (edit d k ps e).2 l = valuesOf ps l := by
  cases e with
  | add v => exact valuesOf_insert_of_ne ps v h
  | remove v => exact valuesOf_erase_of_ne ps v h
  | drain => exact valuesOf_without_of_ne ps h
  | contains | size | isEmpty | list => rfl

theorem valuesOf_edits_of_ne (ps : List (K × V)) {k l : K} (es : List (Edit V)) (h : l ≠ k) :
    valuesOf (edits d k ps es).2 l = valuesOf ps l := by
  induction es generalizing ps with
  | nil => rfl
  | cons e es ih => exact (ih _).trans (valuesOf_edit_of_ne ps e h)

variable [Std.TransOrd V] [Std.LawfulEqOrd V]

theorem add_bag (ps : List (K × V)) (k : K) (v : V) :
    (Bag.ofValues d (valuesOf ps k)).add v =
      ((insert d ps (k, v)).1, Bag.ofValues d (valuesOf (insert d ps (k, v)).2 k)) := by
  rw [Bag.add_ofValues, insert]
  simp only [mem_valuesOf]
  split_ifs
  · rfl
  · rw [valuesOf_append_self]

theorem edit_bag (ps : List (K × V)) (k : K) (e : Edit V) :
    (Bag.ofValues d (valuesOf ps k)).edit e =
      ((edit d k ps e).1, Bag.ofValues d (valuesOf (edit d k ps e).2 k)) := by
  cases e with
  | add v =>
    rw [Bag.edit, add_bag]
    rfl
  | remove v =>
    rw [Bag.edit, Bag.remove_ofValues]
    simp only [mem_valuesOf, edit, valuesOf_erase_self]
    rfl
  | contains v =>
    rw [Bag.edit, Bag.contains_ofValues]
    simp only [mem_valuesOf, edit]
  | size => rw [Bag.edit, Bag.size_ofValues, edit]
  | isEmpty => rw [Bag.edit, Bag.isEmpty_ofValues, edit]
  | list => rw [Bag.edit, Bag.toList_ofValues, edit]
  | drain => rw [Bag.edit, Bag.toList_ofValues, edit, valuesOf_without_self, Bag.ofValues_nil]

theorem edits_bag (ps : List (K × V)) (k : K) (es : List (Edit V)) :
    (Bag.ofValues d (valuesOf ps k)).replies es = (edits d k ps es).1 ∧
      (Bag.ofValues d (valuesOf ps k)).editAll es =
        Bag.ofValues d (valuesOf (edits d k ps es).2 k) := by
  induction es generalizing ps with
  | nil => exact ⟨rfl, rfl⟩
  | cons e es ih =>
    obtain ⟨hreplies, hbag⟩ := ih (edit d k ps e).2
    have hedit := edit_bag (d := d) ps k e
    refine ⟨?_, ?_⟩
    · rw [Bag.replies, Bag.history, hedit, edits]
      exact congrArg _ hreplies
    · rw [Bag.editAll, hedit, edits]
      exact hbag

omit [Std.TransOrd V] [Std.LawfulEqOrd V] in
/-- A flat sequence does not tell distinct bags from ascending ones. -/
theorem edits_distinct (k : K) (ps : List (K × V)) (es : List (Edit V)) :
    edits .distinct k ps es = edits .ascending k ps es := by
  induction es generalizing ps with
  | nil => rfl
  | cons e es ih =>
    have hedit : edit .distinct k ps e = edit .ascending k ps e := by
      cases e with
      | add v => simp [edit, insert]
      | remove | contains | size | isEmpty | list | drain => rfl
    rw [edits, edits, hedit, ih]

end Flat

end LayeredMultimap
