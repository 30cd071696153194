import LayeredMultimap.Proofs.Additions
import LayeredMultimap.Proofs.Ascending

/-!
# Additions in another order

How often a value is in a bag after a run of additions hangs on how often it is in the run, and not
on the order of the run (`Bag.count_addAll`). A bag that keeps no sequence then lists its values in
the same order as well, and a content has the same keys (`Content.extend_perm`).
-/

namespace LayeredMultimap

variable {d : Discipline} {K V : Type} [DecidableEq V] [Ord V]

namespace Bag

theorem count_add (b : Bag d V) (v w : V) : (b.add v).2.members.count w =
    b.members.count w + if v = w ∧ (d = .sequence ∨ v ∉ b.members) then 1 else 0 := by
  cases h : (b.add v).1 with
  | true =>
    have hnew : d = .sequence ∨ v ∉ b.members := by
      rw [add_fst] at h
      simpa [contains] using h
    rw [(perm_of_add h).count_eq, List.count_cons]
    simp [hnew]
  | false =>
    obtain ⟨hd, hv⟩ := contains_of_add_eq_false h
    rw [add_snd_of_false h]
    simp [hd, hv]

theorem count_addAll (b : Bag d V) (vs : List V) (w : V) : (b.addAll vs).members.count w =
    b.members.count w +
      if d = .sequence then vs.count w else if w ∈ vs ∧ w ∉ b.members then 1 else 0 := by
  induction vs generalizing b with
  | nil => simp [addAll]
  | cons v vs ih =>
    rw [addAll, ih, count_add]
    by_cases hd : d = .sequence
    · rw [if_pos hd, if_pos hd, List.count_cons, Nat.add_assoc, Nat.add_comm (vs.count w)]
      simp [hd]
    · rw [if_neg hd, if_neg hd]
      simp only [hd, false_or, mem_add, List.mem_cons]
      by_cases hvw : v = w
      · subst hvw
        by_cases hv : v ∈ b.members <;> simp [hv]
      · simp [hvw, Ne.symm hvw]

theorem addAll_perm (b : Bag d V) {vs vs' : List V} (h : vs.Perm vs') :
    (b.addAll vs).members.Perm (b.addAll vs').members := by
  refine List.perm_iff_count.2 fun w => ?_
  rw [count_addAll, count_addAll, h.count_eq]
  simp only [h.mem_iff]

section Order

variable [Std.TransOrd V]

theorem pairwise_add {b : Bag .ascending V}
    (h : b.members.Pairwise fun v w => (compare v w).isLE) (v : V) :
    (b.add v).2.members.Pairwise fun v w => (compare v w).isLE := by
  by_cases hv : b.contains v
  · simpa [add, hv] using h
  · simpa [add, hv] using Ascending.pairwise_insert v h

theorem pairwise_addAll {b : Bag .ascending V}
    (h : b.members.Pairwise fun v w => (compare v w).isLE) (vs : List V) :
    (b.addAll vs).members.Pairwise fun v w => (compare v w).isLE := by
  induction vs generalizing b with
  | nil => exact h
  | cons v vs ih => exact ih (pairwise_add h v)

theorem toList_addAll_perm [Std.LawfulEqOrd V] (hd : d ≠ .sequence) {b : Bag d V}
    (hb : d = .ascending → b.toList.Pairwise fun v w => (compare v w).isLE) {vs vs' : List V}
    (h : vs.Perm vs') : (b.addAll vs).toList = (b.addAll vs').toList := by
  have hperm := addAll_perm b h
  cases d with
  | sequence => exact absurd rfl hd
  | distinct => exact Ascending.sort_eq_of_perm hperm
  | ascending =>
    have hle := hb rfl
    exact Ascending.eq_of_perm (pairwise_addAll hle vs) (pairwise_addAll hle vs') hperm

end Order

end Bag

namespace Content

variable [Ord K]

/-- Two contents have the same keys, and under each key the same values. They show the same, unless
bags keep sequences: then only the order of the values of a key is left open. -/
structure SameUpToOrder (c c' : Content d K V) : Prop where
  domain : c.domain = c'.domain
  perm : ∀ k, (c.bag k).members.Perm (c'.bag k).members
  listing : d ≠ .sequence → c.listing = c'.listing

omit [DecidableEq V] in
theorem sameUpToOrder_self (c : Content d K V) : c.SameUpToOrder c :=
  ⟨rfl, fun _ => .refl _, fun _ => rfl⟩

omit [DecidableEq V] in
theorem SameUpToOrder.trans {c c' c'' : Content d K V} (h : c.SameUpToOrder c')
    (h' : c'.SameUpToOrder c'') : c.SameUpToOrder c'' :=
  ⟨h.domain.trans h'.domain, fun k => (h.perm k).trans (h'.perm k),
    fun hd => (h.listing hd).trans (h'.listing hd)⟩

omit [DecidableEq V] in
theorem listing_eq_map_domain [Std.ReflOrd K] [Std.OrientedOrd K] {c : Content d K V}
    (h : c.Ascends) : c.listing = c.domain.map fun k => (k, (c.bag k).toList) := by
  rw [listing, Table.domain, List.map_map]
  refine List.map_congr_left fun e he => ?_
  have hbag : c.bag e.1 = e.2 := by
    rw [bag, h.find?_of_mem he]
    rfl
  rw [Function.comp_apply, hbag]

variable [Std.TransOrd K] [Std.LawfulEqOrd K]

omit [DecidableEq V] [Ord V] [Std.TransOrd K] in
theorem find?_eq_some_iff {c : Content d K V} {k : K} {b : Bag d V} :
    c.find? k = some b ↔ k ∈ c.domain ∧ c.bag k = b := by
  rw [Table.mem_domain_iff, bag]
  cases c.find? k <;> simp

omit [DecidableEq V] [Ord V] in
/-- A content is told by its keys and their bags. -/
theorem eq_of_bag {c c' : Content d K V} (h : c.Ascends) (h' : c'.Ascends)
    (hdomain : c.domain = c'.domain) (hbag : ∀ k, c.bag k = c'.bag k) : c = c' := by
  apply h.ext h'
  intro k
  ext b
  rw [find?_eq_some_iff, find?_eq_some_iff, hdomain, hbag]

variable [DecidableEq K] [Std.TransOrd V] [Std.LawfulEqOrd V]

/-- Additions in another order give the same content, up to the order of the values of a key. -/
theorem extend_perm {c : Content d K V} (hc : c.Ascends)
    (hbags : d = .ascending → ∀ k, (c.bag k).toList.Pairwise fun v w => (compare v w).isLE)
    {ps qs : List (K × V)} (h : ps.Perm qs) : (c.extend ps).SameUpToOrder (c.extend qs) := by
  have hps : (c.extend ps).Ascends := ascends_extend hc ps
  have hqs : (c.extend qs).Ascends := ascends_extend hc qs
  have hdomain : (c.extend ps).domain = (c.extend qs).domain := by
    apply hps.domain_eq hqs
    intro k
    rw [mem_domain_extend, mem_domain_extend, (h.map _).mem_iff]
  refine ⟨hdomain, fun k => ?_, fun hd => ?_⟩
  · rw [bag_extend, bag_extend]
    exact Bag.addAll_perm _ (Flat.valuesOf_perm h k)
  · rw [listing_eq_map_domain hps, listing_eq_map_domain hqs, hdomain]
    refine List.map_congr_left fun k _ => ?_
    rw [bag_extend, bag_extend,
      Bag.toList_addAll_perm hd (fun hasc => hbags hasc k) (Flat.valuesOf_perm h k)]

theorem ofMappings_perm {ps qs : List (K × V)} (h : ps.Perm qs) :
    (ofMappings ps : Content d K V).SameUpToOrder (ofMappings qs) := by
  refine extend_perm Table.ascends_empty ?_ h
  rintro rfl k
  exact .nil

end Content

end LayeredMultimap
