import LayeredMultimap.Proofs.Filling
import LayeredMultimap.Proofs.Groups
import LayeredMultimap.Proofs.Reported

/-!
# Mappings of another multimap

A multimap that is put into a base map comes as a stream of mappings, key by key. The stream can
visit the keys in any order (`Content.Visits`), and what it has for one key are the values of one
bag. So it does not matter that the groups are not seen any more: under each key the base map ends
up with what it had and what the other one has.
-/

namespace LayeredMultimap

variable {d d' : Discipline} {E K V : Type}

/-! ## Streams of mappings -/

namespace Content

/-- An order in which the mappings of a content can be visited: key by key, the values of a key in
bag order. In a distinct bag any order can be the bag order. -/
def Visits (c : Content d K V) (ps : List (K × V)) : Prop :=
  ∃ gs, c.HandsOut gs ∧ Multimap.flatten gs = ps

variable [Ord V]

theorem visits_mappings (c : Content d K V) : c.Visits c.mappings := by
  refine ⟨c.groups.map fun g => (g.1, ⟨g.2.toList⟩), ⟨c.groups, .refl _, ?_⟩, ?_⟩
  · rw [List.forall₂_map_left_iff, List.forall₂_same]
    intro g _
    refine ⟨rfl, g.2.toList_perm, ?_⟩
    intro hd
    cases d with
    | sequence => rfl
    | distinct => exact absurd rfl hd
    | ascending => rfl
  · rw [mappings_eq_flatMap_groups, Multimap.flatten, List.flatMap_map]

namespace Visits

variable {c : Content d K V} {ps : List (K × V)}

theorem mem_iff (h : c.Visits ps) {p : K × V} : p ∈ ps ↔ p ∈ c.mappings := by
  obtain ⟨gs, hgs, rfl⟩ := h
  exact hgs.mem_flatten_iff

variable [DecidableEq K] [Ord K] [Std.TransOrd K] [Std.LawfulEqOrd K]

theorem valuesOf_perm (h : c.Visits ps) (hc : c.Ascends) (k : K) :
    (Flat.valuesOf ps k).Perm (c.bag k).toList := by
  obtain ⟨gs, hgs, rfl⟩ := h
  exact (hgs.valuesOf_flatten_perm hc k).trans (c.bag k).toList_perm.symm

theorem valuesOf_eq (h : c.Visits ps) (hc : c.Ascends) (hd : d ≠ .distinct) (k : K) :
    Flat.valuesOf ps k = (c.bag k).toList := by
  obtain ⟨gs, hgs, rfl⟩ := h
  rw [valuesOf_flatten_of_perm hc (hgs.perm_groups hd)]
  cases d with
  | sequence => rfl
  | distinct => exact absurd rfl hd
  | ascending => rfl

theorem mem_keys_iff (h : c.Visits ps) (hc : c.Ascends) {k : K} :
    k ∈ ps.map (·.1) ↔ c.containsKey k = true := by
  rw [Flat.mem_map_fst, containsKey_eq, Bool.not_eq_true', List.isEmpty_eq_false_iff,
    ← Bool.not_eq_true, ← Bag.toList_eq_nil_iff, Ne, ← List.length_eq_zero_iff,
    (h.valuesOf_perm hc k).length_eq, List.length_eq_zero_iff]

end Visits

end Content

/-! ## Merges -/

namespace Multimap

variable [Ord K] [Ord V]

/-- The values that are looked up under a key, in the order in which its bag lists them. -/
def valuesAt (m : Multimap d E K V) (k : K) : List V := (m.get? k).elim [] Bag.toList

theorem valuesAt_eq (m : Multimap d E K V) (k : K) : m.valuesAt k = (m.content.bag k).toList := by
  unfold valuesAt get?
  rw [Content.get?_eq]
  by_cases hempty : (m.content.bag k).isEmpty = true
  · rw [if_pos hempty, Bag.toList_eq_nil_iff.2 hempty]
    rfl
  · rw [if_neg hempty]
    rfl

theorem get?_eq_none_iff {m : Multimap d E K V} {k : K} :
    m.get? k = none ↔ m.valuesAt k = [] := by
  have hlist := m.content.get?_map_toList k
  rw [← valuesAt_eq] at hlist
  rw [← Option.map_eq_none_iff, get?, hlist]
  by_cases hnone : m.valuesAt k = []
  · rw [if_pos hnone]
    exact iff_of_true rfl hnone
  · rw [if_neg hnone]
    exact iff_of_false (Option.some_ne_none _) hnone

variable [DecidableEq K] [DecidableEq V]

/-- The outcome `o` of putting the mappings of `other` into `m` in the order `ps`: what is reported
and, key by key, what is left. -/
structure Merges (m : Multimap d E K V) (other : Multimap d' E K V) (ps : List (K × V))
    (o : Outcome (Multimap d E K V) E Bool) : Prop where
  succeeds : ∃ changed, o.result = .ok changed ∧
    (d = .sequence → (changed = true ↔ other.mappings ≠ [])) ∧
    (d ≠ .sequence →
      (changed = true ↔ ∃ p ∈ other.mappings, m.containsMapping p.1 p.2 = false))
  around : o.state = m.withContent o.state.content
  keys : ∀ k, k ∈ o.state.content.domain ↔ k ∈ m.content.domain ∨ other.containsKey k = true
  missing : ∀ k, o.state.get? k = none ↔ m.get? k = none ∧ other.get? k = none
  order : ∀ k, (Flat.valuesOf ps k).Perm (other.valuesAt k)
  order_exact : d' ≠ .distinct → ∀ k, Flat.valuesOf ps k = other.valuesAt k
  appended : d = .sequence → ∀ k, o.state.valuesAt k = m.valuesAt k ++ Flat.valuesOf ps k
  united : d ≠ .sequence → ∀ k, (o.state.valuesAt k).Nodup ∧
    ∀ v, v ∈ o.state.valuesAt k ↔ v ∈ m.valuesAt k ∨ v ∈ other.valuesAt k

theorem putPairs_of_refusesNothing {a : Base d E K V} (ha : a.RefusesNothing) (ps : List (K × V)) :
    ((base a).putPairs (Source.ofList ps)).result = .ok (a.content.addAll ps).1 ∧
      ((base a).putPairs (Source.ofList ps)).state =
        (base a).withContent (a.content.extend ps) := by
  apply putPairs_of_arrive
  rw [Source.items_ofList]
  exact arrive_of_refusesNothing ha ps

variable [Std.TransOrd K] [Std.LawfulEqOrd K]

/-- Nothing is new in what is there already, unless bags keep sequences. -/
theorem putPairs_self {a : Base d E K V} (ha : a.RefusesNothing) (hasc : a.content.Ascends)
    (hd : d ≠ .sequence) {ps : List (K × V)} (hps : a.content.Visits ps) :
    ((base a).putPairs (Source.ofList ps)).result = .ok false ∧
      ((base a).putPairs (Source.ofList ps)).state = base a := by
  have hsame : (a.content.addAll ps).1 = false := by
    by_contra hchanged
    rw [Bool.not_eq_false, Content.addAll_fst_iff hasc] at hchanged
    obtain ⟨p, hp, hseq | hnew⟩ := hchanged
    · exact hd hseq
    · rw [hps.mem_iff, Content.mem_mappings_iff_bag hasc] at hp
      rw [Content.containsMapping_eq, Bag.contains_iff.2 hp] at hnew
      cases hnew
  obtain ⟨hresult, hstate⟩ := putPairs_of_refusesNothing ha ps
  rw [hsame] at hresult
  rw [Content.extend_of_unchanged hasc hsame] at hstate
  exact ⟨hresult, hstate⟩

variable [Std.TransOrd V] [Std.LawfulEqOrd V]

theorem merges_of_visits {a : Base d E K V} (ha : a.RefusesNothing) (hwf : a.content.WellFormed)
    {b : Multimap d' E K V} (hb : b.content.Ascends) {ps : List (K × V)}
    (hps : b.content.Visits ps) :
    (base a).Merges b ps ((base a).putPairs (Source.ofList ps)) := by
  obtain ⟨hresult, hstate⟩ := putPairs_of_refusesNothing ha ps
  generalize (base a).putPairs (Source.ofList ps) = o at hresult hstate
  have hcontent : o.state.content = a.content.extend ps := by
    rw [hstate, content_withContent]
  have hvalues (k : K) :
      o.state.valuesAt k = collected d ((base a).valuesAt k ++ Flat.valuesOf ps k) := by
    rw [valuesAt_eq, valuesAt_eq, hcontent]
    exact Content.toList_bag_extend hwf ps k
  have horder (k : K) : (Flat.valuesOf ps k).Perm (b.valuesAt k) := by
    rw [valuesAt_eq]
    exact hps.valuesOf_perm hb k
  have hflag := Content.addAll_fst_iff hwf.ascends ps
  refine ⟨⟨_, hresult, ?_, ?_⟩, ?_, ?_, ?_, horder, ?_, ?_, ?_⟩
  · intro hd
    rw [hflag, ← List.length_pos_iff, List.length_pos_iff_exists_mem]
    simp only [hd, true_or, and_true, hps.mem_iff, mappings]
  · intro hd
    rw [hflag]
    simp only [hd, false_or, hps.mem_iff, mappings]
    rfl
  · rw [hstate, content_withContent]
  · intro k
    rw [hcontent, Content.mem_domain_extend, hps.mem_keys_iff hb]
    rfl
  · intro k
    have hnone : Flat.valuesOf ps k = [] ↔ b.valuesAt k = [] := by
      rw [← List.length_eq_zero_iff, (horder k).length_eq, List.length_eq_zero_iff]
    rw [get?_eq_none_iff, get?_eq_none_iff, get?_eq_none_iff, hvalues, collected_eq_nil_iff,
      List.append_eq_nil_iff, hnone]
  · intro hd k
    rw [valuesAt_eq]
    exact hps.valuesOf_eq hb hd k
  · intro hd k
    rw [hvalues, collected, if_pos hd]
  · intro hd k
    rw [hvalues]
    refine ⟨nodup_collected hd _, ?_⟩
    intro v
    rw [mem_collected, List.mem_append, (horder k).mem_iff]

/-- **The mappings of another multimap come in key by key**, and its keys without values come to
nothing. -/
theorem putFrom_merges {a : Base d E K V} (ha : a.RefusesNothing) (hwf : a.content.WellFormed)
    {b : Multimap d' E K V} (hb : b.content.Ascends) :
    (∀ ps, b.content.Visits ps →
      (base a).Merges b ps ((base a).putPairs (Source.ofList ps))) ∧
    (base a).Merges b b.mappings ((base a).putFrom b) ∧
    ∀ ps, a.content.Visits ps →
      let o := (base a).putPairs (Source.ofList ps)
      (d = .sequence → ∀ k, o.state.valuesAt k = (base a).valuesAt k ++ (base a).valuesAt k) ∧
      (d ≠ .sequence → o.result = .ok false ∧ o.state = base a) := by
  refine ⟨?_, ?_, ?_⟩
  · intro ps hps
    exact merges_of_visits ha hwf hb hps
  · exact merges_of_visits ha hwf hb b.content.visits_mappings
  · intro ps hps
    refine ⟨?_, ?_⟩
    · intro hd k
      have hself := merges_of_visits ha hwf (b := base a) hwf.ascends hps
      have hdist : d ≠ .distinct := by
        rw [hd]
        decide
      rw [hself.appended hd, hself.order_exact hdist]
    · intro hd
      exact putPairs_self ha hwf.ascends hd hps

/-- Sequences under a layer go into distinct bags, the larger key first. -/
theorem putFrom_merges_unfilled :
    let b : Multimap .sequence Event Nat Nat :=
      (base closed).under ⟨some (.ofFunction (· / 10)), none⟩
    let ps : List (Nat × Nat) := [(9, 6), (1, 7), (1, 2), (1, 7)]
    (unfilled.RefusesNothing ∧ unfilled.content.WellFormed ∧ b.content.Ascends ∧
      b.content.Visits ps) ∧
    ((base unfilled).putFrom b).state.content.listing = [(1, [2, 7]), (2, [5]), (9, [6])] ∧
    (base unfilled).Merges b ps ((base unfilled).putPairs (Source.ofList ps)) ∧
    (base unfilled).Merges b b.mappings ((base unfilled).putFrom b) ∧
    ((base unfilled).putFrom (base unfilled)).state = base unfilled := by
  intro b ps
  have ha : unfilled.RefusesNothing := fun _ _ => rfl
  have hb : b.content.Ascends := by
    show List.Pairwise _ closed.content.entries
    decide
  have hps : b.content.Visits ps :=
    ⟨[(9, ⟨[6]⟩), (1, ⟨[7, 2, 7]⟩)], ⟨[(9, ⟨[6]⟩), (1, ⟨[7, 2, 7]⟩)], .swap _ _ _,
      List.forall₂_same.2 fun _ _ => ⟨rfl, .refl _, fun _ => rfl⟩⟩, rfl⟩
  obtain ⟨hvisits, hfrom, hself⟩ := putFrom_merges ha wellFormed_unfilled hb
  refine ⟨⟨ha, wellFormed_unfilled, hb, hps⟩, rfl, hvisits ps hps, hfrom, ?_⟩
  exact ((hself _ unfilled.content.visits_mappings).2 (by decide)).2

end Multimap

end LayeredMultimap
