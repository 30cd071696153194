import LayeredMultimap.Proofs.Pouring
import LayeredMultimap.Proofs.Representation

/-!
# Ways to fill a base map

Mappings get into a base map by puts, one by one or from a source, by an extension, which goes past
the refusal rule, and for a single key by values that are added to its bag, with or without the view
of the bag. Where nothing is refused they all make the same additions, report by report
(`Content.reports`), and `collected` says what a bag shows of the values that were added to it.
-/

namespace LayeredMultimap

variable {d : Discipline} {E K V : Type} [Ord V] [DecidableEq V]

/-! ## What a bag collects -/

/-- What a bag lists of values that come to it one after the other: a sequence lists them all in
this order, any other bag lists each of them once, in ascending order. -/
def collected (d : Discipline) (vs : List V) : List V :=
  if d = .sequence then vs else Ascending.sort vs.dedup

theorem collected_eq_nil_iff {vs : List V} : collected d vs = [] ↔ vs = [] := by
  unfold collected
  split_ifs
  · rfl
  · rw [← List.length_eq_zero_iff, Ascending.length_sort, List.length_eq_zero_iff,
      List.dedup_eq_nil]

theorem mem_collected {vs : List V} {v : V} : v ∈ collected d vs ↔ v ∈ vs := by
  unfold collected
  split_ifs
  · rfl
  · rw [Ascending.mem_sort, List.mem_dedup]

theorem nodup_collected (hd : d ≠ .sequence) (vs : List V) : (collected d vs).Nodup := by
  rw [collected, if_neg hd, (Ascending.sort_perm _).nodup_iff]
  exact List.nodup_dedup vs

namespace Bag

omit [DecidableEq V] in
theorem toList_eq_nil_iff {b : Bag d V} : b.toList = [] ↔ b.isEmpty = true := by
  rw [← List.length_eq_zero_iff, length_toList, isEmpty, beq_iff_eq]

/-- A bag lists what it held and what was added to it. -/
theorem toList_addAll [Std.TransOrd V] [Std.LawfulEqOrd V] {b : Bag d V} (hb : b.Lawful)
    (vs : List V) : (b.addAll vs).toList = collected d (b.toList ++ vs) := by
  have hperm (hd : d ≠ .sequence) : (b.addAll vs).members.Perm (b.toList ++ vs).dedup := by
    apply (List.perm_ext_iff_of_nodup (nodup_addAll hd (hb.nodup hd) vs) (List.nodup_dedup _)).2
    intro v
    rw [mem_addAll, List.mem_dedup, List.mem_append, mem_toList]
  unfold collected
  cases d with
  | sequence => exact members_addAll_sequence b vs
  | distinct => exact Ascending.sort_eq_of_perm (hperm (by decide))
  | ascending =>
    apply Ascending.eq_of_perm (pairwise_addAll (hb.pairwise_isLE rfl) vs)
      (Ascending.pairwise_sort _)
    exact (hperm (by decide)).trans (Ascending.sort_perm _).symm

end Bag

namespace Content

variable [Ord K]

section

/-! ## Reports of additions -/

/-- What the additions of a run report, one by one. -/
def reports (c : Content d K V) : List (K × V) → List Bool
  | [] => []
  | p :: r => (c.add p.1 p.2).1 :: (c.add p.1 p.2).2.reports r

theorem addAll_fst_eq_any (c : Content d K V) (ps : List (K × V)) :
    (c.addAll ps).1 = (c.reports ps).any id := by
  induction ps generalizing c with
  | nil => rfl
  | cons p ps ih => exact congrArg (_ || ·) (ih _)

variable [Std.ReflOrd K]

theorem bag_add_self (c : Content d K V) (k : K) (v : V) :
    (c.add k v).2.bag k = ((c.bag k).add v).2 := by
  unfold bag add
  rw [Table.find?_insert_self]
  rfl

theorem replies_map_add (c : Content d K V) (k : K) (vs : List V) :
    (c.bag k).replies (vs.map .add) = (c.reports (vs.map (k, ·))).map .flag := by
  induction vs generalizing c with
  | nil => rfl
  | cons v vs ih =>
    have hrest := ih (c.add k v).2
    rw [bag_add_self] at hrest
    exact congrArg (Reply.flag ((c.bag k).add v).1 :: ·) hrest

theorem edit_map_add (c : Content d K V) (k : K) {vs : List V} (hvs : vs ≠ []) :
    c.edit k (vs.map .add) =
      ((c.reports (vs.map (k, ·))).map .flag, c.extend (vs.map (k, ·))) :=
  Prod.ext (c.replies_map_add k vs) (c.edit_map_add_snd k hvs)

end

/-! ## Look-ups after additions -/

omit [DecidableEq V] in
theorem get?_map_toList (c : Content d K V) (k : K) : (c.get? k).map Bag.toList =
    if (c.bag k).toList = [] then none else some (c.bag k).toList := by
  rw [get?_eq]
  by_cases hempty : (c.bag k).isEmpty = true
  · rw [if_pos hempty, if_pos (Bag.toList_eq_nil_iff.2 hempty)]
    rfl
  · rw [if_neg hempty, if_neg (mt Bag.toList_eq_nil_iff.1 hempty)]
    rfl

variable [DecidableEq K] [Std.LawfulEqOrd K] [Std.TransOrd V] [Std.LawfulEqOrd V]

theorem toList_bag_extend {c : Content d K V} (hc : c.WellFormed) (ps : List (K × V)) (k : K) :
    ((c.extend ps).bag k).toList = collected d ((c.bag k).toList ++ Flat.valuesOf ps k) := by
  rw [bag_extend, Bag.toList_addAll (hc.bag k)]

theorem get?_ofMappings (ps : List (K × V)) (k : K) :
    ((ofMappings ps : Content d K V).get? k).map Bag.toList =
      if k ∈ ps.map (·.1) then some (collected d (Flat.valuesOf ps k)) else none := by
  have hlist : ((ofMappings ps : Content d K V).bag k).toList = collected d (Flat.valuesOf ps k) := by
    have hnone : (Bag.empty : Bag d V).toList = [] := Bag.toList_eq_nil_iff.2 rfl
    have hextend := toList_bag_extend (wellFormed_empty (d := d)) ps k
    rwa [bag_empty, hnone, List.nil_append] at hextend
  have hkey : k ∈ ps.map (·.1) ↔ Flat.valuesOf ps k ≠ [] := by
    rw [Flat.mem_map_fst, List.isEmpty_eq_false_iff]
  rw [get?_map_toList, hlist]
  by_cases hk : Flat.valuesOf ps k = []
  · rw [if_pos (collected_eq_nil_iff.2 hk), if_neg (fun hmem => hkey.1 hmem hk)]
  · rw [if_neg (mt collected_eq_nil_iff.1 hk), if_pos (hkey.2 hk)]

end Content

/-! ## Ways to fill -/

/-- The rule of the base lets all mappings pass. -/
def Base.RefusesNothing (b : Base d E K V) : Prop := ∀ k v, (b.refusal k v).value = none

namespace Multimap

section

variable [DecidableEq K] {b : Base d E K V}

omit [Ord V]

theorem arrival_of_refusesNothing (hb : b.RefusesNothing) (p : K × V) :
    ((base b).arrival p.1 p.2).value = .ok p := by
  unfold arrival
  simp only [hb p.1 p.2]

theorem arrive_of_refusesNothing (hb : b.RefusesNothing) (ps : List (K × V)) :
    (base b).Arrive ps ps := List.forall₂_same.2 fun p _ => arrival_of_refusesNothing hb p

end

/-- Five ways to fill `m` with the mappings of a source lead to `n`, and the reports `bs` of single
puts tell what the others report. -/
structure FilledAlike [DecidableEq K] [Ord K] (m : Multimap d E K V) (ps : Source E (K × V))
    (bs : List Bool) (n : Multimap d E K V) : Prop where
  puts : ∃ t, Each (fun p m => m.put p.1 p.2) m ps bs t n
  putPairs : (m.putPairs ps).result = .ok (bs.any id) ∧ (m.putPairs ps).state = n
  extend : (m.extend ps).result = .ok () ∧ (m.extend ps).state = n
  putValues : ∀ k (vs : Source E V), ps.items = vs.items.map (k, ·) →
    (m.putValues k vs).result = .ok (bs.any id) ∧ (m.putValues k vs).state = n
  edit : ∀ k (vs : List V), vs ≠ [] → ps.items = vs.map (k, ·) →
    m.edit k (vs.map .add) = (bs.map .flag, n)

variable [DecidableEq K] [Ord K]

/-- Where nothing is refused, single puts make the additions one by one. -/
theorem each_put {b : Base d E K V} (hb : b.RefusesNothing) (ps : Source E (K × V)) :
    ∃ t, Each (fun p m => m.put p.1 p.2) (base b) ps (b.content.reports ps.items) t
      ((base b).withContent (b.content.extend ps.items)) := by
  induction ps generalizing b with
  | nil => exact ⟨[], .nil _⟩
  | cons x r ih =>
    let added := b.content.add x.value.1 x.value.2
    obtain ⟨t, ht⟩ := ih (b := { b with content := added.2 }) hb
    exact ⟨_, .cons (put_of_arrival_ok (arrival_of_refusesNothing hb x.value)) ht⟩

theorem filledAlike_of_refusesNothing [Std.LawfulEqOrd K] {b : Base d E K V}
    (hb : b.RefusesNothing) (ps : Source E (K × V)) :
    (base b).FilledAlike ps (b.content.reports ps.items)
      ((base b).withContent (b.content.extend ps.items)) := by
  have hany := b.content.addAll_fst_eq_any ps.items
  refine ⟨each_put hb ps, ?_, ⟨rfl, rfl⟩, ?_, ?_⟩
  · rw [← hany]
    exact putPairs_of_arrive (arrive_of_refusesNothing hb ps.items)
  · intro k vs hvs
    rw [← hany, hvs]
    exact putValues_of_pass rfl (List.forall₂_same.2 fun _ _ => rfl)
  · intro k vs hfull hvs
    have hedit := b.content.edit_map_add k hfull
    rw [← hvs] at hedit
    show ((b.content.edit k _).1, (base b).withContent (b.content.edit k _).2) = _
    rw [hedit]

/-- **All ways to fill a base map agree** where nothing is refused, and the reports of single puts
tell the others. -/
theorem filling_ways_agree [Std.LawfulEqOrd K] [Std.TransOrd V] [Std.LawfulEqOrd V]
    {b : Base d E K V} (hb : b.RefusesNothing) (ps : Source E (K × V)) :
    let n := ((base b).extend ps).state
    (∃ bs, (base b).FilledAlike ps bs n) ∧
      (∀ qs, ((base b).extend (ps ++ qs)).state = (n.extend qs).state) ∧
      (b.content = .empty → n.content = .ofMappings ps.items ∧
        ∀ k, (n.get? k).map Bag.toList = if k ∈ ps.items.map (·.1)
          then some (collected d (Flat.valuesOf ps.items k)) else none) := by
  intro n
  refine ⟨⟨_, filledAlike_of_refusesNothing hb ps⟩, ?_, ?_⟩
  · intro qs
    have hitems : (ps ++ qs).items = ps.items ++ qs.items := List.map_append
    show (base b).withContent (b.content.extend (ps ++ qs).items) = _
    rw [hitems, Content.extend_append]
    rfl
  · intro hempty
    have hn : n.content = .ofMappings ps.items := by
      show b.content.extend ps.items = _
      rw [hempty]
      rfl
    refine ⟨hn, ?_⟩
    intro k
    rw [get?, hn]
    exact Content.get?_ofMappings ps.items k

/-- Distinct bags, one of them empty, in a base map that refuses nothing. -/
def unfilled : Base .distinct Event Nat Nat := ⟨⟨[(1, ⟨[]⟩), (2, ⟨[5]⟩)]⟩, fun _ _ => pure none⟩

theorem wellFormed_unfilled : unfilled.content.WellFormed := by
  refine ⟨?_, ?_⟩
  · show List.Pairwise _ unfilled.content.entries
    decide
  · intro e he
    refine ⟨fun _ => ?_, nofun⟩
    revert e
    decide

/-- Values for the key without values, one of which comes twice. -/
theorem filling_ways_agree_unfilled :
    let vs : Source Event Nat := Source.ofList [4, 3, 4]
    let ps : Source Event (Nat × Nat) := Source.ofList [(1, 4), (1, 3), (1, 4)]
    unfilled.RefusesNothing ∧
    ((base unfilled).extend ps).state.content.listing = [(1, [3, 4]), (2, [5])] ∧
    ((base unfilled).putPairs ps).state = ((base unfilled).extend ps).state ∧
    ((base unfilled).putValues 1 vs).state = ((base unfilled).extend ps).state ∧
    ((base unfilled).edit 1 [.add 4, .add 3, .add 4]).2 = ((base unfilled).extend ps).state := by
  intro vs ps
  have hb : unfilled.RefusesNothing := fun _ _ => rfl
  obtain ⟨⟨bs, hfilled⟩, -⟩ := filling_ways_agree hb ps
  have hedit := hfilled.edit 1 [4, 3, 4] (by decide) rfl
  exact ⟨hb, rfl, hfilled.putPairs.2, (hfilled.putValues 1 vs rfl).2, congrArg Prod.snd hedit⟩

end Multimap

end LayeredMultimap
