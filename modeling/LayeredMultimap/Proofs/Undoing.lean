import LayeredMultimap.Proofs.Filling.Merge

/-!
# Puts that are taken back

A put stores the mapping that comes out of the layers, and a removal takes the oldest occurrence of
its mapping out, whatever layer it is asked of. So a removal of what a put has stored undoes the put
(`Multimap.Undoes`). Other keys have no part in either, and under the key there are the values from
before; only a sequence that held the value before can have them in another order, as it is the older
occurrence that goes. A key that had no values is not there afterwards, even if it was a ghost.
-/

namespace LayeredMultimap

variable {d : Discipline} {E K V : Type} [Ord V]

/-! ## Lawful bags with the same values -/

theorem Bag.toList_eq_of_perm [Std.TransOrd V] [Std.LawfulEqOrd V] (hd : d ≠ .sequence)
    {b b' : Bag d V} (hb : b.Lawful) (hb' : b'.Lawful) (h : b.members.Perm b'.members) :
    b.toList = b'.toList := by
  cases d with
  | sequence => exact absurd rfl hd
  | distinct => exact Ascending.sort_eq_of_perm h
  | ascending => exact Ascending.eq_of_perm (hb.pairwise_isLE rfl) (hb'.pairwise_isLE rfl) h

namespace Content

variable [Ord K] [Std.TransOrd K] [Std.LawfulEqOrd K] [Std.TransOrd V] [Std.LawfulEqOrd V]

theorem sameUpToOrder_of_perm {c c' : Content d K V} (hc : c.WellFormed) (hc' : c'.WellFormed)
    (hdomain : ∀ k, k ∈ c.domain ↔ k ∈ c'.domain)
    (hperm : ∀ k, (c.bag k).members.Perm (c'.bag k).members) : c.SameUpToOrder c' := by
  have hkeys : c.domain = c'.domain := hc.ascends.domain_eq hc'.ascends hdomain
  refine ⟨hkeys, hperm, ?_⟩
  intro hd
  rw [listing_eq_map_domain hc.ascends, listing_eq_map_domain hc'.ascends, hkeys]
  apply List.map_congr_left
  intro k _
  rw [Bag.toList_eq_of_perm hd (hc.bag k) (hc'.bag k) (hperm k)]

theorem SameUpToOrder.eq_of_ascending {c c' : Content .ascending K V} (hc : c.WellFormed)
    (hc' : c'.WellFormed) (h : c.SameUpToOrder c') : c = c' := by
  apply eq_of_bag hc.ascends hc'.ascends h.domain
  intro k
  ext1
  exact Bag.toList_eq_of_perm (by decide) (hc.bag k) (hc'.bag k) (h.perm k)

end Content

variable [DecidableEq V]

/-! ## Additions and removals of one value -/

namespace Bag

variable {b : Bag d V} {v : V}

theorem remove_add_perm (h : (b.add v).1 = true) :
    ((b.add v).2.remove v).2.members.Perm b.members := by
  have herase := (perm_of_add h).erase v
  rwa [List.erase_cons_head] at herase

/-- A value that is new to the bag is the one that is found again, wherever it was put. -/
theorem remove_add_of_not_mem (h : v ∉ b.members) : ((b.add v).2.remove v).2 = b := by
  have hnew : b.contains v = false := decide_eq_false h
  have hlast : (b.members ++ [v]).erase v = b.members := by
    rw [List.erase_append_right _ h, List.erase_cons_head, List.append_nil]
  ext1
  cases d with
  | sequence => exact hlast
  | distinct =>
    rw [add, hnew]
    exact hlast
  | ascending =>
    rw [add, hnew]
    exact Ascending.erase_insert h

theorem add_remove_fst (hb : b.members.Nodup) : ((b.remove v).2.add v).1 = true := by
  have hgone : (b.remove v).2.contains v = false := decide_eq_false hb.not_mem_erase
  rw [add_fst, hgone]
  exact Bool.or_true _

theorem add_remove_perm (hv : v ∈ b.members) (h : ((b.remove v).2.add v).1 = true) :
    ((b.remove v).2.add v).2.members.Perm b.members :=
  (perm_of_add h).trans (List.perm_cons_erase hv).symm

end Bag

namespace Content

variable [Ord K]

omit [Ord V] in
theorem find?_removeMapping_of_ne [Std.LawfulEqOrd K] (c : Content d K V) {k l : K} (v : V)
    (h : l ≠ k) : (c.removeMapping k v).2.find? l = c.find? l := by
  obtain ⟨-, hsame⟩ | ⟨b, -, ⟨-, hdrop⟩ | ⟨-, hset⟩⟩ := c.removeMapping_snd_cases k v
  · rw [hsame]
  · rw [hdrop, Table.find?_erase_of_ne c h]
  · rw [hset, Table.find?_insert_of_ne c _ h]

theorem find?_add_of_ne [Std.LawfulEqOrd K] (c : Content d K V) {k l : K} (v : V) (h : l ≠ k) :
    (c.add k v).2.find? l = c.find? l := Table.find?_insert_of_ne c _ h

theorem removeMapping_add_fst [Std.ReflOrd K] (c : Content d K V) (k : K) (v : V) :
    ((c.add k v).2.removeMapping k v).1 = true := by
  rw [removeMapping_fst, bag_add_self, Bag.contains_iff, Bag.mem_add]
  exact .inl rfl

variable [DecidableEq K] [Std.LawfulEqOrd K]

theorem bag_removeMapping_add (c : Content d K V) (k : K) (v : V) :
    ((c.add k v).2.removeMapping k v).2.bag k = (((c.bag k).add v).2.remove v).2 := by
  rw [bag_removeMapping, Function.update_self, bag_add_self]

theorem bag_add_removeMapping (c : Content d K V) (k : K) (v : V) :
    ((c.removeMapping k v).2.add k v).2.bag k = (((c.bag k).remove v).2.add v).2 := by
  rw [bag_add_self, bag_removeMapping, Function.update_self]

theorem mem_domain_add_removeMapping {c : Content d K V} {k : K} {v : V}
    (hv : v ∈ (c.bag k).members) (l : K) :
    l ∈ ((c.removeMapping k v).2.add k v).2.domain ↔ l ∈ c.domain := by
  have hk : k ∈ c.domain := Table.mem_domain_iff.2 ⟨_, find?_of_mem_bag hv⟩
  by_cases hl : l = k
  · subst hl
    exact iff_of_true (Table.mem_domain_insert.2 (.inl rfl)) hk
  · rw [Table.mem_domain_iff, find?_add_of_ne _ v hl, find?_removeMapping_of_ne c v hl,
      ← Table.mem_domain_iff]

variable [Std.TransOrd K] [Std.TransOrd V] [Std.LawfulEqOrd V]

/-- What was taken out can be added again, unless bags keep sequences. -/
theorem add_removeMapping {c : Content d K V} (hc : c.WellFormed) (hd : d ≠ .sequence) {k : K}
    {v : V} (hremoved : (c.removeMapping k v).1 = true) :
    ((c.removeMapping k v).2.add k v).1 = true ∧
      ((c.removeMapping k v).2.add k v).2.SameUpToOrder c := by
  have hv : v ∈ (c.bag k).members := by rwa [removeMapping_fst, Bag.contains_iff] at hremoved
  have hadd : (((c.bag k).remove v).2.add v).1 = true :=
    Bag.add_remove_fst ((hc.bag k).nodup hd)
  refine ⟨?_, ?_⟩
  · show (((c.removeMapping k v).2.bag k).add v).1 = true
    rwa [bag_removeMapping, Function.update_self]
  · apply sameUpToOrder_of_perm ((hc.removeMapping k v).add k v) hc
    · exact mem_domain_add_removeMapping hv
    · intro l
      by_cases hl : l = k
      · subst hl
        rw [bag_add_removeMapping]
        exact Bag.add_remove_perm hv hadd
      · rw [bag, find?_add_of_ne _ v hl, find?_removeMapping_of_ne c v hl, bag]

end Content

/-! ## Puts and removals of one mapping -/

namespace Multimap

variable [Ord K]

/-- A put of the mapping `p` into `m` has been taken back, with `n` as what is left. -/
structure Undoes (n m : Multimap d E K V) (p : K × V) : Prop where
  around : n = m.withContent n.content
  others : ∀ l, l ≠ p.1 → n.content.find? l = m.content.find? l
  values : (n.valuesAt p.1).Perm (m.valuesAt p.1)
  exact : d ≠ .sequence ∨ m.containsMapping p.1 p.2 = false → n.get? p.1 = m.get? p.1
  contained : n.containsKey p.1 = m.containsKey p.1
  no_ghost : p.1 ∈ n.content.domain ↔ m.containsKey p.1 = true

omit [Ord V] in
theorem inside_removeMapping (m : Multimap d E K V) (n : Nat) (k : K) (v : V) :
    (m.inside n fun t => .ofPair (t.removeMapping k v)).result =
        .ok (m.content.removeMapping k v).1 ∧
      (m.inside n fun t => .ofPair (t.removeMapping k v)).state =
        m.withContent (m.content.removeMapping k v).2 := by
  rw [result_inside, ← m.content_peel n]
  exact ⟨rfl, state_inside_of_withContent rfl⟩

variable [DecidableEq K]

theorem inside_put_of_ok_true {m : Multimap d E K V} {i : Nat} {k : K} {v : V}
    (h : (m.inside i (·.put k v)).result = .ok true) :
    ∃ p, (passage (m.peel i).layers k v).result = .ok p ∧ (m.content.add p.1 p.2).1 = true ∧
      (m.inside i (·.put k v)).state = m.withContent (m.content.add p.1 p.2).2 := by
  rw [result_inside] at h
  cases harrival : ((m.peel i).arrival k v).value with
  | error e =>
    rw [put_of_arrival_error harrival] at h
    cases h
  | ok p =>
    have hput := put_of_arrival_ok harrival
    rw [content_peel] at hput
    rw [hput] at h
    exact ⟨p, passage_of_arrival_ok harrival, Except.ok.inj h,
      state_inside_of_withContent (congrArg Outcome.state hput)⟩

variable [Std.LawfulEqOrd K]

theorem undoes_removeMapping_add {m : Multimap d E K V} {p : K × V}
    (h : (m.content.add p.1 p.2).1 = true) :
    (m.withContent ((m.content.add p.1 p.2).2.removeMapping p.1 p.2).2).Undoes m p := by
  have hbag := m.content.bag_removeMapping_add p.1 p.2
  have hperm := Bag.remove_add_perm (b := m.content.bag p.1) h
  have hcontained : Content.containsKey ((m.content.add p.1 p.2).2.removeMapping p.1 p.2).2 p.1 =
      m.content.containsKey p.1 := by
    rw [Content.containsKey_eq, Content.containsKey_eq, hbag, Bag.isEmpty, Bag.isEmpty, Bag.size,
      Bag.size, hperm.length_eq]
  refine ⟨?_, ?_, ?_, ?_, ?_, ?_⟩
  · rw [content_withContent]
  · intro l hl
    rw [content_withContent, Content.find?_removeMapping_of_ne _ _ hl,
      Content.find?_add_of_ne _ _ hl]
  · rw [valuesAt_eq, valuesAt_eq, content_withContent, hbag]
    exact ((Bag.toList_perm _).trans hperm).trans (Bag.toList_perm _).symm
  · intro hcase
    -- the removal takes the oldest occurrence, which is the new one if there was none
    have hnew : (m.content.bag p.1).contains p.2 = false := by
      rcases hcase with hd | hnot
      · rw [Content.add_fst, Content.containsMapping_eq, beq_eq_false_iff_ne.2 hd] at h
        simpa using h
      · rwa [containsMapping, Content.containsMapping_eq] at hnot
    rw [get?, get?, content_withContent, Content.get?_eq, Content.get?_eq, hbag,
      Bag.remove_add_of_not_mem (of_decide_eq_false hnew)]
  · rw [containsKey, content_withContent, hcontained, containsKey]
  · rw [content_withContent, (Content.removeMapping_drops (m.content.removeMapping_add_fst _ _)).2,
      hcontained, containsKey]

theorem put_removeMapping [Std.TransOrd K] [Std.TransOrd V] [Std.LawfulEqOrd V] {b : Base d E K V}
    (hb : b.RefusesNothing) (hwf : b.content.WellFormed) (hd : d ≠ .sequence) {k : K} {v : V}
    (hremoved : ((base b).removeMapping k v).1 = true) :
    let o := ((base b).removeMapping k v).2.put k v
    o.result = .ok true ∧ o.state = (base b).withContent o.state.content ∧
      o.state.content.SameUpToOrder b.content ∧ (d = .ascending → o.state = base b) := by
  obtain ⟨hadd, hsame⟩ := Content.add_removeMapping hwf hd hremoved
  have hput := put_of_arrival_ok (arrival_of_refusesNothing
    (b := { b with content := (b.content.removeMapping k v).2 }) hb (k, v))
  intro o
  have ho : o = _ := hput
  rw [ho]
  refine ⟨congrArg Except.ok hadd, rfl, hsame, ?_⟩
  rintro rfl
  have hback := hsame.eq_of_ascending ((hwf.removeMapping k v).add k v) hwf
  show base { b with content := ((b.content.removeMapping k v).2.add k v).2 } = base b
  rw [hback]

/-- **A removal undoes a put**, and a put undoes a removal unless bags keep sequences. -/
theorem removeMapping_undoes_put [Std.TransOrd K] [Std.TransOrd V] [Std.LawfulEqOrd V] :
    (∀ (m : Multimap d E K V) (i : Nat) (k : K) (v : V),
      (m.inside i (·.put k v)).result = .ok true →
      ∃ p, (passage (m.peel i).layers k v).result = .ok p ∧
        let n := (m.inside i (·.put k v)).state
        n.containsMapping p.1 p.2 = true ∧
        ∀ j, let o := n.inside j fun t => .ofPair (t.removeMapping p.1 p.2)
          o.result = .ok true ∧ o.state.Undoes m p) ∧
    ∀ (b : Base d E K V) (k : K) (v : V), d ≠ .sequence → b.RefusesNothing →
      b.content.WellFormed → ((base b).removeMapping k v).1 = true →
      let o := ((base b).removeMapping k v).2.put k v
      o.result = .ok true ∧ o.state = (base b).withContent o.state.content ∧
        o.state.content.SameUpToOrder b.content ∧ (d = .ascending → o.state = base b) := by
  constructor
  · intro m i k v hput
    obtain ⟨p, hpassage, hadd, hstate⟩ := inside_put_of_ok_true hput
    have hfound := m.content.removeMapping_add_fst p.1 p.2
    refine ⟨p, hpassage, ?_⟩
    intro n
    have hn : n = m.withContent (m.content.add p.1 p.2).2 := hstate
    refine ⟨?_, ?_⟩
    · rwa [hn, containsMapping, content_withContent, Content.containsMapping_eq,
        ← Content.removeMapping_fst]
    · intro j o
      obtain ⟨hresult, hleft⟩ := n.inside_removeMapping j p.1 p.2
      rw [hn, content_withContent, hfound, ← hn] at hresult
      rw [hn, content_withContent, withContent_withContent, ← hn] at hleft
      refine ⟨hresult, ?_⟩
      rw [hleft]
      exact undoes_removeMapping_add hadd
  · intro b k v hd hb hwf hremoved
    exact put_removeMapping hb hwf hd hremoved

/-- Sequences under a layer that drops the last digit of keys. -/
def seconds : Multimap .sequence Event Nat Nat :=
  (ofContent closed.content).under ⟨some (.ofFunction (· / 10)), none⟩

/-- A value that was there twice before the put is found where it is oldest. -/
theorem removeMapping_undoes_put_seconds :
    let again := (seconds.inside 0 (·.put 15 7)).state
    let risen := (seconds.inside 0 (·.put 42 8)).state
    ((seconds.inside 0 (·.put 15 7)).result = .ok true ∧
      again.content.listing = [(1, [7, 2, 7, 7]), (4, []), (9, [6])] ∧
      (again.removeMapping 1 7).2.content.listing = [(1, [2, 7, 7]), (4, []), (9, [6])] ∧
      (again.inside 1 fun t => .ofPair (t.removeMapping 1 7)).state.Undoes seconds (1, 7)) ∧
    ((seconds.inside 0 (·.put 42 8)).result = .ok true ∧
      (risen.removeMapping 4 8).2.content.listing = [(1, [7, 2, 7]), (9, [6])] ∧
      (risen.inside 0 fun t => .ofPair (t.removeMapping 4 8)).state.Undoes seconds (4, 8)) ∧
    (unfilled.RefusesNothing ∧ unfilled.content.WellFormed ∧
      ((base unfilled).removeMapping 2 5).2.content.listing = [(1, [])] ∧
      (((base unfilled).removeMapping 2 5).2.put 2 5).state.content.SameUpToOrder
        unfilled.content) := by
  intro again risen
  have hb : unfilled.RefusesNothing := fun _ _ => rfl
  have hagain : (seconds.inside 0 (·.put 15 7)).result = .ok true := rfl
  have hrisen : (seconds.inside 0 (·.put 42 8)).result = .ok true := rfl
  obtain ⟨p, hp, -, hp'⟩ := removeMapping_undoes_put.1 seconds 0 15 7 hagain
  obtain ⟨q, hq, -, hq'⟩ := removeMapping_undoes_put.1 seconds 0 42 8 hrisen
  obtain rfl : (1, 7) = p := Except.ok.inj hp
  obtain rfl : (4, 8) = q := Except.ok.inj hq
  obtain ⟨-, -, hback, -⟩ :=
    removeMapping_undoes_put.2 unfilled 2 5 (by decide) hb wellFormed_unfilled rfl
  refine ⟨⟨hagain, rfl, rfl, (hp' 1).2⟩, ⟨hrisen, rfl, (hq' 0).2⟩, ?_⟩
  exact ⟨hb, wellFormed_unfilled, rfl, hback⟩

end Multimap

end LayeredMultimap
