import LayeredMultimap.Proofs.Ghost
import LayeredMultimap.Proofs.Reads
import LayeredMultimap.Proofs.Recast.Order
import LayeredMultimap.Proofs.Stopping

/-!
# Groups that are put back

A drain hands out one group for each key that has values, and leaves nothing behind. The values of
the groups, added to their bags again, make up the content without its ghosts, in whatever order the
groups come (`Content.ofMappings_flatten_groups`). So a multimap that was drained is refilled to
what it was, as far as any look-up can tell.
-/

namespace LayeredMultimap

variable {d : Discipline} {E K V : Type}

/-! ## Bags -/

namespace Bag

variable [DecidableEq V] [Ord V]

theorem members_addAll_distinct {b : Bag .distinct V} {vs : List V}
    (h : (b.members ++ vs).Nodup) : (b.addAll vs).members = b.members ++ vs := by
  induction vs generalizing b with
  | nil => exact (List.append_nil _).symm
  | cons v vs ih =>
    have hv : v ∉ b.members := fun hmem => (List.nodup_append.1 h).2.2 v hmem v (by simp) rfl
    have hadd : (b.add v).2.members = b.members ++ [v] := by simp [add, contains, hv]
    rw [List.append_cons, ← hadd] at h
    rw [addAll, ih h, hadd, List.append_assoc, List.singleton_append]

variable [Std.TransOrd V] [Std.LawfulEqOrd V]

/-- A lawful bag can be rebuilt from its values. -/
theorem addAll_members {b : Bag d V} (h : b.Lawful) : (empty : Bag d V).addAll b.members = b := by
  ext1
  cases d with
  | sequence => exact members_addAll_sequence empty b.members
  | distinct => exact members_addAll_distinct (h.nodup (by decide))
  | ascending =>
    have hnodup : b.members.Nodup := h.nodup (by decide)
    have hperm : ((empty : Bag .ascending V).addAll b.members).members.Perm b.members := by
      rw [List.perm_iff_count]
      intro v
      rw [count_addAll, hnodup.count]
      simp
    exact Ascending.eq_of_perm (pairwise_addAll .nil _) (h.pairwise_isLE rfl) hperm

end Bag

/-! ## Values of a key in groups -/

namespace Multimap

variable [DecidableEq K]

theorem valuesOf_flatten_of_not_mem {gs : List (K × Bag d V)} {k : K} (h : k ∉ gs.map (·.1)) :
    Flat.valuesOf (flatten gs) k = [] := by
  induction gs with
  | nil => rfl
  | cons g gs ih =>
    rw [List.map_cons, List.mem_cons, not_or] at h
    obtain ⟨hg, hgs⟩ := h
    rw [flatten, List.flatMap_cons, Flat.valuesOf_append, Flat.valuesOf_map_of_ne (Ne.symm hg)]
    exact ih hgs

theorem valuesOf_flatten {gs : List (K × Bag d V)} (hnodup : (gs.map (·.1)).Nodup) {g : K × Bag d V}
    (hg : g ∈ gs) : Flat.valuesOf (flatten gs) g.1 = g.2.members := by
  induction gs with
  | nil => cases hg
  | cons a gs ih =>
    obtain ⟨ha, hgs⟩ := List.nodup_cons.1 hnodup
    rw [flatten, List.flatMap_cons, Flat.valuesOf_append]
    rcases List.mem_cons.1 hg with rfl | hg
    · have hrest : Flat.valuesOf (flatten gs) g.1 = [] := valuesOf_flatten_of_not_mem ha
      rw [Flat.valuesOf_map_self]
      exact (congrArg _ hrest).trans (List.append_nil _)
    -- keys are not repeated, so no other group has the key
    · have hne : a.1 ≠ g.1 := by
        intro heq
        have hmem : g.1 ∈ gs.map (·.1) := List.mem_map_of_mem hg
        rw [← heq] at hmem
        exact ha hmem
      rw [Flat.valuesOf_map_of_ne hne]
      exact ih hgs hg

end Multimap

namespace Content

variable [DecidableEq K] [Ord K] [Std.TransOrd K] [Std.LawfulEqOrd K]

theorem valuesOf_flatten_of_perm {c : Content d K V} (hc : c.Ascends) {gs : List (K × Bag d V)}
    (hgs : gs.Perm c.groups) (k : K) :
    Flat.valuesOf (Multimap.flatten gs) k = (c.bag k).members := by
  have hkeys : (gs.map (·.1)).Perm c.keys := hgs.map _
  by_cases hk : k ∈ c.keys
  · obtain ⟨g, hg, rfl⟩ := List.mem_map.1 (hkeys.mem_iff.2 hk)
    have hbag : c.bag g.1 = g.2 := by
      rw [bag_eq_getD, get?_of_mem_groups hc (hgs.mem_iff.1 hg)]
      rfl
    rw [hbag]
    exact Multimap.valuesOf_flatten (hkeys.nodup_iff.2 (nodup_keys hc)) hg
  · have hempty : (c.bag k).isEmpty = true := by
      rwa [mem_keys_iff hc, Bool.not_eq_false] at hk
    rw [Bag.isEmpty_iff.1 hempty]
    exact Multimap.valuesOf_flatten_of_not_mem (fun hmem => hk (hkeys.mem_iff.1 hmem))

omit [DecidableEq K] [Ord K] [Std.TransOrd K] [Std.LawfulEqOrd K] in
theorem HandsOut.isEmpty_eq_false {c : Content d K V} {gs : List (K × Bag d V)}
    (hgs : c.HandsOut gs) : ∀ g ∈ gs, g.2.isEmpty = false := by
  obtain ⟨hs, hperm, hsame⟩ := hgs
  have hfull : ∀ h ∈ hs, h.2.isEmpty = false := by
    intro h hh
    simpa using (List.mem_filter.1 (hperm.mem_iff.1 hh)).2
  clear hperm
  induction hsame with
  | nil => exact nofun
  | @cons g h gs hs hg _ ih =>
    intro a ha
    rcases List.mem_cons.1 ha with rfl | ha
    · have hsize : a.2.size = h.2.size := hg.2.1.length_eq
      rw [Bag.isEmpty, hsize]
      exact hfull h List.mem_cons_self
    · exact ih (fun h hh => hfull h (List.mem_cons_of_mem _ hh)) a ha

theorem HandsOut.valuesOf_flatten_perm {c : Content d K V} (hc : c.Ascends)
    {gs : List (K × Bag d V)} (hgs : c.HandsOut gs) (k : K) :
    (Flat.valuesOf (Multimap.flatten gs) k).Perm (c.bag k).members := by
  have hperm := Flat.valuesOf_perm hgs.flatten_perm k
  rwa [valuesOf_flatten_of_perm hc (.refl _)] at hperm

/-! ## Contents without ghosts -/

section

omit [DecidableEq K] [Ord K] [Std.TransOrd K] [Std.LawfulEqOrd K]

theorem groups_of_no_ghosts {c : Content d K V} (h : c.ghosts = []) : c.groups = c.entries := by
  rw [groups, List.filter_eq_self]
  intro e he
  by_contra hempty
  have hghost : e.1 ∈ c.ghosts := mem_ghosts.2 ⟨e, he, by simpa using hempty, rfl⟩
  rw [h] at hghost
  cases hghost

/-- A content without its ghosts. -/
def pruned (c : Content d K V) : Content d K V := ⟨c.groups⟩

theorem ghosts_pruned (c : Content d K V) : c.pruned.ghosts = [] := by
  apply List.eq_nil_iff_forall_not_mem.2
  intro k hk
  obtain ⟨e, he, hempty, -⟩ := mem_ghosts.1 hk
  have hfull := (List.mem_filter.1 he).2
  simp [hempty] at hfull

theorem groups_pruned (c : Content d K V) : c.pruned.groups = c.groups :=
  groups_of_no_ghosts c.ghosts_pruned

end

omit [DecidableEq K] [Std.TransOrd K] in
theorem ghostEq_pruned {c : Content d K V} (hc : c.Ascends) : c.GhostEq c.pruned := by
  refine ⟨hc, ascends_groups hc, ?_⟩
  intro k
  have hfind := find?_groups (c := c.pruned) (ascends_groups hc) k
  rw [groups_pruned] at hfind
  exact (find?_groups hc k).symm.trans hfind

variable [DecidableEq V] [Ord V]

omit [DecidableEq K] [Std.TransOrd K] [Std.LawfulEqOrd K] [DecidableEq V] in
theorem wellFormed_pruned {c : Content d K V} (hc : c.WellFormed) : c.pruned.WellFormed :=
  ⟨ascends_groups hc.ascends, fun e he => hc.bags e (List.mem_filter.1 he).1⟩

variable [Std.TransOrd V] [Std.LawfulEqOrd V]

/-- A content without ghosts can be rebuilt from its groups, in any order of the keys. -/
theorem ofMappings_flatten {c : Content d K V} (hc : c.WellFormed) (hghosts : c.ghosts = [])
    {gs : List (K × Bag d V)} (hgs : gs.Perm c.groups) :
    ofMappings (Multimap.flatten gs) = c := by
  have hmade : (ofMappings (Multimap.flatten gs) : Content d K V).MadeOf (Multimap.flatten gs) :=
    madeOf_ofMappings _
  have hvalues := valuesOf_flatten_of_perm hc.ascends hgs
  apply eq_of_bag hmade.ascends hc.ascends
  · apply hmade.ascends.domain_eq hc.ascends
    intro k
    have hdomain : c.domain = c.keys := by rw [keys, groups_of_no_ghosts hghosts]; rfl
    have hmem : k ∈ (Multimap.flatten gs).map (·.1) ↔ (c.bag k).members ≠ [] := by
      rw [← hvalues, Flat.valuesOf]
      simp
    rw [hmade.keys, hmem, hdomain, mem_keys_iff hc.ascends, Ne, ← Bag.isEmpty_iff,
      Bool.not_eq_true]
  · intro k
    show (extend .empty (Multimap.flatten gs)).bag k = c.bag k
    rw [bag_extend, hvalues]
    exact Bag.addAll_members (hc.bag k)

theorem ofMappings_flatten_groups {c : Content d K V} (hc : c.WellFormed)
    {gs : List (K × Bag d V)} (hgs : gs.Perm c.groups) :
    ofMappings (Multimap.flatten gs) = c.pruned := by
  rw [← groups_pruned] at hgs
  exact ofMappings_flatten (wellFormed_pruned hc) c.ghosts_pruned hgs

/-- The order in which the groups come makes no difference to what is listed. -/
theorem HandsOut.ofMappings_listing {c : Content d K V} (hc : c.WellFormed)
    {gs : List (K × Bag d V)} (hgs : c.HandsOut gs) :
    (ofMappings (Multimap.flatten gs) : Content d K V).listing = c.pruned.listing := by
  by_cases hd : d = .distinct
  · have hsame := ofMappings_perm (d := d) hgs.flatten_perm
    rw [ofMappings_flatten_groups hc (.refl _)] at hsame
    apply hsame.listing
    rw [hd]
    decide
  · rw [ofMappings_flatten_groups hc (hgs.perm_groups hd)]

/-! ## What a listing tells -/

section

omit [DecidableEq K] [Ord K] [Std.TransOrd K] [Std.LawfulEqOrd K] [DecidableEq V] [Std.TransOrd V]
  [Std.LawfulEqOrd V]

theorem mappings_eq_flatMap_listing (c : Content d K V) :
    c.mappings = c.listing.flatMap fun e => e.2.map (e.1, ·) := by
  simp [mappings, listing, List.flatMap_map]

theorem keyCount_eq_countP_listing (c : Content d K V) :
    c.keyCount = c.listing.countP fun e => e.2.length ≠ 0 := by
  unfold keyCount listing
  rw [List.countP_map]
  apply List.countP_congr
  intro e _
  simp only [Function.comp_apply, Bag.length_toList, Bag.isEmpty]
  simp

theorem get?_eq_find?_listing [Ord K] (c : Content d K V) (k : K) :
    (c.get? k).map Bag.toList =
      (Table.find? ⟨c.listing⟩ k).filter fun vs => vs.length ≠ 0 := by
  obtain ⟨es⟩ := c
  unfold get? Table.find? listing
  induction es with
  | nil => rfl
  | cons e r ih =>
    by_cases hk : compare k e.1 = .eq
    · rw [List.map_cons, Table.findIn, if_pos hk, Table.findIn, if_pos hk]
      by_cases hempty : e.2.size = 0
      · simp [Option.filter, Bag.isEmpty, hempty]
      · simp [Option.filter, Bag.isEmpty, hempty]
    · rw [List.map_cons, Table.findIn, if_neg hk, Table.findIn, if_neg hk]
      exact ih

end

end Content

/-! ## Drained multimaps -/

namespace Multimap

variable [DecidableEq K] [Ord K] [DecidableEq V] [Ord V]

/-- Adds the values of groups to the bags of their keys, group by group, each through the view of
the bag. -/
def putBack (m : Multimap d E K V) (gs : List (K × Bag d V)) : Multimap d E K V :=
  gs.foldl (fun m g => (m.edit g.1 (g.2.members.map .add)).2) m

/-- What is read of `n` is read of `m` as well, and `n` has no key without values. -/
structure Regains (n m : Multimap d E K V) : Prop where
  around : n = m.withContent n.content
  get : ∀ k, (n.get? k).map Bag.toList = (m.get? k).map Bag.toList
  get_exact : d ≠ .distinct → ∀ k, n.get? k = m.get? k
  size : n.size = m.size
  keyCount : n.keyCount = m.keyCount
  ghosts : n.content.ghosts = []

omit [DecidableEq K] in
theorem putBack_eq [Std.ReflOrd K] (m : Multimap d E K V) {gs : List (K × Bag d V)}
    (hgs : ∀ g ∈ gs, g.2.isEmpty = false) :
    m.putBack gs = m.withContent (m.content.extend (flatten gs)) := by
  induction gs generalizing m with
  | nil => exact (withContent_content m).symm
  | cons g gs ih =>
    have hfull : g.2.members ≠ [] := by
      rw [Ne, ← Bag.isEmpty_iff, hgs g List.mem_cons_self]
      exact Bool.false_ne_true
    have hedit := m.content.edit_map_add_snd g.1 hfull
    have hrest := ih (m.withContent (m.content.extend (g.2.members.map (g.1, ·))))
      (fun g hg => hgs g (List.mem_cons_of_mem _ hg))
    rw [content_withContent, withContent_withContent, ← Content.extend_append] at hrest
    show (m.withContent (m.content.edit g.1 _).2).putBack gs = _
    rw [hedit, hrest]
    rfl

theorem each_putValues (b : Base d E K V) (gs : List (K × Bag d V)) :
    ∃ bs t, Each (fun g m => m.putValues g.1 (Source.ofList g.2.members)) (base b)
      (Source.ofList gs) bs t ((base b).withContent (b.content.extend (flatten gs))) := by
  induction gs generalizing b with
  | nil => exact ⟨[], [], .nil _⟩
  | cons g gs ih =>
    obtain ⟨hresult, hstate⟩ := putValues_of_pass (m := base b) (k := g.1)
      (s := Source.ofList g.2.members) rfl (List.forall₂_same.2 fun _ _ => rfl)
    rw [Source.items_ofList] at hresult hstate
    obtain ⟨bs, t, ht⟩ := ih { b with content := b.content.extend (g.2.members.map (g.1, ·)) }
    have hrest : b.content.extend (flatten (g :: gs)) =
        (b.content.extend (g.2.members.map (g.1, ·))).extend (flatten gs) := by
      rw [← Content.extend_append]
      rfl
    rw [hrest]
    exact ⟨_, _, .cons (Outcome.ext hresult hstate rfl) ht⟩

variable [Std.TransOrd K] [Std.LawfulEqOrd K] [Std.TransOrd V] [Std.LawfulEqOrd V]

theorem regains_putBack {m : Multimap d E K V} (hm : m.content.WellFormed)
    {gs : List (K × Bag d V)} (hgs : m.content.HandsOut gs) :
    (m.drain.2.putBack gs).Regains m := by
  have hback : m.drain.2.putBack gs = m.withContent (Content.ofMappings (flatten gs)) := by
    rw [putBack_eq _ hgs.isEmpty_eq_false]
    show (m.withContent .empty).withContent ((m.withContent .empty).content.extend _) = _
    rw [content_withContent, withContent_withContent]
    rfl
  have hlisting := hgs.ofMappings_listing hm
  have hghost := Content.ghostEq_pruned hm.ascends
  rw [hback]
  refine ⟨?_, ?_, ?_, ?_, ?_, ?_⟩
  · rw [content_withContent]
  · intro k
    rw [get?, content_withContent, get?, Content.get?_eq_find?_listing, hlisting,
      ← Content.get?_eq_find?_listing, hghost.get?_eq]
  · intro hd k
    rw [get?, content_withContent, Content.ofMappings_flatten_groups hm (hgs.perm_groups hd)]
    exact (hghost.get?_eq k).symm
  · rw [size, content_withContent, size, ← Content.length_mappings, ← Content.length_mappings,
      hghost.mappings_eq, Content.mappings_eq_flatMap_listing, hlisting,
      ← Content.mappings_eq_flatMap_listing]
  · rw [keyCount, content_withContent, keyCount, Content.keyCount_eq_countP_listing, hlisting,
      ← Content.keyCount_eq_countP_listing, Content.keyCount_eq_length_groups,
      Content.keyCount_eq_length_groups, hghost.groups_eq]
  · rw [content_withContent]
    exact List.subset_nil.1 (Content.ghosts_extend .empty _)

/-- **What a drain hands out makes up the multimap again**, in whatever order the groups are put
back. -/
theorem drain_putBack {m : Multimap d E K V} (hm : m.content.WellFormed) :
    (m.drain.2 = m.withContent m.drain.2.content ∧ m.drain.2.content.entries = []) ∧
    ((m.drain.1.map (·.1)).Nodup ∧ (∀ g ∈ m.drain.1, g.2.isEmpty = false) ∧
      ∀ k b, (k, b) ∈ m.drain.1 ↔ m.get? k = some b) ∧
    ∀ gs, m.content.HandsOut gs → (m.drain.2.putBack gs).Regains m ∧
      (m.depth = 0 → ∃ bs t, Each (fun g n => n.putValues g.1 (Source.ofList g.2.members))
        m.drain.2 (Source.ofList gs) bs t (m.drain.2.putBack gs)) := by
  have hleft : m.drain.2 = m.withContent .empty := rfl
  refine ⟨⟨?_, ?_⟩, ⟨?_, ?_, ?_⟩, ?_⟩
  · rw [hleft, content_withContent]
  · rw [hleft, content_withContent]
    rfl
  · exact Content.nodup_keys hm.ascends
  · exact m.content.handsOut_groups.isEmpty_eq_false
  · intro k b
    constructor
    · intro hg
      exact Content.get?_of_mem_groups hm.ascends hg
    · intro hb
      rw [get?, ← Content.find?_groups hm.ascends] at hb
      exact Table.mem_of_find? hb
  · intro gs hgs
    refine ⟨regains_putBack hm hgs, ?_⟩
    intro hdepth
    cases m with
    | base b =>
      rw [putBack_eq _ hgs.isEmpty_eq_false]
      exact each_putValues { b with content := .empty } gs
    | layered l m => simp [depth] at hdepth

/-- A base map of sequences with a key without values, which refuses every put. -/
def closed : Base .sequence Event Nat Nat :=
  ⟨⟨[(1, ⟨[7, 2, 7]⟩), (4, ⟨[]⟩), (9, ⟨[6]⟩)]⟩, fun _ _ => pure (some "closed")⟩

/-- The groups come back in the other order, and the key without values is gone. -/
theorem drain_putBack_closed :
    let gs : List (Nat × Bag .sequence Nat) := [(9, ⟨[6]⟩), (1, ⟨[7, 2, 7]⟩)]
    (closed.content.WellFormed ∧ closed.content.HandsOut gs) ∧
    (base closed).drain.2.content.entries = [] ∧
    ((base closed).drain.2.putBack gs).content.listing = [(1, [7, 2, 7]), (9, [6])] ∧
    ((base closed).drain.2.putBack gs).Regains (base closed) ∧
    ∃ bs t, Each (fun g n => n.putValues g.1 (Source.ofList g.2.members))
      (base closed).drain.2 (Source.ofList gs) bs t ((base closed).drain.2.putBack gs) := by
  intro gs
  have hm : closed.content.WellFormed := by
    refine ⟨?_, fun e _ => ⟨fun hd => absurd rfl hd, nofun⟩⟩
    show List.Pairwise _ closed.content.entries
    decide
  have hgs : closed.content.HandsOut gs :=
    ⟨gs, .swap _ _ _, List.forall₂_same.2 fun _ _ => ⟨rfl, .refl _, fun _ => rfl⟩⟩
  obtain ⟨⟨-, hempty⟩, -, hback⟩ := drain_putBack (m := base closed) hm
  obtain ⟨hregains, hvalues⟩ := hback gs hgs
  exact ⟨⟨hm, hgs⟩, hempty, rfl, hregains, hvalues rfl⟩

end Multimap

end LayeredMultimap
