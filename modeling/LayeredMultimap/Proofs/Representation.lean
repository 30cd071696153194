import LayeredMultimap.Proofs.Change
import LayeredMultimap.Value.Event

/-!
# What every content keeps to

The keys of a content are distinct, and each bag keeps to its discipline (`Content.WellFormed`).
Every change of a content keeps it so, edits of a bag included.

A key with an empty bag is a ghost. An edit can make one; the four changes of a step that does not
edit a bag make none (`Content.Change.ghosts_subset`), since an addition leaves its value in the bag
and a removal that empties a bag drops the key. Additions that go through the view of a bag, as an
edit does, are additions like any other as long as there is something to add (`restore_eq_extend`).
-/

namespace LayeredMultimap

variable {d : Discipline} {E K V : Type} [Ord V]

/-! ## Bags -/

namespace Bag

/-- A bag holds no value twice unless it keeps a sequence, and lists its values in strictly
ascending order if it is an ascending one. -/
structure Lawful (b : Bag d V) : Prop where
  nodup : d ≠ .sequence → b.members.Nodup
  ascends : d = .ascending → b.toList.Pairwise fun v w => compare v w = .lt

theorem lawful_empty : (empty : Bag d V).Lawful := by
  refine ⟨fun _ => .nil, ?_⟩
  rintro rfl
  exact .nil

variable [DecidableEq V]

theorem isEmpty_add (b : Bag d V) (v : V) : (b.add v).2.isEmpty = false :=
  isEmpty_of_mem (mem_add.2 (.inl rfl))

namespace Lawful

variable {b : Bag d V}

theorem remove (h : b.Lawful) (v : V) : (b.remove v).2.Lawful := by
  refine ⟨fun hd => (h.nodup hd).sublist List.erase_sublist, ?_⟩
  rintro rfl
  exact (h.ascends rfl).sublist List.erase_sublist

omit [DecidableEq V] in
theorem pairwise_isLE (h : b.Lawful) (hd : d = .ascending) :
    b.toList.Pairwise fun v w => (compare v w).isLE := by
  refine (h.ascends hd).imp ?_
  intro v w hlt
  rw [hlt]
  rfl

variable [Std.TransOrd V] [Std.LawfulEqOrd V]

theorem add (h : b.Lawful) (v : V) : (b.add v).2.Lawful := by
  have hnodup : d ≠ .sequence → (b.add v).2.members.Nodup := fun hd => nodup_add hd (h.nodup hd) v
  refine ⟨hnodup, ?_⟩
  rintro rfl
  exact Ascending.pairwise_lt_of_nodup (hnodup (by decide)) (pairwise_add (h.pairwise_isLE rfl) v)

theorem edit (h : b.Lawful) (e : Edit V) : (b.edit e).2.Lawful := by
  cases e with
  | add v => exact h.add v
  | remove v => exact h.remove v
  | drain => exact lawful_empty
  | contains | size | isEmpty | list => exact h

theorem editAll (h : b.Lawful) (es : List (Edit V)) : (b.editAll es).Lawful := by
  induction es generalizing b with
  | nil => exact h
  | cons e es ih => exact ih (h.edit e)

end Lawful

end Bag

/-! ## Contents -/

namespace Content

variable [Ord K]

/-- The keys of a content ascend, and its bags keep to their discipline. -/
structure WellFormed (c : Content d K V) : Prop where
  ascends : c.Ascends
  bags : ∀ e ∈ c.entries, e.2.Lawful

theorem wellFormed_empty : WellFormed (.empty : Content d K V) := ⟨Table.ascends_empty, nofun⟩

namespace WellFormed

variable {c : Content d K V}

theorem erase (h : c.WellFormed) (k : K) : WellFormed (c.erase k) :=
  ⟨h.ascends.erase k, fun e he => h.bags e (List.mem_filter.1 he).1⟩

variable [Std.LawfulEqOrd K]

theorem bag (h : c.WellFormed) (k : K) : (c.bag k).Lawful := by
  rw [Content.bag]
  cases hb : c.find? k with
  | none => exact Bag.lawful_empty
  | some b => exact h.bags (k, b) (Table.mem_of_find? hb)

variable [Std.TransOrd K]

theorem insert (h : c.WellFormed) (k : K) {b : Bag d V} (hb : b.Lawful) :
    WellFormed (c.insert k b) := by
  refine ⟨h.ascends.insert k b, ?_⟩
  intro e he
  rcases Table.mem_insertIn he with rfl | he
  · exact hb
  · exact h.bags e he

variable [DecidableEq V]

theorem removeMapping (h : c.WellFormed) (k : K) (v : V) : (c.removeMapping k v).2.WellFormed := by
  obtain ⟨-, hsame⟩ | ⟨b, hb, ⟨-, hdrop⟩ | ⟨-, hset⟩⟩ := c.removeMapping_snd_cases k v
  · rwa [hsame]
  · rw [hdrop]
    exact h.erase k
  · have hlawful : b.Lawful := h.bags (k, b) (Table.mem_of_find? hb)
    rw [hset]
    exact h.insert k (hlawful.remove v)

variable [Std.TransOrd V] [Std.LawfulEqOrd V]

theorem add (h : c.WellFormed) (k : K) (v : V) : (c.add k v).2.WellFormed :=
  h.insert k ((h.bag k).add v)

theorem extend (h : c.WellFormed) (ps : List (K × V)) : (c.extend ps).WellFormed := by
  induction ps generalizing c with
  | nil => exact h
  | cons p ps ih => exact ih (h.add p.1 p.2)

theorem edit (h : c.WellFormed) (k : K) (es : List (Edit V)) : (c.edit k es).2.WellFormed :=
  h.insert k ((h.bag k).editAll es)

theorem change (h : c.WellFormed) {c' : Content d K V} (hc : c.Change c') : c'.WellFormed := by
  cases hc with
  | extend ps => exact h.extend ps
  | erase k => exact h.erase k
  | removeMapping k v => exact h.removeMapping k v
  | renew ps => exact wellFormed_empty.extend ps

end WellFormed

/-! ## Ghosts -/

section

omit [Ord V] [Ord K]

/-- The keys with an empty bag. -/
def ghosts (c : Content d K V) : List K := (c.entries.filter (·.2.isEmpty)).map (·.1)

theorem mem_ghosts {c : Content d K V} {k : K} :
    k ∈ c.ghosts ↔ ∃ e ∈ c.entries, e.2.isEmpty = true ∧ e.1 = k := by
  simp only [ghosts, List.mem_map, List.mem_filter, and_assoc]

theorem length_domain (c : Content d K V) : c.domain.length = c.keyCount + c.ghosts.length := by
  have hsplit := List.length_eq_length_filter_add (l := c.entries) (·.2.isEmpty)
  have hcount := c.keyCount_eq_length_groups
  simp only [Table.domain, ghosts, groups, List.length_map] at *
  omega

end

variable {c c' : Content d K V}

omit [Ord V] [Ord K] in
/-- Ghosts come with new entries only. -/
theorem ghosts_subset (h : ∀ e ∈ c'.entries, e.2.isEmpty = true → e ∈ c.entries) :
    c'.ghosts ⊆ c.ghosts := by
  intro k hk
  obtain ⟨e, he, hempty, hkey⟩ := mem_ghosts.1 hk
  exact mem_ghosts.2 ⟨e, h e he hempty, hempty, hkey⟩

omit [Ord V] in
theorem ghosts_erase (c : Content d K V) (k : K) : ghosts (c.erase k) ⊆ c.ghosts :=
  ghosts_subset fun _ he _ => (List.mem_filter.1 he).1

variable [Std.LawfulEqOrd K]

omit [Ord V] in
theorem ghosts_insert (c : Content d K V) (k : K) {b : Bag d V} (hb : b.isEmpty = false) :
    ghosts (c.insert k b) ⊆ c.ghosts := by
  apply ghosts_subset
  intro e he hempty
  rcases Table.mem_insertIn he with rfl | he
  · rw [hb] at hempty
    cases hempty
  · exact he

variable [DecidableEq V]

omit [Ord V] in
theorem ghosts_removeMapping (c : Content d K V) (k : K) (v : V) :
    (c.removeMapping k v).2.ghosts ⊆ c.ghosts := by
  obtain ⟨-, hsame⟩ | ⟨b, -, ⟨-, hdrop⟩ | ⟨hfull, hset⟩⟩ := c.removeMapping_snd_cases k v
  · rw [hsame]
    exact List.Subset.refl _
  · rw [hdrop]
    exact c.ghosts_erase k
  · rw [hset]
    exact c.ghosts_insert k hfull

theorem ghosts_add (c : Content d K V) (k : K) (v : V) : (c.add k v).2.ghosts ⊆ c.ghosts :=
  c.ghosts_insert k (Bag.isEmpty_add _ v)

theorem ghosts_extend (c : Content d K V) (ps : List (K × V)) :
    (c.extend ps).ghosts ⊆ c.ghosts := by
  induction ps generalizing c with
  | nil => exact List.Subset.refl _
  | cons p ps ih => exact List.Subset.trans (ih _) (c.ghosts_add p.1 p.2)

/-- Where no bag is edited there is no new ghost. -/
theorem Change.ghosts_subset (h : c.Change c') : c'.ghosts ⊆ c.ghosts := by
  cases h with
  | extend ps => exact c.ghosts_extend ps
  | erase k => exact c.ghosts_erase k
  | removeMapping k v => exact c.ghosts_removeMapping k v
  | renew ps =>
    intro k hk
    have hnone : k ∈ ghosts (.empty : Content d K V) := ghosts_extend .empty ps hk
    cases hnone

/-! ## Additions through the view of a bag -/

/-- Adds values to the bag of a key through its view, which is not asked for if there are none. -/
def restore (c : Content d K V) (k : K) (vs : List V) : Content d K V :=
  if vs.isEmpty then c else (c.edit k (vs.map .add)).2

omit [Std.LawfulEqOrd K] in
/-- What goes through the view of a bag could as well be added mapping by mapping. -/
theorem restore_eq_extend [Std.ReflOrd K] (c : Content d K V) (k : K) (vs : List V) :
    c.restore k vs = c.extend (vs.map (k, ·)) := by
  cases vs with
  | nil => rfl
  | cons v vs =>
    rw [extend_map_cons]
    show c.insert k ((c.bag k).editAll _) = _
    rw [Bag.editAll_add]

omit [Std.LawfulEqOrd K] in
theorem edit_map_add_snd [Std.ReflOrd K] (c : Content d K V) (k : K) {vs : List V} (hvs : vs ≠ []) :
    (c.edit k (vs.map .add)).2 = c.extend (vs.map (k, ·)) := by
  have hfull : vs.isEmpty = false := List.isEmpty_eq_false_iff.2 hvs
  have hrestore := c.restore_eq_extend k vs
  rwa [restore, hfull, if_neg Bool.false_ne_true] at hrestore

theorem ghosts_restore (c : Content d K V) (k : K) (vs : List V) :
    (c.restore k vs).ghosts ⊆ c.ghosts := by
  rw [restore_eq_extend]
  exact c.ghosts_extend _

omit [Std.LawfulEqOrd K] in
/-- A pour goes through the view of one bag, with the values that get through before it stops. -/
theorem pour_state_eq_restore [Std.ReflOrd K] (c : Content d K V) (f : V → Attempt E V) (k : K)
    (s : Source E V) : (c.pour f k s).state = c.restore k (Source.through f s).1.items := by
  rw [pour_state_eq, restore_eq_extend]

end Content

/-- What a stopped recast leaves goes back through the views of the bags, group by group. -/
theorem Multimap.content_refill [Ord K] [DecidableEq V] [Std.ReflOrd K] (m : Multimap d E K V)
    (k : K) (vs : List V) (gs : List (K × Bag d V)) :
    (refill (vs.map (k, ·) ++ flatten gs) m).content =
      gs.foldl (fun c g => c.restore g.1 g.2.members) (m.content.restore k vs) := by
  rw [refill, content_withContent, Content.extend_append, ← Content.restore_eq_extend]
  generalize m.content.restore k vs = c
  induction gs generalizing c with
  | nil => rfl
  | cons g gs ih =>
    rw [flatten, List.flatMap_cons, Content.extend_append, ← Content.restore_eq_extend]
    exact ih _

/-! ## Steps and runs -/

variable [Ord K] [DecidableEq K] [DecidableEq V] [Logging E] [ToString K] [ToString V]

namespace Step

variable [Std.LawfulEqOrd K]

/-- No step but an edit of a bag makes a ghost, in whatever order a recast finds the groups. -/
theorem RunsTo.ghosts {s : Step E K V} (hs : ¬s.Edits) {m : Multimap d E K V}
    {x : Answer d E K V × Multimap d E K V} (h : s.RunsTo m x) :
    x.2.content.ghosts ⊆ m.content.ghosts := (h.change hs).ghosts_subset

theorem RunsAllTo.ghosts {m : Multimap d E K V} (hm : m.content.ghosts = [])
    {ss : List (Step E K V)} (hss : ∀ s ∈ ss, ¬s.Edits)
    {x : List (Answer d E K V) × Multimap d E K V} (h : RunsAllTo ss m x) :
    x.2.content.ghosts = [] := by
  refine h.keeps (P := fun m => m.content.ghosts = []) ?_ hm
  intro s hs m x hm hx
  have hsub := hx.ghosts (hss s hs)
  rw [hm] at hsub
  exact List.subset_nil.1 hsub

variable [Std.TransOrd K] [Std.TransOrd V] [Std.LawfulEqOrd V]

theorem RunsTo.wellFormed {s : Step E K V} {m : Multimap d E K V}
    {x : Answer d E K V × Multimap d E K V} (h : s.RunsTo m x) (hm : m.content.WellFormed) :
    x.2.content.WellFormed := by
  -- an edit is none of the four changes, since it can leave the bag empty
  by_cases hs : s.Edits
  · obtain ⟨n, k, es, rfl⟩ := hs.eq_edit
    cases h
    rw [content_run_edit]
    exact hm.edit k es
  · exact hm.change (h.change hs)

theorem RunsAllTo.wellFormed {ss : List (Step E K V)} {m : Multimap d E K V}
    {x : List (Answer d E K V) × Multimap d E K V} (h : RunsAllTo ss m x)
    (hm : m.content.WellFormed) : x.2.content.WellFormed :=
  h.keeps (P := fun m => m.content.WellFormed) (fun _ _ _ _ hm hx => hx.wellFormed hm) hm

end Step

variable [Std.LawfulEqOrd K] [Std.TransOrd K] [Std.TransOrd V] [Std.LawfulEqOrd V]

omit [DecidableEq K] [Logging E] [ToString K] [ToString V] in
theorem Multimap.wellFormed_stack (ls : List (Layer E K V))
    (refusal : K → V → Traced E (Option String)) (ps : List (K × V)) :
    (stack d ls refusal ps).content.WellFormed := by
  rw [content_stack]
  exact Content.wellFormed_empty.extend ps

/-- **Keys are distinct, bags are lawful, and only an edit leaves a key without values.** The steps
of a fork are a run of their own on the same multimap. -/
theorem representation_invariant (ls : List (Layer E K V))
    (refusal : K → V → Traced E (Option String)) (ps : List (K × V)) (ss : List (Step E K V)) :
    let m := (Step.runAll ss (Multimap.stack d ls refusal ps)).2
    m.content.domain.Nodup ∧
      (∀ e ∈ m.content.entries, e.2.Lawful) ∧
      (∀ s : Step E K V, ¬s.Edits → (Step.run s m).2.content.ghosts ⊆ m.content.ghosts) ∧
      ∀ rs : List (Step E K V), m.content.ghosts = [] → (∀ s ∈ rs, ¬s.Edits) →
        (Step.runAll rs m).2.content.listing.length = (Step.runAll rs m).2.keyCount := by
  intro m
  have hm : m.content.WellFormed :=
    (Step.runsAllTo_runAll ss _).wellFormed (Multimap.wellFormed_stack ls refusal ps)
  refine ⟨hm.ascends.nodup_domain, hm.bags, fun s hs => (Step.RunsTo.run s m).ghosts hs, ?_⟩
  intro rs hghosts hrs
  have hcount := (Step.runAll rs m).2.content.length_domain
  rw [(Step.runsAllTo_runAll rs m).ghosts hghosts hrs] at hcount
  rw [Content.listing, List.length_map]
  rwa [Table.domain, List.length_map] at hcount

/-- A layer that drops the last digit of keys, around one that bars the value three. -/
def tens : List (Layer Event Nat Nat) :=
  [⟨some (.ofFunction (· / 10)), none⟩,
    ⟨none, some (.ofFallible fun v => if v = 3 then .error ⟨"barred"⟩ else .ok v)⟩]

/-- An edit that leaves nine without values, values for a key of which the last one is barred, and a
recast that is stopped at once. -/
def stopping : List (Step Event Nat Nat) :=
  [.operate 0 (.edit 9 [.add 3, .add 2, .remove 3, .drain]),
    .operate 1 (.putValues 7 (some (Source.ofList [5, 2, 3]))),
    .decorate ⟨none, some (.ofFunction (· - 1))⟩ true .keep]

/-- The first of these steps on ascending bags. -/
def stoppedAfter (n : Nat) : Multimap .ascending Event Nat Nat :=
  (Step.runAll (stopping.take n)
    (Multimap.stack .ascending tens (fun _ _ => pure none) [(1, 4), (2, 4)])).2

/-- Puts in bulk that fail on their way, removals that empty a bag, and a build. -/
def goingOn : List (Step Event Nat Nat) :=
  [.operate 1 (.putPairs (some (Source.ofList [(2, 9), (8, 3), (5, 5)]))),
    .operate 0 (.removeMapping 2 4), .operate 0 (.removeMapping 2 9),
    .build [.current, .key (.const 40), .existing true]]

/-- The ghost of an edit is gone after the recast, and the steps behind it leave none. -/
theorem representation_invariant_stopping :
    ((stoppedAfter 3).content.ghosts = [] ∧ ∀ s ∈ goingOn, ¬s.Edits) ∧
    ((stoppedAfter 2).content.listing = [(1, [4]), (2, [4]), (7, [2, 5]), (9, [])] ∧
      (stoppedAfter 3).content.listing = [(2, [4]), (7, [2, 5])] ∧
      (Step.runAll goingOn (stoppedAfter 3)).2.content.listing = [(4, [2, 5])]) ∧
    (∀ e ∈ (stoppedAfter 2).content.entries, e.2.Lawful) ∧
    (Step.runAll goingOn (stoppedAfter 3)).2.content.listing.length =
      (Step.runAll goingOn (stoppedAfter 3)).2.keyCount := by
  have hghosts : (stoppedAfter 3).content.ghosts = [] := rfl
  have hss : ∀ s ∈ goingOn, ¬s.Edits := by simp [goingOn, Step.Edits]
  have hinvariant (n : Nat) := representation_invariant (d := .ascending) tens
    (fun _ _ => pure none) [(1, 4), (2, 4)] (stopping.take n)
  exact ⟨⟨hghosts, hss⟩, ⟨rfl, rfl, rfl⟩, (hinvariant 2).2.1,
    (hinvariant 3).2.2.2 goingOn hghosts hss⟩

end LayeredMultimap
