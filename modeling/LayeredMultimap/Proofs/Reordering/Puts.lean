import LayeredMultimap.Proofs.Recast.Order
import LayeredMultimap.Proofs.Reported
import LayeredMultimap.Proofs.Representation

/-!
# Puts in another order

Whether a mapping gets through hangs on the layers and on the refusal rule, so a run of puts that
gets through does so in any order, with the same images. What the base makes of the images hangs on
their order only in sequences, and there for each key on the order of the images of this key.
-/

namespace LayeredMultimap

variable {d : Discipline} {E K V : Type} [DecidableEq K] [DecidableEq V]

namespace Multimap

/-- The key under which a mapping comes out behind the layers, if it gets through them. -/
def storedKey? (m : Multimap d E K V) (p : K × V) : Option K :=
  (passage m.layers p.1 p.2).result.toOption.map (·.1)

theorem storedKey?_of_arrival {m : Multimap d E K V} {p q : K × V}
    (h : (m.arrival p.1 p.2).value = .ok q) : m.storedKey? p = some q.1 := by
  rw [storedKey?, passage_of_arrival_ok h]
  rfl

theorem Arrive.eq {m : Multimap d E K V} {ps qs qs' : List (K × V)} (h : m.Arrive ps qs)
    (h' : m.Arrive ps qs') : qs = qs' := h.eq_filterMap.trans h'.eq_filterMap.symm

theorem Arrive.filter {m : Multimap d E K V} {ps qs : List (K × V)} (h : m.Arrive ps qs) (k : K) :
    m.Arrive (ps.filter (m.storedKey? · = some k)) (qs.filter (·.1 = k)) := by
  induction h with
  | nil => exact .nil
  | @cons p q ps qs hq _ ih =>
    have hkey : m.storedKey? p = some q.1 := storedKey?_of_arrival hq
    by_cases hk : q.1 = k
    · rw [List.filter_cons_of_pos (by simp [hkey, hk]), List.filter_cons_of_pos (by simp [hk])]
      exact .cons hq ih
    · rw [List.filter_cons_of_neg (by simp [hkey, hk]), List.filter_cons_of_neg (by simp [hk])]
      exact ih

theorem valuesOf_eq_of_arrive {m : Multimap d E K V} {ps ps' qs qs' : List (K × V)} {k : K}
    (hqs : m.Arrive ps qs) (hqs' : m.Arrive ps' qs')
    (hk : ps.filter (m.storedKey? · = some k) = ps'.filter (m.storedKey? · = some k)) :
    Flat.valuesOf qs k = Flat.valuesOf qs' k := by
  have hfilter := hqs.filter k
  rw [hk] at hfilter
  rw [Flat.valuesOf, Flat.valuesOf, hfilter.eq (hqs'.filter k)]

variable [Ord K] [Ord V]

theorem putPairs_ok_of_perm {m : Multimap d E K V} {ps ps' : Source E (K × V)}
    (h : ps.items.Perm ps'.items) (hok : ∃ b, (m.putPairs ps).result = .ok b) :
    ∃ b, (m.putPairs ps').result = .ok b := by
  obtain ⟨b, hb⟩ := hok
  obtain ⟨qs, hqs, -⟩ := putPairs_of_ok hb
  obtain ⟨qs', hqs', -⟩ := hqs.perm h.symm
  exact ⟨_, (putPairs_of_arrive hqs').1⟩

/-- What runs of puts from `ps` and from `ps'` have left, `n` and `n'`, differs at most in the order
of the values in sequences. -/
structure PutAlike (m : Multimap d E K V) (ps ps' : List (K × V)) (n n' : Multimap d E K V) :
    Prop where
  around : n' = n.withContent n'.content
  content : n.content.SameUpToOrder n'.content
  bag : ∀ k, ps.filter (m.storedKey? · = some k) = ps'.filter (m.storedKey? · = some k) →
    n.content.bag k = n'.content.bag k
  same : (∀ k, ps.filter (m.storedKey? · = some k) = ps'.filter (m.storedKey? · = some k)) → n = n'

variable [Std.TransOrd K] [Std.LawfulEqOrd K] [Std.TransOrd V] [Std.LawfulEqOrd V]

theorem putPairs_putAlike {m : Multimap d E K V} (hm : m.content.WellFormed)
    {ps ps' : Source E (K × V)} (h : ps.items.Perm ps'.items) {b b' : Bool}
    (hb : (m.putPairs ps).result = .ok b) (hb' : (m.putPairs ps').result = .ok b') :
    b = b' ∧ m.PutAlike ps.items ps'.items (m.putPairs ps).state (m.putPairs ps').state := by
  obtain ⟨qs, hqs, rfl, hstate⟩ := putPairs_of_ok hb
  obtain ⟨qs', hqs', rfl, hstate'⟩ := putPairs_of_ok hb'
  obtain ⟨images, himages, hperm⟩ := hqs.perm h.symm
  obtain rfl := himages.eq hqs'
  have hasc : (m.content.extend qs).Ascends := Content.ascends_extend hm.ascends qs
  have hasc' : (m.content.extend images).Ascends := Content.ascends_extend hm.ascends images
  have hsame : (m.content.extend qs).SameUpToOrder (m.content.extend images) :=
    Content.extend_perm hm.ascends (fun hd k => (hm.bag k).pairwise_isLE hd) hperm.symm
  have hbag : ∀ k, ps.items.filter (m.storedKey? · = some k) =
      ps'.items.filter (m.storedKey? · = some k) →
      (m.content.extend qs).bag k = (m.content.extend images).bag k := by
    intro k hk
    rw [Content.bag_extend, Content.bag_extend, valuesOf_eq_of_arrive hqs hqs' hk]
  rw [hstate, hstate']
  refine ⟨?_, ?_, ?_, ?_, ?_⟩
  · rw [Bool.eq_iff_iff, Content.addAll_fst_iff hm.ascends, Content.addAll_fst_iff hm.ascends]
    simp only [hperm.mem_iff]
  · rw [content_withContent, withContent_withContent]
  · rw [content_withContent, content_withContent]
    exact hsame
  · rw [content_withContent, content_withContent]
    exact hbag
  · intro hall
    rw [Content.eq_of_bag hasc hasc' hsame.domain fun k => hbag k (hall k)]

/-- **Puts do not hang on the order in which the mappings come**, but for the order of a sequence.
-/
theorem put_order_irrelevant {m : Multimap d E K V} (hm : m.content.WellFormed)
    {ps ps' : Source E (K × V)} (h : ps.items.Perm ps'.items) :
    ((∃ b, (m.putPairs ps).result = .ok b) ↔ ∃ b, (m.putPairs ps').result = .ok b) ∧
    ∀ b b', (m.putPairs ps).result = .ok b → (m.putPairs ps').result = .ok b' →
      b = b' ∧ m.PutAlike ps.items ps'.items (m.putPairs ps).state (m.putPairs ps').state := by
  refine ⟨⟨putPairs_ok_of_perm h, putPairs_ok_of_perm h.symm⟩, ?_⟩
  intro b b' hb hb'
  exact putPairs_putAlike hm h hb hb'

/-- A sequence under layers that drop the last digit of keys and bar the value three. -/
def dropping : Multimap .sequence Event Nat Nat := stack _ tens (fun _ _ => pure none) [(1, 4)]

/-- Mappings of three keys, two of which meet behind the layers. -/
def threeKeys : List (Nat × Nat) := [(11, 1), (21, 2), (12, 5)]

/-- The same mappings, with those that meet in the same order. -/
def threeKeysMoved : List (Nat × Nat) := [(21, 2), (11, 1), (12, 5)]

theorem put_order_irrelevant_moved :
    let ps : Source Event (Nat × Nat) := Source.ofList threeKeys
    let ps' : Source Event (Nat × Nat) := Source.ofList threeKeysMoved
    (dropping.content.WellFormed ∧ ps.items.Perm ps'.items ∧
      (dropping.putPairs ps).result = .ok true ∧ (dropping.putPairs ps').result = .ok true ∧
      ∀ k, ps.items.filter (dropping.storedKey? · = some k) =
        ps'.items.filter (dropping.storedKey? · = some k)) ∧
    (dropping.putPairs ps).state.content.listing = [(1, [4, 1, 5]), (2, [2])] ∧
    (dropping.putPairs ps).state = (dropping.putPairs ps').state := by
  intro ps ps'
  have hm : dropping.content.WellFormed := Content.wellFormed_empty.extend [(1, 4)]
  have hperm : ps.items.Perm ps'.items := .swap _ _ _
  have hkeys : ∀ k, ps.items.filter (dropping.storedKey? · = some k) =
      ps'.items.filter (dropping.storedKey? · = some k) := by
    intro k
    have hmoved : dropping.storedKey? (21, 2) = some 2 := rfl
    rw [Source.items_ofList, Source.items_ofList]
    by_cases hk : k = 2
    · subst hk
      rfl
    · simp [threeKeys, threeKeysMoved, List.filter_cons, hmoved, Ne.symm hk]
  obtain ⟨-, hsame⟩ := (put_order_irrelevant hm hperm).2 true true rfl rfl
  exact ⟨⟨hm, hperm, rfl, rfl, hkeys⟩, rfl, hsame.same hkeys⟩

end Multimap

end LayeredMultimap
