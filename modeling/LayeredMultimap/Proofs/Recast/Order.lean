import LayeredMultimap.Proofs.Recast.Success
import LayeredMultimap.Proofs.Reordering
import Mathlib.Data.List.Perm.Basic

/-!
# Recasts in another order

The order of the keys, and that of the values in a distinct bag, is no part of a multimap. So a
recast may be handed the groups in another order; which mappings can be put hangs on none of them.
-/

namespace LayeredMultimap

variable {d : Discipline} {E K V : Type}

/-- The order of the parts of a list does not matter if at most one of them is not empty. -/
theorem flatMap_eq_of_perm {α β : Type} {f : α → List β} {as bs : List α} (h : as.Perm bs)
    (hf : ∀ a ∈ as, ∀ b ∈ as, f a ≠ [] → f b ≠ [] → a = b) : as.flatMap f = bs.flatMap f := by
  induction h with
  | nil => rfl
  | cons a _ ih =>
    have htail := ih fun x hx y hy => hf x (List.mem_cons_of_mem _ hx) y (List.mem_cons_of_mem _ hy)
    rw [List.flatMap_cons, List.flatMap_cons, htail]
  | swap a b cs =>
    have hab : f b ≠ [] → f a ≠ [] → b = a := hf b (by simp) a (by simp)
    simp only [List.flatMap_cons, ← List.append_assoc]
    by_cases ha : f a = []
    · rw [ha, List.append_nil, List.nil_append]
    · by_cases hb : f b = []
      · rw [hb, List.append_nil, List.nil_append]
      · rw [hab hb ha]
  | trans hab _ ih ih' =>
    refine (ih hf).trans (ih' fun x hx y hy => ?_)
    exact hf x (hab.mem_iff.2 hx) y (hab.mem_iff.2 hy)

/-! ## Handing out the groups -/

/-- Bags that are told apart by the order inside a distinct bag at most. -/
def Bag.Shuffles (b b' : Bag d V) : Prop := b.members.Perm b'.members ∧ (d ≠ .distinct → b = b')

/-- The groups of a content, handed out in some order. In a distinct bag the values come in some
order as well. -/
def Content.HandsOut (c : Content d K V) (gs : List (K × Bag d V)) : Prop :=
  ∃ hs, hs.Perm c.groups ∧ List.Forall₂ (fun g h => g.1 = h.1 ∧ g.2.Shuffles h.2) gs hs

namespace Content.HandsOut

variable {c : Content d K V} {gs gs' : List (K × Bag d V)}

theorem flatten_perm (h : c.HandsOut gs) :
    (Multimap.flatten gs).Perm (Multimap.flatten c.groups) := by
  obtain ⟨hs, hperm, hsame⟩ := h
  have hgs : (Multimap.flatten gs).Perm (Multimap.flatten hs) := by
    clear hperm
    induction hsame with
    | nil => exact .refl _
    | @cons g h gs hs hg _ ih =>
      obtain ⟨hkey, hbag, -⟩ := hg
      have hfirst : (g.2.members.map (g.1, ·)).Perm (h.2.members.map (h.1, ·)) := by
        rw [hkey]
        exact hbag.map _
      exact hfirst.append ih
  exact hgs.trans (hperm.flatMap_right _)

theorem perm_groups (h : c.HandsOut gs) (hd : d ≠ .distinct) : gs.Perm c.groups := by
  obtain ⟨hs, hperm, hsame⟩ := h
  have hgs : gs = hs := by
    refine List.forall₂_eq_eq_eq ▸ hsame.imp fun g h hg => ?_
    exact Prod.ext hg.1 (hg.2.2 hd)
  rwa [hgs]

theorem mem_groups (h : c.HandsOut gs) (hd : d ≠ .distinct) {g : K × Bag d V} (hg : g ∈ gs) :
    g ∈ c.groups := (h.perm_groups hd).mem_iff.1 hg

end Content.HandsOut

theorem Content.handsOut_groups (c : Content d K V) : c.HandsOut c.groups :=
  ⟨c.groups, .refl _, List.forall₂_same.2 fun _ _ => ⟨rfl, .refl _, fun _ => rfl⟩⟩

namespace Multimap

variable [DecidableEq K] [DecidableEq V]

theorem Arrive.perm {m : Multimap d E K V} {ps ps' qs : List (K × V)} (h : m.Arrive ps qs)
    (hps : ps'.Perm ps) : ∃ qs', m.Arrive ps' qs' ∧ qs'.Perm qs := List.perm_comp_forall₂ hps h

/-! ## Images -/

/-- What arrives at the base of a mapping that is put, if anything does. -/
def image? (m : Multimap d E K V) (p : K × V) : Option (K × V) :=
  (m.arrival p.1 p.2).value.toOption

theorem image?_eq_some_iff {m : Multimap d E K V} {p q : K × V} :
    m.image? p = some q ↔ (m.arrival p.1 p.2).value = .ok q := by
  rw [image?]
  cases (m.arrival p.1 p.2).value <;> simp [Except.toOption]

theorem Arrive.eq_filterMap {m : Multimap d E K V} {ps qs : List (K × V)} (h : m.Arrive ps qs) :
    qs = ps.filterMap m.image? := by
  induction h with
  | nil => rfl
  | cons hq _ ih => rw [List.filterMap_cons_some (image?_eq_some_iff.2 hq), ← ih]

/-- The values that arrive under the key `k` when the mappings of a group are put. -/
def imagesUnder (m : Multimap d E K V) (k : K) (g : K × Bag d V) : List V :=
  Flat.valuesOf ((g.2.members.map (g.1, ·)).filterMap m.image?) k

theorem mem_imagesUnder {m : Multimap d E K V} {k : K} {g : K × Bag d V} {v : V} :
    v ∈ m.imagesUnder k g ↔ ∃ w ∈ g.2.members, (m.arrival g.1 w).value = .ok (k, v) := by
  simp [imagesUnder, Flat.mem_valuesOf, image?_eq_some_iff]

theorem Arrive.valuesOf_eq {m : Multimap d E K V} {gs : List (K × Bag d V)} {qs : List (K × V)}
    (h : m.Arrive (flatten gs) qs) (k : K) :
    Flat.valuesOf qs k = gs.flatMap (m.imagesUnder k) := by
  rw [h.eq_filterMap, flatten, List.filterMap_flatMap, Flat.valuesOf, List.filter_flatMap,
    List.map_flatMap]
  rfl

/-! ## Keys that come from one key -/

/-- The mappings that end under the key `k`, behind `l` and the layers of `m`, come from one key. -/
def SoleOrigin (m : Multimap d E K V) (l : Layer E K V) (k : K) : Prop :=
  ∀ p ∈ flatten m.drain.1, ∀ p' ∈ flatten m.drain.1, ∀ q q',
    (passage (l :: m.layers) p.1 p.2).result = .ok q →
    (passage (l :: m.layers) p'.1 p'.2).result = .ok q' → q.1 = k → q'.1 = k → p.1 = p'.1

theorem SoleOrigin.key_eq {m : Multimap d E K V} {l : Layer E K V} {k : K}
    (hk : m.SoleOrigin l k) {g g' : K × Bag d V} (hg : g ∈ m.drain.1) (hg' : g' ∈ m.drain.1)
    (h : (m.under l).imagesUnder k g ≠ []) (h' : (m.under l).imagesUnder k g' ≠ []) :
    g.1 = g'.1 := by
  obtain ⟨v, hv⟩ := List.exists_mem_of_ne_nil _ h
  obtain ⟨v', hv'⟩ := List.exists_mem_of_ne_nil _ h'
  obtain ⟨w, hw, harrive⟩ := mem_imagesUnder.1 hv
  obtain ⟨w', hw', harrive'⟩ := mem_imagesUnder.1 hv'
  have hmem : (g.1, w) ∈ flatten m.drain.1 :=
    List.mem_flatMap.2 ⟨g, hg, List.mem_map_of_mem hw⟩
  have hmem' : (g'.1, w') ∈ flatten m.drain.1 :=
    List.mem_flatMap.2 ⟨g', hg', List.mem_map_of_mem hw'⟩
  exact hk _ hmem _ hmem' _ _ (passage_of_arrival_ok harrive) (passage_of_arrival_ok harrive')
    rfl rfl

/-- The images under a key that comes from one key are in the order of one bag. -/
theorem valuesOf_images [Ord K] [Std.ReflOrd K] [Std.OrientedOrd K] {m : Multimap d E K V}
    (hm : m.content.Ascends) (hd : d ≠ .distinct) {l : Layer E K V} {k : K}
    (hk : m.SoleOrigin l k) {gs gs' : List (K × Bag d V)} (h : m.content.HandsOut gs)
    (h' : m.content.HandsOut gs') {qs qs' : List (K × V)}
    (hqs : (m.under l).Arrive (flatten gs) qs) (hqs' : (m.under l).Arrive (flatten gs') qs') :
    Flat.valuesOf qs k = Flat.valuesOf qs' k := by
  rw [hqs.valuesOf_eq, hqs'.valuesOf_eq]
  -- one group at most has images under the key, so the order of the groups does not matter
  refine flatMap_eq_of_perm ((h.perm_groups hd).trans (h'.perm_groups hd).symm) ?_
  intro g hg g' hg' hpart hpart'
  have hmem := h.mem_groups hd hg
  have hmem' := h.mem_groups hd hg'
  have hkey : g.1 = g'.1 := hk.key_eq hmem hmem' hpart hpart'
  have hasc := Content.ascends_groups hm
  have hbag : some g.2 = some g'.2 := by
    rw [← hasc.find?_of_mem hmem, ← hasc.find?_of_mem hmem', hkey]
  exact Prod.ext hkey (Option.some.inj hbag)

/-! ## One recast -/

variable [Ord K] [Ord V] [Logging E]

/-- How a recast ends: there is nothing to recast, all mappings arrive, or a first one does not. -/
theorem recastIn_cases (m : Multimap d E K V) (l : Layer E K V) (gs : List (K × Bag d V)) :
    (m.isEmpty = true ∧ (m.recastIn l gs).value = .ok (m.under l)) ∨
    (∃ qs, (m.under l).Arrive (flatten gs) qs ∧
      (m.recastIn l gs).value = .ok ((m.under l).withContent (Content.ofMappings qs))) ∨
    ∃ before images p rest e, flatten gs = before ++ p :: rest ∧
      (m.under l).Arrive before images ∧ ((m.under l).arrival p.1 p.2).value = .error e ∧
      (m.recastIn l gs).value = .error ⟨e, m.withContent (Content.ofMappings (images ++ rest))⟩ := by
  cases hempty : m.isEmpty with
  | true => exact .inl ⟨rfl, congrArg Traced.value (recastIn_of_isEmpty hempty l gs)⟩
  | false =>
    right
    have hclear : m.clear.under l = (m.under l).withContent .empty := rfl
    rcases (m.under l).arrive_or_error (flatten gs) with
      ⟨qs, hqs⟩ | ⟨before, images, p, rest, e, hs, himages, he⟩
    · exact .inl ⟨qs, hqs, recastIn_of_arrive hempty hqs⟩
    · refine .inr ⟨before, images, p, rest, e, hs, himages, he, ?_⟩
      rw [recastIn_of_error hempty hs (by rwa [hclear, arrive_withContent])
        (by rwa [hclear, arrival_withContent]), Content.ofMappings, Content.ofMappings,
        Content.extend_append]

theorem recastIn_of_ok {m n : Multimap d E K V} (hfull : m.isEmpty = false) {l : Layer E K V}
    {gs : List (K × Bag d V)} (hn : (m.recastIn l gs).value = .ok n) :
    ∃ qs, (m.under l).Arrive (flatten gs) qs ∧
      n = (m.under l).withContent (Content.ofMappings qs) := by
  rcases m.recastIn_cases l gs with
    ⟨hempty, -⟩ | ⟨qs, hqs, hvalue⟩ | ⟨before, images, p, rest, e, -, -, -, hvalue⟩
  · rw [hfull] at hempty
    cases hempty
  · rw [hn] at hvalue
    exact ⟨qs, hqs, Except.ok.inj hvalue⟩
  · rw [hn] at hvalue
    cases hvalue

theorem recastIn_ok_of_ok {m : Multimap d E K V} {l : Layer E K V} {gs gs' : List (K × Bag d V)}
    (h : m.content.HandsOut gs) (h' : m.content.HandsOut gs')
    (hok : ∃ n, (m.recastIn l gs).value = .ok n) : ∃ n, (m.recastIn l gs').value = .ok n := by
  obtain ⟨n, hn⟩ := hok
  cases hempty : m.isEmpty with
  | true => exact ⟨m.under l, congrArg Traced.value (recastIn_of_isEmpty hempty l gs')⟩
  | false =>
    obtain ⟨qs, hqs, -⟩ := recastIn_of_ok hempty hn
    obtain ⟨qs', hqs', -⟩ := hqs.perm (h'.flatten_perm.trans h.flatten_perm.symm)
    exact ⟨_, recastIn_of_arrive hempty hqs'⟩

/-- Of the mappings of `m`, the mapping `p` alone cannot be put through `l`, and it occurs once. -/
structure FailsAlone (m : Multimap d E K V) (l : Layer E K V) (p : K × V) (e : MapError) :
    Prop where
  once : (flatten m.drain.1).count p = 1
  fails : ((m.under l).put p.1 p.2).result = .error e
  others : ∀ q ∈ flatten m.drain.1, q ≠ p → ∀ e, ((m.under l).put q.1 q.2).result ≠ .error e

/-- What is handed back when `p` has stopped a recast of `m` to which the groups came as `gs`:
images of the mappings before `p`, and those behind it as they were. -/
def LosesOnly (m : Multimap d E K V) (l : Layer E K V) (gs : List (K × Bag d V)) (p : K × V)
    (back : Multimap d E K V) : Prop :=
  ∃ before images rest c, flatten gs = before ++ p :: rest ∧
    List.Forall₂ (fun p q => (passage (l :: m.layers) p.1 p.2).result = .ok q) before images ∧
    back = m.withContent c ∧ c.MadeOf (images ++ rest) ∧
    (d = .sequence → back.size + 1 = m.size)

variable [Std.TransOrd K] [Std.LawfulEqOrd K]

theorem recastIn_of_failsAlone {m : Multimap d E K V} {l : Layer E K V} {p : K × V} {e : MapError}
    (hp : m.FailsAlone l p e) {gs : List (K × Bag d V)} (h : m.content.HandsOut gs) :
    ∃ back, (m.recastIn l gs).value = .error ⟨e, back⟩ ∧ m.LosesOnly l gs p back := by
  have hmem : p ∈ flatten m.drain.1 := List.count_pos_iff.1 (by rw [hp.once]; exact Nat.one_pos)
  have hperm : (flatten gs).Perm (flatten m.drain.1) := h.flatten_perm
  have harrival : ((m.under l).arrival p.1 p.2).value = .error e := put_error_iff.1 hp.fails
  rcases m.recastIn_cases l gs with
    ⟨hempty, -⟩ | ⟨qs, hqs, -⟩ | ⟨before, images, q, rest, e', hs, himages, he', hvalue⟩
  · rw [isEmpty_eq_false_of_mem hmem] at hempty
    cases hempty
  · obtain ⟨q, hq⟩ := hqs.exists_of_mem (hperm.mem_iff.2 hmem)
    rw [harrival] at hq
    cases hq
  · have hqmem : q ∈ flatten m.drain.1 := hperm.mem_iff.1 (by rw [hs]; simp)
    obtain rfl : q = p := by
      by_contra hne
      exact hp.others q hqmem hne e' (put_error_iff.2 he')
    obtain rfl : e' = e := by
      rw [he'] at harrival
      exact Except.error.inj harrival
    refine ⟨_, hvalue, before, images, rest, _, hs, passages_of_arrive himages, rfl,
      Content.madeOf_ofMappings _, ?_⟩
    rintro rfl
    have hback : (Content.ofMappings (images ++ rest) : Content .sequence K V).mappings.Perm
        (images ++ rest) := Content.mappings_extend_sequence Table.ascends_empty _
    have hlen : (flatten m.drain.1).length = m.size := Content.length_flatten_groups m.content
    rw [size, content_withContent, ← Content.length_mappings, hback.length_eq, ← hlen,
      ← hperm.length_eq, hs, List.length_append, List.length_append, List.length_cons,
      himages.length_eq]
    omega

/-! ## Two recasts -/

variable [Std.TransOrd V] [Std.LawfulEqOrd V]

theorem recastIn_sameUpToOrder {m : Multimap d E K V} (hm : m.content.Ascends) {l : Layer E K V}
    {gs gs' : List (K × Bag d V)} (h : m.content.HandsOut gs) (h' : m.content.HandsOut gs')
    {n n' : Multimap d E K V} (hn : (m.recastIn l gs).value = .ok n)
    (hn' : (m.recastIn l gs').value = .ok n') :
    n' = n.withContent n'.content ∧ n.content.SameUpToOrder n'.content ∧
      (d = .sequence → ∀ k, m.SoleOrigin l k → n.content.bag k = n'.content.bag k) := by
  have hperm : (flatten gs').Perm (flatten gs) := h'.flatten_perm.trans h.flatten_perm.symm
  cases hempty : m.isEmpty with
  | true =>
    rw [recastIn_of_isEmpty hempty] at hn hn'
    cases hn
    cases hn'
    exact ⟨(withContent_content _).symm, Content.sameUpToOrder_self _, fun _ _ _ => rfl⟩
  | false =>
    obtain ⟨qs, hqs, rfl⟩ := recastIn_of_ok hempty hn
    obtain ⟨qs', hqs', hsame⟩ := hqs.perm hperm
    rw [recastIn_of_arrive hempty hqs'] at hn'
    cases hn'
    simp only [content_withContent, withContent_withContent, true_and]
    refine ⟨Content.ofMappings_perm hsame.symm, ?_⟩
    rintro rfl k hk
    have hvalues := valuesOf_images hm (by decide) hk h h' hqs hqs'
    have hbag : ∀ qs, (Content.ofMappings qs : Content .sequence K V).bag k =
        Bag.addAll .empty (Flat.valuesOf qs k) := fun qs => Content.bag_extend .empty qs k
    rw [hbag, hbag, hvalues]

/-- **A recast does not hang on the order in which it finds the mappings**, but for the order in
which the values of several keys meet in a sequence. -/
theorem recast_order_irrelevant {m : Multimap d E K V} (hm : m.content.Ascends) (l : Layer E K V)
    {gs gs' : List (K × Bag d V)} (h : m.content.HandsOut gs) (h' : m.content.HandsOut gs') :
    ((∃ n, (m.recastIn l gs).value = .ok n) ↔ ∃ n, (m.recastIn l gs').value = .ok n) ∧
    (∀ n n', (m.recastIn l gs).value = .ok n → (m.recastIn l gs').value = .ok n' →
      n' = n.withContent n'.content ∧ n.content.SameUpToOrder n'.content ∧
        (d = .sequence → ∀ k, m.SoleOrigin l k → n.content.bag k = n'.content.bag k)) ∧
    (∀ p e, m.FailsAlone l p e → ∃ back back',
      (m.recastIn l gs).value = .error ⟨e, back⟩ ∧ m.LosesOnly l gs p back ∧
      (m.recastIn l gs').value = .error ⟨e, back'⟩ ∧ m.LosesOnly l gs' p back') := by
  refine ⟨⟨recastIn_ok_of_ok h h', recastIn_ok_of_ok h' h⟩, fun n n' hn hn' => ?_, fun p e hp => ?_⟩
  · exact recastIn_sameUpToOrder hm h h' hn hn'
  · obtain ⟨back, hback, hloses⟩ := recastIn_of_failsAlone hp h
    obtain ⟨back', hback', hloses'⟩ := recastIn_of_failsAlone hp h'
    exact ⟨back, back', hback, hloses, hback', hloses'⟩

/-- The order shows where the values of two keys meet in a sequence. -/
example :
    (threeMappings.recastIn (gathering 2) threeMappings.drain.1).value.toOption.map
      (·.content.listing) = some [(2, [12, 13, 14])] ∧
    (threeMappings.recastIn (gathering 2) threeMappings.drain.1.reverse).value.toOption.map
      (·.content.listing) = some [(2, [14, 12, 13])] := ⟨rfl, rfl⟩

/-- Three mappings of two keys, with bags that keep no order. -/
def unordered : Multimap .distinct Event Nat Nat :=
  ofContent (Content.ofMappings [(1, 2), (1, 3), (2, 4)])

/-- The groups of `unordered`, with the keys and the values of a key in the opposite order. -/
def unorderedShuffled : List (Nat × Bag .distinct Nat) := [(2, ⟨[4]⟩), (1, ⟨[3, 2]⟩)]

/-- The groups in an order of their own and as they are found show the same behind one key. -/
theorem recast_order_irrelevant_shuffled :
    (unordered.content.Ascends ∧ unordered.content.HandsOut unordered.drain.1 ∧
      unordered.content.HandsOut unorderedShuffled) ∧
    ((∃ n, (unordered.recast (gathering 2)).value = .ok n) ↔
      ∃ n, (unordered.recastIn (gathering 2) unorderedShuffled).value = .ok n) ∧
    ∀ n n', (unordered.recast (gathering 2)).value = .ok n →
      (unordered.recastIn (gathering 2) unorderedShuffled).value = .ok n' →
      n.content.listing = n'.content.listing := by
  have hm : unordered.content.Ascends := Content.ascends_ofMappings _
  have hdrain : unordered.content.HandsOut unordered.drain.1 := unordered.content.handsOut_groups
  have hshuffled : unordered.content.HandsOut unorderedShuffled := by
    refine ⟨[(2, ⟨[4]⟩), (1, ⟨[2, 3]⟩)], by decide, ?_⟩
    exact .cons ⟨rfl, .refl _, fun h => absurd rfl h⟩
      (.cons ⟨rfl, .swap _ _ _, fun h => absurd rfl h⟩ .nil)
  obtain ⟨hiff, hsame, -⟩ := recast_order_irrelevant hm (gathering 2) hdrain hshuffled
  refine ⟨⟨hm, hdrain, hshuffled⟩, hiff, fun n n' hn hn' => ?_⟩
  exact (hsame n n' hn hn').2.1.listing (by decide)

end Multimap

end LayeredMultimap
