import LayeredMultimap.Proofs.Groups

/-!
# Recasts that are repeated

A layer is idempotent if it takes what it gives to itself. Behind a recast of a base through such a
layer every stored mapping is one that the layer keeps and the base accepts (`Multimap.Settled`).
Another recast through the layer hands these mappings out and gets them back as they were, in
whatever order the groups come, and then the same holds of what it leaves.
-/

namespace LayeredMultimap

variable {d : Discipline} {E K V : Type}

/-! ## Idempotent layers -/

section Layer

variable [DecidableEq K] [DecidableEq V]

/-- What a layer makes of a key or of a value, it makes of that again. -/
structure Layer.Idempotent (l : Layer E K V) : Prop where
  key : ∀ k k', (l.passKey k).result = .ok k' → (l.passKey k').result = .ok k'
  value : ∀ v v', (l.passValue v).result = .ok v' → (l.passValue v').result = .ok v'

theorem Layer.Idempotent.pass {l : Layer E K V} (hl : l.Idempotent) {p q : K × V}
    (h : (l.pass p.1 p.2).result = .ok q) : (l.pass q.1 q.2).result = .ok q := by
  cases hk : (l.passKey p.1).result with
  | error e =>
    rw [pass_of_key_error hk] at h
    cases h
  | ok k =>
    rw [pass_of_key_ok hk] at h
    cases hv : (l.passValue p.2).result with
    | error e =>
      rw [hv] at h
      cases h
    | ok v =>
      rw [hv] at h
      obtain rfl : (k, v) = q := Except.ok.inj h
      rw [pass_of_key_ok (hl.key _ _ hk), hl.value _ _ hv]
      rfl

namespace Multimap

theorem arrival_under_of_ok {m : Multimap d E K V} {l : Layer E K V} {p q : K × V}
    (h : ((m.under l).arrival p.1 p.2).value = .ok q) :
    ∃ p', (l.pass p.1 p.2).result = .ok p' ∧ (m.arrival p'.1 p'.2).value = .ok q := by
  rw [under] at h
  cases hl : (l.pass p.1 p.2).result with
  | error e =>
    rw [arrival_layered_of_error hl] at h
    cases h
  | ok p' =>
    rw [arrival_layered_of_ok hl] at h
    exact ⟨p', rfl, h⟩

theorem eq_of_arrival_base {b : Base d E K V} {p q : K × V}
    (h : ((base b).arrival p.1 p.2).value = .ok q) : p = q := by
  cases hb : (b.refusal p.1 p.2).value with
  | some cause => simp [arrival, hb] at h
  | none => simpa [arrival, hb] using h

end Multimap

end Layer

/-! ## Settled multimaps -/

namespace Multimap

/-- The layer `l`, put around a multimap so many times. -/
def underTimes (m : Multimap d E K V) (l : Layer E K V) : Nat → Multimap d E K V
  | 0 => m
  | n + 1 => (m.underTimes l n).under l

theorem under_withContent_self (m : Multimap d E K V) (l : Layer E K V) :
    (m.under l).withContent m.content = m.under l := withContent_content (m.under l)

variable [DecidableEq K] [Ord K] [DecidableEq V] [Ord V]

/-- A multimap that another recast through `l` cannot change: every stored mapping is one that `l`
and the layers keep and the base accepts, and if there are any, no key is without values. -/
structure Settled (l : Layer E K V) (m : Multimap d E K V) : Prop where
  wellFormed : m.content.WellFormed
  ghosts : m.isEmpty = false → m.content.ghosts = []
  kept : ∀ p ∈ m.mappings, (l.pass p.1 p.2).result = .ok p
  accepted : ∀ p ∈ m.mappings, (m.arrival p.1 p.2).value = .ok p

namespace Settled

variable {l : Layer E K V} {m : Multimap d E K V}

theorem accepted_under (h : m.Settled l) {p : K × V} (hp : p ∈ m.mappings) :
    ((m.under l).arrival p.1 p.2).value = .ok p := by
  rw [under, arrival_layered_of_ok (h.kept p hp)]
  exact h.accepted p hp

/-- One more layer does no harm, and neither does it that mappings are gone. -/
theorem under_withContent (h : m.Settled l) {c : Content d K V} (hc : c.WellFormed)
    (hghosts : c.isEmpty = false → c.ghosts = []) (hmem : ∀ p ∈ c.mappings, p ∈ m.mappings) :
    ((m.under l).withContent c).Settled l := by
  refine ⟨?_, ?_, fun p hp => ?_, fun p hp => ?_⟩
  · rwa [content_withContent]
  · rwa [isEmpty, content_withContent]
  · exact h.kept p (hmem p (mem_mappings_withContent.1 hp))
  · rw [arrival_withContent]
    exact h.accepted_under (hmem p (mem_mappings_withContent.1 hp))

theorem under (h : m.Settled l) : (m.under l).Settled l := by
  have hunder := h.under_withContent h.wellFormed h.ghosts fun _ hp => hp
  rwa [under_withContent_self] at hunder

theorem underTimes (h : m.Settled l) (n : Nat) : (m.underTimes l n).Settled l := by
  induction n with
  | zero => exact h
  | succ n ih => exact ih.under

theorem arrive (h : m.Settled l) {gs : List (K × Bag d V)} (hgs : m.content.HandsOut gs) :
    (m.under l).Arrive (flatten gs) (flatten gs) := by
  refine List.forall₂_same.2 fun p hp => ?_
  exact h.accepted_under (hgs.mem_flatten_iff.1 hp)

variable [Logging E] [Std.TransOrd K] [Std.LawfulEqOrd K] [Std.TransOrd V] [Std.LawfulEqOrd V]

/-- The content stays as it was, up to the order that a distinct bag does not show. -/
theorem recastIn (h : m.Settled l) {gs : List (K × Bag d V)} (hgs : m.content.HandsOut gs) :
    ∃ c, (m.recastIn l gs).value = .ok ((m.under l).withContent c) ∧ m.content.SameUpToOrder c ∧
      (d ≠ .distinct → c = m.content) ∧ ((m.under l).withContent c).Settled l := by
  cases hempty : m.isEmpty with
  | true =>
    refine ⟨m.content, ?_, Content.sameUpToOrder_self _, fun _ => rfl, ?_⟩
    · rw [recastIn_of_isEmpty hempty, under_withContent_self, Traced.value_pure]
    · exact h.under_withContent h.wellFormed h.ghosts fun _ hp => hp
  | false =>
    have hghosts := h.ghosts hempty
    have hsame := Content.ofMappings_perm (d := d) hgs.flatten_perm.symm
    rw [Content.ofMappings_flatten h.wellFormed hghosts (.refl _)] at hsame
    refine ⟨_, recastIn_of_arrive hempty (h.arrive hgs), hsame, fun hd => ?_, ?_⟩
    · exact Content.ofMappings_flatten h.wellFormed hghosts (hgs.perm_groups hd)
    · apply h.under_withContent (Content.wellFormed_empty.extend _)
      · intro _
        exact List.subset_nil.1 (Content.ghosts_extend .empty _)
      · intro p hp
        have hmem : p ∈ flatten gs := (Content.madeOf_ofMappings _).mem_mappings.1 hp
        exact hgs.mem_flatten_iff.1 hmem

theorem recast_eq (h : m.Settled l) : (m.recast l).value = .ok (m.under l) := by
  cases hempty : m.isEmpty with
  | true => rw [recast_of_isEmpty hempty, Traced.value_pure]
  | false =>
    have hvalue := recastIn_of_arrive hempty (h.arrive m.content.handsOut_groups)
    rw [Content.ofMappings_flatten h.wellFormed (h.ghosts hempty) (.refl _),
      under_withContent_self] at hvalue
    exact hvalue

end Settled

/-! ## Recasts in any order -/

variable [Logging E]

/-- A recast of `m` through `l`, with the groups in some order, comes to `n`. -/
def RecastsTo (l : Layer E K V) (m n : Multimap d E K V) : Prop :=
  ∃ gs, m.content.HandsOut gs ∧ (m.recastIn l gs).value = .ok n

/-- So many recasts through `l`, one around the other, come from `m` to another multimap. -/
inductive Recasts (l : Layer E K V) (m : Multimap d E K V) : Nat → Multimap d E K V → Prop
  | none : Recasts l m 0 m
  | again {n : Nat} {a b : Multimap d E K V} (h : Recasts l m n a) (hb : a.RecastsTo l b) :
      Recasts l m (n + 1) b

/-- So many recasts through `l`, one around the other, up to the first that fails. -/
def recastTimes (m : Multimap d E K V) (l : Layer E K V) :
    Nat → Except (RecastError (Multimap d E K V)) (Multimap d E K V)
  | 0 => .ok m
  | n + 1 => (m.recastTimes l n).bind fun a => (a.recast l).value

variable [Std.TransOrd K] [Std.LawfulEqOrd K] [Std.TransOrd V] [Std.LawfulEqOrd V]

theorem settled_of_recastsTo {l : Layer E K V} (hl : l.Idempotent) {b : Base d E K V}
    (hb : b.content.WellFormed) {m : Multimap d E K V} (h : (base b).RecastsTo l m) :
    m.Settled l := by
  obtain ⟨gs, -, hm⟩ := h
  cases hempty : (base b).isEmpty with
  | true =>
    rw [recastIn_of_isEmpty hempty] at hm
    obtain rfl := Except.ok.inj hm
    have hstill : ((base b).under l).isEmpty = true := hempty
    have hnone : ((base b).under l).mappings = [] := mappings_eq_nil_iff.2 hstill
    refine ⟨hb, fun hfull => ?_, ?_, ?_⟩
    · rw [hstill] at hfull
      cases hfull
    · simp [hnone]
    · simp [hnone]
  | false =>
    obtain ⟨qs, hqs, rfl⟩ := recastIn_of_ok hempty hm
    have hstored : ∀ p ∈ (((base b).under l).withContent (Content.ofMappings qs)).mappings,
        (l.pass p.1 p.2).result = .ok p ∧ ((base b).arrival p.1 p.2).value = .ok p := by
      intro p hp
      have hmem : p ∈ qs :=
        (Content.madeOf_ofMappings qs).mem_mappings.1 (mem_mappings_withContent.1 hp)
      obtain ⟨p₀, -, harrive⟩ := hqs.mem_iff.1 hmem
      obtain ⟨p', hpass, hbase⟩ := arrival_under_of_ok harrive
      obtain rfl := eq_of_arrival_base hbase
      exact ⟨hl.pass hpass, hbase⟩
    refine ⟨?_, fun _ => ?_, fun p hp => (hstored p hp).1, fun p hp => ?_⟩
    · rw [content_withContent]
      exact Content.wellFormed_empty.extend qs
    · rw [content_withContent]
      exact List.subset_nil.1 (Content.ghosts_extend .empty qs)
    · rw [arrival_withContent, under, arrival_layered_of_ok (hstored p hp).1]
      exact (hstored p hp).2

theorem Settled.recastTimes {l : Layer E K V} {m : Multimap d E K V} (h : m.Settled l) (n : Nat) :
    m.recastTimes l n = .ok (m.underTimes l n) := by
  induction n with
  | zero => rfl
  | succ n ih =>
    rw [Multimap.recastTimes, ih]
    exact (h.underTimes n).recast_eq

theorem Settled.recasts {l : Layer E K V} {m : Multimap d E K V} (h : m.Settled l) {n : Nat}
    {a : Multimap d E K V} (ha : m.Recasts l n a) :
    a.Settled l ∧ a = (m.underTimes l n).withContent a.content ∧
      m.content.SameUpToOrder a.content ∧ (d ≠ .distinct → a.content = m.content) := by
  induction ha with
  | none =>
    exact ⟨h, (withContent_content m).symm, Content.sameUpToOrder_self _, fun _ => rfl⟩
  | @again n a b _ hb ih =>
    obtain ⟨hsettled, hlayers, hsame, hexact⟩ := ih
    obtain ⟨gs, hgs, hvalue⟩ := hb
    obtain ⟨c, hc, hsame', hexact', hnext⟩ := hsettled.recastIn hgs
    rw [hvalue] at hc
    obtain rfl := Except.ok.inj hc
    rw [content_withContent]
    refine ⟨hnext, ?_, hsame.trans hsame', fun hd => (hexact' hd).trans (hexact hd)⟩
    show (a.withContent c).under l = ((m.underTimes l n).withContent c).under l
    rw [hlayers, withContent_withContent]

/-- Further recasts of `m` through `l` change nothing, in whatever order they find the groups. -/
structure RestsUnder (l : Layer E K V) (m : Multimap d E K V) : Prop where
  times : ∀ n, m.recastTimes l n = .ok (m.underTimes l n)
  layers : ∀ n a, m.Recasts l n a → a = (m.underTimes l n).withContent a.content
  content : ∀ n a, m.Recasts l n a → m.content.SameUpToOrder a.content
  exact : ∀ n a, m.Recasts l n a → d ≠ .distinct → a.content = m.content
  again : ∀ n a, m.Recasts l n a → ∀ gs, a.content.HandsOut gs →
    ∃ b, (a.recastIn l gs).value = .ok b

/-- **An idempotent layer does nothing the second time**, however often a content is recast through
it. -/
theorem recast_repeated {l : Layer E K V} (hl : l.Idempotent) {b : Base d E K V}
    (hb : b.content.WellFormed) {m : Multimap d E K V} (hm : (base b).RecastsTo l m) :
    m.RestsUnder l := by
  have hsettled := settled_of_recastsTo hl hb hm
  refine ⟨hsettled.recastTimes, fun n a ha => ?_, fun n a ha => ?_, fun n a ha => ?_, ?_⟩
  · exact (hsettled.recasts ha).2.1
  · exact (hsettled.recasts ha).2.2.1
  · exact (hsettled.recasts ha).2.2.2
  · intro n a ha gs hgs
    obtain ⟨c, hvalue, -⟩ := (hsettled.recasts ha).1.recastIn hgs
    exact ⟨_, hvalue⟩

/-- Keys are rounded down to tens, values are at most five, and the value three is barred. -/
def rounding : Layer Event Nat Nat :=
  ⟨some (.ofFunction fun k => k / 10 * 10),
    some (.ofFallible fun v => if v = 3 then .error ⟨"barred"⟩ else .ok (min v 5))⟩

/-- Mappings of three keys and a ghost, in a base that refuses values above five. -/
def unrounded : Base .sequence Event Nat Nat :=
  ⟨⟨[(1, ⟨[7, 2]⟩), (4, ⟨[]⟩), (12, ⟨[6, 1]⟩), (19, ⟨[8]⟩)]⟩,
    fun _ v => pure (if 5 < v then some "large" else none)⟩

/-- What comes out of the first recast. -/
def rounded : Multimap .sequence Event Nat Nat :=
  ((base unrounded).under rounding).withContent
    (Content.ofMappings [(0, 5), (0, 2), (10, 5), (10, 1), (10, 5)])

theorem recast_repeated_rounded :
    (rounding.Idempotent ∧ unrounded.content.WellFormed ∧
      (base unrounded).RecastsTo rounding rounded) ∧
    rounded.content.listing = [(0, [5, 2]), (10, [5, 1, 5])] ∧
    ∀ n, rounded.recastTimes rounding n = .ok (rounded.underTimes rounding n) := by
  have hl : rounding.Idempotent := by
    constructor
    · intro k k' hk
      have hround : k / 10 * 10 = k' := Except.ok.inj hk
      show Except.ok (k' / 10 * 10) = Except.ok k'
      congr 1
      omega
    · intro v v' hv
      have hrun : ∀ v, (rounding.passValue v).result =
          if v = 3 then .error ⟨"barred"⟩ else .ok (min v 5) := fun _ => rfl
      rw [hrun] at hv ⊢
      by_cases hv3 : v = 3
      · rw [if_pos hv3] at hv
        cases hv
      · rw [if_neg hv3] at hv
        have hmin : min v 5 = v' := Except.ok.inj hv
        rw [if_neg (by omega)]
        congr 1
        omega
  have hb : unrounded.content.WellFormed := by
    refine ⟨?_, fun e _ => ⟨fun hd => absurd rfl hd, nofun⟩⟩
    show List.Pairwise _ unrounded.content.entries
    decide
  have hm : (base unrounded).RecastsTo rounding rounded :=
    ⟨_, Content.handsOut_groups _, rfl⟩
  exact ⟨⟨hl, hb, hm⟩, rfl, (recast_repeated hl hb hm).times⟩

end Multimap

end LayeredMultimap
