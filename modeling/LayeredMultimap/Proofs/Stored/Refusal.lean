import LayeredMultimap.Proofs.Stored
import LayeredMultimap.Value.Event

/-!
# Mappings that the base refuses

The base is asked by puts and by nothing else. Whatever the layers make of a mapping, the base is
asked about the mapping that arrives, so that a run of steps which insert by puts only never stores
a mapping that the base refuses. A recast that fails writes mappings back past the base, but these
were stored before.
-/

namespace LayeredMultimap

variable {d : Discipline} {E K V : Type} [Ord K] [DecidableEq V] [Ord V]

theorem Base.put_fails_iff (b : Base d E K V) (k : K) (v : V) :
    (∃ e, (b.put k v).result = .error e) ↔ (b.refusal k v).value ≠ none := by
  rw [Base.put]
  cases (b.refusal k v).value with
  | some cause => simp
  | none => simp

/-! ## Steps that insert by puts -/

/-- All but two of the operations insert by puts or do not insert at all: values for a key and edits
go into a bag past the refusal rule. -/
def Operation.PutsOnly : Operation E K V → Prop
  | .putValues _ _ | .edit _ _ => False
  | _ => True

/-- Steps that insert by puts or do not insert at all, and that keep the base. Of a recast that
fails the multimap that is handed back is kept. -/
def Step.PutsOnly : Step E K V → Prop
  | .operate _ o => o.PutsOnly
  | .decorate _ _ .discard | .extend _ _ | .build _ => False
  | _ => True

namespace Multimap

/-- The base of `m` refuses the mappings in `R` and no others, and none of them is stored. -/
structure Guards (m : Multimap d E K V) (R : K × V → Prop) : Prop where
  refuses : ∀ k v, (∃ e, (m.root.put k v).result = .error e) ↔ R (k, v)
  spares : ∀ p ∈ m.mappings, ¬R p

variable [DecidableEq K]

omit [Ord K] [Ord V] in
theorem refusal_of_arrival {m : Multimap d E K V} {k : K} {v : V} {p : K × V}
    (h : (m.arrival k v).value = .ok p) : (m.root.refusal p.1 p.2).value = none := by
  induction m generalizing k v with
  | base b =>
    cases hb : (b.refusal k v).value with
    | some cause => simp [arrival, hb] at h
    | none =>
      obtain rfl : (k, v) = p := by simpa [arrival, hb] using h
      exact hb
  | layered l m ih =>
    cases hl : (l.pass k v).result with
    | error e =>
      rw [arrival_layered_of_error hl] at h
      cases h
    | ok q =>
      rw [arrival_layered_of_ok hl] at h
      exact ih h

namespace Guards

variable {R : K × V → Prop} {m m' : Multimap d E K V}

/-- The rule stays, and what is new in the content has arrived at a base with this rule. -/
theorem of_arrival (h : m.Guards R) (hrule : m'.root.refusal = m.root.refusal)
    (hmem : ∀ p ∈ m'.mappings, p ∈ m.mappings ∨ ∃ (x : Multimap d E K V) (k : K) (v : V),
      x.root.refusal = m.root.refusal ∧ (x.arrival k v).value = .ok p) : m'.Guards R := by
  refine ⟨fun k v => ?_, fun p hp hR => ?_⟩
  · rw [Base.put_fails_iff, hrule, ← Base.put_fails_iff]
    exact h.refuses k v
  · rcases hmem p hp with hp | ⟨x, k, v, hx, harrive⟩
    · exact h.spares p hp hR
    · have hfine := refusal_of_arrival harrive
      have hfail := (h.refuses p.1 p.2).2 hR
      rw [Base.put_fails_iff, ← hx] at hfail
      exact hfail hfine

theorem of_root (h : m.Guards R) (hroot : m'.root = m.root) : m'.Guards R := by
  refine h.of_arrival (by rw [hroot]) fun p hp => .inl ?_
  rwa [mappings, content, hroot] at hp

variable [Std.LawfulEqOrd K]

theorem operate (h : m.Guards R) {o : Operation E K V} (ho : o.PutsOnly) :
    (m.operate o).state.Guards R := by
  obtain ⟨c, hc⟩ := m.operate_state_eq o
  refine h.of_arrival (by rw [hc, root_withContent]) fun p hp => ?_
  refine (mem_mappings_of_operate hp).imp_right fun hadds => ?_
  rcases hadds.origin with ⟨q, harrive⟩ | ⟨k, vs, v, rfl, -, -⟩ | ⟨k, es, rfl⟩
  · exact ⟨m, q.1, q.2, rfl, harrive⟩
  · exact ho.elim
  · exact ho.elim

theorem merge (h : m.Guards R) (donor : Option (Donor E K V)) :
    (m.merge donor).state.Guards R := by
  rcases m.merge_state_eq donor with hst | ⟨ps, hst⟩
  · rwa [hst]
  · rw [hst]
    exact h.operate (o := .putPairs (some (Source.ofList ps))) trivial

variable [Logging E]

/-- A recast asks the base about everything that it puts, and what it restores was stored. -/
theorem concludeRecast (h : m.Guards R) (l : Layer E K V) {gs : List (K × Bag d V)}
    (hgs : m.content.HandsOut gs) : (Step.concludeRecast .keep (m.recastIn l gs)).2.Guards R := by
  cases hr : (m.recastIn l gs).value with
  | ok n =>
    obtain ⟨c, rfl, hstored⟩ := recastIn_ok_stored hgs hr
    rw [Step.concludeRecast_of_ok hr]
    refine h.of_arrival (by rw [root_withContent]; rfl) fun p hp => ?_
    obtain ⟨q, -, harrive⟩ := hstored p (mem_mappings_withContent.1 hp)
    exact .inr ⟨m.under l, q.1, q.2, rfl, harrive⟩
  | error e =>
    obtain ⟨c, hc, hstored⟩ := recastIn_error_stored hgs hr
    rw [Step.concludeRecast_of_error hr, hc]
    refine h.of_arrival (by rw [root_withContent]) fun p hp => ?_
    refine (hstored p (mem_mappings_withContent.1 hp)).imp_right ?_
    rintro ⟨q, -, harrive⟩
    exact ⟨m.under l, q.1, q.2, rfl, harrive⟩

end Guards

end Multimap

variable [DecidableEq K] [Std.LawfulEqOrd K] [Logging E] [ToString K] [ToString V]

theorem Step.RunsTo.guards {R : K × V → Prop} {s : Step E K V} (hs : s.PutsOnly)
    {m : Multimap d E K V} (h : m.Guards R) {x : Answer d E K V × Multimap d E K V}
    (hx : s.RunsTo m x) : x.2.Guards R := by
  have hpeel (n : Nat) : (m.peel n).Guards R := h.of_root (m.root_peel n)
  cases hx with
  | decorate l recovery hgs =>
    cases recovery with
    | keep => exact h.concludeRecast l hgs
    | discard => exact hs.elim
  | build => exact hs.elim
  | run =>
    cases s with
    | operate n o => exact ((hpeel n).operate hs).of_root (m.root_inside n _)
    | merge n donor => exact ((hpeel n).merge donor).of_root (m.root_inside n _)
    | decorate l existing recovery =>
      cases recovery with
      | keep =>
        cases existing with
        | false => exact h.of_root rfl
        | true => exact h.concludeRecast l m.content.handsOut_groups
      | discard => exact hs.elim
    | unwrap => exact h.of_root (m.root_peel 1)
    | extend n ps => exact hs.elim
    | build calls => exact hs.elim
    | flags n => exact h
    | inspect n spread => exact h
    | listing => exact h
    | fork steps => exact h

/-- **What the base refuses is never stored**, whatever the layers are and wherever a step fails. -/
theorem refused_never_stored {m : Multimap d E K V} {R : K × V → Prop} (hm : m.Guards R)
    {ss : List (Step E K V)} (hss : ∀ s ∈ ss, s.PutsOnly) (n : Nat) :
    (Step.runAll (ss.take n) m).2.Guards R :=
  (Step.runsAllTo_runAll (ss.take n) m).keeps (P := fun m => m.Guards R)
    (fun s hs _ _ h hx => hx.guards (hss s (List.mem_of_mem_take hs)) h) hm

/-- Two mappings on a base that refuses values below 3. -/
def atLeastThree : Multimap .sequence Event Nat Nat :=
  .base ⟨Content.ofMappings [(1, 4), (2, 8)], fun _ v =>
    pure (if v < 3 then some "too small" else none)⟩

/-- A recast that fails and restores a mapping, one that gets through, and bulk insertions that
stop. -/
def towardsZero : List (Step Event Nat Nat) :=
  [.decorate ⟨none, some (.ofFunction (· - 2))⟩ true .keep,
    .decorate ⟨none, some (.ofFunction (· / 2))⟩ true .keep,
    .operate 0 (.putPairs (some (Source.ofList [(3, 6), (4, 5), (5, 6)]))),
    .operate 1 (.put 6 2), .merge 0 (some .self), .unwrap, .operate 0 (.removeMapping 3 3)]

theorem refused_never_stored_towardsZero :
    (atLeastThree.Guards (fun p => p.2 < 3) ∧ ∀ s ∈ towardsZero, s.PutsOnly) ∧
    (Step.runAll towardsZero atLeastThree).2.content.listing = [(2, [4])] ∧
    ∀ n, (Step.runAll (towardsZero.take n) atLeastThree).2.Guards fun p => p.2 < 3 := by
  have hm : atLeastThree.Guards fun p => p.2 < 3 := by
    refine ⟨fun k v => ?_, by decide⟩
    rw [Base.put_fails_iff]
    show (if v < 3 then some "too small" else none) ≠ none ↔ v < 3
    simp
  have hss : ∀ s ∈ towardsZero, s.PutsOnly := by
    simp [towardsZero, Step.PutsOnly, Operation.PutsOnly]
  exact ⟨⟨hm, hss⟩, rfl, refused_never_stored hm hss⟩

end LayeredMultimap
