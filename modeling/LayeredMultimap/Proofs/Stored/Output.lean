import LayeredMultimap.Proofs.Stored
import LayeredMultimap.Value.Event

/-!
# What is stored through a layer

All ways to insert through a layer around a base transform the key and the value: single puts, puts
in bulk, the values for a key, of which all but the first are transformed while they are added, and
the recast of what was stored before. So what is stored through the layer is what its transformers
give; what was stored before and is not recast stays as it is.
-/

namespace LayeredMultimap

variable {d : Discipline} {E K V : Type} [DecidableEq K] [DecidableEq V]

/-- The key is an output of the key transformer and the value is one of the value transformer, as
far as the layer has them. -/
def Layer.Outputs (l : Layer E K V) (p : K × V) : Prop :=
  (∀ t, l.key = some t → ∃ k, (t.run k).result = .ok p.1) ∧
    ∀ t, l.value = some t → ∃ v, (t.run v).result = .ok p.2

theorem Layer.outputs_of_pass {l : Layer E K V} {k : K} {v : V} {p : K × V}
    (hk : (l.passKey k).result = .ok p.1) (hv : (l.passValue v).result = .ok p.2) :
    l.Outputs p := by
  constructor
  · intro t ht
    rw [passKey, ht] at hk
    exact ⟨k, hk⟩
  · intro t ht
    rw [passValue, ht] at hv
    exact ⟨v, hv⟩

theorem Layer.outputs_of_arrival {l : Layer E K V} {b : Base d E K V} {k : K} {v : V} {p : K × V}
    (h : (((Multimap.base b).under l).arrival k v).value = .ok p) : l.Outputs p := by
  rw [Multimap.under] at h
  cases hk : (l.passKey k).result with
  | error e =>
    rw [Multimap.arrival_of_key_error hk] at h
    cases h
  | ok k' =>
    cases hv : (l.passValue v).result with
    | error e =>
      rw [Multimap.arrival_of_value_error hk hv] at h
      cases h
    | ok v' =>
      rw [Multimap.arrival_of_pass hk hv] at h
      cases hb : (b.refusal k' v').value with
      | some cause => simp [Multimap.arrival, hb] at h
      | none =>
        obtain rfl : (k', v') = p := by simpa [Multimap.arrival, hb] using h
        exact outputs_of_pass hk hv

/-! ## Steps on a layer around a base -/

/-- Operations on the outermost layer, merges included. Edits are left out, which are meant to go
past the transformers. -/
def Step.OnLayer : Step E K V → Prop
  | .operate 0 (.edit _ _) => False
  | .operate 0 _ | .merge 0 _ => True
  | _ => False

variable [Ord K] [Ord V]

namespace Multimap

/-- A layer around a base in which all stored mappings satisfy `P`. -/
def HoldsUnder (l : Layer E K V) (P : K × V → Prop) (m : Multimap d E K V) : Prop :=
  ∃ b : Base d E K V, m = (base b).under l ∧ ∀ p ∈ m.mappings, P p

variable [Std.LawfulEqOrd K] {l : Layer E K V} {P : K × V → Prop} {m : Multimap d E K V}

theorem HoldsUnder.operate (hP : ∀ p, l.Outputs p → P p) (h : m.HoldsUnder l P)
    {o : Operation E K V} (ho : ∀ k es, o ≠ .edit k es) : (m.operate o).state.HoldsUnder l P := by
  obtain ⟨b, rfl, hb⟩ := h
  obtain ⟨c, hc⟩ := ((base b).under l).operate_state_eq o
  refine ⟨{ b with content := c }, hc, fun p hp => ?_⟩
  rcases mem_mappings_of_operate hp with hp | hadds
  · exact hb p hp
  apply hP
  rcases hadds.origin with ⟨q, harrive⟩ | ⟨k, vs, v, -, hk, hv⟩ | ⟨k, es, rfl⟩
  · exact Layer.outputs_of_arrival harrive
  · exact Layer.outputs_of_pass hk hv
  · exact absurd rfl (ho k es)

theorem HoldsUnder.runsTo [Logging E] [ToString K] [ToString V] (hP : ∀ p, l.Outputs p → P p)
    {s : Step E K V} (hs : s.OnLayer) (h : m.HoldsUnder l P)
    {x : Answer d E K V × Multimap d E K V} (hx : s.RunsTo m x) : x.2.HoldsUnder l P := by
  cases s with
  | operate n o =>
    cases n with
    | succ n => exact hs.elim
    | zero =>
      cases hx
      rw [Step.run, inside_zero]
      refine h.operate hP fun k es ho => ?_
      rw [ho] at hs
      exact hs
  | merge n donor =>
    cases n with
    | succ n => exact hs.elim
    | zero =>
      cases hx
      rw [Step.run, inside_zero]
      show (m.merge donor).state.HoldsUnder l P
      rcases m.merge_state_eq donor with hst | ⟨ps, hst⟩
      · rwa [hst]
      · rw [hst]
        exact h.operate hP (o := .putPairs (some (Source.ofList ps))) (by simp)
  | extend n ps => exact hs.elim
  | flags n => exact hs.elim
  | inspect n spread => exact hs.elim
  | listing => exact hs.elim
  | decorate l existing recovery => exact hs.elim
  | unwrap => exact hs.elim
  | build calls => exact hs.elim
  | fork steps => exact hs.elim

end Multimap

variable [Std.LawfulEqOrd K] [Logging E] [ToString K] [ToString V]

theorem Step.runAll_holdsUnder {l : Layer E K V} {P : K × V → Prop} (hP : ∀ p, l.Outputs p → P p)
    {m : Multimap d E K V} (h : m.HoldsUnder l P) {ss : List (Step E K V)}
    (hss : ∀ s ∈ ss, s.OnLayer) : ∀ p ∈ (runAll ss m).2.mappings, P p := by
  obtain ⟨b, -, hb⟩ := (runsAllTo_runAll ss m).keeps (P := fun m => m.HoldsUnder l P)
    (fun s hs _ _ h hx => h.runsTo hP (hss s hs) hx) h
  exact hb

/-- **What is stored through a layer is output of its transformers**, besides what was there before
and has not been recast. -/
theorem stored_through_layer (b : Base d E K V) (l : Layer E K V) {ss : List (Step E K V)}
    (hss : ∀ s ∈ ss, s.OnLayer) (n : Nat) :
    ((Multimap.base b).isEmpty = true →
      ∀ p ∈ (Step.runAll (ss.take n) ((Multimap.base b).under l)).2.mappings, l.Outputs p) ∧
    (∀ m, ((Multimap.base b).recast l).value = .ok m →
      ∀ p ∈ (Step.runAll (ss.take n) m).2.mappings, l.Outputs p) ∧
    ∀ p ∈ (Step.runAll (ss.take n) ((Multimap.base b).under l)).2.mappings,
      p ∈ (Multimap.base b).mappings ∨ l.Outputs p := by
  have htake : ∀ s ∈ ss.take n, s.OnLayer := fun s hs => hss s (List.mem_of_mem_take hs)
  refine ⟨fun hempty => ?_, fun m hm => ?_, ?_⟩
  · refine Step.runAll_holdsUnder (fun _ => id) ⟨b, rfl, fun p hp => ?_⟩ htake
    have hnone : p ∈ (Multimap.base b).mappings := hp
    rw [Multimap.mappings_eq_nil_iff.2 hempty] at hnone
    cases hnone
  · obtain ⟨c, rfl, hstored⟩ := Multimap.recastIn_ok_stored (Content.handsOut_groups _) hm
    refine Step.runAll_holdsUnder (fun _ => id) ⟨{ b with content := c }, rfl, fun p hp => ?_⟩ htake
    obtain ⟨q, -, harrive⟩ := hstored p hp
    exact Layer.outputs_of_arrival harrive
  · exact Step.runAll_holdsUnder (fun _ => .inr) ⟨b, rfl, fun p hp => .inl hp⟩ htake

/-- A layer that adds ten to the keys and doubles the values that are not too large. -/
def doubling : Layer Event Nat Nat :=
  ⟨some (.ofFunction (· + 10)),
    some (.ofFallible fun v => if v ≤ 5 then .ok (v * 2) else .error ⟨"too large"⟩)⟩

/-- Values for a key of which a later one fails, puts in bulk of which one fails, and a merge of the
multimap into itself. -/
def filling : List (Step Event Nat Nat) :=
  [.operate 0 (.putValues 1 (some (Source.ofList [3, 9, 4]))),
    .operate 0 (.putPairs (some (Source.ofList [(2, 5), (3, 8), (4, 1)]))),
    .operate 0 (.removeMapping 1 2), .merge 0 (some .self)]

/-- Two mappings, and what a recast through the layer makes of them. -/
def twoStored : Base .distinct Event Nat Nat := .ofContent (Content.ofMappings [(1, 2), (2, 4)])

def recastTwo : Multimap .distinct Event Nat Nat :=
  ((Multimap.base twoStored).under doubling).withContent ⟨[(11, ⟨[4]⟩), (12, ⟨[8]⟩)]⟩

/-- A layer is put around two mappings, with and without a recast. -/
theorem stored_through_layer_filling :
    ((∀ s ∈ filling, s.OnLayer) ∧
      ((Multimap.base twoStored).recast doubling).value = .ok recastTwo) ∧
    (Step.runAll filling recastTwo).2.mappings = [(11, 4), (11, 6), (12, 8), (12, 10), (21, 8)] ∧
    (∀ n, ∀ p ∈ (Step.runAll (filling.take n) ((Multimap.base twoStored).under doubling)).2.mappings,
      p ∈ (Multimap.base twoStored).mappings ∨ doubling.Outputs p) ∧
    ∀ n, ∀ p ∈ (Step.runAll (filling.take n) recastTwo).2.mappings, doubling.Outputs p := by
  have hss : ∀ s ∈ filling, s.OnLayer := by simp [filling, Step.OnLayer]
  have hrecast : ((Multimap.base twoStored).recast doubling).value = .ok recastTwo := rfl
  exact ⟨⟨hss, hrecast⟩, rfl, fun n => (stored_through_layer twoStored doubling hss n).2.2,
    fun n => (stored_through_layer twoStored doubling hss n).2.1 recastTwo hrecast⟩

end LayeredMultimap
