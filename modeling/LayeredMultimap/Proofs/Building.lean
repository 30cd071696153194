import LayeredMultimap.Builder
import LayeredMultimap.Proofs.Recast.Order
import LayeredMultimap.Value.Event

/-!
# What a builder remembers

Whatever is set on a builder, and in whatever order, it keeps the last setting of each kind and
nothing else (`Builder.setAll_new`). So what it builds is told by at most four settings: a layer of
the last transformers around the last multimap, whose content is recast or not as was said last.
-/

namespace LayeredMultimap

variable {d : Discipline} {E K V : Type}

/-! ## The last setting of a kind -/

namespace Setting

def map? : Setting d E K V → Option (Multimap d E K V)
  | .map m => some m
  | _ => none

def key? : Setting d E K V → Option (Transformer E K)
  | .key t => some t
  | _ => none

def value? : Setting d E K V → Option (Transformer E V)
  | .value t => some t
  | _ => none

def existing? : Setting d E K V → Option Bool
  | .existing e => some e
  | _ => none

/-- What the last setting of a kind says, if there is one. -/
def last {α : Type} (kind : Setting d E K V → Option α) (ss : List (Setting d E K V)) : Option α :=
  ss.reverse.findSome? kind

theorem last_cons {α : Type} (kind : Setting d E K V → Option α) (s : Setting d E K V)
    (ss : List (Setting d E K V)) : last kind (s :: ss) = (last kind ss).or (kind s) := by
  rw [last, List.reverse_cons, List.findSome?_append, List.findSome?_singleton]
  rfl

/-- The same last setting of each kind, or none in both. -/
structure SameLast (ss ss' : List (Setting d E K V)) : Prop where
  map : last map? ss = last map? ss'
  key : last key? ss = last key? ss'
  value : last value? ss = last value? ss'
  existing : last existing? ss = last existing? ss'

end Setting

namespace Builder

open Setting

/-! ## The settings of a builder -/

/-- The layer of the last transformers; a transformer that is never set is absent. -/
def lastLayer (ss : List (Setting d E K V)) : Layer E K V := ⟨last key? ss, last value? ss⟩

/-- A part of a builder that one kind of setting is about is what the last of that kind says. -/
theorem part_setAll {α : Type} (part : Builder d E K V → Option α)
    {kind : Setting d E K V → Option α} (hset : ∀ b s, part (b.set s) = (kind s).or (part b))
    (b : Builder d E K V) (ss : List (Setting d E K V)) :
    part (b.setAll ss) = (last kind ss).or (part b) := by
  induction ss generalizing b with
  | nil => rfl
  | cons s ss ih =>
    show part ((b.set s).setAll ss) = _
    rw [ih, hset, last_cons, Option.or_assoc]

theorem map_setAll (b : Builder d E K V) (ss : List (Setting d E K V)) :
    (b.setAll ss).map = (last map? ss).or b.map :=
  part_setAll map (fun _ s => by cases s <;> rfl) b ss

theorem key_setAll (b : Builder d E K V) (ss : List (Setting d E K V)) :
    (b.setAll ss).layer.key = (last key? ss).or b.layer.key :=
  part_setAll (fun b => b.layer.key) (fun _ s => by cases s <;> rfl) b ss

theorem value_setAll (b : Builder d E K V) (ss : List (Setting d E K V)) :
    (b.setAll ss).layer.value = (last value? ss).or b.layer.value :=
  part_setAll (fun b => b.layer.value) (fun _ s => by cases s <;> rfl) b ss

theorem existing_setAll (b : Builder d E K V) (ss : List (Setting d E K V)) :
    (b.setAll ss).existing = (last existing? ss).getD b.existing := by
  have hset : ∀ (b : Builder d E K V) s, some (b.set s).existing =
      (existing? s).or (some b.existing) := fun _ s => by cases s <;> rfl
  have h := part_setAll (fun b => some b.existing) hset b ss
  rwa [Option.or_some, Option.some.injEq] at h

theorem setAll_new (ss : List (Setting d E K V)) :
    new.setAll ss = ⟨last map? ss, lastLayer ss, (last existing? ss).getD false⟩ := by
  show Builder.mk (new.setAll ss).map ⟨(new.setAll ss).layer.key, (new.setAll ss).layer.value⟩
    (new.setAll ss).existing = _
  rw [map_setAll, key_setAll, value_setAll, existing_setAll]
  simp [new, Layer.empty, lastLayer]

/-! ## What is built -/

variable [DecidableEq K] [Ord K] [DecidableEq V] [Ord V] [Logging E]

theorem build_recast (m : Multimap d E K V) (l : Layer E K V) :
    (Builder.mk (some m) l true).build = Except.mapError RecastError.error <$> m.recast l := by
  rw [build, map_eq_pure_bind]
  rfl

theorem layered_of_build {m n : Multimap d E K V} {l : Layer E K V} {existing : Bool}
    (h : (Builder.mk (some m) l existing).build.value = .ok n) : ∃ inner, n = .layered l inner := by
  cases existing with
  | false =>
    obtain rfl := Except.ok.inj h
    exact ⟨m, rfl⟩
  | true =>
    rw [build_recast, Traced.value_map, Multimap.recast] at h
    rcases m.recastIn_cases l m.drain.1 with
      ⟨-, hvalue⟩ | ⟨qs, -, hvalue⟩ | ⟨before, images, p, rest, e, -, -, -, hvalue⟩
    · rw [hvalue] at h
      obtain rfl := Except.ok.inj h
      exact ⟨m, rfl⟩
    · rw [hvalue] at h
      obtain rfl := Except.ok.inj h
      exact ⟨m.withContent (Content.ofMappings qs), rfl⟩
    · rw [hvalue] at h
      cases h

/-- **The last setting of each kind decides** what is built, what fails and what is called on the
way. -/
theorem build_by_last_settings :
    (∀ ss : List (Setting d E K V), last map? ss = none →
      (new.setAll ss).build = pure (.error (.nullArgument "map"))) ∧
    (∀ (ss : List (Setting d E K V)) (m : Multimap d E K V), last map? ss = some m →
      (new.setAll ss).build =
          (if last existing? ss = some true then
            Except.mapError RecastError.error <$> m.recast (lastLayer ss)
          else pure (.ok (m.under (lastLayer ss)))) ∧
        ∀ n, (new.setAll ss).build.value = .ok n → ∃ inner, n = .layered (lastLayer ss) inner) ∧
    ∀ ss ss' : List (Setting d E K V), SameLast ss ss' →
      (new.setAll ss).build = (new.setAll ss').build := by
  refine ⟨fun ss hnone => ?_, fun ss m hm => ⟨?_, fun n hn => ?_⟩, fun ss ss' h => ?_⟩
  · rw [setAll_new, hnone]
    rfl
  · rw [setAll_new, hm]
    cases he : last existing? ss with
    | none => rfl
    | some e =>
      cases e with
      | false => rfl
      | true => exact build_recast m (lastLayer ss)
  · rw [setAll_new, hm] at hn
    exact layered_of_build hn
  · rw [setAll_new, setAll_new, lastLayer, lastLayer, h.map, h.key, h.value, h.existing]

/-- Two values that a layer has to get through. -/
def parcel : Multimap .sequence Event Nat Nat :=
  .ofContent (Content.ofMappings [(1, 3), (2, 4)])

/-- A run in which every kind of setting is made twice but that of the key transformer. The multimap
that is replaced could have been recast, the one that replaces it stops at its second mapping. -/
def hesitant : List (Setting .sequence Event Nat Nat) :=
  [.existing false, .value (.ofFunction (· + 1)), .map .empty, .existing true, .map parcel,
    .value (.ofFallible fun v => if v = 4 then .error ⟨"four"⟩ else .ok v)]

/-- All of the run comes to a recast that fails. Before the last setting the recast succeeds. -/
theorem build_by_last_settings_hesitant :
    let unasked := hesitant.filter fun s => s.map?.isNone
    let decided := [hesitant[5], hesitant[4], hesitant[3]]
    (last map? unasked = none ∧
      (new.setAll unasked).build = pure (.error (.nullArgument "map"))) ∧
    (last map? hesitant = some parcel ∧ last existing? hesitant = some true ∧
      (lastLayer hesitant).flags = (false, true) ∧
      (new.setAll hesitant).build =
        Except.mapError RecastError.error <$> parcel.recast (lastLayer hesitant) ∧
      (new.setAll hesitant).build.value = .error (.transform ⟨"four"⟩)) ∧
    (SameLast decided hesitant ∧ (new.setAll decided).build = (new.setAll hesitant).build) ∧
    ∃ n, (new.setAll (hesitant.take 5)).build.value = .ok n ∧
      n.content.listing = [(1, [4]), (2, [5])] ∧
      ∃ inner, n = .layered (lastLayer (hesitant.take 5)) inner := by
  intro unasked decided
  obtain ⟨hnone, hsome, hsame⟩ := build_by_last_settings (d := .sequence) (E := Event) (K := Nat)
    (V := Nat)
  have hdecided : SameLast decided hesitant := ⟨rfl, rfl, rfl, rfl⟩
  have hexisting : last existing? hesitant = some true := rfl
  have hbuild := (hsome hesitant parcel rfl).1
  rw [if_pos hexisting] at hbuild
  have hlayered := (hsome (hesitant.take 5) parcel rfl).2 _ rfl
  exact ⟨⟨rfl, hnone unasked rfl⟩, ⟨rfl, hexisting, rfl, hbuild, rfl⟩,
    ⟨hdecided, hsame decided hesitant hdecided⟩, _, rfl, rfl, hlayered⟩

end Builder

end LayeredMultimap
