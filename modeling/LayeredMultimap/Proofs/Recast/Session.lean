import LayeredMultimap.Proofs.Recast.Order
import LayeredMultimap.Session

/-!
# Sessions whose recasts find the groups in any order

`Step.run` recasts a content in the order of its keys. `Step.RunsTo` lets a recast find the groups
in any order in which the content can hand them out, another one each time; a run in the order of
the keys is one of these (`Step.runsAllTo_runAll`). So what every such step keeps is kept by a
session (`Step.RunsAllTo.keeps`), however its recasts come upon the groups.
-/

namespace LayeredMultimap.Step

variable {d : Discipline} {E K V : Type} [DecidableEq K] [Ord K] [DecidableEq V] [Ord V]

/-! ## The end of a recast -/

section

variable {recast : Traced E (Except (RecastError (Multimap d E K V)) (Multimap d E K V))}

omit [DecidableEq K] [Ord K] [DecidableEq V] [Ord V] in
theorem concludeRecast_of_ok {n : Multimap d E K V} (h : recast.value = .ok n)
    (recovery : Recovery) :
    concludeRecast recovery recast =
      (.step (.ok (.flags n.flags?)) recast.trace none n.content, n) := by
  simp only [concludeRecast, h]
  rfl

omit [DecidableEq K] [Ord K] [DecidableEq V] [Ord V] in
theorem concludeRecast_of_error {e : RecastError (Multimap d E K V)} (h : recast.value = .error e) :
    concludeRecast .keep recast =
      (.step (.error e.error) recast.trace (some e) e.map.content, e.map) := by
  simp only [concludeRecast, h]

end

/-! ## Steps and runs -/

variable [Logging E] [ToString K] [ToString V]

/-- What a step can come to if a recast may find the groups of the content in any order. -/
inductive RunsTo : Step E K V → Multimap d E K V → Answer d E K V × Multimap d E K V → Prop
  | run (s : Step E K V) (m : Multimap d E K V) : RunsTo s m (run s m)
  | decorate (l : Layer E K V) (recovery : Recovery) {m : Multimap d E K V}
      {gs : List (K × Bag d V)} (h : m.content.HandsOut gs) :
      RunsTo (.decorate l true recovery) m (concludeRecast recovery (m.recastIn l gs))
  | build {calls : List (BuildCall E K V)} {m x : Multimap d E K V} {l : Layer E K V}
      {gs : List (K × Bag d V)} (hset : Builder.new.setAll (m.settings calls) = ⟨some x, l, true⟩)
      (h : x.content.HandsOut gs) :
      RunsTo (.build calls) m
        (concludeBuild calls m (Except.mapError RecastError.error <$> x.recastIn l gs))

/-- What the steps of a session can come to one after the other, each recast in an order of its
own. -/
inductive RunsAllTo :
    List (Step E K V) → Multimap d E K V → List (Answer d E K V) × Multimap d E K V → Prop
  | nil (m : Multimap d E K V) : RunsAllTo [] m ([], m)
  | cons {s : Step E K V} {r : List (Step E K V)} {m : Multimap d E K V}
      {x : Answer d E K V × Multimap d E K V} {y : List (Answer d E K V) × Multimap d E K V}
      (h : s.RunsTo m x) (hr : RunsAllTo r x.2 y) : RunsAllTo (s :: r) m (x.1 :: y.1, y.2)

theorem runsAllTo_runAll (ss : List (Step E K V)) (m : Multimap d E K V) :
    RunsAllTo ss m (runAll ss m) := by
  induction ss generalizing m with
  | nil => exact .nil m
  | cons s r ih =>
    rw [runAll]
    exact .cons (.run s m) (ih _)

theorem RunsTo.exists_order {l : Layer E K V} {recovery : Recovery} {m : Multimap d E K V}
    {x : Answer d E K V × Multimap d E K V} (h : RunsTo (.decorate l true recovery) m x) :
    ∃ gs, m.content.HandsOut gs ∧ x = concludeRecast recovery (m.recastIn l gs) := by
  cases h with
  | run => exact ⟨m.drain.1, m.content.handsOut_groups, rfl⟩
  | decorate _ _ h => exact ⟨_, h, rfl⟩

/-- What every step of a run keeps is kept by the run. -/
theorem RunsAllTo.keeps {P : Multimap d E K V → Prop} {ss : List (Step E K V)}
    {m : Multimap d E K V} {x : List (Answer d E K V) × Multimap d E K V} (h : RunsAllTo ss m x)
    (hstep : ∀ s ∈ ss, ∀ m x, P m → s.RunsTo m x → P x.2) (hm : P m) : P x.2 := by
  induction h with
  | nil => exact hm
  | @cons s r m x y hfirst _ ih =>
    exact ih (fun s hs => hstep s (List.mem_cons_of_mem _ hs))
      (hstep s List.mem_cons_self m x hm hfirst)

end LayeredMultimap.Step
