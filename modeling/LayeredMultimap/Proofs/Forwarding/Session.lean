import LayeredMultimap.Proofs.Forwarding
import LayeredMultimap.Session
import LayeredMultimap.Value.Event

/-!
# Sessions at any depth

A run of operations that are addressed to the layers of a multimap against the same run on its bare
base, in which only the arguments of insertions are rewritten.
-/

namespace LayeredMultimap

variable {d : Discipline} {E K V : Type}

/-- An operation and the depth of the layer that it is addressed to. -/
structure Request (E K V : Type) where
  depth : Nat
  operation : Operation E K V

/-- The step of a session that makes it. -/
def Request.step (r : Request E K V) : Step E K V := .operate r.depth r.operation

namespace Multimap

variable [DecidableEq K] [Ord K] [DecidableEq V] [Ord V]

theorem inside_operate (m : Multimap d E K V) (n : Nat) (o : Operation E K V) :
    m.inside n (·.operate o) = (m.root.serve (forward (m.layers.drop n) o)).mapState m.withRoot := by
  rw [← root_peel m n, ← layers_peel]
  exact inside_eq_mapState (operate_eq_serve _ o)

theorem inside_put (m : Multimap d E K V) (n : Nat) (k : K) (v : V) :
    m.inside n (·.put k v) =
      ((Outcome.ofAttempt (passage (m.layers.drop n) k v) m.root).andThen fun p b =>
        b.put p.1 p.2).mapState m.withRoot := by
  rw [← root_peel m n, ← layers_peel]
  exact inside_eq_mapState (put_eq_passage _ k v)

end Multimap

variable [DecidableEq K] [Ord K] [DecidableEq V] [Ord V]

/-- The answers of a base to what a list of layers hands on of a run of requests, and the base after
them. -/
def Base.serveAll (ls : List (Layer E K V)) :
    List (Request E K V) → Base d E K V → List (Answer d E K V) × Base d E K V
  | [], b => ([], b)
  | r :: rs, b =>
    let o := b.serve (forward (ls.drop r.depth) r.operation)
    let rest := serveAll ls rs o.state
    (.step o.result o.trace none o.state.content :: rest.1, rest.2)

variable [Logging E] [ToString K] [ToString V]

theorem Request.run_eq_serve (r : Request E K V) (m : Multimap d E K V) :
    let o := m.root.serve (forward (m.layers.drop r.depth) r.operation)
    Step.run r.step m = (.step o.result o.trace none o.state.content, m.withRoot o.state) := by
  intro o
  have hcontent : (m.withRoot o.state).content = o.state.content :=
    congrArg Base.content (Multimap.root_withRoot m o.state)
  rw [step, Step.run, Multimap.inside_operate, ← hcontent]
  rfl

theorem Request.runAll_eq_serveAll (rs : List (Request E K V)) (m : Multimap d E K V) :
    Step.runAll (rs.map Request.step) m =
      ((m.root.serveAll m.layers rs).1, m.withRoot (m.root.serveAll m.layers rs).2) := by
  induction rs generalizing m with
  | nil =>
    rw [List.map_nil, Step.runAll, Base.serveAll, Multimap.withRoot_root]
  | cons r rs ih =>
    rw [List.map_cons, Step.runAll, r.run_eq_serve, ih, Base.serveAll]
    simp only [Multimap.root_withRoot, Multimap.layers_withRoot, Multimap.withRoot_withRoot]

/-- **The layers are a transparent front of the base.** They rewrite what is put, and nothing else.
-/
theorem layers_transparent (m : Multimap d E K V) (rs : List (Request E K V)) :
    let layered := Step.runAll (rs.map Request.step) m
    let bare := m.root.serveAll m.layers rs
    layered.1 = bare.1 ∧ layered.2 = m.withRoot bare.2 ∧
      (∀ n q, (layered.2.peel n).answer q = (Multimap.base bare.2).answer q) ∧
      (∀ n o, o.inserts = false →
        layered.2.inside n (·.operate o) = (bare.2.operate o).mapState m.withRoot) ∧
      ∀ n k v, layered.2.inside n (·.put k v) =
        ((Outcome.ofAttempt (passage (m.layers.drop n) k v) bare.2).andThen fun p b =>
          b.put p.1 p.2).mapState m.withRoot := by
  intro layered bare
  have hrun : layered = (bare.1, m.withRoot bare.2) := Request.runAll_eq_serveAll rs m
  have hback : (m.withRoot bare.2).withRoot = m.withRoot :=
    funext fun b => m.withRoot_withRoot bare.2 b
  rw [hrun]
  refine ⟨rfl, rfl, ?_, ?_, ?_⟩
  · intro n q
    rw [Multimap.answer_eq_base, Multimap.root_peel, Multimap.root_withRoot]
  · intro n o ho
    rw [Multimap.inside_operate, forward_of_not_inserts ho, Base.serve_pure, Multimap.root_withRoot,
      hback]
    rfl
  · intro n k v
    rw [Multimap.inside_put, Multimap.root_withRoot, Multimap.layers_withRoot, hback]

/-- Two layers around a base that refuses 0. The outer one lets no value pass that is above 5; the
inner one adds 10 to the keys and doubles the values. -/
def bounded : Multimap .sequence Event Nat Nat :=
  .layered ⟨none, some (.ofFallible fun v => if v ≤ 5 then .ok v else .error ⟨"too big"⟩)⟩
    (.layered ⟨some (.ofFunction (· + 10)), some (.ofFunction (· * 2))⟩
      (.base ⟨.empty, fun _ v => pure (if v = 0 then some "zero" else none)⟩))

/-- A put that gets through, one that the outer layer stops and one that the base refuses. -/
theorem layers_transparent_bounded :
    let rs : List (Request Event Nat Nat) :=
      [⟨0, .put 1 3⟩, ⟨0, .put 1 7⟩, ⟨1, .put 1 0⟩, ⟨0, .query (.get 11)⟩]
    let stored : Content .sequence Nat Nat := ⟨[(11, ⟨[6]⟩)]⟩
    let session := Step.runAll (rs.map Request.step) bounded
    session.1 = [.step (.ok (.flag true)) [] none stored,
        .step (.error (.transform ⟨"too big"⟩)) [] none stored,
        .step (.error (.rejected "zero")) [] none stored,
        .step (.ok (.bag (some [6]))) [] none stored] ∧
      (Operation.remove 11 : Operation Event Nat Nat).inserts = false ∧
      session.2.inside 1 (·.operate (.remove 11)) = ⟨.ok (.bag (some [6])), bounded, []⟩ := by
  intro rs stored session
  obtain ⟨hanswers, -, -, hremove, -⟩ := layers_transparent bounded rs
  exact ⟨hanswers, rfl, hremove 1 (.remove 11) rfl⟩

end LayeredMultimap
