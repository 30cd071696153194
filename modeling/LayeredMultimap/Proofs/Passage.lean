import LayeredMultimap.Proofs.Arrival

/-!
# The way through the layers

`passage` takes a mapping through a list of layers. A multimap is its layers around its base, and a
put is the passage through the layers followed by a put on the base (`put_eq_passage`); the content
has no part in the former and the layers have none in the latter.
-/

namespace LayeredMultimap

theorem Outcome.ofAttempt_bind {σ E α β : Type} (x : Attempt E α) (f : α → Attempt E β) (s : σ) :
    ofAttempt (x >>= f) s = (ofAttempt x s).andThen fun a s => ofAttempt (f a) s := by
  have hrun : (x >>= f).run = x.run >>= ExceptT.bindCont f := rfl
  cases h : x.result with
  | ok a =>
    have hbind : x.run >>= ExceptT.bindCont f = (f a).run.after x.run.trace := by
      have hvalue : x.run.value = .ok a := h
      ext1
      · rw [Traced.trace_bind, hvalue]
        rfl
      · rw [Traced.value_bind, hvalue]
        rfl
    rw [ofAttempt_andThen_of_ok h, ofAttempt, Attempt.result, Attempt.trace, hrun, hbind]
    rfl
  | error e =>
    have hbind : x.run >>= ExceptT.bindCont f = ⟨x.run.trace, .error e⟩ := by
      have hvalue : x.run.value = .error e := h
      ext1
      · rw [Traced.trace_bind, hvalue]
        exact List.append_nil _
      · rw [Traced.value_bind, hvalue]
        rfl
    rw [ofAttempt_andThen_of_error h, ofAttempt, Attempt.result, Attempt.trace, hrun, hbind]
    rfl

variable {d : Discipline} {E K V : Type}

/-- Takes a mapping through one layer after the other. In each layer the key is transformed before
the value; where a transformer is absent, the key or the value is kept and nothing is called. -/
def passage [DecidableEq K] [DecidableEq V] : List (Layer E K V) → K → V → Attempt E (K × V)
  | [], k, v => pure (k, v)
  | l :: ls, k, v => do
    let k ← Transformer.run? l.key k
    let v ← Transformer.run? l.value v
    passage ls k v

theorem passage_cons [DecidableEq K] [DecidableEq V] (l : Layer E K V) (ls : List (Layer E K V))
    (k : K) (v : V) : passage (l :: ls) k v = l.pass k v >>= fun p => passage ls p.1 p.2 := by
  show (do
    let k ← l.passKey k
    let v ← l.passValue v
    passage ls k v) = (l.passKey k >>= fun k => l.passValue v >>= fun v => pure (k, v)) >>= _
  simp only [bind_assoc, pure_bind]

namespace Multimap

/-! ## A multimap as layers around a base -/

/-- The layers of a multimap, from the outermost to the innermost. -/
def layers : Multimap d E K V → List (Layer E K V)
  | .base _ => []
  | .layered l m => l :: m.layers

theorem outer_eq_headD (m : Multimap d E K V) : m.outer = m.layers.headD .empty := by
  cases m with
  | base b => rfl
  | layered l m => rfl

/-- The same layers around another base. -/
def withRoot : Multimap d E K V → Base d E K V → Multimap d E K V
  | .base _, b => .base b
  | .layered l m, b => .layered l (m.withRoot b)

@[simp] theorem root_withRoot (m : Multimap d E K V) (b : Base d E K V) :
    (m.withRoot b).root = b := by
  induction m with
  | base _ => rfl
  | layered l m ih => exact ih

@[simp] theorem withRoot_root (m : Multimap d E K V) : m.withRoot m.root = m := by
  induction m with
  | base _ => rfl
  | layered l m ih => exact congrArg (layered l) ih

@[simp] theorem withRoot_withRoot (m : Multimap d E K V) (b b' : Base d E K V) :
    (m.withRoot b).withRoot b' = m.withRoot b' := by
  induction m with
  | base _ => rfl
  | layered l m ih => exact congrArg (layered l) ih

@[simp] theorem layers_withRoot (m : Multimap d E K V) (b : Base d E K V) :
    (m.withRoot b).layers = m.layers := by
  induction m with
  | base _ => rfl
  | layered l m ih => exact congrArg (l :: ·) ih

theorem withContent_eq_withRoot (m : Multimap d E K V) (c : Content d K V) :
    m.withContent c = m.withRoot { m.root with content := c } := by
  induction m with
  | base _ => rfl
  | layered l m ih => exact congrArg (layered l) ih

@[simp] theorem root_withContent (m : Multimap d E K V) (c : Content d K V) :
    (m.withContent c).root = { m.root with content := c } := by
  rw [withContent_eq_withRoot, root_withRoot]

@[simp] theorem layers_withContent (m : Multimap d E K V) (c : Content d K V) :
    (m.withContent c).layers = m.layers := by
  rw [withContent_eq_withRoot, layers_withRoot]

/-! ## Further in -/

theorem peel_base (b : Base d E K V) (n : Nat) : (base b : Multimap d E K V).peel n = base b := by
  induction n with
  | zero => rfl
  | succ n ih => exact ih

theorem root_peel (m : Multimap d E K V) (n : Nat) : (m.peel n).root = m.root := by
  induction n generalizing m with
  | zero => rfl
  | succ n ih =>
    cases m with
    | base b => exact ih (.base b)
    | layered l m => exact ih m

theorem content_peel (m : Multimap d E K V) (n : Nat) : (m.peel n).content = m.content :=
  congrArg Base.content (m.root_peel n)

theorem layers_peel (m : Multimap d E K V) (n : Nat) : (m.peel n).layers = m.layers.drop n := by
  induction n generalizing m with
  | zero => rfl
  | succ n ih =>
    cases m with
    | base b => exact (ih (.base b)).trans List.drop_nil
    | layered l m => exact ih m

section

variable {α : Type} (m : Multimap d E K V) (n : Nat)
  (f : Multimap d E K V → Outcome (Multimap d E K V) E α)

theorem inside_zero : m.inside 0 f = f m := by
  cases m with
  | base b => rfl
  | layered l m => rfl

theorem mapState_root_inside : (m.inside n f).mapState root = (f (m.peel n)).mapState root := by
  induction n generalizing m with
  | zero =>
    rw [inside_zero]
    rfl
  | succ n ih =>
    cases m with
    | base b =>
      rw [peel_base]
      rfl
    | layered l m => exact ih m

theorem result_inside : (m.inside n f).result = (f (m.peel n)).result := by
  rw [← Outcome.result_mapState root, mapState_root_inside, Outcome.result_mapState]

theorem trace_inside : (m.inside n f).trace = (f (m.peel n)).trace := by
  rw [← Outcome.trace_mapState root, mapState_root_inside, Outcome.trace_mapState]

theorem root_inside : (m.inside n f).state.root = (f (m.peel n)).state.root := by
  rw [← Outcome.state_mapState root, mapState_root_inside, Outcome.state_mapState]

theorem content_inside : (m.inside n f).state.content = (f (m.peel n)).state.content :=
  congrArg Base.content (m.root_inside n f)

end

theorem inside_eq_mapState {α : Type} {m : Multimap d E K V} {n : Nat}
    {f : Multimap d E K V → Outcome (Multimap d E K V) E α} {o : Outcome (Base d E K V) E α}
    (h : f (m.peel n) = o.mapState (m.peel n).withRoot) : m.inside n f = o.mapState m.withRoot := by
  induction n generalizing m with
  | zero =>
    cases m with
    | base b => exact h
    | layered l m => exact h
  | succ n ih =>
    cases m with
    | base b =>
      rw [peel_base] at h
      exact h
    | layered l m =>
      have hm : m.inside n f = o.mapState m.withRoot := ih h
      rw [inside, hm]
      rfl

theorem state_inside_of_withContent {α : Type} {m : Multimap d E K V} {n : Nat}
    {f : Multimap d E K V → Outcome (Multimap d E K V) E α} {c : Content d K V}
    (h : (f (m.peel n)).state = (m.peel n).withContent c) :
    (m.inside n f).state = m.withContent c := by
  induction n generalizing m with
  | zero =>
    rw [inside_zero]
    exact h
  | succ n ih =>
    cases m with
    | base b =>
      rw [peel_base] at h
      exact h
    | layered l m => exact congrArg (layered l) (ih h)

/-! ## Puts -/

variable [DecidableEq K] [DecidableEq V]

theorem passage_of_arrival_ok {m : Multimap d E K V} {k : K} {v : V} {q : K × V}
    (h : (m.arrival k v).value = .ok q) : (passage m.layers k v).result = .ok q := by
  induction m generalizing k v with
  | base b =>
    cases hb : (b.refusal k v).value with
    | some cause => simp [arrival, hb] at h
    | none =>
      obtain rfl : (k, v) = q := by simpa [arrival, hb] using h
      rfl
  | layered l m ih =>
    rw [layers, passage_cons, Attempt.result_bind]
    cases hl : (l.pass k v).result with
    | error e =>
      rw [arrival_layered_of_error hl] at h
      cases h
    | ok p =>
      rw [arrival_layered_of_ok hl] at h
      exact ih h

variable [Ord K] [Ord V]

/-- A put takes the mapping through the layers and puts what comes out of them on the base. -/
theorem put_eq_passage (m : Multimap d E K V) (k : K) (v : V) :
    m.put k v = ((Outcome.ofAttempt (passage m.layers k v) m.root).andThen fun p b =>
      b.put p.1 p.2).mapState m.withRoot := by
  induction m generalizing k v with
  | base b => rfl
  | layered l m ih =>
    rw [layers, passage_cons, Outcome.ofAttempt_bind, Outcome.andThen_andThen]
    cases hl : (l.pass k v).result with
    | error e =>
      rw [put_layered_of_error hl, Outcome.ofAttempt_andThen_of_error hl]
      show _ = (⟨_, layered l (m.withRoot m.root), _⟩ : Outcome _ E Bool)
      rw [withRoot_root]
    | ok p =>
      rw [put_layered_of_ok hl, Outcome.ofAttempt_andThen_of_ok hl, ih]
      rfl

end Multimap

end LayeredMultimap
