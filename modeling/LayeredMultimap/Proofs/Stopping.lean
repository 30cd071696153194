import LayeredMultimap.Proofs.Recast

/-!
# Insertions that fail

A put that fails changes nothing. A bulk insertion is a loop that works on one item after the other
and stops at the first one that fails: what came before it stays, and what comes behind it is not
even drawn. `UpToFailure` says this of any such loop, and `upToFailure_of_loop` gives it for both
loops of a multimap, the one that puts mappings and the one that adds values to a bag.
-/

namespace LayeredMultimap

/-! ## Loops over a source -/

section

variable {σ E α : Type}

/-- The items are worked on one at a time, each right after it is drawn, and none of them fails.
Listed are what each item reports, all events, and the state behind the last item. -/
inductive Each (f : α → σ → Outcome σ E Bool) : σ → Source E α → List Bool → List E → σ → Prop
  | nil (s : σ) : Each f s [] [] [] s
  | cons {s s' s'' : σ} {x : Traced E α} {r : Source E α} {b : Bool} {bs : List Bool}
      {t t' : List E} (hx : f x.value s = ⟨.ok b, s', t⟩) (hr : Each f s' r bs t' s'') :
      Each f s (x :: r) (b :: bs) (x.trace ++ t ++ t') s''

/-- The outcome of a loop that works on the items of a source, up to the first one that fails. That
one gives its error and leaves the state as the items before it have left it. -/
inductive UpToFailure (f : α → σ → Outcome σ E Bool) (s : σ) :
    Source E α → Outcome σ E Bool → Prop
  | all {src : Source E α} {bs : List Bool} {t : List E} {s' : σ} (h : Each f s src bs t s') :
      UpToFailure f s src ⟨.ok (bs.any id), s', t⟩
  | stop {before : Source E α} {x : Traced E α} {bs : List Bool} {t t' : List E} {s' : σ}
      {e : MapError} (h : Each f s before bs t s') (hx : f x.value s' = ⟨.error e, s', t'⟩)
      (rest : Source E α) :
      UpToFailure f s (before ++ x :: rest) ⟨.error e, s', t ++ (x.trace ++ t')⟩

variable {f : α → σ → Outcome σ E Bool}

theorem UpToFailure.cons {s s' : σ} {x : Traced E α} {r : Source E α} {b : Bool} {t : List E}
    {o : Outcome σ E Bool} (hx : f x.value s = ⟨.ok b, s', t⟩) (h : UpToFailure f s' r o) :
    UpToFailure f s (x :: r) ((o.map (b || ·)).after (x.trace ++ t)) := by
  cases h with
  | all h => exact .all (.cons hx h)
  | stop h he rest =>
    have hstop := UpToFailure.stop (.cons hx h) he rest
    rw [List.append_assoc] at hstop
    exact hstop

/-- A loop that stops at a failure works up to the first one, if a failing item leaves the state as
it is. -/
theorem upToFailure_of_loop (loop : σ → Source E α → Outcome σ E Bool)
    (hnil : ∀ s, loop s [] = .ok false s)
    (hcons : ∀ s x r, loop s (x :: r) =
      ((f x.value s).after x.trace).andThen fun here s => (loop s r).map (here || ·))
    (hfail : ∀ a s e, (f a s).result = .error e → (f a s).state = s) (s : σ) (src : Source E α) :
    UpToFailure f s src (loop s src) := by
  induction src generalizing s with
  | nil =>
    rw [hnil]
    exact .all (.nil s)
  | cons x r ih =>
    rw [hcons, Outcome.after_andThen]
    cases h : (f x.value s).result with
    | ok b =>
      have hx : f x.value s = ⟨.ok b, (f x.value s).state, (f x.value s).trace⟩ := by
        rw [← h]
      rw [Outcome.andThen_of_ok h, Outcome.after_after]
      exact .cons hx (ih _)
    | error e =>
      have hx : f x.value s = ⟨.error e, s, (f x.value s).trace⟩ := by
        ext1
        · exact h
        · exact hfail _ _ _ h
        · rfl
      have hstop := UpToFailure.stop (.nil s) hx r
      rw [Outcome.andThen_of_error h, hfail _ _ _ h]
      exact hstop

theorem UpToFailure.error_of_item {s : σ} {src : Source E α} {o : Outcome σ E Bool} {e : MapError}
    (h : UpToFailure f s src o) (he : o.result = .error e) :
    ∃ a s', (f a s').result = .error e := by
  cases h with
  | all h => cases he
  | @stop before x bs t t' s' e' h hx rest =>
    refine ⟨x.value, s', ?_⟩
    rw [hx]
    exact he

theorem Each.none_bad {P : σ → Prop} {bad : α → Prop}
    (hstep : ∀ a s, P s → P (f a s).state)
    (hbad : ∀ a s, P s → ((∃ e, (f a s).result = .error e) ↔ bad a)) {s s' : σ}
    {src : Source E α} {bs : List Bool} {t : List E} (h : Each f s src bs t s') (hs : P s) :
    P s' ∧ ∀ a ∈ src.items, ¬bad a := by
  induction h with
  | nil s => exact ⟨hs, fun a ha => nomatch ha⟩
  | @cons s s' s'' x r b bs t t' hx hr ih =>
    have hs' : P s' := by
      have hinv := hstep x.value s hs
      rwa [hx] at hinv
    have hgood : ¬bad x.value := by
      rw [← hbad x.value s hs, hx]
      rintro ⟨e, he⟩
      cases he
    obtain ⟨hlast, hrest⟩ := ih hs'
    refine ⟨hlast, fun a ha => ?_⟩
    rcases List.mem_cons.1 ha with rfl | ha
    · exact hgood
    · exact hrest a ha

theorem UpToFailure.fails_iff {P : σ → Prop} {bad : α → Prop}
    (hstep : ∀ a s, P s → P (f a s).state)
    (hbad : ∀ a s, P s → ((∃ e, (f a s).result = .error e) ↔ bad a)) {s : σ}
    {src : Source E α} {o : Outcome σ E Bool} (h : UpToFailure f s src o) (hs : P s) :
    (∃ e, o.result = .error e) ↔ ∃ a ∈ src.items, bad a := by
  cases h with
  | all h =>
    obtain ⟨-, hgood⟩ := h.none_bad hstep hbad hs
    constructor
    · rintro ⟨e, he⟩
      cases he
    · rintro ⟨a, ha, hb⟩
      exact absurd hb (hgood a ha)
  | @stop before x bs t t' s' e h hx rest =>
    obtain ⟨hs', -⟩ := h.none_bad hstep hbad hs
    have hxbad : bad x.value := by
      rw [← hbad x.value s' hs', hx]
      exact ⟨e, rfl⟩
    have hmem : x.value ∈ (before ++ x :: rest).items := List.mem_map_of_mem (by simp)
    exact ⟨fun _ => ⟨x.value, hmem, hxbad⟩, fun _ => ⟨e, rfl⟩⟩

end

/-! ## Values of one key -/

namespace Multimap

section

variable {d : Discipline} {E K V : Type} [Ord K] [DecidableEq V] [Ord V]

/-- Takes a value through a layer and adds it to the bag of a key directly. -/
def addPassed (l : Layer E K V) (k : K) (v : V) (m : Multimap d E K V) :
    Outcome (Multimap d E K V) E Bool :=
  (Outcome.ofAttempt (l.passValue v) m).andThen fun w m => .ofPair (m.modify fun c => c.add k w)

theorem addPassed_of_ok {l : Layer E K V} {v w : V} (h : (l.passValue v).result = .ok w) (k : K)
    (m : Multimap d E K V) :
    addPassed l k v m = ⟨.ok (m.content.add k w).1, m.withContent (m.content.add k w).2,
      (l.passValue v).trace⟩ := by
  rw [addPassed, Outcome.ofAttempt_andThen_of_ok h]
  show (⟨_, _, (l.passValue v).trace ++ []⟩ : Outcome _ E Bool) = _
  rw [List.append_nil]
  rfl

theorem addPassed_of_error {l : Layer E K V} {v : V} {e : TransformFailure}
    (h : (l.passValue v).result = .error e) (k : K) (m : Multimap d E K V) :
    addPassed l k v m = ⟨.error (.transform e), m, (l.passValue v).trace⟩ := by
  rw [addPassed, Outcome.ofAttempt_andThen_of_error h]

theorem addPassed_fails_iff (l : Layer E K V) (k : K) (v : V) (m : Multimap d E K V) :
    (∃ e, (addPassed l k v m).result = .error e) ↔ ∃ e, (l.passValue v).result = .error e := by
  cases h : (l.passValue v).result with
  | ok w =>
    rw [addPassed_of_ok h]
    simp
  | error e =>
    rw [addPassed_of_error h]
    simp

theorem addPassed_error {l : Layer E K V} {k : K} {v : V} {m : Multimap d E K V} {e : MapError}
    (h : (addPassed l k v m).result = .error e) : ∃ t, e = .transform t := by
  cases hv : (l.passValue v).result with
  | ok w =>
    rw [addPassed_of_ok hv] at h
    cases h
  | error t =>
    rw [addPassed_of_error hv] at h
    exact ⟨t, (Except.error.inj h).symm⟩

theorem onContent_pour_cons (m : Multimap d E K V) (l : Layer E K V) (k : K) (s : Traced E V)
    (r : Source E V) :
    (m.onContent fun c => c.pour l.passValue k (s :: r)) =
      ((addPassed l k s.value m).after s.trace).andThen fun here m =>
        (m.onContent fun c => c.pour l.passValue k r).map (here || ·) := by
  rw [Outcome.after_andThen, onContent]
  cases h : (l.passValue s.value).result with
  | ok w =>
    rw [addPassed_of_ok h, Content.pour_cons_of_ok h, Outcome.andThen_of_ok rfl,
      onContent_withContent, Outcome.after_after]
    rfl
  | error e =>
    rw [addPassed_of_error h, Content.pour_cons_of_error h, Outcome.andThen_of_error rfl]
    show (⟨_, m.withContent m.content, _⟩ : Outcome _ E Bool) = ⟨_, m, _⟩
    rw [withContent_content]

theorem upToFailure_onContent_pour (l : Layer E K V) (k : K) (m : Multimap d E K V)
    (s : Source E V) :
    UpToFailure (addPassed l k) m s (m.onContent fun c => c.pour l.passValue k s) := by
  refine upToFailure_of_loop (fun m s => m.onContent fun c => c.pour l.passValue k s) ?_ ?_ ?_ m s
  · intro m
    show Outcome.ok false (m.withContent m.content) = .ok false m
    rw [withContent_content]
  · intro m s r
    exact onContent_pour_cons m l k s r
  · intro v m e he
    cases h : (l.passValue v).result with
    | ok w =>
      rw [addPassed_of_ok h] at he
      cases he
    | error e' => rw [addPassed_of_error h]

end

/-! ## Mappings -/

variable {d : Discipline} {E K V : Type} [DecidableEq K] [Ord K] [DecidableEq V] [Ord V]

theorem put_state_of_error {m : Multimap d E K V} {k : K} {v : V} {e : MapError}
    (h : (m.put k v).result = .error e) : (m.put k v).state = m := by
  rw [put_of_arrival_error (put_error_iff.1 h)]

/-- The outcome of putting the mappings of a source: one put after the other up to the first one
that fails, and a failure if and only if there is a mapping whose put fails. -/
structure PutsUpToFailure (m : Multimap d E K V) (ps : Source E (K × V))
    (o : Outcome (Multimap d E K V) E Bool) : Prop where
  run : UpToFailure (fun p m => m.put p.1 p.2) m ps o
  fails_iff : (∃ e, o.result = .error e) ↔
    ∃ p ∈ ps.items, ∃ e, (m.put p.1 p.2).result = .error e

theorem putsUpToFailure_putPairs (m : Multimap d E K V) (ps : Source E (K × V)) :
    m.PutsUpToFailure ps (m.putPairs ps) := by
  have hrun : UpToFailure (fun p m => m.put p.1 p.2) m ps (m.putPairs ps) :=
    upToFailure_of_loop putPairs (fun _ => rfl) putPairs_cons
      (fun _ _ _ => put_state_of_error) m ps
  refine ⟨hrun, hrun.fails_iff (P := fun n => ∃ c, n = m.withContent c) ?_ ?_
    ⟨m.content, (withContent_content m).symm⟩⟩
  · rintro p n ⟨c, rfl⟩
    cases hp : (m.arrival p.1 p.2).value with
    | ok q =>
      rw [← arrival_withContent m c] at hp
      rw [put_of_arrival_ok hp, withContent_withContent]
      exact ⟨_, rfl⟩
    | error e =>
      rw [← arrival_withContent m c] at hp
      rw [put_of_arrival_error hp]
      exact ⟨c, rfl⟩
  · rintro p n ⟨c, rfl⟩
    simp only [put_error_iff, arrival_withContent]

/-! ## Values after a key -/

/-- The outcome of adding the values of a source under a key, up to the first failure. The key is
transformed behind the first draw. -/
def AddsUpToFailure (m : Multimap d E K V) (k : K) (o : Outcome (Multimap d E K V) E Bool) :
    Source E V → Prop
  | [] => o = .ok false m
  | s :: r =>
    let called := s.trace ++ (m.outer.passKey k).trace
    (∀ e, (m.outer.passKey k).result = .error e → o = ⟨.error (.transform e), m, called⟩) ∧
    ∀ k', (m.outer.passKey k).result = .ok k' →
      (∃ added, UpToFailure (addPassed m.outer k') m (pure s.value :: r) added ∧
        o = added.after called) ∧
      ((∃ e, o.result = .error e) ↔
        ∃ v ∈ Source.items (s :: r), ∃ e, (m.outer.passValue v).result = .error e) ∧
      ∀ e, (m.outer.passValue s.value).result = .error e →
        o = ⟨.error (.transform e), m, called ++ (m.outer.passValue s.value).trace⟩

theorem addsUpToFailure_putValues (m : Multimap d E K V) (k : K) (vs : Source E V) :
    m.AddsUpToFailure k (m.putValues k vs) vs := by
  cases vs with
  | nil => rfl
  | cons s r =>
    refine ⟨fun e he => putValues_cons_of_error he s r, fun k' hk' => ?_⟩
    · rw [putValues_cons_of_ok hk']
      have hrun := upToFailure_onContent_pour m.outer k' m (pure s.value :: r)
      refine ⟨⟨_, hrun, rfl⟩, ?_, fun e he => ?_⟩
      · exact hrun.fails_iff (P := fun _ => True) (fun _ _ _ => trivial)
          (fun v m _ => addPassed_fails_iff _ k' v m) trivial
      · have hstop : (m.onContent fun c => c.pour m.outer.passValue k' (pure s.value :: r)) =
            ⟨.error (.transform e), m, (m.outer.passValue s.value).trace⟩ := by
          rw [onContent_pour_cons, Traced.value_pure, addPassed_of_error he, Outcome.after_andThen,
            Outcome.andThen_of_error rfl]
          rfl
        rw [hstop]
        rfl

/-! ## All insertions -/

/-- **What a failing insertion leaves.** What came before the failure stays, and what is behind it
is neither drawn nor transformed. -/
theorem insertions_stop_at_failure (m : Multimap d E K V) :
    (∀ k v e, (m.put k v).result = .error e → (m.put k v).state = m) ∧
    (∀ ps, m.PutsUpToFailure ps (m.putPairs ps)) ∧
    (∀ (d' : Discipline) (other : Multimap d' E K V),
      m.PutsUpToFailure (Source.ofList other.mappings) (m.putFrom other)) ∧
    (∀ k vs, m.AddsUpToFailure k (m.putValues k vs) vs) ∧
    (∀ k, m.putValues? k none = ⟨.error (.nullArgument "values"), m, []⟩) ∧
    m.putPairs? none = ⟨.error (.nullArgument "map"), m, []⟩ ∧
    ∀ d' : Discipline, m.putFrom? (none : Option (Multimap d' E K V)) =
      ⟨.error (.nullArgument "map"), m, []⟩ := by
  refine ⟨fun k v e => put_state_of_error, m.putsUpToFailure_putPairs, fun d' other => ?_,
    m.addsUpToFailure_putValues, fun k => rfl, rfl, fun d' => rfl⟩
  exact m.putsUpToFailure_putPairs (Source.ofList other.mappings)

/-- A barred value stops a put, and values for a key as the first of them or as a later one. -/
theorem insertions_stop_at_failure_barred :
    let m := threeMappings.under (barring 3)
    let e : MapError := .transform ⟨"barred"⟩
    ((m.put 5 3).result = .error e ∧ (m.put 5 3).state = m) ∧
      m.PutsUpToFailure (Source.ofList [(5, 1), (5, 3), (5, 4)])
        ⟨.error e, m.withContent (m.content.extend [(5, 11)]), []⟩ ∧
      m.putValues 5 (Source.ofList [3, 4]) = ⟨.error e, m, []⟩ ∧
      ∃ added, UpToFailure (addPassed m.outer 5) m (Source.ofList [1, 3, 4]) added ∧
        m.putValues 5 (Source.ofList [1, 3, 4]) = added := by
  intro m e
  obtain ⟨hput, hpairs, -, hvalues, -⟩ := insertions_stop_at_failure m
  have hfail : (m.put 5 3).result = .error e := rfl
  have hfirst := (hvalues 5 (Source.ofList [3, 4])).2 5 rfl
  obtain ⟨⟨added, hadded, hsame⟩, -⟩ := (hvalues 5 (Source.ofList [1, 3, 4])).2 5 rfl
  exact ⟨⟨hfail, hput 5 3 e hfail⟩, hpairs (Source.ofList [(5, 1), (5, 3), (5, 4)]),
    hfirst.2.2 ⟨"barred"⟩ rfl, added, hadded, hsame⟩

end Multimap

end LayeredMultimap
