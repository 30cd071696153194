import LayeredMultimap.Multimap.Operation
import LayeredMultimap.Proofs.Recast

/-!
# Two layers as one

Two layers around a multimap do the same as a single layer whose transformers run those of the outer
layer and then those of the inner one. The order of the calls differs: two layers transform the
value once before they transform the key a second time. So a mapping that fails on its key and on
its value may show another of its two errors; whether it fails, and what is stored, stays the same.
-/

namespace LayeredMultimap

variable {d : Discipline} {E K V : Type}

/-- One transformer and then another; either may be absent. -/
def Transformer.chain? {α : Type} :
    Option (Transformer E α) → Option (Transformer E α) → Option (Transformer E α)
  | none, t => t
  | some s, none => some s
  | some s, some t => some (.chain s t)

/-- The layer that does what an inner layer does after an outer one. -/
def Layer.fuse (outer inner : Layer E K V) : Layer E K V :=
  ⟨Transformer.chain? outer.key inner.key, Transformer.chain? outer.value inner.value⟩

theorem Transformer.run?_chain? {α : Type} [DecidableEq α] (s t : Option (Transformer E α))
    (x : α) : run? (chain? s t) x = run? s x >>= run? t := by
  cases s with
  | none => exact (pure_bind x (run? t)).symm
  | some s =>
    cases t with
    | none => exact (bind_pure (s.run x)).symm
    | some t => rw [chain?, run?, run]; rfl

section Failure

theorem Layer.passKey_fuse [DecidableEq K] (outer inner : Layer E K V) (k : K) :
    ((outer.fuse inner).passKey k).result =
      (outer.passKey k).result.bind fun k => (inner.passKey k).result := by
  simp only [passKey, fuse, Transformer.run?_chain?, Attempt.result_bind]

theorem Layer.passValue_fuse [DecidableEq V] (outer inner : Layer E K V) (v : V) :
    ((outer.fuse inner).passValue v).result =
      (outer.passValue v).result.bind fun v => (inner.passValue v).result := by
  simp only [passValue, fuse, Transformer.run?_chain?, Attempt.result_bind]

variable [DecidableEq K] [DecidableEq V]

/-- A layer fails on the key of a mapping and on its value. -/
def Layer.FailsTwice (l : Layer E K V) (p : K × V) : Prop :=
  (∃ e, (l.passKey p.1).result = .error e) ∧ ∃ e, (l.passValue p.2).result = .error e

/-- A mapping arrives through both systems, or it fails in both. -/
theorem Multimap.arrival_fuse (m : Multimap d E K V) (outer inner : Layer E K V) (p : K × V) :
    (((m.under inner).under outer).arrival p.1 p.2).value =
        ((m.under (outer.fuse inner)).arrival p.1 p.2).value ∨
      (outer.fuse inner).FailsTwice p ∧
        (∃ e, (((m.under inner).under outer).arrival p.1 p.2).value = .error e) ∧
        ∃ e, ((m.under (outer.fuse inner)).arrival p.1 p.2).value = .error e := by
  have hkey := outer.passKey_fuse inner p.1
  have hvalue := outer.passValue_fuse inner p.2
  simp only [under]
  cases hk : (outer.passKey p.1).result with
  | error e =>
    rw [hk] at hkey
    rw [arrival_of_key_error hk, arrival_of_key_error hkey]
    exact .inl rfl
  | ok k =>
    rw [hk] at hkey
    cases hv : (outer.passValue p.2).result with
    | error e =>
      rw [hv] at hvalue
      rw [arrival_of_value_error hk hv]
      cases hk' : (inner.passKey k).result with
      | error e' =>
        -- the only case in which the two systems meet different errors first
        have hfail : ((outer.fuse inner).passKey p.1).result = .error e' := hkey.trans hk'
        rw [arrival_of_key_error hfail]
        exact .inr ⟨⟨⟨e', hfail⟩, ⟨e, hvalue⟩⟩, ⟨_, rfl⟩, ⟨_, rfl⟩⟩
      | ok k' =>
        rw [arrival_of_value_error (hkey.trans hk') hvalue]
        exact .inl rfl
    | ok v =>
      rw [hv] at hvalue
      rw [arrival_of_pass hk hv]
      cases hk' : (inner.passKey k).result with
      | error e =>
        rw [arrival_of_key_error hk', arrival_of_key_error (hkey.trans hk')]
        exact .inl rfl
      | ok k' =>
        cases hv' : (inner.passValue v).result with
        | error e =>
          rw [arrival_of_value_error hk' hv',
            arrival_of_value_error (hkey.trans hk') (hvalue.trans hv')]
          exact .inl rfl
        | ok v' =>
          rw [arrival_of_pass hk' hv', arrival_of_pass (hkey.trans hk') (hvalue.trans hv')]
          exact .inl rfl

theorem Multimap.arrive_fuse (m : Multimap d E K V) (outer inner : Layer E K V)
    (ps : List (K × V)) :
    (∃ qs, ((m.under inner).under outer).Arrive ps qs ∧
        (m.under (outer.fuse inner)).Arrive ps qs) ∨
      ∃ before qs p rest e e', ps = before ++ p :: rest ∧
        ((m.under inner).under outer).Arrive before qs ∧
        (m.under (outer.fuse inner)).Arrive before qs ∧
        (((m.under inner).under outer).arrival p.1 p.2).value = .error e ∧
        ((m.under (outer.fuse inner)).arrival p.1 p.2).value = .error e' ∧
        (e = e' ∨ (outer.fuse inner).FailsTwice p) := by
  have hstacked : ∀ {ps qs}, (m.under (outer.fuse inner)).Arrive ps qs →
      ((m.under inner).under outer).Arrive ps qs := fun h =>
    h.imp fun p q hq => by
      rcases m.arrival_fuse outer inner p with heq | ⟨-, -, e, he⟩
      · exact heq.trans hq
      · rw [he] at hq
        cases hq
  rcases (m.under (outer.fuse inner)).arrive_or_error ps with
    ⟨qs, hqs⟩ | ⟨before, qs, p, rest, e', hs, hqs, he'⟩
  · exact .inl ⟨qs, hstacked hqs, hqs⟩
  · right
    rcases m.arrival_fuse outer inner p with heq | ⟨htwice, ⟨e, he⟩, -⟩
    · exact ⟨before, qs, p, rest, e', e', hs, hstacked hqs, hqs, heq.trans he', he', .inl rfl⟩
    · exact ⟨before, qs, p, rest, e, e', hs, hstacked hqs, hqs, he, he', .inr htwice⟩

end Failure

variable [DecidableEq K] [Ord K] [DecidableEq V] [Ord V]

namespace Operation

/-- The mappings that an operation puts. -/
def puts : Operation E K V → List (K × V)
  | .put k v => [(k, v)]
  | .putPairs (some ps) => ps.items
  | .putFrom (some other) => other.mappings
  | _ => []

/-- All but one of the operations treat all layers alike: only `putValues` takes its values through
the outermost layer and past the others. -/
def IsLayerwise : Operation E K V → Prop
  | .putValues _ _ => False
  | _ => True

end Operation

namespace Multimap

/-- The multimap after a run of operations, failed ones included. -/
def afterAll (m : Multimap d E K V) (os : List (Operation E K V)) : Multimap d E K V :=
  os.foldl (fun m o => (m.operate o).state) m

/-- Two errors with which `s` and `f` stop at one of the mappings `ps` are equal, unless `l` fails
on the key and on the value of that mapping. -/
def ErrorsAgree (l : Layer E K V) (s f : Multimap d E K V) (ps : List (K × V))
    (e e' : MapError) : Prop :=
  e = e' ∨ ∃ before p rest, s.StopsAt ps before p rest e ∧ f.StopsAt ps before p rest e' ∧
    l.FailsTwice p

/-- Both succeed with the same result, or both fail with errors that agree. -/
def ResultsAgree {α : Type} (l : Layer E K V) (s f : Multimap d E K V) (ps : List (K × V)) :
    Except MapError α → Except MapError α → Prop
  | .ok a, .ok b => a = b
  | .error e, .error e' => ErrorsAgree l s f ps e e'
  | _, _ => False

/-- Whatever operations are run on the two systems, each one agrees in its result and leaves the
same content. -/
def RunsAgree (l : Layer E K V) (s f : Multimap d E K V) : Prop :=
  ∀ (os : List (Operation E K V)) (o : Operation E K V),
    (∀ x ∈ os, x.IsLayerwise) → o.IsLayerwise →
    ResultsAgree l (s.afterAll os) (f.afterAll os) o.puts
        ((s.afterAll os).operate o).result ((f.afterAll os).operate o).result ∧
      ((s.afterAll os).operate o).state.content = ((f.afterAll os).operate o).state.content

/-! ## The simulation -/

/-- A multimap under the two layers against the same one under the fused layer. -/
def SimR (outer inner : Layer E K V) (s f : Multimap d E K V) : Prop :=
  ∃ m : Multimap d E K V, s = (m.under inner).under outer ∧ f = m.under (outer.fuse inner)

omit [DecidableEq K] [Ord K] [DecidableEq V] [Ord V] in
theorem SimR.content_eq {outer inner : Layer E K V} {s f : Multimap d E K V}
    (h : SimR outer inner s f) : s.content = f.content := by
  obtain ⟨m, rfl, rfl⟩ := h
  rfl

theorem ResultsAgree.map {α β : Type} {l : Layer E K V} {s f : Multimap d E K V}
    {ps : List (K × V)} {x y : Except MapError α} (h : ResultsAgree l s f ps x y) (g : α → β) :
    ResultsAgree l s f ps (x.map g) (y.map g) := by
  cases x with
  | error e => cases y with
    | error e' => exact h
    | ok b => exact h.elim
  | ok a => cases y with
    | error e' => exact h.elim
    | ok b => exact congrArg g h

theorem put_fuse (m : Multimap d E K V) (outer inner : Layer E K V) (k : K) (v : V) :
    let s := (m.under inner).under outer
    let f := m.under (outer.fuse inner)
    ResultsAgree (outer.fuse inner) s f [(k, v)] (s.put k v).result (f.put k v).result ∧
      SimR outer inner (s.put k v).state (f.put k v).state := by
  intro s f
  rcases m.arrival_fuse outer inner (k, v) with heq | ⟨htwice, ⟨e, he⟩, ⟨e', he'⟩⟩
  · cases hf : (f.arrival k v).value with
    | ok q =>
      have hs : (s.arrival k v).value = .ok q := heq.trans hf
      rw [put_of_arrival_ok hs, put_of_arrival_ok hf]
      exact ⟨rfl, m.withContent (m.content.add q.1 q.2).2, rfl, rfl⟩
    | error e =>
      have hs : (s.arrival k v).value = .error e := heq.trans hf
      rw [put_of_arrival_error hs, put_of_arrival_error hf]
      exact ⟨.inl rfl, m, rfl, rfl⟩
  · have hs : s.StopsAt [(k, v)] [] (k, v) [] e := stopsAt_of_arrive rfl .nil he
    have hf : f.StopsAt [(k, v)] [] (k, v) [] e' := stopsAt_of_arrive rfl .nil he'
    rw [put_of_arrival_error he, put_of_arrival_error he']
    exact ⟨.inr ⟨_, _, _, hs, hf, htwice⟩, m, rfl, rfl⟩

theorem putPairs_fuse (m : Multimap d E K V) (outer inner : Layer E K V) (ps : Source E (K × V)) :
    let s := (m.under inner).under outer
    let f := m.under (outer.fuse inner)
    ResultsAgree (outer.fuse inner) s f ps.items (s.putPairs ps).result (f.putPairs ps).result ∧
      SimR outer inner (s.putPairs ps).state (f.putPairs ps).state := by
  intro s f
  rcases m.arrive_fuse outer inner ps.items with
    ⟨qs, hs, hf⟩ | ⟨before, qs, p, rest, e, e', hps, hs, hf, he, he', hor⟩
  · obtain ⟨hres, hst⟩ := putPairs_of_arrive hs
    obtain ⟨hres', hst'⟩ := putPairs_of_arrive hf
    rw [hres, hst, hres', hst']
    exact ⟨rfl, m.withContent (m.content.extend qs), rfl, rfl⟩
  · obtain ⟨hres, hst⟩ := putPairs_of_error hps hs he
    obtain ⟨hres', hst'⟩ := putPairs_of_error hps hf he'
    rw [hres, hst, hres', hst']
    refine ⟨?_, m.withContent (m.content.extend qs), rfl, rfl⟩
    rcases hor with rfl | htwice
    · exact .inl rfl
    · exact .inr ⟨_, _, _, stopsAt_of_arrive hps hs he, stopsAt_of_arrive hps hf he', htwice⟩

theorem operate_fuse {outer inner : Layer E K V} {s f : Multimap d E K V}
    (h : SimR outer inner s f) (o : Operation E K V) (ho : o.IsLayerwise) :
    ResultsAgree (outer.fuse inner) s f o.puts (s.operate o).result (f.operate o).result ∧
      SimR outer inner (s.operate o).state (f.operate o).state := by
  obtain ⟨m, rfl, rfl⟩ := h
  cases o with
  | query q =>
    refine ⟨?_, m, rfl, rfl⟩
    cases q <;> rfl
  | put k v =>
    obtain ⟨hres, hst⟩ := m.put_fuse outer inner k v
    exact ⟨hres.map _, hst⟩
  | putValues k vs => exact ho.elim
  | putPairs ps =>
    cases ps with
    | none => exact ⟨.inl rfl, m, rfl, rfl⟩
    | some ps =>
      obtain ⟨hres, hst⟩ := m.putPairs_fuse outer inner ps
      exact ⟨hres.map _, hst⟩
  | putFrom other =>
    cases other with
    | none => exact ⟨.inl rfl, m, rfl, rfl⟩
    | some other =>
      obtain ⟨hres, hst⟩ := m.putPairs_fuse outer inner (Source.ofList other.mappings)
      rw [Source.items_ofList] at hres
      exact ⟨hres.map _, hst⟩
  | edit k es => exact ⟨rfl, m.withContent (m.content.edit k es).2, rfl, rfl⟩
  | remove k => exact ⟨rfl, m.withContent (m.content.remove k).2, rfl, rfl⟩
  | removeMapping k v => exact ⟨rfl, m.withContent (m.content.removeMapping k v).2, rfl, rfl⟩
  | clear => exact ⟨rfl, m.clear, rfl, rfl⟩
  | drain => exact ⟨rfl, m.clear, rfl, rfl⟩

theorem afterAll_fuse {outer inner : Layer E K V} {s f : Multimap d E K V}
    (h : SimR outer inner s f) (os : List (Operation E K V)) (hos : ∀ o ∈ os, o.IsLayerwise) :
    SimR outer inner (s.afterAll os) (f.afterAll os) := by
  induction os generalizing s f with
  | nil => exact h
  | cons o os ih =>
    have hstep := operate_fuse h o (hos o (by simp))
    exact ih hstep.2 fun x hx => hos x (by simp [hx])

theorem runsAgree_of_simR {outer inner : Layer E K V} {s f : Multimap d E K V}
    (h : SimR outer inner s f) : RunsAgree (outer.fuse inner) s f := by
  intro os o hos ho
  obtain ⟨hres, hst⟩ := operate_fuse (afterAll_fuse h os hos) o ho
  exact ⟨hres, hst.content_eq⟩

/-- **Two layers do the same as one.** No run of operations tells them from the fused layer, and a
recast ends alike through both. -/
theorem layer_fusion [Logging E] (m : Multimap d E K V) (outer inner : Layer E K V) :
    RunsAgree (outer.fuse inner) ((m.under inner).under outer) (m.under (outer.fuse inner)) ∧
      match ((m.under inner).recast outer).value, (m.recast (outer.fuse inner)).value with
      | .ok s, .ok f => s.content = f.content ∧ RunsAgree (outer.fuse inner) s f
      | .error r, .error r' =>
        r.map.content = r'.map.content ∧
          ErrorsAgree (outer.fuse inner) ((m.clear.under inner).under outer)
            (m.clear.under (outer.fuse inner)) (flatten m.drain.1) r.error r'.error
      | _, _ => False := by
  refine ⟨runsAgree_of_simR ⟨m, rfl, rfl⟩, ?_⟩
  cases hempty : m.isEmpty with
  | true =>
    have hinner : (m.under inner).isEmpty = true := hempty
    rw [recast_of_isEmpty hinner, recast_of_isEmpty hempty]
    exact ⟨rfl, runsAgree_of_simR ⟨m, rfl, rfl⟩⟩
  | false =>
    have hinner : (m.under inner).isEmpty = false := hempty
    rw [recast_of_isEmpty_eq_false hinner, recast_of_isEmpty_eq_false hempty, Traced.value_after,
      Traced.value_after]
    have hclear : (m.under inner).clear.under outer = (m.clear.under inner).under outer := rfl
    have hdrain : (m.under inner).drain.1 = m.drain.1 := rfl
    rw [hclear, hdrain]
    rcases m.clear.arrive_fuse outer inner (flatten m.drain.1) with
      ⟨qs, hs, hf⟩ | ⟨before, qs, p, rest, e, e', hps, hs, hf, he, he', hor⟩
    · rw [reinsert_of_arrive hs, reinsert_of_arrive hf]
      exact ⟨by simp [under], runsAgree_of_simR ⟨m.clear.withContent _, rfl, rfl⟩⟩
    · rw [reinsert_of_error hps hs he, reinsert_of_error hps hf he']
      refine ⟨by simp [under, refill, unwrap, withContent], ?_⟩
      rcases hor with rfl | htwice
      · exact .inl rfl
      · exact .inr ⟨_, _, _, stopsAt_of_arrive hps hs he, stopsAt_of_arrive hps hf he', htwice⟩

end Multimap

end LayeredMultimap
