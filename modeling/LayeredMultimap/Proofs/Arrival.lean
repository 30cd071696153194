import LayeredMultimap.Multimap.Bulk

/-!
# What a put comes to

`arrival` follows a mapping through the layers of a multimap to its base: it is the mapping that the
base stores, or the error that stops the put. It hangs on the layers and on the refusal rule, not on
the content (`arrival_withContent`), and a put stores what arrives and changes nothing else
(`put_of_arrival_ok`, `put_of_arrival_error`).
-/

namespace LayeredMultimap

theorem Attempt.result_bind {E α β : Type} (x : Attempt E α) (f : α → Attempt E β) :
    (x >>= f).result = x.result.bind fun a => (f a).result := by
  have hrun : (x >>= f).run = x.run >>= ExceptT.bindCont f := rfl
  rw [result, hrun, Traced.value_bind]
  cases h : x.run.value with
  | ok a => simp only [ExceptT.bindCont, result, h, Except.bind]; rfl
  | error e => simp only [ExceptT.bindCont, result, h, Except.bind]; rfl

variable {d : Discipline} {E K V : Type} [DecidableEq K] [DecidableEq V]

theorem Layer.pass_of_key_error {l : Layer E K V} {k : K} {e : TransformFailure}
    (h : (l.passKey k).result = .error e) (v : V) : (l.pass k v).result = .error e := by
  rw [pass, Attempt.result_bind, h]
  rfl

theorem Layer.pass_of_key_ok {l : Layer E K V} {k k' : K} (h : (l.passKey k).result = .ok k')
    (v : V) : (l.pass k v).result = (l.passValue v).result.map (k', ·) := by
  rw [pass, Attempt.result_bind, h]
  show (l.passValue v >>= fun v => pure (k', v)).result = _
  rw [Attempt.result_bind]
  rfl

namespace Multimap

/-- The mapping that reaches the base when `(k, v)` is put, or the error that stops it before. -/
def arrival : Multimap d E K V → K → V → Traced E (Except MapError (K × V))
  | .base b, k, v =>
    let asked := b.refusal k v
    ⟨asked.trace, match asked.value with
      | some cause => .error (.rejected cause)
      | none => .ok (k, v)⟩
  | .layered l m, k, v =>
    let passed := l.pass k v
    match passed.result with
    | .ok p => (m.arrival p.1 p.2).after passed.trace
    | .error e => ⟨passed.trace, .error (.transform e)⟩

theorem arrival_layered_of_ok {l : Layer E K V} {k : K} {v : V} {p : K × V}
    (h : (l.pass k v).result = .ok p) (m : Multimap d E K V) :
    (layered l m).arrival k v = (m.arrival p.1 p.2).after (l.pass k v).trace := by
  simp only [arrival, h]

theorem arrival_layered_of_error {l : Layer E K V} {k : K} {v : V} {e : TransformFailure}
    (h : (l.pass k v).result = .error e) (m : Multimap d E K V) :
    (layered l m).arrival k v = ⟨(l.pass k v).trace, .error (.transform e)⟩ := by
  simp only [arrival, h]

/-! ## Through one layer -/

theorem arrival_of_key_error {l : Layer E K V} {k : K} {e : TransformFailure}
    (h : (l.passKey k).result = .error e) (v : V) (m : Multimap d E K V) :
    ((layered l m).arrival k v).value = .error (.transform e) := by
  rw [arrival_layered_of_error (Layer.pass_of_key_error h v)]

theorem arrival_of_value_error {l : Layer E K V} {k k' : K} {v : V} {e : TransformFailure}
    (hk : (l.passKey k).result = .ok k') (hv : (l.passValue v).result = .error e)
    (m : Multimap d E K V) : ((layered l m).arrival k v).value = .error (.transform e) := by
  have hl : (l.pass k v).result = .error e := by
    rw [Layer.pass_of_key_ok hk, hv]
    rfl
  rw [arrival_layered_of_error hl]

theorem arrival_of_pass {l : Layer E K V} {k k' : K} {v v' : V}
    (hk : (l.passKey k).result = .ok k') (hv : (l.passValue v).result = .ok v')
    (m : Multimap d E K V) : ((layered l m).arrival k v).value = (m.arrival k' v').value := by
  have hl : (l.pass k v).result = .ok (k', v') := by
    rw [Layer.pass_of_key_ok hk, hv]
    rfl
  rw [arrival_layered_of_ok hl]
  rfl

/-! ## Puts -/

@[simp] theorem arrival_withContent (m : Multimap d E K V) (c : Content d K V) (k : K) (v : V) :
    (m.withContent c).arrival k v = m.arrival k v := by
  induction m generalizing k v with
  | base b => rfl
  | layered l m ih =>
    rw [withContent]
    cases h : (l.pass k v).result with
    | ok p => rw [arrival_layered_of_ok h, arrival_layered_of_ok h, ih]
    | error e => rw [arrival_layered_of_error h, arrival_layered_of_error h]

variable [Ord K] [Ord V]

theorem put_layered_of_ok {l : Layer E K V} {k : K} {v : V} {p : K × V}
    (h : (l.pass k v).result = .ok p) (m : Multimap d E K V) :
    (layered l m).put k v = ((m.put p.1 p.2).mapState (layered l)).after (l.pass k v).trace := by
  rw [put, Outcome.ofAttempt_andThen_of_ok h]

theorem put_layered_of_error {l : Layer E K V} {k : K} {v : V} {e : TransformFailure}
    (h : (l.pass k v).result = .error e) (m : Multimap d E K V) :
    (layered l m).put k v = ⟨.error (.transform e), layered l m, (l.pass k v).trace⟩ := by
  rw [put, Outcome.ofAttempt_andThen_of_error h]

theorem put_of_arrival_ok {m : Multimap d E K V} {k : K} {v : V} {p : K × V}
    (h : (m.arrival k v).value = .ok p) :
    m.put k v = ⟨.ok (m.content.add p.1 p.2).1, m.withContent (m.content.add p.1 p.2).2,
      (m.arrival k v).trace⟩ := by
  induction m generalizing k v with
  | base b =>
    rw [put, Base.put]
    cases hb : (b.refusal k v).value with
    | some cause => simp [arrival, hb] at h
    | none =>
      obtain rfl : (k, v) = p := by simpa [arrival, hb] using h
      rfl
  | layered l m ih =>
    cases hl : (l.pass k v).result with
    | ok q =>
      rw [arrival_layered_of_ok hl] at h ⊢
      rw [put_layered_of_ok hl, ih h]
      rfl
    | error e => rw [arrival_layered_of_error hl] at h; cases h

theorem put_of_arrival_error {m : Multimap d E K V} {k : K} {v : V} {e : MapError}
    (h : (m.arrival k v).value = .error e) : m.put k v = ⟨.error e, m, (m.arrival k v).trace⟩ := by
  induction m generalizing k v with
  | base b =>
    rw [put, Base.put]
    cases hb : (b.refusal k v).value with
    | some cause =>
      obtain rfl : MapError.rejected cause = e := by simpa [arrival, hb] using h
      simp [arrival, hb, Outcome.mapState]
    | none => simp [arrival, hb] at h
  | layered l m ih =>
    cases hl : (l.pass k v).result with
    | ok q =>
      rw [arrival_layered_of_ok hl] at h ⊢
      rw [put_layered_of_ok hl, ih h]
      rfl
    | error e' =>
      rw [arrival_layered_of_error hl] at h ⊢
      obtain rfl : MapError.transform e' = e := by simpa using h
      rw [put_layered_of_error hl]

theorem put_error_iff {m : Multimap d E K V} {k : K} {v : V} {e : MapError} :
    (m.put k v).result = .error e ↔ (m.arrival k v).value = .error e := by
  cases h : (m.arrival k v).value with
  | ok p => rw [put_of_arrival_ok h]; simp
  | error e' => rw [put_of_arrival_error h]; simp

end Multimap

end LayeredMultimap
