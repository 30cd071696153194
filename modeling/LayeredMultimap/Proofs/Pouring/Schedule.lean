import LayeredMultimap.Proofs.Calls
import LayeredMultimap.Proofs.Filling

/-!
# The schedule of values for a key

To add values under a key is to draw them one at a time. Behind the first draw the key is
transformed, and each value is transformed and added before the next one is drawn.
`Layer.schedule` lists all draws and calls in this order; what can be seen of an addition is its
schedule up to the first call that fails (`putValues_follows`), and the values that are added are
those that have come out of it (`putValues_state_eq`).
-/

namespace LayeredMultimap

variable {d : Discipline} {E K V : Type}

/-- Why an attempt failed, if it did. -/
def Attempt.failure? {α : Type} (x : Attempt E α) : Option TransformFailure :=
  match x.result with
  | .ok _ => none
  | .error e => some e

/-! ## Moments -/

/-- One thing that happens while values are added under a key: a value is drawn, or a transformer is
called on the key or on a value. -/
inductive Moment (E K V : Type) where
  | draw (s : Traced E V)
  | key (t : Transformer E K) (k : K)
  | value (t : Transformer E V) (v : V)

namespace Moment

/-- The value that is drawn. -/
def drawn? : Moment E K V → Option V
  | .draw s => some s.value
  | _ => none

/-- The key that a transformer is called on. -/
def keyInput? : Moment E K V → Option K
  | .key _ k => some k
  | _ => none

/-- The value that a transformer is called on. -/
def valueInput? : Moment E K V → Option V
  | .value _ v => some v
  | _ => none

variable [DecidableEq K] [DecidableEq V]

/-- The value that comes out of a call. -/
def output? : Moment E K V → Option V
  | .value t v => (t.run v).result.toOption
  | _ => none

def trace : Moment E K V → List E
  | .draw s => s.trace
  | .key t k => (t.run k).trace
  | .value t v => (t.run v).trace

/-- Why a call fails, if it does. Draws do not fail. -/
def failure? : Moment E K V → Option TransformFailure
  | .draw _ => none
  | .key t k => (t.run k).failure?
  | .value t v => (t.run v).failure?

/-- The moments up to the first call that fails, which is the last one. -/
def untilFailure : List (Moment E K V) → List (Moment E K V)
  | [] => []
  | a :: r =>
    a :: match a.failure? with
      | none => untilFailure r
      | some _ => []

variable {as : List (Moment E K V)}

theorem untilFailure_cons_of_none {a : Moment E K V} (h : a.failure? = none)
    (r : List (Moment E K V)) : untilFailure (a :: r) = a :: untilFailure r := by
  simp only [untilFailure, h]

theorem untilFailure_cons_of_some {a : Moment E K V} {t : TransformFailure}
    (h : a.failure? = some t) (r : List (Moment E K V)) : untilFailure (a :: r) = [a] := by
  simp only [untilFailure, h]

theorem untilFailure_prefix (as : List (Moment E K V)) : untilFailure as <+: as := by
  induction as with
  | nil => exact List.prefix_rfl
  | cons a r ih =>
    cases h : a.failure? with
    | none =>
      rw [untilFailure_cons_of_none h]
      exact (List.prefix_cons_inj a).2 ih
    | some t =>
      rw [untilFailure_cons_of_some h]
      exact (List.prefix_cons_inj a).2 List.nil_prefix

theorem untilFailure_append_of_none (h : as.findSome? failure? = none)
    (bs : List (Moment E K V)) : untilFailure (as ++ bs) = as ++ untilFailure bs := by
  induction as with
  | nil => rfl
  | cons a r ih =>
    rw [List.findSome?_cons] at h
    cases ha : a.failure? with
    | none =>
      rw [ha] at h
      rw [List.cons_append, untilFailure_cons_of_none ha, ih h, List.cons_append]
    | some t =>
      rw [ha] at h
      cases h

theorem untilFailure_of_none (h : as.findSome? failure? = none) : untilFailure as = as := by
  have happend := untilFailure_append_of_none h []
  rwa [List.append_nil, untilFailure, List.append_nil] at happend

theorem untilFailure_append_of_some {t : TransformFailure} (h : as.findSome? failure? = some t)
    (bs : List (Moment E K V)) : untilFailure (as ++ bs) = untilFailure as := by
  induction as with
  | nil => cases h
  | cons a r ih =>
    rw [List.findSome?_cons] at h
    cases ha : a.failure? with
    | none =>
      rw [ha] at h
      rw [List.cons_append, untilFailure_cons_of_none ha, untilFailure_cons_of_none ha, ih h]
    | some t => rw [List.cons_append, untilFailure_cons_of_some ha, untilFailure_cons_of_some ha]

theorem untilFailure_of_some {t : TransformFailure} (h : as.findSome? failure? = some t) :
    ∃ before a, untilFailure as = before ++ [a] ∧ (∀ b ∈ before, b.failure? = none) ∧
      a.failure? = some t := by
  obtain ⟨before, a, rest, rfl, ha, hbefore⟩ := List.findSome?_eq_some_iff.1 h
  refine ⟨before, a, ?_, hbefore, ha⟩
  rw [untilFailure_append_of_none (List.findSome?_eq_none_iff.2 hbefore),
    untilFailure_cons_of_some ha]

end Moment

/-! ## Schedules -/

namespace Layer

/-- The call of the key transformer, if there is one. -/
def keyCalls (l : Layer E K V) (k : K) : List (Moment E K V) := l.key.toList.map (.key · k)

/-- The call of the value transformer, if there is one. -/
def valueCalls (l : Layer E K V) (v : V) : List (Moment E K V) := l.value.toList.map (.value · v)

/-- A value is drawn and then transformed. -/
def turn (l : Layer E K V) (s : Traced E V) : List (Moment E K V) :=
  .draw s :: l.valueCalls s.value

/-- All that happens to a key and its values as long as no call fails. The key has to wait for the
first draw, so that nothing happens where there is no value. -/
def schedule (l : Layer E K V) (k : K) : Source E V → List (Moment E K V)
  | [] => []
  | s :: r => .draw s :: (l.keyCalls k ++ (l.valueCalls s.value ++ r.flatMap l.turn))

variable [DecidableEq K] [DecidableEq V]

/-- What happens of the schedule: all of it, or the moments up to the first call that fails. -/
def course (l : Layer E K V) (k : K) (vs : Source E V) : List (Moment E K V) :=
  Moment.untilFailure (l.schedule k vs)

/-- The values that have come out of a schedule. Without a transformer they are the drawn ones. -/
def obtained (l : Layer E K V) (as : List (Moment E K V)) : List V :=
  match l.value with
  | none => as.filterMap Moment.drawn?
  | some _ => as.filterMap Moment.output?

/-! ### Calls -/

theorem trace_keyCalls (l : Layer E K V) (k : K) :
    (l.keyCalls k).flatMap Moment.trace = (l.passKey k).trace := by
  rw [keyCalls, passKey]
  cases l.key with
  | none => rfl
  | some t => exact List.flatMap_singleton Moment.trace (.key t k)

theorem failure?_keyCalls (l : Layer E K V) (k : K) :
    (l.keyCalls k).findSome? Moment.failure? = (l.passKey k).failure? := by
  rw [keyCalls, passKey]
  cases l.key with
  | none => rfl
  | some t => exact List.findSome?_singleton

theorem trace_valueCalls (l : Layer E K V) (v : V) :
    (l.valueCalls v).flatMap Moment.trace = (l.passValue v).trace := by
  rw [valueCalls, passValue]
  cases l.value with
  | none => rfl
  | some t => exact List.flatMap_singleton Moment.trace (.value t v)

theorem failure?_valueCalls (l : Layer E K V) (v : V) :
    (l.valueCalls v).findSome? Moment.failure? = (l.passValue v).failure? := by
  rw [valueCalls, passValue]
  cases l.value with
  | none => rfl
  | some t => exact List.findSome?_singleton

/-! ### Turns -/

theorem trace_turn (l : Layer E K V) (s : Traced E V) :
    (l.turn s).flatMap Moment.trace = s.trace ++ (l.passValue s.value).trace := by
  rw [turn, List.flatMap_cons, trace_valueCalls]
  rfl

theorem failure?_turn (l : Layer E K V) (s : Traced E V) :
    (l.turn s).findSome? Moment.failure? = (l.passValue s.value).failure? := by
  rw [turn, List.findSome?_cons]
  exact l.failure?_valueCalls s.value

/-- A turn has one call at most, so that all of it happens. -/
theorem untilFailure_turn (l : Layer E K V) (s : Traced E V) :
    Moment.untilFailure (l.turn s) = l.turn s := by
  rw [turn, valueCalls, Moment.untilFailure_cons_of_none rfl]
  cases l.value with
  | none => rfl
  | some t =>
    cases h : (Moment.value t s.value : Moment E K V).failure? with
    | none => exact congrArg _ (Moment.untilFailure_cons_of_none h [])
    | some e => exact congrArg _ (Moment.untilFailure_cons_of_some h [])

omit [DecidableEq K] in
theorem obtained_append (l : Layer E K V) (as bs : List (Moment E K V)) :
    l.obtained (as ++ bs) = l.obtained as ++ l.obtained bs := by
  rw [obtained, obtained, obtained]
  cases l.value with
  | none => exact List.filterMap_append
  | some t => exact List.filterMap_append

omit [DecidableEq K] in
theorem obtained_turn (l : Layer E K V) (s : Traced E V) :
    l.obtained (l.turn s) = (l.passValue s.value).result.toOption.toList := by
  rw [obtained, turn, valueCalls, passValue]
  cases l.value with
  | none => rfl
  | some t =>
    show List.filterMap Moment.output? [.draw s, .value t s.value] = _
    rw [List.filterMap_cons_none rfl, List.filterMap_cons]
    cases h : (t.run s.value).result with
    | ok w => simp [Moment.output?, Transformer.run?, h, Except.toOption]
    | error e => simp [Moment.output?, Transformer.run?, h, Except.toOption]

/-! ### Sources -/

omit [DecidableEq K] [DecidableEq V] in
theorem drawn_valueCalls (l : Layer E K V) (v : V) :
    (l.valueCalls v).filterMap Moment.drawn? = [] := by
  rw [valueCalls]
  cases l.value <;> rfl

omit [DecidableEq K] [DecidableEq V] in
theorem drawn_turns (l : Layer E K V) (src : Source E V) :
    (src.flatMap l.turn).filterMap Moment.drawn? = src.items := by
  induction src with
  | nil => rfl
  | cons s r ih =>
    have hdraw : (Moment.draw s : Moment E K V).drawn? = some s.value := rfl
    rw [List.flatMap_cons, List.filterMap_append, turn, List.filterMap_cons_some hdraw,
      drawn_valueCalls, ih]
    rfl

omit [DecidableEq K] [DecidableEq V] in
theorem valueInputs_turn (l : Layer E K V) (s : Traced E V) :
    (l.turn s).filterMap Moment.valueInput? =
      if l.value.isSome then (l.turn s).filterMap Moment.drawn? else [] := by
  rw [turn, valueCalls]
  cases l.value <;> rfl

theorem untilFailure_turns_cons (l : Layer E K V) (s : Traced E V) (r : Source E V) :
    Moment.untilFailure ((s :: r).flatMap l.turn) =
      l.turn s ++ if (l.passValue s.value).failure?.isNone
        then Moment.untilFailure (r.flatMap l.turn) else [] := by
  have hturn := l.failure?_turn s
  rw [List.flatMap_cons]
  cases h : (l.passValue s.value).failure? with
  | none =>
    rw [h] at hturn
    exact Moment.untilFailure_append_of_none hturn _
  | some t =>
    rw [h] at hturn
    rw [Moment.untilFailure_append_of_some hturn, untilFailure_turn]
    exact (List.append_nil _).symm

theorem valueInputs_turns (l : Layer E K V) (src : Source E V) :
    (Moment.untilFailure (src.flatMap l.turn)).filterMap Moment.valueInput? =
      if l.value.isSome then (Moment.untilFailure (src.flatMap l.turn)).filterMap Moment.drawn?
      else [] := by
  induction src with
  | nil => simp [Moment.untilFailure]
  | cons s r ih =>
    rw [untilFailure_turns_cons, List.filterMap_append, List.filterMap_append, valueInputs_turn]
    cases (l.passValue s.value).failure?.isNone with
    | true =>
      simp only [if_true, ih]
      cases l.value.isSome <;> rfl
    | false => cases l.value.isSome <;> rfl

theorem items_through (l : Layer E K V) (src : Source E V) :
    (Source.through l.passValue src).1.items =
      l.obtained (Moment.untilFailure (src.flatMap l.turn)) := by
  induction src with
  | nil =>
    rw [obtained]
    cases l.value <;> rfl
  | cons s r ih =>
    rw [untilFailure_turns_cons, obtained_append, obtained_turn]
    cases h : (l.passValue s.value).result with
    | ok w =>
      have hfine : (l.passValue s.value).failure? = none := by rw [Attempt.failure?, h]
      rw [Source.through_cons_of_ok h, hfine]
      exact congrArg (w :: ·) ih
    | error e =>
      have hstop : (l.passValue s.value).failure? = some e := by rw [Attempt.failure?, h]
      rw [Source.through_cons_of_error h, hstop, obtained]
      cases l.value <;> rfl

/-! ### A key and its values -/

theorem course_cons_of_ok {l : Layer E K V} {k k' : K} (h : (l.passKey k).result = .ok k')
    (s : Traced E V) (r : Source E V) :
    l.course k (s :: r) = .draw s :: (l.keyCalls k ++
      Moment.untilFailure (l.valueCalls s.value ++ r.flatMap l.turn)) := by
  have hkey : (l.keyCalls k).findSome? Moment.failure? = none := by
    rw [failure?_keyCalls, Attempt.failure?, h]
  rw [course, schedule, Moment.untilFailure_cons_of_none rfl,
    Moment.untilFailure_append_of_none hkey]

theorem course_cons_of_error {l : Layer E K V} {k : K} {t : TransformFailure}
    (h : (l.passKey k).result = .error t) (s : Traced E V) (r : Source E V) :
    l.course k (s :: r) = .draw s :: l.keyCalls k := by
  have hkey : (l.keyCalls k).findSome? Moment.failure? = some t := by
    rw [failure?_keyCalls, Attempt.failure?, h]
  have hall : Moment.untilFailure (l.keyCalls k) = l.keyCalls k := by
    rw [keyCalls] at hkey ⊢
    cases hl : l.key with
    | none => rfl
    | some f =>
      rw [hl] at hkey
      exact Moment.untilFailure_cons_of_some (by simpa using hkey) []
  rw [course, schedule, Moment.untilFailure_cons_of_none rfl,
    Moment.untilFailure_append_of_some hkey, hall]

/-- Where neither the calls of keys nor the events of a draw count, a course is the turns of its
values. -/
theorem filterMap_course_cons_of_ok {β : Type} {f : Moment E K V → Option β}
    (hkey : ∀ t k, f (.key t k) = none) (hdraw : ∀ s, f (.draw s) = f (.draw (pure s.value)))
    {l : Layer E K V} {k k' : K} (h : (l.passKey k).result = .ok k') (s : Traced E V)
    (r : Source E V) :
    (l.course k (s :: r)).filterMap f =
      (Moment.untilFailure ((pure s.value :: r : Source E V).flatMap l.turn)).filterMap f := by
  have hcalls : (l.keyCalls k).filterMap f = [] := by
    rw [keyCalls]
    cases l.key with
    | none => rfl
    | some t => exact List.filterMap_cons_none (hkey t k)
  have hturns : Moment.untilFailure ((pure s.value :: r : Source E V).flatMap l.turn) =
      .draw (pure s.value) ::
        Moment.untilFailure (l.valueCalls s.value ++ r.flatMap l.turn) := rfl
  rw [course_cons_of_ok h, hturns, List.filterMap_cons, List.filterMap_cons, List.filterMap_append,
    hcalls, List.nil_append, hdraw s]

theorem obtained_course_cons_of_ok {l : Layer E K V} {k k' : K} (h : (l.passKey k).result = .ok k')
    (s : Traced E V) (r : Source E V) :
    l.obtained (l.course k (s :: r)) =
      l.obtained (Moment.untilFailure ((pure s.value :: r : Source E V).flatMap l.turn)) := by
  rw [obtained, obtained]
  cases l.value with
  | none => exact filterMap_course_cons_of_ok (fun _ _ => rfl) (fun _ => rfl) h s r
  | some t => exact filterMap_course_cons_of_ok (fun _ _ => rfl) (fun _ => rfl) h s r

theorem valueInputs_course_of_ok {l : Layer E K V} {k k' : K} (h : (l.passKey k).result = .ok k')
    (vs : Source E V) : (l.course k vs).filterMap Moment.valueInput? =
      if l.value.isSome then (l.course k vs).filterMap Moment.drawn? else [] := by
  cases vs with
  | nil => exact l.valueInputs_turns []
  | cons s r =>
    rw [filterMap_course_cons_of_ok (fun _ _ => rfl) (fun _ => rfl) h,
      filterMap_course_cons_of_ok (fun _ _ => rfl) (fun _ => rfl) h, valueInputs_turns]

theorem keyInputs_course (l : Layer E K V) (k : K) (vs : Source E V) :
    (l.course k vs).filterMap Moment.keyInput? =
      if vs.isEmpty then [] else l.key.toList.map fun _ => k := by
  cases vs with
  | nil => rfl
  | cons s r =>
    have hdraw : (Moment.draw s : Moment E K V).keyInput? = none := rfl
    have hcalls : (l.keyCalls k).filterMap Moment.keyInput? = l.key.toList.map fun _ => k := by
      rw [keyCalls]
      cases l.key <;> rfl
    cases h : (l.passKey k).result with
    | error t =>
      rw [course_cons_of_error h, List.filterMap_cons_none hdraw, hcalls]
      rfl
    | ok k' =>
      have hvalues : (Moment.untilFailure (l.valueCalls s.value ++ r.flatMap l.turn)).filterMap
          Moment.keyInput? = [] := by
        rw [List.filterMap_eq_nil_iff]
        intro a ha
        have hmem := (Moment.untilFailure_prefix _).subset ha
        simp only [turn, valueCalls, List.mem_append, List.mem_flatMap, List.mem_cons,
          List.mem_map] at hmem
        rcases hmem with ⟨t, -, rfl⟩ | ⟨x, -, rfl | ⟨t, -, rfl⟩⟩ <;> rfl
      rw [course_cons_of_ok h, List.filterMap_cons_none hdraw, List.filterMap_append, hcalls,
        hvalues, List.append_nil]
      rfl

theorem drawn_course_prefix (l : Layer E K V) (k : K) (vs : Source E V) :
    (l.course k vs).filterMap Moment.drawn? <+: vs.items := by
  have hall : (l.schedule k vs).filterMap Moment.drawn? = vs.items := by
    cases vs with
    | nil => rfl
    | cons s r =>
      have hdraw : (Moment.draw s : Moment E K V).drawn? = some s.value := rfl
      have hkey : (l.keyCalls k).filterMap Moment.drawn? = [] := by
        rw [keyCalls]
        cases l.key <;> rfl
      rw [schedule, List.filterMap_cons_some hdraw, List.filterMap_append, List.filterMap_append,
        hkey, drawn_valueCalls, drawn_turns]
      rfl
  rw [← hall]
  exact (Moment.untilFailure_prefix _).filterMap _

end Layer

/-! ## Pouring -/

variable [DecidableEq K] [DecidableEq V]

/-- The schedule decides what is seen of an outcome: its moments up to the first failure, and that
failure as the error. -/
structure Outcome.Follows {σ α : Type} (o : Outcome σ E α) (as : List (Moment E K V)) : Prop where
  trace : o.trace = (Moment.untilFailure as).flatMap Moment.trace
  error_iff : ∀ e, o.result = .error e ↔
    ∃ t, as.findSome? Moment.failure? = some t ∧ .transform t = e

variable [Ord K] [Ord V]

theorem Content.pour_follows (c : Content d K V) (l : Layer E K V) (k : K) (src : Source E V) :
    (c.pour l.passValue k src).Follows (src.flatMap l.turn) := by
  induction src generalizing c with
  | nil => exact ⟨rfl, fun e => by simp [pour, Outcome.ok]⟩
  | cons s r ih =>
    have hturn := l.failure?_turn s
    cases h : (l.passValue s.value).result with
    | ok w =>
      have hfine : (l.passValue s.value).failure? = none := by rw [Attempt.failure?, h]
      obtain ⟨htrace, herror⟩ := ih (c.add k w).2
      rw [Content.pour_cons_of_ok h]
      refine ⟨?_, fun e => ?_⟩
      · rw [Layer.untilFailure_turns_cons, hfine, List.flatMap_append, Layer.trace_turn]
        simp only [Outcome.trace_after, Outcome.trace_map, htrace, List.append_assoc]
        rfl
      · rw [List.flatMap_cons, List.findSome?_append, hturn, hfine, Option.none_or, ← herror]
        simp only [Outcome.result_after, Outcome.result_map]
        cases ((c.add k w).2.pour l.passValue k r).result with
        | ok b => simp [Except.map]
        | error e' => simp [Except.map]
    | error t =>
      have hstop : (l.passValue s.value).failure? = some t := by rw [Attempt.failure?, h]
      rw [Content.pour_cons_of_error h]
      refine ⟨?_, fun e => ?_⟩
      · rw [Layer.untilFailure_turns_cons, hstop, List.flatMap_append, Layer.trace_turn]
        exact (List.append_nil _).symm
      · rw [List.flatMap_cons, List.findSome?_append, hturn, hstop]
        simp

namespace Multimap

theorem putValues_follows (m : Multimap d E K V) (k : K) (vs : Source E V) :
    (m.putValues k vs).Follows (m.outer.schedule k vs) := by
  cases vs with
  | nil => exact ⟨rfl, fun e => by simp [putValues, Outcome.ok, Layer.schedule]⟩
  | cons s r =>
    have hkeys := m.outer.failure?_keyCalls k
    cases h : (m.outer.passKey k).result with
    | error t =>
      have hstop : (m.outer.passKey k).failure? = some t := by rw [Attempt.failure?, h]
      rw [putValues_cons_of_error h]
      refine ⟨?_, fun e => ?_⟩
      · have hcourse := Layer.course_cons_of_error h s r
        rw [Layer.course] at hcourse
        rw [hcourse, List.flatMap_cons, Layer.trace_keyCalls]
        rfl
      · rw [Layer.schedule, List.findSome?_cons_of_isNone rfl, List.findSome?_append, hkeys, hstop]
        simp
    | ok k' =>
      have hfine : (m.outer.passKey k).failure? = none := by rw [Attempt.failure?, h]
      obtain ⟨htrace, herror⟩ := m.content.pour_follows m.outer k' (pure s.value :: r)
      rw [putValues_cons_of_ok h]
      refine ⟨?_, fun e => ?_⟩
      · have hcourse := Layer.course_cons_of_ok h s r
        rw [Layer.course] at hcourse
        rw [hcourse, List.flatMap_cons, List.flatMap_append, Layer.trace_keyCalls,
          ← List.append_assoc]
        exact congrArg (s.trace ++ (m.outer.passKey k).trace ++ ·) htrace
      · rw [Layer.schedule, List.findSome?_cons_of_isNone rfl, List.findSome?_append, hkeys, hfine,
          Option.none_or]
        exact herror e

/-- What is added are the values that have come out of the course. -/
theorem putValues_state_eq {m : Multimap d E K V} {k k' : K}
    (h : (m.outer.passKey k).result = .ok k') (vs : Source E V) :
    (m.putValues k vs).state =
      m.withContent (m.content.extend ((m.outer.obtained (m.outer.course k vs)).map (k', ·))) := by
  cases vs with
  | nil =>
    have hnone : m.outer.obtained (m.outer.course k []) = [] := by
      rw [Layer.obtained]
      cases m.outer.value <;> rfl
    rw [hnone]
    exact (withContent_content m).symm
  | cons s r =>
    have hpour := m.content.pour_state_eq m.outer.passValue k' (pure s.value :: r)
    rw [Layer.items_through, ← Layer.obtained_course_cons_of_ok h] at hpour
    rw [putValues_cons_of_ok h]
    exact congrArg m.withContent hpour

theorem toList_bag_putValues [Std.LawfulEqOrd K] [Std.TransOrd V] [Std.LawfulEqOrd V]
    {m : Multimap d E K V} {k k' : K} (h : (m.outer.passKey k).result = .ok k')
    (hb : (m.content.bag k').Lawful) (vs : Source E V) :
    ((m.putValues k vs).state.content.bag k').toList =
      collected d ((m.content.bag k').toList ++ m.outer.obtained (m.outer.course k vs)) := by
  rw [putValues_state_eq h, content_withContent, Content.bag_extend, Flat.valuesOf_map_self,
    Bag.toList_addAll hb]

theorem bag_putValues_of_ne [Std.LawfulEqOrd K] {m : Multimap d E K V} {k k' l : K}
    (h : (m.outer.passKey k).result = .ok k') (hl : l ≠ k') (vs : Source E V) :
    (m.putValues k vs).state.content.bag l = m.content.bag l := by
  rw [putValues_state_eq h, content_withContent, Content.bag_extend,
    Flat.valuesOf_map_of_ne (Ne.symm hl)]
  rfl

theorem putValues_of_key_error {m : Multimap d E K V} {k : K} {e : TransformFailure}
    (h : (m.outer.passKey k).result = .error e) (vs : Source E V) :
    (m.putValues k vs).state = m ∧
      (m.outer.course k vs).filterMap Moment.drawn? = vs.items.take 1 ∧
      (m.outer.course k vs).filterMap Moment.valueInput? = [] := by
  cases vs with
  | nil => exact ⟨rfl, rfl, rfl⟩
  | cons s r =>
    have hkey : ∀ a ∈ m.outer.keyCalls k, a.drawn? = none ∧ a.valueInput? = none := by
      intro a ha
      obtain ⟨t, -, rfl⟩ := List.mem_map.1 ha
      exact ⟨rfl, rfl⟩
    rw [Layer.course_cons_of_error h, putValues_cons_of_error h, List.filterMap_cons,
      List.filterMap_cons,
      List.filterMap_eq_nil_iff.2 fun a ha => (hkey a ha).1,
      List.filterMap_eq_nil_iff.2 fun a ha => (hkey a ha).2]
    exact ⟨rfl, rfl, rfl⟩

/-- How an addition of values under the key `k` goes: its schedule up to the first call that fails,
what is called and drawn until then, and what is added. -/
structure AddsOnSchedule (m : Multimap d E K V) (k : K) (vs : Source E V)
    (o : Outcome (Multimap d E K V) E Bool) : Prop where
  events : o.trace = (m.outer.course k vs).flatMap Moment.trace
  through : ∀ b, o.result = .ok b → m.outer.course k vs = m.outer.schedule k vs ∧
    ∀ a ∈ m.outer.schedule k vs, a.failure? = none
  stop : ∀ e, o.result = .error e → ∃ before a t, m.outer.course k vs = before ++ [a] ∧
    (∀ b ∈ before, b.failure? = none) ∧ a.failure? = some t ∧ e = .transform t
  draws : (m.outer.course k vs).filterMap Moment.drawn? <+: vs.items
  key_once : (m.outer.course k vs).filterMap Moment.keyInput? =
    if vs.isEmpty then [] else m.outer.key.toList.map fun _ => k
  key_stop : ∀ e, (m.outer.passKey k).result = .error e → o.state = m ∧
    (m.outer.course k vs).filterMap Moment.drawn? = vs.items.take 1 ∧
    (m.outer.course k vs).filterMap Moment.valueInput? = []
  values_once : ∀ k', (m.outer.passKey k).result = .ok k' →
    (m.outer.course k vs).filterMap Moment.valueInput? =
      if m.outer.value.isSome then (m.outer.course k vs).filterMap Moment.drawn? else []
  added : ∀ k', (m.outer.passKey k).result = .ok k' → o.state =
    m.withContent (m.content.extend ((m.outer.obtained (m.outer.course k vs)).map (k', ·)))
  listed [Std.LawfulEqOrd K] [Std.TransOrd V] [Std.LawfulEqOrd V] : ∀ k',
    (m.outer.passKey k).result = .ok k' → (m.content.bag k').Lawful →
      (o.state.content.bag k').toList =
        collected d ((m.content.bag k').toList ++ m.outer.obtained (m.outer.course k vs))
  others [Std.LawfulEqOrd K] : ∀ k' l, (m.outer.passKey k).result = .ok k' → l ≠ k' →
    o.state.content.bag l = m.content.bag l

/-- **Values are drawn, transformed and added one at a time**, and what came out before a failure
stays. -/
theorem values_on_schedule (m : Multimap d E K V) (k : K) (vs : Source E V) :
    m.AddsOnSchedule k vs (m.putValues k vs) ∧ m.putValues k [] = .ok false m := by
  have hfollows := m.putValues_follows k vs
  refine ⟨⟨hfollows.trace, ?_, ?_, m.outer.drawn_course_prefix k vs, m.outer.keyInputs_course k vs,
    ?_, ?_, ?_, ?_, ?_⟩, rfl⟩
  · intro b hb
    cases hfail : (m.outer.schedule k vs).findSome? Moment.failure? with
    | none => exact ⟨Moment.untilFailure_of_none hfail, List.findSome?_eq_none_iff.1 hfail⟩
    | some t =>
      have herror := (hfollows.error_iff _).2 ⟨t, hfail, rfl⟩
      rw [hb] at herror
      cases herror
  · intro e he
    obtain ⟨t, hfail, rfl⟩ := (hfollows.error_iff e).1 he
    obtain ⟨before, a, hcourse, hbefore, ha⟩ := Moment.untilFailure_of_some hfail
    exact ⟨before, a, t, hcourse, hbefore, ha, rfl⟩
  · intro e he
    exact putValues_of_key_error he vs
  · intro k' hk
    exact Layer.valueInputs_course_of_ok hk vs
  · intro k' hk
    exact putValues_state_eq hk vs
  · intro _ _ _ k' hk hb
    exact toList_bag_putValues hk hb vs
  · intro _ k' l hk hl
    exact bag_putValues_of_ne hk hl vs

/-- The second of three values is too large: it is drawn and transformed, and the third is left. -/
example : ((told.under (telling "outer")).putValues 7
    (Source.noted (fun v => .drew (.int (.ofNat v))) [1, 6, 2])).trace =
      [.drew (.int 1), .called "outer key" (some (.int 7)), .called "outer value" (some (.int 1)),
        .drew (.int 6), .called "outer value" (some (.int 6))] := rfl

end Multimap

end LayeredMultimap
