import LayeredMultimap.Proofs.Passage
import LayeredMultimap.Proofs.Stored
import LayeredMultimap.Value.Event

/-!
# Which calls happen

The transformers of the layers are stations on the way to the base, and a mapping that is put calls
at one after the other, as far as it gets (`passage_eq_foldlM`, `trace_foldlM_call`). So what can be
seen of a put are these calls and the question to the base, and what can be seen of a run of puts is
that, item by item, each behind its draw (`trace_putPairs`). A recast is such a run between two log
records (`trace_reinsert`).
-/

namespace LayeredMultimap

namespace Attempt

variable {E α β : Type} {x : Attempt E α}

theorem trace_bind_of_ok {a : α} (h : x.result = .ok a) (f : α → Attempt E β) :
    (x >>= f).trace = x.trace ++ (f a).trace := by
  have hbind := congrArg Outcome.trace (Outcome.ofAttempt_bind x f ())
  rwa [Outcome.ofAttempt_andThen_of_ok h] at hbind

theorem trace_bind_of_error {e : TransformFailure} (h : x.result = .error e)
    (f : α → Attempt E β) : (x >>= f).trace = x.trace := by
  have hbind := congrArg Outcome.trace (Outcome.ofAttempt_bind x f ())
  rwa [Outcome.ofAttempt_andThen_of_error h] at hbind

end Attempt

theorem Source.items_append_cons {E α : Type} (before : Source E α) (s : Traced E α)
    (rest : Source E α) :
    items (before ++ s :: rest) = before.items ++ s.value :: rest.items := List.map_append

variable {d : Discipline} {E K V : Type}

/-! ## Stations -/

/-- A transformer on the way of a mapping, with the side of the mapping that it is for. -/
inductive Station (E K V : Type) where
  | key (t : Transformer E K)
  | value (t : Transformer E V)

/-- The transformers that a layer has, in the order in which a mapping comes to them. -/
def Layer.stations (l : Layer E K V) : List (Station E K V) :=
  l.key.toList.map .key ++ l.value.toList.map .value

/-- One call: the station and the mapping as it is when it comes there. -/
structure Call (E K V : Type) where
  station : Station E K V
  input : K × V

variable [DecidableEq K] [DecidableEq V]

/-- Calls the transformer on its side of a mapping and keeps the other one. -/
def Station.call : Station E K V → K × V → Attempt E (K × V)
  | .key t, p => do
    let k ← t.run p.1
    pure (k, p.2)
  | .value t, p => do
    let v ← t.run p.2
    pure (p.1, v)

def Call.trace (c : Call E K V) : List E := (c.station.call c.input).trace

/-- The calls of a mapping on its way: every station is called on what the ones before it have made
of the mapping, and a call that fails is the last one. -/
def callsAt : List (Station E K V) → K × V → List (Call E K V)
  | [], _ => []
  | s :: r, p =>
    ⟨s, p⟩ :: match (s.call p).result with
      | .ok q => callsAt r q
      | .error _ => []

theorem callsAt_cons_of_ok {s : Station E K V} {p q : K × V} (h : (s.call p).result = .ok q)
    (r : List (Station E K V)) : callsAt (s :: r) p = ⟨s, p⟩ :: callsAt r q := by
  simp only [callsAt, h]

theorem callsAt_cons_of_error {s : Station E K V} {p : K × V} {e : TransformFailure}
    (h : (s.call p).result = .error e) (r : List (Station E K V)) :
    callsAt (s :: r) p = [⟨s, p⟩] := by
  simp only [callsAt, h]

theorem trace_foldlM_call (ss : List (Station E K V)) (p : K × V) :
    Attempt.trace (ss.foldlM (fun p s => s.call p) p) = (callsAt ss p).flatMap Call.trace := by
  induction ss generalizing p with
  | nil => rfl
  | cons s r ih =>
    rw [List.foldlM_cons]
    cases h : (s.call p).result with
    | ok q =>
      rw [Attempt.trace_bind_of_ok h, callsAt_cons_of_ok h, ih]
      rfl
    | error e =>
      rw [Attempt.trace_bind_of_error h, callsAt_cons_of_error h, List.flatMap_singleton]
      rfl

theorem stations_callsAt_of_ok {ss : List (Station E K V)} {p q : K × V}
    (h : Attempt.result (ss.foldlM (fun p s => s.call p) p) = .ok q) :
    (callsAt ss p).map Call.station = ss := by
  induction ss generalizing p with
  | nil => rfl
  | cons s r ih =>
    rw [List.foldlM_cons, Attempt.result_bind] at h
    cases hs : (s.call p).result with
    | ok q' =>
      rw [hs] at h
      rw [callsAt_cons_of_ok hs, List.map_cons, ih h]
    | error e =>
      rw [hs] at h
      cases h

/-! ## Layers -/

theorem Layer.pass_eq_foldlM (l : Layer E K V) (p : K × V) :
    l.pass p.1 p.2 = l.stations.foldlM (fun p s => s.call p) p := by
  obtain ⟨key, value⟩ := l
  cases key <;> cases value <;>
    simp [stations, pass, passKey, passValue, Transformer.run?, Station.call]

/-- The way through the layers is the way through their transformers. -/
theorem passage_eq_foldlM (ls : List (Layer E K V)) (p : K × V) :
    passage ls p.1 p.2 = (ls.flatMap Layer.stations).foldlM (fun p s => s.call p) p := by
  induction ls generalizing p with
  | nil => rfl
  | cons l ls ih =>
    rw [passage_cons, List.flatMap_cons, List.foldlM_append, Layer.pass_eq_foldlM]
    exact congrArg _ (funext ih)

/-! ## Puts -/

namespace Multimap

/-- The stations of a multimap, from the outermost layer to the innermost. -/
def stations (m : Multimap d E K V) : List (Station E K V) := m.layers.flatMap Layer.stations

/-- The calls of a mapping that is put. -/
def calls (m : Multimap d E K V) (p : K × V) : List (Call E K V) := callsAt m.stations p

/-- What is seen of a put: the calls and, for a mapping that gets through, what the base does to
decide on it. -/
def putEvents (m : Multimap d E K V) (p : K × V) : List E :=
  (m.calls p).flatMap Call.trace ++
    match (passage m.layers p.1 p.2).result with
    | .ok q => (m.root.refusal q.1 q.2).trace
    | .error _ => []

theorem trace_passage (m : Multimap d E K V) (p : K × V) :
    (passage m.layers p.1 p.2).trace = (m.calls p).flatMap Call.trace := by
  rw [passage_eq_foldlM]
  exact trace_foldlM_call m.stations p

theorem stations_calls_of_arrival {m : Multimap d E K V} {p q : K × V}
    (h : (m.arrival p.1 p.2).value = .ok q) : (m.calls p).map Call.station = m.stations := by
  have hq := passage_of_arrival_ok h
  rw [passage_eq_foldlM] at hq
  exact stations_callsAt_of_ok hq

@[simp] theorem putEvents_withContent (m : Multimap d E K V) (c : Content d K V) (p : K × V) :
    (m.withContent c).putEvents p = m.putEvents p := by
  simp only [putEvents, calls, stations, layers_withContent, root_withContent]

variable [Ord K] [Ord V]

theorem trace_put (m : Multimap d E K V) (p : K × V) :
    (m.put p.1 p.2).trace = m.putEvents p := by
  rw [put_eq_passage, Outcome.trace_mapState, putEvents, ← trace_passage]
  cases h : (passage m.layers p.1 p.2).result with
  | ok q =>
    have hasked : (m.root.put q.1 q.2).trace = (m.root.refusal q.1 q.2).trace := by
      rw [Base.put]
      cases (m.root.refusal q.1 q.2).value <;> rfl
    rw [Outcome.ofAttempt_andThen_of_ok h, Outcome.trace_after, hasked]
  | error e =>
    rw [Outcome.ofAttempt_andThen_of_error h]
    exact (List.append_nil _).symm

/-! ## Runs of puts -/

/-- The items of a source that a run of puts works on: those up to the first one that fails. -/
def tried (m : Multimap d E K V) : Source E (K × V) → Source E (K × V)
  | [] => []
  | s :: r =>
    s :: match (m.put s.value.1 s.value.2).result with
      | .ok _ => m.tried r
      | .error _ => []

theorem tried_cons_of_ok {m : Multimap d E K V} {s : Traced E (K × V)} {q : K × V}
    (h : (m.arrival s.value.1 s.value.2).value = .ok q) (r : Source E (K × V)) :
    m.tried (s :: r) = s :: m.tried r := by
  simp only [tried, put_of_arrival_ok h]

theorem tried_cons_of_error {m : Multimap d E K V} {s : Traced E (K × V)} {e : MapError}
    (h : (m.arrival s.value.1 s.value.2).value = .error e) (r : Source E (K × V)) :
    m.tried (s :: r) = [s] := by
  simp only [tried, put_of_arrival_error h]

@[simp] theorem tried_withContent (m : Multimap d E K V) (c : Content d K V)
    (ps : Source E (K × V)) : (m.withContent c).tried ps = m.tried ps := by
  induction ps with
  | nil => rfl
  | cons s r ih =>
    cases h : (m.arrival s.value.1 s.value.2).value with
    | ok q => rw [tried_cons_of_ok h, tried_cons_of_ok (by rwa [arrival_withContent]), ih]
    | error e => rw [tried_cons_of_error h, tried_cons_of_error (by rwa [arrival_withContent])]

theorem tried_of_arrive {m : Multimap d E K V} {ps : Source E (K × V)} {qs : List (K × V)}
    (h : m.Arrive ps.items qs) : m.tried ps = ps := by
  induction ps generalizing qs with
  | nil => rfl
  | cons s r ih =>
    obtain ⟨q, qs, hq, hqs, rfl⟩ := List.forall₂_cons_left_iff.1 h
    rw [tried_cons_of_ok hq, ih hqs]

theorem tried_of_error {m : Multimap d E K V} {before : Source E (K × V)} {qs : List (K × V)}
    (h : m.Arrive before.items qs) {s : Traced E (K × V)} {e : MapError}
    (he : (m.arrival s.value.1 s.value.2).value = .error e) (rest : Source E (K × V)) :
    m.tried (before ++ s :: rest) = before ++ [s] := by
  induction before generalizing qs with
  | nil => exact tried_cons_of_error he rest
  | cons x before ih =>
    obtain ⟨q, qs, hq, hqs, rfl⟩ := List.forall₂_cons_left_iff.1 h
    rw [List.cons_append, tried_cons_of_ok hq, ih hqs, List.cons_append]

theorem tried_cases (m : Multimap d E K V) (ps : Source E (K × V)) :
    (∃ qs, m.Arrive ps.items qs ∧ m.tried ps = ps) ∨
      ∃ before qs s rest e, ps = before ++ s :: rest ∧ m.Arrive (Source.items before) qs ∧
        (m.arrival s.value.1 s.value.2).value = .error e ∧ m.tried ps = before ++ [s] := by
  rcases m.arrive_or_error ps.items with ⟨qs, hqs⟩ | ⟨items, qs, p, rest', e, hs, hqs, he⟩
  · exact .inl ⟨qs, hqs, tried_of_arrive hqs⟩
  · obtain ⟨before, back, rfl, rfl, hback⟩ := List.map_eq_append_iff.1 hs
    obtain ⟨s, rest, rfl, rfl, -⟩ := List.map_eq_cons_iff.1 hback
    exact .inr ⟨before, qs, s, rest, e, rfl, hqs, he, tried_of_error hqs he rest⟩

theorem trace_putPairs (m : Multimap d E K V) (ps : Source E (K × V)) :
    (m.putPairs ps).trace = (m.tried ps).flatMap fun s => s.trace ++ m.putEvents s.value := by
  induction ps generalizing m with
  | nil => rfl
  | cons s r ih =>
    have hput := m.trace_put s.value
    cases h : (m.arrival s.value.1 s.value.2).value with
    | ok q =>
      rw [put_of_arrival_ok h] at hput
      rw [putPairs_cons_of_ok h, tried_cons_of_ok h, List.flatMap_cons, ← hput,
        Outcome.trace_after, Outcome.trace_map, ih]
      simp only [tried_withContent, putEvents_withContent]
    | error e =>
      rw [put_of_arrival_error h] at hput
      rw [putPairs_cons_of_error h, tried_cons_of_error h, List.flatMap_singleton, ← hput]

/-- The result and the events of a run of puts: the draws, the calls and the questions to the base
in turn, up to the first put that fails. -/
structure CallsInOrder {α : Type} (m : Multimap d E K V) (ps : Source E (K × V))
    (result : Except MapError α) (trace : List E) : Prop where
  events : trace = (m.tried ps).flatMap fun s => s.trace ++ m.putEvents s.value
  all : ∀ a, result = .ok a → m.tried ps = ps ∧
    (ps.items.flatMap m.calls).map Call.station = ps.items.flatMap fun _ => m.stations
  stop : ∀ e, result = .error e → ∃ before s rest, ps = before ++ s :: rest ∧
    m.tried ps = before ++ [s] ∧
    (∀ x ∈ before, ∃ b, (m.put x.value.1 x.value.2).result = .ok b) ∧
    (m.put s.value.1 s.value.2).result = .error e

theorem putPairs_callsInOrder (m : Multimap d E K V) (ps : Source E (K × V)) :
    m.CallsInOrder ps (m.putPairs ps).result (m.putPairs ps).trace := by
  refine ⟨m.trace_putPairs ps, fun b hb => ?_, fun e he => ?_⟩
  · rcases m.tried_cases ps with ⟨qs, hqs, htried⟩ | ⟨before, qs, s, rest, e, rfl, hqs, he, -⟩
    · refine ⟨htried, ?_⟩
      rw [List.map_flatMap]
      refine List.flatMap_congr fun p hp => ?_
      obtain ⟨q, hq⟩ := hqs.exists_of_mem hp
      exact stations_calls_of_arrival hq
    · rw [(putPairs_of_error (Source.items_append_cons ..) hqs he).1] at hb
      cases hb
  · rcases m.tried_cases ps with ⟨qs, hqs, -⟩ | ⟨before, qs, s, rest, e', rfl, hqs, he', htried⟩
    · rw [(putPairs_of_arrive hqs).1] at he
      cases he
    · rw [(putPairs_of_error (Source.items_append_cons ..) hqs he').1] at he
      obtain rfl := Except.error.inj he
      refine ⟨before, s, rest, rfl, htried, fun x hx => ?_, put_error_iff.2 he'⟩
      obtain ⟨q, hq⟩ := hqs.exists_of_mem (List.mem_map_of_mem hx)
      exact ⟨_, congrArg Outcome.result (put_of_arrival_ok hq)⟩

theorem CallsInOrder.of_result {α β : Type} {m : Multimap d E K V} {ps : Source E (K × V)}
    {result : Except MapError α} {result' : Except MapError β} {trace : List E}
    (h : m.CallsInOrder ps result trace) (hsame : ∀ e, result' = .error e ↔ result = .error e) :
    m.CallsInOrder ps result' trace := by
  refine ⟨h.events, fun b hb => ?_, fun e he => h.stop e ((hsame e).1 he)⟩
  cases result with
  | ok a => exact h.all a rfl
  | error e =>
    have he := (hsame e).2 rfl
    rw [hb] at he
    cases he

/-! ## Recasts -/

variable [Logging E]

/-- What a recast tells the log behind its calls. -/
def stopRecord {α : Type} : Except MapError α → List E
  | .ok _ => []
  | .error e => [Logging.logged (.stopped e)]

theorem stopRecord_map {α β : Type} (f : α → β) (x : Except MapError α) :
    (stopRecord (x.map f) : List E) = stopRecord x := by
  cases x <;> rfl

/-- To put mappings back shows what it shows to put them, and a record if it fails. -/
theorem trace_reinsert (m : Multimap d E K V) (ps : List (K × V)) :
    (reinsert ps m).trace = (m.putPairs (Source.ofList ps)).trace ++
      stopRecord (m.putPairs (Source.ofList ps)).result := by
  induction ps generalizing m with
  | nil => rfl
  | cons p ps ih =>
    have hofList : Source.ofList (p :: ps) = (pure p : Traced E (K × V)) :: Source.ofList ps := rfl
    rw [hofList, reinsert]
    cases h : (m.arrival p.1 p.2).value with
    | ok q =>
      rw [putPairs_cons_of_ok (s := pure p) h, put_of_arrival_ok h]
      simp only [Traced.trace_after, Outcome.trace_after, Outcome.trace_map, Outcome.result_after,
        Outcome.result_map, stopRecord_map, Traced.trace_pure, List.nil_append, List.append_assoc,
        ih]
      rfl
    | error e =>
      rw [putPairs_cons_of_error (s := pure p) h, put_of_arrival_error h]
      rfl

theorem reinsert_error_iff (m : Multimap d E K V) (ps : List (K × V)) (e : MapError) :
    (reinsert ps m).value.mapError (·.error) = .error e ↔
      (m.putPairs (Source.ofList ps)).result = .error e := by
  have hitems : (Source.ofList ps : Source E (K × V)).items = ps := Source.items_ofList ps
  rcases m.arrive_or_error ps with ⟨qs, hqs⟩ | ⟨before, qs, p, rest, e', hs, hqs, he⟩
  · rw [reinsert_of_arrive hqs, (putPairs_of_arrive (by rwa [hitems])).1]
    simp [Except.mapError]
  · rw [reinsert_of_error hs hqs he, (putPairs_of_error (hitems.trans hs) hqs he).1]
    simp [Except.mapError]

theorem stopRecord_congr {α β : Type} {x : Except MapError α} {y : Except MapError β}
    (h : ∀ e, x = .error e ↔ y = .error e) : (stopRecord x : List E) = stopRecord y := by
  cases x with
  | error e =>
    rw [(h e).1 rfl]
    rfl
  | ok a =>
    cases y with
    | ok b => rfl
    | error e => cases (h e).2 rfl

/-- Mappings that a failed recast restores cause no call. -/
theorem recast_callsInOrder {m : Multimap d E K V} (h : m.isEmpty = false) (l : Layer E K V) :
    ∃ trace, (m.clear.under l).CallsInOrder (Source.ofList (flatten m.drain.1))
        ((m.recast l).value.mapError (·.error)) trace ∧
      (m.recast l).trace = Logging.logged (.recasting m.keyCount) ::
        (trace ++ stopRecord ((m.recast l).value.mapError (·.error))) := by
  have hsame := reinsert_error_iff (m.clear.under l) (flatten m.drain.1)
  have hcount : m.keyCount = m.drain.1.length := Content.keyCount_eq_length_groups m.content
  rw [recast_of_isEmpty_eq_false h, Traced.value_after, hcount]
  refine ⟨_, (putPairs_callsInOrder _ _).of_result hsame, ?_⟩
  rw [Traced.trace_after, trace_reinsert, stopRecord_congr hsame]
  rfl

/-- **Which calls happen, and when.** What is put passes the layers up to the first failure; what a
failed recast restores calls nothing. -/
theorem calls_in_order (m : Multimap d E K V) (n : Nat) (l : Layer E K V) :
    (∀ ps, (m.peel n).CallsInOrder ps (m.inside n (·.putPairs ps)).result
      (m.inside n (·.putPairs ps)).trace) ∧
    (∀ (d' : Discipline) (other : Multimap d' E K V),
      (m.peel n).CallsInOrder (Source.ofList other.mappings) (m.inside n (·.putFrom other)).result
        (m.inside n (·.putFrom other)).trace) ∧
    (m.mappings = [] → (m.recast l).trace = []) ∧
    (m.mappings ≠ [] → ∃ trace,
      (m.clear.under l).CallsInOrder (Source.ofList (flatten m.drain.1))
        ((m.recast l).value.mapError (·.error)) trace ∧
      (m.recast l).trace = Logging.logged (.recasting m.keyCount) ::
        (trace ++ stopRecord ((m.recast l).value.mapError (·.error)))) := by
  refine ⟨fun ps => ?_, fun d' other => ?_, fun hempty => ?_, fun hfull => ?_⟩
  · rw [result_inside, trace_inside]
    exact putPairs_callsInOrder _ ps
  · rw [result_inside, trace_inside]
    exact putPairs_callsInOrder _ (Source.ofList other.mappings)
  · rw [recast_of_isEmpty (mappings_eq_nil_iff.1 hempty)]
    rfl
  · refine recast_callsInOrder ?_ l
    rwa [Ne, mappings_eq_nil_iff, Bool.not_eq_true] at hfull

/-- A layer that tells of its calls. Keys get ten larger, and values of five and more fail. -/
def telling (name : String) : Layer Event Nat Nat :=
  ⟨some (.noted (fun k => .called (name ++ " key") (some (.int (.ofNat k)))) (.ofFunction (· + 10))),
    some (.noted (fun v => .called (name ++ " value") (some (.int (.ofNat v))))
      (.ofFallible fun v => if v < 5 then .ok (v + 1) else .error ⟨"too large"⟩))⟩

/-- Three mappings of two keys below a layer that tells of its calls. -/
def told : Multimap .sequence Event Nat Nat :=
  (ofContent (Content.ofMappings [(1, 2), (1, 4), (2, 3)])).under (telling "inner")

/-- A recast stops at the second mapping, in the inner layer. -/
theorem calls_in_order_told :
    (told.mappings ≠ [] ∧
      (told.recast (telling "outer")).trace =
        [.logged (.recasting 2),
          .called "outer key" (some (.int 1)), .called "outer value" (some (.int 2)),
          .called "inner key" (some (.int 11)), .called "inner value" (some (.int 3)),
          .called "outer key" (some (.int 1)), .called "outer value" (some (.int 4)),
          .called "inner key" (some (.int 11)), .called "inner value" (some (.int 5)),
          .logged (.stopped (.transform ⟨"too large"⟩))]) ∧
    ∃ trace, (told.clear.under (telling "outer")).CallsInOrder
        (Source.ofList (flatten told.drain.1))
        ((told.recast (telling "outer")).value.mapError (·.error)) trace ∧
      (told.recast (telling "outer")).trace = Logging.logged (.recasting told.keyCount) ::
        (trace ++ stopRecord ((told.recast (telling "outer")).value.mapError (·.error))) := by
  have hfull : told.mappings ≠ [] := by decide
  exact ⟨⟨hfull, rfl⟩, (calls_in_order told 0 (telling "outer")).2.2.2 hfull⟩

end Multimap

end LayeredMultimap
