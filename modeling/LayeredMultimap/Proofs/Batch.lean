import LayeredMultimap.Proofs.Arrival
import Mathlib.Data.List.Forall2

/-!
# Puts one after the other

A run of puts either gets through, and then adds the mappings that arrive at the base in order
(`putPairs_of_arrive`), or it stops at a first mapping (`putPairs_of_error`). Which of the two
happens, and where, is the same for all contents.
-/

namespace LayeredMultimap

theorem exists_forall₂ {α β : Type} {R : α → β → Prop} {as : List α}
    (h : ∀ a ∈ as, ∃ b, R a b) : ∃ bs, List.Forall₂ R as bs := by
  induction as with
  | nil => exact ⟨[], .nil⟩
  | cons a as ih =>
    obtain ⟨b, hb⟩ := h a List.mem_cons_self
    obtain ⟨bs, hbs⟩ := ih fun a ha => h a (List.mem_cons_of_mem _ ha)
    exact ⟨b :: bs, .cons hb hbs⟩

theorem mem_iff_of_forall₂ {α β : Type} {R : α → β → Prop} (hR : Relator.RightUnique R)
    {as : List α} {bs : List β} (h : List.Forall₂ R as bs) {b : β} :
    b ∈ bs ↔ ∃ a ∈ as, R a b := by
  induction h with
  | nil => simp
  | @cons a b' as bs hab _ ih =>
    have hhead : R a b ↔ b = b' := ⟨fun hb => hR hb hab, fun hb => hb ▸ hab⟩
    rw [List.mem_cons, List.exists_mem_cons_iff, hhead, ih]

@[simp] theorem Source.items_ofList {E α : Type} (xs : List α) :
    (ofList xs : Source E α).items = xs := by
  simp [items, ofList, Function.comp_def]

namespace Content

variable {d : Discipline} {E K V : Type} [Ord K] [DecidableEq V] [Ord V]

/-- Adds mappings one after the other, and says whether one of them changed the content. -/
def addAll (c : Content d K V) : List (K × V) → Bool × Content d K V
  | [] => (false, c)
  | p :: r =>
    let added := c.add p.1 p.2
    let rest := added.2.addAll r
    (added.1 || rest.1, rest.2)

theorem extend_append (c : Content d K V) (ps qs : List (K × V)) :
    c.extend (ps ++ qs) = (c.extend ps).extend qs := by
  induction ps generalizing c with
  | nil => rfl
  | cons p ps ih => exact ih _

theorem pour_cons_of_ok {f : V → Attempt E V} {s : Traced E V} {w : V}
    (h : (f s.value).result = .ok w) (c : Content d K V) (k : K) (r : Source E V) :
    c.pour f k (s :: r) = (((c.add k w).2.pour f k r).map ((c.add k w).1 || ·)).after
      (s.trace ++ (f s.value).trace) := by
  rw [pour, Outcome.after_andThen, Outcome.ofAttempt_andThen_of_ok h, Outcome.after_after]

theorem pour_cons_of_error {f : V → Attempt E V} {s : Traced E V} {e : TransformFailure}
    (h : (f s.value).result = .error e) (c : Content d K V) (k : K) (r : Source E V) :
    c.pour f k (s :: r) = ⟨.error (.transform e), c, s.trace ++ (f s.value).trace⟩ := by
  rw [pour, Outcome.after_andThen, Outcome.ofAttempt_andThen_of_error h]
  rfl

theorem pour_of_pass {c : Content d K V} {f : V → Attempt E V} {k : K} {s : Source E V}
    {ws : List V} (h : List.Forall₂ (fun v w => (f v).result = .ok w) s.items ws) :
    (c.pour f k s).result = .ok (c.addAll (ws.map (k, ·))).1 ∧
      (c.pour f k s).state = c.extend (ws.map (k, ·)) := by
  induction s generalizing c ws with
  | nil =>
    obtain rfl := List.forall₂_nil_left_iff.1 h
    exact ⟨rfl, rfl⟩
  | cons s r ih =>
    obtain ⟨w, ws, hw, hws, rfl⟩ := List.forall₂_cons_left_iff.1 h
    obtain ⟨hres, hst⟩ := ih (c := (c.add k w).2) hws
    rw [pour_cons_of_ok hw]
    refine ⟨?_, hst⟩
    rw [Outcome.result_after, Outcome.result_map]
    exact congrArg _ hres

end Content

namespace Multimap

variable {d : Discipline} {E K V : Type} [DecidableEq K] [DecidableEq V]

/-- The mappings `ps` all reach the base, as the mappings `qs`. -/
def Arrive (m : Multimap d E K V) (ps qs : List (K × V)) : Prop :=
  List.Forall₂ (fun p q => (m.arrival p.1 p.2).value = .ok q) ps qs

@[simp] theorem arrive_withContent {m : Multimap d E K V} {c : Content d K V}
    {ps qs : List (K × V)} : (m.withContent c).Arrive ps qs ↔ m.Arrive ps qs := by
  simp [Arrive]

theorem Arrive.exists_of_mem {m : Multimap d E K V} {ps qs : List (K × V)} (h : m.Arrive ps qs)
    {p : K × V} (hp : p ∈ ps) : ∃ q, (m.arrival p.1 p.2).value = .ok q := by
  induction h with
  | nil => cases hp
  | cons hq _ ih =>
    rcases List.mem_cons.1 hp with rfl | hp
    · exact ⟨_, hq⟩
    · exact ih hp

theorem arrive_or_error (m : Multimap d E K V) (ps : List (K × V)) :
    (∃ qs, m.Arrive ps qs) ∨ ∃ before qs p rest e,
      ps = before ++ p :: rest ∧ m.Arrive before qs ∧ (m.arrival p.1 p.2).value = .error e := by
  induction ps with
  | nil => exact .inl ⟨[], .nil⟩
  | cons p ps ih =>
    cases hp : (m.arrival p.1 p.2).value with
    | error e => exact .inr ⟨[], [], p, ps, e, rfl, .nil, hp⟩
    | ok q =>
      rcases ih with ⟨qs, hqs⟩ | ⟨before, qs, p', rest, e, rfl, hqs, he⟩
      · exact .inl ⟨q :: qs, .cons hp hqs⟩
      · exact .inr ⟨p :: before, q :: qs, p', rest, e, rfl, .cons hp hqs, he⟩

variable [Ord K] [Ord V]

theorem exists_arrive {m : Multimap d E K V} {ps : List (K × V)}
    (h : ∀ p ∈ ps, ∀ e, (m.put p.1 p.2).result ≠ .error e) : ∃ qs, m.Arrive ps qs := by
  rcases m.arrive_or_error ps with hqs | ⟨before, qs, p, rest, e, rfl, -, he⟩
  · exact hqs
  · have hp : p ∈ before ++ p :: rest := by simp
    exact absurd (put_error_iff.2 he) (h p hp e)

theorem putPairs_cons (m : Multimap d E K V) (s : Traced E (K × V)) (r : Source E (K × V)) :
    m.putPairs (s :: r) = ((m.put s.value.1 s.value.2).after s.trace).andThen fun here m =>
      (m.putPairs r).map (here || ·) := by
  rw [putPairs]

theorem putPairs_cons_of_ok {m : Multimap d E K V} {s : Traced E (K × V)} {q : K × V}
    (h : (m.arrival s.value.1 s.value.2).value = .ok q) (r : Source E (K × V)) :
    m.putPairs (s :: r) =
      (((m.withContent (m.content.add q.1 q.2).2).putPairs r).map
        ((m.content.add q.1 q.2).1 || ·)).after
          (s.trace ++ (m.arrival s.value.1 s.value.2).trace) := by
  rw [putPairs_cons, put_of_arrival_ok h, Outcome.andThen_of_ok rfl]
  rfl

theorem putPairs_cons_of_error {m : Multimap d E K V} {s : Traced E (K × V)} {e : MapError}
    (h : (m.arrival s.value.1 s.value.2).value = .error e) (r : Source E (K × V)) :
    m.putPairs (s :: r) = ⟨.error e, m, s.trace ++ (m.arrival s.value.1 s.value.2).trace⟩ := by
  rw [putPairs_cons, put_of_arrival_error h, Outcome.andThen_of_error rfl]
  rfl

theorem putPairs_of_arrive {m : Multimap d E K V} {s : Source E (K × V)} {qs : List (K × V)}
    (h : m.Arrive s.items qs) :
    (m.putPairs s).result = .ok (m.content.addAll qs).1 ∧
      (m.putPairs s).state = m.withContent (m.content.extend qs) := by
  induction s generalizing m qs with
  | nil =>
    obtain rfl := List.forall₂_nil_left_iff.1 h
    exact ⟨rfl, (withContent_content m).symm⟩
  | cons s r ih =>
    obtain ⟨q, qs, hq, hr, rfl⟩ := List.forall₂_cons_left_iff.1 h
    obtain ⟨hres, hst⟩ := ih (arrive_withContent (c := (m.content.add q.1 q.2).2).2 hr)
    rw [content_withContent] at hres hst
    rw [putPairs_cons_of_ok hq]
    refine ⟨?_, ?_⟩
    · rw [Outcome.result_after, Outcome.result_map, hres]
      rfl
    · rw [Outcome.state_after, Outcome.state_map, hst, withContent_withContent]
      rfl

/-- A mapping that does not arrive stops the puts and leaves what was added before it. -/
theorem putPairs_of_error {m : Multimap d E K V} {s : Source E (K × V)}
    {before qs rest : List (K × V)} {p : K × V} {e : MapError} (hs : s.items = before ++ p :: rest)
    (h : m.Arrive before qs) (he : (m.arrival p.1 p.2).value = .error e) :
    (m.putPairs s).result = .error e ∧
      (m.putPairs s).state = m.withContent (m.content.extend qs) := by
  induction s generalizing m before qs with
  | nil => simp [Source.items] at hs
  | cons s r ih =>
    cases before with
    | nil =>
      obtain ⟨rfl, rfl⟩ := List.cons_eq_cons.1 hs
      obtain rfl := List.forall₂_nil_left_iff.1 h
      rw [putPairs_cons_of_error he]
      exact ⟨rfl, (withContent_content m).symm⟩
    | cons p' before =>
      obtain ⟨rfl, hr⟩ := List.cons_eq_cons.1 hs
      obtain ⟨q, qs, hq, hqs, rfl⟩ := List.forall₂_cons_left_iff.1 h
      obtain ⟨hres, hst⟩ := ih hr (arrive_withContent (c := (m.content.add q.1 q.2).2).2 hqs)
        (by simpa using he)
      rw [content_withContent] at hst
      rw [putPairs_cons_of_ok hq]
      refine ⟨?_, ?_⟩
      · rw [Outcome.result_after, Outcome.result_map, hres]
        rfl
      · rw [Outcome.state_after, Outcome.state_map, hst, withContent_withContent]
        rfl

/-! ## Values of one key -/

theorem putValues_cons_of_ok {m : Multimap d E K V} {k k' : K}
    (h : (m.outer.passKey k).result = .ok k') (s : Traced E V) (r : Source E V) :
    m.putValues k (s :: r) =
      (m.onContent fun c => c.pour m.outer.passValue k' (pure s.value :: r)).after
        (s.trace ++ (m.outer.passKey k).trace) := by
  rw [putValues, Outcome.after_andThen, Outcome.ofAttempt_andThen_of_ok h, Outcome.after_after]

theorem putValues_cons_of_error {m : Multimap d E K V} {k : K} {e : TransformFailure}
    (h : (m.outer.passKey k).result = .error e) (s : Traced E V) (r : Source E V) :
    m.putValues k (s :: r) =
      ⟨.error (.transform e), m, s.trace ++ (m.outer.passKey k).trace⟩ := by
  rw [putValues, Outcome.after_andThen, Outcome.ofAttempt_andThen_of_error h]
  rfl

theorem putValues_of_pass {m : Multimap d E K V} {k k' : K} {s : Source E V} {ws : List V}
    (hk : (m.outer.passKey k).result = .ok k')
    (h : List.Forall₂ (fun v w => (m.outer.passValue v).result = .ok w) s.items ws) :
    (m.putValues k s).result = .ok (m.content.addAll (ws.map (k', ·))).1 ∧
      (m.putValues k s).state = m.withContent (m.content.extend (ws.map (k', ·))) := by
  cases s with
  | nil =>
    obtain rfl := List.forall₂_nil_left_iff.1 h
    exact ⟨rfl, (withContent_content m).symm⟩
  | cons s r =>
    obtain ⟨hres, hst⟩ :=
      Content.pour_of_pass (c := m.content) (k := k') (s := pure s.value :: r) h
    rw [putValues_cons_of_ok hk]
    exact ⟨hres, congrArg m.withContent hst⟩

/-! ## Stops -/

/-- Of the mappings `ps`, those in `before` can be put one after the other, and `p`, which comes
next, fails with `e`. -/
structure StopsAt (m : Multimap d E K V) (ps before : List (K × V)) (p : K × V)
    (rest : List (K × V)) (e : MapError) : Prop where
  split : ps = before ++ p :: rest
  fine : ∃ b, (m.putPairs (Source.ofList before)).result = .ok b
  fails : ((m.putPairs (Source.ofList before)).state.put p.1 p.2).result = .error e

theorem stopsAt_of_arrive {m : Multimap d E K V} {ps before qs rest : List (K × V)} {p : K × V}
    {e : MapError} (hs : ps = before ++ p :: rest) (h : m.Arrive before qs)
    (he : (m.arrival p.1 p.2).value = .error e) : m.StopsAt ps before p rest e := by
  obtain ⟨hres, hst⟩ := putPairs_of_arrive (s := Source.ofList before) (by simpa using h)
  refine ⟨hs, ⟨_, hres⟩, ?_⟩
  rw [hst, put_error_iff, arrival_withContent]
  exact he

end Multimap

end LayeredMultimap
