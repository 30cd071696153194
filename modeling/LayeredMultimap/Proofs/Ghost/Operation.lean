import LayeredMultimap.Proofs.Ghost

/-!
# Operations on keys without values

Operations on multimaps that differ in ghosts only come to the same result with the same events,
and leave multimaps that differ in ghosts only. The relation goes along `andThen`, so that it holds
of a bulk insertion because it holds of each insertion.
-/

namespace LayeredMultimap

/-- Outcomes that are seen as the same: equal results, equal traces, and related states. -/
structure Outcome.Agree {σ E α : Type} (R : σ → σ → Prop) (o o' : Outcome σ E α) : Prop where
  result : o.result = o'.result
  trace : o.trace = o'.trace
  state : R o.state o'.state

namespace Outcome.Agree

variable {σ τ E α β : Type} {R : σ → σ → Prop} {o o' : Outcome σ E α}

theorem map (h : o.Agree R o') (f : α → β) : (o.map f).Agree R (o'.map f) :=
  ⟨congrArg (Except.map f) h.result, h.trace, h.state⟩

theorem after (h : o.Agree R o') (t : List E) : (o.after t).Agree R (o'.after t) :=
  ⟨h.result, congrArg (t ++ ·) h.trace, h.state⟩

theorem mapState (h : o.Agree R o') {S : τ → τ → Prop} {f f' : σ → τ}
    (hf : ∀ s s', R s s' → S (f s) (f' s')) : (o.mapState f).Agree S (o'.mapState f') :=
  ⟨h.result, h.trace, hf _ _ h.state⟩

theorem andThen (h : o.Agree R o') {f f' : α → σ → Outcome σ E β}
    (hf : ∀ a s s', R s s' → (f a s).Agree R (f' a s')) :
    (o.andThen f).Agree R (o'.andThen f') := by
  cases hres : o.result with
  | ok a =>
    have hres' : o'.result = .ok a := h.result.symm.trans hres
    rw [andThen_of_ok hres, andThen_of_ok hres', h.trace]
    exact (hf a _ _ h.state).after o'.trace
  | error e =>
    have hres' : o'.result = .error e := h.result.symm.trans hres
    rw [andThen_of_error hres, andThen_of_error hres']
    exact ⟨rfl, h.trace, h.state⟩

end Outcome.Agree

variable {d : Discipline} {E K V : Type} [Ord K]

/-- The same operation, or merges of two sources that differ in ghosts only. -/
inductive Operation.GhostEq : Operation E K V → Operation E K V → Prop
  | same (o : Operation E K V) : GhostEq o o
  | putFrom {d : Discipline} {x x' : Multimap d E K V} (h : x.GhostEq x') :
      GhostEq (.putFrom (some x)) (.putFrom (some x'))

theorem Multimap.inside_agree {α : Type} {m m' : Multimap d E K V}
    {f f' : Multimap d E K V → Outcome (Multimap d E K V) E α}
    (hf : ∀ m m', m.GhostEq m' → (f m).Agree GhostEq (f' m')) (h : m.GhostEq m') (n : Nat) :
    (m.inside n f).Agree GhostEq (m'.inside n f') := by
  induction h generalizing n with
  | base refusal h =>
    cases n with
    | zero => exact hf _ _ (.base refusal h)
    | succ n => exact hf _ _ (.base refusal h)
  | layered l h ih =>
    cases n with
    | zero => exact hf _ _ (.layered l h)
    | succ n => exact (ih n).mapState fun _ _ hs => .layered l hs

variable [DecidableEq K] [DecidableEq V] [Ord V] [Std.LawfulEqOrd K] [Std.TransOrd K]

/-! ## Insertions -/

theorem Content.pour_agree {c c' : Content d K V} (h : c.GhostEq c') (f : V → Attempt E V) (k : K)
    (s : Source E V) : (c.pour f k s).Agree Content.GhostEq (c'.pour f k s) := by
  induction s generalizing c c' with
  | nil => exact ⟨rfl, rfl, h⟩
  | cons x r ih =>
    have hfirst : ((Outcome.ofAttempt (f x.value) c).after x.trace).Agree Content.GhostEq
        ((Outcome.ofAttempt (f x.value) c').after x.trace) := ⟨rfl, rfl, h⟩
    rw [pour, pour]
    refine hfirst.andThen fun v t t' ht => ?_
    obtain ⟨hflag, hadd⟩ := ht.add k v
    simp only [hflag]
    exact (ih hadd).map _

namespace Multimap

variable {m m' : Multimap d E K V}

theorem put_agree (h : m.GhostEq m') (k : K) (v : V) :
    (m.put k v).Agree GhostEq (m'.put k v) := by
  induction h generalizing k v with
  | base refusal h =>
    obtain ⟨hflag, hadd⟩ := h.add k v
    rw [put, put, Base.put, Base.put]
    cases (refusal k v).value with
    | some cause => exact ⟨rfl, rfl, .base refusal h⟩
    | none => exact ⟨congrArg Except.ok hflag, rfl, .base refusal hadd⟩
  | @layered l m m' h ih =>
    have hpass : (Outcome.ofAttempt (l.pass k v) (layered l m)).Agree GhostEq
        (Outcome.ofAttempt (l.pass k v) (layered l m')) := ⟨rfl, rfl, .layered l h⟩
    rw [put, put]
    refine hpass.andThen fun p _ _ _ => ?_
    exact (ih p.1 p.2).mapState fun _ _ hs => GhostEq.layered l hs

theorem putPairs_agree (h : m.GhostEq m') (s : Source E (K × V)) :
    (m.putPairs s).Agree GhostEq (m'.putPairs s) := by
  induction s generalizing m m' with
  | nil => exact ⟨rfl, rfl, h⟩
  | cons x r ih =>
    rw [putPairs, putPairs]
    exact ((put_agree h _ _).after x.trace).andThen fun here _ _ hs => (ih hs).map (here || ·)

theorem putValues_agree (h : m.GhostEq m') (k : K) (s : Source E V) :
    (m.putValues k s).Agree GhostEq (m'.putValues k s) := by
  cases s with
  | nil => exact ⟨rfl, rfl, h⟩
  | cons x r =>
    have hfirst : ((Outcome.ofAttempt (m'.outer.passKey k) m).after x.trace).Agree GhostEq
        ((Outcome.ofAttempt (m'.outer.passKey k) m').after x.trace) := ⟨rfl, rfl, h⟩
    rw [putValues, putValues, h.outer_eq]
    refine hfirst.andThen fun k t t' ht => ?_
    rw [ht.outer_eq]
    exact (Content.pour_agree ht.content _ k _).mapState fun _ _ hc => ht.withContent hc

/-- Sources with the same mappings are merged alike, whatever their layers are. -/
theorem putFrom_agree {d' : Discipline} (h : m.GhostEq m') {x x' : Multimap d' E K V}
    (hx : x.mappings = x'.mappings) : (m.putFrom x).Agree GhostEq (m'.putFrom x') := by
  rw [putFrom, putFrom, hx]
  exact putPairs_agree h _

end Multimap

/-! ## All operations -/

theorem Multimap.operate_agree {m m' : Multimap d E K V} (h : m.GhostEq m') {o o' : Operation E K V}
    (ho : o.GhostEq o') : (m.operate o).Agree GhostEq (m'.operate o') := by
  cases ho with
  | putFrom hx => exact (putFrom_agree h hx.mappings_eq).map _
  | same =>
    have hc := h.content
    cases o with
    | query q => exact ⟨congrArg Except.ok (h.answer_eq q), rfl, h⟩
    | put k v => exact (put_agree h k v).map _
    | putValues k vs =>
      cases vs with
      | none => exact ⟨rfl, rfl, h⟩
      | some vs => exact (putValues_agree h k vs).map _
    | putPairs ps =>
      cases ps with
      | none => exact ⟨rfl, rfl, h⟩
      | some ps => exact (putPairs_agree h ps).map _
    | putFrom x =>
      cases x with
      | none => exact ⟨rfl, rfl, h⟩
      | some x => exact (putFrom_agree h rfl).map _
    | edit k es =>
      obtain ⟨hreplies, hst⟩ := hc.edit k es
      exact ⟨congrArg (fun rs => Except.ok (Report.replies rs)) hreplies, rfl, h.withContent hst⟩
    | remove k =>
      have hbag : (m.content.get? k).map Bag.toList = (m'.content.get? k).map Bag.toList :=
        congrArg _ (hc.get?_eq k)
      exact ⟨congrArg (fun b => Except.ok (Report.bag b)) hbag, rfl, h.withContent (hc.erase k)⟩
    | removeMapping k v =>
      obtain ⟨hflag, hst⟩ := hc.removeMapping k v
      exact ⟨congrArg (fun b => Except.ok (Report.flag b)) hflag, rfl, h.withContent hst⟩
    | clear => exact ⟨rfl, rfl, h.withContent (Content.ghostEq_self Table.ascends_empty)⟩
    | drain =>
      have hgroups : (m.content.groups.map fun g => (g.1, g.2.toList)) =
          m'.content.groups.map fun g => (g.1, g.2.toList) := congrArg _ hc.groups_eq
      exact ⟨congrArg (fun gs => Except.ok (Report.groups gs)) hgroups, rfl,
        h.withContent (Content.ghostEq_self Table.ascends_empty)⟩

end LayeredMultimap
