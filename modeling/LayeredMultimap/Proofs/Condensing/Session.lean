import LayeredMultimap.Proofs.Condensing
import LayeredMultimap.Value.Event

/-!
# Sequences against sets in a session

Steps that take out whole keys, or nothing, keep a multimap with sequences and one that holds the
same mappings once in step: they fail alike, and what they leave is again related. A recast puts back
fewer mappings where each is held once, but the same ones, so it succeeds for both or for none.
-/

namespace LayeredMultimap

variable {d : Discipline} {E K V : Type}

/-! ## Outcomes -/

/-- Both succeed, or both fail with the same error; the events are the same and the states are
related. What a success reports may differ. -/
structure Outcome.FailAlike {σ τ E α β : Type} (R : σ → τ → Prop) (o : Outcome σ E α)
    (o' : Outcome τ E β) : Prop where
  fails : ∀ e, o.result = .error e ↔ o'.result = .error e
  trace : o.trace = o'.trace
  state : R o.state o'.state

namespace Outcome.FailAlike

variable {σ τ σ' τ' E α β α' β' : Type} {R : σ → τ → Prop} {o : Outcome σ E α} {o' : Outcome τ E β}

theorem of_ok {s : σ} {s' : τ} (h : R s s') (a : α) (b : β) (t : List E) :
    (⟨.ok a, s, t⟩ : Outcome σ E α).FailAlike R (⟨.ok b, s', t⟩ : Outcome τ E β) := by
  refine ⟨fun e => ?_, rfl, h⟩
  constructor <;> exact nofun

theorem of_error {s : σ} {s' : τ} (h : R s s') (e : MapError) (t : List E) :
    (⟨.error e, s, t⟩ : Outcome σ E α).FailAlike R (⟨.error e, s', t⟩ : Outcome τ E β) := by
  refine ⟨fun e' => ?_, rfl, h⟩
  rw [Except.error.injEq, Except.error.injEq]

theorem map (h : o.FailAlike R o') (f : α → α') (g : β → β') :
    (o.map f).FailAlike R (o'.map g) := by
  refine ⟨fun e => ?_, h.trace, h.state⟩
  have hmap : ∀ {γ δ : Type} (f : γ → δ) (x : Except MapError γ),
      x.map f = .error e ↔ x = .error e := by
    intro γ δ f x
    cases x <;> simp [Except.map]
  rw [result_map, result_map, hmap, hmap]
  exact h.fails e

theorem after (h : o.FailAlike R o') (t : List E) : (o.after t).FailAlike R (o'.after t) :=
  ⟨h.fails, congrArg (t ++ ·) h.trace, h.state⟩

theorem mapState (h : o.FailAlike R o') {S : σ' → τ' → Prop} {f : σ → σ'} {g : τ → τ'}
    (hf : ∀ s s', R s s' → S (f s) (g s')) : (o.mapState f).FailAlike S (o'.mapState g) :=
  ⟨h.fails, h.trace, hf _ _ h.state⟩

theorem andThen (h : o.FailAlike R o') {f : α → σ → Outcome σ E α'} {g : β → τ → Outcome τ E β'}
    (hf : ∀ a b s s', R s s' → (f a s).FailAlike R (g b s')) :
    (o.andThen f).FailAlike R (o'.andThen g) := by
  cases hres : o.result with
  | ok a =>
    cases hres' : o'.result with
    | ok b =>
      rw [andThen_of_ok hres, andThen_of_ok hres', h.trace]
      exact (hf a b _ _ h.state).after o'.trace
    | error e =>
      have he := (h.fails e).2 hres'
      rw [hres] at he
      cases he
  | error e =>
    have hres' := (h.fails e).1 hres
    rw [andThen_of_error hres, andThen_of_error hres', h.trace]
    exact of_error h.state e o'.trace

end Outcome.FailAlike

variable [Ord K]

theorem Multimap.inside_failAlike {α β : Type} {m : Multimap .sequence E K V}
    {m' : Multimap d E K V}
    {f : Multimap .sequence E K V → Outcome (Multimap .sequence E K V) E α}
    {g : Multimap d E K V → Outcome (Multimap d E K V) E β}
    (hf : ∀ m m', m.Condenses m' → (f m).FailAlike Condenses (g m')) (h : m.Condenses m') (n : Nat) :
    (m.inside n f).FailAlike Condenses (m'.inside n g) := by
  induction h generalizing n with
  | base refusal h =>
    cases n with
    | zero => exact hf _ _ (.base refusal h)
    | succ n => exact hf _ _ (.base refusal h)
  | layered l h ih =>
    cases n with
    | zero => exact hf _ _ (.layered l h)
    | succ n => exact (ih n).mapState fun _ _ hs => .layered l hs

variable [DecidableEq K] [DecidableEq V] [Ord V] [Std.LawfulEqOrd K] [Std.TransOrd K]

/-! ## Insertions -/

theorem Content.pour_failAlike (hd : d ≠ .sequence) {c : Content .sequence K V} {c' : Content d K V}
    (h : c.Condenses c') (f : V → Attempt E V) (k : K) (s : Source E V) :
    (c.pour f k s).FailAlike Content.Condenses (c'.pour f k s) := by
  induction s generalizing c c' with
  | nil => exact .of_ok h false false []
  | cons x r ih =>
    cases hx : (f x.value).result with
    | ok w =>
      rw [pour_cons_of_ok hx, pour_cons_of_ok hx]
      exact ((ih (h.add hd k w)).map _ _).after _
    | error e =>
      rw [pour_cons_of_error hx, pour_cons_of_error hx]
      exact .of_error h _ _

namespace Multimap

variable {m : Multimap .sequence E K V} {m' : Multimap d E K V}

theorem put_failAlike (hd : d ≠ .sequence) (h : m.Condenses m') (k : K) (v : V) :
    (m.put k v).FailAlike Condenses (m'.put k v) := by
  have harrival := h.arrival_eq k v
  cases hv : (m.arrival k v).value with
  | ok q =>
    have hv' : (m'.arrival k v).value = .ok q := by rw [← harrival, hv]
    rw [put_of_arrival_ok hv, put_of_arrival_ok hv', harrival]
    exact .of_ok (h.withContent (h.content.add hd q.1 q.2)) _ _ _
  | error e =>
    have hv' : (m'.arrival k v).value = .error e := by rw [← harrival, hv]
    rw [put_of_arrival_error hv, put_of_arrival_error hv', harrival]
    exact .of_error h e _

omit [Std.LawfulEqOrd K] [Std.TransOrd K] in
/-- Where each mapping is held once, a put says whether its mapping is new. -/
theorem Condenses.put_report (hd : d ≠ .sequence) (h : m.Condenses m') {k : K} {v : V} {b : Bool}
    (hb : (m'.put k v).result = .ok b) :
    ∃ q, (passage m.layers k v).result = .ok q ∧ b = !m.containsMapping q.1 q.2 := by
  cases hv : (m'.arrival k v).value with
  | ok q =>
    have hreport : (m'.content.add q.1 q.2).1 = b := by
      rw [put_of_arrival_ok hv] at hb
      exact Except.ok.inj hb
    have hnew : (m'.content.add q.1 q.2).1 = !(m.content.bag q.1).contains q.2 :=
      (h.content.bags q.1).add_fst hd q.2
    refine ⟨q, ?_, ?_⟩
    · rw [h.layers_eq]
      exact passage_of_arrival_ok hv
    · rw [← hreport, hnew, containsMapping, Content.containsMapping_eq]
  | error e =>
    rw [put_of_arrival_error hv] at hb
    cases hb

theorem putPairs_failAlike (hd : d ≠ .sequence) (h : m.Condenses m') (s : Source E (K × V)) :
    (m.putPairs s).FailAlike Condenses (m'.putPairs s) := by
  induction s generalizing m m' with
  | nil => exact .of_ok h false false []
  | cons x r ih =>
    rw [putPairs, putPairs]
    apply ((put_failAlike hd h _ _).after x.trace).andThen
    intro here here' t t' ht
    exact (ih ht).map _ _

theorem putValues_failAlike (hd : d ≠ .sequence) (h : m.Condenses m') (k : K) (s : Source E V) :
    (m.putValues k s).FailAlike Condenses (m'.putValues k s) := by
  cases s with
  | nil => exact .of_ok h false false []
  | cons x r =>
    cases hk : (m'.outer.passKey k).result with
    | ok k' =>
      have hk_left : (m.outer.passKey k).result = .ok k' := by rw [h.outer_eq, hk]
      have hpour := Content.pour_failAlike hd h.content m'.outer.passValue k' (pure x.value :: r)
      rw [putValues_cons_of_ok hk_left, putValues_cons_of_ok hk, h.outer_eq]
      exact (hpour.mapState fun _ _ hc => h.withContent hc).after _
    | error e =>
      have hk_left : (m.outer.passKey k).result = .error e := by rw [h.outer_eq, hk]
      rw [putValues_cons_of_error hk_left, putValues_cons_of_error hk, h.outer_eq]
      exact .of_error h _ _

end Multimap

/-! ## Operations -/

/-- All but two of the operations take keys out with all their values, or take nothing out. A
removal of a mapping and edits take single occurrences of a value. -/
def Operation.WholeKeys : Operation E K V → Prop
  | .edit _ _ | .removeMapping _ _ => False
  | _ => True

theorem Multimap.operate_failAlike (hd : d ≠ .sequence) {m : Multimap .sequence E K V}
    {m' : Multimap d E K V} (h : m.Condenses m') {o : Operation E K V} (ho : o.WholeKeys) :
    (m.operate o).FailAlike Condenses (m'.operate o) := by
  have hempty : (m.withContent .empty).Condenses (m'.withContent .empty) :=
    h.withContent Content.condenses_empty
  cases o with
  | query q => exact .of_ok h _ _ []
  | put k v => exact (put_failAlike hd h k v).map _ _
  | putValues k vs =>
    cases vs with
    | none => exact .of_error h _ []
    | some vs => exact (putValues_failAlike hd h k vs).map _ _
  | putPairs ps =>
    cases ps with
    | none => exact .of_error h _ []
    | some ps => exact (putPairs_failAlike hd h ps).map _ _
  | putFrom other =>
    cases other with
    | none => exact .of_error h _ []
    | some other => exact (putPairs_failAlike hd h (Source.ofList other.mappings)).map _ _
  | edit k es => exact ho.elim
  | remove k => exact .of_ok (h.withContent (h.content.erase k)) _ _ []
  | removeMapping k v => exact ho.elim
  | clear => exact .of_ok hempty _ _ []
  | drain => exact .of_ok hempty _ _ []

/-! ## Recasts -/

namespace Multimap

variable [Logging E] {m : Multimap .sequence E K V} {m' : Multimap d E K V}
  {gs : List (K × Bag .sequence V)} {gs' : List (K × Bag d V)}

omit [Std.TransOrd K] in
theorem Condenses.recastIn_ok_iff (h : m.Condenses m') (hgs : m.content.HandsOut gs)
    (hgs' : m'.content.HandsOut gs') (l : Layer E K V) :
    (∃ n, (m.recastIn l gs).value = .ok n) ↔ ∃ n, (m'.recastIn l gs').value = .ok n := by
  have hunder : (m.under l).Condenses (m'.under l) := .layered l h
  rw [Multimap.recastIn_ok_iff hgs, Multimap.recastIn_ok_iff hgs']
  simp only [hunder.arrival_eq, mappings, h.content.mem_mappings]

/-- The same mappings have the same images, in whatever order and how often they are put back. -/
theorem Condenses.recastIn (hd : d ≠ .sequence) (h : m.Condenses m') (hgs : m.content.HandsOut gs)
    (hgs' : m'.content.HandsOut gs') {l : Layer E K V} {n : Multimap .sequence E K V}
    {n' : Multimap d E K V} (hn : (m.recastIn l gs).value = .ok n)
    (hn' : (m'.recastIn l gs').value = .ok n') : n.Condenses n' := by
  have hunder : (m.under l).Condenses (m'.under l) := .layered l h
  have hmem : ∀ p, p ∈ m'.mappings ↔ p ∈ m.mappings := h.content.mem_mappings
  have hempty_iff : m'.isEmpty = true ↔ m.isEmpty = true := by
    rw [← mappings_eq_nil_iff, ← mappings_eq_nil_iff, List.eq_nil_iff_forall_not_mem,
      List.eq_nil_iff_forall_not_mem]
    simp only [hmem]
  -- a recast of nothing puts nothing back, so both must be empty or neither
  cases hempty : m.isEmpty with
  | true =>
    rw [recastIn_of_isEmpty hempty] at hn
    rw [recastIn_of_isEmpty (hempty_iff.2 hempty)] at hn'
    cases hn
    cases hn'
    exact hunder
  | false =>
    have hempty' : m'.isEmpty = false := by
      rw [← Bool.not_eq_true, hempty_iff, hempty]
      decide
    obtain ⟨qs, hqs, rfl⟩ := recastIn_of_ok hempty hn
    obtain ⟨qs', hqs', rfl⟩ := recastIn_of_ok hempty' hn'
    apply hunder.withContent
    apply Content.ofMappings_condenses hd
    intro q
    have hflat : ∀ p, p ∈ flatten gs' ↔ p ∈ flatten gs := fun p =>
      hgs'.mem_flatten_iff.trans ((hmem p).trans hgs.mem_flatten_iff.symm)
    rw [hqs.mem_iff, hqs'.mem_iff]
    simp only [hflat, hunder.arrival_eq]

end Multimap

/-! ## Steps and runs -/

/-- Whether a step is a recast that failed. -/
def Answer.recastFails : Answer d E K V → Bool
  | .step _ _ (some _) _ => true
  | _ => false

/-- Answers to a step that succeeds in both sessions, or fails in both with the same error; in
neither it is a recast that fails. -/
inductive Answer.FailAlike : Answer .sequence E K V → Answer d E K V → Prop
  | step {result result' : Except MapError (Report K V)}
      (h : ∀ e, result = .error e ↔ result' = .error e) (trace trace' : List E)
      (c : Content .sequence K V) (c' : Content d K V) :
      FailAlike (.step result trace none c) (.step result' trace' none c')

/-- Operations at any depth that take out whole keys or nothing, and layers that are put around the
multimap, with or without a recast, and taken off. -/
def Step.WholeKeys : Step E K V → Prop
  | .operate _ o => o.WholeKeys
  | .decorate _ _ _ | .unwrap => True
  | _ => False

theorem Multimap.stack_condenses (hd : d ≠ .sequence) (ls : List (Layer E K V))
    (refusal : K → V → Traced E (Option String)) (ps : List (K × V)) :
    (stack .sequence ls refusal ps).Condenses (stack d ls refusal ps) := by
  induction ls with
  | nil => exact .base refusal (Content.ofMappings_condenses hd fun _ => Iff.rfl)
  | cons l ls ih => exact .layered l ih

namespace Step

variable [Logging E] {m : Multimap .sequence E K V} {m' : Multimap d E K V}

omit [DecidableEq K] [DecidableEq V] [Ord V] [Std.LawfulEqOrd K] [Std.TransOrd K] [Logging E] in
theorem conclude_failAlike {o : Outcome (Multimap .sequence E K V) E (Report K V)}
    {o' : Outcome (Multimap d E K V) E (Report K V)} (h : o.FailAlike Multimap.Condenses o') :
    (conclude o).1.FailAlike (conclude o').1 ∧ (conclude o).2.Condenses (conclude o').2 :=
  ⟨.step h.fails _ _ _ _, h.state⟩

omit [Ord K] [DecidableEq K] [DecidableEq V] [Ord V] [Std.LawfulEqOrd K] [Std.TransOrd K]
  [Logging E] in
theorem recastFails_concludeRecast
    {recast : Traced E (Except (RecastError (Multimap d E K V)) (Multimap d E K V))}
    {e : RecastError (Multimap d E K V)} (h : recast.value = .error e) (recovery : Recovery) :
    (concludeRecast recovery recast).1.recastFails = true := by
  simp only [concludeRecast, h, Answer.recastFails]

/-- The two recasts can find the groups in orders of their own. -/
theorem concludeRecast_failAlike (hd : d ≠ .sequence) (h : m.Condenses m') (l : Layer E K V)
    (recovery : Recovery) {gs : List (K × Bag .sequence V)} {gs' : List (K × Bag d V)}
    (hgs : m.content.HandsOut gs) (hgs' : m'.content.HandsOut gs')
    (hok : (concludeRecast recovery (m.recastIn l gs)).1.recastFails = false) :
    (concludeRecast recovery (m.recastIn l gs)).1.FailAlike
        (concludeRecast recovery (m'.recastIn l gs')).1 ∧
      (concludeRecast recovery (m.recastIn l gs)).2.Condenses
        (concludeRecast recovery (m'.recastIn l gs')).2 := by
  cases hn : (m.recastIn l gs).value with
  | error e =>
    rw [recastFails_concludeRecast hn] at hok
    cases hok
  | ok n =>
    obtain ⟨n', hn'⟩ := (h.recastIn_ok_iff hgs hgs' l).1 ⟨n, hn⟩
    rw [concludeRecast_of_ok hn, concludeRecast_of_ok hn']
    refine ⟨.step (fun e => ?_) _ _ _ _, h.recastIn hd hgs hgs' hn hn'⟩
    constructor <;> exact nofun

variable [ToString K] [ToString V]

theorem RunsTo.failAlike (hd : d ≠ .sequence) (h : m.Condenses m') {s : Step E K V}
    (hs : s.WholeKeys) {x : Answer .sequence E K V × Multimap .sequence E K V}
    {x' : Answer d E K V × Multimap d E K V} (hx : s.RunsTo m x) (hx' : s.RunsTo m' x')
    (hok : x.1.recastFails = false) : x.1.FailAlike x'.1 ∧ x.2.Condenses x'.2 := by
  cases s with
  | operate n o =>
    cases hx
    cases hx'
    apply conclude_failAlike
    apply Multimap.inside_failAlike _ h
    intro t t' ht
    exact Multimap.operate_failAlike hd ht hs
  | decorate l existing recovery =>
    cases existing with
    | false =>
      cases hx
      cases hx'
      exact conclude_failAlike (.of_ok (.layered l h) _ _ [])
    | true =>
      obtain ⟨gs, hgs, rfl⟩ := hx.exists_order
      obtain ⟨gs', hgs', rfl⟩ := hx'.exists_order
      exact concludeRecast_failAlike hd h l recovery hgs hgs' hok
  | unwrap =>
    cases hx
    cases hx'
    exact conclude_failAlike (.of_ok h.unwrap _ _ [])
  | merge n donor => exact hs.elim
  | extend n ps => exact hs.elim
  | flags n => exact hs.elim
  | inspect n spread => exact hs.elim
  | listing => exact hs.elim
  | build calls => exact hs.elim
  | fork steps => exact hs.elim

theorem RunsAllTo.failAlike (hd : d ≠ .sequence) {ss : List (Step E K V)}
    (hss : ∀ s ∈ ss, s.WholeKeys) {y : List (Answer .sequence E K V) × Multimap .sequence E K V}
    {y' : List (Answer d E K V) × Multimap d E K V} (h : m.Condenses m')
    (hy : RunsAllTo ss m y) (hy' : RunsAllTo ss m' y') (hok : ∀ a ∈ y.1, a.recastFails = false) :
    List.Forall₂ Answer.FailAlike y.1 y'.1 ∧ y.2.Condenses y'.2 := by
  induction hy generalizing m' y' with
  | nil =>
    cases hy'
    exact ⟨.nil, h⟩
  | cons hx _ ih =>
    cases hy' with
    | cons hx' hr' =>
      obtain ⟨hfirst, hmid⟩ := hx.failAlike hd h (hss _ List.mem_cons_self) hx'
        (hok _ List.mem_cons_self)
      obtain ⟨hrest, hlast⟩ := ih (fun s hs => hss s (List.mem_cons_of_mem _ hs)) hmid hr'
        fun a ha => hok a (List.mem_cons_of_mem _ ha)
      exact ⟨.cons hfirst hrest, hlast⟩

end Step

variable [Logging E] [ToString K] [ToString V]

/-- **Sets follow sequences** through all steps that take out whole keys or nothing, as long as no
recast fails. -/
theorem sets_follow_sequences (hd : d ≠ .sequence) (ls : List (Layer E K V))
    (refusal : K → V → Traced E (Option String)) (ps : List (K × V)) {ss : List (Step E K V)}
    (hss : ∀ s ∈ ss, s.WholeKeys)
    (hok : ∀ a ∈ (Step.runAll ss (Multimap.stack .sequence ls refusal ps)).1,
      a.recastFails = false) :
    let listed := Step.runAll ss (Multimap.stack .sequence ls refusal ps)
    let held := Step.runAll ss (Multimap.stack d ls refusal ps)
    List.Forall₂ Answer.FailAlike listed.1 held.1 ∧
      listed.2.ReadsAlike held.2 ∧
      (∀ n k v b, (held.2.inside n (·.put k v)).result = .ok b →
        ∃ q, (passage (listed.2.layers.drop n) k v).result = .ok q ∧
          b = !listed.2.containsMapping q.1 q.2) ∧
      ∀ l, (∃ m, (listed.2.recast l).value = .ok m) ↔ ∃ m, (held.2.recast l).value = .ok m := by
  intro listed held
  obtain ⟨hanswers, hlast⟩ :=
    (Step.runsAllTo_runAll ss _).failAlike hd hss (Multimap.stack_condenses hd ls refusal ps)
      (Step.runsAllTo_runAll ss _) hok
  refine ⟨hanswers, hlast.readsAlike, ?_,
    hlast.recastIn_ok_iff (Content.handsOut_groups _) (Content.handsOut_groups _)⟩
  intro n k v b hb
  rw [Multimap.result_inside] at hb
  obtain ⟨q, hq, hnew⟩ := (hlast.peel n).put_report hd hb
  rw [Multimap.layers_peel] at hq
  rw [Multimap.containsMapping, Multimap.content, Multimap.root_peel] at hnew
  exact ⟨q, hq, hnew⟩

/-- Layers that bring keys together and bar the value three. -/
def narrowing : List (Layer Event Nat Nat) :=
  [⟨some (.ofFunction (· / 10)), none⟩,
    ⟨none, some (.ofFallible fun v => if v = 3 then .error ⟨"barred"⟩ else .ok v)⟩]

/-- Mappings that meet under one key, insertions of which one fails, and a recast that brings two
keys together. -/
def meeting : List (Step Event Nat Nat) :=
  [.operate 0 (.put 12 5), .operate 0 (.put 13 5),
    .operate 0 (.putPairs (some (Source.ofList [(14, 6), (15, 3), (16, 7)]))),
    .decorate (Multimap.gathering 20) true .keep,
    .operate 3 (.putValues 2 (some (Source.ofList [5, 8, 8])))]

def meetingOn (d : Discipline) : List (Answer d Event Nat Nat) × Multimap d Event Nat Nat :=
  Step.runAll meeting (Multimap.stack d narrowing (fun _ _ => pure none) [(1, 4), (2, 4)])

theorem sets_follow_sequences_meeting :
    (Discipline.distinct ≠ .sequence ∧ (∀ s ∈ meeting, s.WholeKeys) ∧
      ∀ a ∈ (meetingOn .sequence).1, a.recastFails = false) ∧
    ((meetingOn .sequence).2.mappings =
        [(2, 4), (2, 5), (2, 5), (2, 6), (2, 4), (2, 5), (2, 8), (2, 8)] ∧
      (meetingOn .distinct).2.mappings = [(2, 4), (2, 5), (2, 6), (2, 8)]) ∧
    List.Forall₂ Answer.FailAlike (meetingOn .sequence).1 (meetingOn .distinct).1 ∧
    (meetingOn .sequence).2.ReadsAlike (meetingOn .distinct).2 ∧
    (∀ n k v b, ((meetingOn .distinct).2.inside n (·.put k v)).result = .ok b →
      ∃ q, (passage ((meetingOn .sequence).2.layers.drop n) k v).result = .ok q ∧
        b = !(meetingOn .sequence).2.containsMapping q.1 q.2) ∧
    ∀ l, (∃ m, ((meetingOn .sequence).2.recast l).value = .ok m) ↔
      ∃ m, ((meetingOn .distinct).2.recast l).value = .ok m := by
  have hd : Discipline.distinct ≠ .sequence := by decide
  have hss : ∀ s ∈ meeting, s.WholeKeys := by
    simp [meeting, Step.WholeKeys, Operation.WholeKeys]
  have hok : ∀ a ∈ (meetingOn .sequence).1, a.recastFails = false := by decide
  have hfollow := sets_follow_sequences hd narrowing (fun _ _ => pure none) [(1, 4), (2, 4)] hss hok
  exact ⟨⟨hd, hss, hok⟩, ⟨rfl, rfl⟩, hfollow⟩

end LayeredMultimap
