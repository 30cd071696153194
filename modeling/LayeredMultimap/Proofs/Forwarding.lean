import LayeredMultimap.Multimap.Operation
import LayeredMultimap.Proofs.Batch
import LayeredMultimap.Proofs.Passage

/-!
# What the layers hand on to the base

`forward` turns an operation on a multimap into one on its base. It looks at the layers and at the
operation only, never at the content: insertions get other arguments, and everything else is
handed on as it is. A transformer that fails in the middle of a bulk insertion cuts the source off,
so that the base first gets what came before the failure.

`operate_eq_serve` says that this is all that the layers do.
-/

namespace LayeredMultimap

/-! ## Sources -/

namespace Source

variable {E α β : Type}

/-- Draws items and takes each through `f`, up to the first failure, which is kept with its
events. -/
def through (f : α → Attempt E β) : Source E α → Source E β × Option (Traced E TransformFailure)
  | [] => ([], none)
  | s :: r =>
    match (f s.value).result with
    | .ok b => (⟨s.trace ++ (f s.value).trace, b⟩ :: (through f r).1, (through f r).2)
    | .error e => ([], some ⟨s.trace ++ (f s.value).trace, e⟩)

theorem through_cons_of_ok {f : α → Attempt E β} {s : Traced E α} {b : β}
    (h : (f s.value).result = .ok b) (r : Source E α) :
    through f (s :: r) =
      (⟨s.trace ++ (f s.value).trace, b⟩ :: (through f r).1, (through f r).2) := by
  simp only [through, h]

theorem through_cons_of_error {f : α → Attempt E β} {s : Traced E α} {e : TransformFailure}
    (h : (f s.value).result = .error e) (r : Source E α) :
    through f (s :: r) = ([], some ⟨s.trace ++ (f s.value).trace, e⟩) := by
  simp only [through, h]

end Source

/-! ## Failures that come late -/

namespace Outcome

variable {σ τ E α β : Type}

/-- Fails behind an operation that succeeded. One that failed keeps its own error. -/
def thenFail (o : Outcome σ E α) : Option (Traced E TransformFailure) → Outcome σ E α
  | none => o
  | some x => o.andThen fun _ s => ⟨.error (.transform x.value), s, x.trace⟩

@[simp] theorem thenFail_none (o : Outcome σ E α) : o.thenFail none = o := rfl

theorem map_thenFail (f : α → β) (o : Outcome σ E α) (x : Option (Traced E TransformFailure)) :
    (o.map f).thenFail x = (o.thenFail x).map f := by
  cases x with
  | none => rfl
  | some x =>
    cases h : o.result with
    | ok a => simp only [thenFail, andThen, map, h, Except.map]; rfl
    | error e => simp only [thenFail, andThen, map, h, Except.map]

theorem mapState_thenFail (f : σ → τ) (o : Outcome σ E α)
    (x : Option (Traced E TransformFailure)) :
    (o.mapState f).thenFail x = (o.thenFail x).mapState f := by
  cases x with
  | none => rfl
  | some x =>
    cases h : o.result with
    | ok a => simp only [thenFail, andThen, mapState, h]; rfl
    | error e => simp only [thenFail, andThen, mapState, h]

theorem andThen_thenFail (o : Outcome σ E α) (f : α → σ → Outcome σ E β)
    (x : Option (Traced E TransformFailure)) :
    (o.andThen f).thenFail x = o.andThen fun a s => (f a s).thenFail x := by
  cases x with
  | none => rfl
  | some x => simp only [thenFail, andThen_andThen]

theorem after_thenFail (t : List E) (o : Outcome σ E α)
    (x : Option (Traced E TransformFailure)) :
    (o.after t).thenFail x = (o.thenFail x).after t := by
  cases x with
  | none => rfl
  | some x => simp only [thenFail, after_andThen]

end Outcome

/-! ## Values of one key -/

section

variable {d : Discipline} {E K V : Type} [Ord K] [DecidableEq V] [Ord V]

namespace Content

theorem pour_pure_cons (c : Content d K V) (k : K) (s : Traced E V) (r : Source E V) :
    c.pour pure k (s :: r) =
      (((c.add k s.value).2.pour pure k r).map ((c.add k s.value).1 || ·)).after s.trace := by
  have hpass : (pure s.value : Attempt E V).result = .ok s.value := rfl
  rw [pour_cons_of_ok hpass]
  exact congrArg (Outcome.after · _) (List.append_nil s.trace)

theorem pour_eq_through (c : Content d K V) (f : V → Attempt E V) (k : K) (s : Source E V) :
    c.pour f k s = (c.pour pure k (Source.through f s).1).thenFail (Source.through f s).2 := by
  induction s generalizing c with
  | nil => rfl
  | cons s r ih =>
    cases h : (f s.value).result with
    | error e =>
      rw [Source.through_cons_of_error h, pour_cons_of_error h]
      rfl
    | ok v =>
      rw [Source.through_cons_of_ok h, pour_cons_of_ok h, ih, pour_pure_cons,
        Outcome.after_thenFail, Outcome.map_thenFail]

end Content

namespace Multimap

theorem answer_layered (l : Layer E K V) (m : Multimap d E K V) (q : Query K V) :
    (layered l m).answer q = m.answer q := by
  cases q with
  | size => exact congrArg _ (size_layered l m)
  | isEmpty => exact congrArg _ (isEmpty_layered l m)
  | keyCount => exact congrArg _ (keyCount_layered l m)
  | containsKey k => exact congrArg _ (containsKey_layered l m k)
  | containsValue v => exact congrArg _ (containsValue_layered l m v)
  | containsMapping k v => exact congrArg _ (containsMapping_layered l m k v)
  | get k => exact congrArg (fun b => Report.bag (b.map Bag.toList)) (get?_layered l m k)
  | mappings => exact congrArg _ (mappings_layered l m)
  | keys => exact congrArg _ (keys_layered l m)
  | values => exact congrArg _ (values_layered l m)

theorem answer_eq_base (m : Multimap d E K V) (q : Query K V) :
    m.answer q = (base m.root).answer q := by
  induction m with
  | base b => rfl
  | layered l m ih => exact (answer_layered l m q).trans ih

end Multimap

end

/-! ## Forwarding -/

/-- An operation for the base, and the failure that comes behind it, if there is one. -/
structure Forwarded (E K V : Type) where
  operation : Operation E K V
  failure : Option (Traced E TransformFailure)

variable {d : Discipline} {E K V : Type} [DecidableEq K] [DecidableEq V]

/-- What layers, outermost first, hand on of an operation behind their own calls. Values for a key
pass the outermost one only, and the first of them is drawn before the key is transformed. -/
def forward [Ord V] (ls : List (Layer E K V)) : Operation E K V → Attempt E (Forwarded E K V)
  | .put k v => do
    let p ← passage ls k v
    pure ⟨.put p.1 p.2, none⟩
  | .putPairs (some ps) =>
    let passed := Source.through (fun p => passage ls p.1 p.2) ps
    pure ⟨.putPairs (some passed.1), passed.2⟩
  | .putFrom (some other) =>
    let passed := Source.through (fun p => passage ls p.1 p.2) (Source.ofList other.mappings)
    pure ⟨.putPairs (some passed.1), passed.2⟩
  | .putValues k (some (s :: r)) => do
    let v ← Attempt.ofTraced s
    let k ← (ls.headD .empty).passKey k
    let passed := Source.through (ls.headD .empty).passValue (pure v :: r)
    pure ⟨.putValues k (some passed.1), passed.2⟩
  | o => pure ⟨o, none⟩

/-- Whether an operation brings mappings in that pass the layers. -/
def Operation.inserts : Operation E K V → Bool
  | .put .. | .putValues .. | .putPairs .. | .putFrom .. => true
  | _ => false

theorem forward_of_not_inserts [Ord V] {o : Operation E K V} (h : o.inserts = false)
    (ls : List (Layer E K V)) : forward ls o = pure ⟨o, none⟩ := by
  cases o with
  | put | putValues | putPairs | putFrom => cases h
  | query | edit | remove | removeMapping | clear | drain => rfl

variable [Ord K] [Ord V]

namespace Base

/-- Runs an operation on a base without layers. -/
def operate (b : Base d E K V) (o : Operation E K V) : Outcome (Base d E K V) E (Report K V) :=
  ((Multimap.base b).operate o).mapState Multimap.root

/-- Serves what layers hand on. A failure on the way to the base leaves it alone. -/
def serve (b : Base d E K V) (x : Attempt E (Forwarded E K V)) :
    Outcome (Base d E K V) E (Report K V) :=
  (Outcome.ofAttempt x b).andThen fun f b => (b.operate f.operation).thenFail f.failure

@[simp] theorem serve_pure (b : Base d E K V) (f : Forwarded E K V) :
    b.serve (pure f) = (b.operate f.operation).thenFail f.failure := rfl

theorem serve_bind {α : Type} (b : Base d E K V) (x : Attempt E α)
    (f : α → Attempt E (Forwarded E K V)) :
    b.serve (x >>= f) = (Outcome.ofAttempt x b).andThen fun a b => b.serve (f a) := by
  simp only [serve, Outcome.ofAttempt_bind, Outcome.andThen_andThen]

end Base

/-! ## Bulk insertions -/

namespace Multimap

theorem putValues_base (b : Base d E K V) (k : K) (s : Source E V) :
    (base b).putValues k s = (base b).onContent fun c => c.pour pure k s := by
  cases s with
  | nil => rfl
  | cons s r =>
    have hkey : ((base b).outer.passKey k).result = .ok k := rfl
    rw [putValues_cons_of_ok hkey, onContent, onContent]
    show (((b.content.pour pure k (pure s.value :: r)).mapState _).after (s.trace ++ [])) = _
    rw [Content.pour_pure_cons, Content.pour_pure_cons, List.append_nil]
    rfl

theorem onContent_pour_eq_through (m : Multimap d E K V) (f : V → Attempt E V) (k : K)
    (s : Source E V) :
    (m.onContent fun c => c.pour f k s) =
      (((base m.root).putValues k (Source.through f s).1).thenFail
        (Source.through f s).2).mapState fun b => m.withRoot b.root := by
  rw [putValues_base, onContent, onContent, Outcome.mapState_thenFail, Content.pour_eq_through]
  ext1
  · rfl
  · exact withContent_eq_withRoot m _
  · rfl

/-- Mappings that are put one after the other pass the layers one after the other. -/
theorem putPairs_eq_through (m : Multimap d E K V) (ps : Source E (K × V)) :
    m.putPairs ps =
      (((base m.root).putPairs (Source.through (fun p => passage m.layers p.1 p.2) ps).1).thenFail
        (Source.through (fun p => passage m.layers p.1 p.2) ps).2).mapState fun b =>
          m.withRoot b.root := by
  induction ps generalizing m with
  | nil =>
    show Outcome.ok false m = Outcome.ok false (m.withRoot m.root)
    rw [withRoot_root]
  | cons s r ih =>
    rw [putPairs_cons, Outcome.after_andThen, put_eq_passage]
    cases h : (passage m.layers s.value.1 s.value.2).result with
    | error e =>
      rw [Source.through_cons_of_error h, Outcome.ofAttempt_andThen_of_error h]
      rfl
    | ok p =>
      let passed := Source.through (fun p => passage m.layers p.1 p.2) r
      let b := (m.root.put p.1 p.2).state
      have hrest := ih (m.withRoot b)
      simp only [layers_withRoot, root_withRoot, withRoot_withRoot] at hrest
      -- the rest of the run, from where the first put leaves the base
      have hnext (here : Bool) : ((m.withRoot b).putPairs r).map (here || ·) =
          ((((base b).putPairs passed.1).map (here || ·)).thenFail passed.2).mapState fun b =>
            m.withRoot b.root := by
        rw [hrest, Outcome.map_thenFail]
        rfl
      rw [Source.through_cons_of_ok h, Outcome.ofAttempt_andThen_of_ok h, Outcome.mapState_after,
        Outcome.after_andThen, Outcome.after_after, putPairs_cons, Outcome.after_andThen,
        Outcome.after_thenFail, Outcome.andThen_thenFail, Outcome.mapState_after]
      refine congrArg (Outcome.after _) ?_
      exact Outcome.mapState_andThen (o := (base m.root).put p.1 p.2)
        (f := fun b => m.withRoot b.root) hnext

/-! ## All operations -/

theorem operate_layered (l : Layer E K V) (m : Multimap d E K V) {o : Operation E K V}
    (h : o.inserts = false) : (layered l m).operate o = (m.operate o).mapState (layered l) := by
  cases o with
  | put | putValues | putPairs | putFrom => cases h
  | query q => exact congrArg (Outcome.ok · _) (answer_layered l m q)
  | edit k es =>
    exact congrArg (fun x => (Outcome.ofPair x).map Report.replies) (edit_layered l m k es)
  | remove k =>
    exact congrArg (fun x => (Outcome.ofPair x).map fun b => Report.bag (b.map Bag.toList))
      (remove_layered l m k)
  | removeMapping k v =>
    exact congrArg (fun x => (Outcome.ofPair x).map Report.flag) (removeMapping_layered l m k v)
  | clear => exact congrArg (Outcome.ok Report.done) (clear_layered l m)
  | drain =>
    exact congrArg
      (fun x => (Outcome.ofPair x).map fun gs => Report.groups (gs.map fun g => (g.1, g.2.toList)))
      (drain_layered l m)

theorem operate_eq_serve_of_not_inserts (m : Multimap d E K V) {o : Operation E K V}
    (h : o.inserts = false) :
    m.operate o = (m.root.serve (forward m.layers o)).mapState m.withRoot := by
  rw [forward_of_not_inserts h, Base.serve_pure, Outcome.thenFail_none]
  induction m with
  | base b =>
    cases o with
    | put | putValues | putPairs | putFrom => cases h
    | query | edit | remove | removeMapping | clear | drain => rfl
  | layered l m ih =>
    rw [operate_layered l m h, ih]
    rfl

theorem put_eq_serve (m : Multimap d E K V) (k : K) (v : V) :
    (m.put k v).map .flag = (m.root.serve (forward m.layers (.put k v))).mapState m.withRoot := by
  rw [forward, Base.serve_bind, put_eq_passage]
  cases h : (passage m.layers k v).result with
  | error e =>
    rw [Outcome.ofAttempt_andThen_of_error h, Outcome.ofAttempt_andThen_of_error h]
    rfl
  | ok p =>
    rw [Outcome.ofAttempt_andThen_of_ok h, Outcome.ofAttempt_andThen_of_ok h]
    rfl

theorem putPairs_eq_serve (m : Multimap d E K V) (ps : Source E (K × V)) :
    (m.putPairs ps).map .flag =
      (m.root.serve (forward m.layers (.putPairs (some ps)))).mapState m.withRoot := by
  rw [forward, Base.serve_pure, Base.operate, putPairs_eq_through, Outcome.mapState_thenFail]
  show _ = ((((base m.root).putPairs _).map Report.flag).thenFail _).mapState fun b =>
    m.withRoot b.root
  rw [Outcome.map_thenFail]
  rfl

theorem putValues_eq_serve (m : Multimap d E K V) (k : K) (vs : Source E V) :
    (m.putValues k vs).map .flag =
      (m.root.serve (forward m.layers (.putValues k (some vs)))).mapState m.withRoot := by
  cases vs with
  | nil =>
    show Outcome.ok (Report.flag false) m = .ok (.flag false) (m.withRoot m.root)
    rw [withRoot_root]
  | cons s r =>
    rw [forward, ← outer_eq_headD, Base.serve_bind, Outcome.ofAttempt_ofTraced,
      Outcome.after_andThen, Outcome.ok_andThen, Base.serve_bind, putValues,
      Outcome.after_andThen, Outcome.map_after, Outcome.mapState_after]
    refine congrArg (Outcome.after s.trace) ?_
    cases h : (m.outer.passKey k).result with
    | error e =>
      rw [Outcome.ofAttempt_andThen_of_error h, Outcome.ofAttempt_andThen_of_error h]
      show (⟨_, m, _⟩ : Outcome _ E (Report K V)) = ⟨_, m.withRoot m.root, _⟩
      rw [withRoot_root]
      rfl
    | ok k' =>
      rw [Outcome.ofAttempt_andThen_of_ok h, Outcome.ofAttempt_andThen_of_ok h,
        onContent_pour_eq_through, Base.serve_pure, Base.operate, Outcome.mapState_thenFail]
      show Outcome.after _ (((((base m.root).putValues k' _).thenFail _).map Report.flag).mapState
        fun b => m.withRoot b.root) = _
      rw [← Outcome.map_thenFail]
      rfl

/-- An operation on a multimap comes to what its base does with what the layers hand on. -/
theorem operate_eq_serve (m : Multimap d E K V) (o : Operation E K V) :
    m.operate o = (m.root.serve (forward m.layers o)).mapState m.withRoot := by
  have hfail (e : MapError) : (Outcome.fail e m : Outcome _ E (Report K V)) =
      .fail e (m.withRoot m.root) := by
    rw [withRoot_root]
  cases o with
  | put k v => exact put_eq_serve m k v
  | putValues k vs =>
    cases vs with
    | none => exact hfail _
    | some vs => exact putValues_eq_serve m k vs
  | putPairs ps =>
    cases ps with
    | none => exact hfail _
    | some ps => exact putPairs_eq_serve m ps
  | putFrom other =>
    cases other with
    | none => exact hfail _
    | some other => exact putPairs_eq_serve m (Source.ofList other.mappings)
  | query | edit | remove | removeMapping | clear | drain =>
    exact operate_eq_serve_of_not_inserts m rfl

end Multimap

end LayeredMultimap
