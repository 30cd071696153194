import LayeredMultimap.Proofs.Bracketing
import LayeredMultimap.Proofs.Calls

/-!
# Chains of transformers

A chain runs its transformers one after the other, each on the result of the one before it, and stops
at the first failure. The brackets that it is built with do not matter, nor does a transformer in it
that does nothing. A branch at its beginning can as well be made first, with a chain on either side.
-/

namespace LayeredMultimap

theorem Attempt.run_ofTraced_bind {E α β : Type} (x : Traced E α) (f : α → Attempt E β) :
    (Attempt.ofTraced x >>= f).run = (f x.value).run.after x.trace := by
  ext1
  · exact congrArg (· ++ (f x.value).run.trace) (List.append_nil x.trace)
  · rfl

namespace Transformer

variable {E α : Type}

/-- `us` are the transformers `ts` with any number of `nop` in between. -/
inductive Padded : List (Transformer E α) → List (Transformer E α) → Prop
  | nil : Padded [] []
  | keep (t : Transformer E α) {ts us : List (Transformer E α)} (h : Padded ts us) :
      Padded (t :: ts) (t :: us)
  | nop {ts us : List (Transformer E α)} (h : Padded ts us) : Padded ts (.nop :: us)

variable [DecidableEq α]

/-- Transformers are called in turn, each on the result of the one before it, up to the first
failure. `calls` are the calls with their inputs, and `result` is what the last one came to. -/
inductive CalledInTurn : List (Transformer E α) → α → List (Transformer E α × α) →
    Except TransformFailure α → Prop
  | done (x : α) : CalledInTurn [] x [] (.ok x)
  | next {t : Transformer E α} {ts : List (Transformer E α)} {x y : α}
      {calls : List (Transformer E α × α)} {result : Except TransformFailure α}
      (h : (t.run x).result = .ok y) (rest : CalledInTurn ts y calls result) :
      CalledInTurn (t :: ts) x ((t, x) :: calls) result
  | stop {t : Transformer E α} {x : α} {e : TransformFailure} (h : (t.run x).result = .error e)
      (ts : List (Transformer E α)) : CalledInTurn (t :: ts) x [(t, x)] (.error e)

/-- Calls each transformer on the result of the one before it. -/
def runAll (ts : List (Transformer E α)) (x : α) : Attempt E α := ts.foldlM (fun y t => t.run y) x

theorem runAll_cons (t : Transformer E α) (ts : List (Transformer E α)) (x : α) :
    runAll (t :: ts) x = t.run x >>= runAll ts := List.foldlM_cons

theorem runAll_append (ts us : List (Transformer E α)) (x : α) :
    runAll (ts ++ us) x = runAll ts x >>= runAll us := List.foldlM_append

theorem runAll_singleton (t : Transformer E α) (x : α) : runAll [t] x = t.run x := by
  rw [runAll_cons]
  exact bind_pure (t.run x)

theorem calledInTurn_runAll (ts : List (Transformer E α)) (x : α) :
    ∃ calls, CalledInTurn ts x calls (runAll ts x).result ∧
      (runAll ts x).trace = calls.flatMap fun c => (c.1.run c.2).trace := by
  induction ts generalizing x with
  | nil => exact ⟨[], .done x, rfl⟩
  | cons t ts ih =>
    rw [runAll_cons, Attempt.result_bind]
    cases h : (t.run x).result with
    | ok y =>
      obtain ⟨calls, hcalls, htrace⟩ := ih y
      refine ⟨(t, x) :: calls, .next h hcalls, ?_⟩
      rw [Attempt.trace_bind_of_ok h, htrace, List.flatMap_cons]
    | error e =>
      refine ⟨[(t, x)], .stop h ts, ?_⟩
      rw [Attempt.trace_bind_of_error h, List.flatMap_singleton]

/-- The brackets of a chain do not matter. -/
theorem run_fold_chain (t : Bracketing (Transformer E α)) : (t.fold .chain).run = runAll t.row := by
  have hchain (a b : Transformer E α) : (chain a b).run = fun x => a.run x >>= b.run :=
    funext fun _ => by rw [run]
  exact t.fold_eq_row run runAll (fun f g x => f x >>= g) hchain
    (fun a => funext (runAll_singleton a)) (fun ts us => funext (runAll_append ts us))

theorem Padded.runAll_eq {ts us : List (Transformer E α)} (h : Padded ts us) (x : α) :
    runAll us x = runAll ts x := by
  induction h generalizing x with
  | nil => rfl
  | keep t h ih =>
    rw [runAll_cons, runAll_cons]
    exact bind_congr ih
  | nop h ih => rw [runAll_cons, run, pure_bind, ih]

/-! ## Branches -/

theorem run_branch (p : Condition E α) (a b : Transformer E α) (x : α) :
    (branch p a b).run x =
      Attempt.ofTraced (p.test x) >>= fun ok => (if ok then a else b).run x := by
  rw [run]
  refine bind_congr fun ok => ?_
  cases ok <;> rfl

theorem run_chain_branch (p : Condition E α) (a b c : Transformer E α) (x : α) :
    (chain (branch p a b) c).run x =
      Attempt.ofTraced (p.test x) >>= fun ok => (chain (if ok then a else b) c).run x := by
  rw [run, run_branch, bind_assoc]
  rfl

/-- What comes behind a branch can be done on either side of it. -/
theorem run_chain_branch_eq_branch (p : Condition E α) (a b c : Transformer E α) (x : α) :
    (chain (branch p a b) c).run x = (branch p (chain a c) (chain b c)).run x := by
  rw [run_chain_branch, run_branch]
  refine bind_congr fun ok => ?_
  cases ok <;> rfl

/-- **Chains run in turn**, whatever their brackets are. A branch at the front chooses once, and
first. -/
theorem chains_run_in_turn :
    (∀ (ts : List (Transformer E α)) (t : Bracketing (Transformer E α)), Padded ts t.row → ∀ x,
      (t.fold .chain).run x = runAll ts x ∧
      ∃ calls, CalledInTurn ts x calls ((t.fold .chain).run x).result ∧
        ((t.fold .chain).run x).trace = calls.flatMap fun c => (c.1.run c.2).trace) ∧
    ∀ (p : Condition E α) (a b c : Transformer E α) (x : α),
      (chain (branch p a b) c).run x = (branch p (chain a c) (chain b c)).run x ∧
      ((chain (branch p a b) c).run x).run =
        ((chain (if (p.test x).value then a else b) c).run x).run.after (p.test x).trace := by
  refine ⟨fun ts t h x => ?_, fun p a b c x => ⟨run_chain_branch_eq_branch p a b c x, ?_⟩⟩
  · have hrun : (t.fold .chain).run x = runAll ts x := by
      rw [run_fold_chain, h.runAll_eq]
    rw [hrun]
    exact ⟨rfl, calledInTurn_runAll ts x⟩
  · rw [run_chain_branch, Attempt.run_ofTraced_bind]

/-- Halves even numbers and fails on odd ones, and tells of its input. -/
def halve (name : String) : Transformer (String × Nat) Nat :=
  noted (fun x => (name, x)) (.ofFallible fun x =>
    if x % 2 = 0 then .ok (x / 2) else .error ⟨"odd"⟩)

/-- Halves large numbers. -/
def halveLarge : Transformer (String × Nat) Nat :=
  .branch (.noted (fun x => ("large?", x)) (.satisfies (10 < ·))) (halve "large") .nop

/-- 48 is halved by three transformers, while 42 does not get behind the second one. -/
theorem chains_run_in_turn_halving :
    let ts := [halve "first", halveLarge, halve "last"]
    let t : Bracketing (Transformer (String × Nat) Nat) :=
      .pair (.pair (.single .nop) (.single (halve "first")))
        (.pair (.pair (.single halveLarge) (.single .nop)) (.single (halve "last")))
    (Padded ts t.row ∧ (t.fold .chain).run 48 = runAll ts 48 ∧
      (runAll ts 48).run =
        ⟨[("first", 48), ("large?", 24), ("large", 24), ("last", 12)], .ok 6⟩) ∧
    (∃ calls, CalledInTurn ts 42 calls (.error ⟨"odd"⟩) ∧
      [("first", 42), ("large?", 21), ("large", 21)] =
        calls.flatMap fun c => (c.1.run c.2).trace) ∧
    ((chain halveLarge (halve "last")).run 12).run =
      (((halve "large").chain (halve "last")).run 12).run.after [("large?", 12)] := by
  intro ts t
  obtain ⟨hchain, hbranch⟩ := chains_run_in_turn (E := String × Nat) (α := Nat)
  have hpadded : Padded ts t.row := .nop (.keep _ (.keep _ (.nop (.keep _ .nil))))
  exact ⟨⟨hpadded, (hchain ts t hpadded 48).1, rfl⟩, (hchain ts t hpadded 42).2,
    (hbranch _ _ _ _ 12).2⟩

end Transformer

end LayeredMultimap
