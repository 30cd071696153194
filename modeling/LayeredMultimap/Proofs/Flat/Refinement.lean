import LayeredMultimap.Proofs.Flat.Represents
import LayeredMultimap.Session
import LayeredMultimap.Value.Event

/-!
# Plain multimaps refine flat sequences

Whatever is asked of a plain multimap, the answers are those of a flat sequence of mappings. The
bags by key, with the empty ones that edits leave behind, do not show.
-/

namespace LayeredMultimap

variable {d : Discipline} {E K V : Type}

/-- What is asked of a plain multimap: an operation or an extension. -/
inductive Command (E K V : Type) where
  | operate (o : Operation E K V)
  | extend (ps : Source E (K × V))

/-- The step of a session that asks it. -/
def Command.step : Command E K V → Step E K V
  | .operate o => .operate 0 o
  | .extend ps => .extend 0 ps

/-- The result in the answer to a single step. -/
def Answer.result? : Answer d E K V → Option (Except MapError (Report K V))
  | .step result _ _ _ => some result
  | .fork _ _ => none

variable [DecidableEq K] [Ord K] [DecidableEq V] [Ord V]

namespace Flat

/-- What a command comes to, and the sequence after it. -/
def perform (d : Discipline) (ps : List (K × V)) :
    Command E K V → Except MapError (Report K V) × List (K × V)
  | .operate o => operate d ps o
  | .extend qs => (.ok .done, (insertAll d ps qs.items).2)

/-- What a run of commands comes to, and the sequence after it. -/
def run (d : Discipline) (ps : List (K × V)) :
    List (Command E K V) → List (Except MapError (Report K V)) × List (K × V)
  | [] => ([], ps)
  | c :: cs =>
    let performed := perform d ps c
    let rest := run d performed.2 cs
    (performed.1 :: rest.1, rest.2)

end Flat

namespace Multimap

omit [Ord K] [Ord V] in
theorem arrive_ofContent (c : Content d K V) (ps : List (K × V)) :
    (ofContent c : Multimap d E K V).Arrive ps ps :=
  List.forall₂_same.2 fun _ _ => rfl

/-- An outcome on a plain multimap matches a result and a sequence. -/
def Matches (o : Outcome (Multimap d E K V) E (Report K V))
    (r : Except MapError (Report K V) × List (K × V)) : Prop :=
  o.result = r.1 ∧ ∃ c, o.state = ofContent c ∧ Represents c r.2

variable [Std.TransOrd K] [Std.LawfulEqOrd K] [Std.TransOrd V] [Std.LawfulEqOrd V]
  {c : Content d K V} {ps : List (K × V)}

theorem matches_insertion (h : Represents c ps) {o : Outcome (Multimap d E K V) E Bool}
    {qs : List (K × V)} (hres : o.result = .ok (c.addAll qs).1)
    (hst : o.state = ofContent (c.extend qs)) : Matches (o.map .flag) (Flat.insertion d ps qs) := by
  obtain ⟨hflag, hrep⟩ := h.addAll qs
  refine ⟨?_, c.extend qs, hst, hrep⟩
  rw [Outcome.result_map, hres]
  exact congrArg (fun b => Except.ok (Report.flag b)) hflag

theorem putPairs_matches (h : Represents c ps) (qs : Source E (K × V)) :
    Matches (((ofContent c).putPairs qs).map .flag) (Flat.insertion d ps qs.items) := by
  obtain ⟨hres, hst⟩ := putPairs_of_arrive (arrive_ofContent (E := E) c qs.items)
  exact matches_insertion h hres hst

theorem putValues_matches (h : Represents c ps) (k : K) (vs : Source E V) :
    Matches (((ofContent c).putValues k vs).map .flag)
      (Flat.insertion d ps (vs.items.map (k, ·))) := by
  have hpass : List.Forall₂
      (fun v w => ((ofContent c : Multimap d E K V).outer.passValue v).result = .ok w)
      vs.items vs.items := List.forall₂_same.2 fun _ _ => rfl
  obtain ⟨hres, hst⟩ := putValues_of_pass (k := k) rfl hpass
  exact matches_insertion h hres hst

theorem operate_matches (h : Represents c ps) (o : Operation E K V) :
    Matches ((ofContent c).operate o) (Flat.operate d ps o) := by
  cases o with
  | query q => exact ⟨congrArg _ (h.answer_eq q), c, rfl, h⟩
  | put k v =>
    have harrive : ((ofContent c : Multimap d E K V).arrival k v).value = .ok (k, v) := rfl
    obtain ⟨hflag, hrep⟩ := h.add k v
    rw [operate, put_of_arrival_ok harrive]
    refine ⟨?_, _, rfl, hrep⟩
    simp only [Flat.operate, Flat.insertion, Flat.insertAll, Bool.or_false]
    exact congrArg (fun b => Except.ok (Report.flag b)) hflag
  | putValues k vs =>
    cases vs with
    | none => exact ⟨rfl, c, rfl, h⟩
    | some vs => exact putValues_matches h k vs
  | putPairs qs =>
    cases qs with
    | none => exact ⟨rfl, c, rfl, h⟩
    | some qs => exact putPairs_matches h qs
  | putFrom other =>
    cases other with
    | none => exact ⟨rfl, c, rfl, h⟩
    | some other =>
      have hput := putPairs_matches h (Source.ofList other.mappings : Source E (K × V))
      rw [Source.items_ofList] at hput
      exact hput
  | edit k es =>
    obtain ⟨hreplies, hrep⟩ := h.edit k es
    exact ⟨congrArg (fun rs => Except.ok (Report.replies rs)) hreplies, _, rfl, hrep⟩
  | remove k =>
    exact ⟨congrArg (fun b => Except.ok (Report.bag b)) (h.get?_eq k), _, rfl, h.erase k⟩
  | removeMapping k v =>
    obtain ⟨hflag, hrep⟩ := h.removeMapping k v
    exact ⟨congrArg (fun b => Except.ok (Report.flag b)) hflag, _, rfl, hrep⟩
  | clear => exact ⟨rfl, .empty, rfl, .empty⟩
  | drain =>
    exact ⟨congrArg (fun gs => Except.ok (Report.groups gs)) h.toList_groups, .empty, rfl, .empty⟩

theorem extend_matches (h : Represents c ps) (qs : Source E (K × V)) :
    Matches (((ofContent c).extend qs).map fun _ => .done)
      (.ok .done, (Flat.insertAll d ps qs.items).2) :=
  ⟨rfl, _, rfl, (h.addAll qs.items).2⟩

end Multimap

variable [Std.TransOrd K] [Std.LawfulEqOrd K] [Std.TransOrd V] [Std.LawfulEqOrd V]
  [Logging E] [ToString K] [ToString V]

theorem Command.run_matches {c : Content d K V} {ps : List (K × V)} (h : Represents c ps)
    (a : Command E K V) :
    ∃ c', (Step.run a.step (Multimap.ofContent c)).2 = .ofContent c' ∧
      (Step.run a.step (Multimap.ofContent c)).1.result? = some (Flat.perform d ps a).1 ∧
      Represents c' (Flat.perform d ps a).2 := by
  cases a with
  | operate o =>
    obtain ⟨hres, c', hst, hrep⟩ := Multimap.operate_matches h o
    exact ⟨c', hst, congrArg some hres, hrep⟩
  | extend qs =>
    obtain ⟨hres, c', hst, hrep⟩ := Multimap.extend_matches h qs
    exact ⟨c', hst, congrArg some hres, hrep⟩

theorem Command.runAll_matches {c : Content d K V} {ps : List (K × V)} (h : Represents c ps)
    (as : List (Command E K V)) :
    ((Step.runAll (as.map Command.step) (Multimap.ofContent c)).1.map Answer.result? =
        (Flat.run d ps as).1.map some) ∧
      Represents (Step.runAll (as.map Command.step) (Multimap.ofContent c)).2.content
        (Flat.run d ps as).2 := by
  induction as generalizing c ps with
  | nil => exact ⟨rfl, h⟩
  | cons a as ih =>
    obtain ⟨c', hst, hres, hrep⟩ := Command.run_matches h a
    obtain ⟨hrest, hlast⟩ := ih hrep
    rw [List.map_cons, Step.runAll, hst, Flat.run]
    refine ⟨?_, hlast⟩
    rw [List.map_cons, List.map_cons, hres, hrest]

/-- **A plain multimap is a flat sequence of mappings**, to every command of a run. -/
theorem session_refines_flat (d : Discipline) (ps : List (K × V)) (as : List (Command E K V)) :
    let session := Step.runAll (as.map Command.step)
      (Multimap.ofContent (Content.ofMappings ps) : Multimap d E K V)
    let flat := Flat.run d (Flat.insertAll d [] ps).2 as
    session.1.map Answer.result? = flat.1.map some ∧ Represents session.2.content flat.2 :=
  Command.runAll_matches (Represents.empty.addAll ps).2 as

/-- Draining a key leaves an empty bag behind, which no later answer shows. -/
theorem session_refines_flat_drained :
    (Step.runAll ([.operate (.edit 1 [.drain]), .operate (.query .keyCount),
        .extend (Source.ofList [(2, 4)]), .operate (.removeMapping 2 3),
        .operate (.query .mappings)].map Command.step)
      (Multimap.ofContent (Content.ofMappings [(1, 2), (2, 3), (1, 2)]) :
        Multimap .distinct Event Nat Nat)).1.map Answer.result? =
      [some (.ok (.replies [.values [2]])), some (.ok (.count 1)), some (.ok .done),
        some (.ok (.flag true)), some (.ok (.mappings [(2, 4)]))] :=
  (session_refines_flat .distinct [(1, 2), (2, 3), (1, 2)] _).1

end LayeredMultimap
