import LayeredMultimap.Proofs.Ghost.Recast
import LayeredMultimap.Session
import LayeredMultimap.Value.Event
import Mathlib.Data.List.Forall2

/-!
# Sessions on keys without values

Two sessions whose multimaps differ in ghosts only give the same answers to every run of steps. Left
out are the two steps that are meant to show all keys: the listing of a content and the inspection.
-/

namespace LayeredMultimap

variable {d : Discipline} {E K V : Type} [Ord K]

/-- The same donor, or plain ones with the same mappings and other keys without values. -/
inductive Donor.GhostEq : Donor E K V → Donor E K V → Prop
  | same (x : Donor E K V) : GhostEq x x
  | plain (d : Discipline) (ps : List (K × V)) (touched touched' : List K) :
      GhostEq (.plain d ps touched) (.plain d ps touched')

/-- The same step, up to ghosts in what is merged. -/
inductive Step.GhostEq : Step E K V → Step E K V → Prop
  | operate (depth : Nat) {o o' : Operation E K V} (h : o.GhostEq o') :
      GhostEq (.operate depth o) (.operate depth o')
  | merge (depth : Nat) {x x' : Option (Donor E K V)} (h : Option.Rel Donor.GhostEq x x') :
      GhostEq (.merge depth x) (.merge depth x')
  | extend (depth : Nat) (ps : Source E (K × V)) : GhostEq (.extend depth ps) (.extend depth ps)
  | flags (depth : Nat) : GhostEq (.flags depth) (.flags depth)
  | decorate (l : Layer E K V) (existing : Bool) (recovery : Recovery) :
      GhostEq (.decorate l existing recovery) (.decorate l existing recovery)
  | unwrap : GhostEq .unwrap .unwrap
  | build (calls : List (BuildCall E K V)) : GhostEq (.build calls) (.build calls)
  | fork {ss ss' : List (Step E K V)} (h : List.Forall₂ GhostEq ss ss') :
      GhostEq (.fork ss) (.fork ss')

/-- Answers with the same result and the same trace. What they show of the multimap, and of one that
a failed recast has handed back, differs in ghosts only. -/
inductive Answer.GhostEq : Answer d E K V → Answer d E K V → Prop
  | step (result : Except MapError (Report K V)) (trace : List E)
      {returned returned' : Option (RecastError (Multimap d E K V))} {c c' : Content d K V}
      (hreturned : Option.Rel RecastError.GhostEq returned returned') (hc : c.GhostEq c') :
      GhostEq (.step result trace returned c) (.step result trace returned' c')
  | fork {as as' : List (Answer d E K V)} {c c' : Content d K V}
      (has : List.Forall₂ GhostEq as as') (hc : c.GhostEq c') :
      GhostEq (.fork as c) (.fork as' c')

/-- Two answers are alike, and so are the multimaps after them. -/
def StepsAlike (x x' : Answer d E K V × Multimap d E K V) : Prop :=
  x.1.GhostEq x'.1 ∧ x.2.GhostEq x'.2

namespace Multimap

variable [DecidableEq V] [Ord V] [Std.LawfulEqOrd K] [Std.TransOrd K] {m m' : Multimap d E K V}

theorem setAll_settings {b b' : Builder d E K V} (hb : b.GhostEq b') (h : m.GhostEq m')
    (calls : List (BuildCall E K V)) :
    (b.setAll (m.settings calls)).GhostEq (b'.setAll (m'.settings calls)) := by
  induction calls generalizing b b' with
  | nil => exact hb
  | cons call calls ih =>
    refine ih ?_
    cases call with
    | current => exact ⟨.some h, hb.layer, hb.existing⟩
    | fresh ps =>
      have hc := Content.ghostEq_self (Content.ascends_ofMappings (d := d) ps)
      have hfresh : (ofContent (Content.ofMappings ps) : Multimap d E K V).GhostEq
          (ofContent (Content.ofMappings ps)) := .base _ hc
      rw [h.depth_eq]
      exact ⟨.some (hfresh.wrap m'.depth), hb.layer, hb.existing⟩
    | key t => exact ⟨hb.map, congrArg ({ · with key := some t }) hb.layer, hb.existing⟩
    | value t => exact ⟨hb.map, congrArg ({ · with value := some t }) hb.layer, hb.existing⟩
    | existing e => exact ⟨hb.map, hb.layer, rfl⟩

variable [DecidableEq K]

theorem merge_agree (h : m.GhostEq m') {x x' : Option (Donor E K V)}
    (hx : Option.Rel Donor.GhostEq x x') : (m.merge x).Agree GhostEq (m'.merge x') := by
  cases hx with
  | none => exact ⟨rfl, rfl, h⟩
  | @some x x' hx =>
    cases hx with
    | plain d' ps touched touched' =>
      -- both donors differ in ghosts only from the one that was never touched
      have hps := Content.ghostEq_self (Content.ascends_ofMappings (d := d') ps)
      have hdonor := ((hps.touchAll touched').symm.touchAll touched).symm
      exact putFrom_agree h (Multimap.GhostEq.base _ hdonor).mappings_eq
    | same =>
      cases x with
      | self => exact putFrom_agree h h.mappings_eq
      | plain d' ps touched => exact putFrom_agree h rfl
      | layered l ps =>
        rw [merge, merge]
        cases ((empty (d := .sequence).under l).putPairs (Source.ofList ps)).result with
        | ok b => exact (putFrom_agree h rfl).after _
        | error e => exact ⟨rfl, rfl, h⟩

theorem extend_agree (h : m.GhostEq m') (ps : Source E (K × V)) :
    (m.extend ps).Agree GhostEq (m'.extend ps) :=
  ⟨rfl, rfl, h.withContent (h.content.extend ps.items)⟩

end Multimap

namespace Step

variable {m m' : Multimap d E K V}

theorem conclude_alike {o o' : Outcome (Multimap d E K V) E (Report K V)}
    (h : o.Agree Multimap.GhostEq o') : StepsAlike (conclude o) (conclude o') := by
  obtain ⟨result, state, trace⟩ := o
  obtain ⟨result', state', trace'⟩ := o'
  obtain ⟨rfl, rfl, hstate⟩ := h
  exact ⟨.step result trace .none hstate.content, hstate⟩

theorem conclude_flags_alike (h : m.GhostEq m') (t : List E) :
    StepsAlike (conclude ⟨.ok (.flags m.flags?), m, t⟩)
      (conclude ⟨.ok (.flags m'.flags?), m', t⟩) := by
  rw [h.flags?_eq]
  exact conclude_alike ⟨rfl, rfl, h⟩

theorem concludeRecast_alike
    {recast recast' : Traced E (Except (RecastError (Multimap d E K V)) (Multimap d E K V))}
    (h : recast.Agree (EndsAlike RecastError.GhostEq Multimap.GhostEq) recast')
    (recovery : Recovery) :
    StepsAlike (concludeRecast recovery recast) (concludeRecast recovery recast') := by
  obtain ⟨htrace, hvalue⟩ := h
  rw [concludeRecast, concludeRecast]
  simp only [htrace]
  generalize recast.value = x, recast'.value = x' at hvalue
  cases hvalue with
  | ok h => exact conclude_flags_alike h _
  | @error e e' he =>
    obtain ⟨error, map⟩ := e
    obtain ⟨error', map'⟩ := e'
    obtain ⟨rfl, hmap⟩ := he
    cases recovery with
    | keep => exact ⟨.step _ _ (.some ⟨rfl, hmap⟩) hmap.content, hmap⟩
    | discard =>
      have hempty := Content.ghostEq_self (d := d) (V := V) (Table.ascends_empty (K := K))
      exact ⟨.step _ _ (.some ⟨rfl, hmap⟩) hempty, .base _ hempty⟩

theorem concludeBuild_alike (h : m.GhostEq m') (calls : List (BuildCall E K V))
    {built built' : Traced E (Except MapError (Multimap d E K V))}
    (hbuilt : built.Agree (EndsAlike Eq Multimap.GhostEq) built') :
    StepsAlike (concludeBuild calls m built) (concludeBuild calls m' built') := by
  obtain ⟨htrace, hvalue⟩ := hbuilt
  rw [concludeBuild, concludeBuild]
  simp only [htrace]
  generalize built.value = x, built'.value = x' at hvalue
  cases hvalue with
  | ok h => exact conclude_flags_alike h _
  | error he =>
    obtain rfl := he
    refine conclude_alike ⟨rfl, rfl, ?_⟩
    cases calls.any BuildCall.takesCurrent with
    | false => exact h
    | true => exact .base _ (Content.ghostEq_self Table.ascends_empty)

variable [DecidableEq K] [DecidableEq V] [Ord V] [Logging E]

section Layers

variable [Std.LawfulEqOrd K] [Std.TransOrd K]

theorem decorateWith_alike (h : m.GhostEq m') (l : Layer E K V) (existing : Bool)
    (recovery : Recovery) :
    StepsAlike (decorateWith l existing recovery m) (decorateWith l existing recovery m') := by
  cases existing with
  | false => exact conclude_flags_alike (.layered l h) []
  | true => exact concludeRecast_alike (Multimap.recast_agree h l) recovery

theorem buildWith_alike (h : m.GhostEq m') (calls : List (BuildCall E K V)) :
    StepsAlike (buildWith calls m) (buildWith calls m') := by
  have hnew : (Builder.new : Builder d E K V).GhostEq .new := ⟨.none, rfl, rfl⟩
  exact concludeBuild_alike h calls (Builder.build_agree (Multimap.setAll_settings hnew h calls))

end Layers

/-! ## Steps and runs -/

variable [ToString K] [ToString V]

mutual

theorem run_alike [Std.LawfulEqOrd K] [Std.TransOrd K] (s s' : Step E K V) (hs : s.GhostEq s')
    (m m' : Multimap d E K V) (h : m.GhostEq m') : StepsAlike (run s m) (run s' m') := by
  cases hs with
  | operate n ho =>
    exact conclude_alike (Multimap.inside_agree (fun _ _ hm => Multimap.operate_agree hm ho) h n)
  | merge n hx =>
    exact conclude_alike
      (Multimap.inside_agree (fun _ _ hm => (Multimap.merge_agree hm hx).map _) h n)
  | extend n ps =>
    exact conclude_alike
      (Multimap.inside_agree (fun _ _ hm => (Multimap.extend_agree hm ps).map _) h n)
  | flags n =>
    have hflags : (m.peel n).flags? = (m'.peel n).flags? := (h.peel n).flags?_eq
    rw [run, run, hflags]
    exact conclude_alike ⟨rfl, rfl, h⟩
  | decorate l existing recovery => exact decorateWith_alike h l existing recovery
  | unwrap => exact conclude_alike ⟨rfl, rfl, h.unwrap⟩
  | build calls => exact buildWith_alike h calls
  -- a fork leaves the multimap before it current
  | @fork ss ss' hss => exact ⟨.fork (runAll_alike ss ss' hss m m' h).1 h.content, h⟩
termination_by structural s

theorem runAll_alike [Std.LawfulEqOrd K] [Std.TransOrd K] (ss ss' : List (Step E K V))
    (hss : List.Forall₂ Step.GhostEq ss ss') (m m' : Multimap d E K V) (h : m.GhostEq m') :
    List.Forall₂ Answer.GhostEq (runAll ss m).1 (runAll ss' m').1 ∧
      (runAll ss m).2.GhostEq (runAll ss' m').2 := by
  cases hss with
  | nil => exact ⟨.nil, h⟩
  | @cons s s' r r' hs hr =>
    obtain ⟨hfirst, hmid⟩ := run_alike s s' hs m m' h
    obtain ⟨hrest, hlast⟩ := runAll_alike r r' hr _ _ hmid
    exact ⟨.cons hfirst hrest, hlast⟩
termination_by structural ss

end

end Step

variable [DecidableEq K] [DecidableEq V] [Ord V] [Std.LawfulEqOrd K] [Std.TransOrd K] [Logging E]
  [ToString K] [ToString V]

/-- **Keys without values are not seen**, be they in the multimap or in what is merged into it. -/
theorem ghosts_unobservable {m m' : Multimap d E K V} (h : m.GhostEq m')
    {ss ss' : List (Step E K V)} (hss : List.Forall₂ Step.GhostEq ss ss') :
    List.Forall₂ Answer.GhostEq (Step.runAll ss m).1 (Step.runAll ss' m').1 ∧
      ∀ n, (Step.runAll (ss.take n) m).2.GhostEq (Step.runAll (ss'.take n) m').2 :=
  ⟨(Step.runAll_alike ss ss' hss m m' h).1,
    fun n => (Step.runAll_alike _ _ (List.forall₂_take n hss) m m' h).2⟩

/-- One mapping below a layer that adds ten to what is put, and keys without values. -/
def haunted (ks : List Nat) : Multimap .sequence Event Nat Nat :=
  (Multimap.ofContent (ks.foldl Content.touch (Content.ofMappings [(1, 2)]))).under
    ⟨none, some (.ofFunction (· + 10))⟩

/-- A merge from a donor with keys without values, a recast and a look at the keys. -/
def visit (ks : List Nat) : List (Step Event Nat Nat) :=
  [.merge 0 (some (.plain .ascending [(3, 4)] ks)), .decorate .empty true .keep,
    .operate 1 (.query .keys)]

/-- Neither a ghost in the multimap nor one in what is merged into it shows. -/
theorem ghosts_unobservable_haunted :
    ((haunted [5]).GhostEq (haunted []) ∧ List.Forall₂ Step.GhostEq (visit [7]) (visit [])) ∧
    List.Forall₂ Answer.GhostEq (Step.runAll (visit [7]) (haunted [5])).1
        (Step.runAll (visit []) (haunted [])).1 ∧
      ∀ n, (Step.runAll ((visit [7]).take n) (haunted [5])).2.GhostEq
        (Step.runAll ((visit []).take n) (haunted [])).2 := by
  have hc := Content.ghostEq_self (Content.ascends_ofMappings (d := .sequence) [(1, 2)])
  have hm : (haunted [5]).GhostEq (haunted []) := .layered _ (.base _ (hc.touch 5).symm)
  have hss : List.Forall₂ Step.GhostEq (visit [7]) (visit []) :=
    .cons (.merge 0 (.some (.plain _ _ _ _))) (.cons (.decorate _ _ _)
      (.cons (.operate 1 (.same _)) .nil))
  exact ⟨⟨hm, hss⟩, ghosts_unobservable hm hss⟩

end LayeredMultimap
