import LayeredMultimap.Proofs.Forwarding
import LayeredMultimap.Proofs.Stored

/-!
# What a step makes of a content

A step that does not edit a bag does one of four things to the content of the base: it adds
mappings, drops a key, takes a mapping out, or starts anew with some mappings (`Step.run_change`).
Bulk insertions that fail on their way and recasts that hand a multimap back are no exception, so
what these four changes keep is kept by every such step.
-/

namespace LayeredMultimap

variable {d : Discipline} {E K V : Type} [Ord K] [DecidableEq V] [Ord V]

namespace Content

/-- What can become of a content where no bag is edited. -/
inductive Change (c : Content d K V) : Content d K V → Prop
  | extend (ps : List (K × V)) : Change c (c.extend ps)
  | erase (k : K) : Change c (c.erase k)
  | removeMapping (k : K) (v : V) : Change c (c.removeMapping k v).2
  | renew (ps : List (K × V)) : Change c (.ofMappings ps)

/-- The content stays, or mappings that were added to nothing take its place. -/
def KeptOrNew (c c' : Content d K V) : Prop := c' = c ∨ ∃ ps, c' = .ofMappings ps

variable {c c' c'' : Content d K V}

theorem change_self (c : Content d K V) : c.Change c := .extend []

theorem KeptOrNew.change (h : c.KeptOrNew c') : c.Change c' := by
  rcases h with rfl | ⟨ps, rfl⟩
  · exact change_self c'
  · exact .renew ps

theorem KeptOrNew.trans (h : c.KeptOrNew c') (h' : c'.KeptOrNew c'') : c.KeptOrNew c'' := by
  rcases h' with rfl | hnew
  · exact h
  · exact .inr hnew

/-- A pour adds the values that get through, up to the first one that fails. -/
theorem pour_state_eq (c : Content d K V) (f : V → Attempt E V) (k : K) (s : Source E V) :
    (c.pour f k s).state = c.extend ((Source.through f s).1.items.map (k, ·)) := by
  induction s generalizing c with
  | nil => rfl
  | cons x r ih =>
    cases hx : (f x.value).result with
    | error e =>
      rw [pour_cons_of_error hx, Source.through_cons_of_error hx]
      rfl
    | ok w =>
      rw [pour_cons_of_ok hx, Source.through_cons_of_ok hx]
      exact ih (c.add k w).2

end Content

namespace Multimap

/-! ## Parts of a multimap -/

omit [Ord K] [DecidableEq V] [Ord V] in
theorem content_wrap (m : Multimap d E K V) (n : Nat) : (m.wrap n).content = m.content := by
  induction n with
  | zero => rfl
  | succ n ih => exact ih

theorem change_withContent {m : Multimap d E K V} {c : Content d K V} (h : m.content.Change c) :
    m.content.Change (m.withContent c).content := by
  rwa [content_withContent]

/-! ## Operations -/

variable [DecidableEq K]

theorem putValues_change (m : Multimap d E K V) (k : K) (vs : Source E V) :
    m.content.Change (m.putValues k vs).state.content := by
  cases vs with
  | nil => exact m.content.change_self
  | cons x r =>
    cases hk : (m.outer.passKey k).result with
    | error e =>
      rw [putValues_cons_of_error hk]
      exact m.content.change_self
    | ok k' =>
      have hpour : m.content.Change
          (m.content.pour m.outer.passValue k' (pure x.value :: r)).state := by
        rw [Content.pour_state_eq]
        exact .extend _
      rw [putValues_cons_of_ok hk]
      exact change_withContent hpour

theorem putPairs_change (m : Multimap d E K V) (ps : Source E (K × V)) :
    m.content.Change (m.putPairs ps).state.content := by
  obtain ⟨qs, hqs⟩ := m.putPairs_state_eq ps
  rw [hqs]
  exact change_withContent (.extend qs)

theorem operate_change (m : Multimap d E K V) {o : Operation E K V}
    (ho : ∀ k es, o ≠ .edit k es) : m.content.Change (m.operate o).state.content := by
  cases o with
  | query q => exact m.content.change_self
  | put k v =>
    cases hv : (m.arrival k v).value with
    | ok p =>
      rw [operate, put_of_arrival_ok hv]
      exact change_withContent (.extend [p])
    | error e =>
      rw [operate, put_of_arrival_error hv]
      exact m.content.change_self
  | putValues k vs =>
    cases vs with
    | none => exact m.content.change_self
    | some vs => exact m.putValues_change k vs
  | putPairs ps =>
    cases ps with
    | none => exact m.content.change_self
    | some ps => exact m.putPairs_change ps
  | putFrom other =>
    cases other with
    | none => exact m.content.change_self
    | some other => exact m.putPairs_change (Source.ofList other.mappings)
  | edit k es => exact absurd rfl (ho k es)
  | remove k => exact change_withContent (.erase k)
  | removeMapping k v => exact change_withContent (.removeMapping k v)
  | clear => exact change_withContent (.renew [])
  | drain => exact change_withContent (.renew [])

theorem merge_change (m : Multimap d E K V) (donor : Option (Donor E K V)) :
    m.content.Change (m.merge donor).state.content := by
  rcases m.merge_state_eq donor with hst | ⟨ps, hst⟩
  · rw [hst]
    exact m.content.change_self
  · rw [hst]
    exact m.putPairs_change (Source.ofList ps)

/-! ## Recasts and builds -/

variable [Logging E] {m n : Multimap d E K V} {l : Layer E K V} {gs : List (K × Bag d V)}

theorem recastIn_ok_content (h : (m.recastIn l gs).value = .ok n) :
    m.content.KeptOrNew n.content := by
  cases hempty : m.isEmpty with
  | true =>
    rw [recastIn_of_isEmpty hempty] at h
    cases h
    exact .inl rfl
  | false =>
    obtain ⟨qs, -, rfl⟩ := recastIn_of_ok hempty h
    exact .inr ⟨qs, content_withContent _ _⟩

/-- What is handed back was added to nothing as well, the images first. -/
theorem recastIn_error_content {e : RecastError (Multimap d E K V)}
    (h : (m.recastIn l gs).value = .error e) : m.content.KeptOrNew e.map.content := by
  rcases m.recastIn_cases l gs with
    ⟨-, hvalue⟩ | ⟨qs, -, hvalue⟩ | ⟨before, images, p, rest, e', -, -, -, hvalue⟩
  · rw [h] at hvalue
    cases hvalue
  · rw [h] at hvalue
    cases hvalue
  · rw [h] at hvalue
    cases hvalue
    exact .inr ⟨images ++ rest, content_withContent _ _⟩

omit [DecidableEq K] [Logging E] in
theorem setAll_settings_content {b : Builder d E K V} (hb : ∀ x, b.map = some x →
    m.content.KeptOrNew x.content) (calls : List (BuildCall E K V)) {x : Multimap d E K V}
    (hx : (b.setAll (m.settings calls)).map = some x) : m.content.KeptOrNew x.content := by
  induction calls generalizing b with
  | nil => exact hb x hx
  | cons call calls ih =>
    refine ih ?_ hx
    intro y hy
    cases call with
    | current =>
      obtain rfl := Option.some.inj hy
      exact .inl rfl
    | fresh ps =>
      obtain rfl := Option.some.inj hy
      exact .inr ⟨ps, content_wrap _ _⟩
    | key t => exact hb y hy
    | value t => exact hb y hy
    | existing e => exact hb y hy

omit [DecidableEq K] [Ord K] [DecidableEq V] [Ord V] [Logging E] in
theorem ok_of_mapError
    {recast : Traced E (Except (RecastError (Multimap d E K V)) (Multimap d E K V))}
    (h : (Except.mapError RecastError.error <$> recast).value = .ok n) : recast.value = .ok n := by
  rw [Traced.value_map] at h
  cases hrecast : recast.value with
  | error e =>
    rw [hrecast] at h
    cases h
  | ok n' =>
    rw [hrecast] at h
    exact congrArg _ (Except.ok.inj h)

theorem build_content {b : Builder d E K V} (h : b.build.value = .ok n) :
    ∃ x, b.map = some x ∧ x.content.KeptOrNew n.content := by
  obtain ⟨map, l, existing⟩ := b
  cases map with
  | none => cases h
  | some x =>
    refine ⟨x, rfl, ?_⟩
    cases existing with
    | false =>
      obtain rfl := Except.ok.inj h
      exact .inl rfl
    | true =>
      have hrecast : (Except.mapError RecastError.error <$> x.recast l).value = .ok n := h
      exact recastIn_ok_content (ok_of_mapError hrecast)

end Multimap

/-! ## Steps -/

namespace Step

/-- Whether a step edits the bag of a key directly. -/
def Edits : Step E K V → Prop
  | .operate _ (.edit _ _) => True
  | _ => False

omit [Ord K] [DecidableEq V] [Ord V] in
theorem Edits.eq_edit {s : Step E K V} (h : s.Edits) : ∃ n k es, s = .operate n (.edit k es) := by
  cases s with
  | operate n o =>
    cases o with
    | edit k es => exact ⟨n, k, es, rfl⟩
    | _ => exact h.elim
  | _ => exact h.elim

theorem conclude_inside_change {m : Multimap d E K V} {n : Nat}
    {f : Multimap d E K V → Outcome (Multimap d E K V) E (Report K V)}
    (h : (m.peel n).content.Change (f (m.peel n)).state.content) :
    m.content.Change (conclude (m.inside n f)).2.content := by
  rw [Multimap.content_peel, ← Multimap.content_inside] at h
  exact h

variable [DecidableEq K] [Logging E]

theorem concludeRecast_change (m : Multimap d E K V) (l : Layer E K V) (recovery : Recovery)
    (gs : List (K × Bag d V)) :
    m.content.Change (concludeRecast recovery (m.recastIn l gs)).2.content := by
  cases hr : (m.recastIn l gs).value with
  | ok n =>
    rw [concludeRecast_of_ok hr]
    exact (Multimap.recastIn_ok_content hr).change
  | error e =>
    cases recovery with
    | keep =>
      rw [concludeRecast_of_error hr]
      exact (Multimap.recastIn_error_content hr).change
    | discard =>
      simp only [concludeRecast, hr]
      exact .renew []

theorem decorateWith_change (m : Multimap d E K V) (l : Layer E K V) (existing : Bool)
    (recovery : Recovery) : m.content.Change (decorateWith l existing recovery m).2.content := by
  cases existing with
  | false => exact m.content.change_self
  | true => exact concludeRecast_change m l recovery m.drain.1

omit [DecidableEq K] [Logging E] in
theorem concludeBuild_change {m : Multimap d E K V} (calls : List (BuildCall E K V))
    {built : Traced E (Except MapError (Multimap d E K V))}
    (h : ∀ n, built.value = .ok n → m.content.KeptOrNew n.content) :
    m.content.Change (concludeBuild calls m built).2.content := by
  rw [concludeBuild]
  cases hb : built.value with
  | ok n => exact (h n hb).change
  | error e =>
    cases hgiven : calls.any BuildCall.takesCurrent with
    | false => exact m.content.change_self
    | true => exact .renew []

omit [DecidableEq K] [Logging E] in
theorem given_content {m x : Multimap d E K V} {calls : List (BuildCall E K V)}
    (hx : ((Builder.new : Builder d E K V).setAll (m.settings calls)).map = some x) :
    m.content.KeptOrNew x.content :=
  Multimap.setAll_settings_content (b := Builder.new) nofun calls hx

theorem buildWith_change (m : Multimap d E K V) (calls : List (BuildCall E K V)) :
    m.content.Change (buildWith calls m).2.content := by
  apply concludeBuild_change
  intro n hn
  obtain ⟨x, hx, hkept⟩ := Multimap.build_content hn
  exact (given_content hx).trans hkept

variable [ToString K] [ToString V]

theorem content_run_edit (m : Multimap d E K V) (n : Nat) (k : K) (es : List (Edit V)) :
    (run (.operate n (.edit k es)) m).2.content = (m.content.edit k es).2 := by
  show (m.inside n (·.operate (.edit k es))).state.content = _
  rw [Multimap.content_inside, ← m.content_peel n]
  exact Multimap.content_withContent _ _

/-- **What a step can do to a content.** A bulk insertion that fails and a recast that hands a
multimap back make no other changes. -/
theorem run_change {s : Step E K V} (hs : ¬s.Edits) (m : Multimap d E K V) :
    m.content.Change (run s m).2.content := by
  cases s with
  | operate n o =>
    have ho : ∀ k es, o ≠ .edit k es := by
      rintro k es rfl
      exact hs trivial
    exact conclude_inside_change ((m.peel n).operate_change ho)
  | merge n donor => exact conclude_inside_change ((m.peel n).merge_change donor)
  | extend n ps =>
    exact conclude_inside_change (Multimap.change_withContent (.extend ps.items))
  | flags n => exact m.content.change_self
  | inspect n spread => exact m.content.change_self
  | listing => exact m.content.change_self
  | decorate l existing recovery => exact decorateWith_change m l existing recovery
  | unwrap =>
    have hsame : (run .unwrap m : Answer d E K V × Multimap d E K V).2.content = m.content :=
      m.content_peel 1
    rw [hsame]
    exact m.content.change_self
  | build calls => exact buildWith_change m calls
  | fork steps => exact m.content.change_self

/-- The same holds if a recast finds the groups in any order. -/
theorem RunsTo.change {s : Step E K V} (hs : ¬s.Edits) {m : Multimap d E K V}
    {x : Answer d E K V × Multimap d E K V} (h : s.RunsTo m x) : m.content.Change x.2.content := by
  cases h with
  | run => exact run_change hs m
  | @decorate l recovery _ gs _ => exact concludeRecast_change m l recovery gs
  | @build calls _ y l gs hset _ =>
    apply concludeBuild_change
    intro n hn
    have hgiven : m.content.KeptOrNew y.content := given_content (by rw [hset])
    exact hgiven.trans (Multimap.recastIn_ok_content (Multimap.ok_of_mapError hn))

end Step

end LayeredMultimap
