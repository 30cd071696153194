import LayeredMultimap.Proofs.Passage
import LayeredMultimap.Proofs.Stopping

/-!
# Values that are added under one key

Values for a key take a shorter way than puts: the key is transformed once, and the values go into
the bag of the transformed key directly. Through a single layer this comes to the same as putting
them one by one, as long as the base has nothing against them (`putValues_like_puts`). Under a stack
of layers it is told apart from puts: it hangs on the outermost layer and the content alone, and
what is further in has no part in it (`putValues_by_outer_layer`).
-/

namespace LayeredMultimap

variable {d : Discipline} {E K V : Type} [DecidableEq V] [Ord K] [Ord V]

/-! ## Pouring -/

theorem Content.mem_trace_pour {c : Content d K V} {f : V → Attempt E V} {k : K} {s : Source E V}
    {e : E} (h : e ∈ (c.pour f k s).trace) : e ∈ s.drawn ∨ ∃ v ∈ s.items, e ∈ (f v).trace := by
  induction s generalizing c with
  | nil => cases h
  | cons x r ih =>
    have hhere : e ∈ (f x.value).trace → ∃ v ∈ Source.items (x :: r), e ∈ (f v).trace :=
      fun he => ⟨x.value, List.mem_cons_self, he⟩
    rw [Source.drawn, List.flatMap_cons, List.mem_append]
    cases hx : (f x.value).result with
    | error t =>
      rw [pour_cons_of_error hx, List.mem_append] at h
      rcases h with hdraw | hpass
      · exact .inl (.inl hdraw)
      · exact .inr (hhere hpass)
    | ok w =>
      rw [pour_cons_of_ok hx, Outcome.trace_after, List.mem_append, List.mem_append] at h
      rcases h with (hdraw | hpass) | hrest
      · exact .inl (.inl hdraw)
      · exact .inr (hhere hpass)
      · rcases ih hrest with hdraw | ⟨v, hv, he⟩
        · exact .inl (.inr hdraw)
        · exact .inr ⟨v, List.mem_cons_of_mem _ hv, he⟩

namespace Multimap

variable [DecidableEq K]

/-! ## One layer around a base -/

theorem arrival_base {b : Base d E K V} {k : K} {v : V}
    (h : ∀ cause, (b.put k v).result ≠ .error (.rejected cause)) :
    ((base b).arrival k v).value = .ok (k, v) := by
  cases hb : (b.refusal k v).value with
  | none => simp [arrival, hb]
  | some cause =>
    have hrefused : (b.put k v).result = .error (.rejected cause) := by simp [Base.put, hb]
    exact absurd hrefused (h cause)

theorem arrival_of_unrefused {m : Multimap d E K V} (hm : m.depth ≤ 1) {k : K} {v : V}
    (h : ∀ p, (m.outer.pass k v).result = .ok p →
      ∀ cause, (m.root.put p.1 p.2).result ≠ .error (.rejected cause)) :
    (m.arrival k v).value = (m.outer.pass k v).result.mapError .transform := by
  cases m with
  | base b => exact arrival_base (h (k, v) rfl)
  | layered l m =>
    cases m with
    | layered l' m => simp [depth] at hm
    | base b =>
      show _ = (l.pass k v).result.mapError MapError.transform
      cases hl : (l.pass k v).result with
      | ok p =>
        rw [arrival_layered_of_ok hl]
        exact arrival_base (h p hl)
      | error e =>
        rw [arrival_layered_of_error hl]
        rfl

/-- Both add each value that gets through to the same bag, and both stop at the same one. -/
theorem pour_like_puts {m : Multimap d E K V} {l : Layer E K V} {k k' : K}
    (hk : (l.passKey k).result = .ok k') {s : Source E V} {ps : Source E (K × V)}
    (hps : ps.items = s.items.map (k, ·))
    (h : ∀ v ∈ s.items, (m.arrival k v).value = (l.pass k v).result.mapError .transform) :
    (m.onContent fun c => c.pour l.passValue k' s).result = (m.putPairs ps).result ∧
      (m.onContent fun c => c.pour l.passValue k' s).state = (m.putPairs ps).state := by
  induction s generalizing m ps with
  | nil =>
    obtain rfl : ps = [] := List.map_eq_nil_iff.1 hps
    exact ⟨rfl, withContent_content m⟩
  | cons x r ih =>
    obtain ⟨q, qs, rfl, hq, hqs⟩ := List.map_eq_cons_iff.1 hps
    have harrival := h x.value List.mem_cons_self
    rw [Layer.pass_of_key_ok hk] at harrival
    rw [onContent_pour_cons, Outcome.after_andThen]
    cases hv : (l.passValue x.value).result with
    | error e =>
      have hstop : (m.arrival q.value.1 q.value.2).value = .error (.transform e) := by
        rw [hq, harrival, hv]
        rfl
      rw [addPassed_of_error hv, putPairs_cons_of_error hstop]
      exact ⟨rfl, rfl⟩
    | ok w =>
      have hon : (m.arrival q.value.1 q.value.2).value = .ok (k', w) := by
        rw [hq, harrival, hv]
        rfl
      -- the content has no part in what arrives, so the rest meets what it would have met before
      have hrest : ∀ v ∈ Source.items r, ((m.withContent (m.content.add k' w).2).arrival k v).value =
          (l.pass k v).result.mapError .transform := by
        intro v hmem
        rw [arrival_withContent]
        exact h v (List.mem_cons_of_mem _ hmem)
      obtain ⟨hresult, hstate⟩ := ih hqs hrest
      rw [addPassed_of_ok hv, putPairs_cons_of_ok hon, Outcome.andThen_of_ok rfl]
      simp only [Outcome.result_after, Outcome.state_after, Outcome.result_map, Outcome.state_map,
        hresult, hstate, and_self]

/-- **Values for a key agree with puts** where there is one layer at most and the base refuses none
of them. -/
theorem putValues_like_puts {m : Multimap d E K V} (hm : m.depth ≤ 1) {k : K} {vs : Source E V}
    {ps : Source E (K × V)} (hps : ps.items = vs.items.map (k, ·))
    (hfree : ∀ v ∈ vs.items, ∀ p, (m.outer.pass k v).result = .ok p →
      ∀ cause, (m.root.put p.1 p.2).result ≠ .error (.rejected cause)) :
    (m.putValues k vs).result = (m.putPairs ps).result ∧
      (m.putValues k vs).state = (m.putPairs ps).state := by
  have harrival : ∀ v ∈ vs.items,
      (m.arrival k v).value = (m.outer.pass k v).result.mapError .transform :=
    fun v hv => arrival_of_unrefused hm (hfree v hv)
  cases vs with
  | nil =>
    obtain rfl : ps = [] := List.map_eq_nil_iff.1 hps
    exact ⟨rfl, rfl⟩
  | cons x r =>
    cases hk : (m.outer.passKey k).result with
    | ok k' =>
      rw [putValues_cons_of_ok hk]
      exact pour_like_puts hk (s := pure x.value :: r) hps harrival
    | error e =>
      obtain ⟨q, qs, rfl, hq, -⟩ := List.map_eq_cons_iff.1 hps
      have hstop : (m.arrival q.value.1 q.value.2).value = .error (.transform e) := by
        rw [hq, harrival x.value List.mem_cons_self, Layer.pass_of_key_error hk]
        rfl
      rw [putValues_cons_of_error hk, putPairs_cons_of_error hstop]
      exact ⟨rfl, rfl⟩

/-- A layer that drops the last digit of keys and bars the value three, around a base that refuses
the value nine and holds a ghost. -/
def choosy : Multimap .distinct Event Nat Nat :=
  .layered ⟨some (.ofFunction (· / 10)),
      some (.ofFallible fun v => if v = 3 then .error ⟨"barred"⟩ else .ok v)⟩
    (.base ⟨⟨[(0, ⟨[]⟩), (1, ⟨[5]⟩)]⟩, fun _ v => pure (if v = 9 then some "nine" else none)⟩)

/-- A value that is there, one that is new, and one that is barred. -/
theorem putValues_like_puts_barred :
    let vs : Source Event Nat := Source.ofList [5, 4, 3, 6]
    let ps : Source Event (Nat × Nat) := Source.ofList [(12, 5), (12, 4), (12, 3), (12, 6)]
    (choosy.depth ≤ 1 ∧ ps.items = vs.items.map (12, ·) ∧
      ∀ v ∈ vs.items, ∀ p, (choosy.outer.pass 12 v).result = .ok p →
        ∀ cause, (choosy.root.put p.1 p.2).result ≠ .error (.rejected cause)) ∧
    ((choosy.putValues 12 vs).result = .error (.transform ⟨"barred"⟩) ∧
      (choosy.putValues 12 vs).state.content.listing = [(0, []), (1, [4, 5])]) ∧
    (choosy.putValues 12 vs).result = (choosy.putPairs ps).result ∧
    (choosy.putValues 12 vs).state = (choosy.putPairs ps).state := by
  intro vs ps
  have hfree : ∀ v ∈ vs.items, ∀ p, (choosy.outer.pass 12 v).result = .ok p →
      ∀ cause, (choosy.root.put p.1 p.2).result ≠ .error (.rejected cause) := by
    intro v hv p hp cause
    have hv : v = 5 ∨ v = 4 ∨ v = 3 ∨ v = 6 := by simpa [vs] using hv
    rcases hv with rfl | rfl | rfl | rfl
    · cases hp
      exact nofun
    · cases hp
      exact nofun
    · cases hp
    · cases hp
      exact nofun
  exact ⟨⟨by decide, rfl, hfree⟩, ⟨rfl, rfl⟩, putValues_like_puts (by decide) rfl hfree⟩

/-! ## A layer of a stack -/

theorem putValues_error {m : Multimap d E K V} {k : K} {vs : Source E V} {e : MapError}
    (h : (m.putValues k vs).result = .error e) : ∃ t, e = .transform t := by
  have hadds := m.addsUpToFailure_putValues k vs
  cases vs with
  | nil => cases h
  | cons s r =>
    obtain ⟨hkey, hvalues⟩ := hadds
    cases hk : (m.outer.passKey k).result with
    | error t =>
      rw [hkey t hk] at h
      exact ⟨t, (Except.error.inj h).symm⟩
    | ok k' =>
      obtain ⟨⟨added, hadded, hsame⟩, -⟩ := hvalues k' hk
      rw [hsame] at h
      obtain ⟨v, m', hv⟩ := hadded.error_of_item h
      exact addPassed_error hv

theorem putValues_fails_iff (m : Multimap d E K V) (k : K) (vs : Source E V) :
    (∃ e, (m.putValues k vs).result = .error e) ↔
      vs ≠ [] ∧ ((∃ e, (m.outer.passKey k).result = .error e) ∨
        ∃ v ∈ vs.items, ∃ e, (m.outer.passValue v).result = .error e) := by
  have hadds := m.addsUpToFailure_putValues k vs
  cases vs with
  | nil => simp [putValues, Outcome.ok]
  | cons s r =>
    obtain ⟨hkey, hvalues⟩ := hadds
    cases hk : (m.outer.passKey k).result with
    | error t =>
      rw [hkey t hk]
      simp
    | ok k' =>
      rw [(hvalues k' hk).2.1]
      simp

theorem mem_trace_putValues {m : Multimap d E K V} {k : K} {vs : Source E V} {e : E}
    (h : e ∈ (m.putValues k vs).trace) : e ∈ vs.drawn ∨ e ∈ (m.outer.passKey k).trace ∨
      ∃ v ∈ vs.items, e ∈ (m.outer.passValue v).trace := by
  cases vs with
  | nil => cases h
  | cons x r =>
    rw [Source.drawn, List.flatMap_cons, List.mem_append]
    cases hk : (m.outer.passKey k).result with
    | error t =>
      rw [putValues_cons_of_error hk, List.mem_append] at h
      rcases h with hdraw | hkey
      · exact .inl (.inl hdraw)
      · exact .inr (.inl hkey)
    | ok k' =>
      rw [putValues_cons_of_ok hk, Outcome.trace_after, List.mem_append, List.mem_append] at h
      rcases h with (hdraw | hkey) | hpour
      · exact .inl (.inl hdraw)
      · exact .inr (.inl hkey)
      · rcases Content.mem_trace_pour hpour with hdraw | hvalue
        · exact .inl (.inr hdraw)
        · exact .inr (.inr hvalue)

/-- The outermost layer alone around the content does the same. -/
theorem putValues_eq_alone (m : Multimap d E K V) (k : K) (vs : Source E V) :
    m.putValues k vs = (((ofContent m.content).under m.outer).putValues k vs).mapState
      fun t => m.withContent t.content := by
  have hsame : m = m.withContent m.content := (withContent_content m).symm
  cases vs with
  | nil => exact congrArg (Outcome.ok false) hsame
  | cons x r =>
    have houter : ((ofContent m.content).under m.outer).outer = m.outer := rfl
    cases hk : (m.outer.passKey k).result with
    | error e =>
      rw [putValues_cons_of_error hk, putValues_cons_of_error (by rw [houter, hk]), houter]
      exact Outcome.ext rfl hsame rfl
    | ok k' =>
      rw [putValues_cons_of_ok hk, putValues_cons_of_ok (by rw [houter, hk]), houter]
      rfl

theorem inside_putValues (m : Multimap d E K V) (n : Nat) (k : K) (vs : Source E V) :
    m.inside n (·.putValues k vs) =
      (((ofContent m.content).under (m.peel n).outer).putValues k vs).mapState
        fun t => m.withContent t.content := by
  have hin : (m.peel n).putValues k vs =
      ((((ofContent m.content).under (m.peel n).outer).putValues k vs).mapState
        fun t => { m.root with content := t.content }).mapState (m.peel n).withRoot := by
    rw [putValues_eq_alone (m.peel n), content_peel, ← m.root_peel n]
    exact Outcome.ext rfl (withContent_eq_withRoot _ _) rfl
  rw [inside_eq_mapState hin]
  exact Outcome.ext rfl (withContent_eq_withRoot _ _).symm rfl

/-- **Values for a key see one layer only**, the one at which they are added. No layer behind it is
passed, and the base is not asked. -/
theorem putValues_by_outer_layer (m : Multimap d E K V) (n : Nat) (k : K) (vs : Source E V) :
    let l := (m.peel n).outer
    let here := m.inside n (·.putValues k vs)
    let alone := ((ofContent m.content).under l).putValues k vs
    (here.result = alone.result ∧ here.trace = alone.trace ∧
        here.state = m.withContent alone.state.content) ∧
      (∀ e ∈ here.trace, e ∈ vs.drawn ∨ e ∈ (l.passKey k).trace ∨
        ∃ v ∈ vs.items, e ∈ (l.passValue v).trace) ∧
      (∀ cause, here.result ≠ .error (.rejected cause)) ∧
      ((∃ e, here.result = .error e) ↔
        vs ≠ [] ∧ ((∃ e, (l.passKey k).result = .error e) ∨
          ∃ v ∈ vs.items, ∃ e, (l.passValue v).result = .error e)) := by
  intro l here alone
  have hhere : here = alone.mapState fun t => m.withContent t.content := m.inside_putValues n k vs
  have hresult : here.result = alone.result := by rw [hhere, Outcome.result_mapState]
  have htrace : here.trace = alone.trace := by rw [hhere, Outcome.trace_mapState]
  have hstate : here.state = m.withContent alone.state.content := by
    rw [hhere, Outcome.state_mapState]
  refine ⟨⟨hresult, htrace, hstate⟩, ?_, ?_, ?_⟩
  · intro e he
    rw [htrace] at he
    exact mem_trace_putValues (m := (ofContent m.content).under l) he
  · intro cause hrejected
    rw [hresult] at hrejected
    obtain ⟨t, ht⟩ := putValues_error hrejected
    cases ht
  · rw [hresult]
    exact putValues_fails_iff ((ofContent m.content).under l) k vs

/-- Under another layer the key keeps its last digit, and a nine is stored. -/
example : ((choosy.under ⟨none, some (.ofFunction (· + 1))⟩).putValues 12
    (Source.ofList [8])).state.content.listing = [(0, []), (1, [5]), (12, [9])] := rfl

end Multimap

end LayeredMultimap
