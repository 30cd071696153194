import LayeredMultimap.Proofs.Additions
import LayeredMultimap.Proofs.Recast.Session

/-!
# Where stored mappings come from

A mapping that is stored after an operation was stored before it, or the operation has added it
(`mem_mappings_of_operate`). What an operation can add is said by `Multimap.Adds`: a put adds what
arrives at the base, and values for a key add what the outermost layer makes of the key and of them.
The same is said of a recast, whether it succeeds or hands the multimap back. None of this needs the
keys of a content to be in order.
-/

namespace LayeredMultimap

variable {d : Discipline} {E K V : Type} [Ord K]

/-! ## Contents -/

theorem Table.mem_of_find? {β : Type} [Std.LawfulEqOrd K] {t : Table K β} {k : K} {b : β}
    (h : t.find? k = some b) : (k, b) ∈ t.entries := by
  obtain ⟨es⟩ := t
  simp only [find?] at h ⊢
  induction es with
  | nil => cases h
  | cons e r ih =>
    by_cases hk : compare k e.1 = .eq
    · obtain rfl : e.2 = b := by simpa [findIn, hk] using h
      rw [Std.LawfulEqOrd.eq_of_compare hk]
      exact List.mem_cons_self
    · exact List.mem_cons_of_mem _ (ih (by simpa [findIn, hk] using h))

namespace Content

omit [Ord K] in
theorem mem_mappings_iff [Ord V] {c : Content d K V} {p : K × V} :
    p ∈ c.mappings ↔ ∃ e ∈ c.entries, e.1 = p.1 ∧ p.2 ∈ e.2.members := by
  rw [mappings, List.mem_flatMap]
  constructor
  · rintro ⟨e, he, hp⟩
    obtain ⟨v, hv, rfl⟩ := List.mem_map.1 hp
    exact ⟨e, he, rfl, Bag.mem_toList.1 hv⟩
  · rintro ⟨e, he, hk, hv⟩
    exact ⟨e, he, List.mem_map.2 ⟨p.2, Bag.mem_toList.2 hv, Prod.ext hk rfl⟩⟩

omit [Ord K] in
theorem mem_flatten_groups [Ord V] {c : Content d K V} {p : K × V} :
    p ∈ Multimap.flatten c.groups ↔ p ∈ c.mappings := by
  rw [mem_mappings_iff, Multimap.flatten, List.mem_flatMap]
  constructor
  · rintro ⟨e, he, hp⟩
    obtain ⟨v, hv, rfl⟩ := List.mem_map.1 hp
    exact ⟨e, (List.mem_filter.1 he).1, rfl, hv⟩
  · rintro ⟨e, he, hk, hv⟩
    have hfull : e.2.isEmpty = false := Bag.isEmpty_of_mem hv
    exact ⟨e, List.mem_filter.2 ⟨he, by simp [hfull]⟩, List.mem_map.2 ⟨p.2, hv, Prod.ext hk rfl⟩⟩

omit [Ord K] in
theorem HandsOut.mem_flatten_iff [Ord V] {c : Content d K V} {gs : List (K × Bag d V)}
    (h : c.HandsOut gs) {p : K × V} : p ∈ Multimap.flatten gs ↔ p ∈ c.mappings :=
  h.flatten_perm.mem_iff.trans mem_flatten_groups

variable [Ord V] [Std.LawfulEqOrd K]

theorem mem_mappings_of_bag {c : Content d K V} {k : K} {v : V} (h : v ∈ (c.bag k).members) :
    (k, v) ∈ c.mappings := by
  rw [mem_mappings_iff]
  rw [bag] at h
  cases hb : c.find? k with
  | none =>
    rw [hb] at h
    cases h
  | some b =>
    rw [hb] at h
    exact ⟨(k, b), Table.mem_of_find? hb, rfl, h⟩

omit [Ord V] in
theorem mem_keys_iff {c : Content d K V} (h : c.Ascends) {k : K} :
    k ∈ c.keys ↔ (c.bag k).isEmpty = false := by
  have hdomain : k ∈ c.keys ↔ ∃ b, Table.find? ⟨c.groups⟩ k = some b := Table.mem_domain_iff
  rw [hdomain, find?_groups h, get?_eq]
  cases (c.bag k).isEmpty <;> simp

theorem mem_mappings_iff_bag [DecidableEq K] [DecidableEq V] {c : Content d K V} (h : c.Ascends)
    {k : K} {v : V} : (k, v) ∈ c.mappings ↔ v ∈ (c.bag k).members := by
  rw [← List.count_pos_iff, ← List.count_pos_iff, count_mappings h]

theorem mem_mappings_of_insert {c : Content d K V} {k : K} {b : Bag d V} {p : K × V}
    (h : p ∈ mappings (c.insert k b)) : (p.1 = k ∧ p.2 ∈ b.members) ∨ p ∈ c.mappings := by
  obtain ⟨e, he, hk, hv⟩ := mem_mappings_iff.1 h
  rcases Table.mem_insertIn he with rfl | he
  · exact .inl ⟨hk.symm, hv⟩
  · exact .inr (mem_mappings_iff.2 ⟨e, he, hk, hv⟩)

omit [Std.LawfulEqOrd K] in
theorem mem_mappings_of_erase {c : Content d K V} {k : K} {p : K × V}
    (h : p ∈ mappings (c.erase k)) : p ∈ c.mappings := by
  obtain ⟨e, he, hp⟩ := mem_mappings_iff.1 h
  exact mem_mappings_iff.2 ⟨e, (List.mem_filter.1 he).1, hp⟩

variable [DecidableEq V]

theorem mem_mappings_of_removeMapping {c : Content d K V} {k : K} {v : V} {p : K × V}
    (h : p ∈ (c.removeMapping k v).2.mappings) : p ∈ c.mappings := by
  obtain ⟨-, hsame⟩ | ⟨b, hb, ⟨-, hdrop⟩ | ⟨-, hset⟩⟩ := c.removeMapping_snd_cases k v
  · rwa [hsame] at h
  · rw [hdrop] at h
    exact mem_mappings_of_erase h
  · rw [hset] at h
    rcases mem_mappings_of_insert h with ⟨hk, hv⟩ | hp
    · exact mem_mappings_iff.2 ⟨(k, b), Table.mem_of_find? hb, hk.symm, List.mem_of_mem_erase hv⟩
    · exact hp

theorem mem_mappings_of_add {c : Content d K V} {k : K} {v : V} {p : K × V}
    (h : p ∈ (c.add k v).2.mappings) : p ∈ c.mappings ∨ p = (k, v) := by
  rcases mem_mappings_of_insert h with ⟨hk, hv⟩ | hp
  · rcases Bag.mem_add.1 hv with hv | hv
    · exact .inr (Prod.ext hk hv)
    · rw [← hk] at hv
      exact .inl (mem_mappings_of_bag hv)
  · exact .inl hp

theorem mem_mappings_of_extend {c : Content d K V} {ps : List (K × V)} {p : K × V}
    (h : p ∈ (c.extend ps).mappings) : p ∈ c.mappings ∨ p ∈ ps := by
  induction ps generalizing c with
  | nil => exact .inl h
  | cons q ps ih =>
    rcases ih h with hp | hp
    · rcases mem_mappings_of_add hp with hp | rfl
      · exact .inl hp
      · exact .inr List.mem_cons_self
    · exact .inr (List.mem_cons_of_mem _ hp)

theorem mem_mappings_of_pour {c : Content d K V} {f : V → Attempt E V} {k : K} {s : Source E V}
    {p : K × V} (h : p ∈ (c.pour f k s).state.mappings) :
    p ∈ c.mappings ∨ p.1 = k ∧ ∃ v ∈ s.items, (f v).result = .ok p.2 := by
  induction s generalizing c with
  | nil => exact .inl h
  | cons x r ih =>
    cases hx : (f x.value).result with
    | error e =>
      rw [pour_cons_of_error hx] at h
      exact .inl h
    | ok w =>
      rw [pour_cons_of_ok hx] at h
      rcases ih h with hp | ⟨hk, v, hv, hp⟩
      · rcases mem_mappings_of_add hp with hp | rfl
        · exact .inl hp
        · exact .inr ⟨rfl, x.value, List.mem_cons_self, hx⟩
      · exact .inr ⟨hk, v, List.mem_cons_of_mem _ hv, hp⟩

end Content

/-! ## Operations -/

namespace Multimap

section

variable {m : Multimap d E K V} {p : K × V}

omit [Ord K] in
theorem mem_mappings_withContent [Ord V] {c : Content d K V} :
    p ∈ (m.withContent c).mappings ↔ p ∈ c.mappings := by
  rw [mappings, content_withContent]

omit [Ord K] in
theorem mappings_eq_nil_iff [Ord V] : m.mappings = [] ↔ m.isEmpty = true := by
  rw [← List.length_eq_zero_iff, mappings, Content.length_mappings, isEmpty, Content.isEmpty,
    beq_iff_eq]

end

variable [DecidableEq K] [DecidableEq V]

omit [Ord K] in
theorem Arrive.mem_iff {m : Multimap d E K V} {ps qs : List (K × V)} (h : m.Arrive ps qs)
    {q : K × V} : q ∈ qs ↔ ∃ p ∈ ps, (m.arrival p.1 p.2).value = .ok q :=
  mem_iff_of_forall₂ (fun _ _ _ hq hq' => Except.ok.inj (hq.symm.trans hq')) h

variable [Ord V]

/-- The mappings that an operation can add to a multimap. An edit can add any value to its key. -/
def Adds (m : Multimap d E K V) : Operation E K V → K × V → Prop
  | .put k v, p => (m.arrival k v).value = .ok p
  | .putPairs (some ps), p => ∃ q ∈ ps.items, (m.arrival q.1 q.2).value = .ok p
  | .putFrom (some other), p => ∃ q ∈ other.mappings, (m.arrival q.1 q.2).value = .ok p
  | .putValues k (some vs), p =>
    (m.outer.passKey k).result = .ok p.1 ∧ ∃ v ∈ vs.items, (m.outer.passValue v).result = .ok p.2
  | .edit k _, p => p.1 = k
  | _, _ => False

omit [Ord K] in
/-- What an operation adds has arrived at the base, unless it has gone into a bag directly. -/
theorem Adds.origin {m : Multimap d E K V} {o : Operation E K V} {p : K × V} (h : m.Adds o p) :
    (∃ q : K × V, (m.arrival q.1 q.2).value = .ok p) ∨
      (∃ k vs v, o = .putValues k vs ∧ (m.outer.passKey k).result = .ok p.1 ∧
        (m.outer.passValue v).result = .ok p.2) ∨
      ∃ k es, o = .edit k es := by
  cases o with
  | put k v => exact .inl ⟨(k, v), h⟩
  | putPairs ps =>
    cases ps with
    | none => exact h.elim
    | some ps =>
      obtain ⟨q, -, harrive⟩ := h
      exact .inl ⟨q, harrive⟩
  | putFrom other =>
    cases other with
    | none => exact h.elim
    | some other =>
      obtain ⟨q, -, harrive⟩ := h
      exact .inl ⟨q, harrive⟩
  | putValues k vs =>
    cases vs with
    | none => exact h.elim
    | some vs =>
      obtain ⟨hk, v, -, hv⟩ := h
      exact .inr (.inl ⟨k, some vs, v, rfl, hk, hv⟩)
  | edit k es => exact .inr (.inr ⟨k, es, rfl⟩)
  | query q => exact h.elim
  | remove k => exact h.elim
  | removeMapping k v => exact h.elim
  | clear => exact h.elim
  | drain => exact h.elim

theorem putPairs_state_eq (m : Multimap d E K V) (ps : Source E (K × V)) :
    ∃ qs, (m.putPairs ps).state = m.withContent (m.content.extend qs) := by
  rcases m.arrive_or_error ps.items with ⟨qs, hqs⟩ | ⟨before, qs, p, rest, e, hs, hqs, he⟩
  · exact ⟨_, (putPairs_of_arrive hqs).2⟩
  · exact ⟨_, (putPairs_of_error hs hqs he).2⟩

theorem operate_state_eq (m : Multimap d E K V) (o : Operation E K V) :
    ∃ c, (m.operate o).state = m.withContent c := by
  have hsame : ∃ c, m = m.withContent c := ⟨m.content, (withContent_content m).symm⟩
  cases o with
  | query q => exact hsame
  | put k v =>
    cases hv : (m.arrival k v).value with
    | ok p =>
      rw [operate, put_of_arrival_ok hv]
      exact ⟨_, rfl⟩
    | error e =>
      rw [operate, put_of_arrival_error hv]
      exact hsame
  | putValues k vs =>
    cases vs with
    | none => exact hsame
    | some vs =>
      cases vs with
      | nil => exact hsame
      | cons x r =>
        rw [operate, putValues?]
        cases hk : (m.outer.passKey k).result with
        | error e =>
          rw [putValues_cons_of_error hk]
          exact hsame
        | ok k' =>
          rw [putValues_cons_of_ok hk]
          exact ⟨_, rfl⟩
  | putPairs ps =>
    cases ps with
    | none => exact hsame
    | some ps =>
      obtain ⟨qs, hqs⟩ := m.putPairs_state_eq ps
      exact ⟨_, hqs⟩
  | putFrom other =>
    cases other with
    | none => exact hsame
    | some other =>
      obtain ⟨qs, hqs⟩ := m.putPairs_state_eq (Source.ofList other.mappings)
      exact ⟨_, hqs⟩
  | edit k es => exact ⟨_, rfl⟩
  | remove k => exact ⟨_, rfl⟩
  | removeMapping k v => exact ⟨_, rfl⟩
  | clear => exact ⟨_, rfl⟩
  | drain => exact ⟨_, rfl⟩

theorem merge_state_eq (m : Multimap d E K V) (donor : Option (Donor E K V)) :
    (m.merge donor).state = m ∨
      ∃ ps : List (K × V), (m.merge donor).state = (m.putPairs (Source.ofList ps)).state := by
  cases donor with
  | none => exact .inl rfl
  | some donor =>
    cases donor with
    | self => exact .inr ⟨_, rfl⟩
    | plain d' ps touched => exact .inr ⟨_, rfl⟩
    | layered l ps =>
      rw [merge]
      cases ((empty (d := .sequence).under l).putPairs (Source.ofList ps)).result with
      | ok b => exact .inr ⟨_, rfl⟩
      | error e => exact .inl rfl

variable [Std.LawfulEqOrd K] {m : Multimap d E K V} {p : K × V}

theorem mem_mappings_of_put {k : K} {v : V} (h : p ∈ (m.put k v).state.mappings) :
    p ∈ m.mappings ∨ (m.arrival k v).value = .ok p := by
  cases hv : (m.arrival k v).value with
  | ok q =>
    rw [put_of_arrival_ok hv, mem_mappings_withContent] at h
    rcases Content.mem_mappings_of_add h with hp | rfl
    · exact .inl hp
    · exact .inr rfl
  | error e =>
    rw [put_of_arrival_error hv] at h
    exact .inl h

theorem mem_mappings_of_putPairs {ps : Source E (K × V)} (h : p ∈ (m.putPairs ps).state.mappings) :
    p ∈ m.mappings ∨ ∃ q ∈ ps.items, (m.arrival q.1 q.2).value = .ok p := by
  rcases m.arrive_or_error ps.items with ⟨qs, hqs⟩ | ⟨before, qs, p', rest, e, hs, hqs, he⟩
  · rw [(putPairs_of_arrive hqs).2, mem_mappings_withContent] at h
    exact (Content.mem_mappings_of_extend h).imp_right hqs.mem_iff.1
  · rw [(putPairs_of_error hs hqs he).2, mem_mappings_withContent] at h
    refine (Content.mem_mappings_of_extend h).imp_right fun hp => ?_
    obtain ⟨q, hq, harrive⟩ := hqs.mem_iff.1 hp
    exact ⟨q, by simp [hs, hq], harrive⟩

theorem mem_mappings_of_putValues {k : K} {vs : Source E V}
    (h : p ∈ (m.putValues k vs).state.mappings) :
    p ∈ m.mappings ∨ (m.outer.passKey k).result = .ok p.1 ∧
      ∃ v ∈ vs.items, (m.outer.passValue v).result = .ok p.2 := by
  cases vs with
  | nil => exact .inl h
  | cons x r =>
    cases hk : (m.outer.passKey k).result with
    | error e =>
      rw [putValues_cons_of_error hk] at h
      exact .inl h
    | ok k' =>
      rw [putValues_cons_of_ok hk] at h
      have hpour : p ∈ (m.content.pour m.outer.passValue k' (pure x.value :: r)).state.mappings :=
        mem_mappings_withContent.1 h
      refine (Content.mem_mappings_of_pour hpour).imp_right ?_
      rintro ⟨rfl, v, hv, hp⟩
      exact ⟨rfl, v, hv, hp⟩

/-- A mapping that is stored after an operation was stored before it or is added by it. -/
theorem mem_mappings_of_operate {o : Operation E K V} (h : p ∈ (m.operate o).state.mappings) :
    p ∈ m.mappings ∨ m.Adds o p := by
  cases o with
  | query q => exact .inl h
  | put k v => exact mem_mappings_of_put h
  | putValues k vs =>
    cases vs with
    | none => exact .inl h
    | some vs => exact mem_mappings_of_putValues h
  | putPairs ps =>
    cases ps with
    | none => exact .inl h
    | some ps => exact mem_mappings_of_putPairs h
  | putFrom other =>
    cases other with
    | none => exact .inl h
    | some other =>
      have hput : p ∈ (m.putPairs (Source.ofList other.mappings)).state.mappings := h
      have hstored := mem_mappings_of_putPairs hput
      rwa [Source.items_ofList] at hstored
  | edit k es =>
    have hedit : p ∈ (m.content.edit k es).2.mappings := mem_mappings_withContent.1 h
    exact (Content.mem_mappings_of_insert hedit).symm.imp_right And.left
  | remove k => exact .inl (Content.mem_mappings_of_erase (mem_mappings_withContent.1 h))
  | removeMapping k v =>
    exact .inl (Content.mem_mappings_of_removeMapping (mem_mappings_withContent.1 h))
  | clear =>
    have hnone : p ∈ Content.mappings (.empty : Content d K V) := mem_mappings_withContent.1 h
    cases hnone
  | drain =>
    have hnone : p ∈ Content.mappings (.empty : Content d K V) := mem_mappings_withContent.1 h
    cases hnone

/-! ## Recasts -/

variable [Logging E] {l : Layer E K V} {gs : List (K × Bag d V)}

omit [Std.LawfulEqOrd K] in
theorem recastIn_ok_iff (h : m.content.HandsOut gs) :
    (∃ n, (m.recastIn l gs).value = .ok n) ↔
      ∀ p ∈ m.mappings, ∃ q, ((m.under l).arrival p.1 p.2).value = .ok q := by
  constructor
  · rintro ⟨n, hn⟩ p hp
    cases hempty : m.isEmpty with
    | true =>
      rw [mappings_eq_nil_iff.2 hempty] at hp
      cases hp
    | false =>
      obtain ⟨qs, hqs, -⟩ := recastIn_of_ok hempty hn
      exact hqs.exists_of_mem (h.mem_flatten_iff.2 hp)
  · intro hall
    rcases m.recastIn_cases l gs with
      ⟨-, hvalue⟩ | ⟨qs, -, hvalue⟩ | ⟨before, qs, p, rest, e, hs, -, he, -⟩
    · exact ⟨_, hvalue⟩
    · exact ⟨_, hvalue⟩
    · have hp : p ∈ flatten gs := by simp [hs]
      obtain ⟨q, hq⟩ := hall p (h.mem_flatten_iff.1 hp)
      rw [he] at hq
      cases hq

/-- After a recast that succeeds all stored mappings have come through the layers. -/
theorem recastIn_ok_stored (h : m.content.HandsOut gs) {n : Multimap d E K V}
    (hn : (m.recastIn l gs).value = .ok n) :
    ∃ c, n = (m.under l).withContent c ∧
      ∀ p ∈ c.mappings, ∃ q ∈ m.mappings, ((m.under l).arrival q.1 q.2).value = .ok p := by
  cases hempty : m.isEmpty with
  | true =>
    rw [recastIn_of_isEmpty hempty] at hn
    cases hn
    refine ⟨m.content, (withContent_content (m.under l)).symm, fun p hp => ?_⟩
    have hnone : p ∈ m.mappings := hp
    rw [mappings_eq_nil_iff.2 hempty] at hnone
    cases hnone
  | false =>
    obtain ⟨qs, hqs, rfl⟩ := recastIn_of_ok hempty hn
    refine ⟨_, rfl, fun p hp => ?_⟩
    rcases Content.mem_mappings_of_extend hp with hp | hp
    · cases hp
    · obtain ⟨q, hq, harrive⟩ := hqs.mem_iff.1 hp
      exact ⟨q, h.mem_flatten_iff.1 hq, harrive⟩

/-- After a recast that fails a stored mapping has come through the layers or is an old one. -/
theorem recastIn_error_stored (h : m.content.HandsOut gs) {e : RecastError (Multimap d E K V)}
    (he : (m.recastIn l gs).value = .error e) :
    ∃ c, e.map = m.withContent c ∧ ∀ p ∈ c.mappings,
      p ∈ m.mappings ∨ ∃ q ∈ m.mappings, ((m.under l).arrival q.1 q.2).value = .ok p := by
  rcases m.recastIn_cases l gs with
    ⟨-, hvalue⟩ | ⟨qs, -, hvalue⟩ | ⟨before, images, q, rest, e', hs, himages, -, hvalue⟩
  · rw [he] at hvalue
    cases hvalue
  · rw [he] at hvalue
    cases hvalue
  · rw [he] at hvalue
    cases hvalue
    refine ⟨_, rfl, fun p hp => ?_⟩
    have hold {p : K × V} (hp : p ∈ before ++ q :: rest) : p ∈ m.mappings := by
      rw [← hs] at hp
      exact h.mem_flatten_iff.1 hp
    rcases Content.mem_mappings_of_extend hp with hp | hp
    · cases hp
    · rcases List.mem_append.1 hp with hp | hp
      · obtain ⟨p', hp', harrive⟩ := himages.mem_iff.1 hp
        exact .inr ⟨p', hold (List.mem_append_left _ hp'), harrive⟩
      · exact .inl (hold (List.mem_append_right _ (List.mem_cons_of_mem _ hp)))

end Multimap

/-! ## Layers around a base -/

section

variable [DecidableEq V] [Ord V]

/-- Layers, from the outermost to the innermost, around a base that was made of mappings. -/
def Multimap.stack (d : Discipline) (ls : List (Layer E K V))
    (refusal : K → V → Traced E (Option String)) (ps : List (K × V)) : Multimap d E K V :=
  ls.foldr .layered (.base ⟨Content.ofMappings ps, refusal⟩)

theorem Multimap.content_stack (ls : List (Layer E K V))
    (refusal : K → V → Traced E (Option String)) (ps : List (K × V)) :
    (stack d ls refusal ps).content = Content.ofMappings ps := by
  induction ls with
  | nil => rfl
  | cons l ls ih => exact ih

end

end LayeredMultimap
