import LayeredMultimap.Proofs.Batch
import LayeredMultimap.Proofs.Mappings
import LayeredMultimap.Value.Event

/-!
# Recasts that fail

A recast stops at the first mapping that cannot be put back. That mapping is lost and no other one
is: the mappings before it have gone through all layers, and the ones behind it are back under their
own keys.
-/

namespace LayeredMultimap.Multimap

variable {d : Discipline} {E K V : Type}

theorem isEmpty_eq_false_of_mem {m : Multimap d E K V} {p : K × V} (h : p ∈ flatten m.drain.1) :
    m.isEmpty = false := by
  have hpos : 0 < (flatten m.drain.1).length := List.length_pos_of_mem h
  have hlen : (flatten m.drain.1).length = m.content.size := Content.length_flatten_groups m.content
  show (m.content.size == 0) = false
  rw [beq_eq_false_iff_ne]
  omega

variable [DecidableEq K] [Ord K] [DecidableEq V] [Ord V] [Logging E]

theorem reinsert_of_arrive {m : Multimap d E K V} {ps qs : List (K × V)} (h : m.Arrive ps qs) :
    (reinsert ps m).value = .ok (m.withContent (m.content.extend qs)) := by
  induction ps generalizing m qs with
  | nil =>
    obtain rfl := List.forall₂_nil_left_iff.1 h
    exact congrArg _ (withContent_content m).symm
  | cons p ps ih =>
    obtain ⟨q, qs, hq, hqs, rfl⟩ := List.forall₂_cons_left_iff.1 h
    have hrest := ih (arrive_withContent (c := (m.content.add q.1 q.2).2).2 hqs)
    rw [reinsert, put_of_arrival_ok hq]
    simp only [Traced.value_after, hrest, content_withContent, withContent_withContent]
    rfl

/-- The first mapping that does not arrive is left out, and the ones behind it are refilled. -/
theorem reinsert_of_error {m : Multimap d E K V} {ps before qs rest : List (K × V)} {p : K × V}
    {e : MapError} (hs : ps = before ++ p :: rest) (h : m.Arrive before qs)
    (he : (m.arrival p.1 p.2).value = .error e) :
    (reinsert ps m).value =
      .error ⟨e, refill rest (m.withContent (m.content.extend qs)).unwrap⟩ := by
  subst hs
  induction before generalizing m qs with
  | nil =>
    obtain rfl := List.forall₂_nil_left_iff.1 h
    have hm : m.withContent (m.content.extend []) = m := withContent_content m
    rw [List.nil_append, reinsert, put_of_arrival_error he, hm]
  | cons p' before ih =>
    obtain ⟨q, qs, hq, hqs, rfl⟩ := List.forall₂_cons_left_iff.1 h
    have hrest := ih (arrive_withContent (c := (m.content.add q.1 q.2).2).2 hqs)
      (by simpa using he)
    rw [List.cons_append, reinsert, put_of_arrival_ok hq]
    simp only [Traced.value_after, hrest, content_withContent, withContent_withContent]
    rfl

theorem recastIn_of_isEmpty {m : Multimap d E K V} (h : m.isEmpty = true) (l : Layer E K V)
    (gs : List (K × Bag d V)) : m.recastIn l gs = pure (.ok (m.under l)) := by
  rw [recastIn, h]
  rfl

theorem recastIn_of_isEmpty_eq_false {m : Multimap d E K V} (h : m.isEmpty = false)
    (l : Layer E K V) (gs : List (K × Bag d V)) :
    m.recastIn l gs = (reinsert (flatten gs) (m.clear.under l)).after
      [Logging.logged (.recasting gs.length)] := by
  rw [recastIn, h]
  rfl

theorem recast_of_isEmpty {m : Multimap d E K V} (h : m.isEmpty = true) (l : Layer E K V) :
    m.recast l = pure (.ok (m.under l)) := recastIn_of_isEmpty h l m.drain.1

theorem recast_of_isEmpty_eq_false {m : Multimap d E K V} (h : m.isEmpty = false)
    (l : Layer E K V) :
    m.recast l = (reinsert (flatten m.drain.1) (m.clear.under l)).after
      [Logging.logged (.recasting m.drain.1.length)] := recastIn_of_isEmpty_eq_false h l m.drain.1

theorem recastIn_of_arrive {m : Multimap d E K V} (hempty : m.isEmpty = false) {l : Layer E K V}
    {gs : List (K × Bag d V)} {qs : List (K × V)} (h : (m.under l).Arrive (flatten gs) qs) :
    (m.recastIn l gs).value = .ok ((m.under l).withContent (Content.ofMappings qs)) := by
  have hclear : m.clear.under l = (m.under l).withContent .empty := rfl
  have hqs : (m.clear.under l).Arrive (flatten gs) qs := by rwa [hclear, arrive_withContent]
  rw [recastIn_of_isEmpty_eq_false hempty, Traced.value_after, reinsert_of_arrive hqs, hclear,
    content_withContent, withContent_withContent, Content.ofMappings]

theorem recastIn_of_error {m : Multimap d E K V} (hempty : m.isEmpty = false) {l : Layer E K V}
    {gs : List (K × Bag d V)} {before qs rest : List (K × V)} {p : K × V} {e : MapError}
    (hs : flatten gs = before ++ p :: rest) (h : (m.clear.under l).Arrive before qs)
    (he : ((m.clear.under l).arrival p.1 p.2).value = .error e) :
    (m.recastIn l gs).value =
      .error ⟨e, m.withContent ((Content.ofMappings qs).extend rest)⟩ := by
  rw [recastIn_of_isEmpty_eq_false hempty, Traced.value_after, reinsert_of_error hs h he]
  simp only [under, clear, withContent, unwrap, refill, content_layered, content_withContent,
    withContent_withContent, Content.ofMappings]

theorem recast_of_error {m : Multimap d E K V} {l : Layer E K V} {before qs rest : List (K × V)}
    {p : K × V} {e : MapError} (hs : flatten m.drain.1 = before ++ p :: rest)
    (h : (m.clear.under l).Arrive before qs)
    (he : ((m.clear.under l).arrival p.1 p.2).value = .error e) :
    (m.recast l).value =
      .error ⟨e, m.withContent ((Content.ofMappings qs).extend rest)⟩ := by
  have hmem : p ∈ flatten m.drain.1 := by rw [hs]; simp
  exact recastIn_of_error (isEmpty_eq_false_of_mem hmem) hs h he

variable [Std.TransOrd K] [Std.LawfulEqOrd K]

/-- **A recast that fails loses one mapping.** The mappings before the first one that cannot be put
have become images, and those behind it are back as they were. -/
theorem recast_failure (m : Multimap d E K V) (l : Layer E K V)
    (h : ∃ p ∈ flatten m.drain.1, ∃ e, ((m.under l).put p.1 p.2).result = .error e) :
    ∃ before p rest e back,
      (m.clear.under l).StopsAt (flatten m.drain.1) before p rest e ∧
      (m.recast l).value = .error ⟨e, back⟩ ∧
      back = m.withContent
        (((m.clear.under l).putPairs (Source.ofList before)).state.content.extend rest) ∧
      (d = .sequence → ∃ images, (m.under l).Arrive before images ∧
        back.mappings.Perm (images ++ rest) ∧ back.size + 1 = m.size) := by
  have hclear : m.clear.under l = (m.under l).withContent .empty := rfl
  rcases (m.clear.under l).arrive_or_error (flatten m.drain.1) with
    ⟨qs, hqs⟩ | ⟨before, qs, p, rest, e, hs, hqs, he⟩
  · obtain ⟨p, hp, e, he⟩ := h
    obtain ⟨q, hq⟩ := hqs.exists_of_mem hp
    rw [put_error_iff] at he
    rw [hclear, arrival_withContent, he] at hq
    cases hq
  · have hfill : ((m.clear.under l).putPairs (Source.ofList before)).state.content =
        Content.ofMappings qs := by
      rw [(putPairs_of_arrive (s := Source.ofList before) (by simpa using hqs)).2,
        content_withContent, hclear, content_withContent]
      rfl
    refine ⟨before, p, rest, e, _, stopsAt_of_arrive hs hqs he, recast_of_error hs hqs he,
      by rw [hfill], ?_⟩
    rintro rfl
    have hperm : ((Content.ofMappings qs : Content .sequence K V).extend rest).mappings.Perm
        (qs ++ rest) := by
      rw [Content.ofMappings, ← Content.extend_append]
      exact Content.mappings_extend_sequence Table.ascends_empty _
    have hqs' : (m.under l).Arrive before qs := by rwa [hclear, arrive_withContent] at hqs
    refine ⟨qs, hqs', ?_, ?_⟩
    · rw [mappings, content_withContent]
      exact hperm
    · have hlen : (flatten m.drain.1).length = m.size := Content.length_flatten_groups m.content
      have hback : ((Content.ofMappings qs : Content .sequence K V).extend rest).size =
          qs.length + rest.length := by
        rw [← Content.length_mappings, hperm.length_eq, List.length_append]
      rw [size, content_withContent, hback, ← hlen, hs, List.length_append, List.length_cons,
        hqs.length_eq]
      omega

/-- Two values under one key and one under another, below a layer that adds ten to what is put. -/
def threeMappings : Multimap .sequence Event Nat Nat :=
  (ofContent (Content.ofMappings [(1, 2), (1, 3), (2, 4)])).under
    ⟨none, some (.ofFunction (· + 10))⟩

/-- A layer that lets all values pass but one. -/
def barring (n : Nat) : Layer Event Nat Nat :=
  ⟨none, some (.ofFallible fun v => if v = n then .error ⟨"barred"⟩ else .ok v)⟩

/-- The middle one of three mappings is lost. -/
theorem recast_failure_middle :
    ((1, 3) ∈ flatten threeMappings.drain.1 ∧
      ((threeMappings.under (barring 3)).put 1 3).result = .error (.transform ⟨"barred"⟩)) ∧
    ∃ before p rest e back,
      (threeMappings.clear.under (barring 3)).StopsAt (flatten threeMappings.drain.1)
        before p rest e ∧
      (threeMappings.recast (barring 3)).value = .error ⟨e, back⟩ ∧
      back = threeMappings.withContent (((threeMappings.clear.under (barring 3)).putPairs
        (Source.ofList before)).state.content.extend rest) ∧
      (Discipline.sequence = .sequence → ∃ images,
        (threeMappings.under (barring 3)).Arrive before images ∧
        back.mappings.Perm (images ++ rest) ∧ back.size + 1 = threeMappings.size) := by
  have hmem : (1, 3) ∈ flatten threeMappings.drain.1 := by decide
  have hput : ((threeMappings.under (barring 3)).put 1 3).result = .error (.transform ⟨"barred"⟩) :=
    rfl
  exact ⟨⟨hmem, hput⟩, recast_failure threeMappings (barring 3) ⟨(1, 3), hmem, _, hput⟩⟩

end LayeredMultimap.Multimap
