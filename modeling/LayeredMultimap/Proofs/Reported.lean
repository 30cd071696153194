import LayeredMultimap.Proofs.Forwarding
import LayeredMultimap.Proofs.Ghost
import LayeredMultimap.Proofs.Pouring
import LayeredMultimap.Proofs.Stored

/-!
# Reported changes

An insertion that gets through adds mappings that depend on the layers only
(`operate_of_inserts`), and it reports whether one of these additions has changed the content. The
report is exact: without a change nothing is different, not even a key without values, and with one
there are more mappings than before (`Content.extend_of_unchanged`, `Content.size_lt_extend`). A
mapping changes a content if bags keep sequences or if it is not contained yet, so that the report
can be told from the content before (`Content.addAll_fst_iff`).
-/

namespace LayeredMultimap

variable {d : Discipline} {E K V : Type}

theorem Outcome.result_map_eq_ok {σ α β : Type} {o : Outcome σ E α} {f : α → β} {b : β}
    (h : (o.map f).result = .ok b) : ∃ a, o.result = .ok a ∧ f a = b := by
  rw [result_map] at h
  cases ho : o.result with
  | ok a =>
    rw [ho] at h
    exact ⟨a, rfl, Except.ok.inj h⟩
  | error e =>
    rw [ho] at h
    cases h

variable [Ord K]

/-! ## Contents -/

theorem Table.Ascends.insert_of_find? [Std.TransOrd K] [Std.LawfulEqOrd K] {β : Type}
    {t : Table K β} (h : t.Ascends) {k : K} {b : β} (hb : t.find? k = some b) :
    t.insert k b = t := by
  apply (h.insert k b).ext h
  intro l
  by_cases hl : l = k
  · rw [hl, Table.find?_insert_self, hb]
  · exact Table.find?_insert_of_ne t b hl

namespace Content

theorem find?_of_mem_bag {c : Content d K V} {k : K} {v : V} (h : v ∈ (c.bag k).members) :
    c.find? k = some (c.bag k) := by
  unfold bag at h ⊢
  cases hb : c.find? k with
  | none =>
    rw [hb] at h
    cases h
  | some b => rfl

variable [DecidableEq V] [Ord V]

theorem add_fst (c : Content d K V) (k : K) (v : V) :
    (c.add k v).1 = (d == .sequence || !c.containsMapping k v) := by
  rw [containsMapping_eq]
  exact Bag.add_fst _ v

theorem addAll_fst_cons (c : Content d K V) (q : K × V) (qs : List (K × V)) :
    (c.addAll (q :: qs)).1 = ((c.add q.1 q.2).1 || ((c.add q.1 q.2).2.addAll qs).1) := rfl

variable [Std.TransOrd K] [Std.LawfulEqOrd K]

theorem add_of_unchanged {c : Content d K V} (h : c.Ascends) {k : K} {v : V}
    (hadd : (c.add k v).1 = false) : (c.add k v).2 = c := by
  have hbag : ((c.bag k).add v).1 = false := hadd
  have hv := (Bag.contains_of_add_eq_false hbag).2
  show c.insert k ((c.bag k).add v).2 = c
  rw [Bag.add_snd_of_false hbag]
  exact h.insert_of_find? (find?_of_mem_bag hv)

theorem size_add {c : Content d K V} (h : c.Ascends) (k : K) (v : V) :
    (c.add k v).2.size = c.size + if (c.add k v).1 then 1 else 0 := by
  rw [← length_mappings, ← length_mappings, (mappings_add h k v).length_eq]
  cases (c.add k v).1 <;> rfl

theorem size_le_extend {c : Content d K V} (h : c.Ascends) (qs : List (K × V)) :
    c.size ≤ (c.extend qs).size := by
  induction qs generalizing c with
  | nil => exact Nat.le_refl _
  | cons q qs ih =>
    have hfirst := size_add h q.1 q.2
    have hrest := ih (ascends_add h q.1 q.2)
    show c.size ≤ ((c.add q.1 q.2).2.extend qs).size
    omega

theorem extend_of_unchanged {c : Content d K V} (h : c.Ascends) {qs : List (K × V)}
    (hqs : (c.addAll qs).1 = false) : c.extend qs = c := by
  induction qs with
  | nil => rfl
  | cons q qs ih =>
    obtain ⟨hq, hrest⟩ := Bool.or_eq_false_iff.1 hqs
    show (c.add q.1 q.2).2.extend qs = c
    rw [add_of_unchanged h hq] at hrest ⊢
    exact ih hrest

theorem size_lt_extend {c : Content d K V} (h : c.Ascends) {qs : List (K × V)}
    (hqs : (c.addAll qs).1 = true) : c.size < (c.extend qs).size := by
  induction qs generalizing c with
  | nil => cases hqs
  | cons q qs ih =>
    have hfirst := size_add h q.1 q.2
    show c.size < ((c.add q.1 q.2).2.extend qs).size
    rw [addAll_fst_cons] at hqs
    cases hq : (c.add q.1 q.2).1 with
    | true =>
      have hrest := size_le_extend (ascends_add h q.1 q.2) qs
      rw [hq, if_pos rfl] at hfirst
      omega
    | false =>
      rw [hq, Bool.false_or, add_of_unchanged h hq] at hqs
      rw [add_of_unchanged h hq]
      exact ih h hqs

theorem addAll_fst_iff {c : Content d K V} (h : c.Ascends) (qs : List (K × V)) :
    (c.addAll qs).1 = true ↔ ∃ q ∈ qs, d = .sequence ∨ c.containsMapping q.1 q.2 = false := by
  induction qs with
  | nil => simp [addAll]
  | cons q qs ih =>
    have hq : (c.add q.1 q.2).1 = true ↔ d = .sequence ∨ c.containsMapping q.1 q.2 = false := by
      rw [add_fst]
      simp
    rw [addAll_fst_cons, List.exists_mem_cons_iff, ← hq]
    cases hadd : (c.add q.1 q.2).1 with
    | true => simp
    | false =>
      rw [Bool.false_or, add_of_unchanged h hadd, ih]
      simp

theorem mappings_removeMapping [DecidableEq K] {c : Content d K V} (h : c.Ascends) {k : K} {v : V}
    (hremoved : (c.removeMapping k v).1 = true) :
    c.mappings.Perm ((k, v) :: (c.removeMapping k v).2.mappings) := by
  have hasc := ascends_removeMapping h k v
  have hbag : ((c.bag k).remove v).1 = true := by rwa [removeMapping_fst] at hremoved
  rw [List.perm_iff_count]
  rintro ⟨l, w⟩
  rw [count_mappings h, List.count_cons, count_mappings hasc, bag_removeMapping]
  by_cases hl : l = k
  · subst hl
    rw [Function.update_self, (Bag.perm_of_remove hbag).count_eq, List.count_cons]
    simp
  · rw [Function.update_of_ne hl]
    simp [Ne.symm hl]

omit [Ord V] [Std.TransOrd K] in
theorem removeMapping_drops [DecidableEq K] {c : Content d K V} {k : K} {v : V}
    (hremoved : (c.removeMapping k v).1 = true) :
    ((c.removeMapping k v).2.containsKey k = false ↔ c.get? k = some ⟨[v]⟩) ∧
      (k ∈ (c.removeMapping k v).2.domain ↔ (c.removeMapping k v).2.containsKey k = true) := by
  rw [removeMapping_fst, Bag.contains_iff] at hremoved
  have hfull : (c.bag k).isEmpty = false := Bag.isEmpty_of_mem hremoved
  have hrest : (c.removeMapping k v).2.bag k = ((c.bag k).remove v).2 := by
    rw [bag_removeMapping, Function.update_self]
  constructor
  · have hlast : (c.bag k).members.erase v = [] ↔ (c.bag k).members = [v] := by
      rw [List.erase_eq_nil_iff]
      constructor
      · rintro (hnone | hone)
        · rw [hnone] at hremoved
          cases hremoved
        · exact hone
      · exact .inr
    rw [containsKey_eq, hrest, Bool.not_eq_false', Bag.isEmpty_iff, get?_eq, hfull,
      if_neg Bool.false_ne_true, Option.some.injEq, Bag.ext_iff]
    exact hlast
  · obtain ⟨hnone, -⟩ | ⟨b, hb, hcases⟩ := c.removeMapping_snd_cases k v
    · rw [find?_of_mem_bag hremoved] at hnone
      cases hnone
    · obtain rfl : c.bag k = b := by rw [bag, hb, Option.getD_some]
      rw [containsKey_eq, hrest, Table.mem_domain_iff]
      obtain ⟨hempty, hdrop⟩ | ⟨hleft, hset⟩ := hcases
      · rw [hdrop, Table.find?_erase_self, hempty]
        simp
      · rw [hset, Table.find?_insert_self, hleft]
        simp

end Content

/-! ## Insertions -/

/-- The mappings that an insertion is given. -/
def Operation.supplied [Ord V] : Operation E K V → List (K × V)
  | .put k v => [(k, v)]
  | .putValues k (some vs) => vs.items.map (k, ·)
  | .putPairs (some ps) => ps.items
  | .putFrom (some other) => other.mappings
  | _ => []

namespace Multimap

variable [DecidableEq K] [DecidableEq V] [Ord V]

theorem putPairs_of_ok {m : Multimap d E K V} {ps : Source E (K × V)} {b : Bool}
    (h : (m.putPairs ps).result = .ok b) :
    ∃ qs, m.Arrive ps.items qs ∧ b = (m.content.addAll qs).1 ∧
      (m.putPairs ps).state = m.withContent (m.content.extend qs) := by
  rcases m.arrive_or_error ps.items with ⟨qs, hqs⟩ | ⟨before, qs, p, rest, e, hs, hqs, he⟩
  · obtain ⟨hresult, hstate⟩ := putPairs_of_arrive hqs
    rw [hresult] at h
    exact ⟨qs, hqs, (Except.ok.inj h).symm, hstate⟩
  · rw [(putPairs_of_error hs hqs he).1] at h
    cases h

/-- An insertion that gets through has added the mappings that it can add, one for each that it was
given, and reports whether one of them has changed the content. -/
structure Inserts (m : Multimap d E K V) (o : Operation E K V) (b : Bool) (m' : Multimap d E K V)
    (qs : List (K × V)) : Prop where
  flag : b = (m.content.addAll qs).1
  state : m' = m.withContent (m.content.extend qs)
  mem : ∀ p, p ∈ qs ↔ m.Adds o p
  length : qs.length = o.supplied.length

theorem inserts_of_putValues {m : Multimap d E K V} {k : K} {vs : Source E V} {b : Bool}
    (h : (m.putValues k vs).result = .ok b) :
    ∃ qs, m.Inserts (.putValues k (some vs)) b (m.putValues k vs).state qs := by
  by_cases hvs : vs = []
  · subst hvs
    refine ⟨[], (Except.ok.inj h).symm, (withContent_content m).symm, fun p => ?_, rfl⟩
    simp [Adds, Source.items]
  · have hfine : ¬((∃ e, (m.outer.passKey k).result = .error e) ∨
        ∃ v ∈ vs.items, ∃ e, (m.outer.passValue v).result = .error e) := by
      intro hfails
      obtain ⟨e, he⟩ := (m.putValues_fails_iff k vs).2 ⟨hvs, hfails⟩
      rw [h] at he
      cases he
    -- nothing has failed, so all values have got through
    have hvalues : ∀ v ∈ vs.items, ∃ w, (m.outer.passValue v).result = .ok w := by
      intro v hv
      cases hw : (m.outer.passValue v).result with
      | ok w => exact ⟨w, rfl⟩
      | error e => exact absurd (.inr ⟨v, hv, e, hw⟩) hfine
    cases hk : (m.outer.passKey k).result with
    | error e => exact absurd (.inl ⟨e, hk⟩) hfine
    | ok k' =>
      obtain ⟨ws, hws⟩ := exists_forall₂ hvalues
      obtain ⟨hresult, hstate⟩ := putValues_of_pass hk hws
      rw [hresult] at h
      refine ⟨ws.map (k', ·), (Except.ok.inj h).symm, hstate, fun p => ?_, ?_⟩
      · have hmem : p.2 ∈ ws ↔ ∃ v ∈ vs.items, (m.outer.passValue v).result = .ok p.2 :=
          mem_iff_of_forall₂ (fun v w w' hw hw' => Except.ok.inj (hw.symm.trans hw')) hws
        rw [Adds, hk, Except.ok.injEq, ← hmem, List.mem_map]
        constructor
        · rintro ⟨w, hw, rfl⟩
          exact ⟨rfl, hw⟩
        · rintro ⟨rfl, hw⟩
          exact ⟨p.2, hw, rfl⟩
      · rw [List.length_map, ← hws.length_eq]
        exact (List.length_map _).symm

theorem inserts_of_operate {m : Multimap d E K V} {o : Operation E K V} (ho : o.inserts = true)
    {r : Report K V} (h : (m.operate o).result = .ok r) :
    ∃ b qs, r = .flag b ∧ m.Inserts o b (m.operate o).state qs := by
  cases o with
  | put k v =>
    cases hv : (m.arrival k v).value with
    | error e =>
      rw [operate, put_of_arrival_error hv] at h
      cases h
    | ok q =>
      have hput := put_of_arrival_ok hv
      refine ⟨(m.content.add q.1 q.2).1, [q], ?_, (Bool.or_false _).symm, ?_, fun p => ?_, rfl⟩
      · rw [operate, hput] at h
        exact (Except.ok.inj h).symm
      · rw [operate, hput]
        rfl
      · rw [List.mem_singleton, Adds, hv, Except.ok.injEq]
        exact eq_comm
  | putValues k vs =>
    cases vs with
    | none => cases h
    | some vs =>
      obtain ⟨b, hb, rfl⟩ := Outcome.result_map_eq_ok h
      obtain ⟨qs, hqs⟩ := inserts_of_putValues hb
      exact ⟨b, qs, rfl, hqs⟩
  | putPairs ps =>
    cases ps with
    | none => cases h
    | some ps =>
      obtain ⟨b, hb, rfl⟩ := Outcome.result_map_eq_ok h
      obtain ⟨qs, hqs, hflag, hstate⟩ := putPairs_of_ok hb
      exact ⟨b, qs, rfl, hflag, hstate, fun p => hqs.mem_iff, hqs.length_eq.symm⟩
  | putFrom other =>
    cases other with
    | none => cases h
    | some other =>
      obtain ⟨b, hb, rfl⟩ := Outcome.result_map_eq_ok h
      obtain ⟨qs, hqs, hflag, hstate⟩ := putPairs_of_ok hb
      rw [Source.items_ofList] at hqs
      exact ⟨b, qs, rfl, hflag, hstate, fun p => hqs.mem_iff, hqs.length_eq.symm⟩
  | query q => cases ho
  | edit k es => cases ho
  | remove k => cases ho
  | removeMapping k v => cases ho
  | clear => cases ho
  | drain => cases ho

/-! ## The report -/

/-- The report `b` of an insertion that takes `m` to `m'` says whether anything has changed. -/
structure ReportsChange (m : Multimap d E K V) (o : Operation E K V) (b : Bool)
    (m' : Multimap d E K V) : Prop where
  answers : b = true ↔ ∃ q : Query K V, m'.answer q ≠ m.answer q
  grows : b = true ↔ m.size < m'.size
  same : b = false → m' = m
  sequence : d = .sequence → (b = true ↔ o.supplied ≠ [])
  single : d ≠ .sequence → (b = true ↔ ∃ p, m.Adds o p ∧ m.containsMapping p.1 p.2 = false)

/-- The report `b` of a removal that takes `m` to `m'` says whether its mapping was there and is
gone. -/
structure ReportsRemoval (m : Multimap d E K V) (k : K) (v : V) (b : Bool)
    (m' : Multimap d E K V) : Prop where
  contained : b = m.containsMapping k v
  mappings : b = true → m.mappings.Perm ((k, v) :: m'.mappings)
  shrinks : b = true → m'.size + 1 = m.size
  last : b = true → (m'.containsKey k = false ↔ m.get? k = some ⟨[v]⟩)
  no_ghost : b = true → (k ∈ m'.content.domain ↔ m'.containsKey k = true)
  unseen : b = false → ∀ q : Query K V, m'.answer q = m.answer q

variable [Std.TransOrd K] [Std.LawfulEqOrd K]

theorem Inserts.reportsChange {m m' : Multimap d E K V} {o : Operation E K V} {b : Bool}
    {qs : List (K × V)} (hm : m.content.Ascends) (h : m.Inserts o b m' qs) :
    m.ReportsChange o b m' := by
  have hsame : b = false → m' = m := by
    intro hb
    rw [h.flag] at hb
    rw [h.state, Content.extend_of_unchanged hm hb, withContent_content]
  have hgrows : b = true → m.size < m'.size := by
    intro hb
    rw [h.flag] at hb
    rw [h.state, size, size, content_withContent]
    exact Content.size_lt_extend hm hb
  have hnot : ∀ {P : Prop}, (m' = m → ¬P) → P → b = true := by
    intro P hP h
    by_contra hb
    exact hP (hsame (Bool.eq_false_iff.2 hb)) h
  refine ⟨⟨?_, ?_⟩, ⟨hgrows, ?_⟩, hsame, fun hd => ?_, fun hd => ?_⟩
  · intro hb
    refine ⟨.size, fun hanswer => ?_⟩
    have hsize : m'.size = m.size := Report.count.inj hanswer
    have hmore := hgrows hb
    omega
  · apply hnot
    rintro rfl ⟨q, hq⟩
    exact hq rfl
  · apply hnot
    rintro rfl hsize
    omega
  · rw [h.flag, Content.addAll_fst_iff hm, ← List.length_pos_iff, ← h.length,
      List.length_pos_iff_exists_mem]
    simp [hd]
  · rw [h.flag, Content.addAll_fst_iff hm]
    simp [hd, h.mem, containsMapping]

theorem removeMapping_reportsRemoval {m : Multimap d E K V} (hm : m.content.Ascends) (k : K)
    (v : V) : m.ReportsRemoval k v (m.removeMapping k v).1 (m.removeMapping k v).2 := by
  have hcontent : (m.removeMapping k v).2.content = (m.content.removeMapping k v).2 :=
    content_withContent _ _
  have hflag : (m.removeMapping k v).1 = (m.content.removeMapping k v).1 := rfl
  have hmappings : (m.removeMapping k v).1 = true →
      m.mappings.Perm ((k, v) :: (m.removeMapping k v).2.mappings) := by
    intro hb
    rw [mappings, mappings, hcontent]
    exact Content.mappings_removeMapping hm hb
  refine ⟨?_, hmappings, ?_, ?_, ?_, ?_⟩
  · rw [hflag, Content.removeMapping_fst, containsMapping, Content.containsMapping_eq]
  · intro hb
    have hlength := (hmappings hb).length_eq
    rw [List.length_cons, mappings, mappings, Content.length_mappings,
      Content.length_mappings] at hlength
    exact hlength.symm
  · intro hb
    rw [containsKey, hcontent]
    exact (Content.removeMapping_drops hb).1
  · intro hb
    rw [containsKey, hcontent]
    exact (Content.removeMapping_drops hb).2
  · intro hb q
    have hbag : (m.content.removeMapping k v).2.bag = m.content.bag := by
      rw [hflag, Content.removeMapping_fst] at hb
      rw [Content.bag_removeMapping, Bag.remove_snd_of_false hb, Function.update_eq_self]
    have hghost := m.ghostEq_withContent
      (Content.ghostEq_of_bag (Content.ascends_removeMapping hm k v) hm hbag)
    rw [withContent_content] at hghost
    exact hghost.answer_eq q

/-- **What is reported is what has changed.** Where nothing is reported, no query can tell a
difference. -/
theorem reported_change {m : Multimap d E K V} (hm : m.content.Ascends) :
    (∀ o : Operation E K V, o.inserts = true → ∀ r, (m.operate o).result = .ok r →
      ∃ b, r = .flag b ∧ m.ReportsChange o b (m.operate o).state) ∧
    ∀ k v, m.ReportsRemoval k v (m.removeMapping k v).1 (m.removeMapping k v).2 := by
  constructor
  · intro o ho r hr
    obtain ⟨b, qs, rfl, hinserts⟩ := inserts_of_operate ho hr
    exact ⟨b, rfl, hinserts.reportsChange hm⟩
  · exact removeMapping_reportsRemoval hm

/-- Two mappings that come to one that is there. -/
def meetingThere : Operation Event Nat Nat := .putPairs (some (Source.ofList [(15, 5), (12, 5)]))

/-- Nothing is new behind the layer, and a removal at the ghost drops it unseen. -/
theorem reported_change_choosy :
    (choosy.content.Ascends ∧ meetingThere.inserts = true ∧
      (choosy.operate meetingThere).result = .ok (.flag false)) ∧
    (choosy.operate meetingThere).state = choosy ∧
    ((choosy.removeMapping 0 5).2.content.listing = [(1, [5])] ∧
      ∀ q, (choosy.removeMapping 0 5).2.answer q = choosy.answer q) ∧
    ((choosy.removeMapping 1 5).1 = true ∧ choosy.get? 1 = some ⟨[5]⟩ ∧
      (choosy.removeMapping 1 5).2.containsKey 1 = false) := by
  have hm : choosy.content.Ascends := by
    show List.Pairwise _ [(0, (⟨[]⟩ : Bag .distinct Nat)), (1, ⟨[5]⟩)]
    decide
  have hresult : (choosy.operate meetingThere).result = .ok (.flag false) := rfl
  obtain ⟨hinsert, hremoval⟩ := reported_change hm
  obtain ⟨b, hb, hreports⟩ := hinsert meetingThere rfl _ hresult
  have hlast : choosy.get? 1 = some ⟨[5]⟩ := rfl
  refine ⟨⟨hm, rfl, hresult⟩, ?_, ⟨rfl, (hremoval 0 5).unseen rfl⟩, rfl, hlast, ?_⟩
  · exact hreports.same (Report.flag.inj hb).symm
  · exact ((hremoval 1 5).last rfl).2 hlast

end Multimap

end LayeredMultimap
