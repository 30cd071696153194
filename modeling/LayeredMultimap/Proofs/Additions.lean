import LayeredMultimap.Proofs.Flat.Values
import LayeredMultimap.Proofs.Lookup

/-!
# What additions make of a content

A run of additions hands every key the values that the run has for it, in the order of the run
(`Content.bag_extend`), and gives entries to its keys and to no other ones (`mem_domain_extend`).
So a content that was added up from nothing can be read off the run (`madeOf_ofMappings`).
-/

namespace LayeredMultimap

variable {d : Discipline} {K V : Type}

/-! ## The keys of a table -/

namespace Table

variable {β : Type}

/-- The keys that have an entry. -/
def domain (t : Table K β) : List K := t.entries.map (·.1)

variable [Ord K]

theorem Ascends.pairwise_domain {t : Table K β} (h : t.Ascends) :
    t.domain.Pairwise fun a b => compare a b = .lt := List.pairwise_map.2 h

theorem Ascends.nodup_domain [Std.ReflOrd K] {t : Table K β} (h : t.Ascends) : t.domain.Nodup := by
  refine h.pairwise_domain.imp ?_
  rintro a b hlt rfl
  rw [Std.ReflOrd.compare_self] at hlt
  cases hlt

theorem insert_insert [Std.ReflOrd K] (t : Table K β) (k : K) (b b' : β) :
    (t.insert k b).insert k b' = t.insert k b' := by
  obtain ⟨es⟩ := t
  simp only [insert]
  congr 1
  induction es with
  | nil => simp [insertIn, Std.ReflOrd.compare_self]
  | cons e r ih =>
    obtain ⟨l, c⟩ := e
    cases hk : compare k l with
    | lt => simp [insertIn, hk, Std.ReflOrd.compare_self]
    | eq => simp [insertIn, hk]
    | gt => simp [insertIn, hk, ih]

theorem Ascends.find?_of_mem [Std.ReflOrd K] [Std.OrientedOrd K] {t : Table K β} (h : t.Ascends)
    {e : K × β} (he : e ∈ t.entries) : t.find? e.1 = some e.2 := by
  obtain ⟨es⟩ := t
  simp only [Ascends, find?] at h he ⊢
  induction es with
  | nil => cases he
  | cons a r ih =>
    obtain ⟨ha, hr⟩ := List.pairwise_cons.1 h
    rcases List.mem_cons.1 he with rfl | he
    · simp [findIn, Std.ReflOrd.compare_self]
    · have hgt : compare e.1 a.1 = .gt := Std.OrientedCmp.gt_of_lt (ha e he)
      simp [findIn, hgt, ih hr he]

variable [Std.LawfulEqOrd K]

theorem mem_domain_iff {t : Table K β} {k : K} : k ∈ t.domain ↔ ∃ b, t.find? k = some b := by
  obtain ⟨es⟩ := t
  simp only [domain, find?]
  induction es with
  | nil => simp [findIn]
  | cons a r ih =>
    by_cases hk : k = a.1
    · simp [findIn, hk]
    · simp [findIn, hk, ih]

theorem mem_domain_insert [DecidableEq K] {t : Table K β} {k l : K} {b : β} :
    l ∈ (t.insert k b).domain ↔ l = k ∨ l ∈ t.domain := by
  rw [mem_domain_iff, mem_domain_iff]
  by_cases hl : l = k
  · simp [hl]
  · simp [hl, find?_insert_of_ne]

variable [Std.TransOrd K]

theorem Ascends.domain_eq {γ : Type} {s : Table K β} {t : Table K γ} (hs : s.Ascends)
    (ht : t.Ascends) (h : ∀ k, k ∈ s.domain ↔ k ∈ t.domain) : s.domain = t.domain := by
  have hperm : s.domain.Perm t.domain :=
    (List.perm_ext_iff_of_nodup hs.nodup_domain ht.nodup_domain).2 h
  refine hperm.eq_of_pairwise (fun a b _ _ hab hba => ?_) hs.pairwise_domain ht.pairwise_domain
  have hab : compare a b = .lt := hab
  exact absurd hba (Std.OrientedCmp.not_lt_of_lt hab)

end Table

/-! ## Additions to a bag -/

namespace Bag

variable [DecidableEq V] [Ord V]

/-- Adds values one after the other. -/
def addAll (b : Bag d V) : List V → Bag d V
  | [] => b
  | v :: vs => (b.add v).2.addAll vs

theorem editAll_add (b : Bag d V) (vs : List V) : b.editAll (vs.map .add) = b.addAll vs := by
  induction vs generalizing b with
  | nil => rfl
  | cons v vs ih => exact ih (b.add v).2

theorem contains_of_add_eq_false {b : Bag d V} {v : V} (h : (b.add v).1 = false) :
    d ≠ .sequence ∧ v ∈ b.members := by
  rw [add_fst] at h
  simpa using h

theorem mem_add {b : Bag d V} {v w : V} : w ∈ (b.add v).2.members ↔ w = v ∨ w ∈ b.members := by
  cases h : (b.add v).1 with
  | true => rw [(perm_of_add h).mem_iff, List.mem_cons]
  | false =>
    have hv := (contains_of_add_eq_false h).2
    rw [add_snd_of_false h]
    exact ⟨.inr, fun hw => hw.elim (fun hw => hw ▸ hv) id⟩

theorem mem_addAll {b : Bag d V} {vs : List V} {w : V} :
    w ∈ (b.addAll vs).members ↔ w ∈ b.members ∨ w ∈ vs := by
  induction vs generalizing b with
  | nil => simp [addAll]
  | cons v vs ih =>
    rw [addAll, ih, mem_add, List.mem_cons]
    tauto

theorem members_addAll_sequence (b : Bag .sequence V) (vs : List V) :
    (b.addAll vs).members = b.members ++ vs := by
  induction vs generalizing b with
  | nil => exact (List.append_nil _).symm
  | cons v vs ih =>
    have hv : (b.add v).2.members = b.members ++ [v] := rfl
    rw [addAll, ih, hv, List.append_assoc, List.singleton_append]

theorem nodup_add (hd : d ≠ .sequence) {b : Bag d V} (h : b.members.Nodup) (v : V) :
    (b.add v).2.members.Nodup := by
  cases hadd : (b.add v).1 with
  | true =>
    have hv : v ∉ b.members := by
      rw [add_fst] at hadd
      simpa [hd, contains] using hadd
    rw [(perm_of_add hadd).nodup_iff]
    exact List.nodup_cons.2 ⟨hv, h⟩
  | false => rwa [add_snd_of_false hadd]

theorem nodup_addAll (hd : d ≠ .sequence) {b : Bag d V} (h : b.members.Nodup) (vs : List V) :
    (b.addAll vs).members.Nodup := by
  induction vs generalizing b with
  | nil => exact h
  | cons v vs ih => exact ih (nodup_add hd h v)

end Bag

/-! ## Additions to a content -/

namespace Content

/-- The content holds the mappings `qs` and nothing else, and no key without values. -/
structure MadeOf [Ord K] [DecidableEq K] (c : Content d K V) (qs : List (K × V)) : Prop where
  ascends : c.Ascends
  keys : ∀ k, k ∈ c.domain ↔ k ∈ qs.map (·.1)
  filled : ∀ e ∈ c.entries, e.2.isEmpty = false
  sequence : d = .sequence → ∀ e ∈ c.entries, e.2.members = Flat.valuesOf qs e.1
  nodup : d ≠ .sequence → ∀ e ∈ c.entries, e.2.members.Nodup
  mem : ∀ e ∈ c.entries, ∀ v, v ∈ e.2.members ↔ (e.1, v) ∈ qs

variable [Ord K] [Ord V] [DecidableEq K]

theorem MadeOf.mem_mappings [Std.LawfulEqOrd K] {c : Content d K V} {qs : List (K × V)}
    (h : c.MadeOf qs) {p : K × V} : p ∈ c.mappings ↔ p ∈ qs := by
  rw [mappings, List.mem_flatMap]
  constructor
  · rintro ⟨e, he, hp⟩
    obtain ⟨v, hv, rfl⟩ := List.mem_map.1 hp
    exact (h.mem e he v).1 (Bag.mem_toList.1 hv)
  · intro hp
    have hk : p.1 ∈ c.domain := (h.keys p.1).2 (List.mem_map_of_mem hp)
    obtain ⟨e, he, hek⟩ := List.mem_map.1 hk
    have hv : p.2 ∈ e.2.members := (h.mem e he p.2).2 (by rw [hek]; exact hp)
    exact ⟨e, he, List.mem_map.2 ⟨p.2, Bag.mem_toList.2 hv, by rw [hek]⟩⟩

variable [DecidableEq V]

omit [DecidableEq K] in
theorem extend_map_cons [Std.ReflOrd K] (c : Content d K V) (k : K) (v : V) (vs : List V) :
    c.extend ((v :: vs).map (k, ·)) = c.insert k ((c.bag k).addAll (v :: vs)) := by
  induction vs generalizing c v with
  | nil => rfl
  | cons w vs ih =>
    have hbag : (c.add k v).2.bag k = ((c.bag k).add v).2 := by
      rw [bag, add, Table.find?_insert_self]
      rfl
    show (c.add k v).2.extend ((w :: vs).map (k, ·)) = _
    rw [ih, hbag]
    exact Table.insert_insert c k _ _

variable [Std.LawfulEqOrd K]

theorem bag_extend (c : Content d K V) (ps : List (K × V)) (k : K) :
    (c.extend ps).bag k = (c.bag k).addAll (Flat.valuesOf ps k) := by
  induction ps generalizing c with
  | nil => rfl
  | cons p ps ih =>
    obtain ⟨l, v⟩ := p
    have hadd : (c.add l v).2.bag = Function.update c.bag l ((c.bag l).add v).2 := bag_insert c l _
    have hstep : (c.extend ((l, v) :: ps)).bag k =
        ((c.add l v).2.bag k).addAll (Flat.valuesOf ps k) := ih _
    by_cases hl : l = k
    · rw [hstep, hadd, hl, Function.update_self, Flat.valuesOf_cons_self]
      rfl
    · rw [hstep, hadd, Function.update_of_ne (Ne.symm hl), Flat.valuesOf_cons_of_ne _ _ hl]

theorem mem_domain_extend {c : Content d K V} {ps : List (K × V)} {k : K} :
    k ∈ (c.extend ps).domain ↔ k ∈ c.domain ∨ k ∈ ps.map (·.1) := by
  induction ps generalizing c with
  | nil => simp [extend]
  | cons p ps ih =>
    have hadd : k ∈ (c.add p.1 p.2).2.domain ↔ k = p.1 ∨ k ∈ c.domain := Table.mem_domain_insert
    show k ∈ ((c.add p.1 p.2).2.extend ps).domain ↔ _
    rw [ih, hadd, List.map_cons, List.mem_cons]
    tauto

variable [Std.TransOrd K]

theorem madeOf_ofMappings (qs : List (K × V)) : (ofMappings qs : Content d K V).MadeOf qs := by
  have hasc := ascends_ofMappings (d := d) qs
  have hdomain : ∀ k, k ∈ (ofMappings qs : Content d K V).domain ↔ k ∈ qs.map (·.1) := by
    intro k
    show k ∈ (extend .empty qs : Content d K V).domain ↔ _
    rw [mem_domain_extend]
    simp [Table.domain, Table.empty]
  have hbag : ∀ e ∈ (ofMappings qs : Content d K V).entries,
      e.2 = Bag.addAll .empty (Flat.valuesOf qs e.1) := by
    intro e he
    have hlook : (ofMappings qs : Content d K V).bag e.1 = e.2 := by
      rw [bag, hasc.find?_of_mem he]
      rfl
    rw [← hlook]
    exact bag_extend .empty qs e.1
  have hmem : ∀ e ∈ (ofMappings qs : Content d K V).entries, ∀ v,
      v ∈ e.2.members ↔ (e.1, v) ∈ qs := by
    intro e he v
    rw [hbag e he, Bag.mem_addAll, Flat.mem_valuesOf]
    simp
  refine ⟨hasc, hdomain, fun e he => ?_, ?_, fun hd e he => ?_, hmem⟩
  · have hkey : e.1 ∈ qs.map (·.1) := (hdomain e.1).1 (List.mem_map_of_mem he)
    obtain ⟨p, hp, hpe⟩ := List.mem_map.1 hkey
    have hv : p.2 ∈ e.2.members := (hmem e he p.2).2 (by rw [← hpe]; exact hp)
    exact Bag.isEmpty_of_mem hv
  · rintro rfl e he
    rw [hbag e he]
    exact Bag.members_addAll_sequence .empty _
  · rw [hbag e he]
    exact Bag.nodup_addAll hd .nil _

end Content

end LayeredMultimap
