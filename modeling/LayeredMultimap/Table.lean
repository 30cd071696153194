/-!
# Tables

A table associates keys with things, and lists its keys in ascending order. Looking a key up does
not rely on the order, so the equations between look-up and change hold for every table; that the
keys ascend is a property that the changes keep (`Ascends.insert`, `Ascends.erase`), and tables that
have it are told apart by look-ups (`Ascends.ext`).
-/

namespace LayeredMultimap

/-- An association of keys with things. -/
@[ext]
structure Table (K β : Type) where
  entries : List (K × β)
deriving DecidableEq

namespace Table

variable {K β : Type} [Ord K]

def empty : Table K β := ⟨[]⟩

/-- The entry of a key in a list of entries. -/
def findIn (k : K) : List (K × β) → Option β
  | [] => none
  | (l, b) :: r => if compare k l = .eq then some b else findIn k r

/-- Sets the entry of a key in a list of entries, in front of the first larger key if it is new. -/
def insertIn (k : K) (b : β) : List (K × β) → List (K × β)
  | [] => [(k, b)]
  | (l, c) :: r =>
    match compare k l with
    | .lt => (k, b) :: (l, c) :: r
    | .eq => (l, b) :: r
    | .gt => (l, c) :: insertIn k b r

def find? (t : Table K β) (k : K) : Option β := findIn k t.entries

/-- Associates a key with a thing in place of what it had. -/
def insert (t : Table K β) (k : K) (b : β) : Table K β := ⟨insertIn k b t.entries⟩

def erase (t : Table K β) (k : K) : Table K β :=
  ⟨t.entries.filter fun e => !(compare k e.1 == .eq)⟩

/-- The keys of a table ascend strictly. -/
def Ascends (t : Table K β) : Prop := t.entries.Pairwise fun a b => compare a.1 b.1 = .lt

/-! ## Look-up after a change -/

@[simp] theorem find?_insert_self [Std.ReflOrd K] (t : Table K β) (k : K) (b : β) :
    (t.insert k b).find? k = some b := by
  obtain ⟨es⟩ := t
  simp only [find?, insert]
  induction es with
  | nil => simp [insertIn, findIn, Std.ReflOrd.compare_self]
  | cons e r ih =>
    obtain ⟨l, c⟩ := e
    unfold insertIn
    cases h : compare k l with
    | lt => simp [findIn, Std.ReflOrd.compare_self]
    | eq => simp [findIn, h]
    | gt => simp [findIn, h, ih]

theorem find?_insert_of_ne [Std.LawfulEqOrd K] (t : Table K β) {k l : K} (b : β) (h : l ≠ k) :
    (t.insert k b).find? l = t.find? l := by
  have hk : ¬ compare l k = .eq := fun he => h (Std.LawfulEqOrd.eq_of_compare he)
  obtain ⟨es⟩ := t
  simp only [find?, insert]
  induction es with
  | nil => simp [insertIn, findIn, hk]
  | cons e r ih =>
    obtain ⟨j, c⟩ := e
    unfold insertIn
    cases hj : compare k j with
    | lt => simp [findIn, hk]
    | eq =>
      obtain rfl := Std.LawfulEqOrd.eq_of_compare hj
      simp [findIn, hk]
    | gt => simp [findIn, ih]

@[simp] theorem find?_erase_self (t : Table K β) (k : K) : (t.erase k).find? k = none := by
  obtain ⟨es⟩ := t
  simp only [find?, erase]
  induction es with
  | nil => rfl
  | cons e r ih =>
    obtain ⟨l, c⟩ := e
    by_cases h : compare k l = .eq <;> simp [h, findIn, ih]

theorem find?_erase_of_ne [Std.LawfulEqOrd K] (t : Table K β) {k l : K} (h : l ≠ k) :
    (t.erase k).find? l = t.find? l := by
  obtain ⟨es⟩ := t
  simp only [find?, erase]
  induction es with
  | nil => rfl
  | cons e r ih =>
    obtain ⟨j, c⟩ := e
    by_cases hj : compare k j = .eq
    · obtain rfl := Std.LawfulEqOrd.eq_of_compare hj
      have hl : ¬ compare l k = .eq := fun he => h (Std.LawfulEqOrd.eq_of_compare he)
      simpa [findIn, hj, hl] using ih
    · simp [findIn, hj, ih]

/-! ## The order of the keys -/

theorem ascends_empty : (empty : Table K β).Ascends := .nil

theorem mem_insertIn [Std.LawfulEqOrd K] {k : K} {b : β} {es : List (K × β)} {e : K × β}
    (h : e ∈ insertIn k b es) : e = (k, b) ∨ e ∈ es := by
  induction es with
  | nil => simpa [insertIn] using h
  | cons a r ih =>
    obtain ⟨l, c⟩ := a
    unfold insertIn at h
    cases hl : compare k l with
    | lt => simpa [hl] using h
    | eq =>
      obtain rfl := Std.LawfulEqOrd.eq_of_compare hl
      simp only [hl, List.mem_cons] at h ⊢
      exact h.imp_right .inr
    | gt =>
      simp only [hl, List.mem_cons] at h ⊢
      rcases h with h | h
      · exact .inr (.inl h)
      · exact (ih h).imp_right .inr

theorem Ascends.insert [Std.TransOrd K] [Std.LawfulEqOrd K] {t : Table K β} (h : t.Ascends)
    (k : K) (b : β) : (t.insert k b).Ascends := by
  obtain ⟨es⟩ := t
  simp only [Ascends, Table.insert] at *
  induction es with
  | nil => exact List.pairwise_singleton _ _
  | cons e r ih =>
    obtain ⟨l, c⟩ := e
    obtain ⟨hl, hr⟩ := List.pairwise_cons.1 h
    unfold insertIn
    cases hk : compare k l with
    | lt =>
      refine List.pairwise_cons.2 ⟨fun a ha => ?_, h⟩
      rcases List.mem_cons.1 ha with rfl | ha
      · exact hk
      · exact Std.TransCmp.lt_trans hk (hl a ha)
    | eq => exact List.pairwise_cons.2 ⟨hl, hr⟩
    | gt =>
      refine List.pairwise_cons.2 ⟨fun a ha => ?_, ih hr⟩
      rcases mem_insertIn ha with rfl | ha
      · exact Std.OrientedCmp.lt_of_gt hk
      · exact hl a ha

theorem Ascends.erase {t : Table K β} (h : t.Ascends) (k : K) : (t.erase k).Ascends :=
  List.Pairwise.sublist List.filter_sublist h

theorem findIn_eq_none {k : K} {es : List (K × β)} (h : ∀ e ∈ es, compare k e.1 = .lt) :
    findIn k es = none := by
  induction es with
  | nil => rfl
  | cons e r ih =>
    have he : compare k e.1 = .lt := h e (by simp)
    simp [findIn, he, ih fun a ha => h a (by simp [ha])]

theorem Ascends.ext [Std.TransOrd K] [Std.LawfulEqOrd K] {s t : Table K β} (hs : s.Ascends)
    (ht : t.Ascends) (h : ∀ k, s.find? k = t.find? k) : s = t := by
  obtain ⟨es⟩ := s
  obtain ⟨fs⟩ := t
  simp only [Ascends, find?] at *
  congr 1
  induction es generalizing fs with
  | nil =>
    cases fs with
    | nil => rfl
    | cons f q => have := h f.1; simp [findIn, Std.ReflOrd.compare_self] at this
  | cons e r ih =>
    obtain ⟨k, b⟩ := e
    obtain ⟨hk, hr⟩ := List.pairwise_cons.1 hs
    cases fs with
    | nil => have := h k; simp [findIn, Std.ReflOrd.compare_self] at this
    | cons f q =>
      obtain ⟨l, c⟩ := f
      obtain ⟨hl, hq⟩ := List.pairwise_cons.1 ht
      have hkl : k = l := by
        cases hc : compare k l with
        | eq => exact Std.LawfulEqOrd.eq_of_compare hc
        | lt =>
          have hn : findIn k ((l, c) :: q) = none := findIn_eq_none fun a ha => by
            rcases List.mem_cons.1 ha with rfl | ha
            · exact hc
            · exact Std.TransCmp.lt_trans hc (hl a ha)
          have := h k
          rw [hn] at this
          simp [findIn, Std.ReflOrd.compare_self] at this
        | gt =>
          have hn : findIn l ((k, b) :: r) = none := findIn_eq_none fun a ha => by
            rcases List.mem_cons.1 ha with rfl | ha
            · exact Std.OrientedCmp.lt_of_gt hc
            · exact Std.TransCmp.lt_trans (Std.OrientedCmp.lt_of_gt hc) (hk a ha)
          have := h l
          rw [hn] at this
          simp [findIn, Std.ReflOrd.compare_self] at this
      subst hkl
      have hb := h k
      simp only [findIn, Std.ReflOrd.compare_self, if_true, Option.some.injEq] at hb
      subst hb
      refine congrArg _ (ih hr q hq fun j => ?_)
      have hj := h j
      by_cases hjk : compare j k = .eq
      · obtain rfl := Std.LawfulEqOrd.eq_of_compare hjk
        rw [findIn_eq_none hk, findIn_eq_none hl]
      · simpa [findIn, hjk] using hj

end Table

end LayeredMultimap
