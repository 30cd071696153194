import LayeredMultimap.Proofs.Additions
import LayeredMultimap.Proofs.Passage
import LayeredMultimap.Proofs.Recast

/-!
# Recasts that succeed

A recast in which no put fails leaves a content that is made of the images of the mappings, in the
order of the mappings. Nothing of the content before is in it: a mapping that stays is an image.
-/

namespace LayeredMultimap.Multimap

variable {d : Discipline} {E K V : Type} [DecidableEq K] [DecidableEq V]

theorem passages_of_arrive {m : Multimap d E K V} {ps qs : List (K × V)} (h : m.Arrive ps qs) :
    List.Forall₂ (fun p q => (passage m.layers p.1 p.2).result = .ok q) ps qs :=
  h.imp fun _ _ hq => passage_of_arrival_ok hq

variable [Ord K] [Ord V] [Logging E] [Std.TransOrd K] [Std.LawfulEqOrd K]

/-- **A recast that succeeds rewrites every mapping.** What is left are the images, in the order of
the mappings. -/
theorem recast_success (m : Multimap d E K V) (l : Layer E K V)
    (h : ∀ p ∈ flatten m.drain.1, ∀ e, ((m.under l).put p.1 p.2).result ≠ .error e) :
    (m.isEmpty = false → ∃ (qs : List (K × V)) (c : Content d K V),
      List.Forall₂ (fun p q => (passage (l :: m.layers) p.1 p.2).result = .ok q)
        (flatten m.drain.1) qs ∧
      (m.recast l).value = .ok ((m.under l).withContent c) ∧
      c.MadeOf qs ∧ (∀ p, p ∈ c.mappings ↔ p ∈ qs) ∧ (d = .sequence → c.size = m.size)) ∧
    (m.isEmpty = true → m.recast l = pure (.ok (m.under l))) := by
  refine ⟨fun hempty => ?_, fun hempty => recast_of_isEmpty hempty l⟩
  obtain ⟨qs, hqs⟩ := exists_arrive h
  have hmade : (Content.ofMappings qs : Content d K V).MadeOf qs := Content.madeOf_ofMappings qs
  refine ⟨qs, Content.ofMappings qs, passages_of_arrive hqs, recastIn_of_arrive hempty hqs, hmade,
    fun p => hmade.mem_mappings, ?_⟩
  rintro rfl
  have hperm : (Content.ofMappings qs : Content .sequence K V).mappings.Perm qs :=
    Content.mappings_extend_sequence Table.ascends_empty qs
  have hlen : (flatten m.drain.1).length = m.size := Content.length_flatten_groups m.content
  rw [← Content.length_mappings, hperm.length_eq, ← hqs.length_eq, hlen]

/-- A layer that gives all mappings the same key. -/
def gathering (k : Nat) : Layer Event Nat Nat := ⟨some (.const k), none⟩

/-- Mappings of two keys are gathered under one of the two, and all of them pass both layers. -/
theorem recast_success_gathered :
    (∀ p ∈ flatten threeMappings.drain.1, ∀ e,
      ((threeMappings.under (gathering 2)).put p.1 p.2).result ≠ .error e) ∧
    ∃ (qs : List (Nat × Nat)) (c : Content .sequence Nat Nat),
      List.Forall₂ (fun p q => (passage (gathering 2 :: threeMappings.layers) p.1 p.2).result = .ok q)
        (flatten threeMappings.drain.1) qs ∧
      (threeMappings.recast (gathering 2)).value =
        .ok ((threeMappings.under (gathering 2)).withContent c) ∧
      c.MadeOf qs ∧ (∀ p, p ∈ c.mappings ↔ p ∈ qs) ∧
      (Discipline.sequence = .sequence → c.size = threeMappings.size) := by
  have hput : ∀ p ∈ flatten threeMappings.drain.1, ∀ e,
      ((threeMappings.under (gathering 2)).put p.1 p.2).result ≠ .error e := by
    intro p _ e he
    have hok : ((threeMappings.under (gathering 2)).put p.1 p.2).result = .ok true := rfl
    rw [hok] at he
    cases he
  exact ⟨hput, (recast_success threeMappings (gathering 2) hput).1 (by decide)⟩

end LayeredMultimap.Multimap
