import LayeredMultimap.Proofs.Additions
import LayeredMultimap.Proofs.Ledger
import Mathlib.Algebra.BigOperators.Ring.Finset

/-!
# Accounts of bags

The records of a run behind its last draining tell what is in the bag: each value is there as often
as its balance says, and if the bag keeps a sequence, its values are the surviving additions of the
ledger.

An edit that does not drain the bag adds a value, takes one out or changes nothing (`Bag.Effect`).
What these three keep is kept by runs (`Bag.editAll_induct`).
-/

namespace LayeredMultimap

variable {d : Discipline} {V : Type}

namespace Bag

variable [DecidableEq V] [Ord V]

/-! ## Single edits -/

/-- What becomes of a bag with an edit that is no draining: a value is added or taken out, which is
reported, or else the bag stays as it is. -/
inductive Effect (b : Bag d V) : Record V → Bag d V → Prop
  | added (v : V) (h : (b.add v).1 = true) : Effect b (.add v, .flag true) (b.add v).2
  | removed (v : V) (h : (b.remove v).1 = true) : Effect b (.remove v, .flag true) (b.remove v).2
  | kept (r : Record V) (hadd : ∀ v, r ≠ (.add v, .flag true))
      (hremove : ∀ v, r ≠ (.remove v, .flag true)) : Effect b r b

theorem effect_edit (b : Bag d V) {e : Edit V} (he : e ≠ .drain) :
    b.Effect (e, (b.edit e).1) (b.edit e).2 := by
  cases e with
  | add v =>
    show b.Effect (.add v, .flag (b.add v).1) (b.add v).2
    cases h : (b.add v).1 with
    | true => exact .added v h
    | false =>
      rw [add_snd_of_false h]
      exact .kept _ (by simp) (by simp)
  | remove v =>
    show b.Effect (.remove v, .flag (b.remove v).1) (b.remove v).2
    cases h : (b.remove v).1 with
    | true => exact .removed v h
    | false =>
      rw [remove_snd_of_false h]
      exact .kept _ (by simp) (by simp)
  | drain => exact absurd rfl he
  | contains | size | isEmpty | list => exact .kept _ (by simp) (by simp)

theorem Effect.count_eq {b b' : Bag d V} {r : Record V} (h : b.Effect r b') {log : List (Record V)}
    {v : V} (hcount : (b.members.count v : Int) = balance log v) :
    (b'.members.count v : Int) = balance (log ++ [r]) v := by
  rw [balance_concat, ← hcount]
  cases h with
  | added w h =>
    rw [(perm_of_add h).count_eq, List.count_cons]
    by_cases hw : w = v <;> simp [hw]
  | removed w h =>
    rw [(perm_of_remove h).count_eq, List.count_cons]
    by_cases hw : w = v <;> simp [hw]
  | kept _ hadd hremove => simp [hadd v, hremove v]

theorem Effect.nodup {b b' : Bag d V} {r : Record V} (h : b.Effect r b') (hd : d ≠ .sequence)
    (hb : b.members.Nodup) : b'.members.Nodup := by
  cases h with
  | added v h => exact nodup_add hd hb v
  | removed v h => exact hb.sublist List.erase_sublist
  | kept => exact hb

/-- The values of a bag are the surviving additions in the ledger of its records, and of each value
as many additions are cancelled as removals are recorded. -/
structure Booked (b : Bag d V) (log : List (Record V)) : Prop where
  members : b.members = surviving (ledger log)
  cancelled : ∀ v, (ledger log).count ⟨v, true⟩ = log.count (.remove v, .flag true)

theorem Effect.booked {b b' : Bag .sequence V} {r : Record V} (h : b.Effect r b')
    {log : List (Record V)} (hb : b.Booked log) : b'.Booked (log ++ [r]) := by
  have hmembers := hb.members
  cases h with
  | added v h =>
    refine ⟨?_, fun w => ?_⟩
    · rw [ledger_concat_add, surviving_append, ← hmembers]
      rfl
    · rw [ledger_concat_add, List.count_append, List.count_append, hb.cancelled]
      simp
  | removed v h =>
    have hv : v ∈ surviving (ledger log) := hmembers ▸ contains_iff.1 h
    refine ⟨?_, fun w => ?_⟩
    · rw [ledger_concat_remove, surviving_cancelOldest hv, ← hmembers]
      rfl
    · rw [ledger_concat_remove, count_cancelOldest hv, List.count_append, hb.cancelled]
      simp [List.count_singleton]
  | kept _ hadd hremove =>
    refine ⟨?_, fun w => ?_⟩
    · rw [ledger_concat_of_ne log hadd hremove, hmembers]
    · rw [ledger_concat_of_ne log hadd hremove, List.count_append, hb.cancelled]
      simp [hremove w]

/-! ## Runs -/

/-- The edits of a run, each with the reply to it. -/
def log (b : Bag d V) (es : List (Edit V)) : List (Record V) := es.zip (b.replies es)

theorem log_append (b : Bag d V) (es fs : List (Edit V)) :
    b.log (es ++ fs) = b.log es ++ (b.editAll es).log fs := by
  induction es generalizing b with
  | nil => rfl
  | cons e es ih => exact congrArg ((e, (b.edit e).1) :: ·) (ih (b.edit e).2)

theorem editAll_append (b : Bag d V) (es fs : List (Edit V)) :
    b.editAll (es ++ fs) = (b.editAll es).editAll fs := by
  induction es generalizing b with
  | nil => rfl
  | cons e es ih => exact ih (b.edit e).2

/-- Induction over the edits behind the last draining, with their records. -/
theorem editAll_induct {P : Bag d V → List (Record V) → Prop} (hempty : P empty [])
    (heffect : ∀ {b r b' log}, b.Effect r b' → P b log → P b' (log ++ [r]))
    (es : List (Edit V)) : P (empty.editAll es) (sinceDrain ((empty : Bag d V).log es)) := by
  -- from the end of the run, which is where the records behind the last draining grow
  induction es using List.reverseRecOn with
  | nil => exact hempty
  | append_singleton es e ih =>
    have hlog : (empty : Bag d V).log (es ++ [e]) =
        empty.log es ++ [(e, ((empty.editAll es).edit e).1)] := log_append empty es [e]
    have hbag : (empty : Bag d V).editAll (es ++ [e]) = ((empty.editAll es).edit e).2 :=
      editAll_append empty es [e]
    rw [hlog, hbag]
    by_cases he : e = .drain
    · subst he
      rw [sinceDrain_concat_drain]
      exact hempty
    · rw [sinceDrain_concat _ he]
      exact heffect (effect_edit _ he) ih

theorem count_editAll (es : List (Edit V)) (v : V) :
    (((empty : Bag d V).editAll es).members.count v : Int) =
      balance (sinceDrain ((empty : Bag d V).log es)) v :=
  editAll_induct (P := fun b log => (b.members.count v : Int) = balance log v) rfl
    (fun h ih => h.count_eq ih) es

theorem nodup_editAll (hd : d ≠ .sequence) (es : List (Edit V)) :
    ((empty : Bag d V).editAll es).members.Nodup :=
  editAll_induct (P := fun b _ => b.members.Nodup) .nil (fun h ih => h.nodup hd ih) es

theorem booked_editAll (es : List (Edit V)) :
    ((empty : Bag .sequence V).editAll es).Booked (sinceDrain ((empty : Bag .sequence V).log es)) :=
  editAll_induct (P := fun b log => b.Booked log) ⟨rfl, fun _ => rfl⟩ (fun h ih => h.booked ih) es

/-! ## Distinct and ascending bags -/

/-- A bag that is edited is that of the only key of a flat sequence. -/
theorem editAll_flat [Std.TransOrd V] [Std.LawfulEqOrd V] (d : Discipline) (es : List (Edit V)) :
    (empty : Bag d V).replies es = (Flat.edits d () [] es).1 ∧
      (empty : Bag d V).editAll es = ofValues d (Flat.valuesOf (Flat.edits d () [] es).2 ()) := by
  have hflat := Flat.edits_bag (d := d) ([] : List (Unit × V)) () es
  have hnil : Flat.valuesOf ([] : List (Unit × V)) () = [] := rfl
  rwa [hnil, ofValues_nil] at hflat

theorem distinct_like_ascending [Std.TransOrd V] [Std.LawfulEqOrd V] (es : List (Edit V)) :
    (empty : Bag .distinct V).replies es = (empty : Bag .ascending V).replies es ∧
      ((empty : Bag .distinct V).editAll es).members.Perm
        ((empty : Bag .ascending V).editAll es).members := by
  obtain ⟨hreplies, hbag⟩ := editAll_flat .distinct es
  obtain ⟨hreplies', hbag'⟩ := editAll_flat .ascending es
  rw [Flat.edits_distinct] at hreplies hbag
  refine ⟨hreplies.trans hreplies'.symm, ?_⟩
  rw [hbag, hbag']
  exact (members_ofValues_perm _).trans (members_ofValues_perm _).symm

/-! ## The account -/

omit [Ord V] in
theorem size_eq_sum {b : Bag d V} {f : V → Int} (hf : ∀ v, (b.members.count v : Int) = f v)
    {s : Finset V} (hs : ∀ v, 0 < f v → v ∈ s) : (b.size : Int) = ∑ v ∈ s, f v := by
  have hmem : ∀ v ∈ (b.members : Multiset V), v ∈ s := by
    intro v hv
    have hpos : 0 < b.members.count v := List.count_pos_iff.2 hv
    have hcount := hf v
    exact hs v (by omega)
  have hsum := Multiset.sum_count_eq_card hmem
  simp only [Multiset.coe_count, Multiset.coe_card] at hsum
  rw [size, ← hsum, Nat.cast_sum]
  exact Finset.sum_congr rfl fun v _ => hf v

/-- The bag is what the records of `log` come to, and its replies are those that follow from them.
-/
structure KeepsAccount (b : Bag d V) (log : List (Record V)) : Prop where
  count : ∀ v, (b.toList.count v : Int) = balance log v
  contains : ∀ v, (b.edit (.contains v)).1 = .flag (decide (0 < balance log v))
  remove : ∀ v, (b.edit (.remove v)).1 = .flag (decide (0 < balance log v))
  size : ∀ s : Finset V, (∀ v, 0 < balance log v → v ∈ s) →
    ∃ n, (b.edit .size).1 = .count n ∧ (n : Int) = ∑ v ∈ s, balance log v
  isEmpty : (b.edit .isEmpty).1 = .flag true ↔ (b.edit .size).1 = .count 0
  list : b.edit .list = (.values b.toList, b)
  drain : b.edit .drain = (.values b.toList, empty)
  always : d = .sequence → ∀ v, (b.edit (.add v)).1 = .flag true
  survivors : d = .sequence → b.toList = surviving (ledger log)
  cancelled : d = .sequence → ∀ v,
    (ledger log).count ⟨v, true⟩ = log.count (.remove v, .flag true)
  fresh : d ≠ .sequence → ∀ v, (b.edit (.add v)).1 = .flag (decide (v ∉ b.toList))
  nodup : d ≠ .sequence → b.toList.Nodup

theorem keepsAccount {b : Bag d V} {log : List (Record V)}
    (hcount : ∀ v, (b.members.count v : Int) = balance log v)
    (hbooked : d = .sequence → b.Booked log) (hnodup : d ≠ .sequence → b.members.Nodup) :
    b.KeepsAccount log := by
  have hcontains : ∀ v, b.contains v = decide (0 < balance log v) := by
    intro v
    rw [Bag.contains, ← hcount, decide_eq_decide, Int.natCast_pos, List.count_pos_iff]
  refine ⟨?_, ?_, ?_, ?_, ?_, rfl, rfl, ?_, ?_, ?_, ?_, ?_⟩
  · intro v
    rw [b.toList_perm.count_eq, hcount]
  · intro v
    exact congrArg Reply.flag (hcontains v)
  · intro v
    exact congrArg Reply.flag (hcontains v)
  · intro s hs
    exact ⟨b.size, rfl, size_eq_sum hcount hs⟩
  · simp [edit, Bag.isEmpty]
  · rintro rfl v
    rfl
  · rintro rfl
    exact (hbooked rfl).members
  · intro hd
    exact (hbooked hd).cancelled
  · intro hd v
    show Reply.flag (b.add v).1 = _
    rw [add_fst, beq_eq_false_iff_ne.2 hd]
    simp [Bag.contains]
  · intro hd
    exact b.toList_perm.nodup_iff.2 (hnodup hd)

/-- **Bags keep account of their values.** They hold what was reported as added and not as removed,
and distinct and ascending bags reply alike. -/
theorem edits_keep_account (es : List (Edit V)) :
    (∀ d : Discipline, ((empty : Bag d V).editAll es).KeepsAccount
      (sinceDrain ((empty : Bag d V).log es))) ∧
    ∀ [Std.TransOrd V] [Std.LawfulEqOrd V],
      (empty : Bag .distinct V).replies es = (empty : Bag .ascending V).replies es ∧
      ((empty : Bag .distinct V).editAll es).members.Perm
        ((empty : Bag .ascending V).editAll es).members := by
  refine ⟨fun d => ?_, distinct_like_ascending es⟩
  apply keepsAccount (count_editAll es)
  · rintro rfl
    exact booked_editAll es
  · intro hd
    exact nodup_editAll hd es

/-- Behind a draining, values are added again, taken out, and asked for in vain. -/
def mixedEdits : List (Edit Nat) :=
  [.add 5, .add 6, .drain, .add 3, .add 1, .add 3, .remove 6, .add 2, .remove 3, .add 1]

/-- The older one of two additions of 3 is cancelled, and 6 is not found, since it was drained. -/
theorem edits_keep_account_mixed :
    let b := (empty : Bag .sequence Nat).editAll mixedEdits
    let log := sinceDrain ((empty : Bag .sequence Nat).log mixedEdits)
    (b.KeepsAccount log ∧ b.toList = [1, 3, 2, 1] ∧ balance log 3 = 1 ∧
      ledger log = [⟨3, true⟩, ⟨1, false⟩, ⟨3, false⟩, ⟨2, false⟩, ⟨1, false⟩]) ∧
    (empty : Bag .distinct Nat).replies mixedEdits =
      (empty : Bag .ascending Nat).replies mixedEdits ∧
    (empty : Bag .ascending Nat).replies mixedEdits =
      [.flag true, .flag true, .values [5, 6], .flag true, .flag true, .flag false, .flag false,
        .flag true, .flag true, .flag false] := by
  intro b log
  obtain ⟨haccount, hagree⟩ := edits_keep_account mixedEdits
  exact ⟨⟨haccount .sequence, rfl, rfl, rfl⟩, hagree.1, rfl⟩

end Bag

end LayeredMultimap
