import LayeredMultimap.Bag.Edit
import Mathlib.Data.List.DropRight
import Mathlib.Tactic.SplitIfs

/-!
# Ledgers

The edits of a run are recorded with the replies to them. The records say how often each value was
added, less how often it was removed (`balance`). They also say which additions are left (`ledger`):
a removal cancels the oldest addition of its value that has survived so far (`cancelOldest_split`).
-/

namespace LayeredMultimap

variable {V : Type}

/-- An edit and the reply to it. -/
abbrev Record (V : Type) := Edit V × Reply V

section Records

variable [DecidableEq V]

/-- The records behind the last draining. -/
def sinceDrain (log : List (Record V)) : List (Record V) := log.rtakeWhile (·.1 ≠ .drain)

theorem sinceDrain_concat_drain (log : List (Record V)) (r : Reply V) :
    sinceDrain (log ++ [(.drain, r)]) = [] := by
  simp [sinceDrain]

theorem sinceDrain_concat (log : List (Record V)) {e : Edit V} (he : e ≠ .drain) (r : Reply V) :
    sinceDrain (log ++ [(e, r)]) = sinceDrain log ++ [(e, r)] := by
  simp [sinceDrain, he]

/-- The reported additions of a value, less its reported removals. -/
def balance (log : List (Record V)) (v : V) : Int :=
  log.count (.add v, .flag true) - log.count (.remove v, .flag true)

theorem balance_concat (log : List (Record V)) (r : Record V) (v : V) :
    balance (log ++ [r]) v = balance log v + (if r = (.add v, .flag true) then 1 else 0) -
      (if r = (.remove v, .flag true) then 1 else 0) := by
  simp only [balance, List.count_append, List.count_singleton, beq_iff_eq]
  split_ifs <;> omega

end Records

/-! ## Ledgers -/

/-- A value that was added, and whether a removal has cancelled the addition. -/
structure Addition (V : Type) where
  value : V
  cancelled : Bool
deriving DecidableEq

/-- The values whose additions are not cancelled, oldest first. -/
def surviving (as : List (Addition V)) : List V := (as.filter (!·.cancelled)).map (·.value)

theorem surviving_append (as as' : List (Addition V)) :
    surviving (as ++ as') = surviving as ++ surviving as' := by
  simp [surviving]

section Ledgers

variable [DecidableEq V]

/-- Cancels the oldest addition of a value that is not cancelled yet. -/
def cancelOldest (v : V) : List (Addition V) → List (Addition V)
  | [] => []
  | a :: as => if a = ⟨v, false⟩ then ⟨v, true⟩ :: as else a :: cancelOldest v as

/-- Enters what a record reports into a ledger. -/
def enter (as : List (Addition V)) : Record V → List (Addition V)
  | (.add v, .flag true) => as ++ [⟨v, false⟩]
  | (.remove v, .flag true) => cancelOldest v as
  | _ => as

/-- All additions that the records report, in the order in which they were made, each with what has
become of it. -/
def ledger (log : List (Record V)) : List (Addition V) := log.foldl enter []

theorem ledger_concat_add (log : List (Record V)) (v : V) :
    ledger (log ++ [(.add v, .flag true)]) = ledger log ++ [⟨v, false⟩] := List.foldl_concat ..

theorem ledger_concat_remove (log : List (Record V)) (v : V) :
    ledger (log ++ [(.remove v, .flag true)]) = cancelOldest v (ledger log) := List.foldl_concat ..

theorem ledger_concat_of_ne (log : List (Record V)) {r : Record V}
    (hadd : ∀ v, r ≠ (.add v, .flag true)) (hremove : ∀ v, r ≠ (.remove v, .flag true)) :
    ledger (log ++ [r]) = ledger log := by
  have hconcat : ledger (log ++ [r]) = enter (ledger log) r := List.foldl_concat ..
  rw [hconcat]
  unfold enter
  split
  · exact absurd rfl (hadd _)
  · exact absurd rfl (hremove _)
  · rfl

/-- No surviving addition of the value is older than the one that is cancelled. -/
theorem cancelOldest_split {v : V} {as : List (Addition V)} (hv : v ∈ surviving as) :
    ∃ before after, as = before ++ ⟨v, false⟩ :: after ∧ v ∉ surviving before ∧
      cancelOldest v as = before ++ ⟨v, true⟩ :: after := by
  induction as with
  | nil => cases hv
  | cons a as ih =>
    by_cases ha : a = ⟨v, false⟩
    · refine ⟨[], as, congrArg (· :: as) ha, List.not_mem_nil, ?_⟩
      rw [cancelOldest, if_pos ha]
      rfl
    · -- an addition that is passed over is cancelled already or has another value
      have hne : v ∉ surviving [a] := by
        intro hmem
        obtain ⟨w, cancelled⟩ := a
        cases cancelled with
        | true => cases hmem
        | false =>
          obtain rfl : v = w := List.mem_singleton.1 hmem
          exact ha rfl
      have hcons (bs : List (Addition V)) : surviving (a :: bs) = surviving [a] ++ surviving bs :=
        surviving_append [a] bs
      rw [hcons, List.mem_append] at hv
      obtain ⟨before, after, has, hbefore, hcancel⟩ := ih (hv.resolve_left hne)
      refine ⟨a :: before, after, congrArg (a :: ·) has, ?_, ?_⟩
      · rw [hcons, List.mem_append, not_or]
        exact ⟨hne, hbefore⟩
      · rw [cancelOldest, if_neg ha, hcancel]
        rfl

theorem surviving_cancelOldest {v : V} {as : List (Addition V)} (hv : v ∈ surviving as) :
    surviving (cancelOldest v as) = (surviving as).erase v := by
  obtain ⟨before, after, has, hbefore, hcancel⟩ := cancelOldest_split hv
  rw [hcancel, has, surviving_append, surviving_append, List.erase_append_right _ hbefore]
  simp [surviving]

theorem count_cancelOldest {v : V} {as : List (Addition V)} (hv : v ∈ surviving as) (w : V) :
    (cancelOldest v as).count ⟨w, true⟩ = as.count ⟨w, true⟩ + if v = w then 1 else 0 := by
  obtain ⟨before, after, has, -, hcancel⟩ := cancelOldest_split hv
  rw [hcancel, has, List.count_append, List.count_append, List.count_cons, List.count_cons]
  simp [Nat.add_assoc]

end Ledgers

end LayeredMultimap
