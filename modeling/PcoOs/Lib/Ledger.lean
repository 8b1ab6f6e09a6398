/-
  The history of an allocator, newest event first. `outstanding h` is what `h` has handed out
  and not taken back. `Balanced h` says the history is sound: nothing is handed out while it is
  outstanding, and nothing is taken back that is not (no double free).
-/
import Mathlib

namespace PcoOs.Lib

/-- One event of an allocator over items `α`. -/
inductive LedgerEvent (α : Type) where
  | give (a : α)
  | take (a : α)
  deriving DecidableEq, Repr

variable {α : Type} [DecidableEq α]

/-- The items handed out and not taken back. -/
def outstanding : List (LedgerEvent α) → Multiset α
  | [] => 0
  | .give a :: h => a ::ₘ outstanding h
  | .take a :: h => (outstanding h).erase a

/-- No item is handed out twice without coming back, and only outstanding items come back. -/
def Balanced : List (LedgerEvent α) → Prop
  | [] => True
  | .give a :: h => a ∉ outstanding h ∧ Balanced h
  | .take a :: h => a ∈ outstanding h ∧ Balanced h

@[simp] theorem outstanding_nil : outstanding ([] : List (LedgerEvent α)) = 0 := rfl

@[simp] theorem outstanding_give (a : α) (h : List (LedgerEvent α)) :
    outstanding (.give a :: h) = a ::ₘ outstanding h := rfl

@[simp] theorem outstanding_take (a : α) (h : List (LedgerEvent α)) :
    outstanding (.take a :: h) = (outstanding h).erase a := rfl

/-- Taking back an outstanding item removes it once. -/
theorem outstanding_take_of_mem {a : α} {h : List (LedgerEvent α)} {R : Multiset α}
    (hR : outstanding h = a ::ₘ R) : outstanding (.take a :: h) = R := by
  rw [outstanding_take, hR, Multiset.erase_cons_head]

/-- In a balanced history every item is outstanding at most once. -/
theorem Balanced.nodup {h : List (LedgerEvent α)} (hb : Balanced h) : (outstanding h).Nodup := by
  induction h with
  | nil => exact Multiset.nodup_zero
  | cons e h ih =>
    cases e with
    | give a => exact Multiset.nodup_cons.mpr ⟨hb.1, ih hb.2⟩
    | take a => exact (ih hb.2).erase a

/-- The largest number of items that were handed out at one time. -/
def peak : List (LedgerEvent α) → Nat
  | [] => 0
  | e :: h => max (outstanding (e :: h)).card (peak h)

/-- What happened between two histories, `h` being the earlier one. -/
def eventsSince (h h' : List (LedgerEvent α)) : List (LedgerEvent α) :=
  h'.take (h'.length - h.length)

/-- The item an event handed out. -/
def LedgerEvent.given : LedgerEvent α → Option α
  | .give a => some a
  | .take _ => none

/-- The items handed out between two histories, newest first. -/
def givenSince (h h' : List (LedgerEvent α)) : List α :=
  (eventsSince h h').filterMap LedgerEvent.given

/-- Nothing but handing out happened between two histories. -/
def OnlyGives (h h' : List (LedgerEvent α)) : Prop := ∃ l : List α, h' = l.map .give ++ h

omit [DecidableEq α] in
theorem OnlyGives.refl (h : List (LedgerEvent α)) : OnlyGives h h := ⟨[], rfl⟩

omit [DecidableEq α] in
theorem OnlyGives.trans {h₁ h₂ h₃ : List (LedgerEvent α)} (h : OnlyGives h₁ h₂)
    (h' : OnlyGives h₂ h₃) : OnlyGives h₁ h₃ := by
  obtain ⟨l, rfl⟩ := h
  obtain ⟨l', rfl⟩ := h'
  exact ⟨l' ++ l, by rw [List.map_append, List.append_assoc]⟩

omit [DecidableEq α] in
theorem eventsSince_append (l h : List (LedgerEvent α)) : eventsSince h (l ++ h) = l := by
  simp [eventsSince]

omit [DecidableEq α] in
/-- `givenSince` is then all that happened. -/
theorem OnlyGives.givenSince {h h' : List (LedgerEvent α)} (ho : OnlyGives h h') :
    h' = (givenSince h h').map .give ++ h := by
  obtain ⟨l, rfl⟩ := ho
  have hl : (l.map LedgerEvent.give).filterMap LedgerEvent.given = l := by
    rw [List.filterMap_map]
    exact List.filterMap_some
  unfold Lib.givenSince
  rw [eventsSince_append, hl]

theorem outstanding_gives (l : List α) (h : List (LedgerEvent α)) :
    outstanding (l.map .give ++ h) = (l : Multiset α) + outstanding h := by
  induction l with
  | nil => simp
  | cons a l ih =>
    rw [List.map_cons, List.cons_append, outstanding_give, ih, ← Multiset.cons_coe,
      Multiset.cons_add]

/-- Items taken back one after the other were outstanding. -/
theorem outstanding_takes {l : List α} {h : List (LedgerEvent α)}
    (hb : Balanced (l.map .take ++ h)) :
    outstanding h = (l : Multiset α) + outstanding (l.map .take ++ h) := by
  induction l with
  | nil => simp
  | cons a l ih =>
    obtain ⟨hmem, hb⟩ : a ∈ outstanding (l.map LedgerEvent.take ++ h) ∧
      Balanced (l.map LedgerEvent.take ++ h) := hb
    rw [ih hb, List.map_cons, List.cons_append, outstanding_take, ← Multiset.cons_coe,
      Multiset.cons_add, ← Multiset.add_cons, Multiset.cons_erase hmem]

omit [DecidableEq α] in
/-- In a sum of multisets without duplicates an item comes from one summand. -/
theorem eq_of_mem_of_nodup_sum {ι : Type} [DecidableEq ι] {s : Finset ι} {f : ι → Multiset α}
    (h : (∑ i ∈ s, f i).Nodup) {i j : ι} (hi : i ∈ s) (hj : j ∈ s) {a : α} (ha : a ∈ f i)
    (hb : a ∈ f j) : i = j := by
  by_contra hne
  have hsub : ({i, j} : Finset ι) ⊆ s := by
    intro x hx
    rcases Finset.mem_insert.mp hx with rfl | hx
    · exact hi
    · rw [Finset.mem_singleton.mp hx]; exact hj
  have hle := Finset.sum_le_sum_of_subset (f := f) hsub
  rw [Finset.sum_pair hne] at hle
  exact Multiset.disjoint_left.mp (Multiset.nodup_add.mp (Multiset.nodup_of_le hle h)).2.2 ha hb

end PcoOs.Lib
