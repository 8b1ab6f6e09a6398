/-
  How much a piece of code uses the allocator. `Allocs g s t`: `t` is reached from `s` by
  allocations, at most `g` of them. `Uses g s t`: the same with frees between them.

  `HighWater b s` is the high-water argument: a page is taken from the regions only when the
  recycle stack is empty, so the stack and the pages handed out together never outnumber the most
  pages that were handed out at one time, which is at most `b`. `Uses.highWater` carries it over a
  piece of code, and `HighWater.not_full` says what it is good for.
-/
import PcoOs.Pmm.Pool

namespace PcoOs.Pmm

open PcoOs.Lib

inductive Allocs : Nat → PmmState → PmmState → Prop
  | refl (g : Nat) (s : PmmState) : Allocs g s s
  | alloc {g : Nat} {s t : PmmState} (h : Allocs g s t) : Allocs (g + 1) s (pmmAllocPage t).2

inductive Uses : Nat → PmmState → PmmState → Prop
  | refl (g : Nat) (s : PmmState) : Uses g s s
  | alloc {g : Nat} {s t : PmmState} (h : Uses g s t) : Uses (g + 1) s (pmmAllocPage t).2
  | free {g : Nat} {s t u : PmmState} {page : Nat} (h : Uses g s t)
      (hf : pmmFreePage t page = .ok u) : Uses g s u

section Counting

variable {g g' : Nat} {s t u : PmmState}

theorem Allocs.mono (h : Allocs g s t) (hg : g ≤ g') : Allocs g' s t := by
  induction h generalizing g' with
  | refl g s => exact .refl g' s
  | alloc _ ih =>
    obtain ⟨n, rfl⟩ : ∃ n, g' = n + 1 := ⟨g' - 1, by omega⟩
    exact (ih (by omega)).alloc

theorem Allocs.trans (h : Allocs g s t) (h' : Allocs g' t u) : Allocs (g + g') s u := by
  induction h' with
  | refl g' t => exact h.mono (Nat.le_add_right _ _)
  | alloc _ ih => exact (ih h).alloc

theorem Allocs.one (s : PmmState) : Allocs 1 s (pmmAllocPage s).2 := (Allocs.refl 0 s).alloc

theorem Allocs.uses (h : Allocs g s t) : Uses g s t := by
  induction h with
  | refl g s => exact .refl g s
  | alloc _ ih => exact ih.alloc

theorem Uses.mono (h : Uses g s t) (hg : g ≤ g') : Uses g' s t := by
  induction h generalizing g' with
  | refl g s => exact .refl g' s
  | alloc _ ih =>
    obtain ⟨n, rfl⟩ : ∃ n, g' = n + 1 := ⟨g' - 1, by omega⟩
    exact (ih (by omega)).alloc
  | free _ hf ih => exact (ih hg).free hf

theorem Uses.trans (h : Uses g s t) (h' : Uses g' t u) : Uses (g + g') s u := by
  induction h' with
  | refl g' t => exact h.mono (Nat.le_add_right _ _)
  | alloc _ ih => exact (ih h).alloc
  | free _ hf ih => exact (ih h).free hf

theorem Uses.one_free {page : Nat} (hf : pmmFreePage s page = .ok t) : Uses 0 s t :=
  (Uses.refl 0 s).free hf

end Counting

/-! ## One call -/

theorem pmmScanRegions_history (n : Nat) (s : PmmState) :
    (pmmScanRegions n s).2.recycleCount = s.recycleCount ∧
      ((pmmScanRegions n s).2.history = s.history ∨
        ∃ p, (pmmScanRegions n s).2.history = .give p :: s.history) := by
  induction n generalizing s with
  | zero => exact ⟨rfl, Or.inl rfl⟩
  | succ n ih =>
    unfold pmmScanRegions
    split_ifs
    · exact ⟨rfl, Or.inr ⟨_, rfl⟩⟩
    · exact ih { s with regionIndex := s.regionIndex + 1 }

/-- An allocation hands out nothing, or a page off the stack, or, when the stack is empty, a page
    of the regions. -/
theorem pmmAllocPage_history (s : PmmState) :
    ((pmmAllocPage s).2.history = s.history ∧ (pmmAllocPage s).2.recycleCount = s.recycleCount) ∨
      ∃ p, (pmmAllocPage s).2.history = .give p :: s.history ∧
        ((pmmAllocPage s).2.recycleCount + 1 = s.recycleCount ∨
          s.recycleCount = 0 ∧ (pmmAllocPage s).2.recycleCount = 0) := by
  unfold pmmAllocPage
  split_ifs with hf hr
  · exact Or.inl ⟨rfl, rfl⟩
  · refine Or.inr ⟨_, rfl, Or.inl ?_⟩
    dsimp only
    omega
  · obtain ⟨hcount, hist | ⟨p, hist⟩⟩ := pmmScanRegions_history (s.regionCount - s.regionIndex) s
    · exact Or.inl ⟨hist, hcount⟩
    · exact Or.inr ⟨p, hist, Or.inr ⟨not_not.mp hr, hcount.trans (not_not.mp hr)⟩⟩

theorem pmmFreePage_history {s t : PmmState} {page : Nat} (h : pmmFreePage s page = .ok t) :
    t.history = .take page :: s.history ∧ t.recycleCount = s.recycleCount + 1 := by
  unfold pmmFreePage at h
  split_ifs at h
  cases h
  exact ⟨rfl, rfl⟩

/-- Allocating does not fill the recycle stack. -/
theorem pmmAllocPage_recycle_le (s : PmmState) :
    (pmmAllocPage s).2.recycleCount ≤ s.recycleCount := by
  rcases pmmAllocPage_history s with ⟨-, h⟩ | ⟨-, -, h⟩ <;> omega

theorem Allocs.recycle_le {g : Nat} {s t : PmmState} (h : Allocs g s t) :
    t.recycleCount ≤ s.recycleCount := by
  induction h with
  | refl g s => exact le_refl _
  | alloc _ ih => exact (pmmAllocPage_recycle_le _).trans ih

/-- Allocations only hand out. -/
theorem Allocs.onlyGives {g : Nat} {s t : PmmState} (h : Allocs g s t) :
    OnlyGives s.history t.history := by
  induction h with
  | refl g s => exact OnlyGives.refl _
  | @alloc g s t _ ih =>
    rcases pmmAllocPage_history t with ⟨hist, -⟩ | ⟨p, hist, -⟩
    · rw [hist]
      exact ih
    · exact ih.trans ⟨[p], hist⟩

/-! ## The high-water argument -/

/-- The pages of the pool that are no longer in the regions. -/
def takenFromRegions (P : Pool) (s : PmmState) : Nat := P.pages.card - (remaining s).card

theorem PmmInv.taken_eq {P : Pool} {s : PmmState} (h : PmmInv P s) :
    s.recycleCount + (outstanding s.history).card = takenFromRegions P s := by
  unfold takenFromRegions
  rw [← h.partition, Multiset.card_add]
  unfold freePool
  rw [Multiset.card_add, card_recycled]
  omega

structure HighWater (b : Nat) (s : PmmState) : Prop where
  stack : s.recycleCount + (outstanding s.history).card ≤ peak s.history
  peak_le : peak s.history ≤ b

theorem HighWater.mono {b b' : Nat} {s : PmmState} (h : HighWater b s) (hb : b ≤ b') :
    HighWater b' s := ⟨h.stack, h.peak_le.trans hb⟩

theorem HighWater.alloc {b : Nat} {s : PmmState} (h : HighWater b s)
    (hb : (outstanding s.history).card + 1 ≤ b) : HighWater b (pmmAllocPage s).2 := by
  have hs := h.stack
  have hp := h.peak_le
  rcases pmmAllocPage_history s with ⟨hist, hcount⟩ | ⟨p, hist, hcount⟩
  · exact ⟨by rw [hist, hcount]; exact hs, by rw [hist]; exact hp⟩
  · have hout : (outstanding (.give p :: s.history)).card = (outstanding s.history).card + 1 := by
      rw [outstanding_give, Multiset.card_cons]
    constructor
    · rw [hist]
      unfold peak
      rw [hout]
      omega
    · rw [hist]
      unfold peak
      rw [hout]
      omega

theorem HighWater.free {b : Nat} {s t : PmmState} {page : Nat} (h : HighWater b s)
    (hmem : page ∈ outstanding s.history) (hf : pmmFreePage s page = .ok t) : HighWater b t := by
  obtain ⟨hist, hcount⟩ := pmmFreePage_history hf
  have hs := h.stack
  have hp := h.peak_le
  have hout : (outstanding (.take page :: s.history)).card + 1 = (outstanding s.history).card := by
    rw [outstanding_take]
    exact Multiset.card_erase_add_one hmem
  constructor
  · rw [hist, hcount]
    unfold peak
    omega
  · rw [hist]
    unfold peak
    omega

/-- A piece of code keeps the bound when it has room for all its allocations. -/
theorem Uses.highWater {b g : Nat} {s t : PmmState} (h : Uses g s t) (hb : Balanced t.history)
    (hw : HighWater b s) (hg : (outstanding s.history).card + g ≤ b) :
    HighWater b t ∧ (outstanding t.history).card ≤ (outstanding s.history).card + g := by
  induction h with
  | refl g s => exact ⟨hw, Nat.le_add_right _ _⟩
  | @alloc g s t _ ih =>
    rcases pmmAllocPage_history t with ⟨hist, -⟩ | ⟨p, hist, -⟩
    · rw [hist] at hb ⊢
      obtain ⟨hw', hle⟩ := ih hb hw (by omega)
      exact ⟨hw'.alloc (by omega), by omega⟩
    · rw [hist] at hb ⊢
      obtain ⟨hw', hle⟩ := ih hb.2 hw (by omega)
      refine ⟨hw'.alloc (by omega), ?_⟩
      rw [outstanding_give, Multiset.card_cons]
      omega
  | @free g s t u page _ hf ih =>
    obtain ⟨hist, -⟩ := pmmFreePage_history hf
    rw [hist] at hb ⊢
    obtain ⟨hw', hle⟩ := ih hb.2 hw hg
    exact ⟨hw'.free hb.1 hf, (Multiset.card_le_card (Multiset.erase_le _ _)).trans hle⟩

/-- Pages that are handed out fit on the recycle stack. -/
theorem HighWater.not_full {b : Nat} {s : PmmState} (h : HighWater b s) (hb : b ≤ 2048)
    {X : Multiset Nat} (hX : X ≤ outstanding s.history) (e : String) : ¬ Full s X e := by
  have hs := h.stack
  have hp := h.peak_le
  have hc := Multiset.card_le_card hX
  intro hf
  have := hf.2
  omega

theorem highWater_empty {b : Nat} {s : PmmState} (hist : s.history = []) (hr : s.recycleCount = 0) :
    HighWater b s := by
  constructor
  · rw [hist, hr]
    simp [peak]
  · rw [hist]
    exact Nat.zero_le _

end PcoOs.Pmm
