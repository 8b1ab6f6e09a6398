/-
  Handles kept in slots. A slot holds a handle, or 0 for none; a handle is live from when it is
  made until it is given back. `Owns base live held`: every handle in a slot is live and in no
  other slot, and every live handle is in a slot, except those of `base`, which no slot ever
  holds. `Owns.acquire` and `Owns.release` keep it, and `Owns.card_le` bounds the live handles by
  the slots in use. Slots are of any type.
-/
import Mathlib

namespace PcoOs.Lib

variable {ι : Type} {base live : Finset Nat} {held : ι → Nat}

structure Owns (base live : Finset Nat) (held : ι → Nat) : Prop where
  inj : ∀ i j, held i ≠ 0 → held i = held j → i = j
  held_live : ∀ i, held i ≠ 0 → held i ∈ live
  held_base : ∀ i, held i ≠ 0 → held i ∉ base
  owned : ∀ d ∈ live, d ∈ base ∨ ∃ i, held i = d
  base_live : base ⊆ live
  zero : 0 ∉ live

/-- Nothing held yet. -/
theorem owns_base (h : 0 ∉ base) : Owns base base fun _ : ι => 0 :=
  ⟨fun _ _ h0 => absurd rfl h0, fun _ h0 => absurd rfl h0, fun _ h0 => absurd rfl h0,
    fun _ hd => Or.inl hd, Finset.Subset.refl _, h⟩

variable [DecidableEq ι]

/-- A free slot takes a handle that was not live. -/
theorem Owns.acquire (h : Owns base live held) {i : ι} (hi : held i = 0) {d : Nat}
    (hd : d ∉ live) (h0 : d ≠ 0) : Owns base (insert d live) (Function.update held i d) := by
  have hcases : ∀ j, Function.update held i d j ≠ 0 →
      (j = i ∧ Function.update held i d j = d) ∨
        (j ≠ i ∧ Function.update held i d j = held j ∧ held j ∈ live ∧ held j ∉ base) := by
    intro j hj
    by_cases hji : j = i
    · subst hji
      exact Or.inl ⟨rfl, Function.update_self ..⟩
    · rw [Function.update_of_ne hji] at hj ⊢
      exact Or.inr ⟨hji, rfl, h.held_live j hj, h.held_base j hj⟩
  refine ⟨fun j l hj he => ?_, fun j hj => ?_, fun j hj => ?_, fun e he => ?_,
    h.base_live.trans (Finset.subset_insert _ _), ?_⟩
  · have hl := hj
    rw [he] at hl
    obtain ⟨hji, ej⟩ | ⟨hji, ej, hlive, -⟩ := hcases j hj
    · obtain ⟨hli, -⟩ | ⟨-, el, hlive, -⟩ := hcases l hl
      · rw [hji, hli]
      · rw [← el, ← he, ej] at hlive
        exact absurd hlive hd
    · obtain ⟨-, el⟩ | ⟨-, el, -, -⟩ := hcases l hl
      · rw [← ej, he, el] at hlive
        exact absurd hlive hd
      · rw [ej] at hj
        exact h.inj j l hj (by rw [← ej, he, el])
  · obtain ⟨-, ej⟩ | ⟨-, ej, hlive, -⟩ := hcases j hj
    · rw [ej]
      exact Finset.mem_insert_self _ _
    · rw [ej]
      exact Finset.mem_insert_of_mem hlive
  · obtain ⟨-, ej⟩ | ⟨-, ej, -, hbase⟩ := hcases j hj
    · rw [ej]
      exact fun hb => hd (h.base_live hb)
    · rwa [ej]
  · rcases Finset.mem_insert.mp he with rfl | he
    · exact Or.inr ⟨i, Function.update_self ..⟩
    · rcases h.owned e he with hb | ⟨j, rfl⟩
      · exact Or.inl hb
      · refine Or.inr ⟨j, Function.update_of_ne ?_ ..⟩
        rintro rfl
        rw [hi] at he
        exact h.zero he
  · rw [Finset.mem_insert]
    rintro (h' | h')
    · exact h0 h'.symm
    · exact h.zero h'

/-- A slot gives its handle back. -/
theorem Owns.release (h : Owns base live held) {i : ι} (hi : held i ≠ 0) :
    Owns base (live.erase (held i)) (Function.update held i 0) := by
  have hcases : ∀ j, Function.update held i 0 j ≠ 0 →
      j ≠ i ∧ Function.update held i 0 j = held j ∧ held j ≠ 0 := by
    intro j hj
    by_cases hji : j = i
    · subst hji
      exact absurd (Function.update_self ..) hj
    · rw [Function.update_of_ne hji] at hj ⊢
      exact ⟨hji, rfl, hj⟩
  refine ⟨fun j l hj he => ?_, fun j hj => ?_, fun j hj => ?_, fun e he => ?_, fun b hb => ?_,
    fun h' => h.zero (Finset.mem_of_mem_erase h')⟩
  · have hl := hj
    rw [he] at hl
    obtain ⟨-, ej, hne⟩ := hcases j hj
    obtain ⟨-, el, -⟩ := hcases l hl
    exact h.inj j l hne (by rw [← ej, he, el])
  · obtain ⟨hji, ej, hne⟩ := hcases j hj
    rw [ej]
    exact Finset.mem_erase.mpr ⟨fun he => hji (h.inj j i hne he), h.held_live j hne⟩
  · obtain ⟨-, ej, hne⟩ := hcases j hj
    rw [ej]
    exact h.held_base j hne
  · obtain ⟨hei, he⟩ := Finset.mem_erase.mp he
    rcases h.owned e he with hb | ⟨j, rfl⟩
    · exact Or.inl hb
    · refine Or.inr ⟨j, Function.update_of_ne ?_ ..⟩
      rintro rfl
      exact hei rfl
  · refine Finset.mem_erase.mpr ⟨?_, h.base_live hb⟩
    rintro rfl
    exact h.held_base i hi hb

omit [DecidableEq ι] in
/-- There are no more live handles than slots in use and handles of `base`. -/
theorem Owns.card_le (h : Owns base live held) (used : Finset ι)
    (hu : ∀ i, held i ≠ 0 → i ∈ used) : live.card ≤ base.card + used.card := by
  classical
  have hsub : live ⊆ base ∪ used.image held := by
    intro d hd
    rcases h.owned d hd with hb | ⟨i, rfl⟩
    · exact Finset.mem_union_left _ hb
    · refine Finset.mem_union_right _ (Finset.mem_image_of_mem held (hu i ?_))
      intro h0
      rw [h0] at hd
      exact h.zero hd
  calc live.card ≤ (base ∪ used.image held).card := Finset.card_le_card hsub
    _ ≤ base.card + (used.image held).card := Finset.card_union_le _ _
    _ ≤ base.card + used.card := Nat.add_le_add_left Finset.card_image_le _

end PcoOs.Lib
