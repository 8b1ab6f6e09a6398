/-
  The order in which the allocator uses its pages up. The regions go from front to back and each
  from its lowest page, and a freed page comes back before the next page of the regions, so the
  pages ever handed out are the first pages of the list of all pages (`Ordered`), and no more of
  them than were handed out at one time (`Ordered.mem_take`).
-/
import PcoOs.Pmm.Init
import PcoOs.Pmm.Usage

namespace PcoOs.Pmm

open PcoOs.Lib

/-- The whole pages of a region, lowest first. -/
def pageList (r : Region) : List Nat :=
  (List.range (wholePages r)).map fun k => addr r.start + 4096 * k

/-- The pages left in the regions, in the order they are taken. -/
def remainingList (s : PmmState) : List Nat :=
  (List.range (s.regionCount - s.regionIndex)).flatMap fun i =>
    pageList (s.regionTable (s.regionIndex + i))

/-- All pages `init_pmm` records, in the order they are taken. -/
def bootPages (b : BootInfo) : List Nat := (bootRegions b).flatMap pageList

/-! ## The pages left -/

theorem coe_flatMap_range (f : Nat → List Nat) (n : Nat) :
    ((List.range n).flatMap f : Multiset Nat) = ∑ i ∈ Finset.range n, (f i : Multiset Nat) := by
  induction n with
  | zero => rfl
  | succ n ih =>
    rw [List.range_succ, List.flatMap_append, List.flatMap_singleton, Finset.sum_range_succ, ← ih]
    rfl

theorem coe_remainingList (s : PmmState) : (remainingList s : Multiset Nat) = remaining s := by
  unfold remainingList remaining
  rw [coe_flatMap_range, Finset.sum_Ico_eq_sum_range]
  rfl

theorem coe_bootPages {b : BootInfo} (h : MapOk b) (hw : NoWrap b) :
    (bootPages b : Multiset Nat) = (bootPool b h hw).pages := by
  show _ = ((bootRegions b).map regionPages).sum
  unfold bootPages
  induction bootRegions b with
  | nil => rfl
  | cons r rs ih =>
    rw [List.flatMap_cons, List.map_cons, List.sum_cons, ← ih]
    rfl

theorem pageList_bump {r : Region} (h : RegionOk r) :
    pageList r = addr r.start :: pageList ⟨r.start + 4096, r.stop⟩ := by
  have h0 := h.start_nonneg
  have hp := h.bump_le
  have hs := h.stop_lt
  have hw : wholePages r = wholePages ⟨r.start + 4096, r.stop⟩ + 1 := by
    unfold wholePages
    dsimp only
    omega
  unfold pageList
  rw [hw, List.range_succ_eq_map, List.map_cons, List.map_map]
  congr 1
  refine List.map_congr_left fun k _ => ?_
  dsimp only [Function.comp_apply]
  rw [addr_of_nonneg (x := r.start) (by omega) (by omega), addr_of_nonneg (by omega) (by omega)]
  omega

theorem pageList_empty {r : Region} (h : r.stop ≤ r.start) : pageList r = [] := by
  have hw : wholePages r = 0 := by
    unfold wholePages
    omega
  simp [pageList, hw]

/-- The first region left, and the others. -/
theorem remainingList_cons {s : PmmState} (hlt : s.regionIndex < s.regionCount) :
    remainingList s = pageList (s.regionTable s.regionIndex) ++
      remainingList { s with regionIndex := s.regionIndex + 1 } := by
  obtain ⟨n, hn⟩ : ∃ n, s.regionCount - s.regionIndex = n + 1 :=
    ⟨s.regionCount - s.regionIndex - 1, by omega⟩
  have hn' : s.regionCount - (s.regionIndex + 1) = n := by omega
  unfold remainingList
  dsimp only
  rw [hn, hn', List.range_succ_eq_map, List.flatMap_cons, List.flatMap_map, Nat.add_zero]
  congr 1
  refine congrArg (fun f => (List.range n).flatMap f) (funext fun i => ?_)
  rw [Nat.succ_eq_add_one, show s.regionIndex + (i + 1) = s.regionIndex + 1 + i by omega]

/-- A region in front of the cursor does not matter. -/
theorem remainingList_update {s : PmmState} {i : Nat} (hi : i < s.regionIndex) (r : Region) :
    remainingList { s with regionTable := Function.update s.regionTable i r } = remainingList s := by
  unfold remainingList
  dsimp only
  refine congrArg (fun f => (List.range _).flatMap f) (funext fun j => ?_)
  rw [Function.update_of_ne (by omega)]

/-- The bump path takes the first page. -/
theorem remainingList_bump {s : PmmState} (hlt : s.regionIndex < s.regionCount)
    (hok : RegionOk (s.regionTable s.regionIndex)) :
    remainingList s = addr (s.regionTable s.regionIndex).start :: remainingList (pmmBump s) := by
  rw [remainingList_cons hlt, pageList_bump hok, List.cons_append]
  congr 1
  unfold pmmBump
  dsimp only
  rw [wrap_bump hok]
  split_ifs with hend
  · rw [pageList_empty hend, List.nil_append]
    exact (remainingList_update (s := { s with regionIndex := s.regionIndex + 1 })
      (Nat.lt_succ_self _) _).symm
  · refine Eq.symm ((remainingList_cons (by exact hlt)).trans ?_)
    dsimp only
    rw [Function.update_self]
    congr 1
    exact remainingList_update (s := { s with regionIndex := s.regionIndex + 1 })
      (Nat.lt_succ_self _) _

/-! ## The order of a run -/

/-- Some pages were taken from the front of `L`, and the others are left. The ones taken are those
    that were ever handed out, and what is on the recycle stack is among them. -/
structure Ordered (L : List Nat) (s : PmmState) : Prop where
  regions : ∀ i, s.regionIndex ≤ i → i < s.regionCount → RegionOk (s.regionTable i)
  taken : ∃ l, L = l ++ remainingList s ∧ (∀ p, p ∈ l ↔ .give p ∈ s.history) ∧
    ∀ p ∈ recycled s, p ∈ l

theorem Built.ordered {rs : List Region} {s : PmmState} (h : Built rs s) :
    Ordered (rs.flatMap pageList) s where
  regions := fun i _ hi => by
    rw [h.table i (by rw [← h.count]; exact hi)]
    exact h.ok _ (List.getElem_mem _)
  taken := by
    refine ⟨[], ?_, ?_, ?_⟩
    · unfold remainingList
      rw [h.index, h.count, List.nil_append, Nat.sub_zero, List.flatMap_def, List.flatMap_def]
      congr 1
      refine List.ext_getElem (by simp) fun i h1 h2 => ?_
      rw [List.getElem_map, List.getElem_map, List.getElem_range, Nat.zero_add,
        h.table i (by simpa using h1)]
    · rw [h.history]
      simp
    · simp [recycled, h.recycle]

section Step

variable {L : List Nat} {s t : PmmState}

/-- What is outstanding was handed out. -/
theorem give_of_outstanding {h : List (LedgerEvent Nat)} {p : Nat} (hp : p ∈ outstanding h) :
    .give p ∈ h := by
  induction h with
  | nil => exact absurd hp (Multiset.notMem_zero p)
  | cons e h ih =>
    cases e with
    | give a =>
      rcases Multiset.mem_cons.mp hp with rfl | hp
      · exact List.mem_cons_self
      · exact List.mem_cons_of_mem _ (ih hp)
    | take a => exact List.mem_cons_of_mem _ (ih (Multiset.mem_of_mem_erase hp))

theorem Ordered.alloc (h : Ordered L s) : Ordered L (pmmAllocPage s).2 := by
  obtain ⟨l, hl, hgive, hrec⟩ := h.taken
  unfold pmmAllocPage
  split_ifs with hf hr
  · exact h
  · have hpop := recycled_pop hr
    have htop : s.recycleStack (s.recycleCount - 1) ∈ l :=
      hrec _ (hpop ▸ Multiset.mem_cons_self _ _)
    refine ⟨h.regions, l, hl, fun p => ?_, fun p hp => hrec p ?_⟩
    · dsimp only
      rw [List.mem_cons, hgive]
      refine ⟨Or.inr, fun hp => hp.elim (fun hp => ?_) id⟩
      cases hp
      exact (hgive _).mp htop
    · rw [hpop]
      exact Multiset.mem_cons_of_mem hp
  · have hr0 : s.recycleCount = 0 := not_not.mp hr
    rcases Nat.lt_or_ge s.regionIndex s.regionCount with hlt | hge
    · obtain ⟨n, hn⟩ : ∃ n, s.regionCount - s.regionIndex = n + 1 :=
        ⟨s.regionCount - s.regionIndex - 1, by omega⟩
      have hok := h.regions s.regionIndex (le_refl _) hlt
      rw [hn, pmmScanRegions, if_pos (by rw [wrap_bump hok]; exact hok.bump_le)]
      refine ⟨pmmBump_regions hok h.regions, l ++ [addr (s.regionTable s.regionIndex).start], ?_,
        fun p => ?_, fun p hp => ?_⟩
      · rw [List.append_assoc, List.singleton_append, ← remainingList_bump hlt hok]
        exact hl
      · show p ∈ l ++ [_] ↔ .give p ∈ .give _ :: s.history
        rw [List.mem_append, List.mem_singleton, List.mem_cons, hgive, LedgerEvent.give.injEq,
          or_comm]
      · exact List.mem_append_left _ (hrec p hp)
    · rw [Nat.sub_eq_zero_of_le hge]
      exact h

theorem Ordered.free {page : Nat} (h : Ordered L s) (hmem : page ∈ outstanding s.history)
    (hf : pmmFreePage s page = .ok t) : Ordered L t := by
  obtain ⟨l, hl, hgive, hrec⟩ := h.taken
  unfold pmmFreePage at hf
  split_ifs at hf
  cases hf
  refine ⟨h.regions, l, hl, fun p => ?_, fun p hp => ?_⟩
  · dsimp only
    rw [List.mem_cons, hgive]
    exact ⟨Or.inr, fun hp => hp.elim (fun hp => by cases hp) id⟩
  · have hpush : p ∈ page ::ₘ recycled s := recycled_push s page ▸ hp
    rcases Multiset.mem_cons.mp hpush with rfl | hp
    · exact (hgive p).mpr (give_of_outstanding hmem)
    · exact hrec p hp

/-- A piece of code keeps the order. -/
theorem Uses.ordered {g : Nat} (h : Uses g s t) (hb : Balanced t.history) (ho : Ordered L s) :
    Ordered L t := by
  induction h with
  | refl g s => exact ho
  | @alloc g s t _ ih =>
    refine (ih ?_ ho).alloc
    rcases pmmAllocPage_history t with ⟨hist, -⟩ | ⟨p, hist, -⟩
    · rw [hist] at hb
      exact hb
    · rw [hist] at hb
      exact hb.2
  | @free g s t u page _ hf ih =>
    rw [(pmmFreePage_history hf).1] at hb
    exact (ih hb.2 ho).free hb.1 hf

/-- Pages handed out are among the first `b`, if no more than `b` were handed out at one time. -/
theorem Ordered.mem_take {P : Pool} {b p : Nat} (h : Ordered L s) (hi : PmmInv P s)
    (hL : (L : Multiset Nat) = P.pages) (hw : HighWater b s) (hp : .give p ∈ s.history) :
    p ∈ L.take b := by
  obtain ⟨l, hl, hgive, -⟩ := h.taken
  have htaken := hi.taken_eq
  unfold takenFromRegions at htaken
  rw [← hL, ← coe_remainingList, Multiset.coe_card, Multiset.coe_card, hl, List.length_append] at htaken
  have hstack := hw.stack
  have hpeak := hw.peak_le
  rw [hl, List.take_append, List.mem_append, List.take_of_length_le (by omega)]
  exact Or.inl ((hgive p).mpr hp)

/-- The first pages were handed out, as many as are handed out now. -/
theorem Ordered.given {P : Pool} {i : Nat} (h : Ordered L s) (hi : PmmInv P s)
    (hL : (L : Multiset Nat) = P.pages) (hlt : i < (outstanding s.history).card)
    {p : Nat} (hp : L[i]? = some p) : .give p ∈ s.history := by
  obtain ⟨l, hl, hgive, -⟩ := h.taken
  have htaken := hi.taken_eq
  unfold takenFromRegions at htaken
  rw [← hL, ← coe_remainingList, Multiset.coe_card, Multiset.coe_card, hl, List.length_append] at htaken
  rw [hl, List.getElem?_append_left (by omega)] at hp
  exact (hgive p).mp (List.mem_of_getElem? hp)

end Step

end PcoOs.Pmm
