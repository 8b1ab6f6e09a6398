/-
  Which pages `init_pmm` selects, and when the allocator hands them out rightly. `Usable` says it
  without the code: a whole page of a type-7 entry, from 1 MiB on and off the kernel image, whose
  end is rounded up as an integer (`kernelTop`). `Selectable` says that no rounding that matters
  wraps: no base of a usable entry, and not the end of the kernel while a page lies at or above
  its start.

  * `pmm_run_sound`: on a selectable map the allocator behaves in every state of a run.
  * `pmm_wrapped_base_unsound`: on others it need not. The base of a usable entry in the last page
    below `2^63` is rounded up to a negative address, the clip at 1 MiB moves the start to
    `0x100000`, and the region recorded overlaps all the others.
  * `initPmm_selects_iff`: the table holds exactly the usable pages if and only if the map is
    selectable.
-/
import PcoOs.Pmm.Runs

namespace PcoOs.Pmm

open PcoOs.Lib

/-- The end of the kernel image, rounded up without a limit. -/
def kernelTop (b : BootInfo) : Int := b.kernelPhysEnd + 4095 - (b.kernelPhysEnd + 4095) % 4096

/-- `p` is a page from 1 MiB on that lies in the entry as a whole. -/
structure MmapEntry.Holds (e : MmapEntry) (p : Int) : Prop where
  usable : e.entryType = 7
  aligned : p % 4096 = 0
  low : 0x100000 ≤ p
  base_le : e.base ≤ p
  le_end : p + 4096 ≤ e.base + e.length

/-- The pages an allocator may hand out. -/
def Usable (b : BootInfo) (p : Int) : Prop :=
  (∃ e ∈ b.mmap, e.Holds p) ∧
    ∀ x, p ≤ x → x < p + 4096 → ¬ (alignDownI b.kernelPhysStart 4096 ≤ x ∧ x < kernelTop b)

/-- `p` is a page of one of the regions of `s`. -/
def Covered (s : PmmState) (p : Int) : Prop :=
  p % 4096 = 0 ∧ ∃ i < s.regionCount,
    (s.regionTable i).start ≤ p ∧ p + 4096 ≤ (s.regionTable i).stop

/-- The regions are disjoint ranges of whole pages, and their pages are the usable ones. -/
structure Selected (b : BootInfo) (s : PmmState) : Prop where
  region : ∀ i < s.regionCount, (s.regionTable i).start % 4096 = 0 ∧
    (s.regionTable i).stop % 4096 = 0 ∧ (s.regionTable i).start < (s.regionTable i).stop
  disjoint : ∀ i j, i < j → j < s.regionCount →
    (s.regionTable i).stop ≤ (s.regionTable j).start ∨
      (s.regionTable j).stop ≤ (s.regionTable i).start
  pages : ∀ p, Covered s p ↔ Usable b p
  counts : ∃ pages : Finset Int, (∀ p, p ∈ pages ↔ Usable b p) ∧ s.totalPages = pages.card ∧
    s.freePages = pages.card

/-- No rounding that matters wraps. -/
structure Selectable (b : BootInfo) : Prop where
  base_up : ∀ e ∈ b.mmap, e.entryType = 7 → e.length ≠ 0 → e.base + 4095 < 2 ^ 63
  kernel_up : b.kernelPhysEnd + 4095 < 2 ^ 63 ∨
    ∀ e ∈ b.mmap, ∀ p, e.Holds p → p < alignDownI b.kernelPhysStart 4096

section Rounding

variable {b : BootInfo}

theorem kernelTop_bounds (h : MapOk b) : kernelTop b % 4096 = 0 ∧ kernelLo b % 4096 = 0 ∧
    kernelLo b ≤ kernelTop b ∧ b.kernelPhysEnd ≤ kernelTop b := by
  have := h.kernel_le
  unfold kernelTop kernelLo alignDownI
  omega

theorem kernelHi_eq_top (h : MapOk b) (hup : b.kernelPhysEnd + 4095 < 2 ^ 63) :
    kernelHi b = kernelTop b := by
  have h1 := h.kernel_le
  have h2 := h.kernel_range
  exact alignUpI_of_range (by omega) hup

/-- A kernel that ends in the last page below `2^63` wraps to the lowest address. -/
theorem kernelHi_wrapped (h : MapOk b) (hup : ¬ b.kernelPhysEnd + 4095 < 2 ^ 63) :
    kernelHi b = -2 ^ 63 ∧ kernelTop b = 2 ^ 63 := by
  have h2 := h.kernel_range
  unfold kernelHi kernelTop alignUpI alignDownI wrap
  omega

/-- An entry in the last page below `2^63` holds no page and starts at 1 MiB for the code. -/
theorem entry_wrapped (h : MapOk b) {e : MmapEntry} (he : e ∈ b.mmap) (h7 : e.entryType = 7)
    (hup : ¬ e.base + 4095 < 2 ^ 63) :
    entryStart e = 0x100000 ∧ entryStop e = 2 ^ 63 - 4096 ∧ ∀ p, ¬ e.Holds p := by
  obtain ⟨h0, h1, h2⟩ := h.range e he h7
  refine ⟨?_, ?_, fun p hp => ?_⟩
  · have : alignUpI e.base 4096 = -2 ^ 63 := by
      unfold alignUpI alignDownI wrap
      omega
    unfold entryStart
    rw [this, if_pos (by norm_num)]
  · unfold entryStop alignDownI wrap
    omega
  · have := hp.base_le
    have := hp.le_end
    omega

theorem entryStop_bounds (h : MapOk b) {e : MmapEntry} (he : e ∈ b.mmap) (h7 : e.entryType = 7) :
    entryStop e % 4096 = 0 ∧ entryStop e ≤ 2 ^ 63 - 4096 ∧ 0 ≤ entryStop e := by
  obtain ⟨h0, h1, h2⟩ := h.range e he h7
  unfold entryStop alignDownI
  rw [wrap_of_range (by omega) h2]
  omega

theorem entryStart_bounds (e : MmapEntry) :
    entryStart e % 4096 = 0 ∧ 0x100000 ≤ entryStart e ∧ entryStart e < 2 ^ 63 := by
  unfold entryStart alignUpI alignDownI wrap
  split_ifs
  · decide
  · omega

/-- A page of an entry lies in its rounded range. -/
theorem MmapEntry.Holds.rounded (h : MapOk b) {e : MmapEntry} (he : e ∈ b.mmap) {p : Int}
    (hp : e.Holds p) : e.length ≠ 0 ∧ e.base + 4095 < 2 ^ 63 ∧ entryStart e ≤ p ∧
      p + 4096 ≤ entryStop e := by
  obtain ⟨h0, h1, h2⟩ := h.range e he hp.usable
  obtain ⟨-, h3, h4, h5, h6⟩ := hp
  refine ⟨by omega, by omega, ?_, ?_⟩
  · unfold entryStart
    rw [alignUpI_of_range (by omega) (by omega)]
    split_ifs <;> omega
  · unfold entryStop alignDownI
    rw [wrap_of_range (by omega) h2]
    omega

end Rounding

/-! ## The table -/

theorem addRegions_recorded {new rs : List Region} {s t : PmmState} (h : Recorded rs s)
    (hok : ∀ r ∈ new, Paged r) (ht : addRegions s new = .ok t) : Recorded (rs ++ new) t := by
  induction new generalizing rs s with
  | nil =>
    cases ht
    rwa [List.append_nil]
  | cons r new ih =>
    rw [addRegions_cons] at ht
    obtain ⟨u, hu, ht⟩ := bind_eq_ok.mp ht
    have := ih (pmmAddRegion_recorded h (hok r (List.mem_cons_self ..)) hu)
      (fun r' hr' => hok r' (List.mem_cons_of_mem _ hr')) ht
    rwa [List.append_assoc] at this

section Table

variable {b : BootInfo} {e : MmapEntry} {p : Int}

theorem entryRegions_paged (h : MapOk b) (he : e ∈ b.mmap) :
    ∀ r ∈ entryRegions (kernelLo b) (kernelHi b) e, Paged r := by
  intro r hr
  have hlo : kernelLo b % 4096 = 0 ∧ -2 ^ 63 ≤ kernelLo b ∧ kernelLo b < 2 ^ 63 := by
    have := h.kernel_range
    have := h.kernel_le
    unfold kernelLo alignDownI
    omega
  have hhi : kernelHi b % 4096 = 0 ∧ -2 ^ 63 ≤ kernelHi b ∧ kernelHi b < 2 ^ 63 := by
    unfold kernelHi alignUpI alignDownI wrap
    omega
  have hstart := entryStart_bounds e
  unfold entryRegions at hr
  split_ifs at hr with hu hcut hin
  · have hstop := entryStop_bounds h he hu.1
    rcases List.mem_cons.mp hr with rfl | hr
    · exact ⟨hstart.1, hlo.1, hcut.1, by dsimp only; omega, hlo.2.2⟩
    · obtain ⟨rfl, hlt⟩ := mem_restRegions.mp hr
      exact ⟨hhi.1, hstop.1, hlt, hhi.2.1, by dsimp only; omega⟩
  · have hstop := entryStop_bounds h he hu.1
    obtain ⟨rfl, hlt⟩ := mem_restRegions.mp hr
    exact ⟨hhi.1, hstop.1, hlt, hhi.2.1, by dsimp only; omega⟩
  · have hstop := entryStop_bounds h he hu.1
    obtain ⟨rfl, hlt⟩ := mem_restRegions.mp hr
    exact ⟨hstart.1, hstop.1, hlt, by dsimp only; omega, by dsimp only; omega⟩
  · exact absurd hr List.not_mem_nil

/-- The table holds every region of every entry, wrapped or not. -/
theorem initPmm_recorded (h : MapOk b) {s : PmmState} (hs : initPmm b = .ok s) :
    Recorded (bootRegions b) s := by
  have hnone : Recorded [] emptyPmm := ⟨rfl, fun i hi => absurd hi (Nat.not_lt_zero i)⟩
  refine addRegions_recorded hnone (fun r hr => ?_) (initPmm_adds hs).1
  obtain ⟨e, he, hr⟩ := List.mem_flatMap.mp hr
  exact entryRegions_paged h he r hr

theorem Recorded.covered {rs : List Region} {s : PmmState} (h : Recorded rs s) :
    Covered s p ↔ p % 4096 = 0 ∧ ∃ r ∈ rs, r.start ≤ p ∧ p + 4096 ≤ r.stop := by
  refine and_congr_right fun _ => ⟨?_, ?_⟩
  · rintro ⟨i, hi, hp⟩
    rw [h.count] at hi
    rw [h.table i hi] at hp
    exact ⟨_, List.getElem_mem hi, hp⟩
  · rintro ⟨r, hr, hp⟩
    obtain ⟨i, hi, rfl⟩ := List.getElem_of_mem hr
    refine ⟨i, by rw [h.count]; exact hi, ?_⟩
    rw [h.table i hi]
    exact hp

theorem Recorded.pairwise {rs : List Region} {s : PmmState} (h : Recorded rs s) :
    (∀ i j, i < j → j < s.regionCount → (s.regionTable i).stop ≤ (s.regionTable j).start ∨
        (s.regionTable j).stop ≤ (s.regionTable i).start) ↔
      rs.Pairwise fun r r' => r.stop ≤ r'.start ∨ r'.stop ≤ r.start := by
  rw [List.pairwise_iff_getElem, h.count]
  constructor
  · intro hd i j hi hj hij
    have := hd i j hij hj
    rwa [h.table i hi, h.table j hj] at this
  · intro hd i j hij hj
    rw [h.table i (by omega), h.table j hj]
    exact hd i j (by omega) hj hij

/-- A page of an entry off the kernel range `[ks, ke)` is recorded, also when `ke` wrapped and
    the page lies below the kernel. -/
theorem entry_covers (h : MapOk b) (he : e ∈ b.mmap) (hp : e.Holds p) (ks ke : Int)
    (hk : p + 4096 ≤ ks ∨ ks ≤ ke ∧ ke ≤ p) :
    ∃ r ∈ entryRegions ks ke e, r.start ≤ p ∧ p + 4096 ≤ r.stop := by
  obtain ⟨hl, -, hstart, hstop⟩ := hp.rounded h he
  have hlow := hp.low
  unfold entryRegions
  rw [if_pos ⟨hp.usable, hl, by omega⟩]
  split_ifs with hcut hin
  · rcases hk with hk | hk
    · exact ⟨_, List.mem_cons_self .., hstart, hk⟩
    · exact ⟨⟨ke, entryStop e⟩, List.mem_cons_of_mem _ (mem_restRegions.mpr ⟨rfl, by omega⟩),
        hk.2, hstop⟩
  · exact ⟨⟨ke, entryStop e⟩, mem_restRegions.mpr ⟨rfl, by omega⟩, by dsimp only; omega, hstop⟩
  · exact ⟨⟨entryStart e, entryStop e⟩, mem_restRegions.mpr ⟨rfl, by omega⟩, hstart, hstop⟩

/-- A page off the kernel image lies below it or above it. -/
theorem usable_iff (h : MapOk b) : Usable b p ↔
    (∃ e ∈ b.mmap, e.Holds p) ∧ (p + 4096 ≤ kernelLo b ∨ kernelTop b ≤ p) := by
  obtain ⟨h1, h2, h3, -⟩ := kernelTop_bounds h
  refine and_congr_right fun ⟨e, _, he⟩ => ⟨fun hx => ?_, fun hk x hx hx' hin => ?_⟩
  · have hp := he.aligned
    have hx := hx (max p (kernelLo b)) (le_max_left ..)
    change _ → ¬ (kernelLo b ≤ _ ∧ _) at hx
    rcases le_total p (kernelLo b) with hle | hle
    · rw [max_eq_right hle] at hx
      omega
    · rw [max_eq_left hle] at hx
      omega
  · change kernelLo b ≤ x ∧ _ at hin
    omega

end Table

/-! ## Selection without a wrap -/

section Selection

variable {b : BootInfo}

theorem Selectable.tableOk (h : MapOk b) (hs : Selectable b) : TableOk b (kernelTop b) := by
  obtain ⟨h1, h2, h3, -⟩ := kernelTop_bounds h
  exact ⟨h, hs.base_up, h2, h1, h3⟩

/-- The last page of an entry that reaches beyond its start. -/
theorem entry_last (h : MapOk b) {e : MmapEntry} (he : e ∈ b.mmap) (h7 : e.entryType = 7)
    (hup : e.base + 4095 < 2 ^ 63) (hlt : entryStart e < entryStop e) :
    e.Holds (entryStop e - 4096) := by
  obtain ⟨h0, h1, h2⟩ := h.range e he h7
  obtain ⟨b1, b2, b3, b4, b5, -⟩ := entry_bounds h0 h1 h2 hup
  exact ⟨h7, by omega, by omega, by omega, by omega⟩

/-- Where the end of the kernel wraps without consequence, the true end gives the same regions. -/
theorem Selectable.entryRegions_eq (h : MapOk b) (hs : Selectable b) {e : MmapEntry}
    (he : e ∈ b.mmap) :
    entryRegions (kernelLo b) (kernelHi b) e = entryRegions (kernelLo b) (kernelTop b) e := by
  by_cases hup : b.kernelPhysEnd + 4095 < 2 ^ 63
  · rw [kernelHi_eq_top h hup]
  obtain ⟨hhi, htop⟩ := kernelHi_wrapped h hup
  rw [hhi, htop]
  unfold entryRegions
  split_ifs with hu hcut hin hin'
  · -- an entry across the start of the kernel has a page above it
    have hlast := hs.kernel_up.resolve_left hup e he _
      (entry_last h he hu.1 (hs.base_up e he hu.1 hu.2.1) (by omega))
    change _ < kernelLo b at hlast
    have := (kernelTop_bounds h).2.1
    have := (entryStop_bounds h he hu.1).1
    omega
  · have := (entryStart_bounds e).2.1
    omega
  · have := (entryStart_bounds e).2.1
    omega
  · -- an entry above the start of the kernel has no page
    have hstop := entryStop_bounds h he hu.1
    have hle : entryStop e ≤ entryStart e := by
      by_contra hlt
      have hlast := hs.kernel_up.resolve_left hup e he _
        (entry_last h he hu.1 (hs.base_up e he hu.1 hu.2.1) (by omega))
      change _ < kernelLo b at hlast
      have := (kernelTop_bounds h).2.1
      omega
    unfold restRegions
    rw [if_neg (by omega), if_neg (by omega)]
  · rfl
  · rfl

theorem Selectable.bootRegions_eq (h : MapOk b) (hs : Selectable b) :
    bootRegions b = b.mmap.flatMap (entryRegions (kernelLo b) (kernelTop b)) :=
  List.flatMap_congr fun _ he => hs.entryRegions_eq h he

theorem Selectable.mem_bootRegions (h : MapOk b) (hs : Selectable b) {r : Region}
    (hr : r ∈ bootRegions b) : ∃ e ∈ b.mmap, RegionOk r ∧ e.entryType = 7 ∧ 0x100000 ≤ r.start ∧
      e.base ≤ r.start ∧ r.stop ≤ e.base + e.length ∧
        (r.stop ≤ kernelLo b ∨ kernelTop b ≤ r.start) := by
  rw [hs.bootRegions_eq h] at hr
  obtain ⟨e, he, hr⟩ := List.mem_flatMap.mp hr
  exact ⟨e, he, (hs.tableOk h).entry he r hr⟩

/-- The pages of the table are the usable ones. -/
theorem Selectable.mem_table (h : MapOk b) (hs : Selectable b) (p : Int) :
    (p % 4096 = 0 ∧ ∃ r ∈ bootRegions b, r.start ≤ p ∧ p + 4096 ≤ r.stop) ↔ Usable b p := by
  rw [usable_iff h]
  constructor
  · rintro ⟨hp, r, hr, hlo, hhi⟩
    obtain ⟨e, he, ok, h7, hlow, hbase, hend, hk⟩ := hs.mem_bootRegions h hr
    exact ⟨⟨e, he, h7, hp, by omega, by omega, by omega⟩, by omega⟩
  · rintro ⟨⟨e, he, hp⟩, hk⟩
    have hlo := (kernelTop_bounds h).2.2.1
    obtain ⟨r, hr, hcover⟩ := entry_covers h he hp (kernelLo b) (kernelTop b)
      (hk.imp_right fun hk => ⟨hlo, hk⟩)
    rw [hs.bootRegions_eq h]
    exact ⟨hp.aligned, r, List.mem_flatMap.mpr ⟨e, he, hr⟩, hcover⟩

theorem mem_regionPages_iff {r : Region} (h : RegionOk r) {p : Nat} :
    p ∈ regionPages r ↔ (p : Int) % 4096 = 0 ∧ r.start ≤ p ∧ (p : Int) + 4096 ≤ r.stop := by
  constructor
  · intro hp
    have := mem_regionPages_bounds h hp
    omega
  · rintro ⟨hp, hlo, hhi⟩
    have h1 := h.start_nonneg
    have h2 := h.start_aligned
    have h3 := h.stop_lt
    refine mem_regionPages.mpr ⟨(p - r.start.toNat) / 4096, ?_, ?_⟩
    · unfold wholePages
      omega
    · rw [addr_of_nonneg h1 (by omega)]
      omega

theorem Selectable.regionsOk (h : MapOk b) (hs : Selectable b) : RegionsOk (bootRegions b) where
  ok := fun _ hr => by obtain ⟨_, _, ok, _⟩ := hs.mem_bootRegions h hr; exact ok
  low := fun _ hr => by obtain ⟨_, _, _, _, hlow, _⟩ := hs.mem_bootRegions h hr; exact hlow
  pairwise := by
    rw [hs.bootRegions_eq h]
    exact (hs.tableOk h).pairwise

theorem Selectable.built (h : MapOk b) (hsel : Selectable b) {s : PmmState}
    (hs : initPmm b = .ok s) : Built (bootRegions b) s :=
  (addRegions_built built_empty (hsel.regionsOk h).ok).of_ok (initPmm_adds hs).1

theorem Selectable.selected (h : MapOk b) (hsel : Selectable b) {s : PmmState}
    (hs : initPmm b = .ok s) : Selected b s := by
  have hrec := initPmm_recorded h hs
  obtain ⟨hok, -, hpair⟩ := hsel.regionsOk h
  have hbuilt := hsel.built h hs
  refine ⟨fun i hi => ?_, hrec.pairwise.mpr hpair, fun p => ?_, ?_⟩
  · rw [hrec.count] at hi
    rw [hrec.table i hi]
    have := hok _ (List.getElem_mem hi)
    exact ⟨this.start_aligned, this.stop_aligned, this.start_lt⟩
  · rw [hrec.covered]
    exact hsel.mem_table h p
  · have hnodup := nodup_sum_regionPages hok hpair
    refine ⟨(⟨_, hnodup⟩ : Finset Nat).map Nat.castEmbedding, fun p => ?_, ?_, ?_⟩
    · rw [← hsel.mem_table h p, Finset.mem_map]
      constructor
      · rintro ⟨q, hq, rfl⟩
        obtain ⟨r, hr, hqr⟩ := mem_sum_regionPages.mp hq
        have hin := (mem_regionPages_iff (hok r hr)).mp hqr
        exact ⟨hin.1, r, hr, hin.2⟩
      · rintro ⟨hp, r, hr, hlo, hhi⟩
        have := (hok r hr).start_nonneg
        obtain ⟨q, rfl⟩ := Int.eq_ofNat_of_zero_le (show 0 ≤ p by omega)
        exact ⟨q, mem_sum_regionPages.mpr ⟨r, hr, (mem_regionPages_iff (hok r hr)).mpr
          ⟨hp, hlo, hhi⟩⟩, rfl⟩
    · rw [Finset.card_map, hbuilt.total, ← card_sum_regionPages]
      rfl
    · rw [Finset.card_map, hbuilt.free, hbuilt.total, ← card_sum_regionPages]
      rfl

end Selection

/-! ## Runs -/

theorem NoWrap.selectable {b : BootInfo} (hw : NoWrap b) : Selectable b :=
  ⟨hw.base_up, Or.inl hw.kernel_up⟩

/-- Every state of every run is sound, when no rounding that matters wraps. -/
theorem pmm_run_sound (b : BootInfo) (h : MapOk b) (hsel : Selectable b) (s₀ s : PmmState)
    (hs : initPmm b = .ok s₀) (hr : Relation.ReflTransGen PmmStep s₀ s) : PmmSound s₀ s := by
  have hb := hsel.built h hs
  exact ((hb.inv (hsel.regionsOk h)).run hr).sound (hb.inRegion (hsel.regionsOk h))

/-- The hypotheses are met: an allocation on `smallMap`. -/
theorem pmm_run_sound_smallMap : ∃ s₀ s, initPmm smallMap = .ok s₀ ∧ s ≠ s₀ ∧
    PmmSound s₀ s := by
  obtain ⟨s₀, hs⟩ : ∃ s₀, initPmm smallMap = .ok s₀ := ⟨_, rfl⟩
  refine ⟨s₀, (pmmAllocPage s₀).2, hs, ?_, pmm_run_sound smallMap smallMap_loader.toMapOk
    smallMap_loader.noWrap.selectable s₀ _ hs (.single (.alloc s₀))⟩
  cases hs
  intro h
  exact absurd (congrArg PmmState.freePages h) (by decide)

/-- Two usable entries: one page at 1 MiB, and 50 bytes in the last page below `2^63`. -/
def wrappedMap : BootInfo where
  mmap := [⟨0x100000, 0x1000, 7⟩, ⟨2 ^ 63 - 100, 50, 7⟩]
  kernelPhysStart := 0
  kernelPhysEnd := 0

theorem wrappedMap_ok : MapOk wrappedMap where
  disjoint := by
    refine List.pairwise_pair.mpr fun _ _ x hx => ?_
    dsimp only at hx
    omega
  range := by
    intro e he _
    rcases List.mem_pair.mp he with rfl | rfl <;> decide
  kernel_le := by decide
  kernel_range := by decide

/-- On `wrappedMap` the second allocation returns the page that is already handed out. -/
theorem pmm_wrapped_base_unsound : ¬ ∀ (b : BootInfo), MapOk b → ∀ s₀ s : PmmState,
    initPmm b = .ok s₀ → Relation.ReflTransGen PmmStep s₀ s → PmmSound s₀ s := by
  intro hall
  obtain ⟨s₀, hs⟩ : ∃ s₀, initPmm wrappedMap = .ok s₀ := ⟨_, rfl⟩
  have h := (hall wrappedMap wrappedMap_ok s₀ _ hs (.single (.alloc s₀))).page
  cases hs
  have h' := (h (by decide)).2.2
  exact absurd h' (by decide)

/-! ## A wrap shows -/

section Wrap

variable {b : BootInfo}

/-- The first page of a region is recorded. -/
theorem Selected.start_usable (h : MapOk b) {s : PmmState} (hs : initPmm b = .ok s)
    (hsel : Selected b s) {e : MmapEntry} (he : e ∈ b.mmap) {r : Region}
    (hr : r ∈ entryRegions (kernelLo b) (kernelHi b) e) :
    (∃ e ∈ b.mmap, e.Holds r.start) ∧
      (r.start + 4096 ≤ kernelLo b ∨ kernelTop b ≤ r.start) := by
  obtain ⟨h1, h2, h3, -, -⟩ := entryRegions_paged h he r hr
  refine (usable_iff h).mp ((hsel.pages _).mp ((initPmm_recorded h hs).covered.mpr ⟨h1, r, ?_⟩))
  exact ⟨List.mem_flatMap.mpr ⟨e, he, hr⟩, le_refl _, by omega⟩

/-- An entry that wraps leaves no region: its first page would be that of another entry. -/
theorem Selected.entry_wrapped_nil (h : MapOk b) {s : PmmState} (hs : initPmm b = .ok s)
    (hsel : Selected b s) {e : MmapEntry} (he : e ∈ b.mmap) (h7 : e.entryType = 7)
    (hup : ¬ e.base + 4095 < 2 ^ 63) : entryRegions (kernelLo b) (kernelHi b) e = [] := by
  rw [List.eq_nil_iff_forall_not_mem]
  intro r hr
  obtain ⟨-, -, hlt, -, hmax⟩ := entryRegions_paged h he r hr
  obtain ⟨⟨e', he', hp⟩, hk⟩ := hsel.start_usable h hs he hr
  have hk' : r.start + 4096 ≤ kernelLo b ∨ kernelLo b ≤ kernelHi b ∧ kernelHi b ≤ r.start := by
    have htop := kernelTop_bounds h
    by_cases hkup : b.kernelPhysEnd + 4095 < 2 ^ 63
    · rw [kernelHi_eq_top h hkup]
      omega
    · have := (kernelHi_wrapped h hkup).2
      omega
  obtain ⟨r', hr', hlo, hhi⟩ := entry_covers h he' hp _ _ hk'
  have hne : e' ≠ e := by
    rintro rfl
    exact (entry_wrapped h he h7 hup).2.2 _ hp
  have hpair := (List.pairwise_flatMap.mp ((initPmm_recorded h hs).pairwise.mp hsel.disjoint)).2
  have hsymm : Std.Symm fun e e' => ∀ r ∈ entryRegions (kernelLo b) (kernelHi b) e,
      ∀ r' ∈ entryRegions (kernelLo b) (kernelHi b) e', r.stop ≤ r'.start ∨ r'.stop ≤ r.start :=
    ⟨fun _ _ hd r hr r' hr' => (hd r' hr' r hr).symm⟩
  have hd := hpair.forall he' he hne r' hr' r hr
  omega

/-- A kernel image from 1 MiB to the last page leaves nothing. -/
theorem bootRegions_nil (h : MapOk b) (hlo : kernelLo b ≤ 0x100000)
    (hhi : 2 ^ 63 - 4096 ≤ kernelHi b) : bootRegions b = [] := by
  refine List.flatMap_eq_nil_iff.mpr fun e he => ?_
  have hstart := entryStart_bounds e
  unfold entryRegions
  split_ifs with hu hcut hin
  · omega
  · have hstop := entryStop_bounds h he hu.1
    unfold restRegions
    rw [if_neg (by omega)]
  · have hstop := entryStop_bounds h he hu.1
    unfold restRegions
    rw [if_neg (by omega)]
  · rfl

theorem Selected.base_up (h : MapOk b) {s : PmmState} (hs : initPmm b = .ok s)
    (hsel : Selected b s) {e : MmapEntry} (he : e ∈ b.mmap) (h7 : e.entryType = 7)
    (hl : e.length ≠ 0) : e.base + 4095 < 2 ^ 63 := by
  by_contra hup
  have hnil := hsel.entry_wrapped_nil h hs he h7 hup
  obtain ⟨hstart, hstop, -⟩ := entry_wrapped h he h7 hup
  unfold entryRegions restRegions at hnil
  rw [hstart, hstop, if_pos ⟨h7, hl, by norm_num⟩] at hnil
  split_ifs at hnil with hcut hin hlt hlt
  · have hrec := initPmm_recorded h hs
    rw [bootRegions_nil h (by omega) (by omega)] at hrec
    exact (initPmm_adds hs).2 hrec.count
  · omega

theorem Selected.kernel_up (h : MapOk b) {s : PmmState} (hs : initPmm b = .ok s)
    (hsel : Selected b s) (hup : ¬ b.kernelPhysEnd + 4095 < 2 ^ 63) {e : MmapEntry}
    (he : e ∈ b.mmap) {p : Int} (hp : e.Holds p) : p < kernelLo b := by
  obtain ⟨hhi, htop⟩ := kernelHi_wrapped h hup
  obtain ⟨hl, -, hstart, hstop⟩ := hp.rounded h he
  have hlow := hp.low
  have hfirst := (entryStart_bounds e).2.1
  -- a region starts below the kernel, which has no end, and not below zero
  have hout : ∀ r ∈ entryRegions (kernelLo b) (kernelHi b) e,
      0 ≤ r.start ∧ r.start < kernelLo b := by
    intro r hr
    have hpaged := entryRegions_paged h he r hr
    have h3 := hpaged.start_lt
    have h5 := hpaged.stop_lt
    obtain ⟨⟨e', -, hp'⟩, hk⟩ := hsel.start_usable h hs he hr
    have := hp'.low
    omega
  by_contra hge
  unfold entryRegions restRegions at hout
  rw [if_pos ⟨hp.usable, hl, by omega⟩, hhi] at hout
  split_ifs at hout with hcut hrest hin hrest hrest
  · have := hout _ (List.mem_cons_of_mem _ (List.mem_singleton_self _))
    dsimp only at this
    omega
  · omega
  · omega
  · omega
  · have := hout _ (List.mem_singleton_self _)
    dsimp only at this
    omega
  · omega

end Wrap

/-- `init_pmm` selects exactly the usable pages, if and only if no rounding that matters wraps. -/
theorem initPmm_selects_iff (b : BootInfo) (h : MapOk b) (s : PmmState)
    (hs : initPmm b = .ok s) : Selected b s ↔ Selectable b := by
  refine ⟨fun hsel => ⟨fun e he h7 hl => hsel.base_up h hs he h7 hl, ?_⟩,
    fun hsel => hsel.selected h hs⟩
  by_cases hup : b.kernelPhysEnd + 4095 < 2 ^ 63
  · exact Or.inl hup
  · exact Or.inr fun e he p hp => hsel.kernel_up h hs hup he hp

theorem initPmm_selects_iff_smallMap : ∃ s, initPmm smallMap = .ok s ∧
    (Selected smallMap s ↔ Selectable smallMap) := by
  obtain ⟨s, hs, -⟩ := initPmm_smallMap
  exact ⟨s, hs, initPmm_selects_iff smallMap smallMap_loader.toMapOk s hs⟩

/-- On `wrappedMap` the page at 1 MiB is recorded twice. -/
theorem initPmm_wrappedMap_overlaps :
    ¬ ∀ b s, MapOk b → initPmm b = .ok s → Selected b s := by
  intro hall
  obtain ⟨s, hs⟩ : ∃ s, initPmm wrappedMap = .ok s := ⟨_, rfl⟩
  have hd := (hall wrappedMap s wrappedMap_ok hs).disjoint 0 1
  cases hs
  exact absurd (hd (by decide) (by decide)) (by decide)

end PcoOs.Pmm
