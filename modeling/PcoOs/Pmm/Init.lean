/-
  What `init_pmm` builds. An entry of the memory map contributes the regions `entryRegions`
  (none, one or two: it is rounded inwards, clipped at 1 MiB and cut by the kernel image).
  On a map with `MapOk` whose roundings do not wrap (`NoWrap`), the region table is exactly the
  concatenation of these lists (`initPmm_built`); its regions are disjoint, so the state satisfies
  the allocator invariant over the pool of its pages (`initPmm_inv`).
-/
import PcoOs.Pmm.Pool

namespace PcoOs.Pmm

open PcoOs.Lib

/-- The half-open address ranges of two entries share no address. -/
def MmapEntry.Disjoint (e e' : MmapEntry) : Prop :=
  ∀ x : Int, ¬ (e.base ≤ x ∧ x < e.base + e.length ∧ e'.base ≤ x ∧ x < e'.base + e'.length)

/-- The boot data the firmware hands over: usable entries (type 7) do not overlap, their ends
    stay below `2^63`, and the kernel image is a range of signed 64-bit addresses. -/
structure MapOk (b : BootInfo) : Prop where
  disjoint : b.mmap.Pairwise fun e e' => e.entryType = 7 → e'.entryType = 7 → e.Disjoint e'
  range : ∀ e ∈ b.mmap, e.entryType = 7 → 0 ≤ e.base ∧ 0 ≤ e.length ∧ e.base + e.length < 2 ^ 63
  kernel_le : b.kernelPhysStart ≤ b.kernelPhysEnd
  kernel_range : -2 ^ 63 ≤ b.kernelPhysStart ∧ b.kernelPhysEnd < 2 ^ 63

/-- Neither rounding up to a page boundary (of an entry's base, of the kernel's end) wraps. -/
structure NoWrap (b : BootInfo) : Prop where
  base_up : ∀ e ∈ b.mmap, e.entryType = 7 → e.length ≠ 0 → e.base + 4095 < 2 ^ 63
  kernel_up : b.kernelPhysEnd + 4095 < 2 ^ 63

/-- The boot data the loader passes on: it copies the firmware's descriptors, whose bases and
    lengths are whole pages (`desc->NumberOfPages << 12`). -/
structure LoaderMap (b : BootInfo) : Prop extends MapOk b where
  aligned : ∀ e ∈ b.mmap, e.entryType = 7 → e.base % 4096 = 0 ∧ e.length % 4096 = 0
  kernel_up : b.kernelPhysEnd + 4095 < 2 ^ 63

/-- With page-aligned bases the rounding cannot wrap. -/
theorem LoaderMap.noWrap {b : BootInfo} (h : LoaderMap b) : NoWrap b where
  base_up := fun e he ht hl => by
    have h1 := h.range e he ht
    have h2 := h.aligned e he ht
    omega
  kernel_up := h.kernel_up

/-! ## Adding regions -/

/-- The region table is `rs`. -/
structure Recorded (rs : List Region) (s : PmmState) : Prop where
  count : s.regionCount = rs.length
  table : ∀ i (h : i < rs.length), s.regionTable i = rs[i]

/-- A range of whole pages of signed addresses. -/
structure Paged (r : Region) : Prop where
  start_aligned : r.start % 4096 = 0
  stop_aligned : r.stop % 4096 = 0
  start_lt : r.start < r.stop
  start_ge : -2 ^ 63 ≤ r.start
  stop_lt : r.stop < 2 ^ 63

/-- The page count of such a range is not zero, even where the difference wraps. -/
theorem Paged.pages_ne {r : Region} (h : Paged r) :
    wrap (r.stop - r.start) >>> (12 : Nat) ≠ 0 := by
  obtain ⟨h1, h2, h3, h4, h5⟩ := h
  rw [Int.shiftRight_eq_div_pow, show ((2 ^ 12 : Nat) : Int) = 4096 by norm_num]
  unfold wrap
  omega

theorem Recorded.push {rs : List Region} {s t : PmmState} (h : Recorded rs s) {r : Region}
    (hc : t.regionCount = s.regionCount + 1)
    (ht : t.regionTable = Function.update s.regionTable s.regionCount r) :
    Recorded (rs ++ [r]) t := by
  refine ⟨by rw [hc, h.count, List.length_append, List.length_singleton], fun i hi => ?_⟩
  rw [ht, h.count]
  rcases Nat.lt_or_ge i rs.length with hi' | hi'
  · rw [Function.update_of_ne (by omega), List.getElem_append_left hi', h.table i hi']
  · have : i = rs.length := by simp at hi; omega
    subst this
    simp

theorem pmmAddRegion_recorded {rs : List Region} {s t : PmmState} (h : Recorded rs s) {r : Region}
    (hr : Paged r) (ht : pmmAddRegion s r.start r.stop = .ok t) : Recorded (rs ++ [r]) t := by
  have hlt := hr.start_lt
  unfold pmmAddRegion at ht
  rw [if_neg (by omega)] at ht
  dsimp only at ht
  rw [if_neg hr.pages_ne] at ht
  split_ifs at ht with hfull
  cases ht
  exact h.push rfl rfl

/-- The region table is `rs` and nothing has been allocated yet. -/
structure Built (rs : List Region) (s : PmmState) : Prop where
  count : s.regionCount = rs.length
  table : ∀ i (h : i < rs.length), s.regionTable i = rs[i]
  total : s.totalPages = ((rs.map wholePages).sum : Nat)
  free : s.freePages = s.totalPages
  index : s.regionIndex = 0
  recycle : s.recycleCount = 0
  history : s.history = []
  ok : ∀ r ∈ rs, RegionOk r
  le : rs.length ≤ 64

theorem Built.recorded {rs : List Region} {s : PmmState} (h : Built rs s) : Recorded rs s :=
  ⟨h.count, h.table⟩

theorem built_empty : Built [] emptyPmm where
  count := rfl
  table := by intro i h; simp at h
  total := rfl
  free := rfl
  index := rfl
  recycle := rfl
  history := rfl
  ok := by simp
  le := by decide

theorem wholePages_lt {r : Region} (h : RegionOk r) : wholePages r < 2 ^ 51 := by
  have h1 := h.start_nonneg
  have h2 := h.stop_lt
  unfold wholePages
  omega

/-- The page count of a table of at most 64 regions is far from the 64-bit limit. -/
theorem sum_wholePages_le {rs : List Region} (h : ∀ r ∈ rs, RegionOk r) :
    (rs.map wholePages).sum ≤ rs.length * 2 ^ 51 := by
  induction rs with
  | nil => simp
  | cons r rs ih =>
    have h1 := wholePages_lt (h r (List.mem_cons_self ..))
    have h2 := ih fun r hr => h r (List.mem_cons_of_mem _ hr)
    rw [List.map_cons, List.sum_cons, List.length_cons, Nat.add_mul]
    omega

theorem pages_of_regionOk {r : Region} (h : RegionOk r) :
    wrap (r.stop - r.start) >>> (12 : Nat) = (wholePages r : Int) ∧ wholePages r ≠ 0 := by
  have h1 := h.start_nonneg
  have h2 := h.stop_lt
  have h3 := h.bump_le
  rw [wrap_of_range (by omega) (by omega), Int.shiftRight_eq_div_pow]
  unfold wholePages
  refine ⟨?_, by omega⟩
  rw [show ((2 ^ 12 : Nat) : Int) = 4096 by norm_num]
  omega

theorem pmmAddRegion_built {rs : List Region} {s : PmmState} (h : Built rs s) {r : Region}
    (hr : RegionOk r) :
    Ends (pmmAddRegion s r.start r.stop) (Built (rs ++ [r]))
      (fun e => e = "pmm region table full") := by
  obtain ⟨hpages, hne⟩ := pages_of_regionOk hr
  have hlt := hr.start_lt
  have hne' : ¬ (wholePages r : Int) = 0 := by exact_mod_cast hne
  unfold pmmAddRegion
  rw [if_neg (by omega)]
  dsimp only
  rw [hpages, if_neg hne']
  split_ifs with hfull
  · exact rfl
  · have hlen : rs.length < 64 := by rw [← h.count]; omega
    have hsum := sum_wholePages_le h.ok
    have hw := wholePages_lt hr
    have hwrap : wrap (s.totalPages + wholePages r) = s.totalPages + wholePages r := by
      have := h.total
      refine wrap_of_range (by omega) ?_
      have : (rs.map wholePages).sum ≤ 63 * 2 ^ 51 :=
        hsum.trans (Nat.mul_le_mul_right _ (by omega))
      omega
    rw [h.free, hwrap]
    obtain ⟨hcount, htable⟩ := h.recorded.push (r := r) (t := { s with
      regionTable := Function.update s.regionTable s.regionCount ⟨r.start, r.stop⟩
      regionCount := s.regionCount + 1 }) rfl rfl
    refine ⟨hcount, htable, ?_, rfl, h.index, h.recycle, h.history, ?_, ?_⟩
    · dsimp only
      rw [h.total, List.map_append, List.sum_append]
      simp
    · intro q hq
      rcases List.mem_append.mp hq with hq | hq
      · exact h.ok q hq
      · rw [List.mem_singleton.mp hq]; exact hr
    · simp; omega

/-! ## One entry of the map -/

/-- What is left of an entry from `start` on. -/
def restRegions (start stop : Int) : List Region := if start < stop then [⟨start, stop⟩] else []

/-- The regions an entry contributes, for the page-aligned kernel range `[ks, ke)`. -/
def entryRegions (ks ke : Int) (e : MmapEntry) : List Region :=
  if e.entryType = 7 ∧ e.length ≠ 0 ∧ entryStop e > 0x100000 then
    if entryStart e < ks ∧ entryStop e > ks then
      ⟨entryStart e, ks⟩ :: restRegions ke (entryStop e)
    else if entryStart e ≥ ks ∧ entryStart e < ke then restRegions ke (entryStop e)
    else restRegions (entryStart e) (entryStop e)
  else []

theorem mem_restRegions {start stop : Int} {r : Region} :
    r ∈ restRegions start stop ↔ r = ⟨start, stop⟩ ∧ start < stop := by
  unfold restRegions
  split_ifs with h <;> simp [h]

/-- Bounds of an entry's rounded range. -/
theorem entry_bounds {e : MmapEntry} (h0 : 0 ≤ e.base) (h1 : 0 ≤ e.length)
    (h2 : e.base + e.length < 2 ^ 63) (h3 : e.base + 4095 < 2 ^ 63) :
    entryStart e % 4096 = 0 ∧ entryStop e % 4096 = 0 ∧ 0x100000 ≤ entryStart e ∧
      e.base ≤ entryStart e ∧ entryStop e ≤ e.base + e.length ∧ entryStop e < 2 ^ 63 := by
  unfold entryStart entryStop
  rw [alignUpI_of_range (by omega) h3, wrap_of_range (by omega) h2]
  unfold alignDownI
  split_ifs <;> omega

/-- Every region of an entry is well formed, lies inside the entry above 1 MiB and misses the
    kernel image. -/
theorem entryRegions_spec {ks ke : Int} (hk : ks ≤ ke) (hks : ks % 4096 = 0)
    (hke : ke % 4096 = 0) {e : MmapEntry}
    (hr : e.entryType = 7 → 0 ≤ e.base ∧ 0 ≤ e.length ∧ e.base + e.length < 2 ^ 63)
    (hw : e.entryType = 7 → e.length ≠ 0 → e.base + 4095 < 2 ^ 63) :
    ∀ r ∈ entryRegions ks ke e, RegionOk r ∧ e.entryType = 7 ∧ 0x100000 ≤ r.start ∧
      e.base ≤ r.start ∧ r.stop ≤ e.base + e.length ∧ (r.stop ≤ ks ∨ ke ≤ r.start) := by
  intro r hmem
  unfold entryRegions at hmem
  split_ifs at hmem with h hcut hin
  · obtain ⟨h0, h1, h2⟩ := hr h.1
    obtain ⟨b1, b2, b3, b4, b5, b6⟩ := entry_bounds h0 h1 h2 (hw h.1 h.2.1)
    rcases List.mem_cons.mp hmem with rfl | hmem
    · exact ⟨⟨by dsimp only; omega, b1, hks, hcut.1, by dsimp only; omega⟩, h.1, b3, b4,
        by dsimp only; omega, Or.inl (le_refl _)⟩
    · obtain ⟨rfl, hlt⟩ := mem_restRegions.mp hmem
      exact ⟨⟨by dsimp only; omega, hke, b2, hlt, b6⟩, h.1, by dsimp only; omega,
        by dsimp only; omega, b5, Or.inr (le_refl _)⟩
  · obtain ⟨h0, h1, h2⟩ := hr h.1
    obtain ⟨b1, b2, b3, b4, b5, b6⟩ := entry_bounds h0 h1 h2 (hw h.1 h.2.1)
    obtain ⟨rfl, hlt⟩ := mem_restRegions.mp hmem
    exact ⟨⟨by dsimp only; omega, hke, b2, hlt, b6⟩, h.1, by dsimp only; omega,
      by dsimp only; omega, b5, Or.inr (le_refl _)⟩
  · obtain ⟨h0, h1, h2⟩ := hr h.1
    obtain ⟨b1, b2, b3, b4, b5, b6⟩ := entry_bounds h0 h1 h2 (hw h.1 h.2.1)
    obtain ⟨rfl, hlt⟩ := mem_restRegions.mp hmem
    exact ⟨⟨by dsimp only; omega, b1, b2, hlt, b6⟩, h.1, b3, b4, b5, by dsimp only; omega⟩
  · simp at hmem

theorem restRegions_pairwise (start stop : Int) :
    (restRegions start stop).Pairwise fun r r' => r.stop ≤ r'.start ∨ r'.stop ≤ r.start := by
  unfold restRegions
  split_ifs <;> simp

/-- The two pieces of one entry do not overlap. -/
theorem entryRegions_pairwise {ks ke : Int} (hk : ks ≤ ke) (e : MmapEntry) :
    (entryRegions ks ke e).Pairwise fun r r' => r.stop ≤ r'.start ∨ r'.stop ≤ r.start := by
  unfold entryRegions
  split_ifs with h hcut hin
  · refine List.pairwise_cons.mpr ⟨fun r hr => ?_, restRegions_pairwise _ _⟩
    obtain ⟨rfl, -⟩ := mem_restRegions.mp hr
    exact Or.inl hk
  · exact restRegions_pairwise _ _
  · exact restRegions_pairwise _ _
  · exact List.Pairwise.nil

/-- Add the regions of a list in order. -/
def addRegions (s : PmmState) (rs : List Region) : Except String PmmState :=
  rs.foldlM (fun s r => pmmAddRegion s r.start r.stop) s

theorem addRegions_cons (s : PmmState) (r : Region) (rs : List Region) :
    addRegions s (r :: rs) = pmmAddRegion s r.start r.stop >>= fun t => addRegions t rs :=
  List.foldlM_cons

theorem pmmAddRest_eq (s : PmmState) (start stop : Int) :
    pmmAddRest s start stop = addRegions s (restRegions start stop) := by
  unfold pmmAddRest restRegions
  split_ifs
  · rw [addRegions_cons]
    exact (bind_pure _).symm
  · rfl

theorem initPmmEntry_eq (ks ke : Int) (s : PmmState) (e : MmapEntry) :
    initPmmEntry ks ke s e = addRegions s (entryRegions ks ke e) := by
  unfold initPmmEntry entryRegions
  split_ifs
  · rw [addRegions_cons]
    exact bind_congr fun t => pmmAddRest_eq t ke (entryStop e)
  · exact pmmAddRest_eq s ke (entryStop e)
  · exact pmmAddRest_eq s (entryStart e) (entryStop e)
  · rfl

/-- The loop over the map adds the regions of every entry. -/
theorem foldlM_initPmmEntry (ks ke : Int) (es : List MmapEntry) (s : PmmState) :
    es.foldlM (initPmmEntry ks ke) s = addRegions s (es.flatMap (entryRegions ks ke)) := by
  induction es generalizing s with
  | nil => rfl
  | cons e es ih =>
    rw [List.foldlM_cons, List.flatMap_cons]
    unfold addRegions
    rw [List.foldlM_append, initPmmEntry_eq]
    exact bind_congr ih

theorem addRegions_built {new rs : List Region} {s : PmmState} (h : Built rs s)
    (hok : ∀ r ∈ new, RegionOk r) :
    Ends (addRegions s new) (Built (rs ++ new)) (fun e => e = "pmm region table full") := by
  induction new generalizing rs s with
  | nil => simpa [addRegions, pure, Except.pure] using h
  | cons r new ih =>
    rw [addRegions_cons]
    refine ends_bind (pmmAddRegion_built h (hok r (List.mem_cons_self ..))) fun t ht => ?_
    have := ih ht fun r' hr' => hok r' (List.mem_cons_of_mem _ hr')
    rwa [List.append_assoc] at this

/-! ## The whole map -/

/-- The page-aligned kernel image. -/
def kernelLo (b : BootInfo) : Int := alignDownI b.kernelPhysStart 4096
def kernelHi (b : BootInfo) : Int := alignUpI b.kernelPhysEnd 4096

/-- The region table `init_pmm` builds. -/
def bootRegions (b : BootInfo) : List Region :=
  b.mmap.flatMap (entryRegions (kernelLo b) (kernelHi b))

theorem kernel_bounds {b : BootInfo} (h : MapOk b) (hw : NoWrap b) :
    kernelLo b ≤ kernelHi b ∧ kernelLo b % 4096 = 0 ∧ kernelHi b % 4096 = 0 := by
  have h1 := h.kernel_le
  have h2 := h.kernel_range
  have h3 := hw.kernel_up
  unfold kernelLo kernelHi
  rw [alignUpI_of_range (by omega) h3]
  unfold alignDownI
  omega

/-- The map of a table: no base of a usable entry wraps, and the kernel image ends at `ke`. -/
structure TableOk (b : BootInfo) (ke : Int) : Prop extends MapOk b where
  base_up : ∀ e ∈ b.mmap, e.entryType = 7 → e.length ≠ 0 → e.base + 4095 < 2 ^ 63
  lo_aligned : kernelLo b % 4096 = 0
  hi_aligned : ke % 4096 = 0
  lo_le : kernelLo b ≤ ke

theorem NoWrap.tableOk {b : BootInfo} (hw : NoWrap b) (h : MapOk b) : TableOk b (kernelHi b) :=
  have hk := kernel_bounds h hw
  ⟨h, hw.base_up, hk.2.1, hk.2.2, hk.1⟩

theorem TableOk.entry {b : BootInfo} {ke : Int} (h : TableOk b ke) {e : MmapEntry}
    (he : e ∈ b.mmap) : ∀ r ∈ entryRegions (kernelLo b) ke e,
      RegionOk r ∧ e.entryType = 7 ∧ 0x100000 ≤ r.start ∧ e.base ≤ r.start ∧
        r.stop ≤ e.base + e.length ∧ (r.stop ≤ kernelLo b ∨ ke ≤ r.start) :=
  entryRegions_spec h.lo_le h.lo_aligned h.hi_aligned (h.range e he) (h.base_up e he)

/-- The recorded regions do not overlap. -/
theorem TableOk.pairwise {b : BootInfo} {ke : Int} (h : TableOk b ke) :
    (b.mmap.flatMap (entryRegions (kernelLo b) ke)).Pairwise fun r r' =>
      r.stop ≤ r'.start ∨ r'.stop ≤ r.start := by
  rw [List.pairwise_flatMap]
  refine ⟨fun e _ => entryRegions_pairwise h.lo_le e, ?_⟩
  refine h.disjoint.imp_of_mem fun {e e'} he he' hd r hr r' hr' => ?_
  obtain ⟨ok, t, -, lo, hi, -⟩ := h.entry he r hr
  obtain ⟨ok', t', -, lo', hi', -⟩ := h.entry he' r' hr'
  have hx := hd t t' (max r.start r'.start)
  have := ok.start_lt
  have := ok'.start_lt
  rcases le_total r.start r'.start with hle | hle
  · rw [max_eq_right hle] at hx; omega
  · rw [max_eq_left hle] at hx; omega

theorem initPmm_adds {b : BootInfo} {s : PmmState} (hs : initPmm b = .ok s) :
    addRegions emptyPmm (bootRegions b) = .ok s ∧ s.regionCount ≠ 0 := by
  unfold initPmm at hs
  dsimp only at hs
  split_ifs at hs with hlen
  obtain ⟨t, ht, hs⟩ := bind_eq_ok.mp hs
  rw [foldlM_initPmmEntry] at ht
  split_ifs at hs with hz
  cases hs
  exact ⟨ht, hz⟩

theorem initPmm_built {b : BootInfo} (h : MapOk b) (hw : NoWrap b) {s : PmmState}
    (hs : initPmm b = .ok s) : Built (bootRegions b) s := by
  refine (addRegions_built built_empty fun r hr => ?_).of_ok (initPmm_adds hs).1
  obtain ⟨e, he, hr⟩ := List.mem_flatMap.mp hr
  exact ((hw.tableOk h).entry he r hr).1

/-- A page of a region is page aligned and inside the region. -/
theorem mem_regionPages_bounds {r : Region} (h : RegionOk r) {p : Nat}
    (hp : p ∈ regionPages r) : p % 4096 = 0 ∧ r.start ≤ p ∧ (p : Int) + 4096 ≤ r.stop := by
  obtain ⟨k, hk, rfl⟩ := mem_regionPages.mp hp
  have h1 := h.start_nonneg
  have h2 := h.start_aligned
  have h3 := h.start_lt
  have h4 := h.stop_lt
  rw [addr_of_nonneg h1 (by omega)]
  unfold wholePages at hk
  omega

theorem nodup_regionPages (r : Region) : (regionPages r).Nodup := by
  unfold regionPages
  refine Multiset.coe_nodup.mpr (List.Nodup.map ?_ List.nodup_range)
  intro i j hij
  have : addr r.start + 4096 * i = addr r.start + 4096 * j := hij
  omega

theorem mem_sum_regionPages {rs : List Region} {p : Nat} :
    p ∈ (rs.map regionPages).sum ↔ ∃ r ∈ rs, p ∈ regionPages r := by
  induction rs with
  | nil => simp
  | cons r rs ih => simp [ih]

/-- Pages of disjoint regions are distinct. -/
theorem nodup_sum_regionPages {rs : List Region} (hok : ∀ r ∈ rs, RegionOk r)
    (hp : rs.Pairwise fun r r' => r.stop ≤ r'.start ∨ r'.stop ≤ r.start) :
    (rs.map regionPages).sum.Nodup := by
  induction rs with
  | nil => simp
  | cons r rs ih =>
    obtain ⟨h1, h2⟩ := List.pairwise_cons.mp hp
    rw [List.map_cons, List.sum_cons]
    refine Multiset.nodup_add.mpr ⟨nodup_regionPages r,
      ih (fun r hr => hok r (List.mem_cons_of_mem _ hr)) h2, ?_⟩
    refine Multiset.disjoint_left.mpr fun {p} hp hq => ?_
    obtain ⟨r', hr', hpq⟩ := mem_sum_regionPages.mp hq
    have b1 := mem_regionPages_bounds (hok r (List.mem_cons_self ..)) hp
    have b2 := mem_regionPages_bounds (hok r' (List.mem_cons_of_mem _ hr')) hpq
    have := h1 r' hr'
    omega

theorem mem_bootRegions {b : BootInfo} (h : MapOk b) (hw : NoWrap b) {r : Region}
    (hr : r ∈ bootRegions b) : ∃ e ∈ b.mmap, RegionOk r ∧ e.entryType = 7 ∧
      0x100000 ≤ r.start ∧ e.base ≤ r.start ∧ r.stop ≤ e.base + e.length ∧
        (r.stop ≤ kernelLo b ∨ kernelHi b ≤ r.start) := by
  obtain ⟨e, he, hr⟩ := List.mem_flatMap.mp hr
  exact ⟨e, he, (hw.tableOk h).entry he r hr⟩

/-- A region table whose pages can be handed out. -/
structure RegionsOk (rs : List Region) : Prop where
  ok : ∀ r ∈ rs, RegionOk r
  low : ∀ r ∈ rs, 0x100000 ≤ r.start
  pairwise : rs.Pairwise fun r r' => r.stop ≤ r'.start ∨ r'.stop ≤ r.start

/-- The pages of such a table. -/
def regionPool (rs : List Region) (h : RegionsOk rs) : Pool where
  pages := (rs.map regionPages).sum
  nodup := nodup_sum_regionPages h.ok h.pairwise
  aligned := fun p hp => by
    obtain ⟨r, hr, hpr⟩ := mem_sum_regionPages.mp hp
    exact (mem_regionPages_bounds (h.ok r hr) hpr).1
  low := fun p hp => by
    obtain ⟨r, hr, hpr⟩ := mem_sum_regionPages.mp hp
    have := mem_regionPages_bounds (h.ok r hr) hpr
    have := h.low r hr
    omega
  high := fun p hp => by
    obtain ⟨r, hr, hpr⟩ := mem_sum_regionPages.mp hp
    have := mem_regionPages_bounds (h.ok r hr) hpr
    have := (h.ok r hr).stop_lt
    omega

theorem NoWrap.regionsOk {b : BootInfo} (hw : NoWrap b) (h : MapOk b) :
    RegionsOk (bootRegions b) where
  ok := fun _ hr => by obtain ⟨_, _, ok, _⟩ := mem_bootRegions h hw hr; exact ok
  low := fun _ hr => by obtain ⟨_, _, _, _, hlow, _⟩ := mem_bootRegions h hw hr; exact hlow
  pairwise := (hw.tableOk h).pairwise

/-- The pages `init_pmm` records. -/
def bootPool (b : BootInfo) (h : MapOk b) (hw : NoWrap b) : Pool :=
  regionPool (bootRegions b) (hw.regionsOk h)

theorem card_sum_regionPages (rs : List Region) :
    (rs.map regionPages).sum.card = (rs.map wholePages).sum := by
  induction rs with
  | nil => simp
  | cons r rs ih => simp [ih]

/-- Before the first allocation the pages left are those of the whole table. -/
theorem Built.freePool_eq {rs : List Region} {s : PmmState} (h : Built rs s) :
    freePool s = (rs.map regionPages).sum := by
  have hrec : recycled s = 0 := by simp [recycled, h.recycle]
  unfold freePool remaining
  rw [hrec, zero_add, h.index, h.count, ← Finset.range_eq_Ico, ← Fin.sum_univ_eq_sum_range
    (fun i => regionPages (s.regionTable i)), ← List.sum_ofFn]
  congr 1
  refine List.ext_getElem (by simp) fun i h1 h2 => ?_
  simp only [List.getElem_ofFn, List.getElem_map]
  rw [h.table i (by simpa using h2)]

/-- The table as built establishes the allocator invariant. -/
theorem Built.inv {rs : List Region} {s : PmmState} (hb : Built rs s) (h : RegionsOk rs) :
    PmmInv (regionPool rs h) s := by
  have hpool := hb.freePool_eq
  refine ⟨fun i _ hi => ?_, ?_, ?_, ?_, ?_, ?_, ?_⟩
  · rw [hb.table i (by rw [← hb.count]; exact hi)]
    exact hb.ok _ (List.getElem_mem _)
  · rw [hb.history]; trivial
  · rw [hb.history, outstanding_nil, zero_add, hpool]; rfl
  · rw [hb.free, hb.total, hpool, card_sum_regionPages]
  · rw [hb.total, ← card_sum_regionPages]; rfl
  · rw [hb.index]; exact Nat.zero_le _
  · rw [hb.recycle]; decide

theorem initPmm_inv {b : BootInfo} (h : MapOk b) (hw : NoWrap b) {s : PmmState}
    (hs : initPmm b = .ok s) : PmmInv (bootPool b h hw) s :=
  (initPmm_built h hw hs).inv (hw.regionsOk h)

end PcoOs.Pmm
