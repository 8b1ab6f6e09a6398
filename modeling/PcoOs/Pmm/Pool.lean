/-
  What the page allocator is for: it partitions a fixed set of pages into the pages handed out
  and the free pool. `PmmInv P s` is that statement for the state `s` and the pool `P`, with the
  counters of the source tied to it.

  * `pmmAllocPage_spec`: an allocation takes one page out of the free pool, or finds it empty.
  * `pmmFreePage_spec`: freeing an outstanding page puts it back.
  * `PmmInv.of_free`: what is free is not handed out.
  * `Freed P s X t`: the pages of `X` went back; `Freed.step` adds one more free.
-/
import PcoOs.Lib.Outcome
import PcoOs.Pmm.Model

namespace PcoOs.Pmm

open PcoOs.Lib

/-- The pages an allocator manages: distinct, page aligned, above the first MiB and below
    `2^63`. -/
structure Pool where
  pages : Multiset Nat
  nodup : pages.Nodup
  aligned : ∀ p ∈ pages, p % 4096 = 0
  low : ∀ p ∈ pages, 0x100000 ≤ p
  high : ∀ p ∈ pages, p + 4096 ≤ 2 ^ 63

/-- The number of whole pages in a region. -/
def wholePages (r : Region) : Nat := ((r.stop - r.start) / 4096).toNat

/-- The whole pages of a region, from its start. -/
def regionPages (r : Region) : Multiset Nat :=
  ((List.range (wholePages r)).map fun k => addr r.start + 4096 * k : List Nat)

/-- The pages on the recycle stack. -/
def recycled (s : PmmState) : Multiset Nat :=
  ((List.range s.recycleCount).map s.recycleStack : List Nat)

/-- The whole pages left in the regions from the current region index on. -/
def remaining (s : PmmState) : Multiset Nat :=
  ∑ i ∈ Finset.Ico s.regionIndex s.regionCount, regionPages (s.regionTable i)

/-- The pages that can still be handed out. -/
def freePool (s : PmmState) : Multiset Nat := recycled s + remaining s

/-- A non-empty region of whole pages with non-negative bounds below `2^63`. -/
structure RegionOk (r : Region) : Prop where
  start_nonneg : 0 ≤ r.start
  start_aligned : r.start % 4096 = 0
  stop_aligned : r.stop % 4096 = 0
  start_lt : r.start < r.stop
  stop_lt : r.stop < 2 ^ 63

/-- The allocator invariant over the pool `P`. -/
structure PmmInv (P : Pool) (s : PmmState) : Prop where
  regions : ∀ i, s.regionIndex ≤ i → i < s.regionCount → RegionOk (s.regionTable i)
  balanced : Balanced s.history
  partition : outstanding s.history + freePool s = P.pages
  free : s.freePages = (freePool s).card
  total : s.totalPages = P.pages.card
  index_le : s.regionIndex ≤ s.regionCount
  recycle_le : s.recycleCount ≤ 2048

/-! ## Regions -/

@[simp] theorem card_regionPages (r : Region) : (regionPages r).card = wholePages r := by
  simp [regionPages]

theorem mem_regionPages {r : Region} {p : Nat} :
    p ∈ regionPages r ↔ ∃ k < wholePages r, addr r.start + 4096 * k = p := by
  simp [regionPages]

/-- The next-page address of a region does not wrap. -/
theorem wrap_bump {r : Region} (h : RegionOk r) : wrap (r.start + 4096) = r.start + 4096 := by
  have h1 := h.start_nonneg
  have h2 := h.start_aligned
  have h3 := h.stop_aligned
  have h4 := h.start_lt
  have h5 := h.stop_lt
  exact wrap_of_range (by omega) (by omega)

theorem RegionOk.bump_le {r : Region} (h : RegionOk r) : r.start + 4096 ≤ r.stop := by
  have h2 := h.start_aligned
  have h3 := h.stop_aligned
  have h4 := h.start_lt
  omega

/-- A region is its first page and the region that starts one page later. -/
theorem regionPages_bump {r : Region} (h : RegionOk r) :
    regionPages r = addr r.start ::ₘ regionPages ⟨r.start + 4096, r.stop⟩ := by
  have h0 := h.start_nonneg
  have hp := h.bump_le
  have hs := h.stop_lt
  have hw : wholePages r = wholePages ⟨r.start + 4096, r.stop⟩ + 1 := by
    unfold wholePages; dsimp only; omega
  unfold regionPages
  rw [hw, List.range_succ_eq_map, List.map_cons, List.map_map, Multiset.cons_coe]
  congr 3
  · funext k
    rw [addr_of_nonneg (x := r.start) (by omega) (by omega)]
    dsimp only [Function.comp_apply]
    rw [addr_of_nonneg (by omega) (by omega)]
    omega

theorem regionPages_empty {r : Region} (h : r.stop ≤ r.start) : regionPages r = 0 := by
  have hw : wholePages r = 0 := by unfold wholePages; omega
  simp [regionPages, hw]

theorem bump_regionOk {r : Region} (h : RegionOk r) (hlt : r.start + 4096 < r.stop) :
    RegionOk ⟨r.start + 4096, r.stop⟩ where
  start_nonneg := by have := h.start_nonneg; dsimp only; omega
  start_aligned := by have := h.start_aligned; dsimp only; omega
  stop_aligned := h.stop_aligned
  start_lt := hlt
  stop_lt := h.stop_lt

/-! ## The free pool under the two pops and the push -/

@[simp] theorem card_recycled (s : PmmState) : (recycled s).card = s.recycleCount := by
  simp [recycled]

theorem recycled_pop {s : PmmState} (h : s.recycleCount ≠ 0) :
    recycled s = s.recycleStack (s.recycleCount - 1) ::ₘ
      ((List.range (s.recycleCount - 1)).map s.recycleStack : List Nat) := by
  obtain ⟨n, hn⟩ := Nat.exists_eq_succ_of_ne_zero h
  unfold recycled
  rw [hn, List.range_succ, List.map_append, Multiset.cons_coe]
  exact Multiset.coe_eq_coe.mpr (List.perm_append_singleton _ _)

/-- What pushing a page does to the stack below it: nothing. -/
theorem recycled_push (s : PmmState) (page : Nat) :
    ((List.range (s.recycleCount + 1)).map
      (Function.update s.recycleStack s.recycleCount page) : Multiset Nat) =
      page ::ₘ recycled s := by
  unfold recycled
  have hmap : (List.range s.recycleCount).map
      (Function.update s.recycleStack s.recycleCount page) =
      (List.range s.recycleCount).map s.recycleStack := by
    refine List.map_congr_left fun i hi => ?_
    have := List.mem_range.mp hi
    exact Function.update_of_ne (by omega) _ _
  rw [List.range_succ, List.map_append, hmap, Multiset.cons_coe, List.map_singleton,
    Function.update_self]
  exact Multiset.coe_eq_coe.mpr (List.perm_append_singleton _ _)

/-- The bump path: the first page of the current region leaves the remaining pages. -/
theorem remaining_bump {s : PmmState} (hlt : s.regionIndex < s.regionCount)
    (h : RegionOk (s.regionTable s.regionIndex)) :
    remaining s = addr (s.regionTable s.regionIndex).start ::ₘ
      (regionPages ⟨(s.regionTable s.regionIndex).start + 4096,
          (s.regionTable s.regionIndex).stop⟩ +
        ∑ i ∈ Finset.Ico (s.regionIndex + 1) s.regionCount, regionPages (s.regionTable i)) := by
  unfold remaining
  rw [Finset.sum_eq_sum_Ico_succ_bot hlt, regionPages_bump h, Multiset.cons_add]

/-- Only the current region of the table changes on the bump path. -/
theorem sum_update_of_lt (t : Nat → Region) (r : Region) (i n : Nat) :
    ∑ j ∈ Finset.Ico (i + 1) n, regionPages (Function.update t i r j) =
      ∑ j ∈ Finset.Ico (i + 1) n, regionPages (t j) := by
  refine Finset.sum_congr rfl fun j hj => ?_
  have := (Finset.mem_Ico.mp hj).1
  rw [Function.update_of_ne (by omega)]

/-! ## One step of the allocator -/

/-- The page at the bump cursor, when the recycle stack is empty and a page is left. -/
theorem PmmInv.index_lt {P : Pool} {s : PmmState} (h : PmmInv P s) (hf : s.freePages ≠ 0)
    (hr : s.recycleCount = 0) : s.regionIndex < s.regionCount := by
  rcases Nat.lt_or_ge s.regionIndex s.regionCount with hlt | hge
  · exact hlt
  · exfalso
    apply hf
    rw [h.free]
    simp [freePool, recycled, remaining, hr, Finset.Ico_eq_empty_of_le hge]

/-- A page of the free pool is in `P`, is not outstanding and may be handed out. -/
theorem PmmInv.of_free {P : Pool} {s : PmmState} (h : PmmInv P s) {p : Nat}
    (hp : p ∈ freePool s) : p ∈ P.pages ∧ p ∉ outstanding s.history := by
  have hP : outstanding s.history + freePool s = P.pages := h.partition
  refine ⟨by rw [← hP]; exact Multiset.mem_add.mpr (Or.inr hp), ?_⟩
  have hnd := P.nodup
  rw [← hP] at hnd
  exact fun ho => Multiset.disjoint_left.mp (Multiset.nodup_add.mp hnd).2.2 ho hp

/-- Handing out a page `p` of the free pool: the common part of the two allocation paths. -/
theorem PmmInv.give {P : Pool} {s t : PmmState} (h : PmmInv P s) {p : Nat}
    (hpool : freePool s = p ::ₘ freePool t) (hfree : t.freePages = s.freePages - 1)
    (hhist : t.history = .give p :: s.history) (htotal : t.totalPages = s.totalPages)
    (hregions : ∀ i, t.regionIndex ≤ i → i < t.regionCount → RegionOk (t.regionTable i))
    (hindex : t.regionIndex ≤ t.regionCount) (hrec : t.recycleCount ≤ s.recycleCount) :
    PmmInv P t where
  regions := hregions
  balanced := by
    rw [hhist]
    exact ⟨(h.of_free (hpool ▸ Multiset.mem_cons_self _ _)).2, h.balanced⟩
  partition := by
    rw [hhist, outstanding_give, ← h.partition, hpool, Multiset.cons_add, Multiset.add_cons]
  free := by
    rw [hfree, h.free, hpool, Multiset.card_cons]
    push_cast
    ring
  total := htotal.trans h.total
  index_le := hindex
  recycle_le := hrec.trans h.recycle_le

/-- The bump takes the page at the cursor out of the free pool. -/
theorem freePool_bump {s : PmmState} (hlt : s.regionIndex < s.regionCount)
    (hok : RegionOk (s.regionTable s.regionIndex)) :
    freePool s = addr (s.regionTable s.regionIndex).start ::ₘ freePool (pmmBump s) := by
  unfold freePool
  rw [remaining_bump hlt hok, Multiset.add_cons]
  congr 2
  unfold remaining pmmBump
  dsimp only
  rw [wrap_bump hok]
  -- the cursor stays on the region, or leaves it behind empty
  split_ifs with hend
  · rw [sum_update_of_lt, regionPages_empty hend, zero_add]
  · rw [Finset.sum_eq_sum_Ico_succ_bot hlt, sum_update_of_lt, Function.update_self]

theorem pmmBump_regions {s : PmmState} (hok : RegionOk (s.regionTable s.regionIndex))
    (h : ∀ i, s.regionIndex ≤ i → i < s.regionCount → RegionOk (s.regionTable i)) (i : Nat)
    (hi : (pmmBump s).regionIndex ≤ i) (hc : i < (pmmBump s).regionCount) :
    RegionOk ((pmmBump s).regionTable i) := by
  unfold pmmBump at hi hc ⊢
  dsimp only at hi hc ⊢
  rw [wrap_bump hok] at hi ⊢
  split_ifs at hi with hend
  · rw [Function.update_of_ne (by omega)]
    exact h i (by omega) hc
  · rcases Nat.eq_or_lt_of_le hi with heq | hgt
    · subst heq
      rw [Function.update_self]
      exact bump_regionOk hok (by omega)
    · rw [Function.update_of_ne (by omega)]
      exact h i (by omega) hc

theorem pmmBump_index_le {s : PmmState} (hlt : s.regionIndex < s.regionCount) :
    (pmmBump s).regionIndex ≤ (pmmBump s).regionCount := by
  unfold pmmBump
  dsimp only
  split_ifs <;> omega

/-- An allocation either finds no free page and changes nothing, or moves one page of the free
    pool to the pages handed out. -/
theorem pmmAllocPage_spec {P : Pool} {s : PmmState} (h : PmmInv P s) :
    (s.freePages = 0 ∧ pmmAllocPage s = (0, s)) ∨
      ∃ p t, pmmAllocPage s = (p, t) ∧ 0 < s.freePages ∧ freePool s = p ::ₘ freePool t ∧
        t.freePages = s.freePages - 1 ∧ t.history = .give p :: s.history ∧ PmmInv P t := by
  by_cases hf : s.freePages = 0
  · exact Or.inl ⟨hf, by rw [pmmAllocPage, if_pos hf]⟩
  · right
    have hpos : 0 < s.freePages := by have := h.free; omega
    by_cases hr : s.recycleCount = 0
    · have hlt := h.index_lt hf hr
      have hok := h.regions s.regionIndex (le_refl _) hlt
      have hpool := freePool_bump hlt hok
      obtain ⟨m, hm⟩ : ∃ m, s.regionCount - s.regionIndex = m + 1 :=
        ⟨s.regionCount - s.regionIndex - 1, by omega⟩
      refine ⟨addr (s.regionTable s.regionIndex).start, pmmBump s, ?_, hpos, hpool, rfl, rfl,
        h.give hpool rfl rfl rfl (pmmBump_regions hok h.regions) (pmmBump_index_le hlt)
          (le_refl _)⟩
      rw [pmmAllocPage, if_neg hf, if_neg (not_not.mpr hr), hm, pmmScanRegions,
        if_pos (by rw [wrap_bump hok]; exact hok.bump_le)]
    · refine ⟨_, _, by rw [pmmAllocPage, if_neg hf, if_pos hr], hpos, ?_, rfl, rfl, ?_⟩
      · unfold freePool
        rw [recycled_pop hr, Multiset.cons_add]
        rfl
      · refine h.give ?_ rfl rfl rfl h.regions h.index_le (Nat.sub_le _ _)
        unfold freePool
        rw [recycled_pop hr, Multiset.cons_add]
        rfl

/-- The pool with one outstanding page given back. -/
theorem PmmInv.take {P : Pool} {s : PmmState} (h : PmmInv P s) {page : Nat}
    (hp : page ∈ outstanding s.history) (hlt : s.recycleCount < 2048) :
    PmmInv P { s with
      recycleStack := Function.update s.recycleStack s.recycleCount page
      recycleCount := s.recycleCount + 1
      freePages := s.freePages + 1
      history := .take page :: s.history } := by
  have hpool : freePool { s with
      recycleStack := Function.update s.recycleStack s.recycleCount page
      recycleCount := s.recycleCount + 1
      freePages := s.freePages + 1
      history := .take page :: s.history } = page ::ₘ freePool s := by
    unfold freePool
    rw [← Multiset.cons_add, ← recycled_push]
    rfl
  exact {
    regions := h.regions
    balanced := ⟨hp, h.balanced⟩
    partition := by
      rw [hpool, outstanding_take, Multiset.add_cons, ← Multiset.cons_add,
        Multiset.cons_erase hp, h.partition]
    free := by
      rw [hpool, Multiset.card_cons]
      push_cast
      rw [← h.free]
    total := h.total
    index_le := h.index_le
    recycle_le := hlt }

/-- Freeing an outstanding page succeeds unless the recycle stack is full. -/
theorem pmmFreePage_spec {P : Pool} {s : PmmState} (h : PmmInv P s) {page : Nat}
    (hp : page ∈ outstanding s.history) :
    Ends (pmmFreePage s page)
      (fun t => t.history = .take page :: s.history ∧ t.freePages = s.freePages + 1 ∧
        PmmInv P t)
      (fun e => e = "pmm recycle stack full" ∧ s.recycleCount = 2048) := by
  have hmem : page ∈ P.pages := by
    rw [← h.partition]; exact Multiset.mem_add.mpr (Or.inl hp)
  have h0 : page ≠ 0 := by have := P.low page hmem; omega
  have ha : ¬ page &&& 0xFFF ≠ 0 := by
    rw [and_fff]; have := P.aligned page hmem; omega
  unfold pmmFreePage
  rw [if_neg h0, if_neg ha]
  split_ifs with hfull
  · exact ⟨rfl, by have := h.recycle_le; omega⟩
  · exact ⟨rfl, rfl, h.take hp (by omega)⟩

theorem PmmInv.mem_pages {P : Pool} {s : PmmState} (h : PmmInv P s) {p : Nat}
    (hp : p ∈ outstanding s.history) : p ∈ P.pages := by
  rw [← h.partition]; exact Multiset.mem_add.mpr (Or.inl hp)

/-- The recycle stack and the pages handed out are distinct pages of the pool. -/
theorem PmmInv.recycle_add_le {P : Pool} {s : PmmState} (h : PmmInv P s) :
    s.recycleCount + (outstanding s.history).card ≤ P.pages.card := by
  rw [← h.partition, Multiset.card_add]
  unfold freePool
  rw [Multiset.card_add, card_recycled]
  omega

/-! ## Freeing several pages -/

/-- The pages of `X` went back between `s` and `t`, each once, and nothing else happened. -/
structure Freed (P : Pool) (s : PmmState) (X : Multiset Nat) (t : PmmState) : Prop where
  inv : PmmInv P t
  events : ∃ l : List Nat, (l : Multiset Nat) = X ∧ t.history = l.map .take ++ s.history
  count : t.recycleCount = s.recycleCount + X.card

/-- The panic of `pmm_free_page`, when the pages of `X` do not all fit on the recycle stack. -/
def Full (s : PmmState) (X : Multiset Nat) (e : String) : Prop :=
  e = "pmm recycle stack full" ∧ 2048 < s.recycleCount + X.card

theorem Freed.refl {P : Pool} {s : PmmState} (h : PmmInv P s) : Freed P s 0 s :=
  ⟨h, ⟨[], rfl, rfl⟩, by simp⟩

theorem Freed.trans {P : Pool} {s t u : PmmState} {X Y : Multiset Nat} (h : Freed P s X t)
    (h' : Freed P t Y u) : Freed P s (X + Y) u where
  inv := h'.inv
  events := by
    obtain ⟨l, hl, ht⟩ := h.events
    obtain ⟨l', hl', hu⟩ := h'.events
    refine ⟨l' ++ l, ?_, ?_⟩
    · rw [← Multiset.coe_add, hl, hl', add_comm]
    · rw [hu, ht, List.map_append, List.append_assoc]
  count := by rw [h'.count, h.count, Multiset.card_add, add_assoc]

/-- What went back was handed out. -/
theorem Freed.out {P : Pool} {s t : PmmState} {X : Multiset Nat} (h : Freed P s X t) :
    outstanding s.history = X + outstanding t.history := by
  obtain ⟨l, rfl, ht⟩ := h.events
  have hb := h.inv.balanced
  rw [ht] at hb ⊢
  exact outstanding_takes hb

/-- What is still to go back is handed out. -/
theorem Freed.rest {P : Pool} {s t : PmmState} {X Y : Multiset Nat} (h : Freed P s X t)
    (hle : X + Y ≤ outstanding s.history) : Y ≤ outstanding t.history := by
  rw [h.out] at hle
  exact Multiset.add_le_add_iff_left.mp hle

theorem Freed.recycle_le {P : Pool} {s t : PmmState} {X : Multiset Nat} (h : Freed P s X t) :
    s.recycleCount + X.card ≤ 2048 := by
  rw [← h.count]
  exact h.inv.recycle_le

theorem Full.mono {s : PmmState} {X Y : Multiset Nat} {e : String} (h : Full s X e) (hle : X ≤ Y) :
    Full s Y e := by
  have := Multiset.card_le_card hle
  exact ⟨h.1, by have := h.2; omega⟩

theorem Full.after {P : Pool} {s t : PmmState} {X Y : Multiset Nat} {e : String}
    (hf : Freed P s X t) (h : Full t Y e) : Full s (X + Y) e := by
  have hc := hf.count
  have ht := h.2
  exact ⟨h.1, by rw [Multiset.card_add]; omega⟩

/-- The next of several frees, out of all those that are to come. -/
theorem Freed.step {P : Pool} {s t : PmmState} {X Y T : Multiset Nat} (h : Freed P s X t)
    {x : Except String PmmState} (hx : Ends x (Freed P t Y) (Full t Y)) (hT : X + Y ≤ T) :
    Ends x (Freed P s (X + Y)) (Full s T) :=
  hx.mono (fun _ hu => h.trans hu) fun _ he => (he.after h).mono hT

theorem pmmFreePage_freed {P : Pool} {s : PmmState} (h : PmmInv P s) {page : Nat}
    (hp : {page} ≤ outstanding s.history) :
    Ends (pmmFreePage s page) (Freed P s {page}) (Full s {page}) := by
  have hmem := Multiset.singleton_le.mp hp
  have hspec := pmmFreePage_spec h hmem
  cases hx : pmmFreePage s page with
  | error e =>
    obtain ⟨he, hfull⟩ := hspec.of_error hx
    exact ⟨he, by rw [hfull]; simp⟩
  | ok t =>
    obtain ⟨hist, -, hinv⟩ := hspec.of_ok hx
    refine ⟨hinv, ⟨[page], rfl, hist⟩, ?_⟩
    unfold pmmFreePage at hx
    split_ifs at hx
    cases hx
    simp

end PcoOs.Pmm
