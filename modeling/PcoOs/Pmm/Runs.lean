/-
  Runs of the page allocator from the state `init_pmm` builds: any sequence of `pmm_alloc_page`
  calls and of `pmm_free_page` calls on pages that are handed out, none of which panics.
  `PmmSound` is what a run promises. The invariant gives it over any table of good regions
  (`PmmInv.sound`).
-/
import PcoOs.Pmm.Init

namespace PcoOs.Pmm

open PcoOs.Lib

/-- One call of the allocator. The page freed is one that is currently handed out. -/
inductive PmmStep : PmmState → PmmState → Prop
  | alloc (s : PmmState) : PmmStep s (pmmAllocPage s).2
  | free {s t : PmmState} {page : Nat} (hp : page ∈ outstanding s.history)
      (ht : pmmFreePage s page = .ok t) : PmmStep s t

/-- The pages free in `s`: those on the recycle stack and the whole pages left in the regions
    from the current region index on. -/
def pagesFree (s : PmmState) : Nat :=
  s.recycleCount + ∑ i ∈ Finset.Ico s.regionIndex s.regionCount, wholePages (s.regionTable i)

/-- `p` is a whole page of one of the regions of `s`. -/
def InRegion (s : PmmState) (p : Nat) : Prop :=
  ∃ i < s.regionCount, (s.regionTable i).start ≤ p ∧ (p : Int) + 4096 ≤ (s.regionTable i).stop

/-- What a run promises of the state `s` reached from `s₀`: the next page handed out is fresh,
    aligned and inside an initial region, the counters are exact, and 0 means exhaustion. -/
structure PmmSound (s₀ s : PmmState) : Prop where
  page : (pmmAllocPage s).1 ≠ 0 → (pmmAllocPage s).1 % 4096 = 0 ∧
    InRegion s₀ (pmmAllocPage s).1 ∧ (pmmAllocPage s).1 ∉ outstanding s.history
  free : s.freePages = pagesFree s
  total : (outstanding s.history).card + s.freePages = s.totalPages
  exhausted : (pmmAllocPage s).1 = 0 ↔ pagesFree s = 0

theorem card_freePool (s : PmmState) : (freePool s).card = pagesFree s := by
  unfold freePool recycled remaining pagesFree
  rw [Multiset.card_add, Multiset.card_sum]
  simp

theorem PmmInv.step {P : Pool} {s t : PmmState} (h : PmmInv P s) (hst : PmmStep s t) :
    PmmInv P t := by
  cases hst with
  | alloc =>
    rcases pmmAllocPage_spec h with ⟨-, he⟩ | ⟨p, t, he, -, -, -, -, ht⟩
    · rw [he]; exact h
    · rw [he]; exact ht
  | free hp ht => exact ((pmmFreePage_spec h hp).of_ok ht).2.2

theorem PmmInv.run {P : Pool} {s t : PmmState} (h : PmmInv P s)
    (hr : Relation.ReflTransGen PmmStep s t) : PmmInv P t := by
  induction hr with
  | refl => exact h
  | tail _ hst ih => exact ih.step hst

/-- The invariant over a pool inside the initial regions gives `PmmSound`. -/
theorem PmmInv.sound {P : Pool} {s₀ s : PmmState} (h : PmmInv P s)
    (hin : ∀ p ∈ P.pages, InRegion s₀ p) : PmmSound s₀ s := by
  have hfree : s.freePages = pagesFree s := by rw [h.free, card_freePool]
  refine ⟨?_, hfree, ?_, ?_⟩
  · intro hne
    rcases pmmAllocPage_spec h with ⟨-, he⟩ | ⟨p, t, he, -, hpool, -, -, -⟩
    · rw [he] at hne; exact absurd rfl hne
    · have hp := h.of_free (p := p) (hpool ▸ Multiset.mem_cons_self _ _)
      rw [he]
      exact ⟨P.aligned p hp.1, hin p hp.1, hp.2⟩
  · have := congrArg Multiset.card h.partition
    rw [Multiset.card_add] at this
    rw [h.total, h.free, ← this]
    push_cast
    rfl
  · rcases pmmAllocPage_spec h with ⟨h0, he⟩ | ⟨p, t, he, hpos, hpool, -, -, -⟩
    · rw [he]
      refine iff_of_true rfl ?_
      omega
    · have hp := h.of_free (p := p) (hpool ▸ Multiset.mem_cons_self _ _)
      have := P.low p hp.1
      rw [he]
      refine iff_of_false ?_ ?_
      · dsimp only; omega
      · omega

/-- Pages of the table are inside the regions recorded. -/
theorem Built.inRegion {rs : List Region} {s : PmmState} (hb : Built rs s) (h : RegionsOk rs) :
    ∀ p ∈ (regionPool rs h).pages, InRegion s p := by
  intro p hp
  obtain ⟨r, hr, hpr⟩ := mem_sum_regionPages.mp hp
  obtain ⟨i, hi, rfl⟩ := List.getElem_of_mem hr
  have hbounds := mem_regionPages_bounds (hb.ok _ hr) hpr
  refine ⟨i, by rw [hb.count]; exact hi, ?_⟩
  rw [hb.table i hi]
  exact hbounds.2

/-- One usable entry, the 256 pages of the second MiB, and a kernel image below it. -/
def smallMap : BootInfo where
  mmap := [⟨0x100000, 0x100000, 7⟩]
  kernelPhysStart := 0
  kernelPhysEnd := 0

theorem smallMap_loader : LoaderMap smallMap where
  disjoint := List.pairwise_singleton _ _
  range := by intro e he _; rw [List.mem_singleton.mp he]; decide
  kernel_le := by decide
  kernel_range := by decide
  aligned := by intro e he _; rw [List.mem_singleton.mp he]; decide
  kernel_up := by decide

theorem initPmm_smallMap : ∃ s, initPmm smallMap = .ok s ∧ s.freePages = 256 := ⟨_, rfl, rfl⟩

end PcoOs.Pmm
