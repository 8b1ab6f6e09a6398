/-
  The physical page allocator (`kmemory.py`: `pmm_add_region`, `init_pmm`, `pmm_alloc_page`,
  `pmm_free_page`). Addresses of the firmware map are Codon's signed 64-bit `int`, so `init_pmm`
  computes with `wrap`; a page is named by its unsigned address.

  State slots of the source: 0 and 1 are `regionTable`/`regionCount`, 2 is `regionIndex`, 3 and 4
  are `recycleStack`/`recycleCount`, 5 is `totalPages`, 6 is `freePages`. `history` is a history
  variable: it records the pages handed out and taken back and no function reads it.
-/
import PcoOs.Lib.Word
import PcoOs.Lib.Ledger

namespace PcoOs.Pmm

open PcoOs.Lib

/-- One entry of the region table, `[start, stop)`. -/
structure Region where
  start : Int
  stop : Int
  deriving DecidableEq, Repr

/-- One descriptor of the boot memory map (the attribute word is not read). -/
structure MmapEntry where
  base : Int
  length : Int
  entryType : Int
  deriving DecidableEq, Repr

/-- The boot-info fields `init_pmm` reads. -/
structure BootInfo where
  mmap : List MmapEntry
  kernelPhysStart : Int
  kernelPhysEnd : Int
  deriving Repr

structure PmmState where
  regionTable : Nat → Region
  regionCount : Nat
  regionIndex : Nat
  recycleStack : Nat → Nat
  recycleCount : Nat
  totalPages : Int
  freePages : Int
  history : List (LedgerEvent Nat)

/-- The unsigned address of a signed 64-bit value. -/
def addr (x : Int) : Nat := (x % 2 ^ 64).toNat

theorem addr_of_nonneg {x : Int} (h : 0 ≤ x) (h' : x < 2 ^ 63) : addr x = x.toNat := by
  unfold addr; omega

theorem addr_lt (x : Int) : addr x < 2 ^ 64 := by
  unfold addr; omega

theorem wrap_addr (x : Int) : wrap (addr x) = wrap x := by
  unfold wrap addr; omega

/-! ## Building the region table -/

def pmmAddRegion (s : PmmState) (start stop : Int) : Except String PmmState :=
  if start ≥ stop then .ok s
  else
    let pages := wrap (stop - start) >>> (12 : Nat)
    if pages = 0 then .ok s
    else if s.regionCount ≥ 64 then .error "pmm region table full"
    else .ok { s with
      regionTable := Function.update s.regionTable s.regionCount ⟨start, stop⟩
      regionCount := s.regionCount + 1
      totalPages := wrap (s.totalPages + pages)
      freePages := wrap (s.freePages + pages) }

/-- `start` of an entry after `align_up` and the clip at 1 MiB. -/
def entryStart (e : MmapEntry) : Int :=
  if alignUpI e.base 4096 < 0x100000 then 0x100000 else alignUpI e.base 4096

/-- `end` of an entry: `align_down(base + length, 4096)`. -/
def entryStop (e : MmapEntry) : Int := alignDownI (wrap (e.base + e.length)) 4096

/-- The last statement of the loop body: add what is left of the entry. -/
def pmmAddRest (s : PmmState) (start stop : Int) : Except String PmmState :=
  if start < stop then pmmAddRegion s start stop else .ok s

/-- The body of `init_pmm`'s loop over the memory map. -/
def initPmmEntry (kernelStart kernelEnd : Int) (s : PmmState) (e : MmapEntry) :
    Except String PmmState :=
  if e.entryType = 7 ∧ e.length ≠ 0 ∧ entryStop e > 0x100000 then
    if entryStart e < kernelStart ∧ entryStop e > kernelStart then do
      let s ← pmmAddRegion s (entryStart e) kernelStart
      pmmAddRest s kernelEnd (entryStop e)
    else if entryStart e ≥ kernelStart ∧ entryStart e < kernelEnd then
      pmmAddRest s kernelEnd (entryStop e)
    else pmmAddRest s (entryStart e) (entryStop e)
  else .ok s

def emptyPmm : PmmState where
  regionTable := fun _ => ⟨0, 0⟩
  regionCount := 0
  regionIndex := 0
  recycleStack := fun _ => 0
  recycleCount := 0
  totalPages := 0
  freePages := 0
  history := []

def initPmm (b : BootInfo) : Except String PmmState := do
  let kernelStart := alignDownI b.kernelPhysStart 4096
  let kernelEnd := alignUpI b.kernelPhysEnd 4096
  if b.mmap.length = 0 then .error "pmm requires a boot memory map"
  else do
    let s ← b.mmap.foldlM (initPmmEntry kernelStart kernelEnd) emptyPmm
    if s.regionCount = 0 then .error "pmm found no usable regions" else .ok s

/-! ## Allocating and freeing -/

/-- Hand out the first page of the current region; the cursor moves on when it was the last. -/
def pmmBump (s : PmmState) : PmmState :=
  let r := s.regionTable s.regionIndex
  let nextPage := wrap (r.start + 4096)
  { s with
    regionTable := Function.update s.regionTable s.regionIndex ⟨nextPage, r.stop⟩
    regionIndex := if nextPage ≥ r.stop then s.regionIndex + 1 else s.regionIndex
    freePages := s.freePages - 1
    history := .give (addr r.start) :: s.history }

/-- The bump path of `pmm_alloc_page`: the `while` loop over the regions left, whose number is
    the first argument. Exhausted regions are skipped and the cursor moves with them. -/
def pmmScanRegions : Nat → PmmState → Nat × PmmState
  | 0, s => (0, s)
  | n + 1, s =>
    if wrap ((s.regionTable s.regionIndex).start + 4096) ≤ (s.regionTable s.regionIndex).stop then
      (addr (s.regionTable s.regionIndex).start, pmmBump s)
    else pmmScanRegions n { s with regionIndex := s.regionIndex + 1 }

/-- Returns the page and the new state; the page is 0 when none is left. -/
def pmmAllocPage (s : PmmState) : Nat × PmmState :=
  if s.freePages = 0 then (0, s)
  else if s.recycleCount ≠ 0 then
    let page := s.recycleStack (s.recycleCount - 1)
    (page,
      { s with
        recycleCount := s.recycleCount - 1
        freePages := s.freePages - 1
        history := .give page :: s.history })
  else pmmScanRegions (s.regionCount - s.regionIndex) s

def pmmFreePage (s : PmmState) (page : Nat) : Except String PmmState :=
  if page = 0 then .error "cannot free null page"
  else if page &&& 0xFFF ≠ 0 then .error "cannot free unaligned page"
  else if s.recycleCount ≥ 2048 then .error "pmm recycle stack full"
  else .ok { s with
    recycleStack := Function.update s.recycleStack s.recycleCount page
    recycleCount := s.recycleCount + 1
    freePages := s.freePages + 1
    history := .take page :: s.history }

end PcoOs.Pmm
