/-
  The page-table code of `kmemory.py`: building the kernel root and the task roots, splitting a
  2 MiB page, mapping, unmapping and protecting 4 KiB pages, translating an address, freeing a
  task root. Virtual addresses are Codon's signed `int`; table entries are unsigned words.

  Page tables and frames are addressed in physical memory here. The code's accessors take the same
  addresses through the root that is loaded, so the model is the code only where the pages it
  touches map to themselves there. `TablesDirect` is this condition for the page tables; a run of
  the kernel meets it for every page the allocator returns under `AllDirect` (`identity_access`).

  Reloading `cr3` with the value it holds flushes the TLB and is left out; `cr3` changes at
  `load_cr3` of another root only.
-/
import PcoOs.Pmm.Model
import PcoOs.Support.Region

namespace PcoOs.Vmm

open PcoOs.Lib PcoOs.Pmm PcoOs.Support

/-- Physical memory, the page allocator and the active root. -/
structure Phys where
  pmm : PmmState
  mem : Mem
  cr3 : Nat

/-- The slots of the vmm state that code reads: 1, 2, 3, 4 and 7 (0, 5 and 6 are only
    printed). -/
structure VmmState where
  rootP4 : Nat
  p3 : Nat
  p2Count : Nat
  limit : Int
  active : Nat
  deriving DecidableEq, Repr

/-! ## Table accessors -/

def pageTableQword (m : Mem) (table slot : Nat) : Except String Nat :=
  loadQwordRegion m table 512 slot

def setPageTableQword (m : Mem) (table slot value : Nat) : Except String Mem :=
  storeQwordRegion m table 512 slot value

/-- The loop `while slot < 512: set_page_table_qword(table, slot, f(slot))`. -/
def fillPageTable (table : Nat) (f : Nat → Nat) (m : Mem) : Except String Mem :=
  loop (fun slot m => setPageTableQword m table slot (f slot)) 0 512 m

def zeroPage (page : Nat) (m : Mem) : Except String Mem := fillPageTable page (fun _ => 0) m

def pml4Index (a : Int) : Nat := ((a >>> (39 : Nat)) % 512).toNat
def pdptIndex (a : Int) : Nat := ((a >>> (30 : Nat)) % 512).toNat
def pdIndex (a : Int) : Nat := ((a >>> (21 : Nat)) % 512).toNat
def ptIndex (a : Int) : Nat := ((a >>> (12 : Nat)) % 512).toNat

/-! ## Building a root -/

/-- The entry of a page directory that maps 2 MiB at their own address. -/
def identityEntry (tableIndex entryIndex : Nat) : Nat :=
  ((tableIndex * 512 + entryIndex) <<< 21) ||| 0x083

/-- One iteration of the directory loop of `init_vmm` and `vmm_create_task_address_space`. -/
def addIdentityP2 (allocFailed : String) (p3 tableIndex : Nat) (ph : Phys) :
    Except String Phys := do
  let (p2, pmm) := pmmAllocPage ph.pmm
  if p2 = 0 then .error allocFailed
  else do
    let m ← zeroPage p2 ph.mem
    let m ← setPageTableQword m p3 tableIndex (p2 ||| 0x003)
    let m ← fillPageTable p2 (identityEntry tableIndex) m
    .ok { ph with pmm := pmm, mem := m }

/-- The body `init_vmm` and `vmm_create_task_address_space` share: a root that maps the first
    `p2Count` GiB at their own addresses. Returns the root, its `p3` and the new state. -/
def buildIdentityRoot (rootFailed p2Failed : String) (p2Count : Nat) (ph : Phys) :
    Except String (Nat × Nat × Phys) := do
  let (p4, pmm) := pmmAllocPage ph.pmm
  let (p3, pmm) := pmmAllocPage pmm
  if p4 = 0 ∨ p3 = 0 then .error rootFailed
  else do
    let m ← zeroPage p4 ph.mem
    let m ← zeroPage p3 m
    let m ← setPageTableQword m p4 0 (p3 ||| 0x003)
    let ph ← loop (addIdentityP2 p2Failed p3) 0 p2Count { ph with pmm := pmm, mem := m }
    .ok (p4, p3, ph)

def vmmCreateTaskAddressSpace (v : VmmState) (ph : Phys) : Except String (Nat × Phys) := do
  let (p4, _, ph) ← buildIdentityRoot "vmm task root alloc failed" "vmm task p2 alloc failed"
    v.p2Count ph
  .ok (p4, ph)

/-- `boot_info_qword(boot_info_ptr, 0)` is `magic`. -/
def initVmm (magic : Nat) (ph : Phys) : Except String (VmmState × Phys) := do
  let (p4, p3, ph) ← buildIdentityRoot "vmm bootstrap alloc failed" "vmm p2 alloc failed" 4 ph
  if magic ≠ 0x50434F424F4F5431 then .error "vmm lost boot info mapping"
  else .ok (⟨p4, p3, 4, 4 * 512 * 0x200000, 1⟩, { ph with cr3 := p4 })

/-! ## Walking a root -/

def vmmP3Ptr (v : VmmState) : Nat := v.p3

def vmmRootP3Ptr (m : Mem) (root : Nat) : Except String Nat := do
  let e ← pageTableQword m root 0
  if e &&& 1 = 0 then .error "vmm root missing p3" else .ok (alignDown e 4096)

/-- `vmm_supports_addr` and `vmm_root_supports_addr`, which differ in where `limit` is read. -/
def vmmSupportsAddr (limit virt : Int) : Bool := pml4Index virt = 0 ∧ virt < limit

/-- The directory below `p3`, 0 when it is missing. -/
def p2Below (m : Mem) (p3 : Nat) (virt : Int) : Except String Nat := do
  let e ← pageTableQword m p3 (pdptIndex virt)
  if e &&& 1 = 0 then .ok 0 else .ok (alignDown e 4096)

def vmmP2Ptr (v : VmmState) (m : Mem) (virt : Int) : Except String Nat :=
  p2Below m (vmmP3Ptr v) virt

def vmmRootP2Ptr (m : Mem) (root : Nat) (virt : Int) : Except String Nat := do
  let p3 ← vmmRootP3Ptr m root
  p2Below m p3 virt

/-- The body of `vmm_translate`, `vmm_translate_root` and `vmm_page_flags`: find the leaf entry
    of `virt` and return `large entry` for a 2 MiB leaf, `small entry` for a 4 KiB leaf, 0 when
    there is none. -/
def withLeaf (large small : Nat → Nat) (limit : Int) (p2Ptr : Except String Nat) (m : Mem)
    (virt : Int) : Except String Nat :=
  if ¬ vmmSupportsAddr limit virt then .ok 0
  else do
    let p2 ← p2Ptr
    if p2 = 0 then .ok 0
    else do
      let e ← pageTableQword m p2 (pdIndex virt)
      if e &&& 1 = 0 then .ok 0
      else if e &&& 0x80 ≠ 0 then .ok (large e)
      else do
        let pte ← pageTableQword m (alignDown e 4096) (ptIndex virt)
        if pte &&& 1 = 0 then .ok 0 else .ok (small pte)

def largeTarget (virt : Int) (e : Nat) : Nat :=
  alignDown e 0x200000 + (virt % 0x200000).toNat

def smallTarget (virt : Int) (pte : Nat) : Nat := alignDown pte 4096 + (virt % 0x1000).toNat

def vmmTranslate (v : VmmState) (m : Mem) (virt : Int) : Except String Nat :=
  withLeaf (largeTarget virt) (smallTarget virt) v.limit (vmmP2Ptr v m virt) m virt

def vmmTranslateRoot (v : VmmState) (m : Mem) (root : Nat) (virt : Int) : Except String Nat :=
  withLeaf (largeTarget virt) (smallTarget virt) v.limit (vmmRootP2Ptr m root virt) m virt

def vmmPageFlags (v : VmmState) (m : Mem) (virt : Int) : Except String Nat :=
  withLeaf (· &&& 0xFFF) (· &&& 0xFFF) v.limit (vmmP2Ptr v m virt) m virt

/-! ## Splitting a 2 MiB page -/

/-- The body of `vmm_split_large_page` and `vmm_root_split_large_page`, with their messages and
    their way to the directory. Returns the page table that covers `virt`. -/
def splitLargePage (outside missing allocFailed : String) (limit : Int)
    (p2Ptr : Except String Nat) (ph : Phys) (virt : Int) : Except String (Nat × Phys) :=
  if ¬ vmmSupportsAddr limit virt then .error outside
  else do
    let p2 ← p2Ptr
    let e ← pageTableQword ph.mem p2 (pdIndex virt)
    if e &&& 1 = 0 then .error missing
    else if e &&& 0x80 = 0 then .ok (alignDown e 4096, ph)
    else do
      let (pt, pmm) := pmmAllocPage ph.pmm
      if pt = 0 then .error allocFailed
      else do
        let m ← zeroPage pt ph.mem
        let m ← fillPageTable pt (fun i => (alignDown e 0x200000 + (i <<< 12)) ||| 0x003) m
        let m ← setPageTableQword m p2 (pdIndex virt) (pt ||| 0x003)
        .ok (pt, { ph with pmm := pmm, mem := m })

def vmmSplitLargePage (v : VmmState) (ph : Phys) (virt : Int) : Except String (Nat × Phys) :=
  splitLargePage "vmm address outside bootstrap range" "vmm missing p2 entry"
    "vmm split alloc failed" v.limit (vmmP2Ptr v ph.mem virt) ph virt

def vmmRootSplitLargePage (root : Nat) (limit : Int) (ph : Phys) (virt : Int) :
    Except String (Nat × Phys) :=
  splitLargePage "vmm root address outside bootstrap range" "vmm root missing p2 entry"
    "vmm root split alloc failed" limit (vmmRootP2Ptr ph.mem root virt) ph virt

/-! ## Mapping, unmapping, protecting -/

def vmmMapPage (v : VmmState) (ph : Phys) (virt : Int) (phys flags : Nat) :
    Except String Phys :=
  if virt % 0x1000 ≠ 0 ∨ phys &&& 0xFFF ≠ 0 then .error "vmm map requires 4k alignment"
  else do
    let (pt, ph) ← vmmSplitLargePage v ph virt
    let old ← pageTableQword ph.mem pt (ptIndex virt)
    if old ≠ 0 then .error "vmm map over present entry"
    else do
      let m ← setPageTableQword ph.mem pt (ptIndex virt) (phys ||| (flags &&& 0xFFF) ||| 0x001)
      .ok { ph with mem := m }

/-- `set_page_table_qword(table, slot, page_table_qword(table, slot) | 0x004)`. -/
def setUserBit (m : Mem) (table slot : Nat) : Except String Mem := do
  let e ← pageTableQword m table slot
  setPageTableQword m table slot (e ||| 0x004)

/-- The user bit on the three upper levels of the path of `virt`. -/
def setUserPath (m : Mem) (root : Nat) (virt : Int) : Except String Mem := do
  let p3 ← vmmRootP3Ptr m root
  let p2 ← vmmRootP2Ptr m root virt
  let m ← setUserBit m root 0
  let m ← setUserBit m p3 (pdptIndex virt)
  setUserBit m p2 (pdIndex virt)

/-- A user mapping opens the upper levels of its path. -/
def openUserPath (flags : Nat) (m : Mem) (root : Nat) (virt : Int) : Except String Mem :=
  if flags &&& 0x004 ≠ 0 then setUserPath m root virt else .ok m

def vmmMapPageRoot (v : VmmState) (root : Nat) (ph : Phys) (virt : Int) (phys flags : Nat) :
    Except String Phys :=
  if virt % 0x1000 ≠ 0 ∨ phys &&& 0xFFF ≠ 0 then .error "vmm root map requires 4k alignment"
  else do
    let (pt, ph) ← vmmRootSplitLargePage root v.limit ph virt
    let m ← openUserPath flags ph.mem root virt
    let old ← pageTableQword m pt (ptIndex virt)
    if old ≠ 0 then .error "vmm root map over present entry"
    else do
      let m ← setPageTableQword m pt (ptIndex virt) (phys ||| (flags &&& 0xFFF) ||| 0x001)
      .ok { ph with mem := m }

/-- The body of `vmm_unmap_page` and `vmm_unmap_page_root`. -/
def unmapPage (unaligned missing : String) (split : Except String (Nat × Phys)) (virt : Int) :
    Except String Phys :=
  if virt % 0x1000 ≠ 0 then .error unaligned
  else do
    let (pt, ph) ← split
    let old ← pageTableQword ph.mem pt (ptIndex virt)
    if old = 0 then .error missing
    else do
      let m ← setPageTableQword ph.mem pt (ptIndex virt) 0
      .ok { ph with mem := m }

def vmmUnmapPageRoot (v : VmmState) (root : Nat) (ph : Phys) (virt : Int) :
    Except String Phys :=
  unmapPage "vmm root unmap requires 4k alignment" "vmm root unmap missing entry"
    (vmmRootSplitLargePage root v.limit ph virt) virt

def vmmUnmapPage (v : VmmState) (ph : Phys) (virt : Int) : Except String Phys :=
  unmapPage "vmm unmap requires 4k alignment" "vmm unmap missing entry"
    (vmmSplitLargePage v ph virt) virt

def vmmProtectPage (v : VmmState) (ph : Phys) (virt : Int) (flags : Nat) :
    Except String Phys :=
  if virt % 0x1000 ≠ 0 then .error "vmm protect requires 4k alignment"
  else do
    let (pt, ph) ← vmmSplitLargePage v ph virt
    let pte ← pageTableQword ph.mem pt (ptIndex virt)
    if pte = 0 then .error "vmm protect missing entry"
    else do
      let m ← setPageTableQword ph.mem pt (ptIndex virt)
        (alignDown pte 4096 ||| (flags &&& 0xFFF) ||| 0x001)
      .ok { ph with mem := m }

/-! ## Freeing a task root -/

/-- The inner loop body of `vmm_free_cloned_address_space`: free the page table of one
    directory entry. -/
def freePtOf (m : Mem) (p2 entryIndex : Nat) (s : PmmState) : Except String PmmState := do
  let e ← pageTableQword m p2 entryIndex
  if e &&& 1 ≠ 0 ∧ e &&& 0x80 = 0 then pmmFreePage s (alignDown e 4096) else .ok s

/-- The outer loop body: one directory and its page tables. -/
def freeP2Of (m : Mem) (p3 tableIndex : Nat) (s : PmmState) : Except String PmmState := do
  let e ← pageTableQword m p3 tableIndex
  if e &&& 1 ≠ 0 then do
    let s ← loop (freePtOf m (alignDown e 4096)) 0 512 s
    pmmFreePage s (alignDown e 4096)
  else .ok s

def vmmFreeClonedAddressSpace (v : VmmState) (ph : Phys) (root : Nat) : Except String Phys := do
  let p3 ← vmmRootP3Ptr ph.mem root
  let s ← loop (freeP2Of ph.mem p3) 0 v.p2Count ph.pmm
  let s ← pmmFreePage s p3
  let s ← pmmFreePage s root
  .ok { ph with pmm := s }

/-! ## The boot-time self-tests -/

def pmmSelfTest (s : PmmState) : Except String PmmState := do
  let (page0, t) := pmmAllocPage s
  let (page1, t) := pmmAllocPage t
  let (page2, t) := pmmAllocPage t
  if page0 = 0 ∨ page1 = 0 ∨ page2 = 0 then .error "pmm alloc failed"
  else if page0 = page1 ∨ page0 = page2 ∨ page1 = page2 then
    .error "pmm returned duplicate pages"
  else if page0 &&& 0xFFF ≠ 0 ∨ page1 &&& 0xFFF ≠ 0 ∨ page2 &&& 0xFFF ≠ 0 then
    .error "pmm returned unaligned page"
  else do
    let t ← pmmFreePage t page2
    let t ← pmmFreePage t page1
    let t ← pmmFreePage t page0
    if t.freePages ≠ s.freePages then .error "pmm free count mismatch" else .ok t

/-- A read-back check of the self-test: panic unless `x` returns `want`. -/
def expectQword (msg : String) (x : Except String Nat) (want : Nat) : Except String Unit := do
  let got ← x
  if got ≠ want then .error msg else .ok ()

def vmmSelfTest (magic : Nat) (v : VmmState) (ph : Phys) : Except String Phys := do
  let testVirt : Int := 0x18000000
  if v.active ≠ 1 then .error "vmm not marked active"
  else if ph.cr3 ≠ v.rootP4 then .error "vmm active cr3 mismatch"
  else if magic ≠ 0x50434F424F4F5431 then .error "vmm boot info self-test failed"
  else do
    expectQword "vmm identity translation mismatch" (vmmTranslate v ph.mem testVirt) 0x18000000
    let (scratch, pmm) := pmmAllocPage ph.pmm
    if scratch = 0 then .error "vmm self-test scratch alloc failed"
    else do
      let ph ← vmmUnmapPage v { ph with pmm := pmm } testVirt
      expectQword "vmm unmap failed" (vmmTranslate v ph.mem testVirt) 0
      let ph ← vmmMapPage v ph testVirt scratch 0x003
      expectQword "vmm remap failed" (vmmTranslate v ph.mem testVirt) scratch
      let ph ← vmmProtectPage v ph testVirt 0x001
      let flags ← vmmPageFlags v ph.mem testVirt
      if flags &&& 0x002 ≠ 0 then .error "vmm protect failed"
      else do
        let ph ← vmmProtectPage v ph testVirt 0x003
        let ph ← vmmUnmapPage v ph testVirt
        let ph ← vmmMapPage v ph testVirt 0x18000000 0x003
        expectQword "vmm identity restore failed" (vmmTranslate v ph.mem testVirt) 0x18000000
        let pmm ← pmmFreePage ph.pmm scratch
        .ok { ph with pmm := pmm }

end PcoOs.Vmm
