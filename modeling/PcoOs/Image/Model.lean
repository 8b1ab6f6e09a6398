/-
  Loading a user image (`ksched.py`: `scheduler_prepare_user_image_pages` to
  `scheduler_install_user_image`): pages are allocated and zeroed, segments copied in, the initial
  stack built in the last page, and the pages mapped into the user window of a root.

  The page array, the page flags and the pointer arrays of the stack builder live in the early
  heap and are written once, before anybody else can see them; they are lists here, and their
  allocations only move the heap pointer.
-/
import PcoOs.Elf.Model
import PcoOs.Support.Heap
import PcoOs.Vmm.Model

namespace PcoOs.Image

open PcoOs.Lib PcoOs.Pmm PcoOs.Support PcoOs.Vmm PcoOs.Elf

def userTaskRegionBase : Int := 0x20000000
def userPageSize : Int := 4096
def maxUserMappedPages : Int := 69
def userTaskHeapPages : Int := 4

def userTaskPageVirt (pageIndex : Int) : Int := userTaskRegionBase + pageIndex * userPageSize

def userTaskStackBaseVirt (pageCount : Int) : Int := userTaskPageVirt (pageCount - 1)

def schedulerUserPageFlagsDefault : Nat := 0x005
def schedulerUserPageFlagsWritable : Nat := 0x007

/-- Strings for a new program: at most 8 of at most 63 bytes, none of them NUL. This is what
    `syscall_copy_user_exec_vector` and its kernel sibling return. -/
structure ExecVec where
  strings : List (List UInt8)
  count : strings.length ≤ 8
  short : ∀ s ∈ strings, s.length ≤ 63
  nonNul : ∀ s ∈ strings, ∀ b ∈ s, b ≠ 0

/-- No strings. -/
def ExecVec.nil : ExecVec := ⟨[], by simp, by simp, by simp⟩

/-! ## Pages and segments -/

/-- `user_page_array_qword(page_array_ptr, page_count, slot)`. -/
def userPageArrayQword (pages : List Nat) (slot : Int) : Except String Nat :=
  if slot < 0 ∨ slot ≥ pages.length then .error "qword slot out of range"
  else .ok (pages.getD slot.toNat 0)

/-- `scheduler_set_page_flags(page_flags_ptr, image_page_count, page_index, value)`. -/
def schedulerSetPageFlags (flags : List Nat) (pageIndex : Int) (value : Nat) :
    Except String (List Nat) :=
  if pageIndex < 0 ∨ pageIndex ≥ flags.length then .error "qword slot out of range"
  else .ok (flags.set pageIndex.toNat value)

/-- Allocate and zero `n` pages. -/
def allocUserPages : Nat → Phys → Except String (List Nat × Phys)
  | 0, ph => .ok ([], ph)
  | n + 1, ph => do
    let (phys, pmm) := pmmAllocPage ph.pmm
    if phys = 0 then .error "scheduler user image alloc failed"
    else do
      let m ← zeroPage phys ph.mem
      let (pages, ph) ← allocUserPages n { ph with pmm := pmm, mem := m }
      .ok (phys :: pages, ph)

/-- Mark the pages of a writable segment, `n` of them from `page`. -/
def markWritable (page : Int) (n : Nat) (flags : List Nat) : Except String (List Nat) :=
  loop (fun i flags => schedulerSetPageFlags flags (page + i) schedulerUserPageFlagsWritable)
    0 n flags

/-- The flags after a segment: its pages are marked when it has `PF_W`. -/
def segmentPageFlags (segFlags page pageEnd : Int) (flags : List Nat) :
    Except String (List Nat) :=
  if segFlags.toNat &&& elfPfW.toNat ≠ 0 then markWritable page (pageEnd - page).toNat flags
  else .ok flags

/-- Byte `copied` of a segment goes to its page. -/
def copySegmentByte (img : Image) (pages : List Nat) (vaddr offset : Int) (copied : Nat)
    (m : Mem) : Except String Mem := do
  let phys ← userPageArrayQword pages (wrap (vaddr + copied) >>> (12 : Nat))
  let b ← imageByte img (wrap (offset + copied))
  storeByteRegion m phys userPageSize (wrap (vaddr + copied) % userPageSize) (UInt8.ofNat b)

/-- The body of the loop over load segments: page flags, then the file bytes. -/
def loadUserSegment (img : Image) (pages : List Nat) (loadIndex : Nat) (st : List Nat × Mem) :
    Except String (List Nat × Mem) := do
  let offset ← elfUserSegmentOffset img loadIndex
  let vaddr ← elfUserSegmentVaddr img loadIndex
  let filesz ← elfUserSegmentFilesz img loadIndex
  let memsz ← elfUserSegmentMemsz img loadIndex
  let segFlags ← elfUserSegmentFlags img loadIndex
  let flags ← segmentPageFlags segFlags (vaddr >>> (12 : Nat))
    (alignDownI (wrap (vaddr + memsz + userPageSize - 1)) userPageSize >>> (12 : Nat)) st.1
  let m ← loop (copySegmentByte img pages vaddr offset) 0 filesz.toNat st.2
  .ok (flags, m)

/-- Returns the page array, the page flags (one less: the stack page has none) and the state. -/
def schedulerPrepareUserImagePages (img : Image) (ph : Phys) (heap : Heap) :
    Except String (List Nat × List Nat × Phys × Heap) := do
  let filePageCount ← elfUserImagePageCount img
  let imagePageCount := filePageCount + userTaskHeapPages
  let pageCount := imagePageCount + 1
  let (_, heap) ← allocBytes heap (pageCount * 8)
  let (_, heap) ← allocBytes heap (imagePageCount * 8)
  if pageCount ≤ 1 ∨ pageCount > maxUserMappedPages then
    .error "user image page count invalid"
  else do
    let flags := List.replicate filePageCount.toNat schedulerUserPageFlagsDefault ++
      List.replicate userTaskHeapPages.toNat schedulerUserPageFlagsWritable
    let (pages, ph) ← allocUserPages pageCount.toNat ph
    let n ← elfUserLoadSegmentCount img
    let (flags, m) ← loop (loadUserSegment img pages) 0 n (flags, ph.mem)
    .ok (pages, flags, { ph with mem := m }, heap)

/-! ## The initial stack -/

/-- `scheduler_copy_stack_string`: returns the offset of the copy. -/
def schedulerCopyStackString (stackPhys : Nat) (stackTopOff : Int) (str : List UInt8) (m : Mem) :
    Except String (Int × Mem) := do
  let off := stackTopOff - (str.length + 1)
  let m ← loop (fun i m => storeByteRegion m stackPhys userPageSize (off + i) (str.getD i 0))
    0 str.length m
  let m ← storeByteRegion m stackPhys userPageSize (off + str.length) 0
  .ok (off, m)

/-- The loops that copy the strings of a vector, the last string first. Returns the user
    addresses of the strings in order. -/
def pushStrings (stackPhys : Nat) (stackBase : Int) :
    List (List UInt8) → Int → Mem → Except String (List Int × Int × Mem)
  | [], off, m => .ok ([], off, m)
  | s :: rest, off, m => do
    let (ptrs, off, m) ← pushStrings stackPhys stackBase rest off m
    let (off, m) ← schedulerCopyStackString stackPhys off s m
    .ok ((stackBase + off) :: ptrs, off, m)

/-- Write the pointers and the terminating 0 at `base`. -/
def storePointers (base : Nat) (ptrs : List Int) (m : Mem) : Except String Mem := do
  let count : Int := ptrs.length + 1
  let m ← loop (fun i m => storeQwordRegion m base count i (addr (ptrs.getD i 0)))
    0 ptrs.length m
  storeQwordRegion m base count ptrs.length 0

/-- An array of `n` pointers, when there is anything to put in it. -/
def allocPointers (n : Nat) (heap : Heap) : Except String Heap := do
  if n > 0 then do
    let (_, heap) ← allocBytes heap (n * 8)
    .ok heap
  else .ok heap

/-- The four registers a new program starts with. -/
structure UserStart where
  rsp : Int
  argc : Nat
  argvPtr : Int
  envpPtr : Int
  deriving Repr

def schedulerBuildUserInitialStack (pages : List Nat) (argv envp : ExecVec) (ph : Phys)
    (heap : Heap) : Except String (UserStart × Phys × Heap) := do
  let pageCount : Int := pages.length
  let stackPhys ← userPageArrayQword pages (pageCount - 1)
  let stackBase := userTaskStackBaseVirt pageCount
  let heap ← allocPointers argv.strings.length heap
  let heap ← allocPointers envp.strings.length heap
  let (envPtrs, off, m) ← pushStrings stackPhys stackBase envp.strings userPageSize ph.mem
  let (argPtrs, off, m) ← pushStrings stackPhys stackBase argv.strings off m
  let envOff := alignDownI off 16 - (envp.strings.length + 1) * 8
  let m ← storePointers (addr (stackPhys + envOff)) envPtrs m
  let argOff := envOff - (argv.strings.length + 1) * 8
  let m ← storePointers (addr (stackPhys + argOff)) argPtrs m
  let argcOff := argOff - 8
  let m ← storeQwordRegion m (addr (stackPhys + argcOff)) 1 0 argv.strings.length
  .ok (⟨stackBase + argcOff, argv.strings.length, stackBase + argOff, stackBase + envOff⟩,
    { ph with mem := m }, heap)

/-! ## Mapping and releasing -/

/-- A page that is already mapped is unmapped first. -/
def unmapIfMapped (v : VmmState) (root : Nat) (virt : Int) (ph : Phys) : Except String Phys := do
  let t ← vmmTranslateRoot v ph.mem root virt
  if t ≠ 0 then vmmUnmapPageRoot v root ph virt else .ok ph

/-- Map the pages with their flags at consecutive addresses from page `index` of the window. -/
def mapUserPages (v : VmmState) (root : Nat) :
    Nat → List (Nat × Nat) → Phys → Except String Phys
  | _, [], ph => .ok ph
  | index, (phys, flags) :: rest, ph => do
    let ph ← unmapIfMapped v root (userTaskPageVirt index) ph
    let ph ← vmmMapPageRoot v root ph (userTaskPageVirt index) phys flags
    mapUserPages v root (index + 1) rest ph

/-- The image and heap pages with their flags, then the stack page, which is writable. -/
def schedulerMapUserImagePages (v : VmmState) (root : Nat) (pages flags : List Nat)
    (ph : Phys) : Except String Phys :=
  mapUserPages v root 0 (pages.zip (flags ++ [schedulerUserPageFlagsWritable])) ph

def schedulerUnmapUserImagePages (v : VmmState) (root : Nat) (userBase : Int) (pageCount : Nat)
    (ph : Phys) : Except String Phys :=
  loop (fun i ph => vmmUnmapPageRoot v root ph (userBase + i * userPageSize)) 0 pageCount ph

def schedulerReleaseUserPages : List Nat → PmmState → Except String PmmState
  | [], s => .ok s
  | phys :: rest, s => do
    let s ← if phys ≠ 0 then pmmFreePage s phys else .ok s
    schedulerReleaseUserPages rest s

/-- What `scheduler_install_user_image` returns; `exec` computes the same values itself. -/
structure UserImage where
  pages : List Nat
  pageCount : Nat
  rip : Int
  limit : Int
  start : UserStart
  heapBase : Int
  heapLimit : Int
  heapBreak : Int
  deriving Repr

/-- The values derived from the image once its pages stand. -/
def describeUserImage (img : Image) (pages : List Nat) (start : UserStart) :
    Except String UserImage := do
  let filePageCount ← elfUserImagePageCount img
  let entry ← elfUserEntryOffset img
  let heapBase := userTaskRegionBase + filePageCount * userPageSize
  .ok ⟨pages, pages.length, userTaskRegionBase + entry,
    userTaskRegionBase + pages.length * userPageSize, start, heapBase,
    userTaskStackBaseVirt pages.length, heapBase⟩

def schedulerInstallUserImage (v : VmmState) (root : Nat) (img : Image) (argv envp : ExecVec)
    (ph : Phys) (heap : Heap) : Except String (UserImage × Phys × Heap) := do
  let (pages, flags, ph, heap) ← schedulerPrepareUserImagePages img ph heap
  let (start, ph, heap) ← schedulerBuildUserInitialStack pages argv envp ph heap
  let ph ← schedulerMapUserImagePages v root pages flags ph
  let image ← describeUserImage img pages start
  .ok (image, ph, heap)

/-- The old pages of a task leave its root and go back to the allocator. -/
def dropUserImage (v : VmmState) (root : Nat) (userBase : Int) (pages : List Nat)
    (pageCount : Nat) (ph : Phys) : Except String Phys := do
  if pages ≠ [] ∧ pageCount > 0 then do
    let ph ← schedulerUnmapUserImagePages v root userBase pageCount ph
    let pmm ← schedulerReleaseUserPages pages ph.pmm
    .ok { ph with pmm := pmm }
  else .ok ph

/-- The memory part of `scheduler_exec_current_task`: the new image is prepared before the old
    one is given up. -/
def replaceUserImage (v : VmmState) (root : Nat) (userBase : Int) (oldPages : List Nat)
    (oldPageCount : Nat) (img : Image) (argv envp : ExecVec) (ph : Phys) (heap : Heap) :
    Except String (UserImage × Phys × Heap) := do
  let (pages, flags, ph, heap) ← schedulerPrepareUserImagePages img ph heap
  let (start, ph, heap) ← schedulerBuildUserInitialStack pages argv envp ph heap
  let ph ← dropUserImage v root userBase oldPages oldPageCount ph
  let ph ← schedulerMapUserImagePages v root pages flags ph
  let image ← describeUserImage img pages start
  .ok (image, ph, heap)

end PcoOs.Image
