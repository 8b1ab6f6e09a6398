/-
  The calls of `kvfs.py` over all of memory, on the file system that `initVfsRaw` leaves there.
  Names, data, paths and tables are bytes of one memory, and every block comes from the one heap,
  so what happens after a heap pointer has moved back is followed through later calls. `rawNode`
  reads a row of the node table back.
-/
import PcoOs.Vfs.RawInit
import PcoOs.Vfs.RawPath

namespace PcoOs.Vfs

open PcoOs.Lib PcoOs.Lib.Prog PcoOs.Support PcoOs.Pmm

/-! ## Accessors -/

def vfsNodeQword (state nodeId slot : Int) : Raw Int := do
  let entry ← vfsNodeEntryPtr state nodeId
  loadQwordRaw entry 7 slot

def vfsDescQword (state descId slot : Int) : Raw Int := do
  let entry ← vfsDescEntryPtr state descId
  loadQwordRaw entry 6 slot

/-- `load_byte_region`. -/
def loadRegionRaw (base count i : Int) : Raw UInt8 := fun s => do
  checkByteRegion (addr base) count i
  .ok (s.heap.mem (addr (base + i)), s)

/-- `load_byte` of anything but the image. -/
def loadDataRaw (ptr : Int) : Raw UInt8 := gets fun s => s.heap.mem (addr ptr)

/-- The result of the first of the rounds `i, i + 1, …`, `n` of them, that has one. -/
def firstSome {α : Type} (body : Nat → Raw (Option α)) : Nat → Nat → Raw (Option α)
  | _, 0 => pure none
  | i, n + 1 => do
    let r ← body i
    if r.isSome then pure r else firstSome body (i + 1) n

/-- `some a` if the test holds. -/
def whenRaw {α : Type} (test : Raw Bool) (a : α) : Raw (Option α) := do
  let b ← test
  pure (if b then some a else none)

/-! ## Paths -/

/-- One of the bytes `i, i + 1, …`, `n` of them, is different. -/
def bytesDiffer (aPtr aLen bPtr bLen : Int) (n : Nat) : Raw Bool := do
  let r ← firstSome (fun i => do
    let a ← loadRegionRaw aPtr aLen i
    let b ← loadRegionRaw bPtr bLen i
    pure (if a ≠ b then some () else none)) 0 n
  pure r.isSome

def vfsPathEquals (namePtr nameLen pathPtr pathLen : Int) : Raw Bool :=
  if nameLen ≠ pathLen then pure false
  else do
    let differ ← bytesDiffer namePtr nameLen pathPtr pathLen nameLen.toNat
    pure (!differ)

def vfsPathHasPrefix (namePtr nameLen prePtr preLen : Int) : Raw Bool :=
  if preLen > nameLen then pure false
  else do
    let differ ← bytesDiffer namePtr nameLen prePtr preLen preLen.toNat
    pure (!differ)

/-- `vfs_normalize_path` in this memory. -/
def normalizeRaw (pathPtr pathLen : Int) : Raw (Int × Int) := fun s => do
  let (r, t) ← vfsNormalizePathRaw pathPtr pathLen ⟨s.heap, [], [], []⟩
  .ok (r, { s with heap := t.heap })

/-- `while index > 0 and load_byte_region(...) != 47: index -= 1`. -/
def lastSlash (pathPtr pathLen : Int) : Nat → Raw Nat
  | 0 => pure 0
  | index + 1 => do
    let b ← loadRegionRaw pathPtr pathLen (index + 1)
    if b ≠ 47 then lastSlash pathPtr pathLen index else pure (index + 1)

def vfsPathParentRaw (pathPtr pathLen : Int) : Raw (Int × Int) :=
  if pathLen ≤ 1 then pure (0, 0)
  else do
    let index ← lastSlash pathPtr pathLen (pathLen - 1).toNat
    if index = 0 then do
      let parentPtr ← allocRaw 2
      storeByteRaw (parentPtr + 0) 47
      storeByteRaw (parentPtr + 1) 0
      pure (parentPtr, 1)
    else do
      let parentPtr ← allocRaw (index + 1)
      times (fun i => do
        let b ← loadRegionRaw pathPtr pathLen i
        storeByteRaw (parentPtr + i) b) 0 index
      storeByteRaw (parentPtr + index) 0
      pure (parentPtr, index)

/-! ## Nodes and directories -/

/-- The id of the node, or -1. -/
def vfsLookupPathRaw (state pathPtr pathLen : Int) : Raw Int := do
  let nodeCount ← vfsStateQword state 3
  let r ← firstSome (fun nodeId => do
    let namePtr ← vfsNodeQword state nodeId 0
    let nameLen ← vfsNodeQword state nodeId 1
    whenRaw (vfsPathEquals namePtr nameLen pathPtr pathLen) (nodeId : Int)) 0 nodeCount.toNat
  pure (r.getD (-1))

def vfsNodeMatchesDirectoryRaw (state nodeId dirPtr dirLen : Int) : Raw Bool := do
  let namePtr ← vfsNodeQword state nodeId 0
  let nameLen ← vfsNodeQword state nodeId 1
  if dirLen = 1 then
    if nameLen > 1 then do
      let b ← loadRegionRaw namePtr nameLen 0
      pure (b = 47)
    else pure false
  else if nameLen ≤ dirLen then pure false
  else do
    let below ← vfsPathHasPrefix namePtr nameLen dirPtr dirLen
    if below then do
      let b ← loadRegionRaw namePtr nameLen dirLen
      pure (b = 47)
    else pure false

def vfsDirectoryExistsRaw (state dirPtr dirLen : Int) : Raw Bool := do
  let nodeCount ← vfsStateQword state 3
  let root ← if dirLen = 1 then do
      let b ← loadRegionRaw dirPtr dirLen 0
      pure (decide (b = 47))
    else pure false
  if root then pure true
  else do
    let r ← firstSome (fun nodeId => do
      let kind ← vfsNodeQword state nodeId 4
      let same ← if kind = 2 then do
          let namePtr ← vfsNodeQword state nodeId 0
          let nameLen ← vfsNodeQword state nodeId 1
          vfsPathEquals namePtr nameLen dirPtr dirLen
        else pure false
      if same then pure (some ())
      else whenRaw (vfsNodeMatchesDirectoryRaw state nodeId dirPtr dirLen) ()) 0 nodeCount.toNat
    pure r.isSome

def vfsCreateTmpfsFileRaw (state pathPtr pathLen : Int) : Raw Int := do
  let parent ← vfsPathParentRaw pathPtr pathLen
  if parent.1 = 0 ∨ parent.2 ≤ 0 then pure (-1)
  else do
    let parentId ← vfsLookupPathRaw state parent.1 parent.2
    if parentId < 0 then pure (-1)
    else do
      let kind ← vfsNodeQword state parentId 4
      if kind ≠ 2 then pure (-1)
      else do
        let flags ← vfsNodeQword state parentId 5
        if addr flags &&& 1 = 0 then pure (-1)
        else do
          let nodeId ← vfsReserveNode state
          vfsSetNodeNameData state nodeId pathPtr pathLen 0 0
          vfsSetNodeMeta state nodeId 1 1 0
          pure nodeId

def vfsGrowNodeDataRaw (state nodeId minCapacity : Int) : Raw Int := do
  let dataPtr ← vfsNodeQword state nodeId 2
  let dataLen ← vfsNodeQword state nodeId 3
  let dataCapacity ← vfsNodeQword state nodeId 6
  if minCapacity ≤ dataCapacity then pure dataPtr
  else do
    let c := if minCapacity < 64 then 64 else minCapacity
    let c := if dataCapacity ≠ 0 ∧ c < wrap (dataCapacity * 2) then wrap (dataCapacity * 2) else c
    let newPtr ← allocRaw c
    times (fun copied => do
      let b ← loadDataRaw (dataPtr + copied)
      storeByteRaw (newPtr + copied) b) 0 dataLen.toNat
    setVfsNodeQword state nodeId 2 newPtr
    setVfsNodeQword state nodeId 6 c
    pure newPtr

/-- Where the component below the directory lies, `(0, 0)` when there is none. -/
def vfsDirectoryChildComponentRaw (state nodeId dirPtr dirLen : Int) : Raw (Int × Int) := do
  let namePtr ← vfsNodeQword state nodeId 0
  let nameLen ← vfsNodeQword state nodeId 1
  let below ← vfsNodeMatchesDirectoryRaw state nodeId dirPtr dirLen
  if !below then pure (0, 0)
  else do
    let start := if dirLen = 1 then 1 else dirLen + 1
    let r ← firstSome (fun i => do
      let b ← loadRegionRaw namePtr nameLen (start + i)
      pure (if b = 47 then some (i : Int) else none)) 0 (nameLen - start).toNat
    pure (namePtr + start, r.getD (nameLen - start))

def vfsDirectoryChildSeenBeforeRaw (state dirPtr dirLen nodeId childPtr childLen : Int) :
    Raw Bool := do
  let r ← firstSome (fun scan => do
    let other ← vfsDirectoryChildComponentRaw state scan dirPtr dirLen
    if other.2 = childLen ∧ other.2 ≠ 0 then
      whenRaw (vfsPathEquals other.1 other.2 childPtr childLen) ()
    else pure none) 0 nodeId.toNat
  pure r.isSome

/-! ## Descriptors -/

/-- The id, or 0 when no descriptor is free. -/
def vfsAllocDescriptorRaw (state kind flags nodeId offset : Int) : Raw Int := do
  let capacity ← vfsStateQword state 5
  let r ← firstSome (fun descId => do
    let k ← vfsDescQword state descId 0
    pure (if k = 0 then some (descId : Int) else none)) 1 capacity.toNat
  let descId := r.getD 0
  if descId = 0 then pure 0
  else do
    setVfsDescQword state descId 0 kind
    setVfsDescQword state descId 1 flags
    setVfsDescQword state descId 2 nodeId
    setVfsDescQword state descId 3 offset
    setVfsDescQword state descId 4 0
    setVfsDescQword state descId 5 0
    pure descId

def vfsAllocDirectoryDescriptorRaw (state pathPtr pathLen offset : Int) : Raw Int := do
  let descId ← vfsAllocDescriptorRaw state 4 0 0 offset
  if descId ≠ 0 then do
    setVfsDescQword state descId 4 pathPtr
    setVfsDescQword state descId 5 pathLen
    pure descId
  else pure descId

/-- `vfs_open_path`: the descriptor, 0 when the path cannot be opened. -/
def vfsOpenPathRaw (state pathPtr pathLen flags : Int) : Raw Int :=
  if flags < 0 ∨ flags > 3 then pure 0
  else if pathPtr = 0 ∨ pathLen ≤ 0 then pure 0
  else do
    let n ← normalizeRaw pathPtr pathLen
    if n.1 = 0 ∨ n.2 ≤ 0 then pure 0
    else do
      let root ← if n.2 = 1 then do
          let b ← loadRegionRaw n.1 n.2 0
          pure (decide (b = 47))
        else pure false
      if root then vfsAllocDirectoryDescriptorRaw state n.1 n.2 0
      else do
        let nodeId ← vfsLookupPathRaw state n.1 n.2
        if nodeId < 0 then do
          let nodeId ← if addr flags &&& 1 ≠ 0 then vfsCreateTmpfsFileRaw state n.1 n.2
            else pure nodeId
          if nodeId ≥ 0 then vfsAllocDescriptorRaw state 3 flags nodeId 0
          else do
            let dir ← vfsDirectoryExistsRaw state n.1 n.2
            if dir then vfsAllocDirectoryDescriptorRaw state n.1 n.2 0 else pure 0
        else do
          let kind ← vfsNodeQword state nodeId 4
          if kind = 2 then vfsAllocDirectoryDescriptorRaw state n.1 n.2 0
          else do
            let nodeFlags ← vfsNodeQword state nodeId 5
            if addr flags &&& 2 ≠ 0 ∧ addr nodeFlags &&& 1 ≠ 0 then
              setVfsNodeQword state nodeId 3 0
            else pure ()
            vfsAllocDescriptorRaw state 3 flags nodeId 0

/-- `vfs_write_descriptor`; what the console shows is not part of the state. -/
def vfsWriteDescriptorRaw (state descId ptr length : Int) : Raw Int :=
  if descId ≤ 0 then pure (-1)
  else if length < 0 then pure (-1)
  else do
    let kind ← vfsDescQword state descId 0
    if kind = 2 then pure (if ptr = 0 then 0 else length)
    else if kind ≠ 3 then pure (-1)
    else do
      let nodeId ← vfsDescQword state descId 2
      let flags ← vfsNodeQword state nodeId 5
      if addr flags &&& 1 = 0 then pure (-1)
      else do
        let offset ← vfsDescQword state descId 3
        if wrap (offset + length) < offset then pure (-1)
        else do
          let dataPtr ← vfsGrowNodeDataRaw state nodeId (wrap (offset + length))
          times (fun copied => do
            let b ← loadDataRaw (ptr + copied)
            storeByteRaw (dataPtr + offset + copied) b) 0 length.toNat
          let dataLen ← vfsNodeQword state nodeId 3
          if wrap (offset + length) > dataLen then
            setVfsNodeQword state nodeId 3 (wrap (offset + length))
          else pure ()
          setVfsDescQword state descId 3 (wrap (offset + length))
          pure length

/-- `vfs_readdir_descriptor`. -/
def vfsReaddirDescriptorRaw (state descId dstPtr length : Int) : Raw Int :=
  if descId ≤ 0 then pure (-1)
  else if length < 0 then pure (-1)
  else if dstPtr = 0 ∧ length ≠ 0 then pure (-1)
  else do
    let kind ← vfsDescQword state descId 0
    if kind ≠ 4 then pure (-1)
    else do
      let index ← vfsDescQword state descId 3
      let dirPtr ← vfsDescQword state descId 4
      let dirLen ← vfsDescQword state descId 5
      let nodeCount ← vfsStateQword state 3
      let r ← firstSome (fun i => do
        let child ← vfsDirectoryChildComponentRaw state (index + i) dirPtr dirLen
        if child.2 = 0 then pure none
        else do
          let seen ← vfsDirectoryChildSeenBeforeRaw state dirPtr dirLen (index + i) child.1 child.2
          if seen then pure none
          else do
            let count := min length child.2
            times (fun copied => do
              let b ← loadDataRaw (child.1 + copied)
              storeByteRaw (dstPtr + copied) b) 0 count.toNat
            setVfsDescQword state descId 3 (index + i + 1)
            pure (some count)) 0 (nodeCount - index).toNat
      pure (r.getD 0)

/-! ## Reading the tables back -/

/-- A word of memory, as a signed value. -/
def rawWord (m : Mem) (a : Nat) : Int := wrap (loadQword m a)

/-- A row of the node table. -/
structure RawNode where
  name : Bytes
  data : Bytes
  kind : Int
  flags : Int
  deriving DecidableEq, Repr

def rawNode (m : Mem) (state : Int) (nodeId : Nat) : RawNode :=
  let entry := loadQword m (addr state + 16) + nodeId * 56
  { name := loadBytes m (loadQword m entry) (rawWord m (entry + 8)).toNat
    data := loadBytes m (loadQword m (entry + 16)) (rawWord m (entry + 24)).toNat
    kind := rawWord m (entry + 32)
    flags := rawWord m (entry + 40) }

/-- The rows in use. -/
def rawNodes (m : Mem) (state : Int) : List RawNode :=
  (List.range (rawWord m (addr state + 24)).toNat).map (rawNode m state)

/-! ## An image with a negative length -/

/-- The words of an image with the file `/a`, which has `dataLen` zeros, and a second entry, whose
    data have the length `-back`. -/
def negativeWords (dataLen nameLen name back : Nat) : List Nat :=
  [initramfsMagic, initramfsVersion, 2, 0, 96, 2, 112, dataLen, 104, nameLen, 112, 2 ^ 64 - back,
    0x612f, name]

/-- These words at 0x800000, and the path `/tmp/x` and a 9 at 0x900000. -/
def negativeMem (words : List Nat) : Mem :=
  storeBytes (fun a => UInt8.ofNat (words.getD ((a - 0x800000) / 8) 0 / 256 ^ ((a - 0x800000) % 8)))
    0x900000 [47, 116, 109, 112, 47, 120, 9]

def negativeStart (words : List Nat) : RawState :=
  ⟨⟨0x100000, 0x200000, negativeMem words⟩, [], []⟩

theorem imagePlaced_negative (words : List Nat) {size : Int} (h : size ≤ 256) :
    ImagePlaced (negativeStart words).heap 0x800000 size where
  heap := ⟨show 0 < 0x100000 by decide, show 0x100000 % 16 = 0 by decide,
    show 0x100000 ≤ 0x200000 by decide, show 0x200000 < 2 ^ 63 by decide⟩
  low := by decide
  high := by omega
  apart := Or.inr (show (0x200000 : Int) ≤ 0x800000 by decide)

/-- Read the next name of the directory of `d` into a buffer apart from everything else. -/
def nextName (state d : Int) : Raw Bytes := do
  let count ← vfsReaddirDescriptorRaw state d 0x910000 64
  gets fun s => loadBytes s.heap.mem 0x910000 count.toNat

/-- The root is read, `/tmp/x` made after two names, and the root read again. Returned are the two
    names, the last result and the names of the nodes then. -/
def listRaw : Raw (List Bytes × Int × List Bytes) := do
  let state ← initVfsRaw 0x800000 144
  let d ← vfsOpenPathRaw state 0x900000 1 0
  let a ← nextName state d
  let b ← nextName state d
  let _ ← vfsOpenPathRaw state 0x900000 6 1
  let last ← vfsReaddirDescriptorRaw state d 0x910000 64
  let nodes ← gets fun s => (rawNodes s.heap.mem state).map RawNode.name
  pure ([a, b], last, nodes)

/-- A byte is written to the new file `/tmp/x`. Returned are the id of its node and the data of
    node 0 before and after. -/
def writeRaw : Raw (Int × Bytes × Bytes) := do
  let state ← initVfsRaw 0x800000 240
  let d ← vfsOpenPathRaw state 0x900000 6 3
  let nodeId ← vfsDescQword state d 2
  let before ← gets fun s => (rawNode s.heap.mem state 0).data
  let _ ← vfsWriteDescriptorRaw state d 0x900006 1
  let after ← gets fun s => (rawNode s.heap.mem state 0).data
  pure (nodeId, before, after)

end PcoOs.Vfs
