/-
  The initramfs: `build_image` of `build-initramfs.py`, which writes it, and `init_vfs`, which
  reads it from the memory the loader put it in. Names and data are aligned to 64 bytes; the
  entry table is filled in at the end.
-/
import PcoOs.Pmm.Model
import PcoOs.Vfs.Model

namespace PcoOs.Vfs

open PcoOs.Lib PcoOs.Support PcoOs.Pmm

def initramfsMagic : Nat := 0x31534652494F4350
def initramfsVersion : Nat := 1

/-! ## Writing -/

/-- `struct.pack("<QQQQ", ...)`. -/
def packWords (ws : List Nat) : Bytes := ws.flatMap wordBytes

/-- Zeros up to `n` bytes. -/
def padTo (blob : Bytes) (n : Nat) : Bytes :=
  if n > blob.length then blob ++ List.replicate (n - blob.length) 0 else blob

def alignUp64 (n : Nat) : Nat := alignDown (n + 63) 64

/-- The loop over the entries: the blob with names and data, and the packed table entries. -/
def addEntries : List (Bytes × Bytes) → Bytes → Nat → Bytes × List Bytes
  | [], blob, _ => (blob, [])
  | (name, data) :: rest, blob, cursor =>
    let nameOff := alignUp64 cursor
    let blob := padTo blob nameOff ++ name
    let dataOff := alignUp64 (nameOff + name.length)
    let blob := padTo blob dataOff ++ data
    let (blob, packed) := addEntries rest blob (dataOff + data.length)
    (blob, packWords [nameOff, name.length, dataOff, data.length] :: packed)

/-- `blob[start:start + len(bytes)] = bytes`. -/
def patch (blob : Bytes) (start : Nat) (bytes : Bytes) : Bytes :=
  blob.take start ++ bytes ++ blob.drop (start + bytes.length)

/-- The loop that fills in the table, from entry `i` on. -/
def patchTable : Nat → List Bytes → Bytes → Bytes
  | _, [], blob => blob
  | i, packed :: rest, blob => patchTable (i + 1) rest (patch blob (32 + i * 32) packed)

def buildImage (entries : List (Bytes × Bytes)) : Bytes :=
  let blob := packWords [initramfsMagic, initramfsVersion, entries.length, 0] ++
    List.replicate (entries.length * 32) 0
  let (blob, packed) := addEntries entries blob (32 + entries.length * 32)
  patchTable 0 packed blob

/-! ## Reading -/

def vfsRawQword (m : Mem) (ptr : Int) : Except String Int := do
  let w ← loadQwordRegion m (addr ptr) 1 0
  .ok (wrap w)

/-- What `init_vfs` reads of an entry: the bytes it copies, and the lengths, which are signed. -/
structure Entry where
  name : Bytes
  nameLen : Int
  data : Bytes
  dataLen : Int
  deriving DecidableEq, Repr

/-- The entry of a name and its data. -/
def Entry.of (e : Bytes × Bytes) : Entry := ⟨e.1, e.1.length, e.2, e.2.length⟩

/-- The checks of entry `index`, and the entry. -/
def readEntry (m : Mem) (ptr size : Int) (index : Nat) : Except String Entry := do
  let entryPtr := ptr + 32 + index * 32
  let nameOff ← vfsRawQword m entryPtr
  let nameLen ← vfsRawQword m (entryPtr + 8)
  let dataOff ← vfsRawQword m (entryPtr + 16)
  let dataLen ← vfsRawQword m (entryPtr + 24)
  if wrap (nameOff + nameLen) > size then .error "initramfs name range invalid"
  else if wrap (dataOff + dataLen) > size then .error "initramfs data range invalid"
  else .ok ⟨loadBytes m (addr (ptr + nameOff)) nameLen.toNat, nameLen,
    loadBytes m (addr (ptr + dataOff)) dataLen.toNat, dataLen⟩

/-- The two `vfs_copy_initramfs_slice` of an entry, and its node. A negative length copies nothing
    and moves the heap pointer back; the names of this model do not see what is stored over them
    then (`LengthsOk`), in contrast to those of `initVfsRaw`. -/
def placeEntry (e : Entry) (v : VfsState) (heap : Heap) : Except String (VfsState × Heap) := do
  let (_, heap) ← allocBytes heap (wrap (e.nameLen + 1))
  let (dst, heap) ← allocBytes heap e.dataLen
  .ok ({ v with
    nodes := v.nodes ++ [⟨e.name, dst, e.data.length, .file, 0, e.data.length⟩]
    mem := storeBytes v.mem dst e.data }, heap)

def initramfsEntry (m : Mem) (ptr size : Int) (index : Nat) (st : VfsState × Heap) :
    Except String (VfsState × Heap) := do
  let e ← readEntry m ptr size index
  placeEntry e st.1 st.2

/-- No entry that the header announces has a negative length. `init_vfs` does not check it. -/
def LengthsOk (m : Mem) (ptr size : Int) : Prop :=
  ptr = 0 ∨ size = 0 ∨ ∀ count, vfsRawQword m (ptr + 16) = .ok count → ∀ i : Nat,
    i < count.toNat → ∀ len, vfsRawQword m (ptr + 32 + i * 32 + 8) = .ok len ∨
      vfsRawQword m (ptr + 32 + i * 32 + 24) = .ok len → 0 ≤ len

/-- `/tmp` -/
def tmpName : Bytes := [47, 116, 109, 112]

def tmpNode : Node := ⟨tmpName, 0, 0, .directory, nodeFlagWritable, 0⟩

/-- No nodes, all descriptors closed, and a heap no file was written to. -/
def emptyVfs : VfsState := ⟨[], fun _ => closedDesc, fun _ => 0⟩

/-- `init_vfs`: `ptr` and `size` are slots 21 and 22 of the boot information. -/
def initVfs (m : Mem) (ptr size : Int) (heap : Heap) : Except String (VfsState × Heap) := do
  let (_, heap) ← allocBytes heap (6 * 8)
  let (_, heap) ← allocBytes heap (maxVfsNodes * 7 * 8)
  let (_, heap) ← allocBytes heap (maxVfsDescriptors * 6 * 8)
  if ptr = 0 ∨ size = 0 then .ok (emptyVfs, heap)
  else if size < 32 then .error "initramfs too small"
  else do
    let magic ← vfsRawQword m ptr
    if magic ≠ initramfsMagic then .error "initramfs magic mismatch"
    else do
      let version ← vfsRawQword m (ptr + 8)
      if version ≠ initramfsVersion then .error "initramfs version mismatch"
      else do
        let nodeCount ← vfsRawQword m (ptr + 16)
        if nodeCount > maxVfsNodes then .error "initramfs node count too large"
        else do
          let (v, heap) ← loop (initramfsEntry m ptr size) 0 nodeCount.toNat (emptyVfs, heap)
          let (_, heap) ← allocBytes heap 5
          if nodeCount ≥ maxVfsNodes then .error "vfs node table full"
          else if nodeCount < 0 then .error "vfs node id out of range"
          else .ok ({ v with nodes := v.nodes ++ [tmpNode] }, heap)

end PcoOs.Vfs
