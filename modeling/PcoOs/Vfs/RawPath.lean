/-
  `vfs_normalize_path` over all of memory: the path, the fresh block and the early heap are one
  memory. Recorded are the indices stored to in the block, the ones the backward scan looks at and
  the two cursors each time one of them moves. With a block apart from the path it returns what
  `vfsNormalizePath` does (`vfsNormalizePathRaw_mirrors`).
-/
import PcoOs.Lib.Program
import PcoOs.Pmm.Model
import PcoOs.Support.Heap

namespace PcoOs.Vfs

open PcoOs.Lib PcoOs.Lib.Prog PcoOs.Support PcoOs.Pmm

/-- `heap.mem` is all of memory. A load of the backward scan is recorded with whether its index was
    stored to before, the cursors as `(out_len, src_index)`. -/
structure PathState where
  heap : Heap
  stores : List Int
  scans : List (Int × Bool)
  cursors : List (Int × Int)

abbrev PathProg (α : Type) := Prog PathState String α

/-- The text of a loop that is not done after its rounds. -/
def diverged : String := "loop does not end"

def allocPath (size : Int) : PathProg Int := fun s => do
  let (p, heap) ← allocBytes s.heap size
  .ok ((p : Int), { s with heap := heap })

/-- `load_byte_region(path_ptr, path_len, i)` -/
def loadPathByte (pathPtr pathLen i : Int) : PathProg UInt8 := fun s => do
  checkByteRegion (addr pathPtr) pathLen i
  .ok (s.heap.mem (addr (pathPtr + i)), s)

def loadSourceByte (ptr : Int) : PathProg UInt8 := gets fun s => s.heap.mem (addr ptr)

def storeOut (outPtr i : Int) (b : UInt8) : PathProg Unit :=
  update fun s => { s with
    heap := { s.heap with mem := storeByte s.heap.mem (addr (outPtr + i)) b }
    stores := i :: s.stores }

def loadOut (outPtr i : Int) : PathProg UInt8 := fun s =>
  .ok (s.heap.mem (addr (outPtr + i)), { s with scans := (i, decide (i ∈ s.stores)) :: s.scans })

/-- One of the cursors moved. -/
def moved (outLen srcIndex : Int) : PathProg Unit :=
  update fun s => { s with cursors := (outLen, srcIndex) :: s.cursors }

/-- `src_index += 1` as long as it is inside the path and its byte is one of `p`, for `n` rounds. -/
def scanPath (pathPtr pathLen outLen : Int) (p : UInt8 → Bool) : Nat → Int → PathProg Int
  | 0, i => if i < pathLen then stop diverged else pure i
  | n + 1, i =>
    if i < pathLen then do
      let b ← loadPathByte pathPtr pathLen i
      if p b then do
        moved outLen (i + 1)
        scanPath pathPtr pathLen outLen p n (i + 1)
      else pure i
    else pure i

/-- `while out_len > 1 and load_byte(out_ptr + out_len - 1) != 47: out_len -= 1`. -/
def scanOut (outPtr srcIndex : Int) : Nat → Int → PathProg Int
  | 0, outLen => if outLen > 1 then stop diverged else pure outLen
  | n + 1, outLen =>
    if outLen > 1 then do
      let b ← loadOut outPtr (outLen - 1)
      if b ≠ 47 then do
        moved (outLen - 1) srcIndex
        scanOut outPtr srcIndex n (outLen - 1)
      else pure outLen
    else pure outLen

/-- The tests for `.` and `..`, which load from the component only if it has the length. -/
def isDot (pathPtr pathLen start len : Int) : PathProg Bool :=
  if len = 1 then do
    let b ← loadPathByte pathPtr pathLen start
    pure (b = 46)
  else pure false

def isDotDot (pathPtr pathLen start len : Int) : PathProg Bool :=
  if len = 2 then do
    let b ← loadPathByte pathPtr pathLen start
    if b = 46 then do
      let b ← loadPathByte pathPtr pathLen (start + 1)
      pure (b = 46)
    else pure false
  else pure false

/-- The branch for `..`. -/
def popComponent (outPtr outLen srcIndex : Int) : PathProg Int :=
  if outLen > 1 then do
    moved (outLen - 1) srcIndex
    scanOut outPtr srcIndex (outLen - 1).toNat (outLen - 1)
  else pure outLen

/-- The separator, unless the component is the first one. -/
def appendSlash (outPtr outLen srcIndex : Int) : PathProg Int :=
  if outLen > 1 then do
    storeOut outPtr outLen 47
    moved (outLen + 1) srcIndex
    pure (outLen + 1)
  else pure outLen

def appendComponent (pathPtr outPtr outLen srcIndex start len : Int) : PathProg Int := do
  let outLen ← appendSlash outPtr outLen srcIndex
  times (fun i => do
    let b ← loadSourceByte (pathPtr + start + i)
    storeOut outPtr (outLen + i) b
    moved (outLen + i + 1) srcIndex) 0 len.toNat
  pure (outLen + len)

/-- The body of the outer loop. It ends with `src_index` at the end of the path where the source
    breaks. -/
def normalizeRound (pathPtr pathLen outPtr outLen srcIndex : Int) : PathProg (Int × Int) := do
  let start ← scanPath pathPtr pathLen outLen (· = 47) (pathLen - srcIndex).toNat srcIndex
  if start ≥ pathLen then pure (outLen, start)
  else do
    let srcIndex ← scanPath pathPtr pathLen outLen (· ≠ 47) (pathLen - start).toNat start
    let dot ← isDot pathPtr pathLen start (srcIndex - start)
    if dot then pure (outLen, srcIndex)
    else do
      let dotDot ← isDotDot pathPtr pathLen start (srcIndex - start)
      if dotDot then do
        let outLen ← popComponent outPtr outLen srcIndex
        pure (outLen, srcIndex)
      else do
        let outLen ← appendComponent pathPtr outPtr outLen srcIndex start (srcIndex - start)
        pure (outLen, srcIndex)

/-- The outer loop, for `n` rounds. -/
def normalizeRounds (pathPtr pathLen outPtr : Int) : Nat → Int → Int → PathProg Int
  | 0, outLen, srcIndex => if srcIndex < pathLen then stop diverged else pure outLen
  | n + 1, outLen, srcIndex =>
    if srcIndex < pathLen then do
      let r ← normalizeRound pathPtr pathLen outPtr outLen srcIndex
      normalizeRounds pathPtr pathLen outPtr n r.1 r.2
    else pure outLen

/-- The branch for an empty output. -/
def rootIfEmpty (outPtr outLen : Int) : PathProg Int :=
  if outLen = 0 then do
    storeOut outPtr 0 47
    pure 1
  else pure outLen

/-- `vfs_normalize_path`: the block and the length, or twice 0. -/
def vfsNormalizePathRaw (pathPtr pathLen : Int) : PathProg (Int × Int) :=
  if pathPtr = 0 ∨ pathLen ≤ 0 then pure (0, 0)
  else do
    let first ← loadPathByte pathPtr pathLen 0
    if first ≠ 47 then pure (0, 0)
    else do
      let outPtr ← allocPath (wrap (pathLen + 2))
      storeOut outPtr 0 47
      moved 1 1
      let outLen ← normalizeRounds pathPtr pathLen outPtr pathLen.toNat 1 1
      let outLen ← rootIfEmpty outPtr outLen
      storeOut outPtr outLen 0
      pure (outPtr, outLen)

/-- What was recorded stays inside the block and between the cursors' bounds. -/
structure NormalizeSafe (pathLen : Int) (s : PathState) : Prop where
  cursors : ∀ c ∈ s.cursors, 1 ≤ c.1 ∧ c.1 ≤ c.2 ∧ c.2 ≤ pathLen
  stores : ∀ i ∈ s.stores, 0 ≤ i ∧ i ≤ pathLen
  scans : ∀ r ∈ s.scans, 0 ≤ r.1 ∧ r.2 = true

/-- The fresh block does not start inside the path, behind its first byte. -/
def BlockApart (h : Heap) (pathPtr pathLen : Int) : Prop :=
  addr (h.ptr - pathPtr) = 0 ∨ pathLen ≤ addr (h.ptr - pathPtr)

end PcoOs.Vfs
