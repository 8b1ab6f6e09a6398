/-
  The descriptor table and the flat node table of `kvfs.py`. Paths and names are byte lists, and
  the blocks the source allocates for them only move the heap pointer; the contents of files lie
  in buffers of the early heap, which nodes point to. `read`, `readdir` and `stat` return the
  bytes they store at the caller's pointer, from its first byte on; the caller puts them into
  memory.
-/
import PcoOs.Support.Heap

namespace PcoOs.Vfs

open PcoOs.Lib PcoOs.Support

abbrev Bytes := List UInt8

instance lawfulBEq_bytes : LawfulBEq Bytes := inferInstance

def slash : UInt8 := 47
def dot : UInt8 := 46

inductive NodeKind where
  | file
  | directory
  deriving DecidableEq, Repr

/-- `vfs_node_kind_file` and `vfs_node_kind_directory`. -/
def NodeKind.code : NodeKind → Nat
  | .file => 1
  | .directory => 2

def nodeFlagWritable : Nat := 1

/-- A node. Its buffer has `dataCapacity` bytes, of which the first `dataLen` are the file. -/
structure Node where
  name : Bytes
  dataPtr : Nat
  dataLen : Nat
  kind : NodeKind
  flags : Nat
  dataCapacity : Nat
  deriving DecidableEq, Repr

inductive DescKind where
  | closed
  | consoleIn
  | consoleOut
  | initramfsFile
  | directory
  deriving DecidableEq, Repr

structure Desc where
  kind : DescKind
  flags : Int
  nodeId : Nat
  offset : Nat
  path : Bytes
  deriving DecidableEq, Repr

/-- A descriptor with all slots zero. -/
def closedDesc : Desc := ⟨.closed, 0, 0, 0, []⟩

def maxVfsNodes : Nat := 32
def maxVfsDescriptors : Nat := 32

/-- The nodes in use, the descriptors, whose ids start at 1, and the bytes of the file buffers.
    Buffers are blocks of the early heap that nothing else is stored in. -/
structure VfsState where
  nodes : List Node
  desc : Nat → Desc
  mem : Mem

/-! ## Table accessors -/

def vfsDesc (v : VfsState) (descId : Nat) : Except String Desc :=
  if descId = 0 ∨ descId > maxVfsDescriptors then .error "vfs desc id out of range"
  else .ok (v.desc descId)

def setVfsDesc (v : VfsState) (descId : Nat) (d : Desc) : VfsState :=
  { v with desc := Function.update v.desc descId d }

/-- `vfs_node_qword`; slots beyond the nodes in use are zero. -/
def vfsNode (v : VfsState) (nodeId : Nat) : Except String Node :=
  if nodeId ≥ maxVfsNodes then .error "vfs node id out of range"
  else .ok (v.nodes.getD nodeId ⟨[], 0, 0, .file, 0, 0⟩)

def setVfsNode (v : VfsState) (nodeId : Nat) (n : Node) : VfsState :=
  { v with nodes := v.nodes.set nodeId n }

/-! ## Descriptors -/

/-- The first closed descriptor of the ids `descId, descId + 1, …`, `n` of them. -/
def findClosed (v : VfsState) : Nat → Nat → Nat
  | _, 0 => 0
  | descId, n + 1 => if (v.desc descId).kind = .closed then descId else findClosed v (descId + 1) n

/-- The id is 0 when no descriptor is free. -/
def vfsAllocDescriptor (v : VfsState) (d : Desc) : Nat × VfsState :=
  let descId := findClosed v 1 maxVfsDescriptors
  if descId = 0 then (0, v) else (descId, setVfsDesc v descId d)

def vfsAllocConsoleInDescriptor (v : VfsState) : Nat × VfsState :=
  vfsAllocDescriptor v ⟨.consoleIn, 0, 0, 0, []⟩

def vfsAllocConsoleOutDescriptor (v : VfsState) : Nat × VfsState :=
  vfsAllocDescriptor v ⟨.consoleOut, 0, 0, 0, []⟩

def vfsAllocDirectoryDescriptor (v : VfsState) (path : Bytes) (offset : Nat) : Nat × VfsState :=
  vfsAllocDescriptor v ⟨.directory, 0, 0, offset, path⟩

def vfsCloseDescriptor (v : VfsState) (descId : Nat) : Except String (Int × VfsState) := do
  if descId = 0 then .ok (-1, v)
  else do
    let d ← vfsDesc v descId
    if d.kind = .closed then .ok (-1, v) else .ok (0, setVfsDesc v descId closedDesc)

/-! ## Paths -/

/-- `while out_len > 1 and out[out_len - 1] != 47: out_len -= 1`. -/
def scanBack (out : Bytes) : Nat → Nat
  | 0 => 0
  | 1 => 1
  | n + 2 => if out.getD (n + 1) 0 = slash then n + 2 else scanBack out (n + 1)

/-- What `..` does to the output: one byte less, then back to a slash, which stays. -/
def dropComponent (out : Bytes) : Bytes :=
  if out.length > 1 then out.take (scanBack out (out.length - 1)) else out

/-- What one component of the source path does to the output. -/
def pushComponent (out component : Bytes) : Bytes :=
  if component = [dot] then out
  else if component = [dot, dot] then dropComponent out
  else if out.length > 1 then out ++ slash :: component
  else out ++ component

/-- The outer loop: skip slashes, take a component, with at most `n` rounds left. -/
def normalizeLoop : Nat → Bytes → Bytes → Bytes
  | 0, _, out => out
  | n + 1, src, out =>
    let src := src.dropWhile (· = slash)
    if src = [] then out
    else normalizeLoop n (src.dropWhile (· ≠ slash))
      (pushComponent out (src.takeWhile (· ≠ slash)))

/-- `vfs_normalize_path`; `none` is the null result. A round takes at least one byte. -/
def vfsNormalizePath (heap : Heap) (path : Bytes) : Except String (Option Bytes × Heap) := do
  if path.head? ≠ some slash then .ok (none, heap)
  else do
    let (_, heap) ← allocBytes heap (path.length + 2)
    .ok (some (normalizeLoop path.length (path.drop 1) [slash]), heap)

/-- `vfs_path_parent` of a path of at least two bytes. -/
def vfsPathParent (heap : Heap) (path : Bytes) : Except String (Bytes × Heap) := do
  let parent := (path.reverse.dropWhile (· ≠ slash)).reverse.dropLast
  if parent = [] then do
    let (_, heap) ← allocBytes heap 2
    .ok ([slash], heap)
  else do
    let (_, heap) ← allocBytes heap (parent.length + 1)
    .ok (parent, heap)

/-! ## Nodes and directories -/

def vfsLookupPath (v : VfsState) (path : Bytes) : Option Nat :=
  v.nodes.findIdx? fun n => n.name = path

def vfsNodeMatchesDirectory (n : Node) (dir : Bytes) : Bool :=
  if dir.length = 1 then n.name.length > 1 ∧ n.name.head? = some slash
  else n.name.length > dir.length ∧ dir <+: n.name ∧ n.name.getD dir.length 0 = slash

def vfsDirectoryExists (v : VfsState) (dir : Bytes) : Bool :=
  dir = [slash] ∨ v.nodes.any fun n =>
    (n.kind = .directory ∧ n.name = dir) ∨ vfsNodeMatchesDirectory n dir

/-- The component below `dir` of a node's name, empty when there is none. -/
def vfsDirectoryChildComponent (n : Node) (dir : Bytes) : Bytes :=
  if vfsNodeMatchesDirectory n dir then
    (n.name.drop (if dir.length = 1 then 1 else dir.length + 1)).takeWhile (· ≠ slash)
  else []

def vfsDirectoryChildSeenBefore (v : VfsState) (dir : Bytes) (nodeId : Nat) (child : Bytes) :
    Bool :=
  (v.nodes.take nodeId).any fun n =>
    vfsDirectoryChildComponent n dir ≠ [] ∧ vfsDirectoryChildComponent n dir = child

/-- Node `index` contributes a new child to `dir`. -/
def listsChild (v : VfsState) (dir : Bytes) (index : Nat) : Option Bytes :=
  match v.nodes[index]? with
  | none => none
  | some n =>
    let child := vfsDirectoryChildComponent n dir
    if child ≠ [] ∧ ¬ vfsDirectoryChildSeenBefore v dir index child then some child else none

def vfsDirectoryChildCount (v : VfsState) (dir : Bytes) : Nat :=
  (List.range v.nodes.length).countP fun i => (listsChild v dir i).isSome

def vfsCreateTmpfsFile (v : VfsState) (heap : Heap) (path : Bytes) :
    Except String (Option Nat × VfsState × Heap) := do
  if path.length ≤ 1 then .ok (none, v, heap)
  else do
    let (parent, heap) ← vfsPathParent heap path
    match vfsLookupPath v parent with
    | none => .ok (none, v, heap)
    | some parentId => do
      let p ← vfsNode v parentId
      if p.kind ≠ .directory ∨ p.flags &&& nodeFlagWritable = 0 then .ok (none, v, heap)
      else if v.nodes.length ≥ maxVfsNodes then .error "vfs node table full"
      else .ok (some v.nodes.length,
        { v with nodes := v.nodes ++ [⟨path, 0, 0, .file, nodeFlagWritable, 0⟩] }, heap)

/-- Returns the buffer, which is a new one when the old one is too small. -/
def vfsGrowNodeData (v : VfsState) (heap : Heap) (nodeId minCapacity : Nat) :
    Except String (Nat × VfsState × Heap) := do
  let n ← vfsNode v nodeId
  if minCapacity ≤ n.dataCapacity then .ok (n.dataPtr, v, heap)
  else do
    let c := if minCapacity < 64 then 64 else minCapacity
    let c := if n.dataCapacity ≠ 0 ∧ c < n.dataCapacity * 2 then n.dataCapacity * 2 else c
    let (ptr, heap) ← allocBytes heap c
    let v := { v with mem := copyBytes v.mem ptr n.dataPtr n.dataLen }
    .ok (ptr, setVfsNode v nodeId { n with dataPtr := ptr, dataCapacity := c }, heap)

/-! ## Operations -/

/-- The create flag of `vfs_open_path`. -/
def createIfAsked (v : VfsState) (heap : Heap) (path : Bytes) (flags : Int) :
    Except String (Option Nat × VfsState × Heap) :=
  if flags.toNat &&& 1 ≠ 0 then vfsCreateTmpfsFile v heap path else .ok (none, v, heap)

/-- Returns the descriptor id, 0 when the path cannot be opened. -/
def vfsOpenPath (v : VfsState) (heap : Heap) (path : Bytes) (flags : Int) :
    Except String (Nat × VfsState × Heap) := do
  if flags < 0 ∨ flags > 3 then .ok (0, v, heap)
  else if path = [] then .ok (0, v, heap)
  else do
    match ← vfsNormalizePath heap path with
    | (none, heap) => .ok (0, v, heap)
    | (some normalized, heap) =>
      if normalized = [slash] then
        let (d, v) := vfsAllocDirectoryDescriptor v normalized 0
        .ok (d, v, heap)
      else match vfsLookupPath v normalized with
      | none => do
        let (node, v, heap) ← createIfAsked v heap normalized flags
        match node with
        | some nodeId =>
          let (d, v) := vfsAllocDescriptor v ⟨.initramfsFile, flags, nodeId, 0, []⟩
          .ok (d, v, heap)
        | none =>
          if vfsDirectoryExists v normalized then
            let (d, v) := vfsAllocDirectoryDescriptor v normalized 0
            .ok (d, v, heap)
          else .ok (0, v, heap)
      | some nodeId => do
        let n ← vfsNode v nodeId
        if n.kind = .directory then
          let (d, v) := vfsAllocDirectoryDescriptor v normalized 0
          .ok (d, v, heap)
        else
          let v := if flags.toNat &&& 2 ≠ 0 ∧ n.flags &&& nodeFlagWritable ≠ 0 then
            setVfsNode v nodeId { n with dataLen := 0 } else v
          let (d, v) := vfsAllocDescriptor v ⟨.initramfsFile, flags, nodeId, 0, []⟩
          .ok (d, v, heap)

def vfsWriteDescriptor (v : VfsState) (heap : Heap) (descId : Nat) (bytes : Bytes) :
    Except String (Int × VfsState × Heap) := do
  if descId = 0 then .ok (-1, v, heap)
  else do
    let d ← vfsDesc v descId
    if d.kind = .consoleOut then .ok (bytes.length, v, heap)
    else if d.kind ≠ .initramfsFile then .ok (-1, v, heap)
    else do
      let n ← vfsNode v d.nodeId
      if n.flags &&& nodeFlagWritable = 0 then .ok (-1, v, heap)
      else if wrap (d.offset + bytes.length) < d.offset then .ok (-1, v, heap)
      else do
        let (ptr, v, heap) ← vfsGrowNodeData v heap d.nodeId (d.offset + bytes.length)
        let v := { v with mem := storeBytes v.mem (ptr + d.offset) bytes }
        let n ← vfsNode v d.nodeId
        let v := if d.offset + bytes.length > n.dataLen then
          setVfsNode v d.nodeId { n with dataLen := d.offset + bytes.length } else v
        .ok (bytes.length,
          setVfsDesc v descId { d with offset := d.offset + bytes.length }, heap)

/-- The result and the two words stored at the caller's pointer. -/
def vfsStatDescriptor (v : VfsState) (descId : Nat) : Except String (Int × List Nat) := do
  if descId = 0 then .ok (-1, [])
  else do
    let d ← vfsDesc v descId
    match d.kind with
    | .directory => .ok (0, [NodeKind.directory.code, vfsDirectoryChildCount v d.path])
    | .initramfsFile => do
      let n ← vfsNode v d.nodeId
      .ok (0, [n.kind.code, n.dataLen])
    | _ => .ok (-1, [])

/-- The first child at or after `index`, with `n` nodes left to scan, and the next index. -/
def nextChild (v : VfsState) (dir : Bytes) : Nat → Nat → Option (Bytes × Nat)
  | _, 0 => none
  | index, n + 1 =>
    match listsChild v dir index with
    | some child => some (child, index + 1)
    | none => nextChild v dir (index + 1) n

/-- The result, the bytes stored and the state. -/
def vfsReaddirDescriptor (v : VfsState) (descId length : Nat) :
    Except String (Int × Bytes × VfsState) := do
  if descId = 0 then .ok (-1, [], v)
  else do
    let d ← vfsDesc v descId
    if d.kind ≠ .directory then .ok (-1, [], v)
    else match nextChild v d.path d.offset (v.nodes.length - d.offset) with
    | none => .ok (0, [], v)
    | some (child, next) =>
      .ok ((child.take length).length, child.take length, setVfsDesc v descId { d with offset := next })

/-- `input` is what the console has ready; a carriage return is read as a newline. -/
def consoleReadPtrLen (input : Bytes) (length : Nat) : Bytes :=
  (input.take length).map fun ch => if ch = 13 then 10 else ch

/-- The result, the bytes stored and the state. -/
def vfsReadDescriptor (v : VfsState) (input : Bytes) (descId length : Nat) :
    Except String (Int × Bytes × VfsState) := do
  if descId = 0 then .ok (-1, [], v)
  else do
    let d ← vfsDesc v descId
    match d.kind with
    | .consoleIn =>
      let bytes := consoleReadPtrLen input length
      .ok (bytes.length, bytes, v)
    | .initramfsFile => do
      let n ← vfsNode v d.nodeId
      if n.dataLen ≤ d.offset then .ok (0, [], v)
      else
        let count := min length (n.dataLen - d.offset)
        let bytes := loadBytes v.mem (n.dataPtr + d.offset) count
        .ok (count, bytes, setVfsDesc v descId { d with offset := d.offset + count })
    | _ => .ok (-1, [], v)

end PcoOs.Vfs
