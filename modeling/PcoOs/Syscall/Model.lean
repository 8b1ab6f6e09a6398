/-
  The file syscalls of `ksyscall.py` and the checks on user pointers in front of them. A kernel
  task passes its own buffers, whose bytes are arguments here; a user task passes addresses, which
  the kernel reads and writes through the root that is loaded, with the rights of the kernel:
  user bits do not matter to it, and read-only pages only when `CR0.WP` is set.
-/
import PcoOs.Vmm.Mmu
import PcoOs.Kernel.Model

namespace PcoOs.Syscall

open PcoOs.Lib PcoOs.Support PcoOs.Vmm PcoOs.Elf PcoOs.Sched PcoOs.Vfs PcoOs.Kernel

/-! ## User memory -/

def loadUserByte (m : Mem) (root virt : Nat) : Except String UInt8 :=
  match mmuWalk m root (virt / 4096) with
  | none => .error "page fault"
  | some a => .ok (m (a.frame + virt % 4096))

def loadUserBytes (m : Mem) (root : Nat) : Nat → Nat → Except String Bytes
  | _, 0 => .ok []
  | virt, n + 1 => do
    let b ← loadUserByte m root virt
    let bs ← loadUserBytes m root (virt + 1) n
    .ok (b :: bs)

def storeUserByte (wp : Bool) (m : Mem) (root virt : Nat) (b : UInt8) : Except String Mem :=
  match mmuWalk m root (virt / 4096) with
  | none => .error "page fault"
  | some a =>
    if wp = true ∧ a.writable = false then .error "page fault"
    else .ok (storeByte m (a.frame + virt % 4096) b)

/-- Store the bytes one after the other from `virt` on. -/
def storeUserBytes (wp : Bool) (root : Nat) : Nat → Bytes → Mem → Except String Mem
  | _, [], m => .ok m
  | virt, b :: bs, m => do
    let m ← storeUserByte wp m root virt b
    storeUserBytes wp root (virt + 1) bs m

/-! ## The pointer check -/

def syscallValidateUserBuffer (row : Task) (ptr length : Int) : Bool :=
  let stop := wrap (ptr + length)
  if row.userBase = 0 ∨ row.userLimit ≤ row.userBase then false
  else if length < 0 then false
  else if ptr = 0 ∧ length ≠ 0 then false
  else if ptr < row.userBase then false
  else if stop < ptr ∨ stop > row.userLimit then false
  else if stop ≤ row.heapBase then true
  else if ptr ≥ row.heapLimit then true
  else decide (ptr ≥ row.heapBase ∧ stop ≤ row.heapBreak)

/-! ## File calls on kernel buffers -/

/-- `scheduler_task_fd_object`; a number that is no descriptor slot gives 0. -/
def schedulerTaskFdObject (row : Task) (fd : Int) : Nat :=
  if h : 0 ≤ fd ∧ fd < 4 then row.fds ⟨fd.toNat, by omega⟩ else 0

def setTaskFd (k : KernelState) (fd : Fin 4) (descId : Nat) : KernelState :=
  let row := k.task k.current
  let row := { row with fds := Function.update row.fds fd descId }
  { k with sched := k.sched.setTask k.current row }

/-- `syscall_alloc_task_fd`: the highest free slot. -/
def syscallAllocTaskFd (k : KernelState) (descId : Nat) : Option (Fin 4 × KernelState) :=
  ([3, 2, 1, 0].find? fun fd => (k.task k.current).fds fd = 0).map fun fd =>
    (fd, setTaskFd k fd descId)

/-- The file calls, with the bytes of their buffers. `input` is what the console has ready. -/
inductive FileCall where
  | write (fd : Int) (bytes : Bytes)
  | openPath (path : Bytes) (flags : Int)
  | close (fd : Int)
  | read (fd : Int) (length : Nat) (input : Bytes)
  | fstat (fd : Int)
  | readdir (fd : Int) (length : Nat)

/-- The result, the bytes for the caller's buffer and the new state. -/
def fileCall (k : KernelState) (c : FileCall) : Except String (Int × Bytes × KernelState) := do
  let row := k.task k.current
  match c with
  | .write fd bytes => do
    let (r, vfs, heap) ← vfsWriteDescriptor k.vfs k.heap (schedulerTaskFdObject row fd) bytes
    .ok (r, [], { k with vfs := vfs, heap := heap })
  | .openPath path flags => do
    let (descId, vfs, heap) ← vfsOpenPath k.vfs k.heap path flags
    let k := { k with vfs := vfs, heap := heap }
    if descId = 0 then .ok (-1, [], k)
    else match syscallAllocTaskFd k descId with
    | some (fd, k) => .ok (fd.val, [], k)
    | none => do
      let (_, vfs) ← vfsCloseDescriptor k.vfs descId
      .ok (-1, [], { k with vfs := vfs })
  | .close fd =>
    if h : 0 ≤ fd ∧ fd < 4 then do
      let slot : Fin 4 := ⟨fd.toNat, by omega⟩
      if row.fds slot = 0 then .ok (-1, [], k)
      else do
        let (r, vfs) ← vfsCloseDescriptor k.vfs (row.fds slot)
        if r ≠ 0 then .ok (-1, [], { k with vfs := vfs })
        else .ok (0, [], setTaskFd { k with vfs := vfs } slot 0)
    else .ok (-1, [], k)
  | .read fd length input => do
    let (r, bytes, vfs) ← vfsReadDescriptor k.vfs input (schedulerTaskFdObject row fd) length
    .ok (r, bytes, { k with vfs := vfs })
  | .fstat fd => do
    let (r, words) ← vfsStatDescriptor k.vfs (schedulerTaskFdObject row fd)
    .ok (r, words.flatMap wordBytes, k)
  | .readdir fd length => do
    let (r, bytes, vfs) ← vfsReaddirDescriptor k.vfs (schedulerTaskFdObject row fd) length
    .ok (r, bytes, { k with vfs := vfs })

/-! ## Loading a program -/

/-- The exits that close the descriptor and return no image. -/
def closeWithoutImage (v : VfsState) (heap : Heap) (descId : Nat) :
    Except String (Option Image × VfsState × Heap) := do
  let (_, v) ← vfsCloseDescriptor v descId
  .ok (none, v, heap)

def syscallLoadExecImage (v : VfsState) (heap : Heap) (path : Bytes) :
    Except String (Option Image × VfsState × Heap) := do
  if path = [] then .ok (none, v, heap)
  else do
    let (descId, v, heap) ← vfsOpenPath v heap path 0
    if descId = 0 then .ok (none, v, heap)
    else do
      let (_, heap) ← allocBytes heap 16
      let (r, words) ← vfsStatDescriptor v descId
      let imageLen := words.getD 1 0
      if r ≠ 0 then closeWithoutImage v heap descId
      else if words.getD 0 0 ≠ 1 then closeWithoutImage v heap descId
      else if imageLen = 0 ∨ imageLen > 16384 then closeWithoutImage v heap descId
      else do
        let (_, heap) ← allocBytes heap imageLen
        let (readCount, image, v) ← vfsReadDescriptor v [] descId imageLen
        let (_, v) ← vfsCloseDescriptor v descId
        if readCount ≠ imageLen then .ok (none, v, heap)
        else do
          let ok ← elfValidateUserImage image
          .ok (if ok then some image else none, v, heap)

/-! ## File calls of a user task -/

/-- The same calls with user pointers and lengths as they arrive in registers. -/
inductive UserCall where
  | write (fd ptr length : Int)
  | openPath (ptr length flags : Int)
  | close (fd : Int)
  | read (fd ptr length : Int) (input : Bytes)
  | fstat (fd ptr : Int)
  | readdir (fd ptr length : Int)

/-- The buffer a call passes, with its length. -/
def UserCall.buffer : UserCall → Option (Int × Int)
  | .write _ ptr length => some (ptr, length)
  | .openPath ptr length _ => some (ptr, length)
  | .close _ => none
  | .read _ ptr length _ => some (ptr, length)
  | .fstat _ ptr => some (ptr, 16)
  | .readdir _ ptr length => some (ptr, length)

/-- A value a 64-bit register can hold. -/
def IsInt64 (x : Int) : Prop := -2 ^ 63 ≤ x ∧ x < 2 ^ 63

def UserCall.InRegisters (c : UserCall) : Prop := ∀ b ∈ c.buffer, IsInt64 b.1 ∧ IsInt64 b.2

/-- The call on kernel buffers behind a call whose buffer was accepted. -/
def UserCall.fetch (m : Mem) (root : Nat) : UserCall → Except String FileCall
  | .write fd ptr length => do
    let bytes ← loadUserBytes m root ptr.toNat length.toNat
    .ok (.write fd bytes)
  | .openPath ptr length flags => do
    let path ← loadUserBytes m root ptr.toNat length.toNat
    .ok (.openPath path flags)
  | .close fd => .ok (.close fd)
  | .read fd _ length input => .ok (.read fd length.toNat input)
  | .fstat fd _ => .ok (.fstat fd)
  | .readdir fd _ length => .ok (.readdir fd length.toNat)

/-- The pointer check in front of the call. -/
def UserCall.accepted (row : Task) (c : UserCall) : Bool :=
  match c.buffer with
  | some (ptr, length) => syscallValidateUserBuffer row ptr length
  | none => true

/-- `store_qword_region` checks the alignment of its base; `fstat` stores through it. -/
def UserCall.aligned : UserCall → Bool
  | .fstat _ ptr => ptr % 8 = 0
  | _ => true

/-- The result, the bytes the call stores from its pointer on, and the state without them. -/
def userCallBytes (k : KernelState) (c : UserCall) : Except String (Int × Bytes × KernelState) := do
  if ¬ c.accepted (k.task k.current) then .ok (-1, [], k)
  else do
    let call ← c.fetch k.phys.mem k.phys.cr3
    let (r, bytes, k) ← fileCall k call
    if bytes ≠ [] ∧ ¬ c.aligned then .error "qword region base is unaligned"
    else .ok (r, bytes, k)

def userCall (k : KernelState) (c : UserCall) : Except String (Int × KernelState) := do
  let (r, bytes, k) ← userCallBytes k c
  let ptr := (c.buffer.getD (0, 0)).1.toNat
  let m ← storeUserBytes k.cr0Wp k.phys.cr3 ptr bytes k.phys.mem
  .ok (r, { k with phys := { k.phys with mem := m } })

end PcoOs.Syscall
