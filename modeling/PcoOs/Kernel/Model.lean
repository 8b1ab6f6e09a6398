/-
  The kernel's state and the operations of `ksched.py` that touch more than the task table:
  creating, replacing, switching, preempting, ending and reaping tasks.

  `kont` says where a task continues when its context is entered: `context_switch_asm` returns
  into the loop of `scheduler_waitpid`, into the `panic` of `scheduler_exit_current_task`, or out
  of the kernel. `Ghost` is a record of what happened, which no operation reads.
-/
import PcoOs.Image.Model
import PcoOs.Kernel.Cpu
import PcoOs.Sched.Model
import PcoOs.Vfs.Model

namespace PcoOs.Kernel

open PcoOs.Lib PcoOs.Pmm PcoOs.Support PcoOs.Vmm PcoOs.Elf PcoOs.Image PcoOs.Sched PcoOs.Vfs

/-! ## State -/

/-- Where a task goes on after a switch. -/
inductive Kont where
  | run
  | waitAny
  | waitFor (target : TaskId) (serial : Nat)
  | dead
  deriving DecidableEq, Repr

/-- A task is named by its serial number: slots of the table are used again. -/
inductive Event where
  | spawned (serial : Nat) (task parent : TaskId)
  | exited (serial : Nat) (exitCode : Int)
  | reaped (serial : Nat) (parent waiter : TaskId) (status : Int)
  deriving DecidableEq, Repr

/-- The serial number and the image of each task, and the events, newest first. -/
structure Ghost where
  serial : TaskId → Nat
  image : TaskId → Image
  next : Nat
  log : List Event

/-- `cr0Wp` is the write-protect bit of `CR0`, which the kernel leaves as it found it. -/
structure KernelState where
  phys : Phys
  vmm : VmmState
  heap : Heap
  sched : SchedState
  vfs : VfsState
  cpu : Cpu
  rsp0 : Nat
  kont : TaskId → Kont
  ghost : Ghost
  code : Code
  cr0Wp : Bool

def KernelState.current (k : KernelState) : TaskId := k.sched.currentTask

def KernelState.task (k : KernelState) (t : TaskId) : Task := k.sched.task t

/-- Panics of the layers below carry their text. -/
def orPanic {α : Type} (x : Except String α) : Except Panic α := x.mapError .message

/-- A signed value in a register. -/
def word (x : Int) : UInt64 := UInt64.ofNat (addr x)

/-! ## Descriptors of a task -/

def schedulerInitTaskFds (v : VfsState) : Except String ((Fin 4 → Nat) × VfsState) :=
  let (fd0, v) := vfsAllocConsoleInDescriptor v
  let (fd1, v) := vfsAllocConsoleOutDescriptor v
  let (fd2, v) := vfsAllocConsoleOutDescriptor v
  if fd0 = 0 ∨ fd1 = 0 ∨ fd2 = 0 then .error "task fd alloc failed"
  else .ok (fun fd => [fd0, fd1, fd2, 0].getD fd.val 0, v)

def closeIfOpen (fds : Fin 4 → Nat) (fd : Fin 4) (v : VfsState) : Except String VfsState := do
  if fds fd ≠ 0 then do
    let (_, v) ← vfsCloseDescriptor v (fds fd)
    .ok v
  else .ok v

def schedulerReleaseTaskFds (fds : Fin 4 → Nat) (v : VfsState) : Except String VfsState := do
  let v ← closeIfOpen fds 0 v
  let v ← closeIfOpen fds 1 v
  let v ← closeIfOpen fds 2 v
  closeIfOpen fds 3 v

/-! ## Creating tasks -/

/-- The two blocks of a task: its context and its kernel stack. -/
def allocTaskBlocks (heap : Heap) : Except String (Nat × Nat × Heap) := do
  let (ctxPtr, heap) ← allocBytes heap 56
  let (stackBase, heap) ← allocBytes heap taskStackSize
  .ok (ctxPtr, stackBase, heap)

def schedulerPrepareKernelTaskContext (code : Code) (heap : Heap) (taskId : Nat) :
    Except String (Nat × Nat × Heap) := do
  let (ctxPtr, stackBase, heap) ← allocTaskBlocks heap
  let m ← configureKernelTaskContext code heap.mem ctxPtr stackBase taskId
  .ok (ctxPtr, stackBase, { heap with mem := m })

def schedulerPrepareUserTaskContext (code : Code) (heap : Heap) (im : UserImage) :
    Except String (Nat × Nat × Heap) := do
  let (ctxPtr, stackBase, heap) ← allocTaskBlocks heap
  let m ← schedulerConfigureUserTaskContext code heap.mem ctxPtr stackBase (word im.rip)
    (word im.start.rsp) (word im.start.argc) (word im.start.argvPtr) (word im.start.envpPtr)
  .ok (ctxPtr, stackBase, { heap with mem := m })

def interruptFrameQwordCount : Int := 20

/-- Everything `scheduler_create_user_elf_task` does before it touches the table: the row without
    its descriptors and the new memory. -/
def buildUserTask (k : KernelState) (img : Image) (argv envp : ExecVec) :
    Except String (Task × Phys × Heap) := do
  let (userCr3, phys) ← vmmCreateTaskAddressSpace k.vmm k.phys
  let (irqFramePtr, heap) ← allocBytes k.heap (interruptFrameQwordCount * 8)
  let ok ← elfValidateUserImage img
  if ¬ ok then .error "scheduler invalid user elf"
  else do
    let (im, phys, heap) ← schedulerInstallUserImage k.vmm userCr3 img argv envp phys heap
    let (ctxPtr, stackBase, heap) ← schedulerPrepareUserTaskContext k.code heap im
    .ok ({ clearTask with
        state := .runnable, contextPtr := ctxPtr, stackBase := stackBase, mode := .user,
        cr3 := userCr3, userBase := userTaskRegionBase, userLimit := im.limit,
        userPages := im.pages, userPageCount := im.pageCount, parentPid := k.current,
        heapBase := im.heapBase, heapLimit := im.heapLimit, heapBreak := im.heapBreak,
        irqFramePtr := irqFramePtr }, phys, heap)

/-- Enter a finished row and queue it. -/
def publishTask (s : SchedState) (t : TaskId) (row : Task) : Except Panic SchedState :=
  let s := s.setTask t row
  schedulerEnqueueTask (if t.val ≥ s.taskCount then { s with taskCount := t.val + 1 } else s) t

/-- A new task starts in its program, with the next serial number. -/
def Ghost.spawn (g : Ghost) (t parent : TaskId) (img : Image) : Ghost where
  serial := Function.update g.serial t g.next
  image := Function.update g.image t img
  next := g.next + 1
  log := .spawned g.next t parent :: g.log

def schedulerCreateUserElfTask (k : KernelState) (img : Image) (argv envp : ExecVec) :
    Except Panic (TaskId × KernelState) := do
  let t ← schedulerFindFreeTaskId k.sched
  let (row, phys, heap) ← orPanic (buildUserTask k img argv envp)
  let (fds, vfs) ← orPanic (schedulerInitTaskFds k.vfs)
  let sched ← publishTask k.sched t { row with fds := fds }
  .ok (t, { k with
    phys := phys, heap := heap, sched := sched, vfs := vfs,
    kont := Function.update k.kont t .run, ghost := k.ghost.spawn t k.current img })

/-! ## Replacing the program of the current task -/

def schedulerExecCurrentTask (k : KernelState) (img : Image) (argv envp : ExecVec) :
    Except Panic (Int × KernelState) := do
  let t := k.current
  let row := k.task t
  if row.mode ≠ .user then .ok (-1, k)
  else do
    let ok ← orPanic (elfValidateUserImage img)
    if ¬ ok then .ok (-1, k)
    else do
      let (im, phys, heap) ← orPanic (replaceUserImage k.vmm row.cr3 row.userBase row.userPages
        row.userPageCount img argv envp k.phys k.heap)
      -- `scheduler_replace_current_user_context` enters the new program and does not return
      let m ← orPanic (schedulerConfigureUserTaskContext k.code heap.mem row.contextPtr
        row.stackBase (word im.rip) (word im.start.rsp) (word im.start.argc)
        (word im.start.argvPtr) (word im.start.envpPtr))
      .ok (0, { k with
        phys := { phys with cr3 := row.cr3 }
        heap := { heap with mem := m }
        sched := k.sched.setTask t { row with
          userPages := im.pages, userPageCount := im.pageCount, userLimit := im.limit,
          heapBase := im.heapBase, heapLimit := im.heapLimit, heapBreak := im.heapBreak }
        cpu := enterContext k.code m row.contextPtr
        rsp0 := taskKernelRsp0Top row.stackBase
        ghost := { k.ghost with image := Function.update k.ghost.image t img } })

/-! ## Switching -/

/-- `rsp0`, `cr3` and the registers of `next`, from a heap with contents `m`. -/
def enterTask (k : KernelState) (m : Mem) (next : TaskId) : KernelState :=
  { k with
    heap := { k.heap with mem := m }
    phys := { k.phys with cr3 := (k.task next).cr3 }
    rsp0 := taskKernelRsp0Top (k.task next).stackBase
    cpu := enterContext k.code m (k.task next).contextPtr }

/-- `regs` are the registers inside `context_switch_asm`, with `rsp` at its return address. -/
def schedulerSwitchToTask (k : KernelState) (old next : TaskId) (regs : Ctx) : KernelState :=
  if next = old then k
  else
    let m := storeQword k.heap.mem regs.rsp.toNat k.code.switchReturn.toNat
    enterTask k (storeWords m (k.task old).contextPtr regs.words) next

def schedulerYieldCurrentTask (k : KernelState) (regs : Ctx) : Except Panic KernelState := do
  let old := k.current
  let (next, sched) ← schedulerPickNextTask k.sched
  .ok (schedulerSwitchToTask { k with sched := sched } old next regs)

def schedulerSaveUserIrqContext (k : KernelState) (t : TaskId) (frame : List UInt64) :
    Except String Mem := do
  let row := k.task t
  if row.irqFramePtr = 0 then .error "scheduler missing irq frame buffer"
  else do
    let m ← schedulerCopyInterruptFrame k.heap.mem row.irqFramePtr frame
    schedulerConfigureInterruptReturnContext k.code m row.contextPtr row.stackBase row.irqFramePtr

/-- `timer_irq_entry`: the timer interrupted a program with registers `regs` at time `now`. -/
def schedulerTimerIrq (k : KernelState) (now : Int) (regs : UserRegs) :
    Except Panic KernelState := do
  let frame := pushRegs regs
  let codeSegment := frame.getD 16 0
  let (delta, sched) := schedulerAccountTick k.sched now
  let k := { k with sched := sched }
  let current := k.current
  if delta = 0 then .ok k
  else if codeSegment.toNat % 4 ≠ 3 then .ok k
  else if (k.task current).mode ≠ .user then .ok k
  else if schedulerRunnableCount k.sched ≤ 1 then .ok k
  else do
    let (next, sched) ← schedulerPickNextTask k.sched
    let k := { k with sched := sched }
    if next = current then .ok k
    else do
      let m ← orPanic (schedulerSaveUserIrqContext k current frame)
      .ok (enterTask k m next)

def schedulerTimerInterrupt (k : KernelState) (allowPreempt : Bool) (now : Int) (regs : Ctx) :
    Except Panic KernelState := do
  let (delta, sched) := schedulerAccountTick k.sched now
  let k := { k with sched := sched }
  if delta = 0 then .ok k
  else if allowPreempt = false then .ok k
  else if schedulerRunnableCount k.sched ≤ 1 then .ok k
  else schedulerYieldCurrentTask k regs

/-! ## Ending and reaping -/

def Ghost.exit (g : Ghost) (t : TaskId) (exitCode : Int) : Ghost :=
  { g with log := .exited (g.serial t) exitCode :: g.log }

/-- When no other task is picked, `scheduler_switch_to_task` returns into the panic. -/
def schedulerExitCurrentTask (k : KernelState) (exitCode : Int) (regs : Ctx) :
    Except Panic KernelState := do
  let current := k.current
  if current = k.sched.idleTask then .error (.message "cannot exit idle task")
  else do
    let (next, sched) ← schedulerPickNextTask (exitCurrent k.sched exitCode)
    if next = current then .error .exitedTaskResumed
    else .ok (schedulerSwitchToTask { k with
      sched := sched
      kont := Function.update k.kont current .dead
      ghost := k.ghost.exit current exitCode } current next regs)

def releaseRowPages (row : Task) (pmm : PmmState) : Except String PmmState :=
  if row.userPages ≠ [] ∧ row.userPageCount > 0 then schedulerReleaseUserPages row.userPages pmm
  else .ok pmm

def schedulerDestroyUserTask (k : KernelState) (t : TaskId) : Except String Phys := do
  let row := k.task t
  if row.mode ≠ .user then .ok k.phys
  else do
    let pmm ← releaseRowPages row k.phys.pmm
    let phys := { k.phys with pmm := pmm }
    if row.cr3 ≠ 0 then vmmFreeClonedAddressSpace k.vmm phys row.cr3 else .ok phys

/-- The table after `scheduler_clear_task` and the loop that shrinks `task_count`. -/
def releaseRow (s : SchedState) (t : TaskId) : SchedState :=
  let s := s.setTask t clearTask
  { s with taskCount := trimTaskCount s s.taskCount }

def Ghost.reap (g : Ghost) (t parent waiter : TaskId) (status : Int) : Ghost :=
  { g with log := .reaped (g.serial t) parent waiter status :: g.log }

/-- The end of `scheduler_waitpid`: the status of the exited task `t`, whose slot is freed. -/
def reapTask (k : KernelState) (t : TaskId) : Except Panic (Int × KernelState) := do
  let row := k.task t
  let phys ← orPanic (schedulerDestroyUserTask k t)
  let vfs ← orPanic (schedulerReleaseTaskFds row.fds k.vfs)
  .ok (row.exitCode, { k with
    phys := phys, vfs := vfs, sched := releaseRow k.sched t
    kont := Function.update k.kont k.current .run
    ghost := k.ghost.reap t row.parentPid k.current row.exitCode })

/-- One round of the loops of `scheduler_waitpid`: reap, or yield and come back. -/
def waitRound (k : KernelState) (wait : Kont) (target : Option TaskId) (regs : Ctx) :
    Except Panic (Option Int × KernelState) := do
  match target with
  | some t => do
    let (status, k) ← reapTask k t
    .ok (some status, k)
  | none => do
    let k ← schedulerYieldCurrentTask
      { k with kont := Function.update k.kont k.current wait } regs
    .ok (none, k)

/-- The exited task a waiter can take, if there is one. -/
def waitTarget (k : KernelState) : Kont → Option TaskId
  | .waitAny => schedulerFindChild k.sched k.current true
  | .waitFor t _ => if (k.task t).state = .exited then some t else none
  | _ => none

/-- The result is `none` while the caller still waits. -/
def schedulerWaitpid (k : KernelState) (taskId : Int) (regs : Ctx) :
    Except Panic (Option Int × KernelState) := do
  let current := k.current
  if taskId < -1 ∨ taskId ≥ k.sched.taskCount then .ok (some (-1), k)
  else if taskId = current.val then .ok (some (-1), k)
  else if taskId = -1 then
    if (schedulerFindChild k.sched current false).isNone then .ok (some (-1), k)
    else waitRound k .waitAny (waitTarget k .waitAny) regs
  else if h : taskId.toNat < 8 then
    let t : TaskId := ⟨taskId.toNat, h⟩
    if (k.task t).state = .empty then .ok (some (-1), k)
    else if (k.task t).parentPid ≠ current then .ok (some (-1), k)
    else
      let wait := .waitFor t (k.ghost.serial t)
      waitRound k wait (waitTarget k wait) regs
  else .error (.message "scheduler task id out of range")

/-- What the current task does first after its context was entered. -/
def resumeCurrent (k : KernelState) (regs : Ctx) : Except Panic (Option Int × KernelState) :=
  match k.kont k.current with
  | .run => .ok (none, k)
  | .dead => .error .exitedTaskResumed
  | wait => waitRound k wait (waitTarget k wait) regs

end PcoOs.Kernel
