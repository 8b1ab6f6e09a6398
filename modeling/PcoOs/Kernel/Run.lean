/-
  Runs of the kernel. `boot` goes from the loader's memory map to the first task; `Act` lists what
  can happen from then on, `act` what it does, and `Enabled` when it can happen: a task inside
  `scheduler_waitpid` only goes on with its loop, and kernel code stays inside the kernel stack of
  its task. `Reachable` are the states of all runs without a panic.

  A page is read and written at its physical address, whatever root is loaded. The code does the
  same where its pages map to themselves, which is not so on every `Machine`: `Machine.AllDirect` is
  the condition on the memory map, and results on what memory holds assume it.
-/
import PcoOs.Pmm.Init
import PcoOs.Syscall.Model

namespace PcoOs.Kernel

open PcoOs.Lib PcoOs.Pmm PcoOs.Support PcoOs.Vmm PcoOs.Elf PcoOs.Image PcoOs.Sched PcoOs.Vfs
  PcoOs.Syscall

/-! ## Boot -/

/-- What the kernel starts from: the memory map, arbitrary memory, the early heap and the file
    system as `init_vfs` left them, the time of `init_scheduler` and the number of decisions
    `scheduler_self_test` makes. -/
structure Machine where
  info : BootInfo
  map : MapOk info
  noWrap : NoWrap info
  magic : Nat
  mem : Mem
  cr3 : Nat
  heap : Heap
  heapOk : HeapOk heap
  vfs : VfsState
  now : Int
  picks : Nat
  code : Code
  cr0Wp : Bool

/-- A row of the two bootstrap tasks. -/
def kernelRow (cr3 ctxPtr stackBase : Nat) (fds : Fin 4 → Nat) : Task :=
  { clearTask with
    state := .runnable, contextPtr := ctxPtr, stackBase := stackBase, cr3 := cr3, fds := fds }

/-- The table of `scheduler_init_bootstrap_tasks`, before task 0 is queued. -/
def bootstrapSched (now : Int) (row0 row1 : Task) : SchedState where
  taskCount := 2
  currentTask := 1
  idleTask := 0
  lastTick := now
  queue := ⟨fun _ => 0, 0, 0⟩
  task := fun t => if t = 0 then row0 else if t = 1 then row1 else clearTask

/-- The heap blocks of the scheduler's own tables. -/
def allocSchedulerTables (heap : Heap) : Except String Heap := do
  let (_, heap) ← allocBytes heap (15 * 8)
  let (_, heap) ← allocBytes heap (8 * 25 * 8)
  let (_, heap) ← allocBytes heap (16 * 8)
  .ok heap

/-- `scheduler_prepare_kernel_task_context` for both tasks, and their descriptors. -/
def bootstrapRows (M : Machine) (kernelCr3 : Nat) :
    Except String (Task × Task × Heap × VfsState) := do
  let heap ← allocSchedulerTables M.heap
  let (ctx0, stack0, heap) ← schedulerPrepareKernelTaskContext M.code heap 0
  let (ctx1, stack1, heap) ← schedulerPrepareKernelTaskContext M.code heap 1
  let (fds0, vfs) ← schedulerInitTaskFds M.vfs
  let (fds1, vfs) ← schedulerInitTaskFds vfs
  .ok (kernelRow kernelCr3 ctx0 stack0 fds0, kernelRow kernelCr3 ctx1 stack1 fds1, heap, vfs)

def bootGhost : Ghost where
  serial := fun t => t.val
  image := fun _ => []
  next := 8
  log := []

def initScheduler (M : Machine) (vmm : VmmState) (phys : Phys) : Except Panic KernelState := do
  let (row0, row1, heap, vfs) ← orPanic (bootstrapRows M vmm.rootP4)
  let sched ← schedulerEnqueueTask (bootstrapSched M.now row0 row1) 0
  .ok {
    phys := phys, vmm := vmm, heap := heap, sched := sched, vfs := vfs
    cpu := .kernel 0 ⟨0, 0, 0, 0, 0, 0, 0⟩
    rsp0 := 0
    kont := fun _ => .run
    ghost := bootGhost, code := M.code, cr0Wp := M.cr0Wp }

/-- The decisions of `scheduler_self_test`, which switches to nobody. -/
def selfTestPicks (n : Nat) (s : SchedState) : Except Panic SchedState :=
  loop (fun _ s => do
    let (_, s) ← schedulerPickNextTask s
    .ok s) 0 n s

/-- The memory part of `kernel_main`. -/
def bootMemory (M : Machine) : Except String (VmmState × Phys) := do
  let pmm ← initPmm M.info
  let pmm ← pmmSelfTest pmm
  let (vmm, phys) ← initVmm M.magic ⟨pmm, M.mem, M.cr3⟩
  let phys ← vmmSelfTest M.magic vmm phys
  .ok (vmm, phys)

/-- The scheduler part of `kernel_main`, up to and including `scheduler_enter_first_task`. -/
def bootTasks (M : Machine) (vmm : VmmState) (phys : Phys) : Except Panic KernelState := do
  let k ← initScheduler M vmm phys
  let sched ← selfTestPicks M.picks k.sched
  let k := { k with sched := sched }
  .ok (enterTask k k.heap.mem k.current)

def boot (M : Machine) : Except Panic KernelState := do
  let (vmm, phys) ← orPanic (bootMemory M)
  bootTasks M vmm phys

/-! ## Steps -/

/-- What can happen while a task is current. `loadImage` is the first half of the spawn and exec
    calls, whose second half takes any image. `kernelStore` is kernel code writing its stack,
    `userStore` a program writing its memory. -/
inductive Act where
  | spawn (img : Image) (argv envp : ExecVec)
  | exec (img : Image) (argv envp : ExecVec)
  | brk (requested : Int)
  | yield (regs : Ctx)
  | timerIrq (now : Int) (regs : UserRegs)
  | timerInterrupt (allowPreempt : Bool) (now : Int) (regs : Ctx)
  | exit (exitCode : Int) (regs : Ctx)
  | waitpid (taskId : Int) (regs : Ctx)
  | resume (regs : Ctx)
  | loadImage (path : Bytes)
  | kernelCall (c : FileCall)
  | userCall (c : UserCall)
  | alloc (size : Nat)
  | kernelStore (a : Nat) (b : UInt8)
  | userStore (virt : Nat) (b : UInt8)

/-- A store by the program of the current task: user and writable bits count. -/
def userModeStore (m : Mem) (root virt : Nat) (b : UInt8) : Except String Mem :=
  match mmuWalk m root (virt / 4096) with
  | none => .error "page fault"
  | some a =>
    if a.user = true ∧ a.writable = true then .ok (storeByte m (a.frame + virt % 4096) b)
    else .error "page fault"

/-- One step. Results a caller gets back are part of the state of that caller, not of the
    kernel, and are dropped here. -/
def act (k : KernelState) : Act → Except Panic KernelState
  | .spawn img argv envp => do
    let (_, k) ← schedulerCreateUserElfTask k img argv envp
    .ok k
  | .exec img argv envp => do
    let (_, k) ← schedulerExecCurrentTask k img argv envp
    .ok k
  | .brk requested => .ok { k with sched := (schedulerBrk k.sched k.current requested).2 }
  | .yield regs => schedulerYieldCurrentTask k regs
  | .timerIrq now regs => schedulerTimerIrq k now regs
  | .timerInterrupt allowPreempt now regs => schedulerTimerInterrupt k allowPreempt now regs
  | .exit exitCode regs => schedulerExitCurrentTask k exitCode regs
  | .waitpid taskId regs => do
    let (_, k) ← schedulerWaitpid k taskId regs
    .ok k
  | .resume regs => do
    let (_, k) ← resumeCurrent k regs
    .ok k
  | .loadImage path => do
    let (_, vfs, heap) ← orPanic (syscallLoadExecImage k.vfs k.heap path)
    .ok { k with vfs := vfs, heap := heap }
  | .kernelCall c => do
    let (_, _, k) ← orPanic (fileCall k c)
    .ok k
  | .userCall c => do
    let (_, k) ← orPanic (Syscall.userCall k c)
    .ok k
  | .alloc size => do
    let (_, heap) ← orPanic (allocBytes k.heap size)
    .ok { k with heap := heap }
  | .kernelStore a b => .ok { k with heap := { k.heap with mem := storeByte k.heap.mem a b } }
  | .userStore virt b => do
    let m ← orPanic (userModeStore k.phys.mem k.phys.cr3 virt b)
    .ok { k with phys := { k.phys with mem := m } }

/-- The address lies in the kernel stack of the current task. -/
def OnStack (k : KernelState) (a n : Nat) : Prop :=
  (k.task k.current).stackBase ≤ a ∧ a + n ≤ (k.task k.current).stackBase + taskStackSize

/-- The task is not inside a loop of the kernel. -/
def Running (k : KernelState) : Prop := k.kont k.current = .run

def Enabled (k : KernelState) : Act → Prop
  | .yield regs | .timerInterrupt _ _ regs | .exit _ regs | .waitpid _ regs =>
    Running k ∧ OnStack k regs.rsp.toNat 8
  | .resume regs => OnStack k regs.rsp.toNat 8
  | .timerIrq _ regs => regs.cs.toNat % 4 = 3 → Running k
  | .kernelCall _ => Running k ∧ (k.task k.current).mode = .kernel
  | .userCall c => Running k ∧ (k.task k.current).mode = .user ∧ c.InRegisters
  | .userStore _ _ => Running k ∧ (k.task k.current).mode = .user
  | .kernelStore a _ => OnStack k a 1
  | _ => Running k

/-- The states of the runs of `M` whose steps are all allowed by `P`, without a panic. -/
inductive ReachableBy (M : Machine) (P : KernelState → Act → Prop) : KernelState → Prop
  | boot {k : KernelState} (h : boot M = .ok k) : ReachableBy M P k
  | step {k k' : KernelState} {a : Act} (h : ReachableBy M P k) (hp : P k a) (he : Enabled k a)
      (ha : act k a = .ok k') : ReachableBy M P k'

/-- The states of all runs of `M`. -/
abbrev Reachable (M : Machine) : KernelState → Prop := ReachableBy M fun _ _ => True

/-- An invariant of boot and of every allowed step holds in every reachable state. -/
theorem ReachableBy.invariant {M : Machine} {P : KernelState → Act → Prop}
    {I : KernelState → Prop} (hboot : ∀ k, Kernel.boot M = .ok k → I k)
    (hstep : ∀ k a k', I k → P k a → Enabled k a → act k a = .ok k' → I k') {k : KernelState}
    (h : ReachableBy M P k) : I k := by
  induction h with
  | boot h => exact hboot _ h
  | step _ hp he ha ih => exact hstep _ _ _ ih hp he ha

theorem ReachableBy.reachable {M : Machine} {P : KernelState → Act → Prop} {k : KernelState}
    (h : ReachableBy M P k) : Reachable M k := by
  induction h with
  | boot h => exact .boot h
  | step _ _ he ha ih => exact .step ih trivial he ha

end PcoOs.Kernel
