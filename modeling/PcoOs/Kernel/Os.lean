/-
  The system as its programs see it. There is one file system. A task is a process with four
  descriptors and, unless it belongs to the kernel, a program with a memory of its own. Page
  tables, frames, buffers and the kernel's heap are gone. `OsStep` says what each act may do; an
  act of one program leaves the memory of all others alone because nothing in it names them.
-/
import PcoOs.Kernel.Programs
import PcoOs.Syscall.TaskFiles

namespace PcoOs.Kernel

open PcoOs.Lib PcoOs.Elf PcoOs.Image PcoOs.Sched PcoOs.Vfs PcoOs.Syscall

/-! ## Programs -/

/-- `memory` is the byte at an address and whether the program may store there. Its areas follow
    from the number of its pages. -/
structure Program where
  memory : Nat → Option (UInt8 × Bool)
  pages : Nat
  heapBreak : Int

namespace Program

def heapBase (q : Program) : Int := userTaskRegionBase + (q.pages - 5) * userPageSize

def heapLimit (q : Program) : Int := userTaskRegionBase + (q.pages - 1) * userPageSize

def limit (q : Program) : Int := userTaskRegionBase + q.pages * userPageSize

/-- A buffer below the heap, in the heap up to the break, or in the stack. -/
def Owns (q : Program) (ptr length : Int) : Prop :=
  0 ≤ length ∧ ((userTaskRegionBase ≤ ptr ∧ ptr + length ≤ q.heapBase) ∨
    (q.heapBase ≤ ptr ∧ ptr + length ≤ q.heapBreak) ∨
    (q.heapLimit ≤ ptr ∧ ptr + length ≤ q.limit))

instance decidableOwns (q : Program) (ptr length : Int) : Decidable (q.Owns ptr length) :=
  inferInstanceAs (Decidable (_ ∧ _))

def load (q : Program) (ptr n : Nat) : Bytes :=
  (List.range n).map fun i => ((q.memory (ptr + i)).map Prod.fst).getD 0

def store (q : Program) (ptr : Nat) (bytes : Bytes) : Program :=
  { q with memory := fun virt => (q.memory virt).map fun x =>
      if ptr ≤ virt ∧ virt < ptr + bytes.length then (bytes.getD (virt - ptr) 0, x.2) else x }

def canStore (q : Program) (ptr n : Nat) : Bool :=
  (List.range n).all fun i => ((q.memory (ptr + i)).map Prod.snd).getD false

/-- A program at its start. Addresses have 48 bits. -/
def start (img : Image) (argv envp : ExecVec) : Program where
  memory := fun virt => if virt < 2 ^ 48 then startView img argv envp virt else none
  pages := spacePages img
  heapBreak := userTaskRegionBase + (spacePages img - 5) * userPageSize

/-- The buffer of a call, if it has one, is the program's own. -/
def Permits (q : Program) (c : UserCall) : Prop := ∀ b ∈ c.buffer, q.Owns b.1 b.2

instance decidablePermits (q : Program) (c : UserCall) : Decidable (q.Permits c) :=
  inferInstanceAs (Decidable (∀ b ∈ c.buffer, _))

/-- The call with the bytes its pointers stand for. -/
def request (q : Program) : UserCall → FileCall
  | .write fd ptr length => .write fd (q.load ptr.toNat length.toNat)
  | .openPath ptr length flags => .openPath (q.load ptr.toNat length.toNat) flags
  | .close fd => .close fd
  | .read fd _ length input => .read fd length.toNat input
  | .fstat fd _ => .fstat fd
  | .readdir fd _ length => .readdir fd length.toNat

end Program

/-! ## Processes -/

/-- `status` is what a process that has ended left, `program` is none for a kernel task. -/
structure Process where
  parent : TaskId
  status : Option Int
  fds : Fin 4 → Nat
  program : Option Program

structure OsState where
  system : FileSystem
  process : TaskId → Option Process
  current : TaskId

namespace OsState

def files (s : OsState) (p : Process) : TaskFiles := ⟨s.system, p.fds⟩

/-- The current process goes on as `p`, with the files `f`. -/
def put (s : OsState) (p : Process) (f : TaskFiles) : OsState :=
  { s with
    system := f.system
    process := Function.update s.process s.current (some { p with fds := f.fds }) }

/-- A call of the program `q` of the current process `p`. `wp` says whether the kernel respects
    pages a program may not store to. -/
def call (wp : Bool) (s : OsState) (p : Process) (q : Program) (c : UserCall) :
    Except String (Int × OsState) :=
  if ¬ q.Permits c then .ok (-1, s)
  else do
    let r ← (s.files p).call (q.request c)
    if r.1.2 ≠ [] ∧ ¬ c.aligned then .error "qword region base is unaligned"
    else if wp = true ∧ ¬ q.canStore (UserCall.start c) r.1.2.length then .error "page fault"
    else .ok (r.1.1, s.put { p with program := some (q.store (UserCall.start c) r.1.2) } r.2)

/-- What it takes of the kernel's heap. -/
def cost (s : OsState) (p : Process) (q : Program) (c : UserCall) : Nat :=
  if ¬ q.Permits c then 0 else (s.files p).cost (q.request c)

/-- The standard descriptors of a new process, if there are enough handles. -/
def standard (s : FileSystem) : Option ((Fin 4 → Nat) × FileSystem) :=
  let r0 := s.hand .consoleIn
  let r1 := r0.2.hand .consoleOut
  let r2 := r1.2.hand .consoleOut
  if r0.1.value = 0 ∨ r1.1.value = 0 ∨ r2.1.value = 0 then none
  else some (fun fd => [r0.1.value.toNat, r1.1.value.toNat, r2.1.value.toNat, 0].getD fd.val 0, r2.2)

/-- Close the descriptors of a process that is gone. -/
def closeAll (fds : Fin 4 → Nat) (s : FileSystem) : FileSystem :=
  [0, 1, 2, 3].foldl (fun s fd => if fds fd ≠ 0 then s.setHandle (fds fd) .closed else s) s

/-- Children of a process that ends go to task 1, and those of task 1 to the idle task. -/
def adopt (parent : TaskId) (p : Process) : Process :=
  if p.parent = parent then { p with parent := if parent ≠ 1 then 1 else 0 } else p

def exit (s : OsState) (status : Int) (next : TaskId) : OsState :=
  { s with
    process := fun t => (s.process t).map fun p =>
      if t = s.current then { adopt s.current p with status := some status } else adopt s.current p
    current := next }

end OsState

/-- A kernel task of the boot. -/
def kernelProcess (fds : Fin 4 → Nat) : Process := ⟨0, none, fds, none⟩

/-- The two tasks after the boot, over the files `s`. -/
def OsState.initial (s : FileSystem) (current : TaskId) : Option OsState :=
  (OsState.standard s).bind fun r0 => (OsState.standard r0.2).map fun r1 => {
    system := r1.2
    process := fun t => if t = 0 then some (kernelProcess r0.1)
      else if t = 1 then some (kernelProcess r1.1) else none
    current := current }

/-! ## Steps -/

/-- Acts that may come to nothing: refused calls, and work inside the kernel. -/
def Act.mayStay : Act → Bool
  | .exec .. | .brk _ | .waitpid .. | .resume _ | .loadImage _ | .alloc _ | .kernelStore .. => true
  | _ => false

/-- Acts after which another process may go on. -/
def Act.maySwitch : Act → Bool
  | .yield _ | .timerIrq .. | .timerInterrupt .. | .waitpid .. | .resume _ => true
  | _ => false

/-- The act asks for the process `t` among others: `waitpid` for it or for any, or a wait that goes
    on. -/
def Act.asksFor (t : TaskId) : Act → Bool
  | .waitpid pid _ => pid = -1 ∨ pid = t.val
  | .resume _ => true
  | _ => false

/-- Images without fields of 2^63 and more. -/
def Ordinary (img : Image) : Prop := img.length < 2 ^ 63 ∧ ∀ s ∈ segments img, PlainFields s

inductive OsStep (wp : Bool) (s : OsState) : Act → OsState → Prop
  | stay {a : Act} (ha : a.mayStay = true) : OsStep wp s a s
  | switch {a : Act} {next : TaskId} {n : Process} (ha : a.maySwitch = true)
      (hn : s.process next = some n) (hs : n.status = none) :
      OsStep wp s a { s with current := next }
  | kernelCall {p : Process} {c : FileCall} {r : Int × Bytes} {f : TaskFiles}
      (hp : s.process s.current = some p) (hr : (s.files p).call c = .ok (r, f)) :
      OsStep wp s (.kernelCall c) (s.put p f)
  | userCall {p : Process} {q : Program} {c : UserCall} {r : Int} {s' : OsState}
      (hp : s.process s.current = some p) (hq : p.program = some q)
      (hr : s.call wp p q c = .ok (r, s')) : OsStep wp s (.userCall c) s'
  | userStore {p : Process} {q : Program} {virt : Nat} {b x : UInt8}
      (hp : s.process s.current = some p) (hq : p.program = some q)
      (hx : q.memory (virt % 2 ^ 48) = some (x, true)) :
      OsStep wp s (.userStore virt b)
        (s.put { p with program := some (q.store (virt % 2 ^ 48) [b]) } (s.files p))
  | brk {p : Process} {q : Program} {requested : Int} (hp : s.process s.current = some p)
      (hq : p.program = some q) (hlo : q.heapBase ≤ requested) (hhi : requested ≤ q.heapLimit) :
      OsStep wp s (.brk requested)
        (s.put { p with program := some { q with heapBreak := requested } } (s.files p))
  | spawn {t : TaskId} {img : Image} {argv envp : ExecVec} {q : Program}
      {r : (Fin 4 → Nat) × FileSystem} (ht : s.process t = none)
      (hv : elfValidateUserImage img = .ok true) (hq : Ordinary img → q = .start img argv envp)
      (hr : OsState.standard s.system = some r) :
      OsStep wp s (.spawn img argv envp) { s with
        system := r.2
        process := Function.update s.process t (some ⟨s.current, none, r.1, some q⟩) }
  | exec {p : Process} {q₀ q : Program} {img : Image} {argv envp : ExecVec}
      (hp : s.process s.current = some p) (hp₀ : p.program = some q₀)
      (hv : elfValidateUserImage img = .ok true) (hq : Ordinary img → q = .start img argv envp) :
      OsStep wp s (.exec img argv envp) (s.put { p with program := some q } (s.files p))
  | exit {status : Int} {regs : Ctx} {next : TaskId} {n : Process} (h0 : s.current ≠ 0)
      (hne : next ≠ s.current) (hn : s.process next = some n) (hs : n.status = none) :
      OsStep wp s (.exit status regs) (s.exit status next)
  | reap {a : Act} {t : TaskId} {p : Process} {status : Int} (ha : a.asksFor t = true)
      (hp : s.process t = some p) (hc : p.parent = s.current) (hs : p.status = some status) :
      OsStep wp s a { s with
        system := OsState.closeAll p.fds s.system, process := Function.update s.process t none }

end PcoOs.Kernel
