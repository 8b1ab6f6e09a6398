/-
  Register state in memory: the seven words `context_switch_asm` saves and restores, the twenty
  words `isr32` finds on its stack, and what the processor runs once a context is entered. The
  three trampolines of `runtime.s` are the only addresses a saved context of the kernel returns
  to, besides the return address `context_switch_asm` was called with.
-/
import PcoOs.Support.Region

namespace PcoOs.Kernel

open PcoOs.Lib PcoOs.Support

/-! ## Words in memory -/

def loadWord (m : Mem) (a : Nat) : UInt64 := UInt64.ofNat (loadQword m a)

/-- Store consecutive words from `a` on. -/
def storeWords (m : Mem) (a : Nat) : List UInt64 → Mem
  | [] => m
  | w :: ws => storeWords (storeQword m a w.toNat) (a + 8) ws

theorem storeWords_of_outside {m : Mem} {a x : Nat} (ws : List UInt64)
    (h : x < a ∨ a + 8 * ws.length ≤ x) : storeWords m a ws x = m x := by
  induction ws generalizing m a with
  | nil => rfl
  | cons w ws ih =>
    rw [List.length_cons] at h
    rw [storeWords, ih (by omega)]
    exact storeQword_of_outside (by omega)

theorem loadWord_congr {m m' : Mem} {a : Nat} (h : ∀ x, a ≤ x → x < a + 8 → m' x = m x) :
    loadWord m' a = loadWord m a := by
  unfold loadWord
  rw [loadQword_congr h]

theorem loadWord_storeQword (m : Mem) (a : Nat) (w : UInt64) :
    loadWord (storeQword m a w.toNat) a = w := by
  unfold loadWord
  rw [loadQword_storeQword, Nat.mod_eq_of_lt w.toNat_lt]
  exact UInt64.ofNat_toNat

/-- Reading back word `i`. -/
theorem loadWord_storeWords {m : Mem} {a i : Nat} (ws : List UInt64) (hi : i < ws.length) :
    loadWord (storeWords m a ws) (a + 8 * i) = ws.getD i 0 := by
  induction ws generalizing m a i with
  | nil => exact absurd hi (Nat.not_lt_zero i)
  | cons w ws ih =>
    rw [storeWords]
    cases i with
    | zero =>
      rw [loadWord_congr (m := storeQword m a w.toNat)
        fun x _ _ => storeWords_of_outside ws (by omega)]
      exact loadWord_storeQword m a w
    | succ i =>
      rw [List.length_cons] at hi
      rw [show a + 8 * (i + 1) = a + 8 + 8 * i by omega, ih (by omega)]
      rfl

/-! ## Contexts -/

/-- The saved context, in the order of `context_slot_*`. -/
structure Ctx where
  rsp : UInt64
  rbx : UInt64
  rbp : UInt64
  r12 : UInt64
  r13 : UInt64
  r14 : UInt64
  r15 : UInt64
  deriving DecidableEq, Repr

def Ctx.words (c : Ctx) : List UInt64 := [c.rsp, c.rbx, c.rbp, c.r12, c.r13, c.r14, c.r15]

/-- The loads of `context_switch_asm` and `restore_task_context_asm`. -/
def loadContext (m : Mem) (ptr : Nat) : Ctx where
  rsp := loadWord m (ptr + 0)
  rbx := loadWord m (ptr + 8)
  rbp := loadWord m (ptr + 16)
  r12 := loadWord m (ptr + 24)
  r13 := loadWord m (ptr + 32)
  r14 := loadWord m (ptr + 40)
  r15 := loadWord m (ptr + 48)

theorem loadContext_storeWords (m : Mem) (ptr : Nat) (c : Ctx) :
    loadContext (storeWords m ptr c.words) ptr = c := by
  have h := fun i (hi : i < 7) => loadWord_storeWords (m := m) (a := ptr) (i := i) c.words hi
  unfold loadContext
  rw [h 0 (by omega), show ptr + 8 = ptr + 8 * 1 by omega, h 1 (by omega),
    show ptr + 16 = ptr + 8 * 2 by omega, h 2 (by omega), show ptr + 24 = ptr + 8 * 3 by omega,
    h 3 (by omega), show ptr + 32 = ptr + 8 * 4 by omega, h 4 (by omega),
    show ptr + 40 = ptr + 8 * 5 by omega, h 5 (by omega), show ptr + 48 = ptr + 8 * 6 by omega,
    h 6 (by omega)]
  rfl

theorem loadContext_congr {m m' : Mem} {ptr : Nat}
    (h : ∀ x, ptr ≤ x → x < ptr + 56 → m' x = m x) : loadContext m' ptr = loadContext m ptr := by
  have hw : ∀ i, i + 8 ≤ 56 → loadWord m' (ptr + i) = loadWord m (ptr + i) := fun i hi =>
    loadWord_congr fun x h1 h2 => h x (by omega) (by omega)
  unfold loadContext
  rw [hw 0 (by omega), hw 8 (by omega), hw 16 (by omega), hw 24 (by omega), hw 32 (by omega),
    hw 40 (by omega), hw 48 (by omega)]

/-! ## Interrupt frames -/

/-- What an interrupted program has in its registers. -/
structure UserRegs where
  rax : UInt64
  rbx : UInt64
  rcx : UInt64
  rdx : UInt64
  rsi : UInt64
  rdi : UInt64
  rbp : UInt64
  r8 : UInt64
  r9 : UInt64
  r10 : UInt64
  r11 : UInt64
  r12 : UInt64
  r13 : UInt64
  r14 : UInt64
  r15 : UInt64
  rip : UInt64
  cs : UInt64
  rflags : UInt64
  rsp : UInt64
  ss : UInt64
  deriving DecidableEq, Repr

/-- The stack of `isr32` after `PUSH_REGS`, lowest address first. The processor pushed the last
    five words; each push puts its register in front. -/
def pushRegs (r : UserRegs) : List UInt64 :=
  [r.r15, r.r14, r.r13, r.r12, r.r11, r.r10, r.r9, r.r8, r.rbp, r.rdi, r.rsi, r.rdx, r.rcx,
    r.rbx, r.rax].foldl (fun stack w => w :: stack) [r.rip, r.cs, r.rflags, r.rsp, r.ss]

/-- The pops of `interrupt_return_trampoline_asm` and its `iretq`, from a stack whose word `i`
    is `w i`. -/
def popRegs (w : Nat → UInt64) : UserRegs where
  rax := w 0
  rbx := w 1
  rcx := w 2
  rdx := w 3
  rsi := w 4
  rdi := w 5
  rbp := w 6
  r8 := w 7
  r9 := w 8
  r10 := w 9
  r11 := w 10
  r12 := w 11
  r13 := w 12
  r14 := w 13
  r15 := w 14
  rip := w 15
  cs := w 16
  rflags := w 17
  rsp := w 18
  ss := w 19

@[simp] theorem length_pushRegs (r : UserRegs) : (pushRegs r).length = 20 := rfl

/-- Both files agree on the layout. -/
theorem popRegs_pushRegs (r : UserRegs) : popRegs (fun i => (pushRegs r).getD i 0) = r := rfl

theorem popRegs_congr {v w : Nat → UInt64} (h : ∀ i < 20, v i = w i) : popRegs v = popRegs w := by
  unfold popRegs
  rw [h 0 (by omega), h 1 (by omega), h 2 (by omega), h 3 (by omega), h 4 (by omega),
    h 5 (by omega), h 6 (by omega), h 7 (by omega), h 8 (by omega), h 9 (by omega),
    h 10 (by omega), h 11 (by omega), h 12 (by omega), h 13 (by omega), h 14 (by omega),
    h 15 (by omega), h 16 (by omega), h 17 (by omega), h 18 (by omega), h 19 (by omega)]

/-! ## Entering a context -/

/-- Four places in the kernel's code. -/
structure Code where
  task : UInt64
  userTask : UInt64
  interruptReturn : UInt64
  switchReturn : UInt64
  switch_ne : switchReturn ≠ interruptReturn ∧ switchReturn ≠ userTask

/-- What the processor runs. `kernel rip c` is kernel code at `rip`, with the callee-saved
    registers of `c`; `enterUser` is a program at its entry point with its first arguments. -/
inductive Cpu where
  | kernel (rip : UInt64) (c : Ctx)
  | user (regs : UserRegs)
  | enterUser (rip rsp rdi rsi rdx : UInt64)
  deriving DecidableEq, Repr

/-- Load the context at `ptr` and return to the address on its stack. Returning to a trampoline
    is followed to its end. -/
def enterContext (code : Code) (m : Mem) (ptr : Nat) : Cpu :=
  let c := loadContext m ptr
  let rip := loadWord m c.rsp.toNat
  if rip = code.interruptReturn then .user (popRegs fun i => loadWord m (c.r12.toNat + 8 * i))
  else if rip = code.userTask then .enterUser c.r12 c.r13 c.rbx c.rbp c.r14
  else .kernel rip c

/-- A context that switched out through `context_switch_asm`. -/
theorem enterContext_switch {code : Code} {m : Mem} {ptr : Nat} {c : Ctx}
    (hc : loadContext m ptr = c) (hr : loadWord m c.rsp.toNat = code.switchReturn) :
    enterContext code m ptr = .kernel code.switchReturn c := by
  unfold enterContext
  dsimp only
  rw [hc, hr, if_neg code.switch_ne.1, if_neg code.switch_ne.2]

/-- A context that was left by the timer interrupt. -/
theorem enterContext_interrupt {code : Code} {m : Mem} {ptr : Nat} {r : UserRegs}
    (hr : loadWord m (loadContext m ptr).rsp.toNat = code.interruptReturn)
    (hf : ∀ i < 20, loadWord m ((loadContext m ptr).r12.toNat + 8 * i) = (pushRegs r).getD i 0) :
    enterContext code m ptr = .user r := by
  unfold enterContext
  dsimp only
  rw [hr, if_pos rfl, popRegs_congr hf, popRegs_pushRegs]

/-! ## Writing a context -/

/-- `set_task_context_qword` for the seven slots. -/
def setTaskContext (m : Mem) (ctxPtr : Nat) (c : Ctx) : Except String Mem := do
  checkQwordRegion ctxPtr 7 0
  .ok (storeWords m ctxPtr c.words)

def taskStackSize : Nat := 4096

/-- The end of a kernel stack, where `rsp0` points. -/
def taskKernelRsp0Top (stackBase : Nat) : Nat := alignDown (stackBase + taskStackSize) 16

/-- What the three `scheduler_*_context` functions share: a trampoline on the empty kernel stack
    and a context that returns to it. -/
def configureContext (m : Mem) (ctxPtr stackBase : Nat) (trampoline rbx rbp r12 r13 r14 : UInt64) :
    Except String Mem := do
  let initialRsp := taskKernelRsp0Top stackBase - 8
  let m ← storeQwordRegion m initialRsp 1 0 trampoline.toNat
  setTaskContext m ctxPtr ⟨UInt64.ofNat initialRsp, rbx, rbp, r12, r13, r14, 0⟩

def schedulerConfigureUserTaskContext (code : Code) (m : Mem) (ctxPtr stackBase : Nat)
    (userRip userRsp argc argvPtr envpPtr : UInt64) : Except String Mem :=
  configureContext m ctxPtr stackBase code.userTask argc argvPtr userRip userRsp envpPtr

def schedulerConfigureInterruptReturnContext (code : Code) (m : Mem) (ctxPtr stackBase : Nat)
    (framePtr : Nat) : Except String Mem :=
  configureContext m ctxPtr stackBase code.interruptReturn 0 0 (UInt64.ofNat framePtr) 0 0

/-- The part of `scheduler_prepare_kernel_task_context` after its allocations. -/
def configureKernelTaskContext (code : Code) (m : Mem) (ctxPtr stackBase taskId : Nat) :
    Except String Mem :=
  configureContext m ctxPtr stackBase code.task 0 0 (UInt64.ofNat taskId) 0 0

/-- `scheduler_copy_interrupt_frame`. -/
def schedulerCopyInterruptFrame (m : Mem) (dst : Nat) (frame : List UInt64) :
    Except String Mem := do
  checkQwordRegion dst 20 0
  .ok (storeWords m dst frame)

end PcoOs.Kernel
