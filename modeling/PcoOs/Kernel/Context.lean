/-
  Saved contexts over whole runs. A step writes old heap memory in the span of the current task
  only, so what a task left behind when it was switched out is what it finds when it is switched
  to again: `context_integrity`.
-/
import PcoOs.Kernel.Progress

namespace PcoOs.Kernel

open PcoOs.Lib PcoOs.Pmm PcoOs.Support PcoOs.Vmm PcoOs.Elf PcoOs.Image PcoOs.Sched PcoOs.Vfs
  PcoOs.Syscall

/-! ## What a switch leaves -/

section Step

variable {k k' : KernelState} {a : Act}

/-- The kernel's code does not move. -/
theorem Effect.code (h : Effect k a k') : k'.code = k.code := by
  cases h with
  | files h hm =>
    obtain ⟨vfs, heap, fds, rfl⟩ := h.shape
    rfl
  | _ => rfl

/-- A task that becomes current is entered through its context. -/
theorem Effect.enters (h : Effect k a k') (hc : k'.current ≠ k.current) :
    k'.cpu = enterContext k'.code k'.heap.mem (k'.task k'.current).contextPtr := by
  cases h with
  | files h hm =>
    obtain ⟨vfs, heap, fds, rfl⟩ := h.shape
    exact absurd rfl hc
  | leave now hne q hw hq hs => rfl
  | exit ha hne0 hne q hq hs => rfl
  | _ => exact absurd rfl hc

/-- A task that stops being current has saved its registers. -/
theorem Effect.saved (h : Effect k a k') (hc : k'.current ≠ k.current) :
    SavedAs k a.saves k'.heap.mem := by
  cases h with
  | files h hm =>
    obtain ⟨vfs, heap, fds, rfl⟩ := h.shape
    exact absurd rfl hc
  | leave now hne q hw hq hs => exact hs
  | exit ha hne0 hne q hq hs => exact hs
  | _ => exact absurd rfl hc

theorem Effect.left_present (hk : KernelOk k) (h : Effect k a k') (hc : k'.current ≠ k.current) :
    (k'.task k.current).state ≠ .empty := by
  have hr : (k.task k.current).state = .runnable := hk.queue.current_runnable
  cases h with
  | files h hm =>
    obtain ⟨vfs, heap, fds, rfl⟩ := h.shape
    exact absurd rfl hc
  | leave now hne q hw hq hs =>
    show (k.task k.current).state ≠ .empty
    rw [hr]
    decide
  | @exit exitCode regs ha hne0 next hne q hq m hs =>
    show ((exitCurrent k.sched exitCode).task k.sched.currentTask).state ≠ .empty
    rw [exitCurrent_task, if_pos rfl]
    decide
  | _ => exact absurd rfl hc

end Step

/-! ## Resuming -/

/-- Entering `row` leads to `c`, whatever the memory outside its span. -/
def Resumes (code : Code) (row : Task) (m : Mem) (c : Cpu) : Prop :=
  ∀ m' : Mem, (∀ x, spanStart row ≤ x → x < spanStop row → m' x = m x) →
    enterContext code m' row.contextPtr = c

theorem resumes_switch {code : Code} {row : Task} (hb : RowBlocks row) {regs : Ctx} {m : Mem}
    (hs : row.stackBase ≤ regs.rsp.toNat ∧ regs.rsp.toNat + 8 ≤ row.stackBase + taskStackSize) :
    Resumes code row
      (storeWords (storeQword m regs.rsp.toNat code.switchReturn.toNat) row.contextPtr regs.words)
      (.kernel code.switchReturn regs) := by
  have hstart := hb.start_le
  have hc := hb.context
  intro m' hm'
  unfold spanStop at hm'
  have hctx : loadContext m' row.contextPtr = regs := by
    refine (loadContext_congr fun x h1 h2 => hm' x (by omega) ?_).trans
      (loadContext_storeWords _ _ _)
    unfold taskStackSize
    omega
  refine enterContext_switch hctx ?_
  -- the return address lies in the stack, above the context
  refine (loadWord_congr fun x h1 h2 => hm' x (by omega) (by omega)).trans ?_
  refine (loadWord_congr fun x h1 h2 => storeWords_of_outside _ (Or.inr ?_)).trans
    (loadWord_storeQword m regs.rsp.toNat code.switchReturn)
  show row.contextPtr + 8 * 7 ≤ x
  omega

theorem resumes_irq {code : Code} {row : Task} (hb : RowBlocks row) (hm : row.mode = .user)
    (hlt : spanStop row < 2 ^ 63) {regs : UserRegs} {m m₁ : Mem}
    (h : schedulerConfigureInterruptReturnContext code
      (storeWords m row.irqFramePtr (pushRegs regs)) row.contextPtr row.stackBase row.irqFramePtr =
      .ok m₁) : Resumes code row m₁ (.user regs) := by
  have hstart := hb.start_le
  have hc := hb.context
  have hf := hb.frame hm
  unfold schedulerConfigureInterruptReturnContext at h
  obtain ⟨m₂, hm₂, hload, htramp, hout⟩ := configureContext_spec
    (m := storeWords m row.irqFramePtr (pushRegs regs)) code.interruptReturn 0 0
    (UInt64.ofNat row.irqFramePtr) 0 0
    hc.1 hc.2.1 hc.2.2 hb.stack
  rw [h] at hm₂
  cases hm₂
  have hspan : spanStart row = row.irqFramePtr := by
    unfold spanStart
    rw [hm]
  unfold spanStop taskStackSize at hlt
  have htoNat : ∀ n, n < 2 ^ 63 → (UInt64.ofNat n).toNat = n := fun n hn =>
    UInt64.toNat_ofNat_of_lt' (by unfold UInt64.size; omega)
  intro m' hm'
  unfold spanStop taskStackSize at hm'
  have hctx : loadContext m' row.contextPtr =
      ⟨UInt64.ofNat (row.stackBase + 4088), 0, 0, UInt64.ofNat row.irqFramePtr, 0, 0, 0⟩ :=
    (loadContext_congr fun x h1 h2 => hm' x (by omega) (by omega)).trans hload
  refine enterContext_interrupt ?_ fun i hi => ?_
  · rw [hctx]
    dsimp only
    rw [htoNat _ (by omega)]
    exact (loadWord_congr fun x h1 h2 => hm' x (by omega) (by omega)).trans htramp
  · rw [hctx]
    dsimp only
    rw [htoNat _ (by omega)]
    -- the frame lies below the context, which was written later
    refine (loadWord_congr fun x h1 h2 => hm' x (by omega) (by omega)).trans ?_
    refine (loadWord_congr fun x h1 h2 => hout x (Or.inl (by omega))).trans ?_
    exact loadWord_storeWords (pushRegs regs) hi

section Run

variable {k k' : KernelState} {a : Act}

theorem BlocksInv.stop_lt (hb : BlocksInv k) (hk : KernelOk k) {t : TaskId}
    (ht : (k.task t).state ≠ .empty) : spanStop (k.task t) < 2 ^ 63 := by
  have h1 := hb.stop t ht
  have h2 := hk.heap.le
  have h3 := hk.heap.stop_lt
  omega

/-- What the current task resumes with after an act that saved its registers. -/
def Saves.cpu (code : Code) : Saves → Cpu → Prop
  | .nothing, _ => False
  | .switch regs, c => c = .kernel code.switchReturn regs
  | .irq regs, c => c = .user regs

theorem SavedAs.resumes (hk : KernelOk k) (hb : BlocksInv k) {sv : Saves} {m : Mem}
    (h : SavedAs k sv m) {c : Cpu} (hc : sv.cpu k.code c) :
    Resumes k.code (k.task k.current) m c := by
  have hne := hk.current_present
  have hrow := hb.row _ hne
  cases sv with
  | nothing => exact False.elim h
  | switch regs =>
    obtain ⟨hs, rfl⟩ := h
    cases hc
    exact resumes_switch hrow hs
  | irq regs =>
    obtain ⟨hm, h⟩ := h
    cases hc
    unfold schedulerSaveUserIrqContext at h
    dsimp only at h
    split_ifs at h
    obtain ⟨m₁, h₁, h⟩ := bind_eq_ok.mp h
    unfold schedulerCopyInterruptFrame at h₁
    obtain ⟨-, -, h₁⟩ := bind_eq_ok.mp h₁
    cases h₁
    exact resumes_irq hrow hm (hb.stop_lt hk hne) h

/-- A stretch of a run in which `t` stays in its slot and every step is one of another task. -/
inductive Away (t : TaskId) (k : KernelState) : KernelState → Prop
  | refl : Away t k k
  | step {k₁ k₂ : KernelState} {a : Act} (h : Away t k k₁) (hc : k₁.current ≠ t)
      (he : Enabled k₁ a) (ha : act k₁ a = .ok k₂) (ht : (k₂.task t).state ≠ .empty) : Away t k k₂

/-- What such a stretch leaves alone. -/
structure Kept (t : TaskId) (k k' : KernelState) : Prop where
  ok : KernelOk k'
  blocks : BlocksInv k'
  present : (k'.task t).state ≠ .empty
  row : SameBlocks (k.task t) (k'.task t)
  code : k'.code = k.code
  mem : ∀ x, spanStart (k.task t) ≤ x → x < spanStop (k.task t) → k'.heap.mem x = k.heap.mem x

theorem Away.kept {t : TaskId} (hk : KernelOk k) (hb : BlocksInv k)
    (ht : (k.task t).state ≠ .empty) (h : Away t k k') : Kept t k k' := by
  induction h with
  | refl => exact ⟨hk, hb, ht, SameBlocks.refl _, rfl, fun _ _ _ => rfl⟩
  | @step k₁ k₂ a _ hc he ha ht₂ ih =>
    have heff := (act_effect ih.ok he).of_ok ha
    have hrow := heff.sameBlocks ih.ok ih.present ht₂
    refine ⟨heff.kernelOk ih.ok, heff.blocksInv ih.ok ih.blocks, ht₂,
      ⟨fun _ => ht, hrow.mode.trans ih.row.mode, hrow.context.trans ih.row.context,
        hrow.stack.trans ih.row.stack, hrow.frame.trans ih.row.frame⟩,
      heff.code.trans ih.code, fun x h1 h2 => ?_⟩
    have hcur := ih.ok.current_present
    have hstop := ih.blocks.stop t ih.present
    have hstart := ih.row.start
    have hstop' := ih.row.stop
    refine (heff.span ih.ok ih.blocks (by omega) ?_).trans (ih.mem x h1 h2)
    rcases ih.blocks.apart _ _ hc hcur ih.present with hap | hap
    · exact Or.inr (by omega)
    · exact Or.inl (by omega)

/-- A task that comes back after a stretch is entered with what it saved. -/
theorem Away.resumes {t : TaskId} (hk : KernelOk k) (hb : BlocksInv k)
    (ht : (k.task t).state ≠ .empty) {c : Cpu}
    (hr : Resumes k.code (k.task t) k.heap.mem c) (hc : k.current ≠ t) (h : Away t k k')
    (hc' : k'.current = t) : k'.cpu = c := by
  have hkept := h.kept hk hb ht
  cases h with
  | refl => exact absurd hc' hc
  | @step k₁ _ a h₁ hc₁ he ha ht₂ =>
    have hkept₁ := h₁.kept hk hb ht
    have heff := (act_effect hkept₁.ok he).of_ok ha
    have hne : k'.current ≠ k₁.current := fun heq => hc₁ (heq.symm.trans hc')
    rw [heff.enters hne, hc', hkept.row.context, hkept.code]
    exact hr _ hkept.mem

end Run

/-! ## The main result -/

/-- The saved registers of the tasks that are not current, in all stretches from a state on. -/
structure ContextIntegrity (k : KernelState) : Prop where
  /-- The seven words of the context. -/
  context : ∀ t k', (k.task t).state ≠ .empty → Away t k k' →
    (k'.task t).contextPtr = (k.task t).contextPtr ∧
      loadContext k'.heap.mem (k.task t).contextPtr = loadContext k.heap.mem (k.task t).contextPtr
  /-- The twenty words of the frame buffer. -/
  frame : ∀ t k', (k.task t).state ≠ .empty → (k.task t).mode = .user → Away t k k' →
    (k'.task t).irqFramePtr = (k.task t).irqFramePtr ∧
      ∀ i < 20, loadWord k'.heap.mem ((k.task t).irqFramePtr + 8 * i) =
        loadWord k.heap.mem ((k.task t).irqFramePtr + 8 * i)
  /-- A preempted program goes on with the registers it had. -/
  preempted : ∀ now regs k₁ k₂, Enabled k (.timerIrq now regs) →
    act k (.timerIrq now regs) = .ok k₁ → k₁.current ≠ k.current → Away k.current k₁ k₂ →
    k₂.current = k.current → k₂.cpu = .user regs
  /-- A task that called `context_switch_asm` returns from it. -/
  switched : ∀ a regs k₁ k₂, a.saves = .switch regs → Enabled k a → act k a = .ok k₁ →
    k₁.current ≠ k.current → Away k.current k₁ k₂ → k₂.current = k.current →
    k₂.cpu = .kernel k.code.switchReturn regs

/-- An act after which the current task is away, and its return. -/
theorem act_resumes {k k₁ k₂ : KernelState} {a : Act} (hk : KernelOk k) (hb : BlocksInv k)
    (he : Enabled k a) (ha : act k a = .ok k₁) (hc : k₁.current ≠ k.current)
    (haway : Away k.current k₁ k₂) (hback : k₂.current = k.current) {c : Cpu}
    (hcpu : a.saves.cpu k.code c) : k₂.cpu = c := by
  have heff := (act_effect hk he).of_ok ha
  have hne := hk.current_present
  have hne₁ := heff.left_present hk hc
  have hrow := heff.sameBlocks hk hne hne₁
  have hres := (heff.saved hc).resumes hk hb hcpu
  refine haway.resumes (heff.kernelOk hk) (heff.blocksInv hk hb) hne₁ ?_ hc hback
  rw [heff.code]
  intro m' hm'
  rw [hrow.context]
  refine hres m' fun x h1 h2 => hm' x ?_ ?_
  · rw [hrow.start]
    exact h1
  · rw [hrow.stop]
    exact h2

/-- Saved contexts in every reachable state. -/
theorem context_integrity (M : Machine) (k : KernelState) (h : Reachable M k) :
    ContextIntegrity k := by
  obtain ⟨hk, hb⟩ := h.blocksInv
  refine ⟨fun t k' ht haway => ?_, fun t k' ht hm haway => ?_, ?_, ?_⟩
  · have hkept := haway.kept hk hb ht
    have hrow := hb.row t ht
    have hstart := hrow.start_le
    have hctx := hrow.context
    refine ⟨hkept.row.context, loadContext_congr fun x h1 h2 => hkept.mem x (by omega) ?_⟩
    unfold spanStop taskStackSize
    omega
  · have hkept := haway.kept hk hb ht
    have hrow := hb.row t ht
    have hf := hrow.frame hm
    have hctx := hrow.context
    have hspan : spanStart (k.task t) = (k.task t).irqFramePtr := by
      unfold spanStart
      rw [hm]
    refine ⟨hkept.row.frame, fun i hi => loadWord_congr fun x h1 h2 => hkept.mem x (by omega) ?_⟩
    unfold spanStop taskStackSize
    omega
  · intro now regs k₁ k₂ he ha hc haway hback
    exact act_resumes hk hb he ha hc haway hback rfl
  · intro a regs k₁ k₂ hsaves he ha hc haway hback
    refine act_resumes hk hb he ha hc haway hback ?_
    rw [hsaves]
    rfl

theorem context_integrity_small : ∃ k, Reachable smallMachine k ∧ IsUser (k.task k.current) ∧
    ContextIntegrity k := by
  obtain ⟨k, hr, hu⟩ := smallMachine_runs
  exact ⟨k, hr, hu.user, context_integrity smallMachine k hr⟩

end PcoOs.Kernel
