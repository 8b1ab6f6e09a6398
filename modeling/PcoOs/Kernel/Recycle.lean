/-
  The recycle stack of the page allocator never fills up. A page goes back only after it was handed
  out, and pages come from the regions only while the stack is empty, so the stack is as large as
  the most pages ever handed out at one time (`HighWater`). At rest these are the kernel root and
  at most 76 pages for each of eight tasks; within a step a spawn takes 213 more, and an exec, which
  holds the old image and the new one together, at most 276.
-/
import PcoOs.Image.Usage
import PcoOs.Kernel.Spawn

namespace PcoOs.Kernel

open PcoOs.Lib PcoOs.Pmm PcoOs.Support PcoOs.Vmm PcoOs.Elf PcoOs.Image PcoOs.Sched PcoOs.Vfs
  PcoOs.Syscall

/-! ## Files -/

section Files

variable (v : VfsState) (heap : Heap)

@[simp] theorem vfsDesc_avoids (d : Nat) : Avoids recycleFull (vfsDesc v d) := by
  simp [vfsDesc, recycleFull]

@[simp] theorem vfsNode_avoids (id : Nat) : Avoids recycleFull (vfsNode v id) := by
  simp [vfsNode, recycleFull]

@[simp] theorem vfsCloseDescriptor_avoids (d : Nat) :
    Avoids recycleFull (vfsCloseDescriptor v d) := by
  simp [vfsCloseDescriptor]

@[simp] theorem vfsNormalizePath_avoids (path : Bytes) :
    Avoids recycleFull (vfsNormalizePath heap path) := by
  simp [vfsNormalizePath]

@[simp] theorem vfsPathParent_avoids (path : Bytes) :
    Avoids recycleFull (vfsPathParent heap path) := by
  simp [vfsPathParent]

@[simp] theorem vfsCreateTmpfsFile_avoids (path : Bytes) :
    Avoids recycleFull (vfsCreateTmpfsFile v heap path) := by
  unfold vfsCreateTmpfsFile
  simp only [avoids_ite, avoids_ok, avoids_bind, vfsPathParent_avoids, true_and, implies_true]
  intro _ r _
  split <;> simp [recycleFull]

@[simp] theorem vfsGrowNodeData_avoids (id size : Nat) :
    Avoids recycleFull (vfsGrowNodeData v heap id size) := by
  simp [vfsGrowNodeData]

@[simp] theorem createIfAsked_avoids (path : Bytes) (flags : Int) :
    Avoids recycleFull (createIfAsked v heap path flags) := by
  simp [createIfAsked]

@[simp] theorem vfsOpenPath_avoids (path : Bytes) (flags : Int) :
    Avoids recycleFull (vfsOpenPath v heap path flags) := by
  unfold vfsOpenPath
  simp only [avoids_ite, avoids_ok, avoids_bind, vfsNormalizePath_avoids, true_and, implies_true]
  intro _ _ r _
  split
  · simp
  simp only [avoids_ite, avoids_ok, implies_true, true_and]
  intro _
  split
  · simp only [avoids_bind, createIfAsked_avoids, true_and]
    intro r _
    split <;> simp
  · simp

@[simp] theorem vfsWriteDescriptor_avoids (d : Nat) (bytes : Bytes) :
    Avoids recycleFull (vfsWriteDescriptor v heap d bytes) := by
  simp [vfsWriteDescriptor]

@[simp] theorem vfsStatDescriptor_avoids (d : Nat) :
    Avoids recycleFull (vfsStatDescriptor v d) := by
  unfold vfsStatDescriptor
  simp only [avoids_ite, avoids_ok, avoids_bind, vfsDesc_avoids, true_and, implies_true]
  intro _ r _
  split <;> simp

@[simp] theorem vfsReaddirDescriptor_avoids (d n : Nat) :
    Avoids recycleFull (vfsReaddirDescriptor v d n) := by
  unfold vfsReaddirDescriptor
  simp only [avoids_ite, avoids_ok, avoids_bind, vfsDesc_avoids, true_and, implies_true]
  intro _ r _ _
  split <;> simp

@[simp] theorem vfsReadDescriptor_avoids (input : Bytes) (d n : Nat) :
    Avoids recycleFull (vfsReadDescriptor v input d n) := by
  unfold vfsReadDescriptor
  simp only [avoids_ite, avoids_ok, avoids_bind, vfsDesc_avoids, true_and, implies_true]
  intro _ r _
  split <;> simp

@[simp] theorem schedulerInitTaskFds_avoids : Avoids recycleFull (schedulerInitTaskFds v) := by
  simp [schedulerInitTaskFds, recycleFull]

@[simp] theorem schedulerReleaseTaskFds_avoids (fds : Fin 4 → Nat) :
    Avoids recycleFull (schedulerReleaseTaskFds fds v) := by
  simp [schedulerReleaseTaskFds, closeIfOpen]

@[simp] theorem syscallLoadExecImage_avoids (path : Bytes) :
    Avoids recycleFull (syscallLoadExecImage v heap path) := by
  simp [syscallLoadExecImage, closeWithoutImage]

@[simp] theorem fileCall_avoids (k : KernelState) (c : FileCall) :
    Avoids recycleFull (fileCall k c) := by
  cases c with
  | openPath path flags =>
    simp only [fileCall, avoids_bind, vfsOpenPath_avoids, avoids_ite, avoids_ok, true_and,
      implies_true]
    intro r _ _
    split <;> simp
  | close fd =>
    unfold fileCall
    dsimp only
    split <;> simp
  | _ => simp [fileCall]

end Files

/-! ## User memory -/

section User

variable (m : Mem) (root virt : Nat)

@[simp] theorem loadUserByte_avoids : Avoids recycleFull (loadUserByte m root virt) := by
  unfold loadUserByte
  split <;> simp [recycleFull]

@[simp] theorem loadUserBytes_avoids (n : Nat) :
    Avoids recycleFull (loadUserBytes m root virt n) := by
  induction n generalizing virt with
  | zero => simp [loadUserBytes]
  | succ n ih => simp [loadUserBytes, ih]

@[simp] theorem storeUserBytes_avoids (wp : Bool) (bytes : Bytes) :
    Avoids recycleFull (storeUserBytes wp root virt bytes m) := by
  induction bytes generalizing virt m with
  | nil => simp [storeUserBytes]
  | cons b bytes ih =>
    simp only [storeUserBytes, avoids_bind, ih, implies_true, and_true]
    unfold storeUserByte
    split <;> simp [recycleFull]

@[simp] theorem userCall_avoids (k : KernelState) (c : UserCall) :
    Avoids recycleFull (Syscall.userCall k c) := by
  have hf : Avoids recycleFull (c.fetch k.phys.mem k.phys.cr3) := by
    cases c <;> simp [UserCall.fetch]
  simp [Syscall.userCall, userCallBytes, hf, recycleFull]

@[simp] theorem userModeStore_avoids (b : UInt8) :
    Avoids recycleFull (userModeStore m root virt b) := by
  unfold userModeStore
  split <;> simp [recycleFull]

end User

/-! ## Contexts -/

@[simp] theorem configureContext_avoids (m : Mem) (ctxPtr stackBase : Nat)
    (trampoline rbx rbp r12 r13 r14 : UInt64) :
    Avoids recycleFull (configureContext m ctxPtr stackBase trampoline rbx rbp r12 r13 r14) := by
  simp [configureContext, setTaskContext]

@[simp] theorem allocTaskBlocks_avoids (heap : Heap) :
    Avoids recycleFull (allocTaskBlocks heap) := by
  simp [allocTaskBlocks]

@[simp] theorem schedulerSaveUserIrqContext_avoids (k : KernelState) (t : TaskId)
    (frame : List UInt64) : Avoids recycleFull (schedulerSaveUserIrqContext k t frame) := by
  simp [schedulerSaveUserIrqContext, schedulerCopyInterruptFrame,
    schedulerConfigureInterruptReturnContext, recycleFull]

@[simp] theorem buildUserTask_avoids (k : KernelState) (img : Image) (argv envp : ExecVec) :
    Avoids recycleFull (buildUserTask k img argv envp) := by
  simp [buildUserTask, schedulerPrepareUserTaskContext, schedulerConfigureUserTaskContext,
    recycleFull]

/-! ## The scheduler -/

/-- The panic as the scheduler sees it. -/
abbrev recycleFullPanic : Panic := .message recycleFull

@[simp] theorem orPanic_avoids {α : Type} {e : String} {x : Except String α} :
    Avoids (.message e) (orPanic x) ↔ Avoids e x := by
  cases x with
  | ok a => simp [orPanic, Except.mapError]
  | error e' => simp [orPanic, Except.mapError]

section Scheduler

variable (s : SchedState) (k : KernelState)

@[simp] theorem schedulerEnqueueTask_avoids (t : TaskId) :
    Avoids recycleFullPanic (schedulerEnqueueTask s t) := by
  simp [schedulerEnqueueTask]

@[simp] theorem schedulerPickNextTask_avoids :
    Avoids recycleFullPanic (schedulerPickNextTask s) := by
  simp [schedulerPickNextTask, requeueCurrent]

@[simp] theorem schedulerFindFreeTaskId_avoids :
    Avoids recycleFullPanic (schedulerFindFreeTaskId s) := by
  unfold schedulerFindFreeTaskId
  split
  · simp
  · split_ifs <;> simp [recycleFull]

@[simp] theorem schedulerYieldCurrentTask_avoids (regs : Ctx) :
    Avoids recycleFullPanic (schedulerYieldCurrentTask k regs) := by
  simp [schedulerYieldCurrentTask]

@[simp] theorem schedulerCreateUserElfTask_avoids (img : Image) (argv envp : ExecVec) :
    Avoids recycleFullPanic (schedulerCreateUserElfTask k img argv envp) := by
  simp [schedulerCreateUserElfTask, publishTask]

@[simp] theorem schedulerTimerIrq_avoids (now : Int) (regs : UserRegs) :
    Avoids recycleFullPanic (schedulerTimerIrq k now regs) := by
  simp [schedulerTimerIrq]

@[simp] theorem schedulerTimerInterrupt_avoids (allowPreempt : Bool) (now : Int) (regs : Ctx) :
    Avoids recycleFullPanic (schedulerTimerInterrupt k allowPreempt now regs) := by
  simp [schedulerTimerInterrupt]

@[simp] theorem schedulerExitCurrentTask_avoids (exitCode : Int) (regs : Ctx) :
    Avoids recycleFullPanic (schedulerExitCurrentTask k exitCode regs) := by
  simp [schedulerExitCurrentTask, recycleFull]

end Scheduler

/-! ## What a step takes -/

section Step

variable {P : Pool} {k k' : KernelState} {sk : Shape} {S : TaskId → Shape} {a : Act}

theorem schedulerDestroyUserTask_uses {t : TaskId} {ph : Phys}
    (h : schedulerDestroyUserTask k t = .ok ph) : Uses 0 k.phys.pmm ph.pmm := by
  unfold schedulerDestroyUserTask at h
  dsimp only at h
  split_ifs at h
  · cases h
    exact Uses.refl 0 _
  all_goals
    obtain ⟨pmm, hp, h⟩ := bind_eq_ok.mp h
    have hrelease : Uses 0 k.phys.pmm pmm := by
      unfold releaseRowPages at hp
      split_ifs at hp
      · exact schedulerReleaseUserPages_uses hp
      · cases hp
        exact Uses.refl 0 _
  · exact hrelease.trans (vmmFreeClonedAddressSpace_uses h)
  · cases h
    exact hrelease

theorem buildUserTask_allocs (hvm : VmmOk k.vmm) {img : Image} {argv envp : ExecVec}
    {r : Task × Phys × Heap} (h : buildUserTask k img argv envp = .ok r) :
    Allocs 213 k.phys.pmm r.2.1.pmm := by
  unfold buildUserTask at h
  obtain ⟨q₁, h₁, h⟩ := bind_eq_ok.mp h
  obtain ⟨q₂, -, h⟩ := bind_eq_ok.mp h
  obtain ⟨ok, -, h⟩ := bind_eq_ok.mp h
  split_ifs at h
  obtain ⟨q₃, h₃, h⟩ := bind_eq_ok.mp h
  obtain ⟨q₄, -, h⟩ := bind_eq_ok.mp h
  cases h
  have hc := vmmCreateTaskAddressSpace_allocs h₁
  rw [hvm.p2Count] at hc
  exact hc.trans (schedulerInstallUserImage_allocs h₃)

/-- A spawn or an exec takes 276 pages at most. -/
theorem Effect.uses (hk : KernelOk k) (hm : MemInv P k sk S) (he : Effect k a k') :
    Uses 276 k.phys.pmm k'.phys.pmm := by
  cases he with
  | tick | brk | stack | stay | leave | exit => exact Uses.refl _ _
  | files hd =>
    obtain ⟨vfs, heap, fds, rfl⟩ := hd.shape
    exact Uses.refl _ _
  | spawn q ht hb => exact (buildUserTask_allocs hm.vmm hb).uses.mono (by norm_num)
  | exec hu hv hr =>
    have hs := hm.user k.current ⟨hk.current_present, hu⟩
    have hlen := hs.fits.length
    exact (replaceUserImage_uses hr).mono (by rw [hs.count]; omega)
  | reap hw ht hd => exact (schedulerDestroyUserTask_uses hd).mono (Nat.zero_le _)

end Step

/-! ## Boot -/

theorem pmmAddRegion_avoids (s : PmmState) (start stop : Int) :
    Avoids recycleFull (pmmAddRegion s start stop) := by
  simp [pmmAddRegion, recycleFull]

theorem initPmmEntry_avoids (ks ke : Int) (s : PmmState) (e : MmapEntry) :
    Avoids recycleFull (initPmmEntry ks ke s e) := by
  simp [initPmmEntry, pmmAddRest, pmmAddRegion_avoids]

theorem foldlM_avoids {ε α σ : Type} {e : ε} {f : σ → α → Except ε σ}
    (h : ∀ s x, Avoids e (f s x)) (l : List α) (s : σ) : Avoids e (l.foldlM f s) := by
  induction l generalizing s with
  | nil => simp [pure, Except.pure]
  | cons x l ih => simp [List.foldlM_cons, h, ih]

theorem initPmm_avoids (b : BootInfo) : Avoids recycleFull (initPmm b) := by
  simp [initPmm, foldlM_avoids (initPmmEntry_avoids _ _), recycleFull]

/-- The most pages that are handed out at one time. -/
def pageBound : Nat := 891

section Boot

variable {M : Machine}

theorem pmmSelfTest_highWater {s t : PmmState} (hs : initPmm M.info = .ok s)
    (ht : pmmSelfTest s = .ok t) : PmmInv M.pool t ∧ HighWater pageBound t := by
  have hb := initPmm_built M.map M.noWrap hs
  have hinv := ((pmmSelfTest_spec (initPmm_inv M.map M.noWrap hs)).of_ok ht).1
  refine ⟨hinv, ((pmmSelfTest_uses ht).highWater hinv.balanced
    (highWater_empty hb.history hb.recycle) ?_).1⟩
  rw [hb.history]
  decide

theorem bootMemory_avoids (M : Machine) : Avoids recycleFull (bootMemory M) := by
  unfold bootMemory
  simp only [avoids_bind, initPmm_avoids, initVmm_avoids, avoids_ok, true_and, implies_true,
    and_true]
  intro s hs
  refine ⟨pmmSelfTest_avoids (initPmm_built M.map M.noWrap hs).recycle, fun t ht r hr => ?_⟩
  obtain ⟨-, hw⟩ := pmmSelfTest_highWater hs ht
  have hle : r.2.pmm.recycleCount ≤ t.recycleCount := (initVmm_allocs hr).recycle_le
  have h1 := hw.stack
  have h2 := hw.peak_le
  unfold pageBound at h2
  exact vmmSelfTest_avoids (by omega)

/-- The self-tests and the kernel root take 16 pages at most. -/
theorem bootMemory_uses {r : VmmState × Phys} (h : bootMemory M = .ok r) :
    ∃ s, Built (bootRegions M.info) s ∧ Uses 16 s r.2.pmm := by
  unfold bootMemory at h
  obtain ⟨s, hs, h⟩ := bind_eq_ok.mp h
  obtain ⟨t, ht, h⟩ := bind_eq_ok.mp h
  obtain ⟨⟨v, ph⟩, hv, h⟩ := bind_eq_ok.mp h
  obtain ⟨ph', hp, h⟩ := bind_eq_ok.mp h
  cases h
  exact ⟨s, initPmm_built M.map M.noWrap hs,
    ((pmmSelfTest_uses ht).trans (initVmm_allocs hv).uses).trans (vmmSelfTest_uses hp)⟩

theorem bootTasks_avoids (M : Machine) (v : VmmState) (ph : Phys) :
    Avoids recycleFullPanic (bootTasks M v ph) := by
  simp [bootTasks, initScheduler, selfTestPicks, bootstrapRows, allocSchedulerTables,
    schedulerPrepareKernelTaskContext, configureKernelTaskContext, avoids_loop]

/-- No panic of boot is that of a full recycle stack. -/
theorem boot_avoids (M : Machine) : Avoids recycleFullPanic (Kernel.boot M) := by
  simp [Kernel.boot, bootMemory_avoids, bootTasks_avoids]

theorem boot_uses {k : KernelState} (h : Kernel.boot M = .ok k) :
    ∃ s, Built (bootRegions M.info) s ∧ Uses 16 s k.phys.pmm := by
  unfold Kernel.boot at h
  obtain ⟨⟨v, ph⟩, hm, h⟩ := bind_eq_ok.mp h
  have huses := bootMemory_uses ((orPanic_ends _).of_ok hm)
  unfold bootTasks at h
  obtain ⟨k₁, h₁, h⟩ := bind_eq_ok.mp h
  obtain ⟨s, -, h⟩ := bind_eq_ok.mp h
  cases h
  unfold initScheduler at h₁
  obtain ⟨rows, -, h₁⟩ := bind_eq_ok.mp h₁
  obtain ⟨q, -, h₁⟩ := bind_eq_ok.mp h₁
  cases h₁
  exact huses

theorem boot_highWater {k : KernelState} (h : Kernel.boot M = .ok k) :
    HighWater pageBound k.phys.pmm := by
  obtain ⟨s, hb, huses⟩ := boot_uses h
  obtain ⟨sh, hm⟩ := ((boot_spec M).of_ok h).memory
  refine (huses.highWater hm.inv.balanced (highWater_empty hb.history hb.recycle) ?_).1
  rw [hb.history]
  decide

end Boot

/-! ## Runs -/

section Runs

variable {M : Machine} {k : KernelState}

theorem Reachable.boots (h : Reachable M k) : ∃ k₀, Kernel.boot M = .ok k₀ := by
  induction h with
  | boot h => exact ⟨_, h⟩
  | step _ _ _ _ ih => exact ih

/-- The kernel root and eight tasks. -/
theorem Reachable.card_outstanding_le (h : Reachable M k) :
    (outstanding k.phys.pmm.history).card ≤ 615 := by
  obtain ⟨k₀, hb⟩ := h.boots
  obtain ⟨sk, S, hm⟩ := h.memInv
  have hfree := h.freePages hb
  have hcard := congrArg Multiset.card hm.inv.partition
  have hpages := hm.inv.free
  rw [Multiset.card_add] at hcard
  omega

/-- The high-water argument over a run. -/
theorem Reachable.highWater (h : Reachable M k) : HighWater pageBound k.phys.pmm := by
  induction h with
  | boot h => exact boot_highWater h
  | @step k k' a h hp he ha ih =>
    obtain ⟨sk, S, hm⟩ := h.memInv
    obtain ⟨sk', S', hm'⟩ := (ReachableBy.step h hp he ha).memInv
    have heffect := (act_effect h.kernelOk he).of_ok ha
    have hout := Reachable.card_outstanding_le h
    exact ((heffect.uses h.kernelOk hm).highWater hm'.inv.balanced ih
      (by unfold pageBound; omega)).1

/-- What a reaped task held fits on the stack. -/
theorem schedulerDestroyUserTask_avoids (h : Reachable M k) {t : TaskId}
    (ht : (k.task t).state ≠ .empty) : Avoids recycleFull (schedulerDestroyUserTask k t) := by
  obtain ⟨sk, S, hm⟩ := h.memInv
  have hle : rowPages (k.task t) (S t) ≤ outstanding k.phys.pmm.history := by
    rw [hm.split t]
    exact Multiset.le_add_right _ _
  exact (schedulerDestroyUserTask_freed hm ht).avoids
    (h.highWater.not_full (by decide) hle _)

theorem waitRound_avoids (h : Reachable M k) (wait : Kont) (regs : Ctx) :
    Avoids recycleFullPanic (waitRound k wait (waitTarget k wait) regs) := by
  unfold waitRound
  cases ht : waitTarget k wait with
  | none => simp
  | some t =>
    have hx := waitTarget_exited ht
    have hd := schedulerDestroyUserTask_avoids h (t := t) (by rw [hx]; decide)
    simp [reapTask, hd]

theorem schedulerWaitpid_avoids (h : Reachable M k) (taskId : Int) (regs : Ctx) :
    Avoids recycleFullPanic (schedulerWaitpid k taskId regs) := by
  unfold schedulerWaitpid
  dsimp only
  split_ifs
  all_goals simp [waitRound_avoids h, recycleFull]

theorem resumeCurrent_avoids (h : Reachable M k) (regs : Ctx) :
    Avoids recycleFullPanic (resumeCurrent k regs) := by
  unfold resumeCurrent
  split
  all_goals simp [waitRound_avoids h]

theorem schedulerExecCurrentTask_avoids (h : Reachable M k) (img : Image) (argv envp : ExecVec) :
    Avoids recycleFullPanic (schedulerExecCurrentTask k img argv envp) := by
  obtain ⟨sk, S, hm⟩ := h.memInv
  have hk := h.kernelOk
  unfold schedulerExecCurrentTask
  dsimp only
  simp only [avoids_ite, avoids_bind, avoids_ok, orPanic_avoids, elfValidateUserImage_avoids,
    implies_true, true_and]
  intro hu ok hok hvalid
  have huser := not_not.mp hu
  have hs := hm.user k.current ⟨hk.current_present, huser⟩
  have hv : elfValidateUserImage img = .ok true := by
    rw [(orPanic_ends _).of_ok hok]
    simpa using hvalid
  have hout := h.card_outstanding_le
  have hr := replaceUserImage_avoids hm.vmm hm.inv hs.fits hs.root hk.heap hv argv envp
    (hm.split_user ⟨hk.current_present, huser⟩) h.highWater (by decide)
    (by unfold pageBound; omega)
  rw [hk.base _ huser, hs.count]
  simp [hr, schedulerConfigureUserTaskContext]

theorem act_avoids (h : Reachable M k) (a : Act) : Avoids recycleFullPanic (act k a) := by
  cases a with
  | exec img argv envp => simp [act, schedulerExecCurrentTask_avoids h]
  | waitpid taskId regs => simp [act, schedulerWaitpid_avoids h]
  | resume regs => simp [act, resumeCurrent_avoids h]
  | _ => simp [act]

end Runs

/-- The panic of a full recycle stack is unreachable. In every state of every run, the recycle
    stack and the pages handed out are the pages ever taken from the regions; these are no more
    than the most pages handed out at one time, and those stay below 2048. -/
theorem recycle_stack_never_full (M : Machine) :
    Kernel.boot M ≠ .error (.message "pmm recycle stack full") ∧
      ∀ k, Reachable M k →
        (k.phys.pmm.recycleCount + (outstanding k.phys.pmm.history).card =
            takenFromRegions M.pool k.phys.pmm ∧
          takenFromRegions M.pool k.phys.pmm ≤ peak k.phys.pmm.history ∧
          peak k.phys.pmm.history < 2048) ∧
        ∀ a, Enabled k a → act k a ≠ .error (.message "pmm recycle stack full") := by
  refine ⟨boot_avoids M, fun k h => ⟨?_, fun a _ => act_avoids h a⟩⟩
  obtain ⟨sk, S, hm⟩ := h.memInv
  have htaken := hm.inv.taken_eq
  have hw := h.highWater
  refine ⟨htaken, ?_, ?_⟩
  · rw [← htaken]
    exact hw.stack
  · exact lt_of_le_of_lt hw.peak_le (by decide)

theorem recycle_stack_small : ∃ k, Reachable smallMachine k ∧ IsUser (k.task k.current) ∧
    takenFromRegions smallMachine.pool k.phys.pmm ≤ peak k.phys.pmm.history ∧
      peak k.phys.pmm.history < 2048 := by
  obtain ⟨k, hr, hu⟩ := smallMachine_runs
  obtain ⟨-, h⟩ := recycle_stack_never_full smallMachine
  obtain ⟨⟨-, hle, hlt⟩, -⟩ := h k hr
  exact ⟨k, hr, hu.user, hle, hlt⟩

end PcoOs.Kernel
