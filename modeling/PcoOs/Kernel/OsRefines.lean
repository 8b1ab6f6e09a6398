/-
  The kernel refines the system its programs see. Every act of the kernel, whichever task does it,
  is a step of `OsStep` on the view (`act_refines`), so a run of the kernel is a run of the
  abstract system from the view of its boot (`kernel_refines`).
-/
import PcoOs.Kernel.OsCalls
import PcoOs.Kernel.Tree
import PcoOs.Lib.Trace

namespace PcoOs.Kernel

open PcoOs.Lib PcoOs.Pmm PcoOs.Support PcoOs.Vmm PcoOs.Elf PcoOs.Image PcoOs.Sched PcoOs.Vfs
  PcoOs.Syscall

/-! ## Scheduling -/

/-- Nothing programs see but who runs. -/
structure SameView (k k' : KernelState) : Prop where
  vfs : k'.vfs = k.vfs
  mem : k'.phys.mem = k.phys.mem
  task : ∀ t, k'.task t = k.task t

theorem SameView.osOf {k k' : KernelState} (h : SameView k k') :
    osOf k' = { Kernel.osOf k with current := k'.current } := by
  unfold Kernel.osOf
  dsimp only
  rw [h.vfs, h.mem]
  congr 1
  funext t
  rw [h.task]

theorem schedulerYieldCurrentTask_view {k k' : KernelState} {regs : Ctx} (hq : QueueReady k.sched)
    (h : schedulerYieldCurrentTask k regs = .ok k') :
    SameView k k' ∧ (k'.task k'.current).state = .runnable := by
  obtain ⟨next, q, he, hq'⟩ := schedulerPickNextTask_spec hq
  unfold schedulerYieldCurrentTask at h
  dsimp only at h
  rw [he, ok_bind] at h
  cases h
  unfold schedulerSwitchToTask
  split_ifs with hn
  · exact ⟨⟨rfl, rfl, fun _ => rfl⟩, hq'.current_runnable⟩
  · exact ⟨⟨rfl, rfl, fun _ => rfl⟩, hq'.current_runnable⟩

section Step

variable {M : Machine} {k k' : KernelState} {a : Act}

theorem SameView.switch (h : SameView k k') (hrun : (k'.task k'.current).state = .runnable)
    (ha : a.maySwitch = true) : OsStep k.cr0Wp (Kernel.osOf k) a (Kernel.osOf k') := by
  rw [h.osOf]
  rw [h.task] at hrun
  refine .switch ha (n := processOf k.phys.mem (k.task k'.current)) ?_ ?_
  · unfold Kernel.osOf
    dsimp only
    rw [if_neg (by rw [hrun]; decide)]
  · unfold processOf
    dsimp only
    rw [if_neg (by rw [hrun]; decide)]

theorem SameView.stay (h : SameView k k') (hc : k'.current = k.current) (ha : a.mayStay = true) :
    OsStep k.cr0Wp (Kernel.osOf k) a (Kernel.osOf k') := by
  rw [h.osOf, hc]
  exact .stay ha

/-- Some task that can run goes on, and the clock may have moved. -/
def Decided (k k' : KernelState) : Prop :=
  SameView k k' ∧ (k'.task k'.current).state = .runnable

theorem Decided.tick (hk : KernelOk k) (t : Int) :
    Decided k { k with sched := { k.sched with lastTick := t } } :=
  ⟨⟨rfl, rfl, fun _ => rfl⟩, hk.queue.current_runnable⟩

theorem tick_ready (hk : KernelOk k) (t : Int) : QueueReady { k.sched with lastTick := t } :=
  hk.queue.toQueueReady.congr (fun _ => rfl) rfl rfl rfl

theorem schedulerTimerInterrupt_decided (hk : KernelOk k) {allowPreempt : Bool} {now : Int}
    {regs : Ctx} (h : schedulerTimerInterrupt k allowPreempt now regs = .ok k') : Decided k k' := by
  obtain ⟨t, ht⟩ := schedulerAccountTick_snd k.sched now
  unfold schedulerTimerInterrupt at h
  dsimp only at h
  rw [ht] at h
  split_ifs at h
  · cases h
    exact .tick hk t
  · cases h
    exact .tick hk t
  · cases h
    exact .tick hk t
  · obtain ⟨hview, hrun⟩ := schedulerYieldCurrentTask_view
      (k := { k with sched := { k.sched with lastTick := t } }) (tick_ready hk t) h
    exact ⟨⟨hview.vfs, hview.mem, hview.task⟩, hrun⟩

theorem schedulerTimerIrq_decided (hk : KernelOk k) {now : Int} {regs : UserRegs}
    (h : schedulerTimerIrq k now regs = .ok k') : Decided k k' := by
  obtain ⟨t, ht⟩ := schedulerAccountTick_snd k.sched now
  unfold schedulerTimerIrq at h
  dsimp only at h
  rw [ht] at h
  obtain ⟨next, q, he, hq⟩ := schedulerPickNextTask_spec (tick_ready hk t)
  split_ifs at h
  · cases h
    exact .tick hk t
  · cases h
    exact .tick hk t
  · cases h
    exact .tick hk t
  · cases h
    exact .tick hk t
  · rw [he, ok_bind] at h
    dsimp only at h
    split_ifs at h with hn
    · cases h
      exact ⟨⟨rfl, rfl, fun _ => rfl⟩, hq.current_runnable⟩
    · obtain ⟨m, -, h⟩ := bind_eq_ok.mp h
      cases h
      exact ⟨⟨rfl, rfl, fun _ => rfl⟩, hq.current_runnable⟩

/-! ## The end of a task -/

theorem OsState.adopt_parent (t : TaskId) (p : Process) :
    adopt t p = { p with parent := (adopt t p).parent } := by
  unfold adopt
  by_cases h : p.parent = t
  · rw [if_pos h]
  · rw [if_neg h]

/-- Children of the task that ends get their new parent. -/
theorem exit_process {s : SchedState} (hq : QueueInv s) (htable : TableInv s)
    (h0 : s.currentTask ≠ 0) (m : Mem) (status : Int) (t : TaskId) :
    (if ((exitCurrent s status).task t).state = .empty then none
      else some (processOf m ((exitCurrent s status).task t))) =
    (if (s.task t).state = .empty then none else some (processOf m (s.task t))).map fun p =>
      if t = s.currentTask then { OsState.adopt s.currentTask p with status := some status }
      else OsState.adopt s.currentTask p := by
  have hin : ∀ u : TaskId, (s.task u).state ≠ .empty → u.val < s.taskCount := by
    intro u hu
    by_contra hlt
    exact hu (htable.beyond u (not_lt.mp hlt))
  have hcurrent : (s.task s.currentTask).state ≠ .empty := by
    rw [hq.current_runnable]
    decide
  have htarget : schedulerReparentTarget s s.currentTask = if s.currentTask ≠ 1 then 1 else 0 := by
    have hcount := hin _ hcurrent
    unfold schedulerReparentTarget
    rw [hq.idle]
    refine if_congr (and_iff_left_of_imp fun h1 => ?_) rfl rfl
    have hone : s.currentTask.val ≠ 1 := fun hv => h1 (Fin.ext hv)
    have hzero : s.currentTask.val ≠ 0 := fun hv => h0 (Fin.ext hv)
    omega
  rw [exitCurrent_task, exitCurrent_row, htarget]
  by_cases hp : (s.task t).state = .empty
  · have ht : t ≠ s.currentTask := by
      rintro rfl
      exact hcurrent hp
    rw [if_neg ht, if_pos hp, if_pos hp]
    rfl
  · have hparent : (if t.val < s.taskCount ∧ (s.task t).state ≠ .empty ∧
        (s.task t).parentPid = s.currentTask then (if s.currentTask ≠ 1 then 1 else 0)
        else (s.task t).parentPid) = (OsState.adopt s.currentTask (processOf m (s.task t))).parent := by
      unfold OsState.adopt
      by_cases hchild : (s.task t).parentPid = s.currentTask
      · rw [if_pos ⟨hin t hp, hp, hchild⟩,
          if_pos (show (processOf m (s.task t)).parent = s.currentTask from hchild)]
      · rw [if_neg fun h => hchild h.2.2,
          if_neg (show (processOf m (s.task t)).parent ≠ s.currentTask from hchild)]
        rfl
    rw [if_neg hp, Option.map_some, hparent, OsState.adopt_parent]
    by_cases ht : t = s.currentTask
    · rw [if_pos ht, if_pos ht, if_pos ht, if_neg (by decide)]
      rfl
    · rw [if_neg ht, if_neg ht, if_neg ht, if_neg hp]
      rfl

theorem exit_refines (hr : Reachable M k) {status : Int} {regs : Ctx}
    (h : schedulerExitCurrentTask k status regs = .ok k') :
    OsStep k.cr0Wp (Kernel.osOf k) (.exit status regs) (Kernel.osOf k') := by
  have hk := hr.kernelOk
  unfold schedulerExitCurrentTask at h
  dsimp only at h
  rw [hk.queue.idle] at h
  split_ifs at h with h0
  obtain ⟨next, q, he, hq⟩ := schedulerPickNextTask_spec (hk.queue.exit h0 status)
  rw [he, ok_bind] at h
  dsimp only at h
  split_ifs at h with hne
  have hk' := Except.ok.inj h
  unfold schedulerSwitchToTask at hk'
  rw [if_neg hne] at hk'
  have hos : Kernel.osOf k' = (Kernel.osOf k).exit status next := by
    rw [← hk']
    unfold OsState.exit Kernel.osOf
    congr 1
    funext t
    exact exit_process hk.queue hk.table h0 k.phys.mem status t
  have hrun : ((exitCurrent k.sched status).task next).state = .runnable := hq.current_runnable
  rw [exitCurrent_task, if_neg (show next ≠ k.sched.currentTask from hne)] at hrun
  have hpresent : (k.task next).state ≠ .empty := by
    show (k.sched.task next).state ≠ .empty
    rw [hrun]
    decide
  rw [hos]
  refine .exit h0 hne (n := processOf k.phys.mem (k.task next)) (if_neg hpresent) ?_
  unfold processOf
  dsimp only
  refine if_neg ?_
  show (k.sched.task next).state ≠ .exited
  rw [hrun]
  decide

end Step

/-! ## Descriptors of a task -/

theorem setHandle_closed {s : FileSystem} {id : Nat} (h : s.handle id = .closed) :
    s.setHandle id .closed = s := by
  unfold FileSystem.setHandle
  rw [← h, Function.update_eq_self]

theorem vfsCloseDescriptor_view {v v' : VfsState} {d : Nat} {r : Int} (h0 : d ≠ 0)
    (h : vfsCloseDescriptor v d = .ok (r, v')) : view v' = (view v).setHandle d .closed := by
  unfold vfsCloseDescriptor at h
  rw [if_neg h0] at h
  obtain ⟨desc, hd, h⟩ := bind_eq_ok.mp h
  unfold vfsDesc at hd
  split_ifs at hd
  cases hd
  split_ifs at h with hclosed
  · cases h
    refine (setHandle_closed ?_).symm
    unfold view handleOf
    dsimp only
    rw [hclosed]
  · cases h
    exact view_setVfsDesc v d closedDesc

theorem closeIfOpen_view {fds : Fin 4 → Nat} {fd : Fin 4} {v v' : VfsState}
    (h : closeIfOpen fds fd v = .ok v') :
    view v' = if fds fd ≠ 0 then (view v).setHandle (fds fd) .closed else view v := by
  unfold closeIfOpen at h
  by_cases h0 : fds fd ≠ 0
  · rw [if_pos h0] at h ⊢
    obtain ⟨⟨r, w⟩, hc, h⟩ := bind_eq_ok.mp h
    cases h
    exact vfsCloseDescriptor_view h0 hc
  · rw [if_neg h0] at h ⊢
    cases h
    rfl

theorem schedulerReleaseTaskFds_view {fds : Fin 4 → Nat} {v v' : VfsState}
    (h : schedulerReleaseTaskFds fds v = .ok v') : view v' = OsState.closeAll fds (view v) := by
  unfold schedulerReleaseTaskFds at h
  obtain ⟨v₁, h₁, h⟩ := bind_eq_ok.mp h
  obtain ⟨v₂, h₂, h⟩ := bind_eq_ok.mp h
  obtain ⟨v₃, h₃, h⟩ := bind_eq_ok.mp h
  unfold OsState.closeAll
  simp only [List.foldl_cons, List.foldl_nil]
  rw [← closeIfOpen_view h₁, ← closeIfOpen_view h₂, ← closeIfOpen_view h₃, ← closeIfOpen_view h]

theorem schedulerInitTaskFds_view {v v' : VfsState} {fds : Fin 4 → Nat}
    (h : schedulerInitTaskFds v = .ok (fds, v')) :
    OsState.standard (view v) = some (fds, view v') := by
  have hin : ∀ w, (view w).hand .consoleIn = (⟨(vfsAllocConsoleInDescriptor w).1, [], []⟩,
      view (vfsAllocConsoleInDescriptor w).2) := fun w => view_hand w ⟨.consoleIn, 0, 0, 0, []⟩
  have hout : ∀ w, (view w).hand .consoleOut = (⟨(vfsAllocConsoleOutDescriptor w).1, [], []⟩,
      view (vfsAllocConsoleOutDescriptor w).2) := fun w => view_hand w ⟨.consoleOut, 0, 0, 0, []⟩
  unfold schedulerInitTaskFds at h
  unfold OsState.standard
  dsimp only at h ⊢
  rw [hin]
  dsimp only
  rw [hout]
  dsimp only
  rw [hout]
  dsimp only
  simp only [Nat.cast_eq_zero, Int.toNat_natCast]
  split_ifs at h ⊢ with hz
  cases h
  rfl

section Wait

variable {M : Machine} {k k' : KernelState} {a : Act}

/-- A task that is reaped is gone, and its descriptors are closed. -/
theorem reap_refines (hr : Reachable M k) {t : TaskId} {r : Int}
    (hexit : (k.task t).state = .exited) (hp : (k.task t).parentPid = k.current)
    (ha : a.asksFor t = true) (h : reapTask k t = .ok (r, k')) : OsStep k.cr0Wp (osOf k) a (osOf k') := by
  obtain ⟨sk, S, hm⟩ := hr.memInv
  have hpresent : (k.task t).state ≠ .empty := by
    rw [hexit]
    decide
  unfold reapTask at h
  dsimp only at h
  obtain ⟨phys, hd, h⟩ := bind_eq_ok.mp h
  obtain ⟨vfs, hf, h⟩ := bind_eq_ok.mp h
  have hd := (orPanic_ends _).of_ok hd
  have hf := (orPanic_ends _).of_ok hf
  obtain ⟨-, -, hmem, -⟩ := (schedulerDestroyUserTask_spec hm hpresent).of_ok hd
  have hos : osOf k' = { osOf k with
      system := OsState.closeAll (k.task t).fds (osOf k).system
      process := Function.update (osOf k).process t none } := by
    rw [← (Prod.mk.inj (Except.ok.inj h)).2]
    unfold osOf
    dsimp only
    rw [schedulerReleaseTaskFds_view hf, hmem]
    congr 1
    funext u
    unfold KernelState.task
    dsimp only
    rw [releaseRow_task]
    by_cases hu : u = t
    · rw [if_pos hu, hu, Function.update_self]
      rfl
    · rw [if_neg hu, Function.update_of_ne hu]
  rw [hos]
  have hstatus : (processOf k.phys.mem (k.task t)).status = some (k.task t).exitCode := by
    unfold processOf
    exact if_pos hexit
  exact .reap (p := processOf k.phys.mem (k.task t)) ha (if_neg hpresent) hp hstatus

theorem waitRound_refines (hr : Reachable M k) {wait : Kont} (hw : WaitOk k wait) {regs : Ctx}
    {r : Option Int} (ha : ∀ t, waitTarget k wait = some t → a.asksFor t = true)
    (ha' : a.maySwitch = true) (h : waitRound k wait (waitTarget k wait) regs = .ok (r, k')) :
    OsStep k.cr0Wp (osOf k) a (osOf k') := by
  unfold waitRound at h
  cases ht : waitTarget k wait with
  | some t =>
    rw [ht] at h
    obtain ⟨⟨status, k₁⟩, hreap, h⟩ := bind_eq_ok.mp h
    cases h
    exact reap_refines hr (waitTarget_exited ht) (hr.waits.target_parent hw ht) (ha t ht) hreap
  | none =>
    rw [ht] at h
    obtain ⟨k₁, hyield, h⟩ := bind_eq_ok.mp h
    cases h
    obtain ⟨hview, hrun⟩ := schedulerYieldCurrentTask_view
      (k := { k with kont := Function.update k.kont k.current wait })
      hr.kernelOk.queue.toQueueReady hyield
    exact SameView.switch (k := k) ⟨hview.vfs, hview.mem, hview.task⟩ hrun ha'

theorem waitpid_refines (hr : Reachable M k) {taskId : Int} {regs : Ctx} {r : Option Int}
    (h : schedulerWaitpid k taskId regs = .ok (r, k')) :
    OsStep k.cr0Wp (osOf k) (.waitpid taskId regs) (osOf k') := by
  unfold schedulerWaitpid at h
  dsimp only at h
  split_ifs at h with hrange hself hany hnone hid hempty hparent
  · cases h
    exact .stay rfl
  · cases h
    exact .stay rfl
  · cases h
    exact .stay rfl
  · refine waitRound_refines hr .any (fun t _ => ?_) rfl h
    exact decide_eq_true (Or.inl hany)
  · cases h
    exact .stay rfl
  · cases h
    exact .stay rfl
  · refine waitRound_refines hr (.target hempty (not_not.mp hparent)) (fun t ht => ?_) rfl h
    -- the number names the task that is waited for
    have hnat : taskId = (⟨taskId.toNat, hid⟩ : TaskId).val := by
      dsimp only
      omega
    unfold waitTarget at ht
    dsimp only at ht
    split_ifs at ht
    cases ht
    exact decide_eq_true (Or.inr hnat)

theorem resume_refines (hr : Reachable M k) {regs : Ctx} {r : Option Int}
    (h : resumeCurrent k regs = .ok (r, k')) :
    OsStep k.cr0Wp (osOf k) (.resume regs) (osOf k') := by
  unfold resumeCurrent at h
  cases hkont : k.kont k.current with
  | run =>
    rw [hkont] at h
    cases h
    exact .stay rfl
  | dead =>
    rw [hkont] at h
    cases h
  | waitAny =>
    rw [hkont] at h
    exact waitRound_refines hr .any (fun _ _ => rfl) rfl h
  | waitFor t serial =>
    rw [hkont] at h
    exact waitRound_refines hr (hkont ▸ .same) (fun _ _ => rfl) rfl h

end Wait

/-! ## Calls and stores -/

section Calls

variable {M : Machine} {k k' : KernelState}

/-- A new program break. -/
theorem brk_refines (hr : Reachable M k) {requested : Int} (he : Enabled k (.brk requested))
    (ha : act k (.brk requested) = .ok k') :
    OsStep k.cr0Wp (osOf k) (.brk requested) (osOf k') := by
  have hk := hr.kernelOk
  obtain ⟨sk, S, hm⟩ := hr.memInv
  have hact := ha
  dsimp only [act] at ha
  have hk' := Except.ok.inj ha
  unfold schedulerBrk at hk'
  dsimp only at hk'
  split_ifs at hk' with hmode h0 hout
  · rw [← hk']
    exact .stay rfl
  · rw [← hk']
    exact .stay rfl
  · rw [← hk']
    exact .stay rfl
  · have hmode : (k.task k.current).mode = .user := not_not.mp hmode
    have hu : IsUser (k.task k.current) := ⟨hk.current_present, hmode⟩
    have hs := hm.user _ hu
    have hbase : (programOf k.phys.mem (k.task k.current)).heapBase = (k.task k.current).heapBase :=
      hs.heapBase.symm
    have hlimit : (programOf k.phys.mem (k.task k.current)).heapLimit =
        (k.task k.current).heapLimit := hs.heapLimit.symm
    have hput := osOf_put hr he hact (files k) { k.task k.current with heapBreak := requested }
      (by rw [← hk']; rfl) (by rw [← hk']; rfl) rfl
    have hprocess : processOf k'.phys.mem { k.task k.current with heapBreak := requested } =
        { processOf k.phys.mem (k.task k.current) with
          program := some { programOf k.phys.mem (k.task k.current) with
            heapBreak := requested } } := by
      rw [← hk']
      unfold processOf
      dsimp only
      rw [if_pos hmode]
      rfl
    have hin : (k.task k.current).heapBase ≤ requested ∧ requested ≤ (k.task k.current).heapLimit :=
      by
        obtain ⟨h1, h2⟩ := not_or.mp hout
        exact ⟨not_lt.mp h1, not_lt.mp h2⟩
    rw [hput, hprocess]
    refine .brk (osOf_current hk) (if_pos hmode) ?_ ?_
    · rw [hbase]
      exact hin.1
    · rw [hlimit]
      exact hin.2

theorem userCall_refines (hM : M.FilesReady) (hr : Reachable M k) {c : UserCall}
    (he : Enabled k (.userCall c)) (ha : act k (.userCall c) = .ok k') :
    OsStep k.cr0Wp (osOf k) (.userCall c) (osOf k') := by
  dsimp only [act] at ha
  obtain ⟨r, hcall, ha⟩ := bind_eq_ok.mp ha
  have hcall := (orPanic_ends _).of_ok hcall
  obtain ⟨r, k₁⟩ := r
  cases ha
  refine .userCall (osOf_current hr.kernelOk) (if_pos he.2.1) (r := r) ?_
  by_cases hacc : c.accepted (k.task k.current) = true
  · exact ((accepted_call_agrees hM hr he hacc).of_ok hcall).2
  · obtain ⟨hrefused, hno⟩ := refused_call hr he hacc
    obtain ⟨hr, hsame⟩ := Prod.mk.inj (Except.ok.inj (hrefused.symm.trans hcall))
    unfold OsState.call
    rw [if_pos hno, ← hr, ← hsame]

theorem kernelCall_refines (hM : M.FilesReady) (hr : Reachable M k) {c : FileCall}
    (he : Enabled k (.kernelCall c)) (ha : act k (.kernelCall c) = .ok k') :
    OsStep k.cr0Wp (osOf k) (.kernelCall c) (osOf k') := by
  have hact := ha
  dsimp only [act] at ha
  obtain ⟨r, hcall, ha⟩ := bind_eq_ok.mp ha
  have hcall := (orPanic_ends _).of_ok hcall
  obtain ⟨r, bytes, k₁⟩ := r
  have hk' : k₁ = k' := Except.ok.inj ha
  have hreply : fileReply k c = .ok ((r, bytes), k') := by
    unfold fileReply
    rw [hcall, ← hk']
    rfl
  obtain ⟨-, f, habstract, hfiles⟩ := (fileReply_agrees (HasFiles.start (hr.vfs hM)) c).of_ok hreply
  have hsched : k'.sched = k.sched.setTask k.current { k.task k.current with fds := f.fds } :=
    congrArg KernelState.sched hfiles.rest
  have hmem : k'.phys.mem = k.phys.mem := congrArg (fun s => s.phys.mem) hfiles.rest
  have hput := osOf_put hr he hact f (k.task k.current) hfiles.system hsched rfl
  rw [hput, hmem]
  exact .kernelCall (osOf_current hr.kernelOk) habstract

/-- A store of the program itself. -/
theorem userStore_refines (hr : Reachable M k) {virt : Nat} {b : UInt8}
    (he : Enabled k (.userStore virt b)) (ha : act k (.userStore virt b) = .ok k') :
    OsStep k.cr0Wp (osOf k) (.userStore virt b) (osOf k') := by
  have hk := hr.kernelOk
  obtain ⟨sk, S, hm⟩ := hr.memInv
  have hu : IsUser (k.task k.current) := ⟨hk.current_present, he.2⟩
  have hact := ha
  dsimp only [act] at ha
  obtain ⟨m, hstore, ha⟩ := bind_eq_ok.mp ha
  have hstore := (orPanic_ends _).of_ok hstore
  unfold userModeStore at hstore
  rw [hm.cr3, ← mmuWalk_mod, show virt / 4096 % 2 ^ 36 = virt % 2 ^ 48 / 4096 by omega] at hstore
  cases hw : mmuWalk k.phys.mem (k.task k.current).cr3 (virt % 2 ^ 48 / 4096) with
  | none =>
    rw [hw] at hstore
    cases hstore
  | some x =>
  rw [hw] at hstore
  dsimp only at hstore
  split_ifs at hstore with hopen
  have hview : userView k.phys.mem (k.task k.current).cr3 (virt % 2 ^ 48) =
      some (k.phys.mem (x.frame + virt % 2 ^ 48 % 4096), true) := by
    unfold userView
    rw [hw]
    dsimp only
    rw [if_pos hopen.1, hopen.2]
  have hmemory : (programOf k.phys.mem (k.task k.current)).memory (virt % 2 ^ 48) =
      some (k.phys.mem (x.frame + virt % 2 ^ 48 % 4096), true) := by
    unfold programOf
    dsimp only
    rw [if_pos (Nat.mod_lt _ (by norm_num)), hview]
  have hs := hm.user _ hu
  have hwindow : InWindow (k.task k.current) (virt % 2 ^ 48) := by
    by_contra hout
    rw [hs.userView_outside hout] at hview
    cases hview
  have hlimit := hs.limit
  have hrange : userTaskRegionBase ≤ (virt % 2 ^ 48 : Nat) ∧
      ((virt % 2 ^ 48 : Nat) : Int) < (k.task k.current).userLimit := by
    unfold InWindow windowIndex windowPage at hwindow
    unfold userTaskRegionBase userPageSize at hlimit
    unfold userTaskRegionBase
    omega
  have hin := (hm.memory_eq hu (OnlyPages.refl _ _) hrange.1 hrange.2).1
  have hframe : x.frame + virt % 4096 = frameByte (k.task k.current) (virt % 2 ^ 48) := by
    have hn : virt % 2 ^ 48 / 4096 = windowPage + pageIndex (virt % 2 ^ 48) := by
      unfold InWindow windowIndex at hwindow
      unfold pageIndex
      omega
    rw [hn, userRoot_window hs.root hs.fits.length.2 (hm.pages_aligned hu) hs.fits.flag hin] at hw
    unfold frameByte
    rw [← Option.some.inj hw]
    dsimp only
    omega
  cases hstore
  cases ha
  obtain ⟨-, hprogram⟩ := hm.store_eq hu (OnlyPages.refl _ _) hrange.1 hrange.2 b
  rw [← hframe] at hprogram
  have hput := osOf_put hr he hact (files k) (k.task k.current) rfl
    (setTask_self k.sched k.current).symm rfl
  have hprocess : processOf (storeByte k.phys.mem (x.frame + virt % 4096) b) (k.task k.current) =
      { processOf k.phys.mem (k.task k.current) with
        program := some ((programOf k.phys.mem (k.task k.current)).store (virt % 2 ^ 48) [b]) } := by
    unfold processOf
    rw [if_pos he.2, hprogram]
  rw [hput, hprocess]
  exact .userStore (osOf_current hk) (if_pos he.2) hmemory

end Calls

/-! ## Loading a program -/

/-- An open that may neither create nor truncate gives a handle, or nothing. -/
theorem openPath_plain {s s' : FileSystem} {path : Bytes} {r : Reply}
    (h : s.openPath path 0 = .ok (r, s')) : (r.value = 0 ∧ s' = s) ∨
      (r.value.toNat ≠ 0 ∧ s.handle r.value.toNat = .closed ∧
        ∃ x, s' = s.setHandle r.value.toNat x) := by
  rw [s.openPath_zero] at h
  cases ht : s.target path with
  | none =>
    rw [ht] at h
    cases h
    exact Or.inl ⟨rfl, rfl⟩
  | some x =>
    rw [ht] at h
    have heq := Except.ok.inj h
    have hr : (s.hand x).1 = r := congrArg Prod.fst heq
    have hs : (s.hand x).2 = s' := congrArg Prod.snd heq
    rw [← hr, ← hs]
    obtain hnone | ⟨h0, hclosed, hset⟩ := s.hand_cases x
    · exact Or.inl hnone
    · exact Or.inr ⟨h0, hclosed, x, hset⟩

theorem vfsReadDescriptor_view {v v' : VfsState} {d n : Nat} {input bytes : Bytes} {r : Int}
    (h : vfsReadDescriptor v input d n = .ok (r, bytes, v')) :
    view v' = view v ∨ ∃ x, view v' = (view v).setHandle d x := by
  unfold vfsReadDescriptor at h
  split_ifs at h with h0
  · cases h
    exact Or.inl rfl
  obtain ⟨desc, hd, h⟩ := bind_eq_ok.mp h
  dsimp only at h
  cases hk : desc.kind with
  | initramfsFile =>
    rw [hk] at h
    obtain ⟨node, -, h⟩ := bind_eq_ok.mp h
    split_ifs at h
    · cases h
      exact Or.inl rfl
    · cases h
      exact Or.inr ⟨_, view_setVfsDesc v d _⟩
  | consoleIn =>
    rw [hk] at h
    cases h
    exact Or.inl rfl
  | closed | consoleOut | directory =>
    rw [hk] at h
    cases h
    exact Or.inl rfl

/-- Reading a program leaves the files and the handles as they were. -/
theorem syscallLoadExecImage_view {v v' : VfsState} {heap heap' : Heap} {path : Bytes}
    {img : Option Image} (hs : VfsReachable (v, heap))
    (h : syscallLoadExecImage v heap path = .ok (img, v', heap')) : view v' = view v := by
  unfold syscallLoadExecImage at h
  split_ifs at h with hpath
  · cases h
    rfl
  obtain ⟨⟨d, v₁, heap₁⟩, hopen, h⟩ := bind_eq_ok.mp h
  dsimp only at h
  have hreply : vfsReply (v, heap) (.openPath path 0) = .ok (⟨d, [], []⟩, v₁, heap₁) := by
    unfold vfsReply
    dsimp only
    rw [hopen]
    rfl
  obtain ⟨-, a, hcall, -, hview⟩ := (vfs_simulates.call (v, heap) (view v) (.openPath path 0)
    ⟨hs, rfl⟩).of_ok hreply
  dsimp only at hview
  rw [← hview] at hcall
  have hplain := openPath_plain (show (view v).openPath path 0 = .ok (⟨d, [], []⟩, view v₁) from hcall)
  dsimp only at hplain
  by_cases hd : d = 0
  · rw [if_pos hd] at h
    cases h
    obtain ⟨-, hsame⟩ | ⟨hne, -⟩ := hplain
    · exact hsame
    · exact absurd (by rw [hd]; rfl) hne
  rw [if_neg hd] at h
  obtain ⟨hzero, -⟩ | ⟨-, hclosed, x, hset⟩ := hplain
  · exact absurd (Int.natCast_eq_zero.mp hzero) hd
  rw [Int.toNat_natCast] at hclosed hset
  have hback : ∀ {w w' : VfsState} {r : Int}, (∃ y, view w = (view v).setHandle d y) →
      vfsCloseDescriptor w d = .ok (r, w') → view w' = view v := by
    intro w w' r hw hc
    obtain ⟨y, hw⟩ := hw
    rw [vfsCloseDescriptor_view hd hc, hw]
    unfold FileSystem.setHandle
    dsimp only
    rw [Function.update_idem, ← hclosed, Function.update_eq_self]
  have hexit : ∀ {heap₂ : Heap}, closeWithoutImage v₁ heap₂ d = .ok (img, v', heap') →
      view v' = view v := by
    intro heap₂ hc
    unfold closeWithoutImage at hc
    obtain ⟨⟨r, v₂⟩, hclose, hc⟩ := bind_eq_ok.mp hc
    cases hc
    exact hback ⟨x, hset⟩ hclose
  obtain ⟨⟨ptr, heap₂⟩, -, h⟩ := bind_eq_ok.mp h
  obtain ⟨⟨r, words⟩, -, h⟩ := bind_eq_ok.mp h
  dsimp only at h
  split_ifs at h
  · exact hexit h
  · exact hexit h
  · exact hexit h
  obtain ⟨⟨ptr', heap₃⟩, -, h⟩ := bind_eq_ok.mp h
  obtain ⟨⟨count, image, v₂⟩, hread, h⟩ := bind_eq_ok.mp h
  obtain ⟨⟨r', v₃⟩, hclose, h⟩ := bind_eq_ok.mp h
  have hdone : view v₃ = view v := by
    refine hback ?_ hclose
    obtain hsame | ⟨y, hy⟩ := vfsReadDescriptor_view hread
    · exact ⟨x, hsame.trans hset⟩
    · refine ⟨y, ?_⟩
      rw [hy, hset]
      unfold FileSystem.setHandle
      dsimp only
      rw [Function.update_idem]
  dsimp only at h
  split_ifs at h
  · cases h
    exact hdone
  · obtain ⟨ok, -, h⟩ := bind_eq_ok.mp h
    cases h
    exact hdone

/-! ## New programs -/

theorem UserSpace.programOf_start {row : Task} {img : Image} {m : Mem} {sh : Shape}
    (h : UserSpace row img m sh) (hp : ∀ p ∈ row.userPages, p % 4096 = 0) (hord : Ordinary img)
    {argv envp : ExecVec} (hfresh : Fresh img argv envp row.userPages m)
    (hb : row.heapBreak = row.heapBase) : programOf m row = .start img argv envp := by
  unfold programOf Program.start
  rw [hb, h.heapBase, hfresh.count]
  congr 1
  funext virt
  rw [h.startView hp hord.1 hord.2 hfresh virt]

section Load

variable {M : Machine} {k k' : KernelState} {img : Image} {argv envp : ExecVec}

theorem spawn_refines (hr : Reachable M k) (he : Enabled k (.spawn img argv envp))
    (ha : act k (.spawn img argv envp) = .ok k') :
    OsStep k.cr0Wp (osOf k) (.spawn img argv envp) (osOf k') := by
  have hk := hr.kernelOk
  obtain ⟨sk, S, hm⟩ := hr.memInv
  obtain ⟨S', hm'⟩ := ((act_effect hk he).of_ok ha).memInv hk hm
  dsimp only [act] at ha
  obtain ⟨r, hc, ha⟩ := bind_eq_ok.mp ha
  obtain ⟨t, k₁⟩ := r
  have hk' : k₁ = k' := Except.ok.inj ha
  rw [hk'] at hc
  have hcr := created hk hc
  obtain ⟨row, fds, hb, hfds, hrow⟩ := hcr.built
  have hnew := buildUserTask_blocks hk.heap hb
  obtain ⟨⟨sh, hspace⟩, -⟩ := (buildUserTask_memory hm.inv hm.vmm hk.heap img argv envp).of_ok hb
  have hu : IsUser (k'.task t) := by
    rw [hrow]
    refine ⟨?_, hnew.mode⟩
    dsimp only
    rw [hnew.state]
    decide
  have hprogram : Ordinary img → programOf k'.phys.mem (k'.task t) = .start img argv envp := by
    intro hord
    have hbuilt := buildUserTask_built hm.inv hm.vmm hk.heap hord.1 hord.2 hb
    have hspace := hm'.user t hu
    rw [hcr.image] at hspace
    refine hspace.programOf_start (hm'.pages_aligned hu) hord ?_ ?_
    · rw [hrow]
      exact hbuilt.fresh
    · rw [hrow]
      exact hbuilt.heapBreak
  have hprocess : processOf k'.phys.mem (k'.task t) =
      ⟨k.current, none, fds, some (programOf k'.phys.mem (k'.task t))⟩ := by
    unfold processOf
    rw [if_pos hu.2, hrow]
    dsimp only
    rw [if_neg (by rw [hnew.state]; decide), hnew.parent]
  have hos : osOf k' = { osOf k with
      system := view k'.vfs
      process := Function.update (osOf k).process t
        (some ⟨k.current, none, fds, some (programOf k'.phys.mem (k'.task t))⟩) } := by
    unfold osOf
    dsimp only
    rw [hcr.current]
    congr 1
    funext u
    by_cases hut : u = t
    · rw [hut, Function.update_self, if_neg hu.1, hprocess]
    · obtain ⟨hsame, himage⟩ := hcr.others u hut
      rw [Function.update_of_ne hut]
      by_cases hp : (k.task u).state = .empty
      · rw [hsame, if_pos hp, if_pos hp]
      · rw [if_neg hp, if_neg (hsame ▸ hp)]
        congr 1
        refine processOf_eq hsame fun hmode => ?_
        have huser : IsUser (k.task u) := ⟨hp, hmode⟩
        refine Untouched.program ⟨hsame ▸ SameSpace.refl _, himage, fun p hmem => ?_⟩ hm hm' huser
        exact hspace.keeps p (hm.userPage_mem huser hmem)
  rw [hos]
  exact .spawn (t := t) (r := (fds, view k'.vfs)) (if_pos hcr.slot) (buildUserTask_valid hb) hprogram
    (schedulerInitTaskFds_view hfds)

/-- The row of the current task after an exec. -/
def imageRow (row : Task) (im : UserImage) : Task :=
  { row with
    userPages := im.pages, userPageCount := im.pageCount, userLimit := im.limit,
    heapBase := im.heapBase, heapLimit := im.heapLimit, heapBreak := im.heapBreak }

theorem exec_refines (hr : Reachable M k) (he : Enabled k (.exec img argv envp))
    (ha : act k (.exec img argv envp) = .ok k') :
    OsStep k.cr0Wp (osOf k) (.exec img argv envp) (osOf k') := by
  have hk := hr.kernelOk
  obtain ⟨sk, S, hm⟩ := hr.memInv
  obtain ⟨S', hm'⟩ := ((act_effect hk he).of_ok ha).memInv hk hm
  have hact := ha
  dsimp only [act] at ha
  obtain ⟨r, hc, ha⟩ := bind_eq_ok.mp ha
  obtain ⟨v, k₁⟩ := r
  have hk₁ : k₁ = k' := Except.ok.inj ha
  rw [hk₁] at hc
  have hfail : (.ok (-1, k) : Except Panic (Int × KernelState)) = .ok (v, k') →
      OsStep k.cr0Wp (osOf k) (.exec img argv envp) (osOf k') := by
    intro heq
    rw [← (Prod.mk.inj (Except.ok.inj heq)).2]
    exact .stay rfl
  unfold schedulerExecCurrentTask at hc
  dsimp only at hc
  by_cases hmode : (k.task k.current).mode ≠ .user
  · rw [if_pos hmode] at hc
    exact hfail hc
  rw [if_neg hmode] at hc
  obtain ⟨valid, hv, hc⟩ := bind_eq_ok.mp hc
  have hv := (orPanic_ends _).of_ok hv
  cases valid with
  | false => exact hfail hc
  | true =>
  obtain ⟨⟨im, phys, heap⟩, hreplace, hc⟩ := bind_eq_ok.mp hc
  obtain ⟨m, -, hc⟩ := bind_eq_ok.mp hc
  have hreplace := (orPanic_ends _).of_ok hreplace
  have hk' := (Prod.mk.inj (Except.ok.inj hc)).2
  have hu : IsUser (k.task k.current) := ⟨hk.current_present, not_not.mp hmode⟩
  have hrow : k'.task k'.current = imageRow (k.task k.current) im := by
    rw [← hk']
    exact (setTask_task _ _ _ _).trans (if_pos rfl)
  have hput := osOf_put hr he hact (files k) (imageRow (k.task k.current) im) (by rw [← hk']; rfl)
    (by rw [← hk']; rfl) rfl
  have hprocess : processOf k'.phys.mem (imageRow (k.task k.current) im) =
      { processOf k.phys.mem (k.task k.current) with
        program := some (programOf k'.phys.mem (k'.task k'.current)) } := by
    rw [hrow]
    unfold processOf
    rw [if_pos (show (imageRow (k.task k.current) im).mode = .user from hu.2)]
    rfl
  rw [hput, hprocess]
  refine .exec (osOf_current hk) (if_pos hu.2) hv fun hord => ?_
  have hs := hm.user _ hu
  have hu' : IsUser (k'.task k'.current) := hrow ▸ hu
  have hspace := hm'.user _ hu'
  have himage : k'.ghost.image k'.current = img := by
    rw [← hk']
    exact Function.update_self ..
  rw [himage] at hspace
  refine hspace.programOf_start (hm'.pages_aligned hu') hord ?_ ?_
  · have hstarts := hreplace
    rw [hk.base _ hu.2, hs.count] at hstarts
    have hstarts := replaceUserImage_starts hord.1 hv hord.2 hm.vmm hm.inv hk.heap hs.fits hs.root
      (hm.split_user hu) hstarts
    rw [hrow, ← hk']
    exact hstarts.fresh
  · rw [hrow]
    exact replaceUserImage_break hreplace

theorem loadImage_refines (hM : M.FilesReady) (hr : Reachable M k) {path : Bytes}
    (ha : act k (.loadImage path) = .ok k') :
    OsStep k.cr0Wp (osOf k) (.loadImage path) (osOf k') := by
  dsimp only [act] at ha
  obtain ⟨r, hload, ha⟩ := bind_eq_ok.mp ha
  obtain ⟨img, vfs, heap⟩ := r
  have hload := (orPanic_ends _).of_ok hload
  have hview := syscallLoadExecImage_view (hr.vfs hM) hload
  have hos : osOf k' = osOf k := by
    rw [← Except.ok.inj ha]
    unfold osOf
    dsimp only
    rw [hview]
    rfl
  rw [hos]
  exact .stay rfl

end Load

/-! ## Runs -/

section Runs

variable {M : Machine} {k k' : KernelState} {a : Act}

/-- One step. -/
theorem act_refines (hM : M.FilesReady) (hr : Reachable M k) (he : Enabled k a)
    (ha : act k a = .ok k') : OsStep k.cr0Wp (osOf k) a (osOf k') := by
  have hk := hr.kernelOk
  have hact := ha
  cases a with
  | spawn img argv envp => exact spawn_refines hr he ha
  | exec img argv envp => exact exec_refines hr he ha
  | brk requested => exact brk_refines hr he ha
  | yield regs =>
    obtain ⟨hview, hrun⟩ := schedulerYieldCurrentTask_view hk.queue.toQueueReady ha
    exact hview.switch hrun rfl
  | timerIrq now regs =>
    obtain ⟨hview, hrun⟩ := schedulerTimerIrq_decided hk ha
    exact hview.switch hrun rfl
  | timerInterrupt allowPreempt now regs =>
    obtain ⟨hview, hrun⟩ := schedulerTimerInterrupt_decided hk ha
    exact hview.switch hrun rfl
  | exit status regs => exact exit_refines hr ha
  | waitpid taskId regs =>
    dsimp only [act] at ha
    obtain ⟨r, hwait, ha⟩ := bind_eq_ok.mp ha
    cases ha
    exact waitpid_refines hr hwait
  | resume regs =>
    dsimp only [act] at ha
    obtain ⟨r, hresume, ha⟩ := bind_eq_ok.mp ha
    cases ha
    exact resume_refines hr hresume
  | loadImage path => exact loadImage_refines hM hr ha
  | kernelCall c => exact kernelCall_refines hM hr he ha
  | userCall c => exact userCall_refines hM hr he ha
  | alloc size =>
    dsimp only [act] at ha
    obtain ⟨r, -, ha⟩ := bind_eq_ok.mp ha
    cases ha
    exact .stay rfl
  | kernelStore addr b =>
    cases ha
    exact .stay rfl
  | userStore virt b => exact userStore_refines hr he ha

/-- The view of the boot. -/
theorem Booted.osOf_initial {k : KernelState} (h : Booted M k) :
    OsState.initial (view M.vfs) k.current = some (osOf k) := by
  have hfds := h.fds
  unfold bootFds at hfds
  obtain ⟨⟨fds0, v⟩, h0, hfds⟩ := bind_eq_ok.mp hfds
  obtain ⟨⟨fds1, v'⟩, h1, hfds⟩ := bind_eq_ok.mp hfds
  have heq := Except.ok.inj hfds
  have hvfs : v' = k.vfs := congrArg (fun r => r.2.2) heq
  have hf0 : fds0 = (k.task 0).fds := congrArg Prod.fst heq
  have hf1 : fds1 = (k.task 1).fds := congrArg (fun r => r.2.1) heq
  obtain ⟨row0, row1, hrows, htask⟩ := h.rows
  obtain ⟨c0, s0, f0, hr0⟩ := hrows.row0
  obtain ⟨c1, s1, f1, hr1⟩ := hrows.row1
  have hcases : ∀ t, k.task t = if t = 0 then row0 else if t = 1 then row1 else clearTask :=
    fun t => congrFun htask t
  unfold OsState.initial
  rw [schedulerInitTaskFds_view h0]
  dsimp only [Option.bind_some]
  rw [schedulerInitTaskFds_view h1, Option.map_some, hvfs]
  congr 1
  unfold osOf
  dsimp only
  congr 1
  funext t
  by_cases ht0 : t = 0
  · rw [ht0, if_pos rfl, hf0, hcases 0, if_pos rfl, hr0]
    rfl
  · rw [if_neg ht0]
    by_cases ht1 : t = 1
    · rw [ht1, if_pos rfl, hf1, hcases 1, if_neg (by decide), if_pos rfl, hr1]
      rfl
    · rw [if_neg ht1, hcases t, if_neg ht0, if_neg ht1]
      rfl

/-- A step of the kernel. -/
def KernelStep (k : KernelState) (a : Act) (k' : KernelState) : Prop :=
  Enabled k a ∧ act k a = .ok k'

/-- Every reachable state ends such a run. -/
theorem ReachableBy.trace {A : KernelState → Act → Prop} (h : ReachableBy M A k) :
    ∃ k₀ acts, Kernel.boot M = .ok k₀ ∧ Trace KernelStep k₀ acts k := by
  induction h with
  | boot hb => exact ⟨_, [], hb, .nil _⟩
  | @step k₁ k₂ a _ _ he ha ih =>
    obtain ⟨k₀, acts, hboot, htrace⟩ := ih
    exact ⟨k₀, acts ++ [a], hboot, htrace.snoc ⟨he, ha⟩⟩

theorem Effect.cr0Wp (h : Effect k a k') : k'.cr0Wp = k.cr0Wp := by
  cases h with
  | files h hm =>
    obtain ⟨vfs, heap, fds, rfl⟩ := h.shape
    rfl
  | _ => rfl

theorem ReachableBy.cr0Wp {A : KernelState → Act → Prop} (h : ReachableBy M A k) :
    k.cr0Wp = M.cr0Wp := by
  induction h with
  | boot hb => exact ((boot_spec M).of_ok hb).cr0Wp
  | step hr _ he ha ih => exact ((act_effect hr.kernelOk he).of_ok ha).cr0Wp.trans ih

/-- A run of the kernel is a run of the system its programs see: from the view of its boot, by the
    same acts. -/
theorem kernel_refines (hM : M.FilesReady) {k₀ : KernelState} (hboot : boot M = .ok k₀)
    {acts : List Act} (h : Trace KernelStep k₀ acts k) :
    ∃ s₀, OsState.initial (view M.vfs) k₀.current = some s₀ ∧
      Trace (OsStep M.cr0Wp) s₀ acts (osOf k) := by
  refine ⟨osOf k₀, ((boot_spec M).of_ok hboot).osOf_initial, ?_⟩
  refine h.map (I := Reachable M) ?_ ?_ (.boot hboot)
  · intro k a k' hr hstep
    exact hr.step trivial hstep.1 hstep.2
  · intro k a k' hr hstep
    have hrefines := act_refines hM hr hstep.1 hstep.2
    rwa [ReachableBy.cr0Wp hr] at hrefines

end Runs

/-- A run from the boot to a program. -/
theorem kernel_refines_hello : ∃ M k₀ acts k s₀, M.FilesReady ∧ boot M = .ok k₀ ∧
    Trace KernelStep k₀ acts k ∧ IsUser (k.task k.current) ∧
    OsState.initial (view M.vfs) k₀.current = some s₀ ∧
    Trace (OsStep M.cr0Wp) s₀ acts (osOf k) := by
  obtain ⟨M, hM⟩ := exists_helloMachine
  obtain ⟨_, k, -, hr, hs⟩ := hM.started
  obtain ⟨k₀, acts, hboot, htrace⟩ := hr.trace
  obtain ⟨s₀, hinit, hrun⟩ := kernel_refines hM.files hboot htrace
  exact ⟨M, k₀, acts, k, s₀, hM.files, hboot, htrace, hs.user, hinit, hrun⟩

end PcoOs.Kernel
