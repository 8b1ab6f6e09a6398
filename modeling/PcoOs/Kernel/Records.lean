/-
  The task table over runs. `Slots` are the six words of a row that no decision reads: its id, its
  counters, its name and the page of its stack. `actSlots` says what a step does to them, and
  `RecordRun` are the runs with these words added, so that a row of the table here has all 25 words
  of the source. `task_table_bookkeeping` is about such runs.
-/
import PcoOs.Kernel.Progress
import PcoOs.Sched.Slots

namespace PcoOs.Kernel

open PcoOs.Lib PcoOs.Pmm PcoOs.Support PcoOs.Vmm PcoOs.Elf PcoOs.Image PcoOs.Sched PcoOs.Vfs
  PcoOs.Syscall

/-! ## The words nobody reads -/

structure Slots where
  id : Nat
  runtimeTicks : Int
  switches : Nat
  nameTag : Nat
  waitTicks : Nat
  userStackPhys : Nat
  deriving DecidableEq, Repr

/-- The words of all rows. -/
abbrev SlotTable := TaskId → Slots

/-- What `scheduler_clear_task` leaves. -/
def clearSlots : Slots := ⟨0, 0, 0, 0, 0, 0⟩

/-- `scheduler_set_task`. -/
def setTaskSlots (st : SlotTable) (t : TaskId) (nameTag userStackPhys : Nat) : SlotTable :=
  Function.update st t ⟨t.val, 0, 0, nameTag, 0, userStackPhys⟩

def schedulerRecordSwitch (st : SlotTable) (t : TaskId) : SlotTable :=
  Function.update st t { st t with switches := (st t).switches + 1 }

def schedulerAddRuntimeTicks (st : SlotTable) (t : TaskId) (delta : Int) : SlotTable :=
  Function.update st t { st t with runtimeTicks := (st t).runtimeTicks + delta }

/-- `scheduler_pick_next_task` counts a switch to the task it picks. -/
def pickSlots (s : SchedState) (st : SlotTable) : SlotTable :=
  match schedulerPickNextTask s with
  | .ok (next, _) => schedulerRecordSwitch st next
  | .error _ => st

/-- `scheduler_account_tick` charges the ticks to the current task. -/
def accountSlots (s : SchedState) (now : Int) (st : SlotTable) : SlotTable :=
  let (delta, _) := schedulerAccountTick s now
  if delta = 0 then st else schedulerAddRuntimeTicks st s.currentTask delta

/-- A round of the loops of `scheduler_waitpid`. -/
def waitRoundSlots (k : KernelState) (target : Option TaskId) (st : SlotTable) : SlotTable :=
  match target with
  | some t => Function.update st t clearSlots
  | none => pickSlots k.sched st

/-- The loop `scheduler_waitpid` gets to, if it does not return at once. -/
def waitpidLoop (k : KernelState) (taskId : Int) : Option Kont :=
  if taskId < -1 ∨ taskId ≥ k.sched.taskCount then none
  else if taskId = k.current.val then none
  else if taskId = -1 then
    if (schedulerFindChild k.sched k.current false).isNone then none else some .waitAny
  else if h : taskId.toNat < 8 then
    let t : TaskId := ⟨taskId.toNat, h⟩
    if (k.task t).state = .empty then none
    else if (k.task t).parentPid ≠ k.current then none
    else some (.waitFor t (k.ghost.serial t))
  else none

/-- The words after the step `a` from `k` to `k'`. The name is an argument of the spawn, and the
    page of the stack is the last one of the image. -/
def actSlots (k k' : KernelState) (nameTag : Nat) (st : SlotTable) : Act → SlotTable
  | .spawn _ _ _ =>
    match schedulerFindFreeTaskId k.sched with
    | .ok t => setTaskSlots st t nameTag ((k'.task t).userPages.getLastD 0)
    | .error _ => st
  | .exec img _ _ =>
    if (k.task k.current).mode = .user ∧ elfValidateUserImage img = .ok true then
      Function.update st k.current
        { st k.current with userStackPhys := (k'.task k.current).userPages.getLastD 0 }
    else st
  | .yield _ => pickSlots k.sched st
  | .timerIrq now regs =>
    let (delta, sched) := schedulerAccountTick k.sched now
    let st := accountSlots k.sched now st
    if delta = 0 then st
    else if ((pushRegs regs).getD 16 0).toNat % 4 ≠ 3 then st
    else if (k.task k.current).mode ≠ .user then st
    else if schedulerRunnableCount sched ≤ 1 then st
    else pickSlots sched st
  | .timerInterrupt allowPreempt now _ =>
    let (delta, sched) := schedulerAccountTick k.sched now
    let st := accountSlots k.sched now st
    if delta = 0 then st
    else if allowPreempt = false then st
    else if schedulerRunnableCount sched ≤ 1 then st
    else pickSlots sched st
  | .exit exitCode _ => pickSlots (exitCurrent k.sched exitCode) st
  | .waitpid taskId _ =>
    match waitpidLoop k taskId with
    | some wait => waitRoundSlots k (waitTarget k wait) st
    | none => st
  | .resume _ =>
    match k.kont k.current with
    | .run | .dead => st
    | wait => waitRoundSlots k (waitTarget k wait) st
  | _ => st

/-- The words after `init_scheduler`. -/
def initSlots : SlotTable :=
  schedulerRecordSwitch (setTaskSlots (setTaskSlots (fun _ => clearSlots) 0 0 0) 1 1 0) 1

/-- `scheduler_self_test`: before each of the `n` decisions some ticks pass. -/
def selfTestSlots : List Int → SchedState → SlotTable → SlotTable
  | [], _, st => st
  | delta :: ticks, s, st =>
    let st := pickSlots s (schedulerAddRuntimeTicks st s.currentTask delta)
    match schedulerPickNextTask s with
    | .ok (_, s) => selfTestSlots ticks s st
    | .error _ => st

/-- The runs of `M` with all words of the table. -/
inductive RecordRun (M : Machine) : KernelState → SlotTable → Prop
  | boot {v : VmmState} {ph : Phys} {k₀ k : KernelState} {ticks : List Int}
      (hm : bootMemory M = .ok (v, ph)) (hi : initScheduler M v ph = .ok k₀)
      (ht : ticks.length = M.picks) (h : Kernel.boot M = .ok k) :
      RecordRun M k (selfTestSlots ticks k₀.sched initSlots)
  | step {k k' : KernelState} {st : SlotTable} {a : Act} (h : RecordRun M k st) (nameTag : Nat)
      (he : Enabled k a) (ha : act k a = .ok k') : RecordRun M k' (actSlots k k' nameTag st a)

theorem RecordRun.reachable {M : Machine} {k : KernelState} {st : SlotTable}
    (h : RecordRun M k st) : Reachable M k := by
  induction h with
  | boot _ _ _ h => exact .boot h
  | step _ _ he ha ih => exact .step ih trivial he ha

/-! ## Empty rows -/

/-- The words of rows without a task are zero. -/
def SlotsOk (task : TaskId → Task) (st : SlotTable) : Prop :=
  ∀ t, (task t).state = .empty → st t = clearSlots

/-- Every row without a task was one before. -/
def EmptyBefore (task task' : TaskId → Task) : Prop :=
  ∀ t, (task' t).state = .empty → (task t).state = .empty

section Rows

variable {task task' : TaskId → Task} {st : SlotTable} {s : SchedState} {t : TaskId}

theorem SlotsOk.update (h : SlotsOk task st) (ht : (task t).state ≠ .empty) (x : Slots) :
    SlotsOk task (Function.update st t x) := by
  intro u hu
  rw [Function.update_of_ne]
  · exact h u hu
  · rintro rfl
    exact ht hu

theorem SlotsOk.mono (h : SlotsOk task st) (he : EmptyBefore task task') : SlotsOk task' st :=
  fun u hu => h u (he u hu)

theorem SlotsOk.clear (h : SlotsOk task st)
    (he : ∀ u, u ≠ t → (task' u).state = .empty → (task u).state = .empty) :
    SlotsOk task' (Function.update st t clearSlots) := by
  intro u hu
  by_cases hut : u = t
  · rw [hut, Function.update_self]
  · rw [Function.update_of_ne hut]
    exact h u (he u hut hu)

/-- The task that is picked is runnable. -/
theorem SlotsOk.pick (h : SlotsOk s.task st) (hs : QueueReady s) :
    SlotsOk s.task (pickSlots s st) := by
  obtain ⟨next, q, he, hq⟩ := schedulerPickNextTask_spec hs
  have hrun : (s.task next).state = .runnable := hq.current_runnable
  unfold pickSlots
  rw [he]
  refine h.update ?_ _
  rw [hrun]
  decide

theorem SlotsOk.account (h : SlotsOk s.task st) (hs : (s.task s.currentTask).state ≠ .empty)
    (now : Int) : SlotsOk s.task (accountSlots s now st) := by
  unfold accountSlots
  dsimp only
  split_ifs
  · exact h
  · exact h.update hs _

theorem EmptyBefore.setTask {row : Task} (h : row.state = (s.task t).state) :
    EmptyBefore s.task (s.setTask t row).task := by
  intro u hu
  rwa [setTask_state h] at hu

end Rows

/-! ## Steps -/

section Step

variable {k k' : KernelState} {st : SlotTable}

theorem schedulerYieldCurrentTask_task (hs : QueueReady k.sched) {regs : Ctx}
    (h : schedulerYieldCurrentTask k regs = .ok k') : k'.sched.task = k.sched.task := by
  obtain ⟨next, q, he, -⟩ := schedulerPickNextTask_spec hs
  unfold schedulerYieldCurrentTask at h
  rw [he, ok_bind] at h
  cases h
  unfold schedulerSwitchToTask
  split_ifs <;> rfl

theorem schedulerExecCurrentTask_empty {img : Image} {argv envp : ExecVec} {r : Int × KernelState}
    (h : schedulerExecCurrentTask k img argv envp = .ok r) :
    EmptyBefore k.sched.task r.2.sched.task := by
  unfold schedulerExecCurrentTask at h
  dsimp only at h
  split_ifs at h
  · cases h
    exact fun _ hx => hx
  obtain ⟨ok, -, h⟩ := bind_eq_ok.mp h
  split_ifs at h
  · obtain ⟨q, -, h⟩ := bind_eq_ok.mp h
    obtain ⟨m, -, h⟩ := bind_eq_ok.mp h
    cases h
    exact .setTask (by rfl)
  · cases h
    exact fun _ hx => hx

theorem userCall_empty (hk : KernelOk k) {c : UserCall} {r : Int × KernelState}
    (h : Syscall.userCall k c = .ok r) : EmptyBefore k.sched.task r.2.sched.task := by
  unfold Syscall.userCall at h
  obtain ⟨q, hq, h⟩ := bind_eq_ok.mp h
  obtain ⟨m, -, h⟩ := bind_eq_ok.mp h
  cases h
  obtain ⟨vfs, heap, fds, hs⟩ := (userCallBytes_spec hk.heap hq).1.shape
  dsimp only
  rw [hs]
  exact .setTask (by rfl)

theorem reapTask_task {t : TaskId} {r : Int × KernelState} (h : reapTask k t = .ok r) :
    r.2.sched = releaseRow k.sched t := by
  unfold reapTask at h
  obtain ⟨phys, -, h⟩ := bind_eq_ok.mp h
  obtain ⟨vfs, -, h⟩ := bind_eq_ok.mp h
  cases h
  rfl

theorem waitRound_slots (hk : KernelOk k) (h : SlotsOk k.sched.task st) {wait : Kont}
    {target : Option TaskId} {regs : Ctx} {r : Option Int × KernelState}
    (he : waitRound k wait target regs = .ok r) :
    SlotsOk r.2.sched.task (waitRoundSlots k target st) := by
  unfold waitRound at he
  cases target with
  | some t =>
    obtain ⟨q, hq, he⟩ := bind_eq_ok.mp he
    cases he
    dsimp only
    rw [reapTask_task hq]
    refine h.clear fun u hut hu => ?_
    rwa [releaseRow_task, if_neg hut] at hu
  | none =>
    obtain ⟨q, hq, he⟩ := bind_eq_ok.mp he
    cases he
    dsimp only
    rw [schedulerYieldCurrentTask_task (by exact hk.queue.toQueueReady) hq]
    exact h.pick hk.queue.toQueueReady

/-- The call returns at once or does a round of its loop. -/
theorem schedulerWaitpid_eq (k : KernelState) {taskId : Int} {regs : Ctx}
    (hk : k.sched.taskCount ≤ 8) :
    schedulerWaitpid k taskId regs =
      match waitpidLoop k taskId with
      | some wait => waitRound k wait (waitTarget k wait) regs
      | none => .ok (some (-1), k) := by
  unfold schedulerWaitpid waitpidLoop
  dsimp only
  split_ifs <;> try rfl
  omega

theorem actSlots_ok (hk : KernelOk k) (h : SlotsOk k.sched.task st) (nameTag : Nat) {a : Act}
    (ha : act k a = .ok k') : SlotsOk k'.sched.task (actSlots k k' nameTag st a) := by
  have hready := hk.queue.toQueueReady
  have hcur : (k.sched.task k.sched.currentTask).state ≠ .empty := hk.current_present
  cases a with
  | spawn img argv envp =>
    obtain ⟨⟨t, k₁⟩, hc, ha⟩ := bind_eq_ok.mp ha
    cases ha
    unfold schedulerCreateUserElfTask at hc
    obtain ⟨u, hu, hc⟩ := bind_eq_ok.mp hc
    obtain ⟨⟨row, ph, heap⟩, hb, hc⟩ := bind_eq_ok.mp hc
    obtain ⟨⟨fds, vfs⟩, -, hc⟩ := bind_eq_ok.mp hc
    obtain ⟨sched, hp, hc⟩ := bind_eq_ok.mp hc
    obtain ⟨q, he, -⟩ := publishTask_eq hk.queue u { row with fds := fds }
    cases he.symm.trans hp
    cases hc
    have hrun : row.state = .runnable :=
      (buildUserTask_blocks hk.heap ((orPanic_ends _).of_ok hb)).state
    unfold actSlots
    rw [hu]
    refine SlotsOk.update (h.mono fun w hw => ?_) ?_ _
    · rw [publishTask_task] at hw
      split_ifs at hw
      · exact absurd (hrun.symm.trans hw) (by decide)
      · exact hw
    · rw [publishTask_task, if_pos rfl]
      exact fun hx => absurd (hrun.symm.trans hx) (by decide)
  | exec img argv envp =>
    obtain ⟨r, hr, ha⟩ := bind_eq_ok.mp ha
    cases ha
    have hrows := schedulerExecCurrentTask_empty hr
    have hst := h.mono hrows
    unfold actSlots
    dsimp only
    split_ifs
    · exact hst.update (fun hx => hcur (hrows _ hx)) _
    · exact hst
  | brk requested =>
    cases ha
    refine h.mono ?_
    unfold schedulerBrk
    dsimp only
    split_ifs
    · exact fun _ hx => hx
    · exact fun _ hx => hx
    · exact fun _ hx => hx
    · exact .setTask (by rfl)
  | yield regs =>
    rw [schedulerYieldCurrentTask_task hready ha]
    exact h.pick hready
  | timerIrq now regs =>
    obtain ⟨t, ht⟩ := schedulerAccountTick_snd k.sched now
    have hs := h.account hcur now
    have hready' : QueueReady { k.sched with lastTick := t } :=
      hready.congr (fun _ => rfl) rfl rfl rfl
    obtain ⟨next, q, he, -⟩ := schedulerPickNextTask_spec hready'
    change schedulerTimerIrq k now regs = .ok k' at ha
    unfold schedulerTimerIrq at ha
    unfold actSlots
    dsimp only at ha ⊢
    rw [ht] at ha ⊢
    split_ifs at ha with h1 h2 h3 h4
    · cases ha
      rw [if_pos h1]
      exact hs
    · cases ha
      rw [if_neg h1, if_pos h2]
      exact hs
    · cases ha
      rw [if_neg h1, if_neg h2, if_pos (by exact h3)]
      exact hs
    · cases ha
      rw [if_neg h1, if_neg h2, if_neg (by exact h3), if_pos (by exact h4)]
      exact hs
    · rw [if_neg h1, if_neg h2, if_neg (by exact h3), if_neg (by exact h4)]
      rw [he, ok_bind] at ha
      dsimp only at ha
      have hpick := SlotsOk.pick (s := { k.sched with lastTick := t }) hs hready'
      split_ifs at ha
      · cases ha
        exact hpick
      · obtain ⟨m, -, ha⟩ := bind_eq_ok.mp ha
        cases ha
        exact hpick
  | timerInterrupt allowPreempt now regs =>
    obtain ⟨t, ht⟩ := schedulerAccountTick_snd k.sched now
    have hs := h.account hcur now
    have hready' : QueueReady { k.sched with lastTick := t } :=
      hready.congr (fun _ => rfl) rfl rfl rfl
    change schedulerTimerInterrupt k allowPreempt now regs = .ok k' at ha
    unfold schedulerTimerInterrupt at ha
    unfold actSlots
    dsimp only at ha ⊢
    rw [ht] at ha ⊢
    split_ifs at ha with h1 h2 h3
    · cases ha
      rw [if_pos h1]
      exact hs
    · cases ha
      rw [if_neg h1, if_pos h2]
      exact hs
    · cases ha
      rw [if_neg h1, if_neg h2, if_pos (by exact h3)]
      exact hs
    · rw [if_neg h1, if_neg h2, if_neg (by exact h3),
        schedulerYieldCurrentTask_task (by exact hready') ha]
      exact SlotsOk.pick (s := { k.sched with lastTick := t }) hs hready'
  | exit exitCode regs =>
    change schedulerExitCurrentTask k exitCode regs = .ok k' at ha
    unfold schedulerExitCurrentTask at ha
    dsimp only at ha
    rw [hk.queue.idle] at ha
    split_ifs at ha with hc
    have hexit := hk.queue.exit hc exitCode
    obtain ⟨next, q, he, -⟩ := schedulerPickNextTask_spec hexit
    rw [he, ok_bind] at ha
    dsimp only at ha
    split_ifs at ha with hn
    cases ha
    have hrows : SlotsOk (exitCurrent k.sched exitCode).task st := by
      refine h.mono fun t hx => ?_
      rw [exitCurrent_task] at hx
      split_ifs at hx
      exact hx
    unfold schedulerSwitchToTask
    rw [if_neg hn]
    exact hrows.pick hexit
  | waitpid taskId regs =>
    obtain ⟨r, hr, ha⟩ := bind_eq_ok.mp ha
    cases ha
    rw [schedulerWaitpid_eq k hk.table.count_le] at hr
    unfold actSlots
    dsimp only
    cases hw : waitpidLoop k taskId with
    | some wait =>
      rw [hw] at hr
      exact waitRound_slots hk h hr
    | none =>
      rw [hw] at hr
      cases hr
      exact h
  | resume regs =>
    obtain ⟨r, hr, ha⟩ := bind_eq_ok.mp ha
    cases ha
    unfold resumeCurrent at hr
    unfold actSlots
    dsimp only
    cases hw : k.kont k.current with
    | run =>
      rw [hw] at hr
      cases hr
      exact h
    | dead =>
      rw [hw] at hr
      cases hr
    | waitAny =>
      rw [hw] at hr
      exact waitRound_slots hk h hr
    | waitFor t serial =>
      rw [hw] at hr
      exact waitRound_slots hk h hr
  | loadImage path =>
    obtain ⟨q, -, ha⟩ := bind_eq_ok.mp ha
    cases ha
    exact h
  | kernelCall c =>
    obtain ⟨q, hq, ha⟩ := bind_eq_ok.mp ha
    cases ha
    obtain ⟨vfs, heap, fds, hs⟩ := (fileCall_done hk.heap ((orPanic_ends _).of_ok hq)).shape
    rw [hs]
    exact h.mono (.setTask (by rfl))
  | userCall c =>
    obtain ⟨q, hq, ha⟩ := bind_eq_ok.mp ha
    cases ha
    exact h.mono (userCall_empty hk ((orPanic_ends _).of_ok hq))
  | alloc size =>
    obtain ⟨q, -, ha⟩ := bind_eq_ok.mp ha
    cases ha
    exact h
  | kernelStore x b =>
    cases ha
    exact h
  | userStore virt b =>
    obtain ⟨q, -, ha⟩ := bind_eq_ok.mp ha
    cases ha
    exact h

end Step

/-! ## Runs -/

section Runs

variable {M : Machine} {k k' : KernelState} {st : SlotTable}

theorem Booted.tableTight (h : Booted M k) : TableTight k.sched := by
  obtain ⟨row0, row1, hrows, htask⟩ := h.rows
  obtain ⟨c0, s0, f0, h0⟩ := hrows.row0
  obtain ⟨c1, s1, f1, h1⟩ := hrows.row1
  have hrow : ∀ t, k.sched.task t = if t = 0 then row0 else if t = 1 then row1 else clearTask :=
    fun t => congrFun htask t
  refine ⟨⟨1, h.count, ?_⟩, fun t ht => ?_⟩
  · rw [hrow, if_neg (by decide), if_pos rfl, h1]
    exact fun hx => by cases hx
  · rw [hrow] at ht ⊢
    split_ifs at ht ⊢
    · rw [h0] at ht
      cases ht
    · rw [h1] at ht
      cases ht
    · rfl

theorem Effect.tableTight {a : Act} (hk : KernelOk k) (he : Effect k a k')
    (h : TableTight k.sched) : TableTight k'.sched := by
  have hcur : (k.sched.task k.sched.currentTask).state ≠ .empty := hk.current_present
  have hsame : ∀ s : SchedState, s.taskCount = k.sched.taskCount → s.task = k.sched.task →
      TableTight s := fun s hc ht =>
    h.congr hc (fun t => by rw [ht]) fun t _ => by rw [ht]
  cases he with
  | tick now => exact hsame _ rfl rfl
  | brk b => exact h.setTask hcur rfl
  | files hd =>
    obtain ⟨vfs, heap, fds, rfl⟩ := hd.shape
    exact h.setTask hcur rfl
  | stack => exact h
  | stay => exact hsame _ rfl rfl
  | leave => exact hsame _ rfl rfl
  | @spawn img argv envp t row phys heap vfs fds q ht hb =>
    have hrow : ({ row with fds := fds } : Task).state = .runnable := (buildUserTask_blocks hk.heap hb).state
    exact h.publish hrow
  | exec => exact h.setTask hcur rfl
  | @exit exitCode =>
    exact (h.exit hcur exitCode).congr rfl (fun _ => Iff.rfl) fun _ _ => rfl
  | reap hw ht =>
    refine h.release hk.table hcur ?_
    rintro rfl
    exact absurd (hk.queue.current_runnable.symm.trans (waitTarget_exited ht)) (by decide)

theorem Reachable.tableTight (h : Reachable M k) : TableTight k.sched :=
  h.effects (fun _ hb => hb.tableTight) fun _ _ _ hk _ he hi => he.tableTight hk hi

theorem selfTestSlots_ok (ticks : List Int) {s : SchedState} (hq : QueueInv s)
    (h : SlotsOk s.task st) : SlotsOk s.task (selfTestSlots ticks s st) := by
  induction ticks generalizing s st with
  | nil => exact h
  | cons delta ticks ih =>
    obtain ⟨next, q, he, hq'⟩ := schedulerPickNextTask_spec hq.toQueueReady
    have hcur : (s.task s.currentTask).state ≠ .empty := by
      rw [hq.current_runnable]
      decide
    unfold selfTestSlots
    dsimp only
    rw [he]
    exact ih hq' (SlotsOk.pick (h.update hcur _) hq.toQueueReady)

theorem initScheduler_slots {v : VmmState} {ph : Phys} {k₀ : KernelState}
    (h : initScheduler M v ph = .ok k₀) :
    QueueInv k₀.sched ∧ SlotsOk k₀.sched.task initSlots := by
  unfold initScheduler at h
  obtain ⟨⟨row0, row1, heap, vfs⟩, hr, h⟩ := bind_eq_ok.mp h
  have hrows : BootRows M v.rootP4 row0 row1 heap :=
    ((bootstrapRows_spec M v.rootP4).of_ok ((orPanic_ends _).of_ok hr)).1
  obtain ⟨c0, s0, f0, h0⟩ := hrows.row0
  obtain ⟨c1, s1, f1, h1⟩ := hrows.row1
  have hr0 : row0.state = .runnable := by
    rw [h0]
    rfl
  have hr1 : row1.state = .runnable := by
    rw [h1]
    rfl
  obtain ⟨q, he, -, hq⟩ := bootstrap_queueInv M.now hr0 hr1
  dsimp only at h
  rw [he, ok_bind] at h
  cases h
  refine ⟨hq, fun t ht => ?_⟩
  have htask : ({ bootstrapSched M.now row0 row1 with queue := q } : SchedState).task t =
      if t = 0 then row0 else if t = 1 then row1 else clearTask := rfl
  rw [htask] at ht
  split_ifs at ht with ht0 ht1
  · exact absurd (hr0.symm.trans ht) (by decide)
  · exact absurd (hr1.symm.trans ht) (by decide)
  · unfold initSlots schedulerRecordSwitch setTaskSlots
    rw [Function.update_of_ne ht1, Function.update_of_ne ht1, Function.update_of_ne ht0]

theorem RecordRun.slotsOk (h : RecordRun M k st) : SlotsOk k.sched.task st := by
  induction h with
  | @boot v ph k₀ k ticks hm hi ht hb =>
    obtain ⟨hq, hslots⟩ := initScheduler_slots hi
    unfold Kernel.boot at hb
    obtain ⟨r, hr, hb⟩ := bind_eq_ok.mp hb
    cases hm.symm.trans ((orPanic_ends _).of_ok hr)
    unfold bootTasks at hb
    dsimp only at hb
    rw [hi, ok_bind] at hb
    obtain ⟨next, q, he, -⟩ := selfTestPicks_spec M.picks hq
    rw [he, ok_bind] at hb
    cases hb
    exact selfTestSlots_ok ticks hq hslots
  | @step k k' st a h nameTag he ha ih => exact actSlots_ok h.reachable.kernelOk ih nameTag ha

/-- Every run is one with all words of the table. -/
theorem Reachable.recorded (h : Reachable M k) : ∃ st, RecordRun M k st := by
  induction h with
  | boot hboot =>
    have hb := hboot
    unfold Kernel.boot at hb
    obtain ⟨⟨v, ph⟩, hm, hb⟩ := bind_eq_ok.mp hb
    unfold bootTasks at hb
    obtain ⟨k₀, hi, -⟩ := bind_eq_ok.mp hb
    exact ⟨_, .boot ((orPanic_ends _).of_ok hm) hi (List.length_replicate (a := 0)) hboot⟩
  | step _ _ he ha ih =>
    obtain ⟨st, hst⟩ := ih
    exact ⟨_, hst.step 0 he ha⟩

/-- A spawn takes the lowest empty slot. -/
theorem schedulerCreateUserElfTask_least (h : Reachable M k) {img : Image} {argv envp : ExecVec}
    {t : TaskId} (hs : schedulerCreateUserElfTask k img argv envp = .ok (t, k')) :
    (k.task t).state = .empty ∧ ∀ u, (k.task u).state = .empty → t ≤ u := by
  unfold schedulerCreateUserElfTask at hs
  obtain ⟨t', ht, hs⟩ := bind_eq_ok.mp hs
  obtain ⟨q₁, -, hs⟩ := bind_eq_ok.mp hs
  obtain ⟨q₂, -, hs⟩ := bind_eq_ok.mp hs
  obtain ⟨q₃, -, hs⟩ := bind_eq_ok.mp hs
  cases hs
  exact schedulerFindFreeTaskId_least h.kernelOk.table ht

/-- In every state of every run `task_count` is one more than the highest task, the rows from
    there on are zero in all their words, a spawn returns the lowest empty id, the loops bounded by
    `task_count` see every task, and a slot that a step frees is the next one used when it is the
    lowest that is free. -/
theorem task_table_bookkeeping (h : RecordRun M k st) :
    (∃ t, (k.task t).state ≠ .empty ∧ (∀ u, (k.task u).state ≠ .empty → u ≤ t) ∧
      k.sched.taskCount = t.val + 1) ∧
    (∀ t : TaskId, k.sched.taskCount ≤ t.val → k.task t = clearTask ∧ st t = clearSlots) ∧
    (∀ img argv envp t k', schedulerCreateUserElfTask k img argv envp = .ok (t, k') →
      (k.task t).state = .empty ∧ ∀ u, (k.task u).state = .empty → t ≤ u) ∧
    ScansWhole k.sched ∧
    ∀ a k' t, Enabled k a → act k a = .ok k' → (k.task t).state ≠ .empty →
      (k'.task t).state = .empty → (∀ u, (k'.task u).state = .empty → t ≤ u) →
      ∀ img argv envp u k'', schedulerCreateUserElfTask k' img argv envp = .ok (u, k'') →
        u = t := by
  have hr := h.reachable
  have htable := hr.kernelOk.table
  refine ⟨hr.tableTight.le_last htable, fun t ht => ?_, ?_, htable.scansWhole, ?_⟩
  · have hempty := htable.beyond t ht
    exact ⟨hr.tableTight.clear t hempty, h.slotsOk t hempty⟩
  · intro img argv envp t k' hs
    exact schedulerCreateUserElfTask_least hr hs
  · intro a k' t he ha _ hfree hleast img argv envp u k'' hs
    have hr' : Reachable M k' := .step hr trivial he ha
    obtain ⟨hu, hule⟩ := schedulerCreateUserElfTask_least hr' hs
    exact le_antisymm (hule t hfree) (hleast u hu)

theorem task_table_bookkeeping_small : ∃ k st, RecordRun smallMachine k st ∧
    IsUser (k.task k.current) ∧
    ∀ t : TaskId, k.sched.taskCount ≤ t.val → k.task t = clearTask ∧ st t = clearSlots := by
  obtain ⟨k, hr, hu⟩ := smallMachine_runs
  obtain ⟨st, h⟩ := hr.recorded
  obtain ⟨-, hzero, -⟩ := task_table_bookkeeping h
  exact ⟨k, st, h, hu.user, hzero⟩

end Runs

end PcoOs.Kernel
