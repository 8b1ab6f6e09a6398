/-
  What a step can do, said once. `act_effect` inverts every act into one of ten effects, and all
  invariants of runs are proved against these. It needs `KernelOk`, the part of the invariant that
  the queue, the heap pointer and the pointer check rest on, and `Effect.kernelOk` restores it.
  The same pass shows which panics a step can end in.
-/
import PcoOs.Kernel.Run
import PcoOs.Sched.Table
import PcoOs.Syscall.Spec

namespace PcoOs.Kernel

open PcoOs.Lib PcoOs.Pmm PcoOs.Support PcoOs.Vmm PcoOs.Elf PcoOs.Image PcoOs.Sched PcoOs.Vfs
  PcoOs.Syscall

/-! ## Saving registers -/

/-- How an act saves the registers of a task it leaves. -/
inductive Saves where
  | nothing
  | switch (regs : Ctx)
  | irq (regs : UserRegs)

def Act.saves : Act → Saves
  | .yield regs | .timerInterrupt _ _ regs | .exit _ regs | .waitpid _ regs | .resume regs =>
    .switch regs
  | .timerIrq _ regs => .irq regs
  | _ => .nothing

/-- `m` is the heap with the registers of the current task saved. -/
def SavedAs (k : KernelState) : Saves → Mem → Prop
  | .nothing, _ => False
  | .switch regs, m => OnStack k regs.rsp.toNat 8 ∧
    m = storeWords (storeQword k.heap.mem regs.rsp.toNat k.code.switchReturn.toNat)
      (k.task k.current).contextPtr regs.words
  | .irq regs, m => (k.task k.current).mode = .user ∧
    schedulerSaveUserIrqContext k k.current (pushRegs regs) = .ok m

/-! ## Waiting -/

/-- A wait the current task may be in after a step: the one it was in, or a new one for its
    children. -/
inductive WaitOk (k : KernelState) : Kont → Prop
  | same : WaitOk k (k.kont k.current)
  | any : WaitOk k .waitAny
  | target {t : TaskId} (hs : (k.task t).state ≠ .empty)
      (hp : (k.task t).parentPid = k.current) : WaitOk k (.waitFor t (k.ghost.serial t))

/-! ## Stores to user memory -/

/-- One byte stored through the loaded root, in a page open to user mode or between the base and
    the limit of the current task. -/
def StoreStep (k : KernelState) (m m' : Mem) : Prop :=
  ∃ (virt : Nat) (b : UInt8) (a : Access), mmuWalk m k.phys.cr3 (virt / 4096) = some a ∧
    (a.user = true ∨ ((k.task k.current).userBase ≤ virt ∧
      (virt : Int) < (k.task k.current).userLimit)) ∧
    m' = storeByte m (a.frame + virt % 4096) b

/-- Memory after stores of the current task. -/
def Stored (k : KernelState) (m : Mem) : Prop :=
  Relation.ReflTransGen (StoreStep k) k.phys.mem m ∧
    (m = k.phys.mem ∨ (k.task k.current).mode = .user)

theorem Stored.refl (k : KernelState) : Stored k k.phys.mem := ⟨.refl, Or.inl rfl⟩

/-! ## Effects -/

inductive Effect (k : KernelState) (a : Act) : KernelState → Prop
  /-- The clock. -/
  | tick (now : Int) : Effect k a { k with sched := { k.sched with lastTick := now } }
  /-- A new program break. -/
  | brk (b : Int) (hm : (k.task k.current).mode = .user)
      (hlo : (k.task k.current).heapBase ≤ b) (hhi : b ≤ (k.task k.current).heapLimit) :
      Effect k a { k with
        sched := k.sched.setTask k.current { k.task k.current with heapBreak := b } }
  /-- Files, descriptors, the heap pointer and user memory. -/
  | files {k₁ : KernelState} (h : FileDone k k₁) {m : Mem} (hm : Stored k m) :
      Effect k a { k₁ with phys := { k₁.phys with mem := m } }
  /-- The kernel stack of the current task. -/
  | stack {m : Mem} (h : ∀ x, ¬ OnStack k x 1 → m x = k.heap.mem x) :
      Effect k a { k with heap := { k.heap with mem := m } }
  /-- A decision for the current task. -/
  | stay (now : Int) (q : RingBuffer TaskId) {wait : Kont} (hw : WaitOk k wait)
      (hq : QueueInv { k.sched with lastTick := now, queue := q }) :
      Effect k a { k with
        sched := { k.sched with lastTick := now, queue := q }
        kont := Function.update k.kont k.current wait }
  /-- A switch to another task. -/
  | leave (now : Int) {next : TaskId} (hne : next ≠ k.current) (q : RingBuffer TaskId)
      {wait : Kont} (hw : WaitOk k wait)
      (hq : QueueInv { k.sched with lastTick := now, queue := q, currentTask := next })
      {m : Mem} (hs : SavedAs k a.saves m) :
      Effect k a (enterTask { k with
        sched := { k.sched with lastTick := now, queue := q, currentTask := next }
        kont := Function.update k.kont k.current wait } m next)
  /-- A new task. -/
  | spawn {img : Image} {argv envp : ExecVec} {t : TaskId} {row : Task} {phys : Phys}
      {heap : Heap} {vfs : VfsState} {fds : Fin 4 → Nat} (q : RingBuffer TaskId)
      (ht : (k.task t).state = .empty)
      (hb : buildUserTask k img argv envp = .ok (row, phys, heap))
      (hh : q.head ≤ q.tail) (hq : q.items readyQueueCapacity = k.sched.queued ++ [t])
      (hf : schedulerInitTaskFds k.vfs = .ok (fds, vfs)) :
      Effect k a { k with
        phys := phys, heap := heap, vfs := vfs
        sched := { k.sched.setTask t { row with fds := fds } with
          taskCount := max k.sched.taskCount (t.val + 1), queue := q }
        kont := Function.update k.kont t .run
        ghost := k.ghost.spawn t k.current img }
  /-- A new program in the current task. -/
  | exec {img : Image} {argv envp : ExecVec} {im : UserImage} {phys : Phys} {heap : Heap} {m : Mem}
      (hm : (k.task k.current).mode = .user) (hv : elfValidateUserImage img = .ok true)
      (hr : replaceUserImage k.vmm (k.task k.current).cr3 (k.task k.current).userBase
        (k.task k.current).userPages (k.task k.current).userPageCount img argv envp k.phys
        k.heap = .ok (im, phys, heap))
      (hc : schedulerConfigureUserTaskContext k.code heap.mem (k.task k.current).contextPtr
        (k.task k.current).stackBase (word im.rip) (word im.start.rsp) (word im.start.argc)
        (word im.start.argvPtr) (word im.start.envpPtr) = .ok m) :
      Effect k a { k with
        phys := { phys with cr3 := (k.task k.current).cr3 }
        heap := { heap with mem := m }
        sched := k.sched.setTask k.current { k.task k.current with
          userPages := im.pages, userPageCount := im.pageCount, userLimit := im.limit,
          heapBase := im.heapBase, heapLimit := im.heapLimit, heapBreak := im.heapBreak }
        cpu := enterContext k.code m (k.task k.current).contextPtr
        rsp0 := taskKernelRsp0Top (k.task k.current).stackBase
        ghost := { k.ghost with image := Function.update k.ghost.image k.current img } }
  /-- The end of the current task. -/
  | exit {exitCode : Int} {regs : Ctx} (ha : a = .exit exitCode regs) (hc : k.current ≠ 0)
      {next : TaskId} (hne : next ≠ k.current) (q : RingBuffer TaskId)
      (hq : QueueInv { exitCurrent k.sched exitCode with queue := q, currentTask := next })
      {m : Mem} (hs : SavedAs k a.saves m) :
      Effect k a (enterTask { k with
        sched := { exitCurrent k.sched exitCode with queue := q, currentTask := next }
        kont := Function.update k.kont k.current .dead
        ghost := k.ghost.exit k.current exitCode } m next)
  /-- The end of a wait. -/
  | reap {wait : Kont} {t : TaskId} (hw : WaitOk k wait) (ht : waitTarget k wait = some t)
      {phys : Phys} {vfs : VfsState} (hd : schedulerDestroyUserTask k t = .ok phys)
      (hf : schedulerReleaseTaskFds (k.task t).fds k.vfs = .ok vfs) :
      Effect k a { k with
        phys := phys, vfs := vfs, sched := releaseRow k.sched t
        kont := Function.update k.kont k.current .run
        ghost := k.ghost.reap t (k.task t).parentPid k.current (k.task t).exitCode }

/-! ## What the effects rest on -/

structure KernelOk (k : KernelState) : Prop where
  queue : QueueInv k.sched
  table : TableInv k.sched
  alive : ∀ t, (k.task t).state = .runnable → k.kont t ≠ .dead
  heap : HeapOk k.heap
  base : ∀ t, (k.task t).mode = .user → (k.task t).userBase = userTaskRegionBase

/-- Every panic but the two the queue invariant excludes. -/
def IsMessage (p : Panic) : Prop := ∃ text, p = .message text

theorem orPanic_ends {α : Type} (x : Except String α) :
    Ends (orPanic x) (fun a => x = .ok a) IsMessage := by
  cases x with
  | ok a => rfl
  | error text => exact ⟨text, rfl⟩

/-! ## Switching -/

/-- A yield, after the clock and the wait of the current task were set. -/
theorem schedulerYieldCurrentTask_effect {k : KernelState} {a : Act} {regs : Ctx} {wait : Kont}
    (hk : KernelOk k) (ha : a.saves = .switch regs) (hs : OnStack k regs.rsp.toNat 8)
    (hw : WaitOk k wait) (now : Int) :
    Ends (schedulerYieldCurrentTask { k with
        sched := { k.sched with lastTick := now }
        kont := Function.update k.kont k.current wait } regs) (Effect k a) IsMessage := by
  have hready : QueueReady { k.sched with lastTick := now } :=
    hk.queue.toQueueReady.congr (fun _ => rfl) rfl rfl rfl
  obtain ⟨next, q, he, hq⟩ := schedulerPickNextTask_spec hready
  unfold schedulerYieldCurrentTask
  dsimp only
  rw [he, ok_bind, ends_ok]
  dsimp only
  unfold schedulerSwitchToTask
  split_ifs with hn
  · have hcur : next = k.sched.currentTask := hn
    subst hcur
    exact Effect.stay now q hw hq
  · refine Effect.leave (k := k) now hn q hw hq ?_
    rw [ha]
    exact ⟨hs, rfl⟩

theorem schedulerYieldCurrentTask_effect' {k : KernelState} {a : Act} {regs : Ctx}
    (hk : KernelOk k) (ha : a.saves = .switch regs) (hs : OnStack k regs.rsp.toNat 8) (now : Int) :
    Ends (schedulerYieldCurrentTask { k with sched := { k.sched with lastTick := now } } regs)
      (Effect k a) IsMessage := by
  have h := schedulerYieldCurrentTask_effect hk ha hs (.same (k := k)) now
  rwa [Function.update_eq_self] at h

/-- Accounting a tick moves the clock, if at all. -/
theorem schedulerAccountTick_snd (s : SchedState) (now : Int) :
    ∃ t, (schedulerAccountTick s now).2 = { s with lastTick := t } := by
  unfold schedulerAccountTick
  split_ifs
  · exact ⟨s.lastTick, rfl⟩
  · exact ⟨now, rfl⟩

theorem schedulerTimerInterrupt_effect {k : KernelState} {allowPreempt : Bool} {now : Int}
    {regs : Ctx} (hk : KernelOk k) (hs : OnStack k regs.rsp.toNat 8) :
    Ends (schedulerTimerInterrupt k allowPreempt now regs)
      (Effect k (.timerInterrupt allowPreempt now regs)) IsMessage := by
  obtain ⟨t, ht⟩ := schedulerAccountTick_snd k.sched now
  unfold schedulerTimerInterrupt
  dsimp only
  rw [ht]
  split_ifs
  · exact Effect.tick t
  · exact Effect.tick t
  · exact Effect.tick t
  · exact schedulerYieldCurrentTask_effect' hk rfl hs t

theorem schedulerTimerIrq_effect {k : KernelState} {now : Int} {regs : UserRegs}
    (hk : KernelOk k) :
    Ends (schedulerTimerIrq k now regs) (Effect k (.timerIrq now regs)) IsMessage := by
  obtain ⟨t, ht⟩ := schedulerAccountTick_snd k.sched now
  unfold schedulerTimerIrq
  dsimp only
  rw [ht]
  have hready : QueueReady { k.sched with lastTick := t } :=
    hk.queue.toQueueReady.congr (fun _ => rfl) rfl rfl rfl
  obtain ⟨next, q, he, hq⟩ := schedulerPickNextTask_spec hready
  split_ifs with h1 h2 h3 h4
  · exact Effect.tick t
  · exact Effect.tick t
  · exact Effect.tick t
  · exact Effect.tick t
  · rw [he, ok_bind]
    dsimp only
    split_ifs with hn
    · have hcur : next = k.sched.currentTask := hn
      subst hcur
      have h := Effect.stay (a := .timerIrq now regs) t q (WaitOk.same (k := k)) hq
      rw [Function.update_eq_self] at h
      exact h
    · refine ends_bind (orPanic_ends _) fun m hm => ?_
      have h := Effect.leave (k := k) (a := .timerIrq now regs) t hn q WaitOk.same hq
        (m := m) ⟨not_not.mp h3, hm⟩
      rw [Function.update_eq_self] at h
      exact h

/-! ## Ending and waiting -/

theorem schedulerExitCurrentTask_effect {k : KernelState} {exitCode : Int} {regs : Ctx}
    (hk : KernelOk k) (hs : OnStack k regs.rsp.toNat 8) :
    Ends (schedulerExitCurrentTask k exitCode regs) (Effect k (.exit exitCode regs))
      IsMessage := by
  unfold schedulerExitCurrentTask
  dsimp only
  rw [hk.queue.idle]
  split_ifs with hc
  · exact ⟨_, rfl⟩
  obtain ⟨next, q, he, hq⟩ := schedulerPickNextTask_spec (hk.queue.exit hc exitCode)
  rw [he, ok_bind]
  dsimp only
  have hne : next ≠ k.current := by
    -- the exiting task is not runnable, and what was picked is
    rintro rfl
    have hr : ((exitCurrent k.sched exitCode).task k.sched.currentTask).state = .runnable :=
      hq.current_runnable
    rw [exitCurrent_task, if_pos rfl] at hr
    cases hr
  rw [if_neg hne, ends_ok]
  unfold schedulerSwitchToTask
  rw [if_neg hne]
  refine Effect.exit (k := k) rfl hc hne q hq ⟨hs, ?_⟩
  show storeWords _ ((exitCurrent k.sched exitCode).task k.sched.currentTask).contextPtr _ = _
  rw [exitCurrent_row]
  rfl

theorem reapTask_effect {k : KernelState} {a : Act} {wait : Kont} {t : TaskId}
    (hw : WaitOk k wait) (ht : waitTarget k wait = some t) :
    Ends (reapTask k t) (fun r => Effect k a r.2) IsMessage := by
  unfold reapTask
  refine ends_bind (orPanic_ends _) fun phys hd => ?_
  refine ends_bind (orPanic_ends _) fun vfs hf => ?_
  exact Effect.reap hw ht hd hf

theorem waitRound_effect {k : KernelState} {a : Act} {wait : Kont} {regs : Ctx}
    (hk : KernelOk k) (ha : a.saves = .switch regs) (hs : OnStack k regs.rsp.toNat 8)
    (hw : WaitOk k wait) :
    Ends (waitRound k wait (waitTarget k wait) regs) (fun r => Effect k a r.2) IsMessage := by
  unfold waitRound
  cases ht : waitTarget k wait with
  | some t =>
    dsimp only
    exact ends_bind (reapTask_effect hw ht) fun r hr => hr
  | none =>
    dsimp only
    exact ends_bind (schedulerYieldCurrentTask_effect hk ha hs hw k.sched.lastTick) fun _ hr => hr

/-- A step that changes nothing. -/
theorem Effect.none {k : KernelState} {a : Act} : Effect k a k := Effect.tick k.sched.lastTick

theorem schedulerWaitpid_effect {k : KernelState} {taskId : Int} {regs : Ctx} (hk : KernelOk k)
    (hs : OnStack k regs.rsp.toNat 8) :
    Ends (schedulerWaitpid k taskId regs) (fun r => Effect k (.waitpid taskId regs) r.2)
      IsMessage := by
  unfold schedulerWaitpid
  dsimp only
  split_ifs with h1 h2 h3 h4 h5 h6 h7
  · exact Effect.none
  · exact Effect.none
  · exact Effect.none
  · exact waitRound_effect hk rfl hs .any
  · exact Effect.none
  · exact Effect.none
  · exact waitRound_effect hk rfl hs (.target h6 (not_not.mp h7))
  · exact ⟨_, rfl⟩

theorem resumeCurrent_effect {k : KernelState} {regs : Ctx} (hk : KernelOk k)
    (hs : OnStack k regs.rsp.toNat 8) :
    Ends (resumeCurrent k regs) (fun r => Effect k (.resume regs) r.2) IsMessage := by
  have hround : Ends (waitRound k (k.kont k.current) (waitTarget k (k.kont k.current)) regs)
      (fun r => Effect k (.resume regs) r.2) IsMessage := waitRound_effect hk rfl hs .same
  unfold resumeCurrent
  cases hkont : k.kont k.current with
  | run => exact Effect.none
  | dead => exact absurd hkont (hk.alive _ hk.queue.current_runnable)
  | waitAny =>
    rw [hkont] at hround
    exact hround
  | waitFor t serial =>
    rw [hkont] at hround
    exact hround

/-! ## New programs -/

theorem publishTask_eq {s : SchedState} (h : QueueInv s) (t : TaskId) (row : Task) :
    ∃ q : RingBuffer TaskId, publishTask s t row = .ok { s.setTask t row with
        taskCount := max s.taskCount (t.val + 1), queue := q } ∧ q.head ≤ q.tail ∧
      q.items readyQueueCapacity = s.queued ++ [t] := by
  have hcount : (if t.val ≥ s.taskCount then { s.setTask t row with taskCount := t.val + 1 }
      else s.setTask t row) =
      { s.setTask t row with taskCount := max s.taskCount (t.val + 1) } := by
    split_ifs with hlt
    · rw [max_eq_right (by omega)]
    · rw [max_eq_left (by omega)]
      rfl
  unfold publishTask
  dsimp only
  rw [show (s.setTask t row).taskCount = s.taskCount from rfl, hcount]
  exact schedulerEnqueueTask_eq (s := { s.setTask t row with taskCount := _ }) h.size_lt h.head_le t

theorem schedulerCreateUserElfTask_effect {k : KernelState} {a : Act} {img : Image}
    {argv envp : ExecVec} (hk : KernelOk k) :
    Ends (schedulerCreateUserElfTask k img argv envp) (fun r => Effect k a r.2) IsMessage := by
  have hfree : Ends (schedulerFindFreeTaskId k.sched)
      (fun t => (k.sched.task t).state = .empty) IsMessage :=
    (schedulerFindFreeTaskId_spec hk.table).mono (fun _ h => h) fun _ h => ⟨_, h.1⟩
  unfold schedulerCreateUserElfTask
  refine ends_bind hfree fun t ht => ?_
  refine ends_bind (orPanic_ends _) fun ⟨row, phys, heap⟩ hb => ?_
  refine ends_bind (orPanic_ends _) fun ⟨fds, vfs⟩ hf => ?_
  obtain ⟨q, he, hh, hq⟩ := publishTask_eq hk.queue t { row with fds := fds }
  dsimp only
  rw [he]
  exact Effect.spawn q ht hb hh hq hf

theorem schedulerExecCurrentTask_effect {k : KernelState} {a : Act} {img : Image}
    {argv envp : ExecVec} :
    Ends (schedulerExecCurrentTask k img argv envp) (fun r => Effect k a r.2) IsMessage := by
  unfold schedulerExecCurrentTask
  dsimp only
  split_ifs with hm
  · exact Effect.none
  refine ends_bind (orPanic_ends _) fun ok hv => ?_
  cases ok with
  | false => exact Effect.none
  | true =>
  refine ends_bind (orPanic_ends _) fun ⟨im, phys, heap⟩ hr => ?_
  refine ends_bind (orPanic_ends _) fun m hc => ?_
  exact Effect.exec (not_not.mp hm) hv hr hc

theorem schedulerBrk_effect {k : KernelState} {a : Act} (requested : Int) :
    Effect k a { k with sched := (schedulerBrk k.sched k.current requested).2 } := by
  unfold schedulerBrk
  dsimp only
  split_ifs with h1 h2 h3
  · exact Effect.none
  · exact Effect.none
  · exact Effect.none
  · rw [not_or, not_lt, not_lt] at h3
    exact Effect.brk requested (not_not.mp h1) h3.1 h3.2

/-! ## Calls and stores -/

theorem fileCall_effect {k k' : KernelState} {a : Act} (hk : KernelOk k) {c : FileCall} {r : Int}
    {bytes : Bytes} (h : fileCall k c = .ok (r, bytes, k')) : Effect k a k' := by
  have hd := fileCall_done hk.heap h
  obtain ⟨vfs, heap, fds, rfl⟩ := hd.shape
  exact Effect.files hd (Stored.refl k)

theorem StoreStep.of_storeUserByte {k : KernelState} {m m' : Mem} {virt : Nat} {b : UInt8}
    (hlo : (k.task k.current).userBase ≤ virt)
    (hhi : (virt : Int) < (k.task k.current).userLimit)
    (h : storeUserByte k.cr0Wp m k.phys.cr3 virt b = .ok m') : StoreStep k m m' := by
  unfold storeUserByte at h
  split at h
  · cases h
  · rename_i acc hw
    split_ifs at h
    cases h
    exact ⟨virt, b, acc, hw, Or.inr ⟨hlo, hhi⟩, rfl⟩

/-- Bytes stored between the base and the limit of the current task. -/
theorem storeUserBytes_steps {k : KernelState} (bytes : Bytes) {virt : Nat} {m m' : Mem}
    (hlo : (k.task k.current).userBase ≤ virt)
    (hhi : (virt + bytes.length : Int) ≤ (k.task k.current).userLimit)
    (h : storeUserBytes k.cr0Wp k.phys.cr3 virt bytes m = .ok m') :
    Relation.ReflTransGen (StoreStep k) m m' := by
  induction bytes generalizing virt m with
  | nil =>
    cases h
    exact .refl
  | cons b bytes ih =>
    unfold storeUserBytes at h
    obtain ⟨m₁, h₁, h⟩ := bind_eq_ok.mp h
    rw [List.length_cons] at hhi
    refine .head (StoreStep.of_storeUserByte hlo (by omega) h₁) (ih ?_ ?_ h)
    · push_cast
      omega
    · push_cast at hhi ⊢
      omega

theorem userCall_effect {k k' : KernelState} {a : Act} (hk : KernelOk k) {c : UserCall} {r : Int}
    (hm : (k.task k.current).mode = .user) (hc : c.InRegisters)
    (h : Syscall.userCall k c = .ok (r, k')) : Effect k a k' := by
  unfold Syscall.userCall at h
  obtain ⟨⟨r₁, bytes, k₁⟩, hb, h⟩ := bind_eq_ok.mp h
  obtain ⟨m, hs, h⟩ := bind_eq_ok.mp h
  cases h
  obtain ⟨hd, hbytes⟩ := userCallBytes_spec hk.heap hb
  refine Effect.files hd ⟨?_, Or.inr hm⟩
  obtain ⟨vfs, heap, fds, rfl⟩ := hd.shape
  change storeUserBytes k.cr0Wp k.phys.cr3 (c.buffer.getD (0, 0)).1.toNat bytes k.phys.mem = .ok m
    at hs
  rcases hbytes with rfl | ⟨hacc, ptr, length, hbuf, hlen⟩
  · cases hs
    exact .refl
  · have hreg := hc (ptr, length) (by rw [hbuf]; rfl)
    unfold UserCall.accepted at hacc
    rw [hbuf] at hacc hs
    obtain ⟨hlo, h0, hhi, -⟩ := syscallValidateUserBuffer_range hreg.1 hreg.2 hacc
    have hbase := hk.base _ hm
    unfold userTaskRegionBase at hbase
    rw [Option.getD_some] at hs
    refine storeUserBytes_steps bytes ?_ ?_ hs
    · omega
    · omega

theorem userModeStore_effect {k : KernelState} {a : Act} {virt : Nat} {b : UInt8} {m : Mem}
    (hk : KernelOk k) (hm : (k.task k.current).mode = .user)
    (h : userModeStore k.phys.mem k.phys.cr3 virt b = .ok m) :
    Effect k a { k with phys := { k.phys with mem := m } } := by
  unfold userModeStore at h
  split at h
  · cases h
  · rename_i acc hw
    split_ifs at h with hbits
    cases h
    refine Effect.files (FileDone.of_heap (HeapMoves.refl hk.heap)) ⟨?_, Or.inr hm⟩
    exact .single ⟨virt, b, acc, hw, Or.inl hbits.1, rfl⟩

/-- Every step is one of the effects, and no step runs into a full queue or resumes an exited
    task. -/
theorem act_effect {k : KernelState} {a : Act} (hk : KernelOk k) (he : Enabled k a) :
    Ends (act k a) (Effect k a) IsMessage := by
  cases a with
  | spawn img argv envp => exact ends_bind (schedulerCreateUserElfTask_effect hk) fun _ h => h
  | exec img argv envp => exact ends_bind schedulerExecCurrentTask_effect fun _ h => h
  | brk requested => exact schedulerBrk_effect requested
  | yield regs => exact schedulerYieldCurrentTask_effect' hk rfl he.2 k.sched.lastTick
  | timerIrq now regs => exact schedulerTimerIrq_effect hk
  | timerInterrupt allowPreempt now regs => exact schedulerTimerInterrupt_effect hk he.2
  | exit exitCode regs => exact schedulerExitCurrentTask_effect hk he.2
  | waitpid taskId regs => exact ends_bind (schedulerWaitpid_effect hk he.2) fun _ h => h
  | resume regs => exact ends_bind (resumeCurrent_effect hk he) fun _ h => h
  | loadImage path =>
    refine ends_bind (orPanic_ends _) fun ⟨img, vfs, heap⟩ h => ?_
    exact Effect.files (syscallLoadExecImage_done hk.heap h) (Stored.refl k)
  | kernelCall c => exact ends_bind (orPanic_ends _) fun _ h => fileCall_effect hk h
  | userCall c => exact ends_bind (orPanic_ends _) fun _ h => userCall_effect hk he.2.1 he.2.2 h
  | alloc size =>
    refine ends_bind (orPanic_ends _) fun ⟨p, heap⟩ h => ?_
    exact Effect.files (FileDone.of_heap (allocBytes_moves hk.heap size h)) (Stored.refl k)
  | kernelStore x b =>
    refine Effect.stack fun y hy => ?_
    unfold storeByte
    rw [if_neg]
    rintro rfl
    exact hy he
  | userStore virt b => exact ends_bind (orPanic_ends _) fun m h => userModeStore_effect hk he.2 h

end PcoOs.Kernel
