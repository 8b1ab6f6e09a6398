/-
  Scheduling over whole runs. `ready_queue_sound`: the ready queue holds what it should in every
  reachable state. A decision of `scheduler_pick_next_task` takes the first contender
  that is not idle (`schedulerPickNextTask_eq`), so a queued task moves up with every decision that
  does not take it. `PickRun` counts the decisions of a run, and `round_robin`: a task at position
  `i` of the ready queue becomes current with the decision number `i + 1` at the latest.
-/
import PcoOs.Kernel.Progress

namespace PcoOs.Kernel

open PcoOs.Lib PcoOs.Pmm PcoOs.Support PcoOs.Vmm PcoOs.Elf PcoOs.Image PcoOs.Sched PcoOs.Vfs
  PcoOs.Syscall

/-! ## The ready queue -/

theorem ready_queue_sound (M : Machine) (k : KernelState) (h : Reachable M k) : ReadyQueue k :=
  h.kernelOk.readyQueue

theorem ready_queue_sound_small : ∃ k, Reachable smallMachine k ∧ IsUser (k.task k.current) ∧
    ReadyQueue k := by
  obtain ⟨k, hr, hu⟩ := smallMachine_runs
  exact ⟨k, hr, hu.user, ready_queue_sound smallMachine k hr⟩

/-! ## Counting decisions -/

/-- The calls of `scheduler_pick_next_task` in a round of a wait. -/
def waitPicks (k : KernelState) (wait : Kont) : Nat := if (waitTarget k wait).isNone then 1 else 0

/-- The calls of `scheduler_pick_next_task` a step makes. -/
def pickCalls (k : KernelState) : Act → Nat
  | .yield _ => 1
  | .exit _ _ => 1
  | .timerIrq now regs =>
    if (schedulerAccountTick k.sched now).1 = 0 ∨ ((pushRegs regs).getD 16 0).toNat % 4 ≠ 3 ∨
      (k.task k.current).mode ≠ .user ∨ schedulerRunnableCount k.sched ≤ 1 then 0 else 1
  | .timerInterrupt allowPreempt now _ =>
    if (schedulerAccountTick k.sched now).1 = 0 ∨ allowPreempt = false ∨
      schedulerRunnableCount k.sched ≤ 1 then 0 else 1
  | .waitpid taskId _ =>
    if taskId < -1 ∨ taskId ≥ k.sched.taskCount ∨ taskId = k.current.val then 0
    else if taskId = -1 then
      if (schedulerFindChild k.sched k.current false).isNone then 0 else waitPicks k .waitAny
    else if h : taskId.toNat < 8 then
      if (k.task ⟨taskId.toNat, h⟩).state = .empty ∨
        (k.task ⟨taskId.toNat, h⟩).parentPid ≠ k.current then 0
      else waitPicks k (.waitFor ⟨taskId.toNat, h⟩ (k.ghost.serial ⟨taskId.toNat, h⟩))
    else 0
  | .resume _ =>
    match k.kont k.current with
    | .run | .dead => 0
    | wait => waitPicks k wait
  | _ => 0

/-- What a step does to queue and current task: nothing but append, or one decision. -/
inductive QueueStep (s s' : SchedState) : Nat → Prop
  | keep (new : List TaskId) (hq : s'.queued = s.queued ++ new)
      (hc : s'.currentTask = s.currentTask) : QueueStep s s' 0
  | pick {s₀ : SchedState} (h : QueueReady s₀) (hq : s₀.queued = s.queued)
      (hp : schedulerPickNextTask s₀ = .ok (s'.currentTask, s')) : QueueStep s s' 1

theorem QueueStep.le_one {s s' : SchedState} {n : Nat} (h : QueueStep s s' n) : n ≤ 1 := by
  cases h with
  | keep => exact Nat.zero_le _
  | pick => exact le_refl _

section Step

variable {k k' : KernelState}

theorem QueueStep.same {s s' : SchedState} (hq : s'.queue = s.queue)
    (hc : s'.currentTask = s.currentTask) : QueueStep s s' 0 := by
  refine .keep [] ?_ hc
  unfold SchedState.queued
  rw [hq, List.append_nil]

/-- A switch leaves the table as the decision left it. -/
theorem schedulerSwitchToTask_sched (k : KernelState) (old next : TaskId) (regs : Ctx) :
    (schedulerSwitchToTask k old next regs).sched = k.sched := by
  unfold schedulerSwitchToTask
  split_ifs <;> rfl

theorem schedulerYieldCurrentTask_step {s : SchedState} {kont : TaskId → Kont} {regs : Ctx}
    (hr : QueueReady s) (hq : s.queued = k.sched.queued)
    (he : schedulerYieldCurrentTask { k with sched := s, kont := kont } regs = .ok k') :
    QueueStep k.sched k'.sched 1 := by
  unfold schedulerYieldCurrentTask at he
  obtain ⟨⟨next, s'⟩, hp, he⟩ := bind_eq_ok.mp he
  cases he
  obtain ⟨q, hp', -⟩ := schedulerPickNextTask_eq hr
  cases hp.symm.trans hp'
  rw [schedulerSwitchToTask_sched]
  exact .pick hr hq hp

theorem waitRound_step (hk : KernelOk k) {wait : Kont} {regs : Ctx} {r : Option Int}
    (he : waitRound k wait (waitTarget k wait) regs = .ok (r, k')) :
    QueueStep k.sched k'.sched (waitPicks k wait) := by
  unfold waitRound at he
  unfold waitPicks
  cases ht : waitTarget k wait with
  | some t =>
    rw [ht] at he
    dsimp only at he
    obtain ⟨⟨status, k₁⟩, hreap, he⟩ := bind_eq_ok.mp he
    cases he
    unfold reapTask at hreap
    obtain ⟨phys, -, hreap⟩ := bind_eq_ok.mp hreap
    obtain ⟨vfs, -, hreap⟩ := bind_eq_ok.mp hreap
    cases hreap
    exact .same rfl rfl
  | none =>
    rw [ht] at he
    dsimp only at he
    obtain ⟨k₁, hy, he⟩ := bind_eq_ok.mp he
    cases he
    exact schedulerYieldCurrentTask_step hk.queue.toQueueReady rfl hy

theorem schedulerTimerInterrupt_step (hk : KernelOk k) {allowPreempt : Bool} {now : Int}
    {regs : Ctx} (he : schedulerTimerInterrupt k allowPreempt now regs = .ok k') :
    QueueStep k.sched k'.sched (pickCalls k (.timerInterrupt allowPreempt now regs)) := by
  obtain ⟨t, ht⟩ := schedulerAccountTick_snd k.sched now
  have hready : QueueReady { k.sched with lastTick := t } :=
    hk.queue.toQueueReady.congr (fun _ => rfl) rfl rfl rfl
  unfold schedulerTimerInterrupt at he
  unfold pickCalls
  dsimp only at he ⊢
  rw [ht] at he
  split_ifs at he with h1 h2 h3
  · rw [if_pos (Or.inl h1)]
    cases he
    exact .same rfl rfl
  · rw [if_pos (Or.inr (Or.inl h2))]
    cases he
    exact .same rfl rfl
  · have h3 : schedulerRunnableCount k.sched ≤ 1 := h3
    rw [if_pos (Or.inr (Or.inr h3))]
    cases he
    exact .same rfl rfl
  · have h3 : ¬schedulerRunnableCount k.sched ≤ 1 := h3
    rw [if_neg (by tauto)]
    exact schedulerYieldCurrentTask_step hready rfl he

theorem schedulerTimerIrq_step (hk : KernelOk k) {now : Int} {regs : UserRegs}
    (he : schedulerTimerIrq k now regs = .ok k') :
    QueueStep k.sched k'.sched (pickCalls k (.timerIrq now regs)) := by
  obtain ⟨t, ht⟩ := schedulerAccountTick_snd k.sched now
  have hready : QueueReady { k.sched with lastTick := t } :=
    hk.queue.toQueueReady.congr (fun _ => rfl) rfl rfl rfl
  unfold schedulerTimerIrq at he
  unfold pickCalls
  dsimp only at he ⊢
  rw [ht] at he
  split_ifs at he with h1 h2 h3 h4
  · rw [if_pos (Or.inl h1)]
    cases he
    exact .same rfl rfl
  · rw [if_pos (Or.inr (Or.inl h2))]
    cases he
    exact .same rfl rfl
  · have h3 : (k.task k.current).mode ≠ .user := h3
    rw [if_pos (Or.inr (Or.inr (Or.inl h3)))]
    cases he
    exact .same rfl rfl
  · have h4 : schedulerRunnableCount k.sched ≤ 1 := h4
    rw [if_pos (Or.inr (Or.inr (Or.inr h4)))]
    cases he
    exact .same rfl rfl
  · have h3 : ¬(k.task k.current).mode ≠ .user := h3
    have h4 : ¬schedulerRunnableCount k.sched ≤ 1 := h4
    rw [if_neg (by tauto)]
    obtain ⟨⟨next, s'⟩, hp, he⟩ := bind_eq_ok.mp he
    obtain ⟨q, hp', -⟩ := schedulerPickNextTask_eq hready
    cases hp.symm.trans hp'
    dsimp only at he
    split_ifs at he with hn
    · cases he
      exact .pick hready rfl hp
    · obtain ⟨m, -, he⟩ := bind_eq_ok.mp he
      cases he
      exact .pick hready rfl hp

theorem schedulerExitCurrentTask_step (hk : KernelOk k) {exitCode : Int} {regs : Ctx}
    (he : schedulerExitCurrentTask k exitCode regs = .ok k') : QueueStep k.sched k'.sched 1 := by
  unfold schedulerExitCurrentTask at he
  dsimp only at he
  rw [hk.queue.idle] at he
  split_ifs at he with hc
  have hready := hk.queue.exit hc exitCode
  obtain ⟨⟨next, s'⟩, hp, he⟩ := bind_eq_ok.mp he
  obtain ⟨q, hp', -⟩ := schedulerPickNextTask_eq hready
  cases hp.symm.trans hp'
  dsimp only at he
  split_ifs at he with hn
  cases he
  rw [schedulerSwitchToTask_sched]
  exact .pick hready rfl hp

theorem schedulerWaitpid_step (hk : KernelOk k) {taskId : Int} {regs : Ctx} {r : Option Int}
    (he : schedulerWaitpid k taskId regs = .ok (r, k')) :
    QueueStep k.sched k'.sched (pickCalls k (.waitpid taskId regs)) := by
  unfold schedulerWaitpid at he
  unfold pickCalls
  dsimp only at he ⊢
  split_ifs at he with h1 h2 h3 h4 h5 h6 h7
  · rw [if_pos (by tauto)]
    cases he
    exact .same rfl rfl
  · rw [if_pos (by tauto)]
    cases he
    exact .same rfl rfl
  · rw [if_neg (by tauto), if_pos h3, if_pos h4]
    cases he
    exact .same rfl rfl
  · rw [if_neg (by tauto), if_pos h3, if_neg h4]
    exact waitRound_step hk he
  · rw [if_neg (by tauto), if_neg h3, dif_pos h5, if_pos (Or.inl h6)]
    cases he
    exact .same rfl rfl
  · rw [if_neg (by tauto), if_neg h3, dif_pos h5, if_pos (Or.inr h7)]
    cases he
    exact .same rfl rfl
  · rw [if_neg (by tauto), if_neg h3, dif_pos h5, if_neg (by tauto)]
    exact waitRound_step hk he

theorem resumeCurrent_step (hk : KernelOk k) {regs : Ctx} {r : Option Int}
    (he : resumeCurrent k regs = .ok (r, k')) :
    QueueStep k.sched k'.sched (pickCalls k (.resume regs)) := by
  unfold resumeCurrent at he
  unfold pickCalls
  dsimp only
  cases hkont : k.kont k.current with
  | run =>
    rw [hkont] at he
    cases he
    exact .same rfl rfl
  | dead =>
    rw [hkont] at he
    cases he
  | waitAny =>
    rw [hkont] at he
    exact waitRound_step hk he
  | waitFor t serial =>
    rw [hkont] at he
    exact waitRound_step hk he

theorem schedulerCreateUserElfTask_step (hk : KernelOk k) {img : Image} {argv envp : ExecVec}
    {t : TaskId} (he : schedulerCreateUserElfTask k img argv envp = .ok (t, k')) :
    QueueStep k.sched k'.sched 0 := by
  unfold schedulerCreateUserElfTask at he
  obtain ⟨t', -, he⟩ := bind_eq_ok.mp he
  obtain ⟨⟨row, phys, heap⟩, -, he⟩ := bind_eq_ok.mp he
  obtain ⟨⟨fds, vfs⟩, -, he⟩ := bind_eq_ok.mp he
  obtain ⟨s', hp, he⟩ := bind_eq_ok.mp he
  obtain ⟨q, hp', -, hq⟩ := publishTask_eq hk.queue t' { row with fds := fds }
  cases hp.symm.trans hp'
  cases he
  exact .keep [t] hq rfl

theorem schedulerExecCurrentTask_step {img : Image} {argv envp : ExecVec} {r : Int}
    (he : schedulerExecCurrentTask k img argv envp = .ok (r, k')) :
    QueueStep k.sched k'.sched 0 := by
  unfold schedulerExecCurrentTask at he
  dsimp only at he
  split_ifs at he with hm
  · cases he
    exact .same rfl rfl
  obtain ⟨ok, -, he⟩ := bind_eq_ok.mp he
  cases ok with
  | false =>
    cases he
    exact .same rfl rfl
  | true =>
  obtain ⟨⟨im, phys, heap⟩, -, he⟩ := bind_eq_ok.mp he
  obtain ⟨m, -, he⟩ := bind_eq_ok.mp he
  cases he
  exact .same rfl rfl

theorem QueueStep.files (h : FileDone k k') : QueueStep k.sched k'.sched 0 := by
  obtain ⟨vfs, heap, fds, rfl⟩ := h.shape
  exact .same rfl rfl

/-- Every step appends to the queue, or makes one decision. -/
theorem act_queueStep (hk : KernelOk k) {a : Act} (ha : act k a = .ok k') :
    QueueStep k.sched k'.sched (pickCalls k a) := by
  cases a with
  | spawn img argv envp =>
    obtain ⟨⟨t, k₁⟩, he, ha⟩ := bind_eq_ok.mp ha
    cases ha
    exact schedulerCreateUserElfTask_step hk he
  | exec img argv envp =>
    obtain ⟨⟨r, k₁⟩, he, ha⟩ := bind_eq_ok.mp ha
    cases ha
    exact schedulerExecCurrentTask_step he
  | brk requested =>
    cases ha
    show QueueStep k.sched (schedulerBrk k.sched k.current requested).2 0
    unfold schedulerBrk
    dsimp only
    split_ifs <;> exact .same rfl rfl
  | yield regs => exact schedulerYieldCurrentTask_step hk.queue.toQueueReady rfl ha
  | timerIrq now regs => exact schedulerTimerIrq_step hk ha
  | timerInterrupt allowPreempt now regs => exact schedulerTimerInterrupt_step hk ha
  | exit exitCode regs => exact schedulerExitCurrentTask_step hk ha
  | waitpid taskId regs =>
    obtain ⟨⟨r, k₁⟩, he, ha⟩ := bind_eq_ok.mp ha
    cases ha
    exact schedulerWaitpid_step hk he
  | resume regs =>
    obtain ⟨⟨r, k₁⟩, he, ha⟩ := bind_eq_ok.mp ha
    cases ha
    exact resumeCurrent_step hk he
  | loadImage path =>
    obtain ⟨⟨img, vfs, heap⟩, -, ha⟩ := bind_eq_ok.mp ha
    cases ha
    exact .same rfl rfl
  | kernelCall c =>
    obtain ⟨⟨r, bytes, k₁⟩, he, ha⟩ := bind_eq_ok.mp ha
    cases ha
    exact .files (fileCall_done hk.heap ((orPanic_ends _).of_ok he))
  | userCall c =>
    obtain ⟨⟨r, k₁⟩, he, ha⟩ := bind_eq_ok.mp ha
    cases ha
    have he' := (orPanic_ends _).of_ok he
    unfold Syscall.userCall at he'
    obtain ⟨⟨r₁, bytes, k₂⟩, hb, he'⟩ := bind_eq_ok.mp he'
    obtain ⟨m, -, he'⟩ := bind_eq_ok.mp he'
    cases he'
    have hfiles : QueueStep k.sched k₂.sched 0 := .files (userCallBytes_spec hk.heap hb).1
    exact hfiles
  | alloc size =>
    obtain ⟨⟨p, heap⟩, -, ha⟩ := bind_eq_ok.mp ha
    cases ha
    exact .same rfl rfl
  | kernelStore x b =>
    cases ha
    exact .same rfl rfl
  | userStore virt b =>
    obtain ⟨m, -, ha⟩ := bind_eq_ok.mp ha
    cases ha
    exact .same rfl rfl

end Step

/-! ## Moving up -/

theorem lineup_eq_drop (s : SchedState) :
    ∃ m, s.lineup = s.contenders.drop m ∧ ∀ t ∈ s.contenders.take m, t = s.idleTask := by
  obtain ⟨pre, hpre⟩ : ∃ pre, pre = s.contenders.takeWhile (· = s.idleTask) := ⟨_, rfl⟩
  have hsplit : pre ++ s.lineup = s.contenders := by
    rw [hpre]
    exact List.takeWhile_append_dropWhile
  refine ⟨pre.length, ?_, fun t ht => ?_⟩
  · rw [← hsplit, List.drop_left]
  · rw [← hsplit, List.take_left, hpre] at ht
    simpa using List.mem_takeWhile_imp ht

/-- A decision takes the queued task or moves it up. -/
theorem QueueStep.moves_up {s s' : SchedState} {n i : Nat} {t : TaskId} (h : QueueStep s s' n)
    (h0 : t ≠ 0) (hi : s.queued[i]? = some t) :
    s'.currentTask = t ∨ ∃ j, j + n ≤ i ∧ s'.queued[j]? = some t := by
  cases h with
  | keep new hq hc =>
    refine Or.inr ⟨i, le_refl _, ?_⟩
    rw [hq, List.getElem?_append_left (List.getElem?_eq_some_iff.mp hi).1]
    exact hi
  | @pick s₀ hr hq hp =>
    obtain ⟨q, he, -, hitems⟩ := schedulerPickNextTask_eq hr
    obtain ⟨m, hdrop, hidle⟩ := lineup_eq_drop s₀
    have hcon : s₀.contenders[i]? = some t := by
      rw [← hq] at hi
      unfold SchedState.contenders
      split_ifs
      · rw [List.getElem?_append_left (List.getElem?_eq_some_iff.mp hi).1]
        exact hi
      · exact hi
    have hm : m ≤ i := by
      by_contra hlt
      refine h0 ((hidle t ?_).trans hr.idle)
      exact List.mem_of_getElem? (i := i) (by rw [List.getElem?_take_of_lt (by omega)]; exact hcon)
    have hline : s₀.lineup[i - m]? = some t := by
      rw [hdrop, List.getElem?_drop, Nat.add_sub_cancel' hm]
      exact hcon
    obtain ⟨hcur, hs⟩ := Prod.mk.inj (Except.ok.inj (hp.symm.trans he))
    have hq' : s'.queued = s₀.lineup.tail := by
      rw [hs]
      exact hitems
    rw [hcur, hq']
    cases hl : s₀.lineup with
    | nil =>
      rw [hl] at hline
      cases hline
    | cons next rest =>
      rw [hl] at hline
      cases hj : i - m with
      | zero =>
        rw [hj] at hline
        exact Or.inl (Option.some.inj hline)
      | succ j =>
        rw [hj] at hline
        exact Or.inr ⟨j, by omega, hline⟩

/-- A run and the number of decisions in it. -/
inductive PickRun : KernelState → Nat → KernelState → Prop
  | refl (k : KernelState) : PickRun k 0 k
  | step {k k₁ k' : KernelState} {a : Act} {n : Nat} (he : Enabled k a) (ha : act k a = .ok k₁)
      (h : PickRun k₁ n k') : PickRun k (pickCalls k a + n) k'

/-- A queued task becomes current with one decision more than tasks stand before it, at the
    latest. The induction lowers its position by the decisions of the first step. -/
theorem PickRun.becomes_current {k k' : KernelState} {n i : Nat} {t : TaskId} (h : PickRun k n k')
    (hk : KernelOk k) (h0 : t ≠ 0) (hi : k.sched.queued[i]? = some t) (hn : i < n) :
    ∃ m k₁, m ≤ i + 1 ∧ m ≤ n ∧ PickRun k m k₁ ∧ k₁.current = t ∧ PickRun k₁ (n - m) k' := by
  induction h generalizing i with
  | refl k => omega
  | @step k k₁ k' a n he ha hrun ih =>
    have hk₁ := ((act_effect hk he).of_ok ha).kernelOk hk
    have hstep := act_queueStep hk ha
    have hle := hstep.le_one
    rcases hstep.moves_up h0 hi with hc | ⟨j, hj, hq⟩
    · refine ⟨pickCalls k a + 0, k₁, by omega, by omega, .step he ha (.refl k₁), hc, ?_⟩
      rw [Nat.add_zero, Nat.add_sub_cancel_left]
      exact hrun
    · obtain ⟨m, k₂, hm, hmn, hrun₁, hc, hrun₂⟩ := ih hk₁ hq (by omega)
      refine ⟨pickCalls k a + m, k₂, by omega, by omega, .step he ha hrun₁, hc, ?_⟩
      rw [Nat.add_sub_add_left]
      exact hrun₂

/-! ## Decisions -/

/-- The states `scheduler_pick_next_task` is called in: at a wait or a yield, after the accounting
    of a tick, and after the current task was marked exited. -/
inductive Deciding (k : KernelState) : SchedState → Prop
  | running (now : Int) : Deciding k { k.sched with lastTick := now }
  | exited (exitCode : Int) (hc : k.current ≠ k.sched.idleTask) :
      Deciding k (exitCurrent k.sched exitCode)

theorem Deciding.ready {k : KernelState} (hk : KernelOk k) {s : SchedState} (h : Deciding k s) :
    QueueReady s := by
  cases h with
  | running now => exact hk.queue.toQueueReady.congr (fun _ => rfl) rfl rfl rfl
  | exited exitCode hc => exact hk.queue.exit (hk.queue.idle ▸ hc) exitCode

/-- The task may be picked ahead of the idle task. -/
def Eligible (s : SchedState) (t : TaskId) : Prop :=
  t ≠ s.idleTask ∧ (s.task t).state = .runnable

instance (s : SchedState) : DecidablePred (Eligible s) := fun t =>
  inferInstanceAs (Decidable (t ≠ s.idleTask ∧ (s.task t).state = .runnable))

theorem find_eligible {s : SchedState} (h : QueueReady s) :
    s.contenders.find? (Eligible s) = s.lineup.head? := by
  unfold SchedState.lineup
  rw [← List.find?_not_eq_head?_dropWhile]
  refine List.find?_congr fun t ht => ?_
  simp [Eligible, h.contenders_runnable ht]

/-- Idle is picked when nobody else can run, else the first contender other than idle. -/
theorem schedulerPickNextTask_eligible {s : SchedState} (h : QueueReady s) :
    ∃ next s', schedulerPickNextTask s = .ok (next, s') ∧ s'.currentTask = next ∧
      (next = s.idleTask → ∀ t, ¬ Eligible s t) ∧
      (next ≠ s.idleTask → s.contenders.find? (Eligible s) = some next) := by
  obtain ⟨q, he, -⟩ := schedulerPickNextTask_eq h
  refine ⟨_, _, he, rfl, ?_⟩
  rw [find_eligible h]
  cases hl : s.lineup with
  | nil =>
    refine ⟨fun _ t ht => ?_, fun hn => absurd rfl hn⟩
    have hnone := find_eligible h
    rw [hl, List.head?_nil, List.find?_eq_none] at hnone
    exact hnone t (h.mem_contenders (h.idle ▸ ht.1) ht.2) (decide_eq_true ht)
  | cons next rest =>
    refine ⟨fun hn => absurd hn ?_, fun _ => rfl⟩
    rw [h.idle]
    exact h.head_lineup hl

/-- Round robin that never idles while another task could run. -/
structure RoundRobin (k : KernelState) : Prop where
  picks : ∀ s, Deciding k s → ∃ next s', schedulerPickNextTask s = .ok (next, s') ∧
    s'.currentTask = next ∧ (next = s.idleTask → ∀ t, ¬ Eligible s t) ∧
    (next ≠ s.idleTask → s.contenders.find? (Eligible s) = some next)
  /-- In a run with more than `i` decisions the task at position `i` has its turn. -/
  waits : ∀ i t, k.sched.queued[i]? = some t → t ≠ k.sched.idleTask →
    ∀ n k', PickRun k n k' → i < n →
      ∃ m k₁, m ≤ i + 1 ∧ m ≤ n ∧ PickRun k m k₁ ∧ k₁.current = t ∧ PickRun k₁ (n - m) k'

theorem round_robin (M : Machine) (k : KernelState) (h : Reachable M k) : RoundRobin k := by
  have hk := h.kernelOk
  refine ⟨fun s hs => schedulerPickNextTask_eligible (hs.ready hk), ?_⟩
  intro i t hi h0 n k' hrun hn
  rw [hk.queue.idle] at h0
  exact hrun.becomes_current hk h0 hi hn

theorem round_robin_small : ∃ k, Reachable smallMachine k ∧ IsUser (k.task k.current) ∧
    RoundRobin k := by
  obtain ⟨k, hr, hu⟩ := smallMachine_runs
  exact ⟨k, hr, hu.user, round_robin smallMachine k hr⟩

/-- After boot idle stands first in the queue and is runnable, and is passed over. -/
theorem idle_entry_passed_over :
    ¬ ∀ M k, Reachable M k → ∀ s, Deciding k s → ∀ next s',
      schedulerPickNextTask s = .ok (next, s') → next ≠ s.idleTask →
        s.contenders.find? (fun t => (s.task t).state = .runnable) = some next := by
  intro hall
  obtain ⟨k, hboot, hb⟩ := boot_ok smallMachine_boots
  have hq := hb.queue
  obtain ⟨hcur, hqueued⟩ := hb.start rfl
  change k.sched.currentTask = 1 at hcur
  have hcon : k.sched.contenders = [0, 1] := by
    unfold SchedState.contenders
    rw [if_pos ⟨by rw [hcur, hq.idle]; decide, hq.current_runnable⟩, hqueued, hcur]
    rfl
  obtain ⟨q, hp⟩ : ∃ q, schedulerPickNextTask k.sched =
      .ok (1, { k.sched with queue := q, currentTask := 1 }) := by
    obtain ⟨q, he, -⟩ := schedulerPickNextTask_eq hq.toQueueReady
    have hline : k.sched.lineup = [1] := by
      unfold SchedState.lineup
      rw [hcon, hq.idle]
      decide
    rw [hline] at he
    exact ⟨q, he⟩
  have hfirst := hall smallMachine k (.boot hboot) _ (.running k.sched.lastTick) 1 _ hp
    (by rw [hq.idle]; decide)
  change k.sched.contenders.find? (fun t => (k.sched.task t).state = .runnable) = _ at hfirst
  simp [hcon, hq.idle_runnable] at hfirst

end PcoOs.Kernel
