/-
  The ready queue over whole runs. `Effect.kernelOk` carries `KernelOk` through every effect and
  `boot_kernelOk` establishes it, so every reachable state has the queue invariant and no enabled
  step ends in one of the two panics the invariant excludes (`KernelOk.readyQueue`).
-/
import PcoOs.Kernel.Boot
import PcoOs.Kernel.Effect

namespace PcoOs.Kernel

open PcoOs.Lib PcoOs.Pmm PcoOs.Support PcoOs.Vmm PcoOs.Elf PcoOs.Image PcoOs.Sched PcoOs.Vfs
  PcoOs.Syscall

/-! ## Rows after a step -/

/-- A row changes to one that agrees with it on what `KernelOk` reads. -/
structure SameRow (row row' : Task) : Prop where
  state : row'.state = row.state
  mode : row'.mode = row.mode
  base : row'.userBase = row.userBase

theorem SameRow.refl (row : Task) : SameRow row row := ⟨rfl, rfl, rfl⟩

theorem SameRow.setTask {s : SchedState} {t : TaskId} {row : Task} (h : SameRow (s.task t) row)
    (u : TaskId) : SameRow (s.task u) ((s.setTask t row).task u) := by
  rw [setTask_task]
  split_ifs with hu
  · rw [hu]
    exact h
  · exact SameRow.refl _

theorem WaitOk.alive {k : KernelState} (hk : KernelOk k) {wait : Kont} (h : WaitOk k wait) :
    wait ≠ .dead := by
  cases h with
  | same => exact hk.alive _ hk.queue.current_runnable
  | any => exact fun hc => by cases hc
  | target => exact fun hc => by cases hc

/-- The rows after a task was reaped. -/
theorem releaseRow_task (s : SchedState) (t u : TaskId) :
    (releaseRow s t).task u = if u = t then clearTask else s.task u :=
  publishTask_task (q := s.queue) u

theorem waitTarget_exited {k : KernelState} {wait : Kont} {t : TaskId}
    (h : waitTarget k wait = some t) : (k.task t).state = .exited := by
  unfold waitTarget at h
  cases wait with
  | run => cases h
  | dead => cases h
  | waitAny => exact (schedulerFindChild_some h).2.2 rfl
  | waitFor u serial =>
    dsimp only at h
    split_ifs at h with hx
    cases h
    exact hx

section Step

variable {k k' : KernelState} {a : Act}

theorem KernelOk.current_present (hk : KernelOk k) : (k.task k.current).state ≠ .empty := by
  have hr : (k.task k.current).state = .runnable := hk.queue.current_runnable
  rw [hr]
  decide

/-- A step that keeps the queue, the rows and the waits. -/
theorem KernelOk.same (hk : KernelOk k) (hq : k'.sched.queue = k.sched.queue)
    (hi : k'.sched.idleTask = k.sched.idleTask) (hc : k'.sched.currentTask = k.sched.currentTask)
    (hn : k'.sched.taskCount = k.sched.taskCount)
    (hrow : ∀ t, SameRow (k.sched.task t) (k'.sched.task t)) (hkont : k'.kont = k.kont)
    (hh : HeapOk k'.heap) : KernelOk k' where
  queue := hk.queue.congr (fun t => (hrow t).state) hq hi hc
  table := hk.table.congr (fun t => (hrow t).state) hn
  alive := fun t ht => by
    rw [hkont]
    exact hk.alive t ((hrow t).state.symm.trans ht)
  heap := hh
  base := fun t ht => (hrow t).base.trans (hk.base t ((hrow t).mode.symm.trans ht))

/-- Setting the wait of a task leaves everybody alive. -/
theorem KernelOk.alive_update (hk : KernelOk k) (u : TaskId) {wait : Kont} (hw : wait ≠ .dead)
    (t : TaskId) (ht : (k.task t).state = .runnable) : Function.update k.kont u wait t ≠ .dead := by
  by_cases hc : t = u
  · rw [hc, Function.update_self]
    exact hw
  · rw [Function.update_of_ne hc]
    exact hk.alive t ht

theorem Effect.kernelOk (hk : KernelOk k) (h : Effect k a k') : KernelOk k' := by
  cases h with
  | tick now =>
    exact hk.same rfl rfl rfl rfl (fun t => SameRow.refl _) rfl hk.heap
  | brk b hm hlo hhi =>
    exact hk.same rfl rfl rfl rfl (SameRow.setTask ⟨rfl, rfl, rfl⟩) rfl hk.heap
  | files h hm =>
    obtain ⟨vfs, heap, fds, rfl⟩ := h.shape
    exact hk.same rfl rfl rfl rfl (SameRow.setTask ⟨rfl, rfl, rfl⟩) rfl h.heap.1
  | stack h =>
    exact hk.same rfl rfl rfl rfl (fun t => SameRow.refl _) rfl (hk.heap.withMem _)
  | stay now q hw hq =>
    exact ⟨hq, hk.table.congr (fun _ => rfl) rfl, hk.alive_update _ (hw.alive hk), hk.heap, hk.base⟩
  | leave now hne q hw hq hs =>
    exact ⟨hq, hk.table.congr (fun _ => rfl) rfl, hk.alive_update _ (hw.alive hk),
      hk.heap.withMem _, hk.base⟩
  | @spawn img argv envp t row phys heap vfs fds q ht hb hh hq =>
    have hnew := buildUserTask_blocks hk.heap hb
    have hstate : ({ row with fds := fds } : Task).state = .runnable := hnew.state
    refine ⟨hk.queue.publish ht hstate hh hq,
      hk.table.publish, fun u hu => ?_, hnew.heap.ok, fun u hu => ?_⟩
    · change Function.update k.kont t .run u ≠ .dead
      by_cases hut : u = t
      · rw [hut, Function.update_self]
        exact fun hc => by cases hc
      · unfold KernelState.task at hu
        rw [publishTask_task, if_neg hut] at hu
        exact hk.alive_update t (fun hc => by cases hc) u hu
    · unfold KernelState.task at hu ⊢
      rw [publishTask_task] at hu ⊢
      split_ifs at hu ⊢
      · exact hnew.base
      · exact hk.base u hu
  | @exec img argv envp im phys heap m hm hv hr hc =>
    exact hk.same rfl rfl rfl rfl (SameRow.setTask ⟨rfl, rfl, rfl⟩) rfl
      ((replaceUserImage_moves hk.heap hv hr).1.withMem m)
  | @exit exitCode regs ha hc next hne q hq m hs =>
    refine ⟨hq, (hk.table.exit hk.current_present exitCode).congr (fun _ => rfl) rfl, fun u hu => ?_,
      hk.heap.withMem _, fun u hu => ?_⟩
    · have hu' : ((exitCurrent k.sched exitCode).task u).state = .runnable := hu
      rw [exitCurrent_task] at hu'
      split_ifs at hu' with huc
      have hun : u ≠ k.current := huc
      change Function.update k.kont k.current .dead u ≠ .dead
      rw [Function.update_of_ne hun]
      exact hk.alive u hu'
    · have hm : ((exitCurrent k.sched exitCode).task u).mode = .user := hu
      show ((exitCurrent k.sched exitCode).task u).userBase = userTaskRegionBase
      rw [exitCurrent_row] at hm ⊢
      exact hk.base u hm
  | @reap wait t hw ht phys vfs hd hf =>
    refine ⟨hk.queue.release (waitTarget_exited ht), hk.table.release t, fun u hu => ?_, hk.heap,
      fun u hu => ?_⟩
    · have hu' : ((releaseRow k.sched t).task u).state = .runnable := hu
      rw [releaseRow_task] at hu'
      split_ifs at hu' with hut
      · cases hu'
      · exact hk.alive_update _ (fun hc => by cases hc) u hu'
    · have hm : ((releaseRow k.sched t).task u).mode = .user := hu
      show ((releaseRow k.sched t).task u).userBase = userTaskRegionBase
      rw [releaseRow_task] at hm ⊢
      split_ifs at hm ⊢ with hut
      · cases hm
      · exact hk.base u hm

end Step

/-! ## Runs -/

theorem bootstrapSched_task {now : Int} {row0 row1 : Task} {P : Task → Prop} (h0 : P row0)
    (h1 : P row1) (hc : P clearTask) (t : TaskId) : P ((bootstrapSched now row0 row1).task t) := by
  unfold bootstrapSched
  dsimp only
  split_ifs
  · exact h0
  · exact h1
  · exact hc

theorem Booted.kernelOk {M : Machine} {k : KernelState} (h : Booted M k) : KernelOk k := by
  obtain ⟨row0, row1, hrows, htask⟩ := h.rows
  obtain ⟨c0, s0, f0, h0⟩ := hrows.row0
  obtain ⟨c1, s1, f1, h1⟩ := hrows.row1
  refine ⟨h.queue, ⟨by rw [h.count]; decide, fun t ht => ?_⟩, fun t _ => ?_, hrows.extended.ok,
    fun t => ?_⟩
  · rw [h.count] at ht
    have hne0 : t ≠ 0 := by
      rintro rfl
      exact absurd ht (by decide)
    have hne1 : t ≠ 1 := by
      rintro rfl
      exact absurd ht (by decide)
    rw [htask]
    unfold bootstrapSched
    dsimp only
    rw [if_neg hne0, if_neg hne1]
    rfl
  · rw [h.kont]
    exact fun hc => by cases hc
  · unfold KernelState.task
    rw [htask]
    refine bootstrapSched_task (P := fun row => row.mode = .user → _) ?_ ?_ ?_ t
    · rw [h0]
      exact fun hc => by cases hc
    · rw [h1]
      exact fun hc => by cases hc
    · exact fun hc => by cases hc

theorem ReachableBy.kernelOk {M : Machine} {P : KernelState → Act → Prop} {k : KernelState}
    (h : ReachableBy M P k) : KernelOk k :=
  h.invariant (fun _ hb => ((boot_spec M).of_ok hb).kernelOk) fun _ _ _ hk _ he ha =>
    ((act_effect hk he).of_ok ha).kernelOk hk

/-- What boot establishes and every effect keeps holds in every reachable state. -/
theorem ReachableBy.effects {M : Machine} {P : KernelState → Act → Prop} {I : KernelState → Prop}
    (hboot : ∀ k, Booted M k → I k)
    (hstep : ∀ k a k', KernelOk k → P k a → Effect k a k' → I k → I k') {k : KernelState}
    (h : ReachableBy M P k) : I k := by
  refine (h.invariant (I := fun k => KernelOk k ∧ I k) (fun k hb => ?_) ?_).2
  · have hbooted := (boot_spec M).of_ok hb
    exact ⟨hbooted.kernelOk, hboot k hbooted⟩
  · rintro k a k' ⟨hk, hi⟩ hp he ha
    have heff := (act_effect hk he).of_ok ha
    exact ⟨heff.kernelOk hk, hstep k a k' hk hp heff hi⟩

/-- The slot of a queued task keeps its task through every step. -/
theorem Effect.queued_stable {k k' : KernelState} {a : Act} (hk : KernelOk k)
    (h : Effect k a k') {t : TaskId} (ht : t ∈ k.sched.queued) :
    (k'.task t).state = .runnable ∧ k'.ghost.serial t = k.ghost.serial t := by
  have hrun : (k.sched.task t).state = .runnable := hk.queue.runnable t ht
  cases h with
  | tick now => exact ⟨hrun, rfl⟩
  | brk b hm hlo hhi =>
    refine ⟨Eq.trans ?_ hrun, rfl⟩
    exact setTask_state (by rfl) t
  | files h hm =>
    obtain ⟨vfs, heap, fds, rfl⟩ := h.shape
    refine ⟨Eq.trans ?_ hrun, rfl⟩
    exact setTask_state (by rfl) t
  | stack h => exact ⟨hrun, rfl⟩
  | stay now q hw hq => exact ⟨hrun, rfl⟩
  | leave now hne q hw hq hs => exact ⟨hrun, rfl⟩
  | @spawn img argv envp u row phys heap vfs fds q hu hb hh hq =>
    have hne : t ≠ u := by
      rintro rfl
      exact absurd (hrun.symm.trans hu) (by decide)
    refine ⟨?_, Function.update_of_ne hne _ _⟩
    unfold KernelState.task
    rw [publishTask_task, if_neg hne]
    exact hrun
  | exec hm hv hr hc =>
    refine ⟨Eq.trans ?_ hrun, rfl⟩
    exact setTask_state (by rfl) t
  | @exit exitCode regs ha hc next hne q hq m hs =>
    refine ⟨?_, rfl⟩
    show ((exitCurrent k.sched exitCode).task t).state = .runnable
    rw [exitCurrent_task, if_neg]
    · exact hrun
    · rintro rfl
      exact hk.queue.current hc ht
  | @reap wait u hw hu phys vfs hd hf =>
    refine ⟨?_, rfl⟩
    show ((releaseRow k.sched u).task t).state = .runnable
    rw [releaseRow_task, if_neg]
    · exact hrun
    · rintro rfl
      exact absurd (hrun.symm.trans (waitTarget_exited hu)) (by decide)

/-- The ready queue at the boundary of an operation. -/
structure ReadyQueue (k : KernelState) : Prop where
  /-- A runnable task is the current one or queued once, never both. -/
  once : ∀ t, t ≠ k.sched.idleTask → (k.task t).state = .runnable →
    (t = k.current ∧ t ∉ k.sched.queued) ∨ (t ≠ k.current ∧ k.sched.queued.count t = 1)
  live : ∀ t ∈ k.sched.queued, (k.task t).state ≠ .exited ∧ (k.task t).state ≠ .empty
  idle : k.sched.queued.count k.sched.idleTask ≤ 1
  /-- No operation ends in one of the two panics. -/
  panics : ∀ a p, Enabled k a → act k a = .error p → p ≠ .readyQueueFull ∧ p ≠ .exitedTaskResumed
  /-- While an id is queued its slot is neither freed nor given to another task. -/
  stable : ∀ a k', Enabled k a → act k a = .ok k' → ∀ t ∈ k.sched.queued,
    (k'.task t).state ≠ .empty ∧ k'.ghost.serial t = k.ghost.serial t

theorem KernelOk.readyQueue {k : KernelState} (hk : KernelOk k) : ReadyQueue k := by
  have hq := hk.queue
  refine ⟨fun t hidle ht => ?_, fun t ht => ?_, List.nodup_iff_count_le_one.mp hq.nodup _,
    fun a p he ha => ?_, fun a k' he ha t ht => ?_⟩
  · rw [hq.idle] at hidle
    by_cases hc : t = k.current
    · subst hc
      exact Or.inl ⟨rfl, hq.current hidle⟩
    · refine Or.inr ⟨hc, List.count_eq_one_of_mem hq.nodup ?_⟩
      exact (hq.complete t hidle ht).resolve_left hc
  · have hr : (k.task t).state = .runnable := hq.runnable t ht
    rw [hr]
    decide
  · obtain ⟨text, rfl⟩ := (act_effect hk he).of_error ha
    constructor
    · exact fun hc => by cases hc
    · exact fun hc => by cases hc
  · obtain ⟨hr, hs⟩ := ((act_effect hk he).of_ok ha).queued_stable hk ht
    rw [hr]
    exact ⟨by decide, hs⟩

end PcoOs.Kernel
