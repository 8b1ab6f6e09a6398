/-
  The operations on the task table against the queue invariant: rows at and beyond `task_count`
  are empty (`TableInv`), a published task is queued once, an exiting task leaves the runnable
  tasks, and freeing the row of an exited task touches no queued id.
-/
import PcoOs.Sched.Queue

namespace PcoOs.Sched

open PcoOs.Lib

structure TableInv (s : SchedState) : Prop where
  count_le : s.taskCount ≤ 8
  beyond : ∀ t : TaskId, s.taskCount ≤ t.val → (s.task t).state = .empty

theorem mem_ids {s : SchedState} {t : TaskId} : t ∈ s.ids ↔ t.val < s.taskCount := by
  unfold SchedState.ids
  simp

theorem TableInv.mem_ids {s : SchedState} (h : TableInv s) {t : TaskId}
    (ht : (s.task t).state ≠ .empty) : t ∈ s.ids := by
  rw [Sched.mem_ids]
  by_contra hlt
  exact ht (h.beyond t (by omega))

theorem TableInv.congr {s s' : SchedState} (h : TableInv s)
    (ht : ∀ t, (s'.task t).state = (s.task t).state) (hc : s'.taskCount = s.taskCount) :
    TableInv s' :=
  ⟨hc ▸ h.count_le, fun t hle => (ht t).trans (h.beyond t (hc ▸ hle))⟩

theorem setTask_task (s : SchedState) (t u : TaskId) (row : Task) :
    (s.setTask t row).task u = if u = t then row else s.task u :=
  Function.update_apply ..

theorem setTask_state {s : SchedState} {t : TaskId} {row : Task}
    (h : row.state = (s.task t).state) (u : TaskId) :
    ((s.setTask t row).task u).state = (s.task u).state := by
  rw [setTask_task]
  split_ifs with hu
  · rw [hu, h]
  · rfl

theorem schedulerFindFreeTaskId_spec {s : SchedState} (h : TableInv s) :
    Ends (schedulerFindFreeTaskId s) (fun t => (s.task t).state = .empty)
      (fun p => p = .message "scheduler task table full" ∧ ∀ t, (s.task t).state ≠ .empty) := by
  unfold schedulerFindFreeTaskId
  cases hf : s.ids.find? fun t => (s.task t).state = .empty with
  | some t =>
    have := List.find?_some hf
    rw [decide_eq_true_eq] at this
    exact this
  | none =>
    dsimp only
    split_ifs with hlt
    · exact h.beyond _ (le_refl _)
    · refine ⟨rfl, fun t he => ?_⟩
      have hcount := h.count_le
      have hmem : t ∈ s.ids := mem_ids.mpr (by omega)
      exact List.find?_eq_none.mp hf t hmem (decide_eq_true he)

theorem schedulerFindChild_some {s : SchedState} {parent : TaskId} {requireExited : Bool}
    {t : TaskId} (h : schedulerFindChild s parent requireExited = some t) :
    (s.task t).state ≠ .empty ∧ (s.task t).parentPid = parent ∧
      (requireExited = true → (s.task t).state = .exited) := by
  unfold schedulerFindChild at h
  have hp := List.find?_some h
  rw [decide_eq_true_eq] at hp
  obtain ⟨h1, h2, h3⟩ := hp
  refine ⟨h1, h2, fun hr => ?_⟩
  rcases h3 with h3 | h3
  · rw [hr] at h3
    cases h3
  · exact h3

/-! ## Publishing a task -/

theorem publishTask_task {s : SchedState} {t : TaskId} {row : Task} {q : RingBuffer TaskId}
    {n : Nat} (u : TaskId) :
    (({ s.setTask t row with taskCount := n, queue := q } : SchedState).task u) =
      if u = t then row else s.task u :=
  setTask_task s t u row

/-- A row that was empty becomes a runnable task at the end of the queue. -/
theorem QueueInv.publish {s : SchedState} (h : QueueInv s) {t : TaskId} {row : Task}
    (ht : (s.task t).state = .empty) (hrow : row.state = .runnable) {q : RingBuffer TaskId}
    {n : Nat} (hq : q.head ≤ q.tail) (hitems : q.items readyQueueCapacity = s.queued ++ [t]) :
    QueueInv { s.setTask t row with taskCount := n, queue := q } := by
  have hcur : s.currentTask ≠ t := by
    intro hc
    have := h.current_runnable
    rw [hc, ht] at this
    cases this
  have h0 : (0 : TaskId) ≠ t := by
    intro hc
    have := h.idle_runnable
    rw [hc, ht] at this
    cases this
  have hnot : t ∉ s.queued := by
    intro hm
    have := h.runnable t hm
    rw [ht] at this
    cases this
  refine ⟨⟨h.idle, ?_, hq, ?_, ?_, ?_, ?_⟩, ?_⟩
  · rw [publishTask_task, if_neg h0]
    exact h.idle_runnable
  · show (q.items readyQueueCapacity).Nodup
    rw [hitems]
    exact List.nodup_append.mpr ⟨h.nodup, List.nodup_singleton _, fun a ha b hb hab =>
      hnot (by rw [← List.mem_singleton.mp hb, ← hab]; exact ha)⟩
  · intro u hu
    change u ∈ q.items readyQueueCapacity at hu
    rw [publishTask_task]
    split_ifs with hut
    · exact hrow
    · rw [hitems] at hu
      rcases List.mem_append.mp hu with hu | hu
      · exact h.runnable u hu
      · exact absurd (List.mem_singleton.mp hu) hut
  · intro hc hm
    change s.currentTask ∈ q.items readyQueueCapacity at hm
    rw [hitems] at hm
    rcases List.mem_append.mp hm with hm | hm
    · exact h.current hc hm
    · exact hcur (List.mem_singleton.mp hm)
  · intro u hu0 hu
    change u = s.currentTask ∨ u ∈ q.items readyQueueCapacity
    rw [hitems]
    rw [publishTask_task] at hu
    split_ifs at hu with hut
    · exact Or.inr (List.mem_append_right _ (List.mem_singleton.mpr hut))
    · rcases h.complete u hu0 hu with hc | hm
      · exact Or.inl hc
      · exact Or.inr (List.mem_append_left _ hm)
  · show (({ s.setTask t row with taskCount := n, queue := q } : SchedState).task
      s.currentTask).state = .runnable
    rw [publishTask_task, if_neg hcur]
    exact h.current_runnable

theorem TableInv.publish {s : SchedState} (h : TableInv s) {t : TaskId} {row : Task}
    {q : RingBuffer TaskId} :
    TableInv { s.setTask t row with taskCount := max s.taskCount (t.val + 1), queue := q } := by
  refine ⟨?_, fun u hu => ?_⟩
  · have := h.count_le
    have := t.isLt
    dsimp only
    omega
  · dsimp only at hu
    rw [publishTask_task, if_neg (by rintro rfl; omega)]
    exact h.beyond u (by omega)

/-! ## Exiting -/

/-- The rows after an exit: children have a new parent, and the exiting row its code. -/
theorem exitCurrent_row (s : SchedState) (exitCode : Int) (t : TaskId) :
    (exitCurrent s exitCode).task t = { s.task t with
      state := if t = s.currentTask then .exited else (s.task t).state
      exitCode := if t = s.currentTask then exitCode else (s.task t).exitCode
      parentPid :=
        if t.val < s.taskCount ∧ (s.task t).state ≠ .empty ∧
            (s.task t).parentPid = s.currentTask then
          schedulerReparentTarget s s.currentTask
        else (s.task t).parentPid } := by
  unfold exitCurrent SchedState.setTask schedulerReparentChildren
  dsimp only
  by_cases ht : t = s.currentTask
  · subst ht
    rw [Function.update_self, if_pos rfl, if_pos rfl]
    split_ifs <;> rfl
  · rw [Function.update_of_ne ht, if_neg ht, if_neg ht]
    split_ifs <;> rfl

/-- Only the exiting row changes its state. -/
theorem exitCurrent_task (s : SchedState) (exitCode : Int) (t : TaskId) :
    ((exitCurrent s exitCode).task t).state =
      if t = s.currentTask then .exited else (s.task t).state := by
  rw [exitCurrent_row]

theorem QueueInv.exit {s : SchedState} (h : QueueInv s) (hc : s.currentTask ≠ 0)
    (exitCode : Int) : QueueReady (exitCurrent s exitCode) := by
  refine ⟨h.idle, ?_, h.head_le, h.nodup, ?_, h.current, ?_⟩
  · rw [exitCurrent_task, if_neg hc.symm]
    exact h.idle_runnable
  · intro t ht
    rw [exitCurrent_task, if_neg]
    · exact h.runnable t ht
    · rintro rfl
      exact h.current hc ht
  · intro t h0 ht
    rw [exitCurrent_task] at ht
    split_ifs at ht with htc
    exact h.complete t h0 ht

theorem TableInv.exit {s : SchedState} (h : TableInv s)
    (hc : (s.task s.currentTask).state ≠ .empty) (exitCode : Int) :
    TableInv (exitCurrent s exitCode) := by
  refine ⟨h.count_le, fun t ht => ?_⟩
  rw [exitCurrent_task, if_neg]
  · exact h.beyond t ht
  · rintro rfl
    exact hc (h.beyond _ ht)

/-! ## Freeing a row -/

theorem QueueInv.release {s : SchedState} (h : QueueInv s) {t : TaskId}
    (ht : (s.task t).state = .exited) {n : Nat} :
    QueueInv { s.setTask t clearTask with taskCount := n } := by
  have hne : ∀ u, (s.task u).state = .runnable → u ≠ t := by
    rintro u hu rfl
    rw [ht] at hu
    cases hu
  have htask : ∀ u, (({ s.setTask t clearTask with taskCount := n } : SchedState).task u) =
      if u = t then clearTask else s.task u := fun u =>
    publishTask_task (q := s.queue) u
  have hkeep : ∀ u, (s.task u).state = .runnable →
      (({ s.setTask t clearTask with taskCount := n } : SchedState).task u).state = .runnable := by
    intro u hu
    rw [htask, if_neg (hne u hu)]
    exact hu
  refine ⟨⟨h.idle, hkeep 0 h.idle_runnable, h.head_le, h.nodup,
    fun u hu => hkeep u (h.runnable u hu), h.current, fun u h0 hu => ?_⟩,
    hkeep _ h.current_runnable⟩
  rw [htask] at hu
  split_ifs at hu
  · cases hu
  · exact h.complete u h0 hu

theorem trimTaskCount_spec (s : SchedState) (n : Nat) :
    trimTaskCount s n ≤ n ∧
      ∀ t : TaskId, trimTaskCount s n ≤ t.val → t.val < n → (s.task t).state = .empty := by
  induction n with
  | zero => exact ⟨le_refl _, fun t _ h => absurd h (Nat.not_lt_zero _)⟩
  | succ n ih =>
    unfold trimTaskCount
    split_ifs with h8 hne
    · exact ⟨le_refl _, fun t h1 h2 => by omega⟩
    · refine ⟨by omega, fun t h1 h2 => ?_⟩
      by_cases htn : t.val = n
      · have : t = ⟨n, h8⟩ := Fin.ext htn
        rw [this]
        exact not_not.mp hne
      · exact ih.2 t h1 (by omega)
    · exact ⟨le_refl _, fun t h1 h2 => by omega⟩

theorem TableInv.release {s : SchedState} (h : TableInv s) (t : TaskId) :
    TableInv { s.setTask t clearTask with
      taskCount := trimTaskCount (s.setTask t clearTask) s.taskCount } := by
  obtain ⟨hle, hempty⟩ := trimTaskCount_spec (s.setTask t clearTask) s.taskCount
  refine ⟨hle.trans h.count_le, fun u hu => ?_⟩
  dsimp only at hu
  by_cases hlt : u.val < s.taskCount
  · exact hempty u hu hlt
  · change ((s.setTask t clearTask).task u).state = .empty
    unfold SchedState.setTask
    dsimp only
    by_cases hut : u = t
    · rw [hut, Function.update_self]
      rfl
    · rw [Function.update_of_ne hut]
      exact h.beyond u (by omega)

end PcoOs.Sched
