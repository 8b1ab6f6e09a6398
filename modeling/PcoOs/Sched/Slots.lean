/-
  The slots of the task table. `task_count` is one more than the highest task (`TableTight`), a new
  task gets the lowest empty slot, and the loops that stop at `task_count` see what a scan of the
  whole table would see (`ScansWhole`).
-/
import PcoOs.Sched.Table

namespace PcoOs.Sched

open PcoOs.Lib

/-- The table ends with its highest task, and a row without a task is zero. -/
structure TableTight (s : SchedState) : Prop where
  last : ∃ t : TaskId, s.taskCount = t.val + 1 ∧ (s.task t).state ≠ .empty
  clear : ∀ t, (s.task t).state = .empty → s.task t = clearTask

section Tight

variable {s s' : SchedState}

theorem TableTight.congr (h : TableTight s) (hc : s'.taskCount = s.taskCount)
    (hs : ∀ t, (s'.task t).state = .empty ↔ (s.task t).state = .empty)
    (ht : ∀ t, (s'.task t).state = .empty → s'.task t = s.task t) : TableTight s' := by
  obtain ⟨t, hcount, hne⟩ := h.last
  refine ⟨⟨t, hc.trans hcount, fun he => hne ((hs t).mp he)⟩, fun u hu => ?_⟩
  rw [ht u hu]
  exact h.clear u ((hs u).mp hu)

/-- A row that keeps its state. -/
theorem TableTight.setTask (h : TableTight s) {t : TaskId} {row : Task}
    (hp : (s.task t).state ≠ .empty) (hrow : row.state = (s.task t).state) :
    TableTight (s.setTask t row) := by
  refine h.congr rfl (fun u => by rw [setTask_state hrow]) fun u hu => ?_
  rw [setTask_state hrow] at hu
  rw [setTask_task, if_neg]
  rintro rfl
  exact hp hu

theorem TableTight.publish (h : TableTight s) {t : TaskId} {row : Task}
    (hrow : row.state = .runnable) {q : RingBuffer TaskId} :
    TableTight { s.setTask t row with taskCount := max s.taskCount (t.val + 1), queue := q } := by
  obtain ⟨u, hcount, hne⟩ := h.last
  have hrun : row.state ≠ .empty := by
    rw [hrow]
    decide
  refine ⟨?_, fun w hw => ?_⟩
  · rcases le_total u.val t.val with hle | hle
    · refine ⟨t, ?_, ?_⟩
      · dsimp only
        omega
      · rwa [publishTask_task, if_pos rfl]
    · refine ⟨u, ?_, ?_⟩
      · dsimp only
        omega
      · rw [publishTask_task]
        split_ifs
        · exact hrun
        · exact hne
  · rw [publishTask_task] at hw ⊢
    split_ifs at hw ⊢
    · exact absurd hw hrun
    · exact h.clear w hw

theorem TableTight.exit (h : TableTight s) (hc : (s.task s.currentTask).state ≠ .empty)
    (exitCode : Int) : TableTight (exitCurrent s exitCode) := by
  have hempty : ∀ t, ((exitCurrent s exitCode).task t).state = .empty ↔
      (s.task t).state = .empty := by
    intro t
    rw [exitCurrent_task]
    split_ifs with ht
    · rw [ht]
      simp [hc]
    · rfl
  refine h.congr rfl hempty fun t ht => ?_
  have hst := (hempty t).mp ht
  have hne : t ≠ s.currentTask := by
    rintro rfl
    exact hc hst
  rw [exitCurrent_row, if_neg hne, if_neg hne, if_neg (fun hx => hx.2.1 hst)]

/-- The scan back over empty rows stops at a task. -/
theorem trimTaskCount_last (s : SchedState) {n : Nat} (hn : n ≤ 8) :
    trimTaskCount s n = 0 ∨
      ∃ t : TaskId, trimTaskCount s n = t.val + 1 ∧ (s.task t).state ≠ .empty := by
  induction n with
  | zero => exact Or.inl rfl
  | succ n ih =>
    unfold trimTaskCount
    split_ifs with h8 hne
    · exact Or.inr ⟨⟨n, h8⟩, rfl, hne⟩
    · exact ih (by omega)
    · omega

theorem TableTight.release (h : TableTight s) (hi : TableInv s) {t u : TaskId}
    (hu : (s.task u).state ≠ .empty) (hut : u ≠ t) :
    TableTight { s.setTask t clearTask with
      taskCount := trimTaskCount (s.setTask t clearTask) s.taskCount } := by
  refine ⟨?_, fun w hw => ?_⟩
  · rcases trimTaskCount_last (s.setTask t clearTask) hi.count_le with h0 | hlast
    · -- the task `u` is still there
      obtain ⟨-, hempty⟩ := trimTaskCount_spec (s.setTask t clearTask) s.taskCount
      have hin := Sched.mem_ids.mp (hi.mem_ids hu)
      have := hempty u (by omega) hin
      rw [setTask_task, if_neg hut] at this
      exact absurd this hu
    · exact hlast
  · change ((s.setTask t clearTask).task w).state = .empty at hw
    show (s.setTask t clearTask).task w = clearTask
    rw [setTask_task] at hw ⊢
    split_ifs at hw ⊢
    · rfl
    · exact h.clear w hw

/-- No task lies above the last one. -/
theorem TableTight.le_last (h : TableTight s) (hi : TableInv s) :
    ∃ t, (s.task t).state ≠ .empty ∧ (∀ u, (s.task u).state ≠ .empty → u ≤ t) ∧
      s.taskCount = t.val + 1 := by
  obtain ⟨t, hcount, hne⟩ := h.last
  refine ⟨t, hne, fun u hu => ?_, hcount⟩
  have hlt := Sched.mem_ids.mp (hi.mem_ids hu)
  rw [Fin.le_def]
  omega

end Tight

/-! ## The slot of a new task -/

theorem ids_sorted (s : SchedState) : s.ids.Pairwise (· < ·) :=
  (List.pairwise_lt_finRange 8).filter _

/-- A new task gets the lowest empty slot. -/
theorem schedulerFindFreeTaskId_least {s : SchedState} (h : TableInv s) {t : TaskId}
    (hf : schedulerFindFreeTaskId s = .ok t) :
    (s.task t).state = .empty ∧ ∀ u, (s.task u).state = .empty → t ≤ u := by
  refine ⟨(schedulerFindFreeTaskId_spec h).of_ok hf, fun u hu => ?_⟩
  unfold schedulerFindFreeTaskId at hf
  cases hscan : s.ids.find? fun t => (s.task t).state = .empty with
  | some v =>
    rw [hscan] at hf
    cases hf
    obtain ⟨-, as, bs, hids, hbefore⟩ := List.find?_eq_some_iff_append.mp hscan
    by_cases hlt : u.val < s.taskCount
    · have hmem : u ∈ as ++ t :: bs := hids ▸ Sched.mem_ids.mpr hlt
      rcases List.mem_append.mp hmem with hu' | hu'
      · have := hbefore u hu'
        simp [hu] at this
      rcases List.mem_cons.mp hu' with rfl | hu'
      · exact le_refl _
      · have hsorted := ids_sorted s
        rw [hids] at hsorted
        exact ((List.pairwise_cons.mp (List.pairwise_append.mp hsorted).2.1).1 u hu').le
    · have hin := Sched.mem_ids.mp (hids ▸ List.mem_append_right as List.mem_cons_self : t ∈ s.ids)
      rw [Fin.le_def]
      omega
  | none =>
    rw [hscan] at hf
    dsimp only at hf
    split_ifs at hf
    cases hf
    rw [Fin.le_def]
    by_contra hlt
    have hmem : u ∈ s.ids := Sched.mem_ids.mpr (not_le.mp hlt)
    exact List.find?_eq_none.mp hscan u hmem (decide_eq_true hu)

/-! ## Loops up to the task count -/

/-- The loops bounded by `task_count` against scans of all eight rows; `waitpid` is the range
    check of `scheduler_waitpid`. -/
structure ScansWhole (s : SchedState) : Prop where
  findChild : ∀ parent requireExited, schedulerFindChild s parent requireExited =
    (List.finRange 8).find? fun t => (s.task t).state ≠ .empty ∧ (s.task t).parentPid = parent ∧
      (requireExited = false ∨ (s.task t).state = .exited)
  reparent : ∀ parent newParent t, (schedulerReparentChildren s parent newParent).task t =
    if (s.task t).state ≠ .empty ∧ (s.task t).parentPid = parent then
      { s.task t with parentPid := newParent }
    else s.task t
  runnable : schedulerRunnableCount s =
    (List.finRange 8).countP fun t => (s.task t).state = .runnable
  waitpid : ∀ t, (s.task t).state ≠ .empty → ¬ ((t.val : Int) < -1 ∨ (t.val : Int) ≥ s.taskCount)

theorem TableInv.scansWhole {s : SchedState} (h : TableInv s) : ScansWhole s := by
  have hlt : ∀ t, (s.task t).state ≠ .empty → t.val < s.taskCount := fun t ht =>
    Sched.mem_ids.mp (h.mem_ids ht)
  refine ⟨fun parent requireExited => ?_, fun parent newParent t => ?_, ?_, fun t ht => ?_⟩
  · unfold schedulerFindChild SchedState.ids
    rw [List.find?_filter]
    congr 1
    funext t
    have := hlt t
    grind
  · have := hlt t
    show (if _ then _ else _) = _
    by_cases hc : (s.task t).state ≠ .empty ∧ (s.task t).parentPid = parent
    · rw [if_pos ⟨hlt t hc.1, hc⟩, if_pos hc]
    · rw [if_neg (fun hx => hc hx.2), if_neg hc]
  · unfold schedulerRunnableCount SchedState.ids
    rw [List.countP_filter]
    congr 1
    funext t
    have := hlt t
    grind
  · have := hlt t ht
    omega

end PcoOs.Sched
