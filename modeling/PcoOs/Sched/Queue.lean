/-
  The ready queue as a list. `QueueInv` says that the runnable tasks other than idle are the
  current task and the queued ones, each once. With eight tasks and sixteen slots the queue never
  fills. `QueueReady` leaves out that the current task is runnable: that is what a task that just
  exited hands to `scheduler_pick_next_task`, which restores `QueueInv`.
-/
import PcoOs.Sched.Model

namespace PcoOs.Sched

open PcoOs.Lib

/-- The queued task ids, oldest first. -/
def SchedState.queued (s : SchedState) : List TaskId := s.queue.items readyQueueCapacity

structure QueueReady (s : SchedState) : Prop where
  idle : s.idleTask = 0
  idle_runnable : (s.task 0).state = .runnable
  head_le : s.queue.head ≤ s.queue.tail
  nodup : s.queued.Nodup
  runnable : ∀ t ∈ s.queued, (s.task t).state = .runnable
  current : s.currentTask ≠ 0 → s.currentTask ∉ s.queued
  complete : ∀ t, t ≠ 0 → (s.task t).state = .runnable → t = s.currentTask ∨ t ∈ s.queued

structure QueueInv (s : SchedState) : Prop extends QueueReady s where
  current_runnable : (s.task s.currentTask).state = .runnable

/-- The invariant reads the states of the rows, the queue and the two named tasks. -/
theorem QueueReady.congr {s s' : SchedState} (h : QueueReady s)
    (ht : ∀ t, (s'.task t).state = (s.task t).state) (hq : s'.queue = s.queue)
    (hi : s'.idleTask = s.idleTask) (hc : s'.currentTask = s.currentTask) : QueueReady s' := by
  have hqd : s'.queued = s.queued := by
    unfold SchedState.queued
    rw [hq]
  refine ⟨hi.trans h.idle, (ht 0).trans h.idle_runnable, by rw [hq]; exact h.head_le, ?_, ?_, ?_, ?_⟩
  · rw [hqd]
    exact h.nodup
  · intro t hm
    rw [hqd] at hm
    exact (ht t).trans (h.runnable t hm)
  · rw [hqd, hc]
    exact h.current
  · intro t h0 hr
    rw [hqd, hc]
    exact h.complete t h0 ((ht t).symm.trans hr)

theorem QueueInv.congr {s s' : SchedState} (h : QueueInv s)
    (ht : ∀ t, (s'.task t).state = (s.task t).state) (hq : s'.queue = s.queue)
    (hi : s'.idleTask = s.idleTask) (hc : s'.currentTask = s.currentTask) : QueueInv s' :=
  ⟨h.toQueueReady.congr ht hq hi hc, by rw [hc, ht]; exact h.current_runnable⟩

/-- Eight tasks leave half of the slots free. -/
theorem QueueReady.size_lt {s : SchedState} (h : QueueReady s) :
    s.queue.size < readyQueueCapacity := by
  have hl := h.nodup.length_le_card
  rw [Fintype.card_fin] at hl
  have : s.queue.size = s.queued.length := (RingBuffer.length_items _ _).symm
  unfold readyQueueCapacity
  omega

theorem schedulerEnqueueTask_eq {s : SchedState} (hlt : s.queue.size < readyQueueCapacity)
    (hle : s.queue.head ≤ s.queue.tail) (t : TaskId) :
    ∃ q, schedulerEnqueueTask s t = .ok { s with queue := q } ∧ q.head ≤ q.tail ∧
      q.items readyQueueCapacity = s.queued ++ [t] := by
  unfold schedulerEnqueueTask schedulerReadySize
  rw [if_neg (by omega)]
  refine ⟨_, rfl, ?_, RingBuffer.items_push hlt hle t⟩
  unfold RingBuffer.push
  dsimp only
  omega

/-! ## Picking -/

/-- The queue a decision is made on: the current task stands at its end if it is to run again. -/
def SchedState.contenders (s : SchedState) : List TaskId :=
  if s.currentTask ≠ s.idleTask ∧ (s.task s.currentTask).state = .runnable then
    s.queued ++ [s.currentTask]
  else s.queued

/-- The contenders from the first one on that is not idle. -/
def SchedState.lineup (s : SchedState) : List TaskId := s.contenders.dropWhile (· = s.idleTask)

theorem pickLoop_empty (n : Nat) {s : SchedState} (h : s.queue.size = 0) :
    pickLoop n s = (s.idleTask, s) := by
  induction n with
  | zero => rfl
  | succ n ih =>
    unfold pickLoop schedulerDequeueTask schedulerReadySize
    rw [if_pos h]
    dsimp only
    rw [if_neg (by tauto), ih]

/-- The loop drops idle entries and takes the first other one. -/
theorem pickLoop_eq (l : List TaskId) {n : Nat} {s : SchedState} (hl : s.queued = l)
    (hn : l.length < n) (hle : s.queue.head ≤ s.queue.tail)
    (hr : ∀ t ∈ l, (s.task t).state = .runnable) :
    ∃ q, pickLoop n s = ((l.dropWhile (· = s.idleTask)).headD s.idleTask, { s with queue := q }) ∧
      q.head ≤ q.tail ∧ q.items readyQueueCapacity = (l.dropWhile (· = s.idleTask)).tail := by
  induction l generalizing n s with
  | nil =>
    have h0 : s.queue.size = 0 := by
      rw [← RingBuffer.length_items readyQueueCapacity]
      exact congrArg List.length hl
    exact ⟨s.queue, pickLoop_empty n h0, hle, hl⟩
  | cons t l ih =>
    obtain ⟨n, rfl⟩ : ∃ m, n = m + 1 := ⟨n - 1, by omega⟩
    rw [List.length_cons] at hn
    have hsize : s.queue.size = l.length + 1 := by
      rw [← RingBuffer.length_items readyQueueCapacity, ← List.length_cons (a := t)]
      exact congrArg List.length hl
    have hpop : s.queue.items readyQueueCapacity = _ := RingBuffer.items_pop (by omega)
    have hcons := hpop.symm.trans hl
    obtain ⟨ht, hrest⟩ := List.cons.inj hcons
    unfold pickLoop schedulerDequeueTask schedulerReadySize
    rw [if_neg (by omega)]
    dsimp only
    rw [ht]
    have hhead : (s.queue.pop readyQueueCapacity).2.head ≤
        (s.queue.pop readyQueueCapacity).2.tail := by
      unfold RingBuffer.pop RingBuffer.size at *
      dsimp only
      omega
    by_cases hidle : t = s.idleTask
    · rw [if_neg (by tauto), List.dropWhile_cons_of_pos (by simpa using hidle)]
      exact ih (n := n) (s := { s with queue := (s.queue.pop readyQueueCapacity).2 }) hrest
        (by omega) hhead fun x hx => hr x (List.mem_cons_of_mem _ hx)
    · rw [if_pos ⟨hidle, hr t (List.mem_cons_self ..)⟩,
        List.dropWhile_cons_of_neg (by simpa using hidle)]
      exact ⟨_, rfl, hhead, hrest⟩

theorem requeueCurrent_eq {s : SchedState} (h : QueueReady s) :
    ∃ q, requeueCurrent s = .ok { s with queue := q } ∧ q.head ≤ q.tail ∧
      q.items readyQueueCapacity = s.contenders := by
  unfold requeueCurrent SchedState.contenders
  split_ifs with hc
  · exact schedulerEnqueueTask_eq h.size_lt h.head_le s.currentTask
  · exact ⟨s.queue, rfl, h.head_le, rfl⟩

theorem QueueReady.contenders_runnable {s : SchedState} (h : QueueReady s) {t : TaskId}
    (ht : t ∈ s.contenders) : (s.task t).state = .runnable := by
  unfold SchedState.contenders at ht
  split_ifs at ht with hc
  · rcases List.mem_append.mp ht with ht | ht
    · exact h.runnable t ht
    · rw [List.mem_singleton.mp ht]
      exact hc.2
  · exact h.runnable t ht

theorem QueueReady.mem_contenders {s : SchedState} (h : QueueReady s) {t : TaskId} (h0 : t ≠ 0)
    (ht : (s.task t).state = .runnable) : t ∈ s.contenders := by
  unfold SchedState.contenders
  rw [h.idle]
  rcases h.complete t h0 ht with rfl | hm
  · rw [if_pos ⟨h0, ht⟩]
    exact List.mem_append_right _ (List.mem_singleton_self _)
  · split_ifs
    · exact List.mem_append_left _ hm
    · exact hm

theorem QueueReady.contenders_nodup {s : SchedState} (h : QueueReady s) : s.contenders.Nodup := by
  unfold SchedState.contenders
  rw [h.idle]
  split_ifs with hc
  · exact List.nodup_append.mpr ⟨h.nodup, List.nodup_singleton _, fun a ha b hb hab =>
      h.current hc.1 (by rw [← List.mem_singleton.mp hb, ← hab]; exact ha)⟩
  · exact h.nodup

/-- Picking takes the first contender that is not idle and drops those before it. It never
    panics. -/
theorem schedulerPickNextTask_eq {s : SchedState} (h : QueueReady s) :
    ∃ q, schedulerPickNextTask s = .ok (s.lineup.headD s.idleTask,
        { s with queue := q, currentTask := s.lineup.headD s.idleTask }) ∧
      q.head ≤ q.tail ∧ q.items readyQueueCapacity = s.lineup.tail := by
  obtain ⟨q₁, he₁, hq₁, hitems⟩ := requeueCurrent_eq h
  have hsize : schedulerReadySize { s with queue := q₁ } = s.contenders.length := by
    rw [← hitems]
    exact (RingBuffer.length_items _ _).symm
  obtain ⟨q, he, hq, htail⟩ := pickLoop_eq s.contenders
    (n := schedulerReadySize { s with queue := q₁ } + 1) (s := { s with queue := q₁ }) hitems
    (by omega) hq₁ fun t ht => h.contenders_runnable ht
  unfold schedulerPickNextTask
  rw [he₁, ok_bind, he]
  exact ⟨q, rfl, hq, htail⟩

theorem QueueReady.head_lineup {s : SchedState} (h : QueueReady s) {t : TaskId}
    {rest : List TaskId} (hl : s.lineup = t :: rest) : t ≠ 0 := by
  have := List.head_dropWhile_not (fun t => decide (t = s.idleTask)) (l := s.contenders)
    (by rw [show s.contenders.dropWhile _ = t :: rest from hl]; exact List.cons_ne_nil _ _)
  rw [← h.idle]
  simpa [show s.contenders.dropWhile _ = t :: rest from hl] using this

/-- Picking changes the queue and the current task, never panics and restores the invariant. -/
theorem schedulerPickNextTask_spec {s : SchedState} (h : QueueReady s) :
    ∃ next q, schedulerPickNextTask s =
        .ok (next, { s with queue := q, currentTask := next }) ∧
      QueueInv { s with queue := q, currentTask := next } := by
  obtain ⟨q, he, hq, hitems⟩ := schedulerPickNextTask_eq h
  refine ⟨_, q, he, ?_⟩
  have hsub : s.lineup.Sublist s.contenders := (List.dropWhile_suffix _).sublist
  have hall : ∀ t, t ≠ 0 → (s.task t).state = .runnable → t ∈ s.lineup := by
    intro t h0 ht
    have hsplit := List.takeWhile_append_dropWhile (p := fun t => decide (t = s.idleTask))
      (l := s.contenders)
    rcases List.mem_append.mp (hsplit ▸ h.mem_contenders h0 ht) with hm | hm
    · have := List.mem_takeWhile_imp hm
      rw [decide_eq_true_eq, h.idle] at this
      exact absurd this h0
    · exact hm
  cases hl : s.lineup with
  | nil =>
    -- only idle entries: nobody else is runnable
    rw [hl] at hitems hall
    rw [List.headD_nil, h.idle]
    refine ⟨⟨rfl, h.idle_runnable, hq, ?_, ?_, fun hc => absurd rfl hc, ?_⟩, h.idle_runnable⟩
    · show (q.items readyQueueCapacity).Nodup
      rw [hitems]
      exact List.nodup_nil
    · intro t ht
      change t ∈ q.items readyQueueCapacity at ht
      rw [hitems] at ht
      exact absurd ht List.not_mem_nil
    · intro t h0 ht
      exact absurd (hall t h0 ht) List.not_mem_nil
  | cons next rest =>
    rw [hl] at hitems hall hsub
    rw [List.headD_cons]
    obtain ⟨hnot, hnd⟩ := List.nodup_cons.mp (hsub.nodup h.contenders_nodup)
    have hrun : ∀ t ∈ next :: rest, (s.task t).state = .runnable :=
      fun t ht => h.contenders_runnable (hsub.subset ht)
    have hqueued : ({ s with queue := q, currentTask := next } : SchedState).queued = rest := hitems
    refine ⟨⟨h.idle, h.idle_runnable, hq, ?_, ?_, ?_, ?_⟩, hrun next (List.mem_cons_self ..)⟩
    · rw [hqueued]
      exact hnd
    · rw [hqueued]
      exact fun t ht => hrun t (List.mem_cons_of_mem _ ht)
    · rw [hqueued]
      exact fun _ => hnot
    · rw [hqueued]
      exact fun t h0 ht => List.mem_cons.mp (hall t h0 ht)

/-- A running task is followed by the first queued task that is not idle. -/
theorem schedulerPickNextTask_first {s : SchedState} (h : QueueInv s) (hc : s.currentTask ≠ 0)
    {pre rest : List TaskId} {t : TaskId} (hq : s.queued = pre ++ t :: rest)
    (hpre : ∀ x ∈ pre, x = 0) (ht : t ≠ 0) :
    ∃ q, schedulerPickNextTask s = .ok (t, { s with queue := q, currentTask := t }) := by
  obtain ⟨q, he, -⟩ := schedulerPickNextTask_eq h.toQueueReady
  have hlineup : s.lineup = t :: (rest ++ [s.currentTask]) := by
    unfold SchedState.lineup SchedState.contenders
    rw [h.idle, if_pos ⟨hc, h.current_runnable⟩, hq, List.append_assoc,
      List.dropWhile_append_of_pos fun x hx => decide_eq_true (hpre x hx), List.cons_append,
      List.dropWhile_cons_of_neg (by simpa using ht)]
  rw [hlineup] at he
  exact ⟨q, he⟩

end PcoOs.Sched
