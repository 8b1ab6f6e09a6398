/-
  The task table and the ready queue of `ksched.py`, without the memory of the tasks: task
  selection, accounting of ticks, parent links and the slots of the table. Task ids are the eight
  indices of the table. Counters that are only printed (runtime and idle ticks, switches, name
  tags) are left out, as is the id slot, which always holds the index.
-/
import PcoOs.Lib.Outcome
import PcoOs.Lib.Ring
import PcoOs.Lib.Word

namespace PcoOs.Sched

open PcoOs.Lib

/-- `max_tasks()` is 8. -/
abbrev TaskId := Fin 8

def maxTasks : Nat := 8

/-- Numerals name the slots of the table and of a row's descriptors. -/
instance neZero_slots : NeZero 8 := ⟨by decide⟩

instance neZero_fds : NeZero 4 := ⟨by decide⟩

def readyQueueCapacity : Nat := 16

inductive TaskState where
  | empty
  | runnable
  | waiting
  | exited
  deriving DecidableEq, Repr

inductive TaskMode where
  | kernel
  | user
  deriving DecidableEq, Repr

/-- The panics of the scheduler by name, and all others by their text. -/
inductive Panic where
  | readyQueueFull
  | exitedTaskResumed
  | message (text : String)
  deriving DecidableEq, Repr

/-- The text `panic` prints. -/
def Panic.text : Panic → String
  | .readyQueueFull => "scheduler ready queue full"
  | .exitedTaskResumed => "exited task resumed"
  | .message text => text

/-- A row of the task table. The page array is a list of its pages, empty for the null pointer. -/
structure Task where
  state : TaskState
  exitCode : Int
  contextPtr : Nat
  stackBase : Nat
  mode : TaskMode
  cr3 : Nat
  userBase : Int
  userLimit : Int
  userPages : List Nat
  userPageCount : Nat
  fds : Fin 4 → Nat
  parentPid : TaskId
  heapBase : Int
  heapLimit : Int
  heapBreak : Int
  irqFramePtr : Nat

/-- All slots zero, as `scheduler_clear_task` leaves a row. -/
def clearTask : Task where
  state := .empty
  exitCode := 0
  contextPtr := 0
  stackBase := 0
  mode := .kernel
  cr3 := 0
  userBase := 0
  userLimit := 0
  userPages := []
  userPageCount := 0
  fds := fun _ => 0
  parentPid := 0
  heapBase := 0
  heapLimit := 0
  heapBreak := 0
  irqFramePtr := 0

structure SchedState where
  taskCount : Nat
  currentTask : TaskId
  idleTask : TaskId
  lastTick : Int
  queue : RingBuffer TaskId
  task : TaskId → Task

def SchedState.setTask (s : SchedState) (t : TaskId) (row : Task) : SchedState :=
  { s with task := Function.update s.task t row }

/-! ## The ready queue -/

def schedulerReadySize (s : SchedState) : Nat := s.queue.size

def schedulerEnqueueTask (s : SchedState) (t : TaskId) : Except Panic SchedState :=
  if schedulerReadySize s ≥ readyQueueCapacity then .error .readyQueueFull
  else .ok { s with queue := s.queue.push readyQueueCapacity t }

/-- An empty queue gives the idle task and stays as it is. -/
def schedulerDequeueTask (s : SchedState) : TaskId × SchedState :=
  if schedulerReadySize s = 0 then (s.idleTask, s)
  else ((s.queue.pop readyQueueCapacity).1,
    { s with queue := (s.queue.pop readyQueueCapacity).2 })

/-- The loop of `scheduler_pick_next_task`: entries that are idle or not runnable are dropped. -/
def pickLoop : Nat → SchedState → TaskId × SchedState
  | 0, s => (s.idleTask, s)
  | attempts + 1, s =>
    let (candidate, s') := schedulerDequeueTask s
    if candidate ≠ s.idleTask ∧ (s'.task candidate).state = .runnable then (candidate, s')
    else pickLoop attempts s'

/-- Queue the current task again, unless it is idle or no longer runnable. -/
def requeueCurrent (s : SchedState) : Except Panic SchedState :=
  if s.currentTask ≠ s.idleTask ∧ (s.task s.currentTask).state = .runnable then
    schedulerEnqueueTask s s.currentTask
  else .ok s

def schedulerPickNextTask (s : SchedState) : Except Panic (TaskId × SchedState) := do
  let s ← requeueCurrent s
  let (next, s) := pickLoop (schedulerReadySize s + 1) s
  .ok (next, { s with currentTask := next })

/-! ## Ticks -/

/-- The number of ticks since the last accounting, 0 when the clock did not advance. -/
def schedulerAccountTick (s : SchedState) (now : Int) : Int × SchedState :=
  if now ≤ s.lastTick then (0, s) else (now - s.lastTick, { s with lastTick := now })

/-- The ids below `task_count`, in order. -/
def SchedState.ids (s : SchedState) : List TaskId := (List.finRange 8).filter fun t => t.val < s.taskCount

def schedulerRunnableCount (s : SchedState) : Nat :=
  s.ids.countP fun t => (s.task t).state = .runnable

/-! ## The task tree -/

def schedulerReparentTarget (s : SchedState) (current : TaskId) : TaskId :=
  if current ≠ 1 ∧ s.taskCount > 1 then 1 else s.idleTask

def schedulerReparentChildren (s : SchedState) (parent newParent : TaskId) : SchedState :=
  { s with task := fun t =>
      if t.val < s.taskCount ∧ (s.task t).state ≠ .empty ∧ (s.task t).parentPid = parent then
        { s.task t with parentPid := newParent }
      else s.task t }

def schedulerFindChild (s : SchedState) (parent : TaskId) (requireExited : Bool) : Option TaskId :=
  s.ids.find? fun t => (s.task t).state ≠ .empty ∧ (s.task t).parentPid = parent ∧
    (requireExited = false ∨ (s.task t).state = .exited)

/-! ## Slots of the table -/

def schedulerFindFreeTaskId (s : SchedState) : Except Panic TaskId :=
  match s.ids.find? fun t => (s.task t).state = .empty with
  | some t => .ok t
  | none =>
    if h : s.taskCount < 8 then .ok ⟨s.taskCount, h⟩
    else .error (.message "scheduler task table full")

/-- `task_count` without the empty rows at its end. -/
def trimTaskCount (s : SchedState) : Nat → Nat
  | 0 => 0
  | n + 1 =>
    if h : n < 8 then
      if (s.task ⟨n, h⟩).state ≠ .empty then n + 1 else trimTaskCount s n
    else n + 1

/-- The result of `scheduler_brk` and the new break of the row. -/
def schedulerBrk (s : SchedState) (t : TaskId) (requested : Int) : Int × SchedState :=
  let row := s.task t
  if row.mode ≠ .user then (-1, s)
  else if requested = 0 then (row.heapBreak, s)
  else if requested < row.heapBase ∨ requested > row.heapLimit then (-1, s)
  else (requested, s.setTask t { row with heapBreak := requested })

/-- Mark the current task exited: its children get a new parent first. -/
def exitCurrent (s : SchedState) (exitCode : Int) : SchedState :=
  let current := s.currentTask
  let s := schedulerReparentChildren s current (schedulerReparentTarget s current)
  s.setTask current { s.task current with state := .exited, exitCode := exitCode }

end PcoOs.Sched
