/-
  The files of a task, in the terms of the abstract file system: its handles and the four slots a
  task knows them by. A file call of the current task does to the kernel what `TaskFiles.call` does
  to `files k`, and what it costs, and leaves the rest of the kernel alone (`fileCall_simulates`).
-/
import PcoOs.Syscall.Spec
import PcoOs.Vfs.Refines

namespace PcoOs.Syscall

open PcoOs.Lib PcoOs.Support PcoOs.Sched PcoOs.Vfs PcoOs.Kernel

/-- The file system and the handles of one task. -/
structure TaskFiles where
  system : FileSystem
  fds : Fin 4 → Nat

namespace TaskFiles

/-- The slot a program means by a number. -/
def slot (fd : Int) : Option (Fin 4) := [0, 1, 2, 3].find? fun i : Fin 4 => (i.val : Int) = fd

def number (s : TaskFiles) (fd : Int) : Nat := ((slot fd).map s.fds).getD 0

def freeSlot (s : TaskFiles) : Option (Fin 4) := [3, 2, 1, 0].find? fun fd => s.fds fd = 0

/-- A new handle goes to the highest free slot; without one it is closed again. -/
def install (s : TaskFiles) (number : Nat) (system : FileSystem) : (Int × Bytes) × TaskFiles :=
  if number = 0 then ((-1, []), { s with system := system })
  else match s.freeSlot with
  | some fd => ((fd.val, []), ⟨system, Function.update s.fds fd number⟩)
  | none => ((-1, []), { s with system := system.setHandle number .closed })

/-- A call of the file system, with what the caller gets of its reply. -/
def ask (s : TaskFiles) (c : VfsCall) (bytes : Reply → Bytes) :
    Except String ((Int × Bytes) × TaskFiles) := do
  let r ← s.system.call c
  .ok ((r.1.value, bytes r.1), { s with system := r.2 })

def close (s : TaskFiles) (fd : Int) : Except String ((Int × Bytes) × TaskFiles) :=
  match slot fd with
  | none => .ok ((-1, []), s)
  | some i =>
    if s.fds i = 0 then .ok ((-1, []), s)
    else do
      let r ← s.system.call (.close (s.fds i))
      if r.1.value ≠ 0 then .ok ((-1, []), { s with system := r.2 })
      else .ok ((0, []), ⟨r.2, Function.update s.fds i 0⟩)

def call (s : TaskFiles) : FileCall → Except String ((Int × Bytes) × TaskFiles)
  | .write fd bytes => s.ask (.write (s.number fd) bytes) fun _ => []
  | .openPath path flags => do
    let r ← s.system.openPath path flags
    .ok (s.install r.1.value.toNat r.2)
  | .close fd => s.close fd
  | .read fd length input => s.ask (.read (s.number fd) length input) Reply.bytes
  | .fstat fd => s.ask (.stat (s.number fd)) fun r => r.words.flatMap wordBytes
  | .readdir fd length => s.ask (.readdir (s.number fd) length) Reply.bytes

def cost (s : TaskFiles) : FileCall → Nat
  | .write fd bytes => s.system.cost (.write (s.number fd) bytes)
  | .openPath path flags => s.system.cost (.openPath path flags)
  | _ => 0

end TaskFiles

/-- What the current task has. -/
def files (k : KernelState) : TaskFiles := ⟨view k.vfs, (k.task k.current).fds⟩

/-- A kernel with other files and other slots of its current task. -/
def setFiles (k : KernelState) (vfs : VfsState) (heap : Heap) (fds : Fin 4 → Nat) : KernelState :=
  { k with
    vfs := vfs, heap := heap
    sched := k.sched.setTask k.current { k.task k.current with fds := fds } }

theorem setFiles_current (k : KernelState) (vfs : VfsState) (heap : Heap) (fds : Fin 4 → Nat) :
    (setFiles k vfs heap fds).current = k.current := rfl

theorem setFiles_fds (k : KernelState) (vfs : VfsState) (heap : Heap) (fds : Fin 4 → Nat) :
    ((setFiles k vfs heap fds).task k.current).fds = fds := by
  unfold setFiles KernelState.task SchedState.setTask
  dsimp only
  rw [Function.update_self]

@[simp] theorem files_setFiles (k : KernelState) (vfs : VfsState) (heap : Heap) (fds : Fin 4 → Nat) :
    files (setFiles k vfs heap fds) = ⟨view vfs, fds⟩ := by
  unfold files
  rw [setFiles_current, setFiles_fds]
  rfl

@[simp] theorem setFiles_setFiles (k : KernelState) (vfs vfs' : VfsState) (heap heap' : Heap)
    (fds fds' : Fin 4 → Nat) :
    setFiles (setFiles k vfs heap fds) vfs' heap' fds' = setFiles k vfs' heap' fds' := by
  unfold setFiles KernelState.task KernelState.current SchedState.setTask
  dsimp only
  rw [Function.update_self, Function.update_idem]

/-- With the slots it has, only the files change. -/
theorem setFiles_self (k : KernelState) (vfs : VfsState) (heap : Heap) :
    setFiles k vfs heap (k.task k.current).fds = { k with vfs := vfs, heap := heap } :=
  congrArg (fun s => { k with vfs := vfs, heap := heap, sched := s }) (setTask_self k.sched _)

theorem setTaskFd_setFiles (k : KernelState) (vfs : VfsState) (heap : Heap) (fd : Fin 4) (d : Nat) :
    setTaskFd { k with vfs := vfs, heap := heap } fd d =
      setFiles k vfs heap (Function.update (k.task k.current).fds fd d) := rfl

/-! ## A call of the kernel -/

theorem TaskFiles.slot_of_lt {fd : Int} (h0 : 0 ≤ fd) (hlt : fd.toNat < 4) :
    slot fd = some ⟨fd.toNat, hlt⟩ := by
  obtain ⟨i, rfl⟩ : ∃ i : Fin 4, (i.val : Int) = fd := ⟨⟨fd.toNat, hlt⟩, by dsimp only; omega⟩
  fin_cases i <;> rfl

theorem TaskFiles.slot_of_not {fd : Int} (h : ¬ (0 ≤ fd ∧ fd < 4)) : slot fd = none := by
  unfold slot
  rw [List.find?_eq_none]
  intro i _
  have := i.isLt
  simp only [decide_eq_true_eq]
  omega

theorem schedulerTaskFdObject_eq (k : KernelState) (fd : Int) :
    schedulerTaskFdObject (k.task k.current) fd = (files k).number fd := by
  unfold schedulerTaskFdObject TaskFiles.number files
  by_cases h : 0 ≤ fd ∧ fd < 4
  · rw [dif_pos h, TaskFiles.slot_of_lt h.1 (by omega)]
    rfl
  · rw [dif_neg h, TaskFiles.slot_of_not h]
    rfl

/-- A file call, in the shape of the calls of the file system. -/
def fileReply (k : KernelState) (c : FileCall) : Except String ((Int × Bytes) × KernelState) := do
  let (r, bytes, k) ← fileCall k c
  .ok ((r, bytes), k)

/-- A call that only looks its descriptor up. -/
def askKernel (k : KernelState) (c : VfsCall) (bytes : Reply → Bytes) :
    Except String ((Int × Bytes) × KernelState) := do
  let r ← vfsReply (k.vfs, k.heap) c
  .ok ((r.1.value, bytes r.1), { k with vfs := r.2.1, heap := r.2.2 })

theorem fileReply_write (k : KernelState) (fd : Int) (bytes : Bytes) :
    fileReply k (.write fd bytes) =
      askKernel k (.write ((files k).number fd) bytes) fun _ => [] := by
  unfold fileReply fileCall askKernel vfsReply
  dsimp only
  rw [schedulerTaskFdObject_eq]
  cases vfsWriteDescriptor k.vfs k.heap ((files k).number fd) bytes <;> rfl

theorem fileReply_read (k : KernelState) (fd : Int) (length : Nat) (input : Bytes) :
    fileReply k (.read fd length input) =
      askKernel k (.read ((files k).number fd) length input) Reply.bytes := by
  unfold fileReply fileCall askKernel vfsReply
  dsimp only
  rw [schedulerTaskFdObject_eq]
  cases vfsReadDescriptor k.vfs input ((files k).number fd) length <;> rfl

theorem fileReply_fstat (k : KernelState) (fd : Int) :
    fileReply k (.fstat fd) =
      askKernel k (.stat ((files k).number fd)) fun r => r.words.flatMap wordBytes := by
  unfold fileReply fileCall askKernel vfsReply
  dsimp only
  rw [schedulerTaskFdObject_eq]
  cases vfsStatDescriptor k.vfs ((files k).number fd) <;> rfl

theorem fileReply_readdir (k : KernelState) (fd : Int) (length : Nat) :
    fileReply k (.readdir fd length) =
      askKernel k (.readdir ((files k).number fd) length) Reply.bytes := by
  unfold fileReply fileCall askKernel vfsReply
  dsimp only
  rw [schedulerTaskFdObject_eq]
  cases vfsReaddirDescriptor k.vfs ((files k).number fd) length <;> rfl

/-- The end of an open: the new descriptor is put in a slot, or closed again. -/
def installKernel (k : KernelState) (id : Nat) (r : VfsState × Heap) :
    Except String ((Int × Bytes) × KernelState) :=
  if id = 0 then .ok ((-1, []), { k with vfs := r.1, heap := r.2 })
  else match syscallAllocTaskFd { k with vfs := r.1, heap := r.2 } id with
  | some p => .ok ((p.1.val, []), p.2)
  | none => do
    let c ← vfsCloseDescriptor r.1 id
    .ok ((-1, []), { k with vfs := c.2, heap := r.2 })

theorem fileReply_openPath (k : KernelState) (path : Bytes) (flags : Int) :
    fileReply k (.openPath path flags) =
      vfsReply (k.vfs, k.heap) (.openPath path flags) >>= fun r =>
        installKernel k r.1.value.toNat r.2 := by
  unfold fileReply fileCall vfsReply
  dsimp only
  cases vfsOpenPath k.vfs k.heap path flags with
  | error e => rfl
  | ok r =>
    obtain ⟨id, vfs, heap⟩ := r
    unfold installKernel
    simp only [ok_bind, Int.toNat_natCast]
    by_cases h0 : id = 0
    · rw [if_pos h0, if_pos h0]
      rfl
    · rw [if_neg h0, if_neg h0]
      cases syscallAllocTaskFd { k with vfs := vfs, heap := heap } id with
      | some p => rfl
      | none =>
        dsimp only
        cases vfsCloseDescriptor vfs id <;> rfl

/-- A close: the descriptor first, then the slot. -/
def closeKernel (k : KernelState) (fd : Int) : Except String ((Int × Bytes) × KernelState) :=
  match TaskFiles.slot fd with
  | none => .ok ((-1, []), k)
  | some i =>
    if (k.task k.current).fds i = 0 then .ok ((-1, []), k)
    else do
      let r ← vfsReply (k.vfs, k.heap) (.close ((k.task k.current).fds i))
      if r.1.value ≠ 0 then .ok ((-1, []), { k with vfs := r.2.1, heap := r.2.2 })
      else .ok ((0, []), setTaskFd { k with vfs := r.2.1, heap := r.2.2 } i 0)

theorem fileReply_close (k : KernelState) (fd : Int) :
    fileReply k (.close fd) = closeKernel k fd := by
  unfold fileReply fileCall closeKernel
  dsimp only
  by_cases hfd : 0 ≤ fd ∧ fd < 4
  · rw [dif_pos hfd, TaskFiles.slot_of_lt hfd.1 (by omega)]
    dsimp only
    by_cases h0 : (k.task k.current).fds ⟨fd.toNat, by omega⟩ = 0
    · rw [if_pos h0, if_pos h0]
      rfl
    · rw [if_neg h0, if_neg h0]
      unfold vfsReply
      dsimp only
      cases vfsCloseDescriptor k.vfs ((k.task k.current).fds ⟨fd.toNat, by omega⟩) with
      | error e => rfl
      | ok r =>
        obtain ⟨r, v⟩ := r
        simp only [ok_bind]
        by_cases hr : r ≠ 0
        · rw [if_pos hr, if_pos hr]
          rfl
        · rw [if_neg hr, if_neg hr]
          rfl
  · rw [dif_neg hfd, TaskFiles.slot_of_not hfd]
    rfl

/-- What is left of the early heap. -/
def roomLeft (k : KernelState) : Nat := heapLeft (k.vfs, k.heap)

/-- `k` has the files `s`; the rest of it is as in `k₀`. -/
structure HasFiles (k₀ k : KernelState) (s : TaskFiles) : Prop where
  reach : VfsReachable (k.vfs, k.heap)
  files : files k = s
  rest : k = setFiles k₀ k.vfs k.heap s.fds

theorem HasFiles.start {k : KernelState} (h : VfsReachable (k.vfs, k.heap)) :
    HasFiles k k (Syscall.files k) :=
  ⟨h, rfl, (setFiles_self k k.vfs k.heap).symm⟩

theorem HasFiles.next {k₀ k : KernelState} {s : TaskFiles} (h : HasFiles k₀ k s) {vfs : VfsState}
    {heap : Heap} (hr : VfsReachable (vfs, heap)) (fds : Fin 4 → Nat) :
    HasFiles k₀ (setFiles k vfs heap fds) ⟨view vfs, fds⟩ :=
  ⟨hr, files_setFiles k vfs heap fds, by
    rw [h.rest, setFiles_setFiles]
    rfl⟩

/-- Where the slots stay as they are. -/
theorem HasFiles.keep {k₀ k : KernelState} {s : TaskFiles} (h : HasFiles k₀ k s) {vfs : VfsState}
    {heap : Heap} (hr : VfsReachable (vfs, heap)) :
    HasFiles k₀ { k with vfs := vfs, heap := heap } { s with system := view vfs } := by
  have hfds : (k.task k.current).fds = s.fds := congrArg TaskFiles.fds h.files
  rw [← hfds, ← setFiles_self k vfs heap]
  exact h.next hr _

/-- One call agrees with the abstract one. -/
def CallAgrees (k₀ k : KernelState) (n : Nat)
    (x : Except String ((Int × Bytes) × KernelState))
    (y : Except String ((Int × Bytes) × TaskFiles)) : Prop :=
  Ends x (fun r => roomLeft k = roomLeft r.2 + n ∧ ∃ s', y = .ok (r.1, s') ∧ HasFiles k₀ r.2 s')
    (fun e => if roomLeft k < n then e = exhausted else y = .error e)

section Call

variable {k₀ k : KernelState} {s : TaskFiles} (h : HasFiles k₀ k s)

include h

theorem HasFiles.system : view k.vfs = s.system := congrArg TaskFiles.system h.files

theorem HasFiles.call (c : VfsCall) : Ends (vfsReply (k.vfs, k.heap) c)
    (fun r => roomLeft k = heapLeft r.2 + s.system.cost c ∧
      s.system.call c = .ok (r.1, view r.2.1) ∧ VfsReachable r.2)
    (fun e => if roomLeft k < s.system.cost c then e = exhausted else s.system.call c = .error e) := by
  refine (vfs_simulates.call (k.vfs, k.heap) s.system c ⟨h.reach, h.system⟩).mono ?_ fun _ he => he
  intro r hr
  obtain ⟨hroom, a, hcall, hreach, rfl⟩ := hr
  exact ⟨hroom, hcall, hreach⟩

theorem askKernel_agrees (c : VfsCall) (bytes : Reply → Bytes) :
    CallAgrees k₀ k (s.system.cost c) (askKernel k c bytes) (s.ask c bytes) := by
  refine ends_bind ((h.call c).mono (fun _ hr => hr) fun e he => ?_) fun r hr => ?_
  · split_ifs at he ⊢ with hroom
    · exact he
    · unfold TaskFiles.ask
      rw [he]
      rfl
  · obtain ⟨hroom, hcall, hreach⟩ := hr
    refine ⟨hroom, { s with system := view r.2.1 }, ?_, h.keep hreach⟩
    unfold TaskFiles.ask
    rw [hcall]
    rfl

theorem installKernel_agrees {id : Nat} {v : VfsState} {heap : Heap} (hr : VfsReachable (v, heap))
    (hopen : id ≠ 0 → id ∈ openDescs v) :
    ∃ r, installKernel k id (v, heap) = .ok r ∧ roomLeft r.2 = heapLeft (v, heap) ∧
      ∃ s', s.install id (view v) = (r.1, s') ∧ HasFiles k₀ r.2 s' := by
  have hfds : (k.task k.current).fds = s.fds := congrArg TaskFiles.fds h.files
  unfold installKernel TaskFiles.install
  by_cases h0 : id = 0
  · rw [if_pos h0, if_pos h0]
    exact ⟨_, rfl, rfl, _, rfl, h.keep hr⟩
  rw [if_neg h0, if_neg h0]
  have hfree : syscallAllocTaskFd { k with vfs := v, heap := heap } id =
      s.freeSlot.map fun fd => (fd, setFiles k v heap (Function.update s.fds fd id)) := by
    unfold TaskFiles.freeSlot
    rw [← hfds]
    rfl
  rw [hfree]
  cases hs : s.freeSlot with
  | some fd => exact ⟨_, rfl, rfl, _, rfl, h.next hr _⟩
  | none =>
    have hclose := vfsCloseDescriptor_open (hopen h0)
    dsimp only [Option.map_none]
    rw [hclose]
    refine ⟨_, rfl, rfl, _, rfl, ?_⟩
    have hview : view (setVfsDesc v id closedDesc) = (view v).setHandle id .closed :=
      view_setVfsDesc v id closedDesc
    rw [← hview]
    exact h.keep (hr.close hclose)

theorem openPath_agrees (path : Bytes) (flags : Int) :
    CallAgrees k₀ k (s.cost (.openPath path flags)) (fileReply k (.openPath path flags))
      (s.call (.openPath path flags)) := by
  rw [fileReply_openPath]
  have hopened : Ends (vfsReply (k.vfs, k.heap) (.openPath path flags))
      (fun r => r.1.value.toNat ≠ 0 → r.1.value.toNat ∈ openDescs r.2.1) (fun _ => True) := by
    rw [ends_iff_ok]
    intro r hr
    unfold vfsReply at hr
    obtain ⟨r', ho, hr⟩ := bind_eq_ok.mp hr
    obtain ⟨id, v, heap⟩ := r'
    cases hr
    obtain ⟨h0, -⟩ | ⟨-, -, hins⟩ := vfsOpenPath_opened h.reach.inv.heap ho
    · exact fun hne => absurd h0 hne
    · exact fun _ => hins ▸ Finset.mem_insert_self ..
  refine ends_bind (((h.call (.openPath path flags)).and hopened).mono (fun _ hr => hr) fun e he => ?_)
    fun r hr => ?_
  · have he := he.1
    unfold TaskFiles.cost TaskFiles.call
    dsimp only
    split_ifs at he ⊢ with hroom
    · exact he
    · rw [show s.system.openPath path flags = .error e from he]
      rfl
  · obtain ⟨⟨hroom, hcall, hreach⟩, hopen⟩ := hr
    obtain ⟨r', hinstall, hleft, s', hs', hfiles⟩ := installKernel_agrees h hreach hopen
    rw [hinstall]
    refine ⟨by rw [hleft]; exact hroom, s', ?_, hfiles⟩
    unfold TaskFiles.call
    dsimp only
    rw [show s.system.openPath path flags = .ok (r.1, view r.2.1) from hcall, ok_bind, hs']

theorem close_agrees (fd : Int) :
    CallAgrees k₀ k 0 (fileReply k (.close fd)) (s.call (.close fd)) := by
  have hfds : (k.task k.current).fds = s.fds := congrArg TaskFiles.fds h.files
  unfold TaskFiles.call TaskFiles.close
  rw [fileReply_close]
  unfold closeKernel
  dsimp only
  cases TaskFiles.slot fd with
  | none => exact ⟨rfl, s, rfl, h⟩
  | some i =>
    dsimp only
    rw [hfds]
    by_cases h0 : s.fds i = 0
    · rw [if_pos h0, if_pos h0]
      exact ⟨rfl, s, rfl, h⟩
    rw [if_neg h0, if_neg h0]
    refine ends_bind ((h.call (.close (s.fds i))).mono (fun _ hr => hr) fun e he => ?_) fun r hr => ?_
    · rw [show s.system.cost (.close (s.fds i)) = 0 from rfl] at he
      split_ifs at he ⊢ with hroom
      · exact he
      · rw [he]
        rfl
    · obtain ⟨hroom, hcall, hreach⟩ := hr
      rw [hcall, ok_bind]
      by_cases hv : r.1.value ≠ 0
      · rw [if_pos hv, if_pos hv]
        exact ⟨hroom, _, rfl, h.keep hreach⟩
      · rw [if_neg hv, if_neg hv]
        refine ⟨hroom, _, rfl, ?_⟩
        have hset := setTaskFd_setFiles k r.2.1 r.2.2 i 0
        rw [hfds] at hset
        rw [hset]
        exact h.next hreach _

/-- A file call does what `TaskFiles.call` does. -/
theorem fileReply_agrees (c : FileCall) :
    CallAgrees k₀ k (s.cost c) (fileReply k c) (s.call c) := by
  have hs := h.files
  cases c with
  | write fd bytes =>
    rw [fileReply_write, hs]
    exact askKernel_agrees h _ _
  | openPath path flags => exact openPath_agrees h path flags
  | close fd => exact close_agrees h fd
  | read fd length input =>
    rw [fileReply_read, hs]
    exact askKernel_agrees h (.read (s.number fd) length input) _
  | fstat fd =>
    rw [fileReply_fstat, hs]
    exact askKernel_agrees h (.stat (s.number fd)) _
  | readdir fd length =>
    rw [fileReply_readdir, hs]
    exact askKernel_agrees h (.readdir (s.number fd) length) _

end Call

theorem fileCall_simulates (k₀ : KernelState) :
    Simulates fileReply TaskFiles.call (HasFiles k₀) TaskFiles.cost roomLeft exhausted where
  call := by
    intro k s c h
    exact fileReply_agrees h c

end PcoOs.Syscall
