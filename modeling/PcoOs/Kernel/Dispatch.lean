/-
  The file and memory syscalls of a user task, to their return. Every panic below them is ruled
  out by a check on the way or by an invariant (ids in the slots of a task are open descriptors,
  file descriptors refer to nodes of the table, accepted buffers are mapped), with two exceptions:
  `fstat` stores words without a look at the alignment of the pointer, and with `CR0.WP` set a
  store to a read-only page of the program faults in the kernel. `file_calls_return_iff`.
-/
import PcoOs.Kernel.Opens

namespace PcoOs.Kernel

open PcoOs.Lib PcoOs.Pmm PcoOs.Support PcoOs.Vmm PcoOs.Elf PcoOs.Image PcoOs.Sched PcoOs.Vfs
  PcoOs.Syscall

/-! ## The dispatcher -/

/-- The arms of `syscall_dispatch` for files and memory; `open` is among the file calls. -/
inductive DispatchCall where
  | file (c : UserCall)
  | brk (requested : Int)

/-- `syscall_return_with_tick`: the result is computed before the tick. -/
def syscallReturnWithTick (k : KernelState) (allowPreempt : Bool) (result now : Int) (regs : Ctx) :
    Except Panic (Int × KernelState) := do
  let k ← schedulerTimerInterrupt k allowPreempt now regs
  .ok (result, k)

/-- These arms for a user task, which may be preempted on its way out. -/
def syscallDispatch (k : KernelState) (now : Int) (regs : Ctx) :
    DispatchCall → Except Panic (Int × KernelState)
  | .file c => do
    let (r, k) ← orPanic (Syscall.userCall k c)
    syscallReturnWithTick k true r now regs
  | .brk requested =>
    let (r, sched) := schedulerBrk k.sched k.current requested
    syscallReturnWithTick { k with sched := sched } true r now regs

/-- The tick on the way out of a syscall does not panic. -/
theorem syscallReturnWithTick_ok {k : KernelState} (h : QueueReady k.sched) (allowPreempt : Bool)
    (r now : Int) (regs : Ctx) : ∃ x, syscallReturnWithTick k allowPreempt r now regs = .ok x := by
  obtain ⟨t, ht⟩ := schedulerAccountTick_snd k.sched now
  have hready : QueueReady { k.sched with lastTick := t } := h.congr (fun _ => rfl) rfl rfl rfl
  obtain ⟨q, hp, -⟩ := schedulerPickNextTask_eq hready
  unfold syscallReturnWithTick schedulerTimerInterrupt
  dsimp only
  rw [ht]
  split_ifs
  · exact ⟨_, rfl⟩
  · exact ⟨_, rfl⟩
  · exact ⟨_, rfl⟩
  · unfold schedulerYieldCurrentTask
    dsimp only
    rw [hp]
    exact ⟨_, rfl⟩

theorem schedulerBrk_ready {s : SchedState} (h : QueueReady s) (t : TaskId) (requested : Int) :
    QueueReady (schedulerBrk s t requested).2 := by
  unfold schedulerBrk
  dsimp only
  split_ifs
  · exact h
  · exact h
  · exact h
  · exact h.congr (setTask_state (by rfl)) rfl rfl rfl

/-! ## File calls -/

section Calls

variable {M : Machine} {k : KernelState}

/-- A number of the current task is no descriptor or an open one. -/
theorem FdInv.fdObject (h : FdInv M k) (fd : Int) :
    schedulerTaskFdObject (k.task k.current) fd = 0 ∨
      1 ≤ schedulerTaskFdObject (k.task k.current) fd ∧
        schedulerTaskFdObject (k.task k.current) fd ≤ maxVfsDescriptors := by
  unfold schedulerTaskFdObject
  split_ifs with hfd
  · by_cases h0 : (k.task k.current).fds ⟨fd.toNat, by omega⟩ = 0
    · exact Or.inl h0
    · exact Or.inr (mem_openDescs.mp (h.owns.held_live (k.current, ⟨fd.toNat, by omega⟩) h0)).1
  · exact Or.inl rfl

theorem vfsDesc_ok (v : VfsState) {id : Nat} (h1 : 1 ≤ id) (h32 : id ≤ maxVfsDescriptors) :
    vfsDesc v id = .ok (v.desc id) := by
  unfold vfsDesc
  rw [if_neg (by omega)]

/-- The node of an open file can be read. -/
theorem FsInv.vfsNode_ok {v : VfsState} {h : Heap} (hi : FsInv v h) {id : Nat}
    (hk : (v.desc id).kind = .initramfsFile) (v' : VfsState) :
    ∃ n, vfsNode v' (v.desc id).nodeId = .ok n := by
  obtain ⟨n, hn, -⟩ := (hi.descs id).file hk
  have hlt := (List.getElem?_eq_some_iff.mp hn).1
  have hcount := hi.count
  unfold vfsNode
  rw [if_neg (by omega)]
  exact ⟨_, rfl⟩

/-- Growing a file fails for lack of heap only. -/
theorem vfsGrowNodeData_error {v : VfsState} {h : Heap} {nodeId c : Nat} {n : Node}
    (hn : vfsNode v nodeId = .ok n) {e : String} (he : vfsGrowNodeData v h nodeId c = .error e) :
    e = "early heap exhausted" := by
  unfold vfsGrowNodeData at he
  rw [hn, ok_bind] at he
  by_cases hc : c ≤ n.dataCapacity
  · rw [if_pos hc] at he
    cases he
  rw [if_neg hc] at he
  rcases bind_eq_error.mp he with he | ⟨_, _, he⟩
  · exact allocBytes_error he
  · cases he

theorem vfsWriteDescriptor_error {v : VfsState} {h : Heap} (hi : FsInv v h) {id : Nat}
    (hid : id = 0 ∨ 1 ≤ id ∧ id ≤ maxVfsDescriptors) {bytes : Bytes} {e : String}
    (he : vfsWriteDescriptor v h id bytes = .error e) : e = "early heap exhausted" := by
  unfold vfsWriteDescriptor at he
  by_cases h0 : id = 0
  · rw [if_pos h0] at he
    cases he
  obtain ⟨h1, h32⟩ := hid.resolve_left h0
  rw [if_neg h0, vfsDesc_ok v h1 h32, ok_bind] at he
  by_cases hout : (v.desc id).kind = .consoleOut
  · rw [if_pos hout] at he
    cases he
  rw [if_neg hout] at he
  by_cases hk : (v.desc id).kind = .initramfsFile
  · rw [if_neg (not_not.mpr hk)] at he
    obtain ⟨n, hn⟩ := FsInv.vfsNode_ok hi hk v
    rw [hn, ok_bind] at he
    split_ifs at he
    rcases bind_eq_error.mp he with he | ⟨⟨ptr, v₁, h₁⟩, -, he⟩
    · exact vfsGrowNodeData_error hn he
    · obtain ⟨n', hn'⟩ := FsInv.vfsNode_ok hi hk
        { v₁ with mem := storeBytes v₁.mem (ptr + (v.desc id).offset) bytes }
      dsimp only at he
      rw [hn'] at he
      cases he
  · rw [if_pos hk] at he
    cases he


/-- A call that fills a buffer always has its bytes. -/
theorem fileCall_fills (hi : FsInv k.vfs k.heap) (hf : FdInv M k) {c : UserCall}
    (hc : c.fills = true) : ∃ call r bytes k₁, c.fetch k.phys.mem k.phys.cr3 = .ok call ∧
      fileCall k call = .ok (r, bytes, k₁) ∧ bytes.length = c.delivers k := by
  cases c with
  | write fd ptr length => cases hc
  | openPath ptr length flags => cases hc
  | close fd => cases hc
  | read fd ptr length input =>
    obtain ⟨⟨r, bytes, vfs⟩, hr⟩ : ∃ x, vfsReadDescriptor k.vfs input
        (schedulerTaskFdObject (k.task k.current) fd) length.toNat = .ok x := by
      unfold vfsReadDescriptor
      split_ifs with h0
      · exact ⟨_, rfl⟩
      obtain ⟨h1, h32⟩ := (hf.fdObject fd).resolve_left h0
      rw [vfsDesc_ok _ h1 h32, ok_bind]
      cases hk : (k.vfs.desc (schedulerTaskFdObject (k.task k.current) fd)).kind with
      | initramfsFile =>
        obtain ⟨n, hn⟩ := FsInv.vfsNode_ok hi hk k.vfs
        dsimp only
        rw [hn, ok_bind]
        split_ifs
        · exact ⟨_, rfl⟩
        · exact ⟨_, rfl⟩
      | closed | consoleIn | consoleOut | directory => exact ⟨_, rfl⟩
    refine ⟨_, r, bytes, { k with vfs := vfs }, rfl, ?_,
      (vfsReadDescriptor_count k fd ptr length input).of_ok hr⟩
    unfold fileCall
    dsimp only
    rw [hr]
    rfl
  | fstat fd ptr =>
    obtain ⟨⟨r, words⟩, hs⟩ : ∃ x, vfsStatDescriptor k.vfs
        (schedulerTaskFdObject (k.task k.current) fd) = .ok x := by
      unfold vfsStatDescriptor
      split_ifs with h0
      · exact ⟨_, rfl⟩
      obtain ⟨h1, h32⟩ := (hf.fdObject fd).resolve_left h0
      rw [vfsDesc_ok _ h1 h32, ok_bind]
      cases hk : (k.vfs.desc (schedulerTaskFdObject (k.task k.current) fd)).kind with
      | initramfsFile =>
        obtain ⟨n, hn⟩ := FsInv.vfsNode_ok hi hk k.vfs
        dsimp only
        rw [hn, ok_bind]
        exact ⟨_, rfl⟩
      | closed | consoleIn | consoleOut | directory => exact ⟨_, rfl⟩
    refine ⟨_, r, words.flatMap wordBytes, k, rfl, ?_, (vfsStatDescriptor_count k fd ptr).of_ok hs⟩
    unfold fileCall
    dsimp only
    rw [hs]
    rfl
  | readdir fd ptr length =>
    obtain ⟨⟨r, bytes, vfs⟩, hr⟩ : ∃ x, vfsReaddirDescriptor k.vfs
        (schedulerTaskFdObject (k.task k.current) fd) length.toNat = .ok x := by
      unfold vfsReaddirDescriptor
      split_ifs with h0
      · exact ⟨_, rfl⟩
      obtain ⟨h1, h32⟩ := (hf.fdObject fd).resolve_left h0
      rw [vfsDesc_ok _ h1 h32, ok_bind]
      split_ifs
      · exact ⟨_, rfl⟩
      · cases nextChild k.vfs _ _ _ with
        | none => exact ⟨_, rfl⟩
        | some p => exact ⟨_, rfl⟩
    refine ⟨_, r, bytes, { k with vfs := vfs }, rfl, ?_,
      (vfsReaddirDescriptor_count k fd ptr length).of_ok hr⟩
    unfold fileCall
    dsimp only
    rw [hr]
    rfl

theorem fileCall_write (hi : FsInv k.vfs k.heap) (hf : FdInv M k) (fd : Int) (data : Bytes) :
    Ends (fileCall k (.write fd data)) (fun r => r.2.1 = []) (fun e => e = "early heap exhausted") := by
  unfold fileCall
  dsimp only
  cases hw : vfsWriteDescriptor k.vfs k.heap (schedulerTaskFdObject (k.task k.current) fd) data with
  | error e => exact vfsWriteDescriptor_error hi (hf.fdObject fd) hw
  | ok r => rfl

theorem fileCall_close (hf : FdInv M k) (fd : Int) : ∃ r k₁, fileCall k (.close fd) = .ok (r, [], k₁) := by
  unfold fileCall
  dsimp only
  split_ifs with hfd h0
  · exact ⟨_, _, rfl⟩
  · have hid := hf.fdObject fd
    unfold schedulerTaskFdObject at hid
    rw [dif_pos hfd] at hid
    obtain ⟨h1, h32⟩ := hid.resolve_left h0
    unfold vfsCloseDescriptor
    rw [if_neg h0, vfsDesc_ok _ h1 h32, ok_bind]
    split_ifs
    · exact ⟨_, _, rfl⟩
    · exact ⟨_, _, rfl⟩
  · exact ⟨_, _, rfl⟩

/-! ## Halting -/

theorem storeUserBytes_error {wp : Bool} {root virt : Nat} {bytes : Bytes} {m : Mem} {e : String}
    (he : storeUserBytes wp root virt bytes m = .error e) : e = "page fault" := by
  induction bytes generalizing virt m with
  | nil => cases he
  | cons b bytes ih =>
    rcases bind_eq_error.mp he with he | ⟨m₁, -, he⟩
    · unfold storeUserByte at he
      cases hw : mmuWalk m root (virt / 4096) with
      | none =>
        rw [hw] at he
        cases he
        rfl
      | some a =>
        rw [hw] at he
        dsimp only at he
        split_ifs at he
        cases he
        rfl
    · exact ih he

/-- Where bytes are delivered the pointer is aligned, for `fstat`, and with `CR0.WP` they go to
    writable pages. -/
def HaltFree (k : KernelState) (c : UserCall) : Prop :=
  c.accepted (k.task k.current) = true → 0 < c.delivers k → c.aligned = true ∧
    (k.cr0Wp = true → ∀ j < c.delivers k, userPageFlag (k.ghost.image k.current)
      (pageIndex (UserCall.start c + j)) = schedulerUserPageFlagsWritable)

/-- How a call ends: on the heap or, when it is not `HaltFree`, in another panic. -/
def CallEnds (k : KernelState) (c : UserCall) (x : Except String (Int × KernelState)) : Prop :=
  Ends x (fun _ => HaltFree k c)
    (fun e => (HaltFree k c ∧ e = "early heap exhausted") ∨
      (¬ HaltFree k c ∧ e ≠ "early heap exhausted"))

variable {P : Pool} {sk : Shape} {S : TaskId → Shape} {c : UserCall}

/-- Storing what a call delivers fails on a read-only page only. -/
theorem MemInv.store_ends (hk : KernelOk k) (h : MemInv P k sk S) (hu : IsUser (k.task k.current))
    {bytes : Bytes} (hfill : Filling k c bytes) :
    Ends (storeUserBytes k.cr0Wp k.phys.cr3 (UserCall.start c) bytes k.phys.mem)
      (fun _ => HaltFree k c) (fun e => ¬ HaltFree k c ∧ e = "page fault") := by
  have hbase := hk.base _ hu.2
  have hlow := hfill.low
  have hhigh := hfill.high
  rw [hbase] at hlow
  have hW : ∀ j < bytes.length, (k.task k.current).userPages.getD
      (pageIndex (UserCall.start c + j)) 0 ∈ ((k.task k.current).userPages : Multiset Nat) := by
    intro j hj
    have hin := (h.writable_iff hu (x := UserCall.start c + j) (by push_cast; omega)
      (by push_cast; omega)).1
    rw [List.getD_eq_getElem _ _ hin]
    exact Multiset.mem_coe.mpr (List.getElem_mem hin)
  have hspec := h.storeUserBytes_spec hu hbase k.cr0Wp bytes (OnlyPages.refl _ _) hfill.low hhigh hW
  rw [hfill.length] at hspec
  cases hs : storeUserBytes k.cr0Wp k.phys.cr3 (UserCall.start c) bytes k.phys.mem with
  | ok m => exact fun _ _ => ⟨hfill.aligned, (hspec.of_ok hs).2⟩
  | error e =>
    obtain ⟨hwp, j, hj, hne⟩ := hspec.of_error hs
    refine ⟨fun hfree => hne ?_, storeUserBytes_error hs⟩
    exact (hfree hfill.accepted (Nat.zero_lt_of_lt hj)).2 hwp j hj

theorem userCall_fills (hk : KernelOk k) (h : MemInv P k sk S) (hu : IsUser (k.task k.current))
    (hi : FsInv k.vfs k.heap) (hf : FdInv M k) (hreg : c.InRegisters) (hc : c.fills = true)
    (ha : c.accepted (k.task k.current) = true) : Ends (Syscall.userCall k c)
      (fun _ => HaltFree k c) (fun e => ¬ HaltFree k c ∧ e ≠ "early heap exhausted") := by
  obtain ⟨call, r, bytes, k₁, hfetch, hcall, hlen⟩ := fileCall_fills hi hf hc
  have hbytes : userCallBytes k c = if bytes ≠ [] ∧ ¬ c.aligned = true then
      .error "qword region base is unaligned" else .ok (r, bytes, k₁) := by
    unfold userCallBytes
    rw [if_neg (not_not.mpr ha), hfetch, ok_bind, hcall]
    rfl
  unfold Syscall.userCall
  split_ifs at hbytes with hbad
  · rw [hbytes, error_bind]
    refine ⟨fun hfree => hbad.2 (hfree ha ?_).1, by decide⟩
    rw [← hlen]
    exact List.length_pos_iff.mpr hbad.1
  · obtain ⟨vfs, heap, fds, rfl⟩ := (userCallBytes_spec hk.heap hbytes).1.shape
    rw [hbytes, ok_bind]
    by_cases hne : bytes = []
    · rw [hne]
      intro _ hpos
      rw [← hlen, hne] at hpos
      exact absurd hpos (Nat.lt_irrefl 0)
    · have hstore := h.store_ends hk hu (userCallBytes_filling hk hu hreg hc hbytes hne)
      refine ends_bind (hstore.mono (fun _ hm => hm) fun e he => ⟨he.1, ?_⟩) fun m hm => hm
      rw [he.2]
      decide

/-- How every call but `open` ends. -/
theorem userCall_ends (hk : KernelOk k) (h : MemInv P k sk S) (hu : IsUser (k.task k.current))
    (hi : FsInv k.vfs k.heap) (hf : FdInv M k) (hreg : c.InRegisters)
    (hopen : ∀ ptr length flags, c ≠ .openPath ptr length flags) :
    CallEnds k c (Syscall.userCall k c) := by
  have hfills (hc : c.fills = true) (ha : c.accepted (k.task k.current) = true) :
      CallEnds k c (Syscall.userCall k c) :=
    (userCall_fills hk h hu hi hf hreg hc ha).mono (fun _ hr => hr) fun _ he => Or.inr he
  by_cases ha : c.accepted (k.task k.current) = true
  swap
  · have hbytes : userCallBytes k c = .ok (-1, [], k) := by
      unfold userCallBytes
      rw [if_pos ha]
    unfold Syscall.userCall
    rw [hbytes]
    exact fun hc => absurd hc ha
  cases c with
  | openPath ptr length flags => exact absurd rfl (hopen ptr length flags)
  | read fd ptr length input => exact hfills rfl ha
  | fstat fd ptr => exact hfills rfl ha
  | readdir fd ptr length => exact hfills rfl ha
  | close fd =>
    obtain ⟨r, k₁, hc⟩ := fileCall_close hf fd
    have hbytes : userCallBytes k (.close fd) = .ok (r, [], k₁) := by
      unfold userCallBytes
      rw [if_neg (not_not.mpr ha), show (UserCall.close fd).fetch k.phys.mem k.phys.cr3 =
        .ok (.close fd) from rfl, ok_bind, hc]
      rfl
    unfold Syscall.userCall
    rw [hbytes]
    exact fun _ hpos => absurd hpos (Nat.lt_irrefl 0)
  | write fd ptr length =>
    have hfree : HaltFree k (.write fd ptr length) := fun _ hpos => absurd hpos (Nat.lt_irrefl 0)
    obtain ⟨hlo, h0, hhi, -⟩ := syscallValidateUserBuffer_range (hreg (ptr, length) rfl).1
      (hreg (ptr, length) rfl).2 ha
    have hbase := hk.base _ hu.2
    rw [hbase] at hlo
    have hpos : (0 : Int) ≤ userTaskRegionBase := by decide
    obtain ⟨data, hdata, -⟩ := h.loadUserBytes_ok hu ptr.toNat length.toNat (by omega) (by omega)
    unfold Syscall.userCall userCallBytes
    rw [if_neg (not_not.mpr ha)]
    unfold UserCall.fetch
    dsimp only
    rw [hdata, ok_bind, ok_bind]
    have hend := fileCall_write hi hf fd data
    cases hc : fileCall k (.write fd data) with
    | error e =>
      rw [error_bind, error_bind]
      exact Or.inl ⟨hfree, hend.of_error hc⟩
    | ok r =>
      obtain ⟨r, bytes, k₁⟩ := r
      have hnil : bytes = [] := hend.of_ok hc
      rw [hnil]
      exact hfree

/-- A call leaves the scheduler ready for its next decision. -/
theorem userCall_ready (hk : KernelOk k) {r : Int} {k' : KernelState}
    (h : Syscall.userCall k c = .ok (r, k')) : QueueReady k'.sched := by
  unfold Syscall.userCall at h
  obtain ⟨⟨r₁, bytes, k₁⟩, hb, h⟩ := bind_eq_ok.mp h
  obtain ⟨m, -, h⟩ := bind_eq_ok.mp h
  obtain ⟨vfs, heap, fds, rfl⟩ := (userCallBytes_spec hk.heap hb).1.shape
  cases h
  exact hk.queue.toQueueReady.congr (setTask_state (by rfl)) rfl rfl rfl

end Calls

/-- The call comes back with a result, or the early heap was too small for it. -/
def Returns (x : Except Panic (Int × KernelState)) : Prop :=
  (∃ r, x = .ok r) ∨ x = .error (.message "early heap exhausted")

theorem dispatch_returns_iff {M : Machine} (hM : M.FilesReady) {k : KernelState}
    (hr : Reachable M k) (hu : IsUser (k.task k.current)) (now : Int) (regs : Ctx) {c : UserCall}
    (hreg : c.InRegisters) (hopen : ∀ ptr length flags, c ≠ .openPath ptr length flags) :
    Returns (syscallDispatch k now regs (.file c)) ↔ HaltFree k c := by
  have hk := hr.kernelOk
  obtain ⟨sk, S, hm⟩ := hr.memInv
  have hend := userCall_ends hk hm hu (hr.vfs hM).inv hr.fdInv hreg hopen
  unfold syscallDispatch
  dsimp only
  cases hc : Syscall.userCall k c with
  | ok r =>
    obtain ⟨r, k'⟩ := r
    obtain ⟨x, hx⟩ := syscallReturnWithTick_ok (userCall_ready hk hc) true r now regs
    exact iff_of_true (Or.inl ⟨x, hx⟩) (hend.of_ok hc)
  | error e =>
    have hpanic : (orPanic (.error e : Except String (Int × KernelState)) >>= fun x =>
        syscallReturnWithTick x.2 true x.1 now regs) = .error (.message e) := rfl
    rcases hend.of_error hc with ⟨hfree, rfl⟩ | ⟨hfree, hne⟩
    · exact iff_of_true (Or.inr hpanic) hfree
    · refine iff_of_false ?_ hfree
      rintro (⟨x, hx⟩ | hx)
      · cases hpanic.symm.trans hx
      · cases hpanic.symm.trans hx
        exact hne rfl

/-- `brk` always returns, and the file calls but `open` exactly when they are `HaltFree`. -/
theorem file_calls_return_iff {M : Machine} (hM : M.FilesReady) {k : KernelState}
    (hr : Reachable M k) (hu : IsUser (k.task k.current)) (now : Int) (regs : Ctx) :
    (∀ requested, Returns (syscallDispatch k now regs (.brk requested))) ∧
      ∀ c : UserCall, c.InRegisters → (∀ ptr length flags, c ≠ .openPath ptr length flags) →
        (Returns (syscallDispatch k now regs (.file c)) ↔ HaltFree k c) := by
  refine ⟨fun requested => Or.inl ?_,
    fun c hreg hopen => dispatch_returns_iff hM hr hu now regs hreg hopen⟩
  exact syscallReturnWithTick_ok (k := { k with sched := _ })
    (schedulerBrk_ready hr.kernelOk.queue.toQueueReady k.current requested) true _ now regs

/-! ## A run that halts -/

theorem schedulerInitTaskFds_spare {v : VfsState} {r : (Fin 4 → Nat) × VfsState}
    (h : schedulerInitTaskFds v = .ok r) : ¬ DescsFull v := by
  intro hfull
  obtain ⟨-, hd⟩ | ⟨id, h1, h32, hc, -⟩ := vfsAllocDescriptor_spec v ⟨.consoleIn, 0, 0, 0, []⟩
  · unfold schedulerInitTaskFds vfsAllocConsoleInDescriptor at h
    rw [hd] at h
    dsimp only at h
    rw [if_pos (Or.inl rfl)] at h
    cases h
  · exact hfull id h1 h32 hc

/-- A task of a machine with files runs `smallImage`. -/
theorem HelloMachine.started {M : Machine} (hM : HelloMachine M) :
    ∃ k₀ k, Booted M k₀ ∧ Reachable M k ∧ Started k₀ k := by
  obtain ⟨k₀, hboot, hb⟩ := boot_ok hM.boots
  obtain ⟨row0, row1, hrows, htask⟩ := hb.rows
  have hslot : (k₀.task 2).state = .empty := by
    unfold KernelState.task
    rw [htask]
    rfl
  have hroom : Room k₀ smallImage := by
    refine ⟨⟨2, hslot⟩, ?_, ?_, smallImage_valid, smallImage_plain, hb.fdInv.spare hM.files hslot⟩
    · have hfree := hb.freePages
      rw [hM.pages] at hfree
      omega
    · have hlt := hrows.ptr_lt
      have hstop := hrows.extended.stop
      have := hM.room
      omega
  obtain ⟨k, hr, hs⟩ := started_of_room hM.picks hboot hroom
  exact ⟨k₀, k, hb, hr, hs⟩

/-- The first byte of the stack page of `smallImage`. -/
def stackByte : Nat := 0x20005000

section Halt

variable {M : Machine} {k : KernelState}

theorem smallImage_pages (hr : Reachable M k) (hu : IsUser (k.task k.current))
    (himg : k.ghost.image k.current = smallImage) : (k.task k.current).userPages.length = 6 ∧
    mmuWalk k.phys.mem k.phys.cr3 (stackByte / 4096) =
      some ⟨(k.task k.current).userPages.getD 5 0, true, true⟩ := by
  obtain ⟨sk, S, hm⟩ := hr.memInv
  have hs := hm.user _ hu
  have hlen : (k.task k.current).userPages.length = 6 := by
    obtain ⟨fp, hfp, -, -, hlen⟩ := hs.fits.count
    rw [himg] at hfp
    have : elfUserImagePageCount smallImage = .ok 1 := by decide +kernel
    cases hfp.symm.trans this
    exact hlen
  refine ⟨hlen, ?_⟩
  have hw := userRoot_window hs.root hs.fits.length.2 (hm.pages_aligned hu) hs.fits.flag
    (i := 5) (by omega)
  have hflag : userPageFlag smallImage 5 = 7 := by decide +kernel
  rw [himg, hflag] at hw
  rw [hm.cr3]
  exact hw

/-- A user pointer into the stack page is accepted. -/
theorem stack_accepted (hr : Reachable M k) (hu : IsUser (k.task k.current))
    (himg : k.ghost.image k.current = smallImage) {ptr length : Int} (hlo : stackByte ≤ ptr)
    (h0 : 0 ≤ length) (hhi : ptr + length ≤ stackByte + 4096) :
    syscallValidateUserBuffer (k.task k.current) ptr length = true := by
  obtain ⟨sk, S, hm⟩ := hr.memInv
  have hs := hm.user _ hu
  have hlen := (smallImage_pages hr hu himg).1
  have hbase := hr.kernelOk.base _ hu.2
  have hlimit := hs.limit
  have hheap := hs.heapLimit
  rw [hlen] at hlimit hheap
  unfold userTaskRegionBase userPageSize at hlimit hheap
  unfold stackByte at hlo hhi
  refine syscallValidateUserBuffer_complete (hs.layout hbase) hbase (by omega) h0 (Or.inr (Or.inr ?_))
  omega

/-- The program puts a byte on its stack. -/
theorem userStore_stack (hr : Reachable M k) (hu : IsUser (k.task k.current)) (hrun : Running k)
    (himg : k.ghost.image k.current = smallImage) (b : UInt8) :
    ∃ m, Reachable M { k with phys := { k.phys with mem := m } } ∧
      loadUserBytes m k.phys.cr3 stackByte 1 = .ok [b] := by
  have hw := (smallImage_pages hr hu himg).2
  obtain ⟨m, hm⟩ : ∃ m, m = storeByte k.phys.mem ((k.task k.current).userPages.getD 5 0 + 0) b :=
    ⟨_, rfl⟩
  have hact : act k (.userStore stackByte b) = .ok { k with phys := { k.phys with mem := m } } := by
    dsimp only [act]
    unfold userModeStore
    rw [hw]
    dsimp only
    rw [if_pos ⟨rfl, rfl⟩, hm]
    rfl
  have henabled : Enabled k (.userStore stackByte b) := ⟨hrun, hu.2⟩
  have hr' : Reachable M { k with phys := { k.phys with mem := m } } :=
    hr.step trivial henabled hact
  refine ⟨m, hr', ?_⟩
  have hw' := (smallImage_pages hr' hu himg).2
  change mmuWalk m k.phys.cr3 (stackByte / 4096) =
    some ⟨(k.task k.current).userPages.getD 5 0, true, true⟩ at hw'
  have hb : m ((k.task k.current).userPages.getD 5 0 + stackByte % 4096) = b := by
    rw [hm]
    exact if_pos rfl
  unfold loadUserBytes loadUserByte
  rw [hw']
  dsimp only
  rw [hb]
  rfl

theorem syscallAllocTaskFd_last (h3 : (k.task k.current).fds 3 = 0) (d : Nat) :
    syscallAllocTaskFd k d = some (3, setTaskFd k 3 d) := by
  unfold syscallAllocTaskFd
  rw [List.find?_cons_of_pos (by simpa using h3)]
  rfl

/-- Opening the root directory takes a descriptor. -/
theorem vfsOpenPath_root {v : VfsState} {h : Heap} (hroom : h.ptr + 64 ≤ h.stop) (hok : HeapOk h)
    (hdescs : ¬ DescsFull v) : ∃ d heap, (1 ≤ d ∧ d ≤ maxVfsDescriptors) ∧
      HeapMovesBy h heap 64 ∧
      vfsOpenPath v h [slash] 0 = .ok (d, setVfsDesc v d ⟨.directory, 0, 0, 0, [slash]⟩, heap) := by
  obtain ⟨⟨p, heap⟩, ha, -, hok', hg, -, hlt⟩ :=
    (allocBytes_spec hok (n := 3) (by decide)).exists_ok fun _ he => by omega
  dsimp only at hok' hg hlt
  obtain ⟨hfull, -⟩ | ⟨d, h1, h32, -, hd⟩ :=
    vfsAllocDescriptor_spec v ⟨.directory, 0, 0, 0, [slash]⟩
  · exact absurd hfull hdescs
  refine ⟨d, heap, ⟨h1, h32⟩, ⟨⟨hok', hg⟩, by omega⟩, ?_⟩
  unfold vfsOpenPath vfsNormalizePath
  rw [if_neg (by decide), if_neg (by decide), if_neg (by decide),
    show (([slash] : Bytes).length + 2 : Int) = 3 from rfl, ha]
  exact congrArg (fun r : Nat × VfsState => Except.ok (r.1, r.2, heap)) hd

/-- In a task with the last slot free it takes that slot, too. -/
theorem fileCall_openRoot (hroom : k.heap.ptr + 64 ≤ k.heap.stop) (hok : HeapOk k.heap)
    (hdescs : ¬ DescsFull k.vfs) (h3 : (k.task k.current).fds 3 = 0) :
    ∃ d heap, 1 ≤ d ∧ d ≤ maxVfsDescriptors ∧ fileCall k (.openPath [slash] 0) = .ok (3, [],
      setTaskFd { k with vfs := setVfsDesc k.vfs d ⟨.directory, 0, 0, 0, [slash]⟩, heap := heap }
        3 d) := by
  obtain ⟨d, heap, ⟨h1, h32⟩, -, hopen⟩ := vfsOpenPath_root hroom hok hdescs
  refine ⟨d, heap, h1, h32, ?_⟩
  unfold fileCall
  dsimp only
  rw [hopen, ok_bind]
  dsimp only
  rw [if_neg (by omega), syscallAllocTaskFd_last (k := { k with
    vfs := setVfsDesc k.vfs d ⟨.directory, 0, 0, 0, [slash]⟩, heap := heap }) h3]
  rfl

end Halt

/-- A program that has opened the root directory, which took its last descriptor slot. -/
structure OpenedRoot (M : Machine) (k : KernelState) : Prop where
  hello : HelloMachine M
  reachable : Reachable M k
  user : IsUser (k.task k.current)
  running : Running k
  image : k.ghost.image k.current = smallImage
  delivers : ∀ ptr, (UserCall.fstat 3 ptr).delivers k = 16

/-- There is room for the path of a call, and a descriptor, after the first program began. -/
theorem HelloMachine.spare {M : Machine} (hM : HelloMachine M) {k₀ k : KernelState}
    (hb : Booted M k₀) (hr : Reachable M k) (hs : Started k₀ k) :
    k.heap.ptr + 300 ≤ k.heap.stop ∧ ¬ DescsFull k.vfs := by
  constructor
  · obtain ⟨row0, row1, hrows, -⟩ := hb.rows
    have h1 := hrows.ptr_lt
    have h2 := hrows.extended.stop
    have h3 := hM.room
    have h4 := hs.heap
    omega
  · obtain ⟨t, ht⟩ := hs.slot
    obtain ⟨r, hinit⟩ := hr.fdInv.spare hM.files ht
    exact schedulerInitTaskFds_spare hinit

theorem exists_openedRoot : ∃ M k, OpenedRoot M k := by
  obtain ⟨M, hM⟩ := exists_helloMachine
  obtain ⟨k₀, k, hb, hr, hs⟩ := hM.started
  obtain ⟨m, hr₁, hload⟩ := userStore_stack hr hs.user hs.running hs.image slash
  obtain ⟨hroom, hdescs⟩ := hM.spare hb hr hs
  have hroom : k.heap.ptr + 64 ≤ k.heap.stop := by omega
  obtain ⟨d, heap, h1, h32, hcall⟩ := fileCall_openRoot
    (k := { k with phys := { k.phys with mem := m } }) hroom hr.kernelOk.heap hdescs
    (schedulerInitTaskFds_slots hs.fds).2.1
  have hacc : syscallValidateUserBuffer (k.task k.current) stackByte 1 = true :=
    stack_accepted hr hs.user hs.image (le_refl _) (by decide) (by decide)
  have hopen := syscallOpenUserPath_eq stackByte 1 0 (k := { k with phys := { k.phys with mem := m } })
    hacc hload
  unfold syscallOpenUserPath syscallOpenKernelPath at hopen
  rw [hcall, ok_bind] at hopen
  obtain ⟨k₂, hk₂⟩ : ∃ k₂, k₂ = setTaskFd { k with
      phys := { k.phys with mem := m }, heap := heap
      vfs := setVfsDesc k.vfs d ⟨.directory, 0, 0, 0, [slash]⟩ } 3 d := ⟨_, rfl⟩
  have hact : act { k with phys := { k.phys with mem := m } } (.userCall (.openPath stackByte 1 0)) =
      .ok k₂ := by
    dsimp only [act]
    rw [hopen, hk₂]
    rfl
  have henabled : Enabled { k with phys := { k.phys with mem := m } }
      (.userCall (.openPath stackByte 1 0)) := by
    refine ⟨hs.running, hs.user.2, fun b hb => ?_⟩
    cases hb
    exact ⟨⟨by decide, by decide⟩, by decide, by decide⟩
  have hrow : k₂.task k₂.current = { k.task k.current with
      fds := Function.update (k.task k.current).fds 3 d } := by
    rw [hk₂]
    exact (setTask_task ..).trans (if_pos rfl)
  refine ⟨M, k₂, hM, hr₁.step trivial henabled hact, ?_, ?_, ?_, fun ptr => ?_⟩
  · rw [hrow]
    exact hs.user
  · rw [hk₂]
    exact hs.running
  · rw [hk₂]
    exact hs.image
  · have hobj : schedulerTaskFdObject (k₂.task k₂.current) 3 = d := by
      rw [hrow]
      unfold schedulerTaskFdObject
      rw [dif_pos ⟨by decide, by decide⟩]
      show Function.update (k.task k.current).fds (3 : Fin 4) d 3 = d
      rw [Function.update_self]
    have hdesc : k₂.vfs.desc d = ⟨.directory, 0, 0, 0, [slash]⟩ := by
      rw [hk₂]
      exact Function.update_self ..
    unfold UserCall.delivers openDesc
    dsimp only
    rw [hobj, if_neg (by omega), hdesc]

theorem fstat_inRegisters {offset : Nat} (h : offset ≤ 4080) :
    (UserCall.fstat 3 (stackByte + offset)).InRegisters := by
  intro b hb
  cases hb
  unfold stackByte IsInt64
  dsimp only
  omega

/-- A `fstat` into the stack page at an aligned pointer. -/
theorem OpenedRoot.haltFree {M : Machine} {k : KernelState} (h : OpenedRoot M k) :
    HaltFree k (.fstat 3 stackByte) := by
  intro _ _
  refine ⟨by decide, fun _ j hj => ?_⟩
  rw [h.delivers] at hj
  have hpage : pageIndex (UserCall.start (.fstat 3 stackByte) + j) = 5 := by
    show (0x20005000 + j) / 4096 - windowPage = 5
    unfold windowPage
    omega
  rw [h.image, hpage]
  decide +kernel

/-- `fstat` of an open directory returns when the pointer is aligned. -/
theorem file_calls_return_iff_hello : ∃ M k, M.FilesReady ∧ Reachable M k ∧
    IsUser (k.task k.current) ∧ (UserCall.fstat 3 stackByte).delivers k = 16 ∧
    ∀ now regs, Returns (syscallDispatch k now regs (.file (.fstat 3 stackByte))) := by
  obtain ⟨M, k, h⟩ := exists_openedRoot
  refine ⟨M, k, h.hello.files, h.reachable, h.user, h.delivers _, fun now regs => ?_⟩
  refine ((file_calls_return_iff h.hello.files h.reachable h.user now regs).2 (.fstat 3 stackByte)
    (fstat_inRegisters (Nat.zero_le _)) ?_).mpr h.haltFree
  intro _ _ _ hc
  cases hc

/-- `fstat` of an open directory with an odd pointer stops the kernel. -/
theorem fstat_unaligned_halts : ¬ ∀ (M : Machine) (k : KernelState), M.FilesReady →
    Reachable M k → IsUser (k.task k.current) → ∀ (now : Int) (regs : Ctx) (c : UserCall),
      c.InRegisters → (∀ ptr length flags, c ≠ .openPath ptr length flags) →
        Returns (syscallDispatch k now regs (.file c)) := by
  intro hall
  obtain ⟨M, k, h⟩ := exists_openedRoot
  have hreg : (UserCall.fstat 3 (stackByte + 1)).InRegisters :=
    fstat_inRegisters (show 1 ≤ 4080 by decide)
  have hnot : ∀ ptr length flags, UserCall.fstat 3 (stackByte + 1) ≠ .openPath ptr length flags := by
    intro _ _ _ hc
    cases hc
  have hfree := (dispatch_returns_iff h.hello.files h.reachable h.user 0 ⟨0, 0, 0, 0, 0, 0, 0⟩ hreg
    hnot).mp (hall M k h.hello.files h.reachable h.user 0 _ _ hreg hnot)
  have hbad := hfree (stack_accepted h.reachable h.user h.image (by omega) (by decide) (by decide))
    (by rw [h.delivers]; decide)
  exact absurd hbad.1 (by decide)

end PcoOs.Kernel
