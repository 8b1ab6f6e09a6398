/-
  The early heap as the task operations use it. Each task has a span of the heap: a user task its
  frame buffer, then every task its context and its kernel stack. `buildUserTask_blocks` and
  `bootstrapRows_spec` say that a new span is fresh, and `configureContext_spec` what entering
  a new context leads to.
-/
import PcoOs.Image.Stack
import PcoOs.Kernel.Run

namespace PcoOs.Kernel

open PcoOs.Lib PcoOs.Pmm PcoOs.Support PcoOs.Vmm PcoOs.Elf PcoOs.Image PcoOs.Sched PcoOs.Vfs

/-! ## Spans -/

/-- Where the blocks of a row start. -/
def spanStart (row : Task) : Nat :=
  match row.mode with
  | .user => row.irqFramePtr
  | .kernel => row.contextPtr

def spanStop (row : Task) : Nat := row.stackBase + taskStackSize

/-- The blocks of a row follow each other and are aligned as the heap hands them out. -/
structure RowBlocks (row : Task) : Prop where
  frame : row.mode = .user → row.irqFramePtr % 16 = 0 ∧ 0 < row.irqFramePtr ∧
    row.irqFramePtr + 160 ≤ row.contextPtr
  context : row.contextPtr % 16 = 0 ∧ 0 < row.contextPtr ∧ row.contextPtr + 56 ≤ row.stackBase
  stack : row.stackBase % 16 = 0

theorem RowBlocks.start_le {row : Task} (h : RowBlocks row) : spanStart row ≤ row.contextPtr := by
  unfold spanStart
  cases hm : row.mode with
  | kernel => exact le_refl _
  | user =>
    have := h.frame hm
    dsimp only
    omega

/-- A row whose blocks lie between `lo` and `hi`. -/
structure FreshBlocks (lo hi : Nat) (row : Task) : Prop where
  blocks : RowBlocks row
  start : lo ≤ spanStart row
  stop : spanStop row ≤ hi

/-! ## Writing a context -/

theorem taskKernelRsp0Top_eq {stackBase : Nat} (h : stackBase % 16 = 0) :
    taskKernelRsp0Top stackBase = stackBase + 4096 := by
  unfold taskKernelRsp0Top taskStackSize alignDown
  omega

/-- A configured context returns to its trampoline, and only the context and the stack of the
    task were written. -/
theorem configureContext_spec {m : Mem} {ctxPtr stackBase : Nat}
    (trampoline rbx rbp r12 r13 r14 : UInt64) (hc : ctxPtr % 16 = 0) (h0 : 0 < ctxPtr)
    (hd : ctxPtr + 56 ≤ stackBase) (hs : stackBase % 16 = 0) :
    ∃ m', configureContext m ctxPtr stackBase trampoline rbx rbp r12 r13 r14 = .ok m' ∧
      loadContext m' ctxPtr = ⟨UInt64.ofNat (stackBase + 4088), rbx, rbp, r12, r13, r14, 0⟩ ∧
      loadWord m' (stackBase + 4088) = trampoline ∧
      ∀ x, x < ctxPtr ∨ spanStop { clearTask with stackBase := stackBase } ≤ x → m' x = m x := by
  have htop : taskKernelRsp0Top stackBase - 8 = stackBase + 4088 := by
    rw [taskKernelRsp0Top_eq hs]
    omega
  unfold configureContext setTaskContext
  dsimp only
  rw [htop, storeQwordRegion_ok (by omega) (by omega) (by omega) (by omega), ok_bind,
    checkQwordRegion_ok (by omega) (by omega) (by omega) (by omega), ok_bind]
  refine ⟨_, rfl, loadContext_storeWords _ _ _, ?_, fun x hx => ?_⟩
  · refine (loadWord_congr fun x h1 h2 => storeWords_of_outside _ ?_).trans
      (loadWord_storeQword m (stackBase + 4088) trampoline)
    show x < ctxPtr ∨ ctxPtr + 8 * 7 ≤ x
    omega
  · have hx' : x < ctxPtr ∨ stackBase + 4096 ≤ x := hx
    rw [storeWords_of_outside _ (by show x < ctxPtr ∨ ctxPtr + 8 * 7 ≤ x; omega)]
    exact storeQword_of_outside (by show x < stackBase + 4088 + 8 * 0 ∨ _ ≤ x; omega)

/-! ## Blocks of new tasks -/

theorem allocTaskBlocks_spec {heap : Heap} (hok : HeapOk heap) :
    Ends (allocTaskBlocks heap)
      (fun r => HeapMoves heap r.2.2 ∧ heap.ptr ≤ r.1 ∧ r.1 % 16 = 0 ∧ 0 < r.1 ∧
        r.1 + 56 ≤ r.2.1 ∧ r.2.1 % 16 = 0 ∧ r.2.1 + 4096 ≤ r.2.2.ptr ∧
        r.2.2.ptr < heap.ptr + 4200)
      (fun _ => heap.stop < heap.ptr + 4200) := by
  unfold allocTaskBlocks taskStackSize
  refine ends_bind ((allocBytes_spec hok (by decide)).mono (fun _ h => h) fun _ h => by omega) ?_
  rintro ⟨p₁, heap₁⟩ ⟨e₁, ok₁, g₁, b₁, l₁⟩
  dsimp only at e₁ ok₁ g₁ b₁ l₁ ⊢
  have hstop := g₁.stop
  refine ends_bind ((allocBytes_spec ok₁ (by decide)).mono (fun _ h => h) fun _ h => by omega) ?_
  rintro ⟨p₂, heap₂⟩ ⟨e₂, ok₂, g₂, b₂, l₂⟩
  dsimp only at e₂ ok₂ g₂ b₂ l₂ ⊢
  have := hok.pos
  have := hok.aligned
  have := ok₁.aligned
  exact ⟨⟨ok₂, g₁.trans g₂⟩, by dsimp only; omega, by dsimp only; omega, by dsimp only; omega,
    by dsimp only; omega, by dsimp only; omega, by dsimp only; omega, by dsimp only; omega⟩

theorem schedulerPrepareUserImagePages_moves {img : Image} {ph ph' : Phys} {heap heap' : Heap}
    (hok : HeapOk heap) (hv : elfValidateUserImage img = .ok true) {pages flags : List Nat}
    (h : schedulerPrepareUserImagePages img ph heap = .ok (pages, flags, ph', heap')) :
    HeapMoves heap heap' := by
  obtain ⟨fp, hfp, h1, h64⟩ := elfValidateUserImage_pages hv
  unfold schedulerPrepareUserImagePages userTaskHeapPages at h
  rw [hfp, ok_bind] at h
  obtain ⟨⟨p₁, heap₁⟩, h₁, h⟩ := bind_eq_ok.mp h
  obtain ⟨⟨p₂, heap₂⟩, h₂, h⟩ := bind_eq_ok.mp h
  obtain ⟨-, ok₁, g₁, -⟩ := (allocBytes_spec hok (by omega)).of_ok h₁
  obtain ⟨-, ok₂, g₂, -⟩ := (allocBytes_spec ok₁ (by omega)).of_ok h₂
  split_ifs at h
  obtain ⟨⟨pages₁, ph₁⟩, -, h⟩ := bind_eq_ok.mp h
  obtain ⟨n, -, h⟩ := bind_eq_ok.mp h
  obtain ⟨⟨flags₁, m⟩, -, h⟩ := bind_eq_ok.mp h
  cases h
  exact ⟨ok₂, g₁.trans g₂⟩

theorem allocPointers_moves {n : Nat} {heap heap' : Heap} (hok : HeapOk heap)
    (h : allocPointers n heap = .ok heap') : HeapMoves heap heap' :=
  ((allocPointers_ends hok n).of_ok h).1

theorem schedulerBuildUserInitialStack_moves {pages : List Nat} {argv envp : ExecVec}
    {ph ph' : Phys} {heap heap' : Heap} (hok : HeapOk heap) {start : UserStart}
    (h : schedulerBuildUserInitialStack pages argv envp ph heap = .ok (start, ph', heap')) :
    HeapMoves heap heap' := by
  unfold schedulerBuildUserInitialStack at h
  obtain ⟨stackPhys, -, h⟩ := bind_eq_ok.mp h
  obtain ⟨heap₁, h₁, h⟩ := bind_eq_ok.mp h
  obtain ⟨heap₂, h₂, h⟩ := bind_eq_ok.mp h
  obtain ⟨⟨envPtrs, off₁, m₁⟩, -, h⟩ := bind_eq_ok.mp h
  obtain ⟨⟨argPtrs, off₂, m₂⟩, -, h⟩ := bind_eq_ok.mp h
  obtain ⟨m₃, -, h⟩ := bind_eq_ok.mp h
  obtain ⟨m₄, -, h⟩ := bind_eq_ok.mp h
  obtain ⟨m₅, -, h⟩ := bind_eq_ok.mp h
  cases h
  have hm₁ := allocPointers_moves hok h₁
  exact hm₁.trans (allocPointers_moves hm₁.1 h₂)

theorem schedulerInstallUserImage_moves {v : VmmState} {root : Nat} {img : Image}
    {argv envp : ExecVec} {ph ph' : Phys} {heap heap' : Heap} {im : UserImage}
    (hok : HeapOk heap) (hv : elfValidateUserImage img = .ok true)
    (h : schedulerInstallUserImage v root img argv envp ph heap = .ok (im, ph', heap')) :
    HeapMoves heap heap' := by
  unfold schedulerInstallUserImage at h
  obtain ⟨⟨pages, flags, ph₁, heap₁⟩, h₁, h⟩ := bind_eq_ok.mp h
  obtain ⟨⟨start, ph₂, heap₂⟩, h₂, h⟩ := bind_eq_ok.mp h
  obtain ⟨ph₃, -, h⟩ := bind_eq_ok.mp h
  obtain ⟨image, -, h⟩ := bind_eq_ok.mp h
  cases h
  have hm₁ := schedulerPrepareUserImagePages_moves hok hv h₁
  exact hm₁.trans (schedulerBuildUserInitialStack_moves hm₁.1 h₂)

theorem replaceUserImage_moves {v : VmmState} {root : Nat} {userBase : Int} {oldPages : List Nat}
    {n : Nat} {img : Image} {argv envp : ExecVec} {ph ph' : Phys} {heap heap' : Heap}
    {im : UserImage} (hok : HeapOk heap) (hv : elfValidateUserImage img = .ok true)
    (h : replaceUserImage v root userBase oldPages n img argv envp ph heap =
      .ok (im, ph', heap')) : HeapMoves heap heap' := by
  unfold replaceUserImage at h
  obtain ⟨⟨pages, flags, ph₁, heap₁⟩, h₁, h⟩ := bind_eq_ok.mp h
  obtain ⟨⟨start, ph₂, heap₂⟩, h₂, h⟩ := bind_eq_ok.mp h
  obtain ⟨ph₃, -, h⟩ := bind_eq_ok.mp h
  obtain ⟨ph₄, -, h⟩ := bind_eq_ok.mp h
  obtain ⟨image, -, h⟩ := bind_eq_ok.mp h
  cases h
  have hm₁ := schedulerPrepareUserImagePages_moves hok hv h₁
  exact hm₁.trans (schedulerBuildUserInitialStack_moves hm₁.1 h₂)

/-- The heap after a step of a new task: sound, larger, and unchanged below the old pointer. -/
structure HeapExtends (heap heap' : Heap) : Prop where
  ok : HeapOk heap'
  ptr_le : heap.ptr ≤ heap'.ptr
  stop : heap'.stop = heap.stop
  below : ∀ x < heap.ptr, heap'.mem x = heap.mem x

theorem HeapExtends.of_moves {heap heap' : Heap} (h : HeapMoves heap heap') :
    HeapExtends heap heap' :=
  ⟨h.1, h.2.ptr_le, h.2.stop, fun _ _ => congrFun h.2.mem _⟩

theorem HeapExtends.trans {h₁ h₂ h₃ : Heap} (a : HeapExtends h₁ h₂) (b : HeapExtends h₂ h₃) :
    HeapExtends h₁ h₃ :=
  ⟨b.ok, a.ptr_le.trans b.ptr_le, b.stop.trans a.stop,
    fun x hx => (b.below x (hx.trans_le a.ptr_le)).trans (a.below x hx)⟩

/-- The two blocks of a new task, with a context in them. -/
structure ContextBlocks (heap : Heap) (ctxPtr stackBase : Nat) (heap' : Heap) : Prop where
  extended : HeapExtends heap heap'
  start : heap.ptr ≤ ctxPtr
  context : ctxPtr % 16 = 0 ∧ 0 < ctxPtr ∧ ctxPtr + 56 ≤ stackBase
  stack : stackBase % 16 = 0
  stop : stackBase + 4096 ≤ heap'.ptr
  ptr_lt : heap'.ptr < heap.ptr + 4200

/-- The body of both `scheduler_prepare_*_task_context`. -/
theorem prepareContext_spec {heap : Heap} (hok : HeapOk heap)
    (trampoline rbx rbp r12 r13 r14 : UInt64) :
    Ends (do
        let (ctxPtr, stackBase, heap) ← allocTaskBlocks heap
        let m ← configureContext heap.mem ctxPtr stackBase trampoline rbx rbp r12 r13 r14
        .ok (ctxPtr, stackBase, { heap with mem := m }))
      (fun r => ContextBlocks heap r.1 r.2.1 r.2.2) (fun _ => heap.stop < heap.ptr + 4200) := by
  refine ends_bind (allocTaskBlocks_spec hok) ?_
  rintro ⟨ctxPtr, stackBase, heap₁⟩ ⟨hmoves, hlo, hc16, h0, hd, hs, hhi, hlt⟩
  dsimp only at hmoves hlo hc16 h0 hd hs hhi hlt ⊢
  obtain ⟨m, hm, -, -, hout⟩ := configureContext_spec (m := heap₁.mem) trampoline rbx rbp
    r12 r13 r14 hc16 h0 hd hs
  rw [hm, ok_bind, ends_ok]
  refine ⟨⟨hmoves.1.withMem m, hmoves.2.ptr_le, hmoves.2.stop, fun x hx => ?_⟩, hlo,
    ⟨hc16, h0, hd⟩, hs, hhi, hlt⟩
  exact (hout x (Or.inl (by omega))).trans (congrFun hmoves.2.mem x)

/-- The row of a new user task. -/
structure NewRow (k : KernelState) (row : Task) (heap : Heap) : Prop where
  state : row.state = .runnable
  mode : row.mode = .user
  parent : row.parentPid = k.current
  base : row.userBase = userTaskRegionBase
  fresh : FreshBlocks k.heap.ptr heap.ptr row
  heap : HeapExtends k.heap heap

theorem buildUserTask_blocks {k : KernelState} (hok : HeapOk k.heap) {img : Image}
    {argv envp : ExecVec} {row : Task} {phys : Phys} {heap : Heap}
    (h : buildUserTask k img argv envp = .ok (row, phys, heap)) : NewRow k row heap := by
  unfold buildUserTask at h
  obtain ⟨⟨root, ph₁⟩, -, h⟩ := bind_eq_ok.mp h
  obtain ⟨⟨frame, heap₁⟩, h₁, h⟩ := bind_eq_ok.mp h
  obtain ⟨e₁, ok₁, g₁, b₁, -⟩ := (allocBytes_spec hok (by decide)).of_ok h₁
  obtain ⟨valid, hv, h⟩ := bind_eq_ok.mp h
  cases valid with
  | false => cases h
  | true =>
  obtain ⟨⟨im, ph₂, heap₂⟩, h₂, h⟩ := bind_eq_ok.mp h
  have hm₂ := schedulerInstallUserImage_moves ok₁ hv h₂
  obtain ⟨⟨ctxPtr, stackBase, heap₃⟩, h₃, h⟩ := bind_eq_ok.mp h
  cases h
  have hb : ContextBlocks heap₂ ctxPtr stackBase heap :=
    (prepareContext_spec hm₂.1 _ _ _ _ _ _).of_ok h₃
  have hlo := hb.start
  dsimp only at e₁ b₁
  have hext : HeapExtends k.heap heap₂ := (HeapExtends.of_moves ⟨ok₁, g₁⟩).trans (.of_moves hm₂)
  have hp₂ : heap₁.ptr ≤ heap₂.ptr := hm₂.2.ptr_le
  unfold interruptFrameQwordCount at b₁
  refine ⟨rfl, rfl, rfl, rfl, ⟨⟨fun _ => ⟨?_, ?_, ?_⟩, hb.context, hb.stack⟩, ?_, hb.stop⟩,
    hext.trans hb.extended⟩
  · exact e₁ ▸ hok.aligned
  · exact e₁ ▸ hok.pos
  · dsimp only
    omega
  · exact e₁.ge

/-! ## The bootstrap tasks -/

theorem allocSchedulerTables_spec {heap : Heap} (hok : HeapOk heap) :
    Ends (allocSchedulerTables heap)
      (fun heap' => HeapMoves heap heap' ∧ heap'.ptr < heap.ptr + 2000)
      (fun _ => heap.stop < heap.ptr + 2000) := by
  unfold allocSchedulerTables
  refine ends_bind ((allocBytes_spec hok (by decide)).mono (fun _ h => h) fun _ h => by omega) ?_
  rintro ⟨p₁, heap₁⟩ ⟨-, ok₁, g₁, b₁, l₁⟩
  dsimp only at ok₁ g₁ b₁ l₁ ⊢
  have s₁ := g₁.stop
  refine ends_bind ((allocBytes_spec ok₁ (by decide)).mono (fun _ h => h) fun _ h => by omega) ?_
  rintro ⟨p₂, heap₂⟩ ⟨-, ok₂, g₂, b₂, l₂⟩
  dsimp only at ok₂ g₂ b₂ l₂ ⊢
  have s₂ := g₂.stop
  refine ends_bind ((allocBytes_spec ok₂ (by decide)).mono (fun _ h => h) fun _ h => by omega) ?_
  rintro ⟨p₃, heap₃⟩ ⟨-, ok₃, g₃, b₃, l₃⟩
  dsimp only at ok₃ g₃ b₃ l₃ ⊢
  exact ⟨⟨ok₃, (g₁.trans g₂).trans g₃⟩, by omega⟩

theorem ContextBlocks.kernelRow {heap heap' : Heap} {ctxPtr stackBase : Nat}
    (h : ContextBlocks heap ctxPtr stackBase heap') (cr3 : Nat) (fds : Fin 4 → Nat) :
    FreshBlocks heap.ptr heap'.ptr (kernelRow cr3 ctxPtr stackBase fds) :=
  ⟨⟨fun hm => (by cases hm), h.context, h.stack⟩, h.start, h.stop⟩

/-- What the bootstrap tasks find in the heap: one block of blocks after the other. -/
structure BootRows (M : Machine) (cr3 : Nat) (row0 row1 : Task) (heap : Heap) : Prop where
  extended : HeapExtends M.heap heap
  blocks : ∃ mid, FreshBlocks M.heap.ptr mid row0 ∧ FreshBlocks mid heap.ptr row1
  row0 : ∃ ctx stack fds, row0 = kernelRow cr3 ctx stack fds
  row1 : ∃ ctx stack fds, row1 = kernelRow cr3 ctx stack fds
  ptr_lt : heap.ptr < M.heap.ptr + 10400

/-- The descriptors of the bootstrap tasks. -/
def bootFds (v : VfsState) : Except String ((Fin 4 → Nat) × (Fin 4 → Nat) × VfsState) := do
  let (fds0, v) ← schedulerInitTaskFds v
  let (fds1, v) ← schedulerInitTaskFds v
  .ok (fds0, fds1, v)

theorem bootstrapRows_spec (M : Machine) (cr3 : Nat) :
    Ends (bootstrapRows M cr3)
      (fun r => BootRows M cr3 r.1 r.2.1 r.2.2.1 ∧
        bootFds M.vfs = .ok (r.1.fds, r.2.1.fds, r.2.2.2))
      (fun _ => M.heap.stop < M.heap.ptr + 10400 ∨ ∃ e, bootFds M.vfs = .error e) := by
  unfold bootstrapRows
  refine ends_bind ((allocSchedulerTables_spec M.heapOk).mono (fun _ h => h)
    fun _ h => Or.inl (by omega)) ?_
  rintro heap₁ ⟨m₁, l₁⟩
  have s₁ := m₁.2.stop
  refine ends_bind ((prepareContext_spec m₁.1 _ _ _ _ _ _).mono (fun _ h => h)
    fun _ h => Or.inl (by omega)) ?_
  rintro ⟨ctx0, stack0, heap₂⟩ b₂
  dsimp only at b₂ ⊢
  have s₂ := b₂.extended.stop
  have l₂ := b₂.ptr_lt
  refine ends_bind ((prepareContext_spec b₂.extended.ok _ _ _ _ _ _).mono (fun _ h => h)
    fun _ h => Or.inl (by omega)) ?_
  rintro ⟨ctx1, stack1, heap₃⟩ b₃
  dsimp only at b₃ ⊢
  have l₃ := b₃.ptr_lt
  unfold bootFds
  cases h0 : schedulerInitTaskFds M.vfs with
  | error e => exact Or.inr ⟨e, rfl⟩
  | ok r =>
  obtain ⟨fds0, vfs0⟩ := r
  rw [ok_bind, ok_bind]
  dsimp only
  cases h1 : schedulerInitTaskFds vfs0 with
  | error e => exact Or.inr ⟨e, rfl⟩
  | ok r =>
  obtain ⟨fds1, vfs1⟩ := r
  rw [ok_bind, ok_bind, ends_ok]
  have f₂ := b₂.kernelRow cr3 fds0
  refine ⟨⟨((HeapExtends.of_moves m₁).trans b₂.extended).trans b₃.extended,
    ⟨heap₂.ptr, ⟨f₂.blocks, m₁.2.ptr_le.trans f₂.start, f₂.stop⟩, b₃.kernelRow cr3 fds1⟩,
    ⟨ctx0, stack0, fds0, rfl⟩, ⟨ctx1, stack1, fds1, rfl⟩, by dsimp only; omega⟩, rfl⟩

end PcoOs.Kernel
