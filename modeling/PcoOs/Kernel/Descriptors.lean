/-
  Who owns the descriptors, over whole runs. A slot of the task table holds the id of an open
  descriptor that no other slot holds, and every open descriptor is in a slot, except the one
  `vfs_self_test` left open before there were tasks (`FdInv`, an instance of `Owns`). So closing
  or reaping touches no descriptor of another task, and there are always three free descriptors
  for a new task (`descriptors_owned`). `Reachable.vfs` links the runs of the kernel to those of
  the file system.
-/
import PcoOs.Kernel.Ready
import PcoOs.Lib.Handles
import PcoOs.Vfs.Files

namespace PcoOs.Kernel

open PcoOs.Lib PcoOs.Pmm PcoOs.Support PcoOs.Vmm PcoOs.Elf PcoOs.Image PcoOs.Sched PcoOs.Vfs
  PcoOs.Syscall

/-- A descriptor slot of a task. -/
abbrev Slot := TaskId × Fin 4

/-- The id in a slot, 0 for none. -/
def heldDesc (k : KernelState) (s : Slot) : Nat := (k.task s.1).fds s.2

/-- The slots of task `t` replaced. -/
def setSlots (held : Slot → Nat) (t : TaskId) (fds : Fin 4 → Nat) : Slot → Nat :=
  fun s => if s.1 = t then fds s.2 else held s

/-! ## The descriptors of a new task -/

section Slots

variable {base : Finset Nat} {v v' : VfsState} {held : Slot → Nat} {t : TaskId}

theorem setSlots_eq (held : Slot → Nat) (t : TaskId) (fds : Fin 4 → Nat) :
    setSlots held t fds = Function.update (Function.update (Function.update (Function.update held
      (t, 0) (fds 0)) (t, 1) (fds 1)) (t, 2) (fds 2)) (t, 3) (fds 3) := by
  funext ⟨u, fd⟩
  unfold setSlots Function.update
  by_cases hu : u = t
  · subst hu
    fin_cases fd <;> simp
  · simp [hu]

/-- A console descriptor is allocated unless all are open. -/
theorem vfsAllocDescriptor_owns (h : Owns base (openDescs v) held) {s : Slot} (hs : held s = 0)
    {desc : Desc} (hk : desc.kind ≠ .closed) {d : Nat} (he : vfsAllocDescriptor v desc = (d, v')) :
    (d ≠ 0 ∧ Owns base (openDescs v') (Function.update held s d) ∧
        (openDescs v').card = (openDescs v).card + 1) ∨
      (d = 0 ∧ (openDescs v).card = maxVfsDescriptors) := by
  rcases vfsAllocDescriptor_spec v desc with ⟨hfull, h'⟩ | ⟨id, h1, h32, hclosed, h'⟩
  · cases he.symm.trans h'
    exact Or.inr ⟨rfl, descsFull_card hfull⟩
  · cases he.symm.trans h'
    have hfresh : d ∉ openDescs v := fun hm => (mem_openDescs.mp hm).2 hclosed
    rw [openDescs_set h1 h32 hk]
    exact Or.inl ⟨by omega, h.acquire hs hfresh (by omega), Finset.card_insert_of_notMem hfresh⟩

/-- A new task gets three descriptors of its own, unless too few are closed. -/
theorem schedulerInitTaskFds_owns (h : Owns base (openDescs v) held) (ht : ∀ fd, held (t, fd) = 0) :
    Ends (schedulerInitTaskFds v) (fun r => Owns base (openDescs r.2) (setSlots held t r.1))
      (fun _ => maxVfsDescriptors < (openDescs v).card + 3) := by
  unfold schedulerInitTaskFds vfsAllocConsoleInDescriptor vfsAllocConsoleOutDescriptor
  obtain ⟨⟨d₀, v₀⟩, e₀⟩ : ∃ r, vfsAllocDescriptor v ⟨.consoleIn, 0, 0, 0, []⟩ = r := ⟨_, rfl⟩
  rw [e₀]
  obtain ⟨⟨d₁, v₁⟩, e₁⟩ : ∃ r, vfsAllocDescriptor v₀ ⟨.consoleOut, 0, 0, 0, []⟩ = r := ⟨_, rfl⟩
  dsimp only
  rw [e₁]
  obtain ⟨⟨d₂, v₂⟩, e₂⟩ : ∃ r, vfsAllocDescriptor v₁ ⟨.consoleOut, 0, 0, 0, []⟩ = r := ⟨_, rfl⟩
  dsimp only
  rw [e₂]
  dsimp only
  split_ifs with hzero
  · -- one of the three allocations found all descriptors open
    show maxVfsDescriptors < (openDescs v).card + 3
    obtain ⟨n₀, o₀, c₀⟩ | ⟨-, c₀⟩ := vfsAllocDescriptor_owns h (ht 0) (fun h => by cases h) e₀
    · obtain ⟨n₁, o₁, c₁⟩ | ⟨-, c₁⟩ := vfsAllocDescriptor_owns o₀ (s := (t, 1)) (by simp [ht])
        (fun h => by cases h) e₁
      · obtain ⟨n₂, -, -⟩ | ⟨-, c₂⟩ := vfsAllocDescriptor_owns o₁ (s := (t, 2)) (by simp [ht])
          (fun h => by cases h) e₂
        · exact absurd hzero (by tauto)
        · omega
      · omega
    · omega
  · rw [not_or, not_or] at hzero
    obtain ⟨-, o₀, -⟩ | ⟨z, -⟩ := vfsAllocDescriptor_owns h (ht 0) (fun h => by cases h) e₀
    swap
    · exact absurd z hzero.1
    obtain ⟨-, o₁, -⟩ | ⟨z, -⟩ := vfsAllocDescriptor_owns o₀ (s := (t, 1)) (by simp [ht])
      (fun h => by cases h) e₁
    swap
    · exact absurd z hzero.2.1
    obtain ⟨-, o₂, -⟩ | ⟨z, -⟩ := vfsAllocDescriptor_owns o₁ (s := (t, 2)) (by simp [ht])
      (fun h => by cases h) e₂
    swap
    · exact absurd z hzero.2.2
    have hlast := Function.update_eq_self (t, 3)
      (Function.update (Function.update (Function.update held (t, 0) d₀) (t, 1) d₁) (t, 2) d₂)
    rw [show Function.update (Function.update (Function.update held (t, 0) d₀) (t, 1) d₁) (t, 2) d₂
      (t, 3) = 0 by simp [ht]] at hlast
    rw [ends_ok, setSlots_eq]
    rw [← hlast] at o₂
    exact o₂

/-- A slot is emptied by closing its descriptor. -/
theorem closeIfOpen_owns (h : Owns base (openDescs v) held) {fds : Fin 4 → Nat} {fd : Fin 4}
    (hs : held (t, fd) = fds fd) (he : closeIfOpen fds fd v = .ok v') :
    Owns base (openDescs v') (Function.update held (t, fd) 0) ∧
      ∀ id, fds fd ≠ id → v'.desc id = v.desc id := by
  unfold closeIfOpen at he
  split_ifs at he with h0
  · obtain ⟨⟨r, v₁⟩, hc, he⟩ := bind_eq_ok.mp he
    cases he
    have hmem : fds fd ∈ openDescs v := hs ▸ h.held_live (t, fd) (hs.symm ▸ h0)
    cases (vfsCloseDescriptor_open hmem).symm.trans hc
    rw [openDescs_close, ← hs]
    exact ⟨h.release (hs.symm ▸ h0), fun id hid => Function.update_of_ne (Ne.symm hid) ..⟩
  · cases he
    rw [not_not] at h0
    rw [show (0 : Nat) = held (t, fd) by rw [hs, h0], Function.update_eq_self]
    exact ⟨h, fun _ _ => rfl⟩

/-- All slots of a task are emptied; no other descriptor changes. -/
theorem schedulerReleaseTaskFds_owns (h : Owns base (openDescs v) held)
    (he : schedulerReleaseTaskFds (fun fd => held (t, fd)) v = .ok v') :
    Owns base (openDescs v') (setSlots held t fun _ => 0) ∧
      ∀ id, (∀ fd, held (t, fd) ≠ id) → v'.desc id = v.desc id := by
  unfold schedulerReleaseTaskFds at he
  obtain ⟨v₀, e₀, he⟩ := bind_eq_ok.mp he
  obtain ⟨v₁, e₁, he⟩ := bind_eq_ok.mp he
  obtain ⟨v₂, e₂, e₃⟩ := bind_eq_ok.mp he
  obtain ⟨o₀, k₀⟩ := closeIfOpen_owns h rfl e₀
  obtain ⟨o₁, k₁⟩ := closeIfOpen_owns o₀ (t := t) (by simp) e₁
  obtain ⟨o₂, k₂⟩ := closeIfOpen_owns o₁ (t := t) (by simp) e₂
  obtain ⟨o₃, k₃⟩ := closeIfOpen_owns o₂ (t := t) (by simp) e₃
  rw [setSlots_eq]
  exact ⟨o₃, fun id hid => (k₃ id (hid 3)).trans ((k₂ id (hid 2)).trans
    ((k₁ id (hid 1)).trans (k₀ id (hid 0))))⟩

/-- The slots of the other seven tasks. -/
theorem card_otherSlots (t : TaskId) : (Finset.univ.filter fun s : Slot => s.1 ≠ t).card = 28 := by
  revert t
  decide

/-- With one descriptor lost and four for each of seven tasks there are three left. -/
theorem schedulerInitTaskFds_returns (h : Owns base (openDescs v) held) (hb : base.card ≤ 1)
    (ht : ∀ fd, held (t, fd) = 0) : ∃ r, schedulerInitTaskFds v = .ok r := by
  have hcard := h.card_le (Finset.univ.filter fun s : Slot => s.1 ≠ t) fun s hs => by
    refine Finset.mem_filter.mpr ⟨Finset.mem_univ s, ?_⟩
    rintro rfl
    exact hs (ht s.2)
  have hused := card_otherSlots t
  obtain ⟨r, hr, -⟩ := (schedulerInitTaskFds_owns h ht).exists_ok fun _ he => by
    unfold maxVfsDescriptors at he
    omega
  exact ⟨r, hr⟩

end Slots

/-! ## The invariant -/

structure FdInv (M : Machine) (k : KernelState) : Prop where
  owns : Owns (openDescs M.vfs) (openDescs k.vfs) (heldDesc k)
  empty : ∀ t, (k.task t).state = .empty → ∀ fd, (k.task t).fds fd = 0

section Step

variable {M : Machine} {k k' : KernelState} {a : Act}

/-- A step that leaves descriptors and slots alone. -/
theorem FdInv.same (h : FdInv M k) (hv : k'.vfs = k.vfs)
    (hrow : ∀ t, (k'.task t).fds = (k.task t).fds)
    (hempty : ∀ t, (k'.task t).state = .empty → (k.task t).state = .empty) : FdInv M k' := by
  refine ⟨?_, fun t ht => hrow t ▸ h.empty t (hempty t ht)⟩
  have hheld : heldDesc k' = heldDesc k := funext fun s => congrFun (hrow s.1) s.2
  rw [hv, hheld]
  exact h.owns

/-- A step that only sets the row of the current task, with the same descriptors. -/
theorem FdInv.setRow (h : FdInv M k) (row : Task) (hf : row.fds = (k.task k.current).fds)
    (hs : row.state = (k.task k.current).state) (hv : k'.vfs = k.vfs)
    (htask : k'.sched.task = (k.sched.setTask k.current row).task) : FdInv M k' := by
  have hcases : ∀ t, k'.task t = if t = k.current then row else k.task t := fun t => by
    unfold KernelState.task
    rw [htask, setTask_task]
  refine h.same hv (fun t => ?_) fun t ht => ?_
  · rw [hcases]
    split_ifs with hc
    · rw [hc, hf]
    · rfl
  · rw [hcases] at ht
    split_ifs at ht with hc
    · rwa [hc, ← hs]
    · exact ht

/-- Both halves of the invariant after a step that replaces the slots of task `t`. -/
theorem FdInv.setSlots (h : FdInv M k) {t : TaskId} {fds : Fin 4 → Nat} (row : Task)
    (ho : Owns (openDescs M.vfs) (openDescs k'.vfs) (setSlots (heldDesc k) t fds))
    (htask : ∀ u, k'.task u = if u = t then row else k.task u) (hf : row.fds = fds)
    (hempty : row.state = .empty → ∀ fd, fds fd = 0) : FdInv M k' := by
  refine ⟨?_, fun u hu => ?_⟩
  · have hheld : heldDesc k' = Kernel.setSlots (heldDesc k) t fds := by
      funext ⟨u, fd⟩
      unfold heldDesc Kernel.setSlots
      rw [htask]
      split_ifs with hc
      · rw [hf]
      · rfl
    rw [hheld]
    exact ho
  · rw [htask] at hu ⊢
    split_ifs at hu ⊢ with hc
    · rw [hf]
      exact hempty hu
    · exact h.empty u hu

/-- A file call of the current task. -/
theorem FdInv.files (hk : KernelOk k) (h : FdInv M k) (hd : FileDone k k') : FdInv M k' := by
  have hcur := hk.current_present
  obtain ⟨vfs, heap, fds, hshape⟩ := hd.shape
  have htask : ∀ u, k'.task u =
      if u = k.current then { k.task k.current with fds := fds } else k.task u := fun u => by
    rw [hshape]
    exact setTask_task ..
  have hfds : (k'.task k.current).fds = fds := by rw [htask, if_pos rfl]
  have hchange := hd.fds
  rw [hfds] at hchange
  have hupdate : ∀ fd d, fds = Function.update (k.task k.current).fds fd d →
      Kernel.setSlots (heldDesc k) k.current fds =
        Function.update (heldDesc k) (k.current, fd) d := by
    rintro fd d rfl
    funext ⟨u, fd'⟩
    unfold Kernel.setSlots heldDesc Function.update
    by_cases hu : u = k.current
    · subst hu
      simp
    · simp [hu]
  refine h.setSlots _ ?_ htask rfl fun he => absurd he hcur
  cases hchange with
  | same hl hf =>
    have hheld : Kernel.setSlots (heldDesc k) k.current fds = heldDesc k := by
      rw [hupdate 0 ((k.task k.current).fds 0) (by rw [Function.update_eq_self, hf])]
      exact Function.update_eq_self (k.current, 0) (heldDesc k)
    rw [hl, hheld]
    exact h.owns
  | @acquire d fd hfresh h0 hfree hl hf =>
    rw [hl, hupdate _ _ hf]
    exact h.owns.acquire (i := (k.current, fd)) hfree hfresh h0
  | @release fd h0 hl hf =>
    rw [hl, hupdate _ _ hf]
    exact h.owns.release (i := (k.current, fd)) h0

theorem FdInv.step (hk : KernelOk k) (h : FdInv M k) (he : Effect k a k') : FdInv M k' := by
  cases he with
  | tick now => exact h.same rfl (fun _ => rfl) fun _ ht => ht
  | brk b =>
    exact h.setRow { k.task k.current with heapBreak := b } rfl rfl rfl rfl
  | files hd hm =>
    have hd' := h.files hk hd
    exact hd'.same rfl (fun _ => rfl) fun _ ht => ht
  | stack hm => exact h.same rfl (fun _ => rfl) fun _ ht => ht
  | stay now q => exact h.same rfl (fun _ => rfl) fun _ ht => ht
  | leave now hne q => exact h.same rfl (fun _ => rfl) fun _ ht => ht
  | @spawn img argv envp t row phys heap vfs fds q ht hb hh hq hf =>
    have hfree : ∀ fd, heldDesc k (t, fd) = 0 := h.empty t ht
    refine h.setSlots { row with fds := fds } ((schedulerInitTaskFds_owns h.owns hfree).of_ok hf)
      (fun u => publishTask_task u) rfl fun he => ?_
    have hstate : row.state = .runnable := (buildUserTask_blocks hk.heap hb).state
    cases hstate.symm.trans he
  | @exec img argv envp im =>
    exact h.setRow { k.task k.current with
      userPages := im.pages, userPageCount := im.pageCount, userLimit := im.limit,
      heapBase := im.heapBase, heapLimit := im.heapLimit, heapBreak := im.heapBreak }
      rfl rfl rfl rfl
  | @exit exitCode regs ha hc next hne q hq m hs =>
    refine h.same rfl (fun t => ?_) fun t ht => ?_
    · show ((exitCurrent k.sched exitCode).task t).fds = (k.sched.task t).fds
      rw [exitCurrent_row]
    · have hstate := exitCurrent_task k.sched exitCode t
      split_ifs at hstate
      · cases hstate.symm.trans ht
      · exact hstate.symm.trans ht
  | @reap wait t hw ht phys vfs hd hf =>
    refine h.setSlots clearTask (schedulerReleaseTaskFds_owns h.owns hf).1
      (fun u => releaseRow_task _ _ _) rfl fun _ _ => rfl

/-! ## The file system below -/

/-- The heap pointer only moves up. -/
theorem Effect.heapUsed (hk : KernelOk k) (he : Effect k a k') : HeapUsed k.heap k'.heap := by
  have hok := (he.kernelOk hk).heap
  cases he with
  | tick now => exact ⟨hok, le_refl _, rfl⟩
  | brk b => exact ⟨hok, le_refl _, rfl⟩
  | files hd hm => exact hd.heap.used
  | stack hm => exact ⟨hok, le_refl _, rfl⟩
  | stay now q => exact ⟨hok, le_refl _, rfl⟩
  | leave now hne q => exact ⟨hok, le_refl _, rfl⟩
  | spawn q ht hb =>
    have hnew := buildUserTask_blocks hk.heap hb
    exact ⟨hok, hnew.heap.ptr_le, hnew.heap.stop⟩
  | exec hm hv hr =>
    have hmoves := replaceUserImage_moves hk.heap hv hr
    exact ⟨hok, hmoves.2.ptr_le, hmoves.2.stop⟩
  | exit => exact ⟨hok, le_refl _, rfl⟩
  | reap => exact ⟨hok, le_refl _, rfl⟩

theorem schedulerInitTaskFds_reach {v v' : VfsState} {h : Heap} (hs : VfsReachable (v, h))
    {fds : Fin 4 → Nat} (he : schedulerInitTaskFds v = .ok (fds, v')) : VfsReachable (v', h) := by
  unfold schedulerInitTaskFds at he
  dsimp only at he
  split_ifs at he
  cases he
  exact hs.consoleIn.consoleOut.consoleOut

theorem closeIfOpen_reach {v v' : VfsState} {h : Heap} (hs : VfsReachable (v, h))
    {fds : Fin 4 → Nat} {fd : Fin 4} (he : closeIfOpen fds fd v = .ok v') :
    VfsReachable (v', h) := by
  unfold closeIfOpen at he
  split_ifs at he
  · obtain ⟨⟨r, v₁⟩, hc, he⟩ := bind_eq_ok.mp he
    cases he
    exact hs.close hc
  · cases he
    exact hs

theorem schedulerReleaseTaskFds_reach {v v' : VfsState} {h : Heap} (hs : VfsReachable (v, h))
    {fds : Fin 4 → Nat} (he : schedulerReleaseTaskFds fds v = .ok v') : VfsReachable (v', h) := by
  unfold schedulerReleaseTaskFds at he
  obtain ⟨v₀, e₀, he⟩ := bind_eq_ok.mp he
  obtain ⟨v₁, e₁, he⟩ := bind_eq_ok.mp he
  obtain ⟨v₂, e₂, e₃⟩ := bind_eq_ok.mp he
  have s₀ := closeIfOpen_reach hs e₀
  have s₁ := closeIfOpen_reach s₀ e₁
  have s₂ := closeIfOpen_reach s₁ e₂
  exact closeIfOpen_reach s₂ e₃

/-- A step of the kernel is a run of the file system. -/
theorem Effect.vfsReachable (hk : KernelOk k) (hs : VfsReachable (k.vfs, k.heap))
    (he : Effect k a k') : VfsReachable (k'.vfs, k'.heap) := by
  have hused := he.heapUsed hk
  cases he with
  | tick now => exact hs
  | brk b => exact hs
  | files hd hm => exact hd.reach hs
  | stack hm => exact hs.use hused
  | stay now q => exact hs
  | leave now hne q => exact hs.use hused
  | spawn q ht hb hh hq hf => exact (schedulerInitTaskFds_reach hs hf).use hused
  | exec => exact hs.use hused
  | exit => exact hs.use hused
  | reap hw ht hd hf => exact schedulerReleaseTaskFds_reach hs hf

end Step

/-! ## Boot -/

/-- What `kernel_main` hands to `init_scheduler`: files from `init_vfs`, on an image without negative
    lengths, after `vfs_self_test`. -/
def Machine.FilesReady (M : Machine) : Prop :=
  ∃ (m : Mem) (ptr size : Int) (heap : Heap) (v : VfsState) (h h₁ : Heap), HeapOk heap ∧
    LengthsOk m ptr size ∧ initVfs m ptr size heap = .ok (v, h) ∧ vfsSelfTest v h = .ok (M.vfs, h₁) ∧
    HeapUsed h₁ M.heap

section Runs

variable {M : Machine} {k : KernelState}

theorem Machine.FilesReady.started (hM : M.FilesReady) :
    VfsReachable (M.vfs, M.heap) ∧ ∃ d, openDescs M.vfs = {d} := by
  obtain ⟨m, ptr, size, heap, v, h, h₁, hok, hlens, hinit, htest, hused⟩ := hM
  obtain ⟨hs, hd⟩ := vfsSelfTest_spec (.init hok hlens hinit) (openDescs_initVfs hok hlens hinit)
    htest
  exact ⟨hs.use hused, hd⟩

theorem Machine.FilesReady.card_le (hM : M.FilesReady) : (openDescs M.vfs).card ≤ 1 := by
  obtain ⟨d, hd⟩ := hM.started.2
  rw [hd, Finset.card_singleton]

/-- There are descriptors for both bootstrap tasks. -/
theorem Machine.FilesReady.bootFds (hM : M.FilesReady) : ∃ r, bootFds M.vfs = .ok r := by
  have hbase : Owns (openDescs M.vfs) (openDescs M.vfs) fun _ : Slot => 0 :=
    owns_base (zero_notMem_openDescs M.vfs)
  obtain ⟨⟨fds0, v⟩, h0⟩ := schedulerInitTaskFds_returns (t := 0) hbase hM.card_le fun _ => rfl
  have hown := (schedulerInitTaskFds_owns (t := 0) hbase fun _ => rfl).of_ok h0
  obtain ⟨⟨fds1, v'⟩, h1⟩ := schedulerInitTaskFds_returns (t := 1) hown hM.card_le fun _ => rfl
  refine ⟨(fds0, fds1, v'), ?_⟩
  unfold Kernel.bootFds
  dsimp only at h1
  rw [h0, ok_bind]
  dsimp only
  rw [h1]
  rfl

theorem Booted.fdInv (h : Booted M k) : FdInv M k := by
  obtain ⟨row0, row1, hrows, htask⟩ := h.rows
  obtain ⟨c0, s0, f0, h0⟩ := hrows.row0
  obtain ⟨c1, s1, f1, h1⟩ := hrows.row1
  have hrow : ∀ t, k.task t = if t = 0 then row0 else if t = 1 then row1 else clearTask :=
    fun t => congrFun htask t
  obtain ⟨⟨fds0, v⟩, e0, hf⟩ := bind_eq_ok.mp h.fds
  obtain ⟨⟨fds1, v'⟩, e1, hf⟩ := bind_eq_ok.mp hf
  have hbase : Owns (openDescs M.vfs) (openDescs M.vfs) fun _ : Slot => 0 :=
    owns_base (zero_notMem_openDescs M.vfs)
  have hown := (schedulerInitTaskFds_owns (t := 0) hbase fun _ => rfl).of_ok e0
  have hown' := (schedulerInitTaskFds_owns (t := 1) hown fun _ => rfl).of_ok e1
  obtain ⟨rfl, rfl, rfl⟩ : fds0 = (k.task 0).fds ∧ fds1 = (k.task 1).fds ∧ v' = k.vfs := by
    simpa using hf
  have hheld : heldDesc k =
      Kernel.setSlots (Kernel.setSlots (fun _ => 0) 0 (k.task 0).fds) 1 (k.task 1).fds := by
    funext ⟨t, fd⟩
    unfold heldDesc Kernel.setSlots
    dsimp only
    split_ifs with h1 h0
    · rw [h1]
    · rw [h0]
    · rw [hrow, if_neg h0, if_neg h1]
      rfl
  refine ⟨?_, fun t ht => ?_⟩
  · rw [hheld]
    exact hown'
  · unfold KernelState.task at ht ⊢
    rw [htask] at ht ⊢
    revert ht
    refine bootstrapSched_task (P := fun row => row.state = .empty → ∀ fd, row.fds fd = 0) ?_ ?_ ?_ t
    · rw [h0]
      exact fun hc => by cases hc
    · rw [h1]
      exact fun hc => by cases hc
    · exact fun _ _ => rfl

theorem ReachableBy.fdInv {P : KernelState → Act → Prop} (h : ReachableBy M P k) : FdInv M k :=
  h.effects (fun _ hb => hb.fdInv) fun _ _ _ hk _ he hi => hi.step hk he

theorem Booted.vfsReachable (hM : M.FilesReady) (h : Booted M k) :
    VfsReachable (k.vfs, k.heap) := by
  obtain ⟨row0, row1, hrows, -⟩ := h.rows
  obtain ⟨⟨fds0, v⟩, e0, hf⟩ := bind_eq_ok.mp h.fds
  obtain ⟨⟨fds1, v'⟩, e1, hf⟩ := bind_eq_ok.mp hf
  have hs := schedulerInitTaskFds_reach (schedulerInitTaskFds_reach hM.started.1 e0) e1
  have hv : v' = k.vfs := congrArg (fun r => r.2.2) (Except.ok.inj hf)
  rw [hv] at hs
  exact hs.use ⟨hrows.extended.ok, hrows.extended.ptr_le, hrows.extended.stop⟩

/-- The file system of a reachable state is reachable by calls of its own. -/
theorem ReachableBy.vfs {P : KernelState → Act → Prop} (hM : M.FilesReady)
    (h : ReachableBy M P k) : VfsReachable (k.vfs, k.heap) :=
  h.effects (fun _ hb => hb.vfsReachable hM) fun _ _ _ hk _ he hi => he.vfsReachable hk hi

/-! ## The main result -/

/-- The tasks other than `t` hold what they held, and their descriptors are as they were. -/
def OthersKept (k k' : KernelState) (t : TaskId) : Prop :=
  ∀ u, u ≠ t → (k'.task u).fds = (k.task u).fds ∧
    ∀ fd, (k.task u).fds fd ≠ 0 → k'.vfs.desc ((k.task u).fds fd) = k.vfs.desc ((k.task u).fds fd)

theorem FdInv.othersKept_close (h : FdInv M k) {fd : Int} {r : Int} {bytes : Bytes}
    {k' : KernelState} (he : fileCall k (.close fd) = .ok (r, bytes, k')) :
    OthersKept k k' k.current := by
  unfold fileCall at he
  dsimp only at he
  split_ifs at he with hfd h0
  · cases he
    exact fun _ _ => ⟨rfl, fun _ _ => rfl⟩
  · have hmem := h.owns.held_live (k.current, ⟨fd.toNat, by omega⟩) h0
    have hclose := vfsCloseDescriptor_open hmem
    unfold heldDesc at hclose
    rw [hclose, ok_bind] at he
    dsimp only at he
    rw [if_neg (not_not.mpr rfl)] at he
    cases he
    intro u hu
    refine ⟨?_, fun fd' hfd' => ?_⟩
    · exact congrArg Task.fds ((setTask_task ..).trans (if_neg hu))
    · refine Function.update_of_ne (fun hc => hu ?_) ..
      exact congrArg Prod.fst (h.owns.inj (u, fd') (k.current, ⟨fd.toNat, by omega⟩) hfd' hc)
  · cases he
    exact fun _ _ => ⟨rfl, fun _ _ => rfl⟩

theorem FdInv.othersKept_userClose (h : FdInv M k) {fd : Int} {r : Int} {k' : KernelState}
    (he : userCall k (.close fd) = .ok (r, k')) : OthersKept k k' k.current := by
  unfold userCall userCallBytes at he
  obtain ⟨⟨r₁, bytes₁, k₁⟩, hc, he⟩ := bind_eq_ok.mp he
  obtain ⟨m, -, he⟩ := bind_eq_ok.mp he
  rw [if_neg (not_not.mpr (show (UserCall.close fd).accepted (k.task k.current) = true from rfl)),
    show (UserCall.close fd).fetch k.phys.mem k.phys.cr3 = .ok (.close fd) from rfl, ok_bind] at hc
  obtain ⟨⟨r₂, bytes₂, k₂⟩, hf, hc⟩ := bind_eq_ok.mp hc
  cases he
  have hkept := h.othersKept_close hf
  dsimp only at hc
  split_ifs at hc
  cases hc
  exact hkept

theorem FdInv.othersKept_reap (h : FdInv M k) {t : TaskId} {status : Int} {k' : KernelState}
    (he : reapTask k t = .ok (status, k')) : OthersKept k k' t := by
  unfold reapTask at he
  obtain ⟨phys, -, he⟩ := bind_eq_ok.mp he
  obtain ⟨vfs, hf, he⟩ := bind_eq_ok.mp he
  cases he
  have hkeep := (schedulerReleaseTaskFds_owns (t := t) h.owns ((orPanic_ends _).of_ok hf)).2
  intro u hu
  refine ⟨?_, fun fd hfd => hkeep _ fun fd' hc => hu ?_⟩
  · exact congrArg Task.fds ((releaseRow_task ..).trans (if_neg hu))
  · exact congrArg Prod.fst (h.owns.inj (u, fd) (t, fd') hfd hc.symm)

/-- Who owns which descriptor, what closing and reaping leave alone, and that a task can always
    be given descriptors: a panic of `spawn` has another reason. -/
structure DescriptorsOwned (M : Machine) (k : KernelState) : Prop where
  injective : ∀ s s', heldDesc k s ≠ 0 → heldDesc k s = heldDesc k s' → s = s'
  live : ∀ s, heldDesc k s ≠ 0 → 1 ≤ heldDesc k s ∧ heldDesc k s ≤ maxVfsDescriptors ∧
    (k.vfs.desc (heldDesc k s)).kind ≠ .closed
  owned : ∀ d, 1 ≤ d → d ≤ maxVfsDescriptors → (k.vfs.desc d).kind ≠ .closed →
    (M.vfs.desc d).kind ≠ .closed ∨ ∃ s, heldDesc k s = d
  kernelClose : ∀ fd k', act k (.kernelCall (.close fd)) = .ok k' → OthersKept k k' k.current
  userClose : ∀ fd k', act k (.userCall (.close fd)) = .ok k' → OthersKept k k' k.current
  reap : ∀ t status k', reapTask k t = .ok (status, k') → OthersKept k k' t
  spare : ∀ t, (k.task t).state = .empty → ∃ r, schedulerInitTaskFds k.vfs = .ok r
  spawn : ∀ img argv envp p, act k (.spawn img argv envp) = .error p →
    schedulerFindFreeTaskId k.sched = .error p ∨ orPanic (buildUserTask k img argv envp) = .error p

theorem FdInv.spare (hM : M.FilesReady) (h : FdInv M k) {t : TaskId}
    (ht : (k.task t).state = .empty) : ∃ r, schedulerInitTaskFds k.vfs = .ok r :=
  schedulerInitTaskFds_returns (t := t) h.owns hM.card_le (h.empty t ht)

theorem spawn_error (hk : KernelOk k)
    (hspare : ∀ t, (k.task t).state = .empty → ∃ r, schedulerInitTaskFds k.vfs = .ok r)
    {img : Image} {argv envp : ExecVec} {p : Panic} (he : act k (.spawn img argv envp) = .error p) :
    schedulerFindFreeTaskId k.sched = .error p ∨
      orPanic (buildUserTask k img argv envp) = .error p := by
  dsimp only [act] at he
  unfold schedulerCreateUserElfTask at he
  cases hslot : schedulerFindFreeTaskId k.sched with
  | error e =>
    rw [hslot, error_bind, error_bind] at he
    cases he
    exact Or.inl rfl
  | ok t =>
  rw [hslot, ok_bind] at he
  cases hb : orPanic (buildUserTask k img argv envp) with
  | error e =>
    rw [hb, error_bind, error_bind] at he
    cases he
    exact Or.inr rfl
  | ok r =>
  obtain ⟨row, phys, heap⟩ := r
  obtain ⟨⟨fds, vfs⟩, hf⟩ := hspare t ((schedulerFindFreeTaskId_spec hk.table).of_ok hslot)
  obtain ⟨q, hp, -⟩ := publishTask_eq hk.queue t { row with fds := fds }
  rw [hb, ok_bind, hf] at he
  unfold orPanic Except.mapError at he
  dsimp only at he
  rw [ok_bind, hp] at he
  cases he

theorem descriptors_owned (hM : M.FilesReady) : (∃ d, openDescs M.vfs = {d}) ∧
    (∃ r, bootFds M.vfs = .ok r) ∧ ∀ k, Reachable M k → DescriptorsOwned M k := by
  refine ⟨hM.started.2, hM.bootFds, fun k hr => ?_⟩
  have h : FdInv M k := hr.fdInv
  refine ⟨h.owns.inj, fun s hs => ?_, fun d h1 h32 hd => ?_, fun fd k' he => ?_, fun fd k' he => ?_,
    fun t status k' he => h.othersKept_reap he, fun t ht => h.spare hM ht,
    fun img argv envp p he => spawn_error hr.kernelOk (fun t ht => h.spare hM ht) he⟩
  · obtain ⟨⟨h1, h32⟩, hk⟩ := mem_openDescs.mp (h.owns.held_live s hs)
    exact ⟨h1, h32, hk⟩
  · rcases h.owns.owned d (mem_openDescs.mpr ⟨⟨h1, h32⟩, hd⟩) with hb | hs
    · exact Or.inl (mem_openDescs.mp hb).2
    · exact Or.inr hs
  · obtain ⟨⟨r, bytes, k₁⟩, hc, he⟩ := bind_eq_ok.mp he
    cases he
    exact h.othersKept_close ((orPanic_ends _).of_ok hc)
  · obtain ⟨⟨r, k₁⟩, hc, he⟩ := bind_eq_ok.mp he
    cases he
    exact h.othersKept_userClose ((orPanic_ends _).of_ok hc)

end Runs

/-! ## A machine with files -/

/-- `/hello.txt` and `/bin/hello`, of one byte each. -/
def helloEntries : List (Bytes × Bytes) :=
  [(helloPath, [104]), ([47, 98, 105, 110, 47, 104, 101, 108, 108, 111], [104])]

def helloMem : Mem := storeBytes (fun _ => 0) 4096 (buildImage helloEntries)

theorem lengthsOk_hello : LengthsOk helloMem 4096 (buildImage helloEntries).length :=
  lengthsOk_buildImage ⟨loadBytes_storeBytes _ _ _, by decide, by decide, by decide +kernel⟩
    (by decide)

/-- The file system before `init_scheduler`. -/
def helloFiles : Except String (VfsState × Heap) := do
  let (v, heap) ← initVfs helloMem 4096 (buildImage helloEntries).length smallMachine.heap
  vfsSelfTest v heap

def tmpY : Bytes := [47, 116, 109, 112, 47, 121]

/-- A machine that boots with these files, in which `/tmp/x` and `/tmp/y` can be made. -/
structure HelloMachine (M : Machine) : Prop where
  files : M.FilesReady
  boots : ¬ M.MayFail
  picks : M.picks = 0
  room : M.heap.ptr + 20000 ≤ M.heap.stop
  pages : M.pool.pages.card = 256
  count : M.vfs.nodes.length = 4
  makeX : openPlan M.vfs tmpX 1 = .create tmpX
  makeY : openPlan (addNode M.vfs (newFile tmpX)) tmpY 1 = .create tmpY

theorem exists_helloMachine : ∃ M, HelloMachine M := by
  obtain ⟨b, hb⟩ := exists_ok_of_isOk (x := do
    let s ← helloFiles
    if s.2.ptr + 20000 ≤ s.2.stop ∧ s.1.nodes.length = 4 ∧ openPlan s.1 tmpX 1 = .create tmpX ∧
      openPlan (addNode s.1 (newFile tmpX)) tmpY 1 = .create tmpY then .ok () else .error "")
    (by decide +kernel)
  obtain ⟨⟨v, h⟩, hs, hb⟩ := bind_eq_ok.mp hb
  split_ifs at hb with hcond
  obtain ⟨hroom, hcount, hx, hy⟩ := hcond
  obtain ⟨⟨v₀, h₀⟩, hinit, htest⟩ := bind_eq_ok.mp hs
  have hnone := openDescs_initVfs smallMachine.heapOk lengthsOk_hello hinit
  have hok := (vfsSelfTest_spec (.init smallMachine.heapOk lengthsOk_hello hinit) hnone htest).1.inv.heap
  let M : Machine := { smallMachine with heap := h, heapOk := hok, vfs := v }
  have hfiles : M.FilesReady := ⟨helloMem, 4096, _, smallMachine.heap, v₀, h₀, h,
    smallMachine.heapOk, lengthsOk_hello, hinit, htest, hok, le_refl _, rfl⟩
  obtain ⟨r, hr⟩ := hfiles.bootFds
  obtain ⟨s, hs, hf⟩ := initPmm_smallMap
  have hcard : M.pool.pages.card = 256 := smallMachine_pool
  dsimp only at hroom
  exact ⟨M, hfiles, Machine.boots hs (by omega) (by omega) rfl (show h.ptr + 10400 ≤ h.stop by omega)
    hr, rfl, hroom, hcard, hcount, hx, hy⟩

theorem descriptors_owned_hello : ∃ M k, M.FilesReady ∧ Reachable M k ∧ DescriptorsOwned M k := by
  obtain ⟨M, hM⟩ := exists_helloMachine
  obtain ⟨k, hboot, -⟩ := boot_ok hM.boots
  have hr : Reachable M k := .boot hboot
  exact ⟨M, k, hM.files, hr, (descriptors_owned hM.files).2.2 k hr⟩

end PcoOs.Kernel
