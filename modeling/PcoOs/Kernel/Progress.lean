/-
  When a step succeeds. `create_ok` says what creating a task needs (a slot, pages, early heap,
  descriptors, an image without surprises) and what it leaves; `yield_ok` names the next task.
  `smallMachine_runs` puts both to use: a machine whose current task is a user program.
-/
import PcoOs.Kernel.Spans
import PcoOs.Kernel.Lifecycle

namespace PcoOs.Kernel

open PcoOs.Lib PcoOs.Pmm PcoOs.Support PcoOs.Vmm PcoOs.Elf PcoOs.Image PcoOs.Sched PcoOs.Vfs
  PcoOs.Syscall

/-! ## Spawn -/

/-- Room for a task that runs `img`. -/
structure Room (k : KernelState) (img : Image) : Prop where
  slot : ∃ t, (k.task t).state = .empty
  pages : 76 ≤ k.phys.pmm.freePages
  heap : k.heap.ptr + 6600 ≤ k.heap.stop
  valid : elfValidateUserImage img = .ok true
  plain : Image.Plain img
  fds : ∃ r, schedulerInitTaskFds k.vfs = .ok r

/-- The state after a spawn into slot `t`. -/
structure Spawned (k : KernelState) (img : Image) (t : TaskId) (k' : KernelState) : Prop where
  slot : (k.task t).state = .empty
  user : IsUser (k'.task t)
  runnable : (k'.task t).state = .runnable
  image : k'.ghost.image t = img
  others : ∀ u, u ≠ t → k'.task u = k.task u
  queued : k'.sched.queued = k.sched.queued ++ [t]
  current : k'.current = k.current
  kont : k'.kont = Function.update k.kont t .run
  cr0Wp : k'.cr0Wp = k.cr0Wp
  fds : schedulerInitTaskFds k.vfs = .ok ((k'.task t).fds, k'.vfs)
  heap : k'.heap.ptr ≤ k.heap.ptr + 6600 ∧ k'.heap.stop = k.heap.stop

theorem create_ok {P : Pool} {k : KernelState} {sk : Shape} {S : TaskId → Shape} (hk : KernelOk k)
    (h : MemInv P k sk S) {img : Image} (hr : Room k img) (argv envp : ExecVec) :
    ∃ t k', schedulerCreateUserElfTask k img argv envp = .ok (t, k') ∧ Spawned k img t k' := by
  obtain ⟨t, hslot, ht⟩ := (schedulerFindFreeTaskId_spec hk.table).exists_ok fun _ he => by
    obtain ⟨u, hu⟩ := hr.slot
    exact he.2 u hu
  obtain ⟨⟨row, ph, heap⟩, hb, ⟨sh, hn⟩, hptr⟩ :=
    (buildUserTask_memory h.inv h.vmm hk.heap img argv envp).exists_ok fun _ he => by
      rcases he with he | he | he | he
      · exact absurd hr.pages (by omega)
      · exact absurd hr.heap (by omega)
      · exact he hr.plain
      · exact he hr.valid
  obtain ⟨⟨fds, vfs⟩, hf⟩ := hr.fds
  have hnew := buildUserTask_blocks hk.heap hb
  obtain ⟨q, hp, -, hq⟩ := publishTask_eq hk.queue t { row with fds := fds }
  unfold schedulerCreateUserElfTask
  rw [hslot, ok_bind, hb]
  unfold orPanic Except.mapError
  rw [ok_bind, hf]
  dsimp only
  rw [ok_bind, hp, ok_bind]
  have hrow : (({ k.sched.setTask t { row with fds := fds } with
      taskCount := max k.sched.taskCount (t.val + 1), queue := q } : SchedState).task t) =
      { row with fds := fds } := by
    show (k.sched.setTask t { row with fds := fds }).task t = _
    rw [setTask_task, if_pos rfl]
  refine ⟨t, _, rfl, ht, ?_, ?_, Function.update_self _ _ _, fun u hu => ?_, hq, rfl, rfl, rfl, ?_,
    hptr, hnew.heap.stop⟩
  · unfold KernelState.task
    rw [hrow]
    exact hn.user
  · unfold KernelState.task
    rw [hrow]
    exact hnew.state
  · show (k.sched.setTask t { row with fds := fds }).task u = k.sched.task u
    rw [setTask_task, if_neg hu]
  · unfold KernelState.task
    rw [hrow]
    exact hf

theorem spawn_ok {P : Pool} {k : KernelState} {sk : Shape} {S : TaskId → Shape} (hk : KernelOk k)
    (h : MemInv P k sk S) {img : Image} (hr : Room k img) (argv envp : ExecVec) :
    ∃ t k', act k (.spawn img argv envp) = .ok k' ∧ Spawned k img t k' := by
  obtain ⟨t, k', he, hs⟩ := create_ok hk h hr argv envp
  refine ⟨t, k', ?_, hs⟩
  dsimp only [act]
  rw [he, ok_bind]

/-! ## Yield -/

/-- A yield of a task that is not idle goes to the first queued task that is not. -/
theorem yield_ok {k : KernelState} (hk : KernelOk k) (hc : k.current ≠ 0) (regs : Ctx)
    {pre rest : List TaskId} {t : TaskId} (hq : k.sched.queued = pre ++ t :: rest)
    (hpre : ∀ x ∈ pre, x = 0) (ht : t ≠ 0) :
    ∃ k', act k (.yield regs) = .ok k' ∧ k'.current = t ∧ k'.sched.task = k.sched.task ∧
      k'.kont = k.kont ∧ k'.vfs = k.vfs ∧ k'.cr0Wp = k.cr0Wp ∧ k'.ghost = k.ghost ∧
      k'.heap.ptr = k.heap.ptr ∧ k'.heap.stop = k.heap.stop := by
  obtain ⟨q, he⟩ := schedulerPickNextTask_first hk.queue hc hq hpre ht
  dsimp only [act]
  unfold schedulerYieldCurrentTask
  rw [he, ok_bind]
  refine ⟨_, rfl, ?_⟩
  unfold schedulerSwitchToTask
  split_ifs
  · exact ⟨rfl, rfl, rfl, rfl, rfl, rfl, rfl, rfl⟩
  · exact ⟨rfl, rfl, rfl, rfl, rfl, rfl, rfl, rfl⟩

/-- There is a stack pointer a task can yield with. -/
theorem exists_onStack {k : KernelState} (hk : KernelOk k) (hb : BlocksInv k) :
    ∃ regs : Ctx, OnStack k regs.rsp.toNat 8 := by
  have hstop := hb.stop _ hk.current_present
  have hle := hk.heap.le
  have hlt := hk.heap.stop_lt
  unfold spanStop taskStackSize at hstop
  refine ⟨⟨UInt64.ofNat (k.task k.current).stackBase, 0, 0, 0, 0, 0, 0⟩, ?_⟩
  have hnat : (UInt64.ofNat (k.task k.current).stackBase).toNat = (k.task k.current).stackBase := by
    rw [UInt64.toNat_ofNat']
    exact Nat.mod_eq_of_lt (by omega)
  unfold OnStack taskStackSize
  dsimp only
  rw [hnat]
  omega

/-! ## A machine with a user task -/

/-- A program of one read-only page: the header, one program header and no file bytes. -/
def smallImage : Image :=
  [0x7F, 0x45, 0x4C, 0x46, 2, 1, 1, 0, 0, 0, 0, 0, 0, 0, 0, 0,
    2, 0, 62, 0, 1, 0, 0, 0, 0, 0, 0, 0, 0, 0, 0, 0,
    64, 0, 0, 0, 0, 0, 0, 0, 0, 0, 0, 0, 0, 0, 0, 0,
    0, 0, 0, 0, 64, 0, 56, 0, 1, 0, 0, 0, 0, 0, 0, 0,
    1, 0, 0, 0, 5, 0, 0, 0, 0, 0, 0, 0, 0, 0, 0, 0,
    0, 0, 0, 0, 0, 0, 0, 0, 0, 0, 0, 0, 0, 0, 0, 0,
    0, 0, 0, 0, 0, 0, 0, 0, 0, 16, 0, 0, 0, 0, 0, 0,
    0, 16, 0, 0, 0, 0, 0, 0]

theorem smallImage_valid : elfValidateUserImage smallImage = .ok true := by decide +kernel

theorem smallImage_plain : Image.Plain smallImage := by
  refine ⟨⟨1, by decide +kernel, fun j hj => ?_⟩, 0, by decide +kernel⟩
  obtain rfl : j = 0 := by omega
  exact ⟨0, 0, 0, 4096, 5, by decide +kernel, by decide +kernel, by decide +kernel,
    by decide +kernel, by decide +kernel, by decide, by decide⟩

def noStrings : ExecVec := .nil

/-- Boot hands out seven pages at most. -/
theorem Booted.freePages {M : Machine} {k : KernelState} (h : Booted M k) :
    M.pool.pages.card ≤ k.phys.pmm.freePages + 7 := by
  obtain ⟨sh, hm⟩ := h.memory
  have hcard := congrArg Multiset.card hm.inv.partition
  rw [Multiset.card_add, hm.out, tables_one (j := 192) (by decide) hm.pt, Multiset.card_cons,
    Multiset.card_cons, Multiset.card_add, card_p2Below] at hcard
  have hpt := card_ptPage_le sh 192
  have hfree := hm.inv.free
  omega

/-- The task made last after boot runs `smallImage`. -/
structure Started (k₀ k : KernelState) : Prop where
  user : IsUser (k.task k.current)
  running : Running k
  image : k.ghost.image k.current = smallImage
  cr0Wp : k.cr0Wp = k₀.cr0Wp
  fds : schedulerInitTaskFds k₀.vfs = .ok ((k.task k.current).fds, k.vfs)
  heap : k.heap.ptr ≤ k₀.heap.ptr + 6600 ∧ k.heap.stop = k₀.heap.stop
  slot : ∃ t, (k.task t).state = .empty

/-- Where there is room for it, a first user task is made and gets the processor. -/
theorem started_by {M : Machine} {A : KernelState → Act → Prop} {k₀ : KernelState}
    (hspawn : ∀ k img argv envp, A k (.spawn img argv envp)) (hyield : ∀ k regs, A k (.yield regs))
    (hpicks : M.picks = 0) (hboot : boot M = .ok k₀) (hroom : Room k₀ smallImage) :
    ∃ k, ReachableBy M A k ∧ Started k₀ k := by
  have hb : Booted M k₀ := (boot_spec M).of_ok hboot
  have hr₀ : ReachableBy M A k₀ := .boot hboot
  obtain ⟨hcur, hqueue⟩ := hb.start hpicks
  obtain ⟨sk, S, hm⟩ := hr₀.memInv
  obtain ⟨t, k₁, ha₁, hs⟩ := spawn_ok hr₀.kernelOk hm hroom noStrings noStrings
  have he₁ : Enabled k₀ (.spawn smallImage noStrings noStrings) := by
    show k₀.kont k₀.current = .run
    rw [hb.kont]
  have hr₁ : ReachableBy M A k₁ := hr₀.step (hspawn _ _ _ _) he₁ ha₁
  have ht : t ≠ 0 := by
    rintro rfl
    exact absurd (hb.queue.idle_runnable.symm.trans hs.slot) (by decide)
  have hc₁ : k₁.current = 1 := hs.current.trans hcur
  have hq₁ : k₁.sched.queued = [0] ++ t :: [] := by
    rw [hs.queued, hqueue]
  obtain ⟨hk₁, hb₁⟩ := hr₁.blocksInv
  obtain ⟨regs, hregs⟩ := exists_onStack hk₁ hb₁
  obtain ⟨k₂, ha₂, hc₂, htask, hkont, hvfs, hwp, hghost, hptr, hstop⟩ := yield_ok hk₁
    (by rw [hc₁]; decide) regs hq₁ (fun x hx => List.mem_singleton.mp hx) ht
  have hrun : Running k₁ := by
    unfold Running
    rw [hs.kont, hc₁, Function.update_apply, hb.kont]
    split_ifs <;> rfl
  have he₂ : Enabled k₁ (.yield regs) := ⟨hrun, hregs⟩
  have hrow : k₂.task k₂.current = k₁.task t := by
    rw [hc₂]
    unfold KernelState.task
    rw [htask]
  have hspare : ∀ t : TaskId, ∃ u, u ≠ t ∧ u ≠ 0 ∧ u ≠ 1 := by decide
  refine ⟨k₂, hr₁.step (hyield _ _) he₂ ha₂, ?_, ?_, ?_, hwp.trans hs.cr0Wp, ?_, ?_, ?_⟩
  · rw [hrow]
    exact hs.user
  · unfold Running
    rw [hc₂, hkont, hs.kont, Function.update_self]
  · rw [hc₂, hghost]
    exact hs.image
  · rw [hrow, hvfs]
    exact hs.fds
  · rw [hptr, hstop]
    exact hs.heap
  · obtain ⟨u, hut, hu0, hu1⟩ := hspare t
    obtain ⟨row0, row1, -, hrows⟩ := hb.rows
    refine ⟨u, ?_⟩
    have hclear : k₁.task u = clearTask := by
      rw [hs.others u hut]
      unfold KernelState.task
      rw [hrows]
      unfold bootstrapSched
      dsimp only
      rw [if_neg hu0, if_neg hu1]
    unfold KernelState.task at hclear ⊢
    rw [htask, hclear]
    rfl

theorem started_of_room {M : Machine} {k₀ : KernelState} (hpicks : M.picks = 0)
    (hboot : boot M = .ok k₀) (hroom : Room k₀ smallImage) : ∃ k, Reachable M k ∧ Started k₀ k :=
  started_by (fun _ _ _ _ => trivial) (fun _ _ => trivial) hpicks hboot hroom

/-- Boot leaves room for a task on a machine with 83 pages. -/
theorem Booted.room {M : Machine} {k : KernelState} (h : Booted M k)
    (hcard : 83 ≤ M.pool.pages.card) (hheap : M.heap.ptr + 17000 ≤ M.heap.stop)
    (hfds : ∃ r, schedulerInitTaskFds k.vfs = .ok r) : Room k smallImage where
  slot := by
    obtain ⟨row0, row1, -, htask⟩ := h.rows
    refine ⟨2, ?_⟩
    unfold KernelState.task
    rw [htask]
    rfl
  pages := by
    have hfree := h.freePages
    omega
  heap := by
    obtain ⟨row0, row1, hrows, -⟩ := h.rows
    have hlt := hrows.ptr_lt
    have hstop := hrows.extended.stop
    omega
  valid := smallImage_valid
  plain := smallImage_plain
  fds := hfds

/-- On a machine with the file system of `smallMachine` a third task gets descriptors. -/
theorem Booted.fds_small {M : Machine} {k : KernelState} (h : Booted M k)
    (hvfs : M.vfs = smallMachine.vfs) : ∃ r, schedulerInitTaskFds k.vfs = .ok r := by
  obtain ⟨a, b, v, hv, r, hr⟩ := bootFds_small
  have hf := Except.ok.inj (hv.symm.trans (hvfs ▸ h.fds))
  have hvfs : v = k.vfs := congrArg (fun x => x.2.2) hf
  rw [hvfs] at hr
  exact ⟨r, hr⟩

theorem Booted.room_small {k : KernelState} (h : Booted smallMachine k) : Room k smallImage :=
  h.room (by rw [smallMachine_pool]; decide) (by decide) (h.fds_small rfl)

/-- Descriptor 0 of a third task reads the console. -/
theorem bootFds_console {fds0 fds1 fds : Fin 4 → Nat} {v v' : VfsState}
    (h : bootFds smallMachine.vfs = .ok (fds0, fds1, v))
    (h' : schedulerInitTaskFds v = .ok (fds, v')) :
    fds 0 = 7 ∧ v'.desc 7 = ⟨.consoleIn, 0, 0, 0, []⟩ := by
  cases h
  cases h'
  exact ⟨rfl, rfl⟩

/-- A user program runs: `smallImage` in the current task. -/
structure UserRuns (k : KernelState) : Prop where
  user : IsUser (k.task k.current)
  running : Running k
  image : k.ghost.image k.current = smallImage
  wp : k.cr0Wp = false
  console : (k.task k.current).fds 0 = 7 ∧ k.vfs.desc 7 = ⟨.consoleIn, 0, 0, 0, []⟩

theorem smallMachine_runs : ∃ k, Reachable smallMachine k ∧ UserRuns k := by
  obtain ⟨k₀, hboot, hb⟩ := boot_ok smallMachine_boots
  obtain ⟨k, hr, hs⟩ := started_of_room rfl hboot hb.room_small
  refine ⟨k, hr, hs.user, hs.running, hs.image, ?_, bootFds_console hb.fds hs.fds⟩
  rw [hs.cr0Wp, hb.cr0Wp]
  rfl

end PcoOs.Kernel
