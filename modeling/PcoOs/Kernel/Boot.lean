/-
  The state `kernel_main` enters the first task with. `Booted` collects what boot leaves behind,
  and `boot_spec` says when boot gets that far: enough pages, enough early heap, enough
  descriptors. `smallMachine` is a machine that boots.
-/
import PcoOs.Image.Window
import PcoOs.Kernel.Blocks
import PcoOs.Pmm.Runs
import PcoOs.Sched.Table
import PcoOs.Vmm.SelfTest

namespace PcoOs.Kernel

open PcoOs.Lib PcoOs.Pmm PcoOs.Support PcoOs.Vmm PcoOs.Elf PcoOs.Image PcoOs.Sched PcoOs.Vfs

/-- The pages the allocator of a machine starts with. -/
def Machine.pool (M : Machine) : Pool := bootPool M.info M.map M.noWrap

/-! ## Memory -/

/-- The kernel root: every address below 4 GiB leads to itself, and the kernel alone may use it. -/
structure KernelRoot (v : VmmState) (m : Mem) (sh : Shape) : Prop where
  realizes : Realizes m v.rootP4 sh
  p3 : v.p3 = sh.p3
  leaf : ∀ n < 2 ^ 20, leafEntry m sh n = identityLeaf n

theorem KernelRoot.frame {v : VmmState} {m m' : Mem} {sh : Shape} (h : KernelRoot v m sh)
    (hs : ∀ p ∈ tables v.rootP4 sh, SamePage m m' p) : KernelRoot v m' sh where
  realizes := h.realizes.frame hs
  p3 := h.p3
  leaf := fun n hn => (leafEntry_frame (r := v.rootP4) hn hs).trans (h.leaf n hn)

/-- What `bootMemory` leaves: only the tables of the kernel root are handed out, and the self-test
    split one of its large pages. -/
structure MemoryReady (P : Pool) (v : VmmState) (ph : Phys) (sh : Shape) : Prop where
  inv : PmmInv P ph.pmm
  vmm : VmmOk v
  kernel : KernelRoot v ph.mem sh
  out : outstanding ph.pmm.history = tables v.rootP4 sh
  pt : ∀ k, k ≠ 192 → sh.pt k = none
  cr3 : ph.cr3 = v.rootP4

/-- The panics of boot: too few pages, a recycle stack that could fill up, no boot info, or no
    room for the bootstrap tasks. -/
def Machine.MayFail (M : Machine) : Prop :=
  (∀ s, initPmm M.info = .ok s → s.freePages < 8) ∨ 2048 ≤ M.pool.pages.card ∨
    M.magic ≠ 0x50434F424F4F5431 ∨ M.heap.stop < M.heap.ptr + 10400 ∨
    ∃ e, bootFds M.vfs = .error e

theorem bootMemory_spec (M : Machine) :
    Ends (bootMemory M) (fun r => ∃ sh, MemoryReady M.pool r.1 r.2 sh) (fun _ => M.MayFail) := by
  unfold bootMemory
  cases hs : initPmm M.info with
  | error e =>
    refine Or.inl fun s h => ?_
    rw [hs] at h
    cases h
  | ok s =>
  have hinv : PmmInv M.pool s := initPmm_inv M.map M.noWrap hs
  have hout : outstanding s.history = 0 := by
    rw [(initPmm_built M.map M.noWrap hs).history]
    rfl
  have hfew : s.freePages < 8 → ∀ t, initPmm M.info = .ok t → t.freePages < 8 := by
    intro h t ht
    rw [hs] at ht
    cases ht
    exact h
  rw [ok_bind]
  refine ends_bind ((pmmSelfTest_spec hinv).mono (fun _ h => h) ?_) ?_
  · rintro _ (h | h)
    · exact Or.inl (hfew (by omega))
    · exact Or.inr (Or.inl h)
  rintro s₁ ⟨h₁, ho₁, hf₁⟩
  refine ends_bind ((initVmm_spec ⟨s₁, M.mem, M.cr3⟩ h₁ M.magic).mono (fun _ h => h) ?_) ?_
  · rintro _ (h | h)
    · exact Or.inl (hfew (by dsimp only at h; omega))
    · exact Or.inr (Or.inr (Or.inl h))
  rintro ⟨v, ph⟩ ⟨hvm, hactive, hcr3, sh, hp3, hnew, hf⟩
  dsimp only at hvm hactive hcr3 hp3 hnew hf ⊢
  have hown : Owned M.pool v.rootP4 ph sh :=
    ⟨hnew.inv, hnew.realizes, hnew.owned.held⟩
  have hR : outstanding ph.pmm.history = tables v.rootP4 sh + 0 := by
    have := hnew.out
    dsimp only at this
    rw [this, ho₁, hout, zero_add, add_zero]
  refine ends_bind ((vmmSelfTest_spec hown rfl hvm hp3 hactive hcr3
    (fun n _ => leafEntry_identity hnew.none n) M.magic hR).mono (fun _ h => h) ?_) ?_
  · rintro _ (h | h | h)
    · exact Or.inl (hfew (by omega))
    · exact Or.inr (Or.inl h)
    · exact Or.inr (Or.inr (Or.inl h))
  rintro ph' ⟨sh', hinv', hr, hp3', ho, hc, hrest, hleaf⟩
  exact ⟨sh', hinv', hvm, ⟨hr, hp3', hleaf⟩, by rw [ho, add_zero],
    fun k hk => (hrest k hk).trans (hnew.none k), hc⟩

/-! ## The scheduler -/

theorem bootstrap_queueInv (now : Int) {row0 row1 : Task} (h0 : row0.state = .runnable)
    (h1 : row1.state = .runnable) :
    ∃ q, schedulerEnqueueTask (bootstrapSched now row0 row1) 0 =
        .ok { bootstrapSched now row0 row1 with queue := q } ∧
      q.items readyQueueCapacity = [0] ∧
      QueueInv { bootstrapSched now row0 row1 with queue := q } := by
  obtain ⟨q, he, hle, hitems⟩ := schedulerEnqueueTask_eq (s := bootstrapSched now row0 row1)
    (show 0 < 16 by decide) (le_refl 0) 0
  have hq : ({ bootstrapSched now row0 row1 with queue := q } : SchedState).queued = [0] := hitems
  refine ⟨q, he, hitems, ⟨⟨rfl, h0, hle, ?_, ?_, ?_, ?_⟩, h1⟩⟩
  · rw [hq]
    exact List.nodup_singleton 0
  · intro t ht
    rw [hq, List.mem_singleton] at ht
    rw [ht]
    exact h0
  · intro _
    rw [hq]
    show (1 : TaskId) ∉ [0]
    decide
  · intro t ht hr
    have htask : ({ bootstrapSched now row0 row1 with queue := q } : SchedState).task t =
        if t = 0 then row0 else if t = 1 then row1 else clearTask := rfl
    rw [htask, if_neg ht] at hr
    split_ifs at hr with ht1
    · exact Or.inl ht1
    · cases hr

/-- The decisions of the self-test change the queue and the current task. -/
theorem selfTestPicks_spec (n : Nat) {s : SchedState} (h : QueueInv s) :
    ∃ next q, selfTestPicks n s = .ok { s with queue := q, currentTask := next } ∧
      QueueInv { s with queue := q, currentTask := next } := by
  have hloop := loop_eq_ok (i := 0) (n := n) (s := s)
    (f := fun _ s => schedulerPickNextTask s >>= fun p => .ok p.2)
    (fun _ s' => ∃ next q, s' = { s with queue := q, currentTask := next } ∧ QueueInv s')
    ⟨s.currentTask, s.queue, rfl, h⟩ (by
      rintro j _ - - ⟨next, q, rfl, hq⟩
      obtain ⟨next', q', he, hq'⟩ := schedulerPickNextTask_spec hq.toQueueReady
      rw [he]
      exact ⟨_, rfl, next', q', rfl, hq'⟩)
  obtain ⟨s', he, next, q, rfl, hq⟩ := hloop
  exact ⟨next, q, he, hq⟩

/-! ## The first task -/

/-- What boot leaves behind. -/
structure Booted (M : Machine) (k : KernelState) : Prop where
  memory : ∃ sh, MemoryReady M.pool k.vmm k.phys sh
  rows : ∃ row0 row1, BootRows M k.vmm.rootP4 row0 row1 k.heap ∧
    k.sched.task = (bootstrapSched M.now row0 row1).task
  fds : bootFds M.vfs = .ok ((k.task 0).fds, (k.task 1).fds, k.vfs)
  count : k.sched.taskCount = 2
  queue : QueueInv k.sched
  start : M.picks = 0 → k.current = 1 ∧ k.sched.queued = [0]
  kont : k.kont = fun _ => .run
  ghost : k.ghost = bootGhost
  code : k.code = M.code
  cr0Wp : k.cr0Wp = M.cr0Wp

theorem ends_orPanic {α : Type} {x : Except String α} {Q : α → Prop} {F : Prop}
    (h : Ends x Q (fun _ => F)) : Ends (orPanic x) Q (fun _ => F) := by
  unfold orPanic
  cases x with
  | ok a => exact h
  | error e => exact h

theorem bootTasks_spec {M : Machine} {v : VmmState} {ph : Phys} {sh : Shape}
    (hready : MemoryReady M.pool v ph sh) :
    Ends (bootTasks M v ph) (Booted M) (fun _ => M.MayFail) := by
  unfold bootTasks
  have hspec := bootstrapRows_spec M v.rootP4
  unfold initScheduler
  cases hrows : bootstrapRows M v.rootP4 with
  | error e =>
    unfold orPanic Except.mapError
    rw [error_bind, error_bind, ends_error]
    exact Or.inr (Or.inr (Or.inr (hspec.of_error hrows)))
  | ok r =>
  obtain ⟨row0, row1, heap, vfs⟩ := r
  have hboot : BootRows M v.rootP4 row0 row1 heap := (hspec.of_ok hrows).1
  have hfds : bootFds M.vfs = .ok (row0.fds, row1.fds, vfs) := (hspec.of_ok hrows).2
  obtain ⟨c0, s0, f0, hr0⟩ := hboot.row0
  obtain ⟨c1, s1, f1, hr1⟩ := hboot.row1
  have hcr3 : ∀ t : TaskId, ((bootstrapSched M.now row0 row1).task t).state = .runnable →
      ((bootstrapSched M.now row0 row1).task t).cr3 = v.rootP4 := by
    intro t ht
    unfold bootstrapSched at ht ⊢
    dsimp only at ht ⊢
    split_ifs at ht ⊢
    · rw [hr0]
      rfl
    · rw [hr1]
      rfl
    · cases ht
  obtain ⟨q, he, hitems, hq⟩ := bootstrap_queueInv M.now
    (show row0.state = .runnable by rw [hr0]; rfl) (show row1.state = .runnable by rw [hr1]; rfl)
  unfold orPanic Except.mapError
  rw [ok_bind]
  dsimp only
  rw [he, ok_bind, ok_bind]
  obtain ⟨next, q', he', hq'⟩ := selfTestPicks_spec M.picks hq
  dsimp only
  rw [he', ok_bind, ends_ok]
  have hphys : { ph with cr3 := ((bootstrapSched M.now row0 row1).task next).cr3 } = ph := by
    rw [hcr3 next hq'.current_runnable, ← hready.cr3]
  refine ⟨⟨sh, ?_⟩, ⟨row0, row1, hboot, rfl⟩, hfds, rfl, hq', fun hpicks => ?_, rfl, rfl, rfl, rfl⟩
  swap
  · unfold selfTestPicks at he'
    rw [hpicks, loop_zero] at he'
    have heq := Except.ok.inj he'
    refine ⟨(congrArg SchedState.currentTask heq).symm, ?_⟩
    exact (congrArg (fun s : SchedState => s.queue.items readyQueueCapacity) heq).symm.trans hitems
  show MemoryReady M.pool v { ph with cr3 := ((bootstrapSched M.now row0 row1).task next).cr3 } sh
  rw [hphys]
  exact hready

theorem boot_spec (M : Machine) : Ends (boot M) (Booted M) (fun _ => M.MayFail) := by
  refine ends_bind (ends_orPanic (bootMemory_spec M)) fun r hr => ?_
  obtain ⟨sh, hready⟩ := hr
  exact bootTasks_spec hready

theorem boot_ok {M : Machine} (h : ¬ M.MayFail) : ∃ k, boot M = .ok k ∧ Booted M k :=
  (boot_spec M).exists_ok fun _ => h

theorem Machine.boots {M : Machine} {s : PmmState} (hs : initPmm M.info = .ok s)
    (h8 : 8 ≤ s.freePages) (hcard : M.pool.pages.card < 2048)
    (hmagic : M.magic = 0x50434F424F4F5431) (hroom : M.heap.ptr + 10400 ≤ M.heap.stop)
    {r : (Fin 4 → Nat) × (Fin 4 → Nat) × VfsState} (hf : bootFds M.vfs = .ok r) : ¬ M.MayFail := by
  rintro (h | h | h | h | ⟨e, h⟩)
  · have := h s hs
    omega
  · omega
  · exact h hmagic
  · omega
  · cases hf.symm.trans h

/-! ## A machine -/

/-- One MiB of memory, an empty file system and a clear `CR0.WP`. -/
def smallMachine : Machine where
  info := smallMap
  map := smallMap_loader.toMapOk
  noWrap := smallMap_loader.noWrap
  magic := 0x50434F424F4F5431
  mem := fun _ => 0
  cr3 := 0
  heap := ⟨16, 2 ^ 30, fun _ => 0⟩
  heapOk := ⟨by decide, by decide, by decide, by decide⟩
  vfs := ⟨[], fun _ => closedDesc, fun _ => 0⟩
  now := 0
  picks := 0
  code := ⟨1, 2, 3, 4, by decide⟩
  cr0Wp := false

theorem bootFds_small : ∃ fds0 fds1 vfs, bootFds smallMachine.vfs = .ok (fds0, fds1, vfs) ∧
    ∃ r, schedulerInitTaskFds vfs = .ok r :=
  ⟨_, _, _, rfl, _, rfl⟩

theorem smallMachine_pool : smallMachine.pool.pages.card = 256 := by
  obtain ⟨s, hs, ht⟩ : ∃ s, initPmm smallMap = .ok s ∧ s.totalPages = 256 := ⟨_, rfl, rfl⟩
  have h := (initPmm_inv smallMachine.map smallMachine.noWrap hs).total
  rw [ht] at h
  exact_mod_cast h.symm

theorem smallMachine_boots : ¬ smallMachine.MayFail := by
  obtain ⟨s, hs, hf⟩ := initPmm_smallMap
  obtain ⟨fds0, fds1, vfs, hok, -⟩ := bootFds_small
  exact Machine.boots hs (by omega) (by rw [smallMachine_pool]; decide) rfl (by decide) hok

end PcoOs.Kernel
