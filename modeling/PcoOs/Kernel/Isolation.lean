/-
  What the accounting of pages gives for every state of a run.

  * `Isolated`: user mode reaches the pages of its own image and nothing else, and no two tables or
    images share a page.
  * `Conserved`: what is handed out is what boot took, and for each user task its tables and its
    image.
  * `RootLive`: the loaded root and the kernel stack are those of the current task, and no page of
    that root is free.
-/
import PcoOs.Kernel.Progress

namespace PcoOs.Kernel

open PcoOs.Lib PcoOs.Pmm PcoOs.Support PcoOs.Vmm PcoOs.Elf PcoOs.Image PcoOs.Sched PcoOs.Vfs
  PcoOs.Syscall

/-! ## The tables of a task -/

/-- The table pages of a root, read off memory. -/
def rootTables (k : KernelState) (root : Nat) : Multiset Nat := tables root (shapeOf k.phys.mem root)

/-- The pages of a user task: the tables of its root and its page array. -/
def taskPages (k : KernelState) (t : TaskId) : Multiset Nat :=
  rowPages (k.task t) (shapeOf k.phys.mem (k.task t).cr3)

section State

variable {P : Pool} {k : KernelState} {sk : Shape} {S : TaskId → Shape}

theorem MemInv.rootTables_kernel (h : MemInv P k sk S) :
    rootTables k k.vmm.rootP4 = tables k.vmm.rootP4 sk := tables_shapeOf h.kernel.realizes

theorem MemInv.taskPages_eq (h : MemInv P k sk S) (t : TaskId) :
    taskPages k t = rowPages (k.task t) (S t) := by
  unfold taskPages
  by_cases hu : IsUser (k.task t)
  · rw [rowPages_user hu, rowPages_user hu, tables_shapeOf (h.user t hu).root.realizes]
  · rw [rowPages_other hu, rowPages_other hu]

theorem MemInv.out_eq (h : MemInv P k sk S) :
    outstanding k.phys.pmm.history = rootTables k k.vmm.rootP4 + ∑ t, taskPages k t := by
  rw [h.out, h.rootTables_kernel]
  congr 1
  exact Finset.sum_congr rfl fun t _ => (h.taskPages_eq t).symm

theorem MemInv.pages_aligned (h : MemInv P k sk S) {t : TaskId} (ht : IsUser (k.task t)) :
    ∀ p ∈ (k.task t).userPages, p % 4096 = 0 := fun _ hp => h.aligned (h.userPage_mem ht hp)

/-- The software walk of the kernel finds the pages of an image. -/
theorem MemInv.translate_window (h : MemInv P k sk S) {t : TaskId} (ht : IsUser (k.task t))
    {i : Nat} (hi : i < (k.task t).userPages.length) :
    vmmTranslateRoot k.vmm k.phys.mem (k.task t).cr3 (userTaskRegionBase + i * 4096) =
      .ok ((k.task t).userPages.getD i 0) := by
  have hs := h.user t ht
  have hl := hs.fits.length.2
  obtain ⟨hin, hal, hv, -⟩ := userTaskPageVirt_spec (i := i) (by omega)
  have hmem : (k.task t).userPages.getD i 0 ∈ (k.task t).userPages := by
    rw [List.getD_eq_getElem _ _ hi]
    exact List.getElem_mem hi
  obtain ⟨b0, -, -, htar⟩ := userLeaf_bits (h.pages_aligned ht _ hmem) (hs.fits.flag i)
  have htrans := hs.root.realizes.translate_inRange hin h.vmm.limit.ge
    (vmmRootP2Ptr_eq hs.root.realizes _)
  rw [hv, hs.root.window i hi] at htrans
  refine Eq.trans htrans ?_
  unfold leafTarget
  rw [if_pos b0, htar]
  congr 1
  omega

end State

/-! ## Isolation -/

/-- User mode sees its image and nothing else, and all pages in use are distinct. -/
structure Isolated (k : KernelState) : Prop where
  /-- A page is open to user mode exactly when it is one of `user_page_count` pages from
      `user_base` on. -/
  reach : ∀ t, IsUser (k.task t) → ∀ n < 2 ^ 36,
    (∃ a, mmuWalk k.phys.mem (k.task t).cr3 n = some a ∧ a.user = true) ↔
      ∃ i < (k.task t).userPageCount, (n : Int) * 4096 = (k.task t).userBase + i * 4096
  /-- Page `i` of them leads to entry `i` of the page array, for the processor and for
      `vmm_translate_root`. -/
  target : ∀ t, IsUser (k.task t) → ∀ i < (k.task t).userPageCount,
    (∀ n : Nat, (n : Int) * 4096 = (k.task t).userBase + i * 4096 →
      (mmuWalk k.phys.mem (k.task t).cr3 n).map Access.frame =
        some ((k.task t).userPages.getD i 0)) ∧
    vmmTranslateRoot k.vmm k.phys.mem (k.task t).cr3 ((k.task t).userBase + i * 4096) =
      .ok ((k.task t).userPages.getD i 0)
  entries : ∀ t, IsUser (k.task t) → (k.task t).userPages.length = (k.task t).userPageCount
  /-- Tables and images of all tasks and the tables of the kernel root. -/
  distinct : (rootTables k k.vmm.rootP4 + ∑ t, taskPages k t).Nodup
  /-- Kernel tasks run in the kernel root. -/
  kernelTask : ∀ t, (k.task t).state ≠ .empty → (k.task t).mode = .kernel →
    (k.task t).cr3 = k.vmm.rootP4

/-- A page between base and limit is a page of the window. -/
theorem window_index {n i : Nat} (h : (n : Int) * 4096 = userTaskRegionBase + i * 4096) :
    n = windowPage + i := by
  unfold userTaskRegionBase at h
  unfold windowPage
  omega

theorem MemInv.isolated {P : Pool} {k : KernelState} {sk : Shape} {S : TaskId → Shape}
    (hk : KernelOk k) (h : MemInv P k sk S) : Isolated k where
  reach := by
    intro t ht n hn
    have hs := h.user t ht
    have hl := hs.fits.length.2
    rw [hs.count, hk.base t ht.2]
    constructor
    · rintro ⟨a, ha, hu⟩
      by_cases hw : n < windowPage ∨ windowPage + (k.task t).userPages.length ≤ n
      · rw [userRoot_other hs.root hn hw ha] at hu
        cases hu
      · refine ⟨n - windowPage, by omega, ?_⟩
        unfold userTaskRegionBase
        unfold windowPage at hw ⊢
        omega
    · rintro ⟨i, hi, hni⟩
      rw [window_index hni]
      exact ⟨_, userRoot_window hs.root hl (h.pages_aligned ht) hs.fits.flag hi, rfl⟩
  target := by
    intro t ht i hi
    have hs := h.user t ht
    have hl := hs.fits.length.2
    rw [hs.count] at hi
    rw [hk.base t ht.2]
    refine ⟨fun n hni => ?_, h.translate_window ht hi⟩
    rw [window_index hni, userRoot_window hs.root hl (h.pages_aligned ht) hs.fits.flag hi]
    rfl
  entries := fun t ht => (h.user t ht).count.symm
  distinct := by
    rw [← h.out_eq]
    exact h.inv.balanced.nodup
  kernelTask := h.kernelTask

/-! ## Conservation -/

/-- The page table of the user window: the one behind entry 256 of the first directory. -/
def windowTable (k : KernelState) (t : TaskId) : Nat :=
  alignDown (entry k.phys.mem ((shapeOf k.phys.mem (k.task t).cr3).p2 0) 256) 4096

/-- The pages a user task owes: its root, the table and the directories below it, the table of
    the window and its page array. -/
def owedPages (k : KernelState) (t : TaskId) : Multiset Nat :=
  if IsUser (k.task t) then
    let sh := shapeOf k.phys.mem (k.task t).cr3
    (↑[(k.task t).cr3, sh.p3, sh.p2 0, sh.p2 1, sh.p2 2, sh.p2 3, windowTable k t] : Multiset Nat) +
      ↑((k.task t).userPages.take (k.task t).userPageCount)
  else 0

theorem p2Below_four (sh : Shape) :
    sh.p2Below 4 = (↑[sh.p2 0, sh.p2 1, sh.p2 2, sh.p2 3] : Multiset Nat) := by
  unfold Shape.p2Below
  rw [Finset.sum_range_succ, Finset.sum_range_succ, Finset.sum_range_succ, Finset.sum_range_succ,
    Finset.sum_range_zero]
  rfl

theorem MemInv.owedPages_eq {P : Pool} {k : KernelState} {sk : Shape} {S : TaskId → Shape}
    (h : MemInv P k sk S) (t : TaskId) : owedPages k t = taskPages k t := by
  unfold owedPages
  by_cases hu : IsUser (k.task t)
  · have hs := h.user t hu
    obtain ⟨pt, hpt⟩ := Option.ne_none_iff_exists'.mp
      (UserPath.split hs.root.realizes (by omega) hs.root.user)
    have hsplit := hs.root.realizes.split 256 (by omega) pt hpt
    have hwin : windowTable k t = pt := by
      unfold windowTable
      rw [shapeOf_p2 hs.root.realizes (by omega)]
      exact hsplit.target
    have hshape : ∀ j, j < 2048 → j ≠ 256 → (shapeOf k.phys.mem (k.task t).cr3).pt j = none := by
      intro j hj hne
      rw [shapeOf_pt hs.root.realizes hj]
      exact hs.root.rest j hne
    have htab : tables (k.task t).cr3 (shapeOf k.phys.mem (k.task t).cr3) =
        (k.task t).cr3 ::ₘ (shapeOf k.phys.mem (k.task t).cr3).p3 ::ₘ
          ((shapeOf k.phys.mem (k.task t).cr3).p2Below 4 + {pt}) := by
      rw [tables_shapeOf hs.root.realizes, tables_one (j := 256) (by omega) hs.root.rest,
        shapeOf_p3 hs.root.realizes]
      congr 3
      · unfold Shape.p2Below
        refine Finset.sum_congr rfl fun i hi => ?_
        rw [shapeOf_p2 hs.root.realizes (Finset.mem_range.mp hi)]
      · unfold Shape.ptPage
        rw [hpt]
        rfl
    rw [if_pos hu]
    unfold taskPages
    rw [rowPages_user hu, htab, p2Below_four, hwin, hs.count, List.take_length]
    rfl
  · unfold taskPages
    rw [if_neg hu, rowPages_other hu]

/-- The pages handed out in `k`, after a run from `k₀`. -/
structure Conserved (k₀ k : KernelState) : Prop where
  out : outstanding k.phys.pmm.history =
    outstanding k₀.phys.pmm.history + ∑ t, owedPages k t
  nodup : (outstanding k.phys.pmm.history).Nodup
  /-- Only pages that are handed out are freed. -/
  balanced : Balanced k.phys.pmm.history
  back : (∀ t, ¬ IsUser (k.task t)) → k.phys.pmm.freePages = k₀.phys.pmm.freePages

/-- Pages handed out and free pages add up. -/
theorem PmmInv.card {P : Pool} {s : PmmState} (h : PmmInv P s) :
    (outstanding s.history).card + s.freePages = P.pages.card := by
  rw [h.free, ← Nat.cast_add, ← Multiset.card_add, h.partition]

theorem Reachable.conserved {M : Machine} {k₀ k : KernelState} (hb : boot M = .ok k₀)
    (h : Reachable M k) : Conserved k₀ k := by
  obtain ⟨sk, S, hout, hm⟩ := h.memInv_from hb
  obtain ⟨sk₀, S₀, -, hm₀⟩ := ((boot_spec M).of_ok hb).memInv
  have hsum : outstanding k.phys.pmm.history =
      outstanding k₀.phys.pmm.history + ∑ t, owedPages k t := by
    rw [hm.out, hout]
    congr 1
    exact Finset.sum_congr rfl fun t _ => ((hm.owedPages_eq t).trans (hm.taskPages_eq t)).symm
  refine ⟨hsum, hm.inv.balanced.nodup, hm.inv.balanced, fun hnone => ?_⟩
  have hzero : ∑ t, owedPages k t = 0 := by
    refine Finset.sum_eq_zero fun t _ => ?_
    unfold owedPages
    rw [if_neg (hnone t)]
  rw [hzero, add_zero] at hsum
  have hcard := PmmInv.card hm.inv
  have hcard₀ := PmmInv.card hm₀.inv
  rw [hsum] at hcard
  omega

/-! ## The loaded root -/

/-- The root and the kernel stack the processor uses belong to the current task, and none of its
    pages is free. -/
structure RootLive (k : KernelState) : Prop where
  cr3 : k.phys.cr3 = (k.task k.current).cr3
  rsp0 : k.rsp0 = alignDown ((k.task k.current).stackBase + taskStackSize) 16
  tables : ∀ p ∈ rootTables k k.phys.cr3, p ∉ freePool k.phys.pmm
  user : ∀ n a, mmuWalk k.phys.mem k.phys.cr3 n = some a → a.user = true →
    a.frame ∉ freePool k.phys.pmm

/-- `rsp0` is set wherever the current task changes. -/
theorem Effect.rsp0 {k k' : KernelState} {a : Act} (h : Effect k a k')
    (hr : k.rsp0 = taskKernelRsp0Top (k.task k.current).stackBase) (hk : KernelOk k) :
    k'.rsp0 = taskKernelRsp0Top (k'.task k'.current).stackBase := by
  -- a changed row of the current task keeps its stack
  have hset : ∀ row : Task, row.stackBase = (k.task k.current).stackBase →
      k.rsp0 = taskKernelRsp0Top ((k.sched.setTask k.current row).task k.current).stackBase := by
    intro row hrow
    rw [setTask_task, if_pos rfl, hrow]
    exact hr
  cases h with
  | tick now => exact hr
  | brk b hm hlo hhi => exact hset _ rfl
  | files hd hm =>
    obtain ⟨vfs, heap, fds, rfl⟩ := hd.shape
    exact hset _ rfl
  | stack hs => exact hr
  | stay now q hw hq => exact hr
  | leave now hne q hw hq hs => rfl
  | @spawn img argv envp t row phys heap vfs fds q ht hb hh hq =>
    have hcur : k.current ≠ t := fun hc => hk.current_present (hc ▸ ht)
    show k.rsp0 = taskKernelRsp0Top ((k.sched.setTask t _).task k.current).stackBase
    rw [setTask_task, if_neg hcur]
    exact hr
  | exec hm hv hr' hc =>
    show _ = taskKernelRsp0Top ((k.sched.setTask k.current _).task k.current).stackBase
    rw [setTask_task, if_pos rfl]
  | exit ha hc hne q hq hs => rfl
  | @reap wait t hw ht phys vfs hd hf =>
    have hcur : k.current ≠ t := by
      rintro rfl
      exact absurd (hk.queue.current_runnable.symm.trans (waitTarget_exited ht)) (by decide)
    show k.rsp0 = taskKernelRsp0Top ((releaseRow k.sched t).task k.current).stackBase
    rw [releaseRow_task, if_neg hcur]
    exact hr

theorem boot_rsp0 {M : Machine} {k : KernelState} (h : boot M = .ok k) :
    k.rsp0 = taskKernelRsp0Top (k.task k.current).stackBase := by
  unfold boot at h
  obtain ⟨⟨vmm, phys⟩, -, h⟩ := bind_eq_ok.mp h
  unfold bootTasks at h
  obtain ⟨k₁, -, h⟩ := bind_eq_ok.mp h
  obtain ⟨sched, -, h⟩ := bind_eq_ok.mp h
  cases h
  rfl

theorem ReachableBy.rsp0 {M : Machine} {A : KernelState → Act → Prop} {k : KernelState}
    (h : ReachableBy M A k) : k.rsp0 = taskKernelRsp0Top (k.task k.current).stackBase := by
  induction h with
  | boot hb => exact boot_rsp0 hb
  | step hr _ he ha ih => exact ((act_effect hr.kernelOk he).of_ok ha).rsp0 ih hr.kernelOk

theorem PmmInv.not_free {P : Pool} {s : PmmState} (h : PmmInv P s) {p : Nat}
    (hp : p ∈ outstanding s.history) : p ∉ freePool s := by
  have hnd := P.nodup
  rw [← h.partition] at hnd
  exact Multiset.disjoint_left.mp (Multiset.nodup_add.mp hnd).2.2 hp

/-- The tables of the root of a task that is there are handed out. -/
theorem MemInv.root_mem {P : Pool} {k : KernelState} {sk : Shape} {S : TaskId → Shape}
    (h : MemInv P k sk S) {t : TaskId} (ht : (k.task t).state ≠ .empty) {p : Nat}
    (hp : p ∈ rootTables k (k.task t).cr3) : p ∈ outstanding k.phys.pmm.history := by
  cases hm : (k.task t).mode with
  | kernel =>
    rw [h.out_eq]
    rw [h.kernelTask t ht hm] at hp
    exact Multiset.mem_add.mpr (Or.inl hp)
  | user =>
    have hu : IsUser (k.task t) := ⟨ht, hm⟩
    unfold rootTables at hp
    rw [tables_shapeOf (h.user t hu).root.realizes] at hp
    rw [h.split_user hu]
    exact Multiset.mem_add.mpr (Or.inl hp)

/-- The kernel root is closed to user mode. -/
theorem kernelRoot_user {v : VmmState} {m : Mem} {sh : Shape} (h : KernelRoot v m sh) {n : Nat}
    {a : Access} (ha : mmuWalk m v.rootP4 n = some a) : a.user = false := by
  rw [← mmuWalk_mod] at ha
  have hn : n % 2 ^ 36 < 2 ^ 36 := Nat.mod_lt _ (by norm_num)
  by_cases hlt : n % 2 ^ 36 < 2 ^ 20
  · rw [identityLeaf_walk h.realizes hlt (h.leaf _ hlt)] at ha
    rw [← Option.some.inj ha]
  · rw [mmuWalk_high h.realizes (by omega) hn] at ha
    cases ha

theorem MemInv.rootLive {P : Pool} {k : KernelState} {sk : Shape} {S : TaskId → Shape}
    (hk : KernelOk k) (h : MemInv P k sk S)
    (hr : k.rsp0 = taskKernelRsp0Top (k.task k.current).stackBase) : RootLive k where
  cr3 := h.cr3
  rsp0 := hr
  tables := fun p hp => by
    rw [h.cr3] at hp
    exact PmmInv.not_free h.inv (h.root_mem hk.current_present hp)
  user := fun n a ha hu => by
    rw [h.cr3] at ha
    cases hm : (k.task k.current).mode with
    | kernel =>
      rw [h.kernelTask _ hk.current_present hm] at ha
      rw [kernelRoot_user h.kernel ha] at hu
      cases hu
    | user =>
      have hus : IsUser (k.task k.current) := ⟨hk.current_present, hm⟩
      have hs := h.user _ hus
      refine PmmInv.not_free h.inv (h.userPage_mem hus ?_)
      exact userRoot_user hs.root hs.fits.length.2 (h.pages_aligned hus) hs.fits.flag ha hu

end PcoOs.Kernel
