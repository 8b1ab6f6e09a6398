/-
  The pages of tasks over whole runs. Creating a task hands out the tables of its root and the
  pages of its image, exec exchanges the pages of the image, reaping gives everything back:
  `Effect.memInv` carries the accounting of `MemInv` through every effect and `Booted.memInv`
  establishes it.
-/
import PcoOs.Kernel.Memory

namespace PcoOs.Kernel

open PcoOs.Lib PcoOs.Pmm PcoOs.Support PcoOs.Vmm PcoOs.Elf PcoOs.Image PcoOs.Sched PcoOs.Vfs
  PcoOs.Syscall

/-! ## Creating -/

/-- A new row with its address space; what was handed out before is kept. -/
structure NewSpace (P : Pool) (k : KernelState) (img : Image) (row : Task) (ph : Phys)
    (sh : Shape) : Prop where
  inv : PmmInv P ph.pmm
  user : IsUser row
  space : UserSpace row img ph.mem sh
  out : outstanding ph.pmm.history =
    tables row.cr3 sh + (↑row.userPages + outstanding k.phys.pmm.history)
  keeps : ∀ p ∈ outstanding k.phys.pmm.history, SamePage k.phys.mem ph.mem p
  cr3 : ph.cr3 = k.phys.cr3

/-- The row of a placed image. -/
theorem Placed.space {P : Pool} {root : Nat} {R : Multiset Nat} {img : Image} {ph ph' : Phys}
    {im : UserImage} {sh : Shape} (h : Placed P root R img ph im ph' sh) {row : Task}
    (hcr3 : row.cr3 = root) (hpages : row.userPages = im.pages)
    (hcount : row.userPageCount = im.pageCount) (hlimit : row.userLimit = im.limit)
    (hbase : row.heapBase = im.heapBase) (htop : row.heapLimit = im.heapLimit)
    (hbreak : row.heapBreak = im.heapBreak) : UserSpace row img ph'.mem sh := by
  have hd := h.described
  obtain ⟨h6, -⟩ := h.fits.length
  have hup : im.heapBase ≤ im.heapLimit := by
    rw [hd.heapBase, hd.heapLimit]
    unfold userPageSize
    omega
  constructor
  · rw [hcr3, hpages]
    exact h.user
  · rw [hpages]
    exact h.fits
  · rw [hcount, hd.pageCount, hpages]
  · rw [hlimit, hd.limit, hpages]
  · rw [hbase, hd.heapBase, hpages]
  · rw [htop, hd.heapLimit, hpages]
  · rw [hbase, hbreak, hd.heapBreak]
  · rw [htop, hbreak, hd.heapBreak]
    exact hup

theorem buildUserTask_memory {P : Pool} {k : KernelState} (hinv : PmmInv P k.phys.pmm)
    (hvm : VmmOk k.vmm) (hh : HeapOk k.heap) (img : Image) (argv envp : ExecVec) :
    Ends (buildUserTask k img argv envp)
      (fun r => (∃ sh, NewSpace P k img r.1 r.2.1 sh) ∧ r.2.2.ptr ≤ k.heap.ptr + 6600)
      (fun _ => k.phys.pmm.freePages < 76 ∨ k.heap.stop < k.heap.ptr + 6600 ∨ ¬ Image.Plain img ∨
        elfValidateUserImage img ≠ .ok true) := by
  unfold buildUserTask interruptFrameQwordCount
  refine ends_bind ((vmmCreateTaskAddressSpace_spec hinv hvm).mono (fun _ h => h)
    fun _ h => Or.inl (by omega)) ?_
  rintro ⟨root, ph₁⟩ ⟨sh, hnew, hfree⟩
  dsimp only at hnew hfree ⊢
  refine ends_bind ((allocBytes_spec hh (by decide)).mono (fun _ h => h)
    fun _ h => Or.inr (Or.inl (by omega))) ?_
  rintro ⟨frame, heap₁⟩ ⟨-, ok₁, g₁, b₁, l₁⟩
  dsimp only at ok₁ g₁ b₁ l₁ ⊢
  have hstop₁ := g₁.stop
  cases hv : elfValidateUserImage img with
  | error e => exact Or.inr (Or.inr (Or.inr fun hc => by cases hc))
  | ok valid =>
  cases valid with
  | false => exact Or.inr (Or.inr (Or.inr fun hc => by cases hc))
  | true =>
  rw [ok_bind, if_neg (by decide)]
  refine ends_bind ((schedulerInstallUserImage_spec hvm hnew.inv (NewRoot.bare hnew) ok₁ hv argv envp
    (R := outstanding k.phys.pmm.history) (by rw [hnew.out, add_comm])).mono (fun _ h => h) ?_) ?_
  · rintro _ (h | h | h)
    · exact Or.inl (by omega)
    · exact Or.inr (Or.inl (by omega))
    · exact Or.inr (Or.inr (Or.inl h))
  rintro ⟨im, ph₂, heap₂⟩ ⟨⟨sh', hpl⟩, ok₂, g₂, l₂⟩
  dsimp only at hpl ok₂ g₂ l₂ ⊢
  have hstop₂ := g₂.stop
  refine ends_bind ((prepareContext_spec ok₂ _ _ _ _ _ _).mono (fun _ h => h)
    fun _ h => Or.inr (Or.inl (by omega))) ?_
  rintro ⟨ctxPtr, stackBase, heap₃⟩ hblocks
  have hlt := hblocks.ptr_lt
  refine ⟨⟨sh', hpl.inv, ⟨(fun hc => by cases hc), rfl⟩, Placed.space hpl rfl rfl rfl rfl rfl rfl rfl, hpl.out,
    fun p hp => (hnew.keeps hp).trans (hpl.keeps p hp), hpl.cr3.trans hnew.cr3⟩, ?_⟩
  dsimp only at hlt ⊢
  omega

/-! ## Destroying -/

theorem schedulerDestroyUserTask_freed {P : Pool} {k : KernelState} {sk : Shape}
    {S : TaskId → Shape} (h : MemInv P k sk S) {t : TaskId} (ht : (k.task t).state ≠ .empty) :
    Ends (schedulerDestroyUserTask k t)
      (fun ph => Freed P k.phys.pmm (rowPages (k.task t) (S t)) ph.pmm ∧ ph.mem = k.phys.mem ∧
        ph.cr3 = k.phys.cr3)
      (Full k.phys.pmm (rowPages (k.task t) (S t))) := by
  unfold schedulerDestroyUserTask
  dsimp only
  by_cases hm : (k.task t).mode = .user
  · have hu : IsUser (k.task t) := ⟨ht, hm⟩
    have hs := h.user t hu
    obtain ⟨h6, -⟩ := hs.fits.length
    have hne : (k.task t).userPages ≠ [] := by
      intro hc
      rw [hc, List.length_nil] at h6
      omega
    have hcount : (k.task t).userPageCount > 0 := by
      rw [hs.count]
      omega
    have hroot : (k.task t).cr3 ≠ 0 := by
      have := hs.root.realizes.root_page.pos
      omega
    have hout := h.split_user hu
    have hpages : ((k.task t).userPages : Multiset Nat) ≤ outstanding k.phys.pmm.history := by
      rw [hout, add_left_comm]
      exact Multiset.le_add_right _ _
    rw [if_neg (not_not.mpr hm), rowPages_user hu, add_comm (tables _ _)]
    unfold releaseRowPages
    rw [if_pos ⟨hne, hcount⟩]
    refine ends_bind ((schedulerReleaseUserPages_freed h.inv hpages).mono (fun _ hf => hf)
      fun _ he => he.mono (Multiset.le_add_right _ _)) ?_
    intro pmm hf
    have htables : tables (k.task t).cr3 (S t) ≤ outstanding pmm.history := by
      have hsplit := hf.out
      rw [hout, add_left_comm] at hsplit
      rw [← add_left_cancel hsplit]
      exact Multiset.le_add_right _ _
    rw [if_pos hroot]
    exact (vmmFreeClonedAddressSpace_freed { k.phys with pmm := pmm } hs.root.realizes hf.inv
      h.vmm htables).mono (fun _ hg => ⟨hf.trans hg.1, hg.2⟩) fun _ he => he.after hf
  · rw [if_pos hm, rowPages_other (fun hc => hm hc.2)]
    exact ⟨Freed.refl h.inv, rfl, rfl⟩

/-- Everything a row holds goes back; memory is left alone. -/
theorem schedulerDestroyUserTask_spec {P : Pool} {k : KernelState} {sk : Shape}
    {S : TaskId → Shape} (h : MemInv P k sk S) {t : TaskId} (ht : (k.task t).state ≠ .empty) :
    Ends (schedulerDestroyUserTask k t)
      (fun ph => PmmInv P ph.pmm ∧ outstanding ph.pmm.history = otherPages k sk S t ∧
        ph.mem = k.phys.mem ∧ ph.cr3 = k.phys.cr3)
      (fun e => e = "pmm recycle stack full") := by
  refine (schedulerDestroyUserTask_freed h ht).mono
    (fun ph hf => ⟨hf.1.inv, ?_, hf.2⟩) fun e he => he.1
  have hout := hf.1.out
  rw [h.split t] at hout
  exact (add_left_cancel hout).symm

/-! ## Steps -/

section Step

variable {P : Pool} {k k' : KernelState} {sk : Shape} {S : TaskId → Shape} {a : Act}

/-- A changed row of the current task that keeps its memory. -/
theorem SameSpace.setTask {s : SchedState} {t : TaskId} {row : Task}
    (h : SameSpace (s.task t) row) (u : TaskId) : SameSpace (s.task u) ((s.setTask t row).task u) := by
  rw [setTask_task]
  split_ifs with hu
  · rw [hu]
    exact h
  · exact SameSpace.refl _

/-- The program break of the current task moves inside its heap. -/
theorem MemInv.brk (hk : KernelOk k) (h : MemInv P k sk S) {b : Int}
    (hm : (k.task k.current).mode = .user) (hlo : (k.task k.current).heapBase ≤ b)
    (hhi : b ≤ (k.task k.current).heapLimit) :
    ∃ S', MemInv P { k with
      sched := k.sched.setTask k.current { k.task k.current with heapBreak := b } } sk S' := by
  have hu : IsUser (k.task k.current) := ⟨hk.current_present, hm⟩
  refine ⟨_, h.replace k.current { k.task k.current with heapBreak := b } (S k.current)
    (fun u => setTask_task _ _ u _) rfl
    (fun _ _ => rfl) h.inv ?_ (fun p _ => SamePage.refl _ p) (fun _ => ?_) (fun _ hc => ?_) ?_⟩
  · rw [h.split_user hu, rowPages_user (by exact hu), add_assoc]
  · exact { h.user _ hu with break_low := hlo, break_high := hhi }
  · rw [hm] at hc
    cases hc
  · refine h.cr3.trans ?_
    show _ = ((k.sched.setTask k.current _).task k.current).cr3
    rw [setTask_task, if_pos rfl]

/-- Stores of the current task and new descriptors. -/
theorem MemInv.files (hk : KernelOk k) (h : MemInv P k sk S) {k₁ : KernelState}
    (hd : FileDone k k₁) {m : Mem} (hm : Stored k m) :
    ∃ S', MemInv P { k₁ with phys := { k₁.phys with mem := m } } sk S' := by
  obtain ⟨vfs, heap, fds, rfl⟩ := hd.shape
  have hcr3 : k.phys.cr3 = ((k.sched.setTask k.current
      { k.task k.current with fds := fds }).task k.current).cr3 := by
    rw [setTask_task, if_pos rfl]
    exact h.cr3
  by_cases hu : (k.task k.current).mode = .user
  · have hu : IsUser (k.task k.current) := ⟨hk.current_present, hu⟩
    have honly := Stored.onlyPages h hu (hk.base _ hu.2) hm.1
    refine ⟨_, h.replace k.current { k.task k.current with fds := fds } (S k.current)
      (fun u => setTask_task _ _ u _) rfl
      (fun _ _ => rfl) h.inv ?_ (fun p hp => ?_) (fun _ => ?_) (fun _ hc => ?_) hcr3⟩
    · rw [rowPages_user (by exact hu), add_assoc]
      exact h.split_user hu
    · exact h.samePage hu honly (Multiset.mem_add.mpr (Or.inr hp))
    · have hs := (h.user _ hu).frame fun p hp =>
        h.samePage hu honly (Multiset.mem_add.mpr (Or.inl hp))
      exact { hs with }
    · rw [hu.2] at hc
      cases hc
  · have hmem : m = k.phys.mem := hm.2.resolve_right hu
    refine ⟨S, h.same (fun u => ?_) rfl rfl rfl hmem hcr3⟩
    exact SameSpace.setTask (by exact ⟨Iff.rfl, rfl, rfl, rfl, rfl, rfl, rfl, rfl, rfl⟩) u

/-- A new task in an empty slot. -/
theorem MemInv.spawn (hk : KernelOk k) (h : MemInv P k sk S) {img : Image} {t : TaskId}
    {row : Task} {ph : Phys} {heap : Heap} {vfs : VfsState} {fds : Fin 4 → Nat} {sh : Shape}
    {n : Nat} {q : RingBuffer TaskId} {kont : TaskId → Kont} (ht : (k.task t).state = .empty)
    (hn : NewSpace P k img row ph sh) :
    MemInv P { k with
      phys := ph, heap := heap, vfs := vfs
      sched := { k.sched.setTask t { row with fds := fds } with taskCount := n, queue := q }
      kont := kont
      ghost := k.ghost.spawn t k.current img } sk (Function.update S t sh) := by
  have hempty : ¬ IsUser (k.task t) := fun hc => hc.1 ht
  have hother : otherPages k sk S t = outstanding k.phys.pmm.history := by
    rw [h.split t, rowPages_other hempty, zero_add]
  have hcur : k.current ≠ t := by
    intro hc
    exact hk.current_present (hc ▸ ht)
  refine h.replace t { row with fds := fds } sh (fun u => setTask_task _ _ u _) rfl
    (fun u hu => ?_) hn.inv ?_ (fun p hp => ?_) (fun _ => ?_) (fun _ hc => ?_) ?_
  · exact Function.update_of_ne hu _ _
  · rw [hother, rowPages_user (by exact hn.user), add_assoc]
    exact hn.out
  · rw [hother] at hp
    exact hn.keeps p hp
  · show UserSpace _ (Function.update k.ghost.image t img t) _ _
    rw [Function.update_self]
    exact { hn.space with }
  · rw [hn.user.2] at hc
    cases hc
  · refine (hn.cr3.trans h.cr3).trans ?_
    show _ = ((k.sched.setTask t _).task k.current).cr3
    rw [setTask_task, if_neg hcur]
    rfl

/-- A new program in the current task. -/
theorem MemInv.exec (hk : KernelOk k) (h : MemInv P k sk S) {img : Image} {argv envp : ExecVec}
    {im : UserImage} {ph : Phys} {heap heap' : Heap} {cpu : Cpu} {rsp0 : Nat}
    (hm : (k.task k.current).mode = .user) (hv : elfValidateUserImage img = .ok true)
    (hr : replaceUserImage k.vmm (k.task k.current).cr3 (k.task k.current).userBase
      (k.task k.current).userPages (k.task k.current).userPageCount img argv envp k.phys
      k.heap = .ok (im, ph, heap)) :
    ∃ S', MemInv P { k with
      phys := { ph with cr3 := (k.task k.current).cr3 }
      heap := heap'
      sched := k.sched.setTask k.current { k.task k.current with
        userPages := im.pages, userPageCount := im.pageCount, userLimit := im.limit,
        heapBase := im.heapBase, heapLimit := im.heapLimit, heapBreak := im.heapBreak }
      cpu := cpu
      rsp0 := rsp0
      ghost := { k.ghost with image := Function.update k.ghost.image k.current img } } sk S' := by
  have hu : IsUser (k.task k.current) := ⟨hk.current_present, hm⟩
  have hs := h.user _ hu
  rw [hk.base _ hm, hs.count] at hr
  obtain ⟨⟨sh', hpl⟩, -⟩ := (replaceUserImage_spec h.vmm h.inv hs.fits hs.root hk.heap hv argv envp
    (h.split_user hu)).of_ok hr
  dsimp only at hpl
  refine ⟨_, h.replace k.current { k.task k.current with
      userPages := im.pages, userPageCount := im.pageCount, userLimit := im.limit,
      heapBase := im.heapBase, heapLimit := im.heapLimit, heapBreak := im.heapBreak } sh'
    (fun u => setTask_task _ _ u _) rfl (fun u hu => ?_) hpl.inv ?_ hpl.keeps (fun _ => ?_)
    (fun _ hc => ?_) ?_⟩
  · exact Function.update_of_ne hu _ _
  · rw [rowPages_user (by exact hu), add_assoc]
    exact hpl.out
  · show UserSpace _ (Function.update k.ghost.image k.current img k.current) _ _
    rw [Function.update_self]
    exact Placed.space hpl rfl rfl rfl rfl rfl rfl rfl
  · rw [hm] at hc
    cases hc
  · show _ = ((k.sched.setTask k.current _).task k.current).cr3
    rw [setTask_task, if_pos rfl]

/-- An exited task is gone. -/
theorem MemInv.reap (hk : KernelOk k) (h : MemInv P k sk S) {t : TaskId} {ph : Phys}
    {vfs : VfsState} {kont : TaskId → Kont} {ghost : Ghost} (ht : (k.task t).state = .exited)
    (hd : schedulerDestroyUserTask k t = .ok ph) (hg : ghost.image = k.ghost.image) :
    ∃ S', MemInv P { k with
      phys := ph, vfs := vfs, sched := releaseRow k.sched t, kont := kont, ghost := ghost } sk
      S' := by
  have hne : (k.task t).state ≠ .empty := by
    rw [ht]
    decide
  have hcur : k.current ≠ t := by
    rintro rfl
    have hr : (k.task k.current).state = .runnable := hk.queue.current_runnable
    rw [hr] at ht
    cases ht
  obtain ⟨hinv, hout, hmem, hcr3⟩ := (schedulerDestroyUserTask_spec h hne).of_ok hd
  refine ⟨_, h.replace t clearTask (S t) (releaseRow_task k.sched t) rfl
    (fun u _ => congrFun hg u) hinv ?_ (fun p _ => ?_) (fun hu => absurd rfl hu.1)
    (fun hu => absurd rfl hu) ?_⟩
  · rw [rowPages_other (fun hu => hu.1 rfl), zero_add]
    exact hout
  · show SamePage k.phys.mem ph.mem p
    rw [hmem]
    exact SamePage.refl _ p
  · refine (hcr3.trans h.cr3).trans ?_
    show _ = ((releaseRow k.sched t).task k.current).cr3
    rw [releaseRow_task, if_neg hcur]
    rfl

theorem Effect.memInv (hk : KernelOk k) (h : MemInv P k sk S) (he : Effect k a k') :
    ∃ S', MemInv P k' sk S' := by
  cases he with
  | tick now => exact ⟨S, h.same (fun t => SameSpace.refl _) rfl rfl rfl rfl h.cr3⟩
  | brk b hm hlo hhi => exact h.brk hk hm hlo hhi
  | files hd hm => exact h.files hk hd hm
  | stack hs => exact ⟨S, h.same (fun t => SameSpace.refl _) rfl rfl rfl rfl h.cr3⟩
  | stay now q hw hq => exact ⟨S, h.same (fun t => SameSpace.refl _) rfl rfl rfl rfl h.cr3⟩
  | leave now hne q hw hq hs =>
    exact ⟨S, h.same (fun t => SameSpace.refl _) rfl rfl rfl rfl rfl⟩
  | @spawn img argv envp t row phys heap vfs fds q ht hb hh hq =>
    obtain ⟨⟨sh, hn⟩, -⟩ := (buildUserTask_memory h.inv h.vmm hk.heap img argv envp).of_ok hb
    exact ⟨_, h.spawn hk ht hn⟩
  | exec hm hv hr hc => exact h.exec hk hm hv hr
  | @exit exitCode regs ha hc next hne q hq m hs =>
    refine ⟨S, h.same (fun t => ?_) rfl rfl rfl rfl rfl⟩
    show SameSpace (k.sched.task t) ((exitCurrent k.sched exitCode).task t)
    rw [exitCurrent_row]
    refine ⟨?_, rfl, rfl, rfl, rfl, rfl, rfl, rfl, rfl⟩
    dsimp only
    split_ifs with htc
    · rw [htc]
      exact ⟨(fun hx => by cases hx), fun hx => absurd hx hk.current_present⟩
    · exact Iff.rfl
  | reap hw ht hd hf => exact h.reap hk (waitTarget_exited ht) hd rfl

end Step

/-! ## Runs -/

/-- At boot the tables of the kernel root are all that is handed out. -/
theorem Booted.memInv {M : Machine} {k : KernelState} (h : Booted M k) :
    ∃ sk S, outstanding k.phys.pmm.history = tables k.vmm.rootP4 sk ∧ MemInv M.pool k sk S := by
  obtain ⟨sk, hm⟩ := h.memory
  obtain ⟨row0, row1, hrows, htask⟩ := h.rows
  obtain ⟨c0, s0, f0, h0⟩ := hrows.row0
  obtain ⟨c1, s1, f1, h1⟩ := hrows.row1
  have hmode : ∀ t, (k.task t).mode = .kernel := by
    intro t
    unfold KernelState.task
    rw [htask]
    refine bootstrapSched_task (P := fun row => row.mode = .kernel) ?_ ?_ rfl t
    · rw [h0]
      rfl
    · rw [h1]
      rfl
  have hroot : ∀ t, (k.task t).state ≠ .empty → (k.task t).cr3 = k.vmm.rootP4 := by
    intro t
    unfold KernelState.task
    rw [htask]
    refine bootstrapSched_task (P := fun row => row.state ≠ .empty → row.cr3 = _) ?_ ?_ ?_ t
    · rw [h0]
      exact fun _ => rfl
    · rw [h1]
      exact fun _ => rfl
    · exact fun hc => absurd rfl hc
  have hnone : ∀ t, ¬ IsUser (k.task t) := by
    intro t hu
    have hc := hu.2
    rw [hmode t] at hc
    cases hc
  refine ⟨sk, fun _ => sk, hm.out, hm.inv, hm.vmm, hm.kernel, ?_, fun t hu => absurd hu (hnone t),
    fun t ht _ => hroot t ht, ?_⟩
  · rw [hm.out, Finset.sum_eq_zero fun t _ => rowPages_other (hnone t), add_zero]
  · rw [hm.cr3]
    exact (hroot _ h.kernelOk.current_present).symm

/-- No step moves the kernel root. -/
theorem Effect.vmm {k k' : KernelState} {a : Act} (h : Effect k a k') : k'.vmm = k.vmm := by
  cases h with
  | files hd hm =>
    obtain ⟨vfs, heap, fds, rfl⟩ := hd.shape
    rfl
  | _ => rfl

theorem ReachableBy.memInv_from {M : Machine} {A : KernelState → Act → Prop}
    {k₀ k : KernelState} (hb : Kernel.boot M = .ok k₀) (h : ReachableBy M A k) :
    ∃ sk S, outstanding k₀.phys.pmm.history = tables k.vmm.rootP4 sk ∧ MemInv M.pool k sk S := by
  induction h with
  | boot hb' =>
    obtain rfl := Except.ok.inj (hb.symm.trans hb')
    exact ((boot_spec M).of_ok hb).memInv
  | step hr _ he ha ih =>
    obtain ⟨sk, S, hout, hm⟩ := ih
    have heff := (act_effect hr.kernelOk he).of_ok ha
    obtain ⟨S', hm'⟩ := heff.memInv hr.kernelOk hm
    exact ⟨sk, S', by rw [heff.vmm]; exact hout, hm'⟩

theorem ReachableBy.memInv {M : Machine} {A : KernelState → Act → Prop} {k : KernelState}
    (h : ReachableBy M A k) : ∃ sk S, MemInv M.pool k sk S := by
  have hboot : ∃ k₀, Kernel.boot M = .ok k₀ := by
    induction h with
    | boot hb => exact ⟨_, hb⟩
    | step _ _ _ _ ih => exact ih
  obtain ⟨k₀, hb⟩ := hboot
  obtain ⟨sk, S, -, hm⟩ := h.memInv_from hb
  exact ⟨sk, S, hm⟩

end PcoOs.Kernel
