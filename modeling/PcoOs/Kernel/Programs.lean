/-
  Programs from their start. `startCpu` and `startView` are the registers and the memory a program
  begins with, as its image and its two vectors say. A task that was made with an image begins so
  when it first gets the processor, whatever happened in between (`program_starts`), and so does
  the current task when its program is replaced (`program_replaced`).
-/
import PcoOs.Image.Fresh
import PcoOs.Kernel.Integrity
import PcoOs.Kernel.Recycle
import PcoOs.Kernel.Spawn

namespace PcoOs.Kernel

open PcoOs.Lib PcoOs.Pmm PcoOs.Support PcoOs.Vmm PcoOs.Elf PcoOs.Image PcoOs.Sched PcoOs.Vfs
  PcoOs.Syscall

/-- What a program sees of its memory at first. -/
def startView (img : Image) (argv envp : ExecVec) (virt : Nat) : Option (UInt8 × Bool) :=
  if windowPage ≤ virt / 4096 % 2 ^ 36 ∧ windowIndex virt < spacePages img then
    some (startByte img argv envp (4096 * windowIndex virt + virt % 4096),
      pageWritable img (windowIndex virt))
  else none

/-- It begins at its entry point, with its arguments in three registers. -/
def startCpu (img : Image) (argv envp : ExecVec) : Cpu :=
  let start := startOf img argv envp
  .enterUser (word (userTaskRegionBase + entryPoint img)) (word start.rsp) (word start.argc)
    (word start.argvPtr) (word start.envpPtr)

/-! ## Memory -/

theorem UserSpace.startView {row : Task} {img : Image} {m : Mem} {sh : Shape}
    (h : UserSpace row img m sh) (hp : ∀ p ∈ row.userPages, p % 4096 = 0)
    (hlen : img.length < 2 ^ 63) (hf : ∀ s ∈ segments img, PlainFields s) {argv envp : ExecVec}
    (hfresh : Fresh img argv envp row.userPages m) (virt : Nat) :
    userView m row.cr3 virt = startView img argv envp virt := by
  by_cases hv : InWindow row virt
  · have hi := hv.2
    have hbyte := hfresh.bytes (4096 * windowIndex virt + virt % 4096) (by omega)
    have hw : decide (userPageFlag img (windowIndex virt) = 7) = pageWritable img (windowIndex virt) :=
      Bool.eq_iff_iff.mpr (by
        rw [decide_eq_true_iff]
        exact userPageFlag_iff hlen h.fits.valid hf _)
    unfold byteAt pageAddr at hbyte
    rw [show (4096 * windowIndex virt + virt % 4096) / 4096 = windowIndex virt by omega,
      show (4096 * windowIndex virt + virt % 4096) % 4096 = virt % 4096 by omega] at hbyte
    unfold Kernel.startView
    rw [h.userView_inside hp hv, hbyte, hw, if_pos ⟨hv.1, hfresh.count ▸ hi⟩]
  · unfold Kernel.startView
    rw [h.userView_outside hv, if_neg (fun hc => hv ⟨hc.1, hfresh.count.symm ▸ hc.2⟩)]

/-! ## Registers -/

theorem enterContext_user {code : Code} {m : Mem} {ptr : Nat} (hne : code.userTask ≠ code.interruptReturn)
    {c : Ctx} (hc : loadContext m ptr = c) (hr : loadWord m c.rsp.toNat = code.userTask) :
    enterContext code m ptr = .enterUser c.r12 c.r13 c.rbx c.rbp c.r14 := by
  unfold enterContext
  dsimp only
  rw [hc, hr, if_neg hne, if_pos rfl]

/-- A context made for a program leads to the program. -/
theorem resumes_user {code : Code} (hne : code.userTask ≠ code.interruptReturn) {row : Task}
    (hb : RowBlocks row) (hlt : spanStop row < 2 ^ 63) {rip rsp argc argvPtr envpPtr : UInt64}
    {m m₁ : Mem} (h : schedulerConfigureUserTaskContext code m row.contextPtr row.stackBase rip rsp
      argc argvPtr envpPtr = .ok m₁) :
    Resumes code row m₁ (.enterUser rip rsp argc argvPtr envpPtr) := by
  have hstart := hb.start_le
  obtain ⟨hc16, h0, hd⟩ := hb.context
  unfold schedulerConfigureUserTaskContext at h
  obtain ⟨m₂, hm₂, hload, htramp, -⟩ := configureContext_spec (m := m) code.userTask argc argvPtr rip
    rsp envpPtr hc16 h0 hd hb.stack
  cases h.symm.trans hm₂
  unfold spanStop taskStackSize at hlt
  intro m' hm'
  unfold spanStop taskStackSize at hm'
  have hctx := (loadContext_congr fun x h1 h2 => hm' x (by omega) (by omega)).trans hload
  refine enterContext_user hne hctx ?_
  dsimp only
  rw [UInt64.toNat_ofNat_of_lt' (by unfold UInt64.size; omega)]
  exact (loadWord_congr fun x h1 h2 => hm' x (by omega) (by omega)).trans htramp

/-! ## A new task -/

/-- The heap of an image is empty at first. -/
theorem describeUserImage_break {img : Image} {pages : List Nat} {start : UserStart} {im : UserImage}
    (h : describeUserImage img pages start = .ok im) : im.heapBreak = im.heapBase := by
  unfold describeUserImage at h
  obtain ⟨n, -, h⟩ := bind_eq_ok.mp h
  obtain ⟨entry, -, h⟩ := bind_eq_ok.mp h
  cases h
  rfl

theorem schedulerInstallUserImage_break {v : VmmState} {root : Nat} {img : Image}
    {argv envp : ExecVec} {ph ph' : Phys} {heap heap' : Heap} {im : UserImage}
    (h : schedulerInstallUserImage v root img argv envp ph heap = .ok (im, ph', heap')) :
    im.heapBreak = im.heapBase := by
  unfold schedulerInstallUserImage at h
  obtain ⟨r₁, -, h⟩ := bind_eq_ok.mp h
  obtain ⟨r₂, -, h⟩ := bind_eq_ok.mp h
  obtain ⟨r₃, -, h⟩ := bind_eq_ok.mp h
  obtain ⟨r₄, h₄, h⟩ := bind_eq_ok.mp h
  cases h
  exact describeUserImage_break h₄

theorem replaceUserImage_break {v : VmmState} {root : Nat} {base : Int} {old : List Nat} {n : Nat}
    {img : Image} {argv envp : ExecVec} {ph ph' : Phys} {heap heap' : Heap} {im : UserImage}
    (h : replaceUserImage v root base old n img argv envp ph heap = .ok (im, ph', heap')) :
    im.heapBreak = im.heapBase := by
  unfold replaceUserImage at h
  obtain ⟨r₁, -, h⟩ := bind_eq_ok.mp h
  obtain ⟨r₂, -, h⟩ := bind_eq_ok.mp h
  obtain ⟨r₃, -, h⟩ := bind_eq_ok.mp h
  obtain ⟨r₄, -, h⟩ := bind_eq_ok.mp h
  obtain ⟨r₅, h₅, h⟩ := bind_eq_ok.mp h
  cases h
  exact describeUserImage_break h₅

/-- The image a new row was made for, and the context made for it. -/
structure Built (k : KernelState) (img : Image) (argv envp : ExecVec) (row : Task) (phys : Phys)
    (heap : Heap) : Prop where
  image : ∃ im m, Starts img argv envp im phys.mem ∧ row.userPages = im.pages ∧
    schedulerConfigureUserTaskContext k.code m row.contextPtr row.stackBase (word im.rip)
      (word im.start.rsp) (word im.start.argc) (word im.start.argvPtr) (word im.start.envpPtr) =
        .ok heap.mem
  heapBreak : row.heapBreak = row.heapBase

theorem buildUserTask_built {P : Pool} {k : KernelState} (hinv : PmmInv P k.phys.pmm)
    (hvm : VmmOk k.vmm) (hh : HeapOk k.heap) {img : Image} (hlen : img.length < 2 ^ 63)
    (hf : ∀ s ∈ segments img, PlainFields s) {argv envp : ExecVec} {row : Task} {phys : Phys}
    {heap : Heap} (h : buildUserTask k img argv envp = .ok (row, phys, heap)) :
    Built k img argv envp row phys heap := by
  unfold buildUserTask at h
  obtain ⟨⟨root, ph₁⟩, h₁, h⟩ := bind_eq_ok.mp h
  obtain ⟨⟨frame, heap₁⟩, h₂, h⟩ := bind_eq_ok.mp h
  obtain ⟨valid, hv, h⟩ := bind_eq_ok.mp h
  cases valid with
  | false => cases h
  | true =>
  obtain ⟨⟨im, ph₂, heap₂⟩, h₃, h⟩ := bind_eq_ok.mp h
  obtain ⟨⟨ctxPtr, stackBase, heap₃⟩, h₄, h⟩ := bind_eq_ok.mp h
  cases h
  obtain ⟨sh, hnew, -⟩ := (vmmCreateTaskAddressSpace_spec hinv hvm).of_ok h₁
  obtain ⟨-, ok₁, -⟩ := (allocBytes_spec hh (by decide)).of_ok h₂
  have hstarts := schedulerInstallUserImage_starts hlen hv hf hvm hnew.inv ok₁ (NewRoot.bare hnew)
    (R := outstanding k.phys.pmm.history) (by rw [hnew.out, add_comm]) h₃
  refine ⟨?_, schedulerInstallUserImage_break h₃⟩
  unfold schedulerPrepareUserTaskContext at h₄
  obtain ⟨⟨ctx, stack, heap₅⟩, h₅, h₄⟩ := bind_eq_ok.mp h₄
  obtain ⟨m, hm, h₄⟩ := bind_eq_ok.mp h₄
  cases h₄
  exact ⟨im, heap₅.mem, hstarts, rfl, hm⟩

theorem buildUserTask_valid {k : KernelState} {img : Image} {argv envp : ExecVec} {row : Task}
    {phys : Phys} {heap : Heap} (h : buildUserTask k img argv envp = .ok (row, phys, heap)) :
    elfValidateUserImage img = .ok true := by
  unfold buildUserTask at h
  obtain ⟨r₁, -, h⟩ := bind_eq_ok.mp h
  obtain ⟨r₂, -, h⟩ := bind_eq_ok.mp h
  obtain ⟨valid, hv, h⟩ := bind_eq_ok.mp h
  cases valid with
  | false => cases h
  | true => exact hv

theorem Built.fresh {k : KernelState} {img : Image} {argv envp : ExecVec} {row : Task} {phys : Phys}
    {heap : Heap} (h : Built k img argv envp row phys heap) :
    Fresh img argv envp row.userPages phys.mem := by
  obtain ⟨im, m, hstarts, hpages, -⟩ := h.image
  rw [hpages]
  exact hstarts.fresh

theorem buildUserTask_starts {P : Pool} {k : KernelState} (hinv : PmmInv P k.phys.pmm)
    (hvm : VmmOk k.vmm) (hh : HeapOk k.heap) (hne : k.code.userTask ≠ k.code.interruptReturn)
    {img : Image} (hlen : img.length < 2 ^ 63) (hf : ∀ s ∈ segments img, PlainFields s)
    {argv envp : ExecVec} {row : Task} {phys : Phys} {heap : Heap}
    (h : buildUserTask k img argv envp = .ok (row, phys, heap)) :
    Fresh img argv envp row.userPages phys.mem ∧
      Resumes k.code row heap.mem (startCpu img argv envp) := by
  have hrow := buildUserTask_blocks hh h
  have hbuilt := buildUserTask_built hinv hvm hh hlen hf h
  have hstop : spanStop row < 2 ^ 63 := by
    have h1 := hrow.fresh.stop
    have h2 := hrow.heap.ok.le
    have h3 := hrow.heap.ok.stop_lt
    omega
  refine ⟨hbuilt.fresh, ?_⟩
  obtain ⟨im, m, hstarts, -, hm⟩ := hbuilt.image
  rw [hstarts.rip, hstarts.start] at hm
  exact resumes_user hne hrow.fresh.blocks hstop hm

theorem buildUserTask_loads {P : Pool} {k : KernelState} (hinv : PmmInv P k.phys.pmm)
    (hvm : VmmOk k.vmm) (hh : HeapOk k.heap) {img : Image} (hlen : img.length < 2 ^ 63)
    (hv : elfValidateUserImage img = .ok true) (hf : ∀ s ∈ segments img, PlainFields s)
    (argv envp : ExecVec) :
    Ends (buildUserTask k img argv envp) (fun _ => True)
      (fun _ => k.phys.pmm.freePages < 76 ∨ k.heap.stop < k.heap.ptr + 6600 ∨ Overruns img) := by
  unfold buildUserTask interruptFrameQwordCount
  refine ends_bind ((vmmCreateTaskAddressSpace_spec hinv hvm).mono (fun _ h => h)
    fun _ h => Or.inl (by omega)) ?_
  rintro ⟨root, ph₁⟩ ⟨sh, hnew, hfree⟩
  dsimp only at hnew hfree ⊢
  refine ends_bind ((allocBytes_spec hh (by decide)).mono (fun _ h => h)
    fun _ h => Or.inr (Or.inl (by omega))) ?_
  rintro ⟨frame, heap₁⟩ ⟨-, ok₁, g₁, -, l₁⟩
  dsimp only at ok₁ g₁ l₁ ⊢
  have hstop₁ := g₁.stop
  have hR : outstanding ph₁.pmm.history = tables root sh + outstanding k.phys.pmm.history := by
    rw [hnew.out, add_comm]
  have hb := NewRoot.bare hnew
  rw [hv, ok_bind, if_neg (by decide)]
  refine ends_bind (((schedulerInstallUserImage_spec hvm hnew.inv hb ok₁ hv argv envp hR).and
    (schedulerInstallUserImage_loads hlen hv hf hvm hnew.inv ok₁ hb hR)).mono (fun _ h => h.1)
      ?_) ?_
  · intro _ he
    obtain he | he | he := he.2
    · exact Or.inl (by omega)
    · exact Or.inr (Or.inl (by omega))
    · exact Or.inr (Or.inr he)
  rintro ⟨im, ph₂, heap₂⟩ ⟨-, ok₂, g₂, l₂⟩
  dsimp only at ok₂ g₂ l₂ ⊢
  have hstop₂ := g₂.stop
  exact ends_bind ((prepareContext_spec ok₂ _ _ _ _ _ _).mono (fun _ h => h)
    fun _ h => Or.inr (Or.inl (by omega))) fun _ _ => trivial

/-- What creating a task does to the rows, and where its row comes from. -/
structure Created (k : KernelState) (img : Image) (argv envp : ExecVec) (t : TaskId)
    (k' : KernelState) : Prop where
  slot : (k.task t).state = .empty
  built : ∃ row fds, buildUserTask k img argv envp = .ok (row, k'.phys, k'.heap) ∧
    schedulerInitTaskFds k.vfs = .ok (fds, k'.vfs) ∧ k'.task t = { row with fds := fds }
  others : ∀ u, u ≠ t → k'.task u = k.task u ∧ k'.ghost.image u = k.ghost.image u
  image : k'.ghost.image t = img
  code : k'.code = k.code
  current : k'.current = k.current

theorem created {k k' : KernelState} (hk : KernelOk k) {img : Image} {argv envp : ExecVec}
    {t : TaskId} (h : schedulerCreateUserElfTask k img argv envp = .ok (t, k')) :
    Created k img argv envp t k' := by
  unfold schedulerCreateUserElfTask at h
  obtain ⟨u, hfind, h⟩ := bind_eq_ok.mp h
  obtain ⟨⟨row, phys, heap⟩, hb, h⟩ := bind_eq_ok.mp h
  obtain ⟨⟨fds, vfs⟩, hfds, h⟩ := bind_eq_ok.mp h
  obtain ⟨q, hq, -⟩ := publishTask_eq hk.queue u { row with fds := fds }
  dsimp only at h
  rw [hq, ok_bind] at h
  cases h
  refine ⟨(schedulerFindFreeTaskId_spec hk.table).of_ok hfind,
    ⟨row, fds, (orPanic_ends _).of_ok hb, (orPanic_ends _).of_ok hfds, ?_⟩, fun w hw => ?_,
    Function.update_self .., rfl, rfl⟩
  · exact (publishTask_task t).trans (if_pos rfl)
  · exact ⟨(publishTask_task w).trans (if_neg hw), Function.update_of_ne hw ..⟩

theorem ReachableBy.code {M : Machine} {A : KernelState → Act → Prop} {k : KernelState}
    (h : ReachableBy M A k) : k.code = M.code := by
  induction h with
  | boot hb => exact ((boot_spec M).of_ok hb).code
  | step hr _ he ha ih => exact ((act_effect hr.kernelOk he).of_ok ha).code.trans ih

/-- The current task begins `img`. -/
structure Begins (img : Image) (argv envp : ExecVec) (k : KernelState) : Prop where
  cpu : k.cpu = startCpu img argv envp
  view : ∀ virt, userView k.phys.mem k.phys.cr3 virt = startView img argv envp virt

section Runs

variable {M : Machine} {k : KernelState} (h : Reachable M k)
  (hne : M.code.userTask ≠ M.code.interruptReturn) {img : Image} (hlen : img.length < 2 ^ 63)
  (hf : ∀ s ∈ segments img, PlainFields s) {argv envp : ExecVec}

include h hne hlen hf

theorem created_begins (he : Enabled k (.spawn img argv envp)) {t : TaskId} {k₁ k₂ : KernelState}
    (hc : schedulerCreateUserElfTask k img argv envp = .ok (t, k₁)) (haway : Away t k₁ k₂)
    (hcur : k₂.current = t) : Begins img argv envp k₂ := by
  have hcr := created h.kernelOk hc
  obtain ⟨sk, S, hm⟩ := h.memInv
  obtain ⟨row, fds, hb, -, hrow⟩ := hcr.built
  obtain ⟨hfresh, hres⟩ := buildUserTask_starts hm.inv hm.vmm h.kernelOk.heap
    (by rw [h.code]; exact hne) hlen hf hb
  have ha : act k (.spawn img argv envp) = .ok k₁ := by
    dsimp only [act]
    rw [hc, ok_bind]
  have h₁ : Reachable M k₁ := h.step trivial he ha
  have hnew := buildUserTask_blocks h.kernelOk.heap hb
  have hu₁ : IsUser (k₁.task t) := by
    rw [hrow]
    refine ⟨?_, hnew.mode⟩
    rw [show ({ row with fds := fds } : Task).state = row.state from rfl, hnew.state]
    decide
  have hleft : k₁.current ≠ t := by
    rw [hcr.current]
    intro hct
    exact h.kernelOk.current_present (hct ▸ hcr.slot)
  obtain ⟨hk₁, hblocks₁⟩ := h₁.blocksInv
  constructor
  · refine haway.resumes hk₁ hblocks₁ hu₁.1 ?_ hleft hcur
    rw [hcr.code, hrow]
    exact hres
  · intro virt
    obtain ⟨h₂, -, hview⟩ := haway.userView h₁ hu₁
    obtain ⟨sk₁, S₁, hm₁⟩ := h₁.memInv
    obtain ⟨sk₂, S₂, hm₂⟩ := h₂.memInv
    have hspace := hm₁.user t hu₁
    rw [hcr.image] at hspace
    have hpages : Fresh img argv envp (k₁.task t).userPages k₁.phys.mem := by
      rw [hrow]
      exact hfresh
    rw [hm₂.cr3, hcur, hview virt]
    exact hspace.startView (hm₁.pages_aligned hu₁) hlen hf hpages virt

variable (hv : elfValidateUserImage img = .ok true)

include hv in
/-- Making a task for an accepted image succeeds where there is room for it. The task begins the
    image when it first gets the processor, however long that takes and whatever the others do
    until then: at the entry point, with its arguments, in a space that holds the image and its
    stack and no byte of anything else. -/
theorem program_starts (he : Enabled k (.spawn img argv envp)) :
    Ends (schedulerCreateUserElfTask k img argv envp)
      (fun r => ∀ k', Away r.1 r.2 k' → k'.current = r.1 → Begins img argv envp k')
      (fun _ => (∀ t, (k.task t).state ≠ .empty) ∨ k.phys.pmm.freePages < 76 ∨
        k.heap.stop < k.heap.ptr + 6600 ∨ Overruns img ∨
        ∃ e, schedulerInitTaskFds k.vfs = .error e) := by
  obtain ⟨sk, S, hm⟩ := h.memInv
  have hreturns : Ends (schedulerCreateUserElfTask k img argv envp) (fun _ => True)
      (fun _ => (∀ t, (k.task t).state ≠ .empty) ∨ k.phys.pmm.freePages < 76 ∨
        k.heap.stop < k.heap.ptr + 6600 ∨ Overruns img ∨
        ∃ e, schedulerInitTaskFds k.vfs = .error e) := by
    unfold schedulerCreateUserElfTask
    refine ends_bind ((schedulerFindFreeTaskId_spec h.kernelOk.table).mono (fun _ _ => trivial)
      fun _ hfull => Or.inl hfull.2) fun t _ => ?_
    refine ends_bind (ends_orPanic ((buildUserTask_loads hm.inv hm.vmm h.kernelOk.heap hlen hv hf
      argv envp).mono (fun _ hb => hb) fun _ hb => ?_)) fun r _ => ?_
    · obtain hb | hb | hb := hb
      · exact Or.inr (Or.inl hb)
      · exact Or.inr (Or.inr (Or.inl hb))
      · exact Or.inr (Or.inr (Or.inr (Or.inl hb)))
    obtain ⟨row, phys, heap⟩ := r
    cases hf : schedulerInitTaskFds k.vfs with
    | error e => exact Or.inr (Or.inr (Or.inr (Or.inr ⟨e, rfl⟩)))
    | ok fds =>
      obtain ⟨q, hq, -⟩ := publishTask_eq h.kernelOk.queue t { row with fds := fds.1 }
      show Ends (do
        let sched ← publishTask k.sched t { row with fds := fds.1 }
        .ok _) _ _
      rw [hq]
      trivial
  refine (ends_iff_ok.mpr fun r hr => ?_ : Ends _ _ fun _ => True).and hreturns |>.mono
    (fun _ hb => hb.1) fun _ hb => hb.2
  exact fun k' haway hcur => created_begins h hne hlen hf he hr haway hcur

end Runs

theorem smallImage_fields : ∀ s ∈ segments smallImage, PlainFields s := by decide +kernel

theorem smallImage_filesz : ∀ s ∈ segments smallImage, s.filesz = 0 := by decide +kernel

theorem smallImage_length : smallImage.length < 2 ^ 63 := by decide +kernel

theorem smallMachine_code : smallMachine.code.userTask ≠ smallMachine.code.interruptReturn := by
  decide

/-- The first task after boot makes one that runs `smallImage`, and yields to it. -/
theorem program_starts_small : ∃ k t k₁ k₂, Reachable smallMachine k ∧
    schedulerCreateUserElfTask k smallImage noStrings noStrings = .ok (t, k₁) ∧ Away t k₁ k₂ ∧
    k₂.current = t ∧ Begins smallImage noStrings noStrings k₂ := by
  obtain ⟨k, hboot, hb⟩ := boot_ok smallMachine_boots
  have hr : Reachable smallMachine k := .boot hboot
  obtain ⟨hcur, hqueue⟩ := hb.start rfl
  obtain ⟨sk, S, hm⟩ := hr.memInv
  obtain ⟨t, k₁, hc, hs⟩ := create_ok hr.kernelOk hm hb.room_small noStrings noStrings
  have he : Enabled k (.spawn smallImage noStrings noStrings) := by
    show k.kont k.current = .run
    rw [hb.kont]
  have ha : act k (.spawn smallImage noStrings noStrings) = .ok k₁ := by
    dsimp only [act]
    rw [hc, ok_bind]
  have hr₁ : Reachable smallMachine k₁ := hr.step trivial he ha
  have ht : t ≠ 0 := by
    intro hz
    have hslot := hs.slot
    rw [hz] at hslot
    exact absurd (hb.queue.idle_runnable.symm.trans hslot) (by decide)
  have hc₁ : k₁.current = 1 := hs.current.trans hcur
  have hq₁ : k₁.sched.queued = [0] ++ t :: [] := by rw [hs.queued, hqueue]
  obtain ⟨hk₁, hb₁⟩ := hr₁.blocksInv
  obtain ⟨regs, hregs⟩ := exists_onStack hk₁ hb₁
  obtain ⟨k₂, ha₂, hc₂, htask, -⟩ := yield_ok hk₁ (by rw [hc₁]; decide) regs hq₁
    (fun x hx => List.mem_singleton.mp hx) ht
  have hrun : Running k₁ := by
    unfold Running
    rw [hs.kont, hc₁, Function.update_apply, hb.kont]
    split_ifs <;> rfl
  have hleft : k₁.current ≠ t := by
    rw [hs.current]
    intro hct
    exact hr.kernelOk.current_present (hct ▸ hs.slot)
  have hkeep : (k₂.task t).state ≠ .empty := by
    unfold KernelState.task
    rw [htask]
    exact hs.user.1
  have haway : Away t k₁ k₂ := Away.refl.step hleft (a := .yield regs) ⟨hrun, hregs⟩ ha₂ hkeep
  have hstarts := program_starts hr smallMachine_code smallImage_length smallImage_fields
    smallImage_valid he
  exact ⟨k, t, k₁, k₂, hr, hc, haway, hc₂, hstarts.of_ok hc k₂ haway hc₂⟩

/-! ## A new program -/

theorem ends_message {α : Type} {x : Except String α} {Q : α → Prop} {E : String → Prop}
    (h : Ends x Q E) : Ends (orPanic x) Q fun p => ∃ e, p = .message e ∧ E e := by
  cases x with
  | ok a => exact h
  | error e => exact ⟨e, rfl, h⟩

theorem card_tables_one {root : Nat} {sh : Shape} {j : Nat} (hj : j < 2048)
    (h : ∀ k, k ≠ j → sh.pt k = none) :
    (tables root sh).card = 6 + (sh.ptPage j).card := by
  rw [tables_one hj h, Multiset.card_cons, Multiset.card_cons, Multiset.card_add, card_p2Below]
  omega

/-- What replacing an image can fail for. -/
theorem replaceUserImage_returns {P : Pool} {root : Nat} {ph : Phys} {sh : Shape} {v : VmmState}
    {heap : Heap} {img img₀ : Image} (hvm : VmmOk v) (hinv : PmmInv P ph.pmm) {pages₀ : List Nat}
    (hfit₀ : Fits img₀ pages₀) (hu : UserRoot ph.mem root sh pages₀ (userPageFlag img₀))
    (hh : HeapOk heap) (hlen : img.length < 2 ^ 63) (hv : elfValidateUserImage img = .ok true)
    (hf : ∀ s ∈ segments img, PlainFields s) (argv envp : ExecVec)
    {R : Multiset Nat} (hR : outstanding ph.pmm.history = tables root sh + (↑pages₀ + R)) :
    Ends (replaceUserImage v root userTaskRegionBase pages₀ pages₀.length img argv envp ph heap)
      (fun _ => True)
      (fun e => ph.pmm.freePages < 69 ∨ heap.stop < heap.ptr + 2200 ∨ Overruns img ∨
        e = "pmm recycle stack full") := by
  obtain ⟨h6₀, h69₀⟩ := hfit₀.length
  unfold replaceUserImage
  refine ends_bind (((schedulerPrepareUserImagePages_spec hinv hh hv).and
    (schedulerPrepareUserImagePages_loads hlen hv hf hinv hh)).mono (fun _ h => h.1) ?_) ?_
  · intro _ he
    obtain he | he | he := he.2
    · exact Or.inl he
    · exact Or.inr (Or.inl (by omega))
    · exact Or.inr (Or.inr (Or.inl he))
  rintro ⟨pages, flags, ph₁, heap₁⟩ ⟨hprep, -, hptr⟩
  dsimp only at hprep hptr ⊢
  obtain ⟨hok₁, hg₁⟩ := hprep.heap
  have hstop := hg₁.stop
  obtain ⟨hfit, hfl, hflags⟩ := hprep.fits hv
  obtain ⟨h6, h69⟩ := hfit.length
  have hpage : ∀ p ∈ pages, TablePage p := fun p hp => hprep.new.page hp
  refine ends_bind ((schedulerBuildUserInitialStack_spec hpage (by omega) argv envp ph₁ hok₁).mono
    (fun _ h => h) fun _ he => Or.inr (Or.inl (by omega))) ?_
  rintro ⟨start, ph₂, heap₂⟩ ⟨ho₂, hpmm₂, hcr₂, -⟩
  dsimp only at ho₂ hpmm₂ hcr₂ ⊢
  have hnew := hprep.new.write ho₂ hpmm₂ hcr₂
  have hu₂ := hu.frame h69₀ fun p hp => hnew.keeps (by
    rw [hR]
    exact Multiset.mem_add.mpr (Or.inl hp))
  have hR₂ : outstanding ph₂.pmm.history = tables root sh + (↑pages₀ + (↑pages + R)) := by
    rw [hnew.out, hR]
    abel
  refine ends_bind ((dropUserImage_spec hvm hnew.inv hfit₀ hu₂ hR₂).mono (fun _ h => h)
    fun _ he => Or.inr (Or.inr (Or.inr he))) ?_
  rintro ph₃ ⟨sh₃, hinv₃, hb₃, hout₃, -⟩
  -- the pages given back are more than a table of the window takes
  have hroom : 0 < ph₃.pmm.freePages := by
    have h₂ := PmmInv.card hnew.inv
    have h₃ := PmmInv.card hinv₃
    rw [hR₂, Multiset.card_add, Multiset.card_add, Multiset.coe_card,
      card_tables_one (by decide) hu.rest] at h₂
    rw [hout₃, Multiset.card_add, card_tables_one (by decide) hb₃.rest] at h₃
    have hpt := card_ptPage_le sh₃ 256
    have hfree := hnew.inv.free
    omega
  have ho : Owned P root ph₃ sh₃ :=
    ⟨hinv₃, hb₃.realizes, by rw [hout₃]; exact Multiset.le_add_right _ _⟩
  refine ends_bind ((schedulerMapUserImagePages_spec hvm ho hb₃ hpage hfit hfl hflags).mono
    (fun _ h => h) fun _ he => by omega) fun _ _ => ?_
  obtain ⟨im, him⟩ := describeUserImage_ok hlen hv pages start
  rw [him, ok_bind]
  trivial


section Runs

variable {M : Machine} {k : KernelState} (h : Reachable M k)
  (hne : M.code.userTask ≠ M.code.interruptReturn) {img : Image} (hlen : img.length < 2 ^ 63)
  (hf : ∀ s ∈ segments img, PlainFields s) {argv envp : ExecVec}

include h hne hlen hf

theorem replaced_begins (he : Enabled k (.exec img argv envp)) {k' : KernelState}
    (hc : schedulerExecCurrentTask k img argv envp = .ok (0, k')) :
    k'.current = k.current ∧ Begins img argv envp k' := by
  have ha : act k (.exec img argv envp) = .ok k' := by
    dsimp only [act]
    rw [hc, ok_bind]
  have h' : Reachable M k' := h.step trivial he ha
  obtain ⟨sk, S, hm⟩ := h.memInv
  obtain ⟨sk', S', hm'⟩ := h'.memInv
  obtain ⟨hk, hblocks⟩ := h.blocksInv
  unfold schedulerExecCurrentTask at hc
  dsimp only at hc
  have hfail : ∀ s : KernelState, (.ok (-1, s) : Except Panic (Int × KernelState)) ≠ .ok (0, k') :=
    fun s heq => absurd (Prod.mk.inj (Except.ok.inj heq)).1 (by decide)
  split_ifs at hc with hmode
  · exact absurd hc (hfail _)
  obtain ⟨valid, hv, hc⟩ := bind_eq_ok.mp hc
  have hv := (orPanic_ends _).of_ok hv
  cases valid with
  | false => exact absurd hc (hfail _)
  | true =>
  obtain ⟨⟨im, phys, heap⟩, hr, hc⟩ := bind_eq_ok.mp hc
  obtain ⟨m, hctx, hc⟩ := bind_eq_ok.mp hc
  have hr := (orPanic_ends _).of_ok hr
  have hctx := (orPanic_ends _).of_ok hctx
  have hk' := (Prod.mk.inj (Except.ok.inj hc)).2
  have hu : IsUser (k.task k.current) := ⟨hk.current_present, not_not.mp hmode⟩
  have hs := hm.user _ hu
  have hstarts := hr
  rw [hk.base _ hu.2, hs.count] at hstarts
  have hstarts := replaceUserImage_starts hlen hv hf hm.vmm hm.inv hk.heap hs.fits hs.root
    (hm.split_user hu) hstarts
  have hcur : k'.current = k.current := by rw [← hk']; rfl
  have hrow : k'.task k'.current = { k.task k.current with
      userPages := im.pages, userPageCount := im.pageCount, userLimit := im.limit,
      heapBase := im.heapBase, heapLimit := im.heapLimit, heapBreak := im.heapBreak } := by
    rw [hcur, ← hk']
    exact (setTask_task _ _ _ _).trans (if_pos rfl)
  have hu' : IsUser (k'.task k'.current) := by
    rw [hrow]
    exact hu
  refine ⟨hcur, ?_, fun virt => ?_⟩
  · rw [hstarts.rip, hstarts.start] at hctx
    rw [← hk']
    exact resumes_user (by rw [h.code]; exact hne) (hblocks.row _ hu.1) (hblocks.stop_lt hk hu.1)
      hctx m fun _ _ _ => rfl
  · have hspace := hm'.user _ hu'
    have himage : k'.ghost.image k'.current = img := by
      rw [hcur, ← hk']
      exact Function.update_self ..
    rw [himage] at hspace
    have hpages : Fresh img argv envp (k'.task k'.current).userPages k'.phys.mem := by
      rw [hrow, ← hk']
      exact hstarts.fresh
    rw [hm'.cr3]
    exact hspace.startView (hm'.pages_aligned hu') hlen hf hpages virt

variable (hv : elfValidateUserImage img = .ok true)

include hv in
/-- A program that calls `exec` with an accepted image is replaced where there is room for the new
    one: the call does not return, and the task begins the new image as a new task would. -/
theorem program_replaced (hm : (k.task k.current).mode = .user)
    (he : Enabled k (.exec img argv envp)) :
    Ends (schedulerExecCurrentTask k img argv envp)
      (fun r => r.1 = 0 ∧ r.2.current = k.current ∧ Begins img argv envp r.2)
      (fun _ => k.phys.pmm.freePages < 69 ∨ k.heap.stop < k.heap.ptr + 2200 ∨ Overruns img) := by
  obtain ⟨sk, S, hmem⟩ := h.memInv
  obtain ⟨hk, hblocks⟩ := h.blocksInv
  have hu : IsUser (k.task k.current) := ⟨hk.current_present, hm⟩
  have hs := hmem.user _ hu
  have hreturns : Ends (schedulerExecCurrentTask k img argv envp) (fun r => r.1 = 0)
      (fun e => (k.phys.pmm.freePages < 69 ∨ k.heap.stop < k.heap.ptr + 2200 ∨ Overruns img) ∨
        e = recycleFullPanic) := by
    unfold schedulerExecCurrentTask
    dsimp only
    rw [if_neg (not_not.mpr hm), hv, hk.base _ hm, hs.count]
    have hreplace := replaceUserImage_returns hmem.vmm hmem.inv hs.fits hs.root hk.heap hlen hv hf
      argv envp (hmem.split_user hu)
    obtain ⟨hc16, h0, hd⟩ := (hblocks.row _ hu.1).context
    refine ends_bind (P := fun ok => ok = true) rfl fun ok hok => ?_
    rw [hok, if_neg (by decide)]
    refine ends_bind ((ends_message hreplace).mono (fun _ h => h) ?_) fun r _ => ?_
    · rintro _ ⟨e, rfl, he⟩
      obtain he | he | he | rfl := he
      · exact Or.inl (Or.inl he)
      · exact Or.inl (Or.inr (Or.inl he))
      · exact Or.inl (Or.inr (Or.inr he))
      · exact Or.inr rfl
    · obtain ⟨im, phys, heap⟩ := r
      obtain ⟨m, hm', -⟩ := configureContext_spec (m := heap.mem) k.code.userTask
        (word im.start.argc) (word im.start.argvPtr) (word im.rip) (word im.start.rsp)
        (word im.start.envpPtr) hc16 h0 hd (hblocks.row _ hu.1).stack
      unfold schedulerConfigureUserTaskContext
      dsimp only
      rw [hm']
      rfl
  have hall : Ends (schedulerExecCurrentTask k img argv envp)
      (fun r => r.1 = 0 → r.2.current = k.current ∧ Begins img argv envp r.2) fun _ => True := by
    refine ends_iff_ok.mpr fun r hr h0 => ?_
    obtain ⟨v, k'⟩ := r
    dsimp only at h0
    subst h0
    exact replaced_begins h hne hlen hf he hr
  have havoid := schedulerExecCurrentTask_avoids h img argv envp
  cases hr : schedulerExecCurrentTask k img argv envp with
  | error e =>
    obtain hfail | hfull := hreturns.of_error hr
    · exact hfail
    · exact absurd (hfull ▸ hr) havoid
  | ok r =>
    have h0 := hreturns.of_ok hr
    obtain ⟨hcur, hbegins⟩ := hall.of_ok hr h0
    exact ⟨h0, hcur, hbegins⟩

end Runs

/-- `smallMachine` with three MiB of memory. -/
def largeMachine : Machine := { smallMachine with
  info := programMap, map := programMap_loader.toMapOk, noWrap := programMap_loader.noWrap }

theorem initPmm_programMap : ∃ s, initPmm programMap = .ok s ∧ s.freePages = 768 ∧
    s.totalPages = 768 := ⟨_, rfl, rfl, rfl⟩

theorem largeMachine_pool : largeMachine.pool.pages.card = 768 := by
  obtain ⟨s, hs, -, ht⟩ := initPmm_programMap
  have h := (initPmm_inv largeMachine.map largeMachine.noWrap hs).total
  rw [ht] at h
  exact_mod_cast h.symm

theorem largeMachine_boots : ¬ largeMachine.MayFail := by
  obtain ⟨s, hs, hf, -⟩ := initPmm_programMap
  obtain ⟨fds0, fds1, vfs, hok, -⟩ := bootFds_small
  exact Machine.boots hs (by omega) (by rw [largeMachine_pool]; decide) rfl (by decide) hok

theorem Booted.room_large {k : KernelState} (h : Booted largeMachine k) : Room k smallImage := by
  obtain ⟨row0, row1, hrows, htask⟩ := h.rows
  refine ⟨⟨2, ?_⟩, ?_, ?_, smallImage_valid, smallImage_plain, ?_⟩
  · unfold KernelState.task
    rw [htask]
    rfl
  · have hfree := h.freePages
    rw [largeMachine_pool] at hfree
    omega
  · have hlt := hrows.ptr_lt
    have hstop : k.heap.stop = 2 ^ 30 := hrows.extended.stop
    have hptr : largeMachine.heap.ptr = 16 := rfl
    omega
  · obtain ⟨a, b, v, hv, r, hr⟩ := bootFds_small
    have hf := Except.ok.inj (hv.symm.trans h.fds)
    have hvfs : v = k.vfs := congrArg (fun x => x.2.2) hf
    rw [hvfs] at hr
    exact ⟨r, hr⟩

/-- The first program replaces itself by another copy of `smallImage`. -/
theorem program_replaced_small : ∃ k k', Reachable largeMachine k ∧
    schedulerExecCurrentTask k smallImage noStrings noStrings = .ok (0, k') ∧
    k'.current = k.current ∧ Begins smallImage noStrings noStrings k' := by
  obtain ⟨k₀, hboot, hb⟩ := boot_ok largeMachine_boots
  obtain ⟨k, hr, hs⟩ := started_of_room rfl hboot hb.room_large
  have he : Enabled k (.exec smallImage noStrings noStrings) := hs.running
  have hroom : ¬ (k.phys.pmm.freePages < 69 ∨ k.heap.stop < k.heap.ptr + 2200 ∨
      Overruns smallImage) := by
    rintro (hpages | hheap | ⟨s, hs, hpos, -⟩)
    · have hfree := hr.freePages hboot
      rw [largeMachine_pool] at hfree
      omega
    · obtain ⟨row0, row1, hrows, -⟩ := hb.rows
      have hlt := hrows.ptr_lt
      have hstop : k₀.heap.stop = 2 ^ 30 := hrows.extended.stop
      have hptr : largeMachine.heap.ptr = 16 := rfl
      have := hs.heap
      omega
    · rw [smallImage_filesz s hs] at hpos
      exact absurd hpos (by decide)
  have hends := program_replaced hr smallMachine_code smallImage_length smallImage_fields
    smallImage_valid hs.user.2 he
  obtain ⟨⟨r, k'⟩, hcall, hzero, hcur, hbegins⟩ := hends.exists_ok fun _ => hroom
  dsimp only at hzero
  exact ⟨k, k', hr, hzero ▸ hcall, hcur, hbegins⟩

end PcoOs.Kernel
