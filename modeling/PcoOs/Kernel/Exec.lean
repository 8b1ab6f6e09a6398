/-
  A rejected exec. Everything `syscall_exec_user_path` and `syscall_exec_kernel_path` can fail on
  comes before the first change to the task: the path and both vectors are checked and copied, the
  image is read through a descriptor that is closed again, and only then the scheduler replaces the
  program. `exec_rejected`: a call that returns -1 has moved the pointer of the early heap at most,
  and one that does not return -1 does not return to its caller.
-/
import PcoOs.Kernel.Dispatch
import PcoOs.Kernel.ExecVector
import PcoOs.Vfs.Listing

namespace PcoOs.Kernel

open PcoOs.Lib PcoOs.Pmm PcoOs.Support PcoOs.Vmm PcoOs.Elf PcoOs.Image PcoOs.Sched PcoOs.Vfs
  PcoOs.Syscall

/-! ## Loading leaves the file system as it was -/

theorem setVfsDesc_setVfsDesc (v : VfsState) (id : Nat) (d d' : Desc) :
    setVfsDesc (setVfsDesc v id d) id d' = setVfsDesc v id d' := by
  unfold setVfsDesc
  dsimp only
  rw [Function.update_idem]

theorem setVfsDesc_self {v : VfsState} {id : Nat} {d : Desc} (h : v.desc id = d) :
    setVfsDesc v id d = v := by
  unfold setVfsDesc
  rw [← h, Function.update_eq_self]

/-- An open descriptor `id` that was closed in `v` is all that was changed. -/
structure Borrowed (v v' : VfsState) (id : Nat) : Prop where
  range : 1 ≤ id ∧ id ≤ maxVfsDescriptors
  closed : v.desc id = closedDesc
  changed : ∃ d, d.kind ≠ .closed ∧ v' = setVfsDesc v id d

/-- Without flags, no file is created or truncated. -/
theorem openPlan_plain (v : VfsState) (path : Bytes) :
    (∀ n, openPlan v path 0 ≠ .truncate n) ∧ ∀ p, openPlan v path 0 ≠ .create p := by
  have hcreate : ¬ ((0 : Int).toNat &&& 1 ≠ 0 ∧ canCreate v (normalForm path) = true) :=
    fun h => h.1 rfl
  have htrunc : ∀ n : Node, ¬ ((0 : Int).toNat &&& 2 ≠ 0 ∧ n.flags &&& nodeFlagWritable ≠ 0) :=
    fun n h => h.1 rfl
  unfold openPlan
  rw [if_neg (by decide)]
  by_cases hs : path.head? ≠ some slash
  · rw [if_pos hs]
    exact ⟨(fun n h => by cases h), fun p h => by cases h⟩
  by_cases hroot : normalForm path = [slash]
  · rw [if_neg hs, if_pos hroot]
    exact ⟨(fun n h => by cases h), fun p h => by cases h⟩
  rw [if_neg hs, if_neg hroot]
  cases vfsLookupPath v (normalForm path) with
  | none =>
    dsimp only
    rw [if_neg hcreate]
    split_ifs
    · exact ⟨(fun n h => by cases h), fun p h => by cases h⟩
    · exact ⟨(fun n h => by cases h), fun p h => by cases h⟩
  | some id =>
    dsimp only
    cases v.nodes[id]? with
    | none => exact ⟨(fun n h => by cases h), fun p h => by cases h⟩
    | some n =>
      dsimp only
      rw [if_neg (htrunc n)]
      split_ifs
      · exact ⟨(fun n h => by cases h), fun p h => by cases h⟩
      · exact ⟨(fun n h => by cases h), fun p h => by cases h⟩

/-- Opening without flags takes a descriptor at most. -/
theorem vfsOpenPath_borrows {v v' : VfsState} {h h' : Heap} (hi : FsInv v h) {path : Bytes} {id : Nat}
    (he : vfsOpenPath v h path 0 = .ok (id, v', h')) : (id = 0 ∧ v' = v) ∨ Borrowed v v' id := by
  have hr := ((vfsOpenPath_spec hi.heap v path 0).of_ok he).2
  have halloc : ∀ d : Desc, d.kind ≠ .closed → vfsAllocDescriptor v d = (id, v') →
      (id = 0 ∧ v' = v) ∨ Borrowed v v' id := by
    intro d hd ha
    rcases vfsAllocDescriptor_spec v d with ⟨-, hfull⟩ | ⟨j, h1, h32, hclosed, hj⟩
    · cases ha.symm.trans hfull
      exact Or.inl ⟨rfl, rfl⟩
    · cases ha.symm.trans hj
      exact Or.inr ⟨⟨h1, h32⟩, (hi.descs _).closed hclosed, d, hd, rfl⟩
  cases hp : openPlan v path 0 with
  | refuse =>
    rw [hp] at hr
    cases hr
    exact Or.inl ⟨rfl, rfl⟩
  | directory p =>
    rw [hp] at hr
    exact halloc _ (fun h => by cases h) (Except.ok.inj hr)
  | file node =>
    rw [hp] at hr
    exact halloc _ (fun h => by cases h) (Except.ok.inj hr)
  | truncate node => exact absurd hp ((openPlan_plain v path).1 node)
  | create p => exact absurd hp ((openPlan_plain v path).2 p)

theorem Borrowed.advanced {v v' v'' : VfsState} {id : Nat} (h : Borrowed v v' id)
    (ha : Advanced v' v'' id) : Borrowed v v'' id := by
  obtain rfl | ⟨-, -, hk, offset, rfl⟩ := ha
  · exact h
  · obtain ⟨hrange, hclosed, d, hd, rfl⟩ := h
    exact ⟨hrange, hclosed, { (setVfsDesc v id d).desc id with offset := offset }, hk,
      setVfsDesc_setVfsDesc ..⟩

/-- Closing it gives the file system back as it was. -/
theorem Borrowed.closes {v v' : VfsState} {id : Nat} (h : Borrowed v v' id) :
    vfsCloseDescriptor v' id = .ok (0, v) := by
  obtain ⟨⟨h1, h32⟩, hclosed, d, hd, rfl⟩ := h
  have hopen : ((setVfsDesc v id d).desc id).kind ≠ .closed := by
    unfold setVfsDesc
    dsimp only
    rwa [Function.update_self]
  rw [vfsCloseDescriptor_open (mem_openDescs.mpr ⟨⟨h1, h32⟩, hopen⟩), setVfsDesc_setVfsDesc,
    setVfsDesc_self hclosed]

/-- Loading an image leaves the file system exactly as it was. -/
theorem syscallLoadExecImage_same {v v' : VfsState} {h h' : Heap} (hi : FsInv v h) {path : Bytes}
    {img : Option Image} (he : syscallLoadExecImage v h path = .ok (img, v', h')) : v' = v := by
  unfold syscallLoadExecImage at he
  by_cases hp : path = []
  · rw [if_pos hp] at he
    cases he
    rfl
  rw [if_neg hp] at he
  replace ⟨⟨d, v₁, h₁⟩, ho, he⟩ := bind_eq_ok.mp he
  dsimp only at he
  obtain ⟨hd, hv⟩ | hb := vfsOpenPath_borrows hi ho
  · rw [if_pos hd] at he
    cases he
    exact hv
  have hclose : ∀ h₂, closeWithoutImage v₁ h₂ d = .ok (img, v', h') → v' = v := by
    intro h₂ hc
    unfold closeWithoutImage at hc
    obtain ⟨⟨r₁, v₂⟩, hclosed, hr⟩ := bind_eq_ok.mp hc
    cases hr
    cases hclosed.symm.trans hb.closes
    rfl
  have hd : d ≠ 0 := by
    have := hb.range
    omega
  rw [if_neg hd] at he
  obtain ⟨⟨p₁, h₂⟩, -, he⟩ := bind_eq_ok.mp he
  obtain ⟨⟨r, words⟩, -, he⟩ := bind_eq_ok.mp he
  dsimp only at he
  split_ifs at he
  · exact hclose h₂ he
  · exact hclose h₂ he
  · exact hclose h₂ he
  obtain ⟨⟨p₂, h₃⟩, -, he⟩ := bind_eq_ok.mp he
  obtain ⟨⟨count, image, v₂⟩, hr, he⟩ := bind_eq_ok.mp he
  obtain ⟨⟨r₁, v₃⟩, hc, he⟩ := bind_eq_ok.mp he
  have hsame : v₃ = v := by
    cases hc.symm.trans (hb.advanced (vfsReadDescriptor_advanced hr)).closes
    rfl
  dsimp only at he
  split_ifs at he
  · cases he
    exact hsame
  · obtain ⟨ok, -, he⟩ := bind_eq_ok.mp he
    cases he
    exact hsame

/-! ## Copying moves the heap pointer -/

theorem copyCstring_moves {valid : Nat → Bool} {load : Nat → Nat → Except String UInt8}
    {heap heap' : Heap} (hok : HeapOk heap) {n length : Nat} {s : Option Bytes}
    (h : copyCstring valid load heap n length = .ok (s, heap')) : HeapMoves heap heap' := by
  induction n generalizing length with
  | zero =>
    cases h
    exact HeapMoves.refl hok
  | succ n ih =>
    rw [copyCstring] at h
    by_cases hv : ¬ valid length
    · rw [if_pos hv] at h
      cases h
      exact HeapMoves.refl hok
    rw [if_neg hv] at h
    obtain ⟨b, -, h⟩ := bind_eq_ok.mp h
    by_cases h0 : b = 0
    · rw [if_pos h0] at h
      obtain ⟨⟨ptr, h₁⟩, ha, h⟩ := bind_eq_ok.mp h
      obtain ⟨bytes, -, h⟩ := bind_eq_ok.mp h
      cases h
      exact allocBytes_moves hok (length + 1) ha
    · rw [if_neg h0] at h
      exact ih h

theorem copySlots_moves {valid : Nat → Bool} {load : Nat → Except String Int}
    {copy : Int → Heap → Except String (Option Bytes × Heap)}
    (hcopy : ∀ e h s h', HeapOk h → copy e h = .ok (s, h') → HeapMoves h h') {n count : Nat}
    {heap heap' : Heap} (hok : HeapOk heap) {strings : Option (List Bytes)}
    (h : copySlots valid load copy n count heap = .ok (strings, heap')) : HeapMoves heap heap' := by
  induction n generalizing count heap strings with
  | zero =>
    rw [copySlots] at h
    by_cases hv : ¬ valid count
    · rw [if_pos hv] at h
      cases h
      exact HeapMoves.refl hok
    rw [if_neg hv] at h
    obtain ⟨e, -, h⟩ := bind_eq_ok.mp h
    split_ifs at h
    · cases h
      exact HeapMoves.refl hok
    · cases h
      exact HeapMoves.refl hok
  | succ n ih =>
    rw [copySlots] at h
    by_cases hv : ¬ valid count
    · rw [if_pos hv] at h
      cases h
      exact HeapMoves.refl hok
    rw [if_neg hv] at h
    obtain ⟨e, -, h⟩ := bind_eq_ok.mp h
    by_cases h0 : e = 0
    · rw [if_pos h0] at h
      cases h
      exact HeapMoves.refl hok
    rw [if_neg h0] at h
    obtain ⟨⟨s, h₁⟩, hs, h⟩ := bind_eq_ok.mp h
    have hm := hcopy e heap s h₁ hok hs
    cases s with
    | none =>
      cases h
      exact hm
    | some s =>
      obtain ⟨⟨rest, h₂⟩, hrest, h⟩ := bind_eq_ok.mp h
      cases h
      exact hm.trans (ih hm.1 hrest)

/-- The empty vector of `emptyVec` is not copied, so only the copies move the pointer. -/
theorem asExecVec_heap {x : Except String (Option (List Bytes) × Heap)}
    {hv : ∀ strings heap, x = .ok (some strings, heap) → VectorOk 8 strings} {v : Option ExecVec}
    {heap : Heap} (h : asExecVec x hv = .ok (v, heap)) : ∃ strings, x = .ok (strings, heap) := by
  unfold asExecVec at h
  match x, hv with
  | .error e, _ => cases h
  | .ok (none, heap₁), _ =>
    cases h
    exact ⟨none, rfl⟩
  | .ok (some strings, heap₁), _ =>
    cases h
    exact ⟨some strings, rfl⟩

theorem copyUserVec_moves {row : Task} {read : Reader} {p : Int} {heap heap' : Heap}
    (hok : HeapOk heap) {v : Option ExecVec} (h : copyUserVec row read p heap = .ok (v, heap')) :
    HeapMoves heap heap' := by
  obtain ⟨strings, hs⟩ := asExecVec_heap h
  unfold syscallCopyUserExecVector at hs
  split_ifs at hs
  · cases hs
    exact HeapMoves.refl hok
  · cases hs
    exact HeapMoves.refl hok
  · obtain ⟨⟨block, heap₁⟩, ha, hs⟩ := bind_eq_ok.mp hs
    have hm : HeapMoves heap heap₁ := allocBytes_moves hok 128 ha
    refine hm.trans (copySlots_moves (fun e h s h' hok' hc => ?_) hm.1 hs)
    unfold syscallCopyUserCstring at hc
    split_ifs at hc
    · cases hc
      exact HeapMoves.refl hok'
    · exact copyCstring_moves hok' hc

theorem copyKernelVec_moves {read : Reader} {p : Int} {heap heap' : Heap} (hok : HeapOk heap)
    {v : Option ExecVec} (h : copyKernelVec read p heap = .ok (v, heap')) : HeapMoves heap heap' := by
  obtain ⟨strings, hs⟩ := asExecVec_heap h
  unfold syscallCopyKernelExecVector at hs
  split_ifs at hs
  · cases hs
    exact HeapMoves.refl hok
  · obtain ⟨⟨block, heap₁⟩, ha, hs⟩ := bind_eq_ok.mp hs
    have hm : HeapMoves heap heap₁ := allocBytes_moves hok 128 ha
    exact hm.trans (copySlots_moves (fun e h s h' hok' hc => copyCstring_moves hok' hc) hm.1 hs)

theorem copyVectors_moves {copy : Int → Heap → Except String (Option ExecVec × Heap)}
    (hcopy : ∀ p h v h', HeapOk h → copy p h = .ok (v, h') → HeapMoves h h') {argvPtr envpPtr : Int}
    {heap heap' : Heap} (hok : HeapOk heap) {vecs : Option (ExecVec × ExecVec)}
    (h : copyVectors copy argvPtr envpPtr heap = .ok (vecs, heap')) : HeapMoves heap heap' := by
  unfold copyVectors at h
  obtain ⟨⟨argv, h₁⟩, ha, h⟩ := bind_eq_ok.mp h
  have hm₁ := hcopy argvPtr heap argv h₁ hok ha
  dsimp only at h
  split_ifs at h
  · cases h
    exact hm₁
  · obtain ⟨⟨envp, h₂⟩, hb, h⟩ := bind_eq_ok.mp h
    have hm₂ := hm₁.trans (hcopy envpPtr h₁ envp h₂ hm₁.1 hb)
    dsimp only at h
    split_ifs at h
    · cases h
      exact hm₂
    · cases h
      exact hm₂

/-! ## The input of the calls -/

/-- The pointer of the early heap is all that moved: the task table, the queue, the frames, every
    byte of memory, the nodes and the descriptors are the same. -/
def OnlyHeap (k k' : KernelState) : Prop :=
  ∃ heap, HeapMoves k.heap heap ∧ k' = { k with heap := heap }

theorem syscallLoadExecImage_moves {k : KernelState} (hi : FsInv k.vfs k.heap) {path : Bytes}
    {img : Option Image} {vfs : VfsState} {heap : Heap}
    (he : syscallLoadExecImage k.vfs k.heap path = .ok (img, vfs, heap)) :
    vfs = k.vfs ∧ HeapMoves k.heap heap :=
  ⟨syscallLoadExecImage_same hi he, (syscallLoadExecImage_done hi.heap he).heap⟩

theorem userExecInput_onlyHeap {k k' : KernelState} (hv : VfsReachable (k.vfs, k.heap))
    {a : ExecArgs} {input : Option (Image × ExecVec × ExecVec)}
    (h : userExecInput k a = .ok (input, k')) : OnlyHeap k k' := by
  have hok : HeapOk k.heap := hv.inv.heap
  unfold userExecInput at h
  dsimp only at h
  split_ifs at h
  · obtain ⟨⟨vecs, heap⟩, hc, h⟩ := bind_eq_ok.mp h
    have hm := copyVectors_moves (fun _ _ _ _ ho hc => copyUserVec_moves ho hc) hok hc
    cases vecs with
    | none =>
      cases h
      exact ⟨heap, hm, rfl⟩
    | some v =>
      obtain ⟨path, -, h⟩ := bind_eq_ok.mp h
      obtain ⟨⟨image, vfs, heap'⟩, hl, h⟩ := bind_eq_ok.mp h
      cases h
      obtain ⟨rfl, hm'⟩ := syscallLoadExecImage_moves (k := { k with heap := heap })
        (hv.use hm.used).inv hl
      exact ⟨heap', hm.trans hm', rfl⟩
  · cases h
    exact ⟨k.heap, HeapMoves.refl hok, rfl⟩

theorem kernelExecInput_onlyHeap {k k' : KernelState} (hv : VfsReachable (k.vfs, k.heap))
    {read : Reader} {path : Bytes} {argvPtr envpPtr : Int} {input : Option (Image × ExecVec × ExecVec)}
    (h : kernelExecInput k read path argvPtr envpPtr = .ok (input, k')) : OnlyHeap k k' := by
  unfold kernelExecInput at h
  obtain ⟨⟨image, vfs, heap⟩, hl, h⟩ := bind_eq_ok.mp h
  obtain ⟨rfl, hm⟩ := syscallLoadExecImage_moves hv.inv hl
  cases image with
  | none =>
    cases h
    exact ⟨heap, hm, rfl⟩
  | some img =>
    obtain ⟨⟨vecs, heap'⟩, hc, h⟩ := bind_eq_ok.mp h
    cases h
    have hm' := copyVectors_moves (fun _ _ _ _ ho hc => copyKernelVec_moves ho hc) hm.1 hc
    exact ⟨heap', hm.trans hm', rfl⟩

/-! ## The scheduler's half -/

/-- The current task begins a program: its context lies at the top of its kernel stack, where it
    returns to the trampoline that enters the program at `r12`, and the processor has taken it. No
    frame of the call is left, and the entry point is that of the new image. -/
def StartsOver (k k' : KernelState) : Prop :=
  let row := k.task k.current
  let c := loadContext k'.heap.mem row.contextPtr
  k'.cpu = enterContext k.code k'.heap.mem row.contextPtr ∧ k'.phys.cr3 = row.cr3 ∧
    c.rsp = UInt64.ofNat (row.stackBase + 4088) ∧
    loadWord k'.heap.mem (row.stackBase + 4088) = k.code.userTask ∧
    ∃ entry, elfUserEntryOffset (k'.ghost.image k.current) = .ok entry ∧
      c.r12 = word (userTaskRegionBase + entry)

/-- A call that is rejected leaves its caller as it was, and one that is not does not come back. -/
def RejectedOrGone (k : KernelState) (r : Int × KernelState) : Prop :=
  (r.1 = -1 ∧ OnlyHeap k r.2) ∨ (r.1 ≠ -1 ∧ StartsOver k r.2)

theorem replaceUserImage_rip {v : VmmState} {root : Nat} {userBase : Int} {old : List Nat} {n : Nat}
    {img : Image} {argv envp : ExecVec} {ph ph' : Phys} {heap heap' : Heap} {im : UserImage}
    (h : replaceUserImage v root userBase old n img argv envp ph heap = .ok (im, ph', heap')) :
    ∃ entry, elfUserEntryOffset img = .ok entry ∧ im.rip = userTaskRegionBase + entry := by
  unfold replaceUserImage at h
  obtain ⟨⟨pages, flags, ph₁, h₁⟩, -, h⟩ := bind_eq_ok.mp h
  obtain ⟨⟨start, ph₂, h₂⟩, -, h⟩ := bind_eq_ok.mp h
  obtain ⟨ph₃, -, h⟩ := bind_eq_ok.mp h
  obtain ⟨ph₄, -, h⟩ := bind_eq_ok.mp h
  obtain ⟨image, hd, h⟩ := bind_eq_ok.mp h
  cases h
  unfold describeUserImage at hd
  obtain ⟨count, -, hd⟩ := bind_eq_ok.mp hd
  obtain ⟨entry, he, hd⟩ := bind_eq_ok.mp hd
  cases hd
  exact ⟨entry, he, rfl⟩

theorem schedulerExecCurrentTask_rejects {k : KernelState} (hok : HeapOk k.heap)
    (hrow : RowBlocks (k.task k.current)) {img : Image} {argv envp : ExecVec}
    {r : Int × KernelState} (h : schedulerExecCurrentTask k img argv envp = .ok r) :
    RejectedOrGone k r := by
  have hsame : OnlyHeap k k := ⟨k.heap, HeapMoves.refl hok, rfl⟩
  unfold schedulerExecCurrentTask at h
  dsimp only at h
  split_ifs at h with hm
  · cases h
    exact Or.inl ⟨rfl, hsame⟩
  obtain ⟨ok, -, h⟩ := bind_eq_ok.mp h
  cases ok with
  | false =>
    cases h
    exact Or.inl ⟨rfl, hsame⟩
  | true =>
  obtain ⟨⟨im, phys, heap⟩, hr, h⟩ := bind_eq_ok.mp h
  obtain ⟨m, hc, h⟩ := bind_eq_ok.mp h
  cases h
  obtain ⟨entry, he, hrip⟩ := replaceUserImage_rip ((orPanic_ends _).of_ok hr)
  obtain ⟨hctx, h0, hd⟩ := hrow.context
  obtain ⟨m', hm', hload, hret, -⟩ := configureContext_spec (m := heap.mem) k.code.userTask
    (word im.start.argc) (word im.start.argvPtr) (word im.rip) (word im.start.rsp)
    (word im.start.envpPtr) hctx h0 hd hrow.stack
  cases ((orPanic_ends _).of_ok hc).symm.trans hm'
  have hdone : (0 : Int) ≠ -1 := by decide
  refine Or.inr ⟨hdone, rfl, rfl, ?_, hret, entry, ?_, ?_⟩
  · dsimp only
    rw [hload]
  · dsimp only
    rw [Function.update_self]
    exact he
  · dsimp only
    rw [hload, hrip]

theorem execInput_rejects {k k₁ : KernelState} (hsame : OnlyHeap k k₁)
    (hrow : RowBlocks (k.task k.current)) {input : Option (Image × ExecVec × ExecVec)}
    {r : Int × KernelState} (h : execInput input k₁ = .ok r) : RejectedOrGone k r := by
  unfold execInput at h
  cases input with
  | none =>
    cases h
    exact Or.inl ⟨rfl, hsame⟩
  | some i =>
    obtain ⟨heap, hm, rfl⟩ := hsame
    obtain ⟨hr, heap', hm', hk'⟩ | hgone := schedulerExecCurrentTask_rejects (k := { k with heap := heap })
      hm.1 hrow h
    · exact Or.inl ⟨hr, heap', hm.trans hm', hk'⟩
    · exact Or.inr hgone

/-! ## The main result -/

theorem exec_rejected {M : Machine} (hM : M.FilesReady) {k : KernelState} (h : Reachable M k) :
    (∀ a, Ends (syscallExecUserPath k a) (RejectedOrGone k) fun _ => True) ∧
    ∀ read path argvPtr envpPtr,
      Ends (syscallExecKernelPath k read path argvPtr envpPtr) (RejectedOrGone k) fun _ => True := by
  have hv := h.vfs hM
  obtain ⟨hk, hblocks⟩ := h.blocksInv
  have hrow := hblocks.row k.current hk.current_present
  constructor
  · intro a
    refine ends_iff_ok.mpr fun r hr => ?_
    obtain ⟨⟨input, k₁⟩, hi, hr⟩ := bind_eq_ok.mp hr
    exact execInput_rejects (userExecInput_onlyHeap hv ((orPanic_ends _).of_ok hi)) hrow hr
  · intro read path argvPtr envpPtr
    refine ends_iff_ok.mpr fun r hr => ?_
    obtain ⟨⟨input, k₁⟩, hi, hr⟩ := bind_eq_ok.mp hr
    exact execInput_rejects (kernelExecInput_onlyHeap hv ((orPanic_ends _).of_ok hi)) hrow hr

/-- The root directory is opened, found to be no file and closed again. -/
theorem syscallLoadExecImage_root {v : VfsState} {h : Heap} (hi : FsInv v h) (hdescs : ¬ DescsFull v)
    (hroom : h.ptr + 300 ≤ h.stop) : ∃ d v₁ h₁ h', vfsOpenPath v h [slash] 0 = .ok (d, v₁, h₁) ∧
      d ≠ 0 ∧ syscallLoadExecImage v h [slash] = .ok (none, v, h') := by
  obtain ⟨d, h₁, ⟨h1, h32⟩, hm, ho⟩ := vfsOpenPath_root (by omega) hi.heap hdescs
  have hstop := hm.1.2.stop
  have hptr := hm.2
  obtain ⟨⟨p, h₂⟩, ha, -⟩ :=
    (allocBytes_spec hm.1.1 (n := 16) (by norm_num)).exists_ok fun _ he => by omega
  have hdesc : (setVfsDesc v d ⟨.directory, 0, 0, 0, [slash]⟩).desc d = ⟨.directory, 0, 0, 0, [slash]⟩ :=
    Function.update_self ..
  have hclose := ((vfsOpenPath_borrows hi ho).resolve_left fun h => by omega).closes
  obtain ⟨n, hstat⟩ : ∃ n, vfsStatDescriptor (setVfsDesc v d ⟨.directory, 0, 0, 0, [slash]⟩) d =
      .ok (0, [NodeKind.directory.code, n]) := by
    unfold vfsStatDescriptor vfsDesc
    rw [if_neg (by omega), if_neg (by omega), ok_bind, hdesc]
    exact ⟨_, rfl⟩
  have hword : [NodeKind.directory.code, n].getD 0 0 ≠ 1 := by
    show NodeKind.directory.code ≠ 1
    decide
  refine ⟨d, _, h₁, h₂, ho, by omega, ?_⟩
  unfold syscallLoadExecImage
  rw [if_neg (by decide), ho, ok_bind]
  dsimp only
  rw [if_neg (by omega), ha, ok_bind]
  dsimp only
  rw [hstat, ok_bind]
  dsimp only
  rw [if_neg (by decide), if_pos hword]
  unfold closeWithoutImage
  rw [hclose]
  rfl

/-- A program that calls `exec` with a directory goes on: the descriptor is given back, and nothing
    but the heap pointer has moved. -/
theorem exec_rejected_hello : ∃ M k k' d v h, M.FilesReady ∧ Reachable M k ∧
    IsUser (k.task k.current) ∧ vfsOpenPath k.vfs k.heap [slash] 0 = .ok (d, v, h) ∧ d ≠ 0 ∧
    syscallExecKernelPath k (fun x => .ok (k.heap.mem x)) [slash] 0 0 = .ok (-1, k') ∧
    OnlyHeap k k' := by
  obtain ⟨M, hM⟩ := exists_helloMachine
  obtain ⟨k₀, k, hb, hr, hs⟩ := hM.started
  obtain ⟨hroom, hdescs⟩ := hM.spare hb hr hs
  obtain ⟨d, v, h, h', ho, hd, hload⟩ :=
    syscallLoadExecImage_root (hr.vfs hM.files).inv hdescs hroom
  have hcall : syscallExecKernelPath k (fun x => .ok (k.heap.mem x)) [slash] 0 0 =
      .ok (-1, { k with heap := h' }) := by
    unfold syscallExecKernelPath kernelExecInput
    rw [hload]
    rfl
  refine ⟨M, k, _, d, v, h, hM.files, hr, hs.user, ho, hd, hcall, ?_⟩
  obtain ⟨-, hsame⟩ | ⟨hne, -⟩ := ((exec_rejected hM.files hr).2 _ _ _ _).of_ok hcall
  · exact hsame
  · exact absurd rfl hne

end PcoOs.Kernel
