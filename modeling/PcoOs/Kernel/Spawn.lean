/-
  Spawning from a path. With a loadable image, valid vectors and memory to spare, the calls make one
  new task or change nothing, except that the kernel stops when all slots of the table are taken:
  `scheduler_find_free_task_id` has no other answer. `spawn_all_or_nothing_iff` says so for both
  calls, with the one way around it, a full descriptor table that the loader meets first.
-/
import PcoOs.Kernel.Exec
import PcoOs.Vfs.Files
import PcoOs.Vfs.Navigation

namespace PcoOs.Kernel

open PcoOs.Lib PcoOs.Pmm PcoOs.Support PcoOs.Vmm PcoOs.Elf PcoOs.Image PcoOs.Sched PcoOs.Vfs
  PcoOs.Syscall

/-! ## Loading -/

/-- The path leads to a file with the contents `img`, an image the loader takes and the scheduler
    can place. -/
structure Loadable (v : VfsState) (path : Bytes) (img : Image) : Prop where
  file : ∃ id, openPlan v path 0 = .file id ∧ contents v id = img
  size : img ≠ [] ∧ img.length ≤ 16384
  valid : elfValidateUserImage img = .ok true
  plain : Image.Plain img

/-- A plan to open a file is made for a node that is one. -/
theorem openPlan_file {v : VfsState} {path : Bytes} {id : Nat} (h : openPlan v path 0 = .file id) :
    path ≠ [] ∧ ∃ n, v.nodes[id]? = some n ∧ n.kind = .file := by
  unfold openPlan at h
  by_cases hs : path.head? ≠ some slash
  · rw [if_neg (by decide), if_pos hs] at h
    cases h
  by_cases hroot : normalForm path = [slash]
  · rw [if_neg (by decide), if_neg hs, if_pos hroot] at h
    cases h
  rw [if_neg (by decide), if_neg hs, if_neg hroot] at h
  refine ⟨by rintro rfl; exact hs (by decide), ?_⟩
  cases hl : vfsLookupPath v (normalForm path) with
  | none =>
    rw [hl] at h
    dsimp only at h
    split_ifs at h
  | some j =>
    rw [hl] at h
    dsimp only at h
    cases hn : v.nodes[j]? with
    | none =>
      rw [hn] at h
      cases h
    | some n =>
      rw [hn] at h
      dsimp only at h
      split_ifs at h with hk
      cases h
      refine ⟨n, hn, ?_⟩
      cases hkind : n.kind with
      | file => rfl
      | directory => exact absurd hkind hk

/-- Opening a file that is there takes the first closed descriptor. -/
theorem vfsOpenPath_file {v : VfsState} {h : Heap} (hi : FsInv v h) {path : Bytes} {id : Nat}
    (hplan : openPlan v path 0 = .file id) (hroom : h.ptr + 3 * path.length + 64 ≤ h.stop) :
    ∃ d v' h', vfsOpenPath v h path 0 = .ok (d, v', h') ∧
      vfsAllocDescriptor v (fileDesc 0 id) = (d, v') ∧ HeapMovesBy h h' (3 * path.length + 64) := by
  obtain ⟨⟨d, v', h'⟩, ho, hm, hr⟩ := (vfsOpenPath_spec hi.heap v path 0).exists_ok fun _ he => by
    rcases he with hs | hc | ⟨⟨p, hp⟩, -⟩
    · omega
    · exact absurd hi.count (not_le.mpr hc)
    · rw [hplan] at hp
      cases hp
  rw [hplan] at hr
  exact ⟨d, v', h', ho, Except.ok.inj hr, hm⟩

/-- Without a descriptor nothing is loaded. -/
theorem syscallLoadExecImage_full {v : VfsState} {h : Heap} (hi : FsInv v h) {path : Bytes}
    {img : Image} (hl : Loadable v path img) (hfull : DescsFull v)
    (hroom : h.ptr + 3 * path.length + 16600 ≤ h.stop) :
    ∃ h', syscallLoadExecImage v h path = .ok (none, v, h') ∧
      HeapMovesBy h h' (3 * path.length + 16600) := by
  obtain ⟨id, hplan, -⟩ := hl.file
  obtain ⟨d, v', h', ho, ha, hm⟩ := vfsOpenPath_file hi hplan (by omega)
  rcases vfsAllocDescriptor_spec v (fileDesc 0 id) with ⟨-, h0⟩ | ⟨j, h1, h32, hclosed, -⟩
  · cases ha.symm.trans h0
    refine ⟨h', ?_, hm.mono (by omega)⟩
    unfold syscallLoadExecImage
    rw [if_neg (openPlan_file hplan).1, ho, ok_bind]
    rfl
  · exact absurd hclosed (hfull j h1 h32)

/-- The loader returns the image, and the file system is as it was. -/
theorem syscallLoadExecImage_loads {v : VfsState} {h : Heap} (hi : FsInv v h) {path : Bytes}
    {img : Image} (hl : Loadable v path img) (hfree : ¬ DescsFull v)
    (hroom : h.ptr + 3 * path.length + 16600 ≤ h.stop) :
    ∃ h', syscallLoadExecImage v h path = .ok (some img, v, h') ∧
      HeapMovesBy h h' (3 * path.length + 16600) := by
  obtain ⟨id, hplan, himg⟩ := hl.file
  obtain ⟨hpath, n, hn, hkind⟩ := openPlan_file hplan
  rw [contents_eq hn] at himg
  have hlen : n.dataLen = img.length := by
    rw [← himg, length_loadBytes]
  have hpos : 0 < img.length := List.length_pos_iff.mpr hl.size.1
  have hsize := hl.size.2
  obtain ⟨d, h1, h32, halloc⟩ := vfsAllocDescriptor_free hfree (fileDesc 0 id)
  obtain ⟨d', v₁, h₁, ho, ha, hm₁⟩ := vfsOpenPath_file hi hplan (by omega)
  cases halloc.symm.trans ha
  have hstop₁ := hm₁.1.2.stop
  have hptr₁ := hm₁.2
  obtain ⟨⟨p₂, h₂⟩, ha₂, -, hok₂, hg₂, -, hlt₂⟩ :=
    (allocBytes_spec hm₁.1.1 (n := 16) (by norm_num)).exists_ok fun _ he => by omega
  dsimp only at hok₂ hg₂ hlt₂
  have hstop₂ := hg₂.stop
  obtain ⟨⟨p₃, h₃⟩, ha₃, -, hok₃, hg₃, -, hlt₃⟩ :=
    (allocBytes_spec hok₂ (n := (n.dataLen : Int)) (by omega)).exists_ok fun _ he => by omega
  dsimp only at hok₃ hg₃ hlt₃
  have hdesc : (setVfsDesc v d (fileDesc 0 id)).desc d = fileDesc 0 id := Function.update_self ..
  have hnode : vfsNode (setVfsDesc v d (fileDesc 0 id)) id = .ok n := by
    obtain ⟨r, hr, rfl⟩ := (vfsNode_spec (v := setVfsDesc v d (fileDesc 0 id)) hn).exists_ok
      fun _ he => absurd hi.count (not_le.mpr he)
    exact hr
  have hstat : vfsStatDescriptor (setVfsDesc v d (fileDesc 0 id)) d = .ok (0, [1, n.dataLen]) := by
    unfold vfsStatDescriptor vfsDesc
    rw [if_neg (by omega), if_neg (by omega), ok_bind, hdesc]
    unfold fileDesc at hnode ⊢
    dsimp only
    rw [hnode, ok_bind, hkind]
    rfl
  have hread := vfsReadDescriptor_file (v := setVfsDesc v d (fileDesc 0 id)) h1 h32
    (by rw [hdesc]; rfl) (by rw [hdesc]; exact hn) hi.count [] n.dataLen
  rw [hdesc] at hread
  have hoff : (fileDesc 0 id).offset = 0 := rfl
  rw [hoff, Nat.sub_zero, Nat.min_self, Nat.add_zero] at hread
  rw [show (setVfsDesc v d (fileDesc 0 id)).mem = v.mem from rfl, himg] at hread
  have hborrowed : Borrowed v (setVfsDesc v d (fileDesc 0 id)) d :=
    (vfsOpenPath_borrows hi ho).resolve_left fun h => by omega
  have hclose := (hborrowed.advanced (vfsReadDescriptor_advanced hread)).closes
  refine ⟨h₃, ?_, ⟨⟨hok₃, (hm₁.1.2.trans hg₂).trans hg₃⟩, by omega⟩⟩
  unfold syscallLoadExecImage
  rw [if_neg hpath, ho, ok_bind]
  dsimp only
  rw [if_neg (by omega), ha₂, ok_bind]
  dsimp only
  rw [hstat, ok_bind]
  dsimp only
  have hword : [1, n.dataLen].getD 0 0 = 1 ∧ [1, n.dataLen].getD 1 0 = n.dataLen := ⟨rfl, rfl⟩
  rw [hword.2, if_neg (by decide), if_neg (not_not.mpr hword.1), if_neg (by omega), ha₃, ok_bind]
  dsimp only
  rw [hread, ok_bind]
  dsimp only
  rw [hclose, ok_bind]
  dsimp only
  rw [if_neg (not_not.mpr rfl), hl.valid]
  rfl

/-! ## Vectors -/

/-- The vector at `p` is copied, given some heap; a null pointer stands for an empty one. -/
def Copies (copy : Int → Heap → Except String (Option ExecVec × Heap)) (p : Int) : Prop :=
  ∀ h, HeapOk h → h.ptr + 784 ≤ h.stop → ∃ v h', copy p h = .ok (v, h') ∧ HeapMovesBy h h' 784 ∧
    (p ≠ 0 → v.isSome = true)

theorem copyVectors_ok {copy : Int → Heap → Except String (Option ExecVec × Heap)}
    {argvPtr envpPtr : Int} (ha : Copies copy argvPtr) (he : Copies copy envpPtr) {h : Heap}
    (hok : HeapOk h) (hroom : h.ptr + 1568 ≤ h.stop) :
    ∃ vecs h', copyVectors copy argvPtr envpPtr h = .ok (some vecs, h') ∧
      HeapMovesBy h h' 1568 := by
  obtain ⟨argv, h₁, hc₁, hm₁, hs₁⟩ := ha h hok (by omega)
  have hstop := hm₁.1.2.stop
  have hptr := hm₁.2
  obtain ⟨envp, h₂, hc₂, hm₂, hs₂⟩ := he h₁ hm₁.1.1 (by omega)
  refine ⟨(argv.getD emptyVec, envp.getD emptyVec), h₂, ?_, hm₁.trans hm₂⟩
  have hnone : ∀ {p : Int} {v : Option ExecVec}, (p ≠ 0 → v.isSome = true) →
      ¬ (p ≠ 0 ∧ v.isNone = true) := by
    rintro p v hs ⟨hp, hv⟩
    rw [Option.isNone_iff_eq_none.mp hv] at hs
    exact absurd (hs hp) (by decide)
  unfold copyVectors
  rw [hc₁, ok_bind]
  dsimp only
  rw [if_neg (hnone hs₁), hc₂, ok_bind]
  dsimp only
  rw [if_neg (hnone hs₂)]

/-- What is known of a copy is known of the vector made of it. -/
theorem asExecVec_ends {x : Except String (Option (List Bytes) × Heap)}
    (hv : ∀ strings heap, x = .ok (some strings, heap) → VectorOk 8 strings)
    {Q : Bool → Heap → Prop} {E : String → Prop} (h : Ends x (fun r => Q r.1.isSome r.2) E) :
    Ends (asExecVec x hv) (fun r => Q r.1.isSome r.2) E := by
  match x, hv with
  | .error e, _ => exact h
  | .ok (none, heap), _ => exact h
  | .ok (some strings, heap), _ => exact h

/-- The memory the current task sees, with zeros where nothing is mapped. -/
def seenBytes (k : KernelState) : Mem := fun x =>
  match mmuWalk k.phys.mem k.phys.cr3 (x / 4096) with
  | none => 0
  | some a => k.phys.mem (a.frame + x % 4096)

/-- A vector of a user task: none, or one that `exec_vector_copy` accepts. -/
def UserVector (k : KernelState) (p : Int) : Prop :=
  IsInt64 p ∧ (p = 0 ∨ VectorAt (k.task k.current) (seenBytes k) p 8)

theorem UserVector.copies {P : Pool} {k : KernelState} {sk : Shape} {S : TaskId → Shape}
    (hk : KernelOk k) (hm : MemInv P k sk S) (hu : IsUser (k.task k.current)) {p : Int}
    (h : UserVector k p) :
    Copies (copyUserVec (k.task k.current) (loadUserByte k.phys.mem k.phys.cr3)) p := by
  have hrow := MemInv.userRow hk hm hu
  let v : View (k.task k.current) := {
    bytes := seenBytes k
    mapped := fun x => (mmuWalk k.phys.mem k.phys.cr3 (x / 4096)).isSome
    present := fun x hx => by
      have hlo : userTaskRegionBase ≤ (x : Int) ∧ (x : Int) < (k.task k.current).userLimit := by
        obtain ⟨l1, l2, l3, l4, l5⟩ := hrow.layout
        have hb := hrow.base
        unfold Accessible InOneArea at hx
        omega
      obtain ⟨a, hw, -, -⟩ := hm.inUserPage hu hlo.1 hlo.2
      rw [Int.toNat_natCast, ← hm.cr3] at hw
      rw [hw]
      rfl }
  have hread : v.read = loadUserByte k.phys.mem k.phys.cr3 := by
    funext x
    unfold View.read loadUserByte
    show (if (mmuWalk k.phys.mem k.phys.cr3 (x / 4096)).isSome = true then
      Except.ok (seenBytes k x) else _) = _
    unfold seenBytes
    cases mmuWalk k.phys.mem k.phys.cr3 (x / 4096) with
    | none => rfl
    | some a => rfl
  intro heap hok hroom
  have hspec := hrow.copyVector_spec v h.1 8 hok
  rw [hread] at hspec
  have hends : Ends (copyUserVec (k.task k.current) (loadUserByte k.phys.mem k.phys.cr3) p heap)
      (fun r => HeapMovesBy heap r.2 784 ∧
        (r.1.isSome = true ↔ VectorAt (k.task k.current) (seenBytes k) p 8))
      (fun e => e = "early heap exhausted" ∧ heap.stop < heap.ptr + 96 * 8 + 16) :=
    asExecVec_ends _ (Q := fun b h' => HeapMovesBy heap h' 784 ∧
      (b = true ↔ VectorAt (k.task k.current) (seenBytes k) p 8))
      (hspec.imp fun r hr => ⟨hr.1 (by decide), hr.2⟩)
  obtain ⟨⟨vec, heap'⟩, hc, hmoves, hsome⟩ := hends.exists_ok fun _ he => by omega
  exact ⟨vec, heap', hc, hmoves, fun h0 => hsome.mpr (h.2.resolve_left h0)⟩

/-- The value of slot `i` of an array of the kernel. -/
def kernelSlot (m : Mem) (p : Int) (i : Nat) : Int := wrap (loadQword m (addr (p + 8 * i)))

/-- A vector of a kernel task, in memory `m`: none, or an aligned array that ends within 8 slots
    with strings that end within 64 bytes. -/
def KernelVector (m : Mem) (p : Int) : Prop :=
  IsInt64 p ∧ (p = 0 ∨ (p % 8 = 0 ∧ ∃ j ≤ 8, kernelSlot m p j = 0 ∧
    ∀ i < j, ∃ l : Nat, l < 64 ∧ m (addr (kernelSlot m p i + l)) = 0))

theorem syscallCopyKernelCstring_spec (m : Mem) {e : Int} (he : IsInt64 e) (h0 : e ≠ 0) (h : Heap) :
    Ends (syscallCopyKernelCstring (fun x => .ok (m x)) e h)
      (fun r => (HeapOk h → HeapMovesBy h r.2 80) ∧
        (r.1.isSome = true ↔ ∃ l : Nat, l < 64 ∧ m (addr (e + l)) = 0)) (Exhausted h 80) := by
  unfold syscallCopyKernelCstring
  refine (copyCstring_spec (fun i => m (addr (e + i))) (fun l hl _ i hi => ?_)
    (by decide)).imp fun r hr => ⟨hr.1, hr.2.trans ?_⟩
  · unfold readByteRegion syscallExecMaxString
    rw [checkByteRegion_ok (addr_ne_zero he h0) (by omega) (by omega), ok_bind]
  · unfold NulAhead syscallExecMaxString
    constructor
    · rintro ⟨l, -, hl, hb, -⟩
      exact ⟨l, by omega, hb⟩
    · rintro ⟨l, hl, hb⟩
      exact ⟨l, Nat.zero_le l, by omega, hb, fun _ _ _ => rfl⟩

theorem readQwordRegion_kernel (m : Mem) {p : Int} (hp : IsInt64 p) (h0 : p ≠ 0) (h8 : p % 8 = 0)
    {n i : Nat} (hi : i ≤ n) :
    readQwordRegion (fun x => .ok (m x)) p (n + 1) i = .ok (kernelSlot m p i) := by
  unfold readQwordRegion
  rw [checkQwordRegion_ok (addr_ne_zero hp h0) (by unfold addr; omega) (by omega) (by omega),
    ok_bind, readRun_ok (m := m) (a := addr (p + 8 * i)) fun j _ _ => rfl, ok_bind, Nat.add_zero,
    bytesValue_loadBytes]
  rfl

theorem KernelVector.copies {m : Mem} {p : Int} (h : KernelVector m p) :
    Copies (copyKernelVec fun x => .ok (m x)) p := by
  intro heap hok hroom
  have hends : Ends (syscallCopyKernelExecVector (fun x => .ok (m x)) p syscallExecMaxArgs heap)
      (fun r => HeapMovesBy heap r.2 784 ∧ (p ≠ 0 → r.1.isSome = true))
      (fun _ => heap.stop < heap.ptr + 784) := by
    unfold syscallCopyKernelExecVector
    by_cases h0 : p = 0
    · rw [if_pos h0]
      exact ⟨HeapMovesBy.refl hok _, fun hne => absurd h0 hne⟩
    rw [if_neg h0]
    obtain ⟨hp, hv⟩ := h
    obtain ⟨h8, j, hj, hzero, hstr⟩ := hv.resolve_left h0
    have hint : ∀ i, IsInt64 (kernelSlot m p i) := by
      intro i
      unfold kernelSlot
      exact isInt64_wrap _
    have hload : ∀ i ≤ 0 + syscallExecMaxArgs, true = true →
        readQwordRegion (fun x => .ok (m x)) p ((syscallExecMaxArgs : Int) + 1) i =
          .ok (kernelSlot m p i) := by
      intro i hi _
      rw [readQwordRegion_kernel (n := syscallExecMaxArgs) m hp h0 h8 (by omega)]
    have hsize : wrap ((syscallExecMaxArgs : Int) * 16) = 128 := by
      unfold syscallExecMaxArgs
      exact wrap_of_range (by omega) (by omega)
    rw [hsize]
    refine ends_bind ((allocBytes_ends 144 (fun _ => by omega) (by omega)).mono
      (fun _ h => h) fun _ he => ?_) ?_
    · have := he.2 hok
      omega
    rintro ⟨block, h₁⟩ hm
    have hm := hm hok
    dsimp only at hm ⊢
    have hstop := hm.1.2.stop
    have hptr := hm.2
    have hspec := copySlots_spec (fun _ => true)
      (fun i => readQwordRegion (fun x => .ok (m x)) p ((syscallExecMaxArgs : Int) + 1) i)
      (syscallCopyKernelCstring fun x => .ok (m x)) h₁ (kernelSlot m p)
      (fun e => ∃ l : Nat, l < 64 ∧ m (addr (e + l)) = 0) hload fun i h hne => by
        have hi := hint i
        generalize kernelSlot m p i = e at hi hne ⊢
        exact syscallCopyKernelCstring_spec m hi hne h
    refine hspec.mono ?_ ?_
    · rintro r ⟨hr, hsome⟩
      refine ⟨(hm.trans (hr hm.1.1)).mono (by unfold syscallExecMaxArgs; omega), fun _ => hsome.mpr ⟨j, Nat.zero_le j, ?_, hzero, fun _ _ _ => rfl,
        fun i _ hi => hstr i hi⟩⟩
      unfold syscallExecMaxArgs
      omega
    · intro e he
      have := he.2 hm.1.1
      unfold syscallExecMaxArgs at this
      omega
  have hvec := asExecVec_ends (fun _ _ h => syscallCopyKernelExecVector_vectorOk h)
    (Q := fun b h' => HeapMovesBy heap h' 784 ∧ (p ≠ 0 → b = true)) hends
  obtain ⟨⟨vec, heap'⟩, hc, hmoves, hsome⟩ := hvec.exists_ok fun _ he => by omega
  exact ⟨vec, heap', hc, hmoves, hsome⟩

/-! ## What the calls take -/

/-- The arguments of a call of the current user task: `path` in its memory, which leads to `img`,
    and valid vectors. -/
structure UserSpawn (k : KernelState) (a : ExecArgs) (path : Bytes) (img : Image) : Prop where
  task : IsUser (k.task k.current)
  accepted : syscallValidateUserBuffer (k.task k.current) a.pathPtr a.pathLen = true
  bytes : loadUserBytes k.phys.mem k.phys.cr3 a.pathPtr.toNat a.pathLen.toNat = .ok path
  loadable : Loadable k.vfs path img
  argv : UserVector k a.argvPtr
  envp : UserVector k a.envpPtr

/-- The arguments of a call of kernel code, with vectors in memory `m`. -/
structure KernelSpawn (k : KernelState) (m : Mem) (path : Bytes) (argvPtr envpPtr : Int)
    (img : Image) : Prop where
  loadable : Loadable k.vfs path img
  argv : KernelVector m argvPtr
  envp : KernelVector m envpPtr

/-- Pages for any image, and early heap for the call. -/
structure MemoryLeft (k : KernelState) (path : Bytes) : Prop where
  pages : 76 ≤ k.phys.pmm.freePages
  heap : k.heap.ptr + 3 * path.length + 25000 ≤ k.heap.stop

/-- The first half of a call gets the image and the vectors, unless no descriptor is left to read
    the file with. -/
def Gathers (k : KernelState) (path : Bytes) (img : Image)
    (x : Except String (Option (Image × ExecVec × ExecVec) × KernelState)) : Prop :=
  ∃ input heap, x = .ok (input, { k with heap := heap }) ∧
    HeapMovesBy k.heap heap (3 * path.length + 18200) ∧ (DescsFull k.vfs → input = none) ∧
    (¬ DescsFull k.vfs → ∃ argv envp, input = some (img, argv, envp))

/-- The loader decides between the two. -/
theorem Loadable.gathers {v : VfsState} {h : Heap} (hi : FsInv v h) {path : Bytes} {img : Image}
    (hl : Loadable v path img) (hroom : h.ptr + 3 * path.length + 16600 ≤ h.stop) :
    ∃ image h', syscallLoadExecImage v h path = .ok (image, v, h') ∧
      HeapMovesBy h h' (3 * path.length + 16600) ∧ (DescsFull v → image = none) ∧
      (¬ DescsFull v → image = some img) := by
  by_cases hfull : DescsFull v
  · obtain ⟨h', he, hm⟩ := syscallLoadExecImage_full hi hl hfull hroom
    exact ⟨none, h', he, hm, fun _ => rfl, fun hne => absurd hfull hne⟩
  · obtain ⟨h', he, hm⟩ := syscallLoadExecImage_loads hi hl hfull hroom
    exact ⟨some img, h', he, hm, fun hf => absurd hf hfull, fun _ => rfl⟩

theorem UserSpawn.gathers {P : Pool} {k : KernelState} {sk : Shape} {S : TaskId → Shape}
    (hk : KernelOk k) (hm : MemInv P k sk S) (hv : VfsReachable (k.vfs, k.heap)) {a : ExecArgs}
    {path : Bytes} {img : Image} (h : UserSpawn k a path img) (hleft : MemoryLeft k path) :
    Gathers k path img (userExecInput k a) := by
  have hheap := hleft.heap
  obtain ⟨⟨argv, envp⟩, h₁, hc, hm₁⟩ := copyVectors_ok (h.argv.copies hk hm h.task)
    (h.envp.copies hk hm h.task) hk.heap (by omega)
  have hptr := hm₁.2
  have hstop := hm₁.1.2.stop
  have hi : FsInv k.vfs h₁ := (hv.use hm₁.1.used).inv
  obtain ⟨image, h₂, hload, hm₂, hnone, hsome⟩ := h.loadable.gathers hi (by omega)
  refine ⟨image.map fun i => (i, argv, envp), h₂, ?_, (hm₁.trans hm₂).mono (by linarith), ?_, ?_⟩
  · unfold userExecInput
    dsimp only
    rw [if_neg (not_not.mpr h.accepted), hc, ok_bind]
    dsimp only
    rw [h.bytes, ok_bind, hload, ok_bind]
  · intro hfull
    rw [hnone hfull]
    rfl
  · intro hfree
    rw [hsome hfree]
    exact ⟨argv, envp, rfl⟩

theorem KernelSpawn.gathers {k : KernelState} (hv : VfsReachable (k.vfs, k.heap)) {m : Mem}
    {path : Bytes} {argvPtr envpPtr : Int} {img : Image}
    (h : KernelSpawn k m path argvPtr envpPtr img) (hleft : MemoryLeft k path) :
    Gathers k path img (kernelExecInput k (fun x => .ok (m x)) path argvPtr envpPtr) := by
  have hheap := hleft.heap
  have hi : FsInv k.vfs k.heap := hv.inv
  obtain ⟨image, h₁, hload, hm₁, hnone, hsome⟩ := h.loadable.gathers hi (by omega)
  have hptr := hm₁.2
  have hstop := hm₁.1.2.stop
  unfold kernelExecInput
  rw [hload, ok_bind]
  dsimp only
  by_cases hfull : DescsFull k.vfs
  · rw [hnone hfull]
    exact ⟨none, h₁, rfl, hm₁.mono (by omega), fun _ => rfl, fun hne => absurd hfull hne⟩
  · rw [hsome hfull]
    obtain ⟨⟨argv, envp⟩, h₂, hc, hm₂⟩ := copyVectors_ok h.argv.copies h.envp.copies hm₁.1.1
      (by omega)
    dsimp only
    rw [hc, ok_bind]
    exact ⟨some (img, argv, envp), h₂, rfl, (hm₁.trans hm₂).mono (by omega),
      fun hf => absurd hf hfull, fun _ => ⟨argv, envp, rfl⟩⟩

/-! ## What the calls do -/

/-- One new task in a slot that was empty, queued once, or nothing. -/
def AllOrNothing (k : KernelState) (img : Image) (r : Int × KernelState) : Prop :=
  (∃ (t : TaskId) (heap : Heap), r.1 = t.val ∧ t ∉ k.sched.queued ∧
    Spawned { k with heap := heap } img t r.2) ∨ (r.1 = -1 ∧ OnlyHeap k r.2)

theorem spawn_iff {M : Machine} (hM : M.FilesReady) {k : KernelState} (hr : Reachable M k)
    {path : Bytes} {img : Image} (hl : Loadable k.vfs path img) (hleft : MemoryLeft k path)
    {x : Except String (Option (Image × ExecVec × ExecVec) × KernelState)}
    (hx : Gathers k path img x) :
    Ends (orPanic x >>= fun r => spawnInput r.1 r.2) (AllOrNothing k img) (fun _ => False) ↔
      (∃ t, (k.task t).state = .empty) ∨ DescsFull k.vfs := by
  obtain ⟨input, heap, rfl, hm, hnone, hsome⟩ := hx
  have hk := hr.kernelOk
  have hstop := hm.1.2.stop
  have hptr := hm.2
  have hheap := hleft.heap
  show Ends (spawnInput input { k with heap := heap }) _ _ ↔ _
  by_cases hfull : DescsFull k.vfs
  · rw [hnone hfull]
    exact ⟨fun _ => Or.inr hfull, fun _ => Or.inr ⟨rfl, heap, hm.1, rfl⟩⟩
  obtain ⟨argv, envp, rfl⟩ := hsome hfull
  have hk₁ : KernelOk { k with heap := heap } := { hk with heap := hm.1.1 }
  unfold spawnInput
  dsimp only
  constructor
  · intro h
    refine Or.inl ?_
    by_contra hslot
    obtain ⟨t, ht⟩ : ∃ t, schedulerFindFreeTaskId k.sched = .ok t := by
      cases hf : schedulerFindFreeTaskId k.sched with
      | ok t => exact ⟨t, rfl⟩
      | error e =>
        unfold schedulerCreateUserElfTask at h
        dsimp only at h
        rw [hf] at h
        exact h.elim
    exact hslot ⟨t, (schedulerFindFreeTaskId_spec hk.table).of_ok ht⟩
  · intro h
    obtain ⟨t, ht⟩ := h.resolve_right hfull
    obtain ⟨sk, S, hmem⟩ := hr.memInv
    have hmem₁ : MemInv M.pool { k with heap := heap } sk S :=
      ⟨hmem.inv, hmem.vmm, hmem.kernel, hmem.out, hmem.user, hmem.kernelTask, hmem.cr3⟩
    have hspare := hr.fdInv.spare hM ht
    have hroom : Room { k with heap := heap } img :=
      ⟨⟨t, ht⟩, hleft.pages, by dsimp only; omega, hl.valid, hl.plain, hspare⟩
    obtain ⟨u, k', he, hs⟩ := create_ok hk₁ hmem₁ hroom argv envp
    rw [he]
    refine Or.inl ⟨u, heap, rfl, fun hq => ?_, hs⟩
    have hrun := hk.queue.runnable u hq
    exact absurd (hrun.symm.trans hs.slot) (by decide)

/-- With a loadable image, valid vectors and memory to spare, both calls make one task or change
    nothing if a slot of the table is empty, or if there is no descriptor to read the image with.
    Otherwise the kernel stops. -/
theorem spawn_all_or_nothing_iff {M : Machine} (hM : M.FilesReady) {k : KernelState}
    (h : Reachable M k) {path : Bytes} {img : Image} (hleft : MemoryLeft k path) :
    (∀ a, UserSpawn k a path img →
      (Ends (syscallSpawnExecUserPath k a) (AllOrNothing k img) (fun _ => False) ↔
        (∃ t, (k.task t).state = .empty) ∨ DescsFull k.vfs)) ∧
    ∀ m argvPtr envpPtr, KernelSpawn k m path argvPtr envpPtr img →
      (Ends (syscallSpawnExecKernelPath k (fun x => .ok (m x)) path argvPtr envpPtr)
          (AllOrNothing k img) (fun _ => False) ↔
        (∃ t, (k.task t).state = .empty) ∨ DescsFull k.vfs) := by
  obtain ⟨sk, S, hm⟩ := h.memInv
  have hv := h.vfs hM
  constructor
  · intro a ha
    exact spawn_iff hM h ha.loadable hleft (ha.gathers h.kernelOk hm hv hleft)
  · intro m argvPtr envpPtr ha
    exact spawn_iff hM h ha.loadable hleft (ha.gathers hv hleft)

/-! ## A full table -/

theorem card_rowPages_le {row : Task} {img : Image} {m : Mem} {sh : Shape}
    (h : IsUser row → UserSpace row img m sh) : (rowPages row sh).card ≤ 76 := by
  unfold rowPages
  split_ifs with hu
  · have hs := h hu
    rw [Multiset.card_add, tables_one (j := 256) (by decide) hs.root.rest, Multiset.card_cons,
      Multiset.card_cons, Multiset.card_add, card_p2Below, Multiset.coe_card]
    have := card_ptPage_le sh 256
    have := hs.fits.length.2
    omega
  · exact Nat.zero_le _

/-- Eight tasks hold 76 pages each at most. -/
theorem ReachableBy.freePages {M : Machine} {A : KernelState → Act → Prop} {k₀ k : KernelState}
    (hb : Kernel.boot M = .ok k₀) (h : ReachableBy M A k) :
    M.pool.pages.card ≤ k.phys.pmm.freePages + 615 := by
  have hbooted := (boot_spec M).of_ok hb
  obtain ⟨sk, S, hout, hm⟩ := h.memInv_from hb
  have hcard := congrArg Multiset.card hm.inv.partition
  have hcard₀ : (outstanding k₀.phys.pmm.history).card ≤ 7 := by
    obtain ⟨sh, hm₀⟩ := hbooted.memory
    have hp := congrArg Multiset.card hm₀.inv.partition
    have hfree := hbooted.freePages
    have hfree₀ := hm₀.inv.free
    rw [Multiset.card_add] at hp
    omega
  have hrows : (∑ t, rowPages (k.task t) (S t)).card ≤ 608 := by
    rw [Multiset.card_sum]
    refine (Finset.sum_le_card_nsmul _ _ 76 fun t _ => ?_).trans (le_of_eq rfl)
    exact card_rowPages_le (hm.user t)
  have hfree := hm.inv.free
  rw [hm.out, Multiset.card_add, Multiset.card_add, ← hout] at hcard
  omega

theorem schedulerInitTaskFds_mem {v v' : VfsState} {fds : Fin 4 → Nat}
    (h : schedulerInitTaskFds v = .ok (fds, v')) : v'.mem = v.mem := by
  have hmem : ∀ w d, (vfsAllocDescriptor w d).2.mem = w.mem := by
    intro w d
    unfold vfsAllocDescriptor
    dsimp only
    split_ifs <;> rfl
  unfold schedulerInitTaskFds at h
  dsimp only at h
  split_ifs at h with hz
  cases h
  exact (hmem _ _).trans ((hmem _ _).trans (hmem _ _))

/-- The empty slots. -/
def emptySlots (k : KernelState) : Finset TaskId :=
  Finset.univ.filter fun t => (k.task t).state = .empty

/-- A state in which spawns of `smallImage` go on: the files are those of boot, every task has its
    last descriptor slot free, and there is heap for the empty slots and `left` bytes more. -/
structure Spawning (M : Machine) (left : Nat) (k : KernelState) : Prop where
  reach : Reachable M k
  running : Running k
  nodes : k.vfs.nodes = M.vfs.nodes
  mem : k.vfs.mem = M.vfs.mem
  fds : ∀ t, (k.task t).fds 3 = 0
  heap : k.heap.ptr + 6600 * (emptySlots k).card + left ≤ k.heap.stop

theorem Spawning.spawn {M : Machine} (hM : M.FilesReady) (hboots : ¬ M.MayFail)
    (hpages : 691 ≤ M.pool.pages.card) {left : Nat} {k : KernelState} (h : Spawning M left k)
    {t : TaskId} (ht : t ∈ emptySlots k) :
    ∃ k', Spawning M left k' ∧ (emptySlots k').card + 1 = (emptySlots k).card := by
  obtain ⟨k₀, hboot, -⟩ := boot_ok hboots
  have hempty : (k.task t).state = .empty := (Finset.mem_filter.mp ht).2
  obtain ⟨sk, S, hm⟩ := h.reach.memInv
  have hfree := h.reach.freePages hboot
  have hheap := h.heap
  have hone : 1 ≤ (emptySlots k).card := Finset.card_pos.mpr ⟨t, ht⟩
  have hroom : Room k smallImage := ⟨⟨t, hempty⟩, by omega, by omega, smallImage_valid,
    smallImage_plain, h.reach.fdInv.spare hM hempty⟩
  obtain ⟨u, k', ha, hs⟩ := spawn_ok h.reach.kernelOk hm hroom noStrings noStrings
  have hslots : emptySlots k' = (emptySlots k).erase u := by
    ext w
    unfold emptySlots
    rw [Finset.mem_erase, Finset.mem_filter, Finset.mem_filter]
    by_cases hw : w = u
    · subst hw
      rw [hs.runnable]
      simp
    · rw [hs.others w hw]
      simp [hw]
  have hcard : (emptySlots k').card + 1 = (emptySlots k).card := by
    rw [hslots]
    exact Finset.card_erase_add_one (Finset.mem_filter.mpr ⟨Finset.mem_univ u, hs.slot⟩)
  have henabled : Enabled k (.spawn smallImage noStrings noStrings) := h.running
  obtain ⟨hnodes, h3, -⟩ := schedulerInitTaskFds_slots hs.fds
  refine ⟨k', ⟨h.reach.step trivial henabled ha, ?_, hnodes.trans h.nodes,
    (schedulerInitTaskFds_mem hs.fds).trans h.mem, fun w => ?_, ?_⟩, hcard⟩
  · unfold Running
    rw [hs.current, hs.kont, Function.update_apply, h.running]
    split_ifs <;> rfl
  · by_cases hw : w = u
    · rw [hw]
      exact h3
    · rw [hs.others w hw]
      exact h.fds w
  · have := hs.heap
    omega

/-- All slots can be taken. -/
theorem Spawning.full {M : Machine} (hM : M.FilesReady) (hboots : ¬ M.MayFail)
    (hpages : 691 ≤ M.pool.pages.card) {left n : Nat} {k : KernelState} (h : Spawning M left k)
    (hn : (emptySlots k).card = n) :
    ∃ k', Spawning M left k' ∧ ∀ t, (k'.task t).state ≠ .empty := by
  induction n generalizing k with
  | zero =>
    refine ⟨k, h, fun t ht => ?_⟩
    have hmem : t ∈ emptySlots k := Finset.mem_filter.mpr ⟨Finset.mem_univ t, ht⟩
    rw [Finset.card_eq_zero.mp hn] at hmem
    exact absurd hmem (Finset.notMem_empty t)
  | succ n ih =>
    obtain ⟨t, ht⟩ := Finset.card_pos.mp (by omega : 0 < (emptySlots k).card)
    obtain ⟨k', hk', hcard⟩ := h.spawn hM hboots hpages ht
    exact ih hk' (by omega)

theorem Booted.spawning {M : Machine} {k : KernelState} (hboot : boot M = .ok k) {left : Nat}
    (hroom : M.heap.ptr + 63200 + left ≤ M.heap.stop) : Spawning M left k := by
  have hb : Booted M k := (boot_spec M).of_ok hboot
  obtain ⟨⟨fds0, v⟩, e0, hf⟩ := bind_eq_ok.mp hb.fds
  obtain ⟨⟨fds1, v'⟩, e1, hf⟩ := bind_eq_ok.mp hf
  have hfds := Except.ok.inj hf
  have hvfs : v' = k.vfs := congrArg (fun r => r.2.2) hfds
  obtain ⟨n0, hz0, -⟩ := schedulerInitTaskFds_slots e0
  obtain ⟨n1, hz1, -⟩ := schedulerInitTaskFds_slots e1
  obtain ⟨row0, row1, hrows, -⟩ := hb.rows
  have hptr := hrows.ptr_lt
  have hstop := hrows.extended.stop
  have hcard : (emptySlots k).card ≤ 8 := Finset.card_le_univ _
  refine ⟨.boot hboot, ?_, ?_, ?_, fun t => ?_, by omega⟩
  · unfold Running
    rw [hb.kont]
  · rw [← hvfs]
    exact n1.trans n0
  · rw [← hvfs]
    exact (schedulerInitTaskFds_mem e1).trans (schedulerInitTaskFds_mem e0)
  · by_cases h0 : t = 0
    · rw [h0, ← show fds0 = (k.task 0).fds from congrArg (fun r => r.1) hfds]
      exact hz0
    by_cases h1 : t = 1
    · rw [h1, ← show fds1 = (k.task 1).fds from congrArg (fun r => r.2.1) hfds]
      exact hz1
    have hempty : (k.task t).state = .empty := by
      refine hb.kernelOk.table.beyond t ?_
      rw [hb.count]
      have : t.val ≠ 0 := fun h => h0 (Fin.ext h)
      have : t.val ≠ 1 := fun h => h1 (Fin.ext h)
      omega
    exact hb.fdInv.empty t hempty 3

/-- `/bin/hello`. -/
def binHello : Bytes := [47, 98, 105, 110, 47, 104, 101, 108, 108, 111]

/-- `/hello.txt` and a program. -/
def programEntries : List (Bytes × Bytes) := [(helloPath, [104]), (binHello, smallImage)]

def programMem : Mem := storeBytes (fun _ => 0) 4096 (buildImage programEntries)

theorem lengthsOk_program : LengthsOk programMem 4096 (buildImage programEntries).length :=
  lengthsOk_buildImage ⟨loadBytes_storeBytes _ _ _, by decide, by decide, by decide +kernel⟩
    (by decide)

def programFiles : Except String (VfsState × Heap) := do
  let (v, heap) ← initVfs programMem 4096 (buildImage programEntries).length smallMachine.heap
  vfsSelfTest v heap

/-- Three MiB of memory. -/
def programMap : BootInfo where
  mmap := [⟨0x100000, 0x300000, 7⟩]
  kernelPhysStart := 0
  kernelPhysEnd := 0

theorem programMap_loader : LoaderMap programMap where
  disjoint := List.pairwise_singleton _ _
  range := by intro e he _; rw [List.mem_singleton.mp he]; decide
  kernel_le := by decide
  kernel_range := by decide
  aligned := by intro e he _; rw [List.mem_singleton.mp he]; decide
  kernel_up := by decide

/-- A machine that boots with `smallImage` in `/bin/hello` and room for eight tasks. -/
structure ProgramMachine (M : Machine) : Prop where
  files : M.FilesReady
  boots : ¬ M.MayFail
  pages : 691 ≤ M.pool.pages.card
  heap : M.heap.ptr + 63200 + 26000 ≤ M.heap.stop
  loadable : Loadable M.vfs binHello smallImage

theorem exists_programMachine : ∃ M, ProgramMachine M := by
  obtain ⟨b, hb⟩ := exists_ok_of_isOk (x := do
    let s ← programFiles
    if s.2.ptr + 100000 ≤ s.2.stop ∧ openPlan s.1 binHello 0 = .file 1 ∧
      contents s.1 1 = smallImage then .ok () else .error "") (by decide +kernel)
  obtain ⟨⟨v, h⟩, hs, hb⟩ := bind_eq_ok.mp hb
  split_ifs at hb with hcond
  obtain ⟨hroom, hplan, himg⟩ := hcond
  dsimp only at hroom hplan himg
  obtain ⟨⟨v₀, h₀⟩, hinit, htest⟩ := bind_eq_ok.mp hs
  have hnone := openDescs_initVfs smallMachine.heapOk lengthsOk_program hinit
  have hok := (vfsSelfTest_spec (.init smallMachine.heapOk lengthsOk_program hinit) hnone htest).1.inv.heap
  let M : Machine := { smallMachine with
    info := programMap, map := programMap_loader.toMapOk, noWrap := programMap_loader.noWrap
    heap := h, heapOk := hok, vfs := v }
  have hfiles : M.FilesReady := ⟨programMem, 4096, _, smallMachine.heap, v₀, h₀, h,
    smallMachine.heapOk, lengthsOk_program, hinit, htest, hok, le_refl _, rfl⟩
  obtain ⟨r, hr⟩ := hfiles.bootFds
  obtain ⟨s, hs, hf, ht⟩ : ∃ s, initPmm programMap = .ok s ∧ s.freePages = 768 ∧
      s.totalPages = 768 := ⟨_, rfl, rfl, rfl⟩
  have hcard : M.pool.pages.card = 768 := by
    have htotal := (initPmm_inv M.map M.noWrap hs).total
    rw [ht] at htotal
    exact_mod_cast htotal.symm
  have hheap : h.ptr + 10400 ≤ h.stop := by omega
  refine ⟨M, hfiles, Machine.boots hs (by omega) (by omega) rfl hheap hr, by omega, ?_,
    ⟨1, hplan, himg⟩, ⟨by decide, by decide⟩, smallImage_valid, smallImage_plain⟩
  show h.ptr + 63200 + 26000 ≤ h.stop
  omega

/-- The files are still those of boot. -/
theorem Spawning.loadable {M : Machine} {left : Nat} {k : KernelState} (h : Spawning M left k)
    {path : Bytes} {img : Image} (hl : Loadable M.vfs path img) : Loadable k.vfs path img := by
  obtain ⟨⟨id, hplan, himg⟩, hsize, hvalid, hplain⟩ := hl
  refine ⟨⟨id, ?_, ?_⟩, hsize, hvalid, hplain⟩
  · rw [openPlan_congr h.nodes]
    exact hplan
  · unfold contents at himg ⊢
    rw [h.nodes, h.mem]
    exact himg

theorem Spawning.memoryLeft {M : Machine} (hM : ProgramMachine M) {k : KernelState}
    (h : Spawning M 26000 k) : MemoryLeft k binHello := by
  obtain ⟨k₀, hboot, -⟩ := boot_ok hM.boots
  have hfree := h.reach.freePages hboot
  have hpages := hM.pages
  have hheap := h.heap
  have hlen : binHello.length = 10 := rfl
  exact ⟨by omega, by omega⟩

/-- Three descriptors for each of eight tasks leave some. -/
theorem Spawning.descs {M : Machine} (hM : M.FilesReady) {left : Nat} {k : KernelState}
    (h : Spawning M left k) : ¬ DescsFull k.vfs := by
  intro hfull
  have hcard := h.reach.fdInv.owns.card_le (Finset.univ.filter fun s : Slot => s.2 ≠ 3)
    fun s hs => by
      refine Finset.mem_filter.mpr ⟨Finset.mem_univ s, ?_⟩
      rintro h3
      exact hs (by unfold heldDesc; rw [h3]; exact h.fds s.1)
  have hused : (Finset.univ.filter fun s : Slot => s.2 ≠ 3).card = 24 := by decide
  have hbase := hM.card_le
  rw [descsFull_card hfull] at hcard
  unfold maxVfsDescriptors at hcard
  omega

theorem kernelVector_null (m : Mem) : KernelVector m 0 := ⟨⟨by decide, by decide⟩, Or.inl rfl⟩

theorem spawn_all_or_nothing_iff_program : ∃ M k, M.FilesReady ∧ Reachable M k ∧
    MemoryLeft k binHello ∧ KernelSpawn k (fun _ => 0) binHello 0 0 smallImage ∧
    Ends (syscallSpawnExecKernelPath k (fun _ => .ok 0) binHello 0 0) (AllOrNothing k smallImage)
      (fun _ => False) := by
  obtain ⟨M, hM⟩ := exists_programMachine
  obtain ⟨k, hboot, hb⟩ := boot_ok hM.boots
  have hs := Booted.spawning hboot hM.heap
  have hcall : KernelSpawn k (fun _ => 0) binHello 0 0 smallImage :=
    ⟨hs.loadable hM.loadable, kernelVector_null _, kernelVector_null _⟩
  have hleft := hs.memoryLeft hM
  refine ⟨M, k, hM.files, hs.reach, hleft, hcall, ?_⟩
  refine ((spawn_all_or_nothing_iff hM.files hs.reach hleft).2 _ _ _ hcall).mpr (Or.inl ⟨2, ?_⟩)
  obtain ⟨row0, row1, -, htask⟩ := hb.rows
  unfold KernelState.task
  rw [htask]
  rfl

/-- A path, its image and no vectors, with all slots taken: the kernel stops. -/
theorem spawn_full_table_halts : ∃ M k, M.FilesReady ∧ Reachable M k ∧ MemoryLeft k binHello ∧
    KernelSpawn k (fun _ => 0) binHello 0 0 smallImage ∧
    syscallSpawnExecKernelPath k (fun _ => .ok 0) binHello 0 0 =
      .error (.message "scheduler task table full") := by
  obtain ⟨M, hM⟩ := exists_programMachine
  obtain ⟨k₀, hboot, -⟩ := boot_ok hM.boots
  obtain ⟨k, hs, hfull⟩ := (Booted.spawning hboot hM.heap).full hM.files hM.boots hM.pages rfl
  have hcall : KernelSpawn k (fun _ => 0) binHello 0 0 smallImage :=
    ⟨hs.loadable hM.loadable, kernelVector_null _, kernelVector_null _⟩
  have hleft := hs.memoryLeft hM
  refine ⟨M, k, hM.files, hs.reach, hleft, hcall, ?_⟩
  obtain ⟨input, heap, hx, -, -, hsome⟩ := hcall.gathers (hs.reach.vfs hM.files) hleft
  obtain ⟨argv, envp, rfl⟩ := hsome (hs.descs hM.files)
  have hfind : schedulerFindFreeTaskId k.sched = .error (.message "scheduler task table full") := by
    have hspec := schedulerFindFreeTaskId_spec hs.reach.kernelOk.table
    cases hf : schedulerFindFreeTaskId k.sched with
    | ok t => exact absurd (hspec.of_ok hf) (hfull t)
    | error e => rw [(hspec.of_error hf).1]
  unfold syscallSpawnExecKernelPath
  rw [hx]
  show spawnInput (some (smallImage, argv, envp)) { k with heap := heap } = _
  unfold spawnInput schedulerCreateUserElfTask
  dsimp only
  rw [hfind]
  rfl

end PcoOs.Kernel
