/-
  What the file calls change outside the file system: the early heap grows, the descriptors of
  the calling task change, and a call with a user pointer writes bytes at that pointer, inside a
  buffer that passed the check.
-/
import PcoOs.Syscall.Model
import PcoOs.Vfs.Descriptors

namespace PcoOs.Syscall

open PcoOs.Lib PcoOs.Support PcoOs.Vmm PcoOs.Elf PcoOs.Sched PcoOs.Vfs PcoOs.Kernel

/-! ## The heap in the file system -/

theorem vfsOpenPath_moves {v v' : VfsState} {h : Heap} (hok : HeapOk h) {path : Bytes}
    {flags : Int} {d : Nat} {h' : Heap} (he : vfsOpenPath v h path flags = .ok (d, v', h')) :
    HeapMoves h h' :=
  ((vfsOpenPath_spec hok v path flags).of_ok he).1.1

theorem vfsWriteDescriptor_moves {v v' : VfsState} {h : Heap} (hok : HeapOk h) {d : Nat}
    {bytes : Bytes} {r : Int} {h' : Heap}
    (he : vfsWriteDescriptor v h d bytes = .ok (r, v', h')) : HeapMoves h h' := by
  obtain ⟨-, -, rfl⟩ | ⟨n, -, -, hg⟩ := vfsWriteDescriptor_cases hok he
  · exact HeapMoves.refl hok
  · exact hg.1

/-! ## File calls -/

/-- What a file call does to the open descriptors and the descriptor slots of its task. -/
inductive FdChange (live live' : Finset Nat) (fds fds' : Fin 4 → Nat) : Prop
  | same (hl : live' = live) (hf : fds' = fds) : FdChange live live' fds fds'
  | acquire {d : Nat} {fd : Fin 4} (hd : d ∉ live) (h0 : d ≠ 0) (hfree : fds fd = 0)
      (hl : live' = insert d live) (hf : fds' = Function.update fds fd d) :
      FdChange live live' fds fds'
  | release {fd : Fin 4} (h0 : fds fd ≠ 0) (hl : live' = live.erase (fds fd))
      (hf : fds' = Function.update fds fd 0) : FdChange live live' fds fds'

/-- What a file call changes: the file system, as its own calls do, the heap pointer and the
    descriptors of the current task. -/
structure FileDone (k k' : KernelState) : Prop where
  heap : HeapMoves k.heap k'.heap
  shape : ∃ vfs heap fds, k' = { k with
    vfs := vfs, heap := heap
    sched := k.sched.setTask k.current { k.task k.current with fds := fds } }
  fds : FdChange (openDescs k.vfs) (openDescs k'.vfs) (k.task k.current).fds
    (k'.task k.current).fds
  reach : VfsReachable (k.vfs, k.heap) → VfsReachable (k'.vfs, k'.heap)

theorem setTask_self (s : SchedState) (t : TaskId) : s.setTask t (s.task t) = s := by
  unfold SchedState.setTask
  rw [Function.update_eq_self]

/-- A call that leaves the descriptors of the task alone. -/
theorem FileDone.of_vfs {k : KernelState} {vfs : VfsState} {heap : Heap}
    (h : HeapMoves k.heap heap) (hl : openDescs vfs = openDescs k.vfs)
    (hr : VfsReachable (k.vfs, k.heap) → VfsReachable (vfs, heap)) :
    FileDone k { k with vfs := vfs, heap := heap } := by
  refine ⟨h, ⟨vfs, heap, (k.task k.current).fds, ?_⟩, .same hl rfl, hr⟩
  have hs : k.sched = k.sched.setTask k.current (k.task k.current) := (setTask_self _ _).symm
  exact congrArg (fun s => { k with vfs := vfs, heap := heap, sched := s }) hs

/-- A call that does nothing but move the heap pointer. -/
theorem FileDone.of_heap {k : KernelState} {heap : Heap} (h : HeapMoves k.heap heap) :
    FileDone k { k with heap := heap } :=
  .of_vfs h rfl fun hs => hs.use h.used

theorem setTaskFd_fds (k : KernelState) (fd : Fin 4) (d : Nat) :
    ((setTaskFd k fd d).task k.current).fds = Function.update (k.task k.current).fds fd d := by
  unfold setTaskFd SchedState.setTask KernelState.task
  dsimp only
  rw [Function.update_self]

theorem FileDone.of_fd {k : KernelState} {vfs : VfsState} {heap : Heap} {fd : Fin 4} {d : Nat}
    (h : HeapMoves k.heap heap)
    (hc : FdChange (openDescs k.vfs) (openDescs vfs) (k.task k.current).fds
      (Function.update (k.task k.current).fds fd d))
    (hr : VfsReachable (k.vfs, k.heap) → VfsReachable (vfs, heap)) :
    FileDone k (setTaskFd { k with vfs := vfs, heap := heap } fd d) :=
  ⟨h, ⟨vfs, heap, Function.update (k.task k.current).fds fd d, rfl⟩,
    (setTaskFd_fds { k with vfs := vfs, heap := heap } fd d).symm ▸ hc, hr⟩

/-- A descriptor opened and closed again. -/
theorem openDescs_reclosed {v v₁ v₂ : VfsState} {d : Nat} (h : Opened v v₁ d) (h0 : d ≠ 0) {r : Int}
    (hc : vfsCloseDescriptor v₁ d = .ok (r, v₂)) : openDescs v₂ = openDescs v := by
  obtain ⟨hz, -⟩ | ⟨-, hfresh, hins⟩ := h
  · exact absurd hz h0
  have hmem : d ∈ openDescs v₁ := hins ▸ Finset.mem_insert_self d _
  cases (vfsCloseDescriptor_open hmem).symm.trans hc
  rw [openDescs_close, hins, Finset.erase_insert hfresh]

theorem fileCall_done {k k' : KernelState} (hok : HeapOk k.heap) {c : FileCall} {r : Int}
    {bytes : Bytes} (he : fileCall k c = .ok (r, bytes, k')) : FileDone k k' := by
  have hnone : FileDone k k := .of_heap (HeapMoves.refl hok)
  unfold fileCall at he
  cases c with
  | write fd data =>
    obtain ⟨⟨r₁, vfs, heap⟩, hw, he⟩ := bind_eq_ok.mp he
    cases he
    exact .of_vfs (vfsWriteDescriptor_moves hok hw) (openDescs_write hok hw) fun hs => hs.write hw
  | openPath path flags =>
    obtain ⟨⟨d, vfs, heap⟩, ho, he⟩ := bind_eq_ok.mp he
    have hm := vfsOpenPath_moves hok ho
    have hopened := vfsOpenPath_opened hok ho
    have hreach : VfsReachable (k.vfs, k.heap) → VfsReachable (vfs, heap) := fun hs => hs.openPath ho
    dsimp only at he
    by_cases hd : d = 0
    · rw [if_pos hd] at he
      cases he
      obtain ⟨-, hl⟩ | ⟨hne, -⟩ := hopened
      · exact .of_vfs hm hl hreach
      · exact absurd hd hne
    rw [if_neg hd] at he
    cases hf : syscallAllocTaskFd { k with vfs := vfs, heap := heap } d with
    | some p =>
      rw [hf] at he
      cases he
      unfold syscallAllocTaskFd at hf
      obtain ⟨fd, hfind, hp⟩ := Option.map_eq_some_iff.mp hf
      cases hp
      obtain ⟨h0, -⟩ | ⟨-, hfresh, hins⟩ := hopened
      · exact absurd h0 hd
      · have hfree : (k.task k.current).fds fd = 0 := by
          have := List.find?_some hfind
          exact of_decide_eq_true this
        exact .of_fd hm (.acquire hfresh hd hfree hins rfl) hreach
    | none =>
      rw [hf] at he
      obtain ⟨⟨r₁, vfs'⟩, hc, he⟩ := bind_eq_ok.mp he
      cases he
      exact .of_vfs hm (openDescs_reclosed hopened hd hc) fun hs => (hreach hs).close hc
  | close fd =>
    dsimp only at he
    split_ifs at he with hfd hz
    · cases he
      exact hnone
    · obtain ⟨⟨r₁, vfs⟩, hc, he⟩ := bind_eq_ok.mp he
      have hreach : VfsReachable (k.vfs, k.heap) → VfsReachable (vfs, k.heap) :=
        fun hs => hs.close hc
      dsimp only at he
      split_ifs at he with hr
      · cases he
        obtain ⟨-, rfl⟩ | ⟨h0, -⟩ := vfsCloseDescriptor_spec hc
        · exact .of_vfs (HeapMoves.refl hok) rfl hreach
        · exact absurd h0 hr
      · cases he
        obtain ⟨h1, -⟩ | ⟨-, -, -, -, rfl⟩ := vfsCloseDescriptor_spec hc
        · exact absurd (h1 ▸ not_not.mp hr : (-1 : Int) = 0) (by decide)
        · exact .of_fd (HeapMoves.refl hok) (.release hz (openDescs_close _ _) rfl) hreach
    · cases he
      exact hnone
  | read fd length input =>
    obtain ⟨⟨r₁, b₁, vfs⟩, hr, he⟩ := bind_eq_ok.mp he
    cases he
    exact .of_vfs (HeapMoves.refl hok) (openDescs_advanced (vfsReadDescriptor_advanced hr))
      fun hs => hs.read hr
  | fstat fd =>
    obtain ⟨⟨r₁, words⟩, -, he⟩ := bind_eq_ok.mp he
    cases he
    exact hnone
  | readdir fd length =>
    obtain ⟨⟨r₁, b₁, vfs⟩, hr, he⟩ := bind_eq_ok.mp he
    cases he
    exact .of_vfs (HeapMoves.refl hok) (openDescs_advanced (vfsReaddirDescriptor_advanced hr))
      fun hs => hs.readdir hr

/-- The loader closes what it opened at each of its exits. -/
theorem syscallLoadExecImage_done {k : KernelState} (hok : HeapOk k.heap) {path : Bytes}
    {img : Option Image} {vfs : VfsState} {heap : Heap}
    (he : syscallLoadExecImage k.vfs k.heap path = .ok (img, vfs, heap)) :
    FileDone k { k with vfs := vfs, heap := heap } := by
  unfold syscallLoadExecImage at he
  by_cases hp : path = []
  · rw [if_pos hp] at he
    cases he
    exact .of_heap (HeapMoves.refl hok)
  rw [if_neg hp] at he
  obtain ⟨⟨d, v₁, h₁⟩, ho, he⟩ := bind_eq_ok.mp he
  have hm := vfsOpenPath_moves hok ho
  have hopened := vfsOpenPath_opened hok ho
  dsimp only at he
  by_cases hd : d = 0
  · rw [if_pos hd] at he
    cases he
    obtain ⟨-, hl⟩ | ⟨hne, -⟩ := hopened
    · exact .of_vfs hm hl fun hs => hs.openPath ho
    · exact absurd hd hne
  rw [if_neg hd] at he
  obtain ⟨⟨p₁, h₂⟩, a₁, he⟩ := bind_eq_ok.mp he
  have hm₂ := hm.trans (allocBytes_moves hm.1 16 a₁)
  obtain ⟨⟨r, words⟩, -, he⟩ := bind_eq_ok.mp he
  dsimp only at he
  have hreach : VfsReachable (k.vfs, k.heap) → VfsReachable (v₁, h₂) :=
    fun hs => (hs.openPath ho).alloc (by norm_num) a₁
  have hclose : closeWithoutImage v₁ h₂ d = .ok (img, vfs, heap) →
      FileDone k { k with vfs := vfs, heap := heap } := by
    intro h
    obtain ⟨⟨r₁, v₂⟩, hc, h⟩ := bind_eq_ok.mp h
    cases h
    exact .of_vfs hm₂ (openDescs_reclosed hopened hd hc) fun hs => (hreach hs).close hc
  split_ifs at he with h1 h2 h3
  · exact hclose he
  · exact hclose he
  · exact hclose he
  obtain ⟨⟨p₂, h₃⟩, a₂, he⟩ := bind_eq_ok.mp he
  have hm₃ := hm₂.trans (allocBytes_moves hm₂.1 _ a₂)
  obtain ⟨⟨count, image, v₂⟩, hr, he⟩ := bind_eq_ok.mp he
  obtain ⟨⟨r₁, v₃⟩, hc, he⟩ := bind_eq_ok.mp he
  have hkeep := openDescs_advanced (vfsReadDescriptor_advanced hr)
  have hopened₂ : Opened k.vfs v₂ d := by
    unfold Opened at hopened ⊢
    rwa [hkeep]
  have hdone : FileDone k { k with vfs := v₃, heap := h₃ } :=
    .of_vfs hm₃ (openDescs_reclosed hopened₂ hd hc) fun hs =>
      (((hreach hs).alloc (by omega) a₂).read hr).close hc
  dsimp only at he
  split_ifs at he
  · cases he
    exact hdone
  · obtain ⟨ok, -, he⟩ := bind_eq_ok.mp he
    cases he
    exact hdone

/-! ## User buffers -/

/-- An accepted buffer lies between the base and the limit of its task, and its end does not
    wrap. -/
theorem syscallValidateUserBuffer_range {row : Task} {ptr length : Int} (hp : IsInt64 ptr)
    (hl : IsInt64 length) (h : syscallValidateUserBuffer row ptr length = true) :
    row.userBase ≤ ptr ∧ 0 ≤ length ∧ ptr + length ≤ row.userLimit ∧
      wrap (ptr + length) = ptr + length := by
  unfold IsInt64 at hp hl
  unfold syscallValidateUserBuffer at h
  dsimp only at h
  have hw : wrap (ptr + length) = ptr + length ∨ wrap (ptr + length) < ptr ∨ length < 0 := by
    unfold wrap
    omega
  split_ifs at h with h1 h2 h3 h4 h5 h6 h7 <;> omega

theorem vfsStatDescriptor_length {v : VfsState} {d : Nat} {r : Int} {words : List Nat}
    (h : vfsStatDescriptor v d = .ok (r, words)) : (words.flatMap wordBytes).length ≤ 16 := by
  have hlen : ∀ a b : Nat, ([a, b].flatMap wordBytes).length = 16 := fun a b => rfl
  unfold vfsStatDescriptor at h
  split_ifs at h
  · cases h
    exact Nat.zero_le _
  · obtain ⟨desc, -, h⟩ := bind_eq_ok.mp h
    cases hk : desc.kind with
    | directory =>
      rw [hk] at h
      cases h
      exact (hlen _ _).le
    | initramfsFile =>
      rw [hk] at h
      obtain ⟨n, -, h⟩ := bind_eq_ok.mp h
      cases h
      exact (hlen _ _).le
    | closed | consoleIn | consoleOut =>
      rw [hk] at h
      cases h
      exact Nat.zero_le _

theorem vfsReaddirDescriptor_length {v v' : VfsState} {d length : Nat} {r : Int} {bytes : Bytes}
    (h : vfsReaddirDescriptor v d length = .ok (r, bytes, v')) : bytes.length ≤ length := by
  unfold vfsReaddirDescriptor at h
  by_cases hd : d = 0
  · rw [if_pos hd] at h
    cases h
    exact Nat.zero_le _
  rw [if_neg hd] at h
  obtain ⟨desc, -, h⟩ := bind_eq_ok.mp h
  by_cases hk : desc.kind ≠ .directory
  · rw [if_pos hk] at h
    cases h
    exact Nat.zero_le _
  rw [if_neg hk] at h
  cases hn : nextChild v desc.path desc.offset (v.nodes.length - desc.offset) with
  | none =>
    rw [hn] at h
    cases h
    exact Nat.zero_le _
  | some p =>
    rw [hn] at h
    cases h
    rw [List.length_take]
    exact Nat.min_le_left _ _

theorem vfsReadDescriptor_length {v v' : VfsState} {input : Bytes} {d length : Nat} {r : Int}
    {bytes : Bytes} (h : vfsReadDescriptor v input d length = .ok (r, bytes, v')) :
    bytes.length ≤ length := by
  unfold vfsReadDescriptor at h
  split_ifs at h
  · cases h
    exact Nat.zero_le _
  · obtain ⟨desc, -, h⟩ := bind_eq_ok.mp h
    cases hk : desc.kind with
    | consoleIn =>
      rw [hk] at h
      cases h
      unfold consoleReadPtrLen
      rw [List.length_map, List.length_take]
      exact Nat.min_le_left _ _
    | initramfsFile =>
      rw [hk] at h
      obtain ⟨n, -, h⟩ := bind_eq_ok.mp h
      dsimp only at h
      split_ifs at h
      · cases h
        exact Nat.zero_le _
      · cases h
        rw [length_loadBytes]
        exact Nat.min_le_left _ _
    | closed | consoleOut | directory =>
      rw [hk] at h
      cases h
      exact Nat.zero_le _

/-- The size of the buffer a call fills. -/
def FileCall.capacity : FileCall → Nat
  | .read _ length _ => length
  | .fstat _ => 16
  | .readdir _ length => length
  | _ => 0

theorem fileCall_length {k k' : KernelState} {c : FileCall} {r : Int} {bytes : Bytes}
    (he : fileCall k c = .ok (r, bytes, k')) : bytes.length ≤ c.capacity := by
  unfold fileCall at he
  cases c with
  | write fd data =>
    obtain ⟨⟨r₁, vfs, heap⟩, -, he⟩ := bind_eq_ok.mp he
    cases he
    exact Nat.zero_le _
  | openPath path flags =>
    obtain ⟨⟨d, vfs, heap⟩, -, he⟩ := bind_eq_ok.mp he
    dsimp only at he
    by_cases hd : d = 0
    · rw [if_pos hd] at he
      cases he
      exact Nat.zero_le _
    rw [if_neg hd] at he
    cases hf : syscallAllocTaskFd { k with vfs := vfs, heap := heap } d with
    | some p =>
      rw [hf] at he
      cases he
      exact Nat.zero_le _
    | none =>
      rw [hf] at he
      obtain ⟨⟨r₁, vfs'⟩, -, he⟩ := bind_eq_ok.mp he
      cases he
      exact Nat.zero_le _
  | close fd =>
    dsimp only at he
    split_ifs at he
    · cases he
      exact Nat.zero_le _
    · obtain ⟨⟨r₁, vfs⟩, -, he⟩ := bind_eq_ok.mp he
      dsimp only at he
      split_ifs at he
      · cases he
        exact Nat.zero_le _
      · cases he
        exact Nat.zero_le _
    · cases he
      exact Nat.zero_le _
  | read fd length input =>
    obtain ⟨⟨r₁, b₁, vfs⟩, hr, he⟩ := bind_eq_ok.mp he
    cases he
    exact vfsReadDescriptor_length hr
  | fstat fd =>
    obtain ⟨⟨r₁, words⟩, hs, he⟩ := bind_eq_ok.mp he
    cases he
    exact vfsStatDescriptor_length hs
  | readdir fd length =>
    obtain ⟨⟨r₁, b₁, vfs⟩, hr, he⟩ := bind_eq_ok.mp he
    cases he
    exact vfsReaddirDescriptor_length hr

theorem fetch_capacity {m : Mem} {root : Nat} {c : UserCall} {call : FileCall}
    (h : c.fetch m root = .ok call) : call.capacity = 0 ∨
      ∃ ptr length, c.buffer = some (ptr, length) ∧ call.capacity = length.toNat := by
  unfold UserCall.fetch at h
  cases c with
  | write fd ptr length =>
    obtain ⟨bytes, -, h⟩ := bind_eq_ok.mp h
    cases h
    exact Or.inl rfl
  | openPath ptr length flags =>
    obtain ⟨bytes, -, h⟩ := bind_eq_ok.mp h
    cases h
    exact Or.inl rfl
  | close fd =>
    cases h
    exact Or.inl rfl
  | read fd ptr length input =>
    cases h
    exact Or.inr ⟨ptr, length, rfl, rfl⟩
  | fstat fd ptr =>
    cases h
    exact Or.inr ⟨ptr, 16, rfl, rfl⟩
  | readdir fd ptr length =>
    cases h
    exact Or.inr ⟨ptr, length, rfl, rfl⟩

/-- The bytes a call stores fit into its buffer. -/
theorem userCallBytes_spec {k k' : KernelState} (hok : HeapOk k.heap) {c : UserCall} {r : Int}
    {bytes : Bytes} (h : userCallBytes k c = .ok (r, bytes, k')) :
    FileDone k k' ∧ (bytes = [] ∨ c.accepted (k.task k.current) = true ∧
      ∃ ptr length, c.buffer = some (ptr, length) ∧ bytes.length ≤ length.toNat) := by
  unfold userCallBytes at h
  by_cases ha : c.accepted (k.task k.current) = true
  · rw [if_neg (not_not.mpr ha)] at h
    obtain ⟨call, hf, h⟩ := bind_eq_ok.mp h
    obtain ⟨⟨r₁, b₁, k₁⟩, hc, h⟩ := bind_eq_ok.mp h
    dsimp only at h
    split_ifs at h
    cases h
    have hlen := fileCall_length hc
    refine ⟨fileCall_done hok hc, ?_⟩
    rcases fetch_capacity hf with h0 | ⟨ptr, length, hb, hcap⟩
    · exact Or.inl (List.eq_nil_of_length_eq_zero (by omega))
    · exact Or.inr ⟨ha, ptr, length, hb, by omega⟩
  · rw [if_pos ha] at h
    cases h
    exact ⟨FileDone.of_heap (HeapMoves.refl hok), Or.inl rfl⟩

/-! ## The number of bytes delivered -/

/-- The descriptor behind a number of the current task. -/
def openDesc (k : KernelState) (fd : Int) : Option Desc :=
  let d := schedulerTaskFdObject (k.task k.current) fd
  if d = 0 ∨ d > maxVfsDescriptors then none else some (k.vfs.desc d)

/-- How many bytes a call puts into an accepted buffer, read off the tables: what the console has
    ready, what is left of the file, two words, or a name. -/
def UserCall.delivers (k : KernelState) : UserCall → Nat
  | .read fd _ length input =>
    match openDesc k fd with
    | none => 0
    | some d => match d.kind with
      | .consoleIn => min length.toNat input.length
      | .initramfsFile =>
        match vfsNode k.vfs d.nodeId with
        | .ok n => min length.toNat (n.dataLen - d.offset)
        | .error _ => 0
      | _ => 0
  | .fstat fd _ =>
    match openDesc k fd with
    | none => 0
    | some d => match d.kind with
      | .directory => 16
      | .initramfsFile =>
        match vfsNode k.vfs d.nodeId with
        | .ok _ => 16
        | .error _ => 0
      | _ => 0
  | .readdir fd _ length =>
    match openDesc k fd with
    | none => 0
    | some d =>
      if d.kind ≠ .directory then 0
      else match nextChild k.vfs d.path d.offset (k.vfs.nodes.length - d.offset) with
      | none => 0
      | some (child, _) => min length.toNat child.length
  | _ => 0

/-- The three ways to look a descriptor up. -/
theorem openDesc_cases (k : KernelState) (fd : Int) :
    (schedulerTaskFdObject (k.task k.current) fd = 0 ∧ openDesc k fd = none) ∨
      (∃ e, vfsDesc k.vfs (schedulerTaskFdObject (k.task k.current) fd) = .error e ∧
        schedulerTaskFdObject (k.task k.current) fd ≠ 0 ∧ openDesc k fd = none) ∨
      ∃ d, vfsDesc k.vfs (schedulerTaskFdObject (k.task k.current) fd) = .ok d ∧
        schedulerTaskFdObject (k.task k.current) fd ≠ 0 ∧ openDesc k fd = some d := by
  unfold openDesc vfsDesc
  dsimp only
  by_cases h0 : schedulerTaskFdObject (k.task k.current) fd = 0
  · exact Or.inl ⟨h0, if_pos (Or.inl h0)⟩
  · by_cases h1 : schedulerTaskFdObject (k.task k.current) fd > maxVfsDescriptors
    · exact Or.inr (Or.inl ⟨_, if_pos (Or.inr h1), h0, if_pos (Or.inr h1)⟩)
    · have hn : ¬ (schedulerTaskFdObject (k.task k.current) fd = 0 ∨
          schedulerTaskFdObject (k.task k.current) fd > maxVfsDescriptors) := by
        rw [not_or]
        exact ⟨h0, h1⟩
      exact Or.inr (Or.inr ⟨_, if_neg hn, h0, if_neg hn⟩)

theorem vfsReadDescriptor_count (k : KernelState) (fd ptr length : Int) (input : Bytes) :
    Ends (vfsReadDescriptor k.vfs input (schedulerTaskFdObject (k.task k.current) fd) length.toNat)
      (fun r => r.2.1.length = (UserCall.read fd ptr length input).delivers k)
      (fun _ => (UserCall.read fd ptr length input).delivers k = 0) := by
  unfold vfsReadDescriptor UserCall.delivers
  dsimp only
  rcases openDesc_cases k fd with ⟨h0, ho⟩ | ⟨e, hd, h0, ho⟩ | ⟨d, hd, h0, ho⟩
  · rw [if_pos h0, ho]
    rfl
  · rw [if_neg h0, hd, ho]
    rfl
  · rw [if_neg h0, hd, ok_bind, ho]
    dsimp only
    cases hk : d.kind with
    | consoleIn =>
      rw [ends_ok]
      unfold consoleReadPtrLen
      dsimp only
      rw [List.length_map, List.length_take]
    | initramfsFile =>
      dsimp only
      cases hn : vfsNode k.vfs d.nodeId with
      | error e => rfl
      | ok n =>
        rw [ok_bind]
        dsimp only
        split_ifs with hle
        · rw [ends_ok, Nat.sub_eq_zero_of_le hle, Nat.min_zero]
          rfl
        · rw [ends_ok]
          dsimp only
          rw [length_loadBytes]
    | closed | consoleOut | directory => rfl

theorem vfsStatDescriptor_count (k : KernelState) (fd ptr : Int) :
    Ends (vfsStatDescriptor k.vfs (schedulerTaskFdObject (k.task k.current) fd))
      (fun r => (r.2.flatMap wordBytes).length = (UserCall.fstat fd ptr).delivers k)
      (fun _ => (UserCall.fstat fd ptr).delivers k = 0) := by
  unfold vfsStatDescriptor UserCall.delivers
  dsimp only
  rcases openDesc_cases k fd with ⟨h0, ho⟩ | ⟨e, hd, h0, ho⟩ | ⟨d, hd, h0, ho⟩
  · rw [if_pos h0, ho]
    rfl
  · rw [if_neg h0, hd, ho]
    rfl
  · rw [if_neg h0, hd, ok_bind, ho]
    dsimp only
    cases hk : d.kind with
    | initramfsFile =>
      dsimp only
      cases hn : vfsNode k.vfs d.nodeId with
      | error e => rfl
      | ok n => rfl
    | closed | consoleIn | consoleOut | directory => rfl

theorem vfsReaddirDescriptor_count (k : KernelState) (fd ptr length : Int) :
    Ends (vfsReaddirDescriptor k.vfs (schedulerTaskFdObject (k.task k.current) fd) length.toNat)
      (fun r => r.2.1.length = (UserCall.readdir fd ptr length).delivers k)
      (fun _ => (UserCall.readdir fd ptr length).delivers k = 0) := by
  unfold vfsReaddirDescriptor UserCall.delivers
  dsimp only
  rcases openDesc_cases k fd with ⟨h0, ho⟩ | ⟨e, hd, h0, ho⟩ | ⟨d, hd, h0, ho⟩
  · rw [if_pos h0, ho]
    rfl
  · rw [if_neg h0, hd, ho]
    rfl
  · rw [if_neg h0, hd, ok_bind, ho]
    dsimp only
    by_cases hk : d.kind ≠ .directory
    · rw [if_pos hk, if_pos hk]
      rfl
    · rw [if_neg hk, if_neg hk]
      cases nextChild k.vfs d.path d.offset (k.vfs.nodes.length - d.offset) with
      | none => rfl
      | some p =>
        obtain ⟨child, next⟩ := p
        rw [ends_ok]
        dsimp only
        rw [List.length_take]

/-- The calls that fill a buffer. -/
def UserCall.fills : UserCall → Bool
  | .read _ _ _ _ | .fstat _ _ | .readdir _ _ _ => true
  | _ => false

/-- The bytes of a call that fills an accepted buffer, unless it panics. -/
theorem userCallBytes_delivers {k : KernelState} {c : UserCall} (hf : c.fills = true)
    (ha : c.accepted (k.task k.current) = true) :
    Ends (userCallBytes k c) (fun r => r.2.1.length = c.delivers k ∧
        (c.delivers k = 0 ∨ c.aligned = true))
      (fun _ => c.delivers k = 0 ∨ c.aligned = false) := by
  have hend : ∀ (r : Int) (bytes : Bytes) (k₁ : KernelState), bytes.length = c.delivers k →
      Ends (if bytes ≠ [] ∧ ¬ c.aligned = true then .error "qword region base is unaligned"
          else .ok (r, bytes, k₁) : Except String (Int × Bytes × KernelState))
        (fun r => r.2.1.length = c.delivers k ∧ (c.delivers k = 0 ∨ c.aligned = true))
        (fun _ => c.delivers k = 0 ∨ c.aligned = false) := by
    intro r bytes k₁ hlen
    split_ifs with hc
    · exact Or.inr (Bool.eq_false_iff.mpr hc.2)
    · refine ⟨hlen, ?_⟩
      by_cases hb : bytes = []
      · rw [hb] at hlen
        exact Or.inl hlen.symm
      · by_contra hcon
        rw [not_or] at hcon
        exact hc ⟨hb, hcon.2⟩
  unfold userCallBytes
  rw [if_neg (not_not.mpr ha)]
  cases c with
  | write fd ptr length => cases hf
  | openPath ptr length flags => cases hf
  | close fd => cases hf
  | read fd ptr length input =>
    rw [show (UserCall.read fd ptr length input).fetch k.phys.mem k.phys.cr3 =
      .ok (.read fd length.toNat input) from rfl, ok_bind]
    refine ends_bind (P := fun r => r.2.1.length = (UserCall.read fd ptr length input).delivers k)
      ?_ fun r hr => hend _ _ _ hr
    refine ends_bind ((vfsReadDescriptor_count k fd ptr length input).mono (fun _ h => h)
      fun _ h => Or.inl h) fun r hr => hr
  | fstat fd ptr =>
    rw [show (UserCall.fstat fd ptr).fetch k.phys.mem k.phys.cr3 =
      .ok (.fstat fd) from rfl, ok_bind]
    refine ends_bind (P := fun r => r.2.1.length = (UserCall.fstat fd ptr).delivers k)
      ?_ fun r hr => hend _ _ _ hr
    refine ends_bind ((vfsStatDescriptor_count k fd ptr).mono (fun _ h => h)
      fun _ h => Or.inl h) fun r hr => hr
  | readdir fd ptr length =>
    rw [show (UserCall.readdir fd ptr length).fetch k.phys.mem k.phys.cr3 =
      .ok (.readdir fd length.toNat) from rfl, ok_bind]
    refine ends_bind (P := fun r => r.2.1.length = (UserCall.readdir fd ptr length).delivers k)
      ?_ fun r hr => hend _ _ _ hr
    refine ends_bind ((vfsReaddirDescriptor_count k fd ptr length).mono (fun _ h => h)
      fun _ h => Or.inl h) fun r hr => hr

end PcoOs.Syscall
