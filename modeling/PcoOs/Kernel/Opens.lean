/-
  Opens that fail. `vfs_open_path` creates or truncates before there is a descriptor and a slot of
  the task for the file, and nobody undoes it; a full node table is a panic. `open_cleanly_iff`:
  an open has no effect when it fails, and returns when there is memory, exactly when it does not
  get into that situation (`OpenSafe`).
-/
import PcoOs.Kernel.Buffers
import PcoOs.Kernel.Descriptors

namespace PcoOs.Kernel

open PcoOs.Lib PcoOs.Pmm PcoOs.Support PcoOs.Vmm PcoOs.Elf PcoOs.Image PcoOs.Sched PcoOs.Vfs
  PcoOs.Syscall

/-! ## What an open does to the nodes -/

/-- The nodes after the decision was carried out, whether or not there was a descriptor. -/
def planNodes (v : VfsState) : OpenPlan → VfsState
  | .truncate nodeId => truncateNode v nodeId
  | .create path => addNode v (newFile path)
  | _ => v

theorem planNodes_desc (v : VfsState) (plan : OpenPlan) : (planNodes v plan).desc = v.desc := by
  cases plan with
  | truncate id =>
    show (truncateNode v id).desc = v.desc
    unfold truncateNode
    split <;> rfl
  | refuse | directory | file | create => rfl

/-- A plan that was carried out: the new nodes, and a descriptor if one was closed. -/
structure Planned (v v' : VfsState) (plan : OpenPlan) (d : Nat) : Prop where
  none : d = 0 → (plan = .refuse ∨ DescsFull v) ∧ v' = planNodes v plan
  some : d ≠ 0 → plan ≠ .refuse ∧ ¬ DescsFull v ∧ d ∈ openDescs v' ∧
    (v.desc d).kind = .closed ∧ ∃ desc, v' = setVfsDesc (planNodes v plan) d desc

theorem vfsAllocDescriptor_planned {v v' : VfsState} {plan : OpenPlan} (hp : plan ≠ .refuse)
    {desc : Desc} (hk : desc.kind ≠ .closed) {d : Nat}
    (he : vfsAllocDescriptor (planNodes v plan) desc = (d, v')) : Planned v v' plan d := by
  have hdesc := planNodes_desc v plan
  rcases vfsAllocDescriptor_spec (planNodes v plan) desc with ⟨hfull, h⟩ | ⟨id, h1, h32, hc, h⟩
  · cases he.symm.trans h
    refine ⟨fun _ => ⟨Or.inr fun id h1 h32 => ?_, rfl⟩, fun h0 => absurd rfl h0⟩
    rw [← hdesc]
    exact hfull id h1 h32
  · cases he.symm.trans h
    rw [hdesc] at hc
    refine ⟨fun h0 => by omega, fun _ => ⟨hp, fun hfull => hfull d h1 h32 hc, ?_, hc, desc, rfl⟩⟩
    rw [openDescs_set h1 h32 hk]
    exact Finset.mem_insert_self d _

theorem runPlan_planned {v v' : VfsState} {flags : Int} {plan : OpenPlan} {d : Nat}
    (h : runPlan v flags plan = .ok (d, v')) : Planned v v' plan d := by
  cases plan with
  | refuse =>
    cases h
    exact ⟨fun _ => ⟨Or.inl rfl, rfl⟩, fun h0 => absurd rfl h0⟩
  | directory path =>
    exact vfsAllocDescriptor_planned (fun h => by cases h) (fun h => by cases h) (Except.ok.inj h)
  | file id =>
    exact vfsAllocDescriptor_planned (fun h => by cases h) (fun h => by cases h) (Except.ok.inj h)
  | truncate id =>
    exact vfsAllocDescriptor_planned (fun h => by cases h) (fun h => by cases h) (Except.ok.inj h)
  | create path =>
    rw [runPlan] at h
    split_ifs at h
    have hplan : OpenPlan.create path ≠ .refuse := fun h => by cases h
    exact vfsAllocDescriptor_planned hplan (fun h => by cases h) (Except.ok.inj h)

/-! ## The call -/

def syscallOpenKernelPath (k : KernelState) (path : Bytes) (flags : Int) :
    Except String (Int × KernelState) := do
  let (r, _, k) ← fileCall k (.openPath path flags)
  .ok (r, k)

def syscallOpenUserPath (k : KernelState) (ptr length flags : Int) :
    Except String (Int × KernelState) :=
  userCall k (.openPath ptr length flags)

/-- All four slots of the current task are in use. -/
def FdsFull (k : KernelState) : Prop := ∀ fd, (k.task k.current).fds fd ≠ 0

theorem syscallAllocTaskFd_eq_none {k : KernelState} {d : Nat} :
    syscallAllocTaskFd k d = none ↔ FdsFull k := by
  unfold syscallAllocTaskFd FdsFull
  rw [Option.map_eq_none_iff, List.find?_eq_none]
  constructor
  · intro h fd
    have hmem : fd ∈ [(3 : Fin 4), 2, 1, 0] := by
      revert fd
      decide
    simpa using h fd hmem
  · intro h fd _
    simpa using h fd

/-- The memory an open needs, at most. -/
def PathRoom (k : KernelState) (length : Nat) : Prop :=
  k.heap.ptr + 3 * length + 64 ≤ k.heap.stop

section Call

variable {k : KernelState}

/-- An open that returns: a slot, or -1, with the nodes of the plan. -/
inductive OpenDone (k : KernelState) (plan : OpenPlan) : Int → KernelState → Prop
  | fd {fd : Fin 4} {d : Nat} {k' : KernelState} (hd : ¬ DescsFull k.vfs) (h0 : d ≠ 0)
      (hfree : (k.task k.current).fds fd = 0) (hs : k'.sched = (setTaskFd k fd d).sched)
      (hn : k'.vfs.nodes = (planNodes k.vfs plan).nodes) : OpenDone k plan fd.val k'
  | failed {k' : KernelState} (hv : k'.vfs = planNodes k.vfs plan) (hs : k'.sched = k.sched)
      (hw : plan = .refuse ∨ DescsFull k.vfs ∨ FdsFull k) : OpenDone k plan (-1) k'

theorem setVfsDesc_reclosed {v w : VfsState} (hw : w.desc = v.desc) {d : Nat}
    (hd : v.desc d = closedDesc) (desc : Desc) :
    setVfsDesc (setVfsDesc w d desc) d closedDesc = w := by
  unfold setVfsDesc
  dsimp only
  rw [Function.update_idem, ← hd, ← hw, Function.update_eq_self]

theorem syscallOpenKernelPath_done (hi : FsInv k.vfs k.heap) (path : Bytes) (flags : Int) :
    Ends (syscallOpenKernelPath k path flags)
      (fun r => OpenDone k (openPlan k.vfs path flags) r.1 r.2 ∧
        HeapMovesBy k.heap r.2.heap (3 * path.length + 64) ∧
        ((∃ p, openPlan k.vfs path flags = .create p) → k.vfs.nodes.length < maxVfsNodes))
      (fun _ => ¬ PathRoom k path.length ∨
        ((∃ p, openPlan k.vfs path flags = .create p) ∧ maxVfsNodes ≤ k.vfs.nodes.length)) := by
  have hspec := vfsOpenPath_spec hi.heap k.vfs path flags
  have hcount := hi.count
  unfold syscallOpenKernelPath fileCall
  dsimp only
  cases ho : vfsOpenPath k.vfs k.heap path flags with
  | error e =>
    rw [error_bind, error_bind]
    rcases hspec.of_error ho with h | h | h
    · exact Or.inl fun hroom => by unfold PathRoom at hroom; omega
    · omega
    · exact Or.inr h
  | ok r =>
  obtain ⟨d, vfs, heap⟩ := r
  obtain ⟨hheap, hplan⟩ := hspec.of_ok ho
  dsimp only at hheap hplan
  have hcreate : (∃ p, openPlan k.vfs path flags = .create p) →
      k.vfs.nodes.length < maxVfsNodes := by
    rintro ⟨p, hp⟩
    rw [hp, runPlan] at hplan
    split_ifs at hplan with hlt
    omega
  have hdone := runPlan_planned hplan
  rw [ok_bind]
  dsimp only
  by_cases hd : d = 0
  · obtain ⟨hwhy, hv⟩ := hdone.none hd
    rw [if_pos hd]
    refine ⟨.failed hv rfl ?_, hheap, hcreate⟩
    rcases hwhy with h | h
    · exact Or.inl h
    · exact Or.inr (Or.inl h)
  · obtain ⟨-, hfull, hopen, hclosed, desc, hv⟩ := hdone.some hd
    rw [if_neg hd]
    cases hf : syscallAllocTaskFd { k with vfs := vfs, heap := heap } d with
    | some r =>
      obtain ⟨fd, hfind, hr⟩ := Option.map_eq_some_iff.mp hf
      cases hr
      have hfree : (k.task k.current).fds fd = 0 := by
        have := List.find?_some hfind
        exact of_decide_eq_true this
      have hnodes : vfs.nodes = (planNodes k.vfs (openPlan k.vfs path flags)).nodes := by
        rw [hv]
        rfl
      exact ⟨.fd hfull hd hfree rfl hnodes, hheap, hcreate⟩
    | none =>
      have hfds : FdsFull k :=
        (syscallAllocTaskFd_eq_none (k := { k with vfs := vfs, heap := heap })).mp hf
      dsimp only
      rw [vfsCloseDescriptor_open hopen, ok_bind, ok_bind]
      refine ⟨.failed ?_ rfl (Or.inr (Or.inr hfds)), hheap, hcreate⟩
      show setVfsDesc vfs d closedDesc = planNodes k.vfs (openPlan k.vfs path flags)
      rw [hv]
      exact setVfsDesc_reclosed (planNodes_desc ..) ((hi.descs d).closed hclosed) desc

/-! ## Opens without effect -/

/-- A call returns a slot, or -1 and leaves the file system and the task table alone; with enough
    memory it returns. -/
structure OpensCleanly (k : KernelState) (room : Prop) (x : Except String (Int × KernelState)) :
    Prop where
  effect : ∀ r k', x = .ok (r, k') → 0 ≤ r ∨ (r = -1 ∧ k'.vfs = k.vfs ∧ k'.sched = k.sched)
  returns : room → ∃ r, x = .ok r

/-- A file that would be made or emptied has a descriptor and a slot waiting for it, and a new one
    a node. -/
def OpenSafe (k : KernelState) (path : Bytes) (flags : Int) : Prop :=
  match openPlan k.vfs path flags with
  | .create _ => k.vfs.nodes.length < maxVfsNodes ∧ ¬ DescsFull k.vfs ∧ ¬ FdsFull k
  | .truncate nodeId => (∀ n ∈ k.vfs.nodes[nodeId]?, n.dataLen = 0) ∨
    (¬ DescsFull k.vfs ∧ ¬ FdsFull k)
  | _ => True

theorem truncateNode_eq_self {v : VfsState} {id : Nat} :
    truncateNode v id = v ↔ ∀ n ∈ v.nodes[id]?, n.dataLen = 0 := by
  unfold truncateNode
  cases hn : v.nodes[id]? with
  | none => simp
  | some n =>
    obtain ⟨hid, hget⟩ := List.getElem?_eq_some_iff.mp hn
    simp only [Option.mem_def, Option.some.injEq, forall_eq']
    constructor
    · intro h
      have hset : (setVfsNode v id { n with dataLen := 0 }).nodes[id]? =
          some { n with dataLen := 0 } := List.getElem?_set_self hid
      rw [h, hn] at hset
      rw [Option.some.inj hset]
    · intro h0
      have hself : ({ n with dataLen := 0 } : Node) = n := by rw [← h0]
      rw [hself, ← hget]
      unfold setVfsNode
      rw [List.set_getElem_self]

theorem addNode_ne_self (v : VfsState) (n : Node) : addNode v n ≠ v := by
  intro h
  have := congrArg (fun w => w.nodes.length) h
  unfold addNode at this
  dsimp only at this
  rw [List.length_append, List.length_singleton] at this
  omega

/-- A failed open keeps the file system exactly when it is safe. -/
theorem planNodes_eq_self {path : Bytes} {flags : Int}
    (hw : openPlan k.vfs path flags = .refuse ∨ DescsFull k.vfs ∨ FdsFull k) :
    planNodes k.vfs (openPlan k.vfs path flags) = k.vfs ↔ OpenSafe k path flags := by
  unfold OpenSafe
  cases hp : openPlan k.vfs path flags with
  | refuse | directory | file => simp [planNodes]
  | truncate id =>
    have hfull : ¬ (¬ DescsFull k.vfs ∧ ¬ FdsFull k) := by
      rw [hp] at hw
      simpa [or_iff_not_imp_left] using hw
    dsimp only
    rw [or_iff_left hfull]
    exact truncateNode_eq_self
  | create path' =>
    have hfull : ¬ (¬ DescsFull k.vfs ∧ ¬ FdsFull k) := by
      rw [hp] at hw
      simpa [or_iff_not_imp_left] using hw
    dsimp only
    exact iff_of_false (addNode_ne_self _ _) fun h => hfull h.2

theorem opensCleanly_of_safe (hi : FsInv k.vfs k.heap) {path : Bytes} {flags : Int}
    (hs : OpenSafe k path flags) :
    OpensCleanly k (PathRoom k path.length) (syscallOpenKernelPath k path flags) := by
  have hdone := syscallOpenKernelPath_done hi path flags
  constructor
  · intro r k' he
    rcases (hdone.of_ok he).1 with ⟨-, -, -, -, -⟩ | ⟨hv, hsched, hw⟩
    · exact Or.inl (Int.natCast_nonneg _)
    · exact Or.inr ⟨rfl, hv.trans ((planNodes_eq_self hw).mpr hs), hsched⟩
  · intro hroom
    obtain ⟨r, hr, -⟩ := hdone.exists_ok fun _ he => by
      rcases he with he | ⟨⟨p, hp⟩, hfull⟩
      · exact he hroom
      · unfold OpenSafe at hs
        rw [hp] at hs
        omega
    exact ⟨r, hr⟩

theorem safe_of_opensCleanly (hi : FsInv k.vfs k.heap) {path : Bytes} {flags : Int}
    (hroom : PathRoom k path.length)
    (hc : OpensCleanly k (PathRoom k path.length) (syscallOpenKernelPath k path flags)) :
    OpenSafe k path flags := by
  obtain ⟨⟨r, k'⟩, he⟩ := hc.returns hroom
  obtain ⟨hdone, -, hcreate⟩ := (syscallOpenKernelPath_done hi path flags).of_ok he
  have heffect := hc.effect r k' he
  cases hdone with
  | @fd fd d _ hd _ hfree =>
    have hf : ¬ FdsFull k := fun h => h fd hfree
    unfold OpenSafe
    cases hp : openPlan k.vfs path flags with
    | refuse | directory | file => trivial
    | truncate id => exact Or.inr ⟨hd, hf⟩
    | create path' => exact ⟨hcreate ⟨path', hp⟩, hd, hf⟩
  | failed hv hs hw =>
    rcases heffect with h | ⟨-, hkeep, -⟩
    · exact absurd h (by decide)
    · exact (planNodes_eq_self hw).mp (hv.symm.trans hkeep)

/-- A path in user memory that was accepted is read, and then opened. -/
theorem syscallOpenUserPath_eq (ptr length flags : Int) {path : Bytes}
    (ha : (UserCall.openPath ptr length flags).accepted (k.task k.current) = true)
    (hl : loadUserBytes k.phys.mem k.phys.cr3 ptr.toNat length.toNat = .ok path) :
    syscallOpenUserPath k ptr length flags = syscallOpenKernelPath k path flags := by
  have hfetch : (UserCall.openPath ptr length flags).fetch k.phys.mem k.phys.cr3 =
      .ok (.openPath path flags) := by
    unfold UserCall.fetch
    dsimp only
    rw [hl]
    rfl
  unfold syscallOpenUserPath syscallOpenKernelPath userCall userCallBytes
  rw [if_neg (not_not.mpr ha), hfetch, ok_bind]
  cases hc : fileCall k (.openPath path flags) with
  | error e => rfl
  | ok r =>
    obtain ⟨r, bytes, k₁⟩ := r
    have hnil : bytes = [] := List.eq_nil_of_length_eq_zero (Nat.le_zero.mp (fileCall_length hc))
    subst hnil
    rfl

theorem syscallOpenUserPath_refused {ptr length flags : Int}
    (ha : (UserCall.openPath ptr length flags).accepted (k.task k.current) = false) :
    syscallOpenUserPath k ptr length flags = .ok (-1, k) := by
  unfold syscallOpenUserPath userCall userCallBytes
  rw [if_pos (by rw [ha]; decide)]
  rfl

/-- The path in user memory, when the pointer is accepted, is safe to open. -/
def UserOpenSafe (k : KernelState) (ptr length flags : Int) : Prop :=
  ∀ path, (UserCall.openPath ptr length flags).accepted (k.task k.current) = true →
    loadUserBytes k.phys.mem k.phys.cr3 ptr.toNat length.toNat = .ok path → OpenSafe k path flags

end Call

/-! ## The main result -/

/-- A pointer of the current user task is refused, or there are bytes behind it. -/
theorem accepted_path {M : Machine} {k : KernelState} (hr : Reachable M k)
    (hu : (k.task k.current).mode = .user) {ptr length flags : Int} (hp : IsInt64 ptr)
    (hlen : IsInt64 length)
    (ha : (UserCall.openPath ptr length flags).accepted (k.task k.current) = true) :
    ∃ path, loadUserBytes k.phys.mem k.phys.cr3 ptr.toNat length.toNat = .ok path ∧
      path.length = length.toNat := by
  obtain ⟨sk, S, hm⟩ := hr.memInv
  have hk := hr.kernelOk
  have hbase := hk.base _ hu
  obtain ⟨hlo, h0, hhi, -⟩ := syscallValidateUserBuffer_range hp hlen ha
  rw [hbase] at hlo
  have hpos : (0 : Int) ≤ userTaskRegionBase := by decide
  exact hm.loadUserBytes_ok ⟨hk.current_present, hu⟩ _ _ (by omega) (by omega)

/-- Opens have no effect when they fail exactly when they are safe. Without memory a safe open may
    panic, but has no effect when it returns -1. -/
theorem open_cleanly_iff {M : Machine} (hM : M.FilesReady) {k : KernelState}
    (hr : Reachable M k) (flags : Int) :
    (∀ path, (OpenSafe k path flags →
        OpensCleanly k (PathRoom k path.length) (syscallOpenKernelPath k path flags)) ∧
      (PathRoom k path.length →
        OpensCleanly k (PathRoom k path.length) (syscallOpenKernelPath k path flags) →
        OpenSafe k path flags)) ∧
    ∀ ptr length, IsInt64 ptr → IsInt64 length → (k.task k.current).mode = .user →
      (UserOpenSafe k ptr length flags →
        OpensCleanly k (PathRoom k length.toNat) (syscallOpenUserPath k ptr length flags)) ∧
      (PathRoom k length.toNat →
        OpensCleanly k (PathRoom k length.toNat) (syscallOpenUserPath k ptr length flags) →
        UserOpenSafe k ptr length flags) := by
  have hi : FsInv k.vfs k.heap := (hr.vfs hM).inv
  refine ⟨fun path => ⟨opensCleanly_of_safe hi, safe_of_opensCleanly hi⟩,
    fun ptr length hp hlen hu => ⟨fun hs => ?_, fun hroom hc path ha hl => ?_⟩⟩
  · cases ha : (UserCall.openPath ptr length flags).accepted (k.task k.current) with
    | false =>
      rw [syscallOpenUserPath_refused ha]
      refine ⟨fun r k' he => ?_, fun _ => ⟨_, rfl⟩⟩
      cases he
      exact Or.inr ⟨rfl, rfl, rfl⟩
    | true =>
      obtain ⟨path, hl, hlength⟩ := accepted_path hr hu hp hlen ha
      rw [syscallOpenUserPath_eq _ _ _ ha hl, ← hlength]
      exact opensCleanly_of_safe hi (hs path ha hl)
  · obtain ⟨path', hl', hlength⟩ := accepted_path hr hu hp hlen ha
    cases hl.symm.trans hl'
    rw [syscallOpenUserPath_eq _ _ _ ha hl, ← hlength] at hc
    exact safe_of_opensCleanly hi (hlength ▸ hroom) hc

/-! ## A file nobody asked for -/

theorem openPlan_congr {v v' : VfsState} (h : v'.nodes = v.nodes) (path : Bytes) (flags : Int) :
    openPlan v' path flags = openPlan v path flags := by
  obtain ⟨nodes, desc, mem⟩ := v
  obtain ⟨nodes', desc', mem'⟩ := v'
  cases h
  rfl

/-- Three slots of a new task are used. -/
theorem schedulerInitTaskFds_slots {v v' : VfsState} {fds : Fin 4 → Nat}
    (h : schedulerInitTaskFds v = .ok (fds, v')) :
    v'.nodes = v.nodes ∧ fds 3 = 0 ∧ ∀ fd, fd ≠ 3 → fds fd ≠ 0 := by
  have hnodes : ∀ w d, (vfsAllocDescriptor w d).2.nodes = w.nodes := by
    intro w d
    unfold vfsAllocDescriptor
    dsimp only
    split_ifs <;> rfl
  unfold schedulerInitTaskFds at h
  dsimp only at h
  split_ifs at h with hz
  rw [not_or, not_or] at hz
  cases h
  refine ⟨?_, rfl, fun fd hfd => ?_⟩
  · exact (hnodes _ _).trans ((hnodes _ _).trans (hnodes _ _))
  · fin_cases fd
    · exact hz.1
    · exact hz.2.1
    · exact hz.2.2
    · exact absurd rfl hfd

/-- After boot one slot of the current task is free, and most descriptors are. -/
theorem Booted.spareFd {M : Machine} (hM : HelloMachine M) {k : KernelState} (h : Booted M k) :
    k.vfs.nodes = M.vfs.nodes ∧ (k.task k.current).fds 3 = 0 ∧
      (∀ fd, fd ≠ 3 → (k.task k.current).fds fd ≠ 0) ∧ ¬ DescsFull k.vfs := by
  obtain ⟨⟨fds0, v⟩, e0, hf⟩ := bind_eq_ok.mp h.fds
  obtain ⟨⟨fds1, v'⟩, e1, hf⟩ := bind_eq_ok.mp hf
  obtain ⟨n0, -, -⟩ := schedulerInitTaskFds_slots e0
  obtain ⟨n1, h3, hne⟩ := schedulerInitTaskFds_slots e1
  cases hf
  rw [(h.start hM.picks).1]
  refine ⟨n1.trans n0, h3, hne, fun hfull => ?_⟩
  have hinv := h.fdInv
  have hcard := hinv.owns.card_le (Finset.univ.filter fun s : Slot => s.1.val < 2)
    fun s hs => by
      refine Finset.mem_filter.mpr ⟨Finset.mem_univ s, ?_⟩
      by_contra hge
      refine hs (hinv.empty s.1 (h.kernelOk.table.beyond s.1 ?_) s.2)
      rw [h.count]
      omega
  have hused : (Finset.univ.filter fun s : Slot => s.1.val < 2).card = 8 := by decide
  have hbase := hM.files.card_le
  rw [descsFull_card hfull] at hcard
  unfold maxVfsDescriptors at hcard
  omega

theorem Booted.safeX {M : Machine} (hM : HelloMachine M) {k : KernelState} (h : Booted M k) :
    openPlan k.vfs tmpX 1 = .create tmpX ∧ PathRoom k tmpX.length ∧ OpenSafe k tmpX 1 := by
  obtain ⟨hnodes, h3, -, hdescs⟩ := h.spareFd hM
  obtain ⟨row0, row1, hrows, -⟩ := h.rows
  have hptr := hrows.ptr_lt
  have hstop := hrows.extended.stop
  have hroom := hM.room
  have hplan : openPlan k.vfs tmpX 1 = .create tmpX := by
    rw [openPlan_congr hnodes]
    exact hM.makeX
  refine ⟨hplan, ?_, ?_⟩
  · unfold PathRoom
    have : tmpX.length = 6 := rfl
    omega
  · unfold OpenSafe
    rw [hplan]
    refine ⟨?_, hdescs, fun hf => hf 3 h3⟩
    rw [hnodes, hM.count]
    decide

theorem open_cleanly_iff_hello : ∃ M k, M.FilesReady ∧ Reachable M k ∧ OpenSafe k tmpX 1 ∧
    OpensCleanly k (PathRoom k tmpX.length) (syscallOpenKernelPath k tmpX 1) := by
  obtain ⟨M, hM⟩ := exists_helloMachine
  obtain ⟨k, hboot, hb⟩ := boot_ok hM.boots
  have hr : Reachable M k := .boot hboot
  obtain ⟨-, -, hsafe⟩ := hb.safeX hM
  exact ⟨M, k, hM.files, hr, hsafe, ((open_cleanly_iff hM.files hr 1).1 tmpX).1 hsafe⟩

/-- The current task of `k` made `/tmp/x`, which took its last slot. -/
structure OpenedX (M : Machine) (k : KernelState) : Prop where
  hello : HelloMachine M
  reachable : Reachable M k
  full : FdsFull k
  nodes : k.vfs.nodes = (addNode M.vfs (newFile tmpX)).nodes
  room : PathRoom k tmpY.length

theorem exists_openedX : ∃ M k, OpenedX M k := by
  obtain ⟨M, hM⟩ := exists_helloMachine
  obtain ⟨k₀, hboot, hb⟩ := boot_ok hM.boots
  have hr₀ : Reachable M k₀ := .boot hboot
  obtain ⟨hnodes, h3, hused, hdescs⟩ := hb.spareFd hM
  obtain ⟨hplan, hroom, hsafe⟩ := hb.safeX hM
  have hi : FsInv k₀.vfs k₀.heap := (hr₀.vfs hM.files).inv
  obtain ⟨⟨r, k⟩, he⟩ := (opensCleanly_of_safe hi hsafe).returns hroom
  obtain ⟨hdone, hheap, -⟩ := (syscallOpenKernelPath_done hi tmpX 1).of_ok he
  dsimp only at hdone hheap
  rw [hplan] at hdone
  cases hdone with
  | failed hv hs hw =>
    rcases hw with h | h | h
    · cases h
    · exact absurd h hdescs
    · exact absurd h3 (h 3)
  | @fd fd d _ _ h0 hfree hs hn =>
  obtain rfl : fd = 3 := by
    by_contra hne
    exact hused fd hne hfree
  obtain ⟨row0, row1, hrows, htask⟩ := hb.rows
  have hmode : (k₀.task k₀.current).mode = .kernel := by
    obtain ⟨ctx, stack, fds, hrow1⟩ := hrows.row1
    rw [(hb.start hM.picks).1]
    unfold KernelState.task
    rw [htask, show (bootstrapSched M.now row0 row1).task 1 = row1 from rfl, hrow1]
    rfl
  have henabled : Enabled k₀ (.kernelCall (.openPath tmpX 1)) := by
    refine ⟨?_, hmode⟩
    unfold Running
    rw [hb.kont]
  obtain ⟨⟨r, bytes, k₁⟩, hfile, he⟩ := bind_eq_ok.mp he
  cases he
  have hact : act k₀ (.kernelCall (.openPath tmpX 1)) = .ok k := by
    dsimp only [act]
    rw [hfile]
    rfl
  refine ⟨M, k, hM, hr₀.step trivial henabled hact, fun fd => ?_, ?_, ?_⟩
  · have hrow : k.task k.current = { k₀.task k₀.current with
        fds := Function.update (k₀.task k₀.current).fds 3 d } := by
      unfold KernelState.task KernelState.current
      rw [hs]
      exact (setTask_task ..).trans (if_pos rfl)
    rw [hrow]
    dsimp only
    by_cases hfd : fd = 3
    · rw [hfd, Function.update_self]
      exact h0
    · rw [Function.update_of_ne hfd]
      exact hused fd hfd
  · rw [hn]
    show k₀.vfs.nodes ++ [newFile tmpX] = M.vfs.nodes ++ [newFile tmpX]
    rw [hnodes]
  · have h1 := hheap.2
    have h2 := hheap.1.2.stop
    have h3 := hM.room
    have h4 := hrows.ptr_lt
    have h5 := hrows.extended.stop
    have : tmpX.length = 6 := rfl
    have : tmpY.length = 6 := rfl
    unfold PathRoom
    omega

/-- That task fails to open `/tmp/y`, and the new file stays. -/
theorem failed_open_creates : ∃ M k k', M.FilesReady ∧ Reachable M k ∧
    PathRoom k tmpY.length ∧ syscallOpenKernelPath k tmpY 1 = .ok (-1, k') ∧
    k'.vfs.nodes = k.vfs.nodes ++ [newFile tmpY] ∧
    ¬ OpensCleanly k (PathRoom k tmpY.length) (syscallOpenKernelPath k tmpY 1) := by
  obtain ⟨M, k, h⟩ := exists_openedX
  have hi : FsInv k.vfs k.heap := (h.reachable.vfs h.hello.files).inv
  have hplan : openPlan k.vfs tmpY 1 = .create tmpY := by
    rw [openPlan_congr h.nodes]
    exact h.hello.makeY
  have hlen : k.vfs.nodes.length = 5 := by
    rw [h.nodes]
    show (M.vfs.nodes ++ [newFile tmpX]).length = 5
    rw [List.length_append, h.hello.count]
    rfl
  obtain ⟨⟨r, k'⟩, he, hdone, -⟩ := (syscallOpenKernelPath_done hi tmpY 1).exists_ok fun _ he => by
    rcases he with he | ⟨-, he⟩
    · exact he h.room
    · rw [hlen] at he
      exact absurd he (by decide)
  dsimp only at hdone
  rw [hplan] at hdone
  cases hdone with
  | @fd fd _ _ _ _ hfree => exact absurd hfree (h.full fd)
  | failed hv _ _ =>
    refine ⟨M, k, k', h.hello.files, h.reachable, h.room, he, congrArg VfsState.nodes hv,
      fun hc => ?_⟩
    have hsafe := safe_of_opensCleanly hi h.room hc
    unfold OpenSafe at hsafe
    rw [hplan] at hsafe
    exact hsafe.2.2 h.full

end PcoOs.Kernel
