/-
  User buffers over whole runs. `buffer_check_sound` ties the pointer check to the pages of the
  task: what it accepts is mapped for the task and below the break, and every buffer inside one
  of the three areas passes. `write_protection_iff` says when the kernel respects read-only pages
  as it fills such a buffer.
-/
import PcoOs.Kernel.Isolation

namespace PcoOs.Kernel

open PcoOs.Lib PcoOs.Pmm PcoOs.Support PcoOs.Vmm PcoOs.Elf PcoOs.Image PcoOs.Sched PcoOs.Vfs
  PcoOs.Syscall

/-! ## The pointer check -/

/-- The areas of a user task: image, heap up to the break, a gap, and one page of stack. -/
structure Layout (row : Task) : Prop where
  image : row.userBase < row.heapBase
  heap : row.heapBase ≤ row.heapBreak
  gap : row.heapBreak ≤ row.heapLimit
  stack : row.heapLimit = row.userLimit - 4096
  limit : row.userLimit = row.userBase + 4096 * row.userPageCount

theorem UserSpace.layout {row : Task} {img : Image} {m : Mem} {sh : Shape}
    (h : UserSpace row img m sh) (hb : row.userBase = userTaskRegionBase) : Layout row := by
  obtain ⟨h6, -⟩ := h.fits.length
  have h1 := h.limit
  have h2 := h.heapBase
  have h3 := h.heapLimit
  unfold userTaskRegionBase userPageSize at h1 h2 h3
  unfold userTaskRegionBase at hb
  refine ⟨?_, h.break_low, h.break_high, ?_, ?_⟩
  · omega
  · omega
  · rw [h.count]
    omega

/-- The byte at `x` lies in a page of the task that is open to user mode. -/
def InUserPage (k : KernelState) (t : TaskId) (x : Int) : Prop :=
  ∃ a, mmuWalk k.phys.mem (k.task t).cr3 (x.toNat / 4096) = some a ∧ a.user = true ∧
    a.frame ∈ (k.task t).userPages

/-- A range inside one area of the task. -/
def InOneArea (row : Task) (ptr length : Int) : Prop :=
  (row.userBase ≤ ptr ∧ ptr + length ≤ row.heapBase) ∨
    (row.heapBase ≤ ptr ∧ ptr + length ≤ row.heapBreak) ∨
    (row.heapLimit ≤ ptr ∧ ptr + length ≤ row.userLimit)

/-- What the pointer check of task `t` promises. -/
structure BufferCheck (k : KernelState) (t : TaskId) : Prop where
  layout : Layout (k.task t)
  sound : ∀ ptr length, IsInt64 ptr → IsInt64 length →
    syscallValidateUserBuffer (k.task t) ptr length = true →
    wrap (ptr + length) = ptr + length ∧ ∀ x, ptr ≤ x → x < ptr + length →
      InUserPage k t x ∧ ¬ ((k.task t).heapBreak ≤ x ∧ x < (k.task t).heapLimit)
  complete : ∀ ptr length, IsInt64 ptr → IsInt64 length → 0 ≤ length →
    InOneArea (k.task t) ptr length → syscallValidateUserBuffer (k.task t) ptr length = true

theorem syscallValidateUserBuffer_gap {row : Task} {ptr length : Int} (hl : Layout row)
    (hp : IsInt64 ptr) (hlen : IsInt64 length)
    (h : syscallValidateUserBuffer row ptr length = true) {x : Int} (h1 : ptr ≤ x)
    (h2 : x < ptr + length) : ¬ (row.heapBreak ≤ x ∧ x < row.heapLimit) := by
  obtain ⟨-, -, -, hw⟩ := syscallValidateUserBuffer_range hp hlen h
  have := hl.heap
  unfold syscallValidateUserBuffer at h
  dsimp only at h
  rw [hw] at h
  split_ifs at h with c1 c2 c3 c4 c5 c6 c7
  · omega
  · omega
  · rw [decide_eq_true_eq] at h
    omega

theorem syscallValidateUserBuffer_complete {row : Task} {ptr length : Int} (hl : Layout row)
    (hb : row.userBase = userTaskRegionBase) (hlim : row.userLimit < 2 ^ 63) (h0 : 0 ≤ length)
    (h : InOneArea row ptr length) : syscallValidateUserBuffer row ptr length = true := by
  obtain ⟨l1, l2, l3, l4, l5⟩ := hl
  unfold userTaskRegionBase at hb
  have hrange : row.userBase ≤ ptr ∧ ptr + length ≤ row.userLimit := by
    rcases h with h | h | h <;> omega
  unfold syscallValidateUserBuffer
  dsimp only
  rw [wrap_of_range (x := ptr + length) (by omega) (by omega), if_neg (by omega),
    if_neg (by omega), if_neg (by omega), if_neg (by omega), if_neg (by omega)]
  split_ifs with c1 c2
  · rfl
  · rfl
  · rw [decide_eq_true_eq]
    rcases h with h | h | h <;> omega

/-- A byte between base and limit lies in a user page. -/
theorem MemInv.inUserPage {P : Pool} {k : KernelState} {sk : Shape} {S : TaskId → Shape}
    (h : MemInv P k sk S) {t : TaskId} (ht : IsUser (k.task t)) {x : Int}
    (hlo : userTaskRegionBase ≤ x) (hhi : x < (k.task t).userLimit) : InUserPage k t x := by
  have hs := h.user t ht
  have hl := hs.fits.length.2
  rw [hs.limit] at hhi
  unfold userTaskRegionBase at hlo
  unfold userTaskRegionBase userPageSize at hhi
  have hi : x.toNat / 4096 - windowPage < (k.task t).userPages.length := by
    unfold windowPage
    omega
  have hn : x.toNat / 4096 = windowPage + (x.toNat / 4096 - windowPage) := by
    unfold windowPage
    omega
  have hw := userRoot_window hs.root hl (h.pages_aligned ht) hs.fits.flag hi
  rw [← hn, List.getD_eq_getElem _ _ hi] at hw
  exact ⟨_, hw, rfl, List.getElem_mem hi⟩

/-- The kernel can read every byte between base and limit of the current task. -/
theorem MemInv.loadUserBytes_ok {P : Pool} {k : KernelState} {sk : Shape} {S : TaskId → Shape}
    (h : MemInv P k sk S) (hu : IsUser (k.task k.current)) (virt n : Nat)
    (hlo : userTaskRegionBase ≤ virt) (hhi : (virt + n : Int) ≤ (k.task k.current).userLimit) :
    ∃ bytes, loadUserBytes k.phys.mem k.phys.cr3 virt n = .ok bytes ∧ bytes.length = n := by
  induction n generalizing virt with
  | zero => exact ⟨[], rfl, rfl⟩
  | succ n ih =>
    push_cast at hhi
    obtain ⟨a, hw, -, -⟩ := h.inUserPage hu (x := virt) hlo (by omega)
    obtain ⟨bytes, hb, hlen⟩ := ih (virt + 1) (by push_cast; omega) (by push_cast; omega)
    rw [Int.toNat_natCast, ← h.cr3] at hw
    refine ⟨k.phys.mem (a.frame + virt % 4096) :: bytes, ?_, by rw [List.length_cons, hlen]⟩
    unfold loadUserBytes loadUserByte
    rw [hw]
    dsimp only
    rw [ok_bind, hb]
    rfl

theorem MemInv.bufferCheck {P : Pool} {k : KernelState} {sk : Shape} {S : TaskId → Shape}
    (hk : KernelOk k) (h : MemInv P k sk S) {t : TaskId} (ht : IsUser (k.task t)) :
    BufferCheck k t := by
  have hs := h.user t ht
  have hbase := hk.base t ht.2
  have hlayout := hs.layout hbase
  have hlim : (k.task t).userLimit < 2 ^ 63 := by
    have hl := hs.fits.length.2
    rw [hs.limit]
    unfold userTaskRegionBase userPageSize
    omega
  refine ⟨hlayout, fun ptr length hp hlen hv => ?_, fun ptr length _ _ h0 ha => ?_⟩
  · obtain ⟨hlo, -, hhi, hw⟩ := syscallValidateUserBuffer_range hp hlen hv
    refine ⟨hw, fun x h1 h2 => ⟨h.inUserPage ht (by omega) (by omega), ?_⟩⟩
    exact syscallValidateUserBuffer_gap hlayout hp hlen hv h1 h2
  · exact syscallValidateUserBuffer_complete hlayout hbase hlim h0 ha

theorem buffer_check_sound (M : Machine) (k : KernelState) (h : Reachable M k) (t : TaskId)
    (ht : IsUser (k.task t)) : BufferCheck k t := by
  obtain ⟨sk, S, hm⟩ := h.memInv
  exact hm.bufferCheck h.kernelOk ht

theorem buffer_check_sound_small : ∃ k t, Reachable smallMachine k ∧ IsUser (k.task t) ∧
    BufferCheck k t := by
  obtain ⟨k, hr, hu⟩ := smallMachine_runs
  exact ⟨k, k.current, hr, hu.user, buffer_check_sound smallMachine k hr k.current hu.user⟩

/-! ## Filling a buffer -/

/-- The page of the image a user address lies in. -/
def pageIndex (x : Nat) : Nat := x / 4096 - windowPage

section Store

variable {P : Pool} {k : KernelState} {sk : Shape} {S : TaskId → Shape}

/-- A byte stored between base and limit goes to a page of the image. -/
theorem MemInv.storeUserByte_eq (h : MemInv P k sk S) (hu : IsUser (k.task k.current))
    (hbase : (k.task k.current).userBase = userTaskRegionBase) {m : Mem}
    (hm : OnlyPages ((k.task k.current).userPages : Multiset Nat) k.phys.mem m) {virt : Nat}
    (hlo : (k.task k.current).userBase ≤ virt)
    (hhi : (virt : Int) < (k.task k.current).userLimit) (wp : Bool) (b : UInt8) :
    pageIndex virt < (k.task k.current).userPages.length ∧
    storeUserByte wp m k.phys.cr3 virt b =
      if wp = true ∧ userPageFlag (k.ghost.image k.current) (pageIndex virt) ≠ 7 then
        .error "page fault"
      else .ok (storeByte m ((k.task k.current).userPages.getD (pageIndex virt) 0 + virt % 4096)
        b) := by
  have hs := (h.user _ hu).frame fun p hp =>
    h.samePage hu hm (Multiset.mem_add.mpr (Or.inl hp))
  have hl := hs.fits.length.2
  rw [hs.limit] at hhi
  rw [hbase] at hlo
  unfold userTaskRegionBase at hlo
  unfold userTaskRegionBase userPageSize at hhi
  have hi : pageIndex virt < (k.task k.current).userPages.length := by
    unfold pageIndex windowPage
    omega
  have hn : virt / 4096 = windowPage + pageIndex virt := by
    unfold pageIndex windowPage
    omega
  refine ⟨hi, ?_⟩
  unfold storeUserByte
  rw [h.cr3, hn, userRoot_window hs.root hl (h.pages_aligned hu) hs.fits.flag hi]
  dsimp only
  refine if_congr ?_ rfl rfl
  rw [decide_eq_false_iff_not]

/-- Filling a buffer writes the pages the buffer lies in; with `CR0.WP` these are writable. -/
theorem MemInv.storeUserBytes_spec (h : MemInv P k sk S) (hu : IsUser (k.task k.current))
    (hbase : (k.task k.current).userBase = userTaskRegionBase) {W : Multiset Nat} (wp : Bool)
    (bytes : Bytes) {virt : Nat} {m : Mem}
    (hm : OnlyPages ((k.task k.current).userPages : Multiset Nat) k.phys.mem m)
    (hlo : (k.task k.current).userBase ≤ virt)
    (hhi : (virt + bytes.length : Int) ≤ (k.task k.current).userLimit)
    (hW : ∀ j < bytes.length, (k.task k.current).userPages.getD (pageIndex (virt + j)) 0 ∈ W) :
    Ends (storeUserBytes wp k.phys.cr3 virt bytes m)
      (fun m' => OnlyPages W m m' ∧ (wp = true → ∀ j < bytes.length,
        userPageFlag (k.ghost.image k.current) (pageIndex (virt + j)) = 7))
      (fun _ => wp = true ∧ ∃ j < bytes.length,
        userPageFlag (k.ghost.image k.current) (pageIndex (virt + j)) ≠ 7) := by
  induction bytes generalizing virt m with
  | nil => exact ⟨OnlyPages.refl _ _, fun _ j hj => absurd hj (Nat.not_lt_zero j)⟩
  | cons b bytes ih =>
    rw [List.length_cons] at hhi hW
    push_cast at hhi
    obtain ⟨hi, hstore⟩ := h.storeUserByte_eq hu hbase hm hlo (by omega) wp b
    unfold storeUserBytes
    rw [hstore]
    split_ifs with hflag
    · exact ⟨hflag.1, 0, Nat.succ_pos _, hflag.2⟩
    · rw [ok_bind]
      have hpage : ∀ p ∈ ({(k.task k.current).userPages.getD (pageIndex virt) 0} : Multiset Nat),
          p ∈ (k.task k.current).userPages := by
        intro p hp
        rw [Multiset.mem_singleton.mp hp, List.getD_eq_getElem _ _ hi]
        exact List.getElem_mem hi
      have hbyte := onlyPages_storeByte m (p := (k.task k.current).userPages.getD (pageIndex virt) 0)
        (b := b) (Nat.mod_lt virt (by norm_num))
      refine (@ih (virt + 1) _ (hm.trans (hbyte.mono hpage)) (by push_cast; omega)
        (by push_cast; omega) fun j hj => ?_).mono ?_ ?_
      · have := hW (j + 1) (by omega)
        rwa [show virt + (j + 1) = virt + 1 + j by omega] at this
      · rintro m' ⟨honly, hwp⟩
        refine ⟨(hbyte.mono fun p hp => ?_).trans honly, fun hw j hj => ?_⟩
        · rw [Multiset.mem_singleton.mp hp]
          exact hW 0 (by omega)
        · cases j with
          | zero =>
            by_contra hne
            exact hflag ⟨hw, hne⟩
          | succ j =>
            rw [show virt + (j + 1) = virt + 1 + j by omega]
            rw [List.length_cons] at hj
            exact hwp hw j (by omega)
      · rintro _ ⟨hw, j, hj, hne⟩
        refine ⟨hw, j + 1, by rw [List.length_cons]; omega, ?_⟩
        rwa [show virt + (j + 1) = virt + 1 + j by omega]

end Store

/-! ## Read-only pages -/

/-- The address the kernel fills a buffer from. -/
def UserCall.start (c : UserCall) : Nat := (c.buffer.getD (0, 0)).1.toNat

/-- The kernel stores a byte at user address `x` in this call: the bytes before and at `x` could
    all be stored. -/
def KernelStores (k : KernelState) (c : UserCall) (x : Nat) : Prop :=
  ∃ r bytes k₁ n m, userCallBytes k c = .ok (r, bytes, k₁) ∧ n ≤ bytes.length ∧
    storeUserBytes k.cr0Wp k.phys.cr3 (UserCall.start c) (bytes.take n) k.phys.mem = .ok m ∧
    UserCall.start c ≤ x ∧ x < UserCall.start c + n

/-- The call respects the page table of the task. -/
structure WriteProtected (k : KernelState) (c : UserCall) : Prop where
  writable : ∀ x, KernelStores k c x → ∃ a,
    mmuWalk k.phys.mem (k.task k.current).cr3 (x / 4096) = some a ∧ a.writable = true
  /-- Pages of segments without `PF_W` keep their contents. -/
  readOnly : ∀ r k', Syscall.userCall k c = .ok (r, k') →
    ∀ i < (k.task k.current).userPages.length,
      userPageFlag (k.ghost.image k.current) i ≠ schedulerUserPageFlagsWritable →
      SamePage k.phys.mem k'.phys.mem ((k.task k.current).userPages.getD i 0)

/-- Nothing the call delivers falls into a read-only page: `CR0.WP` stops the kernel itself, the
    pointer is refused, or every page hit is one of a `PF_W` segment, of the heap or the stack. -/
def Guarded (k : KernelState) (c : UserCall) : Prop :=
  k.cr0Wp = true ∨ c.accepted (k.task k.current) = false ∨ c.aligned = false ∨
    ∀ j < c.delivers k, userPageFlag (k.ghost.image k.current)
      (pageIndex (UserCall.start c + j)) = schedulerUserPageFlagsWritable

section Protection

variable {P : Pool} {k : KernelState} {sk : Shape} {S : TaskId → Shape} {c : UserCall}

/-- The buffer of an accepted call, and how many bytes go into it. -/
theorem accepted_range (hbase : (k.task k.current).userBase = userTaskRegionBase)
    (hreg : c.InRegisters) (hf : c.fills = true) (ha : c.accepted (k.task k.current) = true)
    {n : Nat} (hn : ∀ ptr length, c.buffer = some (ptr, length) → n ≤ length.toNat) :
    (k.task k.current).userBase ≤ UserCall.start c ∧
      (UserCall.start c + n : Int) ≤ (k.task k.current).userLimit := by
  obtain ⟨ptr, length, hb⟩ : ∃ ptr length, c.buffer = some (ptr, length) := by
    cases c with
    | read fd ptr length input => exact ⟨_, _, rfl⟩
    | fstat fd ptr => exact ⟨_, _, rfl⟩
    | readdir fd ptr length => exact ⟨_, _, rfl⟩
    | write fd ptr length => exact ⟨_, _, rfl⟩
    | openPath ptr length flags => exact ⟨_, _, rfl⟩
    | close fd => cases hf
  have hr := hreg (ptr, length) (by rw [hb]; rfl)
  have hlen := hn ptr length hb
  unfold UserCall.accepted at ha
  unfold UserCall.start
  rw [hb] at ha ⊢
  obtain ⟨hlo, h0, hhi, -⟩ := syscallValidateUserBuffer_range hr.1 hr.2 ha
  unfold userTaskRegionBase at hbase
  show (k.task k.current).userBase ≤ (ptr.toNat : Int) ∧
    (ptr.toNat + n : Int) ≤ (k.task k.current).userLimit
  omega

theorem MemInv.writable_iff (h : MemInv P k sk S) (hu : IsUser (k.task k.current)) {x : Nat}
    (hlo : userTaskRegionBase ≤ x) (hhi : (x : Int) < (k.task k.current).userLimit) :
    pageIndex x < (k.task k.current).userPages.length ∧
    ((∃ a, mmuWalk k.phys.mem (k.task k.current).cr3 (x / 4096) = some a ∧ a.writable = true) ↔
      userPageFlag (k.ghost.image k.current) (pageIndex x) = 7) := by
  have hs := h.user _ hu
  have hl := hs.fits.length.2
  rw [hs.limit] at hhi
  unfold userTaskRegionBase at hlo
  unfold userTaskRegionBase userPageSize at hhi
  have hi : pageIndex x < (k.task k.current).userPages.length := by
    unfold pageIndex windowPage
    omega
  have hn : x / 4096 = windowPage + pageIndex x := by
    unfold pageIndex windowPage
    omega
  refine ⟨hi, ?_⟩
  rw [hn, userRoot_window hs.root hl (h.pages_aligned hu) hs.fits.flag hi]
  constructor
  · rintro ⟨a, ha, hw⟩
    rw [← Option.some.inj ha] at hw
    exact of_decide_eq_true hw
  · intro hw
    exact ⟨_, rfl, decide_eq_true hw⟩

/-- The pages of an image are distinct. -/
theorem MemInv.userPages_nodup (h : MemInv P k sk S) {t : TaskId} (hu : IsUser (k.task t)) :
    (k.task t).userPages.Nodup := by
  have hnd := h.inv.balanced.nodup
  rw [h.split_user hu] at hnd
  have h2 := (Multiset.nodup_add.mp hnd).2.1
  exact Multiset.coe_nodup.mp (Multiset.nodup_add.mp h2).1

/-- What is known of the bytes of a call that stores something. -/
structure Filling (k : KernelState) (c : UserCall) (bytes : Bytes) : Prop where
  accepted : c.accepted (k.task k.current) = true
  aligned : c.aligned = true
  length : bytes.length = c.delivers k
  low : (k.task k.current).userBase ≤ UserCall.start c
  high : (UserCall.start c + bytes.length : Int) ≤ (k.task k.current).userLimit

theorem userCallBytes_filling (hk : KernelOk k) (hu : IsUser (k.task k.current))
    (hreg : c.InRegisters) (hf : c.fills = true) {r : Int} {bytes : Bytes} {k₁ : KernelState}
    (h : userCallBytes k c = .ok (r, bytes, k₁)) (hne : bytes ≠ []) : Filling k c bytes := by
  obtain ⟨ha, ptr, length, hb, hlen⟩ := (userCallBytes_spec hk.heap h).2.resolve_left hne
  obtain ⟨hcount, halign⟩ := (userCallBytes_delivers hf ha).of_ok h
  dsimp only at hcount
  have hpos : bytes.length ≠ 0 := fun hc => hne (List.eq_nil_of_length_eq_zero hc)
  obtain ⟨hlo, hhi⟩ := accepted_range (hk.base _ hu.2) hreg hf ha (n := bytes.length) (by
    intro ptr' length' hb'
    rw [hb] at hb'
    cases hb'
    exact hlen)
  exact ⟨ha, halign.resolve_left (by omega), hcount, hlo, hhi⟩

/-- The first `n` bytes of a guarded call go to writable pages. -/
theorem MemInv.guarded_flag (hk : KernelOk k) (h : MemInv P k sk S)
    (hu : IsUser (k.task k.current)) (hg : Guarded k c) {bytes : Bytes} (hfill : Filling k c bytes)
    {n : Nat} (hn : n ≤ bytes.length) {m : Mem}
    (hs : storeUserBytes k.cr0Wp k.phys.cr3 (UserCall.start c) (bytes.take n) k.phys.mem = .ok m)
    {j : Nat} (hj : j < n) :
    userPageFlag (k.ghost.image k.current) (pageIndex (UserCall.start c + j)) = 7 := by
  have hlen : (bytes.take n).length = n := by
    rw [List.length_take]
    omega
  have hhigh := hfill.high
  have hbase := hk.base _ hu.2
  rcases hg with hwp | hg | hg | hg
  · have hspec := (h.storeUserBytes_spec hu hbase (W := ↑(k.task k.current).userPages) k.cr0Wp
      (bytes.take n) (OnlyPages.refl _ _) hfill.low (by rw [hlen]; omega) ?_).of_ok hs
    · exact hspec.2 hwp j (by rw [hlen]; exact hj)
    · intro i hi
      rw [hlen] at hi
      have hlow := hfill.low
      rw [hbase] at hlow
      have hin := (h.writable_iff hu (x := UserCall.start c + i) (by push_cast; omega)
        (by push_cast; omega)).1
      rw [List.getD_eq_getElem _ _ hin]
      exact Multiset.mem_coe.mpr (List.getElem_mem hin)
  · rw [hfill.accepted] at hg
    cases hg
  · rw [hfill.aligned] at hg
    cases hg
  · exact hg j (by rw [← hfill.length]; omega)

/-- The pages of the image that are mapped writable. -/
def writablePages (k : KernelState) : List Nat :=
  ((List.range (k.task k.current).userPages.length).filter fun i =>
    userPageFlag (k.ghost.image k.current) i = 7).map fun i => (k.task k.current).userPages.getD i 0

theorem mem_writablePages {p : Nat} : p ∈ writablePages k ↔
    ∃ i < (k.task k.current).userPages.length, userPageFlag (k.ghost.image k.current) i = 7 ∧
      (k.task k.current).userPages.getD i 0 = p := by
  unfold writablePages
  simp only [List.mem_map, List.mem_filter, List.mem_range, decide_eq_true_eq, and_assoc]

theorem MemInv.writeProtected_of_guarded (hk : KernelOk k) (h : MemInv P k sk S)
    (hu : IsUser (k.task k.current)) (hreg : c.InRegisters) (hf : c.fills = true)
    (hg : Guarded k c) : WriteProtected k c := by
  have hbase := hk.base _ hu.2
  constructor
  · rintro x ⟨r, bytes, k₁, n, m, hb, hn, hs, h1, h2⟩
    have hne : bytes ≠ [] := by
      rintro rfl
      rw [List.length_nil] at hn
      omega
    have hfill := userCallBytes_filling hk hu hreg hf hb hne
    have hlow := hfill.low
    have hhigh := hfill.high
    rw [hbase] at hlow
    refine (h.writable_iff hu (by omega) (by omega)).2.mpr ?_
    have := h.guarded_flag hk hu hg hfill hn hs (j := x - UserCall.start c) (by omega)
    rwa [show UserCall.start c + (x - UserCall.start c) = x by omega] at this
  · intro r k' hcall i hi hflag
    unfold Syscall.userCall at hcall
    obtain ⟨⟨r₁, bytes, k₁⟩, hb, hcall⟩ := bind_eq_ok.mp hcall
    obtain ⟨m, hs, hcall⟩ := bind_eq_ok.mp hcall
    cases hcall
    obtain ⟨vfs, heap, fds, rfl⟩ := (userCallBytes_spec hk.heap hb).1.shape
    change storeUserBytes k.cr0Wp k.phys.cr3 (UserCall.start c) bytes k.phys.mem = .ok m at hs
    show SamePage k.phys.mem m _
    by_cases hne : bytes = []
    · rw [hne] at hs
      cases hs
      exact SamePage.refl _ _
    have hfill := userCallBytes_filling hk hu hreg hf hb hne
    have hlow := hfill.low
    have hhigh := hfill.high
    rw [hbase] at hlow
    have honly : OnlyPages (writablePages k : Multiset Nat) k.phys.mem m := by
      refine ((h.storeUserBytes_spec hu hbase k.cr0Wp bytes (OnlyPages.refl _ _) hfill.low
        hhigh fun j hj => ?_).of_ok hs).1
      refine Multiset.mem_coe.mpr (mem_writablePages.mpr ⟨_, ?_, ?_, rfl⟩)
      · exact (h.writable_iff hu (by push_cast; omega) (by push_cast; omega)).1
      · exact h.guarded_flag hk hu hg hfill (le_refl _) (by rw [List.take_length]; exact hs) hj
    have hmem : ∀ j < (k.task k.current).userPages.length,
        (k.task k.current).userPages.getD j 0 ∈ (k.task k.current).userPages := by
      intro j hj
      rw [List.getD_eq_getElem _ _ hj]
      exact List.getElem_mem hj
    refine honly.samePage (h.pages_aligned hu _ (hmem i hi)) (fun q hq => ?_) fun hc => ?_
    · obtain ⟨j, hj, -, rfl⟩ := mem_writablePages.mp (Multiset.mem_coe.mp hq)
      exact h.pages_aligned hu _ (hmem j hj)
    · obtain ⟨j, hj, hw, he⟩ := mem_writablePages.mp (Multiset.mem_coe.mp hc)
      rw [List.getD_eq_getElem _ _ hj, List.getD_eq_getElem _ _ hi] at he
      rw [(h.userPages_nodup hu).getElem_inj_iff.mp he] at hw
      exact hflag hw

theorem MemInv.guarded_of_writeProtected (hk : KernelOk k) (h : MemInv P k sk S)
    (hu : IsUser (k.task k.current)) (hreg : c.InRegisters) (hf : c.fills = true)
    (hw : WriteProtected k c) : Guarded k c := by
  have hbase := hk.base _ hu.2
  by_contra hg
  unfold Guarded at hg
  simp only [not_or, not_forall] at hg
  obtain ⟨hwp, ha, hal, j, hj, hflag⟩ := hg
  rw [Bool.not_eq_false] at ha hal
  obtain ⟨⟨r, bytes, k₁⟩, hb, hcount, -⟩ :=
    (userCallBytes_delivers hf ha).exists_ok fun _ he => by
      rcases he with he | he
      · omega
      · rw [hal] at he
        cases he
  dsimp only at hcount
  have hne : bytes ≠ [] := by
    rintro rfl
    rw [List.length_nil] at hcount
    omega
  have hfill := userCallBytes_filling hk hu hreg hf hb hne
  have hlow := hfill.low
  have hhigh := hfill.high
  rw [hbase] at hlow
  have hin : ∀ i < bytes.length, userTaskRegionBase ≤ ((UserCall.start c + i : Nat) : Int) ∧
      ((UserCall.start c + i : Nat) : Int) < (k.task k.current).userLimit := by
    intro i hi
    push_cast
    omega
  obtain ⟨m, hs, -⟩ := (h.storeUserBytes_spec hu hbase (W := ↑(k.task k.current).userPages)
    k.cr0Wp bytes (OnlyPages.refl _ _) hfill.low hhigh (fun i hi => by
      have hidx := (h.writable_iff hu (hin i hi).1 (hin i hi).2).1
      rw [List.getD_eq_getElem _ _ hidx]
      exact Multiset.mem_coe.mpr (List.getElem_mem hidx))).exists_ok fun _ he => hwp he.1
  have hstores : KernelStores k c (UserCall.start c + j) :=
    ⟨r, bytes, k₁, bytes.length, m, hb, le_refl _, by rw [List.take_length]; exact hs, by omega,
      by omega⟩
  exact hflag ((h.writable_iff hu (hin j (by omega)).1 (hin j (by omega)).2).2.mp
    (hw.writable _ hstores))

end Protection

/-- The kernel respects read-only pages of the current task exactly when the call is guarded. -/
theorem write_protection_iff (M : Machine) (k : KernelState) (h : Reachable M k)
    (hu : IsUser (k.task k.current)) (c : UserCall) (hreg : c.InRegisters)
    (hf : c.fills = true) : WriteProtected k c ↔ Guarded k c := by
  obtain ⟨sk, S, hm⟩ := h.memInv
  exact ⟨hm.guarded_of_writeProtected h.kernelOk hu hreg hf,
    hm.writeProtected_of_guarded h.kernelOk hu hreg hf⟩

/-- Reading one byte of console input to the start of the image. -/
def readIntoCode : UserCall := .read 0 0x20000000 1 [65]

theorem readIntoCode_inRegisters : readIntoCode.InRegisters := by
  intro b hb
  cases hb
  exact ⟨⟨by decide, by decide⟩, by decide, by decide⟩

theorem smallImage_flag : userPageFlag smallImage 0 = 5 := by decide +kernel

/-- On a page without `PF_W` the read is not guarded. -/
theorem readIntoCode_unguarded {k : KernelState} (hr : Reachable smallMachine k)
    (hu : UserRuns k) : ¬ Guarded k readIntoCode := by
  obtain ⟨sk, S, hm⟩ := hr.memInv
  have hs := hm.user _ hu.user
  have hlayout := hs.layout (hr.kernelOk.base _ hu.user.2)
  have hbase := hr.kernelOk.base _ hu.user.2
  have hacc : readIntoCode.accepted (k.task k.current) = true := by
    have hl := hs.fits.length.2
    have hlimit := hs.limit
    have hhb := hs.heapBase
    obtain ⟨h6, -⟩ := hs.fits.length
    unfold userTaskRegionBase userPageSize at hlimit hhb
    refine syscallValidateUserBuffer_complete hlayout hbase (by omega) (by decide) (Or.inl ?_)
    unfold userTaskRegionBase at hbase
    omega
  have hobj : schedulerTaskFdObject (k.task k.current) 0 = 7 := by
    unfold schedulerTaskFdObject
    rw [dif_pos ⟨by decide, by decide⟩]
    exact hu.console.1
  have hdel : readIntoCode.delivers k = 1 := by
    unfold UserCall.delivers readIntoCode openDesc
    dsimp only
    rw [hobj, if_neg (by decide), hu.console.2]
    rfl
  rintro (hg | hg | hg | hg)
  · rw [hu.wp] at hg
    cases hg
  · rw [hacc] at hg
    cases hg
  · cases hg
  · have h0 := hg 0 (by rw [hdel]; decide)
    rw [hu.image] at h0
    exact absurd (smallImage_flag.symm.trans h0) (by decide)

theorem write_protection_iff_small : ∃ k c, Reachable smallMachine k ∧
    IsUser (k.task k.current) ∧ c.InRegisters ∧ c.fills = true ∧
    (WriteProtected k c ↔ Guarded k c) := by
  obtain ⟨k, hr, hu⟩ := smallMachine_runs
  exact ⟨k, readIntoCode, hr, hu.user, readIntoCode_inRegisters, rfl,
    write_protection_iff smallMachine k hr hu.user readIntoCode readIntoCode_inRegisters rfl⟩

/-- A program can make the kernel write its code. -/
theorem read_only_page_written : ¬ ∀ (M : Machine) (k : KernelState), Reachable M k →
    IsUser (k.task k.current) → ∀ c : UserCall, c.InRegisters → c.fills = true →
      WriteProtected k c := by
  intro hall
  obtain ⟨k, hr, hu⟩ := smallMachine_runs
  obtain ⟨sk, S, hm⟩ := hr.memInv
  refine readIntoCode_unguarded hr hu ?_
  exact hm.guarded_of_writeProtected hr.kernelOk hu.user readIntoCode_inRegisters rfl
    (hall smallMachine k hr hu.user readIntoCode readIntoCode_inRegisters rfl)

end PcoOs.Kernel
