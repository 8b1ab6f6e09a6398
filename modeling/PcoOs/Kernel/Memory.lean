/-
  The memory of all tasks. `MemInv` accounts for every page the allocator has handed out: the
  tables of the kernel root, and for each user task the tables of its root and the pages of its
  image. A step works on the pages of one task; `MemInv.replace` carries the invariant over such a
  step, since all other pages keep their contents.
-/
import PcoOs.Kernel.Ready
import PcoOs.Kernel.Space

namespace PcoOs.Kernel

open PcoOs.Lib PcoOs.Pmm PcoOs.Support PcoOs.Vmm PcoOs.Elf PcoOs.Image PcoOs.Sched PcoOs.Vfs
  PcoOs.Syscall

/-! ## The memory of a task -/

/-- The address space a row describes: its root maps its page array, which fits its image, and
    the program break lies in the heap. -/
structure UserSpace (row : Task) (img : Image) (m : Mem) (sh : Shape) : Prop where
  root : UserRoot m row.cr3 sh row.userPages (userPageFlag img)
  fits : Fits img row.userPages
  count : row.userPageCount = row.userPages.length
  limit : row.userLimit = userTaskRegionBase + row.userPages.length * userPageSize
  heapBase : row.heapBase = userTaskRegionBase + (row.userPages.length - 5) * userPageSize
  heapLimit : row.heapLimit = userTaskRegionBase + (row.userPages.length - 1) * userPageSize
  break_low : row.heapBase ≤ row.heapBreak
  break_high : row.heapBreak ≤ row.heapLimit

theorem UserSpace.frame {row : Task} {img : Image} {m m' : Mem} {sh : Shape}
    (h : UserSpace row img m sh) (hs : ∀ p ∈ tables row.cr3 sh, SamePage m m' p) :
    UserSpace row img m' sh :=
  { h with root := h.root.frame h.fits.length.2 hs }

/-- A row of a user task that is there. -/
def IsUser (row : Task) : Prop := row.state ≠ .empty ∧ row.mode = .user

instance (row : Task) : Decidable (IsUser row) := inferInstanceAs (Decidable (_ ∧ _))

/-- The pages a row holds. -/
def rowPages (row : Task) (sh : Shape) : Multiset Nat :=
  if IsUser row then tables row.cr3 sh + ↑row.userPages else 0

theorem rowPages_user {row : Task} {sh : Shape} (h : IsUser row) :
    rowPages row sh = tables row.cr3 sh + ↑row.userPages := if_pos h

theorem rowPages_other {row : Task} {sh : Shape} (h : ¬ IsUser row) : rowPages row sh = 0 :=
  if_neg h

/-- The pages of the kernel root and of all tasks but `t`. -/
def otherPages (k : KernelState) (sk : Shape) (S : TaskId → Shape) (t : TaskId) : Multiset Nat :=
  tables k.vmm.rootP4 sk + ∑ u ∈ Finset.univ.erase t, rowPages (k.task u) (S u)

structure MemInv (P : Pool) (k : KernelState) (sk : Shape) (S : TaskId → Shape) : Prop where
  inv : PmmInv P k.phys.pmm
  vmm : VmmOk k.vmm
  kernel : KernelRoot k.vmm k.phys.mem sk
  out : outstanding k.phys.pmm.history =
    tables k.vmm.rootP4 sk + ∑ t, rowPages (k.task t) (S t)
  user : ∀ t, IsUser (k.task t) → UserSpace (k.task t) (k.ghost.image t) k.phys.mem (S t)
  kernelTask : ∀ t, (k.task t).state ≠ .empty → (k.task t).mode = .kernel →
    (k.task t).cr3 = k.vmm.rootP4
  cr3 : k.phys.cr3 = (k.task k.current).cr3

section Invariant

variable {P : Pool} {k k' : KernelState} {sk : Shape} {S : TaskId → Shape}

/-- One task and the others. -/
theorem MemInv.split (h : MemInv P k sk S) (t : TaskId) :
    outstanding k.phys.pmm.history = rowPages (k.task t) (S t) + otherPages k sk S t := by
  rw [h.out, ← Finset.add_sum_erase Finset.univ (fun u => rowPages (k.task u) (S u))
    (Finset.mem_univ t)]
  unfold otherPages
  abel

theorem MemInv.split_user (h : MemInv P k sk S) {t : TaskId} (ht : IsUser (k.task t)) :
    outstanding k.phys.pmm.history =
      tables (k.task t).cr3 (S t) + (↑(k.task t).userPages + otherPages k sk S t) := by
  rw [h.split t, rowPages_user ht, add_assoc]

theorem mem_otherPages {t u : TaskId} (hne : u ≠ t) {p : Nat}
    (hp : p ∈ rowPages (k.task u) (S u)) : p ∈ otherPages k sk S t := by
  refine Multiset.mem_add.mpr (Or.inr (Multiset.mem_sum.mpr ⟨u, ?_, hp⟩))
  exact Finset.mem_erase.mpr ⟨hne, Finset.mem_univ u⟩

/-- A step that replaces the row of `t` and keeps the pages of everybody else. -/
theorem MemInv.replace (h : MemInv P k sk S) (t : TaskId) (row : Task) (sh : Shape)
    (hrow : ∀ u, k'.task u = if u = t then row else k.task u) (hvmm : k'.vmm = k.vmm)
    (himg : ∀ u, u ≠ t → k'.ghost.image u = k.ghost.image u) (hinv : PmmInv P k'.phys.pmm)
    (hout : outstanding k'.phys.pmm.history = rowPages row sh + otherPages k sk S t)
    (hkeep : ∀ p ∈ otherPages k sk S t, SamePage k.phys.mem k'.phys.mem p)
    (hspace : IsUser row → UserSpace row (k'.ghost.image t) k'.phys.mem sh)
    (hkernel : row.state ≠ .empty → row.mode = .kernel → row.cr3 = k.vmm.rootP4)
    (hcr3 : k'.phys.cr3 = (k'.task k'.current).cr3) :
    MemInv P k' sk (Function.update S t sh) := by
  refine ⟨hinv, hvmm ▸ h.vmm, ?_, ?_, fun u hu => ?_, fun u hu hm => ?_, hcr3⟩
  · rw [hvmm]
    exact h.kernel.frame fun p hp => hkeep p (Multiset.mem_add.mpr (Or.inl hp))
  · have hsum : ∑ u ∈ Finset.univ.erase t, rowPages (k'.task u) (Function.update S t sh u) =
        ∑ u ∈ Finset.univ.erase t, rowPages (k.task u) (S u) := by
      refine Finset.sum_congr rfl fun u hu => ?_
      have hne := (Finset.mem_erase.mp hu).1
      rw [hrow, if_neg hne, Function.update_of_ne hne]
    rw [hout, hvmm, ← Finset.add_sum_erase Finset.univ
      (fun u => rowPages (k'.task u) (Function.update S t sh u)) (Finset.mem_univ t), hsum,
      hrow, if_pos rfl, Function.update_self]
    unfold otherPages
    abel
  · by_cases hut : u = t
    · subst hut
      rw [hrow, if_pos rfl] at hu ⊢
      rw [Function.update_self]
      exact hspace hu
    · rw [hrow, if_neg hut] at hu ⊢
      rw [Function.update_of_ne hut, himg u hut]
      refine (h.user u hu).frame fun p hp => hkeep p (mem_otherPages hut ?_)
      rw [rowPages_user hu]
      exact Multiset.mem_add.mpr (Or.inl hp)
  · rw [hvmm]
    rw [hrow] at hu hm ⊢
    split_ifs at hu hm ⊢
    · exact hkernel hu hm
    · exact h.kernelTask u hu hm

/-- Rows that agree on the memory of their task. -/
structure SameSpace (row row' : Task) : Prop where
  present : row'.state = .empty ↔ row.state = .empty
  mode : row'.mode = row.mode
  cr3 : row'.cr3 = row.cr3
  pages : row'.userPages = row.userPages
  count : row'.userPageCount = row.userPageCount
  limit : row'.userLimit = row.userLimit
  heapBase : row'.heapBase = row.heapBase
  heapLimit : row'.heapLimit = row.heapLimit
  heapBreak : row'.heapBreak = row.heapBreak

theorem SameSpace.refl (row : Task) : SameSpace row row :=
  ⟨Iff.rfl, rfl, rfl, rfl, rfl, rfl, rfl, rfl, rfl⟩

theorem SameSpace.isUser {row row' : Task} (h : SameSpace row row') : IsUser row' ↔ IsUser row := by
  unfold IsUser
  rw [h.mode, Ne, Ne, h.present]

theorem SameSpace.rowPages {row row' : Task} (h : SameSpace row row') (sh : Shape) :
    Kernel.rowPages row' sh = Kernel.rowPages row sh := by
  by_cases hu : IsUser row
  · rw [rowPages_user hu, rowPages_user (h.isUser.mpr hu), h.cr3, h.pages]
  · rw [rowPages_other hu, rowPages_other (fun hc => hu (h.isUser.mp hc))]

theorem SameSpace.space {row row' : Task} (h : SameSpace row row') {img : Image} {m : Mem}
    {sh : Shape} (hs : UserSpace row img m sh) : UserSpace row' img m sh where
  root := by rw [h.cr3, h.pages]; exact hs.root
  fits := by rw [h.pages]; exact hs.fits
  count := by rw [h.count, h.pages]; exact hs.count
  limit := by rw [h.limit, h.pages]; exact hs.limit
  heapBase := by rw [h.heapBase, h.pages]; exact hs.heapBase
  heapLimit := by rw [h.heapLimit, h.pages]; exact hs.heapLimit
  break_low := by rw [h.heapBase, h.heapBreak]; exact hs.break_low
  break_high := by rw [h.heapLimit, h.heapBreak]; exact hs.break_high

/-- A step that leaves physical memory alone. -/
theorem MemInv.same (h : MemInv P k sk S) (hrow : ∀ t, SameSpace (k.task t) (k'.task t))
    (hvmm : k'.vmm = k.vmm) (himg : k'.ghost.image = k.ghost.image)
    (hpmm : k'.phys.pmm = k.phys.pmm) (hmem : k'.phys.mem = k.phys.mem)
    (hcr3 : k'.phys.cr3 = (k'.task k'.current).cr3) : MemInv P k' sk S where
  inv := hpmm ▸ h.inv
  vmm := hvmm ▸ h.vmm
  kernel := by
    rw [hvmm, hmem]
    exact h.kernel
  out := by
    rw [hpmm, hvmm, h.out]
    congr 1
    exact Finset.sum_congr rfl fun t _ => ((hrow t).rowPages _).symm
  user := fun t ht => by
    rw [himg, hmem]
    exact (hrow t).space (h.user t ((hrow t).isUser.mp ht))
  kernelTask := fun t ht hm => by
    rw [hvmm, (hrow t).cr3]
    exact h.kernelTask t (fun hc => ht ((hrow t).present.mpr hc)) ((hrow t).mode ▸ hm)
  cr3 := hcr3

/-! ## Stores of a program -/

/-- Pages that are handed out are aligned. -/
theorem MemInv.aligned (h : MemInv P k sk S) {p : Nat}
    (hp : p ∈ outstanding k.phys.pmm.history) : p % 4096 = 0 :=
  P.aligned p (h.inv.mem_pages hp)

theorem MemInv.userPage_mem (h : MemInv P k sk S) {t : TaskId} (ht : IsUser (k.task t)) {p : Nat}
    (hp : p ∈ (k.task t).userPages) : p ∈ outstanding k.phys.pmm.history := by
  rw [h.split_user ht]
  exact Multiset.mem_add.mpr (Or.inr (Multiset.mem_add.mpr (Or.inl hp)))

/-- Pages other than those of the image of `t` keep their contents when only these are
    written. -/
theorem MemInv.samePage (h : MemInv P k sk S) {t : TaskId} (ht : IsUser (k.task t)) {m : Mem}
    (hm : OnlyPages ((k.task t).userPages : Multiset Nat) k.phys.mem m) {p : Nat}
    (hp : p ∈ tables (k.task t).cr3 (S t) + otherPages k sk S t) : SamePage k.phys.mem m p := by
  have hsplit : outstanding k.phys.pmm.history =
      (tables (k.task t).cr3 (S t) + otherPages k sk S t) + ↑(k.task t).userPages := by
    rw [h.split_user ht]
    abel
  have hnd := h.inv.balanced.nodup
  rw [hsplit] at hnd
  refine hm.samePage (h.aligned ?_) (fun q hq => h.aligned (h.userPage_mem ht hq)) fun hc => ?_
  · rw [hsplit]
    exact Multiset.mem_add.mpr (Or.inl hp)
  · exact Multiset.disjoint_left.mp (Multiset.nodup_add.mp hnd).2.2 hp hc

theorem StoreStep.onlyPages (h : MemInv P k sk S) (hu : IsUser (k.task k.current))
    (hbase : (k.task k.current).userBase = userTaskRegionBase) {m m' : Mem}
    (hm : OnlyPages ((k.task k.current).userPages : Multiset Nat) k.phys.mem m)
    (hs : StoreStep k m m') :
    OnlyPages ((k.task k.current).userPages : Multiset Nat) k.phys.mem m' := by
  obtain ⟨virt, b, acc, hw, hreach, rfl⟩ := hs
  have hspace := (h.user _ hu).frame fun p hp =>
    h.samePage hu hm (Multiset.mem_add.mpr (Or.inl hp))
  have hl := hspace.fits.length.2
  have hal : ∀ p ∈ (k.task k.current).userPages, p % 4096 = 0 := fun p hp =>
    h.aligned (h.userPage_mem hu hp)
  rw [h.cr3] at hw
  have hframe : acc.frame ∈ (k.task k.current).userPages := by
    rcases hreach with hreach | ⟨hlo, hhi⟩
    · exact userRoot_user hspace.root hl hal hspace.fits.flag hw hreach
    · -- an address between base and limit lies in a page of the image
      rw [hspace.limit] at hhi
      rw [hbase] at hlo
      unfold userTaskRegionBase at hlo
      unfold userTaskRegionBase userPageSize at hhi
      have hi : virt / 4096 - windowPage < (k.task k.current).userPages.length := by
        unfold windowPage
        omega
      have hn : virt / 4096 = windowPage + (virt / 4096 - windowPage) := by
        unfold windowPage
        omega
      rw [hn, userRoot_window hspace.root hl hal hspace.fits.flag hi] at hw
      rw [← Option.some.inj hw, List.getD_eq_getElem _ _ hi]
      exact List.getElem_mem hi
  refine hm.trans ((onlyPages_storeByte m (Nat.mod_lt _ (by norm_num))).mono fun p hp => ?_)
  rw [Multiset.mem_singleton.mp hp]
  exact hframe

theorem Stored.onlyPages (h : MemInv P k sk S) (hu : IsUser (k.task k.current))
    (hbase : (k.task k.current).userBase = userTaskRegionBase) {m : Mem}
    (hs : Relation.ReflTransGen (StoreStep k) k.phys.mem m) :
    OnlyPages ((k.task k.current).userPages : Multiset Nat) k.phys.mem m := by
  induction hs with
  | refl => exact OnlyPages.refl _ _
  | tail _ hstep ih => exact StoreStep.onlyPages h hu hbase ih hstep

end Invariant

end PcoOs.Kernel
