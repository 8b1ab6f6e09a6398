/-
  The memory of a program while others run. `userView` is what a program can load at an address and
  whether it can store there, as the processor sees it. No step of another task changes any of it:
  neither its stores, nor the system calls the kernel does for it, nor new tasks, new programs and
  tasks that end.
-/
import PcoOs.Kernel.Context
import PcoOs.Kernel.Isolation

namespace PcoOs.Kernel

open PcoOs.Lib PcoOs.Pmm PcoOs.Support PcoOs.Vmm PcoOs.Elf PcoOs.Image PcoOs.Sched PcoOs.Vfs
  PcoOs.Syscall

/-- The byte user mode finds at `virt`, and whether it may store there. -/
def userView (m : Mem) (root virt : Nat) : Option (UInt8 × Bool) :=
  match mmuWalk m root (virt / 4096) with
  | none => none
  | some a => if a.user = true then some (m (a.frame + virt % 4096), a.writable) else none

/-- The page of an image at `virt`. -/
def windowIndex (virt : Nat) : Nat := virt / 4096 % 2 ^ 36 - windowPage

def InWindow (row : Task) (virt : Nat) : Prop :=
  windowPage ≤ virt / 4096 % 2 ^ 36 ∧ windowIndex virt < row.userPages.length

theorem UserSpace.userView_inside {row : Task} {img : Image} {m : Mem} {sh : Shape}
    (h : UserSpace row img m sh) (hp : ∀ p ∈ row.userPages, p % 4096 = 0) {virt : Nat}
    (hv : InWindow row virt) :
    userView m row.cr3 virt = some (m (row.userPages.getD (windowIndex virt) 0 + virt % 4096),
      decide (userPageFlag img (windowIndex virt) = 7)) := by
  have hn : virt / 4096 % 2 ^ 36 = windowPage + windowIndex virt := by
    have := hv.1
    unfold windowIndex
    omega
  unfold userView
  rw [← mmuWalk_mod, hn, userRoot_window h.root h.fits.length.2 hp h.fits.flag hv.2]
  rfl

theorem UserSpace.userView_outside {row : Task} {img : Image} {m : Mem} {sh : Shape}
    (h : UserSpace row img m sh) {virt : Nat} (hv : ¬ InWindow row virt) :
    userView m row.cr3 virt = none := by
  unfold userView
  rw [← mmuWalk_mod]
  cases hw : mmuWalk m row.cr3 (virt / 4096 % 2 ^ 36) with
  | none => rfl
  | some a =>
    have hout : virt / 4096 % 2 ^ 36 < windowPage ∨
        windowPage + row.userPages.length ≤ virt / 4096 % 2 ^ 36 := by
      unfold InWindow windowIndex at hv
      omega
    rw [userRoot_other h.root (Nat.mod_lt _ (by norm_num)) hout hw]
    rfl

/-! ## Steps of others -/

/-- The step left the memory of `u` alone. -/
structure Untouched (k k' : KernelState) (u : TaskId) : Prop where
  row : SameSpace (k.task u) (k'.task u)
  image : k'.ghost.image u = k.ghost.image u
  memory : ∀ p ∈ (k.task u).userPages, SamePage k.phys.mem k'.phys.mem p

theorem Untouched.refl (k : KernelState) (u : TaskId) : Untouched k k u :=
  ⟨SameSpace.refl _, rfl, fun p _ => SamePage.refl _ p⟩

section Step

variable {P : Pool} {k k' : KernelState} {sk : Shape} {S : TaskId → Shape} {a : Act} {u : TaskId}

theorem Untouched.userView (hs : Untouched k k' u) (h : MemInv P k sk S) {S' : TaskId → Shape}
    (h' : MemInv P k' sk S') (hu : IsUser (k.task u)) (virt : Nat) :
    userView k'.phys.mem (k'.task u).cr3 virt = userView k.phys.mem (k.task u).cr3 virt := by
  have hu' : IsUser (k'.task u) := hs.row.isUser.mpr hu
  have hspace := h.user u hu
  have hspace' := h'.user u hu'
  by_cases hv : InWindow (k.task u) virt
  · have hv' : InWindow (k'.task u) virt := by
      unfold InWindow
      rw [hs.row.pages]
      exact hv
    have hmem : (k.task u).userPages.getD (windowIndex virt) 0 ∈ (k.task u).userPages := by
      rw [List.getD_eq_getElem _ _ hv.2]
      exact List.getElem_mem hv.2
    rw [hspace.userView_inside (h.pages_aligned hu) hv,
      hspace'.userView_inside (h'.pages_aligned hu') hv', hs.row.pages, hs.image,
      hs.memory _ hmem _ (Nat.le_add_right _ _) (by omega)]
  · have hv' : ¬ InWindow (k'.task u) virt := by
      unfold InWindow
      rw [hs.row.pages]
      exact hv
    rw [hspace.userView_outside hv, hspace'.userView_outside hv']

/-- The pages of a user task that is not the current one are other pages. -/
theorem mem_otherPages_user {t : TaskId} (hu : IsUser (k.task u)) (hne : u ≠ t) {p : Nat}
    (hp : p ∈ (k.task u).userPages) : p ∈ otherPages k sk S t := by
  refine mem_otherPages hne ?_
  rw [rowPages_user hu]
  exact Multiset.mem_add.mpr (Or.inr hp)

theorem Untouched.files (hk : KernelOk k) (h : MemInv P k sk S) {k₁ : KernelState}
    (hd : FileDone k k₁) {m : Mem} (hm : Stored k m) (hu : IsUser (k.task u))
    (hne : u ≠ k.current) :
    Untouched k { k₁ with phys := { k₁.phys with mem := m } } u := by
  obtain ⟨vfs, heap, fds, rfl⟩ := hd.shape
  refine ⟨?_, rfl, fun p hp => ?_⟩
  · show SameSpace (k.task u) ((k.sched.setTask k.current _).task u)
    rw [setTask_task, if_neg hne]
    exact SameSpace.refl _
  · rcases hm.2 with heq | hmode
    · show SamePage k.phys.mem m p
      rw [heq]
      exact SamePage.refl _ p
    · have hcur : IsUser (k.task k.current) := ⟨hk.current_present, hmode⟩
      have honly := Stored.onlyPages h hcur (hk.base _ hmode) hm.1
      exact h.samePage hcur honly
        (Multiset.mem_add.mpr (Or.inr (mem_otherPages_user hu hne hp)))

theorem Untouched.exec (hk : KernelOk k) (h : MemInv P k sk S) {img : Image} {argv envp : ExecVec}
    {im : UserImage} {ph : Phys} {heap : Heap}
    (hm : (k.task k.current).mode = .user) (hv : elfValidateUserImage img = .ok true)
    (hr : replaceUserImage k.vmm (k.task k.current).cr3 (k.task k.current).userBase
      (k.task k.current).userPages (k.task k.current).userPageCount img argv envp k.phys
      k.heap = .ok (im, ph, heap)) (hu : IsUser (k.task u)) (hne : u ≠ k.current) :
    ∀ p ∈ (k.task u).userPages, SamePage k.phys.mem ph.mem p := by
  have hcur : IsUser (k.task k.current) := ⟨hk.current_present, hm⟩
  have hs := h.user _ hcur
  rw [hk.base _ hm, hs.count] at hr
  obtain ⟨⟨sh', hpl⟩, -⟩ := (replaceUserImage_spec h.vmm h.inv hs.fits hs.root hk.heap hv argv envp
    (h.split_user hcur)).of_ok hr
  exact fun p hp => hpl.keeps p (mem_otherPages_user hu hne hp)

/-- No effect touches a user task that is not the current one, unless it is reaped. -/
theorem Effect.untouched (hk : KernelOk k) (h : MemInv P k sk S) (he : Effect k a k')
    (hu : IsUser (k.task u)) (hne : u ≠ k.current) (hkeep : (k'.task u).state ≠ .empty) :
    Untouched k k' u := by
  cases he with
  | tick now => exact ⟨SameSpace.refl _, rfl, fun p _ => SamePage.refl _ p⟩
  | brk b hm hlo hhi =>
    refine ⟨?_, rfl, fun p _ => SamePage.refl _ p⟩
    show SameSpace (k.task u) ((k.sched.setTask k.current _).task u)
    rw [setTask_task, if_neg hne]
    exact SameSpace.refl _
  | files hd hm => exact Untouched.files hk h hd hm hu hne
  | stack hs => exact ⟨SameSpace.refl _, rfl, fun p _ => SamePage.refl _ p⟩
  | stay now q hw hq => exact ⟨SameSpace.refl _, rfl, fun p _ => SamePage.refl _ p⟩
  | leave now hn q hw hq hs => exact ⟨SameSpace.refl _, rfl, fun p _ => SamePage.refl _ p⟩
  | @spawn img argv envp t row phys heap vfs fds q ht hb hh hq =>
    have hut : u ≠ t := by
      intro hc
      exact hu.1 (hc ▸ ht)
    obtain ⟨⟨sh, hnew⟩, -⟩ := (buildUserTask_memory h.inv h.vmm hk.heap img argv envp).of_ok hb
    refine ⟨?_, Function.update_of_ne hut _ _, fun p hp => hnew.keeps p (h.userPage_mem hu hp)⟩
    show SameSpace (k.task u) ((k.sched.setTask t _).task u)
    rw [setTask_task, if_neg hut]
    exact SameSpace.refl _
  | exec hm hv hr hc =>
    have hkeeps := Untouched.exec hk h hm hv hr hu hne
    refine ⟨?_, Function.update_of_ne hne _ _, fun p hp => hkeeps p hp⟩
    show SameSpace (k.task u) ((k.sched.setTask k.current _).task u)
    rw [setTask_task, if_neg hne]
    exact SameSpace.refl _
  | @exit exitCode regs ha hc next hn q hq m hs =>
    refine ⟨?_, rfl, fun p _ => SamePage.refl _ p⟩
    show SameSpace (k.sched.task u) ((exitCurrent k.sched exitCode).task u)
    rw [exitCurrent_row]
    refine ⟨?_, rfl, rfl, rfl, rfl, rfl, rfl, rfl, rfl⟩
    have hne' : u ≠ k.sched.currentTask := hne
    dsimp only
    rw [if_neg hne']
  | @reap wait t hw ht phys vfs hd hf =>
    have hut : u ≠ t := by
      intro hc
      refine hkeep ?_
      show ((releaseRow k.sched t).task u).state = .empty
      rw [releaseRow_task, if_pos hc]
      rfl
    have hne' : (k.task t).state ≠ .empty := by
      rw [waitTarget_exited ht]
      decide
    obtain ⟨-, -, hmem, -⟩ := (schedulerDestroyUserTask_spec h hne').of_ok hd
    refine ⟨?_, rfl, fun p _ => ?_⟩
    · show SameSpace (k.task u) ((releaseRow k.sched t).task u)
      rw [releaseRow_task, if_neg hut]
      exact SameSpace.refl _
    · show SamePage k.phys.mem phys.mem p
      rw [hmem]
      exact SamePage.refl _ p

end Step

/-! ## Runs of others -/

/-- However many steps other tasks take, of whatever kind: until `u` runs again or is reaped, it
    can reach the same addresses, with the same bytes and the same permissions. -/
theorem Away.userView {M : Machine} {k k' : KernelState} {u : TaskId} (h : Reachable M k)
    (hu : IsUser (k.task u)) (haway : Away u k k') :
    Reachable M k' ∧ IsUser (k'.task u) ∧ ∀ virt,
      userView k'.phys.mem (k'.task u).cr3 virt = userView k.phys.mem (k.task u).cr3 virt := by
  induction haway with
  | refl => exact ⟨h, hu, fun _ => rfl⟩
  | @step k₁ k₂ a _ hc he ha hkeep ih =>
    obtain ⟨hr, hu₁, hview⟩ := ih
    obtain ⟨sk, S, hm⟩ := hr.memInv
    have heff := (act_effect hr.kernelOk he).of_ok ha
    obtain ⟨S', hm'⟩ := heff.memInv hr.kernelOk hm
    have hs := heff.untouched hr.kernelOk hm hu₁ (Ne.symm hc) hkeep
    refine ⟨.step hr trivial he ha, hs.row.isUser.mpr hu₁, fun virt => ?_⟩
    rw [hs.userView hm hm' hu₁ virt, hview virt]

end PcoOs.Kernel
