/-
  The kernel reaches pages by their physical address, in whatever root is loaded, and the model does
  the same (`zeroPage`, the page tables, the copy loops). This is what the source does only where
  those addresses lead to themselves.

  * `identity_access`: they do in every state of every run, for every page any run hands out, if
    the first pages of the memory map lie below 4 GiB and outside the user window (`AllDirect`).
    A run uses up no more than `pageBound` pages of the regions, in their order.
  * `high_page_unmapped`: a machine that runs out of low pages hands out a page at 4 GiB, which no
    root maps.
  * `memory_isolated`, `pages_conserved`, `loaded_root_live`, `user_memory_private`: what is shown
    of the memory of tasks, on the machines on which the model and the code access the same pages.
-/
import PcoOs.Kernel.Integrity
import PcoOs.Kernel.Recycle
import PcoOs.Pmm.Order

namespace PcoOs.Kernel

open PcoOs.Lib PcoOs.Pmm PcoOs.Support PcoOs.Vmm PcoOs.Elf PcoOs.Image PcoOs.Sched

/-! ## Pages the allocator returns -/

/-- A page that `pmm_alloc_page` has returned in some run, or would return next. -/
def Returned (M : Machine) (p : Nat) : Prop :=
  ∃ k, Reachable M k ∧
    (.give p ∈ k.phys.pmm.history ∨ (pmmAllocPage k.phys.pmm).1 = p ∧ p ≠ 0)

section Order

variable {M : Machine} {k : KernelState}

theorem Reachable.ordered (h : Reachable M k) : Ordered (bootPages M.info) k.phys.pmm := by
  induction h with
  | @boot k h =>
    obtain ⟨s, hb, huses⟩ := boot_uses h
    obtain ⟨sh, hm⟩ := ((boot_spec M).of_ok h).memory
    exact huses.ordered hm.inv.balanced hb.ordered
  | @step k k' a h hp he ha ih =>
    obtain ⟨sk, S, hm⟩ := h.memInv
    obtain ⟨sk', S', hm'⟩ := (ReachableBy.step h hp he ha).memInv
    have heffect := (act_effect h.kernelOk he).of_ok ha
    exact (heffect.uses h.kernelOk hm).ordered hm'.inv.balanced ih

/-- A run takes the first pages of the map. -/
theorem Returned.mem_take {p : Nat} (h : Returned M p) : p ∈ (bootPages M.info).take pageBound := by
  obtain ⟨k, hr, hp⟩ := h
  obtain ⟨sk, S, hm⟩ := hr.memInv
  have hL : (bootPages M.info : Multiset Nat) = M.pool.pages := coe_bootPages M.map M.noWrap
  rcases hp with hp | ⟨hp, hne⟩
  · exact hr.ordered.mem_take hm.inv hL hr.highWater hp
  · have hout := Reachable.card_outstanding_le hr
    have hw := hr.highWater.alloc (by unfold pageBound; omega)
    rcases pmmAllocPage_spec hm.inv with ⟨-, h0⟩ | ⟨q, t, hq, -, -, -, hhist, ht⟩
    · rw [h0] at hp
      exact absurd hp.symm hne
    · have ho := hr.ordered.alloc
      rw [hq] at hp hw ho
      subst hp
      exact ho.mem_take ht hL hw (by rw [hhist]; exact List.mem_cons_self)

end Order

/-! ## Identity -/

/-- Below 4 GiB and outside the 69 pages of the user window. -/
def Direct (p : Nat) : Prop := p < 2 ^ 32 ∧ (p < 0x20000000 ∨ 0x20000000 + 69 * 4096 ≤ p)

/-- So are the pages of the memory map, as many as a run can use up. -/
def Machine.AllDirect (M : Machine) : Prop := ∀ p ∈ (bootPages M.info).take pageBound, Direct p

/-- Every page the allocator returns leads to itself, in the kernel root and in the root of every
    task that is there. -/
structure IdentityAccess (M : Machine) (k : KernelState) : Prop where
  kernel : ∀ p, Returned M p → vmmTranslateRoot k.vmm k.phys.mem k.vmm.rootP4 p = .ok p
  tasks : ∀ p, Returned M p → ∀ t, (k.task t).state ≠ .empty →
    vmmTranslateRoot k.vmm k.phys.mem (k.task t).cr3 p = .ok p

theorem translate_identity {v : VmmState} {m : Mem} {root : Nat} {sh : Shape} (hvm : VmmOk v)
    (hr : Realizes m root sh) {p : Nat} (hp : p < 2 ^ 32)
    (hl : leafEntry m sh (p / 4096) = identityLeaf (p / 4096)) :
    vmmTranslateRoot v m root p = .ok p := by
  have hin : InRange (p : Int) := ⟨by omega, by omega⟩
  have hv : vpn (p : Int) = p / 4096 := by
    unfold vpn
    omega
  obtain ⟨b0, -, -, ht⟩ := small_bits (p / 4096)
  have htrans := hr.translate_inRange hin hvm.limit.ge (vmmRootP2Ptr_eq hr _)
  rw [hv, hl] at htrans
  refine Eq.trans htrans ?_
  unfold leafTarget identityLeaf
  rw [if_pos b0, ht]
  congr 1
  omega

theorem MemInv.translate_direct {P : Pool} {k : KernelState} {sk : Shape} {S : TaskId → Shape}
    (hm : MemInv P k sk S) {p : Nat} (hp : Direct p) :
    vmmTranslateRoot k.vmm k.phys.mem k.vmm.rootP4 p = .ok p ∧
      ∀ t, (k.task t).state ≠ .empty → vmmTranslateRoot k.vmm k.phys.mem (k.task t).cr3 p = .ok p := by
  obtain ⟨h32, hout⟩ := hp
  have hkernel := translate_identity hm.vmm hm.kernel.realizes h32 (hm.kernel.leaf _ (by omega))
  refine ⟨hkernel, fun t ht => ?_⟩
  cases hmode : (k.task t).mode with
  | kernel =>
    rw [hm.kernelTask t ht hmode]
    exact hkernel
  | user =>
    have hs := hm.user t ⟨ht, hmode⟩
    refine translate_identity hm.vmm hs.root.realizes h32 (hs.root.outside _ (by omega) ?_)
    unfold windowPage
    omega

theorem Machine.AllDirect.access {M : Machine} (hd : M.AllDirect) {k : KernelState}
    (h : Reachable M k) : IdentityAccess M k := by
  obtain ⟨sk, S, hm⟩ := h.memInv
  exact ⟨fun p hp => (hm.translate_direct (hd p hp.mem_take)).1,
    fun p hp => (hm.translate_direct (hd p hp.mem_take)).2⟩

/-- Where the first pages of the map are direct, every page that a run of the machine hands out is
    reached at its own address in every state of every run. -/
theorem identity_access (M : Machine) (hd : M.AllDirect) (k : KernelState) (h : Reachable M k) :
    IdentityAccess M k := hd.access h

theorem smallMachine_direct : smallMachine.AllDirect := by
  intro p hp
  have hregions : bootRegions smallMap = [⟨0x100000, 0x200000⟩] := by decide
  have hmem : p ∈ bootPages smallMap := List.mem_of_mem_take hp
  unfold bootPages at hmem
  rw [hregions, List.flatMap_singleton] at hmem
  have hb := (mem_regionPages_bounds (r := ⟨0x100000, 0x200000⟩)
    ⟨by decide, by decide, by decide, by decide, by decide⟩ (Multiset.mem_coe.mpr hmem)).2
  dsimp only at hb
  unfold Direct
  omega

theorem identity_access_small : ∃ k, Reachable smallMachine k ∧ IsUser (k.task k.current) ∧
    IdentityAccess smallMachine k := by
  obtain ⟨k, hr, hu⟩ := smallMachine_runs
  exact ⟨k, hr, hu.user, identity_access smallMachine smallMachine_direct k hr⟩

/-! ## Memory above 4 GiB -/

/-- Eight pages at 1 MiB, which boot uses up, and one MiB at 4 GiB. -/
def highMap : BootInfo where
  mmap := [⟨0x100000, 0x8000, 7⟩, ⟨0x100000000, 0x100000, 7⟩]
  kernelPhysStart := 0
  kernelPhysEnd := 0

theorem highMap_loader : LoaderMap highMap where
  disjoint := by
    refine List.pairwise_pair.mpr fun _ _ x hx => ?_
    dsimp only at hx
    omega
  range := by
    intro e he _
    rcases List.mem_pair.mp he with rfl | rfl <;> decide
  kernel_le := by decide
  kernel_range := by decide
  aligned := by
    intro e he _
    rcases List.mem_pair.mp he with rfl | rfl <;> decide
  kernel_up := by decide

def highMachine : Machine :=
  { smallMachine with
    info := highMap, map := highMap_loader.toMapOk, noWrap := highMap_loader.noWrap }

theorem highMachine_pool : highMachine.pool.pages.card = 264 := by
  obtain ⟨s, hs, ht⟩ : ∃ s, initPmm highMap = .ok s ∧ s.totalPages = 264 := ⟨_, rfl, rfl⟩
  have h := (initPmm_inv highMachine.map highMachine.noWrap hs).total
  rw [ht] at h
  exact_mod_cast h.symm

theorem highMachine_boots : ¬ highMachine.MayFail := by
  obtain ⟨s, hs, hf⟩ : ∃ s, initPmm highMap = .ok s ∧ s.freePages = 264 := ⟨_, rfl, rfl⟩
  obtain ⟨fds0, fds1, vfs, hok, -⟩ := bootFds_small
  exact Machine.boots hs (by omega) (by rw [highMachine_pool]; decide) rfl (by decide) hok

theorem bootPages_high : (bootPages highMap)[8]? = some 0x100000000 := by
  have hregions : bootRegions highMap =
      [⟨0x100000, 0x108000⟩, ⟨0x100000000, 0x100100000⟩] := by decide
  unfold bootPages
  rw [hregions]
  decide

/-- The first user task takes the ninth page. -/
theorem highMachine_returns : Returned highMachine 0x100000000 := by
  obtain ⟨k₀, hboot, hb⟩ := boot_ok highMachine_boots
  obtain ⟨k, hr, hs⟩ := started_of_room rfl hboot
    (hb.room (by rw [highMachine_pool]; decide) (by decide) (hb.fds_small rfl))
  obtain ⟨sk, S, hm⟩ := hr.memInv
  refine ⟨k, hr, Or.inl (hr.ordered.given hm.inv (coe_bootPages _ _) ?_ bootPages_high)⟩
  -- the kernel root has six pages and the task owes seven
  obtain ⟨sh, hready⟩ := hb.memory
  have hboot_card : 6 ≤ (outstanding k₀.phys.pmm.history).card := by
    rw [hready.out, tables_one (j := 192) (by decide) hready.pt, Multiset.card_cons,
      Multiset.card_cons, Multiset.card_add, card_p2Below]
    omega
  have hle : owedPages k k.current ≤ ∑ t, owedPages k t :=
    Finset.single_le_sum (fun _ _ => Multiset.zero_le _) (Finset.mem_univ _)
  have howed : 7 ≤ (owedPages k k.current).card := by
    unfold owedPages
    rw [if_pos hs.user, Multiset.card_add, Multiset.coe_card]
    exact Nat.le_add_right _ _
  have hcard := Multiset.card_le_card hle
  rw [(hr.conserved hboot).out, Multiset.card_add]
  omega

/-- The kernel root does not map the page at 4 GiB. -/
theorem high_page_unmapped : ¬ ∀ (M : Machine) (k : KernelState), Reachable M k →
    IdentityAccess M k := by
  intro hall
  obtain ⟨k, hboot, hb⟩ := boot_ok highMachine_boots
  have hr : Reachable highMachine k := .boot hboot
  obtain ⟨sk, S, hm⟩ := hr.memInv
  have hid := (hall highMachine k hr).kernel _ highMachine_returns
  have hsupport : vmmSupportsAddr k.vmm.limit ((0x100000000 : Nat) : Int) = false := by
    rw [hm.vmm.limit]
    decide
  unfold vmmTranslateRoot withLeaf at hid
  rw [if_pos (by rw [hsupport]; decide)] at hid
  cases hid

/-! ## The memory of tasks -/

theorem memory_isolated (M : Machine) (hd : M.AllDirect) (k : KernelState) (h : Reachable M k) :
    Isolated k ∧ IdentityAccess M k := by
  obtain ⟨sk, S, hm⟩ := h.memInv
  exact ⟨hm.isolated h.kernelOk, hd.access h⟩

theorem memory_isolated_small : ∃ k, Reachable smallMachine k ∧ IsUser (k.task k.current) ∧
    Isolated k := by
  obtain ⟨k, hr, hu⟩ := smallMachine_runs
  exact ⟨k, hr, hu.user, (memory_isolated smallMachine smallMachine_direct k hr).1⟩

theorem pages_conserved (M : Machine) (hd : M.AllDirect) (k₀ k : KernelState)
    (hb : boot M = .ok k₀) (h : Reachable M k) : Conserved k₀ k ∧ IdentityAccess M k :=
  ⟨h.conserved hb, hd.access h⟩

theorem pages_conserved_small : ∃ k₀ k, boot smallMachine = .ok k₀ ∧ Reachable smallMachine k ∧
    IsUser (k.task k.current) ∧ Conserved k₀ k := by
  obtain ⟨k₀, hb, -⟩ := boot_ok smallMachine_boots
  obtain ⟨k, hr, hu⟩ := smallMachine_runs
  exact ⟨k₀, k, hb, hr, hu.user, (pages_conserved smallMachine smallMachine_direct k₀ k hb hr).1⟩

theorem loaded_root_live (M : Machine) (hd : M.AllDirect) (k : KernelState) (h : Reachable M k) :
    RootLive k ∧ IdentityAccess M k := by
  obtain ⟨sk, S, hm⟩ := h.memInv
  exact ⟨hm.rootLive h.kernelOk h.rsp0, hd.access h⟩

theorem loaded_root_live_small : ∃ k, Reachable smallMachine k ∧ IsUser (k.task k.current) ∧
    RootLive k := by
  obtain ⟨k, hr, hu⟩ := smallMachine_runs
  exact ⟨k, hr, hu.user, (loaded_root_live smallMachine smallMachine_direct k hr).1⟩

/-- Until `u` runs again or is reaped, its program finds the same bytes and permissions. -/
theorem user_memory_private {M : Machine} (hd : M.AllDirect) {k k' : KernelState} {u : TaskId}
    (h : Reachable M k) (hu : IsUser (k.task u)) (haway : Away u k k') :
    IsUser (k'.task u) ∧
      (∀ virt, userView k'.phys.mem (k'.task u).cr3 virt = userView k.phys.mem (k.task u).cr3 virt) ∧
      IdentityAccess M k' := by
  obtain ⟨hr, hu', hview⟩ := haway.userView h hu
  exact ⟨hu', hview, hd.access hr⟩

/-- A new task keeps its memory while the task that made it goes on. -/
theorem user_memory_private_small : ∃ k k' u, Reachable smallMachine k ∧ IsUser (k.task u) ∧
    act k (.brk 0) = .ok k' ∧ Away u k k' ∧ IsUser (k'.task u) ∧
    ∀ virt, userView k'.phys.mem (k'.task u).cr3 virt = userView k.phys.mem (k.task u).cr3 virt := by
  obtain ⟨k₀, hboot, hb⟩ := boot_ok smallMachine_boots
  have hr₀ : Reachable smallMachine k₀ := .boot hboot
  obtain ⟨sk, S, hm⟩ := hr₀.memInv
  obtain ⟨u, k, ha, hs⟩ := spawn_ok hr₀.kernelOk hm hb.room_small noStrings noStrings
  have hrun₀ : Running k₀ := by
    unfold Running
    rw [hb.kont]
  have he : Enabled k₀ (.spawn smallImage noStrings noStrings) := hrun₀
  have hr : Reachable smallMachine k := hr₀.step trivial he ha
  have hcur : k.current ≠ u := by
    intro hc
    rw [hs.current] at hc
    exact hr₀.kernelOk.current_present (hc ▸ hs.slot)
  have hrun : Running k := by
    unfold Running
    rw [hs.kont, hs.current, Function.update_apply, hb.kont]
    split_ifs <;> rfl
  have hkeep : ((schedulerBrk k.sched k.current 0).2.task u).state ≠ .empty := by
    unfold schedulerBrk
    dsimp only
    rw [if_pos (show (0 : Int) = 0 from rfl)]
    split_ifs <;> exact hs.user.1
  have haway : Away u k { k with sched := (schedulerBrk k.sched k.current 0).2 } :=
    Away.refl.step hcur (a := .brk 0) hrun rfl hkeep
  obtain ⟨hu', hview, -⟩ := user_memory_private smallMachine_direct hr hs.user haway
  exact ⟨k, _, u, hr, hs.user, rfl, haway, hu', hview⟩

end PcoOs.Kernel
