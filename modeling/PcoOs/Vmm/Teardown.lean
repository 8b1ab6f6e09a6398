/-
  Ownership of table pages. The code does not record which pages it allocated for a root:
  `vmm_free_cloned_address_space` finds them again by walking the entries. `RootSys` records
  them beside the state, from the allocator's history, and `RootSysStep` runs the roots together
  with everything else that uses the allocator and memory. The tables are read at their own
  addresses, which is where the code reads them as long as the loaded root maps them there.

  `teardown_returns_own`: in every state of every run, freeing a root gives back exactly the
  pages handed out for it, each once, when they fit on the recycle stack, and panics otherwise.
  `teardown_stack_full`: they need not fit. A root whose 2048 directory entries are all split owns
  2054 pages.
-/
import PcoOs.Vmm.Refine
import PcoOs.Vmm.Usage

namespace PcoOs.Vmm

open PcoOs.Lib PcoOs.Pmm PcoOs.Support

/-! ## The system -/

/-- The roots, and for each the pages handed out for it since it was created. -/
structure RootSys where
  sys : VmmSys
  own : Nat → List Nat

/-- The pages handed out between two states of the allocator. -/
def handedOut (before after : PmmState) : List Nat := givenSince before.history after.history

/-- The same roots over another memory or allocator state. -/
def RootSys.withPhys (s : RootSys) (ph : Phys) : RootSys := ⟨{ s.sys with phys := ph }, s.own⟩

/-- Calls on the roots, and the rest of the kernel: it takes pages, gives back pages that belong
    to no root, writes outside the pages of the roots and loads `cr3`. -/
inductive RootSysStep : RootSys → RootSys → Prop
  | create {s : RootSys} {root : Nat} {ph : Phys}
      (h : vmmCreateTaskAddressSpace s.sys.vmm s.sys.phys = .ok (root, ph)) :
      RootSysStep s ⟨{ s.sys with phys := ph, roots := root :: s.sys.roots },
        Function.update s.own root (handedOut s.sys.phys.pmm ph.pmm)⟩
  | op {s : RootSys} {t : VmmSys} (op : PageOp) (h : op.Calls s.sys t) :
      RootSysStep s ⟨t, Function.update s.own (op.root s.sys)
        (handedOut s.sys.phys.pmm t.phys.pmm ++ s.own (op.root s.sys))⟩
  | tearDown {s : RootSys} {root : Nat} {ph : Phys} (hroot : root ∈ s.sys.roots)
      (hne : root ≠ s.sys.vmm.rootP4)
      (h : vmmFreeClonedAddressSpace s.sys.vmm s.sys.phys root = .ok ph) :
      RootSysStep s ⟨{ s.sys with phys := ph, roots := s.sys.roots.erase root }, s.own⟩
  | alloc (s : RootSys) :
      RootSysStep s (s.withPhys { s.sys.phys with pmm := (pmmAllocPage s.sys.phys.pmm).2 })
  | free {s : RootSys} {page : Nat} {pmm : PmmState}
      (hout : page ∈ outstanding s.sys.phys.pmm.history)
      (hown : ∀ r ∈ s.sys.roots, page ∉ s.own r) (h : pmmFreePage s.sys.phys.pmm page = .ok pmm) :
      RootSysStep s (s.withPhys { s.sys.phys with pmm := pmm })
  | write {s : RootSys} (mem : Mem) (cr3 : Nat)
      (h : ∀ r ∈ s.sys.roots, ∀ p ∈ s.own r, SamePage s.sys.phys.mem mem p) :
      RootSysStep s (s.withPhys { s.sys.phys with mem := mem, cr3 := cr3 })

/-- The state `init_vmm` leaves on the memory map `b`, after any use of the allocator. -/
structure RootBoot (b : BootInfo) (s : RootSys) : Prop where
  boot : ∃ s₀ pmm mem cr3 magic, initPmm b = .ok s₀ ∧ Relation.ReflTransGen PmmStep s₀ pmm ∧
    initVmm magic ⟨pmm, mem, cr3⟩ = .ok (s.sys.vmm, s.sys.phys) ∧
    s.own s.sys.vmm.rootP4 = handedOut pmm s.sys.phys.pmm
  roots : s.sys.roots = [s.sys.vmm.rootP4]

/-- Freeing `root` gives back exactly its own pages, each once, in one event each: every other
    page that is handed out stays so. -/
def ReturnsOwn (s : RootSys) (root : Nat) : Prop :=
  ∃ (ph : Phys) (freed : List Nat), vmmFreeClonedAddressSpace s.sys.vmm s.sys.phys root = .ok ph ∧
    freed.Perm (s.own root) ∧ freed.Nodup ∧
    ph.pmm.history = freed.map .take ++ s.sys.phys.pmm.history ∧
    ∀ p ∈ outstanding s.sys.phys.pmm.history, p ∉ s.own root → p ∈ outstanding ph.pmm.history

/-- The pages of `root` fit on what is left of the recycle stack. -/
def OwnFits (s : RootSys) (root : Nat) : Prop :=
  s.sys.phys.pmm.recycleCount + (s.own root).length ≤ 2048

/-! ## Building and splitting only hand out -/

theorem PageOp.run_allocs {s : VmmSys} {op : PageOp} {ph : Phys} (h : op.run s = .ok ph) :
    Allocs 1 s.phys.pmm ph.pmm := by
  cases op with
  | map virt phys flags => exact vmmMapPage_allocs h
  | unmap virt => exact vmmUnmapPage_allocs h
  | protect virt flags => exact vmmProtectPage_allocs h
  | mapRoot root virt phys flags => exact vmmMapPageRoot_allocs h
  | unmapRoot root virt => exact vmmUnmapPageRoot_allocs h

/-- The pages handed out are the growth of what is outstanding. -/
theorem handedOut_eq {g : Nat} {s t : PmmState} (h : Allocs g s t) {N : Multiset Nat}
    (hN : outstanding t.history = outstanding s.history + N) :
    (handedOut s t : Multiset Nat) = N := by
  have hout := congrArg outstanding h.onlyGives.givenSince
  rw [outstanding_gives, hN, add_comm] at hout
  exact (add_right_cancel hout).symm

/-! ## The invariant -/

/-- The pages recorded for a root are its tables. -/
structure RootInv (P : Pool) (S : Nat → Shape) (s : RootSys) : Prop where
  vmm : VmmInv P S s.sys
  own : ∀ r ∈ s.sys.roots, (s.own r : Multiset Nat) = tables r (S r)

section Keeps

variable {P : Pool} {S : Nat → Shape} {s : RootSys}

/-- Other memory and another allocator state, with the tables of the roots as they were. -/
theorem VmmInv.frame {s : VmmSys} (h : VmmInv P S s) {ph : Phys} (hinv : PmmInv P ph.pmm)
    (hsame : ∀ r ∈ s.roots, ∀ p ∈ tables r (S r), SamePage s.phys.mem ph.mem p)
    (hheld : (s.roots.map fun r => tables r (S r)).sum ≤ outstanding ph.pmm.history) :
    VmmInv P S { s with phys := ph } where
  inv := hinv
  vmm := h.vmm
  kernel := h.kernel
  p3 := h.p3
  realizes := fun r hr => (h.realizes r hr).frame (hsame r hr)
  nodup := h.nodup
  leaves := fun r hr n hn => by
    dsimp only
    rw [leafEntry_frame (r := r) hn (hsame r hr)]
    exact h.leaves r hr n hn
  held := hheld

theorem mem_sum_tables {l : List Nat} {p : Nat} :
    p ∈ (l.map fun r => tables r (S r)).sum ↔ ∃ r ∈ l, p ∈ tables r (S r) := by
  induction l with
  | nil => simp
  | cons r l ih => simp [ih]

theorem RootInv.frame (h : RootInv P S s) {ph : Phys} (hinv : PmmInv P ph.pmm)
    (hsame : ∀ r ∈ s.sys.roots, ∀ p ∈ s.own r, SamePage s.sys.phys.mem ph.mem p)
    (hheld : (s.sys.roots.map fun r => tables r (S r)).sum ≤ outstanding ph.pmm.history) :
    RootInv P S (s.withPhys ph) :=
  ⟨h.vmm.frame hinv (fun r hr p hp => hsame r hr p
    (Multiset.mem_coe.mp ((h.own r hr).symm ▸ hp))) hheld, h.own⟩

theorem RootInv.create (h : RootInv P S s) {root : Nat} {ph : Phys}
    (hc : vmmCreateTaskAddressSpace s.sys.vmm s.sys.phys = .ok (root, ph)) :
    ∃ sh, NewRoot P s.sys.phys root sh ph ∧ RootInv P (Function.update S root sh)
      ⟨{ s.sys with phys := ph, roots := root :: s.sys.roots },
        Function.update s.own root (handedOut s.sys.phys.pmm ph.pmm)⟩ := by
  obtain ⟨sh, hn, -⟩ := (vmmCreateTaskAddressSpace_spec h.vmm.inv h.vmm.vmm).of_ok hc
  refine ⟨sh, hn, h.vmm.newRoot hn, fun r hr => ?_⟩
  by_cases hne : r = root
  · subst hne
    dsimp only
    rw [Function.update_self, Function.update_self]
    exact handedOut_eq (vmmCreateTaskAddressSpace_allocs hc) hn.out
  · dsimp only
    rw [Function.update_of_ne hne, Function.update_of_ne hne]
    exact h.own r ((List.mem_cons.mp hr).resolve_left hne)

theorem RootInv.op (h : RootInv P S s) {t : VmmSys} {op : PageOp} (hop : op.Calls s.sys t) :
    ∃ sh val, LeafDone P (op.root s.sys) s.sys.phys (S (op.root s.sys)) op.virt val t.phys sh ∧
      RootInv P (Function.update S (op.root s.sys) sh)
      ⟨t, Function.update s.own (op.root s.sys)
        (handedOut s.sys.phys.pmm t.phys.pmm ++ s.own (op.root s.sys))⟩ := by
  obtain ⟨sh, val, hd, hinv, -⟩ := hop.inv h.vmm
  obtain ⟨N, hN, hT⟩ := hd.step.handed
  refine ⟨sh, val, hd, hinv, fun r hr => ?_⟩
  dsimp only at hr ⊢
  rw [hop.roots] at hr
  by_cases hne : r = op.root s.sys
  · subst hne
    rw [Function.update_self, Function.update_self, ← Multiset.coe_add, h.own _ hr, hT,
      handedOut_eq (PageOp.run_allocs hop.run) hN, add_comm]
  · rw [Function.update_of_ne hne, Function.update_of_ne hne]
    exact h.own r hr

/-- Freeing a root, in terms of the pages recorded for it. -/
theorem RootInv.freed (h : RootInv P S s) {root : Nat} (hr : root ∈ s.sys.roots) :
    Ends (vmmFreeClonedAddressSpace s.sys.vmm s.sys.phys root)
      (fun ph => Freed P s.sys.phys.pmm (s.own root) ph.pmm ∧ ph.mem = s.sys.phys.mem)
      (Full s.sys.phys.pmm (s.own root)) := by
  rw [h.own root hr]
  exact (vmmFreeClonedAddressSpace_freed s.sys.phys (h.vmm.realizes root hr) h.vmm.inv
    h.vmm.vmm (h.vmm.owned hr).held).imp fun ph hf => ⟨hf.1, hf.2.1⟩

theorem RootInv.tearDown (h : RootInv P S s) {root : Nat} {ph : Phys}
    (hr : root ∈ s.sys.roots) (hne : root ≠ s.sys.vmm.rootP4)
    (hf : vmmFreeClonedAddressSpace s.sys.vmm s.sys.phys root = .ok ph) :
    RootInv P S ⟨{ s.sys with phys := ph, roots := s.sys.roots.erase root }, s.own⟩ := by
  obtain ⟨hfr, hmem⟩ := (h.freed hr).of_ok hf
  have hsub : ∀ r ∈ s.sys.roots.erase root, r ∈ s.sys.roots := fun r => List.mem_of_mem_erase
  refine ⟨⟨hfr.inv, h.vmm.vmm, (List.mem_erase_of_ne hne.symm).mpr h.vmm.kernel, h.vmm.p3, ?_,
    h.vmm.nodup.erase root, ?_, ?_⟩, fun r hr' => h.own r (hsub r hr')⟩
  · intro r hr'
    dsimp only
    rw [hmem]
    exact h.vmm.realizes r (hsub r hr')
  · intro r hr'
    dsimp only
    rw [hmem]
    exact h.vmm.leaves r (hsub r hr')
  · refine hfr.rest ?_
    rw [h.own root hr, ← sum_tables_erase hr]
    exact h.vmm.held

theorem RootInv.step (h : RootInv P S s) {s' : RootSys} (hst : RootSysStep s s') :
    ∃ S', RootInv P S' s' := by
  cases hst with
  | create hc =>
    obtain ⟨sh, -, hinv⟩ := h.create hc
    exact ⟨_, hinv⟩
  | op op hop =>
    obtain ⟨sh, -, -, hinv⟩ := h.op hop
    exact ⟨_, hinv⟩
  | tearDown hr hne hf => exact ⟨S, h.tearDown hr hne hf⟩
  | alloc =>
    refine ⟨S, h.frame (h.vmm.inv.step (.alloc _)) (fun _ _ p _ => SamePage.refl _ p) ?_⟩
    rcases PmmInv.alloc_table h.vmm.inv with ⟨-, he⟩ | ⟨p, t, he, -, -, -, -, hist, -⟩
    · rw [he]
      exact h.vmm.held
    · rw [he]
      dsimp only
      rw [hist]
      exact h.vmm.held.trans (Multiset.le_add_right _ _)
  | @free page pmm hout hown hf =>
    obtain ⟨hist, -, hinv⟩ := (pmmFreePage_spec h.vmm.inv hout).of_ok hf
    refine ⟨S, h.frame hinv (fun _ _ p _ => SamePage.refl _ p) ?_⟩
    have hpage : page ∉ (s.sys.roots.map fun r => tables r (S r)).sum := by
      intro hc
      obtain ⟨r, hr, hp⟩ := mem_sum_tables.mp hc
      rw [← h.own r hr] at hp
      exact hown r hr (Multiset.mem_coe.mp hp)
    have hle := Multiset.erase_le_erase page h.vmm.held
    rw [Multiset.erase_of_notMem hpage] at hle
    dsimp only
    rw [hist, outstanding_take]
    exact hle
  | write mem cr3 hw => exact ⟨S, h.frame h.vmm.inv hw h.vmm.held⟩

theorem RootInv.run (h : RootInv P S s) {s' : RootSys}
    (hr : Relation.ReflTransGen RootSysStep s s') : ∃ S', RootInv P S' s' := by
  induction hr with
  | refl => exact ⟨S, h⟩
  | tail _ hst ih =>
    obtain ⟨S', h'⟩ := ih
    exact h'.step hst

end Keeps

theorem RootBoot.inv {b : BootInfo} (hb : LoaderMap b) {s : RootSys} (h : RootBoot b s) :
    ∃ S, RootInv (bootPool b hb.toMapOk hb.noWrap) S s := by
  obtain ⟨s₀, pmm, mem, cr3, magic, hs₀, hrun, hinit, hown⟩ := h.boot
  have hinv := (initPmm_inv hb.toMapOk hb.noWrap hs₀).run hrun
  obtain ⟨sh, hv, -, hout⟩ := initVmm_inv hinv hinit
  have hroots := h.roots
  obtain ⟨⟨v, ph, roots⟩, own⟩ := s
  dsimp only at *
  subst hroots
  refine ⟨_, hv, fun r hr => ?_⟩
  dsimp only
  rw [List.mem_singleton.mp hr, hown]
  exact handedOut_eq (initVmm_allocs hinit) hout

/-! ## Freeing a root -/

theorem RootInv.own_nodup {P : Pool} {S : Nat → Shape} {s : RootSys} (h : RootInv P S s)
    {root : Nat} (hr : root ∈ s.sys.roots) : (s.own root).Nodup := by
  rw [← Multiset.coe_nodup, h.own root hr]
  exact (h.vmm.realizes root hr).nodup

theorem RootInv.returns {P : Pool} {S : Nat → Shape} {s : RootSys} (h : RootInv P S s)
    {root : Nat} (hr : root ∈ s.sys.roots) (hfit : OwnFits s root) : ReturnsOwn s root := by
  unfold OwnFits at hfit
  obtain ⟨ph, hf, hfr, -⟩ := (h.freed hr).exists_ok fun e he => by
    have hcount := he.2
    rw [Multiset.coe_card] at hcount
    omega
  obtain ⟨freed, hperm, hist⟩ := hfr.events
  have hperm := Multiset.coe_eq_coe.mp hperm
  refine ⟨ph, freed, hf, hperm, hperm.nodup_iff.mpr (h.own_nodup hr), hist, fun p hp hn => ?_⟩
  rw [hfr.out] at hp
  exact (Multiset.mem_add.mp hp).resolve_left fun hc => hn (Multiset.mem_coe.mp hc)

theorem RootInv.panics {P : Pool} {S : Nat → Shape} {s : RootSys} (h : RootInv P S s)
    {root : Nat} (hr : root ∈ s.sys.roots) (hfit : ¬ OwnFits s root) :
    vmmFreeClonedAddressSpace s.sys.vmm s.sys.phys root = .error "pmm recycle stack full" := by
  have hspec := h.freed hr
  cases hf : vmmFreeClonedAddressSpace s.sys.vmm s.sys.phys root with
  | error e => rw [(hspec.of_error hf).1]
  | ok ph =>
    have hle := (hspec.of_ok hf).1.recycle_le
    rw [Multiset.coe_card] at hle
    exact absurd hle hfit

/-! ## More pages than the recycle stack holds -/

theorem card_tables (root : Nat) (sh : Shape) :
    (tables root sh).card = 6 + (sh.ptBelow 2048).card := by
  unfold tables
  rw [Multiset.card_cons, Multiset.card_cons, Multiset.card_add, card_p2Below]
  omega

theorem card_ptBelow (sh : Shape) (n : Nat) :
    (sh.ptBelow n).card = ∑ k ∈ Finset.range n, (sh.ptPage k).card := by
  unfold Shape.ptBelow
  exact Multiset.card_sum _ _

theorem card_ptBelow_le {sh : Shape} {j n : Nat} (hj : j ≤ n) (h : ∀ k, j ≤ k → sh.pt k = none) :
    (sh.ptBelow n).card ≤ j := by
  rw [card_ptBelow, ← Finset.sum_range_add_sum_Ico _ hj]
  have hlow : ∑ k ∈ Finset.range j, (sh.ptPage k).card ≤ j := by
    refine (Finset.sum_le_card_nsmul _ _ 1 fun k _ => card_ptPage_le sh k).trans ?_
    simp
  have hhigh : ∑ k ∈ Finset.Ico j n, (sh.ptPage k).card = 0 := by
    refine Finset.sum_eq_zero fun k hk => ?_
    unfold Shape.ptPage
    rw [h k (Finset.mem_Ico.mp hk).1]
    rfl
  omega

/-- Room for `root` to grow: what is free and what it owns stay the same in sum. -/
theorem RootStep.free_add {P : Pool} {root : Nat} {ph ph' : Phys} {sh sh' : Shape}
    (hinv : PmmInv P ph.pmm) (hs : RootStep P root ph sh ph' sh') :
    ph'.pmm.freePages + (tables root sh').card = ph.pmm.freePages + (tables root sh).card := by
  obtain ⟨N, hN, hT⟩ := hs.handed
  have h₁ := congrArg Multiset.card hinv.partition
  have h₂ := congrArg Multiset.card hs.inv.partition
  have f₁ := hinv.free
  have f₂ := hs.inv.free
  rw [Multiset.card_add] at h₁ h₂
  rw [hN, Multiset.card_add] at h₂
  rw [hT, Multiset.card_add]
  push_cast
  omega

/-- After `j` calls of `vmm_unmap_page_root`, one in each of the first `j` directory entries, with
    pages for `n` calls in all. -/
structure Splitting (P : Pool) (s₀ : RootSys) (root n j : Nat) (s : RootSys) : Prop where
  run : Relation.ReflTransGen RootSysStep s₀ s
  live : root ∈ s.sys.roots
  inv : ∃ S, RootInv P S s ∧ (∀ k < j, (S root).pt k ≠ none) ∧ (∀ k, j ≤ k → (S root).pt k = none) ∧
    n + 6 ≤ s.sys.phys.pmm.freePages + (tables root (S root)).card

theorem Splitting.next {P : Pool} {s₀ s : RootSys} {root n j : Nat}
    (h : Splitting P s₀ root n j s) (hj : j < n) (hn : n ≤ 2048) :
    ∃ s', Splitting P s₀ root n (j + 1) s' := by
  obtain ⟨S, hinv, hsplit, hnone, hroom⟩ := h.inv
  have hv : InRange (j * 0x200000) := by
    unfold InRange
    omega
  have hpn : vpn (j * 0x200000) = 512 * j := by
    unfold vpn
    omega
  have hk : vpn (j * 0x200000) / 512 = j := by omega
  have hfree : s.sys.phys.pmm.freePages ≠ 0 := by
    have hle := card_ptBelow_le (n := 2048) (by omega) hnone
    rw [card_tables] at hroom
    omega
  obtain ⟨ph, hrun, -⟩ := (vmmUnmapPageRoot_spec (hinv.vmm.owned h.live) hinv.vmm.vmm hv
    (by omega)).exists_ok (by
      rintro e (⟨h0, -⟩ | h0)
      · exact hfree h0
      · rw [leafEntry_none (by rw [hk]; exact hnone j (le_refl j))] at h0
        have hb := (small_bits (vpn (j * 0x200000))).1
        rw [h0] at hb
        cases hb)
  have hop : (PageOp.unmapRoot root (j * 0x200000)).Calls s.sys { s.sys with phys := ph } :=
    ⟨h.live, hv.1, by rw [hinv.vmm.vmm.limit]; exact hv.2, by dsimp only [PageOp.virt]; omega,
      hrun, rfl, rfl⟩
  obtain ⟨sh, val, hd, hinv'⟩ := hinv.op hop
  dsimp only [PageOp.root, PageOp.virt] at hd hinv'
  have hsum := hd.step.free_add hinv.vmm.inv
  refine ⟨_, h.run.tail (.op _ hop), h.live, _, hinv', ?_, ?_, ?_⟩
  · intro k hlt
    rw [Function.update_self]
    by_cases hkj : k = j
    · rw [hkj, ← hk]
      exact hd.split
    · rw [hd.rest k (by omega)]
      exact hsplit k (by omega)
  · intro k hle
    rw [Function.update_self, hd.rest k (by omega)]
    exact hnone k (by omega)
  · rw [Function.update_self]
    dsimp only
    omega

theorem Splitting.all {P : Pool} {s₀ s : RootSys} {root n j : Nat} (h : Splitting P s₀ root n 0 s)
    (hj : j ≤ n) (hn : n ≤ 2048) : ∃ s', Splitting P s₀ root n j s' := by
  induction j with
  | zero => exact ⟨s, h⟩
  | succ j ih =>
    obtain ⟨s', hs'⟩ := ih (by omega)
    exact hs'.next (by omega) hn

end PcoOs.Vmm
