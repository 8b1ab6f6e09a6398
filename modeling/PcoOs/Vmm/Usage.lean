/-
  The page-table code's use of the allocator. The `_allocs` lemmas count what a function allocates
  when it returns, the `_avoids` lemmas say that a function which frees nothing does not panic with
  a full recycle stack. Neither needs an invariant.
-/
import PcoOs.Pmm.Usage
import PcoOs.Vmm.Model

namespace PcoOs.Vmm

open PcoOs.Lib PcoOs.Pmm PcoOs.Support

/-! ## Allocations -/

theorem addIdentityP2_allocs {msg : String} {p3 i : Nat} {ph ph' : Phys}
    (h : addIdentityP2 msg p3 i ph = .ok ph') : Allocs 1 ph.pmm ph'.pmm := by
  unfold addIdentityP2 at h
  dsimp only at h
  split_ifs at h
  obtain ⟨m₁, -, h⟩ := bind_eq_ok.mp h
  obtain ⟨m₂, -, h⟩ := bind_eq_ok.mp h
  obtain ⟨m₃, -, h⟩ := bind_eq_ok.mp h
  cases h
  exact Allocs.one ph.pmm

theorem addIdentityP2s_allocs {msg : String} {p3 n : Nat} {ph ph' : Phys}
    (h : loop (addIdentityP2 msg p3) 0 n ph = .ok ph') : Allocs n ph.pmm ph'.pmm := by
  have hloop := ends_loop (E := fun _ => True) (f := addIdentityP2 msg p3) (i := 0) (n := n)
    (fun i t => Allocs i ph.pmm t.pmm) (Allocs.refl 0 _) fun j t _ _ ht =>
      ends_iff_ok.mpr fun u hu => ht.trans (addIdentityP2_allocs hu)
  rw [Nat.zero_add] at hloop
  exact hloop.of_ok h

theorem buildIdentityRoot_allocs {msg msg' : String} {n : Nat} {ph : Phys}
    {r : Nat × Nat × Phys} (h : buildIdentityRoot msg msg' n ph = .ok r) :
    Allocs (2 + n) ph.pmm r.2.2.pmm := by
  have ha : Allocs 2 ph.pmm (pmmAllocPage (pmmAllocPage ph.pmm).2).2 := (Allocs.one ph.pmm).alloc
  unfold buildIdentityRoot at h
  dsimp only at h
  split_ifs at h
  obtain ⟨m₁, -, h⟩ := bind_eq_ok.mp h
  obtain ⟨m₂, -, h⟩ := bind_eq_ok.mp h
  obtain ⟨m₃, -, h⟩ := bind_eq_ok.mp h
  obtain ⟨ph', hl, h⟩ := bind_eq_ok.mp h
  cases h
  exact ha.trans (addIdentityP2s_allocs hl)

theorem vmmCreateTaskAddressSpace_allocs {v : VmmState} {ph : Phys} {r : Nat × Phys}
    (h : vmmCreateTaskAddressSpace v ph = .ok r) : Allocs (2 + v.p2Count) ph.pmm r.2.pmm := by
  unfold vmmCreateTaskAddressSpace at h
  obtain ⟨r', hr, h⟩ := bind_eq_ok.mp h
  cases h
  exact buildIdentityRoot_allocs hr

theorem initVmm_allocs {magic : Nat} {ph : Phys} {r : VmmState × Phys}
    (h : initVmm magic ph = .ok r) : Allocs 6 ph.pmm r.2.pmm := by
  unfold initVmm at h
  obtain ⟨r', hr, h⟩ := bind_eq_ok.mp h
  split_ifs at h
  cases h
  exact buildIdentityRoot_allocs hr

theorem splitLargePage_allocs {m₁ m₂ m₃ : String} {limit virt : Int} {p2Ptr : Except String Nat}
    {ph : Phys} {r : Nat × Phys} (h : splitLargePage m₁ m₂ m₃ limit p2Ptr ph virt = .ok r) :
    Allocs 1 ph.pmm r.2.pmm := by
  unfold splitLargePage at h
  split_ifs at h
  obtain ⟨p2, -, h⟩ := bind_eq_ok.mp h
  obtain ⟨e, -, h⟩ := bind_eq_ok.mp h
  split_ifs at h
  · cases h
    exact Allocs.refl _ _
  · dsimp only at h
    split_ifs at h
    obtain ⟨q₁, -, h⟩ := bind_eq_ok.mp h
    obtain ⟨q₂, -, h⟩ := bind_eq_ok.mp h
    obtain ⟨q₃, -, h⟩ := bind_eq_ok.mp h
    cases h
    exact Allocs.one ph.pmm

section Operations

variable {v : VmmState} {root : Nat} {ph ph' : Phys} {virt : Int} {phys flags : Nat}

theorem unmapPage_allocs {m₁ m₂ : String} {split : Except String (Nat × Phys)}
    (hs : ∀ r, split = .ok r → Allocs 1 ph.pmm r.2.pmm)
    (h : unmapPage m₁ m₂ split virt = .ok ph') : Allocs 1 ph.pmm ph'.pmm := by
  unfold unmapPage at h
  split_ifs at h
  obtain ⟨r, hr, h⟩ := bind_eq_ok.mp h
  obtain ⟨old, -, h⟩ := bind_eq_ok.mp h
  split_ifs at h
  obtain ⟨m, -, h⟩ := bind_eq_ok.mp h
  cases h
  exact hs r hr

theorem vmmUnmapPage_allocs (h : vmmUnmapPage v ph virt = .ok ph') :
    Allocs 1 ph.pmm ph'.pmm := unmapPage_allocs (fun _ hr => splitLargePage_allocs hr) h

theorem vmmUnmapPageRoot_allocs (h : vmmUnmapPageRoot v root ph virt = .ok ph') :
    Allocs 1 ph.pmm ph'.pmm := unmapPage_allocs (fun _ hr => splitLargePage_allocs hr) h

theorem vmmMapPage_allocs (h : vmmMapPage v ph virt phys flags = .ok ph') :
    Allocs 1 ph.pmm ph'.pmm := by
  unfold vmmMapPage at h
  split_ifs at h
  obtain ⟨r, hr, h⟩ := bind_eq_ok.mp h
  obtain ⟨old, -, h⟩ := bind_eq_ok.mp h
  split_ifs at h
  obtain ⟨m, -, h⟩ := bind_eq_ok.mp h
  cases h
  exact splitLargePage_allocs hr

theorem vmmProtectPage_allocs (h : vmmProtectPage v ph virt flags = .ok ph') :
    Allocs 1 ph.pmm ph'.pmm := by
  unfold vmmProtectPage at h
  split_ifs at h
  obtain ⟨r, hr, h⟩ := bind_eq_ok.mp h
  obtain ⟨old, -, h⟩ := bind_eq_ok.mp h
  split_ifs at h
  obtain ⟨m, -, h⟩ := bind_eq_ok.mp h
  cases h
  exact splitLargePage_allocs hr

theorem vmmMapPageRoot_allocs (h : vmmMapPageRoot v root ph virt phys flags = .ok ph') :
    Allocs 1 ph.pmm ph'.pmm := by
  unfold vmmMapPageRoot at h
  split_ifs at h
  obtain ⟨r, hr, h⟩ := bind_eq_ok.mp h
  obtain ⟨m, -, h⟩ := bind_eq_ok.mp h
  obtain ⟨old, -, h⟩ := bind_eq_ok.mp h
  split_ifs at h
  obtain ⟨m', -, h⟩ := bind_eq_ok.mp h
  cases h
  exact splitLargePage_allocs hr

end Operations

/-! ## No full recycle stack without frees -/

/-- The panic of `pmm_free_page`. -/
abbrev recycleFull : String := "pmm recycle stack full"

@[simp] theorem checkQwordRegion_avoids (base : Nat) (count slot : Int) :
    Avoids recycleFull (checkQwordRegion base count slot) := by
  simp [checkQwordRegion, recycleFull]

@[simp] theorem loadQwordRegion_avoids (m : Mem) (base : Nat) (count slot : Int) :
    Avoids recycleFull (loadQwordRegion m base count slot) := by
  simp [loadQwordRegion]

@[simp] theorem storeQwordRegion_avoids (m : Mem) (base : Nat) (count slot : Int) (value : Nat) :
    Avoids recycleFull (storeQwordRegion m base count slot value) := by
  simp [storeQwordRegion]

@[simp] theorem checkByteRegion_avoids (base : Nat) (count offset : Int) :
    Avoids recycleFull (checkByteRegion base count offset) := by
  simp [checkByteRegion, recycleFull]

@[simp] theorem storeByteRegion_avoids (m : Mem) (base : Nat) (count offset : Int) (b : UInt8) :
    Avoids recycleFull (storeByteRegion m base count offset b) := by
  simp [storeByteRegion]

@[simp] theorem pageTableQword_avoids (m : Mem) (table slot : Nat) :
    Avoids recycleFull (pageTableQword m table slot) := loadQwordRegion_avoids _ _ _ _

@[simp] theorem setPageTableQword_avoids (m : Mem) (table slot value : Nat) :
    Avoids recycleFull (setPageTableQword m table slot value) := storeQwordRegion_avoids _ _ _ _ _

@[simp] theorem fillPageTable_avoids (table : Nat) (f : Nat → Nat) (m : Mem) :
    Avoids recycleFull (fillPageTable table f m) :=
  avoids_loop (fun _ _ => setPageTableQword_avoids _ _ _ _) _ _ _

@[simp] theorem zeroPage_avoids (page : Nat) (m : Mem) : Avoids recycleFull (zeroPage page m) :=
  fillPageTable_avoids _ _ _

theorem addIdentityP2_avoids {msg : String} (hm : msg ≠ recycleFull) (p3 i : Nat) (ph : Phys) :
    Avoids recycleFull (addIdentityP2 msg p3 i ph) := by
  simp [addIdentityP2, hm]

theorem buildIdentityRoot_avoids {msg msg' : String} (hm : msg ≠ recycleFull)
    (hm' : msg' ≠ recycleFull) (n : Nat) (ph : Phys) :
    Avoids recycleFull (buildIdentityRoot msg msg' n ph) := by
  simp [buildIdentityRoot, hm, avoids_loop (addIdentityP2_avoids hm' _)]

@[simp] theorem vmmCreateTaskAddressSpace_avoids (v : VmmState) (ph : Phys) :
    Avoids recycleFull (vmmCreateTaskAddressSpace v ph) := by
  simp [vmmCreateTaskAddressSpace, buildIdentityRoot_avoids, recycleFull]

@[simp] theorem initVmm_avoids (magic : Nat) (ph : Phys) : Avoids recycleFull (initVmm magic ph) := by
  simp [initVmm, buildIdentityRoot_avoids, recycleFull]

@[simp] theorem vmmRootP3Ptr_avoids (m : Mem) (root : Nat) :
    Avoids recycleFull (vmmRootP3Ptr m root) := by
  simp [vmmRootP3Ptr, recycleFull]

@[simp] theorem p2Below_avoids (m : Mem) (p3 : Nat) (virt : Int) :
    Avoids recycleFull (p2Below m p3 virt) := by
  simp [p2Below]

@[simp] theorem vmmRootP2Ptr_avoids (m : Mem) (root : Nat) (virt : Int) :
    Avoids recycleFull (vmmRootP2Ptr m root virt) := by
  simp [vmmRootP2Ptr]

theorem withLeaf_avoids {p2Ptr : Except String Nat} (hp : Avoids recycleFull p2Ptr)
    (large small : Nat → Nat) (limit : Int) (m : Mem) (virt : Int) :
    Avoids recycleFull (withLeaf large small limit p2Ptr m virt) := by
  simp [withLeaf, hp]

theorem splitLargePage_avoids {m₁ m₂ m₃ : String} (h₁ : m₁ ≠ recycleFull) (h₂ : m₂ ≠ recycleFull)
    (h₃ : m₃ ≠ recycleFull) {p2Ptr : Except String Nat} (hp : Avoids recycleFull p2Ptr)
    (limit : Int) (ph : Phys) (virt : Int) :
    Avoids recycleFull (splitLargePage m₁ m₂ m₃ limit p2Ptr ph virt) := by
  simp [splitLargePage, hp, h₁, h₂, h₃]

@[simp] theorem vmmSplitLargePage_avoids (v : VmmState) (ph : Phys) (virt : Int) :
    Avoids recycleFull (vmmSplitLargePage v ph virt) :=
  splitLargePage_avoids (by decide) (by decide) (by decide) (p2Below_avoids _ _ _) _ _ _

@[simp] theorem vmmRootSplitLargePage_avoids (root : Nat) (limit : Int) (ph : Phys) (virt : Int) :
    Avoids recycleFull (vmmRootSplitLargePage root limit ph virt) :=
  splitLargePage_avoids (by decide) (by decide) (by decide) (vmmRootP2Ptr_avoids _ _ _) _ _ _

theorem unmapPage_avoids {m₁ m₂ : String} (h₁ : m₁ ≠ recycleFull) (h₂ : m₂ ≠ recycleFull)
    {split : Except String (Nat × Phys)} (hs : Avoids recycleFull split) (virt : Int) :
    Avoids recycleFull (unmapPage m₁ m₂ split virt) := by
  simp [unmapPage, hs, h₁, h₂]

@[simp] theorem vmmUnmapPage_avoids (v : VmmState) (ph : Phys) (virt : Int) :
    Avoids recycleFull (vmmUnmapPage v ph virt) :=
  unmapPage_avoids (by decide) (by decide) (vmmSplitLargePage_avoids _ _ _) _

@[simp] theorem vmmUnmapPageRoot_avoids (v : VmmState) (root : Nat) (ph : Phys) (virt : Int) :
    Avoids recycleFull (vmmUnmapPageRoot v root ph virt) :=
  unmapPage_avoids (by decide) (by decide) (vmmRootSplitLargePage_avoids _ _ _ _) _

@[simp] theorem vmmMapPage_avoids (v : VmmState) (ph : Phys) (virt : Int) (phys flags : Nat) :
    Avoids recycleFull (vmmMapPage v ph virt phys flags) := by
  simp [vmmMapPage, recycleFull]

@[simp] theorem vmmProtectPage_avoids (v : VmmState) (ph : Phys) (virt : Int) (flags : Nat) :
    Avoids recycleFull (vmmProtectPage v ph virt flags) := by
  simp [vmmProtectPage, recycleFull]

@[simp] theorem openUserPath_avoids (flags : Nat) (m : Mem) (root : Nat) (virt : Int) :
    Avoids recycleFull (openUserPath flags m root virt) := by
  simp [openUserPath, setUserPath, setUserBit]

@[simp] theorem vmmMapPageRoot_avoids (v : VmmState) (root : Nat) (ph : Phys) (virt : Int)
    (phys flags : Nat) : Avoids recycleFull (vmmMapPageRoot v root ph virt phys flags) := by
  simp [vmmMapPageRoot, recycleFull]

@[simp] theorem vmmTranslate_avoids (v : VmmState) (m : Mem) (virt : Int) :
    Avoids recycleFull (vmmTranslate v m virt) :=
  withLeaf_avoids (p2Below_avoids _ _ _) _ _ _ _ _

@[simp] theorem vmmTranslateRoot_avoids (v : VmmState) (m : Mem) (root : Nat) (virt : Int) :
    Avoids recycleFull (vmmTranslateRoot v m root virt) :=
  withLeaf_avoids (vmmRootP2Ptr_avoids _ _ _) _ _ _ _ _

/-! ## Frees -/

theorem freePtOf_uses {m : Mem} {p2 i : Nat} {s t : PmmState} (h : freePtOf m p2 i s = .ok t) :
    Uses 0 s t := by
  unfold freePtOf at h
  obtain ⟨e, -, h⟩ := bind_eq_ok.mp h
  split_ifs at h
  · exact Uses.one_free h
  · cases h
    exact Uses.refl 0 _

/-- A loop that only frees. -/
theorem loop_uses {f : Nat → PmmState → Except String PmmState}
    (hf : ∀ i s t, f i s = .ok t → Uses 0 s t) {i n : Nat} {s t : PmmState}
    (h : loop f i n s = .ok t) : Uses 0 s t :=
  (ends_loop (E := fun _ => True) (f := f) (i := i) (n := n) (fun _ u => Uses 0 s u)
    (Uses.refl 0 s) fun j u _ _ hu => ends_iff_ok.mpr fun w hw => hu.trans (hf j u w hw)).of_ok h

theorem freeP2Of_uses {m : Mem} {p3 i : Nat} {s t : PmmState} (h : freeP2Of m p3 i s = .ok t) :
    Uses 0 s t := by
  unfold freeP2Of at h
  obtain ⟨e, -, h⟩ := bind_eq_ok.mp h
  split_ifs at h
  · obtain ⟨u, hu, h⟩ := bind_eq_ok.mp h
    exact (loop_uses (fun _ _ _ => freePtOf_uses) hu).trans (Uses.one_free h)
  · cases h
    exact Uses.refl 0 _

theorem vmmFreeClonedAddressSpace_uses {v : VmmState} {ph ph' : Phys} {root : Nat}
    (h : vmmFreeClonedAddressSpace v ph root = .ok ph') : Uses 0 ph.pmm ph'.pmm := by
  unfold vmmFreeClonedAddressSpace at h
  obtain ⟨p3, -, h⟩ := bind_eq_ok.mp h
  obtain ⟨s₁, h₁, h⟩ := bind_eq_ok.mp h
  obtain ⟨s₂, h₂, h⟩ := bind_eq_ok.mp h
  obtain ⟨s₃, h₃, h⟩ := bind_eq_ok.mp h
  cases h
  exact ((loop_uses (fun _ _ _ => freeP2Of_uses) h₁).free h₂).free h₃

/-! ## The boot-time self-tests -/

theorem pmmFreePage_avoids {s : PmmState} (h : s.recycleCount < 2048) (page : Nat) :
    Avoids recycleFull (pmmFreePage s page) := by
  simp [pmmFreePage, recycleFull, h]

theorem pmmSelfTest_uses {s t : PmmState} (h : pmmSelfTest s = .ok t) : Uses 3 s t := by
  unfold pmmSelfTest at h
  dsimp only at h
  split_ifs at h
  obtain ⟨t₁, h₁, h⟩ := bind_eq_ok.mp h
  obtain ⟨t₂, h₂, h⟩ := bind_eq_ok.mp h
  obtain ⟨t₃, h₃, h⟩ := bind_eq_ok.mp h
  split_ifs at h
  cases h
  exact ((((Allocs.one s).alloc.alloc.uses).free h₁).free h₂).free h₃

theorem pmmSelfTest_avoids {s : PmmState} (h : s.recycleCount = 0) :
    Avoids recycleFull (pmmSelfTest s) := by
  have h₀ := Allocs.recycle_le (Allocs.one s).alloc.alloc
  unfold pmmSelfTest
  simp only [avoids_ite, avoids_error, avoids_bind, avoids_ok]
  refine ⟨fun _ => by decide, fun _ => ⟨fun _ => by decide, fun _ => ⟨fun _ => by decide, fun _ =>
    ⟨pmmFreePage_avoids (by omega) _, fun t₁ h₁ => ?_⟩⟩⟩⟩
  have hc₁ := (pmmFreePage_history h₁).2
  refine ⟨pmmFreePage_avoids (by omega) _, fun t₂ h₂ => ?_⟩
  have hc₂ := (pmmFreePage_history h₂).2
  exact ⟨pmmFreePage_avoids (by omega) _, fun _ _ => ⟨fun _ => by decide, fun _ => trivial⟩⟩

theorem expectQword_avoids {msg : String} (hm : msg ≠ recycleFull) {x : Except String Nat}
    (hx : Avoids recycleFull x) (want : Nat) : Avoids recycleFull (expectQword msg x want) := by
  simp [expectQword, hx, hm]

/-- What `vmm_self_test` does to its test page allocates, until the scratch page goes back. -/
theorem vmmSelfTest_uses {magic : Nat} {v : VmmState} {ph ph' : Phys}
    (h : vmmSelfTest magic v ph = .ok ph') : Uses 7 ph.pmm ph'.pmm := by
  unfold vmmSelfTest at h
  dsimp only at h
  split_ifs at h
  all_goals obtain ⟨_, -, h⟩ := bind_eq_ok.mp h
  · cases h
  obtain ⟨p₁, h₁, h⟩ := bind_eq_ok.mp h
  obtain ⟨_, -, h⟩ := bind_eq_ok.mp h
  obtain ⟨p₂, h₂, h⟩ := bind_eq_ok.mp h
  obtain ⟨_, -, h⟩ := bind_eq_ok.mp h
  obtain ⟨p₃, h₃, h⟩ := bind_eq_ok.mp h
  obtain ⟨_, -, h⟩ := bind_eq_ok.mp h
  split_ifs at h
  obtain ⟨p₄, h₄, h⟩ := bind_eq_ok.mp h
  obtain ⟨p₅, h₅, h⟩ := bind_eq_ok.mp h
  obtain ⟨p₆, h₆, h⟩ := bind_eq_ok.mp h
  obtain ⟨_, -, h⟩ := bind_eq_ok.mp h
  obtain ⟨t, ht, h⟩ := bind_eq_ok.mp h
  cases h
  have hu : Allocs 1 (pmmAllocPage ph.pmm).2 p₁.pmm := vmmUnmapPage_allocs h₁
  have ha := ((((((Allocs.one ph.pmm).trans hu).trans (vmmMapPage_allocs h₂)).trans
    (vmmProtectPage_allocs h₃)).trans (vmmProtectPage_allocs h₄)).trans
    (vmmUnmapPage_allocs h₅)).trans (vmmMapPage_allocs h₆)
  exact ha.uses.free ht

theorem vmmSelfTest_avoids {magic : Nat} {v : VmmState} {ph : Phys}
    (h : ph.pmm.recycleCount < 2048) : Avoids recycleFull (vmmSelfTest magic v ph) := by
  have h₀ : (pmmAllocPage ph.pmm).2.recycleCount ≤ ph.pmm.recycleCount :=
    pmmAllocPage_recycle_le _
  have hcheck : ∀ {msg : String} {m : Mem} {virt : Int} {want : Nat}, msg ≠ recycleFull →
      Avoids recycleFull (expectQword msg (vmmTranslate v m virt) want) := fun hm =>
    expectQword_avoids hm (vmmTranslate_avoids _ _ _) _
  unfold vmmSelfTest
  simp only [avoids_ite, avoids_error, avoids_bind, avoids_ok]
  refine ⟨fun _ => by decide, fun _ => ⟨fun _ => by decide, fun _ => ⟨fun _ => by decide, fun _ =>
    ⟨hcheck (by decide), fun _ _ => ⟨fun _ => by decide, fun _ => ?_⟩⟩⟩⟩⟩
  refine ⟨vmmUnmapPage_avoids _ _ _, fun p₁ h₁ => ⟨hcheck (by decide), fun _ _ => ?_⟩⟩
  refine ⟨vmmMapPage_avoids _ _ _ _ _, fun p₂ h₂ => ⟨hcheck (by decide), fun _ _ => ?_⟩⟩
  refine ⟨vmmProtectPage_avoids _ _ _ _, fun p₃ h₃ => ⟨
    withLeaf_avoids (p2Below_avoids _ _ _) _ _ _ _ _, fun _ _ => ⟨fun _ => by decide, fun _ => ?_⟩⟩⟩
  refine ⟨vmmProtectPage_avoids _ _ _ _, fun p₄ h₄ => ⟨vmmUnmapPage_avoids _ _ _, fun p₅ h₅ => ?_⟩⟩
  refine ⟨vmmMapPage_avoids _ _ _ _ _, fun p₆ h₆ => ⟨hcheck (by decide), fun _ _ => ?_⟩⟩
  have hu : Allocs 1 (pmmAllocPage ph.pmm).2 p₁.pmm := vmmUnmapPage_allocs h₁
  have ha := (((((hu.trans (vmmMapPage_allocs h₂)).trans (vmmProtectPage_allocs h₃)).trans
    (vmmProtectPage_allocs h₄)).trans (vmmUnmapPage_allocs h₅)).trans
    (vmmMapPage_allocs h₆)).recycle_le
  exact ⟨pmmFreePage_avoids (by omega) _, fun _ _ => trivial⟩

end PcoOs.Vmm
