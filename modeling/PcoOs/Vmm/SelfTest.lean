/-
  The two boot-time self-tests. Both give back every page they take, except the page table that
  `vmm_self_test` splits off below its test address; every address of the kernel root still
  translates to itself afterwards.
-/
import PcoOs.Vmm.Build

namespace PcoOs.Vmm

open PcoOs.Lib PcoOs.Pmm PcoOs.Support

/-! ## The page allocator -/

/-- Giving back the page handed out last. -/
theorem pmmFreePage_last {P : Pool} {s : PmmState} (h : PmmInv P s) {page : Nat}
    {R : Multiset Nat} (hR : outstanding s.history = R + {page}) :
    Ends (pmmFreePage s page)
      (fun t => PmmInv P t ∧ outstanding t.history = R ∧ t.freePages = s.freePages + 1)
      (fun _ => 2048 ≤ P.pages.card) := by
  have hR' : outstanding s.history = page ::ₘ R := by
    rw [hR, add_comm, Multiset.singleton_add]
  have hp : page ∈ outstanding s.history := by
    rw [hR']
    exact Multiset.mem_cons_self _ _
  refine (pmmFreePage_spec h hp).mono (fun t ht => ⟨ht.2.2, ?_, ht.2.1⟩) fun e he => ?_
  · rw [ht.1]
    exact outstanding_take_of_mem hR'
  · have := h.recycle_add_le
    have := he.2
    omega

theorem pmmSelfTest_spec {P : Pool} {s : PmmState} (h : PmmInv P s) :
    Ends (pmmSelfTest s)
      (fun t => PmmInv P t ∧ outstanding t.history = outstanding s.history ∧
        t.freePages = s.freePages)
      (fun _ => s.freePages < 3 ∨ 2048 ≤ P.pages.card) := by
  have hfff : ∀ {p : Nat}, TablePage p → p &&& 0xFFF = 0 := fun hp => by
    rw [and_fff]
    exact hp.aligned
  unfold pmmSelfTest
  rcases PmmInv.alloc_table h with ⟨hf, ha⟩ | ⟨p₀, t₀, ha, -, hf₀, hpage₀, hout₀, hist₀, h₀⟩
  · rw [ha]
    dsimp only
    rw [if_pos (Or.inl rfl)]
    exact Or.inl (by omega)
  rw [ha]
  dsimp only
  rcases PmmInv.alloc_table h₀ with ⟨hf, ha₁⟩ | ⟨p₁, t₁, ha₁, -, hf₁, hpage₁, hout₁, hist₁, h₁⟩
  · rw [ha₁]
    dsimp only
    rw [if_pos (Or.inr (Or.inl rfl))]
    exact Or.inl (by omega)
  rw [ha₁]
  dsimp only
  rcases PmmInv.alloc_table h₁ with ⟨hf, ha₂⟩ | ⟨p₂, t₂, ha₂, -, hf₂, hpage₂, hout₂, hist₂, h₂⟩
  · rw [ha₂]
    dsimp only
    rw [if_pos (Or.inr (Or.inr rfl))]
    exact Or.inl (by omega)
  rw [ha₂]
  dsimp only
  -- the three pages are distinct because each was free when the later one was handed out
  have h01 : p₀ ≠ p₁ := by
    rintro rfl
    exact hout₁ (by rw [hist₀]; exact Multiset.mem_add.mpr (Or.inr (Multiset.mem_singleton_self _)))
  have h12 : p₁ ≠ p₂ := by
    rintro rfl
    exact hout₂ (by rw [hist₁]; exact Multiset.mem_add.mpr (Or.inr (Multiset.mem_singleton_self _)))
  have h02 : p₀ ≠ p₂ := by
    rintro rfl
    refine hout₂ ?_
    rw [hist₁, hist₀]
    exact Multiset.mem_add.mpr (Or.inl (Multiset.mem_add.mpr
      (Or.inr (Multiset.mem_singleton_self _))))
  have := hpage₀.pos
  have := hpage₁.pos
  have := hpage₂.pos
  rw [if_neg (by omega), if_neg (by tauto),
    if_neg (by rw [hfff hpage₀, hfff hpage₁, hfff hpage₂]; simp)]
  refine ends_bind ((pmmFreePage_last h₂ hist₂).mono (fun _ h => h) fun _ h => Or.inr h) ?_
  rintro u₂ ⟨i₂, o₂, f₂⟩
  refine ends_bind ((pmmFreePage_last i₂ (o₂.trans hist₁)).mono (fun _ h => h)
    fun _ h => Or.inr h) ?_
  rintro u₁ ⟨i₁, o₁, f₁⟩
  refine ends_bind ((pmmFreePage_last i₁ (o₁.trans hist₀)).mono (fun _ h => h)
    fun _ h => Or.inr h) ?_
  rintro u₀ ⟨i₀, o₀, f₀⟩
  rw [if_neg (by omega)]
  exact ⟨i₀, o₀, by omega⟩

/-! ## The kernel root -/

section Kernel

variable {P : Pool} {root : Nat} {ph ph₁ ph₂ : Phys} {sh sh₁ sh₂ : Shape} {v : VmmState}
  {virt : Int}

/-- Two operations on one page leave what the second wrote. -/
theorem LeafDone.trans {a b : Nat} (h : LeafDone P root ph sh virt a ph₁ sh₁)
    (h' : LeafDone P root ph₁ sh₁ virt b ph₂ sh₂) : LeafDone P root ph sh virt b ph₂ sh₂ where
  step := h.step.trans h'.step
  split := h'.split
  rest := fun k hk => (h'.rest k hk).trans (h.rest k hk)
  leaf := fun n hn => by
    rw [h'.leaf n hn, h.leaf n hn]
    split_ifs <;> rfl

theorem LeafDone.at {a : Nat} (h : LeafDone P root ph sh virt a ph₁ sh₁) (hv : InRange virt) :
    leafEntry ph₁.mem sh₁ (vpn virt) = a := by
  rw [h.leaf _ (vpn_lt hv), if_pos rfl]

theorem vmmTranslate_leaf (hr : Realizes ph.mem root sh) (hvm : VmmOk v) (hp3 : v.p3 = sh.p3)
    (hv : InRange virt) :
    vmmTranslate v ph.mem virt = .ok (leafTarget (leafEntry ph.mem sh (vpn virt)) virt) :=
  hr.translate_inRange hv hvm.limit.ge (vmmP2Ptr_eq hr hp3 virt)

theorem expectQword_ok {msg : String} {x : Except String Nat} {want : Nat} (h : x = .ok want) :
    expectQword msg x want = .ok () := by
  unfold expectQword
  rw [h, ok_bind, if_neg (not_not.mpr rfl)]

/-- The target of a mapped page. -/
theorem leafTarget_map {phys flags : Nat} (hp : phys % 4096 = 0) (hv : virt % 4096 = 0) :
    leafTarget (phys ||| (flags &&& 0xFFF) ||| 0x001) virt = phys := by
  have hf : (flags &&& 0xFFF) ||| 0x001 < 4096 := by
    refine Nat.or_lt_two_pow (n := 12) ?_ (by norm_num)
    rw [and_fff]
    omega
  rw [Nat.or_assoc]
  have h0 : (phys ||| ((flags &&& 0xFFF) ||| 0x001)).testBit 0 = true := by
    rw [testBit_or_aligned hp (by decide), Nat.testBit_or]
    simp
  unfold leafTarget
  rw [if_pos h0, alignDown_or hp hf, hv]
  rfl

theorem vmmPageFlags_leaf (hr : Realizes ph.mem root sh) (hvm : VmmOk v) (hp3 : v.p3 = sh.p3)
    (hv : InRange virt) (hs : sh.pt (vpn virt / 512) ≠ none)
    (h0 : (leafEntry ph.mem sh (vpn virt)).testBit 0 = true) :
    vmmPageFlags v ph.mem virt = .ok (leafEntry ph.mem sh (vpn virt) &&& 0xFFF) := by
  have hi : pdptIndex virt < 4 := by
    have := vpn_lt hv
    rw [(index_eq hv).2.1]
    omega
  obtain ⟨pt, hpt⟩ := Option.ne_none_iff_exists'.mp hs
  unfold vmmPageFlags
  rw [hr.withLeaf_eq _ _ v.limit virt (vmmP2Ptr_eq hr hp3 virt),
    if_pos ⟨supports_of_inRange hv hvm.limit.ge, hi⟩, walkVpn_of_inRange hv, hpt]
  dsimp only
  rw [if_pos h0]

theorem map_ne_zero (phys flags : Nat) : phys ||| flags ||| 0x001 ≠ 0 := by
  intro h
  have := congrArg (fun e => e.testBit 0) h
  simp at this

/-- `vmm_self_test` leaves the kernel root with the leaves it had. -/
theorem vmmSelfTest_spec (h : Owned P root ph sh) (hroot : v.rootP4 = root) (hvm : VmmOk v)
    (hp3 : v.p3 = sh.p3) (hactive : v.active = 1) (hcr3 : ph.cr3 = root)
    (hid : ∀ n < 2 ^ 20, leafEntry ph.mem sh n = (n <<< 12) ||| 0x003) (magic : Nat)
    {R : Multiset Nat} (hR : outstanding ph.pmm.history = tables root sh + R) :
    Ends (vmmSelfTest magic v ph)
      (fun ph' => ∃ sh', PmmInv P ph'.pmm ∧ Realizes ph'.mem root sh' ∧ v.p3 = sh'.p3 ∧
        outstanding ph'.pmm.history = tables root sh' + R ∧ ph'.cr3 = root ∧
        (∀ k, k ≠ 192 → sh'.pt k = sh.pt k) ∧
        (∀ n < 2 ^ 20, leafEntry ph'.mem sh' n = (n <<< 12) ||| 0x003))
      (fun _ => ph.pmm.freePages < 2 ∨ 2048 ≤ P.pages.card ∨ magic ≠ 0x50434F424F4F5431) := by
  have hv : InRange 0x18000000 := ⟨by decide, by decide⟩
  have ha : (0x18000000 : Int) % 4096 = 0 := by decide
  have hn : vpn 0x18000000 = 0x18000 := by decide
  have hleaf₀ : leafEntry ph.mem sh (vpn 0x18000000) = 0x18000000 ||| (0x003 &&& 0xFFF) ||| 0x001 := by
    rw [hid _ (vpn_lt hv), hn]
    decide
  unfold vmmSelfTest
  dsimp only
  rw [if_neg (not_not.mpr hactive), if_neg (not_not.mpr (hcr3.trans hroot.symm))]
  by_cases hmagic : magic ≠ 0x50434F424F4F5431
  · rw [if_pos hmagic]
    exact Or.inr (Or.inr hmagic)
  rw [if_neg hmagic, expectQword_ok (by
    rw [vmmTranslate_leaf h.realizes hvm hp3 hv, hleaf₀, leafTarget_map (by decide) ha]), ok_bind]
  rcases PmmInv.alloc_table h.inv with ⟨hf, hal⟩ | ⟨p, t, hal, -, hfree, hpage, -, hist, ht⟩
  · rw [hal]
    dsimp only
    rw [if_pos rfl]
    exact Or.inl (by omega)
  rw [hal]
  dsimp only
  rw [if_neg hpage.pos.ne']
  have h₀ : Owned P root { ph with pmm := t } sh :=
    ⟨ht, h.realizes, h.held.trans (by rw [hist]; exact Multiset.le_add_right _ _)⟩
  -- unmap
  refine ends_bind ((vmmUnmapPage_spec h₀ hvm hp3 hv ha).mono (fun _ h => h) ?_) ?_
  · rintro _ (⟨hf, -⟩ | hz)
    · exact Or.inl (by dsimp only at hf; omega)
    · exact absurd (hz.symm.trans hleaf₀).symm (map_ne_zero _ _)
  rintro ph₁ ⟨-, sh₁, d₁⟩
  have o₁ := d₁.step.owned h₀
  have q₁ := d₁.p3_eq hp3
  have z₁ := d₁.at hv
  rw [expectQword_ok (by rw [vmmTranslate_leaf o₁.realizes hvm q₁ hv, z₁]; rfl), ok_bind]
  -- map the scratch page
  refine ends_bind ((vmmMapPage_spec o₁ hvm q₁ hv ha hpage.aligned
    (hpage.lt.trans (by norm_num))).mono (fun _ h => h) ?_) ?_
  · rintro _ (⟨-, hs⟩ | hz)
    · exact absurd hs d₁.split
    · exact absurd z₁ hz
  rintro ph₂ ⟨-, sh₂, d₂⟩
  have o₂ := d₂.step.owned o₁
  have q₂ := d₂.p3_eq q₁
  have z₂ := d₂.at hv
  rw [expectQword_ok (by
    rw [vmmTranslate_leaf o₂.realizes hvm q₂ hv, z₂, leafTarget_map hpage.aligned ha]), ok_bind]
  -- protect twice
  refine ends_bind ((vmmProtectPage_spec o₂ hvm q₂ hv ha).mono (fun _ h => h) ?_) ?_
  · rintro _ (⟨-, hs⟩ | hz)
    · exact absurd hs d₂.split
    · exact absurd (z₂.symm.trans hz) (map_ne_zero _ _)
  rintro ph₃ ⟨-, sh₃, d₃⟩
  have o₃ := d₃.step.owned o₂
  have q₃ := d₃.p3_eq q₂
  have z₃ := d₃.at hv
  have hal₃ := alignDown_mod (leafEntry ph₂.mem sh₂ (vpn 0x18000000)) (a := 4096) (by norm_num)
  have hlow : leafEntry ph₃.mem sh₃ (vpn 0x18000000) =
      alignDown (leafEntry ph₂.mem sh₂ (vpn 0x18000000)) 4096 ||| 0x001 := by
    rw [z₃, Nat.or_assoc]
    rfl
  have hbit : (leafEntry ph₃.mem sh₃ (vpn 0x18000000)).testBit 0 = true := by
    rw [hlow, testBit_or_aligned hal₃ (by decide)]
    rfl
  have hflags : leafEntry ph₃.mem sh₃ (vpn 0x18000000) &&& 0xFFF = 0x001 := by
    rw [hlow, and_fff, or_eq_add hal₃ (by norm_num)]
    omega
  rw [vmmPageFlags_leaf o₃.realizes hvm q₃ hv d₃.split hbit, ok_bind, hflags, if_neg (by decide)]
  refine ends_bind ((vmmProtectPage_spec o₃ hvm q₃ hv ha).mono (fun _ h => h) ?_) ?_
  · rintro _ (⟨-, hs⟩ | hz)
    · exact absurd hs d₃.split
    · exact absurd (z₃.symm.trans hz) (map_ne_zero _ _)
  rintro ph₄ ⟨-, sh₄, d₄⟩
  have o₄ := d₄.step.owned o₃
  have q₄ := d₄.p3_eq q₃
  have z₄ := d₄.at hv
  -- unmap and restore
  refine ends_bind ((vmmUnmapPage_spec o₄ hvm q₄ hv ha).mono (fun _ h => h) ?_) ?_
  · rintro _ (⟨-, hs⟩ | hz)
    · exact absurd hs d₄.split
    · exact absurd (z₄.symm.trans hz) (map_ne_zero _ _)
  rintro ph₅ ⟨-, sh₅, d₅⟩
  have o₅ := d₅.step.owned o₄
  have q₅ := d₅.p3_eq q₄
  have z₅ := d₅.at hv
  refine ends_bind ((vmmMapPage_spec o₅ hvm q₅ hv ha
    (show 0x18000000 % 4096 = 0 by decide) (by decide)).mono (fun _ h => h) ?_) ?_
  · rintro _ (⟨-, hs⟩ | hz)
    · exact absurd hs d₅.split
    · exact absurd z₅ hz
  rintro ph₆ ⟨-, sh₆, d₆⟩
  have o₆ := d₆.step.owned o₅
  have q₆ := d₆.p3_eq q₅
  have z₆ := d₆.at hv
  rw [expectQword_ok (by
    rw [vmmTranslate_leaf o₆.realizes hvm q₆ hv, z₆, leafTarget_map (by decide) ha]), ok_bind]
  have d := ((((d₁.trans d₂).trans d₃).trans d₄).trans d₅).trans d₆
  obtain ⟨N, hN, hT⟩ := d.step.handed
  have hout : outstanding ph₆.pmm.history = tables root sh₆ + R + {p} := by
    rw [hN, hT]
    show outstanding t.history + N = _
    rw [hist, hR]
    abel
  refine ends_bind ((pmmFreePage_last o₆.inv hout).mono (fun _ h => h)
    fun _ h => Or.inr (Or.inl h)) ?_
  rintro u ⟨hu, ho, -⟩
  refine ⟨sh₆, hu, o₆.realizes, q₆, ho, d.step.cr3.trans hcr3, fun k hk => d.rest k ?_,
    fun n hlt => ?_⟩
  · rw [hn]
    exact hk
  show leafEntry ph₆.mem sh₆ n = _
  rw [d.leaf n hlt]
  split_ifs with hc
  · rw [hc, ← hid _ (vpn_lt hv), hleaf₀]
  · exact hid n hlt

end Kernel

end PcoOs.Vmm
