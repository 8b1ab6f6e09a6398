/-
  Placing an image: the initial stack is built inside the last page, the pages are mapped into
  the user window of a root (`Mapped`), unmapped again and given back. Mapping is the only thing
  here that may take a page from the allocator, the page table of the window.
-/
import PcoOs.Image.Stack
import PcoOs.Vmm.Build

namespace PcoOs.Image

open PcoOs.Lib PcoOs.Pmm PcoOs.Support PcoOs.Vmm PcoOs.Elf

/-! ## The initial stack -/

/-- The stack builder writes inside the pages of the image and fails only when the early heap is
    used up. -/
theorem schedulerBuildUserInitialStack_spec {pages : List Nat} (hp : ∀ p ∈ pages, TablePage p)
    (h1 : 1 ≤ pages.length) (argv envp : ExecVec) (ph : Phys) {heap : Heap} (hh : HeapOk heap) :
    Ends (schedulerBuildUserInitialStack pages argv envp ph heap)
      (fun r => OnlyPages (pages : Multiset Nat) ph.mem r.2.1.mem ∧ r.2.1.pmm = ph.pmm ∧
        r.2.1.cr3 = ph.cr3 ∧ HeapOk r.2.2 ∧ HeapGrows heap r.2.2 ∧ r.2.2.ptr < heap.ptr + 160)
      (fun _ => heap.stop < heap.ptr + 160) := by
  have hne : pages ≠ [] := List.length_pos_iff.mp h1
  obtain ⟨p, hlast⟩ : ∃ p, pages.getLast? = some p := ⟨_, List.getLast?_eq_some_getLast hne⟩
  have hmem : p ∈ pages := List.mem_of_getLast? hlast
  have hroom := tablesRoom_le argv envp
  refine (schedulerBuildUserInitialStack_eq (hp p hmem) hlast argv envp ph hh).mono ?_
    fun _ he => by omega
  rintro ⟨start, ph', heap'⟩ ⟨-, rfl, hm, hptr⟩
  obtain ⟨l1, l2, l3, l4, l5, l6⟩ := layoutOk argv envp
  refine ⟨fun x hx => ?_, rfl, rfl, hm.1, hm.2, by omega⟩
  have hout := hx p hmem
  exact stackMem_of_outside (by omega) (by omega)

/-! ## Mapping the window -/

/-- The first virtual page of the user window. -/
def windowPage : Nat := 0x20000

theorem userTaskPageVirt_spec {i : Nat} (hi : i < 512) :
    InRange (userTaskPageVirt i) ∧ userTaskPageVirt i % 4096 = 0 ∧
      vpn (userTaskPageVirt i) = windowPage + i ∧ vpn (userTaskPageVirt i) / 512 = 256 := by
  unfold userTaskPageVirt userTaskRegionBase userPageSize InRange vpn windowPage
  omega

/-- A leaf that is empty or that a translation finds. -/
def LeafPlain (e : Nat) : Prop := e = 0 ∨ (e.testBit 0 = true ∧ alignDown e 4096 ≠ 0)

theorem leafPlain_zero : LeafPlain 0 := Or.inl rfl

theorem leafPlain_identity {n : Nat} (hn : 0 < n) : LeafPlain ((n <<< 12) ||| 0x003) := by
  obtain ⟨b0, -, -, ha⟩ := small_bits n
  refine Or.inr ⟨b0, ?_⟩
  rw [ha]
  omega

/-- What an operation on the window does to a root: only the directory entry of the window may
    be split, and the leaves are given by `leaf`. -/
structure WindowStep (P : Pool) (root : Nat) (ph : Phys) (sh : Shape) (leaf : Nat → Nat)
    (ph' : Phys) (sh' : Shape) : Prop where
  step : RootStep P root ph sh ph' sh'
  rest : ∀ k, k ≠ 256 → sh'.pt k = sh.pt k
  leaf : ∀ n < 2 ^ 20, leafEntry ph'.mem sh' n = leaf n

theorem WindowStep.refl {P : Pool} {root : Nat} {ph : Phys} {sh : Shape}
    (h : Owned P root ph sh) : WindowStep P root ph sh (leafEntry ph.mem sh) ph sh :=
  ⟨RootStep.refl h, fun _ _ => rfl, fun _ _ => rfl⟩

theorem WindowStep.trans {P : Pool} {root : Nat} {ph₁ ph₂ ph₃ : Phys} {sh₁ sh₂ sh₃ : Shape}
    {f g : Nat → Nat} (h : WindowStep P root ph₁ sh₁ f ph₂ sh₂)
    (h' : WindowStep P root ph₂ sh₂ g ph₃ sh₃) : WindowStep P root ph₁ sh₁ g ph₃ sh₃ :=
  ⟨h.step.trans h'.step, fun k hk => (h'.rest k hk).trans (h.rest k hk), h'.leaf⟩

theorem WindowStep.congr {P : Pool} {root : Nat} {ph ph' : Phys} {sh sh' : Shape}
    {f g : Nat → Nat} (h : WindowStep P root ph sh f ph' sh') (hfg : ∀ n < 2 ^ 20, f n = g n) :
    WindowStep P root ph sh g ph' sh' :=
  ⟨h.step, h.rest, fun n hn => (h.leaf n hn).trans (hfg n hn)⟩

theorem LeafDone.window {P : Pool} {root : Nat} {ph ph' : Phys} {sh sh' : Shape} {i val : Nat}
    (hi : i < 512) (h : LeafDone P root ph sh (userTaskPageVirt i) val ph' sh') :
    WindowStep P root ph sh (Function.update (leafEntry ph.mem sh) (windowPage + i) val) ph' sh' ∧
      sh'.pt 256 ≠ none := by
  obtain ⟨-, -, hv, hk⟩ := userTaskPageVirt_spec hi
  refine ⟨⟨h.step, fun k hne => h.rest k (by rw [hk]; exact hne), fun n hn => ?_⟩, ?_⟩
  · rw [h.leaf n hn, hv, Function.update_apply]
  · rw [← hk]
    exact h.split

/-- A path open to user mode leads to a page table: 2 MiB entries have no user bit. -/
theorem UserPath.split {m : Mem} {root k : Nat} {sh : Shape} (h : Realizes m root sh)
    (hk : k < 2048) (hu : UserPath m root sh k) : sh.pt k ≠ none := by
  intro hn
  have hp2 := hu.p2
  rw [h.large k hk hn, Nat.testBit_or, Nat.testBit_shiftLeft] at hp2
  revert hp2
  simp
  decide

section Window

variable {P : Pool} {root : Nat} {ph : Phys} {sh : Shape} {v : VmmState}

theorem unmapIfMapped_spec (h : Owned P root ph sh) (hvm : VmmOk v) {i : Nat} (hi : i < 512)
    (hl : LeafPlain (leafEntry ph.mem sh (windowPage + i))) :
    Ends (unmapIfMapped v root (userTaskPageVirt i) ph)
      (fun ph' => ∃ sh', WindowStep P root ph sh
        (Function.update (leafEntry ph.mem sh) (windowPage + i) 0) ph' sh' ∧
        (sh'.pt 256 = none → sh.pt 256 = none) ∧ (ph'.pmm.freePages = 0 ∧ sh'.pt 256 = none →
          ph.pmm.freePages = 0 ∧ sh.pt 256 = none))
      (fun _ => ph.pmm.freePages = 0 ∧ sh.pt 256 = none) := by
  obtain ⟨hin, hal, hv, hk⟩ := userTaskPageVirt_spec hi
  unfold unmapIfMapped vmmTranslateRoot
  rw [h.realizes.translate_inRange hin hvm.limit.ge (vmmRootP2Ptr_eq h.realizes _), ok_bind, hv]
  rcases hl with hz | ⟨hb, hne⟩
  · have ht : leafTarget (leafEntry ph.mem sh (windowPage + i)) (userTaskPageVirt i) = 0 := by
      rw [hz]
      rfl
    rw [ht, if_neg (by decide)]
    refine ⟨sh, (WindowStep.refl h).congr fun n _ => ?_, fun hn => hn, fun hn => hn⟩
    by_cases hnn : n = windowPage + i
    · rw [hnn, hz, Function.update_self]
    · rw [Function.update_of_ne hnn]
  · have ht : leafTarget (leafEntry ph.mem sh (windowPage + i)) (userTaskPageVirt i) ≠ 0 := by
      unfold leafTarget
      rw [if_pos hb]
      omega
    rw [if_pos ht]
    refine (vmmUnmapPageRoot_spec h hvm hin hal).mono ?_ ?_
    · rintro ph' ⟨-, sh', hd⟩
      obtain ⟨hw, hs⟩ := LeafDone.window hi hd
      exact ⟨sh', hw, fun hn => absurd hn hs, fun hn => absurd hn.2 hs⟩
    · rintro _ (hf | hz)
      · rwa [hk] at hf
      · rw [hv] at hz
        rw [hz] at hb
        simp at hb

/-- The leaves after mapping `items` from page `index` of the window on. -/
def mappedLeaf (f : Nat → Nat) (index : Nat) (items : List (Nat × Nat)) (n : Nat) : Nat :=
  if windowPage + index ≤ n ∧ n < windowPage + index + items.length then
    (items.getD (n - windowPage - index) (0, 0)).1 |||
      (items.getD (n - windowPage - index) (0, 0)).2
  else f n

theorem mappedLeaf_cons (f : Nat → Nat) (index : Nat) (a : Nat × Nat) (rest : List (Nat × Nat))
    (n : Nat) : mappedLeaf f index (a :: rest) n =
      mappedLeaf (Function.update f (windowPage + index) (a.1 ||| a.2)) (index + 1) rest n := by
  unfold mappedLeaf
  rw [List.length_cons]
  by_cases h : n = windowPage + index
  · subst h
    rw [if_pos (by omega), if_neg (by omega), Function.update_self,
      show windowPage + index - windowPage - index = 0 by omega]
    rfl
  · rw [Function.update_of_ne h]
    by_cases hin : windowPage + index ≤ n ∧ n < windowPage + index + (rest.length + 1)
    · rw [if_pos hin, if_pos (by omega),
        show n - windowPage - index = n - windowPage - (index + 1) + 1 by omega,
        List.getD_cons_succ]
    · rw [if_neg hin, if_neg (by omega)]

/-- Mapping writes the leaves of the window and opens the path to them. -/
theorem mapUserPages_spec (hvm : VmmOk v) (items : List (Nat × Nat)) (index : Nat)
    (hi : index + items.length ≤ 512)
    (hitems : ∀ a ∈ items, TablePage a.1 ∧ (a.2 = 5 ∨ a.2 = 7)) (h : Owned P root ph sh)
    (hl : ∀ i, index ≤ i → i < index + items.length →
      LeafPlain (leafEntry ph.mem sh (windowPage + i))) :
    Ends (mapUserPages v root index items ph)
      (fun ph' => ∃ sh', WindowStep P root ph sh (mappedLeaf (leafEntry ph.mem sh) index items)
        ph' sh' ∧ (items ≠ [] → UserPath ph'.mem root sh' 256))
      (fun _ => ph.pmm.freePages = 0 ∧ sh.pt 256 = none) := by
  induction items generalizing index ph sh with
  | nil =>
    refine ⟨sh, (WindowStep.refl h).congr fun n _ => ?_, fun hc => absurd rfl hc⟩
    unfold mappedLeaf
    rw [if_neg (by rw [List.length_nil]; omega)]
  | cons a rest ih =>
    obtain ⟨phys, flags⟩ := a
    rw [List.length_cons] at hi hl
    obtain ⟨hpage, hflags⟩ := hitems _ (List.mem_cons_self ..)
    dsimp only at hpage hflags
    obtain ⟨hin, hal, hv, hk⟩ := userTaskPageVirt_spec (i := index) (by omega)
    unfold mapUserPages
    refine ends_bind (unmapIfMapped_spec h hvm (by omega) (hl index (le_refl _) (by omega))) ?_
    rintro ph₁ ⟨sh₁, hw₁, -, hfull₁⟩
    have ho₁ := hw₁.step.owned h
    have hlt := hpage.lt
    refine ends_bind ((vmmMapPageRoot_spec ho₁ hvm hin hal hpage.aligned (by omega)).mono
      (fun _ h => h) ?_) ?_
    · rintro _ (hf | hz)
      · rw [hk] at hf
        exact hfull₁ hf
      · rw [hw₁.leaf _ (vpn_lt hin), hv, Function.update_self] at hz
        exact absurd rfl hz
    rintro ph₂ ⟨-, sh₂, hd, hu⟩
    -- both flag values are below 4096 and have the present and the user bit
    have hval : phys ||| (flags &&& 0xFFF) ||| 0x001 = phys ||| flags := by
      rcases hflags with rfl | rfl <;> rw [Nat.or_assoc] <;> rfl
    rw [hval] at hd
    rw [hk] at hu
    obtain ⟨hw₂, hs₂⟩ := LeafDone.window (by omega) hd
    have hw := hw₁.trans hw₂
    have hu₂ := hu (by rcases hflags with rfl | rfl <;> decide)
    have hleaf : ∀ n < 2 ^ 20, leafEntry ph₂.mem sh₂ n =
        Function.update (leafEntry ph.mem sh) (windowPage + index) (phys ||| flags) n := by
      intro n hn
      rw [hw.leaf n hn]
      by_cases hne : n = windowPage + index
      · rw [hne, Function.update_self, Function.update_self]
      · rw [Function.update_of_ne hne, Function.update_of_ne hne, hw₁.leaf n hn,
          Function.update_of_ne hne]
    refine (ih _ (by omega) (fun b hb => hitems b (List.mem_cons_of_mem _ hb)) (hw.step.owned h)
      (fun i h1 h2 => ?_)).mono ?_ fun _ he => absurd he.2 hs₂
    · have hb : windowPage + i < 2 ^ 20 := by
        unfold windowPage
        omega
      rw [hleaf _ hb, Function.update_of_ne (by omega)]
      exact hl i (by omega) (by omega)
    · rintro ph₃ ⟨sh₃, hw₃, -⟩
      refine ⟨sh₃, (hw.trans hw₃).congr fun n hn => ?_, fun _ => hw₃.step.user _ (by omega) hu₂⟩
      rw [mappedLeaf_cons]
      unfold mappedLeaf
      exact if_congr Iff.rfl rfl (hleaf n hn)

/-- Unmapping `n` mapped pages from the start of the window clears their leaves. -/
theorem schedulerUnmapUserImagePages_spec (h : Owned P root ph sh) (hvm : VmmOk v) {n : Nat}
    (hn : n ≤ 512) (hs : sh.pt 256 ≠ none)
    (hl : ∀ i < n, leafEntry ph.mem sh (windowPage + i) ≠ 0) :
    ∃ ph' sh', schedulerUnmapUserImagePages v root userTaskRegionBase n ph = .ok ph' ∧
      WindowStep P root ph sh (fun x => if windowPage ≤ x ∧ x < windowPage + n then 0
        else leafEntry ph.mem sh x) ph' sh' := by
  unfold schedulerUnmapUserImagePages
  obtain ⟨ph', he, sh', hw, -⟩ := loop_eq_ok
    (f := fun i ph => vmmUnmapPageRoot v root ph (userTaskRegionBase + i * userPageSize))
    (fun j ph' => ∃ sh', WindowStep P root ph sh
      (fun x => if windowPage ≤ x ∧ x < windowPage + j then 0 else leafEntry ph.mem sh x) ph' sh' ∧
      sh'.pt 256 ≠ none)
    (i := 0) (n := n) (s := ph)
    ⟨sh, (WindowStep.refl h).congr fun x _ => by rw [if_neg (by omega)], hs⟩ (by
      rintro j ph₁ - hj ⟨sh₁, hw₁, hs₁⟩
      obtain ⟨hin, hal, hv, hk⟩ := userTaskPageVirt_spec (i := j) (by omega)
      have hb := vpn_lt hin
      have hleaf : leafEntry ph₁.mem sh₁ (vpn (userTaskPageVirt j)) ≠ 0 := by
        rw [hw₁.leaf _ hb, hv, if_neg (by omega)]
        exact hl j (by omega)
      obtain ⟨ph₂, he, -, sh₂, hd⟩ := (vmmUnmapPageRoot_spec (hw₁.step.owned h) hvm hin hal).exists_ok
        (by
          rintro _ (hf | hz)
          · rw [hk] at hf
            exact hs₁ hf.2
          · exact hleaf hz)
      obtain ⟨hw₂, hs₂⟩ := LeafDone.window (by omega) hd
      refine ⟨ph₂, he, sh₂, (hw₁.trans hw₂).congr fun x hx => ?_, hs₂⟩
      by_cases hne : x = windowPage + j
      · rw [hne, Function.update_self, if_pos (by omega)]
      · rw [Function.update_of_ne hne, hw₁.leaf x hx]
        exact if_congr (by omega) rfl rfl)
  rw [Nat.zero_add] at hw
  exact ⟨ph', sh', he, hw⟩

/-- Giving back the pages of an array that is handed out. -/
theorem schedulerReleaseUserPages_freed {s : PmmState} (hs : PmmInv P s) {pages : List Nat}
    (hle : (pages : Multiset Nat) ≤ outstanding s.history) :
    Ends (schedulerReleaseUserPages pages s) (Freed P s pages) (Full s pages) := by
  induction pages generalizing s with
  | nil => exact Freed.refl hs
  | cons p rest ih =>
    rw [← Multiset.cons_coe, ← Multiset.singleton_add] at hle ⊢
    have hp : {p} ≤ outstanding s.history := (Multiset.le_add_right _ _).trans hle
    have hlow := P.low p (hs.mem_pages (Multiset.singleton_le.mp hp))
    unfold schedulerReleaseUserPages
    rw [if_pos (by omega)]
    refine ends_bind ((pmmFreePage_freed hs hp).mono (fun _ h => h)
      fun _ he => he.mono (Multiset.le_add_right _ _)) fun t ht => ?_
    exact ht.step (ih ht.inv (ht.rest hle)) (le_refl _)

theorem schedulerReleaseUserPages_spec {s : PmmState} (hs : PmmInv P s) {pages : List Nat}
    {R : Multiset Nat} (hR : outstanding s.history = (pages : Multiset Nat) + R) :
    Ends (schedulerReleaseUserPages pages s)
      (fun t => PmmInv P t ∧ outstanding t.history = R)
      (fun e => e = "pmm recycle stack full") := by
  have hle : (pages : Multiset Nat) ≤ outstanding s.history := by
    rw [hR]
    exact Multiset.le_add_right _ _
  refine (schedulerReleaseUserPages_freed hs hle).mono (fun t ht => ⟨ht.inv, ?_⟩) fun _ he => he.1
  have hout := ht.out
  rw [hR] at hout
  exact (add_left_cancel hout).symm

end Window

end PcoOs.Image
