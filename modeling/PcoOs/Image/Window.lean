/-
  The root of a user task. `BareRoot` is a root with nothing mapped in the user window,
  `UserRoot` one with the pages of an image there; both map everything else at its own address.
  A new root is bare, mapping an image makes it a user root, unmapping makes it bare again.

  `installTask_spec` and `replaceImage_spec` put this together for spawn and exec: which pages
  are handed out afterwards, and that nothing else that was handed out is written.
-/
import PcoOs.Image.Map

namespace PcoOs.Image

open PcoOs.Lib PcoOs.Pmm PcoOs.Support PcoOs.Vmm PcoOs.Elf

/-! ## Bare roots and user roots -/

/-- The entry that maps page `n` at its own address. -/
def identityLeaf (n : Nat) : Nat := (n <<< 12) ||| 0x003

/-- A root whose window holds no image. -/
structure BareRoot (m : Mem) (root : Nat) (sh : Shape) : Prop where
  realizes : Realizes m root sh
  rest : ∀ k, k ≠ 256 → sh.pt k = none
  outside : ∀ n < 2 ^ 20, n < windowPage ∨ windowPage + 69 ≤ n → leafEntry m sh n = identityLeaf n
  inside : ∀ n, windowPage ≤ n → n < windowPage + 69 →
    leafEntry m sh n = 0 ∨ leafEntry m sh n = identityLeaf n

/-- A root with `pages` mapped from the start of the window, page `i` with flags `flag i`. -/
structure UserRoot (m : Mem) (root : Nat) (sh : Shape) (pages : List Nat) (flag : Nat → Nat) :
    Prop where
  realizes : Realizes m root sh
  rest : ∀ k, k ≠ 256 → sh.pt k = none
  user : UserPath m root sh 256
  window : ∀ i < pages.length, leafEntry m sh (windowPage + i) = pages.getD i 0 ||| flag i
  outside : ∀ n < 2 ^ 20, n < windowPage ∨ windowPage + 69 ≤ n → leafEntry m sh n = identityLeaf n
  between : ∀ n, windowPage + pages.length ≤ n → n < windowPage + 69 →
    leafEntry m sh n = 0 ∨ leafEntry m sh n = identityLeaf n

theorem UserRoot.frame {m m' : Mem} {root : Nat} {sh : Shape} {pages : List Nat}
    {flag : Nat → Nat} (h : UserRoot m root sh pages flag) (hc : pages.length ≤ 69)
    (hs : ∀ p ∈ tables root sh, SamePage m m' p) : UserRoot m' root sh pages flag := by
  have hleaf : ∀ n < 2 ^ 20, leafEntry m' sh n = leafEntry m sh n := fun n hn =>
    leafEntry_frame (r := root) hn hs
  have hin : ∀ i < 69, windowPage + i < 2 ^ 20 := by
    intro i hi
    unfold windowPage
    omega
  refine ⟨h.realizes.frame hs, h.rest, ?_, fun i hi => ?_, fun n hn ho => ?_, fun n h1 h2 => ?_⟩
  · obtain ⟨u4, u3, u2⟩ := h.user
    constructor
    · rwa [SamePage.entry (hs _ (mem_tables_root _ _)) (by omega)]
    · rwa [SamePage.entry (hs _ (mem_tables_p3 _ _)) (by omega)]
    · rwa [SamePage.entry (hs _ (mem_tables_p2 _ _ (by omega))) (by omega)]
  · rw [hleaf _ (hin i (by omega))]
    exact h.window i hi
  · rw [hleaf n hn]
    exact h.outside n hn ho
  · have hb := hin (n - windowPage) (by omega)
    rw [hleaf n (by omega)]
    exact h.between n h1 h2

theorem NewRoot.bare {P : Pool} {ph ph' : Phys} {root : Nat} {sh : Shape}
    (h : NewRoot P ph root sh ph') : BareRoot ph'.mem root sh where
  realizes := h.realizes
  rest := fun k _ => h.none k
  outside := fun n _ _ => leafEntry_identity h.none n
  inside := fun n _ _ => Or.inr (leafEntry_identity h.none n)

theorem BareRoot.plain {m : Mem} {root : Nat} {sh : Shape} (h : BareRoot m root sh) {i : Nat}
    (hi : i < 69) : LeafPlain (leafEntry m sh (windowPage + i)) := by
  rcases h.inside (windowPage + i) (by omega) (by omega) with hz | hid
  · rw [hz]
    exact leafPlain_zero
  · rw [hid]
    exact leafPlain_identity (by unfold windowPage; omega)

/-! ## The flags of an image -/

/-- The flags page `i` of an image is mapped with: writable for a page of a segment with `PF_W`,
    a heap page and the stack page. -/
def userPageFlag (img : Image) (i : Nat) : Nat :=
  match elfUserImagePageCount img, elfUserLoadSegmentCount img with
  | .ok filePages, .ok n => pageFlag img filePages.toNat n i
  | _, _ => 0

/-- `pages` can hold the accepted image `img`: its file pages, four heap pages and the stack. -/
structure Fits (img : Image) (pages : List Nat) : Prop where
  valid : elfValidateUserImage img = .ok true
  count : ∃ filePages : Nat, elfUserImagePageCount img = .ok (filePages : Int) ∧ 1 ≤ filePages ∧
    filePages ≤ 64 ∧ pages.length = filePages + 5
  flag : ∀ i, userPageFlag img i = 5 ∨ userPageFlag img i = 7

theorem Fits.length {img : Image} {pages : List Nat} (h : Fits img pages) :
    6 ≤ pages.length ∧ pages.length ≤ 69 := by
  obtain ⟨fp, -, h1, h64, hlen⟩ := h.count
  omega

theorem Prepared.fits {P : Pool} {img : Image} {ph ph' : Phys} {heap heap' : Heap}
    {pages flags : List Nat} (h : Prepared P img ph heap pages flags ph' heap')
    (hv : elfValidateUserImage img = .ok true) : Fits img pages ∧
      flags.length + 1 = pages.length ∧
      ∀ i < pages.length, (flags ++ [schedulerUserPageFlagsWritable]).getD i 0 =
        userPageFlag img i := by
  obtain ⟨fp, n, hfp, hn, h1, h64, hlen, hf⟩ := h.flags
  have hflag : ∀ i, userPageFlag img i = pageFlag img fp n i := by
    intro i
    unfold userPageFlag
    rw [hfp, hn]
    rfl
  have hflen := hf.length
  refine ⟨⟨hv, ⟨fp, hfp, h1, h64, hlen⟩, fun i => ?_⟩, by omega, fun i hi => ?_⟩
  · rw [hflag]
    unfold pageFlag
    split_ifs
    · exact Or.inr rfl
    · exact Or.inl rfl
  · rw [hflag]
    by_cases hlt : i < fp + 4
    · rw [List.getD_append _ _ _ _ (by omega)]
      exact hf.get i hlt
    · have hi' : i = fp + 4 := by omega
      rw [hi', List.getD_append_right _ _ _ _ (by omega), hflen, Nat.sub_self]
      unfold pageFlag
      rw [if_pos (Or.inl (by omega))]
      rfl

/-! ## Mapping an image into a bare root -/

section Place

variable {P : Pool} {root : Nat} {ph : Phys} {sh : Shape} {v : VmmState}

theorem schedulerMapUserImagePages_spec (hvm : VmmOk v) (h : Owned P root ph sh)
    (hb : BareRoot ph.mem root sh) {img : Image} {pages flags : List Nat}
    (hp : ∀ p ∈ pages, TablePage p) (hfit : Fits img pages)
    (hlen : flags.length + 1 = pages.length)
    (hflags : ∀ i < pages.length, (flags ++ [schedulerUserPageFlagsWritable]).getD i 0 =
      userPageFlag img i) :
    Ends (schedulerMapUserImagePages v root pages flags ph)
      (fun ph' => ∃ sh', RootStep P root ph sh ph' sh' ∧
        UserRoot ph'.mem root sh' pages (userPageFlag img))
      (fun _ => ph.pmm.freePages = 0 ∧ sh.pt 256 = none) := by
  obtain ⟨h6, h69⟩ := hfit.length
  have hl : (flags ++ [schedulerUserPageFlagsWritable]).length = pages.length := by
    rw [List.length_append, List.length_singleton]
    exact hlen
  unfold schedulerMapUserImagePages
  generalize flags ++ [schedulerUserPageFlagsWritable] = fl at hflags hl ⊢
  have hzip : (pages.zip fl).length = pages.length := by
    rw [List.length_zip, hl, Nat.min_self]
  have hget : ∀ i < pages.length, (pages.zip fl).getD i (0, 0) =
      (pages.getD i 0, userPageFlag img i) := by
    intro i hi
    rw [← hflags i hi, List.getD_eq_getElem _ _ (hzip ▸ hi), List.getElem_zip,
      List.getD_eq_getElem _ _ hi, List.getD_eq_getElem _ _ (hl ▸ hi)]
  have hitems : ∀ a ∈ pages.zip fl, TablePage a.1 ∧ (a.2 = 5 ∨ a.2 = 7) := by
    intro a ha
    obtain ⟨i, hi, rfl⟩ := List.mem_iff_getElem.mp ha
    have hi' : i < pages.length := by omega
    have hg := hget i hi'
    rw [List.getD_eq_getElem _ _ hi] at hg
    rw [hg, List.getD_eq_getElem _ _ hi']
    exact ⟨hp _ (List.getElem_mem hi'), hfit.flag i⟩
  refine (mapUserPages_spec hvm (pages.zip fl) 0 (by omega) hitems h
    (fun i _ hi => hb.plain (by omega))).imp ?_
  rintro ph' ⟨sh', hw, hu⟩
  have hne : pages.zip fl ≠ [] := by
    intro hc
    rw [hc, List.length_nil] at hzip
    omega
  have hleaf : ∀ n < 2 ^ 20, ¬ (windowPage ≤ n ∧ n < windowPage + pages.length) →
      leafEntry ph'.mem sh' n = leafEntry ph.mem sh n := by
    intro n hn hout
    rw [hw.leaf n hn]
    unfold mappedLeaf
    rw [if_neg (by omega)]
  refine ⟨sh', hw.step, hw.step.realizes, fun k hk => (hw.rest k hk).trans (hb.rest k hk), hu hne,
    fun i hi => ?_, fun n hn ho => ?_, fun n h1 h2 => ?_⟩
  · rw [hw.leaf _ (by unfold windowPage; omega)]
    unfold mappedLeaf
    rw [if_pos (by omega), show windowPage + i - windowPage - 0 = i by omega, hget i hi]
  · rw [hleaf n hn (by omega)]
    exact hb.outside n hn ho
  · rw [hleaf n (by unfold windowPage at h2; omega) (by omega)]
    exact hb.inside n (by omega) h2

end Place

/-! ## Placing an image -/

/-- No panic is left in loading `img` but running out of memory. -/
def Plain (img : Image) : Prop := Blank img ∧ ∃ offset, elfUserEntryOffset img = .ok offset

/-- The numbers that describe a placed image follow from the length of its page array. -/
structure Described (im : UserImage) : Prop where
  pageCount : im.pageCount = im.pages.length
  limit : im.limit = userTaskRegionBase + im.pages.length * userPageSize
  heapBase : im.heapBase = userTaskRegionBase + (im.pages.length - 5) * userPageSize
  heapLimit : im.heapLimit = userTaskRegionBase + (im.pages.length - 1) * userPageSize
  heapBreak : im.heapBreak = im.heapBase

theorem describeUserImage_spec {img : Image} {pages : List Nat} (h : Fits img pages)
    (start : UserStart) :
    Ends (describeUserImage img pages start) (fun im => im.pages = pages ∧ Described im)
      (fun _ => ¬ Plain img) := by
  obtain ⟨fp, hfp, -, -, hlen⟩ := h.count
  unfold describeUserImage
  rw [hfp, ok_bind]
  cases he : elfUserEntryOffset img with
  | error e =>
    rintro ⟨-, offset, ho⟩
    rw [he] at ho
    cases ho
  | ok entry =>
    refine ⟨rfl, rfl, rfl, ?_, ?_, rfl⟩
    · dsimp only
      rw [hlen]
      push_cast
      ring
    · rfl

/-- An image placed in the root at `root`, with `R` handed out besides. -/
structure Placed (P : Pool) (root : Nat) (R : Multiset Nat) (img : Image) (ph : Phys)
    (im : UserImage) (ph' : Phys) (sh' : Shape) : Prop where
  inv : PmmInv P ph'.pmm
  user : UserRoot ph'.mem root sh' im.pages (userPageFlag img)
  fits : Fits img im.pages
  described : Described im
  out : outstanding ph'.pmm.history = tables root sh' + (↑im.pages + R)
  keeps : ∀ p ∈ R, SamePage ph.mem ph'.mem p
  cr3 : ph'.cr3 = ph.cr3

/-- Writing into fresh pages keeps them fresh. -/
theorem NewPages.write {P : Pool} {ph ph₁ ph₂ : Phys} {pages : List Nat}
    (h : NewPages P ph pages ph₁) (ho : OnlyPages (pages : Multiset Nat) ph₁.mem ph₂.mem)
    (hp : ph₂.pmm = ph₁.pmm) (hc : ph₂.cr3 = ph₁.cr3) : NewPages P ph pages ph₂ :=
  ⟨hp ▸ h.inv, hp ▸ h.out, h.only.trans ho, hc.trans h.cr3⟩

theorem BareRoot.frame {m m' : Mem} {root : Nat} {sh : Shape} (h : BareRoot m root sh)
    (hs : ∀ p ∈ tables root sh, SamePage m m' p) : BareRoot m' root sh := by
  have hleaf : ∀ n < 2 ^ 20, leafEntry m' sh n = leafEntry m sh n := fun n hn =>
    leafEntry_frame (r := root) hn hs
  refine ⟨h.realizes.frame hs, h.rest, fun n hn ho => ?_, fun n h1 h2 => ?_⟩
  · rw [hleaf n hn]
    exact h.outside n hn ho
  · rw [hleaf n (by unfold windowPage at h2; omega)]
    exact h.inside n h1 h2

section Place

variable {P : Pool} {root : Nat} {ph : Phys} {sh : Shape} {v : VmmState} {heap : Heap}
  {img : Image}

/-- The end of both ways to place an image: its pages stand, the root is bare. -/
theorem mapAndDescribe_spec (hvm : VmmOk v) (hinv : PmmInv P ph.pmm)
    (hb : BareRoot ph.mem root sh) {pages flags : List Nat} (hp : ∀ p ∈ pages, TablePage p)
    (hfit : Fits img pages) (hlen : flags.length + 1 = pages.length)
    (hflags : ∀ i < pages.length, (flags ++ [schedulerUserPageFlagsWritable]).getD i 0 =
      userPageFlag img i) (start : UserStart) {R : Multiset Nat}
    (hR : outstanding ph.pmm.history = tables root sh + (↑pages + R)) :
    Ends (do
        let ph ← schedulerMapUserImagePages v root pages flags ph
        let image ← describeUserImage img pages start
        .ok (image, ph, heap))
      (fun r => r.2.2 = heap ∧ ∃ sh', Placed P root R img ph r.1 r.2.1 sh')
      (fun _ => (ph.pmm.freePages = 0 ∧ sh.pt 256 = none) ∨ ¬ Plain img) := by
  have ho : Owned P root ph sh :=
    ⟨hinv, hb.realizes, by rw [hR]; exact Multiset.le_add_right _ _⟩
  refine ends_bind ((schedulerMapUserImagePages_spec hvm ho hb hp hfit hlen hflags).mono
    (fun _ h => h) fun _ he => Or.inl he) ?_
  rintro ph' ⟨sh', hstep, hu⟩
  refine ends_bind ((describeUserImage_spec hfit start).mono (fun _ h => h)
    fun _ he => Or.inr he) ?_
  rintro im ⟨rfl, hd⟩
  obtain ⟨N, hN, hT⟩ := hstep.handed
  refine ⟨rfl, sh', hstep.inv, hu, hfit, hd, ?_, fun p hpR => ?_, hstep.cr3⟩
  · rw [hN, hR, hT]
    dsimp only
    abel
  · exact (hstep.keeps (R := ↑im.pages + R) hR.ge).1 p
      (Multiset.mem_add.mpr (Or.inr hpR))

/-- Loading an image into a new root. -/
theorem schedulerInstallUserImage_spec (hvm : VmmOk v) (hinv : PmmInv P ph.pmm)
    (hb : BareRoot ph.mem root sh) (hh : HeapOk heap)
    (hv : elfValidateUserImage img = .ok true) (argv envp : ExecVec) {R : Multiset Nat}
    (hR : outstanding ph.pmm.history = tables root sh + R) :
    Ends (schedulerInstallUserImage v root img argv envp ph heap)
      (fun r => (∃ sh', Placed P root R img ph r.1 r.2.1 sh') ∧ HeapOk r.2.2 ∧
        HeapGrows heap r.2.2 ∧ r.2.2.ptr < heap.ptr + 2200)
      (fun _ => ph.pmm.freePages < 70 ∨ heap.stop < heap.ptr + 2200 ∨ ¬ Plain img) := by
  unfold schedulerInstallUserImage
  refine ends_bind ((schedulerPrepareUserImagePages_spec hinv hh hv).mono (fun _ h => h) ?_) ?_
  · rintro _ (he | he | he)
    · exact Or.inl (by omega)
    · exact Or.inr (Or.inl (by omega))
    · exact Or.inr (Or.inr fun hc => he hc.1)
  rintro ⟨pages, flags, ph₁, heap₁⟩ ⟨hprep, hfree, hptr₁⟩
  dsimp only at hprep hfree hptr₁ ⊢
  obtain ⟨hok₁, hg₁⟩ := hprep.heap
  obtain ⟨hfit, hlen, hflags⟩ := hprep.fits hv
  obtain ⟨h6, h69⟩ := hfit.length
  have hpage : ∀ p ∈ pages, TablePage p := fun p hp => hprep.new.page hp
  refine ends_bind ((schedulerBuildUserInitialStack_spec hpage (by omega) argv envp ph₁ hok₁).mono
    (fun _ h => h) fun _ he => ?_) ?_
  · have := hg₁.stop
    omega
  rintro ⟨start, ph₂, heap₂⟩ ⟨ho₂, hpmm₂, hcr₂, hok₂, hg₂, hptr₂⟩
  dsimp only at ho₂ hpmm₂ hcr₂ hok₂ hg₂ hptr₂ ⊢
  have hnew := hprep.new.write ho₂ hpmm₂ hcr₂
  have hkeep : ∀ p ∈ tables root sh + R, SamePage ph.mem ph₂.mem p := fun p hp =>
    hnew.keeps (by rw [hR]; exact hp)
  have hb₂ := hb.frame fun p hp => hkeep p (Multiset.mem_add.mpr (Or.inl hp))
  refine (mapAndDescribe_spec hvm hnew.inv hb₂ hpage hfit hlen hflags start (R := R)
    (by rw [hnew.out, hR]; abel)).mono ?_ ?_
  · rintro ⟨im, ph₃, heap₃⟩ ⟨hheap, sh', hpl⟩
    dsimp only at hheap
    subst hheap
    refine ⟨⟨sh', hpl.inv, hpl.user, hpl.fits, hpl.described, hpl.out, fun p hp => ?_,
      hpl.cr3.trans hnew.cr3⟩, hok₂, hg₁.trans hg₂, by dsimp only; omega⟩
    exact (hkeep p (Multiset.mem_add.mpr (Or.inr hp))).trans (hpl.keeps p hp)
  · rintro _ (he | he)
    · rw [hpmm₂] at he
      exact Or.inl (by omega)
    · exact Or.inr (Or.inr he)

theorem UserRoot.leaf_ne {m : Mem} {pages : List Nat} (hu : UserRoot m root sh pages (userPageFlag img))
    (hfit : Fits img pages) {i : Nat} (hi : i < pages.length) :
    leafEntry m sh (windowPage + i) ≠ 0 := by
  intro hz
  rw [hu.window i hi] at hz
  have hf := (Nat.or_eq_zero_iff.mp hz).2
  have := hfit.flag i
  omega

/-- Dropping the image of a user root leaves a bare root and gives its pages back. -/
theorem dropUserImage_spec (hvm : VmmOk v) (hinv : PmmInv P ph.pmm) {pages : List Nat}
    (hfit : Fits img pages) (hu : UserRoot ph.mem root sh pages (userPageFlag img))
    {R : Multiset Nat}
    (hR : outstanding ph.pmm.history = tables root sh + (↑pages + R)) :
    Ends (dropUserImage v root userTaskRegionBase pages pages.length ph)
      (fun ph' => ∃ sh', PmmInv P ph'.pmm ∧ BareRoot ph'.mem root sh' ∧
        outstanding ph'.pmm.history = tables root sh' + R ∧
        (∀ p ∈ R, SamePage ph.mem ph'.mem p) ∧ ph'.cr3 = ph.cr3)
      (fun e => e = "pmm recycle stack full") := by
  obtain ⟨h6, h69⟩ := hfit.length
  have ho : Owned P root ph sh :=
    ⟨hinv, hu.realizes, by rw [hR]; exact Multiset.le_add_right _ _⟩
  have hne : pages ≠ [] := by
    intro hc
    rw [hc, List.length_nil] at h6
    omega
  unfold dropUserImage
  rw [if_pos ⟨hne, by omega⟩]
  obtain ⟨ph₁, sh₁, he, hw⟩ := schedulerUnmapUserImagePages_spec ho hvm (n := pages.length)
    (by omega) (UserPath.split hu.realizes (by omega) hu.user) (fun i => hu.leaf_ne hfit)
  obtain ⟨N, hN, hT⟩ := hw.step.handed
  rw [he, ok_bind]
  refine ends_bind (schedulerReleaseUserPages_spec (P := P) (R := tables root sh₁ + R)
    hw.step.inv ?_) ?_
  · rw [hN, hR, hT]
    abel
  rintro t ⟨ht, hout⟩
  refine ⟨sh₁, ht, ⟨hw.step.realizes, fun k hk => (hw.rest k hk).trans (hu.rest k hk),
    fun n hn hout => ?_, fun n h1 h2 => ?_⟩, hout, fun p hp => ?_, hw.step.cr3⟩
  · rw [hw.leaf n hn, if_neg (by omega)]
    exact hu.outside n hn hout
  · rw [hw.leaf n (by unfold windowPage at h2; omega)]
    split_ifs with hin
    · exact Or.inl rfl
    · exact hu.between n (by omega) h2
  · exact (hw.step.keeps (R := ↑pages + R) hR.ge).1 p (Multiset.mem_add.mpr (Or.inr hp))

/-- Replacing the image of a user root. -/
theorem replaceUserImage_spec (hvm : VmmOk v) (hinv : PmmInv P ph.pmm) {img₀ : Image}
    {pages₀ : List Nat} (hfit₀ : Fits img₀ pages₀)
    (hu : UserRoot ph.mem root sh pages₀ (userPageFlag img₀)) (hh : HeapOk heap)
    (hv : elfValidateUserImage img = .ok true) (argv envp : ExecVec) {R : Multiset Nat}
    (hR : outstanding ph.pmm.history = tables root sh + (↑pages₀ + R)) :
    Ends (replaceUserImage v root userTaskRegionBase pages₀ pages₀.length img argv envp ph heap)
      (fun r => (∃ sh', Placed P root R img ph r.1 r.2.1 sh') ∧ HeapOk r.2.2 ∧
        HeapGrows heap r.2.2)
      (fun _ => True) := by
  obtain ⟨h6₀, h69₀⟩ := hfit₀.length
  unfold replaceUserImage
  refine ends_bind ((schedulerPrepareUserImagePages_spec hinv hh hv).mono (fun _ h => h)
    fun _ _ => trivial) ?_
  rintro ⟨pages, flags, ph₁, heap₁⟩ ⟨hprep, -, -⟩
  dsimp only at hprep ⊢
  obtain ⟨hok₁, hg₁⟩ := hprep.heap
  obtain ⟨hfit, hlen, hflags⟩ := hprep.fits hv
  obtain ⟨h6, h69⟩ := hfit.length
  have hpage : ∀ p ∈ pages, TablePage p := fun p hp => hprep.new.page hp
  refine ends_bind ((schedulerBuildUserInitialStack_spec hpage (by omega) argv envp ph₁ hok₁).mono
    (fun _ h => h) fun _ _ => trivial) ?_
  rintro ⟨start, ph₂, heap₂⟩ ⟨ho₂, hpmm₂, hcr₂, hok₂, hg₂, -⟩
  dsimp only at ho₂ hpmm₂ hcr₂ hok₂ hg₂ ⊢
  have hnew := hprep.new.write ho₂ hpmm₂ hcr₂
  have hkeep : ∀ p ∈ tables root sh + (↑pages₀ + R), SamePage ph.mem ph₂.mem p := fun p hp =>
    hnew.keeps (by rw [hR]; exact hp)
  have hu₂ := hu.frame h69₀ fun p hp => hkeep p (Multiset.mem_add.mpr (Or.inl hp))
  refine ends_bind ((dropUserImage_spec hvm hnew.inv hfit₀ hu₂ (R := ↑pages + R)
    (by rw [hnew.out, hR]; abel)).mono (fun _ h => h) fun _ _ => trivial) ?_
  rintro ph₃ ⟨sh₃, hinv₃, hb₃, hout₃, hkeep₃, hcr₃⟩
  refine (mapAndDescribe_spec hvm hinv₃ hb₃ hpage hfit hlen hflags start hout₃).mono ?_
    fun _ _ => trivial
  rintro ⟨im, ph₄, heap₄⟩ ⟨hheap, sh', hpl⟩
  dsimp only at hheap
  subst hheap
  refine ⟨⟨sh', hpl.inv, hpl.user, hpl.fits, hpl.described, hpl.out, fun p hp => ?_,
    hpl.cr3.trans (hcr₃.trans hnew.cr3)⟩, hok₂, hg₁.trans hg₂⟩
  have h1 := hkeep p (Multiset.mem_add.mpr (Or.inr (Multiset.mem_add.mpr (Or.inr hp))))
  have h2 := hkeep₃ p (Multiset.mem_add.mpr (Or.inr hp))
  exact (h1.trans h2).trans (hpl.keeps p hp)

end Place

end PcoOs.Image
