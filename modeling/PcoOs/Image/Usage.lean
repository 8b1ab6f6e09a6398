/-
  The image loader's use of the page allocator: at most 69 pages for an image, and at most two page
  tables for every page it maps. Reading an ELF file, copying it and building the stack use none.
-/
import PcoOs.Image.Window
import PcoOs.Vmm.Usage

namespace PcoOs.Image

open PcoOs.Lib PcoOs.Pmm PcoOs.Support PcoOs.Vmm PcoOs.Elf

/-! ## Allocations -/

theorem allocUserPages_allocs {n : Nat} {ph : Phys} {r : List Nat × Phys}
    (h : allocUserPages n ph = .ok r) : Allocs n ph.pmm r.2.pmm ∧ r.1.length = n := by
  induction n generalizing ph r with
  | zero =>
    cases h
    exact ⟨Allocs.refl 0 _, rfl⟩
  | succ n ih =>
    unfold allocUserPages at h
    dsimp only at h
    split_ifs at h
    obtain ⟨m, -, h⟩ := bind_eq_ok.mp h
    obtain ⟨q, hq, h⟩ := bind_eq_ok.mp h
    cases h
    obtain ⟨ha, hlen⟩ := ih hq
    exact ⟨((Allocs.one ph.pmm).trans ha).mono (by omega), congrArg (· + 1) hlen⟩

theorem schedulerPrepareUserImagePages_allocs {img : Image} {ph : Phys} {heap : Heap}
    {r : List Nat × List Nat × Phys × Heap}
    (h : schedulerPrepareUserImagePages img ph heap = .ok r) :
    Allocs 69 ph.pmm r.2.2.1.pmm ∧ r.1.length ≤ 69 := by
  unfold schedulerPrepareUserImagePages at h
  obtain ⟨n, -, h⟩ := bind_eq_ok.mp h
  obtain ⟨b₁, -, h⟩ := bind_eq_ok.mp h
  obtain ⟨b₂, -, h⟩ := bind_eq_ok.mp h
  split_ifs at h with hc
  obtain ⟨q, hq, h⟩ := bind_eq_ok.mp h
  obtain ⟨c, -, h⟩ := bind_eq_ok.mp h
  obtain ⟨f, -, h⟩ := bind_eq_ok.mp h
  cases h
  unfold maxUserMappedPages at hc
  obtain ⟨ha, hlen⟩ := allocUserPages_allocs hq
  exact ⟨ha.mono (by omega), by dsimp only; omega⟩

theorem schedulerBuildUserInitialStack_pmm {pages : List Nat} {argv envp : ExecVec} {ph : Phys}
    {heap : Heap} {r : UserStart × Phys × Heap}
    (h : schedulerBuildUserInitialStack pages argv envp ph heap = .ok r) :
    r.2.1.pmm = ph.pmm := by
  unfold schedulerBuildUserInitialStack at h
  iterate 8 obtain ⟨_, -, h⟩ := bind_eq_ok.mp h
  cases h
  rfl

theorem mapUserPages_allocs {v : VmmState} {root index : Nat} {l : List (Nat × Nat)}
    {ph ph' : Phys} (h : mapUserPages v root index l ph = .ok ph') :
    Allocs (2 * l.length) ph.pmm ph'.pmm := by
  induction l generalizing index ph with
  | nil =>
    cases h
    exact Allocs.refl _ _
  | cons x l ih =>
    unfold mapUserPages at h
    obtain ⟨ph₁, h₁, h⟩ := bind_eq_ok.mp h
    obtain ⟨ph₂, h₂, h⟩ := bind_eq_ok.mp h
    have hu : Allocs 1 ph.pmm ph₁.pmm := by
      unfold unmapIfMapped at h₁
      obtain ⟨t, -, h₁⟩ := bind_eq_ok.mp h₁
      split_ifs at h₁
      · exact vmmUnmapPageRoot_allocs h₁
      · cases h₁
        exact Allocs.refl _ _
    refine ((hu.trans (vmmMapPageRoot_allocs h₂)).trans (ih h)).mono ?_
    rw [List.length_cons]
    omega

theorem schedulerMapUserImagePages_allocs {v : VmmState} {root : Nat} {pages flags : List Nat}
    {ph ph' : Phys} (h : schedulerMapUserImagePages v root pages flags ph = .ok ph') :
    Allocs (2 * pages.length) ph.pmm ph'.pmm := by
  refine (mapUserPages_allocs h).mono ?_
  rw [List.length_zip]
  omega

theorem schedulerUnmapUserImagePages_allocs {v : VmmState} {root n : Nat} {base : Int}
    {ph ph' : Phys} (h : schedulerUnmapUserImagePages v root base n ph = .ok ph') :
    Allocs n ph.pmm ph'.pmm := by
  have hloop := ends_loop (E := fun _ => True) (i := 0) (n := n) (s := ph)
    (f := fun i ph => vmmUnmapPageRoot v root ph (base + i * userPageSize))
    (fun i t => Allocs i ph.pmm t.pmm) (Allocs.refl 0 _) fun j t _ _ ht =>
      ends_iff_ok.mpr fun u hu => ht.trans (vmmUnmapPageRoot_allocs hu)
  rw [Nat.zero_add] at hloop
  exact hloop.of_ok h

theorem schedulerReleaseUserPages_uses {pages : List Nat} {s t : PmmState}
    (h : schedulerReleaseUserPages pages s = .ok t) : Uses 0 s t := by
  induction pages generalizing s with
  | nil =>
    cases h
    exact Uses.refl 0 _
  | cons p rest ih =>
    unfold schedulerReleaseUserPages at h
    dsimp only at h
    split_ifs at h
    · obtain ⟨u, hu, h⟩ := bind_eq_ok.mp h
      exact (Uses.one_free hu).trans (ih h)
    · exact ih h

theorem dropUserImage_uses {v : VmmState} {root n : Nat} {base : Int} {pages : List Nat}
    {ph ph' : Phys} (h : dropUserImage v root base pages n ph = .ok ph') :
    Uses n ph.pmm ph'.pmm := by
  unfold dropUserImage at h
  split_ifs at h
  · obtain ⟨ph₁, h₁, h⟩ := bind_eq_ok.mp h
    obtain ⟨pmm, h₂, h⟩ := bind_eq_ok.mp h
    cases h
    exact (schedulerUnmapUserImagePages_allocs h₁).uses.trans (schedulerReleaseUserPages_uses h₂)
  · cases h
    exact Uses.refl _ _

theorem schedulerInstallUserImage_allocs {v : VmmState} {root : Nat} {img : Image}
    {argv envp : ExecVec} {ph : Phys} {heap : Heap} {r : UserImage × Phys × Heap}
    (h : schedulerInstallUserImage v root img argv envp ph heap = .ok r) :
    Allocs 207 ph.pmm r.2.1.pmm := by
  unfold schedulerInstallUserImage at h
  obtain ⟨q₁, h₁, h⟩ := bind_eq_ok.mp h
  obtain ⟨q₂, h₂, h⟩ := bind_eq_ok.mp h
  obtain ⟨q₃, h₃, h⟩ := bind_eq_ok.mp h
  obtain ⟨q₄, -, h⟩ := bind_eq_ok.mp h
  cases h
  obtain ⟨ha, hlen⟩ := schedulerPrepareUserImagePages_allocs h₁
  have hm := schedulerMapUserImagePages_allocs h₃
  rw [schedulerBuildUserInitialStack_pmm h₂] at hm
  exact (ha.trans hm).mono (by omega)

theorem replaceUserImage_uses {v : VmmState} {root n : Nat} {base : Int} {pages : List Nat}
    {img : Image} {argv envp : ExecVec} {ph : Phys} {heap : Heap} {r : UserImage × Phys × Heap}
    (h : replaceUserImage v root base pages n img argv envp ph heap = .ok r) :
    Uses (207 + n) ph.pmm r.2.1.pmm := by
  unfold replaceUserImage at h
  obtain ⟨q₁, h₁, h⟩ := bind_eq_ok.mp h
  obtain ⟨q₂, h₂, h⟩ := bind_eq_ok.mp h
  obtain ⟨q₃, h₃, h⟩ := bind_eq_ok.mp h
  obtain ⟨q₄, h₄, h⟩ := bind_eq_ok.mp h
  obtain ⟨q₅, -, h⟩ := bind_eq_ok.mp h
  cases h
  obtain ⟨ha, hlen⟩ := schedulerPrepareUserImagePages_allocs h₁
  have hd := dropUserImage_uses h₃
  rw [schedulerBuildUserInitialStack_pmm h₂] at hd
  have hm := (schedulerMapUserImagePages_allocs h₄).uses
  exact ((ha.uses.trans hd).trans hm).mono (by omega)

/-! ## Reading the file -/

@[simp] theorem allocBytes_avoids (h : Heap) (size : Int) :
    Avoids recycleFull (allocBytes h size) := by
  simp [allocBytes, recycleFull]

@[simp] theorem imageByte_avoids (img : Image) (offset : Int) :
    Avoids recycleFull (imageByte img offset) := by
  simp [imageByte, recycleFull]

@[simp] theorem elfBytes_avoids (img : Image) (n : Nat) (offset : Int) (shift value : Nat) :
    Avoids recycleFull (elfBytes img n offset shift value) := by
  induction n generalizing offset shift value with
  | zero => simp [elfBytes]
  | succ n ih => simp [elfBytes, ih]

@[simp] theorem elfU16_avoids (img : Image) (offset : Int) :
    Avoids recycleFull (elfU16 img offset) := by
  simp [elfU16]

@[simp] theorem elfU32_avoids (img : Image) (offset : Int) :
    Avoids recycleFull (elfU32 img offset) := by
  simp [elfU32]

@[simp] theorem elfU64_avoids (img : Image) (offset : Int) :
    Avoids recycleFull (elfU64 img offset) := by
  simp [elfU64]

@[simp] theorem elfValidateHeader_avoids (img : Image) :
    Avoids recycleFull (elfValidateHeader img) := by
  simp [elfValidateHeader]

theorem segmentField_avoids {read : Image → Int → Except String Int}
    (hr : ∀ img offset, Avoids recycleFull (read img offset)) (delta : Int) (img : Image)
    (ph : Int) : Avoids recycleFull (segmentField read delta img ph) := by
  simp [segmentField, elfSegmentOffset, elfPhoff, elfPhentsize, hr]

@[simp] theorem elfSegmentIsUserLoad_avoids (img : Image) (ph : Int) :
    Avoids recycleFull (elfSegmentIsUserLoad img ph) := by
  simp [elfSegmentIsUserLoad, elfSegmentType, elfSegmentMemsz, segmentField_avoids]

@[simp] theorem elfUserLoadSegmentCount_avoids (img : Image) :
    Avoids recycleFull (elfUserLoadSegmentCount img) := by
  simp [elfUserLoadSegmentCount, elfPhnum, avoids_loop]

@[simp] theorem findLoadSegment_avoids (img : Image) (loadIndex n ph current : Nat) :
    Avoids recycleFull (findLoadSegment img loadIndex n ph current) := by
  induction n generalizing ph current with
  | zero => simp [findLoadSegment]
  | succ n ih => simp [findLoadSegment, ih]

theorem userSegmentField_avoids {msg : String} (hm : msg ≠ recycleFull)
    {field : Image → Int → Except String Int}
    (hf : ∀ img ph, Avoids recycleFull (field img ph)) (img : Image) (loadIndex : Nat) :
    Avoids recycleFull (userSegmentField msg field img loadIndex) := by
  simp [userSegmentField, elfUserLoadSegmentPhIndex, elfPhnum, hm, hf]

@[simp] theorem elfUserSegmentVaddr_avoids (img : Image) (i : Nat) :
    Avoids recycleFull (elfUserSegmentVaddr img i) :=
  userSegmentField_avoids (by decide) (segmentField_avoids elfU64_avoids _) _ _

@[simp] theorem elfUserSegmentOffset_avoids (img : Image) (i : Nat) :
    Avoids recycleFull (elfUserSegmentOffset img i) :=
  userSegmentField_avoids (by decide) (segmentField_avoids elfU64_avoids _) _ _

@[simp] theorem elfUserSegmentFilesz_avoids (img : Image) (i : Nat) :
    Avoids recycleFull (elfUserSegmentFilesz img i) :=
  userSegmentField_avoids (by decide) (segmentField_avoids elfU64_avoids _) _ _

@[simp] theorem elfUserSegmentMemsz_avoids (img : Image) (i : Nat) :
    Avoids recycleFull (elfUserSegmentMemsz img i) :=
  userSegmentField_avoids (by decide) (segmentField_avoids elfU64_avoids _) _ _

@[simp] theorem elfUserSegmentFlags_avoids (img : Image) (i : Nat) :
    Avoids recycleFull (elfUserSegmentFlags img i) :=
  userSegmentField_avoids (by decide) (segmentField_avoids elfU32_avoids _) _ _

@[simp] theorem elfUserImagePageCount_avoids (img : Image) :
    Avoids recycleFull (elfUserImagePageCount img) := by
  simp [elfUserImagePageCount, elfUserImageTop, avoids_loop]

theorem allSegments_avoids {p : Nat → Except String Bool} (hp : ∀ i, Avoids recycleFull (p i))
    (i n : Nat) : Avoids recycleFull (allSegments p i n) := by
  induction n generalizing i with
  | zero => simp [allSegments]
  | succ n ih => simp [allSegments, hp, ih]

theorem anySegment_avoids {p : Nat → Except String Bool} (hp : ∀ i, Avoids recycleFull (p i))
    (i n : Nat) : Avoids recycleFull (anySegment p i n) := by
  induction n generalizing i with
  | zero => simp [anySegment]
  | succ n ih => simp [anySegment, hp, ih]

@[simp] theorem segmentValid_avoids (img : Image) (n i : Nat) :
    Avoids recycleFull (segmentValid img n i) := by
  simp [segmentValid, segmentApart, allSegments_avoids]

@[simp] theorem elfValidateUserImage_avoids (img : Image) :
    Avoids recycleFull (elfValidateUserImage img) := by
  simp [elfValidateUserImage, elfEntryInLoadSegment, elfPhentsize, elfEntryOffset,
    allSegments_avoids, anySegment_avoids]

/-! ## Building the image -/

@[simp] theorem userPageArrayQword_avoids (pages : List Nat) (slot : Int) :
    Avoids recycleFull (userPageArrayQword pages slot) := by
  simp [userPageArrayQword, recycleFull]

@[simp] theorem allocUserPages_avoids (n : Nat) (ph : Phys) :
    Avoids recycleFull (allocUserPages n ph) := by
  induction n generalizing ph with
  | zero => simp [allocUserPages]
  | succ n ih => simp [allocUserPages, ih, recycleFull]

@[simp] theorem segmentPageFlags_avoids (segFlags page pageEnd : Int) (flags : List Nat) :
    Avoids recycleFull (segmentPageFlags segFlags page pageEnd flags) := by
  simp [segmentPageFlags, markWritable, schedulerSetPageFlags, avoids_loop, recycleFull]

theorem copySegmentByte_avoids (img : Image) (pages : List Nat) (vaddr offset : Int) (i : Nat)
    (m : Mem) : Avoids recycleFull (copySegmentByte img pages vaddr offset i m) := by
  simp [copySegmentByte]

@[simp] theorem loadUserSegment_avoids (img : Image) (pages : List Nat) (i : Nat)
    (st : List Nat × Mem) : Avoids recycleFull (loadUserSegment img pages i st) := by
  simp [loadUserSegment, avoids_loop (copySegmentByte_avoids _ _ _ _)]

@[simp] theorem schedulerPrepareUserImagePages_avoids (img : Image) (ph : Phys) (heap : Heap) :
    Avoids recycleFull (schedulerPrepareUserImagePages img ph heap) := by
  simp [schedulerPrepareUserImagePages, avoids_loop, recycleFull]

@[simp] theorem pushStrings_avoids (stackPhys : Nat) (stackBase : Int)
    (strings : List (List UInt8)) (off : Int) (m : Mem) :
    Avoids recycleFull (pushStrings stackPhys stackBase strings off m) := by
  induction strings generalizing off m with
  | nil => simp [pushStrings]
  | cons s rest ih => simp [pushStrings, schedulerCopyStackString, avoids_loop, ih]

@[simp] theorem schedulerBuildUserInitialStack_avoids (pages : List Nat) (argv envp : ExecVec)
    (ph : Phys) (heap : Heap) :
    Avoids recycleFull (schedulerBuildUserInitialStack pages argv envp ph heap) := by
  simp [schedulerBuildUserInitialStack, allocPointers, storePointers, avoids_loop]

@[simp] theorem mapUserPages_avoids (v : VmmState) (root index : Nat) (l : List (Nat × Nat))
    (ph : Phys) : Avoids recycleFull (mapUserPages v root index l ph) := by
  induction l generalizing index ph with
  | nil => simp [mapUserPages]
  | cons x l ih => simp [mapUserPages, unmapIfMapped, ih]

@[simp] theorem schedulerMapUserImagePages_avoids (v : VmmState) (root : Nat)
    (pages flags : List Nat) (ph : Phys) :
    Avoids recycleFull (schedulerMapUserImagePages v root pages flags ph) :=
  mapUserPages_avoids _ _ _ _ _

@[simp] theorem describeUserImage_avoids (img : Image) (pages : List Nat) (start : UserStart) :
    Avoids recycleFull (describeUserImage img pages start) := by
  simp [describeUserImage, elfUserEntryOffset, elfEntryOffset, recycleFull]

@[simp] theorem schedulerInstallUserImage_avoids (v : VmmState) (root : Nat) (img : Image)
    (argv envp : ExecVec) (ph : Phys) (heap : Heap) :
    Avoids recycleFull (schedulerInstallUserImage v root img argv envp ph heap) := by
  simp [schedulerInstallUserImage]

/-! ## Replacing an image -/

section Replace

variable {P : Pool} {v : VmmState} {root : Nat} {sh : Shape} {img img₀ : Image}
  {pages₀ : List Nat} {ph : Phys} {R : Multiset Nat} {b : Nat}

/-- The pages of the old image fit on the recycle stack. -/
theorem dropUserImage_avoids (hvm : VmmOk v) (hinv : PmmInv P ph.pmm) (hfit₀ : Fits img₀ pages₀)
    (hu : UserRoot ph.mem root sh pages₀ (userPageFlag img₀))
    (hR : outstanding ph.pmm.history = tables root sh + (↑pages₀ + R)) (hw : HighWater b ph.pmm)
    (hb : b ≤ 2048) (hroom : (outstanding ph.pmm.history).card + 69 ≤ b) :
    Avoids recycleFull (dropUserImage v root userTaskRegionBase pages₀ pages₀.length ph) := by
  obtain ⟨h6, h69⟩ := hfit₀.length
  have ho : Owned P root ph sh :=
    ⟨hinv, hu.realizes, by rw [hR]; exact Multiset.le_add_right _ _⟩
  obtain ⟨ph₁, sh₁, he, hwin⟩ := schedulerUnmapUserImagePages_spec ho hvm (n := pages₀.length)
    (by omega) (UserPath.split hu.realizes (by omega) hu.user) (fun i => hu.leaf_ne hfit₀)
  have hinv₁ := hwin.step.inv
  have hle : (pages₀ : Multiset Nat) ≤ outstanding ph₁.pmm.history := by
    obtain ⟨N, hN, -⟩ := hwin.step.handed
    rw [hN, hR, add_left_comm, add_assoc]
    exact Multiset.le_add_right _ _
  obtain ⟨hw₁, -⟩ := (schedulerUnmapUserImagePages_allocs he).uses.highWater hinv₁.balanced hw
    (by omega)
  unfold dropUserImage
  rw [he]
  simp only [avoids_ite, ok_bind, avoids_bind, avoids_ok, implies_true, and_true]
  exact fun _ => (schedulerReleaseUserPages_freed hinv₁ hle).avoids (hw₁.not_full hb hle _)

theorem replaceUserImage_avoids (hvm : VmmOk v) (hinv : PmmInv P ph.pmm) (hfit₀ : Fits img₀ pages₀)
    (hu : UserRoot ph.mem root sh pages₀ (userPageFlag img₀)) {heap : Heap} (hh : HeapOk heap)
    (hv : elfValidateUserImage img = .ok true) (argv envp : ExecVec)
    (hR : outstanding ph.pmm.history = tables root sh + (↑pages₀ + R)) (hw : HighWater b ph.pmm)
    (hb : b ≤ 2048) (hroom : (outstanding ph.pmm.history).card + 138 ≤ b) :
    Avoids recycleFull
      (replaceUserImage v root userTaskRegionBase pages₀ pages₀.length img argv envp ph heap) := by
  unfold replaceUserImage
  rw [avoids_bind]
  refine ⟨schedulerPrepareUserImagePages_avoids _ _ _, ?_⟩
  rintro ⟨pages, flags, ph₁, heap₁⟩ h₁
  obtain ⟨hprep, -, -⟩ := (schedulerPrepareUserImagePages_spec hinv hh hv).of_ok h₁
  obtain ⟨ha, -⟩ := schedulerPrepareUserImagePages_allocs h₁
  dsimp only at hprep ha ⊢
  rw [avoids_bind]
  refine ⟨schedulerBuildUserInitialStack_avoids _ _ _ _ _, ?_⟩
  rintro ⟨start, ph₂, heap₂⟩ h₂
  obtain ⟨hok₁, -⟩ := hprep.heap
  obtain ⟨hfit, -, -⟩ := hprep.fits hv
  obtain ⟨h6, h69⟩ := hfit.length
  have hpage : ∀ p ∈ pages, TablePage p := fun p hp => hprep.new.page hp
  obtain ⟨ho₂, hpmm₂, hcr₂, -⟩ := (schedulerBuildUserInitialStack_spec hpage (by omega) argv envp
    ph₁ hok₁).of_ok h₂
  dsimp only at ho₂ hpmm₂ hcr₂ ⊢
  have hnew := hprep.new.write ho₂ hpmm₂ hcr₂
  have hu₂ := hu.frame hfit₀.length.2 fun p hp =>
    hnew.keeps (by rw [hR]; exact Multiset.mem_add.mpr (Or.inl hp))
  rw [← hpmm₂] at ha
  obtain ⟨hw₂, hle₂⟩ := ha.uses.highWater hnew.inv.balanced hw (by omega)
  have hdrop := dropUserImage_avoids hvm hnew.inv hfit₀ hu₂ (R := ↑pages + R)
    (by rw [hnew.out, hR]; abel) hw₂ hb (by omega)
  simp [hdrop]

end Replace

end PcoOs.Image
