/-
  What a program finds when it starts. `startByte` gives every byte of its space, and `startOf` its
  first registers, from the image and the two vectors alone: the bytes of the segments, zeros
  around them and on the heap pages, and the stack page. `schedulerInstallUserImage_starts` and
  `replaceUserImage_starts` say that both ways to place an image lead there, so nothing is left in
  it of what memory held before.
-/
import PcoOs.Image.Faithful
import PcoOs.Image.Window

namespace PcoOs.Image

open PcoOs.Lib PcoOs.Pmm PcoOs.Support PcoOs.Vmm PcoOs.Elf

/-! ## The space of a program -/

instance decidableHasByte (s : Segment) (v : Nat) : Decidable (HasByte s v) :=
  inferInstanceAs (Decidable (s.vaddr ≤ v ∧ (v : Int) < s.vaddr + s.filesz))

theorem meets_iff (s : Segment) (i : Nat) :
    Meets s i ↔ max s.vaddr (4096 * i) < min (s.vaddr + s.memsz) (4096 * i + 4096) := by
  unfold Meets
  constructor
  · intro ⟨v, hv, hlo, hhi⟩
    omega
  · intro h
    refine ⟨(max s.vaddr (4096 * i)).toNat, ?_⟩
    omega

instance decidableMeets (s : Segment) (i : Nat) : Decidable (Meets s i) :=
  decidable_of_iff _ (meets_iff s i).symm

instance decidableWritable (s : Segment) : Decidable (Writable s) :=
  inferInstanceAs (Decidable (s.flags &&& elfPfW.toNat ≠ 0))

/-- The pages of the segments, four heap pages and the stack page. -/
def spacePages (img : Image) : Nat := (pageCount img + 5).toNat

/-- Byte `v` below the stack page: a byte of the file where a segment has one. -/
def fileByte (img : Image) (v : Nat) : UInt8 :=
  match (segments img).find? fun s => HasByte s v with
  | some s => img.getD (fileOffset s v) 0
  | none => 0

/-- Byte `o` of the stack page. -/
def stackPageByte (base : Int) (argv envp : ExecVec) (o : Nat) : UInt8 :=
  stackMem (fun _ => 0) 0 base argv envp (0 + o)

def stackBaseOf (img : Image) : Int := userTaskStackBaseVirt (spacePages img)

def startByte (img : Image) (argv envp : ExecVec) (v : Nat) : UInt8 :=
  if v < 4096 * (spacePages img - 1) then fileByte img v
  else stackPageByte (stackBaseOf img) argv envp (v - 4096 * (spacePages img - 1))

/-- Pages past the segments and pages with a writable segment can be stored to. -/
def pageWritable (img : Image) (i : Nat) : Bool :=
  pageCount img ≤ i ∨ ∃ s ∈ segments img, Writable s ∧ Meets s i

/-- The stack pointer, the count and the two arrays. -/
def startOf (img : Image) (argv envp : ExecVec) : UserStart where
  rsp := stackBaseOf img + argcOff argv envp
  argc := argv.strings.length
  argvPtr := stackBaseOf img + argArrayOff argv envp
  envpPtr := stackBaseOf img + envArrayOff argv envp

/-! ## Bytes -/

theorem Holds.byte {img : Image} {pages : List Nat} {m : Mem}
    (h : Holds img (segments img) pages m) {v : Nat} (hv : v < 4096 * pages.length) :
    byteAt pages m v = fileByte img v := by
  unfold fileByte
  cases hfind : (segments img).find? fun s => HasByte s v with
  | none =>
    refine h.zero v hv fun s hs hb => ?_
    have hno := List.find?_eq_none.mp hfind s hs
    exact hno (decide_eq_true hb)
  | some s =>
    have hb : HasByte s v := by simpa using List.find?_some hfind
    have hget := h.file s (List.mem_of_find?_eq_some hfind) v hb
    dsimp only
    rw [List.getD_eq_getElem?_getD, hget]
    rfl

/-- A run of stores looks the same from both bases. -/
theorem storeBytes_shift {m m' : Mem} {p q o : Nat} (h : m (p + o) = m' (q + o)) (a : Nat)
    (bs : List UInt8) : storeBytes m (p + a) bs (p + o) = storeBytes m' (q + a) bs (q + o) := by
  induction bs generalizing m m' a with
  | nil => exact h
  | cons b bs ih =>
    rw [storeBytes, storeBytes, Nat.add_assoc, Nat.add_assoc]
    apply ih
    unfold storeByte
    by_cases ho : o = a
    · rw [if_pos (by omega), if_pos (by omega)]
    · rw [if_neg (by omega), if_neg (by omega), h]

/-- On a zeroed page the stack builder leaves the same bytes wherever the page is. -/
theorem stackMem_at {m : Mem} {p o : Nat} (h : m (p + o) = 0) (base : Int) (argv envp : ExecVec) :
    stackMem m p base argv envp (p + o) = stackPageByte base argv envp o :=
  storeBytes_shift (storeBytes_shift h _ _) _ _

/-! ## Pages -/

/-- The pages hold the space of the program. -/
structure Fresh (img : Image) (argv envp : ExecVec) (pages : List Nat) (m : Mem) : Prop where
  count : pages.length = spacePages img
  bytes : ∀ v < 4096 * pages.length, byteAt pages m v = startByte img argv envp v

theorem Fresh.congr {img : Image} {argv envp : ExecVec} {pages : List Nat} {m m' : Mem}
    (h : Fresh img argv envp pages m) (hs : ∀ p ∈ pages, SamePage m m' p) :
    Fresh img argv envp pages m' := by
  refine ⟨h.count, fun v hv => ?_⟩
  obtain ⟨hi, ha⟩ := pageAddr_of_lt hv
  rw [← h.bytes v hv]
  unfold byteAt
  rw [ha]
  exact hs _ (List.getElem_mem hi) _ (by omega) (by omega)

/-- The stack builder completes the space of a loaded image. -/
theorem Faithful.fresh {img : Image} {pages flags : List Nat} {m : Mem}
    (h : Faithful img pages flags m) (hpos : 0 < pageCount img)
    (hin : ∀ s ∈ segments img, ∀ v, HasByte s v → (v : Int) < 4096 * pageCount img)
    (hnd : pages.Nodup) (hal : ∀ p ∈ pages, p % 4096 = 0) {p : Nat}
    (hlast : pages.getLast? = some p) (argv envp : ExecVec) :
    Fresh img argv envp pages
      (stackMem m p (userTaskStackBaseVirt pages.length) argv envp) := by
  have hcount : pages.length = spacePages img := by
    have := h.count
    unfold spacePages
    omega
  have hne : 0 < pages.length := by
    have := h.count
    omega
  have hp : p = pages[pages.length - 1] := by
    rw [List.getLast?_eq_getElem?, List.getElem?_eq_getElem (by omega)] at hlast
    exact (Option.some.inj hlast).symm
  refine ⟨hcount, fun v hv => ?_⟩
  obtain ⟨hi, ha⟩ := pageAddr_of_lt hv
  unfold byteAt startByte
  rw [ha, ← hcount]
  by_cases hlow : v < 4096 * (pages.length - 1)
  · rw [if_pos hlow, ← h.holds.byte hv]
    have hpage : pages[v / 4096] ≠ p := by
      intro he
      rw [hp] at he
      have := (List.Nodup.getElem_inj_iff hnd).mp he
      omega
    have h1 := hal _ (List.getElem_mem hi)
    have h2 := hal p (List.mem_of_getLast? hlast)
    have hle : pages[v / 4096] + 4096 ≤ p ∨ p + 4096 ≤ pages[v / 4096] := by omega
    unfold byteAt
    rw [ha]
    obtain ⟨-, -, -, -, hargc, -⟩ := layoutOk argv envp
    have hstr : stringsOff argv envp ≤ 4096 := Nat.sub_le _ _
    exact stackMem_of_outside (by omega) (by omega)
  · have hidx : v / 4096 = pages.length - 1 := by omega
    have hoff : v % 4096 = v - 4096 * (pages.length - 1) := by omega
    have hpage : pages[v / 4096] = p := by
      rw [hp]
      congr 1
    have hzero : m (p + v % 4096) = 0 := by
      have hz := h.holds.zero v hv fun s hs hb => by
        have := hin s hs v hb
        have := h.count
        omega
      unfold byteAt at hz
      rwa [ha, hpage] at hz
    rw [if_neg hlow, hpage, stackMem_at hzero, hoff]
    unfold stackBaseOf
    rw [hcount]

/-! ## Placing an image -/

/-- The pages, the entry point and the first registers of a program. -/
structure Starts (img : Image) (argv envp : ExecVec) (im : UserImage) (m : Mem) : Prop where
  fresh : Fresh img argv envp im.pages m
  rip : im.rip = userTaskRegionBase + entryPoint img
  start : im.start = startOf img argv envp

section Accepted

variable {img : Image} (hlen : img.length < 2 ^ 63) (hv : elfValidateUserImage img = .ok true)
  (hf : ∀ s ∈ segments img, PlainFields s)

include hlen hv hf in
theorem userPageFlag_iff (i : Nat) : userPageFlag img i = 7 ↔ pageWritable img i = true := by
  obtain ⟨hs, hin, ha⟩ := elfValidateUserImage_accepts hlen hv
  have hpos := ha.pos
  unfold userPageFlag
  rw [elfUserImagePageCount_eq hs hin, elfUserLoadSegmentCount_eq hs hin]
  unfold pageFlag pageWritable
  dsimp only
  have hw : (pageCount img).toNat ≤ i ∨ pageMarked img (segments img).length i = true ↔
      pageCount img ≤ i ∨ ∃ s ∈ segments img, Writable s ∧ Meets s i :=
    or_congr (by omega) (pageMarked_iff hs hin ha hf i)
  rw [decide_eq_true_iff, ← hw]
  split_ifs with hc
  · exact iff_of_true rfl hc
  · exact iff_of_false (by decide) hc

include hlen hv in
theorem describeUserImage_rip {pages : List Nat} {start : UserStart} {im : UserImage}
    (h : describeUserImage img pages start = .ok im) :
    im.pages = pages ∧ im.rip = userTaskRegionBase + entryPoint img ∧ im.start = start := by
  obtain ⟨hs, hin, ha⟩ := elfValidateUserImage_accepts hlen hv
  have hentry : elfUserEntryOffset img = .ok (entryPoint img) := by
    unfold elfUserEntryOffset
    rw [hv, ok_bind, if_neg (by decide)]
    exact elfEntryOffset_eq hs
  unfold describeUserImage at h
  obtain ⟨n, -, h⟩ := bind_eq_ok.mp h
  rw [hentry, ok_bind] at h
  cases h
  exact ⟨rfl, rfl, rfl⟩

include hlen hv in
theorem describeUserImage_ok (pages : List Nat) (start : UserStart) :
    ∃ im, describeUserImage img pages start = .ok im := by
  obtain ⟨hs, hin, -⟩ := elfValidateUserImage_accepts hlen hv
  unfold describeUserImage elfUserEntryOffset
  rw [elfUserImagePageCount_eq hs hin, ok_bind, hv, ok_bind, if_neg (by decide),
    elfEntryOffset_eq hs, ok_bind]
  exact ⟨_, rfl⟩

include hlen hv hf in
/-- What stands once the pages are loaded and the stack is built. -/
theorem prepared_fresh {P : Pool} {ph ph₁ ph₂ : Phys} {heap heap₁ heap₂ : Heap}
    (hinv : PmmInv P ph.pmm) (hh : HeapOk heap) {pages flags : List Nat} {argv envp : ExecVec}
    {start : UserStart}
    (h₁ : schedulerPrepareUserImagePages img ph heap = .ok (pages, flags, ph₁, heap₁))
    (h₂ : schedulerBuildUserInitialStack pages argv envp ph₁ heap₁ = .ok (start, ph₂, heap₂)) :
    Fresh img argv envp pages ph₂.mem ∧ start = startOf img argv envp := by
  obtain ⟨hs, hin, ha⟩ := elfValidateUserImage_accepts hlen hv
  obtain ⟨hprep, -⟩ := (schedulerPrepareUserImagePages_spec hinv hh hv).of_ok h₁
  have hfaith := schedulerPrepareUserImagePages_faithful hlen hv hf hinv hh h₁
  have hpage : ∀ p ∈ pages, TablePage p := fun p hp => hprep.new.page hp
  have hnodup : pages.Nodup := by
    have hbal := hprep.new.inv.balanced.nodup
    rw [hprep.new.out] at hbal
    exact Multiset.coe_nodup.mp (Multiset.nodup_add.mp hbal).2.1
  have hcount := hfaith.count
  have hpos := ha.pos
  have hne : pages ≠ [] := by
    intro hc
    rw [hc, List.length_nil] at hcount
    omega
  have hlast := List.getLast?_eq_some_getLast hne
  obtain ⟨hstart, hmem, -⟩ := (schedulerBuildUserInitialStack_eq
    (hpage _ (List.getLast_mem hne)) hlast argv envp ph₁ hprep.heap.1).of_ok h₂
  have hfresh := hfaith.fresh hpos (fun s hm v hb => lt_of_hasByte ha hf hm hb) hnodup
    (fun p hp => (hpage p hp).aligned) hlast argv envp
  dsimp only at hstart hmem
  refine ⟨?_, ?_⟩
  · rw [hmem]
    exact hfresh
  · rw [hstart, hfresh.count]
    rfl

/-- The offsets of a segment run past the largest `int`. -/
def Overruns (img : Image) : Prop :=
  ∃ s ∈ segments img, 0 < s.filesz ∧ 2 ^ 63 ≤ s.offset + s.filesz

include hlen hv hf in
/-- Loading fails for lack of pages or early heap, or on offsets that run over. -/
theorem schedulerPrepareUserImagePages_loads {P : Pool} {ph : Phys} {heap : Heap}
    (hinv : PmmInv P ph.pmm) (hh : HeapOk heap) :
    Ends (schedulerPrepareUserImagePages img ph heap) (fun _ => True)
      (fun _ => ph.pmm.freePages < 69 ∨ heap.stop < heap.ptr + 2000 ∨ Overruns img) := by
  obtain ⟨hs, hin, ha⟩ := elfValidateUserImage_accepts hlen hv
  by_contra hnot
  have hroom : 69 ≤ ph.pmm.freePages ∧ heap.ptr + 2000 ≤ heap.stop ∧ ¬ Overruns img := by
    cases hr : schedulerPrepareUserImagePages img ph heap with
    | ok r => exact absurd (hr ▸ trivial) hnot
    | error e =>
      rw [hr, ends_error, not_or, not_or] at hnot
      exact ⟨by omega, by omega, hnot.2.2⟩
  obtain ⟨hfree, hheap, hover⟩ := hroom
  have hpos := ha.pos
  have hmax := ha.max
  have hcast : ((pageCount img).toNat : Int) = pageCount img := by omega
  have ht : ∀ s ∈ segments img, TouchesInside s (pageCount img) img.length := by
    intro s hm
    obtain ⟨h1, h2, h3, h4, h5⟩ := hf s hm
    refine touchesInside_of_fields ha hm ⟨fun h0 => ⟨h1, ?_⟩, fun _ => h4, fun _ => Or.inl ?_⟩
    · by_contra hsum
      exact hover ⟨s, hm, h0, by omega⟩
    · omega
  obtain ⟨r, hok⟩ := schedulerPrepareUserImagePages_ok hs hin hinv hh hcast.symm (by omega)
    (by omega) hheap (by rwa [hcast])
  rw [hok] at hnot
  exact hnot trivial

end Accepted

section Place

variable {P : Pool} {root : Nat} {ph ph' : Phys} {sh : Shape} {v : VmmState} {heap heap' : Heap}
  {img : Image} {im : UserImage} {argv envp : ExecVec}

/-- Mapping the pages writes to tables only. -/
theorem schedulerMapUserImagePages_keeps (hvm : VmmOk v) (hinv : PmmInv P ph.pmm)
    (hb : BareRoot ph.mem root sh) {pages flags : List Nat} (hp : ∀ p ∈ pages, TablePage p)
    (hfit : Fits img pages) (hlen : flags.length + 1 = pages.length)
    (hflags : ∀ i < pages.length, (flags ++ [schedulerUserPageFlagsWritable]).getD i 0 =
      userPageFlag img i) {R : Multiset Nat}
    (hR : outstanding ph.pmm.history = tables root sh + (↑pages + R))
    (h : schedulerMapUserImagePages v root pages flags ph = .ok ph') :
    ∀ p ∈ pages, SamePage ph.mem ph'.mem p := by
  have ho : Owned P root ph sh :=
    ⟨hinv, hb.realizes, by rw [hR]; exact Multiset.le_add_right _ _⟩
  obtain ⟨sh', hstep, -⟩ := (schedulerMapUserImagePages_spec hvm ho hb hp hfit hlen hflags).of_ok h
  exact fun p hp => (hstep.keeps (R := ↑pages + R) hR.ge).1 p
    (Multiset.mem_add.mpr (Or.inl hp))

variable (hlen : img.length < 2 ^ 63) (hv : elfValidateUserImage img = .ok true)
  (hf : ∀ s ∈ segments img, PlainFields s) (hvm : VmmOk v) (hinv : PmmInv P ph.pmm)
  (hh : HeapOk heap)

include hlen hv hf hvm hinv hh

/-- A new root. -/
theorem schedulerInstallUserImage_starts (hb : BareRoot ph.mem root sh) {R : Multiset Nat}
    (hR : outstanding ph.pmm.history = tables root sh + R)
    (h : schedulerInstallUserImage v root img argv envp ph heap = .ok (im, ph', heap')) :
    Starts img argv envp im ph'.mem := by
  unfold schedulerInstallUserImage at h
  obtain ⟨⟨pages, flags, ph₁, heap₁⟩, h₁, h⟩ := bind_eq_ok.mp h
  obtain ⟨⟨start, ph₂, heap₂⟩, h₂, h⟩ := bind_eq_ok.mp h
  obtain ⟨ph₃, h₃, h⟩ := bind_eq_ok.mp h
  obtain ⟨im', h₄, h⟩ := bind_eq_ok.mp h
  cases h
  obtain ⟨hprep, -⟩ := (schedulerPrepareUserImagePages_spec hinv hh hv).of_ok h₁
  obtain ⟨hfit, hfl, hflags⟩ := hprep.fits hv
  obtain ⟨h6, -⟩ := hfit.length
  have hpage : ∀ p ∈ pages, TablePage p := fun p hp => hprep.new.page hp
  have hone : 1 ≤ pages.length := by
    dsimp only at h6
    omega
  obtain ⟨honly, hpmm, hcr3, -⟩ := (schedulerBuildUserInitialStack_spec hpage hone argv envp
    ph₁ hprep.heap.1).of_ok h₂
  have hnew := hprep.new.write honly hpmm hcr3
  have hb₂ := hb.frame fun p hp => hnew.keeps (by
    rw [hR]
    exact Multiset.mem_add.mpr (Or.inl hp))
  have hkeeps := schedulerMapUserImagePages_keeps hvm hnew.inv hb₂ hpage hfit hfl hflags (R := R)
    (by rw [hnew.out, hR]; abel) h₃
  obtain ⟨hfresh, hstart⟩ := prepared_fresh hlen hv hf hinv hh h₁ h₂
  obtain ⟨hpages, hrip, hst⟩ := describeUserImage_rip hlen hv h₄
  exact ⟨hpages ▸ hfresh.congr hkeeps, hrip, hst.trans hstart⟩

/-- Loading into a new root fails for nothing else either. -/
theorem schedulerInstallUserImage_loads (hb : BareRoot ph.mem root sh) {R : Multiset Nat}
    (hR : outstanding ph.pmm.history = tables root sh + R) :
    Ends (schedulerInstallUserImage v root img argv envp ph heap) (fun _ => True)
      (fun _ => ph.pmm.freePages < 70 ∨ heap.stop < heap.ptr + 2200 ∨ Overruns img) := by
  unfold schedulerInstallUserImage
  refine ends_bind (((schedulerPrepareUserImagePages_spec hinv hh hv).and
    (schedulerPrepareUserImagePages_loads hlen hv hf hinv hh)).mono (fun _ h => h.1) ?_) ?_
  · intro _ he
    obtain he | he | he := he.2
    · exact Or.inl (by omega)
    · exact Or.inr (Or.inl (by omega))
    · exact Or.inr (Or.inr he)
  intro r hr
  obtain ⟨pages, flags, ph₁, heap₁⟩ := r
  obtain ⟨hprep, hfree, hptr⟩ := hr
  dsimp only at hprep hfree hptr ⊢
  have hok := hprep.heap.1
  have hstop := hprep.heap.2.stop
  obtain ⟨hfit, hfl, hflags⟩ := hprep.fits hv
  obtain ⟨h6, h69⟩ := hfit.length
  have hpage : ∀ p ∈ pages, TablePage p := fun p hp => hprep.new.page hp
  refine ends_bind ((schedulerBuildUserInitialStack_spec hpage (by omega) argv envp ph₁ hok).mono
    (fun _ h => h) fun _ he => Or.inr (Or.inl (by omega))) ?_
  intro q hq
  obtain ⟨start, ph₂, heap₂⟩ := q
  obtain ⟨honly, hpmm, hcr3, -⟩ := hq
  dsimp only at honly hpmm hcr3 ⊢
  have hnew := hprep.new.write honly hpmm hcr3
  have hb₂ := hb.frame fun p hp => hnew.keeps (by
    rw [hR]
    exact Multiset.mem_add.mpr (Or.inl hp))
  have ho : Owned P root ph₂ sh := ⟨hnew.inv, hb₂.realizes, by
    rw [hnew.out, hR, add_assoc]
    exact Multiset.le_add_right _ _⟩
  refine ends_bind ((schedulerMapUserImagePages_spec hvm ho hb₂ hpage hfit hfl hflags).mono
    (fun _ h => h) ?_) fun _ _ => ?_
  · intro _ he
    rw [hpmm] at he
    exact Or.inl (by omega)
  · obtain ⟨im, him⟩ := describeUserImage_ok hlen hv pages start
    rw [him, ok_bind]
    trivial

/-- A root that had another image. -/
theorem replaceUserImage_starts {img₀ : Image} {pages₀ : List Nat} (hfit₀ : Fits img₀ pages₀)
    (hu : UserRoot ph.mem root sh pages₀ (userPageFlag img₀)) {R : Multiset Nat}
    (hR : outstanding ph.pmm.history = tables root sh + (↑pages₀ + R))
    (h : replaceUserImage v root userTaskRegionBase pages₀ pages₀.length img argv envp ph heap =
      .ok (im, ph', heap')) : Starts img argv envp im ph'.mem := by
  obtain ⟨h6₀, h69₀⟩ := hfit₀.length
  unfold replaceUserImage at h
  obtain ⟨⟨pages, flags, ph₁, heap₁⟩, h₁, h⟩ := bind_eq_ok.mp h
  obtain ⟨⟨start, ph₂, heap₂⟩, h₂, h⟩ := bind_eq_ok.mp h
  obtain ⟨ph₃, h₃, h⟩ := bind_eq_ok.mp h
  obtain ⟨ph₄, h₄, h⟩ := bind_eq_ok.mp h
  obtain ⟨im', h₅, h⟩ := bind_eq_ok.mp h
  cases h
  obtain ⟨hprep, -⟩ := (schedulerPrepareUserImagePages_spec hinv hh hv).of_ok h₁
  obtain ⟨hfit, hfl, hflags⟩ := hprep.fits hv
  obtain ⟨h6, -⟩ := hfit.length
  have hpage : ∀ p ∈ pages, TablePage p := fun p hp => hprep.new.page hp
  have hone : 1 ≤ pages.length := by
    dsimp only at h6
    omega
  obtain ⟨honly, hpmm, hcr3, -⟩ := (schedulerBuildUserInitialStack_spec hpage hone argv envp
    ph₁ hprep.heap.1).of_ok h₂
  have hnew := hprep.new.write honly hpmm hcr3
  have hu₂ := hu.frame h69₀ fun p hp => hnew.keeps (by
    rw [hR]
    exact Multiset.mem_add.mpr (Or.inl hp))
  obtain ⟨sh₃, hinv₃, hb₃, hout₃, hkeep₃, -⟩ := (dropUserImage_spec hvm hnew.inv hfit₀ hu₂
    (R := ↑pages + R) (by rw [hnew.out, hR]; abel)).of_ok h₃
  have hkeeps := schedulerMapUserImagePages_keeps hvm hinv₃ hb₃ hpage hfit hfl hflags hout₃ h₄
  obtain ⟨hfresh, hstart⟩ := prepared_fresh hlen hv hf hinv hh h₁ h₂
  obtain ⟨hpages, hrip, hst⟩ := describeUserImage_rip hlen hv h₅
  have hdrop : ∀ p ∈ pages, SamePage ph₂.mem ph₃.mem p := fun p hp =>
    hkeep₃ p (Multiset.mem_add.mpr (Or.inl hp))
  exact ⟨hpages ▸ (hfresh.congr hdrop).congr hkeeps, hrip, hst.trans hstart⟩

end Place

end PcoOs.Image
