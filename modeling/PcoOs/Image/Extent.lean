/-
  Which accepted images load inside their own pages. The validator checks sums of header fields
  in wrapping arithmetic and no field for its sign, so a negative address, a negative file offset
  or a sum that wraps can get through; the loader then indexes the page array, the flag array and
  the file with it. `image_loads_inside_iff` says exactly which fields an accepted image must have.
-/
import PcoOs.Elf.Validate
import PcoOs.Image.Pages
import PcoOs.Pmm.Runs

namespace PcoOs.Image

open PcoOs.Lib PcoOs.Pmm PcoOs.Support PcoOs.Vmm PcoOs.Elf

/-! ## The pages and bytes a segment touches -/

/-- The pages marked for a writable segment run from `firstPage` to just before `pageEnd`. -/
def firstPage (s : Segment) : Int := s.vaddr >>> (12 : Nat)

def pageEnd (s : Segment) : Int :=
  alignDownI (wrap (s.vaddr + s.memsz + userPageSize - 1)) userPageSize >>> (12 : Nat)

def Writable (s : Segment) : Prop := s.flags &&& elfPfW.toNat ≠ 0

/-- The page byte `i` of the segment goes to, and where in the file it comes from. -/
def bytePage (s : Segment) (i : Nat) : Int := wrap (s.vaddr + i) >>> (12 : Nat)

def byteOffset (s : Segment) (i : Nat) : Int := wrap (s.offset + i)

/-- Everything the loader indexes for `s` lies in the `filePages` pages of the file or in its
    `len` bytes. -/
structure TouchesInside (s : Segment) (filePages : Int) (len : Nat) : Prop where
  marked : Writable s → ∀ page, firstPage s ≤ page → page < pageEnd s → 0 ≤ page ∧ page < filePages
  copied : ∀ i < s.filesz.toNat, 0 ≤ bytePage s i ∧ bytePage s i < filePages
  read : ∀ i < s.filesz.toNat, 0 ≤ byteOffset s i ∧ byteOffset s i < len

theorem markWritable_ok {page : Int} {n : Nat} {flags : List Nat}
    (h : ∀ i < n, 0 ≤ page + i ∧ page + i < flags.length) :
    ∃ flags', markWritable page n flags = .ok flags' ∧ flags'.length = flags.length := by
  unfold markWritable
  refine loop_eq_ok (fun _ (l : List Nat) => l.length = flags.length) rfl ?_
  intro j l _ hj hlen
  have hi := h j (by omega)
  unfold schedulerSetPageFlags
  rw [if_neg (by omega)]
  exact ⟨_, rfl, by rw [List.length_set, hlen]⟩

theorem copySegmentByte_ok {img : Image} {pages : List Nat} {s : Segment} {i : Nat}
    (hp : ∀ p ∈ pages, TablePage p) (hpage : 0 ≤ bytePage s i ∧ bytePage s i < pages.length)
    (hread : 0 ≤ byteOffset s i ∧ byteOffset s i < img.length) (m : Mem) :
    ∃ m', copySegmentByte img pages s.vaddr s.offset i m = .ok m' := by
  unfold bytePage at hpage
  unfold byteOffset at hread
  have hlt : (wrap (s.vaddr + i) >>> (12 : Nat)).toNat < pages.length := by omega
  have hpos := (hp _ (List.getElem_mem hlt)).pos
  unfold copySegmentByte userPageArrayQword
  rw [if_neg (by omega), ok_bind, List.getD_eq_getElem _ _ hlt,
    imageByte_ok ⟨hread.1, by have := hread.2; push_cast; omega⟩, ok_bind,
    storeByteRegion_ok (by omega) (Int.emod_nonneg _ (by decide)) (Int.emod_lt_of_pos _ (by decide))]
  exact ⟨_, rfl⟩

/-- A segment that stays inside loads without a panic. -/
theorem loadUserSegment_ok {img : Image} (hs : Sized img) (hin : HeadersInside img) {i fp : Nat}
    {s : Segment} (hi : (segments img)[i]? = some s) {pages : List Nat}
    (hp : ∀ p ∈ pages, TablePage p) (hlen : pages.length = fp + 5)
    (ht : TouchesInside s fp img.length) {st : List Nat × Mem} (hst : st.1.length = fp + 4) :
    ∃ st', loadUserSegment img pages i st = .ok st' ∧ st'.1.length = fp + 4 := by
  have hflags : ∃ flags, segmentPageFlags s.flags (firstPage s) (pageEnd s) st.1 = .ok flags ∧
      flags.length = fp + 4 := by
    unfold segmentPageFlags
    split_ifs with hw
    · have hmark : ∀ j < (pageEnd s - firstPage s).toNat,
          0 ≤ firstPage s + j ∧ firstPage s + j < st.1.length := by
        intro j hj
        have := ht.marked (by simpa [Writable] using hw) (firstPage s + j) (by omega) (by omega)
        omega
      obtain ⟨flags, hf, hl⟩ := markWritable_ok hmark
      exact ⟨flags, hf, hl.trans hst⟩
    · exact ⟨st.1, rfl, hst⟩
  obtain ⟨flags, hf, hl⟩ := hflags
  obtain ⟨m, hm, -⟩ := loop_eq_ok (f := copySegmentByte img pages s.vaddr s.offset)
    (fun _ _ => True) (i := 0) (n := s.filesz.toNat) (s := st.2) trivial fun j m' _ hj _ => by
      have hc := ht.copied j (by omega)
      obtain ⟨m'', h⟩ := copySegmentByte_ok hp (s := s) (i := j) ⟨hc.1, by omega⟩
        (ht.read j (by omega)) m'
      exact ⟨m'', h, trivial⟩
  unfold loadUserSegment
  rw [elfUserSegmentOffset_eq hs hin hi, ok_bind, elfUserSegmentVaddr_eq hs hin hi, ok_bind,
    elfUserSegmentFilesz_eq hs hin hi, ok_bind, elfUserSegmentMemsz_eq hs hin hi, ok_bind,
    elfUserSegmentFlags_eq hs hin hi, ok_bind]
  unfold firstPage pageEnd at hf
  rw [hf, ok_bind, hm, ok_bind]
  exact ⟨_, rfl, hl⟩

/-- Preparing an accepted image with pages and heap to spare is a matter of its segments. -/
theorem schedulerPrepareUserImagePages_ok {P : Pool} {img : Image} {ph : Phys} {heap : Heap}
    (hs : Sized img) (hin : HeadersInside img) (h : PmmInv P ph.pmm) (hh : HeapOk heap) {fp : Nat}
    (hfp : pageCount img = fp) (h64 : fp ≤ 64) (hfree : fp + 5 ≤ ph.pmm.freePages)
    (hheap : heap.ptr + 2000 ≤ heap.stop) (ht : ∀ s ∈ segments img, TouchesInside s fp img.length) :
    ∃ r, schedulerPrepareUserImagePages img ph heap = .ok r := by
  unfold schedulerPrepareUserImagePages
  rw [elfUserImagePageCount_eq hs hin, hfp, ok_bind]
  dsimp only
  unfold userTaskHeapPages maxUserMappedPages
  obtain ⟨⟨p₁, heap₁⟩, h₁, -, hok₁, hg₁, -, hlt₁⟩ :=
    (allocBytes_spec hh (n := ((fp : Int) + 4 + 1) * 8) (by omega)).exists_ok fun _ he => by omega
  have hstop := hg₁.stop
  dsimp only at hok₁ hlt₁ hstop
  obtain ⟨⟨p₂, heap₂⟩, h₂, -⟩ :=
    (allocBytes_spec hok₁ (n := ((fp : Int) + 4) * 8) (by omega)).exists_ok fun _ he => by omega
  obtain ⟨⟨pages, ph₁⟩, h₃, hlen, hnew, -⟩ :=
    (allocUserPages_spec ((fp : Int) + 4 + 1).toNat h).exists_ok fun _ he => by omega
  dsimp only at hlen hnew
  rw [h₁, ok_bind, h₂, ok_bind, if_neg (by omega), h₃, ok_bind,
    elfUserLoadSegmentCount_eq hs hin, ok_bind]
  obtain ⟨st, hst, -⟩ := loop_eq_ok (f := loadUserSegment img pages)
    (fun _ (st : List Nat × Mem) => st.1.length = fp + 4) (i := 0) (n := (segments img).length)
    (s := (List.replicate (fp : Int).toNat schedulerUserPageFlagsDefault ++
      List.replicate (4 : Int).toNat schedulerUserPageFlagsWritable, ph₁.mem))
    (by simp) fun i st _ hi hst => by
      have hget := List.getElem?_eq_getElem (show i < (segments img).length by omega)
      exact loadUserSegment_ok hs hin hget (fun p hp => hnew.page hp) (by omega)
        (ht _ (List.mem_of_getElem? hget)) hst
  rw [hst]
  exact ⟨_, rfl⟩

/-! ## Which fields keep a segment inside -/

/-- Header fields of a segment that are not negative where they are used and whose sums do not
    wrap. -/
structure FieldsOk (s : Segment) (filePages : Int) : Prop where
  offset : 0 < s.filesz → 0 ≤ s.offset ∧ s.offset + s.filesz < 2 ^ 63
  vaddr : 0 < s.filesz ∨ Writable s → 0 ≤ s.vaddr
  stop : 0 < s.filesz → s.vaddr + s.memsz < 2 ^ 63 ∨ s.vaddr + s.filesz ≤ 4096 * filePages

/-- The values a Codon `int` holds. -/
structure IntFields (s : Segment) : Prop where
  offset : -2 ^ 63 ≤ s.offset ∧ s.offset < 2 ^ 63
  vaddr : -2 ^ 63 ≤ s.vaddr ∧ s.vaddr < 2 ^ 63
  filesz : s.filesz < 2 ^ 63
  memsz : s.memsz < 2 ^ 63

theorem intFields {img : Image} {s : Segment} (h : s ∈ segments img) : IntFields s := by
  obtain ⟨q, rfl⟩ := exists_header h
  exact ⟨wrap_range _, wrap_range _, (wrap_range _).2, (wrap_range _).2⟩

theorem shiftRight_twelve (x : Int) : x >>> (12 : Nat) = x / 4096 := Int.shiftRight_eq_div_pow x 12

theorem le_topOf (l : List Segment) {t : Int} (ht : t < 2 ^ 63) :
    t ≤ topOf l t ∧ topOf l t < 2 ^ 63 ∧ ∀ s ∈ l, s.stop ≤ topOf l t := by
  induction l generalizing t with
  | nil => exact ⟨le_refl _, ht, fun s hs => absurd hs List.not_mem_nil⟩
  | cons s rest ih =>
    have hlt : (if s.stop > t then s.stop else t) < 2 ^ 63 := by
      split_ifs
      · exact (wrap_range _).2
      · exact ht
    obtain ⟨h1, h2, h3⟩ := ih hlt
    have hle : s.stop ≤ (if s.stop > t then s.stop else t) ∧
        t ≤ (if s.stop > t then s.stop else t) := by
      split_ifs <;> omega
    rw [topOf]
    refine ⟨hle.2.trans h1, h2, fun u hu => ?_⟩
    rcases List.mem_cons.mp hu with rfl | hu
    · exact hle.1.trans h1
    · exact h3 u hu

/-- The end of every segment of an accepted image is inside the pages of the file. -/
theorem stop_le_pages {img : Image} (h : Accepts img) {s : Segment} (hs : s ∈ segments img) :
    s.stop ≤ 4096 * pageCount img := by
  obtain ⟨h0, hlt, hle⟩ := le_topOf (segments img) (show (0 : Int) < 2 ^ 63 by norm_num)
  have hstop := hle s hs
  have hp := h.pos
  unfold pageCount alignUpI alignDownI at hp ⊢
  rw [shiftRight_twelve] at hp ⊢
  -- a top that wraps would give a page count below zero
  by_cases hw : topOf (segments img) 0 + 4096 - 1 < 2 ^ 63
  · rw [wrap_of_range (by omega) hw]
    omega
  · unfold wrap at hp
    omega

/-! ## The exact condition -/

section Exact

variable {img : Image} {s : Segment} (ha : Accepts img) (hs : s ∈ segments img)
include ha hs

/-- A segment with a negative address has pages to mark, the first of them negative. -/
theorem firstPage_marked (hv : s.vaddr < 0) : firstPage s < 0 ∧ firstPage s < pageEnd s := by
  have hi := intFields hs
  have hm := (ha.wellFormed s hs).memsz
  have hal := (ha.wellFormed s hs).aligned
  have h1 := hi.vaddr
  have h2 := hi.memsz
  unfold firstPage pageEnd alignDownI userPageSize
  rw [shiftRight_twelve, shiftRight_twelve, wrap_of_range (by omega) (by omega)]
  omega

/-- A wrapping sum marks no page, a sum that does not wrap ends inside the file's pages. -/
theorem pageEnd_le (hv : 0 ≤ s.vaddr) : pageEnd s ≤ pageCount img := by
  have hi := intFields hs
  have hm := (ha.wellFormed s hs).memsz
  have h1 := hi.vaddr
  have h2 := hi.memsz
  have hp := ha.pos
  have hstop := stop_le_pages ha hs
  unfold Segment.stop at hstop
  unfold pageEnd alignDownI userPageSize
  rw [shiftRight_twelve]
  by_cases hw : s.vaddr + s.memsz < 2 ^ 63
  · rw [wrap_of_range (by omega) hw] at hstop
    have h64 := ha.max
    rw [wrap_of_range (by omega) (by omega)]
    omega
  · unfold wrap
    omega

theorem touchesInside_of_fields (hf : FieldsOk s (pageCount img)) :
    TouchesInside s (pageCount img) img.length := by
  have hi := intFields hs
  have hw := ha.wellFormed s hs
  have hstop := stop_le_pages ha hs
  have h64 := ha.max
  unfold Segment.stop at hstop
  have hbyte : ∀ i < s.filesz.toNat, 0 ≤ s.vaddr ∧ s.vaddr + i < 4096 * pageCount img := by
    intro i hlt
    have hv := hf.vaddr (Or.inl (by omega))
    have hfm := hw.filesz
    rcases hf.stop (by omega) with h | h
    · rw [wrap_of_range (by omega) h] at hstop
      omega
    · omega
  refine ⟨fun hwr page h1 h2 => ?_, fun i hlt => ?_, fun i hlt => ?_⟩
  · have hv := hf.vaddr (Or.inr hwr)
    have hend := pageEnd_le ha hs hv
    unfold firstPage at h1
    rw [shiftRight_twelve] at h1
    omega
  · obtain ⟨h0, h1⟩ := hbyte i hlt
    unfold bytePage
    rw [shiftRight_twelve, wrap_of_range (by omega) (by omega)]
    omega
  · obtain ⟨h0, h1⟩ := hf.offset (by omega)
    have hfile := hw.file
    rw [wrap_of_range (by omega) h1] at hfile
    unfold byteOffset
    rw [wrap_of_range (by omega) (by omega)]
    omega

/-- Bytes past the largest `int` do not exist, so the sums that reach them are excluded. -/
theorem fields_of_touchesInside (hlen : img.length < 2 ^ 63)
    (ht : TouchesInside s (pageCount img) img.length) : FieldsOk s (pageCount img) := by
  have hi := intFields hs
  have hw := ha.wellFormed s hs
  have h64 := ha.max
  have hvaddr := hi.vaddr
  have hoffset := hi.offset
  have hfirst : 0 < s.filesz → 0 ≤ s.vaddr := by
    intro h0
    have hc := (ht.copied 0 (by omega)).1
    unfold bytePage at hc
    rw [shiftRight_twelve, wrap_of_range (by push_cast; omega) (by push_cast; omega)] at hc
    push_cast at hc
    omega
  refine ⟨fun h0 => ?_, fun h => ?_, fun h0 => ?_⟩
  · have hr := (ht.read 0 (by omega)).1
    unfold byteOffset at hr
    rw [wrap_of_range (by push_cast; omega) (by push_cast; omega)] at hr
    push_cast at hr
    refine ⟨by omega, ?_⟩
    by_contra hsum
    have hlast := (ht.read (2 ^ 63 - 1 - s.offset).toNat (by omega)).2
    unfold byteOffset at hlast
    rw [wrap_of_range (by omega) (by omega)] at hlast
    omega
  · rcases h with h | h
    · exact hfirst h
    · by_contra hv
      obtain ⟨hneg, hlt⟩ := firstPage_marked ha hs (by omega)
      have := (ht.marked h (firstPage s) (le_refl _) hlt).1
      omega
  · have hv := hfirst h0
    refine Or.inr ?_
    have hsum : s.vaddr + s.filesz < 2 ^ 63 := by
      by_contra hsum
      have hlast := (ht.copied (2 ^ 63 - 1 - s.vaddr).toNat (by omega)).2
      unfold bytePage at hlast
      rw [shiftRight_twelve, wrap_of_range (by omega) (by omega)] at hlast
      omega
    have hlast := (ht.copied (s.filesz - 1).toNat (by omega)).2
    unfold bytePage at hlast
    rw [shiftRight_twelve, wrap_of_range (by omega) (by omega)] at hlast
    omega

end Exact

/-- Loading stays inside the image: the pages are prepared, everything indexed on the way lies
    in the file or in its pages, and so does the entry point. -/
structure LoadsInside (img : Image) (ph : Phys) (heap : Heap) : Prop where
  returns : ∃ r, schedulerPrepareUserImagePages img ph heap = .ok r
  touches : ∀ s ∈ segments img, TouchesInside s (pageCount img) img.length
  entry : ∃ e, elfUserEntryOffset img = .ok e ∧ 0 ≤ e ∧ e < 4096 * pageCount img

/-- An accepted image loads inside its pages exactly when its entry point is not negative, the
    offset and address of a segment with file bytes and the address of a writable one are not
    negative, and the sums of the fields used do not wrap. -/
theorem image_loads_inside_iff {P : Pool} {img : Image} {ph : Phys} {heap : Heap}
    (hlen : img.length < 2 ^ 63) (hv : elfValidateUserImage img = .ok true)
    (h : PmmInv P ph.pmm) (hh : HeapOk heap) (hfree : pageCount img + 5 ≤ ph.pmm.freePages)
    (hheap : heap.ptr + 2000 ≤ heap.stop) :
    LoadsInside img ph heap ↔
      0 ≤ entryPoint img ∧ ∀ s ∈ segments img, FieldsOk s (pageCount img) := by
  obtain ⟨hs, hin, ha⟩ := elfValidateUserImage_accepts hlen hv
  have hentry : elfUserEntryOffset img = .ok (entryPoint img) := by
    unfold elfUserEntryOffset
    rw [hv, ok_bind, if_neg (by simp), elfEntryOffset_eq hs]
  constructor
  · rintro ⟨-, ht, e, he, h0, -⟩
    rw [← Except.ok.inj (hentry.symm.trans he)] at h0
    exact ⟨h0, fun s hm => fields_of_touchesInside ha hm hlen (ht s hm)⟩
  · rintro ⟨h0, hf⟩
    have hpos := ha.pos
    have hmax := ha.max
    have ht : ∀ s ∈ segments img, TouchesInside s (pageCount img) img.length := fun s hm =>
      touchesInside_of_fields ha hm (hf s hm)
    have hcast : ((pageCount img).toNat : Int) = pageCount img := by omega
    refine ⟨?_, ht, entryPoint img, hentry, h0, ?_⟩
    · refine schedulerPrepareUserImagePages_ok hs hin h hh hcast.symm (by omega) (by omega) hheap ?_
      rwa [hcast]
    · obtain ⟨s, hm, -, hlt⟩ := ha.entry
      exact lt_of_lt_of_le hlt (stop_le_pages ha hm)

/-- One writable segment of two pages at address -4096, with the entry point at 0. -/
def lowImage : Image :=
  [0x7F, 0x45, 0x4C, 0x46, 2, 1, 1, 0, 0, 0, 0, 0, 0, 0, 0, 0,
    2, 0, 62, 0, 1, 0, 0, 0, 0, 0, 0, 0, 0, 0, 0, 0,
    64, 0, 0, 0, 0, 0, 0, 0, 0, 0, 0, 0, 0, 0, 0, 0,
    0, 0, 0, 0, 64, 0, 56, 0, 1, 0, 0, 0, 0, 0, 0, 0,
    1, 0, 0, 0, 6, 0, 0, 0, 0, 0, 0, 0, 0, 0, 0, 0,
    0, 0xF0, 0xFF, 0xFF, 0xFF, 0xFF, 0xFF, 0xFF, 0, 0, 0, 0, 0, 0, 0, 0,
    0, 0, 0, 0, 0, 0, 0, 0, 0, 0x20, 0, 0, 0, 0, 0, 0,
    0, 16, 0, 0, 0, 0, 0, 0]

theorem lowImage_valid : elfValidateUserImage lowImage = .ok true := by decide +kernel

theorem lowImage_pages : pageCount lowImage = 1 := by decide +kernel

/-- The hypotheses are met: `lowImage` on the pages of `smallMap`. -/
theorem image_loads_inside_low : ∃ s, initPmm smallMap = .ok s ∧
    (LoadsInside lowImage ⟨s, fun _ => 0, 0⟩ ⟨16, 2 ^ 20, fun _ => 0⟩ ↔
      0 ≤ entryPoint lowImage ∧ ∀ t ∈ segments lowImage, FieldsOk t (pageCount lowImage)) := by
  obtain ⟨s, hs, hfree⟩ := initPmm_smallMap
  refine ⟨s, hs, image_loads_inside_iff (by decide) lowImage_valid
    (initPmm_inv smallMap_loader.toMapOk smallMap_loader.noWrap hs)
    ⟨by decide, by decide, by decide, by decide⟩ ?_ (by decide)⟩
  rw [lowImage_pages]
  dsimp only
  omega

/-- The validator accepts `lowImage`, and its first page to mark has index -1. -/
theorem low_image_panics : elfValidateUserImage lowImage = .ok true ∧
    ∃ s, initPmm smallMap = .ok s ∧ pageCount lowImage + 5 ≤ s.freePages ∧
      ¬ ∃ r, schedulerPrepareUserImagePages lowImage ⟨s, fun _ => 0, 0⟩
        ⟨16, 2 ^ 20, fun _ => 0⟩ = .ok r := by
  obtain ⟨s, hs, hfree⟩ := initPmm_smallMap
  refine ⟨lowImage_valid, s, hs, by rw [lowImage_pages]; omega, ?_⟩
  rintro ⟨r, hr⟩
  unfold schedulerPrepareUserImagePages at hr
  obtain ⟨fp, -, hr⟩ := bind_eq_ok.mp hr
  obtain ⟨⟨p₁, heap₁⟩, -, hr⟩ := bind_eq_ok.mp hr
  obtain ⟨⟨p₂, heap₂⟩, -, hr⟩ := bind_eq_ok.mp hr
  dsimp only at hr
  split_ifs at hr with hcount
  obtain ⟨⟨pages, ph⟩, -, hr⟩ := bind_eq_ok.mp hr
  obtain ⟨n, hn, hr⟩ := bind_eq_ok.mp hr
  rw [show elfUserLoadSegmentCount lowImage = .ok 1 by decide +kernel] at hn
  cases hn
  obtain ⟨st, hst, -⟩ := bind_eq_ok.mp hr
  obtain ⟨st₁, hst₁, -⟩ := bind_eq_ok.mp hst
  unfold loadUserSegment at hst₁
  rw [show elfUserSegmentOffset lowImage 0 = .ok 0 by decide +kernel,
    show elfUserSegmentVaddr lowImage 0 = .ok (-4096) by decide +kernel,
    show elfUserSegmentFilesz lowImage 0 = .ok 0 by decide +kernel,
    show elfUserSegmentMemsz lowImage 0 = .ok 8192 by decide +kernel,
    show elfUserSegmentFlags lowImage 0 = .ok 6 by decide +kernel] at hst₁
  simp only [ok_bind] at hst₁
  obtain ⟨flags, hflags, -⟩ := bind_eq_ok.mp hst₁
  rw [show segmentPageFlags 6 ((-4096 : Int) >>> (12 : Nat)) (alignDownI (wrap (-4096 + 8192 +
    userPageSize - 1)) userPageSize >>> (12 : Nat)) _ = markWritable (-1) 2 _ from rfl] at hflags
  obtain ⟨flags₁, hmark, -⟩ := bind_eq_ok.mp hflags
  cases hmark

end PcoOs.Image
