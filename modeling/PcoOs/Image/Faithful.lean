/-
  What a loaded image holds. The pages of an image are read as one space of bytes (`byteAt`), and
  `Holds` says what the segments loaded so far have put there: their file bytes, and zeros
  everywhere else. One more segment overwrites nothing, since the validator keeps segments apart.
  `image_loaded_faithfully` is the whole loader.
-/
import PcoOs.Image.Extent

namespace PcoOs.Image

open PcoOs.Lib PcoOs.Pmm PcoOs.Support PcoOs.Vmm PcoOs.Elf

/-! ## Pages as one space -/

/-- Where byte `v` of the space made of `pages` lies in memory. -/
def pageAddr (pages : List Nat) (v : Nat) : Nat := pages.getD (v / 4096) 0 + v % 4096

def byteAt (pages : List Nat) (m : Mem) (v : Nat) : UInt8 := m (pageAddr pages v)

theorem pageAddr_of_lt {pages : List Nat} {v : Nat} (hv : v < 4096 * pages.length) :
    ∃ h : v / 4096 < pages.length, pageAddr pages v = pages[v / 4096] + v % 4096 := by
  have h : v / 4096 < pages.length := by omega
  refine ⟨h, ?_⟩
  unfold pageAddr
  rw [List.getD_eq_getElem _ _ h]

/-- Different bytes of the space lie at different addresses. -/
theorem pageAddr_inj {pages : List Nat} (hnd : pages.Nodup) (hp : ∀ p ∈ pages, p % 4096 = 0)
    {v w : Nat} (hv : v < 4096 * pages.length) (hw : w < 4096 * pages.length)
    (h : pageAddr pages v = pageAddr pages w) : v = w := by
  obtain ⟨iv, ev⟩ := pageAddr_of_lt hv
  obtain ⟨iw, ew⟩ := pageAddr_of_lt hw
  have av := hp _ (List.getElem_mem iv)
  have aw := hp _ (List.getElem_mem iw)
  rw [ev, ew] at h
  have hpage : pages[v / 4096] = pages[w / 4096] := by omega
  have hindex : v / 4096 = w / 4096 := (List.Nodup.getElem_inj_iff hnd).mp hpage
  omega

theorem byteAt_storeByte_self (pages : List Nat) (m : Mem) (v : Nat) (b : UInt8) :
    byteAt pages (storeByte m (pageAddr pages v) b) v = b := storeByte_self _ _ _

theorem byteAt_storeByte_ne {pages : List Nat} (hnd : pages.Nodup) (hp : ∀ p ∈ pages, p % 4096 = 0)
    {m : Mem} {v w : Nat} {b : UInt8} (hv : v < 4096 * pages.length)
    (hw : w < 4096 * pages.length) (hne : w ≠ v) :
    byteAt pages (storeByte m (pageAddr pages v) b) w = byteAt pages m w :=
  storeByte_ne fun h => hne (pageAddr_inj hnd hp hw hv h)

/-! ## Zeroed pages -/

theorem byte_of_loadQword_zero {m : Mem} {a i : Nat} (h : loadQword m a = 0) (hi : i < 8) :
    m (a + i) = 0 := by
  have hz : (m (a + i)).toNat = 0 := by
    unfold loadQword at h
    rcases Nat.eq_zero_or_pos i with rfl | hpos
    · rw [Nat.add_zero]
      omega
    · interval_cases i <;> omega
  exact UInt8.toNat_inj.mp hz

theorem zeroPage_bytes {t : Nat} (ht : TablePage t) (m : Mem) :
    ∃ m', zeroPage t m = .ok m' ∧ (∀ o < 4096, m' (t + o) = 0) ∧ ∀ x, m x = 0 → m' x = 0 := by
  obtain ⟨m', hz, hentry, honly⟩ := zeroPage_spec ht m
  have hbytes : ∀ o < 4096, m' (t + o) = 0 := by
    intro o ho
    have := byte_of_loadQword_zero (hentry (o / 8) (by omega)) (show o % 8 < 8 by omega)
    rwa [show t + 8 * (o / 8) + o % 8 = t + o by omega] at this
  refine ⟨m', hz, hbytes, fun x hx => ?_⟩
  by_cases hin : t ≤ x ∧ x < t + 4096
  · have := hbytes (x - t) (by omega)
    rwa [show t + (x - t) = x by omega] at this
  · rw [honly x fun p hp => Multiset.mem_singleton.mp hp ▸ hin]
    exact hx

/-- The pages come zeroed, whatever they held. -/
theorem allocUserPages_zero {P : Pool} (n : Nat) {ph : Phys} (h : PmmInv P ph.pmm)
    {pages : List Nat} {ph' : Phys} (ha : allocUserPages n ph = .ok (pages, ph')) :
    (∀ x, ph.mem x = 0 → ph'.mem x = 0) ∧ ∀ p ∈ pages, ∀ o < 4096, ph'.mem (p + o) = 0 := by
  induction n generalizing ph pages ph' with
  | zero =>
    cases ha
    exact ⟨fun _ hx => hx, fun p hp => absurd hp List.not_mem_nil⟩
  | succ n ih =>
    unfold allocUserPages at ha
    rcases PmmInv.alloc_table h with ⟨-, halloc⟩ | ⟨p, t, halloc, -, -, hpage, -, -, ht⟩
    · rw [halloc] at ha
      cases ha
    · obtain ⟨m, hz, hbytes, hkeep⟩ := zeroPage_bytes hpage ph.mem
      rw [halloc] at ha
      dsimp only at ha
      rw [if_neg hpage.pos.ne', hz, ok_bind] at ha
      obtain ⟨⟨rest, ph₁⟩, hrest, ha⟩ := bind_eq_ok.mp ha
      cases ha
      obtain ⟨hkeep', hzero⟩ := @ih { ph with pmm := t, mem := m } ht _ _ hrest
      refine ⟨fun x hx => hkeep' x (hkeep x hx), fun q hq o ho => ?_⟩
      rcases List.mem_cons.mp hq with rfl | hq
      · exact hkeep' _ (hbytes o ho)
      · exact hzero q hq o ho

/-! ## Segments -/

/-- The fields of a segment read as plain integers: bytes of a file, and a range of addresses in
    the 64 pages an image may have. -/
structure PlainFields (s : Segment) : Prop where
  offset : 0 ≤ s.offset
  filesz : 0 ≤ s.filesz
  memsz : s.filesz ≤ s.memsz
  vaddr : 0 ≤ s.vaddr
  stop : s.vaddr + s.memsz ≤ 64 * 4096

instance (s : Segment) : Decidable (PlainFields s) :=
  decidable_of_iff (0 ≤ s.offset ∧ 0 ≤ s.filesz ∧ s.filesz ≤ s.memsz ∧ 0 ≤ s.vaddr ∧
    s.vaddr + s.memsz ≤ 64 * 4096)
    ⟨fun ⟨h1, h2, h3, h4, h5⟩ => ⟨h1, h2, h3, h4, h5⟩,
      fun ⟨h1, h2, h3, h4, h5⟩ => ⟨h1, h2, h3, h4, h5⟩⟩

/-- The segment has a byte of the file for address `v`. -/
def HasByte (s : Segment) (v : Nat) : Prop := s.vaddr ≤ v ∧ (v : Int) < s.vaddr + s.filesz

/-- Where in the file. -/
def fileOffset (s : Segment) (v : Nat) : Nat := (s.offset + (v - s.vaddr)).toNat

/-- Page `i` and the addresses `[vaddr, vaddr + memsz)` of the segment have one in common. -/
def Meets (s : Segment) (i : Nat) : Prop :=
  ∃ v : Nat, v / 4096 = i ∧ s.vaddr ≤ v ∧ (v : Int) < s.vaddr + s.memsz

/-- What `pages` hold once the segments of `l` are loaded. -/
structure Holds (img : Image) (l : List Segment) (pages : List Nat) (m : Mem) : Prop where
  file : ∀ s ∈ l, ∀ v, HasByte s v → img[fileOffset s v]? = some (byteAt pages m v)
  zero : ∀ v < 4096 * pages.length, (∀ s ∈ l, ¬ HasByte s v) → byteAt pages m v = 0

section Load

variable {img : Image} {pages : List Nat} (hnd : pages.Nodup) (hp : ∀ p ∈ pages, TablePage p)
  {s : Segment} (hs : s ∈ segments img) (hf : PlainFields s)

include hp hs hf in
/-- A byte that is copied comes from the file as its offset says, which has not wrapped. -/
theorem copySegmentByte_stores {i : Nat} (hi : (i : Int) < s.filesz) {m m' : Mem}
    (h : copySegmentByte img pages s.vaddr s.offset i m = .ok m') :
    ∃ b, img[(s.offset + i).toNat]? = some b ∧ (s.vaddr + i).toNat < 4096 * pages.length ∧
      m' = storeByte m (pageAddr pages (s.vaddr + i).toNat) b := by
  obtain ⟨h1, h2, h3, h4, h5⟩ := hf
  have hint := (intFields hs).offset
  unfold copySegmentByte at h
  rw [wrap_of_range (x := s.vaddr + i) (by omega) (by omega), shiftRight_twelve] at h
  obtain ⟨p, hpage, h⟩ := bind_eq_ok.mp h
  obtain ⟨b, hbyte, h⟩ := bind_eq_ok.mp h
  obtain ⟨v, hv⟩ := Int.eq_ofNat_of_zero_le (show 0 ≤ s.vaddr + i by omega)
  rw [hv] at hpage h ⊢
  unfold userPageArrayQword at hpage
  split_ifs at hpage with hslot
  rw [show ((v : Int) / 4096).toNat = v / 4096 by omega] at hpage
  cases hpage
  have hlt : v < 4096 * pages.length := by omega
  obtain ⟨hindex, haddr⟩ := pageAddr_of_lt hlt
  have hpos := (hp _ (List.getElem_mem hindex)).pos
  rw [← List.getD_eq_getElem _ 0 hindex] at hpos
  unfold userPageSize at h
  rw [storeByteRegion_ok (by omega) (by omega) (by omega),
    show ((v : Int) % 4096).toNat = v % 4096 by omega] at h
  obtain ⟨hlo, hhi⟩ := inside_of_imageByte hbyte
  rw [imageByte_ok ⟨hlo, hhi⟩] at hbyte
  cases hbyte
  -- a sum past the largest `int` is a negative offset, which the read refuses
  have hsum : wrap (s.offset + i) = s.offset + i := by
    refine wrap_of_range (by omega) ?_
    by_contra hover
    unfold wrap at hlo
    omega
  rw [hsum] at hlo hhi h
  have hin : (s.offset + i).toNat < img.length := by omega
  refine ⟨img[(s.offset + i).toNat], List.getElem?_eq_getElem hin, hlt, ?_⟩
  rw [← Except.ok.inj h, List.getD_eq_getElem _ _ hin]
  simp [pageAddr]

include hnd hp hs hf in
/-- The copy loop of a segment puts its file bytes in place and leaves the rest alone. -/
theorem copySegment_spec {m m' : Mem}
    (h : loop (copySegmentByte img pages s.vaddr s.offset) 0 s.filesz.toNat m = .ok m') :
    (∀ v, HasByte s v → img[fileOffset s v]? = some (byteAt pages m' v)) ∧
      ∀ v < 4096 * pages.length, ¬ HasByte s v → byteAt pages m' v = byteAt pages m v := by
  have h4 := hf.vaddr
  have hal : ∀ p ∈ pages, p % 4096 = 0 := fun p hq => (hp p hq).aligned
  -- after `i` bytes the first `i` are in place
  have hloop := ends_loop (E := fun _ => True) (f := copySegmentByte img pages s.vaddr s.offset)
    (fun i m' => (∀ v : Nat, s.vaddr ≤ v → (v : Int) < s.vaddr + i →
        v < 4096 * pages.length ∧ img[fileOffset s v]? = some (byteAt pages m' v)) ∧
      ∀ v < 4096 * pages.length, ¬ (s.vaddr ≤ v ∧ (v : Int) < s.vaddr + i) →
        byteAt pages m' v = byteAt pages m v)
    (i := 0) (n := s.filesz.toNat) (s := m)
    ⟨fun v h1 h2 => by push_cast at h2; omega, fun _ _ _ => rfl⟩ (by
      rintro i m₁ - hi ⟨hin, hout⟩
      rw [ends_iff_ok]
      intro m₂ hcopy
      obtain ⟨b, hb, hlt, rfl⟩ := copySegmentByte_stores hp hs hf (by omega) hcopy
      refine ⟨fun v h1 h2 => ?_, fun v hv hnot => ?_⟩
      · by_cases hlast : v = (s.vaddr + i).toNat
        · refine ⟨by omega, ?_⟩
          rw [hlast, byteAt_storeByte_self, ← hb]
          unfold fileOffset
          congr 2
          omega
        · push_cast at h2
          obtain ⟨hv, hget⟩ := hin v h1 (by omega)
          exact ⟨hv, by rw [byteAt_storeByte_ne hnd hal hlt hv hlast, hget]⟩
      · push_cast at hnot
        rw [byteAt_storeByte_ne hnd hal hlt hv (by omega)]
        exact hout v hv (by omega))
  obtain ⟨hin, hout⟩ := hloop.of_ok h
  have hsize := hf.filesz
  rw [Nat.zero_add, Int.toNat_of_nonneg hsize] at hin hout
  exact ⟨fun v hv => (hin v hv.1 hv.2).2, hout⟩

include hnd hp hs hf in
/-- One more segment, apart from those before it. -/
theorem Holds.append {l : List Segment} {m m' : Mem} (hl : Holds img l pages m)
    (hapart : ∀ t ∈ l, ∀ v, HasByte t v → ¬ HasByte s v)
    (hrange : ∀ t ∈ l, ∀ v, HasByte t v → v < 4096 * pages.length)
    (h : loop (copySegmentByte img pages s.vaddr s.offset) 0 s.filesz.toNat m = .ok m') :
    Holds img (l ++ [s]) pages m' := by
  obtain ⟨hin, hout⟩ := copySegment_spec hnd hp hs hf h
  constructor
  · intro t ht v hv
    rcases List.mem_append.mp ht with ht | ht
    · rw [hout v (hrange t ht v hv) (hapart t ht v hv)]
      exact hl.file t ht v hv
    · cases List.mem_singleton.mp ht
      exact hin v hv
  · intro v hv hnot
    rw [hout v hv (hnot s (by simp))]
    exact hl.zero v hv fun t ht => hnot t (List.mem_append_left _ ht)

end Load

section Accepted

variable {img : Image} (hs : Sized img) (hin : HeadersInside img)

include hs hin in
theorem loadUserSegment_copies {pages : List Nat} {i : Nat} {s : Segment}
    (hi : (segments img)[i]? = some s) {st st' : List Nat × Mem}
    (h : loadUserSegment img pages i st = .ok st') :
    loop (copySegmentByte img pages s.vaddr s.offset) 0 s.filesz.toNat st.2 = .ok st'.2 := by
  unfold loadUserSegment at h
  rw [elfUserSegmentOffset_eq hs hin hi, ok_bind, elfUserSegmentVaddr_eq hs hin hi, ok_bind,
    elfUserSegmentFilesz_eq hs hin hi, ok_bind, elfUserSegmentMemsz_eq hs hin hi, ok_bind,
    elfUserSegmentFlags_eq hs hin hi, ok_bind] at h
  obtain ⟨flags, -, h⟩ := bind_eq_ok.mp h
  obtain ⟨m, hm, h⟩ := bind_eq_ok.mp h
  cases h
  exact hm

/-- The end of a segment with plain fields has not wrapped. -/
theorem PlainFields.stop_eq {s : Segment} (hf : PlainFields s) : s.stop = s.vaddr + s.memsz := by
  obtain ⟨h1, h2, h3, h4, h5⟩ := hf
  exact wrap_of_range (by omega) (by omega)

theorem not_hasByte_of_apart {s t : Segment} (hs : PlainFields s) (ht : PlainFields t)
    (h : t.Apart s) {v : Nat} (hv : HasByte t v) : ¬ HasByte s v := by
  intro hv'
  unfold Segment.Apart at h
  rw [hs.stop_eq, ht.stop_eq] at h
  obtain ⟨h1, h2⟩ := hv
  obtain ⟨h3, h4⟩ := hv'
  have := hs.memsz
  have := ht.memsz
  omega

variable (ha : Accepts img) (hf : ∀ s ∈ segments img, PlainFields s)

include ha hf in
theorem lt_of_hasByte {s : Segment} (hm : s ∈ segments img) {v : Nat} (hv : HasByte s v) :
    (v : Int) < 4096 * pageCount img := by
  have hstop := stop_le_pages ha hm
  rw [(hf s hm).stop_eq] at hstop
  have := (hf s hm).memsz
  have := hv.2
  omega

include hs hin ha hf in
/-- The loop over the segments: after `j` of them the pages hold these. -/
theorem loadUserSegments_hold {pages : List Nat} (hnd : pages.Nodup)
    (hp : ∀ p ∈ pages, TablePage p) (hlen : pageCount img ≤ pages.length) {m : Mem}
    (hzero : ∀ p ∈ pages, ∀ o < 4096, m (p + o) = 0) {flags flags' : List Nat} {m' : Mem}
    (h : loop (loadUserSegment img pages) 0 (segments img).length (flags, m) = .ok (flags', m')) :
    Holds img (segments img) pages m' := by
  have hloop := ends_loop (E := fun _ => True) (f := loadUserSegment img pages)
    (fun j (st : List Nat × Mem) => Holds img ((segments img).take j) pages st.2)
    (i := 0) (n := (segments img).length) (s := (flags, m)) (by
      refine ⟨fun s hm => absurd hm (by simp), fun v hv _ => ?_⟩
      obtain ⟨hindex, haddr⟩ := pageAddr_of_lt hv
      unfold byteAt
      rw [haddr]
      exact hzero _ (List.getElem_mem hindex) _ (Nat.mod_lt _ (by norm_num))) (by
      rintro j st - hj hst
      rw [ends_iff_ok]
      intro st' hload
      have hlt : j < (segments img).length := by omega
      have hget := List.getElem?_eq_getElem hlt
      have hmem := List.getElem_mem hlt
      rw [List.take_succ_eq_append_getElem hlt]
      refine hst.append hnd hp hmem (hf _ hmem) (fun t ht v hv => ?_) (fun t ht v hv => ?_)
        (loadUserSegment_copies hs hin hget hload)
      · obtain ⟨i, hi, rfl⟩ := List.getElem_of_mem ht
        rw [List.length_take] at hi
        rw [List.getElem_take] at hv
        exact not_hasByte_of_apart (hf _ hmem) (hf _ (List.getElem_mem _))
          (List.pairwise_iff_getElem.mp ha.apart i j (by omega) hlt (by omega)) hv
      · have := lt_of_hasByte ha hf (List.mem_of_mem_take ht) hv
        omega)
  have hall := hloop.of_ok h
  rwa [Nat.zero_add, List.take_length] at hall

include hs hin ha hf in
/-- A segment marks the pages it meets, if it is writable. -/
theorem segmentMarks_iff {j i : Nat} {s : Segment} (hj : (segments img)[j]? = some s) :
    segmentMarks img j i = true ↔ Writable s ∧ Meets s i := by
  obtain ⟨h1, h2, h3, h4, h5⟩ := hf s (List.mem_of_getElem? hj)
  have hpos := (ha.wellFormed s (List.mem_of_getElem? hj)).memsz
  unfold segmentMarks Writable Meets
  rw [elfUserSegmentVaddr_eq hs hin hj, elfUserSegmentMemsz_eq hs hin hj,
    elfUserSegmentFlags_eq hs hin hj]
  dsimp only
  unfold alignDownI userPageSize
  rw [wrap_of_range (by omega) (by omega), shiftRight_twelve, shiftRight_twelve,
    decide_eq_true_iff, Int.toNat_natCast]
  refine and_congr_right fun _ => ⟨fun ⟨hlo, hhi⟩ => ?_, fun ⟨v, hv, hlo, hhi⟩ => by omega⟩
  exact ⟨max s.vaddr.toNat (4096 * i), by omega, by omega, by omega⟩

include hs hin ha hf in
theorem pageMarked_iff (i : Nat) : pageMarked img (segments img).length i = true ↔
    ∃ s ∈ segments img, Writable s ∧ Meets s i := by
  unfold pageMarked
  rw [List.any_eq_true]
  constructor
  · rintro ⟨j, hj, hmark⟩
    have hget := List.getElem?_eq_getElem (List.mem_range.mp hj)
    exact ⟨_, List.mem_of_getElem? hget, (segmentMarks_iff hs hin ha hf hget).mp hmark⟩
  · rintro ⟨s, hm, hw⟩
    obtain ⟨j, hj⟩ := List.getElem?_of_mem hm
    have hlt := (List.getElem?_eq_some_iff.mp hj).1
    exact ⟨j, List.mem_range.mpr hlt, (segmentMarks_iff hs hin ha hf hj).mpr hw⟩

end Accepted

/-! ## The loader -/

/-- The pages and flags of a loaded image: file pages, four heap pages and the stack page; the
    file bytes of the segments with zeros everywhere else; and a flag for each page but the last,
    which is writable on heap pages and on pages that meet a writable segment. -/
structure Faithful (img : Image) (pages flags : List Nat) (m : Mem) : Prop where
  count : (pages.length : Int) = pageCount img + 5
  flagCount : (flags.length : Int) = pageCount img + 4
  holds : Holds img (segments img) pages m
  writable : ∀ i < flags.length, flags.getD i 0 = schedulerUserPageFlagsWritable ↔
    pageCount img ≤ i ∨ ∃ s ∈ segments img, Writable s ∧ Meets s i
  default : ∀ i < flags.length, flags.getD i 0 = schedulerUserPageFlagsWritable ∨
    flags.getD i 0 = schedulerUserPageFlagsDefault

/-- The same load segments in any order, with the same bytes of the file. -/
structure SameLoad (img img' : Image) : Prop where
  perm : (segments img).Perm (segments img')
  bytes : ∀ s ∈ segments img, ∀ v, HasByte s v → img[fileOffset s v]? = img'[fileOffset s v]?

/-- As many pages with the same flags and the same bytes. -/
structure SameSpace (pages flags : List Nat) (m : Mem) (pages' flags' : List Nat) (m' : Mem) :
    Prop where
  count : pages'.length = pages.length
  flags_eq : flags' = flags
  bytes : ∀ v < 4096 * pages.length, byteAt pages' m' v = byteAt pages m v

theorem topOf_perm {l l' : List Segment} (h : l.Perm l') (t : Int) : topOf l t = topOf l' t := by
  induction h generalizing t with
  | nil => rfl
  | cons s _ ih => exact ih _
  | swap s u l =>
    rw [topOf, topOf, topOf, topOf]
    congr 1
    split_ifs <;> omega
  | trans _ _ ih ih' => exact (ih t).trans (ih' t)

theorem SameLoad.pageCount {img img' : Image} (h : SameLoad img img') :
    pageCount img' = pageCount img := by
  unfold Elf.pageCount
  rw [topOf_perm h.perm]

/-- Which bytes and flags an image gets does not depend on anything else. -/
theorem Faithful.unique {img img' : Image} {pages flags pages' flags' : List Nat} {m m' : Mem}
    (h : Faithful img pages flags m) (h' : Faithful img' pages' flags' m')
    (hsame : SameLoad img img') : SameSpace pages flags m pages' flags' m' := by
  have hcount := hsame.pageCount
  have h1 := h.count
  have h2 := h'.count
  have h3 := h.flagCount
  have h4 := h'.flagCount
  have hmem : ∀ s, s ∈ segments img' ↔ s ∈ segments img := fun s => hsame.perm.mem_iff.symm
  refine ⟨by omega, ?_, fun v hv => ?_⟩
  · refine List.ext_getElem (by omega) fun i hi' hi => ?_
    have hiff : flags'.getD i 0 = schedulerUserPageFlagsWritable ↔
        flags.getD i 0 = schedulerUserPageFlagsWritable := by
      rw [h'.writable i hi', h.writable i hi, hcount]
      simp only [hmem]
    have hd := h.default i hi
    have hd' := h'.default i hi'
    rw [List.getD_eq_getElem _ _ hi, List.getD_eq_getElem _ _ hi'] at hiff
    rw [List.getD_eq_getElem _ _ hi] at hd
    rw [List.getD_eq_getElem _ _ hi'] at hd'
    simp only [schedulerUserPageFlagsWritable, schedulerUserPageFlagsDefault] at hiff hd hd'
    omega
  · by_cases hby : ∃ s ∈ segments img, HasByte s v
    · obtain ⟨s, hm, hb⟩ := hby
      have e := h.holds.file s hm v hb
      have e' := h'.holds.file s ((hmem s).mpr hm) v hb
      rw [hsame.bytes s hm v hb, e'] at e
      exact Option.some.inj e
    · have hno : ∀ s ∈ segments img, ¬ HasByte s v := fun s hm hb => hby ⟨s, hm, hb⟩
      rw [h.holds.zero v hv hno]
      exact h'.holds.zero v (by omega) fun s hm => hno s ((hmem s).mp hm)

section Loader

variable {P : Pool} {img : Image} {ph : Phys} {heap : Heap} (hlen : img.length < 2 ^ 63)
  (hv : elfValidateUserImage img = .ok true) (hf : ∀ s ∈ segments img, PlainFields s)
  (h : PmmInv P ph.pmm) (hh : HeapOk heap)

include hlen hv hf h hh in
theorem schedulerPrepareUserImagePages_faithful {pages flags : List Nat} {ph' : Phys}
    {heap' : Heap}
    (hr : schedulerPrepareUserImagePages img ph heap = .ok (pages, flags, ph', heap')) :
    Faithful img pages flags ph'.mem := by
  obtain ⟨hs, hin, ha⟩ := elfValidateUserImage_accepts hlen hv
  obtain ⟨⟨hnew, ⟨fp, n, hfp, hn, -, -, hpages, hflags⟩, -⟩, -⟩ :=
    (schedulerPrepareUserImagePages_spec h hh hv).of_ok hr
  rw [elfUserImagePageCount_eq hs hin] at hfp
  rw [elfUserLoadSegmentCount_eq hs hin] at hn
  have hcount : pageCount img = fp := Except.ok.inj hfp
  obtain rfl : (segments img).length = n := Except.ok.inj hn
  have hnodup : pages.Nodup := by
    have hbal := hnew.inv.balanced.nodup
    rw [hnew.out] at hbal
    exact Multiset.coe_nodup.mp (Multiset.nodup_add.mp hbal).2.1
  have hpages : pages.length = fp + 5 := hpages
  have hflag : flags.length = fp + 4 := hflags.length
  have hle : pageCount img ≤ pages.length := by omega
  refine ⟨by omega, by omega, ?_, ?_, ?_⟩
  · -- follow the run to the loop over the segments
    unfold schedulerPrepareUserImagePages at hr
    obtain ⟨fp', -, hr⟩ := bind_eq_ok.mp hr
    obtain ⟨⟨p₁, heap₁⟩, -, hr⟩ := bind_eq_ok.mp hr
    obtain ⟨⟨p₂, heap₂⟩, -, hr⟩ := bind_eq_ok.mp hr
    dsimp only at hr
    split_ifs at hr with hc
    obtain ⟨⟨pages₁, ph₁⟩, halloc, hr⟩ := bind_eq_ok.mp hr
    rw [elfUserLoadSegmentCount_eq hs hin, ok_bind] at hr
    obtain ⟨⟨flags₁, m⟩, hloop, hr⟩ := bind_eq_ok.mp hr
    cases hr
    exact loadUserSegments_hold hs hin ha hf hnodup (fun p hp => hnew.page hp) hle
      (allocUserPages_zero _ h halloc).2 hloop
  · intro i hi
    rw [hflags.get i (by omega), ← pageMarked_iff hs hin ha hf i, hcount]
    unfold pageFlag
    split_ifs with hw
    · exact iff_of_true rfl (by rwa [Nat.cast_le])
    · exact iff_of_false (by decide) (by rwa [Nat.cast_le])
  · intro i hi
    rw [hflags.get i (by omega)]
    unfold pageFlag
    split_ifs
    · exact Or.inl rfl
    · exact Or.inr rfl

include hlen hv hf h hh in
/-- Loading is faithful: for an accepted image whose fields are plain integers, the pages hold
    its segments with zeros around them and are writable where they should be, whatever memory
    held before, and a second load of the same segments, in any order and into any pages, gives
    the same space. It stops for lack of pages or early heap, or when the offsets of a segment
    run past the largest `int`. -/
theorem image_loaded_faithfully :
    Ends (schedulerPrepareUserImagePages img ph heap)
      (fun r => Faithful img r.1 r.2.1 r.2.2.1.mem ∧
        ∀ (P' : Pool) (img' : Image) (ph' : Phys) (heap' : Heap), img'.length < 2 ^ 63 →
          elfValidateUserImage img' = .ok true → SameLoad img img' → PmmInv P' ph'.pmm →
          HeapOk heap' → ∀ r', schedulerPrepareUserImagePages img' ph' heap' = .ok r' →
            SameSpace r.1 r.2.1 r.2.2.1.mem r'.1 r'.2.1 r'.2.2.1.mem)
      (fun _ => ph.pmm.freePages < pageCount img + 5 ∨ heap.stop < heap.ptr + 2000 ∨
        ∃ s ∈ segments img, 0 < s.filesz ∧ 2 ^ 63 ≤ s.offset + s.filesz) := by
  obtain ⟨hs, hin, ha⟩ := elfValidateUserImage_accepts hlen hv
  cases hr : schedulerPrepareUserImagePages img ph heap with
  | error e =>
    by_contra hnot
    simp only [ends_error, not_or, not_exists, not_and] at hnot
    obtain ⟨hfree, hheap, hsum⟩ := hnot
    have hpos := ha.pos
    have hmax := ha.max
    have hcast : ((pageCount img).toNat : Int) = pageCount img := by omega
    have ht : ∀ s ∈ segments img, TouchesInside s (pageCount img) img.length := by
      intro s hm
      obtain ⟨h1, h2, h3, h4, h5⟩ := hf s hm
      refine touchesInside_of_fields ha hm ⟨fun h0 => ⟨h1, ?_⟩, fun _ => h4, fun _ => ?_⟩
      · have := hsum s hm h0
        omega
      · exact Or.inl (by omega)
    obtain ⟨r, hok⟩ := schedulerPrepareUserImagePages_ok hs hin h hh hcast.symm (by omega)
      (by omega) (by omega) (by rwa [hcast])
    cases hr.symm.trans hok
  | ok r =>
    have hfaith := schedulerPrepareUserImagePages_faithful hlen hv hf h hh hr
    refine ⟨hfaith, fun P' img' ph' heap' hlen' hv' hsame h' hh' r' hr' => ?_⟩
    have hf' : ∀ s ∈ segments img', PlainFields s := fun s hm =>
      hf s (hsame.perm.mem_iff.mpr hm)
    exact hfaith.unique (schedulerPrepareUserImagePages_faithful hlen' hv' hf' h' hh' hr') hsame

end Loader

/-- A data page above a text page, with the headers the other way round. -/
@[irreducible] def twoSegments : Image :=
  [0x7F, 0x45, 0x4C, 0x46, 2, 1, 1, 0, 0, 0, 0, 0, 0, 0, 0, 0,
    2, 0, 62, 0, 1, 0, 0, 0, 0, 0, 0, 0, 0, 0, 0, 0,
    64, 0, 0, 0, 0, 0, 0, 0, 0, 0, 0, 0, 0, 0, 0, 0,
    0, 0, 0, 0, 64, 0, 56, 0, 2, 0, 0, 0, 0, 0, 0, 0,
    1, 0, 0, 0, 6, 0, 0, 0, 176, 0, 0, 0, 0, 0, 0, 0,
    0, 16, 0, 0, 0, 0, 0, 0, 0, 0, 0, 0, 0, 0, 0, 0,
    2, 0, 0, 0, 0, 0, 0, 0, 16, 0, 0, 0, 0, 0, 0, 0,
    0, 16, 0, 0, 0, 0, 0, 0, 1, 0, 0, 0, 5, 0, 0, 0,
    0, 0, 0, 0, 0, 0, 0, 0, 0, 0, 0, 0, 0, 0, 0, 0,
    0, 0, 0, 0, 0, 0, 0, 0, 4, 0, 0, 0, 0, 0, 0, 0,
    4, 0, 0, 0, 0, 0, 0, 0, 0, 16, 0, 0, 0, 0, 0, 0,
    7, 9]

theorem twoSegments_valid : elfValidateUserImage twoSegments = .ok true := by decide +kernel

theorem twoSegments_pages : pageCount twoSegments = 2 := by decide +kernel

/-- The hypotheses are met, and nothing stops the load: `twoSegments` on the pages of
    `smallMap`, over memory full of ones. -/
theorem image_loaded_faithfully_two : ∃ s r, initPmm smallMap = .ok s ∧
    schedulerPrepareUserImagePages twoSegments ⟨s, fun _ => 1, 0⟩ ⟨16, 2 ^ 20, fun _ => 0⟩ = .ok r ∧
    Faithful twoSegments r.1 r.2.1 r.2.2.1.mem := by
  obtain ⟨s, hs, hfree⟩ := initPmm_smallMap
  have hplain : ∀ t ∈ segments twoSegments, PlainFields t := by decide +kernel
  have hsum : ∀ t ∈ segments twoSegments, t.offset + t.filesz < 2 ^ 63 := by decide +kernel
  have hlen : twoSegments.length < 2 ^ 63 := by decide +kernel
  have hinv := initPmm_inv smallMap_loader.toMapOk smallMap_loader.noWrap hs
  have hheap : HeapOk ⟨16, 2 ^ 20, fun _ => 0⟩ := ⟨by decide, by decide, by decide, by decide⟩
  let ph : Phys := ⟨s, fun _ => 1, 0⟩
  have hload := @image_loaded_faithfully _ _ ph _ hlen twoSegments_valid hplain hinv hheap
  obtain ⟨r, hr, hfaith, -⟩ := hload.exists_ok (by
    rintro e (hno | hno | ⟨t, ht, -, hno⟩)
    · have hno : s.freePages < 2 + 5 := twoSegments_pages ▸ hno
      omega
    · exact absurd hno (by decide)
    · have := hsum t ht
      omega)
  exact ⟨s, r, hs, hr, hfaith⟩

end PcoOs.Image
