/-
  What loading does before anything is mapped. `schedulerPrepareUserImagePages_spec`: fresh pages,
  all written bytes inside them, and page flags that are writable exactly on the heap pages and
  on the pages of segments with `PF_W` (`pageFlag`).
-/
import PcoOs.Image.Model
import PcoOs.Vmm.Ops

namespace PcoOs.Image

open PcoOs.Lib PcoOs.Pmm PcoOs.Support PcoOs.Vmm PcoOs.Elf

/-! ## Which pages are writable -/

/-- Load segment `j` has `PF_W` and covers image page `i`. -/
def segmentMarks (img : Image) (j i : Nat) : Bool :=
  match elfUserSegmentVaddr img j, elfUserSegmentMemsz img j, elfUserSegmentFlags img j with
  | .ok vaddr, .ok memsz, .ok flags =>
    decide (flags.toNat &&& elfPfW.toNat ≠ 0 ∧ vaddr >>> (12 : Nat) ≤ i ∧
      (i : Int) < alignDownI (wrap (vaddr + memsz + userPageSize - 1)) userPageSize >>> (12 : Nat))
  | _, _, _ => false

/-- One of the first `n` load segments marks page `i`. -/
def pageMarked (img : Image) (n i : Nat) : Bool := (List.range n).any fun j => segmentMarks img j i

theorem pageMarked_succ (img : Image) (n i : Nat) :
    pageMarked img (n + 1) i = (pageMarked img n i || segmentMarks img n i) := by
  unfold pageMarked
  rw [List.range_succ, List.any_append]
  simp

/-- The flags of page `i` of an image of `filePages` pages after `n` segments. -/
def pageFlag (img : Image) (filePages n i : Nat) : Nat :=
  if filePages ≤ i ∨ pageMarked img n i = true then schedulerUserPageFlagsWritable
  else schedulerUserPageFlagsDefault

/-- The flag list of an image of `filePages` pages after `n` segments. -/
structure FlagsOf (img : Image) (filePages n : Nat) (flags : List Nat) : Prop where
  length : flags.length = filePages + 4
  get : ∀ i < filePages + 4, flags.getD i 0 = pageFlag img filePages n i

theorem flagsOf_start (img : Image) (filePages : Nat) :
    FlagsOf img filePages 0 (List.replicate filePages schedulerUserPageFlagsDefault ++
      List.replicate 4 schedulerUserPageFlagsWritable) where
  length := by simp
  get := by
    intro i hi
    unfold pageFlag
    have hm : pageMarked img 0 i = false := rfl
    by_cases hlt : i < filePages
    · rw [if_neg (by rw [hm]; simp; omega), List.getD_append _ _ _ _ (by simpa using hlt)]
      exact List.getD_replicate _ hlt
    · rw [if_pos (Or.inl (by omega)), List.getD_append_right _ _ _ _ (by simp; omega),
        List.length_replicate]
      exact List.getD_replicate _ (by omega)

theorem schedulerSetPageFlags_spec {flags : List Nat} {i : Int} {value : Nat} :
    Ends (schedulerSetPageFlags flags i value)
      (fun flags' => 0 ≤ i ∧ i < flags.length ∧ flags' = flags.set i.toNat value)
      (fun _ => i < 0 ∨ flags.length ≤ i) := by
  unfold schedulerSetPageFlags
  split_ifs with h
  · exact h
  · exact ⟨by omega, by omega, rfl⟩

theorem getD_set (l : List Nat) (i j v : Nat) (hi : i < l.length) :
    (l.set i v).getD j 0 = if j = i then v else l.getD j 0 := by
  unfold List.getD
  rw [List.getElem?_set]
  by_cases h : i = j
  · subst h
    simp [hi]
  · rw [if_neg h, if_neg (fun hc => h hc.symm)]

/-- Marking writes the writable flag on the pages from `page` on. -/
theorem markWritable_spec {page : Int} {n : Nat} {flags : List Nat} :
    Ends (markWritable page n flags)
      (fun flags' => flags'.length = flags.length ∧ ∀ j, flags'.getD j 0 =
        if page ≤ j ∧ (j : Int) < page + n then schedulerUserPageFlagsWritable
        else flags.getD j 0)
      (fun _ => n ≠ 0) := by
  unfold markWritable
  have hloop := ends_loop (E := fun _ => n ≠ 0)
    (f := fun i flags => schedulerSetPageFlags flags (page + i) schedulerUserPageFlagsWritable)
    (fun i flags' => flags'.length = flags.length ∧ ∀ j, flags'.getD j 0 =
      if page ≤ j ∧ (j : Int) < page + i then schedulerUserPageFlagsWritable
      else flags.getD j 0)
    (i := 0) (n := n) (s := flags)
    ⟨rfl, fun j => by rw [if_neg (by push_cast; omega)]⟩ (by
      rintro i flags' - hi ⟨hlen, hget⟩
      refine schedulerSetPageFlags_spec.mono ?_ (fun _ _ => by omega)
      rintro _ ⟨h0, hlt, rfl⟩
      refine ⟨by rw [List.length_set, hlen], fun j => ?_⟩
      rw [getD_set _ _ _ _ (by omega), hget j]
      push_cast
      split_ifs <;> first | rfl | omega)
  rw [Nat.zero_add] at hloop
  exact hloop

/-! ## Copying segments -/

theorem userPageArrayQword_spec {pages : List Nat} {slot : Int} :
    Ends (userPageArrayQword pages slot) (fun p => p ∈ pages)
      (fun _ => slot < 0 ∨ pages.length ≤ slot) := by
  unfold userPageArrayQword
  split_ifs with h
  · exact h
  · have hlt : slot.toNat < pages.length := by omega
    rw [ends_ok, List.getD_eq_getElem _ _ hlt]
    exact List.getElem_mem hlt

theorem storeByteRegion_only {m : Mem} {base : Nat} {off : Int} {b : UInt8} :
    Ends (storeByteRegion m base userPageSize off b) (fun m' => OnlyPages {base} m m')
      (fun _ => True) := by
  unfold storeByteRegion checkByteRegion userPageSize
  split_ifs with h0 h1 h2
  · exact trivial
  · exact trivial
  · exact trivial
  · exact onlyPages_storeByte m (by omega)

theorem copySegmentByte_spec {img : Image} {pages : List Nat} {vaddr offset : Int} {i : Nat}
    {m : Mem} :
    Ends (copySegmentByte img pages vaddr offset i m)
      (fun m' => OnlyPages (pages : Multiset Nat) m m') (fun _ => True) := by
  unfold copySegmentByte
  refine ends_bind (userPageArrayQword_spec.mono (fun _ h => h) fun _ _ => trivial) ?_
  intro p hp
  refine ends_bind (P := fun _ => True) (by cases imageByte img _ <;> trivial) ?_
  intro b _
  refine storeByteRegion_only.imp fun m' hm => hm.mono fun q hq => ?_
  rw [Multiset.mem_singleton.mp hq]
  exact hp

/-- No load segment has file bytes or is writable: loading it is a matter of zeroed pages. -/
def Blank (img : Image) : Prop :=
  ∃ n, elfUserLoadSegmentCount img = .ok n ∧ ∀ j < n, ∃ offset vaddr filesz memsz flags,
    elfUserSegmentOffset img j = .ok offset ∧ elfUserSegmentVaddr img j = .ok vaddr ∧
      elfUserSegmentFilesz img j = .ok filesz ∧ elfUserSegmentMemsz img j = .ok memsz ∧
      elfUserSegmentFlags img j = .ok flags ∧ filesz ≤ 0 ∧ flags.toNat &&& elfPfW.toNat = 0

/-- One load segment: its pages are marked when it is writable, its bytes go to the pages. -/
theorem loadUserSegment_spec {img : Image} {pages : List Nat} {filePages j : Nat}
    {flags : List Nat} {m m₀ : Mem} (hf : FlagsOf img filePages j flags)
    (hm : OnlyPages (pages : Multiset Nat) m₀ m) :
    Ends (loadUserSegment img pages j (flags, m))
      (fun st => FlagsOf img filePages (j + 1) st.1 ∧ OnlyPages (pages : Multiset Nat) m₀ st.2)
      (fun _ => True) := by
  rw [ends_iff_ok]
  rintro ⟨flags', m'⟩ h
  unfold loadUserSegment at h
  obtain ⟨offset, -, h⟩ := bind_eq_ok.mp h
  obtain ⟨vaddr, hvaddr, h⟩ := bind_eq_ok.mp h
  obtain ⟨filesz, -, h⟩ := bind_eq_ok.mp h
  obtain ⟨memsz, hmemsz, h⟩ := bind_eq_ok.mp h
  obtain ⟨segFlags, hflags, h⟩ := bind_eq_ok.mp h
  obtain ⟨flags₁, hset, h⟩ := bind_eq_ok.mp h
  obtain ⟨m₁, hcopy, h⟩ := bind_eq_ok.mp h
  cases h
  have hloop := ends_loop (E := fun _ => True) (f := copySegmentByte img pages vaddr offset)
    (fun _ m' => OnlyPages (pages : Multiset Nat) m m') (i := 0) (n := filesz.toNat) (s := m)
    (OnlyPages.refl _ _) (fun i m' _ _ hI => copySegmentByte_spec.imp fun _ h' => hI.trans h')
  refine ⟨?_, hm.trans (hloop.of_ok hcopy)⟩
  -- the new flags are the old ones, or rewritten on the pages of this segment
  have hmark : ∀ i : Nat, segmentMarks img j i = decide (segFlags.toNat &&& elfPfW.toNat ≠ 0 ∧
      vaddr >>> (12 : Nat) ≤ i ∧ (i : Int) < alignDownI (wrap (vaddr + memsz + userPageSize - 1))
        userPageSize >>> (12 : Nat)) := by
    intro i
    unfold segmentMarks
    rw [hvaddr, hmemsz, hflags]
  unfold segmentPageFlags at hset
  split_ifs at hset with hw
  · obtain ⟨hlen, hget⟩ := markWritable_spec.of_ok hset
    refine ⟨hlen.trans hf.length, fun i hi => ?_⟩
    rw [hget i, hf.get i hi]
    unfold pageFlag
    rw [pageMarked_succ, hmark i]
    generalize vaddr >>> (12 : Nat) = page
    generalize alignDownI (wrap (vaddr + memsz + userPageSize - 1)) userPageSize >>> (12 : Nat) =
      pageEnd
    by_cases hin : page ≤ i ∧ (i : Int) < pageEnd
    · rw [if_pos (by omega), if_pos (Or.inr (by simp [hw, hin]))]
    · rw [if_neg (by omega)]
      have hd : decide (segFlags.toNat &&& elfPfW.toNat ≠ 0 ∧ page ≤ i ∧ (i : Int) < pageEnd) =
          false := decide_eq_false fun hc => hin hc.2
      rw [hd, Bool.or_false]
  · cases hset
    refine ⟨hf.length, fun i hi => ?_⟩
    rw [hf.get i hi]
    unfold pageFlag
    rw [pageMarked_succ, hmark i, decide_eq_false fun hc => hw hc.1, Bool.or_false]

theorem loadUserSegment_blank {img : Image} {pages : List Nat} {j n : Nat}
    {st : List Nat × Mem} (hb : Blank img) (hn : elfUserLoadSegmentCount img = .ok n)
    (hj : j < n) : loadUserSegment img pages j st = .ok st := by
  obtain ⟨n', hn', hb⟩ := hb
  rw [hn] at hn'
  cases hn'
  obtain ⟨offset, vaddr, filesz, memsz, flags, h1, h2, h3, h4, h5, h6, h7⟩ := hb j hj
  unfold loadUserSegment segmentPageFlags
  rw [h1, h2, h3, h4, h5]
  simp only [ok_bind]
  rw [if_neg (not_not.mpr h7), ok_bind, show filesz.toNat = 0 by omega, loop_zero, ok_bind]

/-! ## Allocating pages -/

/-- `n` fresh pages, with nothing else written. -/
structure NewPages (P : Pool) (ph : Phys) (pages : List Nat) (ph' : Phys) : Prop where
  inv : PmmInv P ph'.pmm
  out : outstanding ph'.pmm.history = outstanding ph.pmm.history + (pages : Multiset Nat)
  only : OnlyPages (pages : Multiset Nat) ph.mem ph'.mem
  cr3 : ph'.cr3 = ph.cr3

theorem NewPages.keeps {P : Pool} {ph ph' : Phys} {pages : List Nat}
    (h : NewPages P ph pages ph') {p : Nat} (hp : p ∈ outstanding ph.pmm.history) :
    SamePage ph.mem ph'.mem p := by
  have hnd := h.inv.balanced.nodup
  rw [h.out] at hnd
  have hmem : ∀ q ∈ outstanding ph.pmm.history + (pages : Multiset Nat), q ∈ P.pages :=
    fun q hq => h.inv.mem_pages (h.out ▸ hq)
  refine h.only.samePage (P.aligned p (hmem p (Multiset.mem_add.mpr (Or.inl hp))))
    (fun q hq => P.aligned q (hmem q (Multiset.mem_add.mpr (Or.inr hq)))) fun hc => ?_
  exact Multiset.disjoint_left.mp (Multiset.nodup_add.mp hnd).2.2 hp hc

theorem NewPages.page {P : Pool} {ph ph' : Phys} {pages : List Nat}
    (h : NewPages P ph pages ph') {p : Nat} (hp : p ∈ pages) : TablePage p := by
  have hmem : p ∈ P.pages := h.inv.mem_pages (by
    rw [h.out]; exact Multiset.mem_add.mpr (Or.inr hp))
  have h1 := P.low p hmem
  have h2 := P.high p hmem
  exact ⟨P.aligned p hmem, by omega, by omega⟩

theorem allocUserPages_spec {P : Pool} (n : Nat) {ph : Phys} (h : PmmInv P ph.pmm) :
    Ends (allocUserPages n ph)
      (fun r => r.1.length = n ∧ NewPages P ph r.1 r.2 ∧
        r.2.pmm.freePages = ph.pmm.freePages - n)
      (fun _ => ph.pmm.freePages < n) := by
  induction n generalizing ph with
  | zero =>
    exact ⟨rfl, ⟨h, (add_zero _).symm, OnlyPages.refl _ _, rfl⟩, by simp⟩
  | succ n ih =>
    unfold allocUserPages
    rcases PmmInv.alloc_table h with ⟨hf, ha⟩ | ⟨p, t, ha, -, hfree, hpage, -, hist, ht⟩
    · rw [ha]
      have : ph.pmm.freePages < (n + 1 : Nat) := by push_cast; omega
      simpa using this
    · obtain ⟨m, hz, -, ho⟩ := zeroPage_spec hpage ph.mem
      rw [ha]
      dsimp only
      rw [if_neg hpage.pos.ne', hz, ok_bind]
      refine ends_bind ((@ih { ph with pmm := t, mem := m } ht).mono (fun _ h => h)
        fun _ he => ?_) ?_
      · dsimp only at he
        push_cast
        omega
      · rintro ⟨pages, ph'⟩ ⟨hlen, hn, hf⟩
        dsimp only at hlen hn hf
        refine ⟨by rw [List.length_cons, hlen], ⟨hn.inv, ?_, ?_, hn.cr3⟩, ?_⟩
        · rw [hn.out]
          dsimp only
          rw [hist, add_assoc, ← Multiset.cons_coe, Multiset.singleton_add]
        · refine OnlyPages.trans (ho.mono fun q hq => ?_) (hn.only.mono fun q hq => ?_)
          · rw [Multiset.mem_singleton.mp hq]
            exact List.mem_cons_self ..
          · exact List.mem_cons_of_mem _ hq
        · dsimp only
          push_cast
          omega

/-! ## Preparing the pages of an image -/

/-- What preparing an accepted image gives. -/
structure Prepared (P : Pool) (img : Image) (ph : Phys) (heap : Heap) (pages flags : List Nat)
    (ph' : Phys) (heap' : Heap) : Prop where
  new : NewPages P ph pages ph'
  flags : ∃ filePages n : Nat, elfUserImagePageCount img = .ok (filePages : Int) ∧
    elfUserLoadSegmentCount img = .ok n ∧ 1 ≤ filePages ∧ filePages ≤ 64 ∧
    pages.length = filePages + 5 ∧ FlagsOf img filePages n flags
  heap : HeapOk heap' ∧ HeapGrows heap heap'

theorem schedulerPrepareUserImagePages_spec {P : Pool} {img : Image} {ph : Phys} {heap : Heap}
    (h : PmmInv P ph.pmm) (hh : HeapOk heap) (hv : elfValidateUserImage img = .ok true) :
    Ends (schedulerPrepareUserImagePages img ph heap)
      (fun r => Prepared P img ph heap r.1 r.2.1 r.2.2.1 r.2.2.2 ∧
        r.2.2.1.pmm.freePages + r.1.length = ph.pmm.freePages ∧ r.2.2.2.ptr < heap.ptr + 2000)
      (fun _ => ph.pmm.freePages < 69 ∨ heap.stop < heap.ptr + 2000 ∨ ¬ Blank img) := by
  obtain ⟨fp, hfp, h1, h64⟩ := elfValidateUserImage_pages hv
  unfold schedulerPrepareUserImagePages
  rw [hfp, ok_bind]
  dsimp only
  unfold userTaskHeapPages maxUserMappedPages
  refine ends_bind ((allocBytes_spec hh (n := ((fp : Int) + 4 + 1) * 8)
    (by omega)).mono (fun _ h => h) fun _ he => Or.inr (Or.inl (by omega))) ?_
  rintro ⟨p₁, heap₁⟩ ⟨-, hok₁, hg₁, -, hp₁⟩
  dsimp only at hok₁ hg₁ hp₁ ⊢
  refine ends_bind ((allocBytes_spec hok₁ (n := ((fp : Int) + 4) * 8)
    (by omega)).mono (fun _ h => h) fun _ he => Or.inr (Or.inl ?_)) ?_
  · have := hg₁.stop
    omega
  rintro ⟨p₂, heap₂⟩ ⟨-, hok₂, hg₂, -, hp₂⟩
  dsimp only at hok₂ hg₂ hp₂ ⊢
  rw [if_neg (by omega)]
  refine ends_bind ((allocUserPages_spec ((fp : Int) + 4 + 1).toNat h).mono (fun _ h => h)
    fun _ he => Or.inl (by omega)) ?_
  rintro ⟨pages, ph₁⟩ ⟨hlen, hn, hfree⟩
  dsimp only at hlen hn hfree ⊢
  cases hcount : elfUserLoadSegmentCount img with
  | error e =>
    refine Or.inr (Or.inr ?_)
    rintro ⟨n, hn, -⟩
    rw [hcount] at hn
    cases hn
  | ok n =>
    rw [ok_bind]
    have hstart := flagsOf_start img fp
    have hloop : Ends (loop (loadUserSegment img pages) 0 n
        (List.replicate (fp : Int).toNat schedulerUserPageFlagsDefault ++
          List.replicate (4 : Int).toNat schedulerUserPageFlagsWritable, ph₁.mem))
        (fun st => FlagsOf img fp (0 + n) st.1 ∧ OnlyPages (pages : Multiset Nat) ph₁.mem st.2)
        (fun _ => ¬ Blank img) := by
      refine ends_loop (fun j (st : List Nat × Mem) => FlagsOf img fp j st.1 ∧
        OnlyPages (pages : Multiset Nat) ph₁.mem st.2) ⟨hstart, OnlyPages.refl _ _⟩ ?_
      rintro j ⟨flags, m⟩ - hj ⟨hf, hm⟩
      by_cases hb : Blank img
      · have hstep := loadUserSegment_spec hf hm
        rw [loadUserSegment_blank hb hcount (by omega)] at hstep ⊢
        exact hstep
      · exact (loadUserSegment_spec hf hm).mono (fun _ h => h) fun _ _ => hb
    refine ends_bind (hloop.mono (fun _ h => h) fun _ hb => Or.inr (Or.inr hb)) ?_
    rintro ⟨flags, m⟩ ⟨hf, hm⟩
    rw [Nat.zero_add] at hf
    refine ⟨⟨⟨hn.inv, hn.out, hn.only.trans hm, hn.cr3⟩,
      ⟨fp, n, hfp, hcount, h1, h64, by dsimp only; omega, hf⟩, hok₂, hg₁.trans hg₂⟩, ?_, ?_⟩
    · dsimp only
      omega
    · dsimp only
      omega

end PcoOs.Image
