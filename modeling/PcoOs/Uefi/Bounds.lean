/-
  When the kernel loader stays in bounds. From the allocation on it writes, and a copy that leaves
  the image may change the file itself, so here a step keeps a clean record clean or spoils it for
  good.
-/
import PcoOs.Uefi.Headers

namespace PcoOs.Uefi

open PcoOs.Lib PcoOs.Lib.Prog

/-- Every byte read was one of the file and every byte written one of the image. -/
structure InBounds (size : Nat) (b : Bounds) (s : LoaderState) : Prop where
  reads : ∀ o ∈ s.reads, o < size
  writes : ∀ a ∈ s.writes, b.base ≤ a ∧ a < b.stop

/-- In bounds so far, and the file is still the one of `m`. -/
structure Clean (m : Mem) (file size : Nat) (b : Bounds) (s : LoaderState) : Prop where
  bounds : InBounds size b s
  file : ∀ o < size, byteAt s.mem file o = byteAt m file o

/-- What is known of a record when `φ` decides whether it is in bounds. -/
def Verdict (m : Mem) (file size : Nat) (b : Bounds) (φ : Prop) (s : LoaderState) : Prop :=
  (φ → Clean m file size b s) ∧ (¬ φ → ¬ InBounds size b s)

section Spoiled

variable {file size : Nat} {b : Bounds}

/-- A program that only adds to the record. -/
theorem maintains_spoiled {α : Type} {x : Loader α}
    (h : ∀ s a t, x s = .ok (a, t) → s.reads ⊆ t.reads ∧ s.writes ⊆ t.writes) :
    Maintains (fun s => ¬ InBounds size b s) x := by
  intro s hs a t heq ht
  obtain ⟨hr, hw⟩ := h s a t heq
  exact hs ⟨fun o ho => ht.reads o (hr ho), fun a ha => ht.writes a (hw ha)⟩

@[simp] theorem readField_spoiled (off width : Nat) :
    Maintains (fun s => ¬ InBounds size b s) (readField file off width) := by
  refine maintains_spoiled fun s v t heq => ?_
  obtain ⟨-, rfl⟩ := Prod.mk.inj (Except.ok.inj heq)
  exact ⟨List.subset_append_right _ _, List.Subset.refl _⟩

@[simp] theorem readByte_spoiled (off : Nat) :
    Maintains (fun s => ¬ InBounds size b s) (readByte file off) := by
  refine maintains_spoiled fun s v t heq => ?_
  obtain ⟨-, rfl⟩ := Prod.mk.inj (Except.ok.inj heq)
  exact ⟨List.subset_cons_self _ _, List.Subset.refl _⟩

@[simp] theorem writeByte_spoiled (a : Nat) (v : UInt8) :
    Maintains (fun s => ¬ InBounds size b s) (writeByte a v) := by
  refine maintains_spoiled fun s u t heq => ?_
  obtain ⟨-, rfl⟩ := Prod.mk.inj (Except.ok.inj heq)
  exact ⟨List.Subset.refl _, List.subset_cons_self _ _⟩

theorem copySegment_spoiled (p : Nat) :
    Maintains (fun s => ¬ InBounds size b s) (copySegment file p) := by
  have hload : Maintains (fun s => ¬ InBounds size b s) (isLoad file p) :=
    maintains_bind (by simp) fun _ => maintains_ite (by simp) (maintains_bind (by simp) fun _ => by simp)
  have haddr : Maintains (fun s => ¬ InBounds size b s) (segmentAddr file p) :=
    maintains_bind (by simp) fun _ => maintains_ite (by simp) (by simp)
  refine maintains_bind hload fun _ => maintains_ite (maintains_bind haddr fun _ => ?_) (by simp)
  refine maintains_bind (by simp) fun _ => maintains_bind (by simp) fun _ => maintains_times (fun i => ?_) _ _
  exact maintains_bind (by simp) fun _ => by simp

theorem copySegments_spoiled (phoff i n : Nat) :
    Maintains (fun s => ¬ InBounds size b s) (copySegments file phoff i n) := by
  induction n generalizing i with
  | zero => exact maintains_pure _
  | succ n ih =>
    refine maintains_bind (by simp) fun _ => maintains_ite ?_ (by simp)
    exact maintains_bind (copySegment_spoiled _) fun _ => ih _

end Spoiled

/-! ## Copying the segments -/

section Copy

variable {m : Mem} {file size : Nat} {b : Bounds}

/-- A field depends on its own bytes only. -/
theorem fieldAt_congr {m m' : Mem} {file off width : Nat}
    (h : ∀ k < width, byteAt m' file (off + k) = byteAt m file (off + k)) :
    fieldAt m' file off width = fieldAt m file off width := by
  induction width generalizing off with
  | zero => rfl
  | succ width ih =>
    have h0 := h 0 (by omega)
    rw [Nat.add_zero] at h0
    rw [fieldAt, fieldAt, h0, ih fun k hk => ?_]
    have := h (k + 1) (by omega)
    rwa [show off + (k + 1) = off + 1 + k by omega] at this

theorem readField_clean {off width : Nat} (h : off + width ≤ size) (hs : size ≤ 2 ^ 63) :
    Hoare (Clean m file size b) (readField file off width) fun v s =>
      Clean m file size b s ∧ v = fieldAt m file off width := by
  intro s hc v t heq
  obtain ⟨rfl, rfl⟩ := Prod.mk.inj (Except.ok.inj heq)
  refine ⟨⟨⟨fun o ho => ?_, hc.bounds.writes⟩, hc.file⟩,
    fieldAt_congr fun k hk => hc.file _ (by omega)⟩
  rcases List.mem_append.mp ho with ho | ho
  · obtain ⟨k, hk, rfl⟩ := List.mem_map.mp ho
    exact inFile_of_le h hs k (List.mem_range.mp hk)
  · exact hc.bounds.reads o ho

theorem readByte_clean {off : Nat} (h : off < size) (hs : size ≤ 2 ^ 63) :
    Maintains (Clean m file size b) (readByte file off) := by
  intro s hc v t heq
  obtain ⟨rfl, rfl⟩ := Prod.mk.inj (Except.ok.inj heq)
  refine ⟨⟨?_, hc.bounds.writes⟩, hc.file⟩
  rw [List.forall_mem_cons, Nat.mod_eq_of_lt (by omega)]
  exact ⟨h, hc.bounds.reads⟩

/-- The firmware gave the loader pages apart from the file. -/
def Apart (file size : Nat) (b : Bounds) : Prop := b.stop ≤ file ∨ file + size ≤ b.base

theorem writeByte_clean {a : Nat} {v : UInt8} (hf : file + size ≤ 2 ^ 63)
    (hapart : Apart file size b) (hlo : b.base ≤ a) (hhi : a < b.stop) (hstop : b.stop < 2 ^ 64) :
    Maintains (Clean m file size b) (writeByte a v) := by
  refine maintains_update fun s hc => ?_
  rw [Nat.mod_eq_of_lt (by omega)]
  refine ⟨⟨hc.bounds.reads, List.forall_mem_cons.mpr ⟨⟨hlo, hhi⟩, hc.bounds.writes⟩⟩, fun o ho => ?_⟩
  rw [← hc.file o ho]
  refine storeByte_ne ?_
  rw [Nat.mod_eq_of_lt (by omega)]
  rcases hapart with h | h <;> omega

theorem memSet_clean (hf : file + size ≤ 2 ^ 63) (hapart : Apart file size b)
    (hstop : b.stop < 2 ^ 64) : Maintains (Clean m file size b) (memSet b.base 0 (b.stop - b.base)) :=
  hoare_times _ (fun _ => Clean m file size b) fun i _ hi =>
    writeByte_clean hf hapart (by omega) (by omega) hstop

/-- A copy out of the file into the image. -/
theorem memCopy_clean {dst off n : Nat} (hf : file + size ≤ 2 ^ 63) (hapart : Apart file size b)
    (hstop : b.stop < 2 ^ 64) (hdst : b.base ≤ dst) (hoff : n = 0 ∨ off + n ≤ size ∧ dst + n ≤ b.stop) :
    Maintains (Clean m file size b) (memCopy file dst off n) := by
  refine hoare_times _ (fun _ => Clean m file size b) fun i _ hi => ?_
  refine maintains_bind (readByte_clean (by omega) (by omega)) fun v => ?_
  exact writeByte_clean hf hapart (by omega) (by omega) hstop

/-- Any other copy leaves one of them. -/
theorem memCopy_spoils {P : LoaderState → Prop} {dst off n : Nat} (hf : file + size ≤ 2 ^ 63)
    (hstop : b.stop < 2 ^ 64) (hdst : dst < 2 ^ 64) (hoff : off < 2 ^ 64) (hn : n ≠ 0)
    (hout : ¬ (off + n ≤ size ∧ dst + n ≤ b.stop)) :
    Hoare P (memCopy file dst off n) fun _ s => ¬ InBounds size b s := by
  -- the first byte behind the file or the image, or the very first one
  obtain ⟨k, hk, hbad⟩ : ∃ k < n, ¬ ((off + k) % 2 ^ 64 < size ∧
      b.base ≤ (dst + k) % 2 ^ 64 ∧ (dst + k) % 2 ^ 64 < b.stop) := by
    by_cases hfile : off + n ≤ size
    · by_cases hd : b.stop ≤ dst
      · exact ⟨0, by omega, by omega⟩
      · exact ⟨b.stop - dst, by omega, by omega⟩
    · by_cases ho : size ≤ off
      · exact ⟨0, by omega, by omega⟩
      · exact ⟨size - off, by omega, by omega⟩
  have hloop := hoare_times (fun i : Nat => do
      let v ← readByte file (off + i)
      writeByte (dst + i) v)
    (fun j s => k < j → ¬ InBounds size b s) (i := 0) (n := n) fun j _ _ => ?_
  · exact hloop.mono (fun _ _ h => absurd h (by omega)) fun _ s h => h (by omega)
  · by_cases hj : j = k
    · subst hj
      intro s _ u t heq _ hin
      obtain ⟨v, s₁, hread, hwrite⟩ := run_bind_ok.mp heq
      obtain ⟨-, rfl⟩ := Prod.mk.inj (Except.ok.inj hread)
      obtain ⟨-, rfl⟩ := Prod.mk.inj (Except.ok.inj hwrite)
      exact hbad ⟨hin.reads _ List.mem_cons_self, hin.writes _ List.mem_cons_self⟩
    · have hbody : Maintains (fun s => ¬ InBounds size b s) (do
          let v ← readByte file (off + j)
          writeByte (dst + j) v) := maintains_bind (by simp) fun v => by simp
      intro s h u t heq hlt
      exact hbody s (h (by omega)) u t heq

theorem isLoad_clean {p : Nat} (h : p + 56 ≤ size) (hs : size ≤ 2 ^ 63) :
    Hoare (Clean m file size b) (isLoad file p) fun r s =>
      Clean m file size b s ∧ (r = true ↔ Load m file p) := by
  refine hoare_bind (readField_clean (by omega) hs) fun type => hoare_fact fun htype => ?_
  subst htype
  refine hoare_ite (fun h => hoare_pure fun s hc => ⟨hc, by simp [Load, h]⟩) fun h => ?_
  refine hoare_bind (readField_clean (by omega) hs) fun memsz => hoare_fact fun hmemsz => ?_
  exact hoare_pure fun s hc => ⟨hc, by simp [Load, not_not.mp h, hmemsz]⟩

theorem segmentAddr_clean {p : Nat} (h : p + 56 ≤ size) (hs : size ≤ 2 ^ 63) :
    Hoare (Clean m file size b) (segmentAddr file p) fun r s =>
      Clean m file size b s ∧ r = addrOf m file p := by
  refine hoare_bind (readField_clean (by omega) hs) fun paddr => hoare_fact fun hpaddr => ?_
  subst hpaddr
  refine hoare_ite (fun h => hoare_pure fun s hc => ⟨hc, (if_pos h).symm⟩) fun h => ?_
  refine (readField_clean (by omega) hs).mono (fun _ hc => hc) fun r s hc => ⟨hc.1, ?_⟩
  rw [hc.2]
  exact (if_neg h).symm

theorem addrOf_lt (m : Mem) (file p : Nat) : addrOf m file p < 2 ^ 64 := by
  unfold addrOf
  split_ifs
  · exact qword_lt _ _ _
  · exact qword_lt _ _ _

/-- With the bounds of all headers, a segment fits below the largest end. -/
theorem Bounding.segmentFits_iff (hb : Bounding m file (phnum m file) b) (hpos : 0 < b.stop) (p : Nat) :
    SegmentFits m file size p ↔ fieldAt m file (p + 32) 8 = 0 ∨
      fieldAt m file (p + 8) 8 + fieldAt m file (p + 32) 8 ≤ size ∧
      addrOf m file p + fieldAt m file (p + 32) 8 ≤ b.stop := by
  refine or_congr_right (and_congr_right fun _ => ⟨?_, fun h => ?_⟩)
  · rintro ⟨j, hj, hl, hle⟩
    exact hle.trans (hb.le_stop j hj hl)
  · rcases hb.stop_eq with h0 | ⟨j, hj, hl, heq⟩
    · omega
    · exact ⟨j, hj, hl, heq ▸ h⟩

/-- A segment. -/
theorem copySegment_verdict (hf : file + size ≤ 2 ^ 63) (hapart : Apart file size b)
    (hstop : b.stop < 2 ^ 64) (hb : Bounding m file (phnum m file) b) (hpos : 0 < b.stop) {i : Nat}
    (hi : i < phnum m file) (h56 : phdr m file i + 56 ≤ size) :
    Hoare (Clean m file size b) (copySegment file (phdr m file i)) fun _ =>
      Verdict m file size b
        (Load m file (phdr m file i) → SegmentFits m file size (phdr m file i)) := by
  have hs : size ≤ 2 ^ 63 := by omega
  unfold copySegment
  refine hoare_bind (isLoad_clean h56 hs) fun load => hoare_fact fun hload => ?_
  refine hoare_ite (fun hl => ?_) fun hl => hoare_pure fun s hc => ⟨fun _ => hc, fun h => ?_⟩
  · have hl' : Load m file (phdr m file i) := hload.mp hl
    refine hoare_bind (segmentAddr_clean h56 hs) fun addr => hoare_fact fun haddr => ?_
    refine hoare_bind (readField_clean (by omega) hs) fun offset => hoare_fact fun hoffset => ?_
    refine hoare_bind (readField_clean (by omega) hs) fun filesz => hoare_fact fun hfilesz => ?_
    have hfits : (Load m file (phdr m file i) → SegmentFits m file size (phdr m file i)) ↔
        filesz = 0 ∨ offset + filesz ≤ size ∧ addr + filesz ≤ b.stop := by
      rw [imp_iff_right hl', hb.segmentFits_iff hpos, hoffset, hfilesz, haddr]
    have hoff : offset < 2 ^ 64 := by
      rw [hoffset]
      exact qword_lt _ _ _
    have hbase : b.base ≤ addr := by
      rw [haddr]
      exact hb.base_le i hi hl'
    have hlt : addr < 2 ^ 64 := by
      rw [haddr]
      exact addrOf_lt _ _ _
    rw [hfits]
    by_cases hcopy : filesz = 0 ∨ offset + filesz ≤ size ∧ addr + filesz ≤ b.stop
    · exact (memCopy_clean hf hapart hstop hbase hcopy).mono (fun _ hc => hc) fun _ _ hc =>
        ⟨fun _ => hc, fun h => absurd hcopy h⟩
    · obtain ⟨hn, hout⟩ := not_or.mp hcopy
      exact (memCopy_spoils hf hstop hlt hoff hn hout).mono (fun _ hc => hc) fun _ _ hs =>
        ⟨fun h => absurd h hcopy, fun _ => hs⟩
  · exact absurd (fun hl' => absurd (hload.mpr hl') hl) h

theorem copySegments_verdict (hf : file + size ≤ 2 ^ 63) (hapart : Apart file size b)
    (hstop : b.stop < 2 ^ 64) (hb : Bounding m file (phnum m file) b) (hpos : 0 < b.stop)
    (hheaders : phoff m file + 56 * phnum m file ≤ size) (h64 : 64 ≤ size) {i n : Nat}
    (hn : i + n = 2 ^ 16) : Hoare (Clean m file size b) (copySegments file (phoff m file) i n)
      fun _ => Verdict m file size b (∀ j, i ≤ j → j < phnum m file →
        Load m file (phdr m file j) → SegmentFits m file size (phdr m file j)) := by
  have hnum : phnum m file < 65536 := fieldAt_lt m file 56 2
  have hs : size ≤ 2 ^ 63 := by omega
  induction n generalizing i with
  | zero => exact hoare_pure fun s hc => ⟨fun _ => hc, fun h => absurd (fun j hj hj' => by omega) h⟩
  | succ n ih =>
    refine hoare_bind (readField_clean (by omega) hs) fun num => hoare_fact fun hnumEq => ?_
    have hnum' : num = phnum m file := hnumEq
    subst hnum'
    refine hoare_ite (fun hi => ?_) fun hi => hoare_pure fun s hc =>
      ⟨fun _ => hc, fun h => absurd (fun j hj hj' => by omega) h⟩
    have h56 : phdr m file i + 56 ≤ size := by
      unfold phdr
      omega
    refine hoare_bind (copySegment_verdict hf hapart hstop hb hpos hi h56) fun _ => ?_
    intro s hv u t heq
    by_cases hfits : Load m file (phdr m file i) → SegmentFits m file size (phdr m file i)
    · obtain ⟨hclean, hspoiled⟩ := ih (i := i + 1) (by omega) s (hv.1 hfits) u t heq
      refine ⟨fun h => hclean fun j hj => h j (by omega), fun h => hspoiled fun hrest => h ?_⟩
      intro j hj hjn
      rcases Nat.eq_or_lt_of_le hj with rfl | hlt
      · exact hfits
      · exact hrest j hlt hjn
    · have hspoiled := copySegments_spoiled _ _ _ s (hv.2 hfits) u t heq
      exact ⟨fun h => absurd (h i (le_refl i) hi) hfits, fun _ => hspoiled⟩

end Copy

/-- The firmware gives no page of the kernel file away, which the loader holds. -/
def Grants (file size : Nat) (allocatePages : Nat → Nat → Except EfiError Unit) : Prop :=
  ∀ base pages, allocatePages base pages = .ok () →
    Apart file size ⟨base, base + pages * 4096⟩

theorem alignUp_mod (v : Nat) : alignUp v % 4096 = 0 := alignDown_mod _ (by omega)

theorem alignUp_lt (v : Nat) : alignUp v < 2 ^ 64 :=
  lt_of_le_of_lt (alignDown_le _ _) (Nat.mod_lt _ (by omega))

theorem Bounding.stop_lt {m : Mem} {file n : Nat} {b : Bounds} (hb : Bounding m file n b) :
    b.stop < 2 ^ 64 := by
  rcases hb.stop_eq with h | ⟨j, -, -, h⟩ <;> rw [h]
  · omega
  · exact alignUp_lt _

/-- The loader asks for exactly the pages of the image. -/
theorem Bounding.apart {m : Mem} {file size n : Nat} {b : Bounds} (hb : Bounding m file n b)
    {allocatePages : Nat → Nat → Except EfiError Unit} (hgrants : Grants file size allocatePages)
    (hbase : b.base ≠ 2 ^ 64 - 1) (hlt : b.base < b.stop)
    (halloc : allocatePages b.base ((b.stop - b.base) / 4096) = .ok ()) : Apart file size b := by
  have hpage := hb.base_page
  have hend : b.stop % 4096 = 0 := by
    rcases hb.stop_eq with h | ⟨j, -, -, h⟩ <;> rw [h]
    exact alignUp_mod _
  have h := hgrants _ _ halloc
  rwa [show b.base + (b.stop - b.base) / 4096 * 4096 = b.stop by omega] at h

/-- The part behind the allocation. -/
theorem loadSegments_verdict {m : Mem} {file size : Nat} {b : Bounds} (hf : file + size ≤ 2 ^ 63)
    (hapart : Apart file size b) (hstop : b.stop < 2 ^ 64)
    (hb : Bounding m file (phnum m file) b) (hpos : 0 < b.stop) (h64 : 64 ≤ size)
    (hheaders : phoff m file + 56 * phnum m file ≤ size) (entry64 : Nat) :
    Hoare (Clean m file size b) (do
        memSet b.base 0 (b.stop - b.base)
        copySegments file (phoff m file) 0 (2 ^ 16)
        pure (entry64, b)) fun r s => r.2 = b ∧ Verdict m file size b
          (∀ i < phnum m file, Load m file (phdr m file i) →
            SegmentFits m file size (phdr m file i)) s := by
  refine hoare_bind (memSet_clean hf hapart hstop) fun _ => ?_
  refine hoare_bind (copySegments_verdict hf hapart hstop hb hpos hheaders h64 (by omega)) fun _ => ?_
  refine hoare_pure fun s hv => ⟨rfl, ?_⟩
  simpa using hv

/-- What a run that succeeds has recorded. -/
theorem loadKernelImage_verdict {allocatePages : Nat → Nat → Except EfiError Unit} {m : Mem}
    {file size : Nat} (hf : file + size ≤ 2 ^ 63) (hgrants : Grants file size allocatePages) :
    Hoare (Traced m size True) (loadKernelImage allocatePages file size) fun r s =>
      InBounds size r.2 s ↔ KernelFits m file size := by
  have hs : size ≤ 2 ^ 63 := by omega
  unfold loadKernelImage
  refine hoare_bind (checkIdent_traced hs) fun _ => hoare_fact fun h64 => ?_
  refine hoare_bind (readField_inside (by omega) hs) fun machine => hoare_fact fun _ => ?_
  refine hoare_bind (maintains_refuse _ _) fun _ => ?_
  refine hoare_bind (readField_inside (by omega) hs) fun phentsize => hoare_fact fun _ => ?_
  refine hoare_bind hoare_refuse fun _ => hoare_fact fun hentsize => ?_
  refine hoare_bind (readField_inside (by omega) hs) fun num => hoare_fact fun hnumEq => ?_
  refine hoare_bind hoare_refuse fun _ => hoare_fact fun hnum => ?_
  refine hoare_bind (readField_inside (by omega) hs) fun off => hoare_fact fun hoffEq => ?_
  refine hoare_bind hoare_refuse fun _ => hoare_fact fun hcheck => ?_
  have hn : num = phnum m file := hnumEq
  have ho : off = phoff m file := hoffEq
  subst hn ho
  rw [not_not.mp hentsize] at hcheck
  refine hoare_bind (findBootmeta_traced hs) fun entry64 => ?_
  refine hoare_bind (boundSegments_traced Bounding.start) fun b => hoare_fact fun hb => ?_
  rw [Nat.zero_add] at hb
  refine hoare_bind hoare_refuse fun _ => hoare_fact fun hempty => ?_
  refine hoare_bind (hoare_embed_fact _) fun _ => hoare_fact fun hgrant => ?_
  have hiff : ((True ∧ SectionsFit m file size) ∧ ∀ j, 0 ≤ j → j < 0 + phnum m file →
      PhdrRead m file size (phdr m file j)) ↔
      SectionsFit m file size ∧ phoff m file + 56 * phnum m file ≤ size := by
    rw [true_and, phdrs_iff hs hnum (not_lt.mp hcheck)]
  by_cases hread : SectionsFit m file size ∧ phoff m file + 56 * phnum m file ≤ size
  · have hapart := hb.apart hgrants (by omega) (by omega) hgrant
    have hrun := loadSegments_verdict hf hapart hb.stop_lt hb (by omega) h64 hread.2 entry64
    refine hrun.mono (fun s ht => ?_) ?_
    · refine ⟨⟨ht.reads.mpr (hiff.mpr hread), ?_⟩, fun o _ => by rw [ht.mem]⟩
      simp [ht.writes]
    · rintro _ s ⟨rfl, hclean, hspoiled⟩
      refine ⟨fun hin => ⟨hread.1, hread.2, ?_⟩, fun h => (hclean h.segments).bounds⟩
      exact not_not.mp fun h => hspoiled h hin
  · have hstart : ∀ s, Traced m size _ s → ¬ InBounds size b s :=
      fun s ht hin => hread (hiff.mp (ht.reads.mp hin.reads))
    have hset : Maintains (fun s => ¬ InBounds size b s) (memSet b.base 0 (b.stop - b.base)) :=
      maintains_times (fun i => writeByte_spoiled _ _) _ _
    refine Hoare.mono (P := fun s => ¬ InBounds size b s) ?_ hstart fun _ _ h => h
    refine hoare_bind hset fun _ => hoare_bind (copySegments_spoiled _ _ _) fun _ => ?_
    exact hoare_pure fun s h => ⟨fun hin => absurd hin h, fun hk => absurd ⟨hk.sections, hk.headers⟩ hread⟩

/-- A loader that succeeds stayed inside the file and the image exactly if the file's headers fit. -/
theorem load_kernel_image_bounds_iff {allocatePages : Nat → Nat → Except EfiError Unit}
    {file size entry64 : Nat} {b : Bounds} {s t : LoaderState} (hf : file + size ≤ 2 ^ 63)
    (hgrants : Grants file size allocatePages) (hreads : s.reads = []) (hwrites : s.writes = [])
    (hr : loadKernelImage allocatePages file size s = .ok ((entry64, b), t)) :
    InBounds size b t ↔ KernelFits s.mem file size := by
  have htraced : Traced s.mem size True s := ⟨rfl, hwrites, by simp [hreads]⟩
  exact loadKernelImage_verdict hf hgrants s htraced (entry64, b) t hr

/-! ## A small kernel -/

/-- An ELF file of 288 bytes at 1 MiB. Its segment has `filesz` bytes in the file, one in memory and
    the address `0x200FFF`; its sections are `.shstrtab` and `.bootmeta`. -/
@[irreducible] def smallKernel (filesz : Nat) : LoaderState :=
  let words := [0x464C457F, 0, 2 + 62 * 2 ^ 16 + 2 ^ 32, 0x200FFF, 64, 120,
    64 * 2 ^ 32 + 56 * 2 ^ 48, 1 + 64 * 2 ^ 16 + 2 * 2 ^ 32,
    1 + 5 * 2 ^ 32, 0, 0x200FFF, 0x200FFF, filesz, 1, 4096,
    3 * 2 ^ 32, 0, 0, 248, 16, 0, 0, 0,
    1 + 2 ^ 32, 0, 0, 264, 24, 0, 0, 0]
  let strings := 0 :: bootmetaName ++ List.replicate 6 0
  let bootmeta := [bootmetaMagic, 1, 0x200FFF]
  ⟨storeBytes (fun _ => 0) 0x100000
    (words.flatMap wordBytes ++ strings ++ bootmeta.flatMap wordBytes), [], []⟩

/-- Every range is free but the page of the file. -/
def smallFirmware (base pages : Nat) : Except EfiError Unit :=
  if base + pages * 4096 ≤ 0x100000 ∨ 0x101000 ≤ base then .ok () else .error .notFound

theorem smallFirmware_grants : Grants 0x100000 288 smallFirmware := by
  intro base pages h
  unfold smallFirmware at h
  split_ifs at h with hfree
  exact hfree.imp_right fun h => by dsimp only; omega

theorem smallKernel_fresh (filesz : Nat) :
    (smallKernel filesz).reads = [] ∧ (smallKernel filesz).writes = [] := by
  unfold smallKernel
  exact ⟨rfl, rfl⟩

theorem load_kernel_image_bounds_iff_small : ∃ entry64 b t,
    loadKernelImage smallFirmware 0x100000 288 (smallKernel 1) = .ok ((entry64, b), t) ∧
      (InBounds 288 b t ↔ KernelFits (smallKernel 1).mem 0x100000 288) := by
  have hrun : (loadKernelImage smallFirmware 0x100000 288 (smallKernel 1)).isOk = true := by
    decide +kernel
  obtain ⟨⟨⟨entry64, b⟩, t⟩, hr⟩ := exists_ok_of_isOk hrun
  exact ⟨entry64, b, t, hr, load_kernel_image_bounds_iff (by omega) smallFirmware_grants
    (smallKernel_fresh 1).1 (smallKernel_fresh 1).2 hr⟩

/-- With two bytes in the file, the second one goes behind the image. -/
theorem load_kernel_image_overruns : ¬ ∀ (allocatePages : Nat → Nat → Except EfiError Unit)
    (file size entry64 : Nat) (b : Bounds) (s t : LoaderState), file + size ≤ 2 ^ 63 →
      Grants file size allocatePages → s.reads = [] → s.writes = [] →
      loadKernelImage allocatePages file size s = .ok ((entry64, b), t) → InBounds size b t := by
  intro h
  obtain ⟨r, hr⟩ := exists_ok_of_isOk (x := do
    let r ← loadKernelImage smallFirmware 0x100000 288 (smallKernel 2)
    if r.1.2.stop ∈ r.2.writes then Except.ok r else .error .notFound) (by decide +kernel)
  obtain ⟨⟨⟨entry64, b⟩, t⟩, hr, hwrite⟩ := bind_eq_ok.mp hr
  replace hwrite : b.stop ∈ t.writes := by
    by_contra hn
    rw [if_neg hn] at hwrite
    cases hwrite
  have hin := h _ _ _ _ _ _ t (by omega) smallFirmware_grants (smallKernel_fresh 2).1
    (smallKernel_fresh 2).2 hr
  have := (hin.writes _ hwrite).2
  omega

end PcoOs.Uefi
