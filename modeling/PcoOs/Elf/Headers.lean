/-
  The fields of an ELF image as plain values. `leValue` is what a little-endian read returns,
  `headerAt` where a program header starts, `segments` the load segments in order.
  `elfBytes_ok` and `inside_of_elfBytes`: a read returns its value when its bytes lie inside the
  image and panics otherwise. With all program headers inside the image (`HeadersInside`), every
  accessor of `kelf.py` returns the field of the segment it names.
-/
import PcoOs.Elf.Model

namespace PcoOs.Elf

open PcoOs.Lib

/-! ## Bytes -/

/-- The `n` bytes from `offset` on are bytes of the image. -/
def Inside (img : Image) (offset : Int) (n : Nat) : Prop := 0 ≤ offset ∧ offset + n ≤ img.length

/-- The little-endian value of the `n` bytes from `offset` on. -/
def leValue (img : Image) : Nat → Nat → Nat
  | _, 0 => 0
  | offset, n + 1 => (img.getD offset 0).toNat + 256 * leValue img (offset + 1) n

theorem imageByte_ok {img : Image} {offset : Int} (h : Inside img offset 1) :
    imageByte img offset = .ok (img.getD offset.toNat 0).toNat := by
  obtain ⟨h0, h1⟩ := h
  unfold imageByte
  rw [if_neg (by omega), if_neg (by omega)]

theorem inside_of_imageByte {img : Image} {offset : Int} {b : Nat}
    (h : imageByte img offset = .ok b) : Inside img offset 1 := by
  unfold imageByte at h
  split_ifs at h with h0 h1
  exact ⟨by omega, by push_cast; omega⟩

theorem elfBytes_ok {img : Image} (hlen : img.length < 2 ^ 63) {n : Nat} {offset : Int}
    {shift value : Nat} (h : Inside img offset n) (hv : value < 2 ^ shift) :
    elfBytes img n offset shift value = .ok (value + 2 ^ shift * leValue img offset.toNat n) := by
  induction n generalizing offset shift value with
  | zero => simp [elfBytes, leValue]
  | succ n ih =>
    obtain ⟨h0, h1⟩ := h
    push_cast at h1
    have hb : (img.getD offset.toNat 0).toNat < 2 ^ 8 := (img.getD offset.toNat 0).toNat_lt
    have hor : value ||| (img.getD offset.toNat 0).toNat <<< shift =
        value + 2 ^ shift * (img.getD offset.toNat 0).toNat := by
      rw [Nat.shiftLeft_eq, Nat.mul_comm _ (2 ^ shift), Nat.or_comm,
        ← Nat.two_pow_add_eq_or_of_lt hv, Nat.add_comm]
    have hlt : value + 2 ^ shift * (img.getD offset.toNat 0).toNat < 2 ^ (shift + 8) := by
      rw [Nat.pow_add]
      nlinarith
    have hnext : wrap (offset + 1) = offset + 1 := wrap_of_range (by omega) (by omega)
    have hnat : (offset + 1).toNat = offset.toNat + 1 := by omega
    unfold elfBytes
    rw [imageByte_ok ⟨h0, by push_cast; omega⟩, ok_bind, hor, hnext,
      ih ⟨by omega, by omega⟩ hlt, hnat, leValue]
    congr 1
    rw [Nat.pow_add]
    ring

theorem inside_of_elfBytes {img : Image} (hlen : img.length < 2 ^ 63) {n : Nat} {offset : Int}
    {shift value v : Nat} (h : elfBytes img (n + 1) offset shift value = .ok v) :
    Inside img offset (n + 1) := by
  induction n generalizing offset shift value with
  | zero =>
    obtain ⟨b, hb, -⟩ := bind_eq_ok.mp h
    exact inside_of_imageByte hb
  | succ n ih =>
    obtain ⟨b, hb, h⟩ := bind_eq_ok.mp h
    obtain ⟨h0, h1⟩ := inside_of_imageByte hb
    push_cast at h1
    rw [wrap_of_range (by omega) (by omega)] at h
    obtain ⟨-, hrest⟩ := ih h
    push_cast at hrest ⊢
    exact ⟨h0, by push_cast; omega⟩

theorem elfU16_ok {img : Image} (hlen : img.length < 2 ^ 63) {offset : Int}
    (h : Inside img offset 2) : elfU16 img offset = .ok (leValue img offset.toNat 2 : Int) := by
  unfold elfU16
  rw [elfBytes_ok hlen h (by norm_num), ok_bind]
  simp

theorem elfU32_ok {img : Image} (hlen : img.length < 2 ^ 63) {offset : Int}
    (h : Inside img offset 4) : elfU32 img offset = .ok (leValue img offset.toNat 4 : Int) := by
  unfold elfU32
  rw [elfBytes_ok hlen h (by norm_num), ok_bind]
  simp

theorem elfU64_ok {img : Image} (hlen : img.length < 2 ^ 63) {offset : Int}
    (h : Inside img offset 8) :
    elfU64 img offset = .ok (wrap (leValue img offset.toNat 8)) := by
  unfold elfU64
  rw [elfBytes_ok hlen h (by norm_num), ok_bind]
  simp

/-! ## The program header table -/

def phoff (img : Image) : Int := wrap (leValue img 32 8)
def phentsize (img : Image) : Nat := leValue img 54 2
def phnum (img : Image) : Nat := leValue img 56 2
def entryPoint (img : Image) : Int := wrap (leValue img 24 8)

/-- Where program header `ph` starts, in 64-bit arithmetic. -/
def headerAt (img : Image) (ph : Nat) : Int := wrap (phoff img + wrap (ph * phentsize img))

def headerType (img : Image) (ph : Nat) : Nat := leValue img (headerAt img ph).toNat 4

/-- The fields of a program header the kernel reads. -/
structure Segment where
  flags : Nat
  offset : Int
  vaddr : Int
  filesz : Int
  memsz : Int

def segmentAt (img : Image) (ph : Nat) : Segment :=
  let start := (headerAt img ph).toNat
  { flags := leValue img (start + 4) 4
    offset := wrap (leValue img (start + 8) 8)
    vaddr := wrap (leValue img (start + 16) 8)
    filesz := wrap (leValue img (start + 32) 8)
    memsz := wrap (leValue img (start + 40) 8) }

/-- Header `ph` is a load segment that takes memory. -/
def isLoad (img : Image) (ph : Nat) : Bool := headerType img ph = 1 ∧ 0 < (segmentAt img ph).memsz

/-- The load segments among the `n` headers from `ph` on. -/
def segmentsFrom (img : Image) : Nat → Nat → List Segment
  | _, 0 => []
  | ph, n + 1 =>
    if isLoad img ph then segmentAt img ph :: segmentsFrom img (ph + 1) n
    else segmentsFrom img (ph + 1) n

/-- The load segments of the image in the order of their headers. -/
def segments (img : Image) : List Segment := segmentsFrom img 0 (phnum img)

theorem exists_header {img : Image} {s : Segment} {n ph : Nat} (h : s ∈ segmentsFrom img ph n) :
    ∃ q, s = segmentAt img q := by
  induction n generalizing ph with
  | zero => exact absurd h List.not_mem_nil
  | succ n ih =>
    rw [segmentsFrom] at h
    split_ifs at h with hload
    · rcases List.mem_cons.mp h with rfl | h
      · exact ⟨ph, rfl⟩
      · exact ih h
    · exact ih h

/-- The type of header `ph` lies inside the image, and so do the fields of a `PT_LOAD` header. -/
def HeaderInside (img : Image) (ph : Nat) : Prop :=
  Inside img (headerAt img ph) 4 ∧ (headerType img ph = 1 → Inside img (headerAt img ph) 48)

def HeadersInside (img : Image) : Prop := ∀ ph < phnum img, HeaderInside img ph

/-- The length is one a Codon `int` can hold and covers the file header. -/
structure Sized (img : Image) : Prop where
  header : 64 ≤ img.length
  int : img.length < 2 ^ 63

section Fields

variable {img : Image} (hs : Sized img)
include hs

theorem Sized.inside {offset : Int} {n : Nat} (h0 : 0 ≤ offset) (h1 : offset + n ≤ 64) :
    Inside img offset n := by
  have := hs.header
  exact ⟨h0, by omega⟩

theorem elfEntryOffset_eq : elfEntryOffset img = .ok (entryPoint img) :=
  elfU64_ok hs.int (hs.inside (by norm_num) (by norm_num))

theorem elfPhoff_eq : elfPhoff img = .ok (phoff img) :=
  elfU64_ok hs.int (hs.inside (by norm_num) (by norm_num))

theorem elfPhentsize_eq : elfPhentsize img = .ok (phentsize img : Int) :=
  elfU16_ok hs.int (hs.inside (by norm_num) (by norm_num))

theorem elfPhnum_eq : elfPhnum img = .ok (phnum img : Int) :=
  elfU16_ok hs.int (hs.inside (by norm_num) (by norm_num))

theorem elfSegmentOffset_eq (ph : Nat) : elfSegmentOffset img ph = .ok (headerAt img ph) := by
  unfold elfSegmentOffset
  rw [elfPhoff_eq hs, ok_bind, elfPhentsize_eq hs, ok_bind]
  rfl

theorem segmentField_eq (read : Image → Int → Except String Int) {ph d : Nat}
    (h : Inside img (headerAt img ph) d) :
    segmentField read d img ph = read img (headerAt img ph + d) := by
  obtain ⟨h0, h1⟩ := h
  have hi := hs.int
  unfold segmentField
  rw [elfSegmentOffset_eq hs, ok_bind, wrap_of_range (by omega) (by omega)]

theorem elfSegmentType_eq {ph : Nat} (h : Inside img (headerAt img ph) 4) :
    elfSegmentType img ph = .ok (headerType img ph : Int) := by
  have hd := segmentField_eq hs elfU32 (d := 0) ⟨h.1, by have := h.2; omega⟩
  rw [Nat.cast_zero, add_zero, elfU32_ok hs.int h] at hd
  exact hd

/-- The 64-bit fields. -/
theorem segmentField_u64 {ph d : Nat} (h : Inside img (headerAt img ph) 48) (hd : d + 8 ≤ 48) :
    segmentField elfU64 d img ph =
      .ok (wrap (leValue img ((headerAt img ph).toNat + d) 8)) := by
  obtain ⟨h0, h1⟩ := h
  rw [segmentField_eq hs _ ⟨h0, by omega⟩, elfU64_ok hs.int ⟨by omega, by omega⟩,
    show (headerAt img ph + d).toNat = (headerAt img ph).toNat + d by omega]

theorem elfSegmentFlags_eq {ph : Nat} (h : Inside img (headerAt img ph) 48) :
    elfSegmentFlags img ph = .ok ((segmentAt img ph).flags : Int) := by
  obtain ⟨h0, h1⟩ := h
  have hd := segmentField_eq hs elfU32 (d := 4) ⟨h0, by omega⟩
  rw [elfU32_ok hs.int ⟨by omega, by omega⟩,
    show (headerAt img ph + (4 : Nat)).toNat = (headerAt img ph).toNat + 4 by omega] at hd
  exact hd

theorem elfSegmentMemsz_eq {ph : Nat} (h : Inside img (headerAt img ph) 48) :
    elfSegmentMemsz img ph = .ok (segmentAt img ph).memsz :=
  segmentField_u64 (d := 40) hs h (by norm_num)

theorem elfSegmentIsUserLoad_eq {ph : Nat} (h : HeaderInside img ph) :
    elfSegmentIsUserLoad img ph = .ok (isLoad img ph) := by
  unfold elfSegmentIsUserLoad isLoad
  rw [elfSegmentType_eq hs h.1, ok_bind]
  by_cases ht : headerType img ph = 1
  · rw [if_neg (by omega), elfSegmentMemsz_eq hs (h.2 ht), ok_bind]
    simp [ht]
  · rw [if_pos (by omega)]
    simp [ht]

/-- Conversely, a header the kernel classified lies inside the image. -/
theorem headerInside_of_isUserLoad {ph : Nat} {b : Bool}
    (h : elfSegmentIsUserLoad img ph = .ok b) : HeaderInside img ph := by
  obtain ⟨ty, hty, h⟩ := bind_eq_ok.mp h
  have h4 : Inside img (headerAt img ph) 4 := by
    have hd := hty
    unfold elfSegmentType segmentField at hd
    rw [elfSegmentOffset_eq hs, ok_bind] at hd
    obtain ⟨v, hv, -⟩ := bind_eq_ok.mp hd
    have hin := inside_of_elfBytes hs.int hv
    rwa [add_zero, headerAt, wrap_wrap] at hin
  refine ⟨h4, fun ht => ?_⟩
  rw [elfSegmentType_eq hs h4] at hty
  cases hty
  rw [if_neg (by omega)] at h
  obtain ⟨memsz, hm, -⟩ := bind_eq_ok.mp h
  have hd := hm
  unfold elfSegmentMemsz segmentField at hd
  rw [elfSegmentOffset_eq hs, ok_bind] at hd
  obtain ⟨v, hv, -⟩ := bind_eq_ok.mp hd
  -- the start is an offset of the image, so 40 more can wrap to a negative offset only
  obtain ⟨h0, h1⟩ := inside_of_elfBytes hs.int hv
  have hlt := hs.int
  have hstart := h4.2
  have hpos := h4.1
  by_cases hw : headerAt img ph + 40 < 2 ^ 63
  · rw [wrap_of_range (by omega) hw] at h1
    exact ⟨h4.1, by omega⟩
  · unfold wrap at h0
    omega

/-! ### Counting and finding load segments -/

theorem elfUserLoadSegmentCount_eq (hin : HeadersInside img) :
    elfUserLoadSegmentCount img = .ok (segments img).length := by
  have hloop : ∀ n ph count, ph + n ≤ phnum img →
      loop (fun ph count => do
        let load ← elfSegmentIsUserLoad img ph
        .ok (if load then count + 1 else count)) ph n count =
        (.ok (count + (segmentsFrom img ph n).length) : Except String Nat) := by
    intro n
    induction n with
    | zero => intro ph count _; rfl
    | succ n ih =>
      intro ph count hle
      rw [loop_succ, elfSegmentIsUserLoad_eq hs (hin ph (by omega))]
      simp only [ok_bind]
      rw [ih _ _ (by omega), segmentsFrom]
      split_ifs with hload
      · rw [List.length_cons]
        congr 1
        omega
      · rfl
  unfold elfUserLoadSegmentCount
  rw [elfPhnum_eq hs, ok_bind, Int.toNat_natCast, hloop _ _ _ (by omega), Nat.zero_add]
  rfl

/-- Counting returns only when all headers lie inside the image. -/
theorem headersInside_of_count {n : Nat} (h : elfUserLoadSegmentCount img = .ok n) :
    HeadersInside img := by
  have hloop : ∀ n ph count r, loop (fun ph count => do
        let load ← elfSegmentIsUserLoad img ph
        .ok (if load then count + 1 else count)) ph n count = (.ok r : Except String Nat) →
      ∀ q, ph ≤ q → q < ph + n → HeaderInside img q := by
    intro n
    induction n with
    | zero => intro ph count r _ q h1 h2; omega
    | succ n ih =>
      intro ph count r h q h1 h2
      obtain ⟨count', hc, h⟩ := bind_eq_ok.mp h
      obtain ⟨load, hl, -⟩ := bind_eq_ok.mp hc
      by_cases hq : q = ph
      · rw [hq]
        exact headerInside_of_isUserLoad hs hl
      · exact ih _ _ _ h q (by omega) (by omega)
  unfold elfUserLoadSegmentCount at h
  rw [elfPhnum_eq hs, ok_bind, Int.toNat_natCast] at h
  exact fun ph hph => hloop _ _ _ _ h ph (Nat.zero_le _) (by omega)

/-- The scan for load segment `current + j` stops at the header of the `j`-th one ahead. -/
theorem findLoadSegment_eq (hin : HeadersInside img) (current : Nat) {n ph j : Nat}
    (hle : ph + n ≤ phnum img) (hj : j < (segmentsFrom img ph n).length) :
    ∃ q : Nat, findLoadSegment img (current + j) n ph current = .ok (q : Int) ∧
      q < phnum img ∧ isLoad img q = true ∧
      (segmentsFrom img ph n)[j]? = some (segmentAt img q) := by
  induction n generalizing ph current j with
  | zero => exact absurd hj (Nat.not_lt_zero _)
  | succ n ih =>
    unfold findLoadSegment
    rw [elfSegmentIsUserLoad_eq hs (hin ph (by omega)), ok_bind]
    rw [segmentsFrom] at hj ⊢
    by_cases hload : isLoad img ph = true
    · rw [if_pos hload] at hj ⊢
      rw [if_pos hload]
      cases j with
      | zero => exact ⟨ph, if_pos rfl, by omega, hload, rfl⟩
      | succ j =>
        rw [if_neg (by omega), show current + (j + 1) = current + 1 + j by omega]
        exact ih _ (by omega) (by simpa using hj)
    · rw [if_neg hload] at hj ⊢
      rw [if_neg hload]
      exact ih _ (by omega) hj

/-- Load segment `i` is found at a header whose fields lie inside the image. -/
theorem elfUserLoadSegmentPhIndex_eq (hin : HeadersInside img) {i : Nat} {s : Segment}
    (hi : (segments img)[i]? = some s) :
    ∃ q : Nat, elfUserLoadSegmentPhIndex img i = .ok (q : Int) ∧ s = segmentAt img q ∧
      Inside img (headerAt img q) 48 := by
  have hlt : i < (segmentsFrom img 0 (phnum img)).length := (List.getElem?_eq_some_iff.mp hi).1
  obtain ⟨q, hq, hqn, hload, hget⟩ := findLoadSegment_eq hs hin 0 (by omega) hlt
  unfold elfUserLoadSegmentPhIndex
  rw [elfPhnum_eq hs, ok_bind, Int.toNat_natCast]
  rw [Nat.zero_add] at hq
  refine ⟨q, hq, Option.some.inj (hi.symm.trans hget), (hin q hqn).2 ?_⟩
  unfold isLoad at hload
  exact (of_decide_eq_true hload).1

end Fields

end PcoOs.Elf
