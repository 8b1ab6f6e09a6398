/-
  The ELF reader of `kelf.py` over an image of bytes. Header fields are Codon's signed 64-bit
  `int`, so sums wrap; a byte outside the image is the panic of `load_byte_region`. The validator
  returns a Boolean and stops at the first check that fails, as the source does.
-/
import PcoOs.Lib.Outcome
import PcoOs.Lib.Word

namespace PcoOs.Elf

open PcoOs.Lib

/-- The bytes of an image file. -/
abbrev Image := List UInt8

def elfPfW : Int := 2
def elfPageSize : Int := 4096
def elfMaxUserPages : Int := 64

/-- `load_byte_region(image_ptr, image_len, offset)` on a non-null image. -/
def imageByte (img : Image) (offset : Int) : Except String Nat :=
  if img.length ≤ 0 then .error "byte region is empty"
  else if offset < 0 ∨ offset ≥ img.length then .error "byte offset out of range"
  else .ok (img.getD offset.toNat 0).toNat

/-- The loop of `elf_u16`, `elf_u32` and `elf_u64`: `n` bytes from `offset`, the first at bit
    `shift`. -/
def elfBytes (img : Image) : Nat → Int → Nat → Nat → Except String Nat
  | 0, _, _, value => .ok value
  | n + 1, offset, shift, value => do
    let b ← imageByte img offset
    elfBytes img n (wrap (offset + 1)) (shift + 8) (value ||| (b <<< shift))

def elfU16 (img : Image) (offset : Int) : Except String Int := do
  let v ← elfBytes img 2 offset 0 0
  .ok v

def elfU32 (img : Image) (offset : Int) : Except String Int := do
  let v ← elfBytes img 4 offset 0 0
  .ok v

def elfU64 (img : Image) (offset : Int) : Except String Int := do
  let v ← elfBytes img 8 offset 0 0
  .ok (wrap v)

/-! ## The header -/

/-- `elf_validate_header`: the first check that fails decides. -/
def elfValidateHeader (img : Image) : Except String Bool :=
  if (img.length : Int) < 64 then .ok false
  else do
    let b0 ← imageByte img 0
    if b0 ≠ 0x7F then .ok false else do
    let b1 ← imageByte img 1
    if b1 ≠ 0x45 then .ok false else do
    let b2 ← imageByte img 2
    if b2 ≠ 0x4C then .ok false else do
    let b3 ← imageByte img 3
    if b3 ≠ 0x46 then .ok false else do
    let b4 ← imageByte img 4
    if b4 ≠ 2 then .ok false else do
    let b5 ← imageByte img 5
    if b5 ≠ 1 then .ok false else do
    let ty ← elfU16 img 16
    if ty ≠ 2 then .ok false else do
    let machine ← elfU16 img 18
    if machine ≠ 62 then .ok false else .ok true

def elfEntryOffset (img : Image) : Except String Int := elfU64 img 24
def elfPhoff (img : Image) : Except String Int := elfU64 img 32
def elfPhentsize (img : Image) : Except String Int := elfU16 img 54
def elfPhnum (img : Image) : Except String Int := elfU16 img 56

/-! ## Program headers -/

def elfSegmentOffset (img : Image) (ph : Int) : Except String Int := do
  let phoff ← elfPhoff img
  let size ← elfPhentsize img
  .ok (wrap (phoff + wrap (ph * size)))

/-- A field of a program header, read by `read` at `delta` bytes from its start. -/
def segmentField (read : Image → Int → Except String Int) (delta : Int) (img : Image)
    (ph : Int) : Except String Int := do
  let off ← elfSegmentOffset img ph
  read img (wrap (off + delta))

def elfSegmentType := segmentField elfU32 0
def elfSegmentFlags := segmentField elfU32 4
def elfSegmentFileOffset := segmentField elfU64 8
def elfSegmentVaddr := segmentField elfU64 16
def elfSegmentFilesz := segmentField elfU64 32
def elfSegmentMemsz := segmentField elfU64 40

def elfSegmentIsUserLoad (img : Image) (ph : Int) : Except String Bool := do
  let ty ← elfSegmentType img ph
  if ty ≠ 1 then .ok false else do
  let memsz ← elfSegmentMemsz img ph
  .ok (memsz > 0)

/-- `elf_user_load_segment_count`. -/
def elfUserLoadSegmentCount (img : Image) : Except String Nat := do
  let phnum ← elfPhnum img
  loop (fun ph count => do
    let load ← elfSegmentIsUserLoad img ph
    .ok (if load then count + 1 else count)) 0 phnum.toNat 0

/-- The scan of `elf_user_load_segment_ph_index`, with `n` headers left. -/
def findLoadSegment (img : Image) (loadIndex : Nat) : Nat → Nat → Nat → Except String Int
  | 0, _, _ => .ok (-1)
  | n + 1, ph, current => do
    let load ← elfSegmentIsUserLoad img ph
    if load then
      if current = loadIndex then .ok ph
      else findLoadSegment img loadIndex n (ph + 1) (current + 1)
    else findLoadSegment img loadIndex n (ph + 1) current

def elfUserLoadSegmentPhIndex (img : Image) (loadIndex : Nat) : Except String Int := do
  let phnum ← elfPhnum img
  findLoadSegment img loadIndex phnum.toNat 0 0

/-- A field of the load segment `loadIndex`; `missing` is the panic when there is none. -/
def userSegmentField (missing : String) (field : Image → Int → Except String Int)
    (img : Image) (loadIndex : Nat) : Except String Int := do
  let ph ← elfUserLoadSegmentPhIndex img loadIndex
  if ph < 0 then .error missing else field img ph

def elfUserSegmentVaddr := userSegmentField "missing user elf vaddr" elfSegmentVaddr
def elfUserSegmentOffset := userSegmentField "missing user elf segment" elfSegmentFileOffset
def elfUserSegmentFilesz := userSegmentField "missing user elf filesz" elfSegmentFilesz
def elfUserSegmentMemsz := userSegmentField "missing user elf memsz" elfSegmentMemsz
def elfUserSegmentFlags := userSegmentField "missing user elf flags" elfSegmentFlags

def elfUserImageTop (img : Image) : Except String Int := do
  let n ← elfUserLoadSegmentCount img
  loop (fun i top => do
    let vaddr ← elfUserSegmentVaddr img i
    let memsz ← elfUserSegmentMemsz img i
    .ok (if wrap (vaddr + memsz) > top then wrap (vaddr + memsz) else top)) 0 n 0

def elfUserImagePageCount (img : Image) : Except String Int := do
  let top ← elfUserImageTop img
  .ok (alignUpI top elfPageSize >>> (12 : Nat))

/-! ## Validation -/

/-- `while i < n: if not p(i): return False`, with `n` iterations left. -/
def allSegments (p : Nat → Except String Bool) : Nat → Nat → Except String Bool
  | _, 0 => .ok true
  | i, n + 1 => do
    let ok ← p i
    if ok then allSegments p (i + 1) n else .ok false

/-- `while i < n: if p(i): return True`, with `n` iterations left. -/
def anySegment (p : Nat → Except String Bool) : Nat → Nat → Except String Bool
  | _, 0 => .ok false
  | i, n + 1 => do
    let found ← p i
    if found then .ok true else anySegment p (i + 1) n

def elfEntryInLoadSegment (img : Image) : Except String Bool := do
  let entry ← elfEntryOffset img
  let n ← elfUserLoadSegmentCount img
  anySegment (fun i => do
    let start ← elfUserSegmentVaddr img i
    let memsz ← elfUserSegmentMemsz img i
    .ok (entry ≥ start ∧ entry < wrap (start + memsz))) 0 n

/-- The inner loop body: segment `j` does not overlap `[vaddr, vaddr + memsz)`. -/
def segmentApart (img : Image) (vaddr memsz : Int) (j : Nat) : Except String Bool := do
  let otherStart ← elfUserSegmentVaddr img j
  let otherMemsz ← elfUserSegmentMemsz img j
  .ok (¬ (vaddr < wrap (otherStart + otherMemsz) ∧ otherStart < wrap (vaddr + memsz)))

/-- The outer loop body of the validator: the checks of segment `i` of `n`. -/
def segmentValid (img : Image) (n i : Nat) : Except String Bool := do
  let offset ← elfUserSegmentOffset img i
  let vaddr ← elfUserSegmentVaddr img i
  let filesz ← elfUserSegmentFilesz img i
  let memsz ← elfUserSegmentMemsz img i
  if vaddr % elfPageSize ≠ 0 then .ok false
  else if memsz ≤ 0 ∨ memsz < filesz then .ok false
  else if wrap (offset + filesz) > img.length then .ok false
  else if alignUpI (wrap (vaddr + memsz)) elfPageSize >>> (12 : Nat) > elfMaxUserPages then
    .ok false
  else allSegments (segmentApart img vaddr memsz) (i + 1) (n - (i + 1))

def elfValidateUserImage (img : Image) : Except String Bool := do
  let header ← elfValidateHeader img
  if ¬ header then .ok false else do
  let size ← elfPhentsize img
  if size < 56 then .ok false else do
  let n ← elfUserLoadSegmentCount img
  if n ≤ 0 then .ok false else do
  let segments ← allSegments (segmentValid img n) 0 n
  if ¬ segments then .ok false else do
  let pages ← elfUserImagePageCount img
  if pages ≤ 0 then .ok false
  else if pages > elfMaxUserPages then .ok false
  else elfEntryInLoadSegment img

def elfUserEntryOffset (img : Image) : Except String Int := do
  let ok ← elfValidateUserImage img
  if ¬ ok then .error "invalid user elf" else elfEntryOffset img

/-- An early `return False` that was not taken. -/
theorem of_early_false {c : Prop} [Decidable c] {x : Except String Bool}
    (h : (if c then .ok false else x) = .ok true) : ¬ c ∧ x = .ok true := by
  split_ifs at h with hc
  · cases h
  · exact ⟨hc, h⟩

/-- An accepted image spans between 1 and 64 pages. -/
theorem elfValidateUserImage_pages {img : Image} (h : elfValidateUserImage img = .ok true) :
    ∃ n : Nat, elfUserImagePageCount img = .ok (n : Int) ∧ 1 ≤ n ∧ n ≤ 64 := by
  unfold elfValidateUserImage at h
  obtain ⟨header, -, h⟩ := bind_eq_ok.mp h
  obtain ⟨size, -, h⟩ := bind_eq_ok.mp (of_early_false h).2
  obtain ⟨n, -, h⟩ := bind_eq_ok.mp (of_early_false h).2
  obtain ⟨segments, -, h⟩ := bind_eq_ok.mp (of_early_false h).2
  obtain ⟨pages, hp, h⟩ := bind_eq_ok.mp (of_early_false h).2
  obtain ⟨hlow, h⟩ := of_early_false h
  obtain ⟨hhigh, -⟩ := of_early_false h
  unfold elfMaxUserPages at hhigh
  refine ⟨pages.toNat, ?_, by omega, by omega⟩
  rw [hp]
  congr 1
  omega

end PcoOs.Elf
