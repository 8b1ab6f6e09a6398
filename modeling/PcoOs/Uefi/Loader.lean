/-
  `load_kernel_image` and `find_bootmeta` of `efi_loader.c`, over all of memory. Numbers are
  unsigned 64-bit values, and a pointer into the kernel file is an offset from its start. Every
  offset read and every address written is recorded.
-/
import PcoOs.Lib.Program
import PcoOs.Lib.Word
import PcoOs.Lib.Memory

namespace PcoOs.Uefi

open PcoOs.Lib PcoOs.Lib.Prog

/-- The statuses that are not `EFI_SUCCESS`. -/
inductive EfiError where
  | loadError
  | notFound
  | firmware (status : Nat)
deriving DecidableEq, Repr

structure LoaderState where
  mem : Mem
  reads : List Nat
  writes : List Nat

abbrev Loader (α : Type) := Prog LoaderState EfiError α

/-- The byte at an offset of the kernel file, which is at `file`. -/
def byteAt (m : Mem) (file off : Nat) : UInt8 := m ((file + off) % 2 ^ 64)

/-- A little-endian field of `width` bytes. -/
def fieldAt (m : Mem) (file off : Nat) : Nat → Nat
  | 0 => 0
  | width + 1 => (byteAt m file off).toNat + 256 * fieldAt m file (off + 1) width

/-- The offsets of its bytes. -/
def offsets (off width : Nat) : List Nat := (List.range width).map fun k => (off + k) % 2 ^ 64

def readField (file off width : Nat) : Loader Nat := fun s =>
  .ok (fieldAt s.mem file off width, { s with reads := offsets off width ++ s.reads })

def readByte (file off : Nat) : Loader UInt8 := fun s =>
  .ok (byteAt s.mem file off, { s with reads := off % 2 ^ 64 :: s.reads })

def writeByte (a : Nat) (b : UInt8) : Loader Unit :=
  update fun s =>
    { s with mem := storeByte s.mem (a % 2 ^ 64) b, writes := a % 2 ^ 64 :: s.writes }

/-- `mem_copy` from the kernel file. -/
def memCopy (file dst off size : Nat) : Loader Unit :=
  times (fun i => do
    let b ← readByte file (off + i)
    writeByte (dst + i) b) 0 size

def memSet (dst : Nat) (value : UInt8) (size : Nat) : Loader Unit :=
  times (fun i => writeByte (dst + i) value) 0 size

/-- `ascii_equal` of the string at `off` and a string without zeros. -/
def asciiEqual (file off : Nat) : List UInt8 → Loader Bool
  | [] => do
    let a ← readByte file off
    pure (a = 0)
  | b :: bs => do
    let a ← readByte file off
    if a = 0 then pure false
    else if a ≠ b then pure false
    else asciiEqual file (off + 1) bs

/-- `align_up(value, 4096)`, whose sum may wrap. -/
def alignUp (value : Nat) : Nat := alignDown ((value + 4095) % 2 ^ 64) 4096

/-! ## The section headers -/

def bootmetaMagic : Nat := 0x50434F4D45544131

/-- `.bootmeta` -/
def bootmetaName : List UInt8 := [46, 98, 111, 111, 116, 109, 101, 116, 97]

/-- The size check and the four comparisons of `e_ident`. -/
def checkIdent (file size : Nat) : Loader Unit := do
  refuse (size < 64) .loadError
  let i0 ← readByte file 0
  refuse (i0 ≠ 0x7f) .loadError
  let i1 ← readByte file 1
  refuse (i1 ≠ 69) .loadError
  let i2 ← readByte file 2
  refuse (i2 ≠ 76) .loadError
  let i3 ← readByte file 3
  refuse (i3 ≠ 70) .loadError

/-- `bootmeta` is at `off` and its section has `len` bytes. -/
def readBootmeta (file off len : Nat) : Loader Nat := do
  refuse (len < 24) .loadError
  let magic ← readField file off 8
  refuse (magic ≠ bootmetaMagic) .loadError
  let version ← readField file (off + 8) 8
  refuse (version ≠ 1) .loadError
  readField file (off + 16) 8

/-- The loop over the sections, from `i` on. -/
def scanSections (file size shoff strOff : Nat) : Nat → Nat → Loader Nat
  | _, 0 => stop .notFound
  | i, n + 1 => do
    let off ← readField file (shoff + 64 * i + 24) 8
    let len ← readField file (shoff + 64 * i + 32) 8
    refuse ((off + len) % 2 ^ 64 > size) .loadError
    let name ← readField file (shoff + 64 * i) 4
    let found ← asciiEqual file (strOff + name) bootmetaName
    if found then readBootmeta file off len
    else scanSections file size shoff strOff (i + 1) n

/-- `find_bootmeta`, which returns `*entry64`. -/
def findBootmeta (file size : Nat) : Loader Nat := do
  checkIdent file size
  let shentsize ← readField file 58 2
  refuse (shentsize ≠ 64) .loadError
  let shnum ← readField file 60 2
  refuse (shnum = 0) .loadError
  let shstrndx ← readField file 62 2
  refuse (shstrndx ≥ shnum) .loadError
  let shoff ← readField file 40 8
  refuse ((shoff + shentsize * shnum) % 2 ^ 64 > size) .loadError
  let strOff ← readField file (shoff + 64 * shstrndx + 24) 8
  let strSize ← readField file (shoff + 64 * shstrndx + 32) 8
  refuse ((strOff + strSize) % 2 ^ 64 > size) .loadError
  scanSections file size shoff strOff 0 shnum

/-! ## The segments -/

/-- `!(phdr->p_type != PT_LOAD || phdr->p_memsz == 0)` -/
def isLoad (file phdr : Nat) : Loader Bool := do
  let type ← readField file phdr 4
  if type ≠ 1 then pure false
  else do
    let memsz ← readField file (phdr + 40) 8
    pure (memsz ≠ 0)

def segmentAddr (file phdr : Nat) : Loader Nat := do
  let paddr ← readField file (phdr + 24) 8
  if paddr ≠ 0 then pure paddr else readField file (phdr + 16) 8

/-- `image_base` and `image_end`. -/
structure Bounds where
  base : Nat
  stop : Nat
deriving DecidableEq, Repr

/-- The body of the first loop over the program headers. -/
def boundSegment (file size phdr : Nat) (b : Bounds) : Loader Bounds := do
  let load ← isLoad file phdr
  if load then do
    let offset ← readField file (phdr + 8) 8
    let filesz ← readField file (phdr + 32) 8
    refuse ((offset + filesz) % 2 ^ 64 > size) .loadError
    let addr ← segmentAddr file phdr
    let memsz ← readField file (phdr + 40) 8
    let stop := alignUp ((addr + memsz) % 2 ^ 64)
    pure ⟨if alignDown addr 4096 < b.base then alignDown addr 4096 else b.base,
      if stop > b.stop then stop else b.stop⟩
  else pure b

def boundSegments (file size phoff : Nat) : Nat → Nat → Bounds → Loader Bounds
  | _, 0, b => pure b
  | i, n + 1, b => do
    let b ← boundSegment file size (phoff + 56 * i) b
    boundSegments file size phoff (i + 1) n b

/-- The body of the second one. -/
def copySegment (file phdr : Nat) : Loader Unit := do
  let load ← isLoad file phdr
  if load then do
    let addr ← segmentAddr file phdr
    let offset ← readField file (phdr + 8) 8
    let filesz ← readField file (phdr + 32) 8
    memCopy file addr offset filesz
  else pure ()

/-- The second loop reads `e_phnum` again in each round, and its stores may have changed it. It is
    a 16-bit field, so `n` rounds are enough when `i + n` is `2^16`. -/
def copySegments (file phoff : Nat) : Nat → Nat → Loader Unit
  | _, 0 => pure ()
  | i, n + 1 => do
    let phnum ← readField file 56 2
    if i < phnum then do
      copySegment file (phoff + 56 * i)
      copySegments file phoff (i + 1) n
    else pure ()

/-- `load_kernel_image`, which returns `*entry64`, `*kernel_phys_base` and `*kernel_phys_end`.
    `allocatePages` is the firmware's service, for an address and a number of pages. -/
def loadKernelImage (allocatePages : Nat → Nat → Except EfiError Unit) (file size : Nat) :
    Loader (Nat × Bounds) := do
  checkIdent file size
  let machine ← readField file 18 2
  refuse (machine ≠ 62) .loadError
  let phentsize ← readField file 54 2
  refuse (phentsize ≠ 56) .loadError
  let phnum ← readField file 56 2
  refuse (phnum = 0) .loadError
  let phoff ← readField file 32 8
  refuse ((phoff + phentsize * phnum) % 2 ^ 64 > size) .loadError
  let entry64 ← findBootmeta file size
  let b ← boundSegments file size phoff 0 phnum ⟨2 ^ 64 - 1, 0⟩
  refuse (b.base = 2 ^ 64 - 1 ∨ b.stop ≤ b.base) .loadError
  embed (allocatePages b.base ((b.stop - b.base) / 4096))
  memSet b.base 0 (b.stop - b.base)
  copySegments file phoff 0 (2 ^ 16)
  pure (entry64, b)

end PcoOs.Uefi
