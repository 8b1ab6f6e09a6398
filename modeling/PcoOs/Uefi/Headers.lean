/-
  The headers of a kernel file in memory, and `KernelFits`, what they have to say for the loader to
  stay in bounds. Up to the allocation the loader writes nothing, so memory is the one of the start
  and `Traced` says exactly when the reads so far were inside the file.
-/
import PcoOs.Uefi.Loader

namespace PcoOs.Uefi

open PcoOs.Lib PcoOs.Lib.Prog

/-! ## The headers of a file in memory -/

section Headers

variable (m : Mem) (file : Nat)

def phoff : Nat := fieldAt m file 32 8
def phnum : Nat := fieldAt m file 56 2
def shoff : Nat := fieldAt m file 40 8
def shnum : Nat := fieldAt m file 60 2
def shstrndx : Nat := fieldAt m file 62 2

/-- Section header `i`, an offset. -/
def shdr (i : Nat) : Nat := shoff m file + 64 * i

/-- The name of section `i`. -/
def nameOff (i : Nat) : Nat :=
  fieldAt m file (shdr m file (shstrndx m file) + 24) 8 + fieldAt m file (shdr m file i) 4

/-- The string at `off` is `bs`. -/
def Spells : Nat → List UInt8 → Prop
  | off, [] => byteAt m file off = 0
  | off, b :: bs => byteAt m file off = b ∧ Spells (off + 1) bs

/-- How many characters of `bs` it starts with. -/
def matched : Nat → List UInt8 → Nat
  | _, [] => 0
  | off, b :: bs => if byteAt m file off = b then matched (off + 1) bs + 1 else 0

/-- Section `i` is `.bootmeta`. -/
def IsBootmeta (i : Nat) : Prop := Spells m file (nameOff m file i) bootmetaName

/-- Program header `i`, an offset. -/
def phdr (i : Nat) : Nat := phoff m file + 56 * i

/-- The segment of the header at `p` is loaded, -/
def Load (p : Nat) : Prop := fieldAt m file p 4 = 1 ∧ fieldAt m file (p + 40) 8 ≠ 0

/-- to this address, -/
def addrOf (p : Nat) : Nat :=
  if fieldAt m file (p + 24) 8 ≠ 0 then fieldAt m file (p + 24) 8 else fieldAt m file (p + 16) 8

/-- and the image has room for it up to here. -/
def endOf (p : Nat) : Nat := alignUp ((addrOf m file p + fieldAt m file (p + 40) 8) % 2 ^ 64)

/-- The part of the name that is compared is in the file, and so is what the loader looks for. -/
structure SectionFits (size i : Nat) : Prop where
  name : nameOff m file i % 2 ^ 64 + matched m file (nameOff m file i) bootmetaName < size
  bootmeta : IsBootmeta m file i → fieldAt m file (shdr m file i + 24) 8 + 24 ≤ size

/-- The sections up to `.bootmeta`. -/
structure SectionsFit (size : Nat) : Prop where
  headers : shoff m file + 64 * shnum m file ≤ size
  each : ∀ i < shnum m file, (∀ j < i, ¬ IsBootmeta m file j) → SectionFits m file size i

/-- A segment without bytes in the file, or one whose bytes are in the file and fit the image. -/
def SegmentFits (size p : Nat) : Prop :=
  fieldAt m file (p + 32) 8 = 0 ∨
    fieldAt m file (p + 8) 8 + fieldAt m file (p + 32) 8 ≤ size ∧
    ∃ j < phnum m file, Load m file (phdr m file j) ∧
      addrOf m file p + fieldAt m file (p + 32) 8 ≤ endOf m file (phdr m file j)

structure KernelFits (size : Nat) : Prop where
  sections : SectionsFit m file size
  headers : phoff m file + 56 * phnum m file ≤ size
  segments : ∀ i < phnum m file, Load m file (phdr m file i) →
    SegmentFits m file size (phdr m file i)

end Headers

theorem fieldAt_lt (m : Mem) (file off width : Nat) : fieldAt m file off width < 256 ^ width := by
  induction width generalizing off with
  | zero => simp [fieldAt]
  | succ width ih =>
    have hlt := ih (off + 1)
    have hbyte := (byteAt m file off).toNat_lt
    rw [fieldAt, Nat.pow_succ]
    omega

theorem qword_lt (m : Mem) (file off : Nat) : fieldAt m file off 8 < 2 ^ 64 :=
  fieldAt_lt m file off 8

/-! ## Reading -/

/-- All bytes of a field are in the file. -/
def InFile (size off width : Nat) : Prop := ∀ k < width, (off + k) % 2 ^ 64 < size

theorem inFile_of_le {size off width : Nat} (h : off + width ≤ size) (hs : size ≤ 2 ^ 63) :
    InFile size off width := by
  intro k hk
  rw [Nat.mod_eq_of_lt (by omega)]
  omega

/-- A field whose first byte is in the file ends in it, or behind its end. -/
theorem InFile.le {size off width : Nat} (h : InFile size off width) (hoff : off < 2 ^ 64)
    (hw : 0 < width) (hw' : width ≤ 8) (hs : size ≤ 2 ^ 63) : off + width ≤ size := by
  have h0 := h 0 hw
  rw [Nat.add_zero, Nat.mod_eq_of_lt hoff] at h0
  have h1 := h (width - 1) (by omega)
  rw [Nat.mod_eq_of_lt (by omega)] at h1
  omega

/-- Memory is `m`, nothing was written, and only the file was read if and only if `φ`. -/
structure Traced (m : Mem) (size : Nat) (φ : Prop) (s : LoaderState) : Prop where
  mem : s.mem = m
  writes : s.writes = []
  reads : (∀ o ∈ s.reads, o < size) ↔ φ

section Traced

variable {m : Mem} {file size : Nat} {φ ψ : Prop}

theorem Traced.congr {s : LoaderState} (h : Traced m size φ s) (hiff : φ ↔ ψ) :
    Traced m size ψ s := ⟨h.mem, h.writes, h.reads.trans hiff⟩

theorem readField_traced (off width : Nat) :
    Hoare (Traced m size φ) (readField file off width) fun v s =>
      Traced m size (φ ∧ InFile size off width) s ∧ v = fieldAt m file off width := by
  intro s hs v t heq
  obtain ⟨rfl, rfl⟩ := Prod.mk.inj (Except.ok.inj heq)
  refine ⟨⟨hs.mem, hs.writes, ?_⟩, by rw [hs.mem]⟩
  rw [List.forall_mem_append, hs.reads, and_comm, and_congr_right_iff]
  intro _
  simp [offsets, InFile]

theorem readByte_traced (off : Nat) :
    Hoare (Traced m size φ) (readByte file off) fun b s =>
      Traced m size (φ ∧ off % 2 ^ 64 < size) s ∧ b = byteAt m file off := by
  intro s hs v t heq
  obtain ⟨rfl, rfl⟩ := Prod.mk.inj (Except.ok.inj heq)
  refine ⟨⟨hs.mem, hs.writes, ?_⟩, by rw [hs.mem]⟩
  rw [List.forall_mem_cons, hs.reads, and_comm]

/-- A field in the file. -/
theorem readField_inside {off width : Nat} (h : off + width ≤ size) (hs : size ≤ 2 ^ 63) :
    Hoare (Traced m size φ) (readField file off width) fun v s =>
      Traced m size φ s ∧ v = fieldAt m file off width :=
  (readField_traced off width).mono (fun _ h => h) fun _ _ hs' =>
    ⟨hs'.1.congr (and_iff_left (inFile_of_le h hs)), hs'.2⟩

theorem readByte_inside {off : Nat} (h : off < size) (hs : size ≤ 2 ^ 63) :
    Hoare (Traced m size φ) (readByte file off) fun _ => Traced m size φ := by
  refine (readByte_traced off).mono (fun _ h => h) fun _ _ hs' => hs'.1.congr (and_iff_left ?_)
  rw [Nat.mod_eq_of_lt (by omega)]
  exact h

theorem checkIdent_traced (hs : size ≤ 2 ^ 63) :
    Hoare (Traced m size φ) (checkIdent file size) fun _ s => Traced m size φ s ∧ 64 ≤ size := by
  unfold checkIdent
  refine hoare_bind hoare_refuse fun _ => hoare_fact fun h64 => ?_
  have hbyte : ∀ k, k < size → Hoare (Traced m size φ) (readByte file k) fun _ => Traced m size φ :=
    fun _ h => readByte_inside h hs
  refine hoare_bind (hbyte 0 (by omega)) fun _ => hoare_bind (maintains_refuse _ _) fun _ => ?_
  refine hoare_bind (hbyte 1 (by omega)) fun _ => hoare_bind (maintains_refuse _ _) fun _ => ?_
  refine hoare_bind (hbyte 2 (by omega)) fun _ => hoare_bind (maintains_refuse _ _) fun _ => ?_
  refine hoare_bind (hbyte 3 (by omega)) fun _ => ?_
  exact (maintains_refuse _ _).mono (fun _ h => h) fun _ _ h => ⟨h, by omega⟩

/-! ## The sections -/

/-- The bytes that `ascii_equal` looks at are in the file. -/
def Compared (m : Mem) (file size : Nat) : Nat → List UInt8 → Prop
  | off, [] => off % 2 ^ 64 < size
  | off, b :: bs => off % 2 ^ 64 < size ∧ (byteAt m file off = b → Compared m file size (off + 1) bs)

theorem asciiEqual_traced {bs : List UInt8} (hbs : ∀ b ∈ bs, b ≠ 0) (off : Nat) :
    Hoare (Traced m size φ) (asciiEqual file off bs) fun r s =>
      Traced m size (φ ∧ Compared m file size off bs) s ∧ (r = true ↔ Spells m file off bs) := by
  induction bs generalizing off φ with
  | nil =>
    refine hoare_bind (readByte_traced off) fun a => hoare_fact fun ha => hoare_pure fun s h => ?_
    exact ⟨h, by rw [ha]; exact decide_eq_true_iff⟩
  | cons b bs ih =>
    obtain ⟨hb, hbs⟩ := List.forall_mem_cons.mp hbs
    refine hoare_bind (readByte_traced off) fun a => hoare_fact fun ha => ?_
    have hmiss : a ≠ b → ∀ s, Traced m size (φ ∧ off % 2 ^ 64 < size) s →
        Traced m size (φ ∧ Compared m file size off (b :: bs)) s ∧
          (false = true ↔ Spells m file off (b :: bs)) := by
      intro hab s h
      rw [ha] at hab
      refine ⟨h.congr ?_, by simp [Spells, hab]⟩
      simp [Compared, hab]
    refine hoare_ite (fun h0 => hoare_pure (hmiss ?_)) fun _ => hoare_ite (fun hab =>
      hoare_pure (hmiss hab)) fun hab => ?_
    · rw [h0]
      exact hb.symm
    · have hab' : byteAt m file off = b := by
        rw [← ha]
        exact not_not.mp hab
      refine (ih hbs (off + 1)).mono (fun _ h => h) fun r s h => ⟨h.1.congr ?_, ?_⟩
      · simp [Compared, hab', and_assoc]
      · rw [h.2, Spells, hab']
        simp

/-- In terms of the characters that match. -/
theorem compared_iff {m : Mem} {file size : Nat} (hs : size ≤ 2 ^ 63) (bs : List UInt8) (off : Nat) :
    Compared m file size off bs ↔ off % 2 ^ 64 + matched m file off bs < size := by
  induction bs generalizing off with
  | nil => simp [Compared, matched]
  | cons b bs ih =>
    rw [Compared, matched]
    split_ifs with hb
    · rw [ih (off + 1)]
      constructor
      · rintro ⟨hlt, h⟩
        have := h hb
        omega
      · intro h
        exact ⟨by omega, fun _ => by omega⟩
    · simp [hb]

theorem readBootmeta_traced {off len : Nat} (hoff : off < 2 ^ 64) (hs : size ≤ 2 ^ 63) :
    Hoare (Traced m size φ) (readBootmeta file off len) fun _ =>
      Traced m size (φ ∧ off + 24 ≤ size) := by
  unfold readBootmeta
  refine hoare_bind (maintains_refuse _ _) fun _ => ?_
  refine hoare_bind (readField_traced off 8) fun magic => hoare_fact fun _ => ?_
  refine hoare_bind (maintains_refuse _ _) fun _ => ?_
  refine hoare_bind (readField_traced (off + 8) 8) fun version => hoare_fact fun _ => ?_
  refine hoare_bind (maintains_refuse _ _) fun _ => ?_
  refine (readField_traced (off + 16) 8).mono (fun _ h => h) fun _ s h => h.1.congr ?_
  constructor
  · rintro ⟨⟨⟨hφ, h8⟩, -⟩, h24⟩
    have hle := h8.le hoff (by omega) (by omega) hs
    exact ⟨hφ, by have := h24.le (by omega) (by omega) (by omega) hs; omega⟩
  · rintro ⟨hφ, hle⟩
    exact ⟨⟨⟨hφ, inFile_of_le (by omega) hs⟩, inFile_of_le (by omega) hs⟩,
      inFile_of_le (by omega) hs⟩

theorem bootmetaName_ne : ∀ b ∈ bootmetaName, b ≠ 0 := by simp [bootmetaName]

/-- What a round of the scan reads is in the file. -/
@[mk_iff] structure SectionRead (m : Mem) (file size i : Nat) : Prop where
  offset : InFile size (shdr m file i + 24) 8
  length : InFile size (shdr m file i + 32) 8
  name : InFile size (shdr m file i) 4
  compared : Compared m file size (nameOff m file i) bootmetaName
  bootmeta : IsBootmeta m file i → fieldAt m file (shdr m file i + 24) 8 + 24 ≤ size

/-- Sections `i, …, i + n - 1` are scanned up to the first `.bootmeta`. -/
def ScanRead (m : Mem) (file size i n : Nat) : Prop :=
  ∀ j, i ≤ j → j < i + n → (∀ k, i ≤ k → k < j → ¬ IsBootmeta m file k) → SectionRead m file size j

theorem scanRead_succ {m : Mem} {file size i n : Nat} : ScanRead m file size i (n + 1) ↔
    SectionRead m file size i ∧ (¬ IsBootmeta m file i → ScanRead m file size (i + 1) n) := by
  constructor
  · intro h
    refine ⟨h i (le_refl i) (by omega) fun k hk hk' => absurd hk (by omega), fun hi j hj hjn hbefore => ?_⟩
    refine h j (by omega) (by omega) fun k hk hk' => ?_
    rcases Nat.eq_or_lt_of_le hk with rfl | hlt
    · exact hi
    · exact hbefore k hlt hk'
  · rintro ⟨hi, hrest⟩ j hj hjn hbefore
    rcases Nat.eq_or_lt_of_le hj with rfl | hlt
    · exact hi
    · exact hrest (hbefore i (le_refl i) hlt) j hlt (by omega) fun k hk hk' =>
        hbefore k (by omega) hk'

theorem scanSections_traced (hs : size ≤ 2 ^ 63) (i n : Nat) :
    Hoare (Traced m size φ) (scanSections file size (shoff m file)
      (fieldAt m file (shdr m file (shstrndx m file) + 24) 8) i n) fun _ =>
      Traced m size (φ ∧ ScanRead m file size i n) := by
  induction n generalizing i φ with
  | zero => exact hoare_stop _
  | succ n ih =>
    unfold scanSections
    refine hoare_bind (readField_traced _ 8) fun off => hoare_fact fun hoff => ?_
    refine hoare_bind (readField_traced _ 8) fun len => hoare_fact fun _ => ?_
    refine hoare_bind (maintains_refuse _ _) fun _ => ?_
    refine hoare_bind (readField_traced _ 4) fun name => hoare_fact fun hname => ?_
    subst hname
    refine hoare_bind (asciiEqual_traced bootmetaName_ne _) fun found => hoare_fact fun hfound => ?_
    have hlt : off < 2 ^ 64 := by
      rw [hoff]
      exact qword_lt _ _ _
    refine hoare_ite (fun hf => ?_) fun hf => ?_
    · have hboot : IsBootmeta m file i := hfound.mp hf
      refine (readBootmeta_traced hlt hs).mono (fun _ h => h) fun _ s h => h.congr ?_
      rw [scanRead_succ, sectionRead_iff, hoff]
      simp only [hboot, not_true, false_implies, true_implies, and_true, and_assoc]
      rfl
    · have hboot : ¬ IsBootmeta m file i := fun h => hf (hfound.mpr h)
      refine (ih (i + 1)).mono (fun _ h => h) fun _ s h => h.congr ?_
      rw [scanRead_succ, sectionRead_iff]
      simp only [hboot, not_false_iff, false_implies, true_implies, and_true, and_assoc]
      rfl

/-- The scan reads inside the file exactly if the sections fit. -/
theorem sectionsFit_iff (hs : size ≤ 2 ^ 63)
    (hndx : shstrndx m file < shnum m file)
    (hcheck : (shoff m file + 64 * shnum m file) % 2 ^ 64 ≤ size) :
    InFile size (shdr m file (shstrndx m file) + 24) 8 ∧
      InFile size (shdr m file (shstrndx m file) + 32) 8 ∧
      ScanRead m file size 0 (shnum m file) ↔ SectionsFit m file size := by
  have hlt : shnum m file < 65536 := fieldAt_lt m file 60 2
  have hoff : shoff m file < 2 ^ 64 := qword_lt _ _ _
  constructor
  · rintro ⟨-, -, hscan⟩
    have hfirst := hscan 0 (le_refl 0) (by omega) fun k hk hk' => absurd hk' (by omega)
    have hstart : shoff m file + 4 ≤ size := by
      have := hfirst.name.le (by unfold shdr; omega) (by omega) (by omega) hs
      unfold shdr at this
      omega
    refine ⟨by omega, fun i hi hbefore => ?_⟩
    have hread := hscan i (Nat.zero_le i) (by omega) fun k _ hk => hbefore k hk
    exact ⟨(compared_iff hs _ _).mp hread.compared, hread.bootmeta⟩
  · intro h
    have hheaders := h.headers
    have hfield : ∀ i < shnum m file, ∀ k w, k + w ≤ 64 → InFile size (shdr m file i + k) w :=
      fun i hi k w hk => inFile_of_le (by unfold shdr; omega) hs
    refine ⟨hfield _ hndx 24 8 (by omega), hfield _ hndx 32 8 (by omega), ?_⟩
    intro j _ hj hbefore
    rw [Nat.zero_add] at hj
    obtain ⟨hname, hboot⟩ := h.each j hj fun k hk => hbefore k (Nat.zero_le k) hk
    have hname4 : InFile size (shdr m file j) 4 := by
      simpa using hfield j hj 0 4 (by omega)
    exact ⟨hfield j hj 24 8 (by omega), hfield j hj 32 8 (by omega), hname4,
      (compared_iff hs _ _).mpr hname, hboot⟩

theorem findBootmeta_traced (hs : size ≤ 2 ^ 63) :
    Hoare (Traced m size φ) (findBootmeta file size) fun _ =>
      Traced m size (φ ∧ SectionsFit m file size) := by
  unfold findBootmeta
  refine hoare_bind (checkIdent_traced hs) fun _ => hoare_fact fun h64 => ?_
  refine hoare_bind (readField_inside (by omega) hs) fun shentsize => hoare_fact fun _ => ?_
  refine hoare_bind hoare_refuse fun _ => hoare_fact fun hentsize => ?_
  refine hoare_bind (readField_inside (by omega) hs) fun num => hoare_fact fun hnum => ?_
  refine hoare_bind hoare_refuse fun _ => hoare_fact fun _ => ?_
  refine hoare_bind (readField_inside (by omega) hs) fun ndx => hoare_fact fun hndx => ?_
  refine hoare_bind hoare_refuse fun _ => hoare_fact fun hndx' => ?_
  refine hoare_bind (readField_inside (by omega) hs) fun off => hoare_fact fun hoff => ?_
  refine hoare_bind hoare_refuse fun _ => hoare_fact fun hcheck => ?_
  have hsh : off = shoff m file := hoff
  have hn : num = shnum m file := hnum
  have hx : ndx = shstrndx m file := hndx
  subst hsh hn hx
  refine hoare_bind (readField_traced _ 8) fun strOff => hoare_fact fun hstrOff => ?_
  refine hoare_bind (readField_traced _ 8) fun strSize => hoare_fact fun _ => ?_
  refine hoare_bind (maintains_refuse _ _) fun _ => ?_
  subst hstrOff
  refine (scanSections_traced hs 0 _).mono (fun _ h => h) fun _ s h => h.congr ?_
  rw [and_assoc, and_assoc]
  refine and_congr_right fun _ => sectionsFit_iff hs (by omega) ?_
  rw [not_not.mp hentsize] at hcheck
  exact not_lt.mp hcheck

/-! ## The segments -/

/-- What a round of the first loop reads is in the file. -/
@[mk_iff] structure PhdrRead (m : Mem) (file size p : Nat) : Prop where
  type : InFile size p 4
  memsz : fieldAt m file p 4 = 1 → InFile size (p + 40) 8
  offset : Load m file p → InFile size (p + 8) 8
  filesz : Load m file p → InFile size (p + 32) 8
  paddr : Load m file p → InFile size (p + 24) 8
  vaddr : Load m file p → fieldAt m file (p + 24) 8 = 0 → InFile size (p + 16) 8

theorem isLoad_traced (p : Nat) : Hoare (Traced m size φ) (isLoad file p) fun r s =>
    Traced m size (φ ∧ InFile size p 4 ∧ (fieldAt m file p 4 = 1 → InFile size (p + 40) 8)) s ∧
      (r = true ↔ Load m file p) := by
  refine hoare_bind (readField_traced _ 4) fun type => hoare_fact fun htype => ?_
  refine hoare_ite (fun h => hoare_pure fun s hs => ⟨hs.congr ?_, ?_⟩) fun h => ?_
  · rw [htype] at h
    simp [h]
  · rw [htype] at h
    simp [Load, h]
  · rw [htype, not_not] at h
    refine hoare_bind (readField_traced _ 8) fun memsz => hoare_fact fun hmemsz =>
      hoare_pure fun s hs => ⟨hs.congr ?_, ?_⟩
    · simp [h, and_assoc]
    · simp [Load, h, hmemsz]

theorem segmentAddr_traced (p : Nat) : Hoare (Traced m size φ) (segmentAddr file p) fun r s =>
    Traced m size (φ ∧ InFile size (p + 24) 8 ∧
      (fieldAt m file (p + 24) 8 = 0 → InFile size (p + 16) 8)) s ∧ r = addrOf m file p := by
  refine hoare_bind (readField_traced _ 8) fun paddr => hoare_fact fun hpaddr => ?_
  refine hoare_ite (fun h => hoare_pure fun s hs => ⟨hs.congr ?_, ?_⟩) fun h => ?_
  · rw [hpaddr] at h
    simp [h]
  · rw [hpaddr] at h ⊢
    exact (if_pos h).symm
  · rw [hpaddr] at h
    refine (readField_traced _ 8).mono (fun _ h => h) fun r s hs => ⟨hs.1.congr ?_, ?_⟩
    · simp [not_not.mp h, and_assoc]
    · rw [hs.2]
      exact (if_neg h).symm

/-- `b` bounds the segments of the first `n` headers. -/
structure Bounding (m : Mem) (file n : Nat) (b : Bounds) : Prop where
  base_le : ∀ j < n, Load m file (phdr m file j) → b.base ≤ addrOf m file (phdr m file j)
  base_page : b.base = 2 ^ 64 - 1 ∨ b.base % 4096 = 0
  le_stop : ∀ j < n, Load m file (phdr m file j) → endOf m file (phdr m file j) ≤ b.stop
  stop_eq : b.stop = 0 ∨ ∃ j < n, Load m file (phdr m file j) ∧ b.stop = endOf m file (phdr m file j)

theorem Bounding.start : Bounding m file 0 ⟨2 ^ 64 - 1, 0⟩ :=
  ⟨fun j hj => absurd hj (Nat.not_lt_zero j), Or.inl rfl,
    fun j hj => absurd hj (Nat.not_lt_zero j), Or.inl rfl⟩

theorem Bounding.skip {i : Nat} {b : Bounds} (hb : Bounding m file i b)
    (hl : ¬ Load m file (phdr m file i)) : Bounding m file (i + 1) b := by
  refine ⟨?_, hb.base_page, ?_, ?_⟩
  · exact Nat.forall_lt_succ_right.mpr ⟨hb.base_le, fun h => absurd h hl⟩
  · exact Nat.forall_lt_succ_right.mpr ⟨hb.le_stop, fun h => absurd h hl⟩
  · exact hb.stop_eq.imp_right fun ⟨j, hj, h⟩ => ⟨j, by omega, h⟩

theorem Bounding.extend {i : Nat} {b : Bounds} (hb : Bounding m file i b)
    (hl : Load m file (phdr m file i)) :
    Bounding m file (i + 1)
      ⟨if alignDown (addrOf m file (phdr m file i)) 4096 < b.base
        then alignDown (addrOf m file (phdr m file i)) 4096 else b.base,
      if endOf m file (phdr m file i) > b.stop then endOf m file (phdr m file i) else b.stop⟩ := by
  have hdown := alignDown_le (addrOf m file (phdr m file i)) 4096
  have hpage := alignDown_mod (addrOf m file (phdr m file i)) (a := 4096) (by omega)
  refine ⟨?_, ?_, ?_, ?_⟩ <;> dsimp only
  · refine Nat.forall_lt_succ_right.mpr ⟨fun j hj hj' => ?_, fun _ => ?_⟩
    · have := hb.base_le j hj hj'
      split_ifs <;> omega
    · split_ifs <;> omega
  · have := hb.base_page
    split_ifs <;> omega
  · refine Nat.forall_lt_succ_right.mpr ⟨fun j hj hj' => ?_, fun _ => ?_⟩
    · have := hb.le_stop j hj hj'
      split_ifs <;> omega
    · split_ifs <;> omega
  · split_ifs
    · exact Or.inr ⟨i, by omega, hl, rfl⟩
    · exact hb.stop_eq.imp_right fun ⟨j, hj, h⟩ => ⟨j, by omega, h⟩

theorem boundSegment_traced {i : Nat} {b : Bounds} (hb : Bounding m file i b) :
    Hoare (Traced m size φ) (boundSegment file size (phdr m file i) b) fun b s =>
      Traced m size (φ ∧ PhdrRead m file size (phdr m file i)) s ∧ Bounding m file (i + 1) b := by
  unfold boundSegment
  refine hoare_bind (isLoad_traced _) fun load => hoare_fact fun hload => ?_
  refine hoare_ite (fun hl => ?_) fun hl => hoare_pure fun s h => ⟨h.congr ?_, ?_⟩
  · have hl' : Load m file (phdr m file i) := hload.mp hl
    refine hoare_bind (readField_traced _ 8) fun offset => hoare_fact fun _ => ?_
    refine hoare_bind (readField_traced _ 8) fun filesz => hoare_fact fun _ => ?_
    refine hoare_bind (maintains_refuse _ _) fun _ => ?_
    refine hoare_bind (segmentAddr_traced _) fun addr => hoare_fact fun haddr => ?_
    refine hoare_bind (readField_traced _ 8) fun memsz => hoare_fact fun hmemsz => ?_
    subst haddr hmemsz
    refine hoare_pure fun s h => ⟨h.congr ?_, hb.extend hl'⟩
    constructor
    · rintro ⟨⟨⟨⟨⟨hφ, htype, hmemsz⟩, hoffset⟩, hfilesz⟩, hpaddr, hvaddr⟩, -⟩
      exact ⟨hφ, htype, hmemsz, fun _ => hoffset, fun _ => hfilesz, fun _ => hpaddr, fun _ => hvaddr⟩
    · rintro ⟨hφ, htype, hmemsz, hoffset, hfilesz, hpaddr, hvaddr⟩
      exact ⟨⟨⟨⟨⟨hφ, htype, hmemsz⟩, hoffset hl'⟩, hfilesz hl'⟩, hpaddr hl', hvaddr hl'⟩,
        hmemsz hl'.1⟩
  · have hl' : ¬ Load m file (phdr m file i) := fun h => hl (hload.mpr h)
    simp [phdrRead_iff, hl']
  · exact hb.skip fun h => hl (hload.mpr h)

theorem boundSegments_traced {i n : Nat} {b : Bounds} (hb : Bounding m file i b) :
    Hoare (Traced m size φ) (boundSegments file size (phoff m file) i n b) fun b s =>
      Traced m size (φ ∧ ∀ j, i ≤ j → j < i + n → PhdrRead m file size (phdr m file j)) s ∧
        Bounding m file (i + n) b := by
  induction n generalizing i b φ with
  | zero => exact hoare_pure fun s h => ⟨h.congr (by simp; omega), hb⟩
  | succ n ih =>
    refine hoare_bind (boundSegment_traced hb) fun b => hoare_fact fun hb => ?_
    refine (ih hb).mono (fun _ h => h) fun _ s h => ⟨h.1.congr ?_, ?_⟩
    · rw [and_assoc]
      refine and_congr_right fun _ => ⟨fun ⟨hi, hrest⟩ j hj hjn => ?_, fun h => ⟨?_, ?_⟩⟩
      · rcases Nat.eq_or_lt_of_le hj with rfl | hlt
        · exact hi
        · exact hrest j hlt (by omega)
      · exact h i (le_refl i) (by omega)
      · exact fun j hj hjn => h j (by omega) (by omega)
    · rw [show i + (n + 1) = i + 1 + n by omega]
      exact h.2

/-- The first loop reads inside the file exactly if the program headers are in it. -/
theorem phdrs_iff (hs : size ≤ 2 ^ 63) (hnum : phnum m file ≠ 0)
    (hcheck : (phoff m file + 56 * phnum m file) % 2 ^ 64 ≤ size) :
    (∀ j, 0 ≤ j → j < 0 + phnum m file → PhdrRead m file size (phdr m file j)) ↔
      phoff m file + 56 * phnum m file ≤ size := by
  have hlt : phnum m file < 65536 := fieldAt_lt m file 56 2
  have hoff : phoff m file < 2 ^ 64 := qword_lt _ _ _
  constructor
  · intro h
    have hfirst := (h 0 (le_refl 0) (by omega)).type.le (by unfold phdr; omega) (by omega) (by omega) hs
    unfold phdr at hfirst
    omega
  · intro h j _ hj
    have hfield : ∀ k w, k + w ≤ 56 → InFile size (phdr m file j + k) w :=
      fun k w hk => inFile_of_le (by unfold phdr; omega) hs
    have htype : InFile size (phdr m file j) 4 := by
      simpa using hfield 0 4 (by omega)
    exact ⟨htype, fun _ => hfield 40 8 (by omega), fun _ => hfield 8 8 (by omega),
      fun _ => hfield 32 8 (by omega), fun _ => hfield 24 8 (by omega),
      fun _ _ => hfield 16 8 (by omega)⟩

end Traced

end PcoOs.Uefi
