/-
  The spawn and exec calls of `ksyscall.py`: the argument and environment vectors are copied out
  of the caller's memory, the image is loaded from the file system, and the scheduler takes both.

  A vector is an array of pointers that ends with 0, each to a string that ends with NUL. The
  copies lie in blocks of the early heap, which no caller's pointer leads to; they are lists here,
  and their allocations only move the heap pointer.
-/
import PcoOs.Syscall.Model

namespace PcoOs.Syscall

open PcoOs.Lib PcoOs.Pmm PcoOs.Support PcoOs.Vmm PcoOs.Elf PcoOs.Image PcoOs.Sched PcoOs.Vfs
  PcoOs.Kernel

/-- `syscall_exec_max_args`, which `syscall_exec_max_env` is equal to. -/
def syscallExecMaxArgs : Nat := 8

def syscallExecMaxString : Nat := 64

/-! ## Reading memory -/

/-- What a load from an address gives: a byte, or a fault. -/
abbrev Reader := Nat → Except String UInt8

/-- `load_byte_region`. -/
def readByteRegion (read : Reader) (base count offset : Int) : Except String UInt8 := do
  checkByteRegion (addr base) count offset
  read (addr (base + offset))

/-- `load` at `i, i + 1, …`, `n` of them. -/
def readRun (load : Nat → Except String UInt8) : Nat → Nat → Except String Bytes
  | _, 0 => .ok []
  | i, n + 1 => do
    let b ← load i
    let bs ← readRun load (i + 1) n
    .ok (b :: bs)

/-- The value of bytes, least significant first. -/
def bytesValue (bs : Bytes) : Nat := bs.foldr (fun b n => b.toNat + 256 * n) 0

/-- `load_qword_region`: a signed value. -/
def readQwordRegion (read : Reader) (base count slot : Int) : Except String Int := do
  checkQwordRegion (addr base) count slot
  let bytes ← readRun (fun i => read (addr (base + 8 * slot) + i)) 0 8
  .ok (wrap (bytesValue bytes))

/-! ## Strings -/

/-- The loop of both copies, at `length`, with `n` rounds left. `valid length` is the check in front
    of byte `length`, and `load length` loads from the string there. The bytes in front of the NUL
    are loaded again for the copy. -/
def copyCstring (valid : Nat → Bool) (load : Nat → Nat → Except String UInt8) (heap : Heap) :
    Nat → Nat → Except String (Option Bytes × Heap)
  | 0, _ => .ok (none, heap)
  | n + 1, length =>
    if ¬ valid length then .ok (none, heap)
    else do
      let b ← load length length
      if b = 0 then do
        let (_, heap) ← allocBytes heap (length + 1)
        let bytes ← readRun (load length) 0 length
        .ok (some bytes, heap)
      else copyCstring valid load heap n (length + 1)

def syscallCopyKernelCstring (read : Reader) (ptr : Int) (heap : Heap) :
    Except String (Option Bytes × Heap) :=
  copyCstring (fun _ => true)
    (fun _ offset => readByteRegion read ptr (syscallExecMaxString + 1) offset) heap
    syscallExecMaxString 0

def syscallCopyUserCstring (row : Task) (read : Reader) (ptr : Int) (heap : Heap) :
    Except String (Option Bytes × Heap) :=
  if ptr = 0 then .ok (none, heap)
  else copyCstring (fun length => syscallValidateUserBuffer row ptr (length + 1))
    (fun length offset => readByteRegion read ptr (length + 1) offset) heap
    syscallExecMaxString 0

/-! ## Vectors -/

/-- The loop of both copies, at slot `count`, with `n` rounds left, and the check of the last slot
    behind it. `valid` is the check in front of a slot, `load` its value. -/
def copySlots (valid : Nat → Bool) (load : Nat → Except String Int)
    (copy : Int → Heap → Except String (Option Bytes × Heap)) :
    Nat → Nat → Heap → Except String (Option (List Bytes) × Heap)
  | 0, count, heap =>
    if ¬ valid count then .ok (none, heap)
    else do
      let entry ← load count
      if entry ≠ 0 then .ok (none, heap) else .ok (some [], heap)
  | n + 1, count, heap =>
    if ¬ valid count then .ok (none, heap)
    else do
      let entry ← load count
      if entry = 0 then .ok (some [], heap)
      else do
        match ← copy entry heap with
        | (none, heap) => .ok (none, heap)
        | (some s, heap) => do
          let (rest, heap) ← copySlots valid load copy n (count + 1) heap
          .ok (rest.map (s :: ·), heap)

/-- The result is `none` where the source returns a null vector. -/
def syscallCopyKernelExecVector (read : Reader) (arrayPtr : Int) (maxCount : Nat) (heap : Heap) :
    Except String (Option (List Bytes) × Heap) := do
  if arrayPtr = 0 then .ok (none, heap)
  else do
    let (_, heap) ← allocBytes heap (wrap (maxCount * 16))
    copySlots (fun _ => true) (fun i => readQwordRegion read arrayPtr (maxCount + 1) i)
      (syscallCopyKernelCstring read) maxCount 0 heap

def syscallCopyUserExecVector (row : Task) (read : Reader) (arrayPtr : Int) (maxCount : Nat)
    (heap : Heap) : Except String (Option (List Bytes) × Heap) := do
  if arrayPtr = 0 then .ok (none, heap)
  else if arrayPtr % 8 ≠ 0 then .ok (none, heap)
  else do
    let (_, heap) ← allocBytes heap (wrap (maxCount * 16))
    copySlots (fun i => syscallValidateUserBuffer row (wrap (arrayPtr + i * 8)) 8)
      (fun i => readQwordRegion read arrayPtr (maxCount + 1) i)
      (syscallCopyUserCstring row read) maxCount 0 heap

/-! ## What the copies return -/

theorem readByteRegion_eq_ok {read : Reader} {base count offset : Int} {b : UInt8} :
    readByteRegion read base count offset = .ok b ↔
      (addr base ≠ 0 ∧ 0 ≤ offset ∧ offset < count) ∧ read (addr (base + offset)) = .ok b := by
  unfold readByteRegion checkByteRegion
  constructor
  · intro h
    obtain ⟨u, hc, h⟩ := bind_eq_ok.mp h
    split_ifs at hc with h1 h2 h3
    exact ⟨⟨h1, by omega, by omega⟩, h⟩
  · rintro ⟨⟨h1, h2, h3⟩, h⟩
    rw [if_neg h1, if_neg (by omega), if_neg (by omega)]
    exact h

theorem readRun_eq_ok {load : Nat → Except String UInt8} {i n : Nat} {bs : Bytes}
    (h : readRun load i n = .ok bs) :
    bs.length = n ∧ ∀ b ∈ bs, ∃ j, i ≤ j ∧ j < i + n ∧ load j = .ok b := by
  induction n generalizing i bs with
  | zero =>
    cases h
    exact ⟨rfl, fun b hb => absurd hb List.not_mem_nil⟩
  | succ n ih =>
    obtain ⟨b, hb, h⟩ := bind_eq_ok.mp h
    obtain ⟨rest, hrest, h⟩ := bind_eq_ok.mp h
    cases h
    obtain ⟨hlen, hmem⟩ := ih hrest
    refine ⟨by rw [List.length_cons, hlen], fun c hc => ?_⟩
    rcases List.mem_cons.mp hc with rfl | hc
    · exact ⟨i, le_refl _, by omega, hb⟩
    · obtain ⟨j, h1, h2, hj⟩ := hmem c hc
      exact ⟨j, by omega, by omega, hj⟩

/-- A string of a vector: short, and without NUL. -/
def StringOk (s : Bytes) : Prop := s.length ≤ 63 ∧ ∀ b ∈ s, b ≠ 0

/-- The loop stops at the first NUL. -/
theorem copyCstring_stringOk {valid : Nat → Bool} {load : Nat → Nat → Except String UInt8}
    (hsame : ∀ l i b, i ≤ l → load l i = .ok b → load i i = .ok b) {heap heap' : Heap}
    {n length : Nat} (hlen : length + n ≤ 64) (hpre : ∀ i < length, load i i ≠ .ok 0) {s : Bytes}
    (h : copyCstring valid load heap n length = .ok (some s, heap')) : StringOk s := by
  induction n generalizing length with
  | zero => cases h
  | succ n ih =>
    rw [copyCstring] at h
    by_cases hv : ¬ valid length
    · rw [if_pos hv] at h
      cases h
    rw [if_neg hv] at h
    obtain ⟨b, hb, h⟩ := bind_eq_ok.mp h
    by_cases h0 : b = 0
    · rw [if_pos h0] at h
      obtain ⟨⟨ptr, h₁⟩, -, h⟩ := bind_eq_ok.mp h
      obtain ⟨bytes, hbytes, h⟩ := bind_eq_ok.mp h
      cases h
      obtain ⟨hl, hmem⟩ := readRun_eq_ok hbytes
      refine ⟨by omega, fun c hc hc0 => ?_⟩
      obtain ⟨j, -, hj, hload⟩ := hmem c hc
      exact hpre j (by omega) (hc0 ▸ hsame length j c (by omega) hload)
    · rw [if_neg h0] at h
      refine ih (by omega) (fun i hi => ?_) h
      rcases Nat.lt_succ_iff_lt_or_eq.mp hi with hlt | rfl
      · exact hpre i hlt
      · rw [hb]
        exact fun he => h0 (Except.ok.inj he)

theorem syscallCopyUserCstring_stringOk {row : Task} {read : Reader} {ptr : Int}
    {heap heap' : Heap} {s : Bytes}
    (h : syscallCopyUserCstring row read ptr heap = .ok (some s, heap')) : StringOk s := by
  unfold syscallCopyUserCstring at h
  by_cases h0 : ptr = 0
  · rw [if_pos h0] at h
    cases h
  rw [if_neg h0] at h
  refine copyCstring_stringOk (fun l i b _ hb => ?_) (by decide)
    (fun i hi => absurd hi (Nat.not_lt_zero i)) h
  obtain ⟨⟨h1, h2, -⟩, hread⟩ := readByteRegion_eq_ok.mp hb
  exact readByteRegion_eq_ok.mpr ⟨⟨h1, h2, by omega⟩, hread⟩

theorem syscallCopyKernelCstring_stringOk {read : Reader} {ptr : Int} {heap heap' : Heap} {s : Bytes}
    (h : syscallCopyKernelCstring read ptr heap = .ok (some s, heap')) : StringOk s := by
  unfold syscallCopyKernelCstring at h
  refine copyCstring_stringOk ?_ (by decide) (fun i hi => absurd hi (Nat.not_lt_zero i)) h
  exact fun _ _ _ _ hb => hb

/-- At most `n` strings. -/
def VectorOk (n : Nat) (strings : List Bytes) : Prop :=
  strings.length ≤ n ∧ ∀ s ∈ strings, StringOk s

theorem copySlots_vectorOk {valid : Nat → Bool} {load : Nat → Except String Int}
    {copy : Int → Heap → Except String (Option Bytes × Heap)}
    (hcopy : ∀ e h s h', copy e h = .ok (some s, h') → StringOk s) {n count : Nat}
    {heap heap' : Heap} {strings : List Bytes}
    (h : copySlots valid load copy n count heap = .ok (some strings, heap')) :
    VectorOk n strings := by
  have hnil : ∀ m, VectorOk m [] := fun m => ⟨Nat.zero_le m, fun s hs => absurd hs List.not_mem_nil⟩
  induction n generalizing count heap heap' strings with
  | zero =>
    rw [copySlots] at h
    by_cases hv : ¬ valid count
    · rw [if_pos hv] at h
      cases h
    rw [if_neg hv] at h
    obtain ⟨e, -, h⟩ := bind_eq_ok.mp h
    by_cases h0 : e ≠ 0
    · rw [if_pos h0] at h
      cases h
    · rw [if_neg h0] at h
      cases h
      exact hnil 0
  | succ n ih =>
    rw [copySlots] at h
    by_cases hv : ¬ valid count
    · rw [if_pos hv] at h
      cases h
    rw [if_neg hv] at h
    obtain ⟨e, -, h⟩ := bind_eq_ok.mp h
    by_cases h0 : e = 0
    · rw [if_pos h0] at h
      cases h
      exact hnil (n + 1)
    rw [if_neg h0] at h
    obtain ⟨⟨s, h₁⟩, hs, h⟩ := bind_eq_ok.mp h
    cases s with
    | none => cases h
    | some s =>
      obtain ⟨⟨rest, h₂⟩, hrest, h⟩ := bind_eq_ok.mp h
      cases rest with
      | none => cases h
      | some rest =>
        cases h
        obtain ⟨hlen, hall⟩ := ih hrest
        refine ⟨Nat.succ_le_succ hlen, fun c hc => ?_⟩
        rcases List.mem_cons.mp hc with rfl | hc
        · exact hcopy e heap c h₁ hs
        · exact hall c hc

theorem syscallCopyUserExecVector_vectorOk {row : Task} {read : Reader} {ptr : Int} {n : Nat}
    {heap heap' : Heap} {strings : List Bytes}
    (h : syscallCopyUserExecVector row read ptr n heap = .ok (some strings, heap')) :
    VectorOk n strings := by
  unfold syscallCopyUserExecVector at h
  split_ifs at h
  · cases h
  · cases h
  · obtain ⟨r, -, h⟩ := bind_eq_ok.mp h
    exact copySlots_vectorOk (fun _ _ _ _ hs => syscallCopyUserCstring_stringOk hs) h

theorem syscallCopyKernelExecVector_vectorOk {read : Reader} {ptr : Int} {n : Nat}
    {heap heap' : Heap} {strings : List Bytes}
    (h : syscallCopyKernelExecVector read ptr n heap = .ok (some strings, heap')) :
    VectorOk n strings := by
  unfold syscallCopyKernelExecVector at h
  split_ifs at h
  · cases h
  · obtain ⟨r, -, h⟩ := bind_eq_ok.mp h
    exact copySlots_vectorOk (fun _ _ _ _ hs => syscallCopyKernelCstring_stringOk hs) h

/-! ## The calls -/

/-- The copy of a vector of at most 8 strings, as the scheduler takes it. -/
def asExecVec (x : Except String (Option (List Bytes) × Heap))
    (h : ∀ strings heap, x = .ok (some strings, heap) → VectorOk 8 strings) :
    Except String (Option ExecVec × Heap) :=
  match x, h with
  | .error e, _ => .error e
  | .ok (none, heap), _ => .ok (none, heap)
  | .ok (some strings, heap), h =>
    have hok := h strings heap rfl
    .ok (some ⟨strings, hok.1, fun s hs => (hok.2 s hs).1, fun s hs => (hok.2 s hs).2⟩, heap)

def copyUserVec (row : Task) (read : Reader) (ptr : Int) (heap : Heap) :
    Except String (Option ExecVec × Heap) :=
  asExecVec (syscallCopyUserExecVector row read ptr syscallExecMaxArgs heap)
    fun _ _ h => syscallCopyUserExecVector_vectorOk h

def copyKernelVec (read : Reader) (ptr : Int) (heap : Heap) :
    Except String (Option ExecVec × Heap) :=
  asExecVec (syscallCopyKernelExecVector read ptr syscallExecMaxArgs heap)
    fun _ _ h => syscallCopyKernelExecVector_vectorOk h

def emptyVec : ExecVec := .nil

/-- Both vectors, the arguments first. The result is `none` when a vector that was passed could not
    be copied; a null pointer passes an empty one. -/
def copyVectors (copy : Int → Heap → Except String (Option ExecVec × Heap)) (argvPtr envpPtr : Int)
    (heap : Heap) : Except String (Option (ExecVec × ExecVec) × Heap) := do
  let (argv, heap) ← copy argvPtr heap
  if argvPtr ≠ 0 ∧ argv.isNone then .ok (none, heap)
  else do
    let (envp, heap) ← copy envpPtr heap
    if envpPtr ≠ 0 ∧ envp.isNone then .ok (none, heap)
    else .ok (some (argv.getD emptyVec, envp.getD emptyVec), heap)

/-- A path in the caller's memory with the pointers to both vectors, as they arrive in registers. -/
structure ExecArgs where
  pathPtr : Int
  pathLen : Int
  argvPtr : Int
  envpPtr : Int

/-- The user side of the spawn and exec calls: the path is checked and the vectors are copied before
    the image is loaded. The result is `none` where the calls return -1. -/
def userExecInput (k : KernelState) (a : ExecArgs) :
    Except String (Option (Image × ExecVec × ExecVec) × KernelState) := do
  let row := k.task k.current
  if ¬ syscallValidateUserBuffer row a.pathPtr a.pathLen then .ok (none, k)
  else do
    let (vecs, heap) ← copyVectors (copyUserVec row (loadUserByte k.phys.mem k.phys.cr3))
      a.argvPtr a.envpPtr k.heap
    match vecs with
    | none => .ok (none, { k with heap := heap })
    | some (argv, envp) => do
      let path ← loadUserBytes k.phys.mem k.phys.cr3 a.pathPtr.toNat a.pathLen.toNat
      let (image, vfs, heap) ← syscallLoadExecImage k.vfs heap path
      .ok (image.map fun img => (img, argv, envp), { k with vfs := vfs, heap := heap })

/-- The kernel side: the image is loaded first. `read` is the memory of the kernel. -/
def kernelExecInput (k : KernelState) (read : Reader) (path : Bytes) (argvPtr envpPtr : Int) :
    Except String (Option (Image × ExecVec × ExecVec) × KernelState) := do
  let (image, vfs, heap) ← syscallLoadExecImage k.vfs k.heap path
  let k := { k with vfs := vfs, heap := heap }
  match image with
  | none => .ok (none, k)
  | some img => do
    let (vecs, heap) ← copyVectors (copyKernelVec read) argvPtr envpPtr k.heap
    .ok (vecs.map fun v => (img, v.1, v.2), { k with heap := heap })

/-- `scheduler_create_user_elf_task` on what was copied; the result is the id of the task. -/
def spawnInput (input : Option (Image × ExecVec × ExecVec)) (k : KernelState) :
    Except Panic (Int × KernelState) := do
  match input with
  | none => .ok (-1, k)
  | some (img, argv, envp) => do
    let (t, k) ← schedulerCreateUserElfTask k img argv envp
    .ok (t.val, k)

def execInput (input : Option (Image × ExecVec × ExecVec)) (k : KernelState) :
    Except Panic (Int × KernelState) :=
  match input with
  | none => .ok (-1, k)
  | some (img, argv, envp) => schedulerExecCurrentTask k img argv envp

def syscallSpawnExecUserPath (k : KernelState) (a : ExecArgs) : Except Panic (Int × KernelState) := do
  let (input, k) ← orPanic (userExecInput k a)
  spawnInput input k

def syscallSpawnExecKernelPath (k : KernelState) (read : Reader) (path : Bytes)
    (argvPtr envpPtr : Int) : Except Panic (Int × KernelState) := do
  let (input, k) ← orPanic (kernelExecInput k read path argvPtr envpPtr)
  spawnInput input k

def syscallExecUserPath (k : KernelState) (a : ExecArgs) : Except Panic (Int × KernelState) := do
  let (input, k) ← orPanic (userExecInput k a)
  execInput input k

def syscallExecKernelPath (k : KernelState) (read : Reader) (path : Bytes)
    (argvPtr envpPtr : Int) : Except Panic (Int × KernelState) := do
  let (input, k) ← orPanic (kernelExecInput k read path argvPtr envpPtr)
  execInput input k

end PcoOs.Syscall
