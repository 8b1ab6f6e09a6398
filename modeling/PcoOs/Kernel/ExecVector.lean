/-
  Copying argument vectors from user memory. Slots and bytes are checked one at a time before they
  are loaded, so the copy depends on the accessible bytes of the task only, it agrees with the copy
  for kernel callers, and it succeeds exactly when the vector ends in time and its strings do, each
  inside one area of the task: `exec_vector_copy`.
-/
import PcoOs.Kernel.Buffers
import PcoOs.Syscall.Exec

namespace PcoOs.Syscall

open PcoOs.Lib PcoOs.Pmm PcoOs.Support PcoOs.Vmm PcoOs.Elf PcoOs.Image PcoOs.Sched PcoOs.Vfs
  PcoOs.Kernel

/-! ## The loops -/

theorem readRun_congr {load load' : Nat → Except String UInt8} {i n : Nat}
    (h : ∀ j, i ≤ j → j < i + n → load j = load' j) : readRun load i n = readRun load' i n := by
  induction n generalizing i with
  | zero => rfl
  | succ n ih =>
    rw [readRun, readRun, h i (le_refl _) (by omega), ih fun j h1 h2 => h j (by omega) (by omega)]

theorem readRun_ok {load : Nat → Except String UInt8} {m : Mem} {a i n : Nat}
    (h : ∀ j, i ≤ j → j < i + n → load j = .ok (m (a + j))) :
    readRun load i n = .ok (loadBytes m (a + i) n) := by
  induction n generalizing i with
  | zero => rfl
  | succ n ih =>
    rw [readRun, h i (le_refl _) (by omega), ok_bind, ih fun j h1 h2 => h j (by omega) (by omega),
      ok_bind]
    unfold loadBytes
    rw [List.range_succ_eq_map, List.map_cons, List.map_map]
    refine congrArg Except.ok (congrArg₂ List.cons rfl (List.map_congr_left fun j _ => ?_))
    show m (a + (i + 1) + j) = m (a + i + (j + 1))
    rw [show a + (i + 1) + j = a + i + (j + 1) by omega]

theorem bytesValue_loadBytes (m : Mem) (a : Nat) : bytesValue (loadBytes m a 8) = loadQword m a := by
  unfold loadBytes bytesValue loadQword
  rw [show List.range 8 = [0, 1, 2, 3, 4, 5, 6, 7] from rfl]
  simp only [List.map_cons, List.map_nil, List.foldr_cons, List.foldr_nil, Nat.add_zero]
  omega

section Strings

variable {valid : Nat → Bool} {load load' : Nat → Nat → Except String UInt8} {heap : Heap}
  {n length : Nat}

/-- Only what was checked is loaded. -/
theorem copyCstring_congr
    (h : ∀ l < length + n, valid l = true → ∀ i ≤ l, load l i = load' l i) :
    copyCstring valid load heap n length = copyCstring valid load' heap n length := by
  induction n generalizing length with
  | zero => rfl
  | succ n ih =>
    rw [copyCstring, copyCstring]
    by_cases hv : valid length = true
    · have hthis := h length (by omega) hv
      rw [if_neg (not_not.mpr hv), if_neg (not_not.mpr hv), hthis length (le_refl _),
        readRun_congr fun j _ hj => hthis j (by omega), ih fun l hl => h l (by omega)]
    · rw [if_pos hv, if_pos hv]

/-- A copy that succeeds succeeds without the checks. -/
theorem copyCstring_relax {bytes : Bytes} {heap' : Heap}
    (h : copyCstring valid load heap n length = .ok (some bytes, heap')) :
    copyCstring (fun _ => true) load heap n length = .ok (some bytes, heap') := by
  induction n generalizing length with
  | zero => cases h
  | succ n ih =>
    rw [copyCstring] at h ⊢
    rw [if_neg (not_not.mpr rfl)]
    by_cases hv : valid length = true
    · rw [if_neg (not_not.mpr hv)] at h
      obtain ⟨b, hb, h⟩ := bind_eq_ok.mp h
      rw [hb, ok_bind]
      by_cases h0 : b = 0
      · rw [if_pos h0] at h ⊢
        exact h
      · rw [if_neg h0] at h ⊢
        exact ih h
    · rw [if_pos hv] at h
      cases h

/-- An allocation failed, on a heap with fewer than `size` bytes left. -/
def Exhausted (heap : Heap) (size : Nat) (e : String) : Prop :=
  e = "early heap exhausted" ∧ (HeapOk heap → heap.stop < heap.ptr + size)

theorem Exhausted.mono {size size' : Nat} {e : String} (h : Exhausted heap size e)
    (hle : size ≤ size') : Exhausted heap size' e :=
  ⟨h.1, fun hok => (h.2 hok).trans_le (Nat.add_le_add_left hle _)⟩

theorem allocBytes_ends {heap : Heap} {size : Int} (room : Nat) (h0 : HeapOk heap → 0 ≤ size)
    (hroom : size + 16 ≤ room) :
    Ends (allocBytes heap size) (fun r => HeapOk heap → HeapMovesBy heap r.2 room)
      (Exhausted heap room) := by
  cases ha : allocBytes heap size with
  | error e =>
    refine ⟨allocBytes_error ha, fun hok => ?_⟩
    have := (allocBytes_spec hok (h0 hok)).of_error ha
    omega
  | ok r =>
    intro hok
    obtain ⟨-, hok', hg, -, hlt⟩ := (allocBytes_spec hok (h0 hok)).of_ok ha
    exact ⟨⟨hok', hg⟩, by omega⟩

/-- From `length` on, a NUL is met before a check fails. -/
def NulAhead (valid : Nat → Bool) (byte : Nat → UInt8) (n length : Nat) : Prop :=
  ∃ l, length ≤ l ∧ l < length + n ∧ byte l = 0 ∧ ∀ l', length ≤ l' → l' ≤ l → valid l' = true

theorem copyCstring_spec (byte : Nat → UInt8)
    (hload : ∀ l < 64, valid l = true → ∀ i ≤ l, load l i = .ok (byte i))
    (hlen : length + n ≤ 64) :
    Ends (copyCstring valid load heap n length)
      (fun r => (HeapOk heap → HeapMovesBy heap r.2 80) ∧
        (r.1.isSome = true ↔ NulAhead valid byte n length))
      (Exhausted heap 80) := by
  unfold NulAhead
  induction n generalizing length with
  | zero =>
    refine ⟨fun hok => HeapMovesBy.refl hok _, ?_⟩
    constructor
    · intro h
      cases h
    · rintro ⟨l, h1, h2, -⟩
      omega
  | succ n ih =>
    rw [copyCstring]
    by_cases hv : valid length = true
    · rw [if_neg (not_not.mpr hv), hload length (by omega) hv length (le_refl _), ok_bind]
      by_cases h0 : byte length = 0
      · rw [if_pos h0]
        refine ends_bind (allocBytes_ends 80 (fun _ => by omega) (by omega)) ?_
        rintro ⟨ptr, heap'⟩ hm
        have hrun : readRun (load length) 0 length = .ok (loadBytes byte 0 length) := by
          rw [readRun_ok (m := byte) (a := 0) fun j _ hj => ?_]
          rw [hload length (by omega) hv j (by omega), Nat.zero_add]
        dsimp only at hm ⊢
        rw [hrun, ok_bind]
        refine ⟨hm, ?_⟩
        simp only [Option.isSome_some, true_iff]
        refine ⟨length, le_refl _, by omega, h0, fun l' h1 h2 => ?_⟩
        rwa [show l' = length by omega]
      · rw [if_neg h0]
        refine (@ih (length + 1) (by omega)).imp fun r hr => ⟨hr.1, hr.2.trans ?_⟩
        constructor
        · rintro ⟨l, h1, h2, hb, hall⟩
          refine ⟨l, by omega, by omega, hb, fun l' h1' h2' => ?_⟩
          rcases Nat.eq_or_lt_of_le h1' with rfl | hlt
          · exact hv
          · exact hall l' hlt h2'
        · rintro ⟨l, h1, h2, hb, hall⟩
          have hne : l ≠ length := by
            rintro rfl
            exact h0 hb
          exact ⟨l, by omega, by omega, hb, fun l' h1' h2' => hall l' (by omega) h2'⟩
    · rw [if_pos hv]
      refine ⟨fun hok => HeapMovesBy.refl hok _, ?_⟩
      constructor
      · intro h
        cases h
      · rintro ⟨l, h1, -, -, hall⟩
        exact absurd (hall length (le_refl _) h1) hv

end Strings

section Slots

variable {valid : Nat → Bool} {load load' : Nat → Except String Int}
  {copy copy' : Int → Heap → Except String (Option Bytes × Heap)} {heap : Heap} {n count : Nat}

theorem copySlots_congr (hload : ∀ i, valid i = true → load i = load' i)
    (hcopy : ∀ i e h, load' i = .ok e → copy e h = copy' e h) :
    copySlots valid load copy n count heap = copySlots valid load' copy' n count heap := by
  induction n generalizing count heap with
  | zero =>
    rw [copySlots, copySlots]
    by_cases hv : valid count = true
    · rw [if_neg (not_not.mpr hv), if_neg (not_not.mpr hv), hload count hv]
    · rw [if_pos hv, if_pos hv]
  | succ n ih =>
    rw [copySlots, copySlots]
    by_cases hv : valid count = true
    · rw [if_neg (not_not.mpr hv), if_neg (not_not.mpr hv), hload count hv]
      cases he : load' count with
      | error e => rfl
      | ok e => simp only [ok_bind, hcopy count e _ he, ih]
    · rw [if_pos hv, if_pos hv]

/-- A copy that succeeds succeeds without the checks, with any copy of strings that succeeds where
    `copy` does. -/
theorem copySlots_relax {strings : List Bytes} {heap' : Heap}
    (hcopy : ∀ i e h s h', valid i = true → load i = .ok e → e ≠ 0 →
      copy e h = .ok (some s, h') → copy' e h = .ok (some s, h'))
    (h : copySlots valid load copy n count heap = .ok (some strings, heap')) :
    copySlots (fun _ => true) load copy' n count heap = .ok (some strings, heap') := by
  induction n generalizing count heap heap' strings with
  | zero =>
    rw [copySlots] at h ⊢
    rw [if_neg (not_not.mpr rfl)]
    by_cases hv : valid count = true
    · rwa [if_neg (not_not.mpr hv)] at h
    · rw [if_pos hv] at h
      cases h
  | succ n ih =>
    rw [copySlots] at h ⊢
    rw [if_neg (not_not.mpr rfl)]
    by_cases hv : valid count = true
    · rw [if_neg (not_not.mpr hv)] at h
      obtain ⟨e, he, h⟩ := bind_eq_ok.mp h
      rw [he, ok_bind]
      by_cases h0 : e = 0
      · rwa [if_pos h0] at h ⊢
      · rw [if_neg h0] at h ⊢
        obtain ⟨⟨s, h₁⟩, hs, h⟩ := bind_eq_ok.mp h
        cases s with
        | none => cases h
        | some s =>
          obtain ⟨⟨rest, h₂⟩, hrest, h⟩ := bind_eq_ok.mp h
          cases rest with
          | none => cases h
          | some rest =>
            rw [hcopy count e heap s h₁ hv he h0 hs, ok_bind]
            dsimp only
            rw [ih hrest, ok_bind]
            exact h
    · rw [if_pos hv] at h
      cases h

/-- From slot `count` on, a 0 is met before a check or the copy of a string fails. -/
def EndAhead (valid : Nat → Bool) (word : Nat → Int) (str : Int → Prop) (n count : Nat) : Prop :=
  ∃ j, count ≤ j ∧ j ≤ count + n ∧ word j = 0 ∧ (∀ i, count ≤ i → i ≤ j → valid i = true) ∧
    ∀ i, count ≤ i → i < j → str (word i)

variable (valid load copy heap) in
theorem copySlots_spec (word : Nat → Int) (str : Int → Prop)
    (hload : ∀ i ≤ count + n, valid i = true → load i = .ok (word i))
    (hcopy : ∀ i h, word i ≠ 0 → Ends (copy (word i) h) (fun r =>
      (HeapOk h → HeapMovesBy h r.2 80) ∧ (r.1.isSome = true ↔ str (word i))) (Exhausted h 80)) :
    Ends (copySlots valid load copy n count heap)
      (fun r => (HeapOk heap → HeapMovesBy heap r.2 (80 * n)) ∧
        (r.1.isSome = true ↔ EndAhead valid word str n count))
      (Exhausted heap (80 * n)) := by
  unfold EndAhead
  induction n generalizing count heap with
  | zero =>
    rw [copySlots]
    by_cases hv : valid count = true
    · rw [if_neg (not_not.mpr hv), hload count (by omega) hv, ok_bind]
      by_cases hw : word count = 0
      · rw [if_neg (not_not.mpr hw)]
        refine ⟨fun hok => HeapMovesBy.refl hok _, ?_⟩
        simp only [Option.isSome_some, true_iff]
        refine ⟨count, le_refl _, le_refl _, hw, fun i h1 h2 => ?_, fun i h1 h2 => by omega⟩
        rwa [show i = count by omega]
      · rw [if_pos hw]
        refine ⟨fun hok => HeapMovesBy.refl hok _, ?_⟩
        simp only [Option.isSome_none, Bool.false_eq_true, false_iff]
        rintro ⟨j, h1, h2, hj, -⟩
        exact hw ((show j = count by omega) ▸ hj)
    · rw [if_pos hv]
      refine ⟨fun hok => HeapMovesBy.refl hok _, ?_⟩
      simp only [Option.isSome_none, Bool.false_eq_true, false_iff]
      rintro ⟨j, h1, -, -, hall, -⟩
      exact hv (hall count (le_refl _) h1)
  | succ n ih =>
    rw [copySlots]
    by_cases hv : valid count = true
    · rw [if_neg (not_not.mpr hv), hload count (by omega) hv, ok_bind]
      by_cases hw : word count = 0
      · rw [if_pos hw]
        refine ⟨fun hok => HeapMovesBy.refl hok _, ?_⟩
        simp only [Option.isSome_some, true_iff]
        refine ⟨count, le_refl _, by omega, hw, fun i h1 h2 => ?_, fun i h1 h2 => by omega⟩
        rwa [show i = count by omega]
      · rw [if_neg hw]
        refine ends_bind ((hcopy count heap hw).mono (fun _ h => h)
          fun _ he => he.mono (by omega)) ?_
        rintro ⟨s, h₁⟩ ⟨hm, hs⟩
        dsimp only at hm hs
        -- an end further on needs this slot to point to a string
        have hfirst : ∀ j, count ≤ j → word j = 0 → count < j := by
          intro j hj hj0
          rcases Nat.eq_or_lt_of_le hj with rfl | hlt
          · exact absurd hj0 hw
          · exact hlt
        cases s with
        | none =>
          refine ⟨fun hok => (hm hok).mono (by omega), ?_⟩
          simp only [Option.isSome_none, Bool.false_eq_true, false_iff] at hs ⊢
          rintro ⟨j, h1, -, hj, -, hstr⟩
          exact hs (hstr count (le_refl _) (hfirst j h1 hj))
        | some s =>
          simp only [Option.isSome_some, true_iff] at hs
          refine ends_bind ((@ih h₁ (count + 1) fun i hi => hload i (by omega)).mono (fun _ h => h) fun e he => ?_) ?_
          · refine ⟨he.1, fun hok => ?_⟩
            have := he.2 (hm hok).1.1
            have := (hm hok).2
            have := (hm hok).1.2.stop
            omega
          · rintro ⟨rest, h₂⟩ ⟨hm', hrest⟩
            refine ⟨fun hok => ((hm hok).trans (hm' (hm hok).1.1)).mono (by omega), ?_⟩
            rw [Option.isSome_map, hrest]
            constructor
            · rintro ⟨j, h1, h2, hj, hall, hstr⟩
              refine ⟨j, by omega, by omega, hj, fun i hi hij => ?_, fun i hi hij => ?_⟩
              · rcases Nat.eq_or_lt_of_le hi with rfl | hlt
                · exact hv
                · exact hall i hlt hij
              · rcases Nat.eq_or_lt_of_le hi with rfl | hlt
                · exact hs
                · exact hstr i hlt hij
            · rintro ⟨j, h1, h2, hj, hall, hstr⟩
              exact ⟨j, hfirst j h1 hj, by omega, hj, fun i hi hij => hall i (by omega) hij,
                fun i hi hij => hstr i (by omega) hij⟩
    · rw [if_pos hv]
      refine ⟨fun hok => HeapMovesBy.refl hok _, ?_⟩
      simp only [Option.isSome_none, Bool.false_eq_true, false_iff]
      rintro ⟨j, h1, -, -, hall, -⟩
      exact hv (hall count (le_refl _) h1)

end Slots

/-! ## What a task sees -/

/-- The byte lies in the image, in the heap below the break or in the stack. -/
def Accessible (row : Task) (x : Nat) : Prop := InOneArea row x 1

/-- Memory at the addresses of a task: bytes where it is mapped, faults elsewhere. The accessible
    bytes are mapped. -/
structure View (row : Task) where
  bytes : Mem
  mapped : Nat → Bool
  present : ∀ x, Accessible row x → mapped x = true

def View.read {row : Task} (v : View row) : Reader :=
  fun x => if v.mapped x then .ok (v.bytes x) else .error "page fault"

theorem View.read_ok {row : Task} (v : View row) {x : Nat} (h : Accessible row x) :
    v.read x = .ok (v.bytes x) :=
  if_pos (v.present x h)

/-- The signed value of slot `i` of the array at `p`. -/
def slotValue (m : Mem) (p : Int) (i : Nat) : Int := wrap (loadQword m (p + 8 * i).toNat)

/-- There is a NUL in the first 64 bytes at `e`, and they are one buffer up to it. -/
def StringAt (row : Task) (m : Mem) (e : Int) : Prop :=
  ∃ l : Nat, l < 64 ∧ m (e + l).toNat = 0 ∧ InOneArea row e (l + 1)

/-- The vector at `p` ends within `n` slots and its strings within 64 bytes, all of it accessible. -/
def VectorAt (row : Task) (m : Mem) (p : Int) (n : Nat) : Prop :=
  p ≠ 0 ∧ p % 8 = 0 ∧ ∃ j ≤ n, slotValue m p j = 0 ∧ (∀ i : Nat, i ≤ j → InOneArea row (p + 8 * i) 8) ∧
    ∀ i < j, StringAt row m (slotValue m p i)

/-! ## Rows of user tasks -/

/-- What the copies rely on in the row of a user task. -/
structure UserRow (row : Task) : Prop where
  layout : Layout row
  base : row.userBase = userTaskRegionBase
  limit : row.userLimit < 2 ^ 62

theorem MemInv.userRow {P : Pool} {k : KernelState} {sk : Shape} {S : TaskId → Shape}
    (hk : KernelOk k) (h : MemInv P k sk S) {t : TaskId} (ht : IsUser (k.task t)) :
    UserRow (k.task t) := by
  have hs := h.user t ht
  have hbase := hk.base t ht.2
  have hl := hs.fits.length.2
  refine ⟨hs.layout hbase, hbase, ?_⟩
  rw [hs.limit]
  unfold userTaskRegionBase userPageSize
  omega

theorem addr_wrap (x : Int) : addr (wrap x) = addr x := by
  unfold addr wrap
  omega

theorem addr_ne_zero {x : Int} (hx : IsInt64 x) (h0 : x ≠ 0) : addr x ≠ 0 := by
  unfold IsInt64 at hx
  unfold addr
  omega

theorem isInt64_wrap (x : Int) : IsInt64 (wrap x) := wrap_range x

/-- The copy for kernel callers does what the copy for user tasks does. -/
theorem syscallCopyUserCstring_kernel {row : Task} {read : Reader} {e : Int} (he : IsInt64 e)
    {heap heap' : Heap} {bytes : Bytes}
    (h : syscallCopyUserCstring row read e heap = .ok (some bytes, heap')) :
    syscallCopyKernelCstring read e heap = .ok (some bytes, heap') := by
  unfold syscallCopyUserCstring at h
  by_cases h0 : e = 0
  · rw [if_pos h0] at h
    cases h
  rw [if_neg h0] at h
  have hne := addr_ne_zero he h0
  have hload : ∀ l < 0 + syscallExecMaxString, ∀ i ≤ l,
      readByteRegion read e (l + 1 : Int) i =
        readByteRegion read e (syscallExecMaxString + 1 : Int) i := by
    intro l hl i hi
    unfold syscallExecMaxString at hl ⊢
    unfold readByteRegion
    rw [checkByteRegion_ok hne (by omega) (by omega), checkByteRegion_ok hne (by omega) (by omega)]
  unfold syscallCopyKernelCstring
  rw [← Syscall.copyCstring_congr fun l hl _ i hi => hload l hl i hi]
  exact copyCstring_relax h

theorem readQwordRegion_int64 {read : Reader} {base count slot e : Int}
    (h : readQwordRegion read base count slot = .ok e) : IsInt64 e := by
  unfold readQwordRegion at h
  obtain ⟨-, -, h⟩ := bind_eq_ok.mp h
  obtain ⟨bytes, -, h⟩ := bind_eq_ok.mp h
  rw [← Except.ok.inj h]
  exact isInt64_wrap _

theorem syscallCopyUserExecVector_kernel {row : Task} {read : Reader} {p : Int} {n : Nat}
    {heap heap' : Heap} {strings : List Bytes}
    (h : syscallCopyUserExecVector row read p n heap = .ok (some strings, heap')) :
    syscallCopyKernelExecVector read p n heap = .ok (some strings, heap') := by
  unfold syscallCopyUserExecVector at h
  by_cases h0 : p = 0
  · rw [if_pos h0] at h
    cases h
  by_cases h8 : p % 8 ≠ 0
  · rw [if_neg h0, if_pos h8] at h
    cases h
  rw [if_neg h0, if_neg h8] at h
  unfold syscallCopyKernelExecVector
  rw [if_neg h0]
  obtain ⟨⟨vec, h₁⟩, ha, h⟩ := bind_eq_ok.mp h
  rw [ha, ok_bind]
  exact copySlots_relax (fun _ _ _ _ _ _ he _ hs =>
    syscallCopyUserCstring_kernel (readQwordRegion_int64 he) hs) h

section Rows

variable {row : Task} (hrow : UserRow row)
include hrow

/-- The pointer check accepts the ranges inside one area. -/
theorem UserRow.valid_iff {ptr length : Int} (hp : IsInt64 ptr) (h1 : 0 < length)
    (h64 : length ≤ 64) : syscallValidateUserBuffer row ptr length = true ↔
      InOneArea row ptr length := by
  have hl := hrow.limit
  have hlen : IsInt64 length := by
    unfold IsInt64
    omega
  constructor
  · intro h
    obtain ⟨hlo, -, hhi, hw⟩ := syscallValidateUserBuffer_range hp hlen h
    unfold syscallValidateUserBuffer at h
    dsimp only at h
    rw [hw] at h
    unfold InOneArea
    split_ifs at h with c1 c2 c3 c4 c5 c6 c7
    · omega
    · omega
    · rw [decide_eq_true_eq] at h
      omega
  · exact syscallValidateUserBuffer_complete hrow.layout hrow.base (by omega) (by omega)

/-- A range inside an area has positive addresses below the limit. -/
theorem UserRow.range {ptr length : Int} (h : InOneArea row ptr length) :
    0 < ptr ∧ ptr + length ≤ row.userLimit := by
  obtain ⟨⟨l1, l2, l3, l4, l5⟩, hb, -⟩ := hrow
  unfold userTaskRegionBase at hb
  unfold InOneArea at h
  omega

theorem UserRow.accessible {ptr length : Int} (h : InOneArea row ptr length) {i : Nat}
    (hi : (i : Int) < length) : addr (ptr + i) = (ptr + i).toNat ∧ Accessible row (ptr + i).toNat := by
  obtain ⟨hpos, hend⟩ := hrow.range h
  have hlim := hrow.limit
  refine ⟨addr_of_nonneg (by omega) (by omega), ?_⟩
  unfold Accessible
  rw [Int.toNat_of_nonneg (by omega)]
  unfold InOneArea at h ⊢
  omega

theorem UserRow.byte (v : View row) {e count : Int} {l i : Nat} (h : InOneArea row e (l + 1))
    (hi : i ≤ l) (hc : (i : Int) < count) :
    readByteRegion v.read e count i = .ok (v.bytes (e + i).toNat) := by
  obtain ⟨hpos, hend⟩ := hrow.range h
  have hlim := hrow.limit
  obtain ⟨ha, hacc⟩ := hrow.accessible h (i := i) (by omega)
  unfold readByteRegion
  rw [checkByteRegion_ok (addr_ne_zero (by unfold IsInt64; omega) (by omega)) (by omega) hc,
    ok_bind, ha, v.read_ok hacc]

theorem UserRow.slotRun (v : View row) {p : Int} {i : Nat}
    (h : InOneArea row (wrap (p + i * 8)) 8) :
    readRun (fun j => v.read (addr (p + 8 * i) + j)) 0 8 =
      .ok (loadBytes v.bytes (wrap (p + i * 8)).toNat 8) := by
  obtain ⟨hpos, hend⟩ := hrow.range h
  have hlim := hrow.limit
  have haddr : addr (p + 8 * i) = (wrap (p + i * 8)).toNat := by
    rw [show p + 8 * (i : Int) = p + i * 8 by omega, ← addr_wrap]
    exact addr_of_nonneg (by omega) (by omega)
  rw [haddr, readRun_ok (m := v.bytes) (a := (wrap (p + i * 8)).toNat) fun j _ hj => ?_,
    Nat.add_zero]
  have hacc := (hrow.accessible h (i := j) (by omega)).2
  rw [show (wrap (p + i * 8) + j).toNat = (wrap (p + i * 8)).toNat + j by omega] at hacc
  exact v.read_ok hacc

theorem UserRow.slot (v : View row) {p : Int} (hp : IsInt64 p) (h0 : p ≠ 0) (h8 : p % 8 = 0)
    {n i : Nat} (hi : i ≤ n) (h : InOneArea row (wrap (p + i * 8)) 8) :
    readQwordRegion v.read p (n + 1) i = .ok (wrap (loadQword v.bytes (wrap (p + i * 8)).toNat)) := by
  have h8' : addr p % 8 = 0 := by
    unfold addr
    omega
  unfold readQwordRegion
  rw [checkQwordRegion_ok (addr_ne_zero hp h0) h8' (by omega) (by omega), ok_bind, hrow.slotRun v h,
    ok_bind, bytesValue_loadBytes]

theorem UserRow.slot_congr {v v' : View row}
    (hagree : ∀ x, Accessible row x → v'.bytes x = v.bytes x) {p count : Int} {i : Nat}
    (h : InOneArea row (wrap (p + i * 8)) 8) :
    readQwordRegion v'.read p count i = readQwordRegion v.read p count i := by
  have hbytes : loadBytes v'.bytes (wrap (p + i * 8)).toNat 8 =
      loadBytes v.bytes (wrap (p + i * 8)).toNat 8 := by
    refine loadBytes_congr fun j hj => hagree _ ?_
    have hacc := (hrow.accessible h (i := j) (by omega)).2
    have := (hrow.range h).1
    rwa [show (wrap (p + i * 8) + j).toNat = (wrap (p + i * 8)).toNat + j by omega] at hacc
  unfold readQwordRegion
  rw [hrow.slotRun v h, hrow.slotRun v' h, hbytes]

/-! ## The copy of a string -/

theorem UserRow.copyCstring_congr {v v' : View row}
    (hagree : ∀ x, Accessible row x → v'.bytes x = v.bytes x) {e : Int} (he : IsInt64 e)
    (heap : Heap) :
    syscallCopyUserCstring row v'.read e heap = syscallCopyUserCstring row v.read e heap := by
  unfold syscallCopyUserCstring
  split_ifs
  · rfl
  · refine Syscall.copyCstring_congr fun l hl hv i hi => ?_
    unfold syscallExecMaxString at hl
    have harea := (hrow.valid_iff he (by omega) (by omega)).mp hv
    have hacc := (hrow.accessible harea (i := i) (by omega)).2
    rw [hrow.byte v' harea hi (by omega), hrow.byte v harea hi (by omega), hagree _ hacc]

theorem UserRow.copyCstring_spec (v : View row) {e : Int} (he : IsInt64 e) (heap : Heap) :
    Ends (syscallCopyUserCstring row v.read e heap)
      (fun r => (HeapOk heap → HeapMovesBy heap r.2 80) ∧
        (r.1.isSome = true ↔ StringAt row v.bytes e)) (Exhausted heap 80) := by
  unfold syscallCopyUserCstring
  split_ifs with h0
  · refine ⟨fun hok => HeapMovesBy.refl hok _, ?_⟩
    simp only [Option.isSome_none, Bool.false_eq_true, false_iff]
    rintro ⟨l, -, -, harea⟩
    have := (hrow.range harea).1
    omega
  · refine (Syscall.copyCstring_spec (fun i => v.bytes (e + i).toNat)
      (fun l hl hv i hi => ?_) (by decide)).imp fun r hr => ⟨hr.1, hr.2.trans ?_⟩
    · have harea := (hrow.valid_iff he (by omega) (by omega)).mp hv
      exact hrow.byte v harea hi (by omega)
    · unfold NulAhead StringAt syscallExecMaxString
      constructor
      · rintro ⟨l, -, hl, hb, hall⟩
        exact ⟨l, by omega, hb, (hrow.valid_iff he (by omega) (by omega)).mp
          (hall l (Nat.zero_le l) (le_refl l))⟩
      · rintro ⟨l, hl, hb, harea⟩
        refine ⟨l, Nat.zero_le l, by omega, hb, fun l' _ hl' => ?_⟩
        refine (hrow.valid_iff he (by omega) (by omega)).mpr ?_
        unfold InOneArea at harea ⊢
        omega

/-! ## The copy of a vector -/

/-- The slots are accepted one after the other as long as they are accessible, and their
    addresses do not wrap. -/
theorem UserRow.slots_iff {p : Int} (hp : IsInt64 p) (j : Nat) :
    (∀ i : Nat, i ≤ j → syscallValidateUserBuffer row (wrap (p + i * 8)) 8 = true) ↔
      ∀ i : Nat, i ≤ j → InOneArea row (p + 8 * i) 8 := by
  have hlim := hrow.limit
  unfold IsInt64 at hp
  -- a slot in an area leaves room for the address of the next one
  have hwrap : ∀ i : Nat, (i = 0 ∨ InOneArea row (p + 8 * (i - 1 : Nat)) 8) →
      wrap (p + i * 8) = p + 8 * i := by
    rintro i (rfl | hprev)
    · rw [wrap_of_range (by omega) (by omega)]
      omega
    · have := hrow.range hprev
      rw [wrap_of_range (by omega) (by omega)]
      omega
  induction j with
  | zero =>
    have h0 := hwrap 0 (Or.inl rfl)
    constructor
    · intro h i hi
      rw [← show wrap (p + (0 : Nat) * 8) = p + 8 * i by rw [h0]; omega]
      exact (hrow.valid_iff (isInt64_wrap _) (by omega) (by omega)).mp (h 0 (le_refl 0))
    · intro h i hi
      obtain rfl : i = 0 := by omega
      rw [h0]
      exact (hrow.valid_iff (by unfold IsInt64; omega) (by omega) (by omega)).mpr (h 0 (le_refl 0))
  | succ j ih =>
    constructor
    · intro h
      have hprev := ih.mp fun i hi => h i (by omega)
      intro i hi
      rcases Nat.lt_or_ge i (j + 1) with hlt | hge
      · exact hprev i (by omega)
      · have hw := hwrap i (Or.inr (hprev (i - 1) (by omega)))
        have hv := h i hi
        rw [hw] at hv
        refine (hrow.valid_iff ?_ (by omega) (by omega)).mp hv
        rw [← hw]
        exact isInt64_wrap _
    · intro h i hi
      have hw : wrap (p + i * 8) = p + 8 * i := by
        refine hwrap i ?_
        rcases Nat.eq_zero_or_pos i with h0 | h0
        · exact Or.inl h0
        · exact Or.inr (h (i - 1) (by omega))
      refine (hrow.valid_iff (isInt64_wrap _) (by omega) (by omega)).mpr ?_
      rw [hw]
      exact h i hi

theorem UserRow.copyVector_congr {v v' : View row}
    (hagree : ∀ x, Accessible row x → v'.bytes x = v.bytes x) (p : Int) (n : Nat) (heap : Heap) :
    syscallCopyUserExecVector row v'.read p n heap = syscallCopyUserExecVector row v.read p n heap := by
  have hslots : ∀ h, copySlots (fun i => syscallValidateUserBuffer row (wrap (p + i * 8)) 8)
      (fun i => readQwordRegion v'.read p (n + 1) i) (syscallCopyUserCstring row v'.read) n 0 h =
      copySlots (fun i => syscallValidateUserBuffer row (wrap (p + i * 8)) 8)
      (fun i => readQwordRegion v.read p (n + 1) i) (syscallCopyUserCstring row v.read) n 0 h := by
    refine fun h => copySlots_congr (fun i hv => hrow.slot_congr hagree ?_) fun i e h he => ?_
    · exact (hrow.valid_iff (isInt64_wrap _) (by omega) (by omega)).mp hv
    · exact hrow.copyCstring_congr hagree (readQwordRegion_int64 he) h
  unfold syscallCopyUserExecVector
  simp only [hslots]

/-- The loop over the slots ends well exactly when the slots up to a 0 are accessible and lead to
    strings. -/
theorem UserRow.endAhead_iff (m : Mem) {p : Int} (hp : IsInt64 p) (n : Nat) :
    EndAhead (fun i => syscallValidateUserBuffer row (wrap (p + i * 8)) 8)
        (fun i => wrap (loadQword m (wrap (p + i * 8)).toNat)) (StringAt row m) n 0 ↔
      ∃ j ≤ n, slotValue m p j = 0 ∧ (∀ i : Nat, i ≤ j → InOneArea row (p + 8 * i) 8) ∧
        ∀ i < j, StringAt row m (slotValue m p i) := by
  have hlim := hrow.limit
  have hword : ∀ i : Nat, InOneArea row (p + 8 * i) 8 →
      wrap (loadQword m (wrap (p + i * 8)).toNat) = slotValue m p i := by
    intro i h
    have := hrow.range h
    unfold slotValue
    rw [wrap_of_range (x := p + i * 8) (by omega) (by omega),
      show p + (i : Int) * 8 = p + 8 * i by omega]
  unfold EndAhead
  refine exists_congr fun j => ?_
  constructor
  · rintro ⟨-, hj, h0, hall, hstr⟩
    have harea := (hrow.slots_iff hp j).mp fun i hi => hall i (Nat.zero_le i) hi
    refine ⟨by omega, (hword j (harea j (le_refl j))).symm.trans h0, harea, fun i hi => ?_⟩
    rw [← hword i (harea i hi.le)]
    exact hstr i (Nat.zero_le i) hi
  · rintro ⟨hj, h0, harea, hstr⟩
    have hall := (hrow.slots_iff hp j).mpr harea
    refine ⟨Nat.zero_le j, by omega, (hword j (harea j (le_refl j))).trans h0,
      fun i _ hi => hall i hi, fun i _ hi => ?_⟩
    have := hstr i hi
    rwa [← hword i (harea i hi.le)] at this

theorem UserRow.copyVector_spec (v : View row) {p : Int} (hp : IsInt64 p) (n : Nat) {heap : Heap}
    (hok : HeapOk heap) :
    Ends (syscallCopyUserExecVector row v.read p n heap)
      (fun r => (wrap (n * 16) = n * 16 → HeapMovesBy heap r.2 (96 * n + 16)) ∧
        (r.1.isSome = true ↔ VectorAt row v.bytes p n))
      (fun e => e = "early heap exhausted" ∧ heap.stop < heap.ptr + 96 * n + 16) := by
  unfold syscallCopyUserExecVector VectorAt
  by_cases h0 : p = 0
  · rw [if_pos h0]
    exact ⟨fun _ => HeapMovesBy.refl hok _, by simp [h0]⟩
  by_cases h8 : p % 8 ≠ 0
  · rw [if_neg h0, if_pos h8]
    exact ⟨fun _ => HeapMovesBy.refl hok _, by simp [h8]⟩
  rw [if_neg h0, if_neg h8]
  have h8 := not_not.mp h8
  have hstop := hok.stop_lt
  -- a vector whose size wraps does not fit the heap
  have hsize : wrap (n * 16) = n * 16 ∨ heap.stop < heap.ptr + 96 * n + 16 := by
    rcases Nat.lt_or_ge (n * 16) (2 ^ 63) with h | h
    · exact Or.inl (wrap_of_range (by omega) (by omega))
    · exact Or.inr (by omega)
  refine ends_bind (P := fun r => wrap (n * 16) = n * 16 → HeapMovesBy heap r.2 (16 * n + 16)) ?_ ?_
  · cases ha : allocBytes heap (wrap (n * 16)) with
    | error e =>
      refine ⟨allocBytes_error ha, ?_⟩
      rcases hsize with hw | hshort
      · rw [hw] at ha
        have := (allocBytes_spec hok (by omega)).of_error ha
        omega
      · exact hshort
    | ok r =>
      intro hw
      rw [hw] at ha
      obtain ⟨-, hok', hg, -, hlt⟩ := (allocBytes_spec hok (by omega)).of_ok ha
      exact ⟨⟨hok', hg⟩, by omega⟩
  · rintro ⟨vec, h₁⟩ hm
    dsimp only at hm ⊢
    have hslot : ∀ i ≤ 0 + n, syscallValidateUserBuffer row (wrap (p + i * 8)) 8 = true →
        readQwordRegion v.read p (n + 1) i =
          .ok (wrap (loadQword v.bytes (wrap (p + i * 8)).toNat)) := fun i hi hv =>
      hrow.slot v hp h0 h8 (by omega)
        ((hrow.valid_iff (isInt64_wrap _) (by omega) (by omega)).mp hv)
    have hspec := copySlots_spec _ _ (syscallCopyUserCstring row v.read) h₁ _ (StringAt row v.bytes)
      hslot fun i h _ => by
        have hint := isInt64_wrap (loadQword v.bytes (wrap (p + i * 8)).toNat)
        generalize wrap (loadQword v.bytes (wrap (p + i * 8)).toNat) = e at hint ⊢
        exact hrow.copyCstring_spec v hint h
    refine hspec.mono (fun r hr => ⟨fun hw => ?_, hr.2.trans ?_⟩) fun e he => ⟨he.1, ?_⟩
    · exact ((hm hw).trans (hr.1 (hm hw).1.1)).mono (by omega)
    · exact hrow.endAhead_iff v.bytes hp n |>.trans (by simp [h0, h8])
    · rcases hsize with hw | hshort
      · have hmoves := hm hw
        have := he.2 hmoves.1.1
        have := hmoves.2
        have := hmoves.1.2.stop
        omega
      · exact hshort

end Rows

/-- For every user task, whatever memory it sees: the copy of the vector at `p` is the same on any
    two memories that agree on the accessible bytes; when it succeeds, the copy for kernel callers
    returns the same strings on the same memory; and it succeeds exactly when `p` is an aligned
    array that ends within `n` slots, all of it accessible, whose slots in front of the 0 lead to
    strings that end within 64 bytes, each accessible as one buffer. It stops for lack of early
    heap only. -/
theorem exec_vector_copy {M : Machine} {k : KernelState} (h : Reachable M k) {t : TaskId}
    (ht : IsUser (k.task t)) (v : View (k.task t)) {p : Int} (hp : IsInt64 p) (n : Nat) {heap : Heap}
    (hok : HeapOk heap) :
    (∀ v' : View (k.task t), (∀ x, Accessible (k.task t) x → v'.bytes x = v.bytes x) →
        syscallCopyUserExecVector (k.task t) v'.read p n heap =
          syscallCopyUserExecVector (k.task t) v.read p n heap) ∧
      (∀ strings heap',
        syscallCopyUserExecVector (k.task t) v.read p n heap = .ok (some strings, heap') →
        syscallCopyKernelExecVector v.read p n heap = .ok (some strings, heap')) ∧
      Ends (syscallCopyUserExecVector (k.task t) v.read p n heap)
        (fun r => r.1.isSome = true ↔ VectorAt (k.task t) v.bytes p n)
        (fun e => e = "early heap exhausted" ∧ heap.stop < heap.ptr + 96 * n + 16) := by
  obtain ⟨sk, S, hm⟩ := h.memInv
  have hrow := MemInv.userRow h.kernelOk hm ht
  exact ⟨fun v' hagree => hrow.copyVector_congr hagree p n heap,
    fun strings heap' he => syscallCopyUserExecVector_kernel he,
    (hrow.copyVector_spec v hp n hok).imp fun _ hr => hr.2⟩

/-- An array of two pointers, which ends with 0, and the strings `ls` and `-a` behind it. -/
def argBytes : Bytes :=
  [24, 0, 0, 0x20, 0, 0, 0, 0, 27, 0, 0, 0x20, 0, 0, 0, 0, 0, 0, 0, 0, 0, 0, 0, 0,
    108, 115, 0, 45, 97, 0]

/-- These bytes at the user base. -/
@[irreducible] def argMem : Mem := fun x => argBytes.getD (x - 0x20000000) 0

/-- A task that sees these bytes. -/
def argView (row : Task) : View row := ⟨argMem, fun _ => true, fun _ _ => rfl⟩

/-- The first program passes `ls -a`. -/
theorem exec_vector_copy_small : ∃ (k : KernelState) (t : TaskId) (v : View (k.task t)) (heap : Heap),
    Reachable smallMachine k ∧ IsUser (k.task t) ∧
    syscallCopyUserExecVector (k.task t) v.read 0x20000000 8 ⟨16, 4096, fun _ => 0⟩ =
      .ok (some [[108, 115], [45, 97]], heap) := by
  obtain ⟨k, hr, hu⟩ := smallMachine_runs
  obtain ⟨sk, S, hm⟩ := hr.memInv
  have hs := hm.user _ hu.user
  have hbase := hr.kernelOk.base _ hu.user.2
  have hread : (argView (k.task k.current)).read = fun x => .ok (argMem x) := by
    funext x
    unfold View.read argView
    exact if_pos rfl
  have hp : IsInt64 0x20000000 := ⟨by decide, by decide⟩
  have hok : HeapOk ⟨16, 4096, fun _ => 0⟩ := ⟨by decide, by decide, by decide, by decide⟩
  obtain ⟨-, hkernel, hcopy⟩ := exec_vector_copy hr hu.user (argView _) hp 8 hok
  -- the bytes lie in the page of the image
  have harea : ∀ ptr length : Int, 0x20000000 ≤ ptr → ptr + length ≤ 0x20000000 + 4096 →
      InOneArea (k.task k.current) ptr length := by
    intro ptr length hlo hhi
    have hheap := hs.heapBase
    have hlen := hs.fits.length.1
    unfold userTaskRegionBase at hbase hheap
    unfold userPageSize at hheap
    exact Or.inl ⟨by omega, by omega⟩
  have hvector : VectorAt (k.task k.current) argMem 0x20000000 8 := by
    refine ⟨by decide, by decide, 2, by decide, by decide +kernel,
      fun i hi => harea _ _ (by omega) (by omega), fun i hi => ?_⟩
    have hslot : slotValue argMem 0x20000000 0 = 0x20000018 ∧
        slotValue argMem 0x20000000 1 = 0x2000001B := by decide +kernel
    rcases (show i = 0 ∨ i = 1 by omega) with rfl | rfl
    · rw [hslot.1]
      exact ⟨2, by decide, by decide +kernel, harea _ _ (by decide) (by decide)⟩
    · rw [hslot.2]
      exact ⟨2, by decide, by decide +kernel, harea _ _ (by decide) (by decide)⟩
  obtain ⟨⟨strings, heap⟩, he, hiff⟩ := hcopy.exists_ok fun e he => by
    have hroom := he.2
    dsimp only at hroom
    omega
  obtain ⟨strings, rfl⟩ := Option.isSome_iff_exists.mp (hiff.mpr hvector)
  have hstrings := hkernel strings heap he
  rw [hread] at hstrings
  obtain ⟨b, hb⟩ := exists_ok_of_isOk (x := do
    let r ← syscallCopyKernelExecVector (fun x => .ok (argMem x)) 0x20000000 8
      ⟨16, 4096, fun _ => 0⟩
    if r.1 = some [[108, 115], [45, 97]] then .ok () else .error "") (by decide +kernel)
  obtain ⟨r, hval, hb⟩ := bind_eq_ok.mp hb
  cases hstrings.symm.trans hval
  split_ifs at hb with hsame
  cases hsame
  exact ⟨k, k.current, argView _, heap, hr, hu.user, he⟩

end PcoOs.Syscall
