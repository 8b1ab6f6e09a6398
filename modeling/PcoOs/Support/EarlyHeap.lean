/-
  `seq_alloc_atomic` in 64-bit arithmetic: both the rounding of the size and the end of the block
  may wrap before the one comparison with `heap_end`. `alloc_safe_iff`: a run of calls hands out
  disjoint blocks of the heap exactly when neither sum ever wraps. `allocBytes_seqAlloc` connects
  it to `allocBytes`, which the rest of the kernel is modelled with.
-/
import PcoOs.Support.Heap

namespace PcoOs.Support

open PcoOs.Lib

/-- Where the linker put `heap_space`; `heap_end` comes 262144 bytes later. -/
structure Layout where
  heapSpace : Nat
  aligned : heapSpace % 16 = 0
  pos : 0 < heapSpace
  fits : heapSpace + 262144 < 2 ^ 64

def Layout.heapEnd (L : Layout) : Nat := L.heapSpace + 262144

/-- The block, 0 for none, and the new `heap_ptr`. The names are those of the registers; a
    `heap_ptr` of 0 was not set yet. -/
def seqAllocAtomic (L : Layout) (heapPtr : Nat) (size : UInt64) : Nat × Nat :=
  let rax := if heapPtr ≠ 0 then heapPtr else L.heapSpace
  let rcx := alignDown ((size.toNat + 15) % 2 ^ 64) 16
  let rdx := (rax + rcx) % 2 ^ 64
  if rdx > L.heapEnd then (0, heapPtr) else (rax, rdx)

/-- `heap_ptr` and a record of the blocks handed out, with their sizes. -/
structure EarlyHeap where
  heapPtr : Nat
  blocks : List (Nat × Nat)

/-- Before the first call, with or without `seq_init`. -/
def EarlyHeap.start (L : Layout) (seqInit : Bool) : EarlyHeap :=
  ⟨if seqInit then L.heapSpace else 0, []⟩

def seqAllocCall (L : Layout) (s : EarlyHeap) (size : UInt64) : Nat × EarlyHeap :=
  let (p, heapPtr) := seqAllocAtomic L s.heapPtr size
  (p, ⟨heapPtr, if p = 0 then s.blocks else (p, size.toNat) :: s.blocks⟩)

/-! ## What a call should do -/

/-- Where the free part of the heap starts. -/
def EarlyHeap.next (L : Layout) (s : EarlyHeap) : Nat :=
  if s.heapPtr ≠ 0 then s.heapPtr else L.heapSpace

/-- The size rounded up to a multiple of 16, without a bound. -/
def rounded (size : UInt64) : Nat := alignDown (size.toNat + 15) 16

/-- The block is an aligned part of the heap apart from all earlier ones, there is none only when
    there is no room, and `heap_ptr` does not go back. -/
structure CallOk (L : Layout) (s : EarlyHeap) (size : UInt64) : Prop where
  aligned : (seqAllocCall L s size).1 ≠ 0 → (seqAllocCall L s size).1 % 16 = 0
  inside : (seqAllocCall L s size).1 ≠ 0 → L.heapSpace ≤ (seqAllocCall L s size).1 ∧
    (seqAllocCall L s size).1 + size.toNat ≤ L.heapEnd
  apart : (seqAllocCall L s size).1 ≠ 0 → ∀ b ∈ s.blocks,
    Disjoint (Set.Ico (seqAllocCall L s size).1 ((seqAllocCall L s size).1 + size.toNat))
      (Set.Ico b.1 (b.1 + b.2))
  null : (seqAllocCall L s size).1 = 0 ↔ L.heapEnd < s.next L + rounded size
  grows : s.heapPtr ≤ (seqAllocCall L s size).2.heapPtr

/-- All calls of a run do. -/
def RunOk (L : Layout) : EarlyHeap → List UInt64 → Prop
  | _, [] => True
  | s, size :: sizes => CallOk L s size ∧ RunOk L (seqAllocCall L s size).2 sizes

/-- Neither sum of a call wraps. -/
def NoWrap (L : Layout) (s : EarlyHeap) (size : UInt64) : Prop :=
  size.toNat + 15 < 2 ^ 64 ∧ s.next L + rounded size < 2 ^ 64

/-- No call of a run wraps. -/
def NeverWraps (L : Layout) : EarlyHeap → List UInt64 → Prop
  | _, [] => True
  | s, size :: sizes => NoWrap L s size ∧ NeverWraps L (seqAllocCall L s size).2 sizes

/-! ## One call -/

structure EarlyHeapInv (L : Layout) (s : EarlyHeap) : Prop where
  aligned : s.next L % 16 = 0
  low : L.heapSpace ≤ s.next L
  high : s.next L ≤ L.heapEnd
  below : ∀ b ∈ s.blocks, b.1 + b.2 ≤ s.next L

theorem EarlyHeapInv.start (L : Layout) (seqInit : Bool) :
    EarlyHeapInv L (EarlyHeap.start L seqInit) := by
  have hnext : (EarlyHeap.start L seqInit).next L = L.heapSpace := by
    have := L.pos
    unfold EarlyHeap.next EarlyHeap.start
    cases seqInit
    · simp
    · simp
  refine ⟨?_, ?_, ?_, fun b hb => by cases hb⟩
  · rw [hnext]
    exact L.aligned
  · rw [hnext]
  · rw [hnext]
    exact Nat.le_add_right _ _

section Call

variable {L : Layout} {s : EarlyHeap} {size : UInt64}

theorem seqAllocAtomic_eq (L : Layout) (s : EarlyHeap) (size : UInt64) :
    seqAllocAtomic L s.heapPtr size =
      if (s.next L + alignDown ((size.toNat + 15) % 2 ^ 64) 16) % 2 ^ 64 > L.heapEnd then
        (0, s.heapPtr)
      else (s.next L, (s.next L + alignDown ((size.toNat + 15) % 2 ^ 64) 16) % 2 ^ 64) := rfl

/-- Without a wrap the end of the block is a plain sum. -/
theorem seqAllocCall_eq (h : NoWrap L s size) :
    seqAllocCall L s size =
      if s.next L + rounded size > L.heapEnd then (0, s)
      else (s.next L, ⟨s.next L + rounded size,
        if s.next L = 0 then s.blocks else (s.next L, size.toNat) :: s.blocks⟩) := by
  obtain ⟨h1, h2⟩ := h
  unfold seqAllocCall
  rw [seqAllocAtomic_eq, Nat.mod_eq_of_lt h1]
  change s.next L + alignDown (size.toNat + 15) 16 < 2 ^ 64 at h2
  rw [Nat.mod_eq_of_lt h2]
  change _ = if s.next L + alignDown (size.toNat + 15) 16 > L.heapEnd then _ else _
  by_cases hfull : s.next L + alignDown (size.toNat + 15) 16 > L.heapEnd
  · rw [if_pos hfull, if_pos hfull]
    rfl
  · rw [if_neg hfull, if_neg hfull]
    rfl

theorem EarlyHeapInv.pos (h : EarlyHeapInv L s) : s.next L ≠ 0 := by
  have := L.pos
  have := h.low
  omega

/-- A call that does not wrap does what it should. -/
theorem EarlyHeapInv.call (h : EarlyHeapInv L s) (hw : NoWrap L s size) :
    CallOk L s size ∧ EarlyHeapInv L (seqAllocCall L s size).2 := by
  have hpos := h.pos
  have h16 := h.aligned
  have hr : rounded size % 16 = 0 := alignDown_mod _ (by norm_num)
  have hsize : size.toNat ≤ rounded size := by
    unfold rounded alignDown
    omega
  have heq := seqAllocCall_eq hw
  rw [if_neg hpos] at heq
  by_cases hfull : s.next L + rounded size > L.heapEnd
  · rw [if_pos hfull] at heq
    refine ⟨⟨?_, ?_, ?_, ?_, ?_⟩, ?_⟩
    · simp [heq]
    · simp [heq]
    · simp [heq]
    · simpa [heq] using hfull
    · simp [heq]
    · rw [heq]
      exact h
  · rw [if_neg hfull] at heq
    have hnext : (⟨s.next L + rounded size, (s.next L, size.toNat) :: s.blocks⟩ :
        EarlyHeap).next L = s.next L + rounded size := if_pos (by dsimp only; omega)
    have hle : s.heapPtr ≤ s.next L := by
      unfold EarlyHeap.next
      split_ifs <;> omega
    refine ⟨⟨fun _ => ?_, fun _ => ?_, fun _ b hb => ?_, ?_, ?_⟩, ⟨?_, ?_, ?_, fun b hb => ?_⟩⟩
    · rw [heq]
      exact h16
    · rw [heq]
      exact ⟨h.low, by dsimp only; omega⟩
    · rw [heq]
      have := h.below b hb
      exact (Set.Ico_disjoint_Ico.mpr (by simp; omega)).symm
    · rw [heq]
      dsimp only
      omega
    · rw [heq]
      dsimp only
      omega
    · rw [heq, hnext]
      omega
    · rw [heq, hnext]
      have := h.low
      omega
    · rw [heq, hnext]
      omega
    · rw [heq] at hb ⊢
      rw [hnext]
      rcases List.mem_cons.mp hb with rfl | hb
      · dsimp only
        omega
      · have := h.below b hb
        omega

/-- A call that wraps hands out more than the heap has. -/
theorem EarlyHeapInv.wraps (h : EarlyHeapInv L s) (hw : ¬ NoWrap L s size) :
    ¬ CallOk L s size := by
  have hpos := h.pos
  have h16 := h.aligned
  have hspace := L.aligned
  have hhigh := h.high
  have hfits := L.fits
  have hlt := size.toNat_lt
  have hend : L.heapEnd = L.heapSpace + 262144 := rfl
  have hlow := h.low
  -- the sum that is compared is a small one
  have hsmall : (s.next L + alignDown ((size.toNat + 15) % 2 ^ 64) 16) % 2 ^ 64 ≤ L.heapEnd := by
    unfold NoWrap rounded at hw
    unfold alignDown at hw ⊢
    omega
  have hlarge : L.heapEnd < s.next L + size.toNat := by
    unfold NoWrap rounded alignDown at hw
    omega
  have heq : (seqAllocCall L s size).1 = s.next L := by
    unfold seqAllocCall
    rw [seqAllocAtomic_eq, if_neg (not_lt.mpr hsmall)]
  intro hok
  have hin := (hok.inside (by rw [heq]; exact hpos)).2
  rw [heq] at hin
  omega

theorem EarlyHeapInv.callOk_iff (h : EarlyHeapInv L s) : CallOk L s size ↔ NoWrap L s size :=
  ⟨fun hok => by_contra fun hw => h.wraps hw hok, fun hw => (h.call hw).1⟩

end Call

/-! ## Runs -/

theorem runOk_iff {L : Layout} {s : EarlyHeap} (h : EarlyHeapInv L s) (sizes : List UInt64) :
    RunOk L s sizes ↔ NeverWraps L s sizes := by
  induction sizes generalizing s with
  | nil => exact Iff.rfl
  | cons size sizes ih =>
    unfold RunOk NeverWraps
    rw [h.callOk_iff]
    exact and_congr_right fun hw => ih (h.call hw).2

/-- Every call of a run hands out an aligned block of the heap apart from the earlier ones, or none
    for want of room, exactly when no call's rounding or end wraps. -/
theorem alloc_safe_iff (L : Layout) (seqInit : Bool) (sizes : List UInt64) :
    RunOk L (.start L seqInit) sizes ↔ NeverWraps L (.start L seqInit) sizes :=
  runOk_iff (.start L seqInit) sizes

/-- A heap at 1 MiB. -/
def sampleLayout : Layout := ⟨0x100000, by decide, by decide, by decide⟩

/-- The size -1 is rounded to 0 and succeeds. -/
theorem alloc_wraps_to_zero :
    ¬ ∀ (L : Layout) (seqInit : Bool) (sizes : List UInt64), RunOk L (.start L seqInit) sizes := by
  intro h
  have hok : CallOk sampleLayout (.start sampleLayout false) 0xFFFFFFFFFFFFFFFF :=
    (h sampleLayout false [0xFFFFFFFFFFFFFFFF]).1
  exact absurd (hok.inside (by decide)).2 (by decide)

/-! ## The signed view -/

/-- The 64 bits of a signed size. -/
def sizeBits (size : Int) : UInt64 := UInt64.ofNat (size % 2 ^ 64).toNat

/-- `alloc_bytes` on a signed 64-bit size, negative ones included. -/
theorem allocBytes_seqAlloc {L : Layout} {h : Heap} (hok : HeapOk h) (hstop : h.stop = L.heapEnd)
    {size : Int} (h1 : -2 ^ 63 ≤ size) (h2 : size < 2 ^ 63) :
    allocBytes h size =
      if (seqAllocAtomic L h.ptr (sizeBits size)).1 = 0 then .error "early heap exhausted"
      else .ok ((seqAllocAtomic L h.ptr (sizeBits size)).1,
        { h with ptr := (seqAllocAtomic L h.ptr (sizeBits size)).2 }) := by
  have hpos := hok.pos
  have hle := hok.le
  have hlt := hok.stop_lt
  have hbits : (sizeBits size).toNat = (size % 2 ^ 64).toNat := by
    unfold sizeBits
    rw [UInt64.toNat_ofNat']
    omega
  have hrax : (if h.ptr ≠ 0 then h.ptr else L.heapSpace) = h.ptr := if_pos (by omega)
  obtain ⟨rdx, hrdx⟩ : ∃ rdx, (h.ptr + alignDown (((sizeBits size).toNat + 15) % 2 ^ 64) 16) %
    2 ^ 64 = rdx := ⟨_, rfl⟩
  have hcall : seqAllocAtomic L h.ptr (sizeBits size) =
      if rdx > L.heapEnd then (0, h.ptr) else (h.ptr, rdx) := by
    unfold seqAllocAtomic
    dsimp only
    rw [hrax, hrdx]
  -- modulo 2^64 the end is that of the signed size
  have hsum : (rdx : Int) = (h.ptr + (size + 15 - (size + 15) % 16)) % 2 ^ 64 := by
    rw [hbits] at hrdx
    unfold alignDown at hrdx
    omega
  rw [hcall]
  unfold allocBytes alignDownI
  dsimp only
  rw [hstop] at hle hlt ⊢
  by_cases hfull : rdx > L.heapEnd
  · rw [if_pos hfull, if_pos (by omega), if_pos rfl]
  · rw [if_neg hfull, if_neg (by omega), if_neg (by dsimp only; omega)]
    congr 3
    omega

end PcoOs.Support
