/-
  The early heap (`seq_alloc_atomic` in `runtime.s`, `alloc_bytes` in `ksupport.py`): a bump
  pointer that rounds sizes up to 16 and never takes memory back. `HeapOk` holds from boot on as
  long as sizes are not negative.
-/
import PcoOs.Support.Region

namespace PcoOs.Support

open PcoOs.Lib

/-- `heap_ptr`, `heap_end` and the bytes of the heap. The heap is part of the kernel image, which
    the page allocator never hands out, so its bytes are kept apart from the pages. -/
structure Heap where
  ptr : Nat
  stop : Nat
  mem : Mem

/-- The comparison with `heap_end` is unsigned, so a negative result is above it. -/
@[irreducible] def allocBytes (h : Heap) (size : Int) : Except String (Nat × Heap) :=
  let next := h.ptr + alignDownI (size + 15) 16
  if next < 0 ∨ next > h.stop then .error "early heap exhausted"
  else .ok (h.ptr, { h with ptr := next.toNat })

/-- The heap pointer is a non-null multiple of 16 inside the heap. -/
structure HeapOk (h : Heap) : Prop where
  pos : 0 < h.ptr
  aligned : h.ptr % 16 = 0
  le : h.ptr ≤ h.stop
  stop_lt : h.stop < 2 ^ 63

theorem HeapOk.withMem {h : Heap} (hok : HeapOk h) (m : Mem) : HeapOk { h with mem := m } :=
  ⟨hok.pos, hok.aligned, hok.le, hok.stop_lt⟩

/-- What an allocation does to the heap: the pointer moves up, no byte changes. -/
structure HeapGrows (h h' : Heap) : Prop where
  ptr_le : h.ptr ≤ h'.ptr
  stop : h'.stop = h.stop
  mem : h'.mem = h.mem

theorem HeapGrows.refl (h : Heap) : HeapGrows h h := ⟨le_refl _, rfl, rfl⟩

theorem HeapGrows.trans {h h' h'' : Heap} (a : HeapGrows h h') (b : HeapGrows h' h'') :
    HeapGrows h h'' := ⟨a.ptr_le.trans b.ptr_le, b.stop.trans a.stop, b.mem.trans a.mem⟩

/-- The block handed out starts at the old pointer and ends before the new one. -/
theorem allocBytes_spec {h : Heap} (hok : HeapOk h) {n : Int} (h0 : 0 ≤ n) :
    Ends (allocBytes h n)
      (fun r => r.1 = h.ptr ∧ HeapOk r.2 ∧ HeapGrows h r.2 ∧ h.ptr + n ≤ r.2.ptr ∧
        r.2.ptr < h.ptr + n + 16)
      (fun _ => (h.stop : Int) < h.ptr + n + 16) := by
  have h1 := hok.pos
  have h2 := hok.aligned
  have h3 := hok.le
  have h4 := hok.stop_lt
  unfold allocBytes alignDownI
  dsimp only
  split_ifs with hfull
  · have : (h.stop : Int) < h.ptr + n + 16 := by omega
    exact this
  · refine ⟨rfl, ⟨by dsimp only; omega, by dsimp only; omega, by dsimp only; omega, h4⟩,
      ⟨by dsimp only; omega, rfl, rfl⟩, by dsimp only; omega, by dsimp only; omega⟩

theorem allocBytes_error {h : Heap} {size : Int} {e : String} (he : allocBytes h size = .error e) :
    e = "early heap exhausted" := by
  unfold allocBytes at he
  dsimp only at he
  split_ifs at he
  cases he
  rfl

/-- The heap is still sound and only its pointer moved. -/
def HeapMoves (h h' : Heap) : Prop := HeapOk h' ∧ HeapGrows h h'

theorem HeapMoves.refl {h : Heap} (hok : HeapOk h) : HeapMoves h h := ⟨hok, HeapGrows.refl h⟩

theorem HeapMoves.trans {h h' h'' : Heap} (a : HeapMoves h h') (b : HeapMoves h' h'') :
    HeapMoves h h'' := ⟨b.1, a.2.trans b.2⟩

/-- The pointer moved by `n` bytes at most. -/
def HeapMovesBy (h h' : Heap) (n : Nat) : Prop := HeapMoves h h' ∧ h'.ptr ≤ h.ptr + n

theorem HeapMovesBy.refl {h : Heap} (hok : HeapOk h) (n : Nat) : HeapMovesBy h h n :=
  ⟨HeapMoves.refl hok, Nat.le_add_right _ _⟩

theorem HeapMovesBy.mono {h h' : Heap} {n n' : Nat} (a : HeapMovesBy h h' n) (hle : n ≤ n') :
    HeapMovesBy h h' n' := ⟨a.1, a.2.trans (Nat.add_le_add_left hle _)⟩

theorem HeapMovesBy.trans {h h' h'' : Heap} {n n' : Nat} (a : HeapMovesBy h h' n)
    (b : HeapMovesBy h' h'' n') : HeapMovesBy h h'' (n + n') := by
  refine ⟨a.1.trans b.1, ?_⟩
  have := a.2
  have := b.2
  omega

/-- The pointer moved, and bytes may have changed too. -/
structure HeapUsed (h h' : Heap) : Prop where
  ok : HeapOk h'
  ptr_le : h.ptr ≤ h'.ptr
  stop : h'.stop = h.stop

theorem HeapMoves.used {h h' : Heap} (a : HeapMoves h h') : HeapUsed h h' :=
  ⟨a.1, a.2.ptr_le, a.2.stop⟩

theorem HeapUsed.trans {h h' h'' : Heap} (a : HeapUsed h h') (b : HeapUsed h' h'') :
    HeapUsed h h'' := ⟨b.ok, a.ptr_le.trans b.ptr_le, b.stop.trans a.stop⟩

/-- Any such use is an allocation followed by stores. -/
theorem HeapUsed.exists_alloc {h h' : Heap} (hok : HeapOk h) (a : HeapUsed h h') :
    ∃ (size : Nat) (p : Nat) (h₁ : Heap), allocBytes h size = .ok (p, h₁) ∧
      h' = { h₁ with mem := h'.mem } := by
  obtain ⟨⟨-, ha', hle', -⟩, hle, hstop⟩ := a
  have ha := hok.aligned
  refine ⟨h'.ptr - h.ptr, h.ptr, { h with ptr := h'.ptr }, ?_, ?_⟩
  · unfold allocBytes alignDownI
    dsimp only
    rw [if_neg (by omega)]
    congr 3
    omega
  · obtain ⟨ptr, stop, mem⟩ := h'
    cases hstop
    rfl

theorem allocBytes_moves {h : Heap} (hok : HeapOk h) (size : Nat) {p : Nat} {h' : Heap}
    (he : allocBytes h size = .ok (p, h')) : HeapMoves h h' := by
  have hs := (allocBytes_spec hok (Int.natCast_nonneg size)).of_ok he
  exact ⟨hs.2.1, hs.2.2.1⟩

end PcoOs.Support
