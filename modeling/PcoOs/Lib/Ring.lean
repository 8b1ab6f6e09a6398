/-
  A ring buffer with running head and tail counters: item `i` stands at slot `i % capacity`, and
  the counters are never reduced. `RingBuffer.items` is the queue it holds; `items_push` and
  `items_pop` are its two laws.
-/
import Mathlib

namespace PcoOs.Lib

/-- Slots with the number of items ever removed and ever added. -/
structure RingBuffer (α : Type) where
  slot : Nat → α
  head : Nat
  tail : Nat

namespace RingBuffer

variable {α : Type}

def size (r : RingBuffer α) : Nat := r.tail - r.head

/-- Add at the tail of a ring of `cap` slots. -/
def push (cap : Nat) (a : α) (r : RingBuffer α) : RingBuffer α :=
  { r with slot := Function.update r.slot (r.tail % cap) a, tail := r.tail + 1 }

/-- The oldest item and the ring without it. -/
def pop (cap : Nat) (r : RingBuffer α) : α × RingBuffer α :=
  (r.slot (r.head % cap), { r with head := r.head + 1 })

/-- The items, oldest first. -/
def items (cap : Nat) (r : RingBuffer α) : List α :=
  (List.range r.size).map fun i => r.slot ((r.head + i) % cap)

@[simp] theorem length_items (cap : Nat) (r : RingBuffer α) : (r.items cap).length = r.size := by
  simp [items]

/-- Slots of a ring that is not full are used once. -/
theorem mod_ne {cap head i tail : Nat} (h : tail - head < cap) (hi : i < tail - head) :
    (head + i) % cap ≠ tail % cap := by
  intro he
  have hle : head + i ≤ tail := by omega
  have hdvd : cap ∣ tail - (head + i) := (Nat.modEq_iff_dvd' hle).mp he
  have := Nat.le_of_dvd (by omega) hdvd
  omega

theorem items_push {cap : Nat} {r : RingBuffer α} (h : r.size < cap) (hle : r.head ≤ r.tail) (a : α) :
    (r.push cap a).items cap = r.items cap ++ [a] := by
  unfold items push size at *
  dsimp only
  rw [show r.tail + 1 - r.head = (r.tail - r.head) + 1 by omega, List.range_succ, List.map_append]
  congr 1
  · refine List.map_congr_left fun i hi => ?_
    rw [Function.update_of_ne (mod_ne h (List.mem_range.mp hi))]
  · rw [List.map_singleton, show r.head + (r.tail - r.head) = r.tail by omega,
      Function.update_self]

theorem items_pop {cap : Nat} {r : RingBuffer α} (h : 0 < r.size) :
    r.items cap = (r.pop cap).1 :: (r.pop cap).2.items cap := by
  unfold items pop size at *
  dsimp only
  rw [show r.tail - r.head = (r.tail - (r.head + 1)) + 1 by omega, List.range_succ_eq_map,
    List.map_cons, List.map_map]
  congr 1
  refine List.map_congr_left fun i _ => ?_
  dsimp only [Function.comp]
  rw [show r.head + Nat.succ i = r.head + 1 + i by omega]

end RingBuffer

end PcoOs.Lib
