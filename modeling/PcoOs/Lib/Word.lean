/-
  Machine words. `wrap` is two's complement on a signed 64-bit value; `alignDownI`/`alignUpI`
  round it to a power of two, `alignDown` does so on an unsigned one. The second half is the
  arithmetic of a word that packs a page address (a multiple of 4096) with 12 flag bits:
  masks and shifts as `%` and `/`, single bits as `testBit`.
-/
import Mathlib

namespace PcoOs.Lib

/-! ## Signed 64-bit values -/

/-- The signed 64-bit value congruent to `x` modulo `2^64`. -/
def wrap (x : Int) : Int := (x + 2 ^ 63) % 2 ^ 64 - 2 ^ 63

theorem wrap_of_range {x : Int} (h : -2 ^ 63 ≤ x) (h' : x < 2 ^ 63) : wrap x = x := by
  unfold wrap; omega

theorem wrap_range (x : Int) : -2 ^ 63 ≤ wrap x ∧ wrap x < 2 ^ 63 := by
  unfold wrap; omega

theorem wrap_wrap (x : Int) : wrap (wrap x) = wrap x := by
  unfold wrap; omega

/-- `value & ~(align - 1)` on a signed value, for a power of two `align`. -/
def alignDownI (value align : Int) : Int := value - value % align

/-- `(value + align - 1) & ~(align - 1)` in 64-bit arithmetic: the sum may wrap. -/
def alignUpI (value align : Int) : Int := alignDownI (wrap (value + align - 1)) align

theorem alignUpI_of_range {v : Int} (h : -2 ^ 63 ≤ v) (h' : v + 4095 < 2 ^ 63) :
    alignUpI v 4096 = (v + 4095) - (v + 4095) % 4096 := by
  unfold alignUpI alignDownI
  rw [show v + 4096 - 1 = v + 4095 by ring, wrap_of_range (by omega) h']

/-! ## Unsigned values and flag bits -/

/-- `value & ~(align - 1)` on an unsigned value, for a power of two `align`. -/
def alignDown (value align : Nat) : Nat := value - value % align

theorem alignDown_mod (v : Nat) {a : Nat} (ha : 0 < a) : alignDown v a % a = 0 := by
  unfold alignDown
  have h := Nat.div_add_mod v a
  have hlt := Nat.mod_lt v ha
  rw [show v - v % a = a * (v / a) by omega, Nat.mul_mod_right]

theorem alignDown_le (v a : Nat) : alignDown v a ≤ v := Nat.sub_le _ _

/-- Packing an aligned address with flags is an addition. -/
theorem or_eq_add {a f : Nat} (ha : a % 4096 = 0) (hf : f < 4096) : a ||| f = a + f := by
  have h : a = 2 ^ 12 * (a / 4096) := by omega
  rw [h, ← Nat.two_pow_add_eq_or_of_lt (by omega)]

theorem alignDown_or {a f : Nat} (ha : a % 4096 = 0) (hf : f < 4096) :
    alignDown (a ||| f) 4096 = a := by
  rw [or_eq_add ha hf]; unfold alignDown; omega

/-- Setting flag bits keeps the packed address. -/
theorem alignDown_or_flags (e : Nat) {f : Nat} (hf : f < 4096) :
    alignDown (e ||| f) 4096 = alignDown e 4096 := by
  have hd : (e ||| f) / 2 ^ 12 = e / 2 ^ 12 := by
    rw [Nat.or_div_two_pow, Nat.div_eq_of_lt (a := f) (by omega)]; simp
  unfold alignDown
  omega

/-- Low bits of a packed word are those of its flags. -/
theorem testBit_or_aligned {a f i : Nat} (ha : a % 4096 = 0) (hi : i < 12) :
    (a ||| f).testBit i = f.testBit i := by
  have h : a.testBit i = false := by
    rw [show a = 2 ^ 12 * (a / 4096) by omega, Nat.testBit_two_pow_mul]
    simp; omega
  simp [h]

theorem and_two_pow_eq_zero (e i : Nat) : e &&& 2 ^ i = 0 ↔ e.testBit i = false := by
  rw [Nat.and_two_pow]
  cases e.testBit i <;> simp

theorem and_one_eq_zero (e : Nat) : e &&& 1 = 0 ↔ e.testBit 0 = false :=
  and_two_pow_eq_zero e 0

theorem and_large_eq_zero (e : Nat) : e &&& 0x80 = 0 ↔ e.testBit 7 = false :=
  and_two_pow_eq_zero e 7

theorem and_fff (x : Nat) : x &&& 0xFFF = x % 4096 := Nat.and_two_pow_sub_one_eq_mod x 12

/-- A packed word below `2^64`. -/
theorem or_lt {a f : Nat} (ha : a % 4096 = 0) (hf : f < 4096) (h : a < 2 ^ 64) :
    a ||| f < 2 ^ 64 := by
  rw [or_eq_add ha hf]; omega

end PcoOs.Lib
