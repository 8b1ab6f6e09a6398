/-
  The checked accessors of `ksupport.py` over physical memory: a null or misaligned base, an
  empty region and an index outside it are panics. The `_ok` lemmas say that a good access is
  the plain load or store.
-/
import PcoOs.Lib.Outcome
import PcoOs.Lib.Word
import PcoOs.Lib.Memory

namespace PcoOs.Support

open PcoOs.Lib

/-- The checks `load_qword_region` and `store_qword_region` share. -/
def checkQwordRegion (base : Nat) (count slot : Int) : Except String Unit :=
  if base = 0 then .error "qword region base is null"
  else if base &&& 0x7 ≠ 0 then .error "qword region base is unaligned"
  else if count ≤ 0 then .error "qword region is empty"
  else if slot < 0 ∨ slot ≥ count then .error "qword slot out of range"
  else .ok ()

def loadQwordRegion (m : Mem) (base : Nat) (count slot : Int) : Except String Nat := do
  checkQwordRegion base count slot
  .ok (loadQword m (base + 8 * slot.toNat))

def storeQwordRegion (m : Mem) (base : Nat) (count slot : Int) (value : Nat) :
    Except String Mem := do
  checkQwordRegion base count slot
  .ok (storeQword m (base + 8 * slot.toNat) value)

/-- The checks `load_byte_region` and `store_byte_region` share. -/
def checkByteRegion (base : Nat) (count offset : Int) : Except String Unit :=
  if base = 0 then .error "byte region base is null"
  else if count ≤ 0 then .error "byte region is empty"
  else if offset < 0 ∨ offset ≥ count then .error "byte offset out of range"
  else .ok ()

def loadByteRegion (m : Mem) (base : Nat) (count offset : Int) : Except String UInt8 := do
  checkByteRegion base count offset
  .ok (m (base + offset.toNat))

def storeByteRegion (m : Mem) (base : Nat) (count offset : Int) (value : UInt8) :
    Except String Mem := do
  checkByteRegion base count offset
  .ok (storeByte m (base + offset.toNat) value)

theorem checkQwordRegion_ok {base : Nat} {count slot : Int} (h0 : base ≠ 0)
    (h8 : base % 8 = 0) (hs : 0 ≤ slot) (hc : slot < count) :
    checkQwordRegion base count slot = .ok () := by
  have h7 : base &&& 0x7 = 0 := by
    rw [show (0x7 : Nat) = 2 ^ 3 - 1 by norm_num, Nat.and_two_pow_sub_one_eq_mod]; exact h8
  unfold checkQwordRegion
  rw [if_neg h0, if_neg (not_not.mpr h7), if_neg (by omega), if_neg (by omega)]

theorem checkByteRegion_ok {base : Nat} {count offset : Int} (h0 : base ≠ 0)
    (hs : 0 ≤ offset) (hc : offset < count) : checkByteRegion base count offset = .ok () := by
  unfold checkByteRegion
  rw [if_neg h0, if_neg (by omega), if_neg (by omega)]

theorem loadQwordRegion_ok {m : Mem} {base : Nat} {count slot : Int} (h0 : base ≠ 0)
    (h8 : base % 8 = 0) (hs : 0 ≤ slot) (hc : slot < count) :
    loadQwordRegion m base count slot = .ok (loadQword m (base + 8 * slot.toNat)) := by
  unfold loadQwordRegion
  rw [checkQwordRegion_ok h0 h8 hs hc, ok_bind]

theorem storeQwordRegion_ok {m : Mem} {base value : Nat} {count slot : Int} (h0 : base ≠ 0)
    (h8 : base % 8 = 0) (hs : 0 ≤ slot) (hc : slot < count) :
    storeQwordRegion m base count slot value =
      .ok (storeQword m (base + 8 * slot.toNat) value) := by
  unfold storeQwordRegion
  rw [checkQwordRegion_ok h0 h8 hs hc, ok_bind]

theorem storeByteRegion_ok {m : Mem} {base : Nat} {value : UInt8} {count offset : Int}
    (h0 : base ≠ 0) (hs : 0 ≤ offset) (hc : offset < count) :
    storeByteRegion m base count offset value =
      .ok (storeByte m (base + offset.toNat) value) := by
  unfold storeByteRegion
  rw [checkByteRegion_ok h0 hs hc, ok_bind]

/-- An accepted slot lies in the region. -/
theorem checkQwordRegion_slot {base : Nat} {count slot : Int}
    (h : checkQwordRegion base count slot = .ok ()) : 0 ≤ slot ∧ slot < count := by
  unfold checkQwordRegion at h
  split_ifs at h
  omega

theorem loadQwordRegion_eq {m : Mem} {base w : Nat} {count slot : Int}
    (h : loadQwordRegion m base count slot = .ok w) :
    0 ≤ slot ∧ slot < count ∧ w = loadQword m (base + 8 * slot.toNat) := by
  obtain ⟨_, hcheck, hw⟩ := bind_eq_ok.mp h
  obtain ⟨h0, hc⟩ := checkQwordRegion_slot hcheck
  exact ⟨h0, hc, (Except.ok.inj hw).symm⟩

theorem storeQwordRegion_eq {m m' : Mem} {base value : Nat} {count slot : Int}
    (h : storeQwordRegion m base count slot value = .ok m') :
    0 ≤ slot ∧ slot < count ∧ m' = storeQword m (base + 8 * slot.toNat) value := by
  obtain ⟨_, hcheck, hw⟩ := bind_eq_ok.mp h
  obtain ⟨h0, hc⟩ := checkQwordRegion_slot hcheck
  exact ⟨h0, hc, (Except.ok.inj hw).symm⟩

end PcoOs.Support
