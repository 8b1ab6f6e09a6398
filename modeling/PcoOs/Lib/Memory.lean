/-
  Byte-addressed memory with little-endian 64-bit words, and 4 KiB pages named by their first
  address. `loadQword_storeQword` and `loadQword_storeQword_ne` are the two access laws;
  `storeBytes` and `copyBytes` write runs of bytes.
  `SamePage m m' p` says a page is untouched, `OnlyPages S m m'` that nothing outside the pages
  of `S` was touched; `OnlyPages.samePage` turns the second into the first.
-/
import Mathlib

namespace PcoOs.Lib

/-- Memory contents, one byte an address. -/
abbrev Mem := Nat → UInt8

/-- The eight bytes at `a`, least significant first. -/
def loadQword (m : Mem) (a : Nat) : Nat :=
  (m a).toNat + 2 ^ 8 * (m (a + 1)).toNat + 2 ^ 16 * (m (a + 2)).toNat +
    2 ^ 24 * (m (a + 3)).toNat + 2 ^ 32 * (m (a + 4)).toNat + 2 ^ 40 * (m (a + 5)).toNat +
    2 ^ 48 * (m (a + 6)).toNat + 2 ^ 56 * (m (a + 7)).toNat

/-- Write the low 64 bits of `v` at `a`. -/
def storeQword (m : Mem) (a v : Nat) : Mem :=
  fun x => if a ≤ x ∧ x < a + 8 then UInt8.ofNat (v / 256 ^ (x - a)) else m x

/-- Write one byte. -/
def storeByte (m : Mem) (a : Nat) (b : UInt8) : Mem :=
  fun x => if x = a then b else m x

theorem loadQword_lt (m : Mem) (a : Nat) : loadQword m a < 2 ^ 64 := by
  unfold loadQword
  have h := fun i => (m (a + i)).toNat_lt
  have h0 := (m a).toNat_lt
  have h1 := h 1; have h2 := h 2; have h3 := h 3; have h4 := h 4
  have h5 := h 5; have h6 := h 6; have h7 := h 7
  omega

theorem loadQword_congr {m m' : Mem} {a : Nat} (h : ∀ x, a ≤ x → x < a + 8 → m' x = m x) :
    loadQword m' a = loadQword m a := by
  unfold loadQword
  rw [h a (by omega) (by omega), h (a + 1) (by omega) (by omega), h (a + 2) (by omega) (by omega),
    h (a + 3) (by omega) (by omega), h (a + 4) (by omega) (by omega),
    h (a + 5) (by omega) (by omega), h (a + 6) (by omega) (by omega),
    h (a + 7) (by omega) (by omega)]

theorem storeQword_at (m : Mem) (a v i : Nat) (hi : i < 8) :
    (storeQword m a v (a + i)).toNat = v / 256 ^ i % 256 := by
  unfold storeQword
  rw [if_pos ⟨by omega, by omega⟩, show a + i - a = i by omega]
  simp

theorem storeQword_of_outside {m : Mem} {a v x : Nat} (h : x < a ∨ a + 8 ≤ x) :
    storeQword m a v x = m x := by
  unfold storeQword
  rw [if_neg (by omega)]

theorem loadQword_storeQword (m : Mem) (a v : Nat) :
    loadQword (storeQword m a v) a = v % 2 ^ 64 := by
  unfold loadQword
  have h0 := storeQword_at m a v 0 (by omega)
  rw [Nat.add_zero] at h0
  rw [h0, storeQword_at m a v 1 (by omega), storeQword_at m a v 2 (by omega),
    storeQword_at m a v 3 (by omega), storeQword_at m a v 4 (by omega),
    storeQword_at m a v 5 (by omega), storeQword_at m a v 6 (by omega),
    storeQword_at m a v 7 (by omega)]
  omega

theorem loadQword_storeQword_ne {m : Mem} {a b v : Nat} (h : a + 8 ≤ b ∨ b + 8 ≤ a) :
    loadQword (storeQword m a v) b = loadQword m b :=
  loadQword_congr fun _ _ _ => storeQword_of_outside (by omega)

/-- The eight bytes of a word, least significant first. -/
def wordBytes (w : Nat) : List UInt8 := (List.range 8).map fun i => UInt8.ofNat (w / 256 ^ i)

@[simp] theorem length_wordBytes (w : Nat) : (wordBytes w).length = 8 := by simp [wordBytes]

/-! ## Runs of bytes -/

/-- The `n` bytes from `a` on. -/
def loadBytes (m : Mem) (a n : Nat) : List UInt8 := (List.range n).map fun i => m (a + i)

/-- Write the bytes one after the other from `a` on. -/
def storeBytes (m : Mem) (a : Nat) : List UInt8 → Mem
  | [] => m
  | b :: bs => storeBytes (storeByte m a b) (a + 1) bs

/-- Copy `n` bytes from `src` to `dst`, the lowest first. -/
def copyBytes (m : Mem) (dst src : Nat) : Nat → Mem
  | 0 => m
  | n + 1 =>
    let m := copyBytes m dst src n
    storeByte m (dst + n) (m (src + n))

theorem storeByte_self (m : Mem) (a : Nat) (b : UInt8) : storeByte m a b a = b := if_pos rfl

theorem storeByte_ne {m : Mem} {a x : Nat} {b : UInt8} (h : x ≠ a) : storeByte m a b x = m x :=
  if_neg h

@[simp] theorem length_loadBytes (m : Mem) (a n : Nat) : (loadBytes m a n).length = n := by
  simp [loadBytes]

theorem getElem_loadBytes {m : Mem} {a n i : Nat} (h : i < (loadBytes m a n).length) :
    (loadBytes m a n)[i] = m (a + i) := by
  simp [loadBytes]

theorem loadBytes_congr {m m' : Mem} {a n : Nat} (h : ∀ i < n, m' (a + i) = m (a + i)) :
    loadBytes m' a n = loadBytes m a n :=
  List.map_congr_left fun i hi => h i (List.mem_range.mp hi)

/-- A part of a run of bytes. -/
theorem loadBytes_slice {m : Mem} {a off n k : Nat} (h : off + n ≤ k) :
    loadBytes m (a + off) n = ((loadBytes m a k).drop off).take n := by
  refine List.ext_getElem (by simp; omega) fun i h1 h2 => ?_
  rw [getElem_loadBytes, List.getElem_take, List.getElem_drop, getElem_loadBytes, Nat.add_assoc]

theorem loadQword_of_wordBytes {m : Mem} {a w : Nat} (h : loadBytes m a 8 = wordBytes w) :
    loadQword m a = w % 2 ^ 64 := by
  rw [← loadQword_storeQword m a w]
  refine loadQword_congr fun x h1 h2 => ?_
  obtain ⟨i, rfl⟩ := Nat.exists_eq_add_of_le h1
  have hi : i < 8 := by omega
  have hget : (loadBytes m a 8)[i]? = (wordBytes w)[i]? := by rw [h]
  unfold loadBytes wordBytes at hget
  rw [List.getElem?_map, List.getElem?_map, List.getElem?_range hi] at hget
  unfold storeQword
  rw [if_pos ⟨by omega, by omega⟩, show a + i - a = i by omega]
  exact Option.some.inj hget

theorem storeBytes_of_outside {m : Mem} {a x : Nat} {bs : List UInt8}
    (h : x < a ∨ a + bs.length ≤ x) : storeBytes m a bs x = m x := by
  induction bs generalizing m a with
  | nil => rfl
  | cons b bs ih =>
    rw [List.length_cons] at h
    rw [storeBytes, ih (by omega), storeByte_ne (by omega)]

theorem storeBytes_at {m : Mem} {a i : Nat} {bs : List UInt8} (h : i < bs.length) :
    storeBytes m a bs (a + i) = bs[i] := by
  induction bs generalizing m a i with
  | nil => exact absurd h (Nat.not_lt_zero _)
  | cons b bs ih =>
    rw [storeBytes]
    cases i with
    | zero => rw [storeBytes_of_outside (by omega), Nat.add_zero, storeByte_self]; rfl
    | succ i =>
      rw [List.length_cons] at h
      rw [show a + (i + 1) = a + 1 + i by omega, ih (by omega)]
      rfl

theorem loadBytes_storeBytes (m : Mem) (a : Nat) (bs : List UInt8) :
    loadBytes (storeBytes m a bs) a bs.length = bs :=
  List.ext_getElem (by simp) fun i h1 h2 => by rw [getElem_loadBytes, storeBytes_at h2]

theorem copyBytes_of_outside {m : Mem} {dst src n x : Nat} (h : x < dst ∨ dst + n ≤ x) :
    copyBytes m dst src n x = m x := by
  induction n with
  | zero => rfl
  | succ n ih =>
    rw [copyBytes, storeByte_ne (by omega), ih (by omega)]

/-- A copy to a place apart from its source holds the source's bytes. -/
theorem copyBytes_at {m : Mem} {dst src n i : Nat} (hd : dst + n ≤ src ∨ src + n ≤ dst)
    (hi : i < n) : copyBytes m dst src n (dst + i) = m (src + i) := by
  induction n with
  | zero => exact absurd hi (Nat.not_lt_zero _)
  | succ n ih =>
    rw [copyBytes]
    by_cases hin : i = n
    · rw [hin, storeByte_self, copyBytes_of_outside (by omega)]
    · rw [storeByte_ne (by omega), ih (by omega) (by omega)]

/-! ## Pages -/

/-- The page at `p` holds the same bytes in both memories. -/
def SamePage (m m' : Mem) (p : Nat) : Prop := ∀ x, p ≤ x → x < p + 4096 → m' x = m x

/-- `m'` differs from `m` inside the pages of `S` at most. -/
def OnlyPages (S : Multiset Nat) (m m' : Mem) : Prop :=
  ∀ x, (∀ p ∈ S, ¬ (p ≤ x ∧ x < p + 4096)) → m' x = m x

theorem SamePage.refl (m : Mem) (p : Nat) : SamePage m m p := fun _ _ _ => rfl

theorem SamePage.trans {m m' m'' : Mem} {p : Nat} (h : SamePage m m' p)
    (h' : SamePage m' m'' p) : SamePage m m'' p :=
  fun x h1 h2 => (h' x h1 h2).trans (h x h1 h2)

theorem SamePage.symm {m m' : Mem} {p : Nat} (h : SamePage m m' p) : SamePage m' m p :=
  fun x h1 h2 => (h x h1 h2).symm

theorem SamePage.loadQword {m m' : Mem} {p i : Nat} (h : SamePage m m' p) (hi : i < 512) :
    loadQword m' (p + 8 * i) = loadQword m (p + 8 * i) :=
  loadQword_congr fun x h1 h2 => h x (by omega) (by omega)

theorem OnlyPages.refl (S : Multiset Nat) (m : Mem) : OnlyPages S m m := fun _ _ => rfl

theorem OnlyPages.mono {S T : Multiset Nat} {m m' : Mem} (h : OnlyPages S m m')
    (hs : ∀ p ∈ S, p ∈ T) : OnlyPages T m m' :=
  fun x hx => h x fun p hp => hx p (hs p hp)

theorem OnlyPages.trans {S : Multiset Nat} {m m' m'' : Mem} (h : OnlyPages S m m')
    (h' : OnlyPages S m' m'') : OnlyPages S m m'' :=
  fun x hx => (h' x hx).trans (h x hx)

/-- A page outside `S` is untouched when all pages concerned are aligned. -/
theorem OnlyPages.samePage {S : Multiset Nat} {m m' : Mem} (h : OnlyPages S m m') {p : Nat}
    (hp : p % 4096 = 0) (hS : ∀ q ∈ S, q % 4096 = 0) (hn : p ∉ S) : SamePage m m' p := by
  intro x h1 h2
  refine h x fun q hq hx => hn ?_
  have hq' := hS q hq
  have : q = p := by omega
  exact this ▸ hq

theorem onlyPages_storeQword (m : Mem) {p i v : Nat} (hi : i < 512) :
    OnlyPages {p} m (storeQword m (p + 8 * i) v) := by
  intro x hx
  have := hx p (Multiset.mem_singleton_self p)
  exact storeQword_of_outside (by omega)

theorem onlyPages_storeByte (m : Mem) {p i : Nat} {b : UInt8} (hi : i < 4096) :
    OnlyPages {p} m (storeByte m (p + i) b) := by
  intro x hx
  have := hx p (Multiset.mem_singleton_self p)
  unfold storeByte
  rw [if_neg (by omega)]

end PcoOs.Lib
