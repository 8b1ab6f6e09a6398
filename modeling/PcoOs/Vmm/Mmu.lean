/-
  The processor's walk through the tables of a root, in contrast to the software walks of
  `kmemory.py`: four levels, with the permission bits of all of them. `mmuWalk_eq` expresses it
  in the leaf entries of a root that stands in memory. `shapeOf` reads the table pages of a root
  off memory, and `seen` is memory as kernel code finds it, at virtual addresses.
-/
import PcoOs.Vmm.Tables

namespace PcoOs.Vmm

open PcoOs.Lib

/-- What a virtual page leads to. -/
structure Access where
  frame : Nat
  user : Bool
  writable : Bool
  deriving DecidableEq, Repr

/-- A present entry of a table. -/
def walkLevel (m : Mem) (table index : Nat) : Option Nat :=
  if (entry m table index).testBit 0 = true then some (entry m table index) else none

/-- Bit `i` is set on every level. -/
def allLevels (i : Nat) (es : List Nat) : Bool := es.all fun e => e.testBit i

/-- The walk for virtual page `n`, a number of 36 bits. -/
def mmuWalk (m : Mem) (root n : Nat) : Option Access := do
  let e4 ← walkLevel m root (n / 2 ^ 27 % 512)
  let e3 ← walkLevel m (alignDown e4 4096) (n / 2 ^ 18 % 512)
  if e3.testBit 7 then
    some ⟨alignDown e3 (2 ^ 30) + n % 2 ^ 18 * 4096, allLevels 2 [e4, e3], allLevels 1 [e4, e3]⟩
  else do
    let e2 ← walkLevel m (alignDown e3 4096) (n / 512 % 512)
    if e2.testBit 7 then
      some ⟨alignDown e2 0x200000 + n % 512 * 4096, allLevels 2 [e4, e3, e2],
        allLevels 1 [e4, e3, e2]⟩
    else do
      let e1 ← walkLevel m (alignDown e2 4096) (n % 512)
      some ⟨alignDown e1 4096, allLevels 2 [e4, e3, e2, e1], allLevels 1 [e4, e3, e2, e1]⟩

theorem walkLevel_some {m : Mem} {t i : Nat} (h : (entry m t i).testBit 0 = true) :
    walkLevel m t i = some (entry m t i) := if_pos h

theorem walkLevel_zero {m : Mem} {t i : Nat} (h : entry m t i = 0) : walkLevel m t i = none := by
  unfold walkLevel
  rw [h]
  rfl

/-- The user bits of the three upper levels above page `n`. -/
def pathUser (m : Mem) (root : Nat) (sh : Shape) (n : Nat) : Bool :=
  allLevels 2 [entry m root 0, entry m sh.p3 (n / 512 / 512),
    entry m (sh.p2 (n / 512 / 512)) (n / 512 % 512)]

/-- Pages beyond 4 GiB are not mapped at all. -/
theorem mmuWalk_high {m : Mem} {root : Nat} {sh : Shape} (h : Realizes m root sh) {n : Nat}
    (h0 : 2 ^ 20 ≤ n) (hn : n < 2 ^ 36) : mmuWalk m root n = none := by
  unfold mmuWalk
  by_cases h4 : n / 2 ^ 27 % 512 = 0
  · rw [h4, walkLevel_some h.p4.present]
    dsimp only [Option.bind_eq_bind, Option.bind_some]
    rw [h.p4.target, walkLevel_zero (h.p3_rest _ (by omega) (by omega))]
    rfl
  · rw [walkLevel_zero (h.p4_rest _ (by omega) (by omega))]
    rfl

/-- Below 4 GiB the walk ends at the leaf entry. Writing is decided there, since the upper
    levels are all writable. -/
theorem mmuWalk_eq {m : Mem} {root : Nat} {sh : Shape} (h : Realizes m root sh) {n : Nat}
    (hn : n < 2 ^ 20) : mmuWalk m root n =
      if (leafEntry m sh n).testBit 0 = true then
        some ⟨alignDown (leafEntry m sh n) 4096,
          pathUser m root sh n && (leafEntry m sh n).testBit 2, (leafEntry m sh n).testBit 1⟩
      else none := by
  have h4 : n / 2 ^ 27 % 512 = 0 := by omega
  have h3 : n / 2 ^ 18 % 512 = n / 512 / 512 := by omega
  have hi : n / 512 / 512 < 4 := by omega
  have hk : n / 512 < 2048 := by omega
  have p3 := h.p3 _ hi
  unfold mmuWalk pathUser
  rw [h4, walkLevel_some h.p4.present]
  dsimp only [Option.bind_eq_bind, Option.bind_some]
  rw [h.p4.target, h3, walkLevel_some p3.present]
  dsimp only [Option.bind_eq_bind, Option.bind_some]
  rw [if_neg (by rw [p3.table]; decide), p3.target]
  cases hpt : sh.pt (n / 512) with
  | none =>
    have he := h.large _ hk hpt
    obtain ⟨b0, b7, hbase⟩ := large_bits (n / 512)
    obtain ⟨s0, s1, s2, hs⟩ := small_bits n
    have b1 : ((n / 512) <<< 21 ||| 0x083).testBit 1 = true := by simp; decide
    have b2 : ((n / 512) <<< 21 ||| 0x083).testBit 2 = false := by simp; decide
    rw [he, walkLevel_some (by rw [he]; exact b0), leafEntry_none hpt]
    dsimp only [Option.bind_some]
    rw [he, if_pos b7, if_pos s0, hs, hbase,
      show n / 512 * 0x200000 + n % 512 * 4096 = n * 4096 by omega]
    unfold allLevels
    simp only [List.all_cons, List.all_nil, Bool.and_true, b1, b2, s1, s2, h.p4.writable,
      p3.writable, Bool.and_false]
  | some pt =>
    have he := h.split _ hk pt hpt
    rw [walkLevel_some he.present]
    dsimp only [Option.bind_some]
    rw [if_neg (by rw [he.table]; decide), he.target, leafEntry_some hpt]
    by_cases hb : (entry m pt (n % 512)).testBit 0 = true
    · rw [walkLevel_some hb, if_pos hb]
      dsimp only [Option.bind_some]
      unfold allLevels
      simp only [List.all_cons, List.all_nil, Bool.and_true, h.p4.writable, p3.writable,
        he.writable, Bool.true_and, Bool.and_assoc]
    · rw [if_neg hb]
      unfold walkLevel
      rw [if_neg hb]
      rfl

/-- The walk reads 36 bits of the page number. -/
theorem mmuWalk_mod (m : Mem) (root n : Nat) : mmuWalk m root (n % 2 ^ 36) = mmuWalk m root n := by
  have h1 : n % 2 ^ 36 / 2 ^ 27 % 512 = n / 2 ^ 27 % 512 := by omega
  have h2 : n % 2 ^ 36 / 2 ^ 18 % 512 = n / 2 ^ 18 % 512 := by omega
  have h3 : n % 2 ^ 36 / 512 % 512 = n / 512 % 512 := by omega
  have h4 : n % 2 ^ 36 % 512 = n % 512 := by omega
  have h5 : n % 2 ^ 36 % 2 ^ 18 = n % 2 ^ 18 := by omega
  unfold mmuWalk
  rw [h1, h2, h3, h4, h5]

/-- A page whose leaf maps it at its own address. -/
theorem identityLeaf_walk {m : Mem} {root : Nat} {sh : Shape} (h : Realizes m root sh) {n : Nat}
    (hn : n < 2 ^ 20) (hl : leafEntry m sh n = (n <<< 12) ||| 0x003) :
    mmuWalk m root n = some ⟨n * 4096, false, true⟩ := by
  obtain ⟨b0, b1, b2, ht⟩ := small_bits n
  rw [mmuWalk_eq h hn, hl, if_pos b0, b1, b2, ht, Bool.and_false]

/-! ## The table pages of a root -/

/-- The page table a directory entry points to. -/
def tableOf (e : Nat) : Option Nat :=
  if e.testBit 0 = true ∧ e.testBit 7 = false then some (alignDown e 4096) else none

/-- The tables of a root as memory has them. -/
def shapeOf (m : Mem) (root : Nat) : Shape :=
  let p3 := alignDown (entry m root 0) 4096
  let p2 := fun i => alignDown (entry m p3 i) 4096
  { p3 := p3
    p2 := p2
    pt := fun k => tableOf (entry m (p2 (k / 512)) (k % 512)) }

theorem shapeOf_p3 {m : Mem} {root : Nat} {sh : Shape} (h : Realizes m root sh) :
    (shapeOf m root).p3 = sh.p3 := h.p4.target

theorem shapeOf_p2 {m : Mem} {root : Nat} {sh : Shape} (h : Realizes m root sh) {i : Nat}
    (hi : i < 4) : (shapeOf m root).p2 i = sh.p2 i := by
  unfold shapeOf
  dsimp only
  rw [h.p4.target, (h.p3 i hi).target]

theorem shapeOf_pt {m : Mem} {root : Nat} {sh : Shape} (h : Realizes m root sh) {k : Nat}
    (hk : k < 2048) : (shapeOf m root).pt k = sh.pt k := by
  unfold shapeOf
  dsimp only
  rw [h.p4.target, (h.p3 (k / 512) (by omega)).target]
  cases hpt : sh.pt k with
  | none =>
    obtain ⟨-, b7, -⟩ := large_bits k
    rw [h.large k hk hpt]
    unfold tableOf
    rw [if_neg]
    rw [b7]
    exact fun hc => absurd hc.2 (by decide)
  | some p =>
    have hpoint := h.split k hk p hpt
    unfold tableOf
    rw [if_pos ⟨hpoint.present, hpoint.table⟩, hpoint.target]

/-- Memory knows the table pages. -/
theorem tables_shapeOf {m : Mem} {root : Nat} {sh : Shape} (h : Realizes m root sh) :
    tables root (shapeOf m root) = tables root sh := by
  have h2 : (shapeOf m root).p2Below 4 = sh.p2Below 4 := by
    unfold Shape.p2Below
    refine Finset.sum_congr rfl fun i hi => ?_
    rw [shapeOf_p2 h (Finset.mem_range.mp hi)]
  have h1 : (shapeOf m root).ptBelow 2048 = sh.ptBelow 2048 := by
    unfold Shape.ptBelow
    refine Finset.sum_congr rfl fun k hk => ?_
    unfold Shape.ptPage
    rw [shapeOf_pt h (Finset.mem_range.mp hk)]
  unfold tables
  rw [shapeOf_p3 h, h1, h2]

/-- The tables of a root with at most one split directory entry. -/
theorem tables_one {root : Nat} {sh : Shape} {j : Nat} (hj : j < 2048)
    (h : ∀ k, k ≠ j → sh.pt k = none) :
    tables root sh = root ::ₘ sh.p3 ::ₘ (sh.p2Below 4 + sh.ptPage j) := by
  unfold tables Shape.ptBelow
  rw [Finset.sum_eq_single_of_mem j (Finset.mem_range.mpr hj) fun k _ hk => ?_]
  unfold Shape.ptPage
  rw [h k hk]
  rfl

/-! ## Memory through a root -/

/-- What an access at a virtual address finds while `root` is loaded, 0 where it faults. -/
def seen (m : Mem) (root : Nat) : Mem := fun a =>
  match mmuWalk m root (a / 4096) with
  | none => 0
  | some w => m (w.frame + a % 4096)

/-- Where page `p` is mapped, the entries of the page behind it are seen. -/
theorem entry_seen {m : Mem} {root p i : Nat} {w : Access} (hp : p % 4096 = 0) (hi : i < 512)
    (hw : mmuWalk m root (p / 4096) = some w) :
    entry (seen m root) p i = entry m w.frame i := by
  have hbyte : ∀ x < 8, seen m root (p + 8 * i + x) = m (w.frame + 8 * i + x) := by
    intro x hx
    unfold seen
    rw [show (p + 8 * i + x) / 4096 = p / 4096 by omega, hw]
    dsimp only
    rw [show w.frame + (p + 8 * i + x) % 4096 = w.frame + 8 * i + x by omega]
  unfold entry loadQword
  have h0 := hbyte 0 (by decide)
  rw [Nat.add_zero, Nat.add_zero] at h0
  rw [h0, hbyte 1 (by decide), hbyte 2 (by decide), hbyte 3 (by decide), hbyte 4 (by decide),
    hbyte 5 (by decide), hbyte 6 (by decide), hbyte 7 (by decide)]

/-- The page is mapped at its own address. -/
def Reaches (m : Mem) (root p : Nat) : Prop :=
  (mmuWalk m root (p / 4096)).map Access.frame = some p

theorem Reaches.samePage {m : Mem} {root p : Nat} (h : Reaches m root p) (hp : p % 4096 = 0) :
    SamePage m (seen m root) p := by
  intro x h1 h2
  obtain ⟨w, hw, hf⟩ := Option.map_eq_some_iff.mp h
  unfold seen
  rw [show x / 4096 = p / 4096 by omega, hw]
  dsimp only
  rw [hf, show p + x % 4096 = x by omega]

end PcoOs.Vmm
