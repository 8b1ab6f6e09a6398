/-
  The shape of a root in memory. `Shape` names the table pages of a root: its `p3`, its four
  page directories and, for each of the 2048 directory entries, the page table it points to, if
  it was split. `Realizes m root sh` says memory `m` holds a root of that shape.

  `leafEntry m sh n` is the entry that governs the virtual page `n`. A 2 MiB entry counts as the
  512 identity entries a split would write, so splitting does not change `leafEntry`.

  * `Realizes.frame`: a root is untouched when its own table pages are.
  * `Realizes.withLeaf`: what the walking functions compute, in terms of `leafEntry`.
-/
import PcoOs.Vmm.Model

namespace PcoOs.Vmm

open PcoOs.Lib PcoOs.Pmm PcoOs.Support

/-! ## Entries -/

/-- Entry `i` of the table at `t`. -/
def entry (m : Mem) (t i : Nat) : Nat := loadQword m (t + 8 * i)

/-- Overwrite entry `i` of the table at `t`. -/
def setEntry (m : Mem) (t i v : Nat) : Mem := storeQword m (t + 8 * i) v

theorem entry_lt (m : Mem) (t i : Nat) : entry m t i < 2 ^ 64 := loadQword_lt _ _

theorem entry_setEntry_self (m : Mem) (t i : Nat) {v : Nat} (hv : v < 2 ^ 64) :
    entry (setEntry m t i v) t i = v := by
  unfold entry setEntry
  rw [loadQword_storeQword, Nat.mod_eq_of_lt hv]

theorem entry_setEntry_ne {m : Mem} {t p i j v : Nat} (ht : t % 4096 = 0) (hp : p % 4096 = 0)
    (hi : i < 512) (hj : j < 512) (hne : t ≠ p ∨ i ≠ j) :
    entry (setEntry m p j v) t i = entry m t i := by
  unfold entry setEntry
  exact loadQword_storeQword_ne (by omega)

theorem onlyPages_setEntry (m : Mem) (p v : Nat) {j : Nat} (hj : j < 512) :
    OnlyPages {p} m (setEntry m p j v) := onlyPages_storeQword m hj

theorem SamePage.entry {m m' : Mem} {t i : Nat} (h : SamePage m m' t) (hi : i < 512) :
    entry m' t i = entry m t i := h.loadQword hi

/-- A page that can hold a table. -/
structure TablePage (t : Nat) : Prop where
  aligned : t % 4096 = 0
  pos : 0 < t
  lt : t < 2 ^ 63

theorem pageTableQword_ok {m : Mem} {t i : Nat} (ht : TablePage t) (hi : i < 512) :
    pageTableQword m t i = .ok (entry m t i) := by
  have h1 := ht.aligned
  have h2 := ht.pos
  unfold pageTableQword
  rw [loadQwordRegion_ok (by omega) (by omega) (by omega) (by omega)]
  rfl

theorem setPageTableQword_ok {m : Mem} {t i v : Nat} (ht : TablePage t) (hi : i < 512) :
    setPageTableQword m t i v = .ok (setEntry m t i v) := by
  have h1 := ht.aligned
  have h2 := ht.pos
  unfold setPageTableQword
  rw [storeQwordRegion_ok (by omega) (by omega) (by omega) (by omega)]
  rfl

/-- Filling a table writes every entry and nothing else. -/
theorem fillPageTable_spec {t : Nat} (ht : TablePage t) (f : Nat → Nat)
    (hf : ∀ i < 512, f i < 2 ^ 64) (m : Mem) :
    ∃ m', fillPageTable t f m = .ok m' ∧ (∀ i < 512, entry m' t i = f i) ∧
      OnlyPages {t} m m' := by
  -- after iteration `j` the first `j` entries are written
  obtain ⟨m', hm, hI⟩ := loop_eq_ok
    (f := fun slot m => setPageTableQword m t slot (f slot))
    (fun j m' => (∀ i < j, i < 512 → entry m' t i = f i) ∧ OnlyPages {t} m m')
    (i := 0) (n := 512) (s := m)
    ⟨fun i hi => absurd hi (Nat.not_lt_zero i), OnlyPages.refl _ _⟩ (by
      intro j m₁ _ hj ⟨hw, ho⟩
      refine ⟨_, setPageTableQword_ok ht (by omega), ?_,
        ho.trans (onlyPages_setEntry m₁ t _ (by omega))⟩
      intro i hi h512
      rcases Nat.lt_succ_iff_lt_or_eq.mp hi with hlt | rfl
      · rw [entry_setEntry_ne ht.aligned ht.aligned h512 (by omega) (Or.inr (by omega))]
        exact hw i hlt h512
      · exact entry_setEntry_self _ _ _ (hf i h512))
  exact ⟨m', hm, fun i hi => hI.1 i (by omega) hi, hI.2⟩

/-! ## Indices of a virtual address -/

/-- The virtual page number of an address below 4 GiB. -/
def vpn (virt : Int) : Nat := (virt / 4096).toNat

/-- A virtual address the roots cover. -/
def InRange (virt : Int) : Prop := 0 ≤ virt ∧ virt < 2 ^ 32

theorem vpn_lt {virt : Int} (h : InRange virt) : vpn virt < 2 ^ 20 := by
  unfold InRange at h; unfold vpn; omega

theorem index_eq {virt : Int} (h : InRange virt) : pml4Index virt = 0 ∧
    pdptIndex virt = vpn virt / 512 / 512 ∧ pdIndex virt = vpn virt / 512 % 512 ∧
      ptIndex virt = vpn virt % 512 := by
  unfold InRange at h
  unfold pml4Index pdptIndex pdIndex ptIndex vpn
  simp only [Int.shiftRight_eq_div_pow]
  norm_num
  omega

theorem supports_of_inRange {virt limit : Int} (h : InRange virt) (hl : 2 ^ 32 ≤ limit) :
    vmmSupportsAddr limit virt = true := by
  have h1 := (index_eq h).1
  unfold InRange at h
  unfold vmmSupportsAddr
  exact decide_eq_true ⟨h1, by omega⟩

/-! ## Shapes -/

/-- The table pages of a root. -/
structure Shape where
  p3 : Nat
  p2 : Nat → Nat
  pt : Nat → Option Nat

/-- The page table of directory entry `k`, as a multiset. -/
def Shape.ptPage (sh : Shape) (k : Nat) : Multiset Nat := (sh.pt k).elim 0 fun p => {p}

/-- The first `n` page directories. -/
def Shape.p2Below (sh : Shape) (n : Nat) : Multiset Nat := ∑ i ∈ Finset.range n, {sh.p2 i}

/-- The page tables of the first `n` directory entries. -/
@[irreducible] def Shape.ptBelow (sh : Shape) (n : Nat) : Multiset Nat := ∑ k ∈ Finset.range n, sh.ptPage k

/-- Every table page of the root. -/
def tables (root : Nat) (sh : Shape) : Multiset Nat :=
  root ::ₘ sh.p3 ::ₘ (sh.p2Below 4 + sh.ptBelow 2048)

/-- A present, writable entry that points to the table at `p`. -/
structure Points (e p : Nat) : Prop where
  present : e.testBit 0 = true
  writable : e.testBit 1 = true
  table : e.testBit 7 = false
  target : alignDown e 4096 = p

/-- Memory `m` holds a root of shape `sh` at `root`. -/
structure Realizes (m : Mem) (root : Nat) (sh : Shape) : Prop where
  page : ∀ p ∈ tables root sh, TablePage p
  nodup : (tables root sh).Nodup
  p4 : Points (entry m root 0) sh.p3
  p4_rest : ∀ i, 0 < i → i < 512 → entry m root i = 0
  p3 : ∀ i < 4, Points (entry m sh.p3 i) (sh.p2 i)
  p3_rest : ∀ i, 4 ≤ i → i < 512 → entry m sh.p3 i = 0
  large : ∀ k < 2048, sh.pt k = none →
    entry m (sh.p2 (k / 512)) (k % 512) = (k <<< 21) ||| 0x083
  split : ∀ k < 2048, ∀ p, sh.pt k = some p → Points (entry m (sh.p2 (k / 512)) (k % 512)) p

theorem card_ptPage_le (sh : Shape) (j : Nat) : (sh.ptPage j).card ≤ 1 := by
  unfold Shape.ptPage
  cases sh.pt j with
  | none => exact Nat.zero_le _
  | some p => exact le_refl _

theorem card_p2Below (sh : Shape) (n : Nat) : (sh.p2Below n).card = n := by
  unfold Shape.p2Below
  simp

theorem mem_tables_root (root : Nat) (sh : Shape) : root ∈ tables root sh :=
  Multiset.mem_cons_self _ _

theorem mem_tables_p3 (root : Nat) (sh : Shape) : sh.p3 ∈ tables root sh :=
  Multiset.mem_cons_of_mem (Multiset.mem_cons_self _ _)

theorem mem_p2Below {sh : Shape} {n p : Nat} : p ∈ sh.p2Below n ↔ ∃ i < n, sh.p2 i = p := by
  unfold Shape.p2Below
  rw [Multiset.mem_sum]
  simp [eq_comm]

theorem mem_ptBelow {sh : Shape} {n p : Nat} :
    p ∈ sh.ptBelow n ↔ ∃ k < n, sh.pt k = some p := by
  unfold Shape.ptBelow Shape.ptPage
  rw [Multiset.mem_sum]
  refine exists_congr fun k => ?_
  rw [Finset.mem_range]
  refine and_congr_right fun _ => ?_
  cases sh.pt k <;> simp [eq_comm]

theorem mem_tables_p2 (root : Nat) (sh : Shape) {i : Nat} (hi : i < 4) :
    sh.p2 i ∈ tables root sh :=
  Multiset.mem_cons_of_mem (Multiset.mem_cons_of_mem
    (Multiset.mem_add.mpr (Or.inl (mem_p2Below.mpr ⟨i, hi, rfl⟩))))

theorem mem_tables_pt (root : Nat) (sh : Shape) {k p : Nat} (hk : k < 2048)
    (hp : sh.pt k = some p) : p ∈ tables root sh :=
  Multiset.mem_cons_of_mem (Multiset.mem_cons_of_mem
    (Multiset.mem_add.mpr (Or.inr (mem_ptBelow.mpr ⟨k, hk, hp⟩))))

/-! ## Leaf entries -/

/-- The entry that governs the virtual page `n`. -/
def leafEntry (m : Mem) (sh : Shape) (n : Nat) : Nat :=
  match sh.pt (n / 512) with
  | none => (n <<< 12) ||| 0x003
  | some pt => entry m pt (n % 512)

theorem leafEntry_none {m : Mem} {sh : Shape} {n : Nat} (h : sh.pt (n / 512) = none) :
    leafEntry m sh n = (n <<< 12) ||| 0x003 := by
  unfold leafEntry; rw [h]

theorem leafEntry_some {m : Mem} {sh : Shape} {n pt : Nat} (h : sh.pt (n / 512) = some pt) :
    leafEntry m sh n = entry m pt (n % 512) := by
  unfold leafEntry; rw [h]

/-- A root whose table pages are untouched still stands, with the same leaves. -/
theorem Realizes.frame {m m' : Mem} {root : Nat} {sh : Shape} (h : Realizes m root sh)
    (hs : ∀ p ∈ tables root sh, SamePage m m' p) : Realizes m' root sh where
  page := h.page
  nodup := h.nodup
  p4 := by rw [SamePage.entry (hs _ (mem_tables_root _ _)) (by decide)]; exact h.p4
  p4_rest := fun i h0 hi => by
    rw [SamePage.entry (hs _ (mem_tables_root _ _)) hi]; exact h.p4_rest i h0 hi
  p3 := fun i hi => by
    rw [SamePage.entry (hs _ (mem_tables_p3 _ _)) (by omega)]; exact h.p3 i hi
  p3_rest := fun i h4 hi => by
    rw [SamePage.entry (hs _ (mem_tables_p3 _ _)) hi]; exact h.p3_rest i h4 hi
  large := fun k hk hn => by
    rw [SamePage.entry (hs _ (mem_tables_p2 _ _ (by omega))) (by omega)]; exact h.large k hk hn
  split := fun k hk p hp => by
    rw [SamePage.entry (hs _ (mem_tables_p2 _ _ (by omega))) (by omega)]
    exact h.split k hk p hp

theorem leafEntry_frame {m m' : Mem} {r : Nat} {sh : Shape} {n : Nat} (hn : n < 2 ^ 20)
    (hs : ∀ p ∈ tables r sh, SamePage m m' p) : leafEntry m' sh n = leafEntry m sh n := by
  cases hp : sh.pt (n / 512) with
  | none => rw [leafEntry_none hp, leafEntry_none hp]
  | some pt =>
    rw [leafEntry_some hp, leafEntry_some hp]
    exact SamePage.entry (hs pt (mem_tables_pt _ _ (by omega) hp)) (by omega)

/-- A page with the top-level entries of a root is a root of the same shape. -/
theorem Realizes.moved {m : Mem} {root root' : Nat} {sh : Shape} (h : Realizes m root sh)
    (hpage : TablePage root') (hnew : root' ∉ tables root sh)
    (he : ∀ i < 512, entry m root' i = entry m root i) : Realizes m root' sh where
  page := fun p hp => by
    rcases Multiset.mem_cons.mp hp with rfl | hp
    · exact hpage
    · exact h.page p (Multiset.mem_cons_of_mem hp)
  nodup := Multiset.nodup_cons.mpr
    ⟨fun hc => hnew (Multiset.mem_cons_of_mem hc), (Multiset.nodup_cons.mp h.nodup).2⟩
  p4 := by rw [he 0 (by decide)]; exact h.p4
  p4_rest := fun i h0 hi => by rw [he i hi]; exact h.p4_rest i h0 hi
  p3 := h.p3
  p3_rest := h.p3_rest
  large := h.large
  split := h.split

/-! ## The walking functions -/

theorem Realizes.root_page {m : Mem} {root : Nat} {sh : Shape} (h : Realizes m root sh) :
    TablePage root := h.page _ (mem_tables_root _ _)

theorem Realizes.p3_page {m : Mem} {root : Nat} {sh : Shape} (h : Realizes m root sh) :
    TablePage sh.p3 := h.page _ (mem_tables_p3 _ _)

theorem Realizes.p2_page {m : Mem} {root : Nat} {sh : Shape} (h : Realizes m root sh) {i : Nat}
    (hi : i < 4) : TablePage (sh.p2 i) := h.page _ (mem_tables_p2 _ _ hi)

theorem Realizes.pt_page {m : Mem} {root : Nat} {sh : Shape} (h : Realizes m root sh)
    {k p : Nat} (hk : k < 2048) (hp : sh.pt k = some p) : TablePage p :=
  h.page _ (mem_tables_pt _ _ hk hp)

theorem vmmRootP3Ptr_eq {m : Mem} {root : Nat} {sh : Shape} (h : Realizes m root sh) :
    vmmRootP3Ptr m root = .ok sh.p3 := by
  unfold vmmRootP3Ptr
  rw [pageTableQword_ok h.root_page (by decide), ok_bind,
    if_neg (by rw [and_one_eq_zero, h.p4.present]; decide), h.p4.target]

/-- The directory of an address: the `p2` of its GiB, or none beyond the fourth. -/
theorem p2Below_eq {m : Mem} {root : Nat} {sh : Shape} (h : Realizes m root sh) (virt : Int) :
    p2Below m sh.p3 virt =
      .ok (if pdptIndex virt < 4 then sh.p2 (pdptIndex virt) else 0) := by
  have h512 : pdptIndex virt < 512 := by unfold pdptIndex; omega
  unfold p2Below
  rw [pageTableQword_ok h.p3_page h512, ok_bind]
  split_ifs with hz hlt hlt
  · rw [and_one_eq_zero, (h.p3 _ hlt).present] at hz
    cases hz
  · rfl
  · rw [(h.p3 _ hlt).target]
  · rw [h.p3_rest _ (by omega) h512] at hz
    exact absurd rfl hz

theorem vmmRootP2Ptr_eq {m : Mem} {root : Nat} {sh : Shape} (h : Realizes m root sh)
    (virt : Int) : vmmRootP2Ptr m root virt =
      .ok (if pdptIndex virt < 4 then sh.p2 (pdptIndex virt) else 0) := by
  unfold vmmRootP2Ptr
  rw [vmmRootP3Ptr_eq h, ok_bind, p2Below_eq h]

/-- The virtual page an address is looked up as: the walk reads 32 bits of the address. -/
def walkVpn (virt : Int) : Nat := (virt / 4096 % 2 ^ 20).toNat

theorem walkVpn_of_inRange {virt : Int} (h : InRange virt) : walkVpn virt = vpn virt := by
  unfold InRange at h; unfold walkVpn vpn; omega

theorem large_bits (k : Nat) : ((k <<< 21) ||| 0x083).testBit 0 = true ∧
    ((k <<< 21) ||| 0x083).testBit 7 = true ∧ alignDown ((k <<< 21) ||| 0x083) 0x200000 =
      k * 0x200000 := by
  have hor : (k <<< 21) ||| 0x083 = k * 0x200000 + 0x083 := by
    rw [Nat.shiftLeft_eq, show k * 2 ^ 21 = 2 ^ 21 * k by ring,
      ← Nat.two_pow_add_eq_or_of_lt (by norm_num)]
    ring
  refine ⟨by simp, by simp; decide, ?_⟩
  rw [hor]
  unfold alignDown
  omega

theorem small_bits (n : Nat) : ((n <<< 12) ||| 0x003).testBit 0 = true ∧
    ((n <<< 12) ||| 0x003).testBit 1 = true ∧ ((n <<< 12) ||| 0x003).testBit 2 = false ∧
      alignDown ((n <<< 12) ||| 0x003) 4096 = n * 4096 := by
  have ha : n <<< 12 = n * 4096 := by rw [Nat.shiftLeft_eq]
  refine ⟨by simp, by simp; decide, by simp; decide, ?_⟩
  rw [ha, alignDown_or (by omega) (by norm_num)]

/-- What a walk returns: 0 outside the range and for an absent leaf, else the value of the leaf,
    read from a 2 MiB or a 4 KiB entry. -/
theorem Realizes.withLeaf_eq {m : Mem} {root : Nat} {sh : Shape} (h : Realizes m root sh)
    (large small : Nat → Nat) (limit virt : Int) {p2Ptr : Except String Nat}
    (hp : p2Ptr = .ok (if pdptIndex virt < 4 then sh.p2 (pdptIndex virt) else 0)) :
    withLeaf large small limit p2Ptr m virt = .ok
      (if vmmSupportsAddr limit virt = true ∧ pdptIndex virt < 4 then
        match sh.pt (walkVpn virt / 512) with
        | none => large (((walkVpn virt / 512) <<< 21) ||| 0x083)
        | some _ => if (leafEntry m sh (walkVpn virt)).testBit 0 = true then
            small (leafEntry m sh (walkVpn virt)) else 0
      else 0) := by
  have hd : pdIndex virt < 512 := by unfold pdIndex; omega
  have ht : ptIndex virt < 512 := by unfold ptIndex; omega
  unfold withLeaf
  by_cases hs : vmmSupportsAddr limit virt = true
  · rw [if_neg (not_not.mpr hs), hp, ok_bind]
    by_cases hi : pdptIndex virt < 4
    · have hk : walkVpn virt / 512 < 2048 := by unfold walkVpn; omega
      have hidx : walkVpn virt / 512 / 512 = pdptIndex virt ∧
          walkVpn virt / 512 % 512 = pdIndex virt ∧ walkVpn virt % 512 = ptIndex virt := by
        unfold pdptIndex pdIndex ptIndex walkVpn at *
        simp only [Int.shiftRight_eq_div_pow] at *
        norm_num at *
        omega
      have hpos : sh.p2 (pdptIndex virt) ≠ 0 := (h.p2_page hi).pos.ne'
      have hcond : vmmSupportsAddr limit virt = true ∧ pdptIndex virt < 4 := ⟨hs, hi⟩
      rw [if_pos hi, if_neg hpos, pageTableQword_ok (h.p2_page hi) hd, ok_bind, if_pos hcond]
      cases hpt : sh.pt (walkVpn virt / 512) with
      | none =>
        have he := h.large _ hk hpt
        rw [hidx.1, hidx.2.1] at he
        obtain ⟨b0, b7, -⟩ := large_bits (walkVpn virt / 512)
        rw [he, if_neg (by rw [and_one_eq_zero, b0]; decide),
          if_pos (by rw [Ne, and_large_eq_zero, b7]; decide)]
      | some pt =>
        have he := h.split _ hk pt hpt
        rw [hidx.1, hidx.2.1] at he
        rw [if_neg (by rw [and_one_eq_zero, he.present]; decide),
          if_neg (by rw [not_not, and_large_eq_zero, he.table]), he.target,
          pageTableQword_ok (h.pt_page hk hpt) ht, ok_bind, leafEntry_some hpt, hidx.2.2]
        dsimp only
        by_cases hb : (entry m pt (ptIndex virt)).testBit 0 = true
        · rw [if_pos hb, if_neg (by rw [and_one_eq_zero, hb]; decide)]
        · rw [if_neg hb, if_pos (by rw [and_one_eq_zero]; simpa using hb)]
    · rw [if_neg hi, if_pos rfl, if_neg (by tauto)]
  · rw [if_pos hs, if_neg (by tauto)]

/-- The physical address a leaf maps an address to, 0 for an absent leaf. -/
def leafTarget (e : Nat) (virt : Int) : Nat :=
  if e.testBit 0 = true then alignDown e 4096 + (virt % 4096).toNat else 0

/-- Translation in terms of the leaf, for every address of the signed 64-bit range. -/
theorem Realizes.translate_eq {m : Mem} {root : Nat} {sh : Shape} (h : Realizes m root sh)
    (limit virt : Int) {p2Ptr : Except String Nat}
    (hp : p2Ptr = .ok (if pdptIndex virt < 4 then sh.p2 (pdptIndex virt) else 0)) :
    withLeaf (largeTarget virt) (smallTarget virt) limit p2Ptr m virt = .ok
      (if vmmSupportsAddr limit virt = true ∧ pdptIndex virt < 4 then
        leafTarget (leafEntry m sh (walkVpn virt)) virt else 0) := by
  rw [h.withLeaf_eq _ _ limit virt hp]
  congr 1
  refine if_congr Iff.rfl ?_ rfl
  cases hpt : sh.pt (walkVpn virt / 512) with
  | none =>
    obtain ⟨b0, -, -, ha⟩ := small_bits (walkVpn virt)
    dsimp only
    rw [leafEntry_none hpt]
    unfold leafTarget largeTarget
    rw [if_pos b0, ha, (large_bits _).2.2]
    unfold walkVpn
    omega
  | some pt => rfl

/-- Translation of an address below 4 GiB. -/
theorem Realizes.translate_inRange {m : Mem} {root : Nat} {sh : Shape} (h : Realizes m root sh)
    {limit virt : Int} (hv : InRange virt) (hl : 2 ^ 32 ≤ limit) {p2Ptr : Except String Nat}
    (hp : p2Ptr = .ok (if pdptIndex virt < 4 then sh.p2 (pdptIndex virt) else 0)) :
    withLeaf (largeTarget virt) (smallTarget virt) limit p2Ptr m virt =
      .ok (leafTarget (leafEntry m sh (vpn virt)) virt) := by
  have hi : pdptIndex virt < 4 := by
    have := vpn_lt hv
    rw [(index_eq hv).2.1]; omega
  rw [h.translate_eq limit virt hp, if_pos ⟨supports_of_inRange hv hl, hi⟩,
    walkVpn_of_inRange hv]

end PcoOs.Vmm
