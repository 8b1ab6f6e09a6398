/-
  What each page-table operation does to the root it works on. `Owned P root ph sh` says the
  root at `root` has shape `sh` and its table pages are handed out; `RootStep` is the effect every
  operation has: it may add table pages, writes inside the root's own tables only and keeps the
  allocator invariant. `RootStep.keeps` is the frame rule for everything else that is handed out.

  The `_spec` theorems give, for each function, the new leaf entries, and say that the only
  panics left are running out of pages and the documented misuse.
-/
import PcoOs.Pmm.Pool
import PcoOs.Vmm.Tables

namespace PcoOs.Vmm

open PcoOs.Lib PcoOs.Pmm PcoOs.Support

/-! ## Distinct table pages -/

theorem Realizes.pt_ne_root {m : Mem} {root : Nat} {sh : Shape} (h : Realizes m root sh)
    {k p : Nat} (hk : k < 2048) (hp : sh.pt k = some p) : p ≠ root := by
  have hnd := Multiset.nodup_cons.mp h.nodup
  rintro rfl
  exact hnd.1 (Multiset.mem_cons_of_mem (Multiset.mem_add.mpr
    (Or.inr (mem_ptBelow.mpr ⟨k, hk, hp⟩))))

theorem Realizes.pt_ne_p3 {m : Mem} {root : Nat} {sh : Shape} (h : Realizes m root sh)
    {k p : Nat} (hk : k < 2048) (hp : sh.pt k = some p) : p ≠ sh.p3 := by
  have hnd := Multiset.nodup_cons.mp (Multiset.nodup_cons.mp h.nodup).2
  rintro rfl
  exact hnd.1 (Multiset.mem_add.mpr (Or.inr (mem_ptBelow.mpr ⟨k, hk, hp⟩)))

theorem Realizes.pt_ne_p2 {m : Mem} {root : Nat} {sh : Shape} (h : Realizes m root sh)
    {k p i : Nat} (hk : k < 2048) (hp : sh.pt k = some p) (hi : i < 4) : p ≠ sh.p2 i := by
  have hnd := (Multiset.nodup_cons.mp (Multiset.nodup_cons.mp h.nodup).2).2
  rintro rfl
  exact Multiset.disjoint_left.mp (Multiset.nodup_add.mp hnd).2.2
    (mem_p2Below.mpr ⟨i, hi, rfl⟩) (mem_ptBelow.mpr ⟨k, hk, hp⟩)

theorem Shape.p2_inj {sh : Shape} {n : Nat} (h : (sh.p2Below n).Nodup) {i j : Nat} (hi : i < n)
    (hj : j < n) (he : sh.p2 i = sh.p2 j) : i = j := by
  unfold Shape.p2Below at h
  exact eq_of_mem_of_nodup_sum h (Finset.mem_range.mpr hi) (Finset.mem_range.mpr hj)
    (Multiset.mem_singleton_self _) (Multiset.mem_singleton.mpr he)

theorem Shape.mem_ptPage {sh : Shape} {k p : Nat} (hp : sh.pt k = some p) : p ∈ sh.ptPage k := by
  unfold Shape.ptPage
  rw [hp]
  exact Multiset.mem_singleton_self p

theorem Shape.pt_inj {sh : Shape} {n : Nat} (h : (sh.ptBelow n).Nodup) {k k' p : Nat}
    (hk : k < n) (hk' : k' < n) (hp : sh.pt k = some p) (hp' : sh.pt k' = some p) : k = k' := by
  unfold Shape.ptBelow at h
  exact eq_of_mem_of_nodup_sum h (Finset.mem_range.mpr hk) (Finset.mem_range.mpr hk')
    (Shape.mem_ptPage hp) (Shape.mem_ptPage hp')

theorem Realizes.p2_inj {m : Mem} {root : Nat} {sh : Shape} (h : Realizes m root sh)
    {i j : Nat} (hi : i < 4) (hj : j < 4) (he : sh.p2 i = sh.p2 j) : i = j := by
  have hnd := (Multiset.nodup_cons.mp (Multiset.nodup_cons.mp h.nodup).2).2
  exact Shape.p2_inj (Multiset.nodup_add.mp hnd).1 hi hj he

theorem Realizes.pt_inj {m : Mem} {root : Nat} {sh : Shape} (h : Realizes m root sh)
    {k k' p : Nat} (hk : k < 2048) (hk' : k' < 2048) (hp : sh.pt k = some p)
    (hp' : sh.pt k' = some p) : k = k' := by
  have hnd := (Multiset.nodup_cons.mp (Multiset.nodup_cons.mp h.nodup).2).2
  exact Shape.pt_inj (Multiset.nodup_add.mp hnd).2.1 hk hk' hp hp'

/-- The shape after directory entry `k` was split into the table at `p`. -/
def Shape.addPt (sh : Shape) (k p : Nat) : Shape :=
  { sh with pt := Function.update sh.pt k (some p) }

theorem Shape.ptBelow_addPt {sh : Shape} {k n : Nat} (hk : k < n) (hn : sh.pt k = none)
    (p : Nat) : (sh.addPt k p).ptBelow n = sh.ptBelow n + {p} := by
  have hmem := Finset.mem_range.mpr hk
  unfold Shape.ptBelow
  rw [← Finset.add_sum_erase _ _ hmem, ← Finset.add_sum_erase (a := k) _ sh.ptPage hmem]
  have hrest : ∑ x ∈ (Finset.range n).erase k, (sh.addPt k p).ptPage x =
      ∑ x ∈ (Finset.range n).erase k, sh.ptPage x := by
    refine Finset.sum_congr rfl fun x hx => ?_
    unfold Shape.ptPage Shape.addPt
    dsimp only
    rw [Function.update_of_ne (Finset.ne_of_mem_erase hx)]
  rw [hrest]
  unfold Shape.ptPage Shape.addPt
  dsimp only
  rw [Function.update_self, hn]
  simp [add_comm]

theorem tables_addPt (root : Nat) {sh : Shape} {k : Nat} (hk : k < 2048) (hn : sh.pt k = none)
    (p : Nat) : tables root (sh.addPt k p) = tables root sh + {p} := by
  unfold tables
  rw [Shape.ptBelow_addPt hk hn, show (sh.addPt k p).p2Below 4 = sh.p2Below 4 from rfl,
    show (sh.addPt k p).p3 = sh.p3 from rfl]
  simp only [Multiset.cons_add, add_assoc]

/-! ## The effect of an operation -/

/-- The user bit is set on the three upper levels above directory entry `k`. -/
structure UserPath (m : Mem) (root : Nat) (sh : Shape) (k : Nat) : Prop where
  p4 : (entry m root 0).testBit 2 = true
  p3 : (entry m sh.p3 (k / 512)).testBit 2 = true
  p2 : (entry m (sh.p2 (k / 512)) (k % 512)).testBit 2 = true

/-- A root of shape `sh` whose table pages are handed out by the allocator. -/
structure Owned (P : Pool) (root : Nat) (ph : Phys) (sh : Shape) : Prop where
  inv : PmmInv P ph.pmm
  realizes : Realizes ph.mem root sh
  held : tables root sh ≤ outstanding ph.pmm.history

/-- What page-table code may do between `ph` and `ph'` when it works on the root at `root`. -/
structure RootStep (P : Pool) (root : Nat) (ph : Phys) (sh : Shape) (ph' : Phys) (sh' : Shape) :
    Prop where
  inv : PmmInv P ph'.pmm
  realizes : Realizes ph'.mem root sh'
  handed : ∃ N : Multiset Nat, outstanding ph'.pmm.history = outstanding ph.pmm.history + N ∧
    tables root sh' = tables root sh + N
  only : OnlyPages (tables root sh') ph.mem ph'.mem
  cr3 : ph'.cr3 = ph.cr3
  p3 : sh'.p3 = sh.p3
  p2 : sh'.p2 = sh.p2
  user : ∀ k < 2048, UserPath ph.mem root sh k → UserPath ph'.mem root sh' k

theorem RootStep.owned {P : Pool} {root : Nat} {ph ph' : Phys} {sh sh' : Shape}
    (h : Owned P root ph sh) (hs : RootStep P root ph sh ph' sh') : Owned P root ph' sh' := by
  obtain ⟨N, hN, hT⟩ := hs.handed
  refine ⟨hs.inv, hs.realizes, ?_⟩
  rw [hN, hT]
  exact Multiset.add_le_add_right h.held

theorem RootStep.refl {P : Pool} {root : Nat} {ph : Phys} {sh : Shape}
    (h : Owned P root ph sh) : RootStep P root ph sh ph sh where
  inv := h.inv
  realizes := h.realizes
  handed := ⟨0, (add_zero _).symm, (add_zero _).symm⟩
  only := OnlyPages.refl _ _
  cr3 := rfl
  p3 := rfl
  p2 := rfl
  user := fun _ _ hu => hu

theorem RootStep.trans {P : Pool} {root : Nat} {ph₁ ph₂ ph₃ : Phys} {sh₁ sh₂ sh₃ : Shape}
    (h : RootStep P root ph₁ sh₁ ph₂ sh₂) (h' : RootStep P root ph₂ sh₂ ph₃ sh₃) :
    RootStep P root ph₁ sh₁ ph₃ sh₃ where
  inv := h'.inv
  realizes := h'.realizes
  handed := by
    obtain ⟨N, hN, hT⟩ := h.handed
    obtain ⟨N', hN', hT'⟩ := h'.handed
    exact ⟨N + N', by rw [hN', hN, add_assoc], by rw [hT', hT, add_assoc]⟩
  only := by
    obtain ⟨N, -, hT⟩ := h'.handed
    refine OnlyPages.trans (h.only.mono fun p hp => ?_) h'.only
    rw [hT]
    exact Multiset.mem_add.mpr (Or.inl hp)
  cr3 := h'.cr3.trans h.cr3
  p3 := h'.p3.trans h.p3
  p2 := h'.p2.trans h.p2
  user := fun k hk hu => h'.user k hk (h.user k hk hu)

/-- Pages handed out and not in the tables of `root` are untouched, and stay handed out beside
    them. -/
theorem RootStep.keeps {P : Pool} {root : Nat} {ph ph' : Phys} {sh sh' : Shape}
    (hs : RootStep P root ph sh ph' sh') {R : Multiset Nat}
    (hR : tables root sh + R ≤ outstanding ph.pmm.history) :
    (∀ p ∈ R, SamePage ph.mem ph'.mem p) ∧
      tables root sh' + R ≤ outstanding ph'.pmm.history := by
  obtain ⟨N, hN, hT⟩ := hs.handed
  have hle : tables root sh' + R ≤ outstanding ph'.pmm.history := by
    rw [hT, hN, add_right_comm]
    exact Multiset.add_le_add_right hR
  refine ⟨fun p hp => ?_, hle⟩
  have hmem : ∀ q ∈ tables root sh' + R, q ∈ P.pages := fun q hq =>
    hs.inv.mem_pages (Multiset.mem_of_le hle hq)
  have hnd := Multiset.nodup_of_le hle hs.inv.balanced.nodup
  refine hs.only.samePage (P.aligned p (hmem p (Multiset.mem_add.mpr (Or.inr hp))))
    (fun q hq => P.aligned q (hmem q (Multiset.mem_add.mpr (Or.inl hq)))) fun hpt => ?_
  exact Multiset.disjoint_left.mp (Multiset.nodup_add.mp hnd).2.2 hpt hp

/-- Another root is untouched by an operation on this one. -/
theorem RootStep.other {P : Pool} {root root' : Nat} {ph ph' : Phys} {sh sh' sho : Shape}
    (hs : RootStep P root ph sh ph' sh') (ho : Realizes ph.mem root' sho)
    (hR : tables root sh + tables root' sho ≤ outstanding ph.pmm.history) :
    Realizes ph'.mem root' sho ∧
      ∀ n < 2 ^ 20, leafEntry ph'.mem sho n = leafEntry ph.mem sho n :=
  ⟨ho.frame (hs.keeps hR).1, fun _ hn => leafEntry_frame (r := root') hn (hs.keeps hR).1⟩

/-- The table pages of an owned root are pages of the pool. -/
theorem Owned.mem_pages {P : Pool} {root : Nat} {ph : Phys} {sh : Shape} (h : Owned P root ph sh)
    {p : Nat} (hp : p ∈ tables root sh) : p ∈ P.pages :=
  h.inv.mem_pages (Multiset.mem_of_le h.held hp)

/-! ## Stores into the tables of a root -/

/-- Writing one entry of a page table changes one leaf. -/
theorem Owned.storeLeaf {P : Pool} {root : Nat} {ph : Phys} {sh : Shape} (h : Owned P root ph sh)
    {n pt v : Nat} (hn : n < 2 ^ 20) (hpt : sh.pt (n / 512) = some pt) (hv : v < 2 ^ 64) :
    RootStep P root ph sh { ph with mem := setEntry ph.mem pt (n % 512) v } sh ∧
      ∀ n' < 2 ^ 20, leafEntry (setEntry ph.mem pt (n % 512) v) sh n' =
        if n' = n then v else leafEntry ph.mem sh n' := by
  have hr := h.realizes
  have hk : n / 512 < 2048 := by omega
  have hpage := hr.pt_page hk hpt
  have hj : n % 512 < 512 := by omega
  have hroot : ∀ i < 512, entry (setEntry ph.mem pt (n % 512) v) root i = entry ph.mem root i :=
    fun i hi => entry_setEntry_ne hr.root_page.aligned hpage.aligned hi hj
      (Or.inl (hr.pt_ne_root hk hpt).symm)
  have hp3 : ∀ i < 512, entry (setEntry ph.mem pt (n % 512) v) sh.p3 i = entry ph.mem sh.p3 i :=
    fun i hi => entry_setEntry_ne hr.p3_page.aligned hpage.aligned hi hj
      (Or.inl (hr.pt_ne_p3 hk hpt).symm)
  have hp2 : ∀ a < 4, ∀ i < 512, entry (setEntry ph.mem pt (n % 512) v) (sh.p2 a) i =
      entry ph.mem (sh.p2 a) i := fun a ha i hi =>
    entry_setEntry_ne (hr.p2_page ha).aligned hpage.aligned hi hj
      (Or.inl (hr.pt_ne_p2 hk hpt ha).symm)
  refine ⟨?_, ?_⟩
  · refine ⟨h.inv, ?_, ⟨0, (add_zero _).symm, (add_zero _).symm⟩, ?_, rfl, rfl, rfl, ?_⟩
    · exact {
        page := hr.page
        nodup := hr.nodup
        p4 := by dsimp only; rw [hroot 0 (by decide)]; exact hr.p4
        p4_rest := fun i h0 hi => by dsimp only; rw [hroot i hi]; exact hr.p4_rest i h0 hi
        p3 := fun i hi => by dsimp only; rw [hp3 i (by omega)]; exact hr.p3 i hi
        p3_rest := fun i h4 hi => by dsimp only; rw [hp3 i hi]; exact hr.p3_rest i h4 hi
        large := fun k hk hn => by
          dsimp only; rw [hp2 _ (by omega) _ (by omega)]; exact hr.large k hk hn
        split := fun k hk p hp => by
          dsimp only; rw [hp2 _ (by omega) _ (by omega)]; exact hr.split k hk p hp }
    · refine (onlyPages_setEntry ph.mem pt v hj).mono fun p hp => ?_
      rw [Multiset.mem_singleton.mp hp]
      exact mem_tables_pt root sh hk hpt
    · intro k hk hu
      exact ⟨by dsimp only; rw [hroot 0 (by decide)]; exact hu.p4,
        by dsimp only; rw [hp3 _ (by omega)]; exact hu.p3,
        by dsimp only; rw [hp2 _ (by omega) _ (by omega)]; exact hu.p2⟩
  · intro n' hn'
    by_cases hb : n' = n
    · subst hb
      rw [if_pos rfl, leafEntry_some hpt, entry_setEntry_self _ _ _ hv]
    · rw [if_neg hb]
      cases hp' : sh.pt (n' / 512) with
      | none => rw [leafEntry_none hp', leafEntry_none hp']
      | some pt' =>
        rw [leafEntry_some hp', leafEntry_some hp']
        refine entry_setEntry_ne (hr.pt_page (by omega) hp').aligned hpage.aligned (by omega) hj ?_
        by_contra hc
        push Not at hc
        have := hr.pt_inj (by omega) hk (hc.1 ▸ hp') hpt
        omega

theorem Points.user {e p : Nat} (h : Points e p) : Points (e ||| 0x004) p where
  present := by rw [Nat.testBit_or, h.present]; rfl
  writable := by rw [Nat.testBit_or, h.writable]; rfl
  table := by rw [Nat.testBit_or, h.table]; decide
  target := by rw [alignDown_or_flags _ (by norm_num)]; exact h.target

theorem or_user_lt {e : Nat} (h : e < 2 ^ 64) : e ||| 0x004 < 2 ^ 64 :=
  Nat.or_lt_two_pow h (by norm_num)

/-- Setting the user bit on an upper-level entry keeps the root and all leaves. -/
theorem Owned.storeUser {P : Pool} {root : Nat} {ph : Phys} {sh : Shape} (h : Owned P root ph sh)
    {t i q : Nat} (ht : t ∈ tables root sh) (hi : i < 512) (hpt : ∀ k < 2048, sh.pt k ≠ some t)
    (he : Points (entry ph.mem t i) q) :
    RootStep P root ph sh { ph with mem := setEntry ph.mem t i (entry ph.mem t i ||| 0x004) } sh ∧
      (∀ n < 2 ^ 20, leafEntry (setEntry ph.mem t i (entry ph.mem t i ||| 0x004)) sh n =
        leafEntry ph.mem sh n) ∧
      (entry (setEntry ph.mem t i (entry ph.mem t i ||| 0x004)) t i).testBit 2 = true := by
  have hr := h.realizes
  have hpage := hr.page t ht
  have hlt := or_user_lt (entry_lt ph.mem t i)
  -- an entry of the new memory is the old one, or the marked one
  have hcase : ∀ p ∈ tables root sh, ∀ j < 512,
      (entry (setEntry ph.mem t i (entry ph.mem t i ||| 0x004)) p j = entry ph.mem p j) ∨
      (p = t ∧ j = i ∧ entry (setEntry ph.mem t i (entry ph.mem t i ||| 0x004)) p j =
        entry ph.mem p j ||| 0x004) := by
    intro p hp j hj
    by_cases hc : p = t ∧ j = i
    · obtain ⟨rfl, rfl⟩ := hc
      exact Or.inr ⟨rfl, rfl, entry_setEntry_self _ _ _ hlt⟩
    · exact Or.inl (entry_setEntry_ne (hr.page p hp).aligned hpage.aligned hj hi (by tauto))
  have hpoints : ∀ p ∈ tables root sh, ∀ j < 512, ∀ q, Points (entry ph.mem p j) q →
      Points (entry (setEntry ph.mem t i (entry ph.mem t i ||| 0x004)) p j) q := by
    intro p hp j hj q hq
    rcases hcase p hp j hj with hc | ⟨-, -, hc⟩
    · rw [hc]; exact hq
    · rw [hc]; exact hq.user
  have hsame : ∀ p ∈ tables root sh, ∀ j < 512, (∀ q, ¬ Points (entry ph.mem p j) q) →
      entry (setEntry ph.mem t i (entry ph.mem t i ||| 0x004)) p j = entry ph.mem p j := by
    intro p hp j hj hq
    rcases hcase p hp j hj with hc | ⟨rfl, rfl, -⟩
    · exact hc
    · exact absurd he (hq q)
  have hzero : ∀ q, ¬ Points 0 q := fun q hq => by have := hq.present; simp at this
  have hlarge : ∀ k q, ¬ Points ((k <<< 21) ||| 0x083) q := fun k q hq => by
    have := hq.table
    rw [(large_bits k).2.1] at this
    cases this
  have huser : ∀ p ∈ tables root sh, ∀ j < 512, (entry ph.mem p j).testBit 2 = true →
      (entry (setEntry ph.mem t i (entry ph.mem t i ||| 0x004)) p j).testBit 2 = true := by
    intro p hp j hj hb
    rcases hcase p hp j hj with hc | ⟨-, -, hc⟩
    · rw [hc]; exact hb
    · rw [hc, Nat.testBit_or, hb]; rfl
  refine ⟨⟨h.inv, ?_, ⟨0, (add_zero _).symm, (add_zero _).symm⟩, ?_, rfl, rfl, rfl, ?_⟩, ?_, ?_⟩
  · exact {
      page := hr.page
      nodup := hr.nodup
      p4 := hpoints _ (mem_tables_root _ _) 0 (by decide) _ hr.p4
      p4_rest := fun j h0 hj => by
        have h1 := hr.p4_rest j h0 hj
        exact (hsame _ (mem_tables_root _ _) j hj (by rw [h1]; exact hzero)).trans h1
      p3 := fun j hj => hpoints _ (mem_tables_p3 _ _) j (by omega) _ (hr.p3 j hj)
      p3_rest := fun j h4 hj => by
        have h1 := hr.p3_rest j h4 hj
        exact (hsame _ (mem_tables_p3 _ _) j hj (by rw [h1]; exact hzero)).trans h1
      large := fun k hk hn => by
        have h1 := hr.large k hk hn
        exact (hsame _ (mem_tables_p2 _ _ (by omega)) _ (by omega)
          (by rw [h1]; exact hlarge k)).trans h1
      split := fun k hk p hp =>
        hpoints _ (mem_tables_p2 _ _ (by omega)) _ (by omega) _ (hr.split k hk p hp) }
  · refine (onlyPages_setEntry ph.mem t _ hi).mono fun p hp => ?_
    rw [Multiset.mem_singleton.mp hp]
    exact ht
  · intro k hk hu
    exact ⟨huser _ (mem_tables_root _ _) 0 (by decide) hu.p4,
      huser _ (mem_tables_p3 _ _) _ (by omega) hu.p3,
      huser _ (mem_tables_p2 _ _ (by omega)) _ (by omega) hu.p2⟩
  · intro n hn
    cases hp : sh.pt (n / 512) with
    | none => rw [leafEntry_none hp, leafEntry_none hp]
    | some p =>
      rw [leafEntry_some hp, leafEntry_some hp]
      refine entry_setEntry_ne (hr.pt_page (by omega) hp).aligned hpage.aligned (by omega) hi
        (Or.inl fun hc => ?_)
      exact hpt (n / 512) (by omega) (hc ▸ hp)
  · rw [entry_setEntry_self _ _ _ hlt, Nat.testBit_or]
    simp
    exact Or.inr (by decide)

/-! ## Splitting -/

/-- An allocation in the words of the page-table code. -/
theorem PmmInv.alloc_table {P : Pool} {s : PmmState} (h : PmmInv P s) :
    (s.freePages = 0 ∧ pmmAllocPage s = (0, s)) ∨
      ∃ p t, pmmAllocPage s = (p, t) ∧ 0 < s.freePages ∧ t.freePages = s.freePages - 1 ∧
        TablePage p ∧ p ∉ outstanding s.history ∧
        outstanding t.history = outstanding s.history + {p} ∧ PmmInv P t := by
  rcases pmmAllocPage_spec h with h0 | ⟨p, t, he, hpos, hpool, hfree, hhist, ht⟩
  · exact Or.inl h0
  · obtain ⟨hmem, hout⟩ := h.of_free (p := p) (hpool ▸ Multiset.mem_cons_self _ _)
    have hlow := P.low p hmem
    have hhigh := P.high p hmem
    refine Or.inr ⟨p, t, he, hpos, hfree, ⟨P.aligned p hmem, by omega, by omega⟩, hout, ?_, ht⟩
    rw [hhist, outstanding_give, ← Multiset.singleton_add, add_comm]

theorem zeroPage_spec {t : Nat} (ht : TablePage t) (m : Mem) :
    ∃ m', zeroPage t m = .ok m' ∧ (∀ i < 512, entry m' t i = 0) ∧ OnlyPages {t} m m' :=
  fillPageTable_spec ht (fun _ => 0) (by norm_num) m

theorem TablePage.or_lt {p f : Nat} (h : TablePage p) (hf : f < 4096) : p ||| f < 2 ^ 64 := by
  have := h.lt
  exact PcoOs.Lib.or_lt h.aligned hf (by omega)

theorem TablePage.points {p : Nat} (h : TablePage p) : Points (p ||| 0x003) p where
  present := by rw [testBit_or_aligned h.aligned (by decide)]; decide
  writable := by rw [testBit_or_aligned h.aligned (by decide)]; decide
  table := by rw [testBit_or_aligned h.aligned (by decide)]; decide
  target := alignDown_or h.aligned (by decide)

theorem Realizes.root_ne_p2 {m : Mem} {root : Nat} {sh : Shape} (h : Realizes m root sh)
    {i : Nat} (hi : i < 4) : root ≠ sh.p2 i := by
  rintro he
  have hnd := (Multiset.nodup_cons.mp h.nodup).1
  apply hnd
  rw [he]
  exact Multiset.mem_cons_of_mem (Multiset.mem_add.mpr (Or.inl (mem_p2Below.mpr ⟨i, hi, rfl⟩)))

theorem Realizes.p3_ne_p2 {m : Mem} {root : Nat} {sh : Shape} (h : Realizes m root sh)
    {i : Nat} (hi : i < 4) : sh.p3 ≠ sh.p2 i := by
  rintro he
  have hnd := (Multiset.nodup_cons.mp (Multiset.nodup_cons.mp h.nodup).2).1
  apply hnd
  rw [he]
  exact Multiset.mem_add.mpr (Or.inl (mem_p2Below.mpr ⟨i, hi, rfl⟩))

theorem splitEntry_eq (k j : Nat) :
    (k * 0x200000 + (j <<< 12)) ||| 0x003 = ((512 * k + j) <<< 12) ||| 0x003 := by
  have h : k * 0x200000 + (j <<< 12) = (512 * k + j) <<< 12 := by
    rw [Nat.shiftLeft_eq, Nat.shiftLeft_eq]; ring
  rw [h]

theorem splitEntry_lt {k j : Nat} (hk : k < 2048) (hj : j < 512) :
    (k * 0x200000 + (j <<< 12)) ||| 0x003 < 2 ^ 64 := by
  have ha : (k * 0x200000 + (j <<< 12)) % 4096 = 0 := by rw [Nat.shiftLeft_eq]; omega
  have hb : k * 0x200000 + (j <<< 12) < 2 ^ 64 := by rw [Nat.shiftLeft_eq]; omega
  exact PcoOs.Lib.or_lt ha (by norm_num) hb

/-- Replacing the 2 MiB entry `k` by a table `p` of its 512 pieces. -/
theorem Owned.addTable {P : Pool} {root : Nat} {ph : Phys} {sh : Shape} (h : Owned P root ph sh)
    {k p : Nat} (hk : k < 2048) (hn : sh.pt k = none) {t : PmmState} (hp : TablePage p)
    (hout : p ∉ outstanding ph.pmm.history)
    (hist : outstanding t.history = outstanding ph.pmm.history + {p}) (ht : PmmInv P t)
    {m : Mem} (hm : OnlyPages {p} ph.mem m)
    (hfill : ∀ j < 512, entry m p j = (k * 0x200000 + (j <<< 12)) ||| 0x003) :
    RootStep P root ph sh
        { ph with pmm := t, mem := setEntry m (sh.p2 (k / 512)) (k % 512) (p ||| 0x003) }
        (sh.addPt k p) ∧
      ∀ n < 2 ^ 20, leafEntry (setEntry m (sh.p2 (k / 512)) (k % 512) (p ||| 0x003))
        (sh.addPt k p) n = leafEntry ph.mem sh n := by
  have hr := h.realizes
  have hk4 : k / 512 < 4 := by omega
  have hd : k % 512 < 512 := by omega
  have hp2 := hr.p2_page hk4
  have hpt : p ∉ tables root sh := fun hc => hout (Multiset.mem_of_le h.held hc)
  -- an entry of the old tables changes only at the directory entry
  have hsame : ∀ q ∈ tables root sh, ∀ j < 512, q ≠ sh.p2 (k / 512) ∨ j ≠ k % 512 →
      entry (setEntry m (sh.p2 (k / 512)) (k % 512) (p ||| 0x003)) q j = entry ph.mem q j := by
    intro q hq j hj hne
    rw [entry_setEntry_ne (hr.page q hq).aligned hp2.aligned hj hd hne]
    refine SamePage.entry (hm.samePage (hr.page q hq).aligned ?_ ?_) hj
    · intro x hx; rw [Multiset.mem_singleton.mp hx]; exact hp.aligned
    · intro hx; exact hpt (Multiset.mem_singleton.mp hx ▸ hq)
  have hset : entry (setEntry m (sh.p2 (k / 512)) (k % 512) (p ||| 0x003)) (sh.p2 (k / 512))
      (k % 512) = p ||| 0x003 := entry_setEntry_self _ _ _ (hp.or_lt (by decide))
  have hpne : p ≠ sh.p2 (k / 512) := fun hc => hpt (hc ▸ mem_tables_p2 root sh hk4)
  have hdir : ∀ k' < 2048, k' ≠ k → sh.p2 (k' / 512) ≠ sh.p2 (k / 512) ∨ k' % 512 ≠ k % 512 := by
    intro k' hk' hne
    by_contra hc
    push Not at hc
    have := hr.p2_inj (by omega) hk4 hc.1
    omega
  have htab := tables_addPt root hk hn p
  refine ⟨⟨ht, ?_, ⟨{p}, hist, htab⟩, ?_, rfl, rfl, rfl, ?_⟩, ?_⟩
  · exact {
      page := by
        intro q hq
        rw [htab] at hq
        rcases Multiset.mem_add.mp hq with hq | hq
        · exact hr.page q hq
        · rw [Multiset.mem_singleton.mp hq]; exact hp
      nodup := by
        rw [htab, add_comm, Multiset.singleton_add]
        exact Multiset.nodup_cons.mpr ⟨hpt, hr.nodup⟩
      p4 := by
        dsimp only
        rw [hsame _ (mem_tables_root _ _) 0 (by decide) (Or.inl (hr.root_ne_p2 hk4))]
        exact hr.p4
      p4_rest := fun i h0 hi => by
        dsimp only
        rw [hsame _ (mem_tables_root _ _) i hi (Or.inl (hr.root_ne_p2 hk4))]
        exact hr.p4_rest i h0 hi
      p3 := fun i hi => by
        dsimp only [Shape.addPt]
        rw [hsame _ (mem_tables_p3 _ _) i (by omega) (Or.inl (hr.p3_ne_p2 hk4))]
        exact hr.p3 i hi
      p3_rest := fun i h4 hi => by
        dsimp only [Shape.addPt]
        rw [hsame _ (mem_tables_p3 _ _) i hi (Or.inl (hr.p3_ne_p2 hk4))]
        exact hr.p3_rest i h4 hi
      large := fun k' hk' hn' => by
        have hne : k' ≠ k := by
          rintro rfl
          simp [Shape.addPt] at hn'
        dsimp only [Shape.addPt] at hn' ⊢
        rw [Function.update_of_ne hne] at hn'
        rw [hsame _ (mem_tables_p2 _ _ (by omega)) _ (by omega) (hdir k' hk' hne)]
        exact hr.large k' hk' hn'
      split := fun k' hk' q hq => by
        dsimp only [Shape.addPt] at hq ⊢
        by_cases hne : k' = k
        · subst hne
          rw [Function.update_self] at hq
          cases hq
          rw [hset]
          exact hp.points
        · rw [Function.update_of_ne hne] at hq
          rw [hsame _ (mem_tables_p2 _ _ (by omega)) _ (by omega) (hdir k' hk' hne)]
          exact hr.split k' hk' q hq }
  · rw [htab]
    refine OnlyPages.trans (hm.mono fun q hq => ?_) ((onlyPages_setEntry m _ _ hd).mono
      fun q hq => ?_)
    · exact Multiset.mem_add.mpr (Or.inr hq)
    · rw [Multiset.mem_singleton.mp hq]
      exact Multiset.mem_add.mpr (Or.inl (mem_tables_p2 root sh hk4))
  · intro k' hk' hu
    have hne : k' ≠ k := by
      rintro rfl
      have := hu.p2
      rw [hr.large k' hk' hn] at this
      simp at this
      exact absurd this (by decide)
    refine ⟨?_, ?_, ?_⟩
    · dsimp only
      rw [hsame _ (mem_tables_root _ _) 0 (by decide) (Or.inl (hr.root_ne_p2 hk4))]
      exact hu.p4
    · dsimp only [Shape.addPt]
      rw [hsame _ (mem_tables_p3 _ _) _ (by omega) (Or.inl (hr.p3_ne_p2 hk4))]
      exact hu.p3
    · dsimp only [Shape.addPt]
      rw [hsame _ (mem_tables_p2 _ _ (by omega)) _ (by omega) (hdir k' hk' hne)]
      exact hu.p2
  · intro n hn'
    by_cases hne : n / 512 = k
    · have hadd : (sh.addPt k p).pt (n / 512) = some p := by
        rw [hne]; exact Function.update_self _ _ _
      rw [leafEntry_some hadd, leafEntry_none (hne ▸ hn),
        entry_setEntry_ne hp.aligned hp2.aligned (by omega) hd (Or.inl hpne),
        hfill _ (by omega), splitEntry_eq,
        show 512 * k + n % 512 = n by omega]
    · have hadd : (sh.addPt k p).pt (n / 512) = sh.pt (n / 512) := Function.update_of_ne hne _ _
      cases hq : sh.pt (n / 512) with
      | none => rw [leafEntry_none (hadd.trans hq), leafEntry_none hq]
      | some q =>
        rw [leafEntry_some (hadd.trans hq), leafEntry_some hq]
        exact hsame q (mem_tables_pt _ _ (by omega) hq) _ (by omega)
          (Or.inl (hr.pt_ne_p2 (by omega) hq hk4))

/-- What a split leaves: the page `virt` is governed by a page table, all leaves are as before,
    and no other directory entry changed. -/
structure SplitDone (P : Pool) (root : Nat) (ph : Phys) (sh : Shape) (virt : Int) (pt : Nat)
    (ph' : Phys) (sh' : Shape) : Prop where
  step : RootStep P root ph sh ph' sh'
  pt : sh'.pt (vpn virt / 512) = some pt
  rest : ∀ k, k ≠ vpn virt / 512 → sh'.pt k = sh.pt k
  leaf : ∀ n < 2 ^ 20, leafEntry ph'.mem sh' n = leafEntry ph.mem sh n

/-- Both split functions: `hp` says how the caller finds the directory. -/
theorem splitLargePage_spec {P : Pool} {root : Nat} {ph : Phys} {sh : Shape}
    (h : Owned P root ph sh) {virt limit : Int} (hv : InRange virt) (hl : 2 ^ 32 ≤ limit)
    {p2Ptr : Except String Nat}
    (hp : p2Ptr = .ok (if pdptIndex virt < 4 then sh.p2 (pdptIndex virt) else 0))
    (outside missing allocFailed : String) :
    Ends (splitLargePage outside missing allocFailed limit p2Ptr ph virt)
      (fun r => ∃ sh', SplitDone P root ph sh virt r.1 r.2 sh')
      (fun e => e = allocFailed ∧ ph.pmm.freePages = 0 ∧ sh.pt (vpn virt / 512) = none) := by
  have hr := h.realizes
  have hn := vpn_lt hv
  obtain ⟨-, hi3, hi2, -⟩ := index_eq hv
  have hk : vpn virt / 512 < 2048 := by omega
  have hk4 : vpn virt / 512 / 512 < 4 := by omega
  unfold splitLargePage
  rw [if_neg (not_not.mpr (supports_of_inRange hv hl)), hp, ok_bind, hi3, hi2, if_pos hk4,
    pageTableQword_ok (hr.p2_page hk4) (by omega), ok_bind]
  cases hpt : sh.pt (vpn virt / 512) with
  | some pt =>
    have he := hr.split _ hk pt hpt
    rw [if_neg (by rw [and_one_eq_zero, he.present]; decide),
      if_pos (by rw [and_large_eq_zero, he.table]), he.target]
    exact ⟨sh, RootStep.refl h, hpt, fun _ _ => rfl, fun _ _ => rfl⟩
  | none =>
    have he := hr.large _ hk hpt
    obtain ⟨b0, b7, hbase⟩ := large_bits (vpn virt / 512)
    rw [he, if_neg (by rw [and_one_eq_zero, b0]; decide),
      if_neg (by rw [and_large_eq_zero, b7]; decide), hbase]
    rcases PmmInv.alloc_table h.inv with ⟨hf, ha⟩ | ⟨p, t, ha, -, -, hpage, hout, hist, ht⟩
    · rw [ha]
      exact ⟨rfl, hf, rfl⟩
    · obtain ⟨m₁, hz, -, ho₁⟩ := zeroPage_spec hpage ph.mem
      obtain ⟨m₂, hf, hfill, ho₂⟩ := fillPageTable_spec hpage
        (fun i => (vpn virt / 512 * 0x200000 + (i <<< 12)) ||| 0x003)
        (fun i hi => splitEntry_lt hk hi) m₁
      rw [ha]
      dsimp only
      rw [if_neg hpage.pos.ne', hz, ok_bind, hf, ok_bind,
        setPageTableQword_ok (hr.p2_page hk4) (by omega), ok_bind]
      obtain ⟨hstep, hleaf⟩ := h.addTable hk hpt hpage hout hist ht (ho₁.trans ho₂) hfill
      exact ⟨sh.addPt (vpn virt / 512) p, hstep, Function.update_self _ _ _,
        fun k hne => Function.update_of_ne hne _ _, hleaf⟩

/-! ## Mapping, unmapping, protecting -/

/-- The vmm state describes the kernel root at `root`. -/
structure VmmOk (v : VmmState) : Prop where
  p2Count : v.p2Count = 4
  limit : v.limit = 2 ^ 32

/-- What an operation on the page `virt` leaves: its leaf is `val`, all others are as before. -/
structure LeafDone (P : Pool) (root : Nat) (ph : Phys) (sh : Shape) (virt : Int) (val : Nat)
    (ph' : Phys) (sh' : Shape) : Prop where
  step : RootStep P root ph sh ph' sh'
  split : sh'.pt (vpn virt / 512) ≠ none
  rest : ∀ k, k ≠ vpn virt / 512 → sh'.pt k = sh.pt k
  leaf : ∀ n < 2 ^ 20, leafEntry ph'.mem sh' n =
    if n = vpn virt then val else leafEntry ph.mem sh n

/-- The last step of every operation: after a split, write the entry of `virt`. -/
theorem SplitDone.store {P : Pool} {root : Nat} {ph ph' : Phys} {sh sh' : Shape} {virt : Int}
    {pt val : Nat} (h : Owned P root ph sh) (hs : SplitDone P root ph sh virt pt ph' sh')
    (hv : InRange virt) (hval : val < 2 ^ 64) :
    LeafDone P root ph sh virt val
      { ph' with mem := setEntry ph'.mem pt (ptIndex virt) val } sh' := by
  have hn := vpn_lt hv
  obtain ⟨hstep, hleaf⟩ := (hs.step.owned h).storeLeaf hn hs.pt hval
  rw [(index_eq hv).2.2.2]
  refine ⟨hs.step.trans hstep, by rw [hs.pt]; simp, hs.rest, fun n hn' => ?_⟩
  rw [hleaf n hn', hs.leaf n hn']

theorem SplitDone.page {P : Pool} {root : Nat} {ph ph' : Phys} {sh sh' : Shape} {virt : Int}
    {pt : Nat} (hs : SplitDone P root ph sh virt pt ph' sh') (hv : InRange virt) :
    TablePage pt := by
  have hn := vpn_lt hv
  exact hs.step.realizes.pt_page (by omega) hs.pt

/-- Reading back the entry of `virt` after a split gives its leaf. -/
theorem SplitDone.load {P : Pool} {root : Nat} {ph ph' : Phys} {sh sh' : Shape} {virt : Int}
    {pt : Nat} (hs : SplitDone P root ph sh virt pt ph' sh') (hv : InRange virt) :
    pageTableQword ph'.mem pt (ptIndex virt) = .ok (leafEntry ph.mem sh (vpn virt)) := by
  have hn := vpn_lt hv
  rw [(index_eq hv).2.2.2, pageTableQword_ok (hs.page hv) (by omega), ← hs.leaf _ hn,
    leafEntry_some hs.pt]

theorem mapEntry_lt {phys : Nat} (flags : Nat) (hp : phys < 2 ^ 64) :
    phys ||| (flags &&& 0xFFF) ||| 0x001 < 2 ^ 64 := by
  refine Nat.or_lt_two_pow (Nat.or_lt_two_pow hp ?_) (by norm_num)
  rw [and_fff]
  omega

theorem vmmP2Ptr_eq {m : Mem} {root : Nat} {sh : Shape} (h : Realizes m root sh) {v : VmmState}
    (hv : v.p3 = sh.p3) (virt : Int) : vmmP2Ptr v m virt =
      .ok (if pdptIndex virt < 4 then sh.p2 (pdptIndex virt) else 0) := by
  unfold vmmP2Ptr vmmP3Ptr
  rw [hv, p2Below_eq h]

/-- Unmapping clears the leaf. -/
theorem unmapPage_spec {P : Pool} {root : Nat} {ph : Phys} {sh : Shape} (h : Owned P root ph sh)
    {virt : Int} (hv : InRange virt) (ha : virt % 4096 = 0)
    {split : Except String (Nat × Phys)} {F : Prop}
    (hs : Ends split (fun r => ∃ sh', SplitDone P root ph sh virt r.1 r.2 sh') (fun _ => F))
    (unaligned missing : String) :
    Ends (unmapPage unaligned missing split virt)
      (fun ph' => leafEntry ph.mem sh (vpn virt) ≠ 0 ∧ ∃ sh', LeafDone P root ph sh virt 0 ph' sh')
      (fun _ => F ∨ leafEntry ph.mem sh (vpn virt) = 0) := by
  unfold unmapPage
  rw [if_neg (not_not.mpr ha)]
  refine ends_bind (hs.mono (fun r hr => hr) fun _ hF => Or.inl hF) ?_
  rintro ⟨pt, ph'⟩ ⟨sh', hd⟩
  dsimp only
  rw [hd.load hv, ok_bind]
  split_ifs with hz
  · exact Or.inr hz
  · rw [setPageTableQword_ok (hd.page hv) (by rw [(index_eq hv).2.2.2]; omega), ok_bind]
    exact ⟨hz, sh', hd.store h hv (by norm_num)⟩

/-- Setting the user bit on the path of a page whose directory entry is split. -/
theorem setUserPath_spec {P : Pool} {root : Nat} {ph : Phys} {sh : Shape}
    (h : Owned P root ph sh) {virt : Int} (hv : InRange virt)
    (hpt : sh.pt (vpn virt / 512) ≠ none) :
    ∃ m, setUserPath ph.mem root virt = .ok m ∧
      RootStep P root ph sh { ph with mem := m } sh ∧ UserPath m root sh (vpn virt / 512) ∧
        ∀ n < 2 ^ 20, leafEntry m sh n = leafEntry ph.mem sh n := by
  have hn := vpn_lt hv
  obtain ⟨-, hi3, hi2, -⟩ := index_eq hv
  have hk : vpn virt / 512 < 2048 := by omega
  have hk4 : vpn virt / 512 / 512 < 4 := by omega
  have hd : vpn virt / 512 % 512 < 512 := by omega
  obtain ⟨q, hq⟩ := Option.ne_none_iff_exists'.mp hpt
  have hr := h.realizes
  -- level 4
  obtain ⟨s1, l1, u1⟩ := h.storeUser (mem_tables_root root sh) (by decide : 0 < 512)
    (fun k hk hc => hr.pt_ne_root hk hc rfl) hr.p4
  generalize hm1 : setEntry ph.mem root 0 (entry ph.mem root 0 ||| 0x004) = m1 at s1 l1 u1
  have h1 := s1.owned h
  -- level 3
  obtain ⟨s2, l2, u2⟩ := h1.storeUser (mem_tables_p3 root sh)
    (by omega : vpn virt / 512 / 512 < 512) (fun k hk hc => hr.pt_ne_p3 hk hc rfl)
    (h1.realizes.p3 _ hk4)
  dsimp only at s2 l2 u2
  generalize hm2 : setEntry m1 sh.p3 (vpn virt / 512 / 512)
    (entry m1 sh.p3 (vpn virt / 512 / 512) ||| 0x004) = m2 at s2 l2 u2
  have h2 := s2.owned h1
  -- level 2
  obtain ⟨s3, l3, u3⟩ := h2.storeUser (mem_tables_p2 root sh hk4) hd
    (fun k hk hc => hr.pt_ne_p2 hk hc hk4 rfl) (h2.realizes.split _ hk q hq)
  dsimp only at s3 l3 u3
  generalize hm3 : setEntry m2 (sh.p2 (vpn virt / 512 / 512)) (vpn virt / 512 % 512)
    (entry m2 (sh.p2 (vpn virt / 512 / 512)) (vpn virt / 512 % 512) ||| 0x004) = m3 at s3 l3 u3
  have hne32 : sh.p3 ≠ sh.p2 (vpn virt / 512 / 512) := hr.p3_ne_p2 hk4
  have hne42 : root ≠ sh.p2 (vpn virt / 512 / 512) := hr.root_ne_p2 hk4
  have hne43 : root ≠ sh.p3 := by
    intro hc
    exact (Multiset.nodup_cons.mp hr.nodup).1 (hc ▸ Multiset.mem_cons_self _ _)
  refine ⟨m3, ?_, s1.trans (s2.trans s3), ⟨?_, ?_, u3⟩, fun n hn' => ?_⟩
  · unfold setUserPath setUserBit
    rw [vmmRootP3Ptr_eq hr, ok_bind, vmmRootP2Ptr_eq hr, ok_bind, hi3, hi2, if_pos hk4,
      pageTableQword_ok hr.root_page (by decide), ok_bind,
      setPageTableQword_ok hr.root_page (by decide), ok_bind, hm1,
      pageTableQword_ok hr.p3_page (by omega), ok_bind,
      setPageTableQword_ok hr.p3_page (by omega), ok_bind, hm2,
      pageTableQword_ok (hr.p2_page hk4) hd, ok_bind,
      setPageTableQword_ok (hr.p2_page hk4) hd, hm3]
  · rw [← hm3, entry_setEntry_ne hr.root_page.aligned (hr.p2_page hk4).aligned (by decide) hd
      (Or.inl hne42), ← hm2, entry_setEntry_ne hr.root_page.aligned hr.p3_page.aligned (by decide)
      (by omega) (Or.inl hne43)]
    exact u1
  · rw [← hm3, entry_setEntry_ne hr.p3_page.aligned (hr.p2_page hk4).aligned (by omega) hd
      (Or.inl hne32)]
    exact u2
  · rw [l3 n hn', l2 n hn', l1 n hn']

theorem vmmRootSplitLargePage_spec {P : Pool} {root : Nat} {ph : Phys} {sh : Shape}
    (h : Owned P root ph sh) {virt limit : Int} (hv : InRange virt) (hl : limit = 2 ^ 32) :
    Ends (vmmRootSplitLargePage root limit ph virt)
      (fun r => ∃ sh', SplitDone P root ph sh virt r.1 r.2 sh')
      (fun _ => ph.pmm.freePages = 0 ∧ sh.pt (vpn virt / 512) = none) :=
  (splitLargePage_spec h hv hl.ge (vmmRootP2Ptr_eq h.realizes virt) _ _ _).mono
    (fun _ hr => hr) fun _ he => he.2

theorem vmmSplitLargePage_spec {P : Pool} {root : Nat} {ph : Phys} {sh : Shape}
    (h : Owned P root ph sh) {v : VmmState} (hvm : VmmOk v) (hp3 : v.p3 = sh.p3) {virt : Int}
    (hv : InRange virt) :
    Ends (vmmSplitLargePage v ph virt)
      (fun r => ∃ sh', SplitDone P root ph sh virt r.1 r.2 sh')
      (fun _ => ph.pmm.freePages = 0 ∧ sh.pt (vpn virt / 512) = none) :=
  (splitLargePage_spec h hv hvm.limit.ge (vmmP2Ptr_eq h.realizes hp3 virt) _ _ _).mono
    (fun _ hr => hr) fun _ he => he.2

/-- A step on the root keeps the kernel's way to it. -/
theorem LeafDone.p3_eq {P : Pool} {root : Nat} {ph ph' : Phys} {sh sh' : Shape} {virt : Int}
    {val : Nat} {v : VmmState} (hd : LeafDone P root ph sh virt val ph' sh')
    (hp3 : v.p3 = sh.p3) : v.p3 = sh'.p3 := by
  rw [hp3, hd.step.p3]

section RootOps

variable {P : Pool} {root : Nat} {ph : Phys} {sh : Shape} {v : VmmState} {virt : Int}

theorem vmmUnmapPageRoot_spec (h : Owned P root ph sh) (hvm : VmmOk v) (hv : InRange virt)
    (ha : virt % 4096 = 0) :
    Ends (vmmUnmapPageRoot v root ph virt)
      (fun ph' => leafEntry ph.mem sh (vpn virt) ≠ 0 ∧ ∃ sh', LeafDone P root ph sh virt 0 ph' sh')
      (fun _ => (ph.pmm.freePages = 0 ∧ sh.pt (vpn virt / 512) = none) ∨
        leafEntry ph.mem sh (vpn virt) = 0) :=
  unmapPage_spec h hv ha (vmmRootSplitLargePage_spec h hv hvm.limit) _ _

theorem vmmUnmapPage_spec (h : Owned P root ph sh) (hvm : VmmOk v) (hp3 : v.p3 = sh.p3)
    (hv : InRange virt) (ha : virt % 4096 = 0) :
    Ends (vmmUnmapPage v ph virt)
      (fun ph' => leafEntry ph.mem sh (vpn virt) ≠ 0 ∧ ∃ sh', LeafDone P root ph sh virt 0 ph' sh')
      (fun _ => (ph.pmm.freePages = 0 ∧ sh.pt (vpn virt / 512) = none) ∨
        leafEntry ph.mem sh (vpn virt) = 0) :=
  unmapPage_spec h hv ha (vmmSplitLargePage_spec h hvm hp3 hv) _ _

/-- Mapping writes the leaf, which was empty, and opens the path of a user page. -/
theorem vmmMapPageRoot_spec (h : Owned P root ph sh) (hvm : VmmOk v) (hv : InRange virt)
    (ha : virt % 4096 = 0) {phys flags : Nat} (hpa : phys % 4096 = 0) (hp : phys < 2 ^ 64) :
    Ends (vmmMapPageRoot v root ph virt phys flags)
      (fun ph' => leafEntry ph.mem sh (vpn virt) = 0 ∧ ∃ sh',
        LeafDone P root ph sh virt (phys ||| (flags &&& 0xFFF) ||| 0x001) ph' sh' ∧
          (flags &&& 0x004 ≠ 0 → UserPath ph'.mem root sh' (vpn virt / 512)))
      (fun _ => (ph.pmm.freePages = 0 ∧ sh.pt (vpn virt / 512) = none) ∨
        leafEntry ph.mem sh (vpn virt) ≠ 0) := by
  have hn := vpn_lt hv
  unfold vmmMapPageRoot
  rw [if_neg (by rw [and_fff]; omega)]
  refine ends_bind ((vmmRootSplitLargePage_spec h hv hvm.limit).mono (fun r hr => hr)
    fun _ hF => Or.inl hF) ?_
  rintro ⟨pt, ph₁⟩ ⟨sh', hd⟩
  dsimp only
  have ho := hd.step.owned h
  have hsplit : sh'.pt (vpn virt / 512) ≠ none := by rw [hd.pt]; simp
  -- the memory before the entry is written, with the path opened or not
  obtain ⟨m, hm, hs, hu, hl⟩ : ∃ m,
      openUserPath flags ph₁.mem root virt = .ok m ∧
        RootStep P root ph₁ sh' { ph₁ with mem := m } sh' ∧
        (flags &&& 0x004 ≠ 0 → UserPath m root sh' (vpn virt / 512)) ∧
        ∀ n < 2 ^ 20, leafEntry m sh' n = leafEntry ph₁.mem sh' n := by
    unfold openUserPath
    split_ifs with hf
    · obtain ⟨m, hm, hs, hu, hl⟩ := setUserPath_spec ho hv hsplit
      exact ⟨m, hm, hs, fun _ => hu, hl⟩
    · exact ⟨ph₁.mem, rfl, RootStep.refl ho, fun hc => absurd hc hf, fun _ _ => rfl⟩
  have hd' : SplitDone P root ph sh virt pt { ph₁ with mem := m } sh' :=
    ⟨hd.step.trans hs, hd.pt, hd.rest, fun n hn' => by rw [← hd.leaf n hn', ← hl n hn']⟩
  rw [hm, ok_bind, hd'.load hv, ok_bind]
  split_ifs with hz
  · exact Or.inr hz
  · rw [setPageTableQword_ok (hd'.page hv) (by rw [(index_eq hv).2.2.2]; omega), ok_bind]
    have hval := mapEntry_lt flags hp
    refine ⟨not_not.mp hz, sh', hd'.store h hv hval, fun hf => ?_⟩
    have hst := (hd'.step.owned h).storeLeaf hn hd'.pt hval
    rw [(index_eq hv).2.2.2]
    exact hst.1.user _ (by omega) (hu hf)

theorem vmmMapPage_spec (h : Owned P root ph sh) (hvm : VmmOk v) (hp3 : v.p3 = sh.p3)
    (hv : InRange virt) (ha : virt % 4096 = 0) {phys flags : Nat} (hpa : phys % 4096 = 0)
    (hp : phys < 2 ^ 64) :
    Ends (vmmMapPage v ph virt phys flags)
      (fun ph' => leafEntry ph.mem sh (vpn virt) = 0 ∧ ∃ sh',
        LeafDone P root ph sh virt (phys ||| (flags &&& 0xFFF) ||| 0x001) ph' sh')
      (fun _ => (ph.pmm.freePages = 0 ∧ sh.pt (vpn virt / 512) = none) ∨
        leafEntry ph.mem sh (vpn virt) ≠ 0) := by
  unfold vmmMapPage
  rw [if_neg (by rw [and_fff]; omega)]
  refine ends_bind ((vmmSplitLargePage_spec h hvm hp3 hv).mono (fun r hr => hr)
    fun _ hF => Or.inl hF) ?_
  rintro ⟨pt, ph₁⟩ ⟨sh', hd⟩
  dsimp only
  rw [hd.load hv, ok_bind]
  split_ifs with hz
  · exact Or.inr hz
  · rw [setPageTableQword_ok (hd.page hv) (by rw [(index_eq hv).2.2.2]; omega), ok_bind]
    exact ⟨not_not.mp hz, sh', hd.store h hv (mapEntry_lt _ hp)⟩

/-- Protecting rewrites the flags of a leaf and keeps its target. -/
theorem vmmProtectPage_spec (h : Owned P root ph sh) (hvm : VmmOk v) (hp3 : v.p3 = sh.p3)
    (hv : InRange virt) (ha : virt % 4096 = 0) {flags : Nat} :
    Ends (vmmProtectPage v ph virt flags)
      (fun ph' => leafEntry ph.mem sh (vpn virt) ≠ 0 ∧ ∃ sh', LeafDone P root ph sh virt
        (alignDown (leafEntry ph.mem sh (vpn virt)) 4096 ||| (flags &&& 0xFFF) ||| 0x001) ph' sh')
      (fun _ => (ph.pmm.freePages = 0 ∧ sh.pt (vpn virt / 512) = none) ∨
        leafEntry ph.mem sh (vpn virt) = 0) := by
  unfold vmmProtectPage
  rw [if_neg (not_not.mpr ha)]
  refine ends_bind ((vmmSplitLargePage_spec h hvm hp3 hv).mono (fun r hr => hr)
    fun _ hF => Or.inl hF) ?_
  rintro ⟨pt, ph₁⟩ ⟨sh', hd⟩
  dsimp only
  have hld := hd.load hv
  rw [hld, ok_bind]
  split_ifs with hz
  · exact Or.inr hz
  · rw [setPageTableQword_ok (hd.page hv) (by rw [(index_eq hv).2.2.2]; omega), ok_bind]
    refine ⟨hz, sh', hd.store h hv (mapEntry_lt _ (lt_of_le_of_lt (alignDown_le _ _) ?_))⟩
    rw [← hd.leaf _ (vpn_lt hv), leafEntry_some hd.pt]
    exact entry_lt _ _ _

end RootOps

end PcoOs.Vmm
