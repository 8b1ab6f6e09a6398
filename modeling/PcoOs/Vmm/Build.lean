/-
  Building and freeing whole roots. `buildIdentityRoot_spec` covers `init_vmm` and
  `vmm_create_task_address_space`: six pages are handed out and become the tables of a root that
  maps every page below 4 GiB at its own address. `vmmFreeClonedAddressSpace_spec`: freeing a
  root gives back exactly its table pages.
-/
import PcoOs.Vmm.Ops

namespace PcoOs.Vmm

open PcoOs.Lib PcoOs.Pmm PcoOs.Support

/-! ## Building -/

/-- The loop invariant of `buildIdentityRoot`: the first `i` directories of the root `p4` stand,
    and everything written so far is in the pages handed out since `ph₀`. -/
structure Building (P : Pool) (ph₀ : Phys) (p4 : Nat) (sh : Shape) (i : Nat) (ph : Phys) :
    Prop where
  inv : PmmInv P ph.pmm
  out : outstanding ph.pmm.history =
    outstanding ph₀.pmm.history + p4 ::ₘ sh.p3 ::ₘ sh.p2Below i
  none : ∀ k, sh.pt k = none
  top : entry ph.mem p4 0 = sh.p3 ||| 0x003
  top_rest : ∀ j, 0 < j → j < 512 → entry ph.mem p4 j = 0
  p3 : ∀ j < i, entry ph.mem sh.p3 j = sh.p2 j ||| 0x003
  p3_rest : ∀ j, i ≤ j → j < 512 → entry ph.mem sh.p3 j = 0
  p2 : ∀ j < i, ∀ e < 512, entry ph.mem (sh.p2 j) e = identityEntry j e
  only : OnlyPages (p4 ::ₘ sh.p3 ::ₘ sh.p2Below i) ph₀.mem ph.mem
  cr3 : ph.cr3 = ph₀.cr3
  free : ph.pmm.freePages = ph₀.pmm.freePages - 2 - i

theorem Building.page {P : Pool} {ph₀ ph : Phys} {p4 i : Nat} {sh : Shape}
    (h : Building P ph₀ p4 sh i ph) {p : Nat} (hp : p ∈ p4 ::ₘ sh.p3 ::ₘ sh.p2Below i) :
    TablePage p := by
  have hmem : p ∈ P.pages := h.inv.mem_pages (by
    rw [h.out]; exact Multiset.mem_add.mpr (Or.inr hp))
  have hlow := P.low p hmem
  have hhigh := P.high p hmem
  exact ⟨P.aligned p hmem, by omega, by omega⟩

theorem Building.nodup {P : Pool} {ph₀ ph : Phys} {p4 i : Nat} {sh : Shape}
    (h : Building P ph₀ p4 sh i ph) : (p4 ::ₘ sh.p3 ::ₘ sh.p2Below i).Nodup := by
  have hnd := h.inv.balanced.nodup
  rw [h.out] at hnd
  exact (Multiset.nodup_add.mp hnd).2.1

/-- The shape with directory `i` at `p`. -/
def Shape.setP2 (sh : Shape) (i p : Nat) : Shape := { sh with p2 := Function.update sh.p2 i p }

theorem Shape.p2Below_setP2 (sh : Shape) (i p : Nat) :
    (sh.setP2 i p).p2Below (i + 1) = sh.p2Below i + {p} := by
  unfold Shape.p2Below Shape.setP2
  rw [Finset.sum_range_succ]
  dsimp only
  rw [Function.update_self]
  congr 1
  refine Finset.sum_congr rfl fun j hj => ?_
  have := Finset.mem_range.mp hj
  rw [Function.update_of_ne (by omega)]

theorem identityEntry_lt {i e : Nat} (hi : i < 4) (he : e < 512) :
    identityEntry i e < 2 ^ 64 := by
  have ha : ((i * 512 + e) <<< 21) % 4096 = 0 := by rw [Nat.shiftLeft_eq]; omega
  have hb : (i * 512 + e) <<< 21 < 2 ^ 64 := by rw [Nat.shiftLeft_eq]; omega
  exact PcoOs.Lib.or_lt ha (by norm_num) hb

/-- One more directory. -/
theorem addIdentityP2_spec {P : Pool} {ph₀ ph : Phys} {p4 i : Nat} {sh : Shape} (hi : i < 4)
    (h : Building P ph₀ p4 sh i ph) (allocFailed : String) :
    Ends (addIdentityP2 allocFailed sh.p3 i ph)
      (fun ph' => ∃ p, Building P ph₀ p4 (sh.setP2 i p) (i + 1) ph')
      (fun _ => ph₀.pmm.freePages < 6) := by
  unfold addIdentityP2
  rcases PmmInv.alloc_table h.inv with ⟨hf, ha⟩ | ⟨p, t, ha, -, hfree, hpage, hout, hist, ht⟩
  · rw [ha]
    have := h.free
    have : ph₀.pmm.freePages < 6 := by omega
    exact this
  · have hp3 : TablePage sh.p3 := h.page (Multiset.mem_cons_of_mem (Multiset.mem_cons_self _ _))
    obtain ⟨m₁, hz, -, ho₁⟩ := zeroPage_spec hpage ph.mem
    obtain ⟨m₃, hf, hfill, ho₃⟩ := fillPageTable_spec hpage (identityEntry i)
      (fun e he => identityEntry_lt hi he) (setEntry m₁ sh.p3 i (p ||| 0x003))
    rw [ha]
    dsimp only
    rw [if_neg hpage.pos.ne', hz, ok_bind, setPageTableQword_ok hp3 (by omega), ok_bind, hf,
      ok_bind]
    have hnew : p ∉ p4 ::ₘ sh.p3 ::ₘ sh.p2Below i := fun hc =>
      hout (by rw [h.out]; exact Multiset.mem_add.mpr (Or.inr hc))
    have hone : ∀ q ∈ ({p} : Multiset Nat), q % 4096 = 0 := fun q hq => by
      rw [Multiset.mem_singleton.mp hq]; exact hpage.aligned
    -- an old table changes only at entry `i` of `p3`
    have hsame : ∀ q ∈ p4 ::ₘ sh.p3 ::ₘ sh.p2Below i, ∀ j < 512, q ≠ sh.p3 ∨ j ≠ i →
        entry m₃ q j = entry ph.mem q j := by
      intro q hq j hj hne
      have hqp : q ∉ ({p} : Multiset Nat) := fun hc => hnew (Multiset.mem_singleton.mp hc ▸ hq)
      have hqa := (h.page hq).aligned
      rw [SamePage.entry (ho₃.samePage hqa hone hqp) hj,
        entry_setEntry_ne hqa hp3.aligned hj (by omega) hne,
        SamePage.entry (ho₁.samePage hqa hone hqp) hj]
    have hpne : p ≠ sh.p3 := fun hc =>
      hnew (hc ▸ Multiset.mem_cons_of_mem (Multiset.mem_cons_self _ _))
    have hset : entry m₃ sh.p3 i = p ||| 0x003 := by
      rw [SamePage.entry (ho₃.samePage hp3.aligned hone (fun hc =>
        hpne (Multiset.mem_singleton.mp hc).symm)) (by omega)]
      exact entry_setEntry_self _ _ _ (hpage.or_lt (by decide))
    have hnd := h.nodup
    have h43 : p4 ≠ sh.p3 := fun hc =>
      (Multiset.nodup_cons.mp hnd).1 (hc ▸ Multiset.mem_cons_self _ _)
    have hm4 : p4 ∈ p4 ::ₘ sh.p3 ::ₘ sh.p2Below i := Multiset.mem_cons_self _ _
    have hm3 : sh.p3 ∈ p4 ::ₘ sh.p3 ::ₘ sh.p2Below i :=
      Multiset.mem_cons_of_mem (Multiset.mem_cons_self _ _)
    have hm2 : ∀ j < i, sh.p2 j ∈ p4 ::ₘ sh.p3 ::ₘ sh.p2Below i := fun j hj =>
      Multiset.mem_cons_of_mem (Multiset.mem_cons_of_mem (mem_p2Below.mpr ⟨j, hj, rfl⟩))
    refine ⟨p, ht, ?_, h.none, ?_, ?_, ?_, ?_, ?_, ?_, h.cr3, ?_⟩
    · rw [hist, h.out, Shape.p2Below_setP2]
      simp only [Shape.setP2, add_assoc, Multiset.cons_add]
    · dsimp only [Shape.setP2]
      rw [hsame _ hm4 0 (by decide) (Or.inl h43)]
      exact h.top
    · intro j h0 hj
      dsimp only
      rw [hsame _ hm4 j hj (Or.inl h43)]
      exact h.top_rest j h0 hj
    · intro j hj
      dsimp only [Shape.setP2]
      by_cases hji : j = i
      · subst hji
        rw [Function.update_self]
        exact hset
      · rw [Function.update_of_ne hji, hsame _ hm3 j (by omega) (Or.inr hji)]
        exact h.p3 j (by omega)
    · intro j hj h512
      dsimp only [Shape.setP2]
      rw [hsame _ hm3 j h512 (Or.inr (by omega))]
      exact h.p3_rest j (by omega) h512
    · intro j hj e he
      dsimp only [Shape.setP2]
      by_cases hji : j = i
      · subst hji
        rw [Function.update_self]
        exact hfill e he
      · have hlt : j < i := by omega
        have hne : sh.p2 j ≠ sh.p3 := fun hc =>
          (Multiset.nodup_cons.mp (Multiset.nodup_cons.mp hnd).2).1
            (mem_p2Below.mpr ⟨j, hlt, hc⟩)
        rw [Function.update_of_ne hji, hsame _ (hm2 j hlt) e he (Or.inl hne)]
        exact h.p2 j hlt e he
    · have hmono : ∀ q, q ∈ p4 ::ₘ sh.p3 ::ₘ sh.p2Below i ∨ q = p →
          q ∈ p4 ::ₘ (sh.setP2 i p).p3 ::ₘ (sh.setP2 i p).p2Below (i + 1) := by
        intro q hq
        rw [Shape.p2Below_setP2]
        simp only [Shape.setP2, Multiset.mem_cons, Multiset.mem_add, Multiset.mem_singleton] at hq ⊢
        tauto
      refine (h.only.mono fun q hq => hmono q (Or.inl hq)).trans ?_
      refine (ho₁.mono fun q hq => hmono q (Or.inr (Multiset.mem_singleton.mp hq))).trans ?_
      refine ((onlyPages_setEntry m₁ sh.p3 _ (by omega)).mono fun q hq => hmono q (Or.inl ?_)).trans
        (ho₃.mono fun q hq => hmono q (Or.inr (Multiset.mem_singleton.mp hq)))
      rw [Multiset.mem_singleton.mp hq]
      exact hm3
    · have := h.free
      dsimp only
      push_cast
      omega

/-- A finished build is a root without splits. -/
theorem Building.realizes {P : Pool} {ph₀ ph : Phys} {p4 : Nat} {sh : Shape}
    (h : Building P ph₀ p4 sh 4 ph) :
    Realizes ph.mem p4 sh ∧ tables p4 sh = p4 ::ₘ sh.p3 ::ₘ sh.p2Below 4 := by
  have hpt : sh.ptBelow 2048 = 0 := by
    refine Multiset.eq_zero_of_forall_notMem fun p hp => ?_
    obtain ⟨k, -, hk⟩ := mem_ptBelow.mp hp
    rw [h.none k] at hk
    cases hk
  have htab : tables p4 sh = p4 ::ₘ sh.p3 ::ₘ sh.p2Below 4 := by
    unfold tables
    rw [hpt, add_zero]
  have hpage : ∀ p ∈ tables p4 sh, TablePage p := fun p hp => h.page (htab ▸ hp)
  refine ⟨⟨hpage, htab ▸ h.nodup, ?_, h.top_rest, fun i hi => ?_, h.p3_rest, fun k hk _ => ?_,
    fun k hk p hp => ?_⟩, htab⟩
  · rw [h.top]
    exact (hpage _ (mem_tables_p3 _ _)).points
  · rw [h.p3 i hi]
    exact (hpage _ (mem_tables_p2 _ _ hi)).points
  · rw [h.p2 _ (by omega) _ (by omega)]
    unfold identityEntry
    rw [show k / 512 * 512 + k % 512 = k by omega]
  · rw [h.none k] at hp
    cases hp

/-- What building a root gives: a root without splits whose tables are the pages newly handed
    out, with nothing else written. -/
structure NewRoot (P : Pool) (ph : Phys) (root : Nat) (sh : Shape) (ph' : Phys) : Prop where
  inv : PmmInv P ph'.pmm
  realizes : Realizes ph'.mem root sh
  out : outstanding ph'.pmm.history = outstanding ph.pmm.history + tables root sh
  none : ∀ k, sh.pt k = none
  only : OnlyPages (tables root sh) ph.mem ph'.mem
  cr3 : ph'.cr3 = ph.cr3

theorem buildIdentityRoot_spec {P : Pool} {ph : Phys} (h : PmmInv P ph.pmm)
    (rootFailed p2Failed : String) :
    Ends (buildIdentityRoot rootFailed p2Failed 4 ph)
      (fun r => ∃ sh, sh.p3 = r.2.1 ∧ NewRoot P ph r.1 sh r.2.2 ∧
        r.2.2.pmm.freePages = ph.pmm.freePages - 6)
      (fun _ => ph.pmm.freePages < 6) := by
  unfold buildIdentityRoot
  rcases PmmInv.alloc_table h with ⟨hf, ha⟩ | ⟨p4, t₁, ha, -, hf₁, hpage4, hout4, hist4, h₁⟩
  · rw [ha]
    dsimp only
    rw [ha]
    have : ph.pmm.freePages < 6 := by omega
    simpa using this
  rcases PmmInv.alloc_table h₁ with ⟨hf, ha'⟩ | ⟨p3, t₂, ha', -, hf₂, hpage3, hout3, hist3, h₂⟩
  · rw [ha]
    dsimp only
    rw [ha']
    have : ph.pmm.freePages < 6 := by omega
    simpa using this
  obtain ⟨m₁, hz₁, he₁, ho₁⟩ := zeroPage_spec hpage4 ph.mem
  obtain ⟨m₂, hz₂, he₂, ho₂⟩ := zeroPage_spec hpage3 m₁
  rw [ha]
  dsimp only
  rw [ha']
  dsimp only
  rw [if_neg (by have := hpage4.pos; have := hpage3.pos; omega), hz₁, ok_bind, hz₂, ok_bind,
    setPageTableQword_ok hpage4 (by decide), ok_bind]
  have hne : p3 ≠ p4 := fun hc => hout3 (by
    rw [hist4, hc]; exact Multiset.mem_add.mpr (Or.inr (Multiset.mem_singleton_self _)))
  have hold : ∀ j < 512, entry m₂ p4 j = 0 := by
    intro j hj
    rw [SamePage.entry (ho₂.samePage hpage4.aligned (fun q hq => by
      rw [Multiset.mem_singleton.mp hq]; exact hpage3.aligned)
      fun hc => hne (Multiset.mem_singleton.mp hc).symm) hj]
    exact he₁ j hj
  -- the state before the first directory
  have hstart : Building P ph p4 ⟨p3, fun _ => 0, fun _ => none⟩ 0
      { ph with pmm := t₂, mem := setEntry m₂ p4 0 (p3 ||| 0x003) } := by
    have hbelow : Shape.p2Below ⟨p3, fun _ => 0, fun _ => none⟩ 0 = 0 := rfl
    refine ⟨h₂, ?_, fun _ => rfl, ?_, ?_, ?_, ?_, ?_, ?_, rfl, ?_⟩
    · rw [hbelow, hist3, hist4, add_assoc]
      rfl
    · exact entry_setEntry_self _ _ _ (hpage3.or_lt (by decide))
    · intro j h0 hj
      dsimp only
      rw [entry_setEntry_ne hpage4.aligned hpage4.aligned hj (j := 0) (by decide)
        (Or.inr (by omega))]
      exact hold j hj
    · intro j hj; omega
    · intro j _ hj
      dsimp only
      rw [entry_setEntry_ne hpage3.aligned hpage4.aligned hj (by decide) (Or.inl hne)]
      exact he₂ j hj
    · intro j hj; omega
    · refine (ho₁.mono fun q hq => ?_).trans ((ho₂.mono fun q hq => ?_).trans
        ((onlyPages_setEntry m₂ p4 _ (by decide)).mono fun q hq => ?_))
      · rw [Multiset.mem_singleton.mp hq]
        exact Multiset.mem_cons_self _ _
      · rw [Multiset.mem_singleton.mp hq]
        exact Multiset.mem_cons_of_mem (Multiset.mem_cons_self _ _)
      · rw [Multiset.mem_singleton.mp hq]
        exact Multiset.mem_cons_self _ _
    · dsimp only
      omega
  have hloop := ends_loop (E := fun _ => ph.pmm.freePages < 6) (f := addIdentityP2 p2Failed p3)
    (fun i ph' => ∃ sh, sh.p3 = p3 ∧ Building P ph p4 sh i ph')
    (i := 0) (n := 4) ⟨_, rfl, hstart⟩ (by
      rintro i ph' - hi ⟨sh, hp3, hb⟩
      subst hp3
      refine (addIdentityP2_spec (by omega) hb p2Failed).imp ?_
      rintro ph'' ⟨p, hb'⟩
      exact ⟨sh.setP2 i p, rfl, hb'⟩)
  refine ends_bind hloop ?_
  rintro ph' ⟨sh, hp3, hb⟩
  obtain ⟨hr, htab⟩ := hb.realizes
  refine ⟨sh, hp3, ⟨hb.inv, hr, by rw [hb.out, htab], hb.none, by rw [htab]; exact hb.only,
    hb.cr3⟩, ?_⟩
  have := hb.free
  dsimp only
  omega

theorem NewRoot.owned {P : Pool} {ph ph' : Phys} {root : Nat} {sh : Shape}
    (h : NewRoot P ph root sh ph') : Owned P root ph' sh :=
  ⟨h.inv, h.realizes, by rw [h.out]; exact Multiset.le_add_left _ _⟩

/-- Pages handed out before are untouched by a build. -/
theorem NewRoot.keeps {P : Pool} {ph ph' : Phys} {root : Nat} {sh : Shape}
    (h : NewRoot P ph root sh ph') {p : Nat} (hp : p ∈ outstanding ph.pmm.history) :
    SamePage ph.mem ph'.mem p := by
  have hnd := h.inv.balanced.nodup
  rw [h.out] at hnd
  have hmem : ∀ q ∈ outstanding ph.pmm.history + tables root sh, q ∈ P.pages := fun q hq =>
    h.inv.mem_pages (h.out ▸ hq)
  refine h.only.samePage (P.aligned p (hmem p (Multiset.mem_add.mpr (Or.inl hp))))
    (fun q hq => P.aligned q (hmem q (Multiset.mem_add.mpr (Or.inr hq)))) fun hc => ?_
  exact Multiset.disjoint_left.mp (Multiset.nodup_add.mp hnd).2.2 hp hc

/-- A root without splits maps every page at its own address. -/
theorem leafEntry_identity {m : Mem} {sh : Shape} (h : ∀ k, sh.pt k = none) (n : Nat) :
    leafEntry m sh n = (n <<< 12) ||| 0x003 := leafEntry_none (h _)

theorem vmmCreateTaskAddressSpace_spec {P : Pool} {ph : Phys} (h : PmmInv P ph.pmm)
    {v : VmmState} (hv : VmmOk v) :
    Ends (vmmCreateTaskAddressSpace v ph)
      (fun r => ∃ sh, NewRoot P ph r.1 sh r.2 ∧ r.2.pmm.freePages = ph.pmm.freePages - 6)
      (fun _ => ph.pmm.freePages < 6) := by
  unfold vmmCreateTaskAddressSpace
  rw [hv.p2Count]
  refine ends_bind (buildIdentityRoot_spec h _ _) ?_
  rintro ⟨p4, p3, ph'⟩ ⟨sh, -, hn, hf⟩
  exact ⟨sh, hn, hf⟩

theorem initVmm_spec {P : Pool} (ph : Phys) (h : PmmInv P ph.pmm) (magic : Nat) :
    Ends (initVmm magic ph)
      (fun r => VmmOk r.1 ∧ r.1.active = 1 ∧ r.2.cr3 = r.1.rootP4 ∧ ∃ sh, r.1.p3 = sh.p3 ∧
        NewRoot P ph r.1.rootP4 sh { r.2 with cr3 := ph.cr3 } ∧
        r.2.pmm.freePages = ph.pmm.freePages - 6)
      (fun _ => ph.pmm.freePages < 6 ∨ magic ≠ 0x50434F424F4F5431) := by
  unfold initVmm
  refine ends_bind ((buildIdentityRoot_spec h _ _).mono (fun _ h => h) fun _ h => Or.inl h) ?_
  rintro ⟨p4, p3, ph'⟩ ⟨sh, hp3, hn, hf⟩
  dsimp only
  split_ifs with hm
  · exact Or.inr hm
  · refine ⟨⟨rfl, by norm_num⟩, rfl, rfl, sh, hp3.symm, ⟨hn.inv, hn.realizes, hn.out, hn.none,
      hn.only, rfl⟩, hf⟩

/-! ## Freeing -/

/-- The page tables of the directory entries from `a` to `b`. -/
@[irreducible] def Shape.ptBetween (sh : Shape) (a b : Nat) : Multiset Nat :=
  ∑ k ∈ Finset.Ico a b, sh.ptPage k

theorem Shape.ptBetween_self (sh : Shape) (a : Nat) : sh.ptBetween a a = 0 := by
  unfold Shape.ptBetween
  simp

theorem Shape.ptBetween_add (sh : Shape) {a b c : Nat} (hab : a ≤ b) (hbc : b ≤ c) :
    sh.ptBetween a b + sh.ptBetween b c = sh.ptBetween a c := by
  unfold Shape.ptBetween
  exact Finset.sum_Ico_consecutive _ hab hbc

theorem Shape.ptBetween_succ (sh : Shape) {a b : Nat} (h : a ≤ b) :
    sh.ptBetween a (b + 1) = sh.ptBetween a b + sh.ptPage b := by
  unfold Shape.ptBetween
  exact Finset.sum_Ico_succ_top h _

theorem Shape.ptBelow_eq (sh : Shape) (n : Nat) : sh.ptBelow n = sh.ptBetween 0 n := by
  unfold Shape.ptBelow Shape.ptBetween
  rw [Finset.range_eq_Ico]

theorem Shape.p2Below_succ (sh : Shape) (n : Nat) :
    sh.p2Below (n + 1) = sh.p2Below n + {sh.p2 n} := Finset.sum_range_succ _ _

/-- The inner loop body frees the page table of entry `k`, if there is one. -/
theorem freePtOf_spec {P : Pool} {m : Mem} {root : Nat} {sh : Shape} (h : Realizes m root sh)
    {k : Nat} (hk : k < 2048) {s : PmmState} (hs : PmmInv P s)
    (hle : sh.ptPage k ≤ outstanding s.history) :
    Ends (freePtOf m (sh.p2 (k / 512)) (k % 512) s) (Freed P s (sh.ptPage k))
      (Full s (sh.ptPage k)) := by
  unfold freePtOf
  rw [pageTableQword_ok (h.p2_page (by omega)) (by omega), ok_bind]
  unfold Shape.ptPage at hle ⊢
  cases hpt : sh.pt k with
  | none =>
    rw [h.large k hk hpt, if_neg (by
      rintro ⟨-, h7⟩
      rw [and_large_eq_zero, (large_bits k).2.1] at h7
      cases h7)]
    exact Freed.refl hs
  | some p =>
    have he := h.split k hk p hpt
    rw [if_pos ⟨by rw [Ne, and_one_eq_zero, he.present]; decide,
      by rw [and_large_eq_zero, he.table]⟩, he.target]
    rw [hpt] at hle
    exact pmmFreePage_freed hs hle

/-- The inner loop frees the page tables of directory `i`. -/
theorem freePts_spec {P : Pool} {m : Mem} {root : Nat} {sh : Shape} (h : Realizes m root sh)
    {i : Nat} (hi : i < 4) {s : PmmState} (hs : PmmInv P s)
    (hle : sh.ptBetween (512 * i) (512 * (i + 1)) ≤ outstanding s.history) :
    Ends (loop (freePtOf m (sh.p2 i)) 0 512 s)
      (Freed P s (sh.ptBetween (512 * i) (512 * (i + 1))))
      (Full s (sh.ptBetween (512 * i) (512 * (i + 1)))) := by
  have hpart : ∀ j < 512, sh.ptBetween (512 * i) (512 * i + j) + sh.ptPage (512 * i + j) ≤
      sh.ptBetween (512 * i) (512 * (i + 1)) := by
    intro j hj
    rw [← Shape.ptBetween_succ sh (by omega),
      ← Shape.ptBetween_add sh (b := 512 * i + j + 1) (c := 512 * (i + 1)) (by omega) (by omega)]
    exact Multiset.le_add_right _ _
  -- after iteration `j` the page tables of the first `j` entries are back
  refine ends_loop (i := 0) (n := 512)
    (fun j t => Freed P s (sh.ptBetween (512 * i) (512 * i + j)) t) ?_ ?_
  · rw [add_zero, Shape.ptBetween_self]
    exact Freed.refl hs
  · intro j t _ hj ht
    have hstep := freePtOf_spec h (k := 512 * i + j) (by omega) ht.inv
      (ht.rest ((hpart j (by omega)).trans hle))
    rw [show (512 * i + j) / 512 = i by omega, show (512 * i + j) % 512 = j by omega] at hstep
    refine (ht.step hstep (hpart j (by omega))).imp fun u hu => ?_
    rw [← add_assoc, Shape.ptBetween_succ sh (by omega)]
    exact hu

/-- The outer loop body frees directory `i` and its page tables. -/
theorem freeP2Of_spec {P : Pool} {m : Mem} {root : Nat} {sh : Shape} (h : Realizes m root sh)
    {i : Nat} (hi : i < 4) {s : PmmState} (hs : PmmInv P s)
    (hle : sh.ptBetween (512 * i) (512 * (i + 1)) + {sh.p2 i} ≤ outstanding s.history) :
    Ends (freeP2Of m sh.p3 i s)
      (Freed P s (sh.ptBetween (512 * i) (512 * (i + 1)) + {sh.p2 i}))
      (Full s (sh.ptBetween (512 * i) (512 * (i + 1)) + {sh.p2 i})) := by
  have he := h.p3 i hi
  unfold freeP2Of
  rw [pageTableQword_ok h.p3_page (by omega), ok_bind,
    if_pos (by rw [Ne, and_one_eq_zero, he.present]; decide), he.target]
  have hpts := freePts_spec h hi hs ((Multiset.le_add_right _ _).trans hle)
  refine ends_bind (hpts.mono (fun _ h => h) fun _ he => he.mono (Multiset.le_add_right _ _)) ?_
  intro t ht
  exact ht.step (pmmFreePage_freed ht.inv (ht.rest hle)) (le_refl _)

theorem tables_eq (root : Nat) (sh : Shape) :
    tables root sh = (sh.ptBetween 0 2048 + sh.p2Below 4) + {sh.p3} + {root} := by
  unfold tables
  rw [Shape.ptBelow_eq]
  simp only [← Multiset.singleton_add]
  abel

/-- Freeing a root gives back its table pages, each once, and leaves memory alone. -/
theorem vmmFreeClonedAddressSpace_freed {P : Pool} (ph : Phys) {root : Nat} {sh : Shape}
    (h : Realizes ph.mem root sh) (hs : PmmInv P ph.pmm) {v : VmmState} (hv : VmmOk v)
    (hle : tables root sh ≤ outstanding ph.pmm.history) :
    Ends (vmmFreeClonedAddressSpace v ph root)
      (fun ph' => Freed P ph.pmm (tables root sh) ph'.pmm ∧ ph'.mem = ph.mem ∧ ph'.cr3 = ph.cr3)
      (Full ph.pmm (tables root sh)) := by
  unfold vmmFreeClonedAddressSpace
  rw [vmmRootP3Ptr_eq h, ok_bind, hv.p2Count, tables_eq]
  rw [tables_eq] at hle
  have hle₁ := (Multiset.le_add_right _ _).trans hle
  have hpart : ∀ i < 4, (sh.ptBetween 0 (512 * i) + sh.p2Below i) +
      (sh.ptBetween (512 * i) (512 * (i + 1)) + {sh.p2 i}) =
        sh.ptBetween 0 (512 * (i + 1)) + sh.p2Below (i + 1) := by
    intro i hi
    rw [Shape.p2Below_succ, ← Shape.ptBetween_add sh (a := 0) (b := 512 * i)
      (c := 512 * (i + 1)) (Nat.zero_le _) (by omega)]
    abel
  have hmono : ∀ i ≤ 4, sh.ptBetween 0 (512 * i) + sh.p2Below i ≤
      sh.ptBetween 0 2048 + sh.p2Below 4 := by
    intro i hi
    refine add_le_add ?_ ?_
    · rw [← Shape.ptBetween_add sh (b := 512 * i) (c := 2048) (Nat.zero_le _) (by omega)]
      exact Multiset.le_add_right _ _
    · exact Finset.sum_le_sum_of_subset (Finset.range_subset_range.mpr hi)
  -- after iteration `i` the first `i` directories and their page tables are back
  have hloop := ends_loop (f := freeP2Of ph.mem sh.p3) (i := 0) (n := 4) (s := ph.pmm)
    (E := Full ph.pmm (sh.ptBetween 0 2048 + sh.p2Below 4 + {sh.p3} + {root}))
    (fun i t => Freed P ph.pmm (sh.ptBetween 0 (512 * i) + sh.p2Below i) t)
    (by rw [Nat.mul_zero, Shape.ptBetween_self]; exact Freed.refl hs) (by
      intro i t _ hi ht
      have hp := hpart i (by omega)
      have hm := hmono (i + 1) (by omega)
      rw [← hp] at hm
      have hm' := hm.trans ((Multiset.le_add_right _ {sh.p3}).trans
        (Multiset.le_add_right _ {root}))
      rw [← hp]
      exact ht.step (freeP2Of_spec h (by omega) ht.inv (ht.rest (hm'.trans hle))) hm')
  refine ends_bind hloop fun t ht => ?_
  refine ends_bind (ht.step (pmmFreePage_freed ht.inv (ht.rest hle₁))
    (Multiset.le_add_right _ _)) fun t₁ ht₁ => ?_
  refine ends_bind (ht₁.step (pmmFreePage_freed ht₁.inv (ht₁.rest hle)) (le_refl _))
    fun t₂ ht₂ => ?_
  exact ⟨ht₂, rfl, rfl⟩

theorem vmmFreeClonedAddressSpace_spec {P : Pool} (ph : Phys) {root : Nat} {sh : Shape}
    (h : Realizes ph.mem root sh) (hs : PmmInv P ph.pmm) {v : VmmState} (hv : VmmOk v)
    {R : Multiset Nat} (hR : outstanding ph.pmm.history = tables root sh + R) :
    Ends (vmmFreeClonedAddressSpace v ph root)
      (fun ph' => PmmInv P ph'.pmm ∧ outstanding ph'.pmm.history = R ∧ ph'.mem = ph.mem ∧
        ph'.cr3 = ph.cr3)
      (fun e => e = "pmm recycle stack full") := by
  have hle : tables root sh ≤ outstanding ph.pmm.history := by
    rw [hR]
    exact Multiset.le_add_right _ _
  refine (vmmFreeClonedAddressSpace_freed ph h hs hv hle).mono
    (fun ph' hf => ⟨hf.1.inv, ?_, hf.2⟩) fun e he => he.1
  have hout := hf.1.out
  rw [hR] at hout
  exact (add_left_cancel hout).symm

end PcoOs.Vmm
