/-
  What the processor can reach through the root of a user task and through the kernel root: user
  accesses reach the pages of the image and nothing else, and all other pages that are mapped are
  mapped at their own address.
-/
import PcoOs.Kernel.Boot

namespace PcoOs.Kernel

open PcoOs.Lib PcoOs.Pmm PcoOs.Support PcoOs.Vmm PcoOs.Elf PcoOs.Image PcoOs.Sched

/-! ## Walks -/

/-- The bits of the entry of a user page. -/
theorem userLeaf_bits {p f : Nat} (hp : p % 4096 = 0) (hf : f = 5 ∨ f = 7) :
    (p ||| f).testBit 0 = true ∧ (p ||| f).testBit 2 = true ∧
      (p ||| f).testBit 1 = decide (f = 7) ∧ alignDown (p ||| f) 4096 = p := by
  rw [testBit_or_aligned hp (by decide), testBit_or_aligned hp (by decide),
    testBit_or_aligned hp (by decide), alignDown_or hp (by omega)]
  rcases hf with rfl | rfl
  · exact ⟨rfl, rfl, rfl, rfl⟩
  · exact ⟨rfl, rfl, rfl, rfl⟩

section User

variable {m : Mem} {root : Nat} {sh : Shape} {pages : List Nat} {flag : Nat → Nat}

theorem userRoot_pathUser (h : UserRoot m root sh pages flag) {n : Nat} (h1 : windowPage ≤ n)
    (h2 : n < windowPage + 69) : pathUser m root sh n = true := by
  unfold windowPage at h1 h2
  have hk : n / 512 = 256 := by omega
  unfold pathUser allLevels
  rw [hk]
  simp only [List.all_cons, List.all_nil, Bool.and_true, h.user.p4]
  rw [h.user.p3, h.user.p2]
  rfl

/-- Page `i` of the window leads to page `i` of the image, open to user mode. -/
theorem userRoot_window (h : UserRoot m root sh pages flag) (hl : pages.length ≤ 69)
    (hp : ∀ p ∈ pages, p % 4096 = 0) (hf : ∀ i, flag i = 5 ∨ flag i = 7) {i : Nat}
    (hi : i < pages.length) :
    mmuWalk m root (windowPage + i) = some ⟨pages.getD i 0, true, decide (flag i = 7)⟩ := by
  have hmem : pages.getD i 0 ∈ pages := by
    rw [List.getD_eq_getElem _ _ hi]
    exact List.getElem_mem hi
  obtain ⟨b0, b2, b1, ht⟩ := userLeaf_bits (hp _ hmem) (hf i)
  rw [mmuWalk_eq h.realizes (by unfold windowPage; omega), h.window i hi, if_pos b0, b1, b2, ht,
    userRoot_pathUser h (by omega) (by omega)]
  rfl

/-- Beyond the image nothing is open to user mode, and what is mapped leads to itself. -/
theorem userRoot_other (h : UserRoot m root sh pages flag) {n : Nat} (hn : n < 2 ^ 36)
    (ho : n < windowPage ∨ windowPage + pages.length ≤ n) {a : Access}
    (ha : mmuWalk m root n = some a) : a = ⟨n * 4096, false, true⟩ := by
  by_cases hlt : n < 2 ^ 20
  · have hcase : leafEntry m sh n = 0 ∨ leafEntry m sh n = identityLeaf n := by
      by_cases hw : n < windowPage ∨ windowPage + 69 ≤ n
      · exact Or.inr (h.outside n hlt hw)
      · exact h.between n (by omega) (by omega)
    rcases hcase with hz | hid
    · rw [mmuWalk_eq h.realizes hlt, hz, if_neg (by decide)] at ha
      cases ha
    · rw [identityLeaf_walk h.realizes hlt hid] at ha
      exact (Option.some.inj ha).symm
  · rw [mmuWalk_high h.realizes (by omega) hn] at ha
    cases ha

/-- A user access reaches a page of the image. -/
theorem userRoot_user (h : UserRoot m root sh pages flag) (hl : pages.length ≤ 69)
    (hp : ∀ p ∈ pages, p % 4096 = 0) (hf : ∀ i, flag i = 5 ∨ flag i = 7) {n : Nat} {a : Access}
    (ha : mmuWalk m root n = some a) (hu : a.user = true) : a.frame ∈ pages := by
  rw [← mmuWalk_mod] at ha
  have hn : n % 2 ^ 36 < 2 ^ 36 := Nat.mod_lt _ (by norm_num)
  by_cases hw : n % 2 ^ 36 < windowPage ∨ windowPage + pages.length ≤ n % 2 ^ 36
  · rw [userRoot_other h hn hw ha] at hu
    cases hu
  · have hi : n % 2 ^ 36 - windowPage < pages.length := by omega
    rw [show n % 2 ^ 36 = windowPage + (n % 2 ^ 36 - windowPage) by omega,
      userRoot_window h hl hp hf hi] at ha
    rw [← Option.some.inj ha, List.getD_eq_getElem _ _ hi]
    exact List.getElem_mem hi

end User

end PcoOs.Kernel
