/-
  The initial stack as bytes. Each loop of `scheduler_build_user_initial_stack` writes a run of
  bytes that a list describes: `stringBlock` for the strings of a vector, `pointerBlock` for its
  array. `schedulerBuildUserInitialStack_eq` puts the runs together, and `initial_stack_round_trip`
  reads them back the way a program does, from the stack pointer up.
-/
import PcoOs.Image.Pages
import PcoOs.Pmm.Runs

namespace PcoOs.Image

open PcoOs.Lib PcoOs.Pmm PcoOs.Support PcoOs.Vmm PcoOs.Elf

/-! ## Runs of bytes -/

/-- A store below another, up to where it begins, is one store. -/
theorem storeBytes_below (m : Mem) (a : Nat) (xs ys : List UInt8) :
    storeBytes (storeBytes m (a + xs.length) ys) a xs = storeBytes m a (xs ++ ys) := by
  funext x
  by_cases hlo : x < a
  · rw [storeBytes_of_outside (Or.inl hlo), storeBytes_of_outside (Or.inl (by omega)),
      storeBytes_of_outside (Or.inl hlo)]
  obtain ⟨i, rfl⟩ := Nat.exists_eq_add_of_le (Nat.le_of_not_lt hlo)
  by_cases hx : i < xs.length
  · rw [storeBytes_at hx, storeBytes_at (by rw [List.length_append]; omega), List.getElem_append_left]
  by_cases hy : i < xs.length + ys.length
  · rw [storeBytes_of_outside (Or.inr (by omega)), storeBytes_at (by rw [List.length_append]; omega),
      List.getElem_append_right (by omega)]
    obtain ⟨j, rfl⟩ := Nat.exists_eq_add_of_le (Nat.le_of_not_lt hx)
    rw [← Nat.add_assoc, storeBytes_at (by omega)]
    congr 1
    omega
  · rw [storeBytes_of_outside (Or.inr (by omega)), storeBytes_of_outside (Or.inr (by omega)),
      storeBytes_of_outside (Or.inr (by rw [List.length_append]; omega))]

theorem storeBytes_append (m : Mem) (a : Nat) (xs ys : List UInt8) :
    storeBytes m a (xs ++ ys) = storeBytes (storeBytes m a xs) (a + xs.length) ys := by
  induction xs generalizing m a with
  | nil => rfl
  | cons x xs ih =>
    rw [List.cons_append, storeBytes, ih, storeBytes, List.length_cons,
      show a + 1 + xs.length = a + (xs.length + 1) by omega]

theorem storeQword_eq (m : Mem) (a v : Nat) : storeQword m a v = storeBytes m a (wordBytes v) := by
  funext x
  by_cases hx : a ≤ x ∧ x < a + 8
  · obtain ⟨i, rfl⟩ := Nat.exists_eq_add_of_le hx.1
    have hi : i < (wordBytes v).length := by
      rw [length_wordBytes]
      omega
    have hget : (wordBytes v)[i] = UInt8.ofNat (v / 256 ^ i) := by
      simp [wordBytes]
    rw [storeBytes_at hi, hget]
    unfold storeQword
    rw [if_pos ⟨by omega, by omega⟩, Nat.add_sub_cancel_left]
  · rw [storeBytes_of_outside (by rw [length_wordBytes]; omega), storeQword_of_outside (by omega)]

/-! ## The loops -/

/-- The strings with their NULs, the first one lowest. -/
def stringBlock (ss : List (List UInt8)) : List UInt8 := ss.flatMap (· ++ [0])

/-- The addresses of the strings of a block at offset `off`. -/
def stringPtrs (base : Int) : List (List UInt8) → Nat → List Int
  | [], _ => []
  | s :: rest, off => (base + off) :: stringPtrs base rest (off + s.length + 1)

/-- The words of an array of pointers, with the 0 at its end. -/
def pointerBlock (ptrs : List Int) : List UInt8 := (ptrs ++ [0]).flatMap fun q => wordBytes (addr q)

theorem stringBlock_cons (s : List UInt8) (ss : List (List UInt8)) :
    stringBlock (s :: ss) = s ++ ([0] ++ stringBlock ss) := by
  unfold stringBlock
  rw [List.flatMap_cons, List.append_assoc]

theorem length_stringBlock_cons (s : List UInt8) (ss : List (List UInt8)) :
    (stringBlock (s :: ss)).length = s.length + 1 + (stringBlock ss).length := by
  rw [stringBlock_cons, List.length_append, List.length_append, List.length_singleton, Nat.add_assoc]

theorem schedulerCopyStackString_eq {p : Nat} (hp : 0 < p) {off : Nat} (s : List UInt8)
    (h : off + s.length < 4096) (m : Mem) :
    schedulerCopyStackString p ((off + s.length + 1 : Nat) : Int) s m =
      .ok ((off : Int), storeBytes m (p + off) (s ++ [0])) := by
  unfold schedulerCopyStackString userPageSize
  dsimp only
  rw [show ((off + s.length + 1 : Nat) : Int) - (s.length + 1) = off by push_cast; omega]
  obtain ⟨m₁, hm₁, rfl⟩ := loop_eq_ok
    (f := fun i m => storeByteRegion m p 4096 ((off : Int) + i) (s.getD i 0))
    (fun n m' => m' = storeBytes m (p + off) (s.take n)) (i := 0) (n := s.length) (s := m) rfl (by
      rintro j m' - hj rfl
      refine ⟨_, storeByteRegion_ok (by omega) (by omega) (by omega), ?_⟩
      rw [List.take_succ_eq_append_getElem (by omega), storeBytes_append, List.length_take,
        min_eq_left (by omega), List.getD_eq_getElem _ _ (by omega),
        show ((off : Int) + j).toNat = off + j by omega, ← Nat.add_assoc]
      rfl)
  rw [hm₁, ok_bind, storeByteRegion_ok (by omega) (by omega) (by omega), ok_bind, Nat.zero_add,
    List.take_length, storeBytes_append, show ((off : Int) + s.length).toNat = off + s.length by omega,
    ← Nat.add_assoc]
  rfl

theorem pushStrings_eq {p : Nat} (hp : 0 < p) (base : Int) (ss : List (List UInt8)) (off : Nat)
    (h : off + (stringBlock ss).length ≤ 4096) (m : Mem) :
    pushStrings p base ss ((off + (stringBlock ss).length : Nat) : Int) m =
      .ok (stringPtrs base ss off, (off : Int), storeBytes m (p + off) (stringBlock ss)) := by
  induction ss generalizing off with
  | nil => rfl
  | cons s rest ih =>
    rw [length_stringBlock_cons] at h ⊢
    have hrest := ih (off + s.length + 1) (by omega)
    rw [show off + s.length + 1 + (stringBlock rest).length =
      off + (s.length + 1 + (stringBlock rest).length) by omega] at hrest
    have hbelow := storeBytes_below m (p + off) (s ++ [0]) (stringBlock rest)
    rw [List.length_append, List.length_singleton,
      show p + off + (s.length + 1) = p + (off + s.length + 1) by omega] at hbelow
    unfold pushStrings
    rw [hrest, ok_bind]
    dsimp only
    rw [schedulerCopyStackString_eq hp s (by omega), ok_bind, stringPtrs, stringBlock_cons,
      ← List.append_assoc, ← hbelow]

theorem length_words (l : List Int) :
    (l.flatMap fun q => wordBytes (addr q)).length = 8 * l.length := by
  induction l with
  | nil => rfl
  | cons q l ih =>
    rw [List.flatMap_cons, List.length_append, length_wordBytes, ih, List.length_cons]
    omega

theorem length_pointerBlock (ptrs : List Int) :
    (pointerBlock ptrs).length = 8 * (ptrs.length + 1) := by
  unfold pointerBlock
  rw [length_words, List.length_append, List.length_singleton]

theorem storePointers_eq {base : Nat} (h0 : 0 < base) (h8 : base % 8 = 0) (ptrs : List Int) (m : Mem) :
    storePointers base ptrs m = .ok (storeBytes m base (pointerBlock ptrs)) := by
  unfold storePointers
  dsimp only
  obtain ⟨m₁, hm₁, rfl⟩ := loop_eq_ok
    (f := fun i m => storeQwordRegion m base (ptrs.length + 1) i (addr (ptrs.getD i 0)))
    (fun n m' => m' = storeBytes m base ((ptrs.take n).flatMap fun q => wordBytes (addr q)))
    (i := 0) (n := ptrs.length) (s := m) rfl (by
      rintro j m' - hj rfl
      refine ⟨_, storeQwordRegion_ok (by omega) h8 (by omega) (by omega), ?_⟩
      rw [List.take_succ_eq_append_getElem (by omega), List.flatMap_append, storeBytes_append, length_words,
        List.length_take, min_eq_left (by omega), List.getD_eq_getElem _ _ (by omega),
        Int.toNat_natCast, storeQword_eq, List.flatMap_singleton])
  rw [hm₁, ok_bind, storeQwordRegion_ok (by omega) h8 (by omega) (by omega), Nat.zero_add,
    List.take_length, Int.toNat_natCast, storeQword_eq]
  unfold pointerBlock
  rw [List.flatMap_append, storeBytes_append, length_words, List.flatMap_singleton]
  rfl

/-! ## The page -/

theorem length_stringBlock_le {ss : List (List UInt8)} (h : ∀ s ∈ ss, s.length ≤ 63) :
    (stringBlock ss).length ≤ 64 * ss.length := by
  induction ss with
  | nil => exact le_refl _
  | cons s rest ih =>
    have h63 := h s (List.mem_cons_self ..)
    have hrest := ih fun t ht => h t (List.mem_cons_of_mem _ ht)
    rw [length_stringBlock_cons, List.length_cons]
    omega

theorem length_stringPtrs (base : Int) (ss : List (List UInt8)) (off : Nat) :
    (stringPtrs base ss off).length = ss.length := by
  induction ss generalizing off with
  | nil => rfl
  | cons s rest ih => rw [stringPtrs, List.length_cons, List.length_cons, ih]

section Layout

variable (argv envp : ExecVec)

/-- The strings lie at the end of the page, those of `argv` first. -/
def stringsOff : Nat :=
  4096 - ((stringBlock argv.strings).length + (stringBlock envp.strings).length)

def envStringsOff : Nat := stringsOff argv envp + (stringBlock argv.strings).length

def envArrayOff : Nat := stringsOff argv envp / 16 * 16 - 8 * (envp.strings.length + 1)

def argArrayOff : Nat := envArrayOff argv envp - 8 * (argv.strings.length + 1)

def argcOff : Nat := argArrayOff argv envp - 8

/-- 16 strings take at most 1024 bytes, the pointers and the count another 152. -/
structure LayoutOk : Prop where
  strings : stringsOff argv envp + (stringBlock argv.strings).length +
    (stringBlock envp.strings).length = 4096
  envStrings : envStringsOff argv envp + (stringBlock envp.strings).length = 4096
  envArray : envArrayOff argv envp + 8 * (envp.strings.length + 1) = stringsOff argv envp / 16 * 16
  argArray : argArrayOff argv envp + 8 * (argv.strings.length + 1) = envArrayOff argv envp
  argc : argcOff argv envp + 8 = argArrayOff argv envp
  aligned : argcOff argv envp % 8 = 0

theorem layoutOk : LayoutOk argv envp := by
  have ha := length_stringBlock_le argv.short
  have he := length_stringBlock_le envp.short
  have hac := argv.count
  have hec := envp.count
  constructor
  all_goals
    simp only [argcOff, argArrayOff, envArrayOff, envStringsOff, stringsOff]
    omega

end Layout

/-- The page with its strings, arrays and count. -/
def stackMem (m : Mem) (p : Nat) (base : Int) (argv envp : ExecVec) : Mem :=
  storeBytes (storeBytes m (p + stringsOff argv envp)
      (stringBlock argv.strings ++ stringBlock envp.strings))
    (p + argcOff argv envp)
    (wordBytes argv.strings.length ++
      (pointerBlock (stringPtrs base argv.strings (stringsOff argv envp)) ++
        pointerBlock (stringPtrs base envp.strings (envStringsOff argv envp))))

theorem length_lowRun (base : Int) (argv envp : ExecVec) :
    (wordBytes argv.strings.length ++
      (pointerBlock (stringPtrs base argv.strings (stringsOff argv envp)) ++
        pointerBlock (stringPtrs base envp.strings (envStringsOff argv envp)))).length =
      stringsOff argv envp / 16 * 16 - argcOff argv envp := by
  obtain ⟨l1, l2, l3, l4, l5, l6⟩ := layoutOk argv envp
  rw [List.length_append, List.length_append, length_wordBytes, length_pointerBlock,
    length_pointerBlock, length_stringPtrs, length_stringPtrs]
  omega

/-- Below the count and between the arrays and the strings the page is as it was, like the memory
    outside of it. -/
theorem stackMem_of_outside {m : Mem} {p : Nat} {base : Int} {argv envp : ExecVec} {x : Nat}
    (hlow : x < p + argcOff argv envp ∨ p + stringsOff argv envp / 16 * 16 ≤ x)
    (hhigh : x < p + stringsOff argv envp ∨ p + 4096 ≤ x) :
    stackMem m p base argv envp x = m x := by
  obtain ⟨l1, l2, l3, l4, l5, l6⟩ := layoutOk argv envp
  refine (storeBytes_of_outside ?_).trans (storeBytes_of_outside ?_)
  · rw [length_lowRun]
    omega
  · rw [List.length_append]
    omega

/-- The runs in the order they are written. -/
theorem stackMem_eq (m : Mem) (p : Nat) (base : Int) (argv envp : ExecVec) :
    storeBytes (storeBytes (storeBytes (storeBytes (storeBytes m
        (p + envStringsOff argv envp) (stringBlock envp.strings))
        (p + stringsOff argv envp) (stringBlock argv.strings))
        (p + envArrayOff argv envp)
          (pointerBlock (stringPtrs base envp.strings (envStringsOff argv envp))))
        (p + argArrayOff argv envp)
          (pointerBlock (stringPtrs base argv.strings (stringsOff argv envp))))
        (p + argcOff argv envp) (wordBytes argv.strings.length) =
      stackMem m p base argv envp := by
  obtain ⟨l1, l2, l3, l4, l5, l6⟩ := layoutOk argv envp
  have hstrings := storeBytes_below m (p + stringsOff argv envp) (stringBlock argv.strings)
    (stringBlock envp.strings)
  rw [show p + stringsOff argv envp + (stringBlock argv.strings).length =
    p + envStringsOff argv envp from Nat.add_assoc ..] at hstrings
  unfold stackMem
  rw [hstrings, ← storeBytes_below _ _ (wordBytes _), ← storeBytes_below _ _ (pointerBlock _),
    length_wordBytes, length_pointerBlock, length_stringPtrs,
    show p + argcOff argv envp + 8 = p + argArrayOff argv envp by omega,
    show p + argArrayOff argv envp + 8 * (argv.strings.length + 1) = p + envArrayOff argv envp by
      omega]

/-- What a table of `n` pointers takes of the early heap. -/
def tableRoom (n : Nat) : Nat := (8 * n + 15) / 16 * 16

theorem allocPointers_ends {h : Heap} (hok : HeapOk h) (n : Nat) :
    Ends (allocPointers n h) (fun h' => HeapMoves h h' ∧ h'.ptr = h.ptr + tableRoom n)
      (fun e => e = "early heap exhausted" ∧ h.stop < h.ptr + tableRoom n) := by
  unfold allocPointers tableRoom
  by_cases h0 : n > 0
  · rw [if_pos h0]
    have hroom : alignDownI ((n : Int) * 8 + 15) 16 = ((8 * n + 15) / 16 * 16 : Nat) := by
      unfold alignDownI
      omega
    cases ha : allocBytes h (n * 8) with
    | error e =>
      refine ⟨allocBytes_error ha, ?_⟩
      unfold allocBytes at ha
      dsimp only at ha
      rw [hroom] at ha
      split_ifs at ha with hfull
      omega
    | ok r =>
      refine ⟨allocBytes_moves hok (n * 8) (by push_cast; exact ha), ?_⟩
      unfold allocBytes at ha
      dsimp only at ha
      rw [hroom] at ha
      split_ifs at ha with hfull
      cases ha
      dsimp only
      omega
  · rw [if_neg h0]
    exact ⟨HeapMoves.refl hok, by omega⟩

/-- What the two tables take. -/
def tablesRoom (argv envp : ExecVec) : Nat :=
  tableRoom argv.strings.length + tableRoom envp.strings.length

theorem tablesRoom_le (argv envp : ExecVec) : tablesRoom argv envp ≤ 128 := by
  have := argv.count
  have := envp.count
  unfold tablesRoom tableRoom
  omega

/-- The stack builder writes `stackMem`, or the early heap is used up. -/
theorem schedulerBuildUserInitialStack_eq {pages : List Nat} {p : Nat} (hp : TablePage p)
    (hlast : pages.getLast? = some p) (argv envp : ExecVec) (ph : Phys) {heap : Heap}
    (hok : HeapOk heap) :
    Ends (schedulerBuildUserInitialStack pages argv envp ph heap)
      (fun r => r.1 = ⟨userTaskStackBaseVirt pages.length + argcOff argv envp, argv.strings.length,
          userTaskStackBaseVirt pages.length + argArrayOff argv envp,
          userTaskStackBaseVirt pages.length + envArrayOff argv envp⟩ ∧
        r.2.1 = { ph with mem := stackMem ph.mem p (userTaskStackBaseVirt pages.length) argv envp } ∧
        HeapMoves heap r.2.2 ∧ r.2.2.ptr = heap.ptr + tablesRoom argv envp)
      (fun e => e = "early heap exhausted" ∧ heap.stop < heap.ptr + tablesRoom argv envp) := by
  obtain ⟨l1, l2, l3, l4, l5, l6⟩ := layoutOk argv envp
  have ha := hp.aligned
  have hpos := hp.pos
  have hlt := hp.lt
  have hpage : userPageArrayQword pages ((pages.length : Int) - 1) = .ok p := by
    have hne : 0 < pages.length := List.length_pos_iff.mpr (by rintro rfl; cases hlast)
    unfold userPageArrayQword
    rw [if_neg (by omega), show ((pages.length : Int) - 1).toNat = pages.length - 1 by omega,
      List.getD_eq_getElem?_getD, ← List.getLast?_eq_getElem?, hlast]
    rfl
  unfold schedulerBuildUserInitialStack
  dsimp only
  rw [hpage, ok_bind]
  have hroom : tablesRoom argv envp =
    tableRoom argv.strings.length + tableRoom envp.strings.length := rfl
  refine ends_bind ((allocPointers_ends hok _).mono (fun _ h => h) fun _ he =>
    ⟨he.1, by omega⟩) fun h₁ ⟨hm₁, hptr₁⟩ => ?_
  have hstop := hm₁.2.stop
  refine ends_bind ((allocPointers_ends hm₁.1 _).mono (fun _ h => h) fun _ he =>
    ⟨he.1, by omega⟩) fun h₂ ⟨hm₂, hptr₂⟩ => ?_
  generalize userTaskStackBaseVirt pages.length = base
  have henv := pushStrings_eq hpos base envp.strings (envStringsOff argv envp) (by omega) ph.mem
  rw [l2] at henv
  have harg := pushStrings_eq hpos base argv.strings (stringsOff argv envp) (by omega)
    (storeBytes ph.mem (p + envStringsOff argv envp) (stringBlock envp.strings))
  rw [show userPageSize = ((4096 : Nat) : Int) from rfl, henv, ok_bind]
  dsimp only
  rw [show ((envStringsOff argv envp : Nat) : Int) =
    ((stringsOff argv envp + (stringBlock argv.strings).length : Nat) : Int) from rfl, harg, ok_bind]
  dsimp only
  have hoff : alignDownI (stringsOff argv envp) 16 - (envp.strings.length + 1) * 8 =
      (envArrayOff argv envp : Int) := by
    unfold alignDownI
    omega
  have hoff' : (envArrayOff argv envp : Int) - (argv.strings.length + 1) * 8 =
      (argArrayOff argv envp : Int) := by omega
  have hoff'' : (argArrayOff argv envp : Int) - 8 = (argcOff argv envp : Int) := by omega
  have haddr : ∀ o : Nat, o < 4096 → addr ((p : Int) + o) = p + o := by
    intro o ho
    rw [addr_of_nonneg (by omega) (by omega)]
    omega
  rw [hoff, haddr _ (by omega), storePointers_eq (by omega) (by omega), ok_bind, hoff',
    haddr _ (by omega), storePointers_eq (by omega) (by omega), ok_bind, hoff'',
    haddr _ (by omega), storeQwordRegion_ok (by omega) (by omega) (by omega) (by omega), ok_bind]
  refine ⟨rfl, ?_, hm₁.trans hm₂, by dsimp only; omega⟩
  rw [← stackMem_eq, storeQword_eq]
  rfl

/-! ## Reading the page -/

/-- Where the byte at user address `q` lies, in a stack page at `p` that is mapped at `base`. -/
def stackAddr (p : Nat) (base q : Int) : Nat := p + (q - base).toNat

/-- The first `n` slots of the array at user address `a`. -/
def readPointers (m : Mem) (p : Nat) (base a : Int) (n : Nat) : List Int :=
  (List.range n).map fun i : Nat => (loadQword m (stackAddr p base (a + 8 * i)) : Int)

/-- The pointer leads to a NUL-terminated copy of the string inside the page. -/
def PointsTo (m : Mem) (p : Nat) (base q : Int) (s : List UInt8) : Prop :=
  base ≤ q ∧ q + (s.length + 1) ≤ base + 4096 ∧
    loadBytes m (stackAddr p base q) (s.length + 1) = s ++ [0]

/-- First and last address of the copies of strings at `ptrs`. -/
def stringRanges (ptrs : List Int) (ss : List (List UInt8)) : List (Int × Int) :=
  List.zipWith (fun q s => (q, q + (s.length + 1))) ptrs ss

theorem loadBytes_append (m : Mem) (a n k : Nat) :
    loadBytes m a (n + k) = loadBytes m a n ++ loadBytes m (a + n) k := by
  refine List.ext_getElem (by simp) fun i h1 h2 => ?_
  rw [getElem_loadBytes]
  by_cases hi : i < n
  · rw [List.getElem_append_left (by rw [length_loadBytes]; exact hi), getElem_loadBytes]
  · rw [List.getElem_append_right (by rw [length_loadBytes]; omega), getElem_loadBytes,
      length_loadBytes]
    congr 1
    omega

/-- A run of bytes that is read in two parts. -/
theorem loadBytes_append_eq {m : Mem} {a : Nat} {xs ys : List UInt8}
    (h : loadBytes m a (xs ++ ys).length = xs ++ ys) :
    loadBytes m a xs.length = xs ∧ loadBytes m (a + xs.length) ys.length = ys := by
  rw [List.length_append, loadBytes_append] at h
  exact List.append_inj h (length_loadBytes ..)

/-- The words of a run. -/
theorem loadQword_words {m : Mem} {l : List Int} {a : Nat}
    (h : loadBytes m a (l.flatMap fun q => wordBytes (addr q)).length =
      l.flatMap fun q => wordBytes (addr q)) :
    (List.range l.length).map (fun i => loadQword m (a + 8 * i)) = l.map addr := by
  induction l generalizing a with
  | nil => rfl
  | cons q l ih =>
    rw [List.flatMap_cons] at h
    obtain ⟨hword, hrest⟩ := loadBytes_append_eq h
    rw [length_wordBytes] at hword hrest
    have hq : loadQword m a = addr q := by
      rw [loadQword_of_wordBytes hword]
      exact Nat.mod_eq_of_lt (addr_lt q)
    rw [List.length_cons, List.range_succ_eq_map, List.map_cons, List.map_map, List.map_cons,
      Nat.mul_zero, Nat.add_zero, hq, ← ih hrest]
    refine congrArg _ (List.map_congr_left fun i _ => ?_)
    show loadQword m (a + 8 * (i + 1)) = loadQword m (a + 8 + 8 * i)
    rw [show a + 8 * (i + 1) = a + 8 + 8 * i by omega]

section Strings

variable {m : Mem} {p : Nat} {base : Int} {ss : List (List UInt8)} {off : Nat}

/-- The pointers into a block lead to its strings. -/
theorem stringBlock_pointsTo (h : loadBytes m (p + off) (stringBlock ss).length = stringBlock ss)
    (hin : off + (stringBlock ss).length ≤ 4096) :
    List.Forall₂ (PointsTo m p base) (stringPtrs base ss off) ss := by
  induction ss generalizing off with
  | nil => exact .nil
  | cons s rest ih =>
    rw [length_stringBlock_cons] at hin
    rw [stringBlock_cons, ← List.append_assoc] at h
    obtain ⟨hs, hrest⟩ := loadBytes_append_eq h
    rw [List.length_append, List.length_singleton] at hs hrest
    rw [show p + off + (s.length + 1) = p + (off + s.length + 1) by omega] at hrest
    refine .cons ⟨by omega, by omega, ?_⟩ (ih hrest (by omega))
    unfold stackAddr
    rw [show (base + off - base).toNat = off by omega]
    exact hs

end Strings

/-- The strings of a block lie in it one after the other. -/
theorem stringRanges_sorted (base : Int) (ss : List (List UInt8)) (off : Nat) :
    (stringRanges (stringPtrs base ss off) ss).Pairwise (·.2 ≤ ·.1) ∧
    ∀ r ∈ stringRanges (stringPtrs base ss off) ss,
      base + off ≤ r.1 ∧ r.2 ≤ base + (off + (stringBlock ss).length : Nat) := by
  induction ss generalizing off with
  | nil => exact ⟨.nil, fun r hr => absurd hr List.not_mem_nil⟩
  | cons s rest ih =>
    obtain ⟨hsorted, hin⟩ := ih (off + s.length + 1)
    unfold stringRanges at hsorted hin ⊢
    rw [stringPtrs, List.zipWith_cons_cons, length_stringBlock_cons]
    refine ⟨List.pairwise_cons.mpr ⟨fun r hr => ?_, hsorted⟩, fun r hr => ?_⟩
    · have := (hin r hr).1
      push_cast at this
      dsimp only
      omega
    · rcases List.mem_cons.mp hr with rfl | hr
      · dsimp only
        push_cast
        omega
      · have := hin r hr
        push_cast at this ⊢
        omega

/-- Every byte of a block belongs to a string. -/
theorem stringRanges_cover (base : Int) (ss : List (List UInt8)) {off x : Nat} (h1 : off ≤ x)
    (h2 : x < off + (stringBlock ss).length) :
    ∃ r ∈ stringRanges (stringPtrs base ss off) ss, r.1 ≤ base + x ∧ base + x < r.2 := by
  induction ss generalizing off with
  | nil =>
    rw [show (stringBlock []).length = 0 from rfl] at h2
    omega
  | cons s rest ih =>
    rw [length_stringBlock_cons] at h2
    unfold stringRanges at ih ⊢
    rw [stringPtrs, List.zipWith_cons_cons]
    by_cases hx : x < off + s.length + 1
    · exact ⟨_, List.mem_cons_self .., by dsimp only; omega, by dsimp only; omega⟩
    · obtain ⟨r, hr, hrx⟩ := @ih (off + s.length + 1) (by omega) (by omega)
      exact ⟨r, List.mem_cons_of_mem _ hr, hrx⟩

/-- The places of the count, the arrays and the strings. -/
def stackRanges (m : Mem) (p : Nat) (base : Int) (start : UserStart)
    (argv envp : List (List UInt8)) : List (Int × Int) :=
  [(start.rsp, start.rsp + 8), (start.argvPtr, start.argvPtr + 8 * (argv.length + 1)),
    (start.envpPtr, start.envpPtr + 8 * (envp.length + 1))] ++
  (stringRanges (readPointers m p base start.argvPtr argv.length) argv ++
    stringRanges (readPointers m p base start.envpPtr envp.length) envp)

/-- What a program finds from its stack pointer up, in the stack page at `p`: the count, the two
    arrays, and the strings they point to, apart from each other; the other bytes are 0. -/
structure StackHolds (m : Mem) (p : Nat) (base : Int) (start : UserStart)
    (args envs : List (List UInt8)) : Prop where
  argc : loadQword m (stackAddr p base start.rsp) = args.length ∧ start.argc = args.length
  argvPtr : start.argvPtr = start.rsp + 8
  envpPtr : start.envpPtr = start.argvPtr + 8 * (args.length + 1)
  inside : base ≤ start.rsp ∧ start.envpPtr + 8 * (envs.length + 1) ≤ base + 4096
  argv : List.Forall₂ (PointsTo m p base) (readPointers m p base start.argvPtr args.length) args
  argvEnd : loadQword m (stackAddr p base (start.argvPtr + 8 * args.length)) = 0
  envp : List.Forall₂ (PointsTo m p base) (readPointers m p base start.envpPtr envs.length) envs
  envpEnd : loadQword m (stackAddr p base (start.envpPtr + 8 * envs.length)) = 0
  apart : (stackRanges m p base start args envs).Pairwise fun a b => a.2 ≤ b.1 ∨ b.2 ≤ a.1
  rest : ∀ x, base ≤ x → x < base + 4096 →
    (∀ r ∈ stackRanges m p base start args envs, ¬ (r.1 ≤ x ∧ x < r.2)) → m (stackAddr p base x) = 0

theorem stackAddr_base (p : Nat) (base : Int) (off : Nat) : stackAddr p base (base + off) = p + off := by
  unfold stackAddr
  omega

theorem readPointers_eq {m : Mem} {p : Nat} (base : Int) {off : Nat} {ptrs : List Int}
    (h : loadBytes m (p + off) (pointerBlock ptrs).length = pointerBlock ptrs)
    (hrange : ∀ q ∈ ptrs, 0 ≤ q ∧ q < 2 ^ 63) :
    readPointers m p base (base + off) ptrs.length = ptrs ∧
      loadQword m (stackAddr p base (base + off + 8 * ptrs.length)) = 0 := by
  have hwords := loadQword_words h
  rw [List.length_append, List.length_singleton, List.range_succ, List.map_append, List.map_append]
    at hwords
  obtain ⟨hptrs, hend⟩ := List.append_inj hwords (by simp)
  have haddr : ∀ i : Nat, stackAddr p base (base + off + 8 * i) = p + off + 8 * i := by
    intro i
    unfold stackAddr
    omega
  constructor
  · have hread : readPointers m p base (base + off) ptrs.length =
        ((List.range ptrs.length).map fun i => loadQword m (p + off + 8 * i)).map
          fun n : Nat => (n : Int) := by
      unfold readPointers
      rw [List.map_map]
      refine List.map_congr_left fun i _ => ?_
      rw [haddr]
      rfl
    rw [hread, hptrs, List.map_map]
    refine (List.map_congr_left fun q hq => ?_).trans (List.map_id _)
    obtain ⟨h0, h63⟩ := hrange q hq
    show ((addr q : Nat) : Int) = q
    rw [addr_of_nonneg h0 h63]
    omega
  · rw [haddr]
    exact (List.cons.inj hend).1

theorem stringPtrs_range {base : Int} {ss : List (List UInt8)} {off : Nat} {q : Int}
    (h : q ∈ stringPtrs base ss off) :
    base + off ≤ q ∧ q ≤ base + (off + (stringBlock ss).length : Nat) := by
  induction ss generalizing off with
  | nil => exact absurd h List.not_mem_nil
  | cons s rest ih =>
    rw [length_stringBlock_cons]
    rcases List.mem_cons.mp h with rfl | h
    · omega
    · have := ih h
      omega

/-- The places of the layout, lowest first. -/
def layoutRanges (base : Int) (argv envp : ExecVec) : List (Int × Int) :=
  [(base + argcOff argv envp, base + argcOff argv envp + 8),
    (base + argArrayOff argv envp, base + argArrayOff argv envp + 8 * (argv.strings.length + 1)),
    (base + envArrayOff argv envp, base + envArrayOff argv envp + 8 * (envp.strings.length + 1))] ++
  (stringRanges (stringPtrs base argv.strings (stringsOff argv envp)) argv.strings ++
    stringRanges (stringPtrs base envp.strings (envStringsOff argv envp)) envp.strings)

theorem layoutRanges_sorted (base : Int) (argv envp : ExecVec) :
    (layoutRanges base argv envp).Pairwise (·.2 ≤ ·.1) := by
  obtain ⟨l1, l2, l3, l4, l5, l6⟩ := layoutOk argv envp
  obtain ⟨hsA, hinA⟩ := stringRanges_sorted base argv.strings (stringsOff argv envp)
  obtain ⟨hsE, hinE⟩ := stringRanges_sorted base envp.strings (envStringsOff argv envp)
  unfold layoutRanges
  refine List.pairwise_append.mpr ⟨?_, List.pairwise_append.mpr ⟨hsA, hsE, fun a ha b hb => ?_⟩,
    fun a ha b hb => ?_⟩
  · simp only [List.pairwise_cons, List.mem_cons, List.not_mem_nil, or_false, forall_eq_or_imp,
      forall_eq, List.Pairwise.nil, and_true, IsEmpty.forall_iff, implies_true]
    omega
  · have h1 := (hinA a ha).2
    have h2 := (hinE b hb).1
    unfold envStringsOff at h2
    omega
  · have hb' : base + stringsOff argv envp ≤ b.1 := by
      rcases List.mem_append.mp hb with hb | hb
      · exact (hinA b hb).1
      · have := (hinE b hb).1
        unfold envStringsOff at this
        omega
    have ha' : a.2 ≤ base + (stringsOff argv envp / 16 * 16 : Nat) := by
      simp only [List.mem_cons, List.not_mem_nil, or_false] at ha
      rcases ha with rfl | rfl | rfl
      · dsimp only; omega
      · dsimp only; omega
      · dsimp only; omega
    omega

/-- Below the count and between the arrays and the strings there is nothing. -/
theorem layoutRanges_cover (base : Int) (argv envp : ExecVec) {o : Nat} (ho : o < 4096)
    (h : (argcOff argv envp ≤ o ∧ o < stringsOff argv envp / 16 * 16) ∨ stringsOff argv envp ≤ o) :
    ∃ r ∈ layoutRanges base argv envp, r.1 ≤ base + o ∧ base + o < r.2 := by
  obtain ⟨l1, l2, l3, l4, l5, l6⟩ := layoutOk argv envp
  unfold layoutRanges
  rcases h with ⟨h1, h2⟩ | h
  · by_cases hc : o < argcOff argv envp + 8
    · exact ⟨_, List.mem_append_left _ (List.mem_cons_self ..), by dsimp only; omega,
        by dsimp only; omega⟩
    by_cases ha : o < envArrayOff argv envp
    · exact ⟨_, List.mem_append_left _ (List.mem_cons_of_mem _ (List.mem_cons_self ..)),
        by dsimp only; omega, by dsimp only; omega⟩
    · exact ⟨_, List.mem_append_left _ (List.mem_cons_of_mem _ (List.mem_cons_of_mem _
        (List.mem_cons_self ..))), by dsimp only; omega, by dsimp only; omega⟩
  · by_cases hA : o < envStringsOff argv envp
    · obtain ⟨r, hr, hx⟩ := stringRanges_cover base argv.strings h (by
        unfold envStringsOff at hA
        exact hA)
      exact ⟨r, List.mem_append_right _ (List.mem_append_left _ hr), hx⟩
    · obtain ⟨r, hr, hx⟩ := stringRanges_cover base envp.strings
        (Nat.le_of_not_lt hA) (by omega)
      exact ⟨r, List.mem_append_right _ (List.mem_append_right _ hr), hx⟩

/-- What was written is read back. -/
theorem stackMem_holds {m : Mem} {p : Nat} {base : Int} (argv envp : ExecVec)
    (hzero : ∀ x < 4096, m (p + x) = 0) (hb : 0 ≤ base ∧ base + 4096 < 2 ^ 63) :
    StackHolds (stackMem m p base argv envp) p base
      ⟨base + argcOff argv envp, argv.strings.length, base + argArrayOff argv envp,
        base + envArrayOff argv envp⟩ argv.strings envp.strings := by
  obtain ⟨l1, l2, l3, l4, l5, l6⟩ := layoutOk argv envp
  set M := stackMem m p base argv envp with hM
  set A := stringPtrs base argv.strings (stringsOff argv envp) with hA
  set E := stringPtrs base envp.strings (envStringsOff argv envp) with hE
  have hlenA : A.length = argv.strings.length := length_stringPtrs ..
  have hlenE : E.length = envp.strings.length := length_stringPtrs ..
  -- the low run: count and arrays
  have hlow : loadBytes M (p + argcOff argv envp) _ = _ := loadBytes_storeBytes _ _ _
  obtain ⟨hcount, harrays⟩ := loadBytes_append_eq hlow
  rw [length_wordBytes] at hcount harrays
  rw [show p + argcOff argv envp + 8 = p + argArrayOff argv envp by omega] at harrays
  obtain ⟨hargs, henvs⟩ := loadBytes_append_eq harrays
  rw [length_pointerBlock, hlenA,
    show p + argArrayOff argv envp + 8 * (argv.strings.length + 1) = p + envArrayOff argv envp by
      omega] at henvs
  -- the strings
  have hstrings : loadBytes M (p + stringsOff argv envp)
      (stringBlock argv.strings ++ stringBlock envp.strings).length =
      stringBlock argv.strings ++ stringBlock envp.strings := by
    refine (loadBytes_congr fun i _ => storeBytes_of_outside (Or.inr ?_)).trans
      (loadBytes_storeBytes ..)
    rw [length_lowRun]
    omega
  obtain ⟨hstrA, hstrE⟩ := loadBytes_append_eq hstrings
  rw [show p + stringsOff argv envp + (stringBlock argv.strings).length =
    p + envStringsOff argv envp from Nat.add_assoc ..] at hstrE
  obtain ⟨hreadA, hendA⟩ := readPointers_eq base hargs fun q hq => by
    have := stringPtrs_range hq
    omega
  obtain ⟨hreadE, hendE⟩ := readPointers_eq base henvs fun q hq => by
    have := stringPtrs_range hq
    omega
  rw [hlenA] at hreadA hendA
  rw [hlenE] at hreadE hendE
  have hranges : stackRanges M p base ⟨base + argcOff argv envp, argv.strings.length,
      base + argArrayOff argv envp, base + envArrayOff argv envp⟩ argv.strings envp.strings =
      layoutRanges base argv envp := by
    unfold stackRanges layoutRanges
    dsimp only
    rw [hreadA, hreadE]
  refine ⟨⟨?_, rfl⟩, by dsimp only; omega, by dsimp only; omega, by dsimp only; omega, ?_, hendA, ?_,
    hendE, ?_, fun x hlo hhi hout => ?_⟩
  · rw [stackAddr_base, loadQword_of_wordBytes hcount]
    exact Nat.mod_eq_of_lt (by have := argv.count; omega)
  · dsimp only
    rw [hreadA]
    exact stringBlock_pointsTo hstrA (by omega)
  · dsimp only
    rw [hreadE]
    exact stringBlock_pointsTo hstrE (by omega)
  · rw [hranges]
    exact (layoutRanges_sorted base argv envp).imp Or.inl
  · rw [hranges] at hout
    obtain ⟨o, ho⟩ := Int.eq_ofNat_of_zero_le (show 0 ≤ x - base by omega)
    obtain rfl : x = base + o := by omega
    have hnot : ¬ ((argcOff argv envp ≤ o ∧ o < stringsOff argv envp / 16 * 16) ∨
        stringsOff argv envp ≤ o) := by
      intro h
      obtain ⟨r, hr, hx⟩ := layoutRanges_cover base argv envp (o := o) (by omega) h
      exact hout r hr hx
    rw [stackAddr_base]
    exact (stackMem_of_outside (by omega) (by omega)).trans (hzero o (by omega))

/-! ## The round trip -/

/-- For every pair of vectors, on a stack page of zeros: the builder stays inside the page and
    leaves there what the program is to find. It halts exactly when the early heap has no room
    for the two tables of pointers. -/
theorem initial_stack_round_trip {pages : List Nat} {p : Nat} (hp : TablePage p)
    (hlast : pages.getLast? = some p) (hcount : (pages.length : Int) ≤ maxUserMappedPages)
    (argv envp : ExecVec) {ph : Phys} (hzero : ∀ x < 4096, ph.mem (p + x) = 0) {heap : Heap}
    (hok : HeapOk heap) :
    Ends (schedulerBuildUserInitialStack pages argv envp ph heap)
      (fun r => StackHolds r.2.1.mem p (userTaskStackBaseVirt pages.length) r.1 argv.strings
          envp.strings ∧
        (∀ x, x < p ∨ p + 4096 ≤ x → r.2.1.mem x = ph.mem x) ∧
        heap.ptr + tablesRoom argv envp ≤ heap.stop)
      (fun e => e = "early heap exhausted" ∧ heap.stop < heap.ptr + tablesRoom argv envp) := by
  refine (schedulerBuildUserInitialStack_eq hp hlast argv envp ph hok).imp ?_
  rintro ⟨start, ph', heap'⟩ ⟨rfl, rfl, hm, hptr⟩
  obtain ⟨l1, l2, l3, l4, l5, l6⟩ := layoutOk argv envp
  refine ⟨?_, fun x hx => stackMem_of_outside (by omega) (by omega), ?_⟩
  · refine stackMem_holds argv envp hzero ?_
    unfold userTaskStackBaseVirt userTaskPageVirt userTaskRegionBase userPageSize
    unfold maxUserMappedPages at hcount
    have hne : 0 < pages.length := List.length_pos_iff.mpr (by rintro rfl; cases hlast)
    omega
  · have hle : heap'.ptr ≤ heap'.stop := hm.1.le
    have hstop : heap'.stop = heap.stop := hm.2.stop
    dsimp only at hptr
    omega

/-- The arguments `ls` and `-a`. -/
def listArgs : ExecVec := ⟨[[108, 115], [45, 97]], by simp, by simp, by simp⟩

/-- The environment `A=/`. -/
def rootEnv : ExecVec := ⟨[[65, 61, 47]], by simp, by simp, by simp⟩

theorem initial_stack_round_trip_small : ∃ s : PmmState, initPmm smallMap = .ok s ∧
    Ends (schedulerBuildUserInitialStack [4096] listArgs rootEnv ⟨s, fun _ => 0, 0⟩
        ⟨16, 4096, fun _ => 0⟩)
      (fun r => StackHolds r.2.1.mem 4096 (userTaskStackBaseVirt 1) r.1
          [[108, 115], [45, 97]] [[65, 61, 47]] ∧
        ∀ x, x < 4096 ∨ 8192 ≤ x → r.2.1.mem x = 0)
      (fun _ => False) := by
  obtain ⟨s, hs, -⟩ := initPmm_smallMap
  refine ⟨s, hs, ?_⟩
  have hok : HeapOk ⟨16, 4096, fun _ => 0⟩ := ⟨by decide, by decide, by decide, by decide⟩
  have hpage : TablePage 4096 := ⟨by norm_num, by norm_num, by norm_num⟩
  have hlast : [4096].getLast? = some 4096 := rfl
  refine (initial_stack_round_trip hpage hlast (by decide) listArgs rootEnv
    (fun _ _ => rfl) hok).mono (fun _ h => ⟨h.1, h.2.1⟩) ?_
  rintro e ⟨-, he⟩
  exact absurd he (by decide)

/-- One argument of one byte. -/
def oneArg : ExecVec := ⟨[[97]], by simp, by simp, by simp⟩

/-- No environment. -/
def noEnv : ExecVec := .nil

/-- With the early heap used up, one argument is enough to halt the builder. -/
theorem full_heap_halts : ∃ s : PmmState, initPmm smallMap = .ok s ∧
    HeapOk ⟨4096, 4096, fun _ => 0⟩ ∧
    schedulerBuildUserInitialStack [4096] oneArg noEnv ⟨s, fun _ => 0, 0⟩
      ⟨4096, 4096, fun _ => 0⟩ = .error "early heap exhausted" := by
  obtain ⟨s, hs, -⟩ := initPmm_smallMap
  refine ⟨s, hs, ⟨by decide, by decide, by decide, by decide⟩, ?_⟩
  unfold schedulerBuildUserInitialStack allocPointers allocBytes
  rfl

end PcoOs.Image
