/-
  `vfs_normalize_path` ends and stays in its block. The output never overtakes the source: a round
  takes a slash and a component from the path and appends at most as much, and `..` only shortens
  the output. `Head` is the invariant of the outer loop.
-/
import PcoOs.Vfs.RawPath

namespace PcoOs.Vfs

open PcoOs.Lib PcoOs.Lib.Prog PcoOs.Support PcoOs.Pmm

/-- The record is good, and all bytes of the output were stored. -/
structure Written (pathLen outLen : Int) (s : PathState) : Prop where
  safe : NormalizeSafe pathLen s
  all : ∀ j, 0 ≤ j → j < outLen → j ∈ s.stores

theorem Written.mono {pathLen outLen outLen' : Int} {s : PathState} (h : Written pathLen outLen s)
    (hle : outLen' ≤ outLen) : Written pathLen outLen' s :=
  ⟨h.safe, fun j h0 hj => h.all j h0 (lt_of_lt_of_le hj hle)⟩

/-- The path ends at `i`, or there is a slash. -/
def AtSlash (pathPtr pathLen i : Int) (m : Mem) : Prop :=
  i = pathLen ∨ m (addr (pathPtr + i)) = 47

/-- At the head of the outer loop. If the output is as long as what was taken from the path, then
    the next byte is a slash, which makes room for the separator. -/
structure Head (pathPtr pathLen outLen srcIndex : Int) (s : PathState) : Prop where
  written : Written pathLen outLen s
  one_le : 1 ≤ outLen
  le : outLen ≤ srcIndex
  le_len : srcIndex ≤ pathLen
  room : outLen < srcIndex ∨ outLen = 1 ∨ AtSlash pathPtr pathLen srcIndex s.heap.mem

section Scans

variable {m : Mem} {pathPtr pathLen outLen : Int}

theorem moved_total {P : Mem → Prop} {o s : Int} (h1 : 1 ≤ o) (hle : o ≤ s) (hs : s ≤ pathLen) :
    Total (fun t => Written pathLen outLen t ∧ P t.heap.mem) (moved o s)
      fun _ t => Written pathLen outLen t ∧ P t.heap.mem :=
  total_update fun _ ht =>
    ⟨⟨⟨List.forall_mem_cons.mpr ⟨⟨h1, hle, hs⟩, ht.1.safe.cursors⟩, ht.1.safe.stores,
      ht.1.safe.scans⟩, ht.1.all⟩, ht.2⟩

theorem loadPathByte_total {P : PathState → Prop} (hp : addr pathPtr ≠ 0) {i : Int} (h0 : 0 ≤ i)
    (hi : i < pathLen) : Total (fun t => P t ∧ t.heap.mem = m) (loadPathByte pathPtr pathLen i)
      fun b t => (P t ∧ t.heap.mem = m) ∧ b = m (addr (pathPtr + i)) := by
  intro t ht
  refine ⟨t.heap.mem (addr (pathPtr + i)), t, ?_, ht, by rw [ht.2]⟩
  unfold loadPathByte
  rw [checkByteRegion_ok hp h0 hi, ok_bind]

/-- A scan stops at the end of the path or at a byte that is not one of `p`. -/
theorem scanPath_total (hp : addr pathPtr ≠ 0) (p : UInt8 → Bool) (h1 : 1 ≤ outLen) {n : Nat} {i : Int}
    (hle : outLen ≤ i) (hi : i ≤ pathLen) (hn : pathLen ≤ i + n) :
    Total (fun t => Written pathLen outLen t ∧ t.heap.mem = m)
      (scanPath pathPtr pathLen outLen p n i) fun j t =>
        (Written pathLen outLen t ∧ t.heap.mem = m) ∧ i ≤ j ∧ j ≤ pathLen ∧
          (j < pathLen → p (m (addr (pathPtr + j))) = false) ∧
          (i < pathLen → p (m (addr (pathPtr + i))) = true → i < j) := by
  induction n generalizing i with
  | zero =>
    exact total_ite (fun h => absurd h (by omega)) fun h => total_pure fun t ht =>
      ⟨ht, le_refl i, hi, fun hlt => absurd hlt h, fun hlt => absurd hlt h⟩
  | succ n ih =>
    refine total_ite (fun hlt => ?_) fun h => total_pure fun t ht =>
      ⟨ht, le_refl i, hi, fun hlt => absurd hlt h, fun hlt => absurd hlt h⟩
    refine total_bind (loadPathByte_total hp (by omega) hlt) fun b => total_fact fun hb => ?_
    refine total_ite (fun hpb => ?_) fun hpb => total_pure fun t ht =>
      ⟨ht, le_refl i, hi, fun _ => ?_, fun _ hpi => ?_⟩
    · refine total_bind (moved_total (P := (· = m)) h1 (by omega) (by omega)) fun _ => ?_
      refine (ih (i := i + 1) (by omega) (by omega) (by push_cast at hn; omega)).mono
        (fun _ ht => ht) fun j t h => ⟨h.1, by omega, h.2.2.1, h.2.2.2.1, fun _ _ => by omega⟩
    · rw [← hb]
      exact Bool.eq_false_iff.mpr hpb
    · rw [← hb] at hpi
      exact absurd hpi hpb

theorem isDot_total (hp : addr pathPtr ≠ 0) {P : PathState → Prop} {start len : Int}
    (h0 : 0 ≤ start) (hlen : start + len ≤ pathLen) :
    Total (fun t => P t ∧ t.heap.mem = m) (isDot pathPtr pathLen start len)
      fun _ t => P t ∧ t.heap.mem = m := by
  refine total_ite (fun h => ?_) fun _ => total_pure fun _ ht => ht
  refine total_bind (loadPathByte_total hp h0 (by omega)) fun b => ?_
  exact total_pure fun _ ht => ht.1

theorem isDotDot_total (hp : addr pathPtr ≠ 0) {P : PathState → Prop} {start len : Int}
    (h0 : 0 ≤ start) (hlen : start + len ≤ pathLen) :
    Total (fun t => P t ∧ t.heap.mem = m) (isDotDot pathPtr pathLen start len)
      fun _ t => P t ∧ t.heap.mem = m := by
  refine total_ite (fun h => ?_) fun _ => total_pure fun _ ht => ht
  refine total_bind (loadPathByte_total hp h0 (by omega)) fun b => total_fact fun _ => ?_
  refine total_ite (fun _ => ?_) fun _ => total_pure fun _ ht => ht
  refine total_bind (loadPathByte_total hp (by omega) (by omega)) fun b => ?_
  exact total_pure fun _ ht => ht.1

end Scans

/-! ## The output -/

section Output

variable {pathPtr pathLen outPtr : Int}

theorem lowered_total {o s : Int} (hgt : o > 1) (hle : o ≤ s) (hs : s ≤ pathLen) :
    Total (Written pathLen o) (moved (o - 1) s) fun _ => Written pathLen (o - 1) :=
  (moved_total (P := fun _ => True) (by omega) (by omega) hs).mono
    (fun _ ht => ⟨ht.mono (by omega), trivial⟩) fun _ _ ht => ht.1

theorem loadSourceByte_total {P : PathState → Prop} (ptr : Int) :
    Total P (loadSourceByte ptr) fun _ => P := total_gets fun _ ht => ht

/-- The backward scan looks at bytes that were stored, and stops at the first one at the latest. -/
theorem scanOut_total {n : Nat} {o s : Int} (h1 : 1 ≤ o) (hle : o ≤ s) (hs : s ≤ pathLen)
    (hn : o ≤ n + 1) : Total (Written pathLen o) (scanOut outPtr s n o)
      fun o' t => Written pathLen o' t ∧ 1 ≤ o' ∧ o' ≤ o := by
  induction n generalizing o with
  | zero =>
    exact total_ite (fun h => absurd h (by omega)) fun _ =>
      total_pure fun t ht => ⟨ht, h1, le_refl o⟩
  | succ n ih =>
    refine total_ite (fun hgt => ?_) fun _ => total_pure fun t ht => ⟨ht, h1, le_refl o⟩
    refine total_bind (Q := fun _ => Written pathLen o) (fun t ht => ?_) fun b => ?_
    · refine ⟨_, _, rfl, ⟨ht.safe.cursors, ht.safe.stores, ?_⟩, ht.all⟩
      refine List.forall_mem_cons.mpr ⟨⟨by dsimp only; omega, ?_⟩, ht.safe.scans⟩
      exact decide_eq_true (ht.all (o - 1) (by omega) (by omega))
    · refine total_ite (fun _ => ?_) fun _ => total_pure fun t ht => ⟨ht, h1, le_refl o⟩
      refine total_bind (lowered_total hgt hle hs) fun _ => ?_
      refine (ih (o := o - 1) (by omega) (by omega) (by push_cast at hn; omega)).mono
        (fun _ ht => ht) fun o' t h => ⟨h.1, h.2.1, by omega⟩

theorem popComponent_total {o s : Int} (h1 : 1 ≤ o) (hle : o ≤ s) (hs : s ≤ pathLen) :
    Total (Written pathLen o) (popComponent outPtr o s)
      fun o' t => Written pathLen o' t ∧ 1 ≤ o' ∧ o' ≤ o := by
  refine total_ite (fun hgt => ?_) fun _ => total_pure fun t ht => ⟨ht, h1, le_refl o⟩
  refine total_bind (lowered_total hgt hle hs) fun _ => ?_
  refine (scanOut_total (n := (o - 1).toNat) (by omega) (by omega) hs (by omega)).mono
    (fun _ ht => ht) fun o' t h => ⟨h.1, h.2.1, by omega⟩

/-- A store at `j` changes no byte of the path behind index `j`. -/
def Trails (pathPtr pathLen outPtr : Int) : Prop :=
  ∀ i j, 0 ≤ j → j < i → i < pathLen → addr (pathPtr + i) ≠ addr (outPtr + j)

/-- One more byte of the output is stored. -/
theorem Written.store {o : Int} {h : Heap} {t : PathState} (hw : Written pathLen o t) (h0 : 0 ≤ o)
    (hle : o ≤ pathLen) : Written pathLen (o + 1) { t with heap := h, stores := o :: t.stores } := by
  refine ⟨⟨hw.safe.cursors, ?_, hw.safe.scans⟩, fun j hj hjo => ?_⟩
  · exact List.forall_mem_cons.mpr ⟨⟨h0, hle⟩, hw.safe.stores⟩
  · rcases eq_or_lt_of_le (Int.lt_add_one_iff.mp hjo) with rfl | hlt
    · exact List.mem_cons_self
    · exact List.mem_cons_of_mem _ (hw.all j hj hlt)

theorem storeOut_written {o : Int} {b : UInt8} (h0 : 0 ≤ o) (hle : o ≤ pathLen) :
    Total (Written pathLen o) (storeOut outPtr o b) fun _ => Written pathLen (o + 1) :=
  total_update fun _ hw => hw.store h0 hle

/-- The next byte of the output, with the cursor at a slash or the end. -/
theorem storeOut_total (ht : Trails pathPtr pathLen outPtr) {o s : Int} {b : UInt8} (h0 : 0 ≤ o)
    (hlt : o < s) (hs : s ≤ pathLen) :
    Total (fun t => Written pathLen o t ∧ AtSlash pathPtr pathLen s t.heap.mem) (storeOut outPtr o b)
      fun _ t => Written pathLen (o + 1) t ∧ AtSlash pathPtr pathLen s t.heap.mem := by
  refine total_update fun t hw => ⟨hw.1.store h0 (by omega), ?_⟩
  refine (eq_or_lt_of_le hs).imp_right fun hlt' => ?_
  dsimp only
  rw [storeByte_ne (ht s o h0 hlt hlt')]
  exact hw.2.resolve_left (by omega)

theorem appendSlash_total (ht : Trails pathPtr pathLen outPtr) {o s : Int}
    (hroom : o = 1 ∨ o + 1 ≤ s) (hs : s ≤ pathLen) :
    Total (fun t => Written pathLen o t ∧ AtSlash pathPtr pathLen s t.heap.mem)
      (appendSlash outPtr o s) fun o' t =>
        (Written pathLen o' t ∧ AtSlash pathPtr pathLen s t.heap.mem) ∧
          o' = if o > 1 then o + 1 else o := by
  refine total_ite (fun hgt => ?_) fun hgt => total_pure fun t h => ⟨h, (if_neg hgt).symm⟩
  refine total_bind (storeOut_total ht (by omega) (by omega) hs) fun _ => ?_
  refine total_bind (moved_total (by omega) (by omega) hs) fun _ => ?_
  exact total_pure fun t h => ⟨h, (if_pos hgt).symm⟩

/-- The component goes behind the output, which still does not overtake the source. -/
theorem appendComponent_total (ht : Trails pathPtr pathLen outPtr) {o s start : Int} (h1 : 1 ≤ o)
    (hstart : 1 ≤ start) (hroom : o = 1 ∨ o + 1 ≤ start) (hlt : start < s) (hs : s ≤ pathLen) :
    Total (fun t => Written pathLen o t ∧ AtSlash pathPtr pathLen s t.heap.mem)
      (appendComponent pathPtr outPtr o s start (s - start)) fun o' t =>
        (Written pathLen o' t ∧ AtSlash pathPtr pathLen s t.heap.mem) ∧ 1 ≤ o' ∧ o' ≤ s := by
  refine total_bind (appendSlash_total ht (by omega) hs) fun o' => total_fact fun ho' => ?_
  have hle : 1 ≤ o' ∧ o' ≤ start := by
    rw [ho']
    split_ifs <;> omega
  refine total_bind (Q := fun _ t => Written pathLen (o' + (s - start)) t ∧
    AtSlash pathPtr pathLen s t.heap.mem) ?_ fun _ => total_pure fun t h => ⟨h, by omega, by omega⟩
  refine (total_times _ (fun k t => Written pathLen (o' + k) t ∧ AtSlash pathPtr pathLen s t.heap.mem)
    (i := 0) (n := (s - start).toNat) fun k _ hk => ?_).mono (fun t h => ?_) fun _ t h => ?_
  · refine total_bind (loadSourceByte_total _) fun b => ?_
    refine total_bind (storeOut_total ht (by omega) (by omega) hs) fun _ => ?_
    refine (moved_total (by omega) (by omega) hs).mono (fun t h => h) fun _ t h => ?_
    rw [Nat.cast_add, Nat.cast_one, ← Int.add_assoc]
    exact h
  · rw [Nat.cast_zero, Int.add_zero]
    exact h
  · rw [Nat.zero_add, Int.toNat_of_nonneg (by omega)] at h
    exact h

/-! ## The loop -/

theorem normalizeRound_from (hp : addr pathPtr ≠ 0) (ht : Trails pathPtr pathLen outPtr) {m : Mem}
    {o s : Int} (h1 : 1 ≤ o) (hle : o ≤ s) (hlt : s < pathLen)
    (hroom : o < s ∨ o = 1 ∨ AtSlash pathPtr pathLen s m) :
    Total (fun t => Written pathLen o t ∧ t.heap.mem = m)
      (normalizeRound pathPtr pathLen outPtr o s) fun r t =>
        Head pathPtr pathLen r.1 r.2 t ∧ s < r.2 := by
  unfold normalizeRound
  refine total_bind (scanPath_total hp (· = 47) h1 hle hlt.le (by omega)) fun start => total_fact ?_
  rintro ⟨hs, hlen, hnot, hskip⟩
  have hfit : o = 1 ∨ o + 1 ≤ start := by
    rcases hroom with h | h | h | h
    · omega
    · omega
    · omega
    · have := hskip hlt (decide_eq_true h)
      omega
  refine total_ite (fun hend => total_pure fun t h =>
    ⟨⟨h.1, h1, by omega, hlen, Or.inr (Or.inr (Or.inl (by omega)))⟩, by omega⟩) fun hstart => ?_
  have hne := of_decide_eq_false (hnot (by omega))
  refine total_bind (scanPath_total hp (· ≠ 47) h1 (by omega) hlen (by omega)) fun src => total_fact ?_
  rintro ⟨-, hsrc, hstop, htake⟩
  have htaken : start < src := htake (by omega) (decide_eq_true hne)
  have hslash : AtSlash pathPtr pathLen src m := by
    rcases eq_or_lt_of_le hsrc with h | h
    · exact Or.inl h
    · exact Or.inr (not_not.mp (of_decide_eq_false (hstop h)))
  refine total_bind (isDot_total hp (by omega) (by omega)) fun dot => total_ite (fun _ => ?_) fun _ => ?_
  · exact total_pure fun t h => ⟨⟨h.1, h1, by omega, hsrc, Or.inl (by omega)⟩, by omega⟩
  refine total_bind (isDotDot_total hp (by omega) (by omega)) fun dotDot => total_ite (fun _ => ?_)
    fun _ => ?_
  · refine total_bind ((popComponent_total (s := src) h1 (by omega) hsrc).mono (fun _ h => h.1)
      fun _ _ h => h) fun o' => total_fact fun ho' => total_pure fun t h => ?_
    exact ⟨⟨h, ho'.1, by omega, hsrc, Or.inl (by omega)⟩, by omega⟩
  · refine total_bind ((appendComponent_total ht h1 (by omega) hfit htaken hsrc).mono
      (fun t h => ⟨h.1, by rw [h.2]; exact hslash⟩) fun _ _ h => h) fun o' => total_fact fun ho' =>
      total_pure fun t h => ?_
    exact ⟨⟨h.1, ho'.1, ho'.2, hsrc, Or.inr (Or.inr h.2)⟩, by omega⟩

theorem normalizeRound_total (hp : addr pathPtr ≠ 0) (ht : Trails pathPtr pathLen outPtr) {o s : Int}
    (hlt : s < pathLen) : Total (Head pathPtr pathLen o s) (normalizeRound pathPtr pathLen outPtr o s)
      fun r t => Head pathPtr pathLen r.1 r.2 t ∧ s < r.2 :=
  fun t h => normalizeRound_from hp ht h.one_le h.le hlt h.room t ⟨h.written, rfl⟩

theorem normalizeRounds_total (hp : addr pathPtr ≠ 0) (ht : Trails pathPtr pathLen outPtr) {n : Nat}
    {o s : Int} (hn : pathLen ≤ s + n) :
    Total (Head pathPtr pathLen o s) (normalizeRounds pathPtr pathLen outPtr n o s)
      fun o' t => Written pathLen o' t ∧ 1 ≤ o' ∧ o' ≤ pathLen := by
  induction n generalizing o s with
  | zero =>
    exact total_ite (fun h => absurd h (by omega)) fun _ =>
      total_pure fun t h => ⟨h.written, h.one_le, h.le.trans h.le_len⟩
  | succ n ih =>
    refine total_ite (fun hlt => ?_) fun _ =>
      total_pure fun t h => ⟨h.written, h.one_le, h.le.trans h.le_len⟩
    refine total_bind (normalizeRound_total hp ht hlt) fun r => total_fact fun hr => ?_
    exact ih (by push_cast at hn; omega)

end Output

/-- A fresh block apart from the path trails it. -/
theorem BlockApart.trails {h : Heap} {pathPtr pathLen : Int} (ha : BlockApart h pathPtr pathLen)
    (hlen : pathLen < 2 ^ 63) : Trails pathPtr pathLen h.ptr := by
  intro i j h0 hji hi
  unfold BlockApart at ha
  unfold addr at ha ⊢
  omega

/-- No size that wraps is handed out: with it the heap pointer would be negative. -/
theorem wrap_of_alloc {h : Heap} {len : Int} {r : Nat × Heap} (hlow : h.ptr + 16 < 2 ^ 63)
    (hpos : 0 < len) (hlen : len < 2 ^ 63) (halloc : allocBytes h (wrap (len + 2)) = .ok r) :
    wrap (len + 2) = len + 2 := by
  unfold allocBytes alignDownI at halloc
  dsimp only at halloc
  split_ifs at halloc with hfull
  unfold wrap at hfull ⊢
  omega

/-! ## The block -/

section Block

variable {p : Nat}

@[simp] theorem moved_maintains (a b : Int) : Maintains (fun t => t.heap.ptr = p) (moved a b) :=
  maintains_update fun _ h => h

@[simp] theorem loadPathByte_maintains (ptr len i : Int) :
    Maintains (fun t => t.heap.ptr = p) (loadPathByte ptr len i) := by
  intro s hs b t heq
  obtain ⟨_, -, heq⟩ := bind_eq_ok.mp heq
  obtain ⟨-, rfl⟩ := Prod.mk.inj (Except.ok.inj heq)
  exact hs

@[simp] theorem loadSourceByte_maintains (ptr : Int) :
    Maintains (fun t => t.heap.ptr = p) (loadSourceByte ptr) := maintains_gets _

@[simp] theorem storeOut_maintains (out i : Int) (b : UInt8) :
    Maintains (fun t => t.heap.ptr = p) (storeOut out i b) := maintains_update fun _ h => h

@[simp] theorem loadOut_maintains (out i : Int) : Maintains (fun t => t.heap.ptr = p) (loadOut out i) := by
  intro s hs b t heq
  obtain ⟨-, rfl⟩ := Prod.mk.inj (Except.ok.inj heq)
  exact hs

@[simp] theorem scanPath_maintains (ptr len o : Int) (q : UInt8 → Bool) (n : Nat) (i : Int) :
    Maintains (fun t => t.heap.ptr = p) (scanPath ptr len o q n i) := by
  induction n generalizing i with
  | zero => exact maintains_ite (by simp) (by simp)
  | succ n ih =>
    refine maintains_ite (maintains_bind (by simp) fun b => maintains_ite ?_ (by simp)) (by simp)
    exact maintains_bind (by simp) fun _ => ih _

theorem scanOut_maintains (out s : Int) (n : Nat) (o : Int) :
    Maintains (fun t => t.heap.ptr = p) (scanOut out s n o) := by
  induction n generalizing o with
  | zero => exact maintains_ite (by simp) (by simp)
  | succ n ih =>
    refine maintains_ite (maintains_bind (by simp) fun b => maintains_ite ?_ (by simp)) (by simp)
    exact maintains_bind (by simp) fun _ => ih _

theorem appendComponent_maintains (ptr out o s start len : Int) :
    Maintains (fun t => t.heap.ptr = p) (appendComponent ptr out o s start len) := by
  refine maintains_bind ?_ fun o' => maintains_bind (maintains_times (fun i => ?_) _ _) fun _ => by simp
  · exact maintains_ite (maintains_bind (by simp) fun _ => maintains_bind (by simp) fun _ => by simp) (by simp)
  · exact maintains_bind (by simp) fun _ => maintains_bind (by simp) fun _ => by simp

theorem normalizeRound_maintains (ptr len out o s : Int) :
    Maintains (fun t => t.heap.ptr = p) (normalizeRound ptr len out o s) := by
  have hdot : ∀ a b, Maintains (fun t => t.heap.ptr = p) (isDot ptr len a b) := fun a b =>
    maintains_ite (maintains_bind (by simp) fun _ => by simp) (by simp)
  have hdotDot : ∀ a b, Maintains (fun t => t.heap.ptr = p) (isDotDot ptr len a b) := fun a b =>
    maintains_ite (maintains_bind (by simp) fun _ => maintains_ite (maintains_bind (by simp) fun _ => by simp)
      (by simp)) (by simp)
  have hpop : ∀ a b, Maintains (fun t => t.heap.ptr = p) (popComponent out a b) := fun a b =>
    maintains_ite (maintains_bind (by simp) fun _ => scanOut_maintains _ _ _ _) (by simp)
  unfold normalizeRound
  refine maintains_bind (by simp) fun start => maintains_ite (by simp) (maintains_bind (by simp) fun src => ?_)
  refine maintains_bind (hdot _ _) fun _ => maintains_ite (by simp) (maintains_bind (hdotDot _ _) fun _ => ?_)
  refine maintains_ite (maintains_bind (hpop _ _) fun _ => by simp) ?_
  exact maintains_bind (appendComponent_maintains _ _ _ _ _ _) fun _ => by simp

theorem normalizeRounds_maintains (ptr len out : Int) (n : Nat) (o s : Int) :
    Maintains (fun t => t.heap.ptr = p) (normalizeRounds ptr len out n o s) := by
  induction n generalizing o s with
  | zero => exact maintains_ite (by simp) (by simp)
  | succ n ih =>
    exact maintains_ite (maintains_bind (normalizeRound_maintains _ _ _ _ _) fun _ => ih _ _) (by simp)

end Block

/-! ## The whole function -/

/-- What is behind the allocation. -/
theorem normalizeBlock_total {pathPtr pathLen outPtr : Int} (hp : addr pathPtr ≠ 0)
    (ht : Trails pathPtr pathLen outPtr) (hlen : 0 < pathLen) :
    Total (NormalizeSafe pathLen) (do
      storeOut outPtr 0 47
      moved 1 1
      let outLen ← normalizeRounds pathPtr pathLen outPtr pathLen.toNat 1 1
      let outLen ← rootIfEmpty outPtr outLen
      storeOut outPtr outLen 0
      pure (outPtr, outLen)) fun r t => r.1 = outPtr ∧ NormalizeSafe pathLen t := by
  refine total_bind (Q := fun _ => Written pathLen 1) ?_ fun _ => ?_
  · exact (storeOut_written (o := 0) (le_refl 0) hlen.le).mono
      (fun t h => ⟨h, fun j hj hlt => absurd hj (by omega)⟩) fun _ _ h => h
  refine total_bind (Q := fun _ => Head pathPtr pathLen 1 1) ?_ fun _ => ?_
  · exact (moved_total (P := fun _ => True) (le_refl 1) (le_refl 1) hlen).mono
      (fun t h => ⟨h, trivial⟩)
      fun _ t h => ⟨h.1, le_refl 1, le_refl 1, hlen, Or.inr (Or.inl rfl)⟩
  refine total_bind (normalizeRounds_total hp ht (by omega)) fun o => total_fact fun ho => ?_
  refine total_bind (Q := fun o' t => Written pathLen o t ∧ o' = o) ?_ fun o' => total_fact fun ho' => ?_
  · exact total_ite (fun h => absurd h (by omega)) fun _ => total_pure fun t h => ⟨h, rfl⟩
  rw [ho']
  refine total_bind (storeOut_written (by omega) ho.2) fun _ => ?_
  exact total_pure fun t h => ⟨rfl, h.safe⟩

theorem normalizeBlock_maintains {p : Nat} (pathPtr pathLen outPtr : Int) :
    Maintains (fun t => t.heap.ptr = p) (do
      storeOut outPtr 0 47
      moved 1 1
      let outLen ← normalizeRounds pathPtr pathLen outPtr pathLen.toNat 1 1
      let outLen ← rootIfEmpty outPtr outLen
      storeOut outPtr outLen 0
      pure (outPtr, outLen)) := by
  refine maintains_bind (by simp) fun _ => maintains_bind (by simp) fun _ => ?_
  refine maintains_bind (normalizeRounds_maintains _ _ _ _ _ _) fun o => maintains_bind ?_ fun o' => ?_
  · exact maintains_ite (maintains_bind (by simp) fun _ => by simp) (by simp)
  · exact maintains_bind (by simp) fun _ => by simp

/-- For every path, `vfs_normalize_path` ends and stays in its block, unless the block was handed out
    in the middle of the path itself. -/
theorem vfs_normalize_path_safe {pathPtr pathLen : Int} {s : PathState}
    (hptr : -2 ^ 63 ≤ pathPtr ∧ pathPtr < 2 ^ 63) (hlen : -2 ^ 63 ≤ pathLen ∧ pathLen < 2 ^ 63)
    (hok : HeapOk s.heap) (hlow : s.heap.ptr + 16 < 2 ^ 63)
    (ha : BlockApart s.heap pathPtr pathLen) (hstores : s.stores = [])
    (hscans : s.scans = []) (hcursors : s.cursors = []) :
    Ends (vfsNormalizePathRaw pathPtr pathLen s)
      (fun r => NormalizeSafe pathLen r.2 ∧ (r.1 = (0, 0) ∨
        r.1.1 = s.heap.ptr ∧ s.heap.ptr + (pathLen + 2) ≤ r.2.heap.ptr))
      (fun e => e = "early heap exhausted") := by
  have hempty : NormalizeSafe pathLen s := ⟨by simp [hcursors], by simp [hstores], by simp [hscans]⟩
  unfold vfsNormalizePathRaw
  split_ifs with hnull
  · exact ⟨hempty, Or.inl rfl⟩
  have hp : addr pathPtr ≠ 0 := by
    unfold addr
    omega
  rw [run_bind]
  unfold loadPathByte
  rw [checkByteRegion_ok hp (le_refl 0) (by omega), ok_bind, ok_bind]
  dsimp only
  split_ifs with hslash
  · exact ⟨hempty, Or.inl rfl⟩
  rw [run_bind]
  unfold allocPath
  cases halloc : allocBytes s.heap (wrap (pathLen + 2)) with
  | error e => exact allocBytes_error halloc
  | ok r =>
    have hwrap : wrap (pathLen + 2) = pathLen + 2 := wrap_of_alloc hlow (by omega) hlen.2 halloc
    rw [hwrap] at halloc
    obtain ⟨hr, -, -, hblock, -⟩ := (allocBytes_spec hok (by omega)).of_ok halloc
    have htrails : Trails pathPtr pathLen r.1 := by
      rw [hr]
      exact ha.trails hlen.2
    rw [ok_bind, ok_bind]
    obtain ⟨a, t, heq, ⟨hfst, hsafe⟩, hheap⟩ :=
      (normalizeBlock_total hp htrails (by omega)).and_hoare
        (normalizeBlock_maintains (p := r.2.ptr) pathPtr pathLen r.1) { s with heap := r.2 }
        ⟨⟨hempty.cursors, hempty.stores, hempty.scans⟩, rfl⟩
    rw [heq]
    refine ⟨hsafe, Or.inr ⟨by rw [hfst, hr], ?_⟩⟩
    rw [hheap]
    exact hblock

/-- `path` at `ptr`, and an empty heap at 1 MiB. -/
def pathAt (ptr : Nat) (path : List UInt8) : PathState :=
  ⟨⟨0x100000, 0x140000, fun a => if ptr ≤ a then path.getD (a - ptr) 0 else 0⟩, [], [], []⟩

@[simp] theorem pathAt_ptr (ptr : Nat) (path : List UInt8) : (pathAt ptr path).heap.ptr = 0x100000 := rfl

@[simp] theorem pathAt_stop (ptr : Nat) (path : List UInt8) : (pathAt ptr path).heap.stop = 0x140000 := rfl

theorem pathAt_ok (ptr : Nat) (path : List UInt8) : HeapOk (pathAt ptr path).heap :=
  ⟨by simp, by simp, by simp, by simp⟩

/-- `/a/bb/../c` -/
theorem vfs_normalize_path_safe_dotDot :
    Ends (vfsNormalizePathRaw 0x80000 10 (pathAt 0x80000 [47, 97, 47, 98, 98, 47, 46, 46, 47, 99]))
      (fun r => NormalizeSafe 10 r.2 ∧ (r.1 = (0, 0) ∨
        r.1.1 = (0x100000 : Nat) ∧ (0x100000 : Nat) + (10 + 2) ≤ (r.2.heap.ptr : Int)))
      (fun e => e = "early heap exhausted") :=
  vfs_normalize_path_safe (s := pathAt 0x80000 _) (by omega) (by omega) (pathAt_ok _ _) (by simp)
    (Or.inr (by simp [addr])) rfl rfl rfl

/-- `/a//a/` two bytes below the block: each store is read back as a byte of the path. -/
theorem vfs_normalize_path_overruns : ¬ ∀ (pathPtr pathLen : Int) (s : PathState),
    -2 ^ 63 ≤ pathPtr ∧ pathPtr < 2 ^ 63 → -2 ^ 63 ≤ pathLen ∧ pathLen < 2 ^ 63 → HeapOk s.heap →
    s.heap.ptr + 16 < 2 ^ 63 → s.stores = [] → s.scans = [] → s.cursors = [] →
    Ends (vfsNormalizePathRaw pathPtr pathLen s) (fun r => NormalizeSafe pathLen r.2)
      (fun e => e = "early heap exhausted") := by
  intro h
  have hends := h 0xFFFFE 6 (pathAt 0xFFFFE [47, 97, 47, 47, 97, 47]) (by omega) (by omega)
    (pathAt_ok _ _) (by simp) rfl rfl rfl
  obtain ⟨r, hr⟩ := exists_ok_of_isOk (x := do
    let r ← vfsNormalizePathRaw 0xFFFFE 6 (pathAt 0xFFFFE [47, 97, 47, 47, 97, 47])
    if 7 ∈ r.2.stores then Except.ok r else .error "inside") (by decide +kernel)
  obtain ⟨⟨a, t⟩, hrun, hstore⟩ := bind_eq_ok.mp hr
  rw [hrun] at hends
  replace hstore : 7 ∈ t.stores := by
    by_contra hn
    rw [if_neg hn] at hstore
    cases hstore
  exact absurd (hends.stores 7 hstore).2 (by decide)

end PcoOs.Vfs
