/-
  `vfs_normalize_path` over memory against the model over bytes. The output in the block is a byte
  list (`Output`), and each loop does to it what the list function does; `Behind` keeps the output
  behind the source cursor, so that the path is still there to be read.
  `vfsNormalizePathRaw_mirrors`: both return the same path, or both stop.
-/
import PcoOs.Vfs.Paths
import PcoOs.Vfs.RawPathSafe

namespace PcoOs.Vfs

open PcoOs.Lib PcoOs.Lib.Prog PcoOs.Support PcoOs.Pmm

/-- The path lies at `p` in the memory of `h`, apart from a block for it at `q`. -/
structure PathPlaced (h : Heap) (path : Bytes) (p q : Nat) : Prop where
  bytes : loadBytes h.mem p path.length = path
  pos : 0 < p
  high : p + path.length < 2 ^ 63
  block : q + path.length + 2 ≤ 2 ^ 63
  apart : p + path.length ≤ q ∨ q + path.length + 2 ≤ p

/-- The block of `n` bytes at `q` starts with `out`, and all else is as in `h`. -/
structure Output (h : Heap) (q n : Nat) (out : Bytes) (t : PathState) : Prop where
  heap : { t.heap with mem := h.mem } = h
  bytes : loadBytes t.heap.mem q out.length = out
  frame : ∀ a, a < q ∨ q + n ≤ a → t.heap.mem a = h.mem a

/-- The output does not overtake the source: there is room for a separator when a component
    comes. -/
structure Behind (path out : Bytes) (s : Nat) : Prop where
  pos : 1 ≤ out.length
  le : out.length ≤ s
  le_len : s ≤ path.length
  room : out.length < s ∨ out.length = 1 ∨ s = path.length ∨ path.getD s 0 = slash

theorem loadBytes_eq_iff {m : Mem} {a : Nat} {l : Bytes} :
    loadBytes m a l.length = l ↔ ∀ i < l.length, m (a + i) = l.getD i 0 := by
  constructor
  · intro h i hi
    rw [List.getD_eq_getElem _ _ hi, ← getElem_loadBytes (m := m) (a := a) (by simpa using hi)]
    simp only [h]
  · intro h
    refine List.ext_getElem (by simp) fun i h1 h2 => ?_
    rw [getElem_loadBytes h1, h i h2, List.getD_eq_getElem _ _ h2]

theorem drop_length_takeWhile (f : UInt8 → Bool) (l : Bytes) :
    l.drop (l.takeWhile f).length = l.dropWhile f := by
  have hleft := @List.drop_left _ (l.takeWhile f) (l.dropWhile f)
  rwa [List.takeWhile_append_dropWhile] at hleft

section Steps

variable {h : Heap} {path out : Bytes} {p q : Nat}

theorem Output.source {t : PathState} (hpl : PathPlaced h path p q)
    (ho : Output h q (path.length + 2) out t) {i : Nat} (hi : i < path.length) :
    t.heap.mem (p + i) = path.getD i 0 := by
  have hapart := hpl.apart
  rw [ho.frame _ (by omega)]
  exact loadBytes_eq_iff.mp hpl.bytes i hi

theorem Output.take {n k : Nat} {t : PathState} (ho : Output h q n out t) :
    Output h q n (out.take k) t := by
  refine ⟨ho.heap, loadBytes_eq_iff.mpr fun i hi => ?_, ho.frame⟩
  rw [List.length_take] at hi
  rw [loadBytes_eq_iff.mp ho.bytes i (by omega), List.getD_eq_getElem _ _ (by omega),
    List.getD_eq_getElem _ _ (by rw [List.length_take]; omega), List.getElem_take]

theorem moved_output {n : Nat} (o s : Int) :
    Total (Output h q n out) (moved o s) fun _ => Output h q n out :=
  total_update fun _ ho => ⟨ho.heap, ho.bytes, ho.frame⟩

/-- A byte of the path, whatever else is known. -/
theorem loadPathByte_output (hpl : PathPlaced h path p q) {i : Nat} (hi : i < path.length) :
    Total (Output h q (path.length + 2) out) (loadPathByte p path.length i) fun b t =>
      Output h q (path.length + 2) out t ∧ b = path.getD i 0 := by
  intro t ho
  have hpos := hpl.pos
  have hhigh := hpl.high
  refine ⟨path.getD i 0, t, ?_, ho, rfl⟩
  unfold loadPathByte
  rw [addr_of_nonneg (by omega) (by omega), Int.toNat_natCast,
    checkByteRegion_ok (by omega) (by omega) (by omega), ok_bind, ← Nat.cast_add,
    addr_of_nonneg (by omega) (by omega), Int.toNat_natCast, ho.source hpl hi]

/-- A scan stops where the bytes of `f` end. -/
theorem scanPath_output (hpl : PathPlaced h path p q) (f : UInt8 → Bool) (o : Int) {n i : Nat}
    (hi : i ≤ path.length) (hn : path.length ≤ i + n) :
    Total (Output h q (path.length + 2) out) (scanPath p path.length o f n i) fun j t =>
      Output h q (path.length + 2) out t ∧
        j = (i + ((path.drop i).takeWhile f).length : Nat) := by
  induction n generalizing i with
  | zero =>
    refine total_ite (fun hlt => absurd hlt (by omega)) fun _ => total_pure fun t ho => ⟨ho, ?_⟩
    rw [List.drop_eq_nil_of_le (by omega)]
    rfl
  | succ n ih =>
    refine total_ite (fun hlt => ?_) fun hge => total_pure fun t ho => ⟨ho, ?_⟩
    · have hlt' : i < path.length := by omega
      refine total_bind (loadPathByte_output hpl hlt') fun b => total_fact fun hb => ?_
      rw [List.getD_eq_getElem _ _ hlt'] at hb
      rw [List.drop_eq_getElem_cons hlt', ← hb]
      refine total_ite (fun hf => ?_) fun hf => total_pure fun t ho => ⟨ho, ?_⟩
      · refine total_bind (moved_output _ _) fun _ => ?_
        rw [List.takeWhile_cons_of_pos hf, List.length_cons, ← Nat.cast_succ]
        refine (ih (i := i + 1) (by omega) (by omega)).mono (fun _ ho => ho) fun j t hj => ?_
        exact ⟨hj.1, hj.2.trans (by omega)⟩
      · rw [List.takeWhile_cons_of_neg hf]
        rfl
    · rw [List.drop_eq_nil_of_le (by omega)]
      rfl

theorem isDot_output (hpl : PathPlaced h path p q) {start len : Nat}
    (hend : start + len ≤ path.length) :
    Total (Output h q (path.length + 2) out) (isDot p path.length start len) fun b t =>
      Output h q (path.length + 2) out t ∧ b = decide ((path.drop start).take len = [dot]) := by
  refine total_ite (fun hone => ?_) fun hne => total_pure fun t ho => ⟨ho, ?_⟩
  · have hone' : len = 1 := by omega
    have hlt : start < path.length := by omega
    refine total_bind (loadPathByte_output hpl hlt) fun b => total_fact fun hb =>
      total_pure fun t ho => ⟨ho, ?_⟩
    rw [hb, List.getD_eq_getElem _ _ hlt, hone', List.drop_eq_getElem_cons hlt, List.take_succ_cons,
      List.take_zero]
    simp [dot]
  · refine (decide_eq_false fun hdot => hne ?_).symm
    have hlen := congrArg List.length hdot
    rw [List.length_take, List.length_drop, List.length_singleton] at hlen
    omega

theorem isDotDot_output (hpl : PathPlaced h path p q) {start len : Nat}
    (hend : start + len ≤ path.length) :
    Total (Output h q (path.length + 2) out) (isDotDot p path.length start len) fun b t =>
      Output h q (path.length + 2) out t ∧
        b = decide ((path.drop start).take len = [dot, dot]) := by
  refine total_ite (fun htwo => ?_) fun hne => total_pure fun t ho => ⟨ho, ?_⟩
  · have htwo' : len = 2 := by omega
    have hlt : start < path.length := by omega
    have hlt' : start + 1 < path.length := by omega
    have hcomp : (path.drop start).take len = [path.getD start 0, path.getD (start + 1) 0] := by
      rw [htwo', List.drop_eq_getElem_cons hlt, List.drop_eq_getElem_cons hlt',
        List.getD_eq_getElem _ _ hlt, List.getD_eq_getElem _ _ hlt']
      rfl
    refine total_bind (loadPathByte_output hpl hlt) fun b => total_fact fun hb => ?_
    refine total_ite (fun hdot => ?_) fun hdot => total_pure fun t ho => ⟨ho, ?_⟩
    · refine total_bind (loadPathByte_output hpl hlt') fun b' => total_fact fun hb' =>
        total_pure fun t ho => ⟨ho, ?_⟩
      rw [hcomp, ← hb, ← hb', hdot]
      simp [dot]
    · rw [hcomp, ← hb]
      simp [dot, hdot]
  · refine (decide_eq_false fun hdot => hne ?_).symm
    have hlen := congrArg List.length hdot
    rw [List.length_take, List.length_drop, List.length_cons, List.length_singleton] at hlen
    omega

/-! ## The output -/

theorem scanBack_le (l : Bytes) (n : Nat) : scanBack l n ≤ n := by
  fun_induction scanBack l n with
  | case1 => exact le_refl _
  | case2 => exact le_refl _
  | case3 n hs => exact le_refl _
  | case4 n hs ih => omega

theorem scanBack_pos (l : Bytes) {n : Nat} (hn : 1 ≤ n) : 1 ≤ scanBack l n := by
  fun_induction scanBack l n with
  | case1 => exact hn
  | case2 => exact le_refl _
  | case3 n hs => omega
  | case4 n hs ih => exact ih (by omega)

theorem scanOut_output {k n o : Nat} (s : Int) (h1 : 1 ≤ o) (ho : o ≤ out.length) (hn : o ≤ n + 1)
    (hq : q + out.length ≤ 2 ^ 63) :
    Total (Output h q k out) (scanOut q s n o) fun o' t =>
      Output h q k out t ∧ o' = (scanBack out o : Nat) := by
  induction n generalizing o with
  | zero =>
    obtain rfl : o = 1 := by omega
    exact total_ite (fun hgt => absurd hgt (by omega)) fun _ => total_pure fun t hout => ⟨hout, rfl⟩
  | succ n ih =>
    refine total_ite (fun hgt => ?_) fun hle => total_pure fun t hout => ⟨hout, ?_⟩
    · obtain ⟨j, rfl⟩ : ∃ j, o = j + 2 := ⟨o - 2, by omega⟩
      have hlast : ((j + 2 : Nat) : Int) - 1 = (j + 1 : Nat) := by omega
      refine total_bind (Q := fun b t => Output h q k out t ∧ b = out.getD (j + 1) 0) ?_ fun b =>
        total_fact fun hb => ?_
      · intro t hout
        refine ⟨_, _, rfl, ⟨hout.heap, hout.bytes, hout.frame⟩, ?_⟩
        rw [hlast, ← Nat.cast_add, addr_of_nonneg (by omega) (by omega), Int.toNat_natCast]
        exact loadBytes_eq_iff.mp hout.bytes _ (by omega)
      · rw [scanBack, ← hb]
        refine total_ite (fun hne => ?_) fun heq => total_pure fun t hout => ⟨hout, ?_⟩
        · rw [if_neg (by exact hne), hlast]
          refine total_bind (moved_output _ _) fun _ => ?_
          exact ih (by omega) (by omega) (by omega)
        · rw [if_pos (by exact not_not.mp heq)]
    · obtain rfl : o = 1 := by omega
      rfl

theorem popComponent_output {k : Nat} (s : Int) (h1 : 1 ≤ out.length)
    (hq : q + out.length ≤ 2 ^ 63) :
    Total (Output h q k out) (popComponent q out.length s) fun o' t =>
      Output h q k (dropComponent out) t ∧ o' = (dropComponent out).length := by
  unfold dropComponent
  refine total_ite (fun hgt => ?_) fun hle => total_pure fun t ho => ⟨?_, ?_⟩
  · have hlast : (out.length : Int) - 1 = (out.length - 1 : Nat) := by omega
    have hle := scanBack_le out (out.length - 1)
    rw [if_pos (by omega), hlast, Int.toNat_natCast]
    refine total_bind (moved_output _ _) fun _ => ?_
    refine (scanOut_output s (by omega) (by omega) (by omega) hq).mono (fun _ ho => ho) ?_
    rintro o' t ⟨ho, rfl⟩
    exact ⟨ho.take, by rw [List.length_take]; omega⟩
  · rw [if_neg (by omega)]
    exact ho
  · rw [if_neg (by omega)]

/-- The next byte of the output. -/
theorem storeOut_output {n : Nat} (out : Bytes) (b : UInt8) (hlt : out.length < n)
    (hq : q + n ≤ 2 ^ 63) :
    Total (Output h q n out) (storeOut q out.length b) fun _ => Output h q n (out ++ [b]) := by
  refine total_update fun t ho => ?_
  have haddr : addr ((q : Int) + out.length) = q + out.length := by
    rw [addr_of_nonneg (by omega) (by omega)]
    omega
  rw [haddr]
  refine ⟨ho.heap, ?_, fun a ha => ?_⟩
  · refine loadBytes_eq_iff.mpr fun i hi => ?_
    rw [List.length_append, List.length_singleton] at hi
    dsimp only
    rcases eq_or_lt_of_le (Nat.lt_succ_iff.mp hi) with rfl | hi
    · rw [storeByte_self]
      simp
    · rw [storeByte_ne (by omega), loadBytes_eq_iff.mp ho.bytes i hi, List.getD_append _ _ _ _ hi]
  · dsimp only
    rw [storeByte_ne (by omega)]
    exact ho.frame a ha

/-- The output with the separator. -/
def separated (out : Bytes) : Bytes := if out.length > 1 then out ++ [slash] else out

theorem length_separated (out : Bytes) :
    (separated out).length = out.length + if out.length > 1 then 1 else 0 := by
  unfold separated
  split_ifs <;> simp

theorem pushComponent_eq {c : Bytes} (h1 : c ≠ [dot]) (h2 : c ≠ [dot, dot]) (out : Bytes) :
    pushComponent out c = separated out ++ c := by
  unfold pushComponent separated
  rw [if_neg h1, if_neg h2]
  split_ifs <;> simp

theorem appendSlash_output {n : Nat} (s : Int) (hlt : out.length < n) (hq : q + n ≤ 2 ^ 63) :
    Total (Output h q n out) (appendSlash q out.length s) fun o' t =>
      Output h q n (separated out) t ∧ o' = (separated out).length := by
  unfold separated
  refine total_ite (fun hgt => ?_) fun hle => total_pure fun t ho => ⟨?_, ?_⟩
  · rw [if_pos (by omega)]
    refine total_bind (storeOut_output _ 47 hlt hq) fun _ => total_bind (moved_output _ _) fun _ =>
      total_pure fun t ho => ⟨ho, ?_⟩
    simp
  · rw [if_neg (by omega)]
    exact ho
  · rw [if_neg (by omega)]

/-- The component goes behind the output byte by byte. -/
theorem appendComponent_output (out : Bytes) (hpl : PathPlaced h path p q) (s : Int)
    {start len : Nat} (hend : start + len ≤ path.length)
    (hroom : (separated out).length + len ≤ path.length) :
    Total (Output h q (path.length + 2) out)
      (appendComponent p q out.length s start len) fun o' t =>
        Output h q (path.length + 2) (separated out ++ (path.drop start).take len) t ∧
        o' = (separated out ++ (path.drop start).take len).length := by
  have hhigh := hpl.high
  have hblock := hpl.block
  have hshort : out.length < path.length + 2 := by
    have := length_separated out
    omega
  have hcomp : ∀ i ≤ len, ((path.drop start).take i).length = i := fun i hi => by
    rw [List.length_take, List.length_drop]
    omega
  refine total_bind (appendSlash_output s hshort (by omega)) fun o' => total_fact fun ho' => ?_
  rw [ho', Int.toNat_natCast]
  refine total_bind (Q := fun _ => Output h q (path.length + 2)
    (separated out ++ (path.drop start).take len)) ?_ fun _ => total_pure fun t ho => ⟨ho, ?_⟩
  · have hloop := total_times (fun i : Nat => do
        let b ← loadSourceByte ((p : Int) + start + i)
        storeOut q (((separated out).length : Nat) + (i : Int)) b
        moved (((separated out).length : Nat) + (i : Int) + 1) s)
      (fun i => Output h q (path.length + 2) (separated out ++ (path.drop start).take i))
      (i := 0) (n := len) fun i _ hi => ?_
    · rw [List.take_zero, List.append_nil, Nat.zero_add] at hloop
      exact hloop
    · have hsrc : start + i < path.length := by omega
      refine total_bind (Q := fun b t => Output h q (path.length + 2)
        (separated out ++ (path.drop start).take i) t ∧ b = path.getD (start + i) 0) ?_ fun b =>
        total_fact fun hb => ?_
      · refine total_gets fun t ho => ⟨ho, ?_⟩
        rw [← ho.source hpl hsrc, addr_of_nonneg (by omega) (by omega)]
        congr 1
        omega
      · have hlen : (separated out ++ (path.drop start).take i).length =
            (separated out).length + i := by rw [List.length_append, hcomp i (by omega)]
        have hstore := storeOut_output (h := h) (q := q) (n := path.length + 2)
          (separated out ++ (path.drop start).take i) b (by omega) (by omega)
        rw [hlen, Nat.cast_add] at hstore
        refine total_bind hstore fun _ => (moved_output _ _).mono (fun t ho => ?_) fun _ _ ho => ho
        have hi' : i < (path.drop start).length := by
          rw [List.length_drop]
          omega
        rw [List.take_succ_eq_append_getElem hi', List.getElem_drop, ← List.append_assoc,
          ← List.getD_eq_getElem _ 0 hsrc, ← hb]
        exact ho
  · rw [List.length_append, hcomp len (le_refl _), Nat.cast_add]

/-! ## The loop -/

theorem normalizeLoop_nil (n : Nat) (out : Bytes) : normalizeLoop n [] out = out := by
  cases n with
  | zero => rfl
  | succ n => rfl

/-- A round over a rest with a component. -/
theorem normalizeLoop_succ {src : Bytes} (n : Nat) (hne : src.dropWhile (· = slash) ≠ []) :
    normalizeLoop (n + 1) src out = normalizeLoop n
      ((src.dropWhile (· = slash)).dropWhile (· ≠ slash))
      (pushComponent out ((src.dropWhile (· = slash)).takeWhile (· ≠ slash))) := by
  rw [normalizeLoop, if_neg hne]

theorem dropComponent_length (h1 : 1 ≤ out.length) :
    1 ≤ (dropComponent out).length ∧ (dropComponent out).length ≤ out.length := by
  unfold dropComponent
  split_ifs with hgt
  · have hpos := scanBack_pos out (n := out.length - 1) (by omega)
    have hle := scanBack_le out (out.length - 1)
    rw [List.length_take]
    omega
  · exact ⟨h1, le_refl _⟩

/-- The cursor skips the slashes before a component. -/
theorem dropWhile_slash_drop (path : Bytes) (s : Nat) : (path.drop s).dropWhile (· = slash) =
    path.drop (s + ((path.drop s).takeWhile (· = slash)).length) := by
  rw [← List.drop_drop, drop_length_takeWhile]

theorem skipSlashes_le {s : Nat} (hs : s ≤ path.length) :
    s + ((path.drop s).takeWhile (· = slash)).length ≤ path.length := by
  have hle := (List.takeWhile_prefix (l := path.drop s) (· = slash)).length_le
  rw [List.length_drop] at hle
  omega

/-- `c` is the component of the path that starts at `start`. -/
structure ComponentAt (path : Bytes) (start : Nat) (c : Bytes) : Prop where
  take : (path.drop start).take c.length = c
  pos : 1 ≤ c.length
  bound : start + c.length ≤ path.length
  next : start + c.length = path.length ∨ path.getD (start + c.length) 0 = slash

/-- What is left behind the slashes starts with a component. -/
theorem componentAt_takeWhile {s start : Nat}
    (hdrop : (path.drop s).dropWhile (· = slash) = path.drop start) (hlt : start < path.length) :
    ComponentAt path start ((path.drop start).takeWhile (· ≠ slash)) := by
  have hfirst : path[start] ≠ slash := by
    have hhead := List.head?_dropWhile_not (fun c : UInt8 => decide (c = slash)) (path.drop s)
    rw [hdrop, List.drop_eq_getElem_cons hlt, List.head?_cons] at hhead
    exact of_decide_eq_false hhead
  obtain ⟨c, hc⟩ : ∃ c, c = (path.drop start).takeWhile (· ≠ slash) := ⟨_, rfl⟩
  have hprefix : c <+: path.drop start := hc ▸ List.takeWhile_prefix _
  have hbound : start + c.length ≤ path.length := by
    have hle := hprefix.length_le
    rw [List.length_drop] at hle
    omega
  rw [← hc]
  refine ⟨(List.prefix_iff_eq_take.mp hprefix).symm, ?_, hbound, ?_⟩
  · rw [hc, List.drop_eq_getElem_cons hlt, List.takeWhile_cons_of_pos (by simpa using hfirst),
      List.length_cons]
    omega
  · refine (eq_or_lt_of_le hbound).imp_right fun hlt => ?_
    have hhead := List.head?_dropWhile_not (fun c : UInt8 => decide (c ≠ slash)) (path.drop start)
    rw [← drop_length_takeWhile, ← hc, List.drop_drop, List.drop_eq_getElem_cons hlt,
      List.head?_cons] at hhead
    rw [List.getD_eq_getElem _ _ hlt]
    exact not_not.mp (of_decide_eq_false hhead)

/-- The separator fits before the component: a slash was skipped, or the output is behind by one. -/
theorem Behind.separated_le {s start : Nat} (hr : Behind path out s) (hs : s < path.length)
    (hstart : start = s + ((path.drop s).takeWhile (· = slash)).length) :
    (separated out).length ≤ start := by
  have hpos := hr.pos
  have hle := hr.le
  have hskip : out.length < s ∨ out.length = 1 ∨ s < start := by
    rcases hr.room with h | h | h | h
    · exact Or.inl h
    · exact Or.inr (Or.inl h)
    · omega
    · refine Or.inr (Or.inr ?_)
      rw [List.getD_eq_getElem _ _ hs] at h
      rw [hstart, List.drop_eq_getElem_cons hs, List.takeWhile_cons_of_pos (by simpa using h),
        List.length_cons]
      omega
  rw [length_separated]
  split_ifs <;> omega

/-- A round of the loop is a round of the list function. -/
theorem normalizeRound_output (hpl : PathPlaced h path p q) {s : Nat} (hr : Behind path out s)
    (hs : s < path.length) :
    Total (Output h q (path.length + 2) out)
      (normalizeRound p path.length q out.length s) fun r t =>
        ∃ out' s', Output h q (path.length + 2) out' t ∧ Behind path out' s' ∧ s < s' ∧
        r = ((out'.length : Int), (s' : Int)) ∧
        ∀ n, normalizeLoop (n + 1) (path.drop s) out = normalizeLoop n (path.drop s') out' := by
  have h1 := hr.pos
  have hle := hr.le
  have hblock := hpl.block
  unfold normalizeRound
  refine total_bind (scanPath_output hpl (· = 47) _ hs.le (by omega)) fun start => total_fact ?_
  rintro rfl
  -- the rest from the first byte that is not a slash
  obtain ⟨start, hstart⟩ : ∃ start, start = s + ((path.drop s).takeWhile (· = slash)).length :=
    ⟨_, rfl⟩
  have hdrop : (path.drop s).dropWhile (· = slash) = path.drop start :=
    hstart ▸ dropWhile_slash_drop path s
  have hlen : start ≤ path.length := hstart ▸ skipSlashes_le hs.le
  rw [show s + ((path.drop s).takeWhile (· = 47)).length = start from hstart.symm]
  refine total_ite (fun hend => total_pure fun t ho =>
    ⟨out, path.length, ho, ⟨h1, by omega, le_refl _, Or.inr (Or.inr (Or.inl rfl))⟩, hs, ?_, ?_⟩)
    fun hlt => ?_
  · rw [show start = path.length by omega]
  · intro n
    rw [normalizeLoop, hdrop, List.drop_eq_nil_of_le (by omega), if_pos rfl, List.drop_length,
      normalizeLoop_nil]
  have hlt' : start < path.length := by omega
  refine total_bind (scanPath_output hpl (· ≠ 47) _ hlen (by omega)) fun src => total_fact ?_
  rintro rfl
  -- the component
  obtain ⟨c, hc⟩ : ∃ c, c = (path.drop start).takeWhile (· ≠ slash) := ⟨_, rfl⟩
  obtain ⟨htake, hpos, hbound, hslash⟩ : ComponentAt path start c :=
    hc ▸ componentAt_takeWhile hdrop hlt'
  have hnext : ∀ n, normalizeLoop (n + 1) (path.drop s) out =
      normalizeLoop n (path.drop (start + c.length)) (pushComponent out c) := fun n => by
    have hne : path.drop start ≠ [] := by
      rw [List.drop_eq_getElem_cons hlt']
      exact List.cons_ne_nil _ _
    rw [normalizeLoop_succ n (hdrop ▸ hne), hdrop, ← hc, ← List.drop_drop, hc,
      drop_length_takeWhile]
  rw [show start + ((path.drop start).takeWhile (· ≠ 47)).length = start + c.length by rw [hc]; rfl,
    show ((start + c.length : Nat) : Int) - start = c.length by omega]
  refine total_bind (isDot_output hpl hbound) fun isDot => total_fact fun hdot => ?_
  rw [htake] at hdot
  refine total_ite (fun h => ?_) fun h => ?_
  · have hpush : pushComponent out c = out := if_pos (of_decide_eq_true (hdot.symm.trans h))
    refine total_pure fun t ho => ⟨out, start + c.length, ho,
      ⟨h1, by omega, hbound, Or.inl (by omega)⟩, by omega, rfl, fun n => ?_⟩
    rw [hnext, hpush]
  have hnot : c ≠ [dot] := fun he => h (hdot.trans (decide_eq_true he))
  refine total_bind (isDotDot_output hpl hbound) fun isDotDot => total_fact fun hdotDot => ?_
  rw [htake] at hdotDot
  refine total_ite (fun h => ?_) fun h => ?_
  · have hpush : pushComponent out c = dropComponent out := by
      unfold pushComponent
      rw [if_neg hnot, if_pos (of_decide_eq_true (hdotDot.symm.trans h))]
    obtain ⟨hd1, hd2⟩ := dropComponent_length h1
    refine total_bind (popComponent_output _ h1 (by omega)) fun o' => total_fact ?_
    rintro rfl
    refine total_pure fun t ho => ⟨dropComponent out, start + c.length, ho,
      ⟨hd1, by omega, hbound, Or.inl (by omega)⟩, by omega, rfl, fun n => ?_⟩
    rw [hnext, hpush]
  · have hnot' : c ≠ [dot, dot] := fun he => h (hdotDot.trans (decide_eq_true he))
    have hpush := pushComponent_eq hnot hnot' out
    have hroom := hr.separated_le hs hstart
    have happend := appendComponent_output out hpl (start + c.length : Nat) hbound (by omega)
    rw [htake, ← hpush] at happend
    refine total_bind happend fun o' => total_fact ?_
    rintro rfl
    have hlong : (pushComponent out c).length = (separated out).length + c.length := by
      rw [hpush, List.length_append]
    refine total_pure fun t ho => ⟨pushComponent out c, start + c.length, ho,
      ⟨by omega, by omega, hbound, ?_⟩, by omega, rfl, hnext⟩
    exact Or.inr (Or.inr hslash)

theorem normalizeRounds_output (hpl : PathPlaced h path p q) {n s : Nat} (hr : Behind path out s)
    (hn : path.length ≤ s + n) :
    Total (Output h q (path.length + 2) out) (normalizeRounds p path.length q n out.length s)
      fun o' t => Output h q (path.length + 2) (normalizeLoop n (path.drop s) out) t ∧
        o' = (normalizeLoop n (path.drop s) out).length ∧
        1 ≤ (normalizeLoop n (path.drop s) out).length ∧
        (normalizeLoop n (path.drop s) out).length ≤ path.length := by
  have hpos := hr.pos
  have hle := hr.le
  have hlen := hr.le_len
  have hdone : s = path.length → ∀ n, normalizeLoop n (path.drop s) out = out := fun he n => by
    rw [he, List.drop_length, normalizeLoop_nil]
  induction n generalizing s out with
  | zero =>
    refine total_ite (fun hlt => absurd hlt (by omega)) fun _ => total_pure fun t ho => ?_
    exact ⟨ho, rfl, hpos, hle.trans hlen⟩
  | succ n ih =>
    refine total_ite (fun hlt => ?_) fun hge => total_pure fun t ho => ?_
    · refine total_bind (normalizeRound_output hpl hr (by omega)) fun r => ?_
      rintro t ⟨out', s', ho, hr', hlt', rfl, hloop⟩
      rw [hloop]
      refine ih hr' (by omega) hr'.pos hr'.le hr'.le_len (fun he n => ?_) t ho
      rw [he, List.drop_length, normalizeLoop_nil]
    · rw [hdone (by omega)]
      exact ⟨ho, rfl, hpos, hle.trans hlen⟩

end Steps

/-! ## The whole function -/

/-- The block with the normal form of the path, terminated by a NUL, or no block. -/
def NormalAt (q n : Nat) (r : Int × Int) (o : Option Bytes × Heap) (t : PathState) : Prop :=
  match o.1 with
  | none => r = (0, 0) ∧ t.heap = o.2
  | some out => r = ((q : Int), (out.length : Int)) ∧ Output o.2 q n out t ∧
      t.heap.mem (q + out.length) = 0

theorem allocPath_output {h : Heap} (hok : HeapOk h) {n : Nat} (hn : n < 2 ^ 63) :
    Mirrors (fun s => s.heap = h) (allocPath (wrap n)) (allocBytes h n) fun a r t =>
      Output r.2 h.ptr n [] t ∧ a = h.ptr ∧ r.2.mem = h.mem := by
  rintro s rfl
  unfold allocPath
  rw [wrap_of_range (by omega) (by omega)]
  have hspec := allocBytes_spec hok (Int.natCast_nonneg n)
  cases halloc : allocBytes s.heap n with
  | error e => exact rfl
  | ok r =>
    rw [halloc] at hspec
    obtain ⟨hfst, -, hgrow, -, -⟩ := hspec
    exact ⟨_, _, rfl, ⟨rfl, rfl, fun _ _ => rfl⟩, congrArg _ hfst, hgrow.mem⟩

/-- What is behind the allocation. -/
theorem normalizeBlock_output {h : Heap} {path : Bytes} {p q : Nat} (hpl : PathPlaced h path p q)
    (hlen : 0 < path.length) :
    Total (Output h q (path.length + 2) []) (do
      storeOut q 0 47
      moved 1 1
      let outLen ← normalizeRounds p path.length q path.length 1 1
      let outLen ← rootIfEmpty q outLen
      storeOut q outLen 0
      pure ((q : Int), outLen)) fun r t =>
        NormalAt q (path.length + 2) r
          (some (normalizeLoop path.length (path.drop 1) [slash]), h) t := by
  have hblock := hpl.block
  have hstore : Total (Output h q (path.length + 2) []) (storeOut q 0 47) fun _ =>
      Output h q (path.length + 2) [slash] := storeOut_output [] 47 (by simp) (by omega)
  have hroom : Behind path [slash] 1 := ⟨le_refl _, le_refl _, hlen, Or.inr (Or.inl rfl)⟩
  have hrounds := normalizeRounds_output (n := path.length) hpl hroom (by omega)
  refine total_bind hstore fun _ => total_bind (moved_output _ _) fun _ =>
    total_bind hrounds fun o => total_fact ?_
  rintro ⟨rfl, h1, hle⟩
  obtain ⟨out, hout⟩ : ∃ out, out = normalizeLoop path.length (path.drop 1) [slash] := ⟨_, rfl⟩
  rw [← hout] at h1 hle ⊢
  refine total_bind (Q := fun (o : Int) t => Output h q (path.length + 2) out t ∧ o = out.length) ?_
    fun o => total_fact ?_
  · exact total_ite (fun h0 => absurd h0 (by omega)) fun _ => total_pure fun t ho => ⟨ho, rfl⟩
  rintro rfl
  have haddr : addr ((q : Int) + out.length) = q + out.length := by
    rw [addr_of_nonneg (by omega) (by omega)]
    omega
  refine total_bind (Q := fun _ t => Output h q (path.length + 2) out t ∧
    t.heap.mem (q + out.length) = 0) (total_update fun t ho => ?_) fun _ =>
    total_pure fun t ho => ⟨rfl, ho⟩
  rw [haddr]
  refine ⟨⟨ho.heap, loadBytes_eq_iff.mpr fun i hi => ?_, fun a ha => ?_⟩, storeByte_self _ _ _⟩
  · dsimp only
    rw [storeByte_ne (by omega)]
    exact loadBytes_eq_iff.mp ho.bytes i hi
  · dsimp only
    rw [storeByte_ne (by omega)]
    exact ho.frame a ha

/-- `vfs_normalize_path` over memory and over bytes: the same path, which stands in the block, the
    same heap pointer, and memory as it was outside the block; or an error of both. -/
theorem vfsNormalizePathRaw_mirrors {h : Heap} (hok : HeapOk h) {path : Bytes} {p : Nat}
    (hpl : PathPlaced h path p h.ptr) :
    Mirrors (fun s => s.heap = h) (vfsNormalizePathRaw p path.length) (vfsNormalizePath h path)
      (NormalAt h.ptr (path.length + 2)) := by
  have hpos := hpl.pos
  have hhigh := hpl.high
  have hblock := hpl.block
  have hptr := hok.pos
  unfold vfsNormalizePathRaw vfsNormalizePath
  by_cases hnil : path = []
  · rw [if_pos (Or.inr (by rw [hnil]; simp)), if_pos (by rw [hnil]; simp)]
    exact mirrors_pure fun s hs => ⟨rfl, hs⟩
  have hlen : 0 < path.length := List.length_pos_iff.mpr hnil
  rw [if_neg (by omega)]
  -- the path starts with what is in memory
  refine mirrors_left (T := fun b t => t.heap = h ∧ b = path.getD 0 0) ?_ fun b =>
    mirrors_fact fun hb => ?_
  · rintro s rfl
    refine ⟨_, s, ?_, rfl, rfl⟩
    have hfirst := loadBytes_eq_iff.mp hpl.bytes 0 hlen
    unfold loadPathByte
    rw [addr_of_nonneg (by omega) (by omega), Int.toNat_natCast,
      checkByteRegion_ok (by omega) (by omega) (by omega), ok_bind, Int.add_zero,
      addr_of_nonneg (by omega) (by omega), Int.toNat_natCast, ← hfirst]
    rfl
  have hhead : b ≠ 47 ↔ path.head? ≠ some slash := by
    rw [hb, List.getD_eq_getElem _ _ hlen, List.head?_eq_getElem?, List.getElem?_eq_getElem hlen]
    simp [slash]
  refine mirrors_ite hhead (fun _ => mirrors_pure fun s hs => ⟨rfl, hs⟩) fun _ => ?_
  refine mirrors_bind (allocPath_output (n := path.length + 2) hok (by omega)) fun a r =>
    mirrors_fact ?_
  rintro ⟨rfl, hmem⟩
  have hpl' : PathPlaced r.2 path p h.ptr :=
    ⟨hmem ▸ hpl.bytes, hpos, hhigh, hblock, hpl.apart⟩
  intro s hs
  exact normalizeBlock_output hpl' hlen s hs

end PcoOs.Vfs
