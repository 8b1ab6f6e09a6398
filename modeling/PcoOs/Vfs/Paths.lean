/-
  `vfs_normalize_path` against the canonical path. The output buffer is the rendering of a stack
  of cells (`render`), and a component acts on the stack: `..` at level one clears it, but deeper
  it leaves an empty cell, a stray slash, because the scan back stops at the slash in front of
  the component it removes (`dropComponent_render`). `normalize_canonical_iff`: the output is the
  canonical path exactly when no stray slash is left at the end.
-/
import PcoOs.Vfs.Model

namespace PcoOs.Vfs

open PcoOs.Lib PcoOs.Support

/-! ## The canonical path -/

/-- The components between slashes. -/
def components (path : Bytes) : List Bytes := (path.splitOn slash).filter (· ≠ [])

/-- The kept components, the last one first: `.` is dropped, `..` removes the last one. -/
def keep (kept : List Bytes) (c : Bytes) : List Bytes :=
  if c = [dot] then kept else if c = [dot, dot] then kept.tail else c :: kept

/-- A slash and the cells joined by single slashes; the stack has the last cell first. -/
def render (cells : List Bytes) : Bytes := slash :: [slash].intercalate cells.reverse

def canonicalPath (path : Bytes) : Bytes := render ((components path).foldl keep [])

/-! ## The scan of the source path -/

theorem components_nil : components [] = [] := rfl

theorem components_slash (s : Bytes) : components (slash :: s) = components s := by
  unfold components
  rw [show slash :: s = [] ++ slash :: s from rfl,
    List.splitOn_append_cons_self_of_not_mem List.not_mem_nil]
  rfl

theorem components_dropWhile (s : Bytes) :
    components (s.dropWhile (· = slash)) = components s := by
  induction s with
  | nil => rfl
  | cons b s ih =>
    by_cases hb : b = slash
    · rw [List.dropWhile_cons_of_pos (by simpa using hb), ih, hb, components_slash]
    · rw [List.dropWhile_cons_of_neg (by simpa using hb)]

theorem not_mem_takeWhile (s : Bytes) : slash ∉ s.takeWhile (· ≠ slash) := fun h => by
  simpa using List.mem_takeWhile_imp h

/-- A source that starts with a component is that component and the rest. -/
theorem components_cons {b : UInt8} {s : Bytes} (hb : b ≠ slash) :
    components (b :: s) = (b :: s).takeWhile (· ≠ slash) ::
      components ((b :: s).dropWhile (· ≠ slash)) := by
  have hsplit := List.takeWhile_append_dropWhile (p := (· ≠ slash)) (l := b :: s)
  have hne : (b :: s).takeWhile (· ≠ slash) ≠ [] := by
    rw [List.takeWhile_cons_of_pos (by simpa using hb)]
    exact List.cons_ne_nil _ _
  have hfree := not_mem_takeWhile (b :: s)
  cases hd : (b :: s).dropWhile (· ≠ slash) with
  | nil =>
    rw [hd, List.append_nil] at hsplit
    rw [components_nil, ← hsplit]
    unfold components
    rw [hsplit, List.splitOn_eq_singleton (hsplit ▸ hfree), hsplit]
    simp
  | cons x rest =>
    have hx : x = slash := by
      have := List.head?_dropWhile_not (fun c : UInt8 => decide (c ≠ slash)) (b :: s)
      rw [hd] at this
      simpa using this
    rw [hx, components_slash]
    rw [hd, hx] at hsplit
    conv_lhs => rw [← hsplit]
    unfold components
    rw [List.splitOn_append_cons_self_of_not_mem hfree, List.filter_cons_of_pos (by simpa using hne)]

/-- The loop runs `pushComponent` over the components, with rounds to spare. -/
theorem normalizeLoop_eq {n : Nat} {src : Bytes} (h : src.length ≤ n) (out : Bytes) :
    normalizeLoop n src out = (components src).foldl pushComponent out := by
  induction n generalizing src out with
  | zero =>
    rw [List.eq_nil_of_length_eq_zero (Nat.le_zero.mp h)]
    rfl
  | succ n ih =>
    rw [normalizeLoop, ← components_dropWhile]
    have hle : (src.dropWhile (· = slash)).length ≤ src.length := (List.dropWhile_suffix _).length_le
    cases hs : src.dropWhile (· = slash) with
    | nil => rfl
    | cons b s =>
      have hb : b ≠ slash := by
        have := List.head?_dropWhile_not (fun c : UInt8 => decide (c = slash)) src
        rw [hs] at this
        simpa using this
      rw [hs, List.length_cons] at hle
      have hrest : ((b :: s).dropWhile (· ≠ slash)).length ≤ n := by
        rw [List.dropWhile_cons_of_pos (by simpa using hb)]
        have := (List.dropWhile_suffix (l := s) fun c => decide (c ≠ slash)).length_le
        omega
      rw [if_neg (List.cons_ne_nil _ _), components_cons hb, List.foldl_cons, ih hrest]

/-! ## The output as a stack of cells -/

/-- What `..` does to the stack: at depth one it clears it, deeper it empties the last cell, or
    the one before when the last is empty already. -/
def upCells : List Bytes → List Bytes
  | [] => []
  | [_] => []
  | z :: y :: rest => if z ≠ [] then [] :: y :: rest else if rest = [] then [] else [] :: rest

def pushCell (cells : List Bytes) (c : Bytes) : List Bytes :=
  if c = [dot] then cells else if c = [dot, dot] then upCells cells else c :: cells

/-- The stacks that occur: no slash inside a cell, and the first cell is not empty. -/
structure CellsOk (cells : List Bytes) : Prop where
  free : ∀ c ∈ cells, slash ∉ c
  first : ∀ c, cells.getLast? = some c → c ≠ []

theorem render_nil : render [] = [slash] := rfl

theorem render_singleton (c : Bytes) : render [c] = slash :: c := by
  unfold render
  rw [List.reverse_singleton, List.intercalate_singleton]

theorem intercalate_concat {l : List Bytes} (h : l ≠ []) (c : Bytes) :
    [slash].intercalate (l ++ [c]) = [slash].intercalate l ++ slash :: c := by
  induction l with
  | nil => exact absurd rfl h
  | cons a l ih =>
    cases l with
    | nil => simp [List.intercalate_cons_cons]
    | cons b l =>
      have hl := ih (List.cons_ne_nil _ _)
      rw [List.cons_append, List.cons_append, List.intercalate_cons_cons, ← List.cons_append, hl,
        List.intercalate_cons_cons]
      simp

theorem render_cons {cells : List Bytes} (h : cells ≠ []) (c : Bytes) :
    render (c :: cells) = render cells ++ slash :: c := by
  unfold render
  rw [List.reverse_cons, intercalate_concat (by simpa using h)]
  rfl

/-- The scan back over a run without slashes stops behind the slash in front of it. -/
theorem scanBack_eq {out a w tail : Bytes} (h : out = a ++ slash :: (w ++ tail))
    (hw : slash ∉ w) {n : Nat} (hn : n ≤ w.length) :
    scanBack out (a.length + 1 + n) = a.length + 1 := by
  induction n with
  | zero =>
    cases a with
    | nil => rfl
    | cons x a =>
      have hget : out.getD (a.length + 1) 0 = slash := by
        rw [h]
        simp
      rw [List.length_cons, Nat.add_zero, scanBack, if_pos hget]
  | succ n ih =>
    have hlt : n < w.length := hn
    have hget : out.getD (a.length + n + 1) 0 = w[n] := by
      rw [h, List.getD_append_right _ _ _ _ (by omega),
        show a.length + n + 1 - a.length = n + 1 by omega, List.getD_cons_succ,
        List.getD_append _ _ _ _ hlt, List.getD_eq_getElem _ _ hlt]
    have hne : w[n] ≠ slash := fun hc => hw (hc ▸ List.getElem_mem hlt)
    rw [show a.length + 1 + (n + 1) = a.length + n + 2 by omega, scanBack, hget, if_neg hne,
      show a.length + n + 1 = a.length + 1 + n by omega, ih (by omega)]

/-- Dropping a component of the output goes back to a slash, which stays. -/
theorem dropComponent_eq {a w : Bytes} {b : UInt8} (hw : slash ∉ w) :
    dropComponent (a ++ slash :: (w ++ [b])) = a ++ [slash] := by
  unfold dropComponent
  have hlen : (a ++ slash :: (w ++ [b])).length = a.length + 1 + w.length + 1 := by
    simp
    omega
  rw [if_pos (by omega), hlen, Nat.add_sub_cancel, scanBack_eq rfl hw (le_refl _)]
  simp [List.take_append]

theorem exists_concat {z : Bytes} (hz : z ≠ []) (hfree : slash ∉ z) :
    ∃ w b, z = w ++ [b] ∧ slash ∉ w := by
  refine ⟨z.dropLast, z.getLast hz, (List.dropLast_append_getLast hz).symm, fun h => ?_⟩
  exact hfree (List.mem_of_mem_dropLast h)

theorem dropComponent_render {cells : List Bytes} (h : CellsOk cells) :
    dropComponent (render cells) = render (upCells cells) := by
  match cells, h with
  | [], _ => rfl
  | [z], h =>
    obtain ⟨w, b, hz, hw⟩ := exists_concat (h.first z rfl) (h.free z (List.mem_singleton_self z))
    rw [render_singleton, hz]
    exact dropComponent_eq (a := []) hw
  | z :: y :: rest, h =>
    have hne : y :: rest ≠ [] := List.cons_ne_nil _ _
    rw [upCells]
    by_cases hz : z = []
    · rw [if_neg (not_not.mpr hz), hz, render_cons hne]
      have hy := h.free y (by simp)
      by_cases hr : rest = []
      · rw [if_pos hr, hr, render_singleton]
        exact dropComponent_eq (a := []) (w := y) hy
      · rw [if_neg hr, render_cons hr, render_cons hr, List.append_assoc]
        exact dropComponent_eq hy
    · obtain ⟨w, b, hzw, hw⟩ := exists_concat hz (h.free z (List.mem_cons_self ..))
      rw [if_pos hz, render_cons hne, render_cons hne, hzw]
      exact dropComponent_eq hw

theorem CellsOk.up {cells : List Bytes} (h : CellsOk cells) : CellsOk (upCells cells) := by
  match cells, h with
  | [], h => exact h
  | [_], _ => exact ⟨fun _ hc => absurd hc List.not_mem_nil, fun _ hc => by cases hc⟩
  | z :: y :: rest, h =>
    have hfree : ∀ c ∈ rest, slash ∉ c := fun c hc =>
      h.free c (List.mem_cons_of_mem _ (List.mem_cons_of_mem _ hc))
    rw [upCells]
    split_ifs with hz hr
    · refine ⟨fun c hc => ?_, fun c hc => h.first c (by simpa using hc)⟩
      rcases List.mem_cons.mp hc with rfl | hc
      · exact List.not_mem_nil
      · exact h.free c (List.mem_cons_of_mem _ hc)
    · exact ⟨fun _ hc => absurd hc List.not_mem_nil, fun _ hc => by cases hc⟩
    · refine ⟨fun c hc => ?_, fun c hc => h.first c ?_⟩
      · rcases List.mem_cons.mp hc with rfl | hc
        · exact List.not_mem_nil
        · exact hfree c hc
      · obtain ⟨x, xs, rfl⟩ := List.exists_cons_of_ne_nil hr
        simpa using hc

theorem pushComponent_render {cells : List Bytes} (h : CellsOk cells) (c : Bytes) :
    pushComponent (render cells) c = render (pushCell cells c) := by
  unfold pushComponent pushCell
  split_ifs with h1 h2 h3
  · rfl
  · exact dropComponent_render h
  · cases cells with
    | nil => exact absurd h3 (by decide)
    | cons z cells => rw [render_cons (List.cons_ne_nil _ _)]
  · cases cells with
    | nil => rw [render_nil, render_singleton]; rfl
    | cons z cells =>
      -- the first cell has a byte, so the output has two
      refine absurd ?_ h3
      cases cells with
      | nil =>
        have := List.length_pos_iff.mpr (h.first z rfl)
        rw [render_singleton, List.length_cons]
        omega
      | cons y cells =>
        rw [render_cons (List.cons_ne_nil _ _), List.length_append, List.length_cons]
        unfold render
        rw [List.length_cons]
        omega

theorem CellsOk.push {cells : List Bytes} (h : CellsOk cells) {c : Bytes} (hne : c ≠ [])
    (hc : slash ∉ c) : CellsOk (pushCell cells c) := by
  unfold pushCell
  split_ifs
  · exact h
  · exact h.up
  · refine ⟨fun d hd => ?_, fun d hd => ?_⟩
    · rcases List.mem_cons.mp hd with rfl | hd
      · exact hc
      · exact h.free d hd
    · cases cells with
      | nil => rwa [← Option.some.inj hd]
      | cons z cells => exact h.first d (by simpa using hd)

/-! ## The stack against the kept components -/

/-- The kept components are no more than the cells with bytes, and they are the cells when every
    cell has bytes. -/
structure Keeps (cells kept : List Bytes) : Prop where
  le : kept.length ≤ cells.countP (· ≠ [])
  eq : [] ∉ cells → kept = cells

theorem Keeps.up {cells kept : List Bytes} (h : Keeps cells kept) :
    Keeps (upCells cells) kept.tail := by
  have hle := h.le
  have htail := List.length_tail (l := kept)
  -- an empty stack leaves no component
  have hclear : kept.length ≤ 1 → Keeps [] kept.tail := fun h1 => by
    have hnil : kept.tail = [] := List.eq_nil_of_length_eq_zero (by omega)
    rw [hnil]
    exact ⟨le_refl _, fun _ => rfl⟩
  match cells, h, hle with
  | [], _, hle => exact hclear (hle.trans (by simp))
  | [z], _, hle => exact hclear (hle.trans List.countP_le_length)
  | z :: y :: rest, _, hle =>
    rw [upCells]
    by_cases hz : z = []
    · rw [if_neg (not_not.mpr hz)]
      rw [List.countP_cons_of_neg (by simpa using hz)] at hle
      by_cases hr : rest = []
      · rw [if_pos hr]
        rw [hr] at hle
        exact hclear (hle.trans List.countP_le_length)
      · rw [if_neg hr]
        refine ⟨?_, fun hc => absurd (List.mem_cons_self ..) hc⟩
        rw [List.countP_cons] at hle
        rw [List.countP_cons_of_neg (by simp)]
        split_ifs at hle <;> omega
    · rw [if_pos hz]
      refine ⟨?_, fun hc => absurd (List.mem_cons_self ..) hc⟩
      rw [List.countP_cons_of_pos (by simpa using hz)] at hle
      rw [List.countP_cons_of_neg (by simp)]
      omega

theorem Keeps.push {cells kept : List Bytes} (h : Keeps cells kept) {c : Bytes} (hc : c ≠ []) :
    Keeps (pushCell cells c) (keep kept c) := by
  unfold pushCell keep
  split_ifs
  · exact h
  · exact h.up
  · refine ⟨?_, fun hn => ?_⟩
    · rw [List.countP_cons_of_pos (by simpa using hc), List.length_cons]
      exact Nat.add_le_add_right h.le 1
    · rw [h.eq fun hm => hn (List.mem_cons_of_mem _ hm)]

/-- Different stacks render to different paths. -/
theorem render_inj {cells kept : List Bytes} (h : CellsOk cells) (hk : CellsOk kept)
    (he : render cells = render kept) : cells = kept := by
  have hcat : [slash].intercalate cells.reverse = [slash].intercalate kept.reverse :=
    (List.cons.inj he).2
  have hsplit : ∀ {l : List Bytes}, CellsOk l → l ≠ [] →
      ([slash].intercalate l.reverse).splitOn slash = l.reverse := fun hl hne =>
    List.splitOn_intercalate slash (fun c hc => hl.free c (List.mem_reverse.mp hc))
      (by simpa using hne)
  have hnil : ∀ {l : List Bytes}, CellsOk l → [slash].intercalate l.reverse = [] → l = [] := by
    intro l hl hl'
    by_contra hne
    have hs := hsplit hl hne
    rw [hl', show ([] : Bytes).splitOn slash = [[]] from rfl] at hs
    have : l = [[]] := by simpa using congrArg List.reverse hs.symm
    exact hl.first [] (by rw [this]; rfl) rfl
  by_cases hc : cells = []
  · rw [hc] at hcat ⊢
    exact (hnil hk hcat.symm).symm
  · by_cases hk' : kept = []
    · rw [hk'] at hcat ⊢
      exact hnil h hcat
    · have := hsplit h hc
      rw [hcat, hsplit hk hk'] at this
      exact (List.reverse_injective this).symm

/-! ## Stray slashes -/

/-- What decides about stray slashes: the levels of the output, whether its last level is an emptied
    component, and whether any level is. -/
structure Depth where
  depth : Nat
  trailing : Bool
  stray : Bool

/-- `..` at level one leads to the root. At a deeper level it empties the last component, which keeps
    its level and leaves a stray slash. Behind an emptied component it takes that level off and
    empties the one below, or leads to the root from level two. -/
def Depth.up (d : Depth) : Depth :=
  if d.depth ≤ 1 then ⟨0, false, false⟩
  else if d.trailing = false then ⟨d.depth, true, true⟩
  else if d.depth = 2 then ⟨0, false, false⟩
  else ⟨d.depth - 1, true, true⟩

def Depth.push (d : Depth) (c : Bytes) : Depth :=
  if c = [dot] then d
  else if c = [dot, dot] then d.up
  else ⟨d.depth + 1, false, d.stray⟩

/-- Since the levels last led back to the root, no `..` was met at level two or more. An emptied
    component counts as a level: `/a/b/../..` is back at the root, `/a/b/../c/../..` is not. -/
def NoStraySlash (path : Bytes) : Prop :=
  ((components path).foldl Depth.push ⟨0, false, false⟩).stray = false

def depthOf (cells : List Bytes) : Depth := ⟨cells.length, cells.head? = some [], [] ∈ cells⟩

theorem depthOf_up (cells : List Bytes) : depthOf (upCells cells) = (depthOf cells).up := by
  match cells with
  | [] => rfl
  | [_] => rfl
  | z :: y :: rest =>
    rw [upCells]
    unfold Depth.up depthOf
    by_cases hz : z = []
    · cases rest with
      | nil => simp [hz]
      | cons x rest => simp [hz]
    · simp [hz]

theorem depthOf_push (cells : List Bytes) {c : Bytes} (hc : c ≠ []) :
    depthOf (pushCell cells c) = (depthOf cells).push c := by
  unfold pushCell Depth.push
  split_ifs
  · rfl
  · exact depthOf_up cells
  · simp [depthOf, hc, Ne.symm hc]

theorem mem_splitOn {path c : Bytes} (h : c ∈ path.splitOn slash) : slash ∉ c := by
  induction path generalizing c with
  | nil =>
    rw [List.mem_singleton.mp h]
    exact List.not_mem_nil
  | cons b s ih =>
    rw [List.splitOn_cons_eq_if_modifyHead] at h
    obtain ⟨x, xs, hs⟩ := List.exists_cons_of_ne_nil (List.splitOn_ne_nil slash s)
    rw [hs] at ih h
    split_ifs at h with hb
    · rcases List.mem_cons.mp h with rfl | h
      · exact List.not_mem_nil
      · exact ih h
    · rcases List.mem_cons.mp h with rfl | h
      · intro hc
        rcases List.mem_cons.mp hc with rfl | hc
        · exact hb (beq_self_eq_true _)
        · exact ih (List.mem_cons_self ..) hc
      · exact ih (List.mem_cons_of_mem _ h)

/-- The components of a path have bytes, none of them a slash. -/
theorem mem_components {path c : Bytes} (h : c ∈ components path) : c ≠ [] ∧ slash ∉ c := by
  obtain ⟨hmem, hne⟩ := List.mem_filter.mp h
  exact ⟨by simpa using hne, mem_splitOn hmem⟩

theorem mem_foldl_keep {l kept : List Bytes} {c : Bytes} (h : c ∈ l.foldl keep kept) :
    c ∈ l ∨ c ∈ kept := by
  induction l generalizing kept with
  | nil => exact Or.inr h
  | cons d l ih =>
    rcases ih h with h | h
    · exact Or.inl (List.mem_cons_of_mem _ h)
    · unfold keep at h
      split_ifs at h
      · exact Or.inr h
      · exact Or.inr (List.mem_of_mem_tail h)
      · rcases List.mem_cons.mp h with rfl | h
        · exact Or.inl (List.mem_cons_self ..)
        · exact Or.inr h

/-- A run over components keeps the output, the stack, the kept components and the depth in
    step. -/
theorem foldl_cells (l : List Bytes) (hl : ∀ c ∈ l, c ≠ [] ∧ slash ∉ c) {cells kept : List Bytes}
    (h : CellsOk cells) (hk : Keeps cells kept) :
    CellsOk (l.foldl pushCell cells) ∧ Keeps (l.foldl pushCell cells) (l.foldl keep kept) ∧
      l.foldl pushComponent (render cells) = render (l.foldl pushCell cells) ∧
      l.foldl Depth.push (depthOf cells) = depthOf (l.foldl pushCell cells) := by
  induction l generalizing cells kept with
  | nil => exact ⟨h, hk, rfl, rfl⟩
  | cons c l ih =>
    obtain ⟨hne, hfree⟩ := hl c (List.mem_cons_self ..)
    rw [List.foldl_cons, List.foldl_cons, List.foldl_cons, List.foldl_cons,
      pushComponent_render h, ← depthOf_push cells hne]
    exact ih (fun d hd => hl d (List.mem_cons_of_mem _ hd)) (h.push hne hfree) (hk.push hne)

/-- The kernel's normal form of an absolute path is the canonical one exactly when no stray
    slash is left at the end. -/
theorem normalize_canonical_iff {heap heap' : Heap} {ptr : Nat} {path : Bytes}
    (hs : path.head? = some slash)
    (ha : allocBytes heap (path.length + 2) = .ok (ptr, heap')) :
    vfsNormalizePath heap path = .ok (some (canonicalPath path), heap') ↔ NoStraySlash path := by
  obtain ⟨rest, rfl⟩ : ∃ rest, path = slash :: rest := by
    cases path with
    | nil => cases hs
    | cons b rest => exact ⟨rest, by rw [Option.some.inj hs]⟩
  have hcomp : ∀ c ∈ components rest, c ≠ [] ∧ slash ∉ c := fun c hc => mem_components hc
  have hstart : CellsOk [] := ⟨fun _ h => absurd h List.not_mem_nil, fun _ h => by cases h⟩
  have hnone : Keeps [] [] := ⟨le_refl _, fun _ => rfl⟩
  obtain ⟨hok, hkeep, hout, hdepth⟩ := foldl_cells (components rest) hcomp hstart hnone
  have hkept : CellsOk ((components rest).foldl keep []) ∧
      [] ∉ (components rest).foldl keep [] := by
    have hmem : ∀ c ∈ (components rest).foldl keep [], c ≠ [] ∧ slash ∉ c := fun c hc =>
      (mem_foldl_keep hc).elim (hcomp c) fun h => absurd h List.not_mem_nil
    exact ⟨⟨fun c hc => (hmem c hc).2, fun c hc => (hmem c (List.mem_of_getLast? hc)).1⟩,
      fun hc => (hmem [] hc).1 rfl⟩
  have hstray : NoStraySlash (slash :: rest) ↔ [] ∉ (components rest).foldl pushCell [] := by
    unfold NoStraySlash
    rw [components_slash, show (⟨0, false, false⟩ : Depth) = depthOf [] from rfl, hdepth]
    simp [depthOf]
  have hnorm : vfsNormalizePath heap (slash :: rest) =
      .ok (some (render ((components rest).foldl pushCell [])), heap') := by
    unfold vfsNormalizePath
    rw [if_neg (by simp), ha, ok_bind, List.drop_one, List.tail_cons,
      normalizeLoop_eq (by simp), ← render_nil, hout]
  rw [hnorm, hstray]
  unfold canonicalPath
  rw [components_slash]
  constructor
  · intro he hc
    have he' := render_inj hok hkept.1 (Option.some.inj (Prod.mk.inj (Except.ok.inj he)).1)
    exact hkept.2 (he' ▸ hc)
  · intro hn
    rw [hkeep.eq hn]

/-- The levels decide, not the kept components: `/a/b/../..` and `/a/b/../c/../..`. -/
example : NoStraySlash [47, 97, 47, 98, 47, 46, 46, 47, 46, 46] ∧
    ¬ NoStraySlash [47, 97, 47, 98, 47, 46, 46, 47, 99, 47, 46, 46, 47, 46, 46] := by
  unfold NoStraySlash
  decide +kernel

/-- `/a/b/..` -/
def deepParent : Bytes := [47, 97, 47, 98, 47, 46, 46]

def pathHeap : Heap := ⟨16, 4096, fun _ => 0⟩

theorem allocBytes_deepParent :
    allocBytes pathHeap (deepParent.length + 2) = .ok (16, ⟨32, 4096, fun _ => 0⟩) := by
  unfold allocBytes
  rfl

theorem normalize_canonical_deepParent :
    vfsNormalizePath pathHeap deepParent =
      .ok (some (canonicalPath deepParent), ⟨32, 4096, fun _ => 0⟩) ↔ NoStraySlash deepParent :=
  normalize_canonical_iff rfl allocBytes_deepParent

/-- The kernel turns `/a/b/..` into `/a/`, whose canonical path is `/a`. -/
theorem normalize_leaves_slash :
    vfsNormalizePath pathHeap deepParent =
        .ok (some [47, 97, 47], ⟨32, 4096, fun _ => 0⟩) ∧
      canonicalPath deepParent = [47, 97] := by
  refine ⟨?_, by decide +kernel⟩
  unfold vfsNormalizePath
  rw [if_neg (by decide), allocBytes_deepParent]
  rfl

end PcoOs.Vfs
