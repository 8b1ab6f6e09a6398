/-
  Names that are listed can be opened, and names that are there can be reached. Opening, looking
  up a node, finding a directory and listing it are separate scans over byte strings, which agree
  because the normal form of a path is the rendering of its cells and no node has a component `.`
  or `..` (`NoDots`). Where a file has the name of a directory above another node, the file is
  what opens: `navigable` leaves such names out, and `fileAbove_opens_file` is one.
-/
import PcoOs.Vfs.Listing

namespace PcoOs.Vfs

open PcoOs.Lib PcoOs.Support

/-! ## Components -/

theorem components_append (a b : Bytes) :
    components (a ++ slash :: b) = components a ++ components b := by
  unfold components
  rw [List.splitOn_append_cons_self, List.filter_append]

theorem components_single {c : Bytes} (hne : c ≠ []) (hfree : slash ∉ c) : components c = [c] := by
  unfold components
  rw [List.splitOn_eq_singleton hfree]
  simp [hne]

/-- Neither `.` nor `..`. -/
def Plain (c : Bytes) : Prop := c ≠ [dot] ∧ c ≠ [dot, dot]

theorem pushCell_plain {c : Bytes} (h : Plain c) (cells : List Bytes) :
    pushCell cells c = c :: cells := by
  unfold pushCell
  rw [if_neg h.1, if_neg h.2]

theorem foldl_pushCell_plain {l : List Bytes} (h : ∀ c ∈ l, Plain c) (cells : List Bytes) :
    l.foldl pushCell cells = l.reverse ++ cells := by
  induction l generalizing cells with
  | nil => rfl
  | cons c l ih =>
    rw [List.foldl_cons, pushCell_plain (h c (List.mem_cons_self ..)),
      ih fun d hd => h d (List.mem_cons_of_mem _ hd), List.reverse_cons, List.append_assoc]
    rfl

theorem upCells_plain {cells : List Bytes} (h : ∀ c ∈ cells, Plain c) :
    ∀ c ∈ upCells cells, Plain c := by
  have hnil : Plain [] := ⟨by decide, by decide⟩
  match cells, h with
  | [], _ => exact fun c hc => absurd hc List.not_mem_nil
  | [_], _ => exact fun c hc => absurd hc List.not_mem_nil
  | z :: y :: rest, h =>
    rw [upCells]
    intro c hc
    split_ifs at hc with hz hr
    · rcases List.mem_cons.mp hc with rfl | hc
      · exact hnil
      · exact h c (List.mem_cons_of_mem _ hc)
    · exact absurd hc List.not_mem_nil
    · rcases List.mem_cons.mp hc with rfl | hc
      · exact hnil
      · exact h c (List.mem_cons_of_mem _ (List.mem_cons_of_mem _ hc))

theorem foldl_pushCell_all_plain (l : List Bytes) {cells : List Bytes}
    (h : ∀ c ∈ cells, Plain c) : ∀ c ∈ l.foldl pushCell cells, Plain c := by
  induction l generalizing cells with
  | nil => exact h
  | cons c l ih =>
    refine ih ?_
    unfold pushCell
    split_ifs with h1 h2
    · exact h
    · exact upCells_plain h
    · intro d hd
      rcases List.mem_cons.mp hd with rfl | hd
      · exact ⟨h1, h2⟩
      · exact h d hd

theorem components_render {cells : List Bytes} (h : ∀ c ∈ cells, slash ∉ c) :
    components (render cells) = cells.reverse.filter (· ≠ []) := by
  unfold render
  rw [components_slash]
  unfold components
  by_cases hne : cells = []
  · rw [hne]
    rfl
  · rw [List.splitOn_intercalate slash (fun c hc => h c (List.mem_reverse.mp hc))
      (by simpa using hne)]

/-! ## Canonical names -/

/-- Single slashes between components that are neither `.` nor `..`. -/
def Canonical (name : Bytes) : Prop := canonicalPath name = name

instance (name : Bytes) : Decidable (Canonical name) :=
  inferInstanceAs (Decidable (_ = _))

/-- What may stand in a canonical name. -/
def Proper (c : Bytes) : Prop := c ≠ [] ∧ slash ∉ c ∧ Plain c

theorem foldl_keep_proper {l kept : List Bytes} (hl : ∀ c ∈ l, c ≠ [] ∧ slash ∉ c)
    (h : ∀ c ∈ kept, Proper c) : ∀ c ∈ l.foldl keep kept, Proper c := by
  induction l generalizing kept with
  | nil => exact h
  | cons c l ih =>
    refine ih (fun d hd => hl d (List.mem_cons_of_mem _ hd)) ?_
    unfold keep
    split_ifs with h1 h2
    · exact h
    · exact fun d hd => h d (List.mem_of_mem_tail hd)
    · intro d hd
      rcases List.mem_cons.mp hd with rfl | hd
      · obtain ⟨hne, hfree⟩ := hl d (List.mem_cons_self ..)
        exact ⟨hne, hfree, h1, h2⟩
      · exact h d hd

theorem Canonical.cells {name : Bytes} (h : Canonical name) :
    ∃ cells, name = render cells ∧ ∀ c ∈ cells, Proper c :=
  ⟨_, h.symm, foldl_keep_proper (fun _ hc => mem_components hc) fun _ hc =>
    absurd hc List.not_mem_nil⟩

theorem Canonical.plain {name : Bytes} (h : Canonical name) : ∀ c ∈ components name, Plain c := by
  obtain ⟨cells, rfl, hcells⟩ := h.cells
  intro c hc
  rw [components_render fun c hc => (hcells c hc).2.1] at hc
  exact (hcells c (List.mem_reverse.mp (List.mem_filter.mp hc).1)).2.2

/-- No two slashes in a row behind the first one, and none at the end. -/
def NoEmpty (name : Bytes) : Prop := [] ∉ (name.drop 1).splitOn slash

instance (name : Bytes) : Decidable (NoEmpty name) := inferInstanceAs (Decidable (¬ _))

/-- The directory `a` stands in a name without empty components in front of a component: its
    normal form is itself. -/
theorem normalForm_ancestor {name a c : Bytes} (hname : NoEmpty name)
    (hplain : ∀ d ∈ components name, Plain d) (ha : a.head? = some slash)
    (hs : StartsWith name (dirPrefix a) c) : normalForm a = a := by
  by_cases hroot : a = [slash]
  · rw [hroot]
    rfl
  obtain ⟨a, rfl⟩ : ∃ t, a = slash :: t := by
    cases a with
    | nil => cases ha
    | cons b t => exact ⟨t, by rw [Option.some.inj ha]⟩
  obtain ⟨-, rest, he, -⟩ := hs
  have hbody : name = slash :: (a ++ slash :: (c ++ rest)) := by
    unfold dirPrefix at he
    rw [if_neg hroot] at he
    simpa using he
  unfold NoEmpty at hname
  rw [hbody, List.drop_one, List.tail_cons, List.splitOn_append_cons_self] at hname
  rw [hbody, components_slash, components_append] at hplain
  have hcomp : components a = a.splitOn slash := by
    refine List.filter_eq_self.mpr fun d hd => ?_
    simpa using fun h : d = [] => hname (List.mem_append_left _ (h ▸ hd))
  rw [(normalForm_eq _).2]
  unfold cellsOf render
  rw [List.drop_one, List.tail_cons,
    foldl_pushCell_plain fun d hd => hplain d (List.mem_append_left _ hd), List.append_nil,
    List.reverse_reverse, hcomp, List.intercalate_splitOn]

/-! ## No node has a component `.` or `..` -/

def NoDots (v : VfsState) : Prop := ∀ n ∈ v.nodes, ∀ c ∈ components n.name, Plain c

theorem normalForm_plain (path : Bytes) : ∀ c ∈ components (normalForm path), Plain c := by
  obtain ⟨hok, he⟩ := normalForm_eq path
  have hplain : ∀ c ∈ cellsOf path, Plain c :=
    foldl_pushCell_all_plain _ fun _ hc => absurd hc List.not_mem_nil
  intro c hc
  rw [he, components_render hok.free] at hc
  exact hplain c (List.mem_reverse.mp (List.mem_filter.mp hc).1)

theorem openPlan_create {v : VfsState} {path p : Bytes} {flags : Int}
    (h : openPlan v path flags = .create p) : p = normalForm path := by
  unfold openPlan at h
  by_cases hf : flags < 0 ∨ flags > 3
  · rw [if_pos hf] at h
    cases h
  by_cases hs : path.head? ≠ some slash
  · rw [if_neg hf, if_pos hs] at h
    cases h
  by_cases hroot : normalForm path = [slash]
  · rw [if_neg hf, if_neg hs, if_pos hroot] at h
    cases h
  rw [if_neg hf, if_neg hs, if_neg hroot] at h
  cases hl : vfsLookupPath v (normalForm path) with
  | none =>
    rw [hl] at h
    dsimp only at h
    split_ifs at h
    cases h
    rfl
  | some id =>
    obtain ⟨n, hn, -⟩ := vfsLookupPath_spec hl
    rw [hl] at h
    dsimp only at h
    rw [hn] at h
    dsimp only at h
    split_ifs at h

theorem callAct_create {v : VfsState} {c : VfsCall} {path : Bytes}
    (h : callAct v c = .create path) : ∃ p, path = normalForm p := by
  cases c with
  | openPath p flags =>
    rw [callAct] at h
    cases hp : openPlan v p flags with
    | create q =>
      rw [hp] at h
      cases h
      exact ⟨p, openPlan_create hp⟩
    | refuse | directory | file | truncate => rw [hp] at h; cases h
  | write id bytes =>
    rw [callAct] at h
    split_ifs at h
  | read | readdir | stat | close | consoleIn | consoleOut | use => cases h

theorem noDots_set {v v' : VfsState} (h : NoDots v) {id : Nat} {n n' : Node}
    (hn : v.nodes[id]? = some n) (hv : v'.nodes = v.nodes.set id n') (hname : n'.name = n.name) :
    NoDots v' := by
  intro a ha
  rw [hv] at ha
  rcases List.mem_or_eq_of_mem_set ha with ha | rfl
  · exact h a ha
  · rw [hname]
    exact h n (List.mem_of_getElem? hn)

theorem NoDots.call {s s' : VfsState × Heap} {c : VfsCall} (h : NoDots s.1) (hi : FsInv s.1 s.2)
    (he : vfsCall s c = .ok s') : NoDots s'.1 := by
  obtain ⟨v, hn, hd⟩ := vfsCall_spec hi he
  have hv : NoDots v := by
    generalize hact : callAct s.1 c = act at hn
    cases hn with
    | keep => exact h
    | create =>
      obtain ⟨p, rfl⟩ := callAct_create hact
      intro n hn
      rcases List.mem_append.mp hn with hn | hn
      · exact h n hn
      · rw [List.mem_singleton.mp hn]
        exact normalForm_plain p
    | truncate _ hn => exact noDots_set h hn rfl rfl
    | write hn => exact noDots_set h hn rfl (by simp)
  obtain he | ⟨id, d, -, -, -, he⟩ := hd
  · rw [he]
    exact hv
  · rw [he]
    exact hv

theorem noDots_init {m : Mem} {ptr size : Int} {entries : List (Bytes × Bytes)} {heap : Heap}
    {s : VfsState × Heap} (hok : HeapOk heap) (hlens : LengthsOk m ptr size)
    (himage : ImageHolds m ptr size entries) (hcanon : ∀ e ∈ entries, Canonical e.1)
    (he : initVfs m ptr size heap = .ok s) : NoDots s.1 := by
  obtain ⟨-, -, ⟨hnone, -⟩ | ⟨es, files, himage', hnodes, hfiles⟩⟩ := initVfs_started hok hlens he
  · exact absurd hnone (not_or.mpr himage.present)
  cases himage.unique himage'
  intro n hn
  rw [hnodes] at hn
  rcases List.mem_append.mp hn with hn | hn
  · obtain ⟨i, hi, rfl⟩ := List.mem_iff_getElem.mp hn
    have hi' : i < entries.length := hfiles.length_eq ▸ hi
    have hname : files[i].name = entries[i].1 := (hfiles.get hi' hi).name
    rw [hname]
    exact (hcanon _ (List.getElem_mem hi')).plain
  · rw [List.mem_singleton.mp hn]
    exact Canonical.plain (by decide)

/-! ## Opening -/

/-- Joining a component to an absolute path joins it to the normal form. -/
theorem normalForm_join {d c : Bytes} (hd : d.head? = some slash) (hne : c ≠ [])
    (hfree : slash ∉ c) (hc : Plain c) :
    normalForm (dirPrefix d ++ c) = dirPrefix (normalForm d) ++ c := by
  obtain ⟨d, rfl⟩ : ∃ t, d = slash :: t := by
    cases d with
    | nil => cases hd
    | cons b t => exact ⟨t, by rw [Option.some.inj hd]⟩
  have hcomp : components ((dirPrefix (slash :: d) ++ c).drop 1) = components d ++ [c] := by
    unfold dirPrefix
    by_cases hroot : slash :: d = [slash]
    · rw [if_pos hroot, (List.cons.inj hroot).2]
      exact components_single hne hfree
    · rw [if_neg hroot, ← components_single hne hfree, ← components_append]
      simp
  have hcells : cellsOf (dirPrefix (slash :: d) ++ c) = c :: cellsOf (slash :: d) := by
    unfold cellsOf
    rw [hcomp, List.foldl_append, List.foldl_cons, List.foldl_nil, pushCell_plain hc]
    rfl
  obtain ⟨hok, he⟩ := normalForm_eq (slash :: d)
  rw [(normalForm_eq (dirPrefix (slash :: d) ++ c)).2, hcells, he]
  by_cases hnil : cellsOf (slash :: d) = []
  · rw [hnil, render_singleton]
    rfl
  · have hne' : render (cellsOf (slash :: d)) ≠ [slash] := by
      intro h
      refine hnil (render_inj hok ⟨fun _ h => absurd h List.not_mem_nil, fun _ h => by cases h⟩ ?_)
      rw [h, render_nil]
    unfold dirPrefix
    rw [render_cons hnil, if_neg hne', List.append_assoc]
    rfl

/-- The name of a node, or a part of it in front of a slash, opens. -/
theorem openPlan_found {v : VfsState} {path : Bytes} (rest : Bytes) {n : Node} (hp : path.head? = some slash)
    (hroot : normalForm path ≠ [slash]) (hn : n ∈ v.nodes) (hname : n.name = normalForm path ++ rest)
    (hrest : rest = [] ∨ rest.head? = some slash) :
    (∃ id m, m ∈ v.nodes ∧ m.name = normalForm path ∧ m.kind = .file ∧
        openPlan v path 0 = .file id) ∨
      openPlan v path 0 = .directory (normalForm path) := by
  unfold openPlan
  rw [if_neg (by decide), if_neg (not_not.mpr hp), if_neg hroot]
  cases hl : vfsLookupPath v (normalForm path) with
  | some id =>
    obtain ⟨m, hm, hmn⟩ := vfsLookupPath_spec hl
    dsimp only
    rw [hm]
    dsimp only
    by_cases hk : m.kind = .directory
    · rw [if_pos hk]
      exact Or.inr rfl
    · rw [if_neg hk, if_neg fun h => h.1 rfl]
      exact Or.inl ⟨id, m, List.mem_of_getElem? hm, hmn, NodeKind.eq_file hk, rfl⟩
  | none =>
    rcases hrest with rfl | hrest
    · rw [List.append_nil] at hname
      exact absurd (List.mem_map.mpr ⟨n, hn, hname⟩) (vfsLookupPath_none hl)
    · obtain ⟨t, rfl⟩ : ∃ t, rest = slash :: t := by
        cases rest with
        | nil => cases hrest
        | cons b t => exact ⟨t, by rw [Option.some.inj hrest]⟩
      have hexists : vfsDirectoryExists v (normalForm path) = true := by
        have hmatch : vfsNodeMatchesDirectory n (normalForm path) = true :=
          (vfsNodeMatchesDirectory_iff (normalForm_head path)).mpr
            ⟨t, by unfold dirPrefix; rw [if_neg hroot, hname]; simp, fun h => absurd h hroot⟩
        unfold vfsDirectoryExists
        refine decide_eq_true (Or.inr (List.any_eq_true.mpr ⟨n, hn, ?_⟩))
        exact decide_eq_true (Or.inr hmatch)
      dsimp only
      rw [if_neg fun h => h.1 rfl, if_pos hexists]
      exact Or.inr rfl

/-- The early heap may not have the room to normalize the path. -/
def HeapShort (h : Heap) (path : Bytes) : Prop := h.stop < h.ptr + 3 * path.length + 64

theorem vfsAllocDescriptor_free {v : VfsState} (hfree : ¬ DescsFull v) (d : Desc) :
    ∃ id, 1 ≤ id ∧ id ≤ maxVfsDescriptors ∧ vfsAllocDescriptor v d = (id, setVfsDesc v id d) := by
  rcases vfsAllocDescriptor_spec v d with ⟨hfull, -⟩ | ⟨id, h1, h32, -, h⟩
  · exact absurd hfull hfree
  · exact ⟨id, h1, h32, h⟩

/-- An open without flags that finds something returns a descriptor of it. -/
theorem vfsOpenPath_found {v : VfsState} {h : Heap} (hi : FsInv v h) (hfree : ¬ DescsFull v)
    {path : Bytes} {d : Desc} (hplan : (∃ id, openPlan v path 0 = .file id ∧ d = fileDesc 0 id) ∨
      ∃ p, openPlan v path 0 = .directory p ∧ d = ⟨.directory, 0, 0, 0, p⟩) :
    Ends (vfsOpenPath v h path 0) (fun r => r.1 ≠ 0 ∧ r.2.1 = setVfsDesc v r.1 d)
      (fun _ => HeapShort h path) := by
  obtain ⟨id, h1, -, halloc⟩ := vfsAllocDescriptor_free hfree d
  refine (vfsOpenPath_spec hi.heap v path 0).mono ?_ ?_
  · rintro ⟨id', v', h'⟩ ⟨-, hr⟩
    have hr' : (id, setVfsDesc v id d) = (id', v') := by
      rcases hplan with ⟨node, hp, rfl⟩ | ⟨p, hp, rfl⟩
      · rw [hp] at hr
        exact halloc.symm.trans (Except.ok.inj hr)
      · rw [hp] at hr
        exact halloc.symm.trans (Except.ok.inj hr)
    cases hr'
    exact ⟨by omega, rfl⟩
  · rintro - (hs | hcount | ⟨⟨p, hc⟩, -⟩)
    · exact hs
    · exact absurd hi.count (not_le.mpr hcount)
    · rcases hplan with ⟨node, hp, -⟩ | ⟨q, hp, -⟩
      · rw [hp] at hc
        cases hc
      · rw [hp] at hc
        cases hc

/-- A path that opens as a directory is absolute, and the descriptor has its normal form. -/
theorem vfsOpenPath_directory {v v' : VfsState} {h h' : Heap} (hi : FsInv v h) {path : Bytes}
    {flags : Int} {id : Nat} (he : vfsOpenPath v h path flags = .ok (id, v', h'))
    (hk : (v'.desc id).kind = .directory) :
    path.head? = some slash ∧ v'.desc id = ⟨.directory, 0, 0, 0, normalForm path⟩ := by
  have hr := ((vfsOpenPath_spec hi.heap v path flags).of_ok he).2
  have hzero : ∀ v₁ : VfsState, v₁.desc = v.desc → (v₁.desc 0).kind = .closed := by
    intro v₁ hv
    by_contra hne
    rw [hv] at hne
    exact absurd (hi.range 0 hne).1 (by decide)
  have halloc : ∀ (v₁ : VfsState) (d : Desc), v₁.desc = v.desc →
      vfsAllocDescriptor v₁ d = (id, v') → v'.desc id = d := by
    intro v₁ d hv ha
    rcases vfsAllocDescriptor_spec v₁ d with ⟨-, hfull⟩ | ⟨j, -, -, -, hj⟩
    · cases ha.symm.trans hfull
      rw [hzero _ hv] at hk
      cases hk
    · cases ha.symm.trans hj
      exact Function.update_self ..
  cases hp : openPlan v path flags with
  | refuse =>
    rw [hp] at hr
    cases hr
    rw [hzero _ rfl] at hk
    cases hk
  | directory p =>
    rw [hp] at hr
    obtain ⟨hs, rfl⟩ := openPlan_directory hp
    exact ⟨hs, halloc v _ rfl (Except.ok.inj hr)⟩
  | file node =>
    rw [hp] at hr
    rw [halloc v _ rfl (Except.ok.inj hr)] at hk
    cases hk
  | truncate node =>
    rw [hp] at hr
    have hdesc : (truncateNode v node).desc = v.desc := by
      unfold truncateNode
      split <;> rfl
    rw [halloc _ _ hdesc (Except.ok.inj hr)] at hk
    cases hk
  | create p =>
    rw [hp, runPlan] at hr
    split_ifs at hr
    rw [halloc (addNode v (newFile p)) _ rfl (Except.ok.inj hr)] at hk
    cases hk

/-! ## Listings end -/

theorem vfsReaddirDescriptor_returns {v : VfsState} {d : Nat} (h1 : 1 ≤ d)
    (h32 : d ≤ maxVfsDescriptors) (length : Nat) : ∃ r, vfsReaddirDescriptor v d length = .ok r := by
  unfold vfsReaddirDescriptor vfsDesc
  rw [if_neg (by omega), if_neg (by omega), ok_bind]
  split_ifs
  · exact ⟨_, rfl⟩
  · cases nextChild v (v.desc d).path (v.desc d).offset (v.nodes.length - (v.desc d).offset) with
    | none => exact ⟨_, rfl⟩
    | some p => exact ⟨_, rfl⟩

/-- The nodes a listing has not gone over yet. -/
def left (v : VfsState) (d : Nat) : Nat := v.nodes.length - (v.desc d).offset

section

variable {d length : Nat} {s₀ : VfsState × Heap} {h : Heap} {v : VfsState} {names : List Bytes}

/-- A directory read returns 0, or goes over a node. -/
theorem Reads.next (hs : VfsReachable s₀) (hk : (s₀.1.desc d).kind = .directory)
    (h0 : (s₀.1.desc d).offset = 0) (hr : Reads d s₀ names (v, h)) (hlen : Fits v d length) :
    (∃ bytes v', vfsReaddirDescriptor v d length = .ok (0, bytes, v')) ∨
      ∃ names' v', Reads d s₀ names' (v', h) ∧ Fits v' d length ∧ left v' d < left v d := by
  have hl := hr.listing hs hk h0
  obtain ⟨offset, hle, hdesc, -⟩ := hl.desc
  dsimp only at hle hdesc
  have hk' : (v.desc d).kind = .directory := by
    rw [hdesc]
    exact hk
  have hoff : (v.desc d).offset = offset := by rw [hdesc]
  obtain ⟨h1, h32⟩ := hl.reach.inv.range d (by rw [hk']; decide)
  obtain ⟨⟨r, bytes, v'⟩, he⟩ := vfsReaddirDescriptor_returns (v := v) h1 h32 length
  obtain ⟨rfl, -⟩ | ⟨hne, next, hnext, hlt, rfl, -⟩ := vfsReaddirDescriptor_spec h1 h32 hk'
    (hl.reach.dirsOk d hk') (by omega) hlen he
  · exact Or.inl ⟨bytes, v', he⟩
  · have hset : (setVfsDesc v d { v.desc d with offset := next }).desc d =
        { v.desc d with offset := next } := Function.update_self ..
    refine Or.inr ⟨_, _, hr.name hlen he hne, ?_, ?_⟩
    · unfold Fits
      rw [hset]
      exact hlen
    · unfold left
      rw [hset]
      show v.nodes.length - next < v.nodes.length - (v.desc d).offset
      omega

/-- Directory reads with a buffer that has room come to their end. -/
theorem Reads.finish (hs : VfsReachable s₀) (hk : (s₀.1.desc d).kind = .directory)
    (h0 : (s₀.1.desc d).offset = 0) {k : Nat} (hr : Reads d s₀ names (v, h)) (hlen : Fits v d length)
    (hleft : left v d ≤ k) : ∃ names' v' bytes v'', Reads d s₀ names' (v', h) ∧ Fits v' d length ∧
      vfsReaddirDescriptor v' d length = .ok (0, bytes, v'') := by
  induction k generalizing v names with
  | zero =>
    obtain ⟨bytes, v', he⟩ | ⟨names', v', -, -, hlt⟩ := hr.next hs hk h0 hlen
    · exact ⟨names, v, bytes, v', hr, hlen, he⟩
    · omega
  | succ k ih =>
    obtain ⟨bytes, v', he⟩ | ⟨names', v', hr', hlen', hlt⟩ := hr.next hs hk h0 hlen
    · exact ⟨names, v, bytes, v', hr, hlen, he⟩
    · exact ih hr' hlen' (by omega)

end

/-! ## Navigation -/

/-- The listing of `d` comes to its end, and `c` is among its names whenever it has. -/
def Lists (s : VfsState × Heap) (d : Nat) (c : Bytes) : Prop :=
  (∀ length, Fits s.1 d length → ∃ names v bytes v', Reads d s names (v, s.2) ∧
      Fits v d length ∧ vfsReaddirDescriptor v d length = .ok (0, bytes, v')) ∧
    ∀ {names : List Bytes} {s' : VfsState × Heap} {length : Nat} {bytes : Bytes} {v : VfsState},
      Reads d s names s' → Fits s'.1 d length →
      vfsReaddirDescriptor s'.1 d length = .ok (0, bytes, v) → c ∈ names

theorem Child.kept {v v' : VfsState} {dir c : Bytes} (h : Child v dir c) (hk : NodesKept v v') :
    Child v' dir c := by
  obtain ⟨hne, n, hn, hs⟩ := h
  obtain ⟨i, hi, rfl⟩ := List.mem_iff_getElem.mp hn
  obtain ⟨n', hn', hname, -⟩ := hk i _ (List.getElem?_eq_getElem hi)
  exact ⟨hne, n', List.mem_of_getElem? hn', by rwa [hname]⟩

theorem lists_of_child {s : VfsState × Heap} (hs : VfsReachable s) {d : Nat} {c : Bytes}
    (hk : (s.1.desc d).kind = .directory) (h0 : (s.1.desc d).offset = 0)
    (hc : Child s.1 (s.1.desc d).path c) : Lists s d c := by
  constructor
  · exact fun length hlen => Reads.start.finish hs hk h0 hlen (le_refl _)
  · intro names s' length bytes v hr hlen he
    rw [hr.complete hs hk h0 hlen he, mem_listed_iff (hs.dirsOk d hk)]
    exact hc.kept (hr.listing hs hk h0).kept

/-- What every call keeps, a listing keeps. -/
theorem Reads.keeps {P : VfsState × Heap → Prop}
    (hstep : ∀ s s' c, P s → vfsCall s c = .ok s' → P s') {d : Nat} {s₀ s : VfsState × Heap}
    {names : List Bytes} (hr : Reads d s₀ names s) (h : P s₀) : P s := by
  induction hr with
  | start => exact h
  | call _ _ he ih => exact hstep _ _ _ ih he
  | @name _ s length _ _ _ _ _ he _ ih =>
    refine hstep s _ (.readdir d length) ih ?_
    rw [vfsCall, he]
    rfl

/-- A name that was read is a child. -/
theorem Listing.child {d : Nat} {s₀ s : VfsState × Heap} {names : List Bytes}
    (h : Listing d s₀ names s) (hdir : (s₀.1.desc d).path.head? = some slash) {c : Bytes}
    (hc : c ∈ names) : Child s.1 (s₀.1.desc d).path c := by
  obtain ⟨offset, hle, -, hnames⟩ := h.desc
  rw [hnames, mem_listed] at hc
  obtain ⟨hne, i, hi, he⟩ := hc
  exact (mem_listed_iff hdir).mp (mem_listed.mpr ⟨hne, i, by omega, he⟩)

/-- A child is neither `.` nor `..`. -/
theorem Child.plain {v : VfsState} {dir c : Bytes} (h : Child v dir c) (hn : NoDots v) :
    Plain c := by
  obtain ⟨hne, n, hmem, hfree, rest, hname, hrest⟩ := h
  refine hn n hmem c ?_
  obtain ⟨front, hfront⟩ : ∃ front, dirPrefix dir = front ++ [slash] := by
    unfold dirPrefix
    split_ifs
    · exact ⟨[], rfl⟩
    · exact ⟨dir, rfl⟩
  have hcomp : c ∈ components (c ++ rest) := by
    rcases hrest with rfl | hrest
    · rw [List.append_nil, components_single hne hfree]
      exact List.mem_singleton_self c
    · cases rest with
      | nil => cases hrest
      | cons b t =>
        rw [Option.some.inj hrest, components_append, components_single hne hfree]
        exact List.mem_append_left _ (List.mem_singleton_self c)
  rw [hname, hfront, List.append_assoc, List.append_assoc]
  show c ∈ components (front ++ slash :: (c ++ rest))
  rw [components_append]
  exact List.mem_append_right _ hcomp

theorem dirPrefix_head {d : Bytes} (hd : d.head? = some slash) (t : Bytes) :
    (dirPrefix d ++ t).head? = some slash := by
  unfold dirPrefix
  split_ifs
  · rfl
  · cases d with
    | nil => cases hd
    | cons b d => exact hd

/-- A child of a directory opens. -/
theorem child_opens {v : VfsState} {h : Heap} (hi : FsInv v h) (hn : NoDots v)
    (hfree : ¬ DescsFull v) {d c : Bytes} (hd : d.head? = some slash)
    (hc : Child v (normalForm d) c) :
    Ends (vfsOpenPath v h (dirPrefix d ++ c) 0) (fun r => r.1 ≠ 0)
      (fun _ => HeapShort h (dirPrefix d ++ c)) := by
  have hplain := hc.plain hn
  obtain ⟨hne, n, hmem, hslash, rest, hname, hrest⟩ := hc
  have hjoin := normalForm_join hd hne hslash hplain
  have hroot : normalForm (dirPrefix d ++ c) ≠ [slash] := by
    intro h1
    have hlen := congrArg List.length (hjoin.symm.trans h1)
    have hpos := List.length_pos_iff.mpr hne
    have hfront : 0 < (dirPrefix (normalForm d)).length := by
      unfold dirPrefix
      split_ifs <;> simp
    rw [List.length_append, List.length_singleton] at hlen
    omega
  obtain ⟨id, m, -, -, -, hp⟩ | hp := openPlan_found _ (dirPrefix_head hd c) hroot hmem
    (hname.trans (by rw [hjoin])) hrest
  · exact (vfsOpenPath_found hi hfree (Or.inl ⟨id, hp, rfl⟩)).imp fun r hr => hr.1
  · exact (vfsOpenPath_found hi hfree (Or.inr ⟨_, hp, rfl⟩)).imp fun r hr => hr.1

/-- A directory above a node opens and lists the next component, unless a file has its name. -/
theorem ancestor_opens {s : VfsState × Heap} (hs : VfsReachable s) (hfree : ¬ DescsFull s.1)
    (hdots : NoDots s.1) {n : Node} (hn : n ∈ s.1.nodes) (hne : NoEmpty n.name) {a c : Bytes}
    (ha : a.head? = some slash) (hc : c ≠ []) (hst : StartsWith n.name (dirPrefix a) c)
    (hdir : ∀ m ∈ s.1.nodes, m.name = a → m.kind = .directory) :
    Ends (vfsOpenPath s.1 s.2 a 0)
      (fun r => r.1 ≠ 0 ∧ (r.2.1.desc r.1).kind = .directory ∧ Lists r.2 r.1 c)
      (fun _ => HeapShort s.2 a) := by
  have hnormal := normalForm_ancestor hne (hdots n hn) ha hst
  have hplan : openPlan s.1 a 0 = .directory a := by
    by_cases hroot : a = [slash]
    · rw [hroot]
      rfl
    · have hname := hst
      obtain ⟨-, rest, hname, -⟩ := hname
      unfold dirPrefix at hname
      rw [if_neg hroot] at hname
      obtain ⟨id, m, hm, hmn, hk, -⟩ | hp := openPlan_found (slash :: (c ++ rest)) ha
        (by rwa [hnormal]) hn (by rw [hname, hnormal]; simp) (Or.inr rfl)
      · rw [hdir m hm (hmn.trans hnormal)] at hk
        cases hk
      · rw [hp, hnormal]
  have hspec := vfsOpenPath_found hs.inv hfree (Or.inr ⟨a, hplan, rfl⟩)
  cases he : vfsOpenPath s.1 s.2 a 0 with
  | error e => exact hspec.of_error he
  | ok r =>
    obtain ⟨id, v, h⟩ := r
    obtain ⟨hid, hv⟩ := hspec.of_ok he
    dsimp only at hid hv
    have hdesc : v.desc id = ⟨.directory, 0, 0, 0, a⟩ := by
      rw [hv]
      exact Function.update_self ..
    refine ⟨hid, by rw [hdesc], lists_of_child (hs.openPath he) (by rw [hdesc]) (by rw [hdesc]) ?_⟩
    rw [hdesc]
    exact ⟨hc, n, by rw [hv]; exact hn, hst⟩

/-- From an image with canonical names, in every state of every run with a free descriptor: a name
    read from a directory that was opened opens when it is joined to the path of the directory;
    and every directory above a node whose name has no empty component opens and lists the next
    component, unless a file has the name of that directory. An open that stops has run out of
    early heap. -/
theorem navigable {m : Mem} {ptr size : Int} {entries : List (Bytes × Bytes)} {heap : Heap}
    {s₀ s : VfsState × Heap} {cs : List VfsCall} (hok : HeapOk heap) (hlens : LengthsOk m ptr size)
    (himage : ImageHolds m ptr size entries) (hcanon : ∀ e ∈ entries, Canonical e.1)
    (hinit : initVfs m ptr size heap = .ok s₀) (hrun : vfsRun s₀ cs = .ok s) :
    (∀ (d : Bytes) (flags : Int) (id : Nat) (s₁ s₂ s₃ : VfsState × Heap) (names : List Bytes)
        (cs' : List VfsCall), vfsOpenPath s.1 s.2 d flags = .ok (id, s₁) →
        (s₁.1.desc id).kind = .directory → Reads id s₁ names s₂ → vfsRun s₂ cs' = .ok s₃ →
        ¬ DescsFull s₃.1 → ∀ c ∈ names, Ends (vfsOpenPath s₃.1 s₃.2 (dirPrefix d ++ c) 0)
          (fun r => r.1 ≠ 0) (fun _ => HeapShort s₃.2 (dirPrefix d ++ c))) ∧
      (¬ DescsFull s.1 → ∀ n ∈ s.1.nodes, NoEmpty n.name → ∀ a c : Bytes, a.head? = some slash →
        c ≠ [] → StartsWith n.name (dirPrefix a) c →
        (∀ m ∈ s.1.nodes, m.name = a → m.kind = .directory) →
        Ends (vfsOpenPath s.1 s.2 a 0)
          (fun r => r.1 ≠ 0 ∧ (r.2.1.desc r.1).kind = .directory ∧ Lists r.2 r.1 c)
          (fun _ => HeapShort s.2 a)) := by
  have hkeeps : ∀ s s' c, VfsReachable s ∧ NoDots s.1 → vfsCall s c = .ok s' →
      VfsReachable s' ∧ NoDots s'.1 :=
    fun s s' c hs hc => ⟨.call hs.1 hc, hs.2.call hs.1.inv hc⟩
  have hs := vfsRun_keeps (P := fun s => VfsReachable s ∧ NoDots s.1) hkeeps
    ⟨.init hok hlens hinit, noDots_init hok hlens himage hcanon hinit⟩ hrun
  refine ⟨fun d flags id s₁ s₂ s₃ names cs' hopen hk hr hrun' hfree c hc => ?_,
    fun hfree n hn hne a c ha hc hst hdir =>
      ancestor_opens hs.1 hfree hs.2 hn hne ha hc hst hdir⟩
  obtain ⟨hd, hdesc⟩ := vfsOpenPath_directory hs.1.inv hopen hk
  have hs₁ : VfsReachable s₁ ∧ NoDots s₁.1 := hkeeps s s₁ (.openPath d flags) hs (by
    rw [vfsCall, hopen]
    rfl)
  have hl := hr.listing hs₁.1 hk (by rw [hdesc])
  obtain ⟨hs₃, hkept⟩ := vfsRun_keeps
    (P := fun s => (VfsReachable s ∧ NoDots s.1) ∧ NodesKept s₂.1 s.1)
    (fun s s' c hs hc => by
      obtain ⟨v, hn, hd⟩ := vfsCall_spec hs.1.1.inv hc
      exact ⟨hkeeps s s' c hs.1 hc, hs.2.trans (hn.kept.trans hd.kept)⟩)
    ⟨hr.keeps hkeeps hs₁, NodesKept.refl _⟩ hrun'
  have hchild := (hl.child (hs₁.1.dirsOk id hk) hc).kept hkept
  rw [hdesc] at hchild
  exact child_opens hs₃.1.inv hs₃.2 hfree hd hchild

theorem not_descsFull {v : VfsState} (id : Nat) (h : 1 ≤ id ∧ id ≤ maxVfsDescriptors)
    (hc : (v.desc id).kind = .closed) : ¬ DescsFull v :=
  fun hfull => hfull id h.1 h.2 hc

/-- `/tmp/x` is made, and the root opened and read once. -/
def smallNavigation : Except String Unit := do
  let s₀ ← initVfs smallImageMem 4096 (buildImage smallEntries).length smallHeap
  let s ← vfsRun s₀ [.openPath tmpX 1]
  let (id, s₁) ← vfsOpenPath s.1 s.2 [47] 0
  let (r, a, v) ← vfsReaddirDescriptor s₁.1 2 64
  if (id = 2 ∧ (s₁.1.desc 2).kind = .directory ∧ (s₁.1.desc 2).path = [slash] ∧ r ≠ 0 ∧ a = [97]) ∧
    (∀ child ∈ listed s₁.1 [slash] s₁.1.nodes.length, child.length ≤ 64) ∧
    (s.1.desc 5).kind = .closed ∧ (v.desc 5).kind = .closed ∧
    s.1.nodes.map (fun n => (n.name, n.kind)) =
      [([47, 97], .file), ([47, 98], .file), (tmpName, .directory), (tmpX, .file)]
    then .ok () else .error ""

/-- With `/tmp/x` created: `/a` is read from the root and opens, and `/tmp` opens and lists `x`. -/
theorem navigable_small : ∃ s₀ s s₁ s₂,
    initVfs smallImageMem 4096 (buildImage smallEntries).length smallHeap = .ok s₀ ∧
    vfsRun s₀ [.openPath tmpX 1] = .ok s ∧ vfsOpenPath s.1 s.2 [47] 0 = .ok (2, s₁) ∧
    Reads 2 s₁ [[97]] s₂ ∧
    Ends (vfsOpenPath s₂.1 s₂.2 [47, 97] 0) (fun r => r.1 ≠ 0)
      (fun _ => HeapShort s₂.2 [47, 97]) ∧
    Ends (vfsOpenPath s.1 s.2 tmpName 0)
      (fun r => r.1 ≠ 0 ∧ (r.2.1.desc r.1).kind = .directory ∧ Lists r.2 r.1 [120])
      (fun _ => HeapShort s.2 tmpName) := by
  obtain ⟨u, hu⟩ := exists_ok_of_isOk (x := smallNavigation) (by decide +kernel)
  unfold smallNavigation at hu
  obtain ⟨s₀, h₀, hu⟩ := bind_eq_ok.mp hu
  obtain ⟨s, hs, hu⟩ := bind_eq_ok.mp hu
  obtain ⟨⟨id, s₁⟩, h₁, hu⟩ := bind_eq_ok.mp hu
  obtain ⟨⟨r, a, v⟩, h₂, hu⟩ := bind_eq_ok.mp hu
  dsimp only at hu
  split_ifs at hu with hall
  obtain ⟨⟨rfl, hk, hpath, hr, rfl⟩, hlen, hfree, hfree', hnodes⟩ := hall
  have hnav := navigable heapOk_smallHeap lengthsOk_small imageHolds_small (by decide) h₀ hs
  have hreads : Reads 2 s₁ [[97]] (v, s₁.2) := by
    refine Reads.start.name (fits_of_listed (by rw [hpath]; rfl) ?_) h₂ hr
    rw [hpath]
    exact hlen
  have hmem : ∀ p ∈ s.1.nodes.map (fun n => (n.name, n.kind)), p.1 = tmpName → p.2 = .directory := by
    rw [hnodes]
    decide
  have hx : (tmpX, NodeKind.file) ∈ s.1.nodes.map (fun n => (n.name, n.kind)) := by
    rw [hnodes]
    decide
  obtain ⟨n, hn, hname⟩ := List.mem_map.mp hx
  have hname : n.name = tmpX := (Prod.mk.inj hname).1
  refine ⟨s₀, s, s₁, (v, s₁.2), h₀, hs, h₁, hreads, ?_, ?_⟩
  · exact hnav.1 [47] 0 2 s₁ (v, s₁.2) (v, s₁.2) [[97]] [] h₁ hk hreads rfl
      (not_descsFull 5 (by decide) hfree') [97] (List.mem_singleton_self _)
  · refine hnav.2 (not_descsFull 5 (by decide) hfree) n hn (by rw [hname]; decide +kernel)
      tmpName [120] rfl (by decide) ?_ fun m hm hmn => hmem _ (List.mem_map_of_mem hm) hmn
    rw [hname]
    exact ⟨by decide, [], by decide, Or.inl rfl⟩

/-- An image with a file `/a` and a file `/a/b`. -/
def fileAboveEntries : List (Bytes × Bytes) := [([47, 97], [120]), ([47, 97, 47, 98], [])]

def fileAboveMem : Mem := storeBytes (fun _ => 0) 4096 (buildImage fileAboveEntries)

/-- The names of the image are canonical, `/a` is above the node `/a/b`, and it opens as a file. -/
theorem fileAbove_opens_file : ∃ s id s₁ n,
    initVfs fileAboveMem 4096 (buildImage fileAboveEntries).length smallHeap = .ok s ∧
    LengthsOk fileAboveMem 4096 (buildImage fileAboveEntries).length ∧
    ImageHolds fileAboveMem 4096 (buildImage fileAboveEntries).length fileAboveEntries ∧
    (∀ e ∈ fileAboveEntries, Canonical e.1) ∧ ¬ DescsFull s.1 ∧ n ∈ s.1.nodes ∧
    n.name = [47, 97, 47, 98] ∧ NoEmpty n.name ∧ StartsWith n.name (dirPrefix [47, 97]) [98] ∧
    vfsOpenPath s.1 s.2 [47, 97] 0 = .ok (id, s₁) ∧ (s₁.1.desc id).kind = .initramfsFile := by
  have hload : Loaded fileAboveMem 4096 (buildImage fileAboveEntries) :=
    ⟨loadBytes_storeBytes _ _ _, by decide, by decide, by decide +kernel⟩
  have himage : ImageHolds fileAboveMem 4096 (buildImage fileAboveEntries).length
      fileAboveEntries := imageHolds_buildImage hload (by decide) (by decide +kernel)
  obtain ⟨u, hu⟩ := exists_ok_of_isOk (x := do
    let s ← initVfs fileAboveMem 4096 (buildImage fileAboveEntries).length smallHeap
    let (id, s₁) ← vfsOpenPath s.1 s.2 [47, 97] 0
    if (s.1.desc 5).kind = .closed ∧ (s₁.1.desc id).kind = .initramfsFile ∧
      [47, 97, 47, 98] ∈ s.1.nodes.map Node.name then .ok () else .error "") (by decide +kernel)
  obtain ⟨s, h₀, hu⟩ := bind_eq_ok.mp hu
  obtain ⟨⟨id, s₁⟩, h₁, hu⟩ := bind_eq_ok.mp hu
  dsimp only at hu
  split_ifs at hu with hall
  obtain ⟨hfree, hk, hmem⟩ := hall
  obtain ⟨n, hn, hname⟩ := List.mem_map.mp hmem
  refine ⟨s, id, s₁, n, h₀, lengthsOk_buildImage hload (by decide), himage, by decide +kernel, not_descsFull 5 (by decide) hfree,
    hn, hname, by rw [hname]; decide +kernel, ?_, h₁, hk⟩
  rw [hname]
  exact ⟨by decide, [], by decide, Or.inl rfl⟩

end PcoOs.Vfs
