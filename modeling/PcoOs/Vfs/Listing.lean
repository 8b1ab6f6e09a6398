/-
  Listing a directory with `vfs_readdir_descriptor` while files are created. Directories are
  implicit: the children of one are read off the full names of the nodes, and a child is listed at
  the first node that has it. The offset of the descriptor is a node index, which stays meaningful
  because nodes keep their place and their name. `readdir_exact`: the names returned before the
  first 0 are the children there are at that time, each once.
-/
import PcoOs.Vfs.Paths
import PcoOs.Vfs.Files
import PcoOs.Vfs.Namespace

namespace PcoOs.Vfs

open PcoOs.Lib PcoOs.Support

/-! ## Children -/

/-- What stands in front of the names of a directory's children. -/
def dirPrefix (dir : Bytes) : Bytes := if dir = [slash] then [slash] else dir ++ [slash]

/-- A component behind `front` in a name: up to the next slash, or to the end. -/
def StartsWith (name front child : Bytes) : Prop :=
  slash ∉ child ∧ ∃ rest, name = front ++ child ++ rest ∧ (rest = [] ∨ rest.head? = some slash)

/-- The distinct first components below `dir` in the names of the nodes. -/
def Child (v : VfsState) (dir child : Bytes) : Prop :=
  child ≠ [] ∧ ∃ n ∈ v.nodes, StartsWith n.name (dirPrefix dir) child

theorem takeWhile_eq_iff {t child : Bytes} :
    t.takeWhile (· ≠ slash) = child ↔
      slash ∉ child ∧ ∃ rest, t = child ++ rest ∧ (rest = [] ∨ rest.head? = some slash) := by
  constructor
  · rintro rfl
    refine ⟨not_mem_takeWhile t, t.dropWhile (· ≠ slash),
      (List.takeWhile_append_dropWhile (p := (· ≠ slash)) (l := t)).symm, ?_⟩
    cases hd : t.dropWhile (· ≠ slash) with
    | nil => exact Or.inl rfl
    | cons b rest =>
      have := List.head?_dropWhile_not (fun c : UInt8 => decide (c ≠ slash)) t
      rw [hd] at this
      exact Or.inr (by simpa using this)
  · rintro ⟨hfree, rest, rfl, hrest⟩
    have hall : ∀ b ∈ child, decide (b ≠ slash) = true := fun b hb =>
      decide_eq_true fun h => hfree (h ▸ hb)
    rw [List.takeWhile_append_of_pos hall]
    cases rest with
    | nil => simp
    | cons b rest =>
      have hb : b = slash := by simpa using hrest
      rw [hb, List.takeWhile_cons_of_neg (by simp), List.append_nil]

/-- A node that matches a directory has a name that goes on behind the slash. -/
theorem vfsNodeMatchesDirectory_iff {n : Node} {dir : Bytes} (hdir : dir.head? = some slash) :
    vfsNodeMatchesDirectory n dir = true ↔
      ∃ t, n.name = dirPrefix dir ++ t ∧ (dir = [slash] → t ≠ []) := by
  unfold vfsNodeMatchesDirectory dirPrefix
  by_cases hroot : dir = [slash]
  · subst hroot
    simp only [List.length_singleton, if_true, decide_eq_true_eq]
    constructor
    · rintro ⟨hlen, hhead⟩
      cases hn : n.name with
      | nil => rw [hn] at hhead; cases hhead
      | cons b t =>
        rw [hn] at hlen hhead
        refine ⟨t, by rw [Option.some.inj hhead]; rfl, fun _ ht => ?_⟩
        rw [ht] at hlen
        exact absurd hlen (by simp)
    · rintro ⟨t, hn, ht⟩
      rw [hn]
      have := List.length_pos_iff.mpr (ht trivial)
      exact ⟨by simpa using this, rfl⟩
  · have hlen : dir.length ≠ 1 := by
      intro h1
      obtain ⟨b, rfl⟩ := List.length_eq_one_iff.mp h1
      exact hroot (by rw [Option.some.inj hdir])
    simp only [if_neg hlen, if_neg hroot, decide_eq_true_eq]
    constructor
    · rintro ⟨hlt, ⟨t, ht⟩, hget⟩
      cases t with
      | nil =>
        rw [← ht, List.append_nil] at hlt
        exact absurd hlt (lt_irrefl _)
      | cons b t =>
        rw [← ht, List.getD_append_right _ _ _ _ (le_refl _), Nat.sub_self,
          List.getD_cons_zero] at hget
        exact ⟨t, by rw [← ht, hget]; simp, fun h => absurd h hroot⟩
    · rintro ⟨t, hn, -⟩
      rw [hn, List.append_assoc]
      refine ⟨by simp, List.prefix_append _ _, ?_⟩
      rw [List.getD_append_right _ _ _ _ (le_refl _), Nat.sub_self]
      rfl

theorem vfsDirectoryChildComponent_iff {n : Node} {dir child : Bytes}
    (hdir : dir.head? = some slash) (hc : child ≠ []) :
    vfsDirectoryChildComponent n dir = child ↔ StartsWith n.name (dirPrefix dir) child := by
  have hlen : (if dir.length = 1 then 1 else dir.length + 1) = (dirPrefix dir).length := by
    unfold dirPrefix
    by_cases hroot : dir = [slash]
    · rw [if_pos hroot, hroot]
      rfl
    · rw [if_neg hroot, List.length_append, if_neg]
      · rfl
      · intro h1
        obtain ⟨b, rfl⟩ := List.length_eq_one_iff.mp h1
        exact hroot (by rw [Option.some.inj hdir])
  unfold vfsDirectoryChildComponent StartsWith
  rw [hlen]
  by_cases hm : vfsNodeMatchesDirectory n dir = true
  · obtain ⟨t, hn, -⟩ := (vfsNodeMatchesDirectory_iff hdir).mp hm
    rw [if_pos hm, hn, List.drop_left, takeWhile_eq_iff]
    simp only [List.append_assoc, List.append_cancel_left_eq]
  · rw [if_neg hm]
    constructor
    · exact fun h => absurd h.symm hc
    · rintro ⟨-, rest, hn, -⟩
      refine absurd ((vfsNodeMatchesDirectory_iff hdir).mpr
        ⟨child ++ rest, by rw [hn, List.append_assoc], fun _ h => hc ?_⟩) hm
      exact (List.append_eq_nil_iff.mp h).1

/-! ## The list of children -/

/-- The component of node `i`, empty when it has none or is not there. -/
def childAt (v : VfsState) (dir : Bytes) (i : Nat) : Bytes :=
  (v.nodes[i]?.map fun n => vfsDirectoryChildComponent n dir).getD []

/-- The children of the first `n` nodes, each where it is met first. -/
def listed (v : VfsState) (dir : Bytes) (n : Nat) : List Bytes :=
  (List.range n).filterMap (listsChild v dir)

theorem childAt_of_some {v : VfsState} {dir : Bytes} {i : Nat} {n : Node}
    (h : v.nodes[i]? = some n) : childAt v dir i = vfsDirectoryChildComponent n dir := by
  unfold childAt
  rw [h]
  rfl

theorem vfsDirectoryChildSeenBefore_iff {v : VfsState} {dir child : Bytes} {i : Nat}
    (hc : child ≠ []) :
    vfsDirectoryChildSeenBefore v dir i child = true ↔ ∃ j < i, childAt v dir j = child := by
  unfold vfsDirectoryChildSeenBefore
  simp only [List.any_eq_true, decide_eq_true_eq]
  constructor
  · rintro ⟨n, hmem, -, hn⟩
    obtain ⟨j, hj, hget⟩ := List.mem_iff_getElem.mp hmem
    rw [List.length_take] at hj
    rw [List.getElem_take] at hget
    refine ⟨j, by omega, ?_⟩
    rw [childAt_of_some (List.getElem?_eq_some_iff.mpr ⟨by omega, hget⟩), hn]
  · rintro ⟨j, hj, hch⟩
    cases hn : v.nodes[j]? with
    | none =>
      unfold childAt at hch
      rw [hn] at hch
      exact absurd hch.symm hc
    | some n =>
      rw [childAt_of_some hn] at hch
      obtain ⟨hlt, hget⟩ := List.getElem?_eq_some_iff.mp hn
      refine ⟨n, List.mem_take_iff_getElem.mpr ⟨j, by omega, hget⟩, by rwa [hch], hch⟩

/-- A node lists its component unless an earlier one has it. -/
theorem listsChild_eq_some {v : VfsState} {dir child : Bytes} {i : Nat} :
    listsChild v dir i = some child ↔
      child ≠ [] ∧ childAt v dir i = child ∧ ∀ j < i, childAt v dir j ≠ child := by
  unfold listsChild
  cases hn : v.nodes[i]? with
  | none =>
    unfold childAt
    rw [hn]
    exact ⟨(fun h => by cases h), fun ⟨hc, h, _⟩ => absurd h.symm hc⟩
  | some n =>
    rw [childAt_of_some hn]
    dsimp only
    constructor
    · intro h
      split_ifs at h with hnew
      obtain rfl := Option.some.inj h
      refine ⟨hnew.1, rfl, fun j hj he => hnew.2 ?_⟩
      exact (vfsDirectoryChildSeenBefore_iff hnew.1).mpr ⟨j, hj, he⟩
    · rintro ⟨hc, rfl, hfirst⟩
      refine if_pos ⟨hc, fun hseen => ?_⟩
      obtain ⟨j, hj, he⟩ := (vfsDirectoryChildSeenBefore_iff hc).mp hseen
      exact hfirst j hj he

theorem nodup_listed (v : VfsState) (dir : Bytes) (n : Nat) : (listed v dir n).Nodup := by
  refine List.nodup_range.filterMap fun i j child hi hj => ?_
  obtain ⟨-, hi, hi'⟩ := listsChild_eq_some.mp hi
  obtain ⟨-, hj, hj'⟩ := listsChild_eq_some.mp hj
  rcases Nat.lt_trichotomy i j with h | h | h
  · exact absurd hi (hj' i h)
  · exact h
  · exact absurd hj (hi' j h)

theorem mem_listed {v : VfsState} {dir child : Bytes} {n : Nat} :
    child ∈ listed v dir n ↔ child ≠ [] ∧ ∃ i < n, childAt v dir i = child := by
  unfold listed
  rw [List.mem_filterMap]
  constructor
  · rintro ⟨i, hi, h⟩
    obtain ⟨hc, he, -⟩ := listsChild_eq_some.mp h
    exact ⟨hc, i, List.mem_range.mp hi, he⟩
  · rintro ⟨hc, hex⟩
    -- the first node with this component lists it
    obtain ⟨hlt, he⟩ := Nat.find_spec hex
    exact ⟨Nat.find hex, List.mem_range.mpr hlt, listsChild_eq_some.mpr
      ⟨hc, he, fun j hj hj' => Nat.find_min hex hj ⟨hj.trans hlt, hj'⟩⟩⟩

/-- The children of all the nodes are the first components below the directory. -/
theorem mem_listed_iff {v : VfsState} {dir child : Bytes} (hdir : dir.head? = some slash) :
    child ∈ listed v dir v.nodes.length ↔ Child v dir child := by
  rw [mem_listed]
  unfold Child
  refine and_congr_right fun hc => ?_
  constructor
  · rintro ⟨i, hi, he⟩
    rw [childAt_of_some (List.getElem?_eq_getElem hi)] at he
    exact ⟨_, List.getElem_mem hi, (vfsDirectoryChildComponent_iff hdir hc).mp he⟩
  · rintro ⟨n, hn, h⟩
    obtain ⟨i, hi, rfl⟩ := List.mem_iff_getElem.mp hn
    refine ⟨i, hi, ?_⟩
    rw [childAt_of_some (List.getElem?_eq_getElem hi)]
    exact (vfsDirectoryChildComponent_iff hdir hc).mpr h

theorem length_listed (v : VfsState) (dir : Bytes) :
    (listed v dir v.nodes.length).length = vfsDirectoryChildCount v dir :=
  List.length_filterMap_eq_countP

theorem listed_succ (v : VfsState) (dir : Bytes) (n : Nat) :
    listed v dir (n + 1) = listed v dir n ++ (listsChild v dir n).toList := by
  unfold listed
  rw [List.range_succ, List.filterMap_append]
  cases h : listsChild v dir n <;> simp [h]

/-- The scan for the next child goes over nodes that list none. -/
theorem nextChild_spec (v : VfsState) (dir : Bytes) (i n : Nat) :
    match nextChild v dir i n with
    | none => listed v dir (i + n) = listed v dir i
    | some (child, next) => i < next ∧ next ≤ i + n ∧ child ≠ [] ∧
        childAt v dir (next - 1) = child ∧ listed v dir next = listed v dir i ++ [child] := by
  induction n generalizing i with
  | zero => rfl
  | succ n ih =>
    rw [nextChild]
    cases hl : listsChild v dir i with
    | some child =>
      obtain ⟨hc, he, -⟩ := listsChild_eq_some.mp hl
      refine ⟨Nat.lt_succ_self i, by omega, hc, he, ?_⟩
      rw [listed_succ, hl]
      rfl
    | none =>
      have hskip : listed v dir (i + 1) = listed v dir i := by
        rw [listed_succ, hl]
        exact List.append_nil _
      have ih := @ih (i + 1)
      dsimp only
      cases hnext : nextChild v dir (i + 1) n with
      | none =>
        rw [hnext] at ih
        dsimp only at ih ⊢
        rw [show i + (n + 1) = i + 1 + n by omega, ih, hskip]
      | some r =>
        obtain ⟨child, next⟩ := r
        rw [hnext] at ih
        obtain ⟨h1, h2, hc, he, hl'⟩ := ih
        refine ⟨by omega, by omega, hc, he, ?_⟩
        rw [hl', hskip]

/-- Nodes that are kept list what they listed. -/
theorem NodesKept.listed {v v' : VfsState} (h : NodesKept v v') {dir : Bytes} {n : Nat}
    (hn : n ≤ v.nodes.length) : listed v' dir n = listed v dir n := by
  have hchild : ∀ i < v.nodes.length, childAt v' dir i = childAt v dir i := by
    intro i hi
    obtain ⟨n', hn', hname, -⟩ := h i _ (List.getElem?_eq_getElem hi)
    rw [childAt_of_some hn', childAt_of_some (List.getElem?_eq_getElem hi)]
    unfold vfsDirectoryChildComponent vfsNodeMatchesDirectory
    rw [hname]
  unfold Vfs.listed
  refine List.filterMap_congr fun i hi => Option.ext fun child => ?_
  have hlt := List.mem_range.mp hi
  rw [listsChild_eq_some, listsChild_eq_some, hchild i (by omega)]
  refine and_congr_right fun _ => and_congr_right fun _ => ?_
  exact forall₂_congr fun j hj => by rw [hchild j (by omega)]

theorem NodesKept.length_le {v v' : VfsState} (h : NodesKept v v') :
    v.nodes.length ≤ v'.nodes.length := by
  by_contra hlt
  obtain ⟨n, hn, -⟩ := h v'.nodes.length _ (List.getElem?_eq_getElem (not_le.mp hlt))
  exact absurd (List.getElem?_eq_some_iff.mp hn).1 (lt_irrefl _)

/-! ## Normal forms -/

/-- The cells of the normal form of a path. -/
def cellsOf (path : Bytes) : List Bytes := (components (path.drop 1)).foldl pushCell []

theorem normalForm_eq (path : Bytes) :
    CellsOk (cellsOf path) ∧ normalForm path = render (cellsOf path) := by
  have hstart : CellsOk [] := ⟨fun _ h => absurd h List.not_mem_nil, fun _ h => by cases h⟩
  obtain ⟨hok, -, hout, -⟩ := foldl_cells (components (path.drop 1)) (fun _ hc => mem_components hc)
    hstart ⟨le_refl _, fun _ => rfl⟩
  refine ⟨hok, ?_⟩
  unfold normalForm cellsOf
  rw [normalizeLoop_eq (by simp), ← render_nil, hout]

theorem normalForm_head (path : Bytes) : (normalForm path).head? = some slash := by
  rw [(normalForm_eq path).2]
  rfl

/-! ## Descriptors of directories -/

/-- What a call may do to a descriptor. -/
inductive DescMoves (c : VfsCall) (id : Nat) (d : Desc) : Desc → Prop
  | same : DescMoves c id d d
  | opened {d' : Desc} (hc : d.kind = .closed)
      (hdir : d'.kind = .directory → d'.path.head? = some slash) : DescMoves c id d d'
  | closed (hc : c = .close id) : DescMoves c id d closedDesc
  | moved (offset : Nat) (h : d.kind = .initramfsFile ∨ ∃ length, c = .readdir id length) :
      DescMoves c id d { d with offset := offset }

theorem vfsAllocDescriptor_moves {v v₁ : VfsState} (hv : v₁.desc = v.desc) {d : Desc}
    (hdir : d.kind = .directory → d.path.head? = some slash) (c : VfsCall) (id : Nat) :
    DescMoves c id (v.desc id) ((vfsAllocDescriptor v₁ d).2.desc id) := by
  rw [← hv]
  rcases vfsAllocDescriptor_spec v₁ d with ⟨-, h⟩ | ⟨j, -, -, hclosed, h⟩
  · rw [h]
    exact .same
  · rw [h]
    unfold setVfsDesc
    by_cases hj : id = j
    · subst hj
      dsimp only
      rw [Function.update_self]
      exact .opened hclosed hdir
    · dsimp only
      rw [Function.update_of_ne hj]
      exact .same

theorem openPlan_directory {v : VfsState} {path p : Bytes} {flags : Int}
    (h : openPlan v path flags = .directory p) :
    path.head? = some slash ∧ p = normalForm path := by
  unfold openPlan at h
  by_cases hf : flags < 0 ∨ flags > 3
  · rw [if_pos hf] at h
    cases h
  by_cases hs : path.head? ≠ some slash
  · rw [if_neg hf, if_pos hs] at h
    cases h
  by_cases hroot : normalForm path = [slash]
  · rw [if_neg hf, if_neg hs, if_pos hroot] at h
    cases h
    exact ⟨not_not.mp hs, hroot.symm⟩
  rw [if_neg hf, if_neg hs, if_neg hroot] at h
  cases hl : vfsLookupPath v (normalForm path) with
  | none =>
    rw [hl] at h
    dsimp only at h
    split_ifs at h
    cases h
    exact ⟨not_not.mp hs, rfl⟩
  | some id =>
    obtain ⟨n, hn, -⟩ := vfsLookupPath_spec hl
    rw [hl] at h
    dsimp only at h
    rw [hn] at h
    dsimp only at h
    split_ifs at h
    cases h
    exact ⟨not_not.mp hs, rfl⟩

theorem setVfsDesc_moves {v : VfsState} {c : VfsCall} {j : Nat} {d : Desc}
    (h : DescMoves c j (v.desc j) d) (id : Nat) :
    DescMoves c id (v.desc id) ((setVfsDesc v j d).desc id) := by
  unfold setVfsDesc
  dsimp only
  by_cases hj : id = j
  · subst hj
    rwa [Function.update_self]
  · rw [Function.update_of_ne hj]
    exact .same

theorem vfsReadDescriptor_moves {v v' : VfsState} {input bytes : Bytes} {j length : Nat} {r : Int}
    (h : vfsReadDescriptor v input j length = .ok (r, bytes, v')) (id : Nat) :
    DescMoves (.read j length input) id (v.desc id) (v'.desc id) := by
  obtain rfl | ⟨h1, h32, -, offset, rfl⟩ := vfsReadDescriptor_advanced h
  · exact .same
  by_cases hk : (v.desc j).kind = .initramfsFile
  · exact setVfsDesc_moves (.moved offset (Or.inl hk)) id
  · -- only files have an offset that a read moves
    have hsame : setVfsDesc v j { v.desc j with offset := offset } = v := by
      unfold vfsReadDescriptor vfsDesc at h
      rw [if_neg (by omega), if_neg (by omega), ok_bind] at h
      cases hd : (v.desc j).kind with
      | initramfsFile => exact absurd hd hk
      | closed | consoleIn | consoleOut | directory =>
        rw [hd] at h
        exact (Prod.mk.inj (Prod.mk.inj (Except.ok.inj h)).2).2.symm
    rw [hsame]
    exact .same

theorem vfsCall_desc {s s' : VfsState × Heap} (hi : FsInv s.1 s.2) {c : VfsCall}
    (he : vfsCall s c = .ok s') (id : Nat) : DescMoves c id (s.1.desc id) (s'.1.desc id) := by
  cases c with
  | openPath path flags =>
    obtain ⟨⟨j, v, h⟩, ho, he⟩ := bind_eq_ok.mp he
    cases he
    have hr := ((vfsOpenPath_spec hi.heap s.1 path flags).of_ok ho).2
    have hfile : ∀ j, (fileDesc flags j).kind = .directory →
        (fileDesc flags j).path.head? = some slash := fun j h => by cases h
    cases hp : openPlan s.1 path flags with
    | refuse =>
      rw [hp] at hr
      cases hr
      exact .same
    | directory p =>
      rw [hp] at hr
      have hmoves := vfsAllocDescriptor_moves (v := s.1) rfl (d := ⟨.directory, 0, 0, 0, p⟩)
        (fun _ => (openPlan_directory hp).2 ▸ normalForm_head path) (.openPath path flags) id
      rwa [show vfsAllocDescriptor s.1 ⟨.directory, 0, 0, 0, p⟩ = (j, v) from Except.ok.inj hr]
        at hmoves
    | file nodeId =>
      rw [hp] at hr
      have hmoves := vfsAllocDescriptor_moves (v := s.1) rfl (hfile nodeId) (.openPath path flags) id
      rwa [Except.ok.inj hr] at hmoves
    | truncate nodeId =>
      rw [hp] at hr
      have hdesc : (truncateNode s.1 nodeId).desc = s.1.desc := by
        unfold truncateNode
        split <;> rfl
      have hmoves := vfsAllocDescriptor_moves hdesc (hfile nodeId) (.openPath path flags) id
      rwa [Except.ok.inj hr] at hmoves
    | create p =>
      rw [hp, runPlan] at hr
      split_ifs at hr
      have hdesc : (addNode s.1 (newFile p)).desc = s.1.desc := rfl
      have hmoves := vfsAllocDescriptor_moves hdesc (hfile s.1.nodes.length) (.openPath path flags) id
      rwa [Except.ok.inj hr] at hmoves
  | write j bytes =>
    obtain ⟨⟨r, v, h⟩, hw, he⟩ := bind_eq_ok.mp he
    cases he
    obtain ⟨-, rfl, -⟩ | ⟨n, ht, rfl, -⟩ := vfsWriteDescriptor_cases hi.heap hw
    · exact .same
    · obtain ⟨⟨-, -, hk, -⟩, -⟩ := writeTarget_eq_some.mp ht
      exact setVfsDesc_moves (v := writeNode s.1 s.2 (s.1.desc j).nodeId n (s.1.desc j).offset bytes)
        (.moved _ (Or.inl hk)) id
  | read j length input =>
    obtain ⟨⟨r, bytes, v⟩, hr, he⟩ := bind_eq_ok.mp he
    cases he
    exact vfsReadDescriptor_moves hr id
  | readdir j length =>
    obtain ⟨⟨r, bytes, v⟩, hr, he⟩ := bind_eq_ok.mp he
    cases he
    obtain rfl | ⟨-, -, -, offset, rfl⟩ := vfsReaddirDescriptor_advanced hr
    · exact .same
    · exact setVfsDesc_moves (.moved offset (Or.inr ⟨length, rfl⟩)) id
  | stat j =>
    obtain ⟨r, -, he⟩ := bind_eq_ok.mp he
    cases he
    exact .same
  | close j =>
    obtain ⟨⟨r, v⟩, hc, he⟩ := bind_eq_ok.mp he
    cases he
    obtain ⟨-, rfl⟩ | ⟨-, -, -, -, rfl⟩ := vfsCloseDescriptor_spec hc
    · exact .same
    · exact setVfsDesc_moves (.closed rfl) id
  | consoleIn =>
    cases he
    exact vfsAllocDescriptor_moves rfl (fun h => by cases h) _ id
  | consoleOut =>
    cases he
    exact vfsAllocDescriptor_moves rfl (fun h => by cases h) _ id
  | use size mem =>
    obtain ⟨⟨p, h⟩, ha, he⟩ := bind_eq_ok.mp he
    cases he
    exact .same

/-- The path of an open directory is absolute. -/
def DirsOk (v : VfsState) : Prop :=
  ∀ id, (v.desc id).kind = .directory → (v.desc id).path.head? = some slash

theorem VfsReachable.dirsOk {s : VfsState × Heap} (h : VfsReachable s) : DirsOk s.1 := by
  induction h with
  | init hok hlens he =>
    intro id hk
    rw [(initVfs_started hok hlens he).2.1] at hk
    cases hk
  | @call s s' c hs he ih =>
    intro id
    have hmoves := vfsCall_desc hs.inv he id
    generalize s'.1.desc id = d' at hmoves
    cases hmoves with
    | same => exact ih id
    | opened _ hdir => exact hdir
    | closed => exact fun hk => by cases hk
    | moved => exact ih id

/-! ## Reading a directory to its end -/

/-- A call that neither closes `d` nor reads its directory. -/
def Leaves (d : Nat) (c : VfsCall) : Prop := c ≠ .close d ∧ ∀ length, c ≠ .readdir d length

/-- A buffer of this length has room for every child of the directory of `d`. -/
def Fits (v : VfsState) (d length : Nat) : Prop :=
  ∀ child, Child v (v.desc d).path child → child.length ≤ length

/-- The names that directory reads of `d` have returned since `s₀`, with any other calls between
    them. -/
inductive Reads (d : Nat) (s₀ : VfsState × Heap) : List Bytes → VfsState × Heap → Prop
  | start : Reads d s₀ [] s₀
  | call {names : List Bytes} {s s' : VfsState × Heap} {c : VfsCall} (hr : Reads d s₀ names s)
      (hc : Leaves d c) (he : vfsCall s c = .ok s') : Reads d s₀ names s'
  | name {names : List Bytes} {s : VfsState × Heap} {length : Nat} {r : Int} {bytes : Bytes}
      {v : VfsState} (hr : Reads d s₀ names s) (hlen : Fits s.1 d length)
      (he : vfsReaddirDescriptor s.1 d length = .ok (r, bytes, v)) (hne : r ≠ 0) :
      Reads d s₀ (names ++ [bytes]) (v, s.2)

/-- A directory read that returns 0 finds no child from its offset on; one that returns a name
    has gone over the nodes up to the one that lists it. -/
theorem vfsReaddirDescriptor_spec {v v' : VfsState} {d length : Nat} {r : Int} {bytes : Bytes}
    (h1 : 1 ≤ d) (h32 : d ≤ maxVfsDescriptors) (hk : (v.desc d).kind = .directory)
    (hdir : (v.desc d).path.head? = some slash) (hle : (v.desc d).offset ≤ v.nodes.length)
    (hlen : Fits v d length) (he : vfsReaddirDescriptor v d length = .ok (r, bytes, v')) :
    (r = 0 ∧ listed v (v.desc d).path v.nodes.length = listed v (v.desc d).path (v.desc d).offset) ∨
      (r ≠ 0 ∧ ∃ next ≤ v.nodes.length, (v.desc d).offset < next ∧
        v' = setVfsDesc v d { v.desc d with offset := next } ∧
        listed v (v.desc d).path next =
          listed v (v.desc d).path (v.desc d).offset ++ [bytes]) := by
  have hnext := nextChild_spec v (v.desc d).path (v.desc d).offset
    (v.nodes.length - (v.desc d).offset)
  unfold vfsReaddirDescriptor vfsDesc at he
  rw [if_neg (by omega), if_neg (by omega), ok_bind, if_neg (not_not.mpr hk)] at he
  cases hc : nextChild v (v.desc d).path (v.desc d).offset
      (v.nodes.length - (v.desc d).offset) with
  | none =>
    rw [hc] at he hnext
    cases he
    dsimp only at hnext
    rw [Nat.add_sub_cancel' hle] at hnext
    exact Or.inl ⟨rfl, hnext⟩
  | some p =>
    obtain ⟨child, next⟩ := p
    rw [hc] at he hnext
    obtain ⟨hlt, hend, hne, hch, hl⟩ := hnext
    have hchild : Child v (v.desc d).path child :=
      (mem_listed_iff hdir).mp (mem_listed.mpr ⟨hne, next - 1, by omega, hch⟩)
    have htake : child.take length = child := List.take_of_length_le (hlen child hchild)
    have hpos := List.length_pos_iff.mpr hne
    dsimp only at he
    rw [htake] at he
    cases he
    exact Or.inr ⟨by omega, next, by omega, hlt, rfl, hl⟩

/-- Where a listing stands: the names are those of the nodes below the offset. -/
structure Listing (d : Nat) (s₀ : VfsState × Heap) (names : List Bytes) (s : VfsState × Heap) :
    Prop where
  reach : VfsReachable s
  kept : NodesKept s₀.1 s.1
  desc : ∃ offset ≤ s.1.nodes.length, s.1.desc d = { s₀.1.desc d with offset := offset } ∧
    names = listed s.1 (s₀.1.desc d).path offset

section

variable {d : Nat} {s₀ s : VfsState × Heap} {names : List Bytes}

/-- The descriptor of a directory stays as it is while others are used. -/
theorem DescMoves.directory {c : VfsCall} {a b : Desc} (h : DescMoves c d a b) (hc : Leaves d c)
    (hk : a.kind = .directory) : b = a := by
  cases h with
  | same => rfl
  | opened hclosed => rw [hk] at hclosed; cases hclosed
  | closed hclose => exact absurd hclose hc.1
  | moved _ hm =>
    rcases hm with hfile | ⟨length, hread⟩
    · rw [hk] at hfile; cases hfile
    · exact absurd hread (hc.2 length)

theorem Listing.call {s' : VfsState × Heap} {c : VfsCall} (h : Listing d s₀ names s)
    (hk : (s₀.1.desc d).kind = .directory) (hc : Leaves d c) (he : vfsCall s c = .ok s') :
    Listing d s₀ names s' := by
  obtain ⟨offset, hle, hdesc, hnames⟩ := h.desc
  obtain ⟨v, hn, hd⟩ := vfsCall_spec h.reach.inv he
  have hkept : NodesKept s.1 s'.1 := hn.kept.trans hd.kept
  have hsame := (vfsCall_desc h.reach.inv he d).directory hc (by rw [hdesc]; exact hk)
  refine ⟨.call h.reach he, h.kept.trans hkept, offset, hle.trans hkept.length_le,
    hsame.trans hdesc, ?_⟩
  rw [hkept.listed hle]
  exact hnames

theorem Listing.readdir {length : Nat} {r : Int} {bytes : Bytes} {v : VfsState}
    (h : Listing d s₀ names s) (hk : (s₀.1.desc d).kind = .directory) (hlen : Fits s.1 d length)
    (he : vfsReaddirDescriptor s.1 d length = .ok (r, bytes, v)) :
    (r = 0 ∧ names = listed s.1 (s₀.1.desc d).path s.1.nodes.length) ∨
      (r ≠ 0 ∧ Listing d s₀ (names ++ [bytes]) (v, s.2)) := by
  obtain ⟨offset, hle, hdesc, hnames⟩ := h.desc
  have hk' : (s.1.desc d).kind = .directory := by
    rw [hdesc]
    exact hk
  obtain ⟨h1, h32⟩ := h.reach.inv.range d (by rw [hk']; decide)
  have hspec := vfsReaddirDescriptor_spec h1 h32 hk' (h.reach.dirsOk d hk')
    (by rw [hdesc]; exact hle) hlen he
  rw [hdesc] at hspec
  dsimp only at hspec
  rw [← hnames] at hspec
  obtain ⟨rfl, hend⟩ | ⟨hne, next, hnext, -, hv, hl⟩ := hspec
  · exact Or.inl ⟨rfl, hend.symm⟩
  · refine Or.inr ⟨hne, h.reach.readdir he, ?_, next, ?_, ?_, ?_⟩
    · rw [hv]
      exact h.kept
    · rw [hv]
      exact hnext
    · rw [hv]
      exact Function.update_self _ _ _
    · rw [hv]
      exact hl.symm

theorem Reads.listing (hr : Reads d s₀ names s) (hs : VfsReachable s₀)
    (hk : (s₀.1.desc d).kind = .directory) (h0 : (s₀.1.desc d).offset = 0) :
    Listing d s₀ names s := by
  induction hr with
  | start => exact ⟨hs, NodesKept.refl _, 0, Nat.zero_le _, by rw [← h0], rfl⟩
  | call _ hc he ih => exact ih.call hk hc he
  | name _ hlen he hne ih =>
    obtain ⟨h, -⟩ | ⟨-, h⟩ := ih.readdir hk hlen he
    · exact absurd h hne
    · exact h

/-- The names are complete when the next directory read returns 0. -/
theorem Reads.complete {length : Nat} {bytes : Bytes} {v : VfsState} (hr : Reads d s₀ names s)
    (hs : VfsReachable s₀) (hk : (s₀.1.desc d).kind = .directory) (h0 : (s₀.1.desc d).offset = 0)
    (hlen : Fits s.1 d length) (he : vfsReaddirDescriptor s.1 d length = .ok (0, bytes, v)) :
    names = listed s.1 (s₀.1.desc d).path s.1.nodes.length := by
  obtain ⟨-, hnames⟩ | ⟨hne, -⟩ := (hr.listing hs hk h0).readdir hk hlen he
  · exact hnames
  · exact absurd rfl hne

theorem vfsStatDescriptor_directory {v : VfsState} (h1 : 1 ≤ d) (h32 : d ≤ maxVfsDescriptors)
    (hk : (v.desc d).kind = .directory) : vfsStatDescriptor v d =
      .ok (0, [NodeKind.directory.code, vfsDirectoryChildCount v (v.desc d).path]) := by
  unfold vfsStatDescriptor vfsDesc
  rw [if_neg (by omega), if_neg (by omega), ok_bind, hk]

/-- From a directory descriptor at its start, with any calls between the directory reads: the
    names returned before the first 0 are distinct, and are the first components below the
    directory in the names of the nodes there are then. Their number is the size `stat` reports
    then, and the size it reported at the start when no file was created. -/
theorem readdir_exact {length : Nat} {bytes : Bytes} {v : VfsState} (hs : VfsReachable s₀)
    (hk : (s₀.1.desc d).kind = .directory) (h0 : (s₀.1.desc d).offset = 0)
    (hr : Reads d s₀ names s) (hlen : Fits s.1 d length)
    (he : vfsReaddirDescriptor s.1 d length = .ok (0, bytes, v)) :
    names.Nodup ∧ (∀ child, child ∈ names ↔ Child s.1 (s₀.1.desc d).path child) ∧
      vfsStatDescriptor s.1 d = .ok (0, [NodeKind.directory.code, names.length]) ∧
      (s.1.nodes.length = s₀.1.nodes.length →
        vfsStatDescriptor s₀.1 d = .ok (0, [NodeKind.directory.code, names.length])) := by
  have hl := hr.listing hs hk h0
  have hnames := hr.complete hs hk h0 hlen he
  obtain ⟨offset, -, hdesc, -⟩ := hl.desc
  obtain ⟨h1, h32⟩ := hs.inv.range d (by rw [hk]; decide)
  refine ⟨?_, fun child => ?_, ?_, fun hsame => ?_⟩
  · rw [hnames]
    exact nodup_listed ..
  · rw [hnames]
    exact mem_listed_iff (hs.dirsOk d hk)
  · rw [vfsStatDescriptor_directory h1 h32 (by rw [hdesc]; exact hk), hdesc, hnames, length_listed]
  · rw [vfsStatDescriptor_directory h1 h32 hk, hnames, hsame, hl.kept.listed (le_refl _),
      length_listed]

theorem fits_of_listed {v : VfsState} {length : Nat} (hdir : (v.desc d).path.head? = some slash)
    (h : ∀ child ∈ listed v (v.desc d).path v.nodes.length, child.length ≤ length) :
    Fits v d length :=
  fun child hc => h child ((mem_listed_iff hdir).mpr hc)

end

/-- One directory read with a buffer that has room. -/
def readRoot (s : VfsState × Heap) : Except String (Int × Bytes × VfsState) := do
  if (s.1.desc 1).path.head? = some slash ∧
      ∀ child ∈ listed s.1 (s.1.desc 1).path s.1.nodes.length, child.length ≤ 64 then
    vfsReaddirDescriptor s.1 1 64
  else .error ""

theorem readRoot_eq_ok {s : VfsState × Heap} {r : Int × Bytes × VfsState}
    (h : readRoot s = .ok r) : Fits s.1 1 64 ∧ vfsReaddirDescriptor s.1 1 64 = .ok r := by
  unfold readRoot at h
  split_ifs at h with hfits
  exact ⟨fits_of_listed hfits.1 hfits.2, h⟩

/-- The root is read to its end, and `/tmp/x` is made in between. -/
def smallListing : Except String Unit := do
  let s₀ ← smallRun [.openPath [47] 0]
  let (r₁, a, v₁) ← readRoot s₀
  let s₂ ← vfsCall (v₁, s₀.2) (.openPath tmpX 1)
  let (r₃, b, v₃) ← readRoot s₂
  let (r₄, c, v₄) ← readRoot (v₃, s₂.2)
  let (r₅, e, _) ← readRoot (v₄, s₂.2)
  if ((s₀.1.desc 1).kind = .directory ∧ (s₀.1.desc 1).offset = 0) ∧
    (r₁ ≠ 0 ∧ r₃ ≠ 0 ∧ r₄ ≠ 0 ∧ r₅ = 0 ∧ e = []) ∧
    a = [97] ∧ b = [98] ∧ c = [116, 109, 112] then .ok () else .error ""

/-- A listing of the root during which `/tmp/x` is created. -/
theorem readdir_exact_root : ∃ s₀ s names, smallRun [.openPath [47] 0] = .ok s₀ ∧
    Reads 1 s₀ names s ∧ names = [[97], [98], [116, 109, 112]] ∧ names.Nodup ∧
    ∀ child, child ∈ names ↔ Child s.1 (s₀.1.desc 1).path child := by
  obtain ⟨u, hu⟩ := exists_ok_of_isOk (x := smallListing) (by decide +kernel)
  unfold smallListing at hu
  obtain ⟨s₀, h₀, hu⟩ := bind_eq_ok.mp hu
  obtain ⟨⟨r₁, a, v₁⟩, h₁, hu⟩ := bind_eq_ok.mp hu
  obtain ⟨s₂, h₂, hu⟩ := bind_eq_ok.mp hu
  obtain ⟨⟨r₃, b, v₃⟩, h₃, hu⟩ := bind_eq_ok.mp hu
  obtain ⟨⟨r₄, c, v₄⟩, h₄, hu⟩ := bind_eq_ok.mp hu
  obtain ⟨⟨r₅, e, v₅⟩, h₅, hu⟩ := bind_eq_ok.mp hu
  dsimp only at hu
  split_ifs at hu with hall
  obtain ⟨⟨hk, hoff⟩, ⟨hr₁, hr₃, hr₄, rfl, rfl⟩, rfl, rfl, rfl⟩ := hall
  obtain ⟨f₁, e₁⟩ := readRoot_eq_ok h₁
  obtain ⟨f₃, e₃⟩ := readRoot_eq_ok h₃
  obtain ⟨f₄, e₄⟩ := readRoot_eq_ok h₄
  obtain ⟨f₅, e₅⟩ := readRoot_eq_ok h₅
  have hopen : Leaves 1 (.openPath tmpX 1) :=
    ⟨(fun h => by cases h), fun _ h => by cases h⟩
  have hreads := (((Reads.start.name f₁ e₁ hr₁).call hopen h₂).name f₃ e₃ hr₃).name f₄ e₄ hr₄
  have hexact := readdir_exact (smallRun_reachable h₀) hk hoff hreads f₅ e₅
  exact ⟨s₀, _, _, h₀, hreads, rfl, hexact.1, hexact.2.1⟩

/-- The second entry is `/bcdefgh` with -48 bytes of data, and `/a` has 32. -/
def negativeName : List Nat := negativeWords 32 8 0x686766656463622f 48

/-- The path of the new file is stored over the name of `/bcdefgh`: it becomes a name below `/tmp`,
    and the listing leaves out `tmp`, which it has not returned. -/
theorem negative_length_unlists : ∃ names nodes s,
    ImagePlaced (negativeStart negativeName).heap 0x800000 144 ∧
    listRaw (negativeStart negativeName) = .ok ((names, 0, nodes), s) ∧
    ¬ ∀ child, child ∈ names ↔ ∃ name ∈ nodes, child = (name.drop 1).takeWhile (· ≠ slash) := by
  obtain ⟨b, hb⟩ := exists_ok_of_isOk (x := listRaw (negativeStart negativeName) >>= fun r =>
    if r.1.2.1 = 0 ∧ tmpName ∈ r.1.2.2 ∧ [116, 109, 112] ∉ r.1.1 then .ok () else .error "")
    (by decide +kernel)
  obtain ⟨⟨⟨names, last, nodes⟩, s⟩, hr, hb⟩ := bind_eq_ok.mp hb
  split_ifs at hb with hmissing
  obtain ⟨rfl, htmp, hnot⟩ := hmissing
  refine ⟨names, nodes, s, imagePlaced_negative _ (by decide), hr, fun hexact => hnot ?_⟩
  exact (hexact _).mpr ⟨tmpName, htmp, by decide⟩

end PcoOs.Vfs
