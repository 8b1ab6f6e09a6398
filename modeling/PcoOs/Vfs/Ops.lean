/-
  What the operations of the file system do. Opening is split into a decision that changes
  nothing (`openPlan`) and its execution (`runPlan`); `vfsOpenPath_spec` says that the source does
  the two, and fails only for lack of heap or with a full node table. `vfsWriteDescriptor_file`
  and `vfsReadDescriptor_file` say what writing and reading a file do, `vfsWriteDescriptor_cases`
  what any write that returns has done.
-/
import PcoOs.Vfs.Model

namespace PcoOs.Vfs

open PcoOs.Lib PcoOs.Support

/-! ## Descriptors -/

/-- No descriptor is free. -/
def DescsFull (v : VfsState) : Prop :=
  ∀ id, 1 ≤ id → id ≤ maxVfsDescriptors → (v.desc id).kind ≠ .closed

theorem findClosed_spec (v : VfsState) {id : Nat} (h0 : 0 < id) (n : Nat) :
    (findClosed v id n = 0 ∧ ∀ j, id ≤ j → j < id + n → (v.desc j).kind ≠ .closed) ∨
      (id ≤ findClosed v id n ∧ findClosed v id n < id + n ∧
        (v.desc (findClosed v id n)).kind = .closed) := by
  induction n generalizing id with
  | zero => exact Or.inl ⟨rfl, fun j h1 h2 => by omega⟩
  | succ n ih =>
    rw [findClosed]
    split_ifs with hk
    · exact Or.inr ⟨le_refl _, by omega, hk⟩
    · rcases @ih (id + 1) (Nat.succ_pos id) with ⟨he, hall⟩ | ⟨h1, h2, h3⟩
      · refine Or.inl ⟨he, fun j hj hlt => ?_⟩
        by_cases hji : j = id
        · rwa [hji]
        · exact hall j (by omega) (by omega)
      · exact Or.inr ⟨by omega, by omega, h3⟩

/-- An allocation takes a closed descriptor, or changes nothing and returns 0. -/
theorem vfsAllocDescriptor_spec (v : VfsState) (d : Desc) :
    (DescsFull v ∧ vfsAllocDescriptor v d = (0, v)) ∨
      ∃ id, 1 ≤ id ∧ id ≤ maxVfsDescriptors ∧ (v.desc id).kind = .closed ∧
        vfsAllocDescriptor v d = (id, setVfsDesc v id d) := by
  unfold vfsAllocDescriptor
  dsimp only
  rcases findClosed_spec v Nat.one_pos maxVfsDescriptors with ⟨he, hall⟩ | ⟨h1, h2, h3⟩
  · rw [he, if_pos rfl]
    exact Or.inl ⟨fun id h1 h2 => hall id h1 (by omega), rfl⟩
  · rw [if_neg (by omega)]
    exact Or.inr ⟨_, h1, by omega, h3, rfl⟩

theorem vfsCloseDescriptor_spec {v v' : VfsState} {id : Nat} {r : Int}
    (h : vfsCloseDescriptor v id = .ok (r, v')) :
    (r = -1 ∧ v' = v) ∨ (r = 0 ∧ 1 ≤ id ∧ id ≤ maxVfsDescriptors ∧ (v.desc id).kind ≠ .closed ∧
      v' = setVfsDesc v id closedDesc) := by
  unfold vfsCloseDescriptor at h
  by_cases h0 : id = 0
  · rw [if_pos h0] at h
    cases h
    exact Or.inl ⟨rfl, rfl⟩
  · rw [if_neg h0] at h
    obtain ⟨d, hd, h⟩ := bind_eq_ok.mp h
    unfold vfsDesc at hd
    split_ifs at hd with hr
    cases hd
    split_ifs at h with hk
    · cases h
      exact Or.inl ⟨rfl, rfl⟩
    · cases h
      exact Or.inr ⟨rfl, by omega, by omega, hk, rfl⟩

/-! ## Opening -/

/-- The normal form the kernel computes of an absolute path. -/
def normalForm (path : Bytes) : Bytes := normalizeLoop path.length (path.drop 1) [slash]

/-- The directory a path lies in. -/
def parentPath (path : Bytes) : Bytes :=
  let parent := (path.reverse.dropWhile (· ≠ slash)).reverse.dropLast
  if parent = [] then [slash] else parent

/-- The parent of `path` is a directory new files may be put in. -/
def canCreate (v : VfsState) (path : Bytes) : Bool :=
  path.length > 1 && ((vfsLookupPath v (parentPath path)).bind (v.nodes[·]?)).any fun p =>
    p.kind = .directory ∧ p.flags &&& nodeFlagWritable ≠ 0

/-- What an open is going to do. -/
inductive OpenPlan where
  | refuse
  | directory (path : Bytes)
  | file (nodeId : Nat)
  | truncate (nodeId : Nat)
  | create (path : Bytes)
  deriving DecidableEq

def openPlan (v : VfsState) (path : Bytes) (flags : Int) : OpenPlan :=
  if flags < 0 ∨ flags > 3 then .refuse
  else if path.head? ≠ some slash then .refuse
  else if normalForm path = [slash] then .directory [slash]
  else match vfsLookupPath v (normalForm path) with
  | none =>
    if flags.toNat &&& 1 ≠ 0 ∧ canCreate v (normalForm path) then .create (normalForm path)
    else if vfsDirectoryExists v (normalForm path) then .directory (normalForm path)
    else .refuse
  | some nodeId => match v.nodes[nodeId]? with
    | none => .refuse
    | some n =>
      if n.kind = .directory then .directory (normalForm path)
      else if flags.toNat &&& 2 ≠ 0 ∧ n.flags &&& nodeFlagWritable ≠ 0 then .truncate nodeId
      else .file nodeId

/-- The file descriptor of an open file. -/
def fileDesc (flags : Int) (nodeId : Nat) : Desc := ⟨.initramfsFile, flags, nodeId, 0, []⟩

def truncateNode (v : VfsState) (nodeId : Nat) : VfsState :=
  match v.nodes[nodeId]? with
  | none => v
  | some n => setVfsNode v nodeId { n with dataLen := 0 }

/-- The node of a new file. -/
def newFile (path : Bytes) : Node := ⟨path, 0, 0, .file, nodeFlagWritable, 0⟩

def addNode (v : VfsState) (n : Node) : VfsState := { v with nodes := v.nodes ++ [n] }

def runPlan (v : VfsState) (flags : Int) : OpenPlan → Except String (Nat × VfsState)
  | .refuse => .ok (0, v)
  | .directory path => .ok (vfsAllocDirectoryDescriptor v path 0)
  | .file nodeId => .ok (vfsAllocDescriptor v (fileDesc flags nodeId))
  | .truncate nodeId => .ok (vfsAllocDescriptor (truncateNode v nodeId) (fileDesc flags nodeId))
  | .create path =>
    if v.nodes.length ≥ maxVfsNodes then .error "vfs node table full"
    else .ok (vfsAllocDescriptor (addNode v (newFile path)) (fileDesc flags v.nodes.length))

theorem length_dropComponent (out : Bytes) : (dropComponent out).length ≤ out.length := by
  unfold dropComponent
  split_ifs
  · exact List.length_take_le' _ _
  · exact le_refl _

theorem length_normalizeLoop (n : Nat) (src out : Bytes) :
    (normalizeLoop n src out).length ≤ out.length + 2 * src.length := by
  induction n generalizing src out with
  | zero => rw [normalizeLoop]; omega
  | succ n ih =>
    rw [normalizeLoop]
    have hle : (src.dropWhile (· = slash)).length ≤ src.length := (List.dropWhile_suffix _).length_le
    cases hs : src.dropWhile (· = slash) with
    | nil => rw [if_pos rfl]; omega
    | cons b s =>
      rw [if_neg (List.cons_ne_nil _ _)]
      rw [hs] at hle
      have hsplit := congrArg List.length
        (List.takeWhile_append_dropWhile (p := (· ≠ slash)) (l := b :: s))
      have hb : b ≠ slash := by
        have := List.head?_dropWhile_not (fun c : UInt8 => decide (c = slash)) src
        rw [hs] at this
        simpa using this
      have hpos : 0 < ((b :: s).takeWhile (· ≠ slash)).length := by
        rw [List.takeWhile_cons_of_pos (by simpa using hb), List.length_cons]
        omega
      rw [List.length_append] at hsplit
      have hpush : ∀ c : Bytes, (pushComponent out c).length ≤ out.length + 1 + c.length := by
        intro c
        have := length_dropComponent out
        unfold pushComponent
        split_ifs <;> simp <;> omega
      have hp := hpush ((b :: s).takeWhile (· ≠ slash))
      have := ih ((b :: s).dropWhile (· ≠ slash)) (pushComponent out ((b :: s).takeWhile (· ≠ slash)))
      omega

theorem length_normalForm (path : Bytes) : (normalForm path).length ≤ 2 * path.length + 1 := by
  have := length_normalizeLoop path.length (path.drop 1) [slash]
  have hd := List.length_drop (i := 1) (l := path)
  unfold normalForm
  simp only [List.length_singleton] at this
  omega

theorem vfsNormalizePath_spec {h : Heap} (hok : HeapOk h) {path : Bytes}
    (hs : path.head? = some slash) :
    Ends (vfsNormalizePath h path)
      (fun r => r.1 = some (normalForm path) ∧ HeapMoves h r.2 ∧ r.2.ptr < h.ptr + path.length + 18)
      (fun _ => h.stop < h.ptr + path.length + 18) := by
  unfold vfsNormalizePath
  rw [if_neg (not_not.mpr hs)]
  refine ends_bind ((allocBytes_spec hok (n := (path.length : Int) + 2) (by omega)).mono
    (fun _ h => h) fun _ he => by omega) ?_
  rintro ⟨p, h'⟩ ⟨-, hok', hg, -, hlt⟩
  exact ⟨rfl, ⟨hok', hg⟩, by dsimp only at hlt ⊢; omega⟩

theorem vfsPathParent_spec {h : Heap} (hok : HeapOk h) (path : Bytes) :
    Ends (vfsPathParent h path)
      (fun r => r.1 = parentPath path ∧ HeapMovesBy h r.2 (path.length + 18))
      (fun _ => h.stop < h.ptr + path.length + 18) := by
  have hlen : (path.reverse.dropWhile (· ≠ slash)).reverse.dropLast.length ≤ path.length := by
    have := (List.dropWhile_suffix (l := path.reverse) fun c => decide (c ≠ slash)).length_le
    simp at this ⊢
    omega
  unfold vfsPathParent parentPath
  dsimp only
  split_ifs with hp
  · refine ends_bind ((allocBytes_spec hok (n := 2) (by norm_num)).mono (fun _ h => h)
      fun _ he => by omega) ?_
    rintro ⟨p, h'⟩ ⟨-, hok', hg, -, hlt⟩
    exact ⟨rfl, ⟨hok', hg⟩, by dsimp only at hlt ⊢; omega⟩
  · refine ends_bind ((allocBytes_spec hok
      (n := (((path.reverse.dropWhile (· ≠ slash)).reverse.dropLast.length : Nat) : Int) + 1)
      (by omega)).mono (fun _ h => h) fun _ he => by omega) ?_
    rintro ⟨p, h'⟩ ⟨-, hok', hg, -, hlt⟩
    exact ⟨rfl, ⟨hok', hg⟩, by dsimp only at hlt ⊢; omega⟩

/-- The node of an id that was looked up. -/
theorem vfsLookupPath_spec {v : VfsState} {path : Bytes} {id : Nat}
    (h : vfsLookupPath v path = some id) : ∃ n, v.nodes[id]? = some n ∧ n.name = path := by
  unfold vfsLookupPath at h
  obtain ⟨hlt, hp, -⟩ := List.findIdx?_eq_some_iff_getElem.mp h
  exact ⟨_, List.getElem?_eq_getElem hlt, of_decide_eq_true hp⟩

theorem vfsNode_spec {v : VfsState} {id : Nat} {n : Node} (hn : v.nodes[id]? = some n) :
    Ends (vfsNode v id) (fun r => r = n) (fun _ => maxVfsNodes < v.nodes.length) := by
  obtain ⟨hlt, rfl⟩ := List.getElem?_eq_some_iff.mp hn
  unfold vfsNode
  split_ifs with h
  · exact lt_of_le_of_lt h hlt
  · rw [ends_ok, List.getD_eq_getElem _ _ hlt]

/-- Creating a file: none without a writable parent, else a new node. -/
theorem vfsCreateTmpfsFile_spec {h : Heap} (hok : HeapOk h) (v : VfsState) (path : Bytes) :
    Ends (vfsCreateTmpfsFile v h path)
      (fun r => HeapMovesBy h r.2.2 (path.length + 18) ∧ (if canCreate v path = true then
        v.nodes.length < maxVfsNodes ∧ r.1 = some v.nodes.length ∧ r.2.1 = addNode v (newFile path)
        else r.1 = none ∧ r.2.1 = v))
      (fun _ => h.stop < h.ptr + path.length + 18 ∨ maxVfsNodes < v.nodes.length ∨
        (canCreate v path = true ∧ maxVfsNodes ≤ v.nodes.length)) := by
  unfold vfsCreateTmpfsFile canCreate
  by_cases hlen : path.length ≤ 1
  · rw [if_pos hlen]
    simp [show ¬ path.length > 1 by omega, HeapMovesBy.refl hok]
  · rw [if_neg hlen]
    refine ends_bind ((vfsPathParent_spec hok path).mono (fun _ h => h) fun _ he => Or.inl he) ?_
    rintro ⟨parent, h₁⟩ ⟨hparent, hm⟩
    dsimp only at hparent hm ⊢
    rw [hparent, show decide (path.length > 1) = true from decide_eq_true (by omega), Bool.true_and]
    cases hl : vfsLookupPath v (parentPath path) with
    | none => exact ⟨hm, by simp⟩
    | some id =>
      obtain ⟨n, hn, -⟩ := vfsLookupPath_spec hl
      dsimp only
      refine ends_bind ((vfsNode_spec hn).mono (fun _ h => h) fun _ he => Or.inr (Or.inl he)) ?_
      rintro p rfl
      rw [Option.bind_some, hn, Option.any_some]
      by_cases hw : p.kind ≠ .directory ∨ p.flags &&& nodeFlagWritable = 0
      · rw [if_pos hw, decide_eq_false (by tauto)]
        exact ⟨hm, rfl, rfl⟩
      · rw [if_neg hw, decide_eq_true (by tauto)]
        by_cases hfull : v.nodes.length ≥ maxVfsNodes
        · rw [if_pos hfull]
          exact Or.inr (Or.inr ⟨rfl, hfull⟩)
        · rw [if_neg hfull]
          exact ⟨hm, not_le.mp hfull, rfl, rfl⟩

/-- The create flag: a new node when it is set and the parent allows it. -/
theorem createIfAsked_spec {h : Heap} (hok : HeapOk h) (v : VfsState) (path : Bytes) (flags : Int) :
    Ends (createIfAsked v h path flags)
      (fun r => HeapMovesBy h r.2.2 (path.length + 18) ∧
        (if flags.toNat &&& 1 ≠ 0 ∧ canCreate v path = true then
          v.nodes.length < maxVfsNodes ∧ r.1 = some v.nodes.length ∧
            r.2.1 = addNode v (newFile path)
        else r.1 = none ∧ r.2.1 = v))
      (fun _ => h.stop < h.ptr + path.length + 18 ∨ maxVfsNodes < v.nodes.length ∨
        ((flags.toNat &&& 1 ≠ 0 ∧ canCreate v path = true) ∧ maxVfsNodes ≤ v.nodes.length)) := by
  unfold createIfAsked
  by_cases h1 : flags.toNat &&& 1 ≠ 0
  · rw [if_pos h1]
    refine (vfsCreateTmpfsFile_spec hok v path).mono ?_ ?_
    · rintro r ⟨hm, hr⟩
      refine ⟨hm, ?_⟩
      by_cases hc : canCreate v path = true
      · rw [if_pos hc] at hr
        rwa [if_pos ⟨h1, hc⟩]
      · rw [if_neg hc] at hr
        rwa [if_neg fun h => hc h.2]
    · rintro - (he | he | he)
      · exact Or.inl he
      · exact Or.inr (Or.inl he)
      · exact Or.inr (Or.inr ⟨⟨h1, he.1⟩, he.2⟩)
  · rw [if_neg h1]
    refine ⟨HeapMovesBy.refl hok _, ?_⟩
    rw [if_neg fun h => h1 h.1]
    exact ⟨rfl, rfl⟩

/-- Opening decides and then acts on the decision. -/
theorem vfsOpenPath_spec {h : Heap} (hok : HeapOk h) (v : VfsState) (path : Bytes) (flags : Int) :
    Ends (vfsOpenPath v h path flags)
      (fun r => HeapMovesBy h r.2.2 (3 * path.length + 64) ∧
        runPlan v flags (openPlan v path flags) = .ok (r.1, r.2.1))
      (fun _ => h.stop < h.ptr + 3 * path.length + 64 ∨ maxVfsNodes < v.nodes.length ∨
        ((∃ p, openPlan v path flags = .create p) ∧ maxVfsNodes ≤ v.nodes.length)) := by
  unfold vfsOpenPath openPlan
  by_cases hf : flags < 0 ∨ flags > 3
  · rw [if_pos hf, if_pos hf]
    exact ⟨HeapMovesBy.refl hok _, rfl⟩
  rw [if_neg hf, if_neg hf]
  by_cases hs : path.head? ≠ some slash
  · rw [if_pos hs]
    by_cases hp : path = []
    · rw [if_pos hp]
      exact ⟨HeapMovesBy.refl hok _, rfl⟩
    · rw [if_neg hp]
      unfold vfsNormalizePath
      rw [if_pos hs, ok_bind]
      exact ⟨HeapMovesBy.refl hok _, rfl⟩
  rw [if_neg hs, if_neg (by rintro rfl; exact hs (by decide))]
  have hlen := length_normalForm path
  refine ends_bind ((vfsNormalizePath_spec hok (not_not.mp hs)).mono (fun _ h => h)
    fun _ he => Or.inl (by omega)) ?_
  rintro ⟨r, h₁⟩ ⟨hr, hm, hlt⟩
  dsimp only at hr hm hlt
  rw [hr]
  dsimp only
  have hstop := hm.2.stop
  have hby : HeapMovesBy h h₁ (3 * path.length + 64) := ⟨hm, by omega⟩
  by_cases hroot : normalForm path = [slash]
  · rw [if_pos hroot, if_pos hroot, hroot]
    exact ⟨hby, rfl⟩
  rw [if_neg hroot, if_neg hroot]
  cases hl : vfsLookupPath v (normalForm path) with
  | some id =>
    obtain ⟨n, hn, -⟩ := vfsLookupPath_spec hl
    dsimp only
    rw [hn]
    refine ends_bind ((vfsNode_spec hn).mono (fun _ h => h) fun _ he => Or.inr (Or.inl he)) ?_
    rintro n rfl
    dsimp only
    by_cases hk : n.kind = .directory
    · rw [if_pos hk, if_pos hk]
      exact ⟨hby, rfl⟩
    rw [if_neg hk, if_neg hk]
    by_cases ht : flags.toNat &&& 2 ≠ 0 ∧ n.flags &&& nodeFlagWritable ≠ 0
    · rw [if_pos ht, if_pos ht]
      refine ⟨hby, ?_⟩
      rw [runPlan, truncateNode, hn]
      rfl
    · rw [if_neg ht, if_neg ht]
      exact ⟨hby, rfl⟩
  | none =>
    dsimp only
    refine ends_bind ((createIfAsked_spec hm.1 v (normalForm path) flags).mono (fun _ h => h) ?_) ?_
    · rintro - (he | he | ⟨hc, he⟩)
      · exact Or.inl (by omega)
      · exact Or.inr (Or.inl he)
      · exact Or.inr (Or.inr ⟨⟨_, if_pos hc⟩, he⟩)
    rintro ⟨node, v₁, h₂⟩ ⟨hm₂, hr⟩
    dsimp only at hm₂ hr ⊢
    have hby₂ : HeapMovesBy h h₂ (3 * path.length + 64) := by
      refine ⟨hm.trans hm₂.1, ?_⟩
      have := hm₂.2
      omega
    by_cases hc : flags.toNat &&& 1 ≠ 0 ∧ canCreate v (normalForm path) = true
    · rw [if_pos hc] at hr ⊢
      obtain ⟨hlt₂, rfl, rfl⟩ := hr
      refine ⟨hby₂, ?_⟩
      rw [runPlan, if_neg (not_le.mpr hlt₂)]
      rfl
    · rw [if_neg hc] at hr ⊢
      obtain ⟨rfl, rfl⟩ := hr
      dsimp only
      split_ifs
      · exact ⟨hby₂, rfl⟩
      · exact ⟨hby₂, rfl⟩

/-! ## Reading and writing -/

/-- The size of the buffer `vfs_grow_node_data` makes for `minCapacity` bytes. -/
def growCapacity (n : Node) (minCapacity : Nat) : Nat :=
  let c := if minCapacity < 64 then 64 else minCapacity
  if n.dataCapacity ≠ 0 ∧ c < n.dataCapacity * 2 then n.dataCapacity * 2 else c

theorem le_growCapacity (n : Node) (c : Nat) : c ≤ growCapacity n c := by
  unfold growCapacity
  dsimp only
  split_ifs <;> omega

/-- A node with room for `c` bytes; a new buffer starts at the heap pointer. -/
def grownNode (h : Heap) (n : Node) (c : Nat) : Node :=
  if c ≤ n.dataCapacity then n
  else { n with dataPtr := h.ptr, dataCapacity := growCapacity n c }

@[simp] theorem grownNode_name (h : Heap) (n : Node) (c : Nat) : (grownNode h n c).name = n.name := by
  unfold grownNode
  split_ifs <;> rfl

@[simp] theorem grownNode_dataLen (h : Heap) (n : Node) (c : Nat) :
    (grownNode h n c).dataLen = n.dataLen := by
  unfold grownNode
  split_ifs <;> rfl

@[simp] theorem grownNode_kind (h : Heap) (n : Node) (c : Nat) : (grownNode h n c).kind = n.kind := by
  unfold grownNode
  split_ifs <;> rfl

@[simp] theorem grownNode_flags (h : Heap) (n : Node) (c : Nat) :
    (grownNode h n c).flags = n.flags := by
  unfold grownNode
  split_ifs <;> rfl

def grownMem (v : VfsState) (h : Heap) (n : Node) (c : Nat) : Mem :=
  if c ≤ n.dataCapacity then v.mem else copyBytes v.mem h.ptr n.dataPtr n.dataLen

/-- The node table and the buffers after `bytes` were written to node `id` at `offset`. -/
def writeNode (v : VfsState) (h : Heap) (id : Nat) (n : Node) (offset : Nat) (bytes : Bytes) :
    VfsState :=
  let n' := grownNode h n (offset + bytes.length)
  { v with
    nodes := v.nodes.set id { n' with dataLen := max n.dataLen (offset + bytes.length) }
    mem := storeBytes (grownMem v h n (offset + bytes.length)) (n'.dataPtr + offset) bytes }

/-- The heap has moved past the new buffer, if there is one. -/
def Grown (h h' : Heap) (n : Node) (c : Nat) : Prop :=
  HeapMoves h h' ∧ (n.dataCapacity < c → h.ptr + growCapacity n c ≤ h'.ptr)

theorem vfsGrowNodeData_spec {h : Heap} (hok : HeapOk h) {v : VfsState} {id : Nat} {n : Node}
    (hn : v.nodes[id]? = some n) (c : Nat) :
    Ends (vfsGrowNodeData v h id c)
      (fun r => r.1 = (grownNode h n c).dataPtr ∧ r.2.1 = { v with
        nodes := v.nodes.set id (grownNode h n c), mem := grownMem v h n c } ∧ Grown h r.2.2 n c)
      (fun _ => maxVfsNodes < v.nodes.length ∨
        (n.dataCapacity < c ∧ h.stop < h.ptr + growCapacity n c + 16)) := by
  unfold vfsGrowNodeData
  refine ends_bind ((vfsNode_spec hn).mono (fun _ h => h) fun _ he => Or.inl he) ?_
  rintro n rfl
  unfold grownNode grownMem Grown
  by_cases hc : c ≤ n.dataCapacity
  · obtain ⟨hlt, rfl⟩ := List.getElem?_eq_some_iff.mp hn
    rw [if_pos hc, if_pos hc, if_pos hc, List.set_getElem_self]
    exact ⟨rfl, rfl, HeapMoves.refl hok, fun hlt => absurd hlt (not_lt.mpr hc)⟩
  · rw [if_neg hc, if_neg hc, if_neg hc]
    dsimp only
    refine ends_bind ((allocBytes_spec hok (n := ((growCapacity n c : Nat) : Int))
      (by omega)).mono (fun _ h => h) fun _ he => Or.inr ⟨not_le.mp hc, by omega⟩) ?_
    rintro ⟨p, h'⟩ ⟨hp, hok', hg, hle, -⟩
    dsimp only at hp hok' hle
    rw [hp]
    exact ⟨rfl, rfl, ⟨hok', hg⟩, fun _ => by dsimp only; omega⟩

/-- Writing to a writable file. -/
theorem vfsWriteDescriptor_file {h : Heap} (hok : HeapOk h) {v : VfsState} {id : Nat} {n : Node}
    (h1 : 1 ≤ id) (h32 : id ≤ maxVfsDescriptors) (hk : (v.desc id).kind = .initramfsFile)
    (hn : v.nodes[(v.desc id).nodeId]? = some n) (hw : n.flags &&& nodeFlagWritable ≠ 0)
    {bytes : Bytes} (hfit : (v.desc id).offset ≤ wrap ((v.desc id).offset + bytes.length)) :
    Ends (vfsWriteDescriptor v h id bytes)
      (fun r => r.1 = bytes.length ∧
        r.2.1 = setVfsDesc (writeNode v h (v.desc id).nodeId n (v.desc id).offset bytes) id
          { v.desc id with offset := (v.desc id).offset + bytes.length } ∧
        Grown h r.2.2 n ((v.desc id).offset + bytes.length))
      (fun _ => maxVfsNodes < v.nodes.length ∨ (n.dataCapacity < (v.desc id).offset + bytes.length ∧
        h.stop < h.ptr + growCapacity n ((v.desc id).offset + bytes.length) + 16)) := by
  have hlt := (List.getElem?_eq_some_iff.mp hn).1
  unfold vfsWriteDescriptor vfsDesc
  rw [if_neg (by omega), if_neg (by omega), ok_bind, hk, if_neg (by decide),
    if_neg (not_not.mpr rfl)]
  refine ends_bind ((vfsNode_spec hn).mono (fun _ h => h) fun _ he => Or.inl he) ?_
  rintro n rfl
  rw [if_neg hw, if_neg (not_lt.mpr hfit)]
  refine ends_bind ((vfsGrowNodeData_spec hok hn _).mono (fun _ h => h) fun _ he => he) ?_
  rintro ⟨ptr, v₁, h₁⟩ ⟨hptr, hv, hg⟩
  dsimp only at hptr hv hg
  subst hptr hv
  dsimp only
  have hget : ∀ n' : Node, (v.nodes.set (v.desc id).nodeId n')[(v.desc id).nodeId]? = some n' :=
    fun n' => by rw [List.getElem?_set_self hlt]
  refine ends_bind ((vfsNode_spec (v := { v with nodes := _, mem := _ }) (hget _)).mono (fun _ h => h)
    fun _ he => Or.inl (by simpa using he)) ?_
  rintro n' rfl
  refine ⟨rfl, ?_, hg⟩
  have hlen := grownNode_dataLen h n ((v.desc id).offset + bytes.length)
  unfold writeNode setVfsNode
  dsimp only
  rw [hlen, hk]
  split_ifs with hgt
  · rw [max_eq_right (by omega), List.set_set]
  · rw [max_eq_left (by omega), ← hlen]

/-- A slot beyond the nodes in use is not writable. -/
theorem vfsNode_writable {v : VfsState} {id : Nat} {n : Node} (h : vfsNode v id = .ok n)
    (hw : n.flags &&& nodeFlagWritable ≠ 0) : v.nodes[id]? = some n := by
  unfold vfsNode at h
  split_ifs at h
  cases h
  rw [List.getD_eq_getElem?_getD] at hw ⊢
  cases hn : v.nodes[id]? with
  | none =>
    rw [hn] at hw
    exact absurd (by decide) hw
  | some n => rfl

/-- The file a write through descriptor `id` goes to, when there is one and it is writable. -/
def writeTarget (v : VfsState) (id : Nat) (bytes : Bytes) : Option Node :=
  if 1 ≤ id ∧ id ≤ maxVfsDescriptors ∧ (v.desc id).kind = .initramfsFile ∧
      (v.desc id).offset ≤ wrap ((v.desc id).offset + bytes.length) then
    v.nodes[(v.desc id).nodeId]?.filter fun n => n.flags &&& nodeFlagWritable ≠ 0
  else none

theorem writeTarget_eq_some {v : VfsState} {id : Nat} {bytes : Bytes} {n : Node} :
    writeTarget v id bytes = some n ↔
      (1 ≤ id ∧ id ≤ maxVfsDescriptors ∧ (v.desc id).kind = .initramfsFile ∧
        (v.desc id).offset ≤ wrap ((v.desc id).offset + bytes.length)) ∧
      v.nodes[(v.desc id).nodeId]? = some n ∧ n.flags &&& nodeFlagWritable ≠ 0 := by
  unfold writeTarget
  split_ifs with h
  · simp [h, Option.filter_eq_some_iff]
  · simp [h]

/-- A write changes nothing, or writes to a writable file and moves its descriptor. -/
theorem vfsWriteDescriptor_cases {h h' : Heap} (hok : HeapOk h) {v v' : VfsState} {id : Nat}
    {bytes : Bytes} {r : Int} (he : vfsWriteDescriptor v h id bytes = .ok (r, v', h')) :
    (writeTarget v id bytes = none ∧ v' = v ∧ h' = h) ∨
      ∃ n, writeTarget v id bytes = some n ∧
        v' = setVfsDesc (writeNode v h (v.desc id).nodeId n (v.desc id).offset bytes) id
          { v.desc id with offset := (v.desc id).offset + bytes.length } ∧
        Grown h h' n ((v.desc id).offset + bytes.length) := by
  cases ht : writeTarget v id bytes with
  | some n =>
    obtain ⟨⟨h1, h32, hk, hfit⟩, hn, hw⟩ := writeTarget_eq_some.mp ht
    have hspec := (vfsWriteDescriptor_file hok h1 h32 hk hn hw hfit).of_ok he
    exact Or.inr ⟨n, rfl, hspec.2.1, hspec.2.2⟩
  | none =>
    refine Or.inl ⟨rfl, ?_⟩
    unfold vfsWriteDescriptor vfsDesc at he
    by_cases h0 : id = 0
    · rw [if_pos h0] at he
      cases he
      exact ⟨rfl, rfl⟩
    rw [if_neg h0] at he
    by_cases hr : id = 0 ∨ id > maxVfsDescriptors
    · rw [if_pos hr] at he
      cases he
    rw [if_neg hr, ok_bind] at he
    by_cases hout : (v.desc id).kind = .consoleOut
    · rw [if_pos hout] at he
      cases he
      exact ⟨rfl, rfl⟩
    rw [if_neg hout] at he
    by_cases hk : (v.desc id).kind ≠ .initramfsFile
    · rw [if_pos hk] at he
      cases he
      exact ⟨rfl, rfl⟩
    rw [if_neg hk] at he
    obtain ⟨n, hn, he⟩ := bind_eq_ok.mp he
    by_cases hw : n.flags &&& nodeFlagWritable = 0
    · rw [if_pos hw] at he
      cases he
      exact ⟨rfl, rfl⟩
    rw [if_neg hw] at he
    by_cases hfit : wrap ((v.desc id).offset + bytes.length) < (v.desc id).offset
    · rw [if_pos hfit] at he
      cases he
      exact ⟨rfl, rfl⟩
    -- all checks passed, so there was a file to write to
    have hsome : writeTarget v id bytes = some n :=
      writeTarget_eq_some.mpr ⟨⟨by omega, by omega, not_not.mp hk, not_lt.mp hfit⟩,
        vfsNode_writable hn hw, hw⟩
    rw [ht] at hsome
    cases hsome

/-- Reading a file: what is left of it, at most `length` bytes. -/
theorem vfsReadDescriptor_file {v : VfsState} {id : Nat} {n : Node} (h1 : 1 ≤ id)
    (h32 : id ≤ maxVfsDescriptors) (hk : (v.desc id).kind = .initramfsFile)
    (hn : v.nodes[(v.desc id).nodeId]? = some n) (hmax : v.nodes.length ≤ maxVfsNodes)
    (input : Bytes) (length : Nat) :
    vfsReadDescriptor v input id length =
      .ok ((min length (n.dataLen - (v.desc id).offset) : Nat),
        loadBytes v.mem (n.dataPtr + (v.desc id).offset)
          (min length (n.dataLen - (v.desc id).offset)),
        setVfsDesc v id { v.desc id with
          offset := (v.desc id).offset + min length (n.dataLen - (v.desc id).offset) }) := by
  have hlt := (List.getElem?_eq_some_iff.mp hn).1
  have hnode : vfsNode v (v.desc id).nodeId = .ok n := by
    obtain ⟨r, hr, rfl⟩ := (vfsNode_spec hn).exists_ok fun _ he => absurd hmax (not_le.mpr he)
    exact hr
  unfold vfsReadDescriptor vfsDesc
  rw [if_neg (by omega), if_neg (by omega), ok_bind, hk]
  dsimp only
  rw [hnode, ok_bind]
  split_ifs with hend
  · rw [show n.dataLen - (v.desc id).offset = 0 by omega, Nat.min_zero, Nat.add_zero]
    unfold setVfsDesc
    rw [show ({ v.desc id with offset := (v.desc id).offset } : Desc) = v.desc id from rfl,
      Function.update_eq_self]
    rfl
  · rw [hk]

/-- A read or a directory read moves the offset of its descriptor at most. -/
def Advanced (v v' : VfsState) (id : Nat) : Prop :=
  v' = v ∨ (1 ≤ id ∧ id ≤ maxVfsDescriptors ∧ (v.desc id).kind ≠ .closed ∧
    ∃ offset, v' = setVfsDesc v id { v.desc id with offset := offset })

theorem vfsReadDescriptor_advanced {v v' : VfsState} {input bytes : Bytes} {id length : Nat}
    {r : Int} (h : vfsReadDescriptor v input id length = .ok (r, bytes, v')) :
    Advanced v v' id := by
  unfold vfsReadDescriptor vfsDesc at h
  by_cases h0 : id = 0
  · rw [if_pos h0] at h
    cases h
    exact Or.inl rfl
  rw [if_neg h0] at h
  by_cases hr : id = 0 ∨ id > maxVfsDescriptors
  · rw [if_pos hr] at h
    cases h
  rw [if_neg hr, ok_bind] at h
  cases hk : (v.desc id).kind with
  | initramfsFile =>
    rw [hk] at h
    obtain ⟨n, -, h⟩ := bind_eq_ok.mp h
    split_ifs at h
    · cases h
      exact Or.inl rfl
    · cases h
      refine Or.inr ⟨by omega, by omega, by rw [hk]; decide,
        (v.desc id).offset + min length (n.dataLen - (v.desc id).offset), ?_⟩
      simp only [hk]
  | closed | consoleIn | consoleOut | directory =>
    rw [hk] at h
    cases h
    exact Or.inl rfl

theorem vfsReaddirDescriptor_advanced {v v' : VfsState} {bytes : Bytes} {id length : Nat}
    {r : Int} (h : vfsReaddirDescriptor v id length = .ok (r, bytes, v')) : Advanced v v' id := by
  unfold vfsReaddirDescriptor vfsDesc at h
  by_cases h0 : id = 0
  · rw [if_pos h0] at h
    cases h
    exact Or.inl rfl
  rw [if_neg h0] at h
  by_cases hr : id = 0 ∨ id > maxVfsDescriptors
  · rw [if_pos hr] at h
    cases h
  rw [if_neg hr, ok_bind] at h
  by_cases hk : (v.desc id).kind ≠ .directory
  · rw [if_pos hk] at h
    cases h
    exact Or.inl rfl
  rw [if_neg hk] at h
  cases hc : nextChild v (v.desc id).path (v.desc id).offset
      (v.nodes.length - (v.desc id).offset) with
  | none =>
    rw [hc] at h
    cases h
    exact Or.inl rfl
  | some child =>
    rw [hc] at h
    cases h
    exact Or.inr ⟨by omega, by omega, by rw [not_not.mp hk]; decide, _, rfl⟩

end PcoOs.Vfs
