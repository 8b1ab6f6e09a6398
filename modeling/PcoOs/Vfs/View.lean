/-
  The file system seen from outside: `view` forgets addresses and capacities, and turns the node
  index of a directory descriptor into the number of children before it. What a call does to the
  nodes and the buffers (`NodeStep`) is a change of one file (`view_nodeStep`), and descriptors
  are handed out alike (`view_hand`).
-/
import PcoOs.Vfs.Abstract

namespace PcoOs.Vfs

open PcoOs.Lib PcoOs.Support

def fileOf (m : Mem) (n : Node) : File where
  name := n.name
  kind := n.kind
  flags := n.flags
  bytes := loadBytes m n.dataPtr n.dataLen
  spare := loadBytes m (n.dataPtr + n.dataLen) (n.dataCapacity - n.dataLen)

def handleOf (v : VfsState) (d : Desc) : Handle :=
  match d.kind with
  | .closed => .closed
  | .consoleIn => .consoleIn
  | .consoleOut => .consoleOut
  | .initramfsFile => .file d.nodeId d.offset
  | .directory => .directory d.path (listed v d.path d.offset).length

def view (v : VfsState) : FileSystem where
  files := v.nodes.map (fileOf v.mem)
  handle := fun id => handleOf v (v.desc id)

/-- A directory descriptor has an absolute path and does not point beyond the nodes. -/
def CursorOk (v : VfsState) (d : Desc) : Prop :=
  d.kind = .directory → d.path.head? = some slash ∧ d.offset ≤ v.nodes.length

def CursorsOk (v : VfsState) : Prop := ∀ id, CursorOk v (v.desc id)

/-! ## Names and children -/

theorem view_names (v : VfsState) : (view v).names = v.nodes.map Node.name := by
  unfold FileSystem.names view
  rw [List.map_map]
  rfl

theorem view_getElem? (v : VfsState) (id : Nat) :
    (view v).files[id]? = (v.nodes[id]?).map (fileOf v.mem) := List.getElem?_map

theorem view_lookup (v : VfsState) (name : Bytes) : (view v).lookup name = vfsLookupPath v name := by
  unfold FileSystem.lookup vfsLookupPath view
  rw [List.findIdx?_map]
  rfl

theorem childOf_eq_some {dir name child : Bytes} :
    childOf dir name = some child ↔ child ≠ [] ∧ StartsWith name (dirPrefix dir) child := by
  unfold childOf StartsWith
  split_ifs with hp
  · obtain ⟨t, rfl⟩ := hp
    rw [List.drop_left, Option.filter_eq_some_iff]
    simp only [decide_eq_true_eq, Option.some.injEq, takeWhile_eq_iff, List.append_assoc,
      List.append_cancel_left_eq]
    exact and_comm
  · refine iff_of_false (fun h => by cases h) ?_
    rintro ⟨-, -, rest, rfl, -⟩
    exact hp ⟨child ++ rest, by rw [List.append_assoc]⟩

theorem childOf_eq {dir : Bytes} (hdir : dir.head? = some slash) (n : Node) (child : Bytes) :
    childOf dir n.name = some child ↔
      child ≠ [] ∧ vfsDirectoryChildComponent n dir = child := by
  rw [childOf_eq_some]
  exact and_congr_right fun hc => (vfsDirectoryChildComponent_iff hdir hc).symm

theorem children_append (names : List Bytes) (name dir : Bytes) :
    children (names ++ [name]) dir = children names dir ++
      ((childOf dir name).filter fun child => child ∉ children names dir).toList := by
  unfold children
  rw [List.filterMap_append, List.eraseDups_append]
  congr 1
  cases hc : childOf dir name with
  | none => simp [hc]
  | some child =>
    rw [show [name].filterMap (childOf dir) = [child] by simp [hc], List.removeAll]
    by_cases hm : child ∈ names.filterMap (childOf dir)
    · rw [Option.filter_some_neg (by simpa using hm), List.filter_cons_of_neg (by simpa using hm)]
      rfl
    · rw [Option.filter_some_pos (by simpa using hm), List.filter_cons_of_pos (by simpa using hm)]
      rfl

/-- The children are read off the names. -/
theorem listed_eq (v : VfsState) {dir : Bytes} (hdir : dir.head? = some slash) (n : Nat) :
    listed v dir n = children ((v.nodes.take n).map Node.name) dir := by
  induction n with
  | zero => rfl
  | succ n ih =>
    rw [listed_succ, List.take_add_one, List.map_append]
    cases hn : v.nodes[n]? with
    | none => 
      unfold listsChild
      simp [hn, ih]
    | some node =>
      rw [Option.toList_some, List.map_singleton, children_append, ← ih]
      congr 2
      apply Option.ext
      intro child
      rw [listsChild_eq_some, Option.filter_eq_some_iff, childOf_eq hdir, childAt_of_some hn,
        decide_eq_true_eq, mem_listed]
      constructor
      · rintro ⟨hc, he, hfirst⟩
        exact ⟨⟨hc, he⟩, fun ⟨_, j, hj, hj'⟩ => hfirst j hj hj'⟩
      · rintro ⟨⟨hc, he⟩, hnew⟩
        exact ⟨hc, he, fun j hj hj' => hnew ⟨hc, j, hj, hj'⟩⟩

theorem children_view (v : VfsState) {dir : Bytes} (hdir : dir.head? = some slash) :
    children (view v).names dir = listed v dir v.nodes.length := by
  rw [view_names, listed_eq v hdir, List.take_length]

theorem listed_prefix (v : VfsState) (dir : Bytes) {n k : Nat} (h : n ≤ k) :
    listed v dir n <+: listed v dir k := by
  induction k, h using Nat.le_induction with
  | base => exact List.prefix_refl _
  | succ k _ ih =>
    rw [listed_succ]
    exact ih.trans (List.prefix_append _ _)

theorem getElem?_of_concat {l m : List Bytes} {b : Bytes} (h : l ++ [b] <+: m) :
    m[l.length]? = some b := by
  obtain ⟨t, rfl⟩ := h
  simp

/-! ## Descriptors -/

theorem handleOf_closed {v : VfsState} {d : Desc} : handleOf v d = .closed ↔ d.kind = .closed := by
  unfold handleOf
  cases d.kind <;> simp

theorem findClosed_eq (v : VfsState) (id n : Nat) :
    findClosed v id n =
      ((List.range' id n).find? fun j => (view v).handle j = .closed).getD 0 := by
  induction n generalizing id with
  | zero => rfl
  | succ n ih =>
    rw [findClosed, List.range'_succ, List.find?_cons]
    have hclosed : (view v).handle id = .closed ↔ (v.desc id).kind = .closed := handleOf_closed
    by_cases hk : (v.desc id).kind = .closed
    · rw [if_pos hk, decide_eq_true (hclosed.mpr hk)]
      rfl
    · rw [if_neg hk, decide_eq_false (mt hclosed.mp hk), ih]

theorem view_setVfsDesc (v : VfsState) (id : Nat) (d : Desc) :
    view (setVfsDesc v id d) = (view v).setHandle id (handleOf v d) := by
  unfold view FileSystem.setHandle setVfsDesc
  congr 1
  funext j
  by_cases hj : j = id
  · subst hj
    simp only [Function.update_self]
    rfl
  · simp only [Function.update_of_ne hj]
    rfl

/-- A descriptor is handed out like a handle. -/
theorem view_hand (v : VfsState) (d : Desc) :
    (view v).hand (handleOf v d) =
      (⟨(vfsAllocDescriptor v d).1, [], []⟩, view (vfsAllocDescriptor v d).2) := by
  unfold FileSystem.hand vfsAllocDescriptor
  rw [findClosed_eq]
  cases hf : (List.range' 1 maxVfsDescriptors).find? fun j => (view v).handle j = .closed with
  | none => rfl
  | some id =>
    have hpos := (List.mem_range'_1.mp (List.mem_of_find?_eq_some hf)).1
    dsimp only [Option.getD_some]
    rw [if_neg (by omega), view_setVfsDesc]

theorem CursorsOk.set {v : VfsState} (h : CursorsOk v) {id : Nat} {d : Desc} (hd : CursorOk v d) :
    CursorsOk (setVfsDesc v id d) := by
  intro j
  unfold setVfsDesc
  by_cases hj : j = id
  · subst hj
    simp only [Function.update_self]
    exact hd
  · simp only [Function.update_of_ne hj]
    exact h j

theorem CursorsOk.alloc {v : VfsState} (h : CursorsOk v) {d : Desc} (hd : CursorOk v d) :
    CursorsOk (vfsAllocDescriptor v d).2 := by
  unfold vfsAllocDescriptor
  dsimp only
  split_ifs
  · exact h
  · exact h.set hd

/-! ## Changes of a file -/

theorem CursorsOk.grow {v v' : VfsState} (h : CursorsOk v) (hd : v'.desc = v.desc)
    (hle : v.nodes.length ≤ v'.nodes.length) : CursorsOk v' := by
  intro id hdir
  rw [hd] at hdir ⊢
  exact ⟨(h id hdir).1, (h id hdir).2.trans hle⟩

theorem handleOf_kept {v v' : VfsState} (hk : NodesKept v v') {d : Desc} (hd : CursorOk v d) :
    handleOf v' d = handleOf v d := by
  unfold handleOf
  cases h : d.kind with
  | directory =>
    dsimp only
    rw [hk.listed (hd h).2]
  | closed | consoleIn | consoleOut | initramfsFile => rfl

theorem view_eq {v v' : VfsState} (h : CursorsOk v) (hk : NodesKept v v') (hd : v'.desc = v.desc) :
    view v' = ⟨v'.nodes.map (fileOf v'.mem), (view v).handle⟩ := by
  unfold view
  congr 1
  funext id
  rw [hd]
  exact handleOf_kept hk (h id)

/-- One node is replaced, and the buffers of the others keep their bytes. -/
theorem view_modify {v v' : VfsState} (h : CursorsOk v) (hk : NodesKept v v')
    (hd : v'.desc = v.desc) {id : Nat} {n n' : Node} (hn : v.nodes[id]? = some n)
    (hnodes : v'.nodes = v.nodes.set id n') {f : File → File}
    (hf : fileOf v'.mem n' = f (fileOf v.mem n))
    (hothers : ∀ (j : Nat) (a : Node), v.nodes[j]? = some a → j ≠ id →
      fileOf v'.mem a = fileOf v.mem a) :
    view v' = (view v).modify id f := by
  rw [view_eq h hk hd]
  unfold FileSystem.modify
  congr 1
  apply List.ext_getElem?
  intro j
  rw [hnodes, List.getElem?_map, List.getElem?_modify, view_getElem?]
  by_cases hj : id = j
  · subst hj
    rw [List.getElem?_set_self (List.getElem?_eq_some_iff.mp hn).1, hn, Option.map_some,
      Option.map_some, Option.map_eq_map, Option.map_some, if_pos rfl, hf]
  · rw [List.getElem?_set_ne hj]
    cases ha : v.nodes[j]? with
    | none => rfl
    | some a =>
      simp only [Option.map_some, Option.map_eq_map, if_neg hj, hothers j a ha (Ne.symm hj)]

/-! ## What a call does to the files -/

/-- The bytes a run of stores leaves in a block around them. -/
theorem loadBytes_storeBytes_inside (m : Mem) (a n i : Nat) (bs : Bytes) (h : i + bs.length ≤ n) :
    loadBytes (storeBytes m (a + i) bs) a n =
      (loadBytes m a n).take i ++ bs ++ (loadBytes m a n).drop (i + bs.length) := by
  apply List.ext_getElem?
  intro j
  rw [getElem?_loadBytes, List.append_assoc]
  rcases Nat.lt_or_ge j i with hj | hj
  · rw [if_pos (by omega), List.getElem?_append_left (by simp; omega),
      List.getElem?_take_of_lt hj, getElem?_loadBytes, if_pos (by omega),
      storeBytes_of_outside (by omega)]
  rw [List.getElem?_append_right (by simp; omega),
    show ((loadBytes m a n).take i).length = i by simp; omega]
  rcases Nat.lt_or_ge j (i + bs.length) with hj' | hj'
  · rw [if_pos (by omega), List.getElem?_append_left (by omega), List.getElem?_eq_getElem (by omega),
      show a + j = a + i + (j - i) by omega, storeBytes_at (by omega)]
  · rw [List.getElem?_append_right (by omega), List.getElem?_drop, getElem?_loadBytes,
      show i + bs.length + (j - i - bs.length) = j by omega]
    split_ifs
    · rw [storeBytes_of_outside (by omega)]
    · rfl

theorem loadBytes_add (m : Mem) (a n k : Nat) :
    loadBytes m a n ++ loadBytes m (a + n) k = loadBytes m a (n + k) := by
  unfold loadBytes
  rw [List.range_add, List.map_append, List.map_map]
  congr 1
  apply List.map_congr_left
  intro i _
  exact congrArg m (by dsimp only [Function.comp]; omega)

theorem take_drop_loadBytes (m : Mem) (a n offset length : Nat) :
    ((loadBytes m a n).drop offset).take length =
      loadBytes m (a + offset) (min length (n - offset)) := by
  apply List.ext_getElem?
  intro i
  rw [List.getElem?_take, List.getElem?_drop, getElem?_loadBytes, getElem?_loadBytes, Nat.add_assoc]
  split_ifs
  · rfl
  · omega
  · omega
  · rfl
  · omega
  · rfl

theorem fileOf_room (m : Mem) {n : Node} (h : n.dataLen ≤ n.dataCapacity) :
    (fileOf m n).room = n.dataCapacity := by
  unfold File.room fileOf
  simp only [length_loadBytes]
  omega

theorem fileOf_all (m : Mem) {n : Node} (h : n.dataLen ≤ n.dataCapacity) :
    (fileOf m n).bytes ++ (fileOf m n).spare = loadBytes m n.dataPtr n.dataCapacity := by
  unfold fileOf
  dsimp only
  rw [loadBytes_add, Nat.add_sub_cancel' h]

/-- A file is what its buffer holds, divided at its end. -/
theorem fileOf_split (m : Mem) {n : Node} (h : n.dataLen ≤ n.dataCapacity) :
    fileOf m n = ⟨n.name, n.kind, n.flags, (loadBytes m n.dataPtr n.dataCapacity).take n.dataLen,
      (loadBytes m n.dataPtr n.dataCapacity).drop n.dataLen⟩ := by
  rw [← fileOf_all m h]
  have hlen : (fileOf m n).bytes.length = n.dataLen := length_loadBytes _ _ _
  rw [← hlen, List.take_left, List.drop_left]
  rfl

theorem fileOf_larger (m : Mem) {n : Node} (h : n.dataLen ≤ n.dataCapacity) (size : Nat) :
    (fileOf m n).larger size = growCapacity n size := by
  unfold File.larger growCapacity
  rw [fileOf_room m h]
  dsimp only
  split_ifs <;> omega

/-- The buffer of a write, before its bytes are stored. -/
theorem fileOf_buffer {v : VfsState} {h : Heap} (hi : FsInv v h) {id : Nat} {n : Node}
    (hn : v.nodes[id]? = some n) (size : Nat) :
    (fileOf v.mem n).buffer size =
      loadBytes (grownMem v h n size) (grownNode h n size).dataPtr
        (grownNode h n size).dataCapacity := by
  have hlen := hi.buffers.len id n hn
  have hbelow := hi.buffers.below id n hn
  unfold File.buffer grownMem grownNode
  rw [fileOf_room v.mem hlen, fileOf_larger v.mem hlen]
  split_ifs with hc
  · exact fileOf_all v.mem hlen
  · have hle := le_growCapacity n size
    apply List.ext_getElem?
    intro i
    dsimp only
    rw [getElem?_loadBytes, show (fileOf v.mem n).bytes = loadBytes v.mem n.dataPtr n.dataLen from rfl,
      length_loadBytes]
    rcases Nat.lt_or_ge i n.dataLen with hin | hin
    · rw [List.getElem?_append_left (by simpa using hin), getElem?_loadBytes, if_pos hin,
        if_pos (by omega), copyBytes_at (Or.inr (by omega)) hin]
    · rw [List.getElem?_append_right (by simpa using hin), length_loadBytes, List.getElem?_replicate]
      split_ifs with h1 h2 h2
      · rw [copyBytes_of_outside (by omega), hi.fresh _ (by omega)]
      · omega
      · omega
      · rfl

/-- A write is the write to the file. -/
theorem fileOf_write {v : VfsState} {h : Heap} (hi : FsInv v h) {id : Nat} {n : Node}
    (hn : v.nodes[id]? = some n) (offset : Nat) (bytes : Bytes) :
    fileOf (writeNode v h id n offset bytes).mem (writtenNode h n offset bytes) =
      (fileOf v.mem n).write offset bytes := by
  have hlen := hi.buffers.len id n hn
  have hcap := le_grownCapacity h n (offset + bytes.length)
  have hgrown := grownCapacity_le h n (offset + bytes.length)
  rw [fileOf_split _ (show (writtenNode h n offset bytes).dataLen ≤
    (writtenNode h n offset bytes).dataCapacity from max_le (hlen.trans hgrown) hcap)]
  unfold File.write
  dsimp only
  rw [fileOf_buffer hi hn, show (fileOf v.mem n).bytes.length = n.dataLen from length_loadBytes _ _ _,
    ← loadBytes_storeBytes_inside _ _ _ _ _ hcap]
  unfold writtenNode
  dsimp only
  rw [grownNode_name, grownNode_kind, grownNode_flags]
  rfl

/-- What a call does to the nodes and the buffers is a change of one file. -/
def FileSystem.act (s : FileSystem) : NodeAct → FileSystem
  | .keep => s
  | .create path => s.add ⟨path, .file, nodeFlagWritable, [], []⟩
  | .truncate id => s.modify id File.truncate
  | .write id offset bytes => s.modify id fun f => f.write offset bytes

theorem view_nodeStep {v v' : VfsState} {h h' : Heap} {a : NodeAct} (hi : FsInv v h)
    (hc : CursorsOk v) (hs : NodeStep v h h' a v') : view v' = (view v).act a := by
  have hk := hs.kept
  have hd := hs.desc
  cases hs with
  | keep => rfl
  | create =>
    rw [view_eq hc hk hd]
    unfold FileSystem.act FileSystem.add addNode
    dsimp only
    rw [List.map_append]
    rfl
  | @truncate id n _ hn =>
    refine view_modify hc hk hd hn rfl ?_ fun _ _ _ _ => rfl
    have hlen := hi.buffers.len id n hn
    unfold File.truncate setVfsNode
    rw [fileOf_all v.mem hlen]
    rfl
  | @write id offset bytes n hn _ _ hg =>
    refine view_modify hc hk hd hn rfl (fileOf_write hi hn offset bytes) fun j a ha hj => ?_
    have hlen := hi.buffers.len j a ha
    have hap := hi.buffers.apart j id a n ha hn hj
    have hbelow := hi.buffers.below j a ha
    -- the other buffer lies apart from the one written to
    have hsame : ∀ x, a.dataPtr ≤ x → x < a.dataPtr + a.dataCapacity →
        (writeNode v h id n offset bytes).mem x = v.mem x := by
      intro x h1 h2
      refine writeNode_mem (hi.buffers.len id n hn) ?_
      unfold Apart at hap
      obtain ⟨⟨hp, hcap⟩ | hp, -⟩ := hg.buffer (hi.buffers.below id n hn)
      · omega
      · omega
    unfold fileOf
    rw [loadBytes_congr fun i hlt => hsame _ (by omega) (by omega),
      loadBytes_congr fun i hlt => hsame _ (by omega) (by omega)]

end PcoOs.Vfs
