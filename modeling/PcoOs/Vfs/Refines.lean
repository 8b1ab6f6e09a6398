/-
  The file system of the kernel refines the abstract one. `vfsReply` is a call with what the
  caller sees of it. In every state a run reaches, a call answers as `FileSystem.call` does on the
  view of the state, and takes as much of the early heap as `FileSystem.cost` says; when there is
  less, it stops with the error of the heap (`vfs_simulates`). `vfs_refines` is the same for whole
  runs.
-/
import PcoOs.Lib.Simulation
import PcoOs.Vfs.View

namespace PcoOs.Vfs

open PcoOs.Lib PcoOs.Support

/-! ## Calls with replies -/

def vfsReply (s : VfsState × Heap) : VfsCall → Except String (Reply × (VfsState × Heap))
  | .openPath path flags => do
    let (id, v, heap) ← vfsOpenPath s.1 s.2 path flags
    .ok (⟨id, [], []⟩, v, heap)
  | .write descId bytes => do
    let (r, v, heap) ← vfsWriteDescriptor s.1 s.2 descId bytes
    .ok (⟨r, [], []⟩, v, heap)
  | .read descId length input => do
    let (r, bytes, v) ← vfsReadDescriptor s.1 input descId length
    .ok (⟨r, bytes, []⟩, v, s.2)
  | .readdir descId length => do
    let (r, bytes, v) ← vfsReaddirDescriptor s.1 descId length
    .ok (⟨r, bytes, []⟩, v, s.2)
  | .stat descId => do
    let (r, words) ← vfsStatDescriptor s.1 descId
    .ok (⟨r, [], words⟩, s)
  | .close descId => do
    let (r, v) ← vfsCloseDescriptor s.1 descId
    .ok (⟨r, [], []⟩, v, s.2)
  | .consoleIn =>
    let (id, v) := vfsAllocConsoleInDescriptor s.1
    .ok (⟨id, [], []⟩, v, s.2)
  | .consoleOut =>
    let (id, v) := vfsAllocConsoleOutDescriptor s.1
    .ok (⟨id, [], []⟩, v, s.2)
  | .use size mem => do
    let (_, heap) ← allocBytes s.2 size
    .ok (⟨0, [], []⟩, s.1, { heap with mem := mem })

theorem vfsCall_eq (s : VfsState × Heap) (c : VfsCall) :
    vfsCall s c = vfsReply s c >>= fun r => .ok r.2 := by
  cases c with
  | openPath path flags =>
    rw [vfsCall, vfsReply]
    cases vfsOpenPath s.1 s.2 path flags <;> rfl
  | write id bytes =>
    rw [vfsCall, vfsReply]
    cases vfsWriteDescriptor s.1 s.2 id bytes <;> rfl
  | read id length input =>
    rw [vfsCall, vfsReply]
    cases vfsReadDescriptor s.1 input id length <;> rfl
  | readdir id length =>
    rw [vfsCall, vfsReply]
    cases vfsReaddirDescriptor s.1 id length <;> rfl
  | stat id =>
    rw [vfsCall, vfsReply]
    cases vfsStatDescriptor s.1 id <;> rfl
  | close id =>
    rw [vfsCall, vfsReply]
    cases vfsCloseDescriptor s.1 id <;> rfl
  | use size mem =>
    rw [vfsCall, vfsReply]
    cases allocBytes s.2 size <;> rfl
  | consoleIn | consoleOut => rfl

/-! ## What a call takes of the early heap -/

def exhausted : String := "early heap exhausted"

/-- Blocks are multiples of 16 bytes. -/
def blockSize (size : Nat) : Nat := (size + 15) / 16 * 16

/-- The normal form, and the name of its parent where a file may have to be created. -/
def FileSystem.openCost (s : FileSystem) (path : Bytes) (flags : Int) : Nat :=
  if flags < 0 ∨ flags > 3 ∨ path.head? ≠ some slash then 0
  else blockSize (path.length + 2) +
    if normalForm path ≠ [slash] ∧ s.lookup (normalForm path) = none ∧ flags.toNat &&& 1 ≠ 0 then
      blockSize ((parentPath (normalForm path)).length + 1)
    else 0

/-- A larger buffer, where the file outgrows its own. -/
def FileSystem.writeCost (s : FileSystem) (bytes : Bytes) : Handle → Nat
  | .file id position =>
    match s.files[id]?.filter File.writable with
    | none => 0
    | some f =>
      if wrap (position + bytes.length) < position ∨ position + bytes.length ≤ f.room then 0
      else blockSize (f.larger (position + bytes.length))
  | _ => 0

def FileSystem.cost (s : FileSystem) : VfsCall → Nat
  | .openPath path flags => s.openCost path flags
  | .write id bytes =>
    if 1 ≤ id ∧ id ≤ maxVfsDescriptors then s.writeCost bytes (s.handle id) else 0
  | .use size _ => blockSize size
  | _ => 0

/-- The heap moved by `n` bytes, or had less than that and stopped. -/
def Moved (h h' : Heap) (n : Nat) : Prop := HeapUsed h h' ∧ h'.ptr = h.ptr + n

def Short (h : Heap) (n : Nat) (e : String) : Prop := h.stop < h.ptr + n ∧ e = exhausted

theorem Moved.refl {h : Heap} (hok : HeapOk h) : Moved h h 0 := ⟨(HeapMoves.refl hok).used, rfl⟩

theorem Moved.trans {h h' h'' : Heap} {n k : Nat} (a : Moved h h' n) (b : Moved h' h'' k) :
    Moved h h'' (n + k) :=
  ⟨a.1.trans b.1, by rw [b.2, a.2, Nat.add_assoc]⟩

theorem allocBytes_cost {h : Heap} (hok : HeapOk h) (size : Nat) :
    Ends (allocBytes h size) (fun r => Moved h r.2 (blockSize size))
      (fun e => Short h (blockSize size) e) := by
  have hends := allocBytes_spec hok (n := (size : Int)) (Int.natCast_nonneg size)
  unfold allocBytes alignDownI at hends ⊢
  unfold Moved Short blockSize exhausted
  dsimp only at hends ⊢
  split_ifs at hends ⊢ with hfull
  · exact ⟨by omega, rfl⟩
  · have hends : _ ∧ _ ∧ _ ∧ _ ∧ _ := hends
    exact ⟨HeapMoves.used ⟨hends.2.1, hends.2.2.1⟩, by dsimp only; omega⟩

/-! ## Opening -/

theorem vfsNode_ok {v : VfsState} (hmax : v.nodes.length ≤ maxVfsNodes) {id : Nat} {n : Node}
    (hn : v.nodes[id]? = some n) : vfsNode v id = .ok n := by
  obtain ⟨r, hr, rfl⟩ := (vfsNode_spec hn).exists_ok fun _ he => absurd hmax (not_le.mpr he)
  exact hr

theorem vfsNormalizePath_cost {h : Heap} (hok : HeapOk h) {path : Bytes}
    (hs : path.head? = some slash) :
    Ends (vfsNormalizePath h path)
      (fun r => r.1 = some (normalForm path) ∧ Moved h r.2 (blockSize (path.length + 2)))
      (fun e => Short h (blockSize (path.length + 2)) e) := by
  unfold vfsNormalizePath
  rw [if_neg (not_not.mpr hs)]
  exact ends_bind (allocBytes_cost hok (path.length + 2)) fun r hr => ⟨rfl, hr⟩

theorem vfsPathParent_cost {h : Heap} (hok : HeapOk h) (path : Bytes) :
    Ends (vfsPathParent h path)
      (fun r => r.1 = parentPath path ∧ Moved h r.2 (blockSize ((parentPath path).length + 1)))
      (fun e => Short h (blockSize ((parentPath path).length + 1)) e) := by
  unfold vfsPathParent parentPath
  dsimp only
  split_ifs
  · exact ends_bind (allocBytes_cost hok 2) fun r hr => ⟨rfl, hr⟩
  · exact ends_bind (allocBytes_cost hok _) fun r hr => ⟨rfl, hr⟩

/-- Creating a file: its node, or none where its parent does not allow it. -/
theorem vfsCreateTmpfsFile_cost {h : Heap} (hok : HeapOk h) {v : VfsState}
    (hmax : v.nodes.length ≤ maxVfsNodes) {path : Bytes} (hlen : 1 < path.length) :
    Ends (vfsCreateTmpfsFile v h path)
      (fun r => Moved h r.2.2 (blockSize ((parentPath path).length + 1)) ∧
        if canCreate v path = true then v.nodes.length < maxVfsNodes ∧
          r.1 = some v.nodes.length ∧ r.2.1 = addNode v (newFile path)
        else r.1 = none ∧ r.2.1 = v)
      (fun e => Short h (blockSize ((parentPath path).length + 1)) e ∨
        (h.ptr + blockSize ((parentPath path).length + 1) ≤ h.stop ∧ e = "vfs node table full" ∧
          canCreate v path = true ∧ maxVfsNodes ≤ v.nodes.length)) := by
  unfold vfsCreateTmpfsFile canCreate
  rw [if_neg (by omega), decide_eq_true hlen, Bool.true_and]
  refine ends_bind ((vfsPathParent_cost hok path).mono (fun _ h => h) fun _ he => Or.inl he) ?_
  intro r hr
  obtain ⟨parent, h₁⟩ := r
  obtain ⟨hparent, hm⟩ := hr
  dsimp only at hparent hm ⊢
  rw [hparent]
  have hle := hm.1.ok.le
  rw [hm.2, hm.1.stop] at hle
  cases hl : vfsLookupPath v (parentPath path) with
  | none => exact ⟨hm, rfl, rfl⟩
  | some id =>
    obtain ⟨n, hn, -⟩ := vfsLookupPath_spec hl
    dsimp only
    rw [vfsNode_ok hmax hn, ok_bind, Option.bind_some, hn, Option.any_some]
    by_cases hw : n.kind ≠ .directory ∨ n.flags &&& nodeFlagWritable = 0
    · rw [if_pos hw, decide_eq_false (by tauto)]
      exact ⟨hm, rfl, rfl⟩
    · rw [if_neg hw, decide_eq_true (by tauto)]
      by_cases hfull : v.nodes.length ≥ maxVfsNodes
      · rw [if_pos hfull]
        exact Or.inr ⟨hle, rfl, rfl, hfull⟩
      · rw [if_neg hfull]
        exact ⟨hm, not_le.mp hfull, rfl, rfl⟩

theorem length_normalForm_pos {path : Bytes} (hroot : normalForm path ≠ [slash]) :
    1 < (normalForm path).length := by
  have hhead := normalForm_head path
  cases hp : normalForm path with
  | nil =>
    rw [hp] at hhead
    cases hhead
  | cons b t =>
    cases t with
    | nil =>
      rw [hp] at hhead hroot
      exact absurd (by rw [Option.some.inj hhead]) hroot
    | cons b' t => simp

/-- Opening decides, takes its blocks, and acts on the decision. -/
theorem vfsOpenPath_cost {v : VfsState} {h : Heap} (hi : FsInv v h) (path : Bytes) (flags : Int) :
    Ends (vfsOpenPath v h path flags)
      (fun r => Moved h r.2.2 ((view v).openCost path flags))
      (fun e => Short h ((view v).openCost path flags) e ∨
        (h.ptr + (view v).openCost path flags ≤ h.stop ∧ e = "vfs node table full" ∧
          (∃ p, openPlan v path flags = .create p) ∧ maxVfsNodes ≤ v.nodes.length)) := by
  unfold vfsOpenPath FileSystem.openCost
  rw [view_lookup]
  by_cases hf : flags < 0 ∨ flags > 3
  · rw [if_pos hf, if_pos (or_assoc.mp (Or.inl hf))]
    exact Moved.refl hi.heap
  rw [if_neg hf]
  by_cases hs : path.head? ≠ some slash
  · rw [if_pos (Or.inr (Or.inr hs) : flags < 0 ∨ flags > 3 ∨ path.head? ≠ some slash)]
    by_cases hp : path = []
    · rw [if_pos hp]
      exact Moved.refl hi.heap
    · rw [if_neg hp]
      unfold vfsNormalizePath
      rw [if_pos hs, ok_bind]
      exact Moved.refl hi.heap
  rw [if_neg (by rintro rfl; exact hs (by decide)), if_neg (by tauto)]
  have hshort : ∀ {n : Nat} {e : String}, Short h (blockSize (path.length + 2)) e →
      Short h (blockSize (path.length + 2) + n) e := by
    intro n e he
    have := he.1
    exact ⟨by omega, he.2⟩
  refine ends_bind ((vfsNormalizePath_cost hi.heap (not_not.mp hs)).mono (fun _ h => h)
    fun _ he => Or.inl (hshort he)) ?_
  intro r hr
  obtain ⟨r, h₁⟩ := r
  obtain ⟨hr, hm⟩ := hr
  dsimp only at hr hm
  rw [hr]
  dsimp only
  by_cases hroot : normalForm path = [slash]
  · rw [if_pos hroot, if_neg fun h => h.1 hroot]
    exact hm
  rw [if_neg hroot]
  cases hl : vfsLookupPath v (normalForm path) with
  | some id =>
    obtain ⟨n, hn, -⟩ := vfsLookupPath_spec hl
    dsimp only
    rw [if_neg (by rintro ⟨-, h, -⟩; cases h), vfsNode_ok hi.count hn, ok_bind]
    split_ifs
    · exact hm
    · exact hm
    · exact hm
  | none =>
    dsimp only
    have hlen := length_normalForm_pos hroot
    unfold createIfAsked
    by_cases h1 : flags.toNat &&& 1 ≠ 0
    · rw [if_pos h1, if_pos ⟨hroot, rfl, h1⟩]
      have hstop := hm.1.stop
      refine ends_bind ((vfsCreateTmpfsFile_cost hm.1.ok hi.count hlen).mono (fun _ h => h) ?_) ?_
      · intro e he
        obtain he | ⟨hle, he, hc, hfull⟩ := he
        · have hlt := he.1
          rw [hm.2, hstop] at hlt
          exact Or.inl ⟨by omega, he.2⟩
        · rw [hm.2, hstop] at hle
          refine Or.inr ⟨by omega, he, ⟨normalForm path, ?_⟩, hfull⟩
          unfold openPlan
          rw [if_neg hf, if_neg hs, if_neg hroot, hl]
          exact if_pos ⟨h1, hc⟩
      · intro r hr
        obtain ⟨node, v₁, h₂⟩ := r
        have hm₂ := hm.trans hr.1
        dsimp only at hm₂ ⊢
        cases node with
        | some id => exact hm₂
        | none =>
          dsimp only
          split_ifs
          · exact hm₂
          · exact hm₂
    · rw [if_neg h1, if_neg fun h => h1 h.2.2, ok_bind]
      dsimp only
      split_ifs
      · exact hm
      · exact hm

theorem view_mayCreate (v : VfsState) (name : Bytes) : (view v).mayCreate name = canCreate v name := by
  unfold FileSystem.mayCreate canCreate
  rw [view_lookup]
  congr 1
  cases vfsLookupPath v (parentPath name) with
  | none => rfl
  | some id =>
    rw [Option.bind_some, Option.bind_some, view_getElem?]
    cases hn : v.nodes[id]? with
    | none => rfl
    | some n =>
      rw [Option.map_some, Option.any_some, Option.any_some]
      unfold File.writable fileOf
      simp

theorem view_isDirectory (v : VfsState) {name : Bytes} (hname : name.head? = some slash) :
    (view v).isDirectory name = vfsDirectoryExists v name := by
  unfold FileSystem.isDirectory vfsDirectoryExists view
  by_cases hroot : name = [slash]
  · rw [decide_eq_true (Or.inl hroot), decide_eq_true (Or.inl hroot)]
  have hany : ∀ n : Node, dirPrefix name <+: n.name ↔ vfsNodeMatchesDirectory n name = true := by
    intro n
    rw [vfsNodeMatchesDirectory_iff hname]
    constructor
    · rintro ⟨t, ht⟩
      exact ⟨t, ht.symm, fun h => absurd h hroot⟩
    · rintro ⟨t, ht, -⟩
      exact ⟨t, ht.symm⟩
  dsimp only
  rw [List.any_map]
  congr 2
  unfold fileOf Function.comp
  dsimp only
  simp only [hany]

/-- Opening is opening in the view. -/
theorem view_openPath {v : VfsState} {h : Heap} (hi : FsInv v h) (hc : CursorsOk v) (path : Bytes)
    (flags : Int) : (view v).openPath path flags =
      runPlan v flags (openPlan v path flags) >>= fun r => .ok (⟨r.1, [], []⟩, view r.2) := by
  have hdir : ∀ p, (view v).hand (.directory p 0) =
      (⟨(vfsAllocDirectoryDescriptor v p 0).1, [], []⟩, view (vfsAllocDirectoryDescriptor v p 0).2) :=
    fun p => view_hand v ⟨.directory, 0, 0, 0, p⟩
  unfold FileSystem.openPath openPlan
  dsimp only
  rw [view_lookup]
  by_cases hf : flags < 0 ∨ flags > 3
  · rw [if_pos hf, if_pos (by tauto)]
    rfl
  by_cases hs : path.head? ≠ some slash
  · rw [if_neg hf, if_pos hs, if_pos (by tauto)]
    rfl
  rw [if_neg hf, if_neg hs, if_neg (by tauto)]
  by_cases hroot : normalForm path = [slash]
  · rw [if_pos hroot, if_pos hroot, hdir, hroot]
    rfl
  rw [if_neg hroot, if_neg hroot]
  cases hl : vfsLookupPath v (normalForm path) with
  | some id =>
    obtain ⟨n, hn, -⟩ := vfsLookupPath_spec hl
    dsimp only
    rw [view_getElem?, hn]
    dsimp only [Option.map_some]
    have hkind : (fileOf v.mem n).kind = n.kind := rfl
    have hwritable : (fileOf v.mem n).writable = true ↔ n.flags &&& nodeFlagWritable ≠ 0 :=
      decide_eq_true_iff
    rw [hkind]
    by_cases hk : n.kind = .directory
    · rw [if_pos hk, if_pos hk, hdir]
      rfl
    rw [if_neg hk, if_neg hk]
    by_cases ht : flags.toNat &&& 2 ≠ 0 ∧ n.flags &&& nodeFlagWritable ≠ 0
    · have hstep := view_nodeStep hi hc
        (.truncate (HeapMoves.refl hi.heap).used hn (NodeKind.eq_file hk) ht.2)
      have htrunc : (view v).modify id File.truncate = view (truncateNode v id) := by
        rw [truncateNode, hn, hstep]
        rfl
      rw [if_pos ⟨ht.1, hwritable.mpr ht.2⟩, if_pos ht, htrunc,
        show Handle.file id 0 = handleOf (truncateNode v id) (fileDesc flags id) from rfl, view_hand]
      rfl
    · rw [if_neg fun h => ht ⟨h.1, hwritable.mp h.2⟩, if_neg ht,
        show Handle.file id 0 = handleOf v (fileDesc flags id) from rfl, view_hand]
      rfl
  | none =>
    dsimp only
    rw [view_mayCreate, view_isDirectory v (normalForm_head path)]
    by_cases hcreate : flags.toNat &&& 1 ≠ 0 ∧ canCreate v (normalForm path) = true
    · rw [if_pos hcreate, if_pos hcreate, runPlan]
      have hlen : (view v).files.length = v.nodes.length := List.length_map _
      rw [hlen]
      split_ifs with hfull
      · rfl
      · have hstep := view_nodeStep hi hc
          (.create (HeapMoves.refl hi.heap).used hl hcreate.2 (not_le.mp hfull))
        rw [show (view v).add ⟨normalForm path, .file, nodeFlagWritable, [], []⟩ =
          view (addNode v (newFile (normalForm path))) from hstep.symm,
          show Handle.file v.nodes.length 0 = handleOf (addNode v (newFile (normalForm path)))
            (fileDesc flags v.nodes.length) from rfl, view_hand]
        rfl
    · rw [if_neg hcreate, if_neg hcreate]
      split_ifs
      · rw [hdir]
        rfl
      · rfl

/-! ## Each call -/

/-- A call does what the abstract one does, at its cost. -/
def Agrees (s : VfsState × Heap) (c : VfsCall) : Prop :=
  Ends (vfsReply s c)
    (fun r => Moved s.2 r.2.2 ((view s.1).cost c) ∧ CursorsOk r.2.1 ∧
      (view s.1).call c = .ok (r.1, view r.2.1))
    (fun e => Short s.2 ((view s.1).cost c) e ∨
      (s.2.ptr + (view s.1).cost c ≤ s.2.stop ∧ (view s.1).call c = .error e))

theorem cursorOk_other (v : VfsState) {d : Desc} (h : d.kind ≠ .directory) : CursorOk v d :=
  fun hd => absurd hd h

section Calls

variable {v : VfsState} {h : Heap} (hi : FsInv v h)

include hi

/-- The part of a write that may need a new buffer. -/
theorem vfsGrowNodeData_cost {id : Nat} {n : Node} (hn : v.nodes[id]? = some n) (size : Nat) :
    Ends (vfsGrowNodeData v h id size)
      (fun r => Moved h r.2.2 (if size ≤ (fileOf v.mem n).room then 0
        else blockSize ((fileOf v.mem n).larger size)))
      (fun e => Short h (if size ≤ (fileOf v.mem n).room then 0
        else blockSize ((fileOf v.mem n).larger size)) e) := by
  have hlen := hi.buffers.len id n hn
  unfold vfsGrowNodeData
  rw [vfsNode_ok hi.count hn, ok_bind, fileOf_room v.mem hlen, fileOf_larger v.mem hlen]
  by_cases hroom : size ≤ n.dataCapacity
  · rw [if_pos hroom, if_pos hroom]
    exact Moved.refl hi.heap
  · rw [if_neg hroom, if_neg hroom]
    exact ends_bind (allocBytes_cost hi.heap (growCapacity n size)) fun r hr => hr

/-- A write to a file takes what its buffer takes. -/
theorem vfsWriteDescriptor_cost {id : Nat} {n : Node} (h0 : id ≠ 0) (h32 : ¬ id > maxVfsDescriptors)
    (hk : (v.desc id).kind = .initramfsFile) (hn : v.nodes[(v.desc id).nodeId]? = some n)
    (hw : n.flags &&& nodeFlagWritable ≠ 0) {bytes : Bytes}
    (hfit : ¬ wrap ((v.desc id).offset + bytes.length) < (v.desc id).offset) :
    Ends (vfsWriteDescriptor v h id bytes)
      (fun r => Moved h r.2.2 (if (v.desc id).offset + bytes.length ≤ (fileOf v.mem n).room then 0
        else blockSize ((fileOf v.mem n).larger ((v.desc id).offset + bytes.length))))
      (fun e => Short h (if (v.desc id).offset + bytes.length ≤ (fileOf v.mem n).room then 0
        else blockSize ((fileOf v.mem n).larger ((v.desc id).offset + bytes.length))) e) := by
  have hlt := (List.getElem?_eq_some_iff.mp hn).1
  have hmax := hi.count
  unfold vfsWriteDescriptor vfsDesc
  rw [if_neg h0, if_neg (by omega), ok_bind, hk, if_neg (by decide), if_neg (by decide),
    vfsNode_ok hi.count hn, ok_bind, if_neg hw, if_neg hfit]
  have hspec := (vfsGrowNodeData_spec hi.heap hn ((v.desc id).offset + bytes.length)).and
    (vfsGrowNodeData_cost hi hn ((v.desc id).offset + bytes.length))
  refine ends_bind (hspec.mono (fun _ hr => hr) fun _ he => he.2) fun r hr => ?_
  obtain ⟨ptr, v₁, h₁⟩ := r
  obtain ⟨⟨-, hv, -⟩, hm⟩ := hr
  dsimp only at hv hm ⊢
  rw [hv]
  refine ends_bind (P := fun _ => True) ?_ fun _ _ => hm
  rw [vfsNode_ok (n := grownNode h n ((v.desc id).offset + bytes.length))
    (by simpa using hmax) (List.getElem?_set_self hlt)]
  trivial

variable (hc : CursorsOk v)

include hc

theorem openPath_agrees (path : Bytes) (flags : Int) : Agrees (v, h) (.openPath path flags) := by
  have hspec := (vfsOpenPath_spec hi.heap v path flags).imp
    (Q := fun r => runPlan v flags (openPlan v path flags) = .ok (r.1, r.2.1)) fun _ hr => hr.2
  have hview := view_openPath hi hc path flags
  unfold Agrees
  rw [vfsReply]
  refine ends_bind ((hspec.and (vfsOpenPath_cost hi path flags)).mono (fun _ hr => hr) ?_) ?_
  · intro e he
    obtain he | ⟨hle, rfl, ⟨p, hp⟩, hfull⟩ := he.2
    · exact Or.inl he
    · refine Or.inr ⟨hle, ?_⟩
      show (view v).openPath path flags = _
      rw [hview, hp, runPlan, if_pos hfull]
      rfl
  · intro r hr
    obtain ⟨id, v', h'⟩ := r
    obtain ⟨hrun, hm⟩ := hr
    dsimp only at hrun hm ⊢
    refine ⟨hm, ?_, ?_⟩
    · have hpath : CursorOk v ⟨.directory, 0, 0, 0, normalForm path⟩ :=
        fun _ => ⟨normalForm_head path, Nat.zero_le _⟩
      have hfile : ∀ (u : VfsState) (id : Nat), CursorOk u (fileDesc flags id) :=
        fun u id => cursorOk_other u fun hk => by cases hk
      cases hp : openPlan v path flags with
      | refuse =>
        rw [hp] at hrun
        cases hrun
        exact hc
      | directory p =>
        rw [hp, runPlan, (openPlan_directory hp).2] at hrun
        have halloc := hc.alloc hpath
        unfold vfsAllocDirectoryDescriptor at hrun
        rwa [Except.ok.inj hrun] at halloc
      | file nodeId =>
        rw [hp, runPlan] at hrun
        have halloc := hc.alloc (hfile v nodeId)
        rwa [Except.ok.inj hrun] at halloc
      | truncate nodeId =>
        rw [hp, runPlan] at hrun
        have hkept : (truncateNode v nodeId).desc = v.desc ∧
            v.nodes.length ≤ (truncateNode v nodeId).nodes.length := by
          unfold truncateNode
          cases v.nodes[nodeId]? with
          | none => exact ⟨rfl, le_refl _⟩
          | some n => exact ⟨rfl, (List.length_set ..).ge⟩
        have halloc := (hc.grow hkept.1 hkept.2).alloc (hfile _ nodeId)
        rwa [Except.ok.inj hrun] at halloc
      | create p =>
        rw [hp, runPlan] at hrun
        split_ifs at hrun
        have hlen : v.nodes.length ≤ (addNode v (newFile p)).nodes.length := by
          unfold addNode
          rw [List.length_append]
          omega
        have hgrow : CursorsOk (addNode v (newFile p)) := hc.grow rfl hlen
        have halloc := hgrow.alloc (hfile _ v.nodes.length)
        rwa [Except.ok.inj hrun] at halloc
    · show (view v).openPath path flags = _
      rw [hview, hrun]
      rfl

theorem write_agrees (id : Nat) (bytes : Bytes) : Agrees (v, h) (.write id bytes) := by
  unfold Agrees FileSystem.call FileSystem.cost FileSystem.onHandle
  rw [vfsReply]
  dsimp only
  by_cases h0 : id = 0
  · unfold vfsWriteDescriptor
    rw [if_pos h0, if_neg (by omega), if_pos h0]
    exact ⟨Moved.refl hi.heap, hc, rfl⟩
  by_cases hr : id > maxVfsDescriptors
  · have hnone : ¬ (1 ≤ id ∧ id ≤ maxVfsDescriptors) := fun h => absurd h.2 (not_le.mpr hr)
    unfold vfsWriteDescriptor vfsDesc
    rw [if_neg hnone, if_neg h0, if_neg h0, if_pos hr, if_pos (Or.inr hr)]
    exact Or.inr ⟨hi.heap.le, rfl⟩
  rw [if_pos ⟨by omega, by omega⟩, if_neg h0, if_neg hr]
  have hstart : vfsWriteDescriptor v h id bytes = if (v.desc id).kind = .consoleOut then
      .ok (bytes.length, v, h) else if (v.desc id).kind ≠ .initramfsFile then .ok (-1, v, h)
      else vfsWriteDescriptor v h id bytes := by
    unfold vfsWriteDescriptor vfsDesc
    rw [if_neg h0, if_neg (by omega), ok_bind]
    split_ifs <;> rfl
  have hhandle : (view v).handle id = handleOf v (v.desc id) := rfl
  rw [hhandle]
  unfold handleOf
  cases hk : (v.desc id).kind with
  | consoleOut =>
    rw [hstart, if_pos hk]
    exact ⟨Moved.refl hi.heap, hc, rfl⟩
  | closed | consoleIn | directory =>
    rw [hstart, if_neg (by rw [hk]; decide), if_pos (by rw [hk]; decide)]
    exact ⟨Moved.refl hi.heap, hc, rfl⟩
  | initramfsFile =>
    obtain ⟨n, hn, hfile⟩ := (hi.descs id).file hk
    dsimp only
    unfold FileSystem.writeCost FileSystem.write FileSystem.writeFile
    dsimp only
    rw [view_getElem?, hn, Option.map_some]
    have hwritable : (fileOf v.mem n).writable = true ↔ n.flags &&& nodeFlagWritable ≠ 0 :=
      decide_eq_true_iff
    by_cases hw : n.flags &&& nodeFlagWritable ≠ 0
    · rw [Option.filter_some_pos (hwritable.mpr hw)]
      dsimp only
      by_cases hfit : wrap ((v.desc id).offset + bytes.length) < (v.desc id).offset
      · rw [if_pos (Or.inl hfit), if_pos hfit]
        unfold vfsWriteDescriptor vfsDesc
        rw [if_neg h0, if_neg (by omega), ok_bind, hk, if_neg (by decide), if_neg (by decide),
          vfsNode_ok hi.count hn, ok_bind, if_neg hw, if_pos hfit]
        exact ⟨Moved.refl hi.heap, hc, rfl⟩
      · have hspec := vfsWriteDescriptor_file hi.heap (by omega) (by omega) hk hn hw (not_lt.mp hfit)
        have hcost := vfsWriteDescriptor_cost hi h0 hr hk hn hw hfit
        rw [if_congr (or_iff_right hfit) rfl rfl, if_neg hfit]
        refine ends_bind ((hspec.and hcost).mono (fun _ hr => hr) fun e he => Or.inl he.2) fun r hr => ?_
        obtain ⟨value, v', h'⟩ := r
        obtain ⟨⟨hvalue, hv, hg⟩, hm⟩ := hr
        dsimp only at hvalue hv hg hm ⊢
        have hstep := NodeStep.write (v := v) hn hfile hw hg
        have hkept : CursorsOk (writeNode v h (v.desc id).nodeId n (v.desc id).offset bytes) :=
          hc.grow rfl (List.length_set ..).ge
        rw [hv]
        refine ⟨hm, hkept.set (cursorOk_other _ ?_), ?_⟩
        · dsimp only
          rw [hk]
          decide
        · rw [hvalue, view_setVfsDesc, view_nodeStep hi hc hstep]
          unfold handleOf
          dsimp only
          rw [hk]
          rfl
    · rw [Option.filter_some_neg (by simpa using mt hwritable.mp hw)]
      unfold vfsWriteDescriptor vfsDesc
      rw [if_neg h0, if_neg (by omega), ok_bind, hk, if_neg (by decide), if_neg (by decide),
        vfsNode_ok hi.count hn, ok_bind, if_pos (not_not.mp hw)]
      exact ⟨Moved.refl hi.heap, hc, rfl⟩

/-- A call on a descriptor that takes no heap: what it does for number 0, beyond the table, and
    in it. -/
theorem agrees_of_desc {c : VfsCall} {id : Nat} {f : Handle → Reply × FileSystem}
    (hcost : (view v).cost c = 0) (hcall : (view v).call c = (view v).onHandle id f)
    (hzero : id = 0 → vfsReply (v, h) c = .ok (⟨-1, [], []⟩, v, h))
    (hbeyond : ∀ e, id ≠ 0 → vfsDesc v id = .error e → vfsReply (v, h) c = .error e)
    (hin : id ≠ 0 → vfsDesc v id = .ok (v.desc id) → ∃ r v', vfsReply (v, h) c = .ok (r, v', h) ∧
      CursorsOk v' ∧ f (handleOf v (v.desc id)) = (r, view v')) : Agrees (v, h) c := by
  unfold Agrees
  rw [hcost, hcall]
  unfold FileSystem.onHandle
  by_cases h0 : id = 0
  · rw [hzero h0, if_pos h0]
    exact ⟨Moved.refl hi.heap, hc, rfl⟩
  rw [if_neg h0]
  by_cases hr : id > maxVfsDescriptors
  · have hdesc : vfsDesc v id = .error "vfs desc id out of range" := if_pos (Or.inr hr)
    rw [hbeyond _ h0 hdesc, if_pos hr]
    exact Or.inr ⟨hi.heap.le, rfl⟩
  · have hdesc : vfsDesc v id = .ok (v.desc id) := if_neg (by omega)
    obtain ⟨r, v', hreply, hcursors, hf⟩ := hin h0 hdesc
    rw [hreply, if_neg hr, show (view v).handle id = handleOf v (v.desc id) from rfl, hf]
    exact ⟨Moved.refl hi.heap, hcursors, rfl⟩

theorem read_agrees (id length : Nat) (input : Bytes) : Agrees (v, h) (.read id length input) := by
  refine agrees_of_desc hi hc rfl rfl (fun h0 => ?_) (fun e h0 he => ?_) fun h0 hdesc => ?_
  · rw [vfsReply]
    unfold vfsReadDescriptor
    rw [if_pos h0]
    rfl
  · rw [vfsReply]
    unfold vfsReadDescriptor
    rw [if_neg h0, he]
    rfl
  have hr : ¬ id > maxVfsDescriptors := by
    unfold vfsDesc at hdesc
    split_ifs at hdesc
    omega
  rw [vfsReply]
  cases hk : (v.desc id).kind with
  | initramfsFile =>
    obtain ⟨n, hn, -⟩ := (hi.descs id).file hk
    rw [vfsReadDescriptor_file (by omega) (by omega) hk hn hi.count input length]
    refine ⟨_, _, rfl, hc.set (cursorOk_other _ (by dsimp only; rw [hk]; decide)), ?_⟩
    unfold handleOf FileSystem.read FileSystem.readFile
    rw [hk]
    dsimp only
    rw [view_getElem?, hn, view_setVfsDesc, Option.map_some, Option.map_some, Option.getD_some]
    rw [show (fileOf v.mem n).bytes = loadBytes v.mem n.dataPtr n.dataLen from rfl, take_drop_loadBytes,
      length_loadBytes]
    unfold handleOf
    dsimp only
    rw [hk]
  | consoleIn =>
    unfold vfsReadDescriptor handleOf
    rw [if_neg h0, hdesc, ok_bind, hk]
    exact ⟨_, _, rfl, hc, rfl⟩
  | closed | consoleOut | directory =>
    unfold vfsReadDescriptor handleOf
    rw [if_neg h0, hdesc, ok_bind, hk]
    exact ⟨_, _, rfl, hc, rfl⟩

theorem readdir_agrees (id length : Nat) : Agrees (v, h) (.readdir id length) := by
  refine agrees_of_desc hi hc rfl rfl (fun h0 => ?_) (fun e h0 he => ?_) fun h0 hdesc => ?_
  · rw [vfsReply]
    unfold vfsReaddirDescriptor
    rw [if_pos h0]
    rfl
  · rw [vfsReply]
    unfold vfsReaddirDescriptor
    rw [if_neg h0, he]
    rfl
  rw [vfsReply]
  unfold vfsReaddirDescriptor handleOf
  rw [if_neg h0, hdesc, ok_bind]
  cases hk : (v.desc id).kind with
  | directory =>
    obtain ⟨hhead, hle⟩ := hc id hk
    have hnext := nextChild_spec v (v.desc id).path (v.desc id).offset
      (v.nodes.length - (v.desc id).offset)
    have hall := children_view v hhead
    rw [if_neg (by decide)]
    unfold FileSystem.readdir
    dsimp only
    rw [hall]
    cases hnc : nextChild v (v.desc id).path (v.desc id).offset
        (v.nodes.length - (v.desc id).offset) with
    | none =>
      rw [hnc] at hnext
      dsimp only at hnext
      rw [Nat.add_sub_cancel' hle] at hnext
      refine ⟨_, _, rfl, hc, ?_⟩
      rw [hnext, List.getElem?_eq_none (le_refl _)]
    | some r =>
      obtain ⟨child, next⟩ := r
      rw [hnc] at hnext
      obtain ⟨-, hnext, -, -, hlisted⟩ := hnext
      rw [Nat.add_sub_cancel' hle] at hnext
      have hprefix := listed_prefix v (v.desc id).path hnext
      rw [hlisted] at hprefix
      refine ⟨_, _, rfl, hc.set fun _ => ⟨hhead, hnext⟩, ?_⟩
      rw [getElem?_of_concat hprefix, view_setVfsDesc]
      unfold handleOf
      dsimp only
      rw [hlisted, List.length_append]
      rfl
  | closed | consoleIn | consoleOut | initramfsFile =>
    rw [if_pos (by decide)]
    exact ⟨_, _, rfl, hc, rfl⟩

theorem stat_agrees (id : Nat) : Agrees (v, h) (.stat id) := by
  refine agrees_of_desc hi hc rfl rfl (fun h0 => ?_) (fun e h0 he => ?_) fun h0 hdesc => ?_
  · rw [vfsReply]
    unfold vfsStatDescriptor
    rw [if_pos h0]
    rfl
  · rw [vfsReply]
    unfold vfsStatDescriptor
    rw [if_neg h0, he]
    rfl
  rw [vfsReply]
  unfold vfsStatDescriptor handleOf
  rw [if_neg h0, hdesc, ok_bind]
  cases hk : (v.desc id).kind with
  | directory =>
    refine ⟨_, _, rfl, hc, ?_⟩
    unfold FileSystem.stat
    dsimp only
    rw [children_view v (hc id hk).1, length_listed]
  | initramfsFile =>
    obtain ⟨n, hn, -⟩ := (hi.descs id).file hk
    dsimp only
    rw [vfsNode_ok hi.count hn]
    refine ⟨_, _, rfl, hc, ?_⟩
    unfold FileSystem.stat
    dsimp only
    rw [view_getElem?, hn, Option.map_some, Option.getD_some]
    unfold fileOf
    dsimp only
    rw [length_loadBytes]
  | closed | consoleIn | consoleOut => exact ⟨_, _, rfl, hc, rfl⟩

theorem close_agrees (id : Nat) : Agrees (v, h) (.close id) := by
  refine agrees_of_desc hi hc rfl rfl (fun h0 => ?_) (fun e h0 he => ?_) fun h0 hdesc => ?_
  · rw [vfsReply]
    unfold vfsCloseDescriptor
    rw [if_pos h0]
    rfl
  · rw [vfsReply]
    unfold vfsCloseDescriptor
    rw [if_neg h0, he]
    rfl
  rw [vfsReply]
  unfold vfsCloseDescriptor handleOf
  rw [if_neg h0, hdesc, ok_bind]
  cases hk : (v.desc id).kind with
  | closed => exact ⟨_, _, rfl, hc, rfl⟩
  | consoleIn | consoleOut | initramfsFile | directory =>
    rw [if_neg (by decide)]
    refine ⟨_, _, rfl, hc.set (cursorOk_other v (by decide)), ?_⟩
    rw [view_setVfsDesc]
    rfl

theorem call_agrees (c : VfsCall) : Agrees (v, h) c := by
  cases c with
  | openPath path flags => exact openPath_agrees hi hc path flags
  | write id bytes => exact write_agrees hi hc id bytes
  | read id length input => exact read_agrees hi hc id length input
  | readdir id length => exact readdir_agrees hi hc id length
  | stat id => exact stat_agrees hi hc id
  | close id => exact close_agrees hi hc id
  | consoleIn =>
    refine ⟨Moved.refl hi.heap, hc.alloc (cursorOk_other v fun hk => by cases hk), ?_⟩
    exact congrArg Except.ok (view_hand v ⟨.consoleIn, 0, 0, 0, []⟩)
  | consoleOut =>
    refine ⟨Moved.refl hi.heap, hc.alloc (cursorOk_other v fun hk => by cases hk), ?_⟩
    exact congrArg Except.ok (view_hand v ⟨.consoleOut, 0, 0, 0, []⟩)
  | use size mem =>
    refine ends_bind ((allocBytes_cost hi.heap size).mono (fun _ hr => hr) fun e he => Or.inl he) ?_
    intro r hr
    obtain ⟨hused, hptr⟩ := hr
    exact ⟨⟨⟨hused.ok.withMem mem, hused.ptr_le, hused.stop⟩, hptr⟩, hc, rfl⟩

end Calls

/-! ## Runs -/

theorem VfsReachable.cursorsOk {s : VfsState × Heap} (hs : VfsReachable s) : CursorsOk s.1 := by
  induction hs with
  | init hok hlens he =>
    intro id hk
    rw [(initVfs_started hok hlens he).2.1] at hk
    cases hk
  | @call s s' c hs he ih =>
    rw [vfsCall_eq] at he
    obtain ⟨r, hr, he⟩ := bind_eq_ok.mp he
    have hcursors := ((call_agrees hs.inv ih c).of_ok hr).2.1
    rwa [Except.ok.inj he] at hcursors

/-- What is left of the early heap. -/
def heapLeft (s : VfsState × Heap) : Nat := s.2.stop - s.2.ptr

theorem vfs_simulates : Simulates vfsReply FileSystem.call
    (fun s a => VfsReachable s ∧ view s.1 = a) FileSystem.cost heapLeft exhausted where
  call := by
    intro s a c hs
    obtain ⟨hs, rfl⟩ := hs
    have hle := hs.inv.heap.le
    have hagrees := call_agrees hs.inv hs.cursorsOk c
    unfold Agrees Short at hagrees
    dsimp only at hagrees
    unfold heapLeft
    cases hr : vfsReply s c with
    | ok r =>
      rw [hr] at hagrees
      obtain ⟨hm, -, hcall⟩ := hagrees
      have hstep : vfsCall s c = .ok r.2 := by
        rw [vfsCall_eq, hr]
        rfl
      have hptr := hm.2
      have hstop := hm.1.stop
      have hle' := hm.1.ok.le
      exact ⟨by omega, _, hcall, hs.call hstep, rfl⟩
    | error e =>
      rw [hr] at hagrees
      obtain ⟨hshort, he⟩ | ⟨hroom, hcall⟩ := hagrees
      · show if _ then _ else _
        rw [if_pos (by omega)]
        exact he
      · show if _ then _ else _
        rw [if_neg (by omega)]
        exact hcall

/-- In every run, the calls answer as they do on the view of the first state and leave the view of
    the last one, and take what `expense` says of the early heap. A run that does not return
    stops for lack of that much, or as the abstract one does. -/
theorem vfs_refines {s : VfsState × Heap} (hs : VfsReachable s) (cs : List VfsCall) :
    Ends (answers vfsReply s cs)
      (fun r => heapLeft s = heapLeft r.2 + expense FileSystem.call FileSystem.cost (view s.1) cs ∧
        answers FileSystem.call (view s.1) cs = .ok (r.1, view r.2.1))
      (fun e => if heapLeft s < expense FileSystem.call FileSystem.cost (view s.1) cs
        then e = exhausted else answers FileSystem.call (view s.1) cs = .error e) := by
  refine (vfs_simulates.run cs ⟨hs, rfl⟩).mono (fun r hr => ?_) fun _ he => he
  obtain ⟨hleft, a, hrun, -, rfl⟩ := hr
  exact ⟨hleft, hrun⟩

/-- A file is written through one descriptor and read back through another. -/
def writeAndRead : List VfsCall :=
  [.openPath tmpX 1, .write 1 [5, 6], .openPath tmpX 0, .read 2 9 []]

theorem vfs_refines_small : ∃ s r, smallRun [] = .ok s ∧ answers vfsReply s writeAndRead = .ok r ∧
    r.1.map Reply.bytes = [[], [], [], [5, 6]] ∧
    answers FileSystem.call (view s.1) writeAndRead = .ok (r.1, view r.2.1) := by
  obtain ⟨b, hb⟩ := exists_ok_of_isOk (x := smallRun [] >>= fun s =>
    answers vfsReply s writeAndRead >>= fun r =>
      if r.1.map Reply.bytes = [[], [], [], [5, 6]] then .ok () else .error "") (by decide +kernel)
  obtain ⟨s, hs, hb⟩ := bind_eq_ok.mp hb
  obtain ⟨r, hr, hb⟩ := bind_eq_ok.mp hb
  split_ifs at hb with hbytes
  exact ⟨s, r, hs, hr, hbytes, ((vfs_refines (smallRun_reachable hs) writeAndRead).of_ok hr).2⟩

end PcoOs.Vfs
