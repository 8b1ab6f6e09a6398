/-
  Runs of the file system: any sequence of calls, by whichever task, that does not panic. A call
  changes the node table in at most one way, which `callAct` reads off the state before it, sets
  at most one descriptor, and moves the heap pointer (`vfsCall_spec`). `FsInv` holds in every
  state of a run (`FsInv.run`): file descriptors point to files, and the buffers of the nodes are
  apart from each other and below the heap pointer, above which memory is still zero.
-/
import PcoOs.Vfs.Ops
import PcoOs.Vfs.RoundTrip

namespace PcoOs.Vfs

open PcoOs.Lib PcoOs.Support

/-! ## Calls -/

/-- The calls into the file system. `use` is any other use of the early heap, whose bytes it may
    change: file buffers are kept apart. -/
inductive VfsCall where
  | openPath (path : Bytes) (flags : Int)
  | write (descId : Nat) (bytes : Bytes)
  | read (descId length : Nat) (input : Bytes)
  | readdir (descId length : Nat)
  | stat (descId : Nat)
  | close (descId : Nat)
  | consoleIn
  | consoleOut
  | use (size : Nat) (mem : Mem)

def vfsCall (s : VfsState × Heap) : VfsCall → Except String (VfsState × Heap)
  | .openPath path flags => do
    let (_, v, heap) ← vfsOpenPath s.1 s.2 path flags
    .ok (v, heap)
  | .write descId bytes => do
    let (_, v, heap) ← vfsWriteDescriptor s.1 s.2 descId bytes
    .ok (v, heap)
  | .read descId length input => do
    let (_, _, v) ← vfsReadDescriptor s.1 input descId length
    .ok (v, s.2)
  | .readdir descId length => do
    let (_, _, v) ← vfsReaddirDescriptor s.1 descId length
    .ok (v, s.2)
  | .stat descId => do
    let _ ← vfsStatDescriptor s.1 descId
    .ok s
  | .close descId => do
    let (_, v) ← vfsCloseDescriptor s.1 descId
    .ok (v, s.2)
  | .consoleIn => .ok ((vfsAllocConsoleInDescriptor s.1).2, s.2)
  | .consoleOut => .ok ((vfsAllocConsoleOutDescriptor s.1).2, s.2)
  | .use size mem => do
    let (_, heap) ← allocBytes s.2 size
    .ok (s.1, { heap with mem := mem })

/-- The calls one after the other. -/
def vfsRun : VfsState × Heap → List VfsCall → Except String (VfsState × Heap)
  | s, [] => .ok s
  | s, c :: cs => do
    let s ← vfsCall s c
    vfsRun s cs

/-- What a call does to the node table and the buffers. -/
inductive NodeAct where
  | keep
  | create (path : Bytes)
  | truncate (nodeId : Nat)
  | write (nodeId offset : Nat) (bytes : Bytes)

def OpenPlan.act : OpenPlan → NodeAct
  | .create path => .create path
  | .truncate nodeId => .truncate nodeId
  | _ => .keep

def callAct (v : VfsState) : VfsCall → NodeAct
  | .openPath path flags => (openPlan v path flags).act
  | .write descId bytes =>
    if (writeTarget v descId bytes).isSome then
      .write (v.desc descId).nodeId (v.desc descId).offset bytes
    else .keep
  | _ => .keep

/-- The change itself. The heap may move further than the buffer of a write needs. -/
inductive NodeStep (v : VfsState) (h h' : Heap) : NodeAct → VfsState → Prop
  | keep (hm : HeapUsed h h') : NodeStep v h h' .keep v
  | create {path : Bytes} (hm : HeapUsed h h') (hnew : vfsLookupPath v path = none)
      (hc : canCreate v path = true) (hlt : v.nodes.length < maxVfsNodes) :
      NodeStep v h h' (.create path) (addNode v (newFile path))
  | truncate {nodeId : Nat} {n : Node} (hm : HeapUsed h h') (hn : v.nodes[nodeId]? = some n)
      (hk : n.kind = .file) (hw : n.flags &&& nodeFlagWritable ≠ 0) :
      NodeStep v h h' (.truncate nodeId) (setVfsNode v nodeId { n with dataLen := 0 })
  | write {nodeId offset : Nat} {bytes : Bytes} {n : Node} (hn : v.nodes[nodeId]? = some n)
      (hk : n.kind = .file) (hw : n.flags &&& nodeFlagWritable ≠ 0)
      (hg : Grown h h' n (offset + bytes.length)) :
      NodeStep v h h' (.write nodeId offset bytes) (writeNode v h nodeId n offset bytes)

/-- A file descriptor refers to a file, and a closed one has all slots zero. -/
structure DescOk (v : VfsState) (d : Desc) : Prop where
  file : d.kind = .initramfsFile → ∃ n, v.nodes[d.nodeId]? = some n ∧ n.kind = .file
  closed : d.kind = .closed → d = closedDesc

/-- A descriptor of a directory or of the console. -/
theorem descOk_other (v : VfsState) {d : Desc} (hf : d.kind ≠ .initramfsFile)
    (hc : d.kind ≠ .closed) : DescOk v d :=
  ⟨fun h => absurd h hf, fun h => absurd h hc⟩

theorem descOk_closed (v : VfsState) : DescOk v closedDesc :=
  ⟨(fun h => by cases h), fun _ => rfl⟩

theorem descOk_file {v : VfsState} {d : Desc} (hk : d.kind = .initramfsFile) {n : Node}
    (hn : v.nodes[d.nodeId]? = some n) (hf : n.kind = .file) : DescOk v d :=
  ⟨fun _ => ⟨n, hn, hf⟩, (fun h => by rw [hk] at h; cases h)⟩

/-- At most one descriptor is set. -/
def DescStep (v v' : VfsState) : Prop :=
  v' = v ∨ ∃ id d, 1 ≤ id ∧ id ≤ maxVfsDescriptors ∧ DescOk v d ∧ v' = setVfsDesc v id d

/-! ## The invariant -/

/-- Two buffers have no byte in common. -/
def Apart (a b : Node) : Prop :=
  a.dataPtr + a.dataCapacity ≤ b.dataPtr ∨ b.dataPtr + b.dataCapacity ≤ a.dataPtr

/-- The files fit their buffers, which lie below `stop`, one apart from the other. -/
structure BuffersOk (nodes : List Node) (stop : Nat) : Prop where
  len : ∀ (i : Nat) (n : Node), nodes[i]? = some n → n.dataLen ≤ n.dataCapacity
  below : ∀ (i : Nat) (n : Node), nodes[i]? = some n → n.dataPtr + n.dataCapacity ≤ stop
  apart : ∀ (i j : Nat) (a b : Node), nodes[i]? = some a → nodes[j]? = some b → i ≠ j → Apart a b

structure FsInv (v : VfsState) (h : Heap) : Prop where
  heap : HeapOk h
  count : v.nodes.length ≤ maxVfsNodes
  range : ∀ id, (v.desc id).kind ≠ .closed → 1 ≤ id ∧ id ≤ maxVfsDescriptors
  descs : ∀ id, DescOk v (v.desc id)
  buffers : BuffersOk v.nodes h.ptr
  fresh : ∀ x, h.ptr ≤ x → v.mem x = 0

theorem Apart.symm {a b : Node} (h : Apart a b) : Apart b a := Or.symm h

theorem BuffersOk.mono {nodes : List Node} {stop stop' : Nat} (h : BuffersOk nodes stop)
    (hle : stop ≤ stop') : BuffersOk nodes stop' :=
  ⟨h.len, fun i n hn => (h.below i n hn).trans hle, h.apart⟩

/-- A node of a table one of whose nodes was replaced. -/
theorem getElem?_set_some {nodes : List Node} {id i : Nat} {n a : Node}
    (h : (nodes.set id n)[i]? = some a) : (i = id ∧ a = n) ∨ (i ≠ id ∧ nodes[i]? = some a) := by
  by_cases hi : i = id
  · subst hi
    obtain ⟨hlt, he⟩ := List.getElem?_eq_some_iff.mp h
    rw [List.getElem_set_self] at he
    exact Or.inl ⟨rfl, he.symm⟩
  · rw [List.getElem?_set_ne (Ne.symm hi)] at h
    exact Or.inr ⟨hi, h⟩

theorem getElem?_append_some {nodes : List Node} {i : Nat} {n a : Node}
    (h : (nodes ++ [n])[i]? = some a) : (i = nodes.length ∧ a = n) ∨ nodes[i]? = some a := by
  rcases Nat.lt_or_ge i nodes.length with hlt | hge
  · rw [List.getElem?_append_left hlt] at h
    exact Or.inr h
  · rw [List.getElem?_append_right hge] at h
    obtain ⟨hi, hn⟩ := List.getElem?_eq_some_iff.mp h
    rw [List.length_singleton] at hi
    simp only [show i - nodes.length = 0 by omega, List.getElem_cons_zero] at hn
    exact Or.inl ⟨by omega, hn.symm⟩

/-- A node may be replaced by one with the same buffer, or with one that starts at `stop`. -/
theorem BuffersOk.set {nodes : List Node} {stop stop' id : Nat} {n n' : Node}
    (h : BuffersOk nodes stop) (hn : nodes[id]? = some n) (hlen : n'.dataLen ≤ n'.dataCapacity)
    (hle : stop ≤ stop') (hbelow : n'.dataPtr + n'.dataCapacity ≤ stop')
    (hbuf : (n'.dataPtr = n.dataPtr ∧ n'.dataCapacity = n.dataCapacity) ∨ stop ≤ n'.dataPtr) :
    BuffersOk (nodes.set id n') stop' := by
  have hother : ∀ (i : Nat) (a : Node), i ≠ id → nodes[i]? = some a → Apart a n' := by
    intro i a hi ha
    rcases hbuf with ⟨hp, hc⟩ | hp
    · have := h.apart i id a n ha hn hi
      unfold Apart at this ⊢
      rw [hp, hc]
      exact this
    · exact Or.inl ((h.below i a ha).trans hp)
  refine ⟨fun i a ha => ?_, fun i a ha => ?_, fun i j a b ha hb hij => ?_⟩
  · obtain ⟨-, rfl⟩ | ⟨-, ha⟩ := getElem?_set_some ha
    · exact hlen
    · exact h.len i a ha
  · obtain ⟨-, rfl⟩ | ⟨-, ha⟩ := getElem?_set_some ha
    · exact hbelow
    · exact (h.below i a ha).trans hle
  · obtain ⟨hi, he⟩ | ⟨hi, ha⟩ := getElem?_set_some ha
    · obtain ⟨hj, -⟩ | ⟨hj, hb⟩ := getElem?_set_some hb
      · exact absurd (hi.trans hj.symm) hij
      · exact he ▸ (hother j b hj hb).symm
    · obtain ⟨-, hb⟩ | ⟨-, hb⟩ := getElem?_set_some hb
      · exact hb ▸ hother i a hi ha
      · exact h.apart i j a b ha hb hij

theorem BuffersOk.append {nodes : List Node} {stop stop' : Nat} {n : Node}
    (h : BuffersOk nodes stop) (hlen : n.dataLen ≤ n.dataCapacity) (hle : stop ≤ stop')
    (hbelow : n.dataPtr + n.dataCapacity ≤ stop')
    (hbuf : n.dataPtr + n.dataCapacity = 0 ∨ stop ≤ n.dataPtr) :
    BuffersOk (nodes ++ [n]) stop' := by
  have hother : ∀ (i : Nat) (a : Node), nodes[i]? = some a → Apart a n := by
    intro i a ha
    have := h.below i a ha
    unfold Apart
    omega
  refine ⟨fun i a ha => ?_, fun i a ha => ?_, fun i j a b ha hb hij => ?_⟩
  · obtain ⟨-, rfl⟩ | ha := getElem?_append_some ha
    · exact hlen
    · exact h.len i a ha
  · obtain ⟨-, rfl⟩ | ha := getElem?_append_some ha
    · exact hbelow
    · exact (h.below i a ha).trans hle
  · obtain ⟨hi, he⟩ | ha := getElem?_append_some ha
    · obtain ⟨hj, -⟩ | hb := getElem?_append_some hb
      · exact absurd (hi.trans hj.symm) hij
      · exact he ▸ (hother j b hb).symm
    · obtain ⟨-, hb⟩ | hb := getElem?_append_some hb
      · exact hb ▸ hother i a ha
      · exact h.apart i j a b ha hb hij

/-! ## What a call does -/

theorem NodeKind.eq_file {k : NodeKind} (h : k ≠ .directory) : k = .file := by
  cases k with
  | file => rfl
  | directory => exact absurd rfl h

/-- A plan names nodes that are there. -/
def PlanOk (v : VfsState) : OpenPlan → Prop
  | .create path => vfsLookupPath v path = none ∧ canCreate v path = true
  | .truncate id => ∃ n, v.nodes[id]? = some n ∧ n.kind = .file ∧ n.flags &&& nodeFlagWritable ≠ 0
  | .file id => ∃ n, v.nodes[id]? = some n ∧ n.kind = .file
  | _ => True

theorem openPlan_ok (v : VfsState) (path : Bytes) (flags : Int) :
    PlanOk v (openPlan v path flags) := by
  unfold openPlan
  by_cases hf : flags < 0 ∨ flags > 3
  · rw [if_pos hf]
    trivial
  by_cases hs : path.head? ≠ some slash
  · rw [if_neg hf, if_pos hs]
    trivial
  by_cases hroot : normalForm path = [slash]
  · rw [if_neg hf, if_neg hs, if_pos hroot]
    trivial
  rw [if_neg hf, if_neg hs, if_neg hroot]
  cases hl : vfsLookupPath v (normalForm path) with
  | none =>
    dsimp only
    split_ifs with hc hd
    · exact ⟨hl, hc.2⟩
    · trivial
    · trivial
  | some id =>
    obtain ⟨n, hn, -⟩ := vfsLookupPath_spec hl
    dsimp only
    rw [hn]
    dsimp only
    split_ifs with hk ht
    · trivial
    · exact ⟨n, hn, NodeKind.eq_file hk, ht.2⟩
    · exact ⟨n, hn, NodeKind.eq_file hk⟩

theorem vfsAllocDescriptor_step {v v' : VfsState} {d : Desc} {id : Nat}
    (he : vfsAllocDescriptor v d = (id, v')) (hd : DescOk v d) : DescStep v v' := by
  rcases vfsAllocDescriptor_spec v d with ⟨-, h⟩ | ⟨id, h1, h32, -, h⟩
  · cases he.symm.trans h
    exact Or.inl rfl
  · cases he.symm.trans h
    exact Or.inr ⟨id, d, h1, h32, hd, rfl⟩

theorem runPlan_step {v v' : VfsState} {h h' : Heap} (hm : HeapUsed h h') {flags : Int} {id : Nat}
    {plan : OpenPlan} (hp : PlanOk v plan) (hr : runPlan v flags plan = .ok (id, v')) :
    ∃ v₁, NodeStep v h h' plan.act v₁ ∧ DescStep v₁ v' := by
  cases plan with
  | refuse =>
    cases hr
    exact ⟨v, .keep hm, Or.inl rfl⟩
  | directory path =>
    exact ⟨v, .keep hm, vfsAllocDescriptor_step (Except.ok.inj hr)
      (descOk_other v (fun h => by cases h) fun h => by cases h)⟩
  | file nodeId =>
    obtain ⟨n, hn, hk⟩ := hp
    exact ⟨v, .keep hm, vfsAllocDescriptor_step (Except.ok.inj hr) (descOk_file rfl hn hk)⟩
  | truncate nodeId =>
    obtain ⟨n, hn, hk, hw⟩ := hp
    have hlt := (List.getElem?_eq_some_iff.mp hn).1
    rw [runPlan, truncateNode, hn] at hr
    exact ⟨_, .truncate hm hn hk hw, vfsAllocDescriptor_step (Except.ok.inj hr)
      (descOk_file rfl (List.getElem?_set_self hlt) hk)⟩
  | create path =>
    rw [runPlan] at hr
    split_ifs at hr with hfull
    exact ⟨_, .create hm hp.1 hp.2 (not_le.mp hfull), vfsAllocDescriptor_step (Except.ok.inj hr)
      (descOk_file (n := newFile path) rfl (by simp [addNode, fileDesc]) rfl)⟩

theorem Advanced.descStep {v v' : VfsState} {id : Nat} (hd : DescOk v (v.desc id))
    (h : Advanced v v' id) : DescStep v v' := by
  obtain rfl | ⟨h1, h32, hopen, o, rfl⟩ := h
  · exact Or.inl rfl
  · exact Or.inr ⟨id, { v.desc id with offset := o }, h1, h32,
      ⟨hd.file, fun hc => absurd hc hopen⟩, rfl⟩

/-- A call changes the node table as `callAct` says and sets at most one descriptor. -/
theorem vfsCall_spec {s s' : VfsState × Heap} (hi : FsInv s.1 s.2) {c : VfsCall}
    (he : vfsCall s c = .ok s') :
    ∃ v₁, NodeStep s.1 s.2 s'.2 (callAct s.1 c) v₁ ∧ DescStep v₁ s'.1 := by
  have hkeep := NodeStep.keep (v := s.1) (HeapMoves.refl hi.heap).used
  cases c with
  | openPath path flags =>
    obtain ⟨⟨id, v, h⟩, ho, he⟩ := bind_eq_ok.mp he
    cases he
    obtain ⟨⟨hm, -⟩, hr⟩ := (vfsOpenPath_spec hi.heap s.1 path flags).of_ok ho
    exact runPlan_step hm.used (openPlan_ok s.1 path flags) hr
  | write id bytes =>
    obtain ⟨⟨r, v, h⟩, hw, he⟩ := bind_eq_ok.mp he
    cases he
    rw [callAct]
    obtain ⟨ht, rfl, rfl⟩ | ⟨n, ht, rfl, hg⟩ := vfsWriteDescriptor_cases hi.heap hw
    · rw [ht]
      exact ⟨_, hkeep, Or.inl rfl⟩
    · rw [ht]
      obtain ⟨⟨h1, h32, hk, -⟩, hn, hwr⟩ := writeTarget_eq_some.mp ht
      obtain ⟨n', hn', hfile⟩ := (hi.descs id).file hk
      cases hn.symm.trans hn'
      have hlt := (List.getElem?_eq_some_iff.mp hn).1
      refine ⟨_, .write hn hfile hwr hg, Or.inr ⟨id, { s.1.desc id with
        offset := (s.1.desc id).offset + bytes.length }, h1, h32, ?_, rfl⟩⟩
      exact descOk_file hk (List.getElem?_set_self hlt) ((grownNode_kind _ _ _).trans hfile)
  | read id length input =>
    obtain ⟨⟨r, bytes, v⟩, hr, he⟩ := bind_eq_ok.mp he
    cases he
    exact ⟨_, hkeep, (vfsReadDescriptor_advanced hr).descStep (hi.descs id)⟩
  | readdir id length =>
    obtain ⟨⟨r, bytes, v⟩, hr, he⟩ := bind_eq_ok.mp he
    cases he
    exact ⟨_, hkeep, (vfsReaddirDescriptor_advanced hr).descStep (hi.descs id)⟩
  | stat id =>
    obtain ⟨r, -, he⟩ := bind_eq_ok.mp he
    cases he
    exact ⟨_, hkeep, Or.inl rfl⟩
  | close id =>
    obtain ⟨⟨r, v⟩, hc, he⟩ := bind_eq_ok.mp he
    cases he
    refine ⟨_, hkeep, ?_⟩
    obtain ⟨-, rfl⟩ | ⟨-, h1, h32, -, rfl⟩ := vfsCloseDescriptor_spec hc
    · exact Or.inl rfl
    · exact Or.inr ⟨id, closedDesc, h1, h32, descOk_closed _, rfl⟩
  | consoleIn =>
    cases he
    exact ⟨_, hkeep, vfsAllocDescriptor_step rfl
      (descOk_other s.1 (fun h => by cases h) fun h => by cases h)⟩
  | consoleOut =>
    cases he
    exact ⟨_, hkeep, vfsAllocDescriptor_step rfl
      (descOk_other s.1 (fun h => by cases h) fun h => by cases h)⟩
  | use size mem =>
    obtain ⟨⟨p, h⟩, ha, he⟩ := bind_eq_ok.mp he
    cases he
    have hm := allocBytes_moves hi.heap size ha
    exact ⟨_, .keep ⟨hm.1.withMem mem, hm.2.ptr_le, hm.2.stop⟩, Or.inl rfl⟩

/-! ## Every run keeps the invariant -/

theorem le_grownCapacity (h : Heap) (n : Node) (c : Nat) : c ≤ (grownNode h n c).dataCapacity := by
  unfold grownNode
  split_ifs with hc
  · exact hc
  · exact le_growCapacity n c

theorem grownCapacity_le (h : Heap) (n : Node) (c : Nat) :
    n.dataCapacity ≤ (grownNode h n c).dataCapacity := by
  unfold grownNode
  split_ifs with hc
  · exact le_refl _
  · exact (not_le.mp hc).le.trans (le_growCapacity n c)

/-- A write changes bytes of the new buffer only. -/
theorem writeNode_mem {v : VfsState} {h : Heap} {id : Nat} {n : Node} {offset : Nat}
    {bytes : Bytes} {x : Nat} (hlen : n.dataLen ≤ n.dataCapacity)
    (hx : x < (grownNode h n (offset + bytes.length)).dataPtr ∨
      (grownNode h n (offset + bytes.length)).dataPtr +
        (grownNode h n (offset + bytes.length)).dataCapacity ≤ x) :
    (writeNode v h id n offset bytes).mem x = v.mem x := by
  have hroom := le_grownCapacity h n (offset + bytes.length)
  have hcap := grownCapacity_le h n (offset + bytes.length)
  unfold writeNode
  dsimp only
  rw [storeBytes_of_outside (by omega)]
  unfold grownMem
  split_ifs with hc
  · rfl
  · have hptr : (grownNode h n (offset + bytes.length)).dataPtr = h.ptr := by
      unfold grownNode
      rw [if_neg hc]
    exact copyBytes_of_outside (by omega)

/-- The new buffer is the old one, or starts at the heap pointer; it ends below the new one. -/
theorem Grown.buffer {h h' : Heap} {n : Node} {c : Nat} (hg : Grown h h' n c)
    (hb : n.dataPtr + n.dataCapacity ≤ h.ptr) :
    (((grownNode h n c).dataPtr = n.dataPtr ∧ (grownNode h n c).dataCapacity = n.dataCapacity) ∨
        h.ptr ≤ (grownNode h n c).dataPtr) ∧
      (grownNode h n c).dataPtr + (grownNode h n c).dataCapacity ≤ h'.ptr := by
  have hle := hg.1.2.ptr_le
  unfold grownNode
  split_ifs with hc
  · exact ⟨Or.inl ⟨rfl, rfl⟩, hb.trans hle⟩
  · exact ⟨Or.inr (le_refl _), hg.2 (not_le.mp hc)⟩

/-- Existing nodes keep their id, name, kind and flags. -/
def NodesKept (v v' : VfsState) : Prop :=
  ∀ (id : Nat) (n : Node), v.nodes[id]? = some n →
    ∃ n', v'.nodes[id]? = some n' ∧ n'.name = n.name ∧ n'.kind = n.kind ∧ n'.flags = n.flags

theorem NodesKept.refl (v : VfsState) : NodesKept v v := fun _ n hn => ⟨n, hn, rfl, rfl, rfl⟩

theorem NodesKept.trans {v v' v'' : VfsState} (h : NodesKept v v') (h' : NodesKept v' v'') :
    NodesKept v v'' := by
  intro id n hn
  obtain ⟨n', hn', e1, e2, e3⟩ := h id n hn
  obtain ⟨n'', hn'', f1, f2, f3⟩ := h' id n' hn'
  exact ⟨n'', hn'', f1.trans e1, f2.trans e2, f3.trans e3⟩

theorem nodesKept_set {v v' : VfsState} {id : Nat} {n n' : Node} (hn : v.nodes[id]? = some n)
    (hv : v'.nodes = v.nodes.set id n')
    (h : n'.name = n.name ∧ n'.kind = n.kind ∧ n'.flags = n.flags) : NodesKept v v' := by
  intro j a ha
  rw [hv]
  by_cases hj : j = id
  · subst hj
    cases hn.symm.trans ha
    exact ⟨n', List.getElem?_set_self (List.getElem?_eq_some_iff.mp hn).1, h⟩
  · exact ⟨a, by rwa [List.getElem?_set_ne (Ne.symm hj)], rfl, rfl, rfl⟩

theorem NodeStep.kept {v v' : VfsState} {h h' : Heap} {a : NodeAct}
    (hs : NodeStep v h h' a v') : NodesKept v v' := by
  cases hs with
  | keep => exact NodesKept.refl v
  | create =>
    intro id n hn
    refine ⟨n, ?_, rfl, rfl, rfl⟩
    unfold addNode
    rwa [List.getElem?_append_left (List.getElem?_eq_some_iff.mp hn).1]
  | truncate _ hn => exact nodesKept_set hn rfl ⟨rfl, rfl, rfl⟩
  | write hn => exact nodesKept_set hn rfl (by simp)

theorem NodeStep.desc {v v' : VfsState} {h h' : Heap} {a : NodeAct}
    (hs : NodeStep v h h' a v') : v'.desc = v.desc := by
  cases hs <;> rfl

theorem NodeStep.heap {v v' : VfsState} {h h' : Heap} {a : NodeAct}
    (hs : NodeStep v h h' a v') : HeapUsed h h' := by
  cases hs with
  | keep hm => exact hm
  | create hm => exact hm
  | truncate hm => exact hm
  | write _ _ _ hg => exact hg.1.used

theorem DescOk.kept {v v' : VfsState} {d : Desc} (h : DescOk v d) (hk : NodesKept v v') :
    DescOk v' d := by
  refine ⟨fun hf => ?_, h.closed⟩
  obtain ⟨n, hn, hfile⟩ := h.file hf
  obtain ⟨n', hn', -, e, -⟩ := hk _ n hn
  exact ⟨n', hn', e.trans hfile⟩

theorem FsInv.nodeStep {v v' : VfsState} {h h' : Heap} {a : NodeAct} (hi : FsInv v h)
    (hs : NodeStep v h h' a v') : FsInv v' h' := by
  have hle := hs.heap.ptr_le
  have hdescs : ∀ id, DescOk v' (v'.desc id) := by
    intro id
    rw [hs.desc]
    exact (hi.descs id).kept hs.kept
  have hrange : ∀ id, (v'.desc id).kind ≠ .closed → 1 ≤ id ∧ id ≤ maxVfsDescriptors := by
    rw [hs.desc]
    exact hi.range
  cases hs with
  | keep hm => exact ⟨hm.ok, hi.count, hi.range, hi.descs, hi.buffers.mono hle,
      fun x hx => hi.fresh x (hle.trans hx)⟩
  | create hm _ _ hlt =>
    refine ⟨hm.ok, ?_, hrange, hdescs, ?_, fun x hx => hi.fresh x (hle.trans hx)⟩
    · unfold addNode
      rw [List.length_append]
      exact hlt
    · exact hi.buffers.append (le_refl _) hle (Nat.zero_le _) (Or.inl rfl)
  | truncate hm hn =>
    refine ⟨hm.ok, ?_, hrange, hdescs, ?_, fun x hx => hi.fresh x (hle.trans hx)⟩
    · exact (List.length_set ..).trans_le hi.count
    · exact hi.buffers.set hn (Nat.zero_le _) hle ((hi.buffers.below _ _ hn).trans hle)
        (Or.inl ⟨rfl, rfl⟩)
  | @write id offset bytes n hn _ _ hg =>
    have hlen := hi.buffers.len _ _ hn
    obtain ⟨hbuf, hbelow⟩ := hg.buffer (hi.buffers.below _ _ hn)
    refine ⟨hg.1.1, ?_, hrange, hdescs, ?_, fun x hx => ?_⟩
    · exact (List.length_set ..).trans_le hi.count
    · refine hi.buffers.set hn ?_ hle hbelow hbuf
      exact max_le (hlen.trans (grownCapacity_le h n _)) (le_grownCapacity h n _)
    · rw [writeNode_mem hlen (Or.inr (hbelow.trans hx))]
      exact hi.fresh x (hle.trans hx)

theorem FsInv.descStep {v v' : VfsState} {h : Heap} (hi : FsInv v h) (hs : DescStep v v') :
    FsInv v' h := by
  obtain rfl | ⟨id, d, h1, h32, hd, rfl⟩ := hs
  · exact hi
  · refine ⟨hi.heap, hi.count, fun j hj => ?_, fun j => ?_, hi.buffers, hi.fresh⟩
    · unfold setVfsDesc at hj
      by_cases hji : j = id
      · exact hji ▸ ⟨h1, h32⟩
      · dsimp only at hj
        rw [Function.update_of_ne hji] at hj
        exact hi.range j hj
    · unfold setVfsDesc
      by_cases hji : j = id
      · subst hji
        dsimp only
        rw [Function.update_self]
        exact ⟨hd.file, hd.closed⟩
      · dsimp only
        rw [Function.update_of_ne hji]
        exact ⟨(hi.descs j).file, (hi.descs j).closed⟩

theorem FsInv.call {s s' : VfsState × Heap} {c : VfsCall} (hi : FsInv s.1 s.2)
    (he : vfsCall s c = .ok s') : FsInv s'.1 s'.2 := by
  obtain ⟨v, hn, hd⟩ := vfsCall_spec hi he
  exact (hi.nodeStep hn).descStep hd

/-- What every call keeps, every run keeps. -/
theorem vfsRun_keeps {P : VfsState × Heap → Prop}
    (hstep : ∀ s s' c, P s → vfsCall s c = .ok s' → P s') {s s' : VfsState × Heap}
    {cs : List VfsCall} (h : P s) (he : vfsRun s cs = .ok s') : P s' := by
  induction cs generalizing s with
  | nil =>
    cases he
    exact h
  | cons c cs ih =>
    obtain ⟨s₁, hc, he⟩ := bind_eq_ok.mp he
    exact ih (hstep s s₁ c h hc) he

theorem FsInv.run {s s' : VfsState × Heap} {cs : List VfsCall} (hi : FsInv s.1 s.2)
    (he : vfsRun s cs = .ok s') : FsInv s'.1 s'.2 :=
  vfsRun_keeps (P := fun s => FsInv s.1 s.2) (fun _ _ _ h hc => h.call hc) hi he

/-! ## The first state -/

/-- `init_vfs` copies this name and this data of entry `i`. -/
def EntryHolds (m : Mem) (ptr size : Int) (i : Nat) (e : Bytes × Bytes) : Prop :=
  ∃ nameLen dataLen, readEntry m ptr size i = .ok ⟨e.1, nameLen, e.2, dataLen⟩

theorem EntryHolds.unique {m : Mem} {ptr size : Int} {i : Nat} {e f : Bytes × Bytes}
    (h : EntryHolds m ptr size i e) (h' : EntryHolds m ptr size i f) : e = f := by
  obtain ⟨a, b, he⟩ := h
  obtain ⟨c, d, hf⟩ := h'
  have heq := Except.ok.inj (he.symm.trans hf)
  rw [Entry.mk.injEq] at heq
  exact Prod.ext heq.1 heq.2.2.1

/-- The image at `ptr` has these entries. -/
structure ImageHolds (m : Mem) (ptr size : Int) (entries : List (Bytes × Bytes)) : Prop where
  present : ptr ≠ 0 ∧ size ≠ 0
  count : vfsRawQword m (ptr + 16) = .ok (entries.length : Int)
  entry : ∀ i e, entries[i]? = some e → EntryHolds m ptr size i e

theorem imageHolds_buildImage {entries : List (Bytes × Bytes)} {m : Mem} {ptr : Nat}
    (h : Loaded m ptr (buildImage entries)) (hcount : entries.length < 2 ^ 63)
    (hne : (buildImage entries).length ≠ 0) :
    ImageHolds m ptr (buildImage entries).length entries :=
  ⟨⟨by have := h.pos; omega, by omega⟩, count_buildImage h hcount,
    fun _ _ hi => ⟨_, _, readEntry_buildImage h hi⟩⟩

/-- After `i` entries: a read-only file for each, and no descriptor open. -/
structure Started (m : Mem) (ptr size : Int) (i : Nat) (s : VfsState × Heap) : Prop where
  inv : FsInv s.1 s.2
  closed : s.1.desc = fun _ => closedDesc
  entries : ∃ es, es.length = i ∧
    (∀ (j : Nat) (e : Bytes × Bytes), es[j]? = some e → EntryHolds m ptr size j e) ∧
    List.Forall₂ (NodeHolds s.1.mem) es s.1.nodes

theorem fsInv_emptyVfs {h : Heap} (hok : HeapOk h) : FsInv emptyVfs h := by
  refine ⟨hok, Nat.zero_le _, fun id hid => absurd rfl hid, fun id => descOk_closed _, ?_,
    fun x _ => rfl⟩
  exact ⟨(fun i n hn => by cases hn), (fun i n hn => by cases hn), fun i j a b ha => by cases ha⟩

theorem initramfsEntry_started {m : Mem} {ptr size : Int} {i : Nat} (hlt : i < maxVfsNodes)
    (hlens : ∀ len, vfsRawQword m (ptr + 32 + i * 32 + 8) = .ok len ∨
      vfsRawQword m (ptr + 32 + i * 32 + 24) = .ok len → 0 ≤ len)
    {s : VfsState × Heap} (hs : Started m ptr size i s) :
    Ends (initramfsEntry m ptr size i s) (Started m ptr size (i + 1)) (fun _ => True) := by
  obtain ⟨v, h⟩ := s
  obtain ⟨hi, hclosed, es, hlen, hread, hnodes⟩ := hs
  dsimp only at hi hclosed hnodes
  unfold initramfsEntry
  refine ends_bind (P := fun e => readEntry m ptr size i = .ok e) (ends_iff_ok.mpr fun e he => he) ?_
  rintro e hentry
  obtain ⟨hname, hdata, hword, hnlen, hdlen⟩ := readEntry_spec hentry
  have hn0 := hlens _ (Or.inl hname)
  have hd0 := hlens _ (Or.inr hdata)
  refine ((placeEntry_spec (e := e) (by omega) hword (by omega) v hi.heap).mono ?_
    fun _ _ => trivial)
  rintro ⟨v', h'⟩ ⟨dst, hv, hm, hdst, hend, -⟩
  dsimp only at hv hm hend
  have hle := hm.2.ptr_le
  subst hv
  have hkept : ∀ x, x < h.ptr → storeBytes v.mem dst e.data x = v.mem x :=
    fun x hx => storeBytes_of_outside (by omega)
  refine ⟨⟨hm.1, ?_, ?_, ?_, ?_, fun x hx => ?_⟩, hclosed, es ++ [(e.name, e.data)], ?_, ?_, ?_⟩
  · rw [List.length_append, ← hnodes.length_eq, hlen]
    exact hlt
  · rw [hclosed]
    exact fun id hid => absurd rfl hid
  · rw [hclosed]
    exact fun id => descOk_closed _
  · exact hi.buffers.append (le_refl _) hle hend (Or.inr hdst)
  · dsimp only at hx ⊢
    rw [storeBytes_of_outside (by omega)]
    exact hi.fresh x (hle.trans hx)
  · rw [List.length_append, hlen, List.length_singleton]
  · intro j f hj
    rcases Nat.lt_or_ge j es.length with hlt' | hge
    · rw [List.getElem?_append_left hlt'] at hj
      exact hread j f hj
    · rw [List.getElem?_append_right hge] at hj
      obtain ⟨h0, hj⟩ := List.getElem?_eq_some_iff.mp hj
      rw [List.length_singleton] at h0
      simp only [show j - es.length = 0 by omega, List.getElem_cons_zero] at hj
      rw [show j = i by omega, ← hj]
      exact ⟨e.nameLen, e.dataLen, hentry⟩
  · refine List.rel_append ?_ (List.Forall₂.cons ?_ List.Forall₂.nil)
    · refine List.forall₂_iff_get.mpr ⟨hnodes.length_eq, fun j h1 h2 => ?_⟩
      have hget : v.nodes[j]? = some (v.nodes.get ⟨j, h2⟩) := List.getElem?_eq_getElem h2
      have hcap := hi.buffers.below j _ hget
      have hl := hi.buffers.len j _ hget
      exact (hnodes.get h1 h2).congr fun x _ hx => hkept x (by omega)
    · exact ⟨rfl, rfl, rfl, rfl, rfl, loadBytes_storeBytes _ _ _⟩

/-- `init_vfs` that returns has made a read-only file of each entry of the image, and `/tmp`. -/
theorem initVfs_started {m : Mem} {ptr size : Int} {heap h : Heap} {v : VfsState}
    (hok : HeapOk heap) (hlens : LengthsOk m ptr size) (he : initVfs m ptr size heap = .ok (v, h)) :
    FsInv v h ∧ v.desc = (fun _ => closedDesc) ∧
      (((ptr = 0 ∨ size = 0) ∧ v.nodes = []) ∨ ∃ es files, ImageHolds m ptr size es ∧
        v.nodes = files ++ [tmpNode] ∧ List.Forall₂ (NodeHolds v.mem) es files) := by
  unfold initVfs at he
  obtain ⟨⟨p₁, h₁⟩, e₁, he⟩ := bind_eq_ok.mp he
  have ok₁ := ((allocBytes_spec hok (by norm_num)).of_ok e₁).2.1
  obtain ⟨⟨p₂, h₂⟩, e₂, he⟩ := bind_eq_ok.mp he
  have ok₂ := ((allocBytes_spec ok₁ (by norm_num [maxVfsNodes])).of_ok e₂).2.1
  obtain ⟨⟨p₃, h₃⟩, e₃, he⟩ := bind_eq_ok.mp he
  have ok₃ := ((allocBytes_spec ok₂ (by norm_num [maxVfsDescriptors])).of_ok e₃).2.1
  dsimp only at ok₃ he
  have hempty := fsInv_emptyVfs ok₃
  by_cases h0 : ptr = 0 ∨ size = 0
  · rw [if_pos h0] at he
    cases he
    exact ⟨hempty, rfl, Or.inl ⟨h0, rfl⟩⟩
  rw [if_neg h0] at he
  split_ifs at he
  obtain ⟨magic, -, he⟩ := bind_eq_ok.mp he
  split_ifs at he
  obtain ⟨version, -, he⟩ := bind_eq_ok.mp he
  split_ifs at he
  obtain ⟨count, hcount, he⟩ := bind_eq_ok.mp he
  replace hlens := (or_iff_right (not_or.mp h0).2).mp ((or_iff_right (not_or.mp h0).1).mp hlens)
    count hcount
  by_cases hmax : count > maxVfsNodes
  · rw [if_pos hmax] at he
    cases he
  rw [if_neg hmax] at he
  obtain ⟨⟨v₄, h₄⟩, e₄, he⟩ := bind_eq_ok.mp he
  have hloop : Started m ptr size (0 + count.toNat) (v₄, h₄) :=
    (ends_loop (E := fun _ => True) (i := 0) (Started m ptr size)
      ⟨hempty, rfl, [], rfl, (fun j e hj => by cases hj), List.Forall₂.nil⟩
      fun j s _ hj hs => initramfsEntry_started (show j < maxVfsNodes by omega)
        (hlens j (by omega)) hs).of_ok e₄
  obtain ⟨hi, hclosed, es, hlen, hread, hnodes⟩ := hloop
  dsimp only at hi hclosed hnodes he
  obtain ⟨⟨p₅, h₅⟩, e₅, he⟩ := bind_eq_ok.mp he
  obtain ⟨-, ok₅, hg₅, -⟩ := (allocBytes_spec hi.heap (by norm_num)).of_ok e₅
  dsimp only at ok₅
  split_ifs at he with hfull hneg
  cases he
  have hle := hg₅.ptr_le
  have hlen₄ := hnodes.length_eq
  refine ⟨⟨ok₅, ?_, ?_, ?_, ?_, fun x hx => hi.fresh x (hle.trans hx)⟩, hclosed,
    Or.inr ⟨es, v₄.nodes, ⟨not_or.mp h0, ?_, hread⟩, rfl, hnodes⟩⟩
  · rw [List.length_append, List.length_singleton]
    omega
  · rw [hclosed]
    exact fun id hid => absurd rfl hid
  · rw [hclosed]
    exact fun id => descOk_closed _
  · exact hi.buffers.append (le_refl _) hle (Nat.zero_le _) (Or.inl rfl)
  · rw [hcount, hlen]
    congr 1
    omega

/-- The states of the file system over images without negative lengths: those `init_vfs` returns,
    and those calls lead to. -/
inductive VfsReachable : VfsState × Heap → Prop
  | init {m : Mem} {ptr size : Int} {heap : Heap} {s : VfsState × Heap} (hok : HeapOk heap)
      (hlens : LengthsOk m ptr size) (he : initVfs m ptr size heap = .ok s) : VfsReachable s
  | call {s s' : VfsState × Heap} {c : VfsCall} (hs : VfsReachable s)
      (he : vfsCall s c = .ok s') : VfsReachable s'

theorem VfsReachable.inv {s : VfsState × Heap} (h : VfsReachable s) : FsInv s.1 s.2 := by
  induction h with
  | init hok hlens he => exact (initVfs_started hok hlens he).1
  | call _ he ih => exact ih.call he

section Reach

variable {v v' : VfsState} {h h' : Heap}

theorem VfsReachable.openPath (hs : VfsReachable (v, h)) {path : Bytes} {flags : Int} {id : Nat}
    (he : vfsOpenPath v h path flags = .ok (id, v', h')) : VfsReachable (v', h') :=
  .call (c := .openPath path flags) hs (by rw [vfsCall, he]; rfl)

theorem VfsReachable.write (hs : VfsReachable (v, h)) {id : Nat} {bytes : Bytes} {r : Int}
    (he : vfsWriteDescriptor v h id bytes = .ok (r, v', h')) : VfsReachable (v', h') :=
  .call (c := .write id bytes) hs (by rw [vfsCall, he]; rfl)

theorem VfsReachable.read (hs : VfsReachable (v, h)) {id length : Nat} {input bytes : Bytes}
    {r : Int} (he : vfsReadDescriptor v input id length = .ok (r, bytes, v')) :
    VfsReachable (v', h) :=
  .call (c := .read id length input) hs (by rw [vfsCall, he]; rfl)

theorem VfsReachable.readdir (hs : VfsReachable (v, h)) {id length : Nat} {bytes : Bytes} {r : Int}
    (he : vfsReaddirDescriptor v id length = .ok (r, bytes, v')) : VfsReachable (v', h) :=
  .call (c := .readdir id length) hs (by rw [vfsCall, he]; rfl)

theorem VfsReachable.close (hs : VfsReachable (v, h)) {id : Nat} {r : Int}
    (he : vfsCloseDescriptor v id = .ok (r, v')) : VfsReachable (v', h) :=
  .call (c := .close id) hs (by rw [vfsCall, he]; rfl)

theorem VfsReachable.consoleIn (hs : VfsReachable (v, h)) :
    VfsReachable ((vfsAllocConsoleInDescriptor v).2, h) :=
  .call (c := .consoleIn) hs rfl

theorem VfsReachable.consoleOut (hs : VfsReachable (v, h)) :
    VfsReachable ((vfsAllocConsoleOutDescriptor v).2, h) :=
  .call (c := .consoleOut) hs rfl

theorem VfsReachable.use (hs : VfsReachable (v, h)) (hu : HeapUsed h h') :
    VfsReachable (v, h') := by
  obtain ⟨size, p, h₁, ha, he⟩ := hu.exists_alloc hs.inv.heap
  refine .call (c := .use size h'.mem) hs ?_
  rw [vfsCall, ha, he]
  rfl

end Reach

end PcoOs.Vfs
