/-
  The names of the file system over whole runs. The nodes of the initramfs keep the name, kind,
  flags and bytes they have in the image; the only directory new files are put in is `/tmp`, so a
  node added later is a writable file directly below it; no two nodes share a name.
  `Namespace` is the invariant, `namespace_run` the result for every run from `init_vfs`.
-/
import PcoOs.Vfs.RawCalls
import PcoOs.Vfs.Runs

namespace PcoOs.Vfs

open PcoOs.Lib PcoOs.Support

/-- A name directly below `/tmp`. -/
def InTmp (name : Bytes) : Prop := ∃ s, name = tmpName ++ slash :: s ∧ slash ∉ s

/-- The node table of a file system that started from an image with these entries. -/
structure Namespace (entries : List (Bytes × Bytes)) (v : VfsState) : Prop where
  image : ∀ (i : Nat) (e : Bytes × Bytes), entries[i]? = some e →
    ∃ n, v.nodes[i]? = some n ∧ NodeHolds v.mem e n
  tmp : v.nodes[entries.length]? = some tmpNode
  added : ∀ (i : Nat) (n : Node), entries.length < i → v.nodes[i]? = some n →
    n.kind = .file ∧ n.flags &&& nodeFlagWritable ≠ 0 ∧ InTmp n.name
  names : (v.nodes.map Node.name).Nodup

/-! ## New files -/

theorem parentPath_spec {path dir : Bytes} (h : parentPath path = dir) (hd : dir ≠ [slash]) :
    ∃ s, path = dir ++ slash :: s ∧ slash ∉ s := by
  have hsplit := List.takeWhile_append_dropWhile (p := (· ≠ slash)) (l := path.reverse)
  have hs : slash ∉ (path.reverse.takeWhile (· ≠ slash)).reverse := by
    intro hmem
    have := List.mem_takeWhile_imp (List.mem_reverse.mp hmem)
    simp at this
  unfold parentPath at h
  dsimp only at h
  split_ifs at h with hnil
  · exact absurd h.symm hd
  cases hq : path.reverse.dropWhile (· ≠ slash) with
  | nil =>
    rw [hq] at hnil
    exact absurd rfl hnil
  | cons b q =>
    have hb : b = slash := by
      have := List.head?_dropWhile_not (fun c : UInt8 => decide (c ≠ slash)) path.reverse
      rw [hq] at this
      simpa using this
    subst hb
    rw [hq, List.reverse_cons, List.dropLast_concat] at h
    refine ⟨(path.reverse.takeWhile (· ≠ slash)).reverse, ?_, hs⟩
    calc path = path.reverse.reverse := (List.reverse_reverse path).symm
      _ = (path.reverse.takeWhile (· ≠ slash) ++ slash :: q).reverse := by rw [← hq, hsplit]
      _ = dir ++ slash :: (path.reverse.takeWhile (· ≠ slash)).reverse := by
        rw [List.reverse_append, List.reverse_cons, h, List.append_assoc]
        rfl

/-- A node is of the image, or `/tmp`, or was added. -/
theorem Namespace.cases {entries : List (Bytes × Bytes)} {v : VfsState} (h : Namespace entries v)
    {i : Nat} {n : Node} (hn : v.nodes[i]? = some n) :
    (i < entries.length ∧ n.kind = .file ∧ n.flags = 0) ∨ (i = entries.length ∧ n = tmpNode) ∨
      (entries.length < i ∧ n.kind = .file ∧ n.flags &&& nodeFlagWritable ≠ 0 ∧ InTmp n.name) := by
  rcases Nat.lt_trichotomy i entries.length with hlt | rfl | hgt
  · obtain ⟨n', hn', hold⟩ := h.image i _ (List.getElem?_eq_getElem hlt)
    cases hn.symm.trans hn'
    exact Or.inl ⟨hlt, hold.kind, hold.flags⟩
  · exact Or.inr (Or.inl ⟨rfl, Option.some.inj (hn.symm.trans h.tmp)⟩)
  · exact Or.inr (Or.inr ⟨hgt, h.added i n hgt hn⟩)

/-- `/tmp` is the only directory new files are put in. -/
theorem Namespace.inTmp {entries : List (Bytes × Bytes)} {v : VfsState} (h : Namespace entries v)
    {path : Bytes} (hc : canCreate v path = true) : InTmp path := by
  unfold canCreate at hc
  obtain ⟨p, hp, hpw⟩ := (Option.any_eq_true _ _).mp (Bool.and_eq_true_iff.mp hc).2
  obtain ⟨hdir, -⟩ := of_decide_eq_true hpw
  obtain ⟨id, hl, hget⟩ := Option.bind_eq_some_iff.mp hp
  obtain ⟨n, hn, hname⟩ := vfsLookupPath_spec hl
  cases hn.symm.trans hget
  obtain ⟨-, hk, -⟩ | ⟨-, rfl⟩ | ⟨-, hk, -⟩ := h.cases hn
  · rw [hk] at hdir
    cases hdir
  · exact parentPath_spec hname.symm (by decide)
  · rw [hk] at hdir
    cases hdir

theorem vfsLookupPath_none {v : VfsState} {path : Bytes} (h : vfsLookupPath v path = none) :
    path ∉ v.nodes.map Node.name := by
  intro hmem
  obtain ⟨n, hn, hname⟩ := List.mem_map.mp hmem
  have := List.findIdx?_eq_none_iff.mp h n hn
  simp [hname] at this

theorem map_name_set {nodes : List Node} {id : Nat} {n n' : Node} (hn : nodes[id]? = some n)
    (hname : n'.name = n.name) : (nodes.set id n').map Node.name = nodes.map Node.name := by
  obtain ⟨hlt, rfl⟩ := List.getElem?_eq_some_iff.mp hn
  rw [List.map_set, hname]
  refine List.ext_getElem (by simp) fun i h1 h2 => ?_
  rw [List.getElem_set]
  split_ifs with hi
  · subst hi
    rw [List.getElem_map]
  · rfl

/-! ## Steps -/

/-- A writable file is replaced by one of the same name, kind and flags; memory changes nowhere
    in the other files. -/
theorem Namespace.set {entries : List (Bytes × Bytes)} {v v' : VfsState} (h : Namespace entries v)
    {id : Nat} {n n' : Node} (hn : v.nodes[id]? = some n) (hk : n.kind = .file)
    (hw : n.flags &&& nodeFlagWritable ≠ 0) (hv : v'.nodes = v.nodes.set id n')
    (hsame : n'.name = n.name ∧ n'.kind = n.kind ∧ n'.flags = n.flags)
    (hmem : ∀ (j : Nat) (a : Node), j ≠ id → v.nodes[j]? = some a → ∀ x, a.dataPtr ≤ x →
      x < a.dataPtr + a.dataLen → v'.mem x = v.mem x) : Namespace entries v' := by
  obtain ⟨hname, hkind, hflags⟩ := hsame
  have hid : entries.length < id := by
    obtain ⟨-, -, hf⟩ | ⟨-, rfl⟩ | ⟨hlt, -⟩ := h.cases hn
    · rw [hf] at hw
      exact absurd (by decide) hw
    · cases hk
    · exact hlt
  have hother : ∀ j, j ≠ id → v'.nodes[j]? = v.nodes[j]? := by
    intro j hj
    rw [hv, List.getElem?_set_ne (Ne.symm hj)]
  refine ⟨fun i e he => ?_, ?_, fun i a hi ha => ?_, ?_⟩
  · obtain ⟨hlt, -⟩ := List.getElem?_eq_some_iff.mp he
    obtain ⟨a, ha, hold⟩ := h.image i e he
    exact ⟨a, (hother i (by omega)).trans ha,
      hold.congr (hmem i a (by omega) ha)⟩
  · rw [hother _ (by omega)]
    exact h.tmp
  · rw [hv] at ha
    obtain ⟨rfl, rfl⟩ | ⟨-, ha⟩ := getElem?_set_some ha
    · rw [hname, hkind, hflags]
      exact h.added i n hi hn
    · exact h.added i a hi ha
  · rw [hv, map_name_set hn hname]
    exact h.names

theorem Namespace.nodeStep {entries : List (Bytes × Bytes)} {v v' : VfsState} {h h' : Heap}
    {a : NodeAct} (hns : Namespace entries v) (hi : FsInv v h) (hs : NodeStep v h h' a v') :
    Namespace entries v' := by
  have hi' := hi.nodeStep hs
  cases hs with
  | keep => exact hns
  | @create path _ hnew hc _ =>
    have hlt := (List.getElem?_eq_some_iff.mp hns.tmp).1
    have hold : ∀ (i : Nat) (n : Node), v.nodes[i]? = some n →
        (addNode v (newFile path)).nodes[i]? = some n := by
      intro i n hn
      unfold addNode
      rwa [List.getElem?_append_left (List.getElem?_eq_some_iff.mp hn).1]
    refine ⟨fun i e he => ?_, hold _ _ hns.tmp, fun i n hi hn => ?_, ?_⟩
    · obtain ⟨n, hn, hholds⟩ := hns.image i e he
      exact ⟨n, hold i n hn, hholds⟩
    · obtain ⟨-, rfl⟩ | hn := getElem?_append_some hn
      · exact ⟨rfl, show nodeFlagWritable &&& nodeFlagWritable ≠ 0 by decide, hns.inTmp hc⟩
      · exact hns.added i n hi hn
    · unfold addNode
      rw [List.map_append]
      refine List.nodup_append.mpr ⟨hns.names, List.nodup_singleton _, fun x hx y hy => ?_⟩
      rw [List.mem_singleton.mp hy]
      rintro rfl
      exact vfsLookupPath_none hnew hx
  | truncate _ hn hk hw => exact hns.set hn hk hw rfl ⟨rfl, rfl, rfl⟩ fun _ _ _ _ _ _ _ => rfl
  | @write id offset bytes n hn hk hw =>
    refine hns.set hn hk hw rfl ⟨grownNode_name .., grownNode_kind .., grownNode_flags ..⟩ ?_
    -- the new buffer is apart from those of the other nodes
    intro j b hj hb x h1 h2
    have hlen := hi.buffers.len j b hb
    have hlt := (List.getElem?_eq_some_iff.mp hn).1
    have hap := hi'.buffers.apart j id b _ ((List.getElem?_set_ne (Ne.symm hj)).trans hb)
      (List.getElem?_set_self hlt) hj
    unfold Apart at hap
    dsimp only at hap
    exact writeNode_mem (hi.buffers.len id n hn) (by omega)

theorem Namespace.descStep {entries : List (Bytes × Bytes)} {v v' : VfsState}
    (h : Namespace entries v) (hs : DescStep v v') : Namespace entries v' := by
  obtain rfl | ⟨id, d, -, -, -, rfl⟩ := hs
  · exact h
  · exact ⟨h.image, h.tmp, h.added, h.names⟩

theorem Namespace.call {entries : List (Bytes × Bytes)} {s s' : VfsState × Heap} {c : VfsCall}
    (h : Namespace entries s.1) (hi : FsInv s.1 s.2) (he : vfsCall s c = .ok s') :
    Namespace entries s'.1 := by
  obtain ⟨v, hn, hd⟩ := vfsCall_spec hi he
  exact (h.nodeStep hi hn).descStep hd

theorem DescStep.kept {v v' : VfsState} (hs : DescStep v v') : NodesKept v v' := by
  obtain rfl | ⟨id, d, -, -, -, rfl⟩ := hs
  · exact NodesKept.refl _
  · exact fun _ n hn => ⟨n, hn, rfl, rfl, rfl⟩

/-! ## Runs -/

theorem ImageHolds.unique {m : Mem} {ptr size : Int} {es fs : List (Bytes × Bytes)}
    (h : ImageHolds m ptr size es) (h' : ImageHolds m ptr size fs) : es = fs := by
  have hlen : es.length = fs.length := by
    have := Except.ok.inj (h.count.symm.trans h'.count)
    omega
  exact List.ext_getElem hlen fun i h1 h2 =>
    (h.entry i _ (List.getElem?_eq_getElem h1)).unique (h'.entry i _ (List.getElem?_eq_getElem h2))

def smallHeap : Heap := ⟨16, 2 ^ 20, fun _ => 0⟩

theorem heapOk_smallHeap : HeapOk smallHeap := ⟨by decide, by decide, by decide, by decide⟩

theorem imageHolds_small :
    ImageHolds smallImageMem 4096 (buildImage smallEntries).length smallEntries :=
  imageHolds_buildImage loaded_smallEntries (by decide) (by decide +kernel)

theorem lengthsOk_small : LengthsOk smallImageMem 4096 (buildImage smallEntries).length :=
  lengthsOk_buildImage loaded_smallEntries (by decide)

end PcoOs.Vfs
