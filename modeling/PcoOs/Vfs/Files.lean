/-
  The contents of files over whole runs. `file_io` says what one write or read does in any state
  a run reaches. `contents_write` compares a write with `overwrite`, which fills a gap in front of
  the new bytes with zeros: the two agree exactly when the buffer holds no stale byte there
  (`GapClean`). Truncation keeps the buffer, so stale bytes do exist
  (`truncate_keeps_stale_bytes`); `truncate_discards` is the law for the runs without them.
-/
import PcoOs.Vfs.Namespace

namespace PcoOs.Vfs

open PcoOs.Lib PcoOs.Support

/-- The bytes of a file. -/
def contents (v : VfsState) (id : Nat) : Bytes :=
  match v.nodes[id]? with
  | none => []
  | some n => loadBytes v.mem n.dataPtr n.dataLen

theorem contents_eq {v : VfsState} {id : Nat} {n : Node} (hn : v.nodes[id]? = some n) :
    contents v id = loadBytes v.mem n.dataPtr n.dataLen := by
  unfold contents
  rw [hn]

theorem getElem?_loadBytes (m : Mem) (a n i : Nat) :
    (loadBytes m a n)[i]? = if i < n then some (m (a + i)) else none := by
  split_ifs with hi
  · rw [List.getElem?_eq_getElem (by simpa using hi), getElem_loadBytes]
  · exact List.getElem?_eq_none (by simpa using hi)

/-! ## One write -/

section Write

variable {v : VfsState} {h : Heap} {id : Nat} {n : Node} {offset : Nat} {bytes : Bytes}

/-- The node after a write. -/
def writtenNode (h : Heap) (n : Node) (offset : Nat) (bytes : Bytes) : Node :=
  { grownNode h n (offset + bytes.length) with dataLen := max n.dataLen (offset + bytes.length) }

theorem writeNode_node (hn : v.nodes[id]? = some n) :
    (writeNode v h id n offset bytes).nodes[id]? = some (writtenNode h n offset bytes) :=
  List.getElem?_set_self (List.getElem?_eq_some_iff.mp hn).1

theorem getElem?_contents_write (hn : v.nodes[id]? = some n) (i : Nat) :
    (contents (writeNode v h id n offset bytes) id)[i]? =
      if i < max n.dataLen (offset + bytes.length) then
        some ((writeNode v h id n offset bytes).mem ((writtenNode h n offset bytes).dataPtr + i))
      else none := by
  rw [contents_eq (writeNode_node hn), getElem?_loadBytes]
  rfl

/-- The bytes written. -/
theorem writeNode_at_new {i : Nat} (hi : i < bytes.length) :
    (writeNode v h id n offset bytes).mem ((writtenNode h n offset bytes).dataPtr + (offset + i)) =
      bytes[i] := by
  unfold writeNode writtenNode
  dsimp only
  rw [← Nat.add_assoc, storeBytes_at hi]

/-- The bytes of the file that are not written over. -/
theorem writeNode_at_old (hi : FsInv v h) (hn : v.nodes[id]? = some n) {i : Nat}
    (hlen : i < n.dataLen) (hout : i < offset ∨ offset + bytes.length ≤ i) :
    (writeNode v h id n offset bytes).mem ((writtenNode h n offset bytes).dataPtr + i) =
      v.mem (n.dataPtr + i) := by
  have hcap := hi.buffers.len id n hn
  have hbelow := hi.buffers.below id n hn
  unfold writeNode writtenNode
  dsimp only
  rw [storeBytes_of_outside (by omega)]
  unfold grownMem grownNode
  split_ifs with hc
  · rfl
  · exact copyBytes_at (Or.inr (by omega)) hlen

/-- The bytes between the end of the file and the first byte written: what the buffer holds
    there, and zeros when the buffer is a new one. -/
theorem writeNode_at_gap (hi : FsInv v h) {i : Nat} (hlen : n.dataLen ≤ i) (hout : i < offset) :
    (writeNode v h id n offset bytes).mem ((writtenNode h n offset bytes).dataPtr + i) =
      if offset + bytes.length ≤ n.dataCapacity then v.mem (n.dataPtr + i) else 0 := by
  unfold writeNode writtenNode
  dsimp only
  rw [storeBytes_of_outside (by omega)]
  unfold grownMem grownNode
  split_ifs with hc
  · rfl
  · dsimp only
    rw [copyBytes_of_outside (by omega)]
    exact hi.fresh _ (by omega)

/-- Other files keep their bytes. -/
theorem contents_write_ne {h' : Heap} (hi : FsInv v h) (hn : v.nodes[id]? = some n)
    (hg : Grown h h' n (offset + bytes.length)) {j : Nat} (hj : j ≠ id) :
    contents (writeNode v h id n offset bytes) j = contents v j := by
  have hsame : (writeNode v h id n offset bytes).nodes[j]? = v.nodes[j]? :=
    List.getElem?_set_ne (Ne.symm hj)
  cases ha : v.nodes[j]? with
  | none =>
    unfold contents
    rw [hsame, ha]
  | some a =>
    rw [contents_eq ha, contents_eq (hsame.trans ha)]
    refine loadBytes_congr fun i hlt => writeNode_mem (hi.buffers.len id n hn) ?_
    have hlen := hi.buffers.len j a ha
    have hbelow := hi.buffers.below j a ha
    have hap := hi.buffers.apart j id a n ha hn hj
    unfold Apart at hap
    obtain ⟨⟨h1, h2⟩ | h1, -⟩ := hg.buffer (hi.buffers.below id n hn)
    · omega
    · omega

end Write

/-! ## Reading and writing through a descriptor -/

/-- What a write of `bytes` through descriptor `d` promises. -/
structure WriteDone (v v' : VfsState) (d : Nat) (bytes : Bytes) : Prop where
  length : (contents v' (v.desc d).nodeId).length =
    max (contents v (v.desc d).nodeId).length ((v.desc d).offset + bytes.length)
  written : ∀ i, i < bytes.length →
    (contents v' (v.desc d).nodeId)[(v.desc d).offset + i]? = bytes[i]?
  kept : ∀ i, i < (contents v (v.desc d).nodeId).length →
    (i < (v.desc d).offset ∨ (v.desc d).offset + bytes.length ≤ i) →
    (contents v' (v.desc d).nodeId)[i]? = (contents v (v.desc d).nodeId)[i]?
  offset : v'.desc d = { v.desc d with offset := (v.desc d).offset + bytes.length }
  otherFiles : ∀ j, j ≠ (v.desc d).nodeId → contents v' j = contents v j
  otherDescs : ∀ d', d' ≠ d → v'.desc d' = v.desc d'

/-- What a read of at most `length` bytes through descriptor `d` promises. -/
structure ReadDone (v v' : VfsState) (d length : Nat) (bytes : Bytes) : Prop where
  count : bytes.length = min length ((contents v (v.desc d).nodeId).length - (v.desc d).offset)
  copied : bytes = ((contents v (v.desc d).nodeId).drop (v.desc d).offset).take bytes.length
  offset : v'.desc d = { v.desc d with offset := (v.desc d).offset + bytes.length }
  otherDescs : ∀ d', d' ≠ d → v'.desc d' = v.desc d'
  files : v'.nodes = v.nodes ∧ v'.mem = v.mem

theorem writeDone {v : VfsState} {h h' : Heap} {d : Nat} {n : Node} {bytes : Bytes}
    (hi : FsInv v h) (hn : v.nodes[(v.desc d).nodeId]? = some n)
    (hg : Grown h h' n ((v.desc d).offset + bytes.length)) :
    WriteDone v (setVfsDesc (writeNode v h (v.desc d).nodeId n (v.desc d).offset bytes) d
      { v.desc d with offset := (v.desc d).offset + bytes.length }) d bytes := by
  have hc : ∀ j, contents (setVfsDesc (writeNode v h (v.desc d).nodeId n (v.desc d).offset bytes) d
      { v.desc d with offset := (v.desc d).offset + bytes.length }) j =
      contents (writeNode v h (v.desc d).nodeId n (v.desc d).offset bytes) j := fun _ => rfl
  refine ⟨?_, fun i hlt => ?_, fun i hlt hout => ?_, Function.update_self .., fun j hj => ?_,
    fun d' hd => Function.update_of_ne hd ..⟩
  · rw [hc, contents_eq hn, contents_eq (writeNode_node hn), length_loadBytes, length_loadBytes]
    rfl
  · rw [hc, getElem?_contents_write hn, if_pos (lt_of_lt_of_le (by omega) (le_max_right _ _)),
      writeNode_at_new hlt, List.getElem?_eq_getElem hlt]
  · rw [contents_eq hn, length_loadBytes] at hlt
    rw [hc, getElem?_contents_write hn, if_pos (lt_of_lt_of_le hlt (le_max_left _ _)),
      writeNode_at_old hi hn hlt hout, contents_eq hn, getElem?_loadBytes, if_pos hlt]
  · rw [hc]
    exact contents_write_ne hi hn hg hj

theorem readDone {v v' : VfsState} {d length : Nat} {n : Node} {r : Int} {input bytes : Bytes}
    (h1 : 1 ≤ d) (h32 : d ≤ maxVfsDescriptors) (hk : (v.desc d).kind = .initramfsFile)
    (hn : v.nodes[(v.desc d).nodeId]? = some n) (hmax : v.nodes.length ≤ maxVfsNodes)
    (he : vfsReadDescriptor v input d length = .ok (r, bytes, v')) :
    r = bytes.length ∧ ReadDone v v' d length bytes := by
  cases (vfsReadDescriptor_file h1 h32 hk hn hmax input length).symm.trans he
  refine ⟨by rw [length_loadBytes], ?_, ?_, ?_, fun d' hd => Function.update_of_ne hd .., rfl, rfl⟩
  · rw [length_loadBytes, contents_eq hn, length_loadBytes]
  · rw [length_loadBytes, contents_eq hn]
    by_cases hend : n.dataLen ≤ (v.desc d).offset
    · rw [show n.dataLen - (v.desc d).offset = 0 by omega, Nat.min_zero]
      rfl
    · exact loadBytes_slice (by omega)
  · rw [length_loadBytes]
    exact Function.update_self ..

/-- In every state of a run, for a descriptor on a file: a write that does not overflow returns
    its length and does what `WriteDone` says, unless the file has to grow and the heap has no
    room; a read returns and does what `ReadDone` says; files fit their buffers, which are apart. -/
theorem file_io {s : VfsState × Heap} (hs : VfsReachable s) {d : Nat} {n : Node}
    (hk : (s.1.desc d).kind = .initramfsFile) (hn : s.1.nodes[(s.1.desc d).nodeId]? = some n) :
    (∀ bytes : Bytes, n.flags &&& nodeFlagWritable ≠ 0 →
      (s.1.desc d).offset + bytes.length < 2 ^ 63 →
      Ends (vfsWriteDescriptor s.1 s.2 d bytes)
        (fun r => r.1 = bytes.length ∧ WriteDone s.1 r.2.1 d bytes)
        (fun _ => n.dataCapacity < (s.1.desc d).offset + bytes.length ∧
          s.2.stop < s.2.ptr + growCapacity n ((s.1.desc d).offset + bytes.length) + 16)) ∧
    (∀ (input : Bytes) (length : Nat), ∃ bytes v',
      vfsReadDescriptor s.1 input d length = .ok ((bytes.length : Int), bytes, v') ∧
      ReadDone s.1 v' d length bytes) ∧
    BuffersOk s.1.nodes s.2.ptr := by
  have hi := hs.inv
  obtain ⟨h1, h32⟩ := hi.range d (by rw [hk]; decide)
  refine ⟨fun bytes hw hfit => ?_, fun input length => ?_, hi.buffers⟩
  · refine (vfsWriteDescriptor_file hi.heap h1 h32 hk hn hw ?_).mono ?_ ?_
    · rw [wrap_of_range (by omega) (by omega)]
      omega
    · rintro ⟨r, v', h'⟩ ⟨hr, hv, hg⟩
      dsimp only at hr hv hg ⊢
      rw [hv]
      exact ⟨hr, writeDone hi hn hg⟩
    · rintro - (hfull | hroom)
      · exact absurd hi.count (not_le.mpr hfull)
      · exact hroom
  · have he := vfsReadDescriptor_file h1 h32 hk hn hi.count input length
    obtain ⟨hr, hread⟩ := readDone h1 h32 hk hn hi.count he
    exact ⟨_, _, by rw [he, length_loadBytes], hread⟩

def tmpX : Bytes := [47, 116, 109, 112, 47, 120]

/-- The small image, with the calls made on it. -/
def smallRun (cs : List VfsCall) : Except String (VfsState × Heap) := do
  let s ← initVfs smallImageMem 4096 (buildImage smallEntries).length smallHeap
  vfsRun s cs

theorem VfsReachable.run {s s' : VfsState × Heap} (h : VfsReachable s) {cs : List VfsCall}
    (he : vfsRun s cs = .ok s') : VfsReachable s' :=
  vfsRun_keeps (fun _ _ _ hs hc => .call hs hc) h he

theorem smallRun_reachable {cs : List VfsCall} {s : VfsState × Heap} (h : smallRun cs = .ok s) :
    VfsReachable s := by
  obtain ⟨s₀, h₀, h⟩ := bind_eq_ok.mp h
  exact (VfsReachable.init heapOk_smallHeap lengthsOk_small h₀).run h

/-- Two bytes written to the new file `/tmp/x`. -/
theorem file_io_small : ∃ s, smallRun [.openPath tmpX 1] = .ok s ∧
    ∃ r, vfsWriteDescriptor s.1 s.2 1 [5, 6] = .ok r ∧ WriteDone s.1 r.2.1 1 [5, 6] := by
  obtain ⟨b, hb⟩ := exists_ok_of_isOk (x := smallRun [.openPath tmpX 1] >>= fun s =>
    if s.1.desc 1 = fileDesc 1 3 ∧ s.1.nodes[3]? = some (newFile tmpX) ∧ s.2.ptr + 80 ≤ s.2.stop
    then .ok () else .error "") (by decide +kernel)
  obtain ⟨s, hs, hb⟩ := bind_eq_ok.mp hb
  split_ifs at hb with hcond
  obtain ⟨hd, hn, hroom⟩ := hcond
  obtain ⟨hwrite, -⟩ := file_io (smallRun_reachable hs) (d := 1) (n := newFile tmpX)
    (by rw [hd]; rfl) (by rw [hd]; exact hn)
  obtain ⟨r, hr, -, hdone⟩ := (hwrite [5, 6] (by decide) (by rw [hd]; decide)).exists_ok fun _ he => by
    rw [hd] at he
    have : growCapacity (newFile tmpX) ((fileDesc 1 3).offset + [5, 6].length) = 64 := by decide
    omega
  exact ⟨s, hs, r, hr, hdone⟩

/-- The second entry is `/b` with -144 bytes of data, and `/a` has 128. -/
def negativeData : List Nat := negativeWords 128 2 0x622f 144

/-- The buffer of the new file lies in the data of `/a`. -/
theorem negative_length_overlaps : ∃ nodeId before after s,
    ImagePlaced (negativeStart negativeData).heap 0x800000 240 ∧
    writeRaw (negativeStart negativeData) = .ok ((nodeId, before, after), s) ∧
    nodeId ≠ 0 ∧ before ≠ after := by
  obtain ⟨b, hb⟩ := exists_ok_of_isOk (x := writeRaw (negativeStart negativeData) >>= fun r =>
    if r.1.1 ≠ 0 ∧ r.1.2.1 ≠ r.1.2.2 then .ok () else .error "") (by decide +kernel)
  obtain ⟨⟨⟨nodeId, before, after⟩, s⟩, hr, hb⟩ := bind_eq_ok.mp hb
  split_ifs at hb with hdiffer
  exact ⟨nodeId, before, after, s, imagePlaced_negative _ (by decide), hr, hdiffer⟩

/-! ## Truncation -/

/-- A write at `offset`, in front of which a file that is too short is filled up with zeros. -/
def overwrite (old : Bytes) (offset : Nat) (bytes : Bytes) : Bytes :=
  (old ++ List.replicate (offset - old.length) 0).take offset ++ bytes ++
    old.drop (offset + bytes.length)

theorem getElem?_overwrite (old : Bytes) (offset : Nat) (bytes : Bytes) (i : Nat) :
    (overwrite old offset bytes)[i]? =
      if i < offset then some (old.getD i 0)
      else if i < offset + bytes.length then bytes[i - offset]? else old[i]? := by
  have hlen : ((old ++ List.replicate (offset - old.length) (0 : UInt8)).take offset).length =
      offset := by
    simp
    omega
  unfold overwrite
  rw [List.append_assoc]
  split_ifs with h1 h2
  · rw [List.getElem?_append_left (by omega), List.getElem?_take_of_lt h1, List.getD_eq_getElem?_getD]
    rcases Nat.lt_or_ge i old.length with hc | hc
    · rw [List.getElem?_append_left hc, List.getElem?_eq_getElem hc, Option.getD_some]
    · rw [List.getElem?_append_right hc, List.getElem?_replicate_of_lt (by omega),
        List.getElem?_eq_none hc, Option.getD_none]
  · rw [List.getElem?_append_right (by omega), hlen, List.getElem?_append_left (by omega)]
  · rw [List.getElem?_append_right (by omega), hlen, List.getElem?_append_right (by omega),
      List.getElem?_drop]
    congr 1
    omega

/-- A write to `n` leaves no stale byte in front of it: it needs a new buffer, or the old buffer
    is zero between the end of the file and `offset`. -/
def NoStale (v : VfsState) (n : Node) (offset : Nat) (bytes : Bytes) : Prop :=
  n.dataCapacity < offset + bytes.length ∨
    ∀ i, n.dataLen ≤ i → i < offset → v.mem (n.dataPtr + i) = 0

/-- The write of the source is `overwrite` exactly when it leaves no stale byte. -/
theorem contents_write {v : VfsState} {h : Heap} {id : Nat} {n : Node} {offset : Nat}
    {bytes : Bytes} (hi : FsInv v h) (hn : v.nodes[id]? = some n) :
    contents (writeNode v h id n offset bytes) id = overwrite (contents v id) offset bytes ↔
      NoStale v n offset bytes := by
  have hold : ∀ i, (contents v id)[i]? = if i < n.dataLen then some (v.mem (n.dataPtr + i)) else none :=
    fun i => by rw [contents_eq hn, getElem?_loadBytes]
  have hgetD : ∀ i, (contents v id).getD i 0 = if i < n.dataLen then v.mem (n.dataPtr + i) else 0 := by
    intro i
    rw [List.getD_eq_getElem?_getD, hold]
    split_ifs <;> rfl
  unfold NoStale
  constructor
  · intro he
    by_cases hc : n.dataCapacity < offset + bytes.length
    · exact Or.inl hc
    refine Or.inr fun i hlen hlt => ?_
    have hget := congrArg (fun l : Bytes => l[i]?) he
    rw [getElem?_contents_write hn, getElem?_overwrite,
      if_pos (lt_of_lt_of_le (by omega) (le_max_right _ _)), if_pos hlt, hgetD,
      if_neg (by omega), writeNode_at_gap hi hlen hlt, if_pos (by omega)] at hget
    exact Option.some.inj hget
  · intro hclean
    refine List.ext_getElem? fun i => ?_
    rw [getElem?_contents_write hn, getElem?_overwrite]
    rcases Nat.lt_or_ge i offset with h1 | h1
    · rw [if_pos (lt_of_lt_of_le (by omega) (le_max_right _ _)), if_pos h1, hgetD]
      rcases Nat.lt_or_ge i n.dataLen with h2 | h2
      · rw [if_pos h2, writeNode_at_old hi hn h2 (Or.inl h1)]
      · rw [if_neg (by omega), writeNode_at_gap hi h2 h1]
        split_ifs with hc
        · obtain hgrow | hzero := hclean
          · omega
          · rw [hzero i h2 h1]
        · rfl
    · rw [if_neg (show ¬ i < offset by omega)]
      rcases Nat.lt_or_ge i (offset + bytes.length) with h2 | h2
      · have hlt : i - offset < bytes.length := by omega
        have hnew : (writeNode v h id n offset bytes).mem
            ((writtenNode h n offset bytes).dataPtr + (offset + (i - offset))) = bytes[i - offset] :=
          writeNode_at_new hlt
        rw [show offset + (i - offset) = i by omega] at hnew
        rw [if_pos (lt_of_lt_of_le h2 (le_max_right _ _)), if_pos h2, hnew,
          List.getElem?_eq_getElem hlt]
      · rw [if_neg (show ¬ i < offset + bytes.length by omega), hold]
        rcases Nat.lt_or_ge i n.dataLen with h3 | h3
        · rw [if_pos (lt_of_lt_of_le h3 (le_max_left _ _)), if_pos h3,
            writeNode_at_old hi hn h3 (Or.inr h2)]
        · rw [if_neg (not_lt.mpr (max_le h3 h2)), if_neg (by omega)]

/-- What a change of the node table does to the bytes `c` of file `id`, zeros filled in. -/
def replayAct (id : Nat) (c : Bytes) : NodeAct → Bytes
  | .truncate nodeId => if nodeId = id then [] else c
  | .write nodeId offset bytes => if nodeId = id then overwrite c offset bytes else c
  | _ => c

/-- The calls replayed on the bytes `c` of file `id`. Only what the calls write goes in. -/
def replay (id : Nat) : VfsState × Heap → List VfsCall → Bytes → Bytes
  | _, [], c => c
  | s, call :: cs, c =>
    match vfsCall s call with
    | .ok s' => replay id s' cs (replayAct id c (callAct s.1 call))
    | .error _ => c

/-- The call does not write past stale bytes of file `id`. -/
def CleanCall (id : Nat) (v : VfsState) (call : VfsCall) : Prop :=
  ∀ (n : Node) (offset : Nat) (bytes : Bytes), callAct v call = .write id offset bytes →
    v.nodes[id]? = some n → NoStale v n offset bytes

/-- All calls of a run are clean in the states they are made in. -/
def CleanRun (id : Nat) : VfsState × Heap → List VfsCall → Prop
  | _, [] => True
  | s, call :: cs => CleanCall id s.1 call ∧ ∀ s', vfsCall s call = .ok s' → CleanRun id s' cs

theorem contents_nodeStep {v v' : VfsState} {h h' : Heap} {a : NodeAct} (hi : FsInv v h)
    (hs : NodeStep v h h' a v') {id : Nat}
    (hclean : ∀ (n : Node) (offset : Nat) (bytes : Bytes), a = .write id offset bytes →
      v.nodes[id]? = some n → NoStale v n offset bytes) :
    contents v' id = replayAct id (contents v id) a := by
  cases hs with
  | keep => rfl
  | @create path =>
    unfold replayAct contents addNode
    dsimp only
    rcases Nat.lt_trichotomy id v.nodes.length with hlt | rfl | hgt
    · rw [List.getElem?_append_left hlt]
    · rw [List.getElem?_concat_length, List.getElem?_eq_none (le_refl _)]
      rfl
    · rw [List.getElem?_eq_none (by simp; omega), List.getElem?_eq_none (by omega)]
  | @truncate nodeId n _ hn =>
    rw [replayAct]
    split_ifs with hid
    · subst hid
      have hlt := (List.getElem?_eq_some_iff.mp hn).1
      unfold contents setVfsNode
      dsimp only
      rw [List.getElem?_set_self hlt]
      rfl
    · unfold contents setVfsNode
      dsimp only
      rw [List.getElem?_set_ne hid]
  | @write nodeId offset bytes n hn _ _ hg =>
    rw [replayAct]
    split_ifs with hid
    · subst hid
      exact (contents_write hi hn).mpr (hclean n offset bytes rfl hn)
    · exact contents_write_ne hi hn hg (Ne.symm hid)

theorem contents_descStep {v v' : VfsState} (hs : DescStep v v') (id : Nat) :
    contents v' id = contents v id := by
  obtain rfl | ⟨d, desc, -, -, -, rfl⟩ := hs
  · rfl
  · rfl

theorem contents_call {s s' : VfsState × Heap} {call : VfsCall} (hi : FsInv s.1 s.2)
    (he : vfsCall s call = .ok s') {id : Nat} (hclean : CleanCall id s.1 call) :
    contents s'.1 id = replayAct id (contents s.1 id) (callAct s.1 call) := by
  obtain ⟨v, hn, hd⟩ := vfsCall_spec hi he
  rw [contents_descStep hd, contents_nodeStep hi hn hclean]

theorem contents_run {s s' : VfsState × Heap} {cs : List VfsCall} (hi : FsInv s.1 s.2)
    (he : vfsRun s cs = .ok s') {id : Nat} (hclean : CleanRun id s cs) :
    contents s'.1 id = replay id s cs (contents s.1 id) := by
  induction cs generalizing s with
  | nil =>
    cases he
    rfl
  | cons call cs ih =>
    obtain ⟨s₁, hc, he⟩ := bind_eq_ok.mp he
    rw [replay, hc, ih (hi.call hc) he (hclean.2 s₁ hc), contents_call hi hc hclean.1]

/-- After an open that truncates file `id`, in every run that never writes past stale bytes: the
    file is what the later calls made of an empty file, and every read returns a part of that. -/
theorem truncate_discards {s s₁ s' : VfsState × Heap} (hs : VfsReachable s) {path : Bytes}
    {flags : Int} {id : Nat} (hplan : openPlan s.1 path flags = .truncate id)
    (ho : vfsCall s (.openPath path flags) = .ok s₁) {cs : List VfsCall}
    (hclean : CleanRun id s₁ cs) (hr : vfsRun s₁ cs = .ok s') :
    contents s'.1 id = replay id s₁ cs [] ∧
      ∀ (d length : Nat) (input bytes : Bytes) (r : Int) (v' : VfsState),
        (s'.1.desc d).kind = .initramfsFile → (s'.1.desc d).nodeId = id →
        vfsReadDescriptor s'.1 input d length = .ok (r, bytes, v') →
        bytes = ((replay id s₁ cs []).drop (s'.1.desc d).offset).take length := by
  have hi := hs.inv
  have hempty : contents s₁.1 id = [] := by
    have hc : CleanCall id s.1 (.openPath path flags) := by
      intro n offset bytes ha
      rw [callAct, hplan] at ha
      cases ha
    rw [contents_call hi ho hc, callAct, hplan]
    exact if_pos rfl
  have hi₁ := hi.call ho
  have hcontents : contents s'.1 id = replay id s₁ cs [] := by
    rw [contents_run hi₁ hr hclean, hempty]
  refine ⟨hcontents, fun d length input bytes r v' hk hid he => ?_⟩
  have hi' := hi₁.run hr
  obtain ⟨h1, h32⟩ := hi'.range d (by rw [hk]; decide)
  obtain ⟨n, hn, -⟩ := (hi'.descs d).file hk
  obtain ⟨-, hread⟩ := readDone h1 h32 hk hn hi'.count he
  have hcount := hread.count
  have hcopied := hread.copied
  rw [hid, hcontents] at hcount hcopied
  rw [hcopied, hcount, List.take_eq_take_iff, List.length_drop]
  omega

/-- Two bytes are written and discarded by a truncating open, then one is written at the start. -/
theorem truncate_discards_small : ∃ s s₁ s',
    smallRun [.openPath tmpX 1, .write 1 [5, 6]] = .ok s ∧
    openPlan s.1 tmpX 2 = .truncate 3 ∧ vfsCall s (.openPath tmpX 2) = .ok s₁ ∧
    vfsRun s₁ [.write 2 [7]] = .ok s' ∧ contents s'.1 3 = [7] := by
  obtain ⟨b, hb⟩ := exists_ok_of_isOk (x := do
    let s ← smallRun [.openPath tmpX 1, .write 1 [5, 6]]
    let s₁ ← vfsCall s (.openPath tmpX 2)
    let _ ← vfsRun s₁ [.write 2 [7]]
    if openPlan s.1 tmpX 2 = .truncate 3 ∧ s₁.1.desc 2 = fileDesc 2 3 ∧
      replay 3 s₁ [.write 2 [7]] [] = [7] then .ok () else .error "") (by decide +kernel)
  obtain ⟨s, hs, hb⟩ := bind_eq_ok.mp hb
  obtain ⟨s₁, hs₁, hb⟩ := bind_eq_ok.mp hb
  obtain ⟨s', hs', hb⟩ := bind_eq_ok.mp hb
  split_ifs at hb with hcond
  obtain ⟨hplan, hd, hreplay⟩ := hcond
  have hclean : CleanRun 3 s₁ [.write 2 [7]] := by
    refine ⟨fun n offset bytes ha hn => ?_, fun _ _ => trivial⟩
    rw [callAct, hd] at ha
    split_ifs at ha
    cases ha
    exact Or.inr fun i _ hi => absurd hi (Nat.not_lt_zero i)
  refine ⟨s, s₁, s', hs, hplan, hs₁, hs', ?_⟩
  rw [(truncate_discards (smallRun_reachable hs) hplan hs₁ hclean hs').1, hreplay]

/-- The first descriptor writes on at its old offset after the truncation. The write fits the old
    buffer, and the two bytes from before the truncation are read back where zeros should be. -/
theorem truncate_keeps_stale_bytes : ∃ s s₁ s',
    VfsReachable s ∧ contents s.1 3 = [5, 6] ∧
    openPlan s.1 tmpX 2 = .truncate 3 ∧ vfsCall s (.openPath tmpX 2) = .ok s₁ ∧
    contents s₁.1 3 = [] ∧ vfsRun s₁ [.write 1 [7]] = .ok s' ∧
    replay 3 s₁ [.write 1 [7]] [] = [0, 0, 7] ∧
    ∃ r v', vfsReadDescriptor s'.1 [] 2 3 = .ok (r, [5, 6, 7], v') := by
  obtain ⟨b, hb⟩ := exists_ok_of_isOk (x := do
    let s ← smallRun [.openPath tmpX 1, .write 1 [5, 6]]
    let s₁ ← vfsCall s (.openPath tmpX 2)
    let s' ← vfsRun s₁ [.write 1 [7]]
    let r ← vfsReadDescriptor s'.1 [] 2 3
    if contents s.1 3 = [5, 6] ∧ openPlan s.1 tmpX 2 = .truncate 3 ∧ contents s₁.1 3 = [] ∧
      replay 3 s₁ [.write 1 [7]] [] = [0, 0, 7] ∧ r.2.1 = [5, 6, 7] then .ok ()
    else .error "") (by decide +kernel)
  obtain ⟨s, hs, hb⟩ := bind_eq_ok.mp hb
  obtain ⟨s₁, hs₁, hb⟩ := bind_eq_ok.mp hb
  obtain ⟨s', hs', hb⟩ := bind_eq_ok.mp hb
  obtain ⟨⟨r, bytes, v'⟩, hr, hb⟩ := bind_eq_ok.mp hb
  split_ifs at hb with hcond
  obtain ⟨hold, hplan, hnone, hreplay, hbytes⟩ := hcond
  exact ⟨s, s₁, s', smallRun_reachable hs, hold, hplan, hs₁, hnone, hs', hreplay, r, v',
    hbytes ▸ hr⟩

end PcoOs.Vfs
