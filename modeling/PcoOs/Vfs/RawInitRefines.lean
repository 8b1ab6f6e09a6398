/-
  `init_vfs` over memory against the model over bytes. Both take the same blocks of the heap and
  stop at the same checks with the same texts, and the tables in memory say what the model's file
  system says (`Held`), for every image whose entries describe slices of it (`TableFits`).

  * `initVfsRaw_mirrors`: this for the whole function.
  * `VfsAt.rawNodes`: the rows of the node table read back as the nodes.
-/
import PcoOs.Vfs.RawCalls
import PcoOs.Vfs.RawSafe

namespace PcoOs.Vfs

open PcoOs.Lib PcoOs.Lib.Prog PcoOs.Support PcoOs.Pmm

/-! ## The tables in memory -/

/-- The row at `entry` is the node `n`. Its name and its file lie in the heap below `lim`. -/
structure NodeAt (h₀ : Heap) (lim : Nat) (m files : Mem) (entry : Nat) (n : Node) : Prop where
  name : loadBytes m (loadQword m entry) n.name.length = n.name
  namePlace : h₀.ptr + 3376 ≤ loadQword m entry ∧ loadQword m entry + n.name.length ≤ lim
  nameLen : loadQword m (entry + 8) = n.name.length
  dataPtr : loadQword m (entry + 16) = n.dataPtr
  dataLen : loadQword m (entry + 24) = n.dataLen
  data : loadBytes m n.dataPtr n.dataLen = loadBytes files n.dataPtr n.dataLen
  dataPlace : n.dataLen = 0 ∨ h₀.ptr + 3376 ≤ n.dataPtr ∧ n.dataPtr + n.dataLen ≤ lim
  kind : loadQword m (entry + 32) = n.kind.code
  flags : loadQword m (entry + 40) = n.flags
  flags_le : n.flags ≤ 1
  capacity : loadQword m (entry + 48) = n.dataCapacity

/-- The node table holds the nodes of `v`, and all descriptors are closed. -/
structure Held (h₀ : Heap) (lim : Nat) (v : VfsState) (m : Mem) : Prop where
  nodes : ∀ i n, v.nodes[i]? = some n → NodeAt h₀ lim m v.mem (h₀.ptr + 48 + 56 * i) n
  descs : ∀ j < 192, loadQword m (h₀.ptr + 1840 + 8 * j) = 0
  closed : v.desc = emptyVfs.desc

section Held

variable {h₀ : Heap} {lim lim' : Nat} {m m' files files' : Mem}

/-- The row and the blocks below `lim` are as they were. -/
theorem NodeAt.keep {entry : Nat} {n : Node} (h : NodeAt h₀ lim m files entry n)
    (hrow : ∀ a, entry ≤ a → a < entry + 56 → m' a = m a)
    (hblocks : ∀ a, h₀.ptr + 3376 ≤ a → a < lim → m' a = m a)
    (hfiles : ∀ a, h₀.ptr + 3376 ≤ a → a < lim → files' a = files a) (hlim : lim ≤ lim') :
    NodeAt h₀ lim' m' files' entry n := by
  have hword : ∀ k ≤ 48, loadQword m' (entry + k) = loadQword m (entry + k) := fun k hk =>
    loadQword_congr fun a ha hb => hrow a (by omega) (by omega)
  have hfirst : loadQword m' entry = loadQword m entry := hword 0 (by omega)
  obtain ⟨hlo, hhi⟩ := h.namePlace
  refine ⟨?_, ?_, (hword 8 (by omega)).trans h.nameLen, (hword 16 (by omega)).trans h.dataPtr,
    (hword 24 (by omega)).trans h.dataLen, ?_, ?_, (hword 32 (by omega)).trans h.kind,
    (hword 40 (by omega)).trans h.flags, h.flags_le, (hword 48 (by omega)).trans h.capacity⟩
  · rw [hfirst, loadBytes_congr fun i hi => hblocks _ (by omega) (by omega)]
    exact h.name
  · rw [hfirst]
    omega
  · rcases h.dataPlace with h0 | ⟨hlo, hhi⟩
    · rw [h0]
      rfl
    · rw [loadBytes_congr fun i hi => hblocks _ (by omega) (by omega),
        loadBytes_congr fun i hi => hfiles _ (by omega) (by omega)]
      exact h.data
  · exact h.dataPlace.imp_right fun hd => ⟨hd.1, hd.2.trans hlim⟩

/-- The tables and the blocks below `lim` are as they were. -/
theorem Held.keep {v : VfsState} (h : Held h₀ lim v m) (hv : v.nodes.length ≤ 32)
    (habove : h₀.ptr + 3376 ≤ lim) (hm : ∀ a, h₀.ptr + 48 ≤ a → a < lim → m' a = m a)
    (hlim : lim ≤ lim') : Held h₀ lim' v m' where
  nodes i n hn := by
    have hi := (List.getElem?_eq_some_iff.mp hn).1
    exact (h.nodes i n hn).keep (fun a ha hb => hm a (by omega) (by omega))
      (fun a ha hb => hm a (by omega) hb) (fun _ _ _ => rfl) hlim
  descs j hj := by
    rw [loadQword_congr fun a ha hb => hm a (by omega) (by omega)]
    exact h.descs j hj
  closed := h.closed

end Held

/-- A row of the node table, written. -/
def rowMem (m : Mem) (entry w0 w1 w2 w3 w4 w5 w6 : Nat) : Mem :=
  storeQword (storeQword (storeQword (storeQword (storeQword (storeQword (storeQword m
    entry w0) (entry + 8) w1) (entry + 16) w2) (entry + 24) w3) (entry + 32) w4) (entry + 40) w5)
    (entry + 48) w6

theorem rowMem_of_outside {m : Mem} {entry w0 w1 w2 w3 w4 w5 w6 a : Nat}
    (h : a < entry ∨ entry + 56 ≤ a) : rowMem m entry w0 w1 w2 w3 w4 w5 w6 a = m a := by
  unfold rowMem
  rw [storeQword_of_outside (by omega), storeQword_of_outside (by omega),
    storeQword_of_outside (by omega), storeQword_of_outside (by omega),
    storeQword_of_outside (by omega), storeQword_of_outside (by omega),
    storeQword_of_outside (by omega)]

/-- The words of a row. -/
structure RowWords (m : Mem) (entry w0 w1 w2 w3 w4 w5 w6 : Nat) : Prop where
  name : loadQword m entry = w0
  nameLen : loadQword m (entry + 8) = w1
  data : loadQword m (entry + 16) = w2
  dataLen : loadQword m (entry + 24) = w3
  kind : loadQword m (entry + 32) = w4
  flags : loadQword m (entry + 40) = w5
  capacity : loadQword m (entry + 48) = w6

theorem rowMem_words {m : Mem} {entry w0 w1 w2 w3 w4 w5 w6 : Nat} (h0 : w0 < 2 ^ 64)
    (h1 : w1 < 2 ^ 64) (h2 : w2 < 2 ^ 64) (h3 : w3 < 2 ^ 64) (h4 : w4 < 2 ^ 64) (h5 : w5 < 2 ^ 64)
    (h6 : w6 < 2 ^ 64) :
    RowWords (rowMem m entry w0 w1 w2 w3 w4 w5 w6) entry w0 w1 w2 w3 w4 w5 w6 := by
  unfold rowMem
  constructor
  all_goals
    repeat rw [loadQword_storeQword_ne (by omega)]
    rw [loadQword_storeQword, Nat.mod_eq_of_lt (by assumption)]

/-- A new last node: its row is written, and its blocks lie between `lim` and `lim'`. -/
theorem Held.append {h₀ : Heap} {lim lim' : Nat} {v : VfsState} {m files : Mem} {n : Node}
    (h : Held h₀ lim v m) (hv : v.nodes.length < 32) (habove : h₀.ptr + 3376 ≤ lim)
      (hlim : lim ≤ lim')
    (hfiles : ∀ a < lim, files a = v.mem a) {namePtr : Nat}
    (hname : loadBytes m namePtr n.name.length = n.name) (hplace : lim ≤ namePtr)
    (hend : namePtr + n.name.length ≤ lim')
    (hdata : loadBytes m n.dataPtr n.dataLen = loadBytes files n.dataPtr n.dataLen)
    (hdataPlace : n.dataLen = 0 ∨ lim ≤ n.dataPtr ∧ n.dataPtr + n.dataLen ≤ lim')
    (hptr : namePtr < 2 ^ 64) (hlen : n.name.length < 2 ^ 64) (hdptr : n.dataPtr < 2 ^ 64)
    (hdlen : n.dataLen < 2 ^ 64) (hflags : n.flags ≤ 1) (hcap : n.dataCapacity < 2 ^ 64) :
    Held h₀ lim' { v with nodes := v.nodes ++ [n], mem := files }
      (rowMem m (h₀.ptr + 48 + 56 * v.nodes.length) namePtr n.name.length n.dataPtr n.dataLen
        n.kind.code n.flags n.dataCapacity) where
  nodes i n' hn := by
    have hout : ∀ a, a < h₀.ptr + 48 + 56 * v.nodes.length ∨
        h₀.ptr + 48 + 56 * v.nodes.length + 56 ≤ a → rowMem m (h₀.ptr + 48 + 56 * v.nodes.length)
          namePtr n.name.length n.dataPtr n.dataLen n.kind.code n.flags n.dataCapacity a = m a :=
      fun a ha => rowMem_of_outside ha
    dsimp only at hn
    rw [List.getElem?_append] at hn
    split_ifs at hn with hi
    · exact (h.nodes i n' hn).keep (fun a ha hb => hout a (by omega))
        (fun a ha hb => hout a (by omega))
        (fun a _ hb => hfiles a hb) hlim
    · have hi' : i = v.nodes.length := by
        have hlt := (List.getElem?_eq_some_iff.mp hn).1
        rw [List.length_singleton] at hlt
        omega
      rw [hi', Nat.sub_self] at hn
      obtain rfl : n = n' := Option.some.inj hn
      rw [hi']
      have hkind : n.kind.code < 2 ^ 64 := by
        cases n.kind <;> decide
      have hwords : RowWords (rowMem m (h₀.ptr + 48 + 56 * v.nodes.length) namePtr n.name.length
          n.dataPtr n.dataLen n.kind.code n.flags n.dataCapacity)
          (h₀.ptr + 48 + 56 * v.nodes.length) namePtr n.name.length n.dataPtr n.dataLen n.kind.code
          n.flags n.dataCapacity :=
        rowMem_words hptr hlen hdptr hdlen hkind (by omega) hcap
      have hblock : ∀ a k, lim ≤ a → loadBytes (rowMem m (h₀.ptr + 48 + 56 * v.nodes.length) namePtr
          n.name.length n.dataPtr n.dataLen n.kind.code n.flags n.dataCapacity) a k =
          loadBytes m a k := fun a k ha => loadBytes_congr fun j _ => hout _ (by omega)
      refine ⟨?_, ?_, hwords.nameLen, hwords.data, hwords.dataLen, ?_, ?_, hwords.kind,
        hwords.flags, hflags, hwords.capacity⟩
      · rw [hwords.name, hblock _ _ hplace]
        exact hname
      · rw [hwords.name]
        omega
      · rcases hdataPlace with h0 | hd
        · rw [h0]
          rfl
        · rw [hblock _ _ hd.1]
          exact hdata
      · exact hdataPlace.imp_right fun hd => ⟨habove.trans hd.1, hd.2⟩
  descs j hj := by
    rw [loadQword_congr fun a ha hb => rowMem_of_outside (m := m) (by omega)]
    exact h.descs j hj
  closed := h.closed

/-! ## Single steps -/

/-- The record is clean so far, and the heap has the pointer of `heap`. -/
structure TableBuilt (h₀ : Heap) (ptr size : Int) (F : Nat → Option Nat) (heap : Heap)
    (s : RawState) : Prop where
  clean : Clean h₀ ptr size F s
  heap : { s.heap with mem := h₀.mem } = heap

/-- The same bytes at two places. -/
theorem loadBytes_congr₂ {m m' : Mem} {a b n : Nat} (h : ∀ j < n, m (a + j) = m' (b + j)) :
    loadBytes m a n = loadBytes m' b n := by
  unfold loadBytes
  exact List.map_congr_left fun j hj => h j (List.mem_range.mp hj)

theorem TableBuilt.above {h₀ heap : Heap} {ptr size : Int} {F : Nat → Option Nat} {s : RawState}
    (h : TableBuilt h₀ ptr size F heap s) : h₀.ptr + 3376 ≤ heap.ptr := by
  rw [← h.heap]
  exact h.clean.tables.above

section Steps

variable {h₀ heap : Heap} {ptr size : Int} {F : Nat → Option Nat} {m : Mem}

theorem allocBytes_withMem (h : Heap) (m : Mem) (n : Int) :
    allocBytes { h with mem := m } n =
      (allocBytes h n).map fun r => (r.1, { r.2 with mem := m }) := by
  unfold allocBytes
  dsimp only
  split_ifs <;> rfl

/-- A block of both heaps. -/
theorem allocRaw_built {n : Int} (h0 : 0 ≤ n) :
    Mirrors (fun s => TableBuilt h₀ ptr size F heap s ∧ s.heap.mem = m) (allocRaw n)
      (allocBytes heap n) fun a r s => (TableBuilt h₀ ptr size F r.2 s ∧ s.heap.mem = m) ∧
        a = heap.ptr ∧ r.1 = heap.ptr ∧ h₀.ptr + 3376 ≤ heap.ptr ∧
        heap.ptr + n ≤ r.2.ptr ∧ r.2.ptr ≤ h₀.stop := by
  rintro s ⟨⟨hc, rfl⟩, rfl⟩
  have hclean := allocRaw_clean h0 s hc
  have hspec := allocBytes_spec hc.tables.heap h0
  rw [allocBytes_withMem]
  unfold allocRaw at hclean ⊢
  cases halloc : allocBytes s.heap n with
  | error e => exact rfl
  | ok r =>
    rw [halloc] at hspec hclean
    obtain ⟨hfst, hok, hgrow, hend, -⟩ := hspec
    have hle := hok.le
    have hstop := hgrow.stop.trans hc.tables.stop
    exact ⟨_, _, rfl, ⟨⟨(hclean _ _ rfl).1, rfl⟩, hgrow.mem⟩, congrArg Nat.cast hfst, hfst,
      hc.tables.above, hend, hstop ▸ hle⟩

/-- A word of the image. -/
theorem vfsRawQwordRaw_built (hp : ImagePlaced h₀ ptr size) {k : Nat} (hk : (k : Int) + 8 ≤ size) :
    Mirrors (fun s => TableBuilt h₀ ptr size F heap s ∧ s.heap.mem = m) (vfsRawQwordRaw (ptr + k))
      (vfsRawQword h₀.mem (ptr + k)) fun a w s =>
        (TableBuilt h₀ ptr size F heap s ∧ s.heap.mem = m) ∧ a = imageWord h₀.mem ptr k ∧
          w = imageWord h₀.mem ptr k := by
  have hlow := hp.low
  have hhigh := hp.high
  rintro s ⟨⟨hc, rfl⟩, rfl⟩
  have hclean := vfsRawQwordRaw_clean hp hk s hc
  unfold vfsRawQwordRaw loadQwordRaw vfsRawQword loadQwordRegion at *
  cases hcheck : checkQwordRegion (addr (ptr + k)) 1 0 with
  | error e =>
    rw [error_bind, error_bind, ends_error, run_bind]
    rfl
  | ok u =>
    rw [run_bind] at hclean
    dsimp only at hclean
    rw [hcheck] at hclean
    obtain ⟨hc', hw⟩ := hclean _ _ rfl
    refine ⟨_, _, ?_, ⟨⟨hc', rfl⟩, rfl⟩, hw, ?_⟩
    · rw [run_bind]
      rfl
    · unfold imageWord
      rw [addr_of_nonneg (by omega) (by omega), show (ptr + k).toNat = ptr.toNat + k by omega]
      rfl

theorem vfsStateQword_built (hp : HeapOk h₀) (slot : Nat) {w : Nat} (hslot : slot < 6)
    (hF : F slot = some w) :
    Total (fun s => TableBuilt h₀ ptr size F heap s ∧ s.heap.mem = m) (vfsStateQword h₀.ptr slot)
      fun v s => (TableBuilt h₀ ptr size F heap s ∧ s.heap.mem = m) ∧ v = wrap w := by
  have hpos := hp.pos
  have halign := hp.aligned
  have hle := hp.le
  have hstop := hp.stop_lt
  intro s hs
  refine ⟨wrap w, s, ?_, hs, rfl⟩
  unfold vfsStateQword loadQwordRaw
  rw [addr_of_nonneg (by omega) (by omega), Int.toNat_natCast,
    loadQwordRegion_ok (by omega) (by omega) (by omega) (by omega), ok_bind, Int.toNat_natCast,
    hs.1.clean.tables.slots _ hslot _ hF]

theorem storeQwordRaw_run (base count : Nat) {slot : Nat} (value : Int) (s : RawState)
    (hpos : base ≠ 0) (halign : base % 8 = 0) (hslot : slot < count) (hhigh : base < 2 ^ 63) :
    storeQwordRaw base count slot value s = .ok ((), { s with
      heap := { s.heap with mem := storeQword s.heap.mem (base + 8 * slot) (addr value) } }) := by
  unfold storeQwordRaw
  rw [addr_of_nonneg (by omega) (by omega), Int.toNat_natCast,
    storeQwordRegion_ok hpos halign (by omega) (by omega), ok_bind, Int.toNat_natCast]

/-- A word stored in one of the tables behind the state's block. -/
theorem storeQwordRaw_built (hp : HeapOk h₀) (base count : Nat) {slot : Nat} (value : Int)
    (hlo : h₀.ptr + 48 ≤ base) (hhi : base + 8 * count ≤ h₀.stop) (halign : base % 8 = 0)
    (hslot : slot < count) : Total (fun s => TableBuilt h₀ ptr size F heap s ∧ s.heap.mem = m)
      (storeQwordRaw base count slot value) fun _ s => TableBuilt h₀ ptr size F heap s ∧
        s.heap.mem = storeQword m (base + 8 * slot) (addr value) := by
  have hstop := hp.stop_lt
  rintro s ⟨⟨hc, rfl⟩, rfl⟩
  have hclean : Maintains (Clean h₀ ptr size F) (storeQwordRaw base count slot value) :=
    storeQwordRaw_clean (by omega) (by omega) hstop
  have hrun := storeQwordRaw_run base count value s (by omega) halign hslot (by omega)
  exact ⟨_, _, hrun, ⟨hclean s hc _ _ hrun, rfl⟩, rfl⟩

theorem setVfsStateQword_built (hp : HeapOk h₀) (hle : h₀.ptr + 3376 ≤ h₀.stop) (slot : Nat)
    (hslot : slot < 6) (value : Int) :
    Total (fun s => TableBuilt h₀ ptr size F heap s ∧ s.heap.mem = m)
      (setVfsStateQword h₀.ptr slot value) fun _ s =>
        TableBuilt h₀ ptr size (Function.update F slot (some (addr value))) heap s ∧
          s.heap.mem = storeQword m (h₀.ptr + 8 * slot) (addr value) := by
  have hpos := hp.pos
  have halign := hp.aligned
  have hstop := hp.stop_lt
  rintro s ⟨⟨hc, rfl⟩, rfl⟩
  have hclean := setVfsStateQword_clean hp.stop_lt hle slot value s hc
  have hrun := storeQwordRaw_run h₀.ptr 6 value s (by omega) (by omega) hslot (by omega)
  exact ⟨_, _, hrun, ⟨hclean _ _ hrun, rfl⟩, rfl⟩

theorem setVfsNodeQword_built (hp : HeapOk h₀) (hle : h₀.ptr + 3376 ≤ h₀.stop)
    (hF : F 2 = some (h₀.ptr + 48)) {id slot : Nat} (hid : id < 32) (hslot : slot < 7)
      (value : Int) :
    Total (fun s => TableBuilt h₀ ptr size F heap s ∧ s.heap.mem = m)
      (setVfsNodeQword h₀.ptr id slot value) fun _ s => TableBuilt h₀ ptr size F heap s ∧
        s.heap.mem = storeQword m (h₀.ptr + 48 + 56 * id + 8 * slot) (addr value) := by
  have halign := hp.aligned
  have hstop := hp.stop_lt
  unfold setVfsNodeQword vfsNodeEntryPtr
  rw [bind_assoc]
  refine total_bind (total_refuse (by omega)) fun _ => ?_
  rw [bind_assoc]
  refine total_bind (vfsStateQword_built hp 2 (by omega) hF) fun table =>
    total_fact fun htable => ?_
  have hentry : wrap (table + id * 7 * 8) = (h₀.ptr + 48 + 56 * id : Nat) := by
    rw [htable, wrap_of_range (x := (h₀.ptr + 48 : Nat)) (by omega) (by omega),
      wrap_of_range (by omega) (by omega)]
    omega
  rw [pure_bind, hentry]
  exact storeQwordRaw_built hp _ 7 value (by omega) (by omega) (by omega) hslot

/-- The seven words of a row. -/
theorem vfsSetNode_built (hp : HeapOk h₀) (hle : h₀.ptr + 3376 ≤ h₀.stop)
    (hF : F 2 = some (h₀.ptr + 48)) {id : Nat} (hid : id < 32)
    (namePtr dataPtr kind flags capacity : Int) {nameLen dataLen : Int} (hname : 0 ≤ nameLen)
    (hdata : 0 ≤ dataLen) :
    Total (fun s => TableBuilt h₀ ptr size F heap s ∧ s.heap.mem = m) (do
      vfsSetNodeNameData h₀.ptr id namePtr nameLen dataPtr dataLen
      vfsSetNodeMeta h₀.ptr id kind flags capacity) fun _ s => TableBuilt h₀ ptr size F heap s ∧
        s.heap.mem = rowMem m (h₀.ptr + 48 + 56 * id) (addr namePtr) (addr nameLen) (addr dataPtr)
          (addr dataLen) (addr kind) (addr flags) (addr capacity) := by
  have hset : ∀ (m : Mem) (slot : Nat) (value : Int), slot < 7 →
      Total (fun s => TableBuilt h₀ ptr size F heap s ∧ s.heap.mem = m)
        (setVfsNodeQword h₀.ptr id slot value) fun _ s => TableBuilt h₀ ptr size F heap s ∧
          s.heap.mem = storeQword m (h₀.ptr + 48 + 56 * id + 8 * slot) (addr value) :=
    fun m slot value hslot => setVfsNodeQword_built hp hle hF hid hslot value
  unfold vfsSetNodeNameData vfsSetNodeMeta rowMem
  rw [bind_assoc]
  refine total_bind (hset _ 0 _ (by omega)) fun _ => ?_
  rw [bind_assoc]
  refine total_bind (hset _ 1 _ (by omega)) fun _ => ?_
  rw [bind_assoc]
  refine total_bind (hset _ 2 _ (by omega)) fun _ => ?_
  rw [bind_assoc]
  refine total_bind (hset _ 3 _ (by omega)) fun _ => ?_
  have hrecord : ∀ m : Mem, Total (fun s => TableBuilt h₀ ptr size F heap s ∧ s.heap.mem = m)
      (update fun s => { s with lengths := nameLen :: dataLen :: s.lengths } : Raw Unit) fun _ s =>
        TableBuilt h₀ ptr size F heap s ∧ s.heap.mem = m := fun m => total_update fun s hs => by
    refine ⟨⟨⟨hs.1.clean.tables.withMem fun _ _ => rfl, hs.1.clean.reads, ?_⟩, hs.1.heap⟩, hs.2⟩
    simpa [hname, hdata] using hs.1.clean.lengths
  refine total_bind (hrecord _) fun _ => ?_
  refine total_bind (hset _ 4 _ (by omega)) fun _ => total_bind (hset _ 5 _ (by omega)) fun _ => ?_
  exact hset _ 6 _ (by omega)

/-- The block at the pointer of `start` holds the first `i` bytes of the slice at `src`; the heap
    is `next` by now. -/
structure Copying (h₀ start next : Heap) (m : Mem) (src i : Nat) (s : RawState) : Prop where
  heap : { s.heap with mem := h₀.mem } = next
  frame : ∀ x, x < start.ptr ∨ h₀.stop ≤ x → s.heap.mem x = m x
  bytes : ∀ j < i, s.heap.mem (start.ptr + j) = h₀.mem (src + j)

/-- A byte behind those that are copied. -/
theorem Copying.store {next : Heap} {src i : Nat} {s : RawState}
    (h : Copying h₀ heap next m src i s) (hstop : heap.ptr + i < h₀.stop)
    (hstop63 : h₀.stop < 2 ^ 63) (b : UInt8) :
    Copying h₀ heap next m src i { s with heap := { s.heap with
      mem := storeByte s.heap.mem (addr ((heap.ptr : Int) + i)) b } } := by
  have haddr : addr ((heap.ptr : Int) + i) = heap.ptr + i := by
    rw [addr_of_nonneg (by omega) (by omega)]
    omega
  rw [haddr]
  refine ⟨h.heap, fun x hx => ?_, fun j hj => ?_⟩
  · exact (storeByte_ne (by omega)).trans (h.frame x hx)
  · exact (storeByte_ne (by omega)).trans (h.bytes j hj)

/-- One round of the copy: the image is still where it was. -/
theorem copyByte_copying (hp : ImagePlaced h₀ ptr size) {next : Heap} {off len : Int}
    (hframe : ∀ x, x < h₀.ptr ∨ h₀.stop ≤ x → m x = h₀.mem x) (habove : h₀.ptr ≤ heap.ptr)
    (hroom : heap.ptr + len ≤ h₀.stop) (hoff : 0 ≤ off) (hend : off + len ≤ size) {i : Nat}
    (hi : i < len.toNat) :
    Total (Copying h₀ heap next m (addr (ptr + off)) i) (do
      let b ← loadByteRaw (ptr + off + i)
      storeByteRaw ((heap.ptr : Int) + i) b) fun _ =>
        Copying h₀ heap next m (addr (ptr + off)) (i + 1) := by
  have hlow := hp.low
  have hhigh := hp.high
  have hapart := hp.apart
  have hstop63 := hp.heap.stop_lt
  have hplace : addr (ptr + off) = (ptr + off).toNat := addr_of_nonneg (by omega) (by omega)
  have hsrc : addr (ptr + off + i) = addr (ptr + off) + i := by
    rw [addr_of_nonneg (by omega) (by omega), hplace]
    omega
  have hdst : addr ((heap.ptr : Int) + i) = heap.ptr + i := by
    rw [addr_of_nonneg (by omega) (by omega)]
    omega
  refine total_bind (Q := fun b s => Copying h₀ heap next m (addr (ptr + off)) i s ∧
    b = h₀.mem (addr (ptr + off) + i)) (fun s hs => ?_) fun b => total_fact fun hb =>
    total_update fun s hs => ?_
  · refine ⟨_, _, rfl, ⟨hs.heap, hs.frame, hs.bytes⟩, ?_⟩
    rw [hsrc, hs.frame _ (by omega), hframe _ (by omega)]
  · have hstored := hs.store (by omega) hstop63 b
    refine ⟨hstored.heap, hstored.frame, fun j hj => ?_⟩
    rcases eq_or_lt_of_le (Nat.lt_succ_iff.mp hj) with rfl | hlt
    · dsimp only
      rw [hdst]
      exact (storeByte_self _ _ _).trans hb
    · exact hstored.bytes j hlt

/-- A slice of the image, copied to a new block. -/
theorem vfsCopyInitramfsSlice_built (hp : ImagePlaced h₀ ptr size) {off len : Int} (nul : Bool)
    (hlen : len < 2 ^ 63 - 1) (hfits : SliceFits size off len) :
    Mirrors (fun s => TableBuilt h₀ ptr size F heap s ∧ s.heap.mem = m)
      (vfsCopyInitramfsSlice ptr off len nul)
      (allocBytes heap (if nul then wrap (len + 1) else len)) fun a r s =>
        TableBuilt h₀ ptr size F r.2 s ∧ (a = heap.ptr ∧ r.1 = heap.ptr ∧
        heap.ptr + len ≤ r.2.ptr ∧ r.2.ptr ≤ h₀.stop) ∧ (∀ x < heap.ptr, s.heap.mem x = m x) ∧
        loadBytes s.heap.mem heap.ptr len.toNat =
          loadBytes h₀.mem (addr (ptr + off)) len.toNat := by
  have h0 : 0 ≤ len := by
    rcases hfits with rfl | ⟨h, -⟩ <;> omega
  have hsize : (if nul then wrap (len + 1) else len) = if nul then len + 1 else len := by
    rw [wrap_of_range (by omega) (by omega)]
  have hstop63 := hp.heap.stop_lt
  have hclean := vfsCopyInitramfsSlice_clean (F := F) hp nul hlen hfits
  have hcontent : Mirrors (fun s => TableBuilt h₀ ptr size F heap s ∧ s.heap.mem = m)
      (vfsCopyInitramfsSlice ptr off len nul)
      (allocBytes heap (if nul then wrap (len + 1) else len)) fun a r s =>
        { s.heap with mem := h₀.mem } = r.2 ∧ (a = heap.ptr ∧ r.1 = heap.ptr ∧
        heap.ptr + len ≤ r.2.ptr ∧ r.2.ptr ≤ h₀.stop) ∧ (∀ x < heap.ptr, s.heap.mem x = m x) ∧
        loadBytes s.heap.mem heap.ptr len.toNat =
          loadBytes h₀.mem (addr (ptr + off)) len.toNat := by
    unfold vfsCopyInitramfsSlice
    rw [hsize]
    refine mirrors_right (allocRaw_built (by split_ifs <;> omega)) fun a r => total_fact ?_
    rintro ⟨rfl, hr, habove, hend, hstop⟩
    intro s hs
    have hframe : ∀ x, x < h₀.ptr ∨ h₀.stop ≤ x → m x = h₀.mem x := fun x hx => by
      rw [← hs.2]
      exact hs.1.clean.tables.frame x hx
    have hroom : heap.ptr + len ≤ r.2.ptr := by
      split_ifs at hend <;> omega
    have hloop := total_times (fun i : Nat => do
        let b ← loadByteRaw (ptr + off + i)
        storeByteRaw ((heap.ptr : Int) + i) b)
      (Copying h₀ heap r.2 m (addr (ptr + off))) (i := 0) (n := len.toNat) fun i _ hi => ?_
    · refine total_bind hloop (fun _ => ?_) s ⟨hs.1.heap, fun _ _ => by rw [hs.2], fun j hj =>
        absurd hj (Nat.not_lt_zero j)⟩
      rw [Nat.zero_add]
      refine total_ite (fun hnul => ?_) fun _ => total_pure fun t ht => ⟨ht.heap,
        ⟨rfl, hr, hroom, hstop⟩, fun x hx => ht.frame x (Or.inl hx), loadBytes_congr₂ ht.bytes⟩
      rw [if_pos hnul] at hend
      refine total_bind (total_update fun t ht => ?_) fun _ => total_pure fun t ht => ht
      have hstored := ht.store (by omega) hstop63 0
      rw [Int.toNat_of_nonneg h0] at hstored
      exact ⟨hstored.heap, ⟨rfl, hr, hroom, hstop⟩, fun x hx => hstored.frame x (Or.inl hx),
        loadBytes_congr₂ hstored.bytes⟩
    · obtain ⟨hpos, hoff, hoffEnd⟩ : 0 < len ∧ 0 ≤ off ∧ off + len ≤ size := by
        rcases hfits with h | h
        · omega
        · exact h
      exact copyByte_copying hp hframe (by omega) (by omega) hoff hoffEnd (by omega)
  exact (hcontent.and_hoare hclean).mono (fun s hs => ⟨hs, hs.1.clean⟩) fun a r s h =>
    ⟨⟨h.2, h.1.1⟩, h.1.2⟩

end Steps

/-! ## An entry -/

theorem ite_error_bind {α β : Type} {c : Prop} [Decidable c] {e : String} {x : Except String α}
    {f : α → Except String β} :
    ((if c then .error e else x) >>= f) = if c then .error e else x >>= f := by
  split_ifs <;> rfl

section Entries

variable {h₀ heap : Heap} {ptr size : Int} {F : Nat → Option Nat}

/-- A word of the image is read off any memory the run has reached. -/
theorem vfsRawQwordRaw_kept (hp : ImagePlaced h₀ ptr size) {k : Nat} (hk : (k : Int) + 8 ≤ size)
    (K : Mem → Prop) :
    Mirrors (fun s => TableBuilt h₀ ptr size F heap s ∧ K s.heap.mem) (vfsRawQwordRaw (ptr + k))
      (vfsRawQword h₀.mem (ptr + k)) fun a w s =>
        (TableBuilt h₀ ptr size F heap s ∧ K s.heap.mem) ∧
        a = w ∧ a = imageWord h₀.mem ptr k := by
  intro s hs
  refine (vfsRawQwordRaw_built (m := s.heap.mem) hp hk s ⟨hs.1, rfl⟩).imp ?_
  rintro w ⟨a, t, ht, ⟨hb, hm⟩, ha, hw⟩
  exact ⟨a, t, ht, ⟨hb, hm ▸ hs.2⟩, ha.trans hw.symm, ha⟩

/-- A copy keeps what is known of memory below the heap pointer. -/
theorem vfsCopyInitramfsSlice_kept (heap : Heap) (hp : ImagePlaced h₀ ptr size) {off len : Int}
    (nul : Bool)
    (hlen : len < 2 ^ 63 - 1) (hfits : SliceFits size off len) {K : Mem → Prop}
    (hK : ∀ m m' : Mem, (∀ x < heap.ptr, m' x = m x) → K m → K m') :
    Mirrors (fun s => TableBuilt h₀ ptr size F heap s ∧ K s.heap.mem)
      (vfsCopyInitramfsSlice ptr off len nul)
      (allocBytes heap (if nul then wrap (len + 1) else len)) fun a r s =>
        (TableBuilt h₀ ptr size F r.2 s ∧ K s.heap.mem ∧
        loadBytes s.heap.mem heap.ptr len.toNat = loadBytes h₀.mem (addr (ptr + off)) len.toNat) ∧
        a = heap.ptr ∧ r.1 = heap.ptr ∧ heap.ptr + len ≤ r.2.ptr ∧ r.2.ptr ≤ h₀.stop := by
  intro s hs
  refine (vfsCopyInitramfsSlice_built (m := s.heap.mem) hp nul hlen hfits s ⟨hs.1, rfl⟩).imp ?_
  rintro r ⟨a, t, ht, hb, hplace, hsame, hbytes⟩
  exact ⟨a, t, ht, ⟨hb, hK _ _ hsame hs.2, hbytes⟩, hplace⟩

/-- The node of an entry, from its two blocks. -/
theorem Held.entry {v : VfsState} {m : Mem} {heap₁ heap₂ : Heap} {e : Entry}
    (h : Held h₀ heap.ptr v m) (hv : v.nodes.length < 32) (habove : h₀.ptr + 3376 ≤ heap.ptr)
    (hname : loadBytes m heap.ptr e.nameLen.toNat = e.name) (hdata : loadBytes m heap₁.ptr
      e.dataLen.toNat = e.data) (h0 : 0 ≤ e.nameLen) (h0' : 0 ≤ e.dataLen)
    (hend : heap.ptr + e.nameLen ≤ heap₁.ptr) (hend' : heap₁.ptr + e.dataLen ≤ heap₂.ptr)
    (hstop : heap₂.ptr < 2 ^ 63) :
    Held h₀ heap₂.ptr
      { v with
        nodes := v.nodes ++ [⟨e.name, heap₁.ptr, e.data.length, .file, 0, e.data.length⟩]
        mem := storeBytes v.mem heap₁.ptr e.data }
      (rowMem m (h₀.ptr + 48 + 56 * v.nodes.length) (addr heap.ptr) (addr e.nameLen)
        (addr heap₁.ptr) (addr e.dataLen) (addr 1) (addr 0) (addr e.dataLen)) := by
  have hnameLen : e.nameLen.toNat = e.name.length := by rw [← hname, length_loadBytes]
  have hdataLen : e.dataLen.toNat = e.data.length := by rw [← hdata, length_loadBytes]
  rw [addr_of_nonneg (x := e.nameLen) h0 (by omega), addr_of_nonneg (x := e.dataLen) h0' (by omega),
    addr_of_nonneg (by omega) (by omega), addr_of_nonneg (by omega) (by omega), hnameLen, hdataLen]
  refine h.append (n := ⟨e.name, heap₁.ptr, e.data.length, .file, 0, e.data.length⟩) hv habove
    (by omega) (fun a ha => storeBytes_of_outside (by omega)) ?_ (by omega) ?_ ?_ (Or.inr ?_) ?_ ?_
    ?_ ?_ (Nat.zero_le _) ?_
  all_goals try dsimp only
  · rw [Int.toNat_natCast, ← hnameLen]
    exact hname
  · rw [Int.toNat_natCast]
    omega
  · rw [loadBytes_storeBytes, ← hdataLen]
    exact hdata
  all_goals omega

theorem SliceFits.length {off len : Int} (h : SliceFits size off len) (hsize : size < 2 ^ 63 - 1) :
    0 ≤ len ∧ len < 2 ^ 63 - 1 := by
  rcases h with rfl | ⟨_, _, _⟩ <;> omega

/-- The copies of an entry, and its row. -/
theorem placeEntry_mirrors (hp : ImagePlaced h₀ ptr size) (hsize : size < 2 ^ 63 - 1)
    (hle : h₀.ptr + 3376 ≤ h₀.stop) (hF : F 2 = some (h₀.ptr + 48)) {i : Nat} (hi : i < 32)
    {v : VfsState} (hv : v.nodes.length = i) {nameOff nameLen dataOff dataLen : Int}
    (hname : SliceFits size nameOff nameLen) (hdata : SliceFits size dataOff dataLen) :
    Mirrors (fun s => TableBuilt h₀ ptr size F heap s ∧ Held h₀ heap.ptr v s.heap.mem)
      (do
        let namePtr ← vfsCopyInitramfsSlice ptr nameOff nameLen true
        let dataPtr ← vfsCopyInitramfsSlice ptr dataOff dataLen false
        vfsSetNodeNameData h₀.ptr i namePtr nameLen dataPtr dataLen
        vfsSetNodeMeta h₀.ptr i 1 0 dataLen)
      (placeEntry ⟨loadBytes h₀.mem (addr (ptr + nameOff)) nameLen.toNat, nameLen,
        loadBytes h₀.mem (addr (ptr + dataOff)) dataLen.toNat, dataLen⟩ v heap) fun _ r s =>
        (TableBuilt h₀ ptr size F r.2 s ∧ Held h₀ r.2.ptr r.1 s.heap.mem) ∧
          r.1.nodes.length = i + 1 := by
  refine mirrors_from (fun s hs => hs.1.above) fun habove => ?_
  have hstop := hp.heap.stop_lt
  obtain ⟨hname0, hnameLt⟩ := hname.length hsize
  obtain ⟨hdata0, hdataLt⟩ := hdata.length hsize
  unfold placeEntry
  -- the block of the name, with what was there before
  have hcopy := vfsCopyInitramfsSlice_kept (F := F) heap hp true hnameLt hname
    (K := fun m => Held h₀ heap.ptr v m)
    fun _ _ hm hheld => Held.keep hheld (by omega) habove (fun a _ ha => hm a ha) (le_refl _)
  rw [if_pos rfl] at hcopy
  refine mirrors_bind hcopy fun a r => mirrors_fact ?_
  obtain ⟨p₁, heap₁⟩ := r
  rintro ⟨rfl, rfl, hend₁, hstop₁⟩
  dsimp only at hend₁ hstop₁ ⊢
  have hle₁ : heap.ptr + nameLen.toNat ≤ heap₁.ptr := by
    rw [← Int.toNat_of_nonneg hname0] at hend₁
    exact Int.ofNat_le.mp hend₁
  -- the block of the data
  have hkept : ∀ m m' : Mem, (∀ x < heap₁.ptr, m' x = m x) →
      (Held h₀ heap.ptr v m ∧ loadBytes m heap.ptr nameLen.toNat =
        loadBytes h₀.mem (addr (ptr + nameOff)) nameLen.toNat) →
      Held h₀ heap.ptr v m' ∧ loadBytes m' heap.ptr nameLen.toNat =
        loadBytes h₀.mem (addr (ptr + nameOff)) nameLen.toNat := by
    rintro m m' hm ⟨hheld, hbytes⟩
    have hmem : ∀ a < heap.ptr + nameLen.toNat, m' a = m a := fun a ha =>
      hm a (lt_of_lt_of_le ha hle₁)
    refine ⟨hheld.keep (by omega) habove (fun a _ ha => hmem a (Nat.lt_add_right _ ha))
      (le_refl _), ?_⟩
    rw [← hbytes]
    exact loadBytes_congr fun j hj => hmem _ (Nat.add_lt_add_left hj _)
  have hcopy' := vfsCopyInitramfsSlice_kept (F := F) heap₁ hp false hdataLt hdata hkept
  rw [if_neg Bool.false_ne_true] at hcopy'
  refine mirrors_bind hcopy' fun a r => mirrors_fact ?_
  obtain ⟨p₂, heap₂⟩ := r
  rintro ⟨rfl, rfl, hend₂, hstop₂⟩
  dsimp only at hend₂ hstop₂ ⊢
  rintro s ⟨hb, ⟨hheld, hnameBytes⟩, hdataBytes⟩
  obtain ⟨u, t, ht, hb', hm⟩ := vfsSetNode_built hp.heap hle hF hi heap.ptr heap₁.ptr 1 0 dataLen
    hname0 hdata0 s ⟨hb, rfl⟩
  have hroom : v.nodes.length < 32 := hv ▸ hi
  have hlast := hheld.entry (e := ⟨_, nameLen, _, dataLen⟩) hroom habove hnameBytes
    hdataBytes hname0 hdata0 hend₁ hend₂ (lt_of_le_of_lt hstop₂ hstop)
  refine ⟨u, t, ht, ⟨hb', ?_⟩, ?_⟩
  · rw [hm, ← hv]
    exact hlast
  · rw [List.length_append, hv]
    rfl

theorem initEntryRaw_mirrors (hp : ImagePlaced h₀ ptr size) (hle : h₀.ptr + 3376 ≤ h₀.stop)
    (hF : F 2 = some (h₀.ptr + 48)) (hptr : 0 < ptr) {i : Nat} (hi : i < 32)
    (hfits : RowFits h₀.mem ptr size i) {v : VfsState} (hv : v.nodes.length = i) :
    Mirrors (fun s => TableBuilt h₀ ptr size F heap s ∧ Held h₀ heap.ptr v s.heap.mem)
      (initEntryRaw h₀.ptr ptr size i) (initramfsEntry h₀.mem ptr size i (v, heap)) fun _ r s =>
        (TableBuilt h₀ ptr size F r.2 s ∧ Held h₀ r.2.ptr r.1 s.heap.mem) ∧
          r.1.nodes.length = i + 1 := by
  have hhigh := hp.high
  have hinside := hfits.inside
  have hentry : ∀ k : Nat,
      ptr + 32 + (i : Int) * 32 + k = ptr + ((32 + i * 32 + k : Nat) : Int) := by
    intro k
    push_cast
    ring
  have hword : ∀ k : Nat, k ≤ 24 →
      Mirrors (fun s => TableBuilt h₀ ptr size F heap s ∧ Held h₀ heap.ptr v s.heap.mem)
        (vfsRawQwordRaw (ptr + 32 + (i : Int) * 32 + k))
        (vfsRawQword h₀.mem (ptr + 32 + (i : Int) * 32 + k)) fun a w s =>
          (TableBuilt h₀ ptr size F heap s ∧ Held h₀ heap.ptr v s.heap.mem) ∧
            a = w ∧ a = imageWord h₀.mem ptr (32 + i * 32 + k) := by
    intro k hk
    rw [hentry]
    exact vfsRawQwordRaw_kept hp (by push_cast; omega) fun m => Held h₀ heap.ptr v m
  have hfirst := hword 0 (by omega)
  rw [Nat.cast_zero, Int.add_zero] at hfirst
  unfold initEntryRaw initramfsEntry readEntry
  simp only [bind_assoc, ite_error_bind, ok_bind, Int.add_zero]
  refine mirrors_bind hfirst fun nameOff w => mirrors_fact ?_
  rintro ⟨rfl, hnameOff⟩
  refine mirrors_bind (hword 8 (by omega)) fun nameLen w => mirrors_fact ?_
  rintro ⟨rfl, hnameLen⟩
  refine mirrors_bind (hword 16 (by omega)) fun dataOff w => mirrors_fact ?_
  rintro ⟨rfl, hdataOff⟩
  refine mirrors_bind (hword 24 (by omega)) fun dataLen w => mirrors_fact ?_
  rintro ⟨rfl, hdataLen⟩
  have hname : SliceFits size nameOff nameLen := by
    rw [hnameOff, hnameLen]
    exact hfits.name
  have hdata : SliceFits size dataOff dataLen := by
    rw [hdataOff, hdataLen]
    exact hfits.data
  exact mirrors_refuse fun _ => mirrors_refuse fun _ =>
    placeEntry_mirrors hp (by omega) hle hF hi hv hname hdata

/-- The loop over the entries. -/
theorem initEntries_mirrors (hp : ImagePlaced h₀ ptr size) (hle : h₀.ptr + 3376 ≤ h₀.stop)
    (hF : F 2 = some (h₀.ptr + 48)) (hptr : 0 < ptr) {n : Nat} (hn : n ≤ 32)
    (hfits : ∀ i < n, RowFits h₀.mem ptr size i) :
    Mirrors (fun s => (TableBuilt h₀ ptr size F heap s ∧ Held h₀ heap.ptr emptyVfs s.heap.mem))
      (times (initEntryRaw h₀.ptr ptr size) 0 n)
      (loop (initramfsEntry h₀.mem ptr size) 0 n (emptyVfs, heap)) fun _ r s =>
        (TableBuilt h₀ ptr size F r.2 s ∧ Held h₀ r.2.ptr r.1 s.heap.mem) ∧
          r.1.nodes.length = n := by
  have hloop := mirrors_times (initEntryRaw h₀.ptr ptr size) (initramfsEntry h₀.mem ptr size)
    (fun j c s => (TableBuilt h₀ ptr size F c.2 s ∧ Held h₀ c.2.ptr c.1 s.heap.mem) ∧
      c.1.nodes.length = j) (i := 0) (n := n) (c := (emptyVfs, heap))
    fun j c _ hj => mirrors_fact fun hc =>
      initEntryRaw_mirrors hp hle hF hptr (by omega) (hfits j (by omega)) hc
  rw [Nat.zero_add] at hloop
  exact hloop.mono (fun s hs => ⟨hs, rfl⟩) fun _ _ _ hs => hs

/-! ## The empty tables -/

/-- A block of both heaps before there are tables. -/
theorem allocRaw_start {n k : Nat} (hk : k % 16 = 0) :
    Mirrors (fun s => Fresh h₀ n s ∧ s.heap = heap) (allocRaw k) (allocBytes heap k) fun a r s =>
      (Fresh h₀ (n + k) s ∧ s.heap = r.2) ∧ a = h₀.ptr + n := by
  rintro s ⟨hs, rfl⟩
  have hfresh := allocRaw_fresh hk s hs
  unfold allocRaw at hfresh ⊢
  cases halloc : allocBytes s.heap k with
  | error e => exact rfl
  | ok r =>
    rw [halloc] at hfresh
    obtain ⟨ht, ha⟩ := hfresh _ _ rfl
    exact ⟨_, _, rfl, ⟨ht, rfl⟩, ha⟩

theorem setVfsDescQword_built {m : Mem} (hp : HeapOk h₀) (hle : h₀.ptr + 3376 ≤ h₀.stop)
    (hdesc : F 4 = some (h₀.ptr + 1840)) (hcap : F 5 = some 32) {id slot : Nat} (h1 : 1 ≤ id)
    (h32 : id ≤ 32) (hslot : slot < 6) (value : Int) :
    Total (fun s => TableBuilt h₀ ptr size F heap s ∧ s.heap.mem = m)
      (setVfsDescQword h₀.ptr id slot value) fun _ s => TableBuilt h₀ ptr size F heap s ∧
        s.heap.mem = storeQword m (h₀.ptr + 1840 + 48 * (id - 1) + 8 * slot) (addr value) := by
  have halign := hp.aligned
  have hstop := hp.stop_lt
  unfold setVfsDescQword vfsDescEntryPtr
  rw [bind_assoc]
  refine total_bind (vfsStateQword_built hp 5 (by omega) hcap) fun capacity =>
    total_fact fun hc => ?_
  rw [wrap_of_range (by omega) (by omega)] at hc
  rw [bind_assoc]
  refine total_bind (total_refuse (by omega)) fun _ => ?_
  rw [bind_assoc]
  refine total_bind (vfsStateQword_built hp 4 (by omega) hdesc) fun table =>
    total_fact fun htable => ?_
  have hentry : wrap (table + ((id : Int) - 1) * 6 * 8) =
      (h₀.ptr + 1840 + 48 * (id - 1) : Nat) := by
    rw [htable, wrap_of_range (x := (h₀.ptr + 1840 : Nat)) (by omega) (by omega),
      wrap_of_range (by omega) (by omega)]
    omega
  rw [pure_bind, hentry]
  exact storeQwordRaw_built hp _ 6 value (by omega) (by omega) (by omega) hslot

/-- All slots of all descriptors are zero afterwards, and nothing else changed. -/
theorem vfsClearDescriptors_built {m : Mem} (hp : HeapOk h₀) (hle : h₀.ptr + 3376 ≤ h₀.stop)
    (hdesc : F 4 = some (h₀.ptr + 1840)) (hcap : F 5 = some 32) :
    Total (fun s => TableBuilt h₀ ptr size F heap s ∧ s.heap.mem = m) (vfsClearDescriptors h₀.ptr)
      fun _ s => TableBuilt h₀ ptr size F heap s ∧
        ∀ j < 192, loadQword s.heap.mem (h₀.ptr + 1840 + 8 * j) = 0 := by
  unfold vfsClearDescriptors
  refine total_bind (vfsStateQword_built hp 5 (by omega) hcap) fun capacity =>
    total_fact fun hc => ?_
  rw [wrap_of_range (by omega) (by omega)] at hc
  -- the slots in front of slot `k` of descriptor `d` are zero
  have hslot : ∀ d k : Nat, 1 ≤ d → d < 33 → k < 6 →
      Total (fun s => TableBuilt h₀ ptr size F heap s ∧
          ∀ j < 6 * (d - 1) + k, loadQword s.heap.mem (h₀.ptr + 1840 + 8 * j) = 0)
        (setVfsDescQword h₀.ptr d k 0) fun _ s => TableBuilt h₀ ptr size F heap s ∧
          ∀ j < 6 * (d - 1) + (k + 1), loadQword s.heap.mem (h₀.ptr + 1840 + 8 * j) = 0 := by
    rintro d k h1 h33 hk s ⟨hb, hzero⟩
    obtain ⟨u, t, ht, hb', hm⟩ := setVfsDescQword_built (m := s.heap.mem) hp hle hdesc hcap h1
      (by omega) hk 0 s ⟨hb, rfl⟩
    refine ⟨u, t, ht, hb', fun j hj => ?_⟩
    rw [hm]
    by_cases hlast : j = 6 * (d - 1) + k
    · rw [hlast, show h₀.ptr + 1840 + 8 * (6 * (d - 1) + k) =
        h₀.ptr + 1840 + 48 * (d - 1) + 8 * k by omega, loadQword_storeQword]
      rfl
    · rw [loadQword_storeQword_ne (by omega)]
      exact hzero j (by omega)
  have hrow : ∀ d : Nat, 1 ≤ d → d < 1 + 32 → Total (fun s => TableBuilt h₀ ptr size F heap s ∧
        ∀ j < 6 * (d - 1), loadQword s.heap.mem (h₀.ptr + 1840 + 8 * j) = 0)
      (times (fun k => setVfsDescQword h₀.ptr d k 0) 0 6) fun _ s =>
        TableBuilt h₀ ptr size F heap s ∧
          ∀ j < 6 * (d + 1 - 1), loadQword s.heap.mem (h₀.ptr + 1840 + 8 * j) = 0 := by
    intro d h1 h33
    have hloop := total_times (fun k : Nat => setVfsDescQword h₀.ptr d k 0)
      (fun k s => TableBuilt h₀ ptr size F heap s ∧
        ∀ j < 6 * (d - 1) + k, loadQword s.heap.mem (h₀.ptr + 1840 + 8 * j) = 0)
      (i := 0) (n := 6) fun k _ hk => hslot d k h1 h33 (by omega)
    exact hloop.mono (fun s hs => hs) fun _ s hs => ⟨hs.1, fun j hj => hs.2 j (by omega)⟩
  have hall := total_times (fun d : Nat => times (fun k => setVfsDescQword h₀.ptr d k 0) 0 6)
    (fun d s => TableBuilt h₀ ptr size F heap s ∧
      ∀ j < 6 * (d - 1), loadQword s.heap.mem (h₀.ptr + 1840 + 8 * j) = 0)
    (i := 1) (n := 32) fun d h1 h33 => hrow d h1 h33
  rw [hc]
  exact hall.mono (fun s hs => ⟨hs.1, fun j hj => absurd hj (Nat.not_lt_zero j)⟩) fun _ s hs => hs

/-! ## The last node -/

theorem storeByteRaw_built {m : Mem} (hp : HeapOk h₀) (a : Nat) (b : UInt8)
    (hlo : h₀.ptr + 48 ≤ a) (hhi : a < h₀.stop) :
    Total (fun s => TableBuilt h₀ ptr size F heap s ∧ s.heap.mem = m) (storeByteRaw a b) fun _ s =>
      TableBuilt h₀ ptr size F heap s ∧ s.heap.mem = storeByte m a b := by
  have hstop := hp.stop_lt
  have hclean : Maintains (Clean h₀ ptr size F) (storeByteRaw a b) :=
    storeByteRaw_clean (by omega) (by omega) hstop
  rintro s ⟨⟨hc, rfl⟩, rfl⟩
  refine ⟨_, _, rfl, ⟨hclean s hc _ _ rfl, rfl⟩, ?_⟩
  dsimp only
  rw [addr_of_nonneg (by omega) (by omega), Int.toNat_natCast]

/-- `/tmp` at `a`, with the NUL. -/
def tmpMem (m : Mem) (a : Nat) : Mem :=
  storeByte (storeByte (storeByte (storeByte (storeByte m a 47) (a + 1) 116) (a + 2) 109)
    (a + 3) 112) (a + 4) 0

theorem tmpMem_of_lt {m : Mem} {a x : Nat} (h : x < a) : tmpMem m a x = m x := by
  unfold tmpMem
  rw [storeByte_ne (by omega), storeByte_ne (by omega), storeByte_ne (by omega),
    storeByte_ne (by omega), storeByte_ne (by omega)]

theorem loadBytes_tmpMem (m : Mem) (a : Nat) : loadBytes (tmpMem m a) a 4 = tmpName := by
  simp [tmpMem, loadBytes, storeByte, tmpName, List.range_succ]

/-- A negative count of nodes is found out by the row of the last node. -/
theorem vfsSetNodeNameData_negative {state id namePtr nameLen dataPtr dataLen : Int} (h : id < 0)
    (s : RawState) : vfsSetNodeNameData state id namePtr nameLen dataPtr dataLen s =
      .error "vfs node id out of range" := by
  unfold vfsSetNodeNameData setVfsNodeQword vfsNodeEntryPtr
  rw [run_bind, run_bind, run_bind, run_refuse, if_pos (Or.inl h)]
  rfl

/-- The row of `/tmp`, once its name is stored and the count is written. -/
theorem Held.tmp {v : VfsState} {m : Mem} {a lim : Nat} (h : Held h₀ a v m)
    (hv : v.nodes.length < 32) (habove : h₀.ptr + 3376 ≤ a) (hend : a + 5 ≤ lim)
    (hlim : lim < 2 ^ 63) (count : Nat) :
    Held h₀ lim { v with nodes := v.nodes ++ [tmpNode], mem := v.mem }
      (rowMem (storeQword (tmpMem m a) (h₀.ptr + 8 * 3) count)
        (h₀.ptr + 48 + 56 * v.nodes.length) a 4 0 0 2 1 0) := by
  have hbase : Held h₀ a v (storeQword (tmpMem m a) (h₀.ptr + 8 * 3) count) :=
    h.keep (by omega) habove (fun x hx hxa => by
      rw [storeQword_of_outside (by omega), tmpMem_of_lt hxa]) (le_refl _)
  have hname : loadBytes (storeQword (tmpMem m a) (h₀.ptr + 8 * 3) count) a 4 = tmpName := by
    rw [loadBytes_congr fun j hj => storeQword_of_outside (by omega), loadBytes_tmpMem]
  exact hbase.append (n := tmpNode) (by omega) habove (by omega) (fun _ _ => rfl)
    hname (le_refl a) (show a + 4 ≤ lim by omega) rfl (Or.inl rfl) (by omega) (by decide)
    (by decide) (by decide) (le_refl 1) (by decide)

/-- What `init_vfs` does behind the block of the name. -/
theorem vfsTmpRow_mirrors {m : Mem} (hp : HeapOk h₀) (hle : h₀.ptr + 3376 ≤ h₀.stop)
    (hF : F 2 = some (h₀.ptr + 48)) {c : Int} (hc : -2 ^ 63 ≤ c ∧ c < 2 ^ 63)
    (hcount : F 3 = some (addr c)) {v : VfsState} (hv : v.nodes.length = c.toNat) {a : Nat}
    (habove : h₀.ptr + 3376 ≤ a) (hend : a + 5 ≤ heap.ptr) (hstop : heap.ptr ≤ h₀.stop)
    (hheld : Held h₀ a v m) :
    Mirrors (fun s => TableBuilt h₀ ptr size F heap s ∧ s.heap.mem = m) (do
      storeByteRaw ((a : Int) + 0) 47
      storeByteRaw ((a : Int) + 1) 116
      storeByteRaw ((a : Int) + 2) 109
      storeByteRaw ((a : Int) + 3) 112
      storeByteRaw ((a : Int) + 4) 0
      let id ← vfsReserveNode h₀.ptr
      vfsSetNodeNameData h₀.ptr id a 4 0 0
      vfsSetNodeMeta h₀.ptr id 2 1 0)
      (if c ≥ maxVfsNodes then .error "vfs node table full"
        else if c < 0 then .error "vfs node id out of range"
        else .ok ({ v with nodes := v.nodes ++ [tmpNode] }, heap)) fun _ r s =>
      (TableBuilt h₀ ptr size (Function.update F 3 (some r.1.nodes.length)) r.2 s ∧
        Held h₀ r.2.ptr r.1 s.heap.mem) ∧ r.1.nodes.length ≤ 32 := by
  have hstop63 := hp.stop_lt
  have hstore : ∀ (m : Mem) (k : Nat) b, k < 5 →
      Total (fun s => TableBuilt h₀ ptr size F heap s ∧ s.heap.mem = m)
        (storeByteRaw ((a : Int) + k) b)
        fun _ s => TableBuilt h₀ ptr size F heap s ∧ s.heap.mem = storeByte m (a + k) b := by
    intro m k b hk
    rw [← Nat.cast_add]
    exact storeByteRaw_built hp _ b (by omega) (by omega)
  refine mirrors_left (hstore _ 0 _ (by omega)) fun _ =>
    mirrors_left (hstore _ 1 _ (by omega)) fun _ => mirrors_left (hstore _ 2 _ (by omega)) fun _ =>
    mirrors_left (hstore _ 3 _ (by omega)) fun _ =>
    mirrors_left (hstore _ 4 _ (by omega)) fun _ => ?_
  unfold vfsReserveNode
  rw [bind_assoc]
  refine mirrors_left (vfsStateQword_built hp 3 (by omega) hcount) fun id =>
    mirrors_fact fun hid => ?_
  rw [wrap_addr, wrap_of_range hc.1 hc.2] at hid
  rw [hid, bind_assoc]
  refine mirrors_refuse fun hfull => ?_
  rw [bind_assoc]
  refine mirrors_left (setVfsStateQword_built hp hle 3 (by omega) (c + 1)) fun _ => ?_
  rw [pure_bind]
  by_cases hneg : c < 0
  · rw [if_pos hneg]
    intro s _
    rw [ends_error, run_bind, vfsSetNodeNameData_negative hneg]
    rfl
  · rw [if_neg hneg]
    obtain ⟨i, rfl⟩ := Int.eq_ofNat_of_zero_le (not_lt.mp hneg)
    rw [Int.toNat_natCast] at hv
    obtain rfl := hv
    have hi : v.nodes.length < 32 := by omega
    have hmem : storeByte (storeByte (storeByte (storeByte (storeByte m (a + 0) 47) (a + 1) 116)
        (a + 2) 109) (a + 3) 112) (a + 4) 0 = tmpMem m a := rfl
    rw [hmem]
    intro s hs
    obtain ⟨u, t, ht, hb, hm⟩ := vfsSetNode_built hp hle (by simpa using hF) hi a 0 2 1 0
      (show (0 : Int) ≤ 4 by omega) (le_refl 0) s hs
    have hlen : addr ((v.nodes.length : Int) + 1) = (v.nodes ++ [tmpNode]).length := by
      rw [addr_of_nonneg (by omega) (by omega), List.length_append, List.length_singleton]
      omega
    refine ⟨u, t, ht, ⟨hlen ▸ hb, ?_⟩, ?_⟩
    · have hlast := hheld.tmp hi habove hend (by omega) (addr ((v.nodes.length : Int) + 1))
      rw [hm, addr_of_nonneg (x := (a : Int)) (by omega) (by omega), Int.toNat_natCast,
        show addr 4 = 4 from rfl, show addr 0 = 0 from rfl, show addr 2 = 2 from rfl,
        show addr 1 = 1 from rfl]
      exact hlast
    · rw [List.length_append, List.length_singleton]
      exact hi

/-- The slot of the node count is in front of all that `Held` is about. -/
theorem setVfsStateQword_held (hp : HeapOk h₀) (hle : h₀.ptr + 3376 ≤ h₀.stop) {v : VfsState}
    (hv : v.nodes.length ≤ 32) (value : Int) :
    Total (fun s => TableBuilt h₀ ptr size F heap s ∧ Held h₀ heap.ptr v s.heap.mem)
      (setVfsStateQword h₀.ptr 3 value) fun _ s =>
        TableBuilt h₀ ptr size (Function.update F 3 (some (addr value))) heap s ∧
          Held h₀ heap.ptr v s.heap.mem := by
  intro s hs
  obtain ⟨u, t, ht, hb, hm⟩ :=
    setVfsStateQword_built (m := s.heap.mem) hp hle 3 (by omega) value s ⟨hs.1, rfl⟩
  refine ⟨u, t, ht, hb, ?_⟩
  rw [hm]
  exact hs.2.keep hv hs.1.above (fun a ha _ => storeQword_of_outside (by omega)) (le_refl _)

theorem vfsTmpNode_mirrors (hp : HeapOk h₀) (hle : h₀.ptr + 3376 ≤ h₀.stop)
    (hF : F 2 = some (h₀.ptr + 48)) {c : Int} (hc : -2 ^ 63 ≤ c ∧ c < 2 ^ 63)
    (hcount : F 3 = some (addr c)) {v : VfsState} (hv : v.nodes.length = c.toNat) :
    Mirrors (fun s => TableBuilt h₀ ptr size F heap s ∧ Held h₀ heap.ptr v s.heap.mem)
      (vfsTmpNode h₀.ptr) (allocBytes heap 5 >>= fun r =>
        if c ≥ maxVfsNodes then .error "vfs node table full"
        else if c < 0 then .error "vfs node id out of range"
        else .ok ({ v with nodes := v.nodes ++ [tmpNode] }, r.2)) fun _ r s =>
      (TableBuilt h₀ ptr size (Function.update F 3 (some r.1.nodes.length)) r.2 s ∧
        Held h₀ r.2.ptr r.1 s.heap.mem) ∧ r.1.nodes.length ≤ 32 := by
  intro s hs
  refine mirrors_bind (allocRaw_built (m := s.heap.mem) (n := 5) (by omega)) (fun a r =>
    mirrors_fact ?_) s ⟨hs.1, rfl⟩
  rintro ⟨rfl, hr, habove, hend, hstop⟩
  exact vfsTmpRow_mirrors hp hle hF hc hcount hv habove (by omega) hstop hs.2

end Entries

/-! ## The whole function -/

/-- The file system `v` in the memory of `s`, whose heap is as far as `last`. -/
structure VfsAt (h₀ : Heap) (state : Int) (v : VfsState) (last : Heap) (s : RawState) : Prop where
  state : state = h₀.ptr
  heap : { s.heap with mem := h₀.mem } = last
  ok : HeapOk last
  held : Held h₀ last.ptr v s.heap.mem
  few : v.nodes.length ≤ 32
  nodeTable : loadQword s.heap.mem (h₀.ptr + 16) = h₀.ptr + 48
  count : loadQword s.heap.mem (h₀.ptr + 24) = v.nodes.length
  descTable : loadQword s.heap.mem (h₀.ptr + 32) = h₀.ptr + 1840
  capacity : loadQword s.heap.mem (h₀.ptr + 40) = 32
  frame : ∀ a, a < h₀.ptr ∨ h₀.stop ≤ a → s.heap.mem a = h₀.mem a

section Whole

variable {h₀ heap : Heap} {ptr size : Int}

theorem TableBuilt.vfsAt {F : Nat → Option Nat} {v : VfsState} {s : RawState}
    (hb : TableBuilt h₀ ptr size F heap s) (hheld : Held h₀ heap.ptr v s.heap.mem)
    (hfew : v.nodes.length ≤ 32) (h2 : F 2 = some (h₀.ptr + 48)) (h3 : F 3 = some v.nodes.length)
    (h4 : F 4 = some (h₀.ptr + 1840)) (h5 : F 5 = some 32) : VfsAt h₀ h₀.ptr v heap s :=
  ⟨rfl, hb.heap, hb.heap ▸ hb.clean.tables.heap.withMem _, hheld, hfew,
    hb.clean.tables.slots 2 (by omega) _ h2,
    hb.clean.tables.slots 3 (by omega) _ h3, hb.clean.tables.slots 4 (by omega) _ h4,
    hb.clean.tables.slots 5 (by omega) _ h5, hb.clean.tables.frame⟩

/-- What follows the empty tables. -/
theorem initImage_mirrors (hp : ImagePlaced h₀ ptr size) (hfits : TableFits h₀.mem ptr size)
    (hle : h₀.ptr + 3376 ≤ h₀.stop) :
    Mirrors (fun s => TableBuilt h₀ ptr size (stateSlots h₀ ptr size) heap s ∧
        Held h₀ heap.ptr emptyVfs s.heap.mem)
      (if ptr = 0 ∨ size = 0 then pure (h₀.ptr : Int) else do
      refuse (size < 32) "initramfs too small"
      let magic ← vfsRawQwordRaw (ptr + 0)
      refuse (magic ≠ initramfsMagic) "initramfs magic mismatch"
      let version ← vfsRawQwordRaw (ptr + 8)
      refuse (version ≠ initramfsVersion) "initramfs version mismatch"
      let nodeCount ← vfsRawQwordRaw (ptr + 16)
      refuse (nodeCount > 32) "initramfs node count too large"
      times (initEntryRaw h₀.ptr ptr size) 0 nodeCount.toNat
      setVfsStateQword h₀.ptr 3 nodeCount
      vfsTmpNode h₀.ptr
      pure (h₀.ptr : Int)) (if ptr = 0 ∨ size = 0 then .ok (emptyVfs, heap)
        else if size < 32 then .error "initramfs too small"
        else do
          let magic ← vfsRawQword h₀.mem ptr
          if magic ≠ initramfsMagic then .error "initramfs magic mismatch"
          else do
            let version ← vfsRawQword h₀.mem (ptr + 8)
            if version ≠ initramfsVersion then .error "initramfs version mismatch"
            else do
              let nodeCount ← vfsRawQword h₀.mem (ptr + 16)
              if nodeCount > maxVfsNodes then .error "initramfs node count too large"
              else do
                let r ← loop (initramfsEntry h₀.mem ptr size) 0 nodeCount.toNat (emptyVfs, heap)
                let q ← allocBytes r.2 5
                if nodeCount ≥ maxVfsNodes then .error "vfs node table full"
                else if nodeCount < 0 then .error "vfs node id out of range"
                else .ok ({ r.1 with nodes := r.1.nodes ++ [tmpNode] }, q.2))
      fun state r s => VfsAt h₀ state r.1 r.2 s := by
  have hlow := hp.low
  have hF : stateSlots h₀ ptr size 2 = some (h₀.ptr + 48) := rfl
  refine mirrors_ite Iff.rfl (fun _ => mirrors_pure fun s hs => hs.1.vfsAt
    hs.2 (Nat.zero_le _) rfl rfl rfl rfl)
    fun hfull => ?_
  refine mirrors_refuse fun h32 => ?_
  have hword : ∀ k : Nat, k ≤ 24 → Mirrors
      (fun s => TableBuilt h₀ ptr size (stateSlots h₀ ptr size) heap s ∧
        Held h₀ heap.ptr emptyVfs s.heap.mem)
      (vfsRawQwordRaw (ptr + k)) (vfsRawQword h₀.mem (ptr + k)) fun a w s =>
        (TableBuilt h₀ ptr size (stateSlots h₀ ptr size) heap s ∧
        Held h₀ heap.ptr emptyVfs s.heap.mem) ∧ a = w ∧ a = imageWord h₀.mem ptr k := fun k hk =>
    vfsRawQwordRaw_kept hp (by omega) fun m => Held h₀ heap.ptr emptyVfs m
  have hfirst := hword 0 (by omega)
  rw [Nat.cast_zero, Int.add_zero] at hfirst
  rw [Int.add_zero]
  refine mirrors_bind hfirst fun magic w => mirrors_fact ?_
  rintro ⟨rfl, hmagic⟩
  refine mirrors_refuse fun _ => mirrors_bind (hword 8 (by omega)) fun version w => mirrors_fact ?_
  rintro ⟨rfl, hversion⟩
  refine mirrors_refuse fun _ => mirrors_bind (hword 16 (by omega)) fun count w => mirrors_fact ?_
  rintro ⟨rfl, hcount⟩
  refine mirrors_refuse fun hmax => ?_
  have hrange : -2 ^ 63 ≤ count ∧ count < 2 ^ 63 := hcount ▸ wrap_range _
  have hmax' : count ≤ 32 := not_lt.mp hmax
  have hrows : ∀ i < count.toNat, RowFits h₀.mem ptr size i := by
    rw [hcount]
    exact (hfits.resolve_left fun h => hfull (Or.inl h)).resolve_left fun h => hfull (Or.inr h)
  have hptr : 0 < ptr := lt_of_le_of_ne hlow fun h => hfull (Or.inl h.symm)
  refine mirrors_bind (initEntries_mirrors hp hle hF hptr (Int.toNat_le.mpr hmax') hrows) fun _ r =>
    mirrors_fact fun hv => ?_
  have hle32 : r.1.nodes.length ≤ 32 := hv ▸ Int.toNat_le.mpr hmax'
  refine mirrors_left (setVfsStateQword_held hp.heap hle hle32 count) fun _ => ?_
  have hcount' : Function.update (stateSlots h₀ ptr size) 3 (some (addr count)) 3 =
      some (addr count) := Function.update_self ..
  refine mirrors_right (vfsTmpNode_mirrors hp.heap hle (by exact hF) hrange hcount' hv) fun _ q =>
    total_pure fun s hs => ?_
  exact hs.1.1.vfsAt hs.1.2 hs.2 hF (Function.update_self ..) rfl rfl

/-- The tables, with no nodes, and what follows. -/
theorem emptyTables_mirrors {α β : Type} {x : Raw α} {y : Except String β}
    {R : α → β → RawState → Prop} (hp : HeapOk h₀) (hle : h₀.ptr + 3376 ≤ h₀.stop)
    (h : Mirrors (fun s => TableBuilt h₀ ptr size (stateSlots h₀ ptr size) heap s ∧
      Held h₀ heap.ptr emptyVfs s.heap.mem) x y R) :
    Mirrors (fun s => Fresh h₀ 3376 s ∧ s.heap = heap) (do
      setVfsStateQword h₀.ptr 0 ptr
      setVfsStateQword h₀.ptr 1 size
      setVfsStateQword h₀.ptr 2 (h₀.ptr + 48 : Nat)
      setVfsStateQword h₀.ptr 3 0
      setVfsStateQword h₀.ptr 4 (h₀.ptr + 1840 : Nat)
      setVfsStateQword h₀.ptr 5 32
      vfsClearDescriptors h₀.ptr
      x) y R := by
  have hstop := hp.stop_lt
  have hstart : ∀ s, Fresh h₀ 3376 s ∧ s.heap = heap →
      TableBuilt h₀ ptr size (fun _ => none) heap s ∧ s.heap.mem = h₀.mem := by
    rintro s ⟨hs, rfl⟩
    refine ⟨⟨hs.clean, ?_⟩, hs.grows.mem⟩
    rw [← hs.grows.mem]
  have haddr : ∀ k : Nat, k ≤ 3376 → addr (h₀.ptr + k : Nat) = h₀.ptr + k := fun k hk => by
    rw [addr_of_nonneg (by omega) (by omega), Int.toNat_natCast]
  refine Mirrors.mono ?_ hstart fun _ _ _ hs => hs
  refine mirrors_left (setVfsStateQword_built hp hle 0 (by omega) ptr) fun _ => ?_
  refine mirrors_left (setVfsStateQword_built hp hle 1 (by omega) size) fun _ => ?_
  refine mirrors_left (setVfsStateQword_built hp hle 2 (by omega) _) fun _ => ?_
  refine mirrors_left (setVfsStateQword_built hp hle 3 (by omega) 0) fun _ => ?_
  refine mirrors_left (setVfsStateQword_built hp hle 4 (by omega) _) fun _ => ?_
  refine mirrors_left (setVfsStateQword_built hp hle 5 (by omega) 32) fun _ => ?_
  rw [haddr 48 (by omega), haddr 1840 (by omega), show addr 0 = 0 from rfl,
    show addr 32 = 32 from rfl]
  refine mirrors_left (vfsClearDescriptors_built hp hle rfl rfl) fun _ => ?_
  exact h.mono (fun s hs => ⟨hs.1, ⟨fun i n hn => by simp [emptyVfs] at hn, hs.2, rfl⟩⟩)
    fun _ _ _ hs => hs

/-- `init_vfs` over memory and over bytes: the same file system, which the tables in memory
    hold, and the same heap pointer; or the same panic. -/
theorem initVfsRaw_mirrors (hp : ImagePlaced h₀ ptr size) (hfits : TableFits h₀.mem ptr size) :
    Mirrors (fun s => s = ⟨h₀, [], []⟩) (initVfsRaw ptr size) (initVfs h₀.mem ptr size h₀)
      fun state r s => VfsAt h₀ state r.1 r.2 s := by
  unfold initVfsRaw vfsTables initVfs
  simp only [bind_assoc, pure_bind]
  have hstart : ∀ s, s = ⟨h₀, [], []⟩ → Fresh h₀ 0 s ∧ s.heap = h₀ := by
    rintro s rfl
    exact ⟨⟨hp.heap, HeapGrows.refl _, rfl, rfl, rfl⟩, rfl⟩
  refine Mirrors.mono ?_ hstart fun _ _ _ hs => hs
  refine mirrors_bind (allocRaw_start (k := 48) (by omega)) fun state r => mirrors_fact ?_
  rintro rfl
  refine mirrors_bind (allocRaw_start (k := 1792) (by omega)) fun nodeTable r => mirrors_fact ?_
  rintro rfl
  refine mirrors_bind (allocRaw_start (k := 1536) (by omega)) fun descTable r => mirrors_fact ?_
  rintro rfl
  refine mirrors_from (fun s hs => (Fresh.clean hs.1 : Clean h₀ ptr size (fun _ => none) _).room)
    fun hle => ?_
  exact emptyTables_mirrors hp.heap hle (initImage_mirrors hp hfits hle)

/-- The rows of the table read back as the nodes. -/
theorem VfsAt.rawNodes {state : Int} {v : VfsState} {last : Heap} {s : RawState}
    (h : VfsAt h₀ state v last s) (hp : HeapOk h₀) :
    rawNodes s.heap.mem state = v.nodes.map fun n =>
      ⟨n.name, loadBytes v.mem n.dataPtr n.dataLen, n.kind.code, n.flags⟩ := by
  have hle := hp.le
  have hstop := hp.stop_lt
  have hlast := h.ok.le
  have hlast63 := h.ok.stop_lt
  have hfew := h.few
  have hword : ∀ a n : Nat, loadQword s.heap.mem a = n → n < 2 ^ 63 → rawWord s.heap.mem a = n :=
    fun a n ha hn => by
      unfold rawWord
      rw [ha, wrap_of_range (by omega) (by omega)]
  unfold Vfs.rawNodes
  rw [h.state, addr_of_nonneg (by omega) (by omega), Int.toNat_natCast,
    hword _ _ h.count (by omega), Int.toNat_natCast]
  refine List.ext_getElem (by simp) fun i h1 h2 => ?_
  rw [List.length_map] at h2
  rw [List.getElem_map, List.getElem_map, List.getElem_range]
  have hn := h.held.nodes i v.nodes[i] (List.getElem?_eq_getElem h2)
  have hnameEnd := hn.namePlace.2
  have hdataEnd : v.nodes[i].dataLen < 2 ^ 63 := by
    rcases hn.dataPlace with h0 | h0 <;> omega
  have hkind : v.nodes[i].kind.code < 2 ^ 63 := by
    cases v.nodes[i].kind <;> decide
  have hflags := hn.flags_le
  unfold rawNode
  rw [addr_of_nonneg (by omega) (by omega), Int.toNat_natCast, h.nodeTable, Nat.mul_comm i 56]
  dsimp only
  rw [hword _ _ hn.nameLen (by omega), hword _ _ hn.dataLen hdataEnd, hword _ _ hn.kind hkind,
    hword _ _ hn.flags (by omega), Int.toNat_natCast, Int.toNat_natCast, hn.name, hn.dataPtr,
      hn.data]

end Whole

end PcoOs.Vfs
