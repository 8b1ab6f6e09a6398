/-
  The initramfs round trip. `addEntries_spec`: the blob grows with its cursor, and every table
  entry says where name and data lie; `patchTable_eq`: filling in the table leaves the bytes
  behind it alone. `readEntry_buildImage`: reading entry `i` of a built image gives entry `i`,
  and `init_vfs_round_trip`: `init_vfs` makes one node of each.
-/
import PcoOs.Vfs.Initramfs

namespace PcoOs.Vfs

open PcoOs.Lib PcoOs.Support PcoOs.Pmm

/-! ## The layout of a built image -/

/-- The bytes `s` lie at `off`. -/
structure Slice (blob : Bytes) (off : Nat) (s : Bytes) : Prop where
  start : s <+: blob.drop off
  le : off + s.length ≤ blob.length

theorem Slice.mono {a b s : Bytes} {off : Nat} (h : Slice a off s) (hab : a <+: b) :
    Slice b off s := by
  obtain ⟨t, rfl⟩ := hab
  refine ⟨?_, ?_⟩
  · rw [List.drop_append_of_le_length (by have := h.le; omega)]
    exact h.start.trans (List.prefix_append _ _)
  · rw [List.length_append]
    exact h.le.trans (Nat.le_add_right _ _)

theorem slice_append (a s : Bytes) : Slice (a ++ s) a.length s :=
  ⟨by rw [List.drop_left], by rw [List.length_append]⟩

theorem le_alignUp64 (n : Nat) : n ≤ alignUp64 n := by
  unfold alignUp64 alignDown
  omega

/-- Bytes added at the next multiple of 64. -/
theorem padTo_append {blob : Bytes} {n : Nat} (h : blob.length ≤ n) (s : Bytes) :
    blob <+: padTo blob n ++ s ∧ (padTo blob n ++ s).length = n + s.length ∧
      Slice (padTo blob n ++ s) n s := by
  obtain ⟨hp, hl⟩ : blob <+: padTo blob n ∧ (padTo blob n).length = n := by
    unfold padTo
    split_ifs with hlt
    · exact ⟨List.prefix_append _ _, by simp; omega⟩
    · exact ⟨List.prefix_refl _, by omega⟩
  have hs := slice_append (padTo blob n) s
  rw [hl] at hs
  exact ⟨hp.trans (List.prefix_append _ _), by rw [List.length_append, hl], hs⟩

/-- A table entry says where the bytes of its file lie, at `start` or behind it. -/
def Listed (blob : Bytes) (start : Nat) (e : Bytes × Bytes) (packed : Bytes) : Prop :=
  ∃ nameOff dataOff, packed = packWords [nameOff, e.1.length, dataOff, e.2.length] ∧
    start ≤ nameOff ∧ start ≤ dataOff ∧ Slice blob nameOff e.1 ∧ Slice blob dataOff e.2

theorem addEntries_spec (entries : List (Bytes × Bytes)) {blob : Bytes} {start : Nat}
    (hs : start ≤ blob.length) :
    blob <+: (addEntries entries blob blob.length).1 ∧
      List.Forall₂ (Listed (addEntries entries blob blob.length).1 start) entries
        (addEntries entries blob blob.length).2 := by
  induction entries generalizing blob with
  | nil => exact ⟨List.prefix_refl _, List.Forall₂.nil⟩
  | cons e rest ih =>
    obtain ⟨name, data⟩ := e
    have hname := le_alignUp64 blob.length
    obtain ⟨hp₁, hl₁, hs₁⟩ := padTo_append hname name
    have hdata := le_alignUp64 (alignUp64 blob.length + name.length)
    obtain ⟨hp₂, hl₂, hs₂⟩ := padTo_append (hl₁.trans_le hdata) data
    rw [addEntries]
    dsimp only
    -- the cursor is the length of the blob again
    rw [← hl₂]
    generalize padTo (padTo blob (alignUp64 blob.length) ++ name)
      (alignUp64 (alignUp64 blob.length + name.length)) ++ data = blob₂ at hp₂ hl₂ hs₂ ⊢
    obtain ⟨hrest, hlisted⟩ := @ih blob₂ (by omega)
    exact ⟨hp₁.trans (hp₂.trans hrest), List.Forall₂.cons ⟨_, _, rfl, by omega, by omega,
      hs₁.mono (hp₂.trans hrest), hs₂.mono hrest⟩ hlisted⟩

@[simp] theorem length_packWords (ws : List Nat) : (packWords ws).length = 8 * ws.length := by
  induction ws with
  | nil => rfl
  | cons w ws ih =>
    unfold packWords at ih ⊢
    rw [List.flatMap_cons, List.length_append, ih, length_wordBytes, List.length_cons]
    omega

/-- Filling in the table: `z` is the part of it that is still empty. -/
theorem patchTable_eq {packed : List Bytes} (hp : ∀ p ∈ packed, p.length = 32) {i : Nat}
    {a z body : Bytes} (ha : a.length = 32 + i * 32) (hz : z.length = 32 * packed.length) :
    patchTable i packed (a ++ z ++ body) = a ++ packed.flatten ++ body := by
  induction packed generalizing i a z with
  | nil =>
    rw [List.length_nil, Nat.mul_zero] at hz
    rw [List.eq_nil_of_length_eq_zero hz]
    rfl
  | cons p rest ih =>
    have h32 := hp p (List.mem_cons_self ..)
    rw [List.length_cons] at hz
    have hpatch : patch (a ++ z ++ body) (32 + i * 32) p = (a ++ p) ++ z.drop 32 ++ body := by
      unfold patch
      rw [← ha, h32, List.append_assoc a z body, List.take_left, ← List.drop_drop, List.drop_left,
        List.drop_append_of_le_length (by omega)]
      simp
    rw [patchTable, hpatch, ih (fun q hq => hp q (List.mem_cons_of_mem _ hq)) (by simp [ha, h32]; omega)
      (by simp; omega)]
    simp

theorem Slice.shift {b s : Bytes} {off : Nat} (h : Slice b off s) (a : Bytes) :
    Slice (a ++ b) (a.length + off) s := by
  refine ⟨?_, ?_⟩
  · rw [← List.drop_drop, List.drop_left]
    exact h.start
  · rw [List.length_append]
    have := h.le
    omega

/-- Bytes behind `a` stay where they are when `a` is replaced. -/
theorem Slice.replace {a a' body s : Bytes} {off : Nat} (h : Slice (a ++ body) off s)
    (ha : a.length ≤ off) (hl : a'.length = a.length) : Slice (a' ++ body) off s := by
  have hdrop : (a' ++ body).drop off = (a ++ body).drop off := by
    rw [List.drop_append, List.drop_append, List.drop_of_length_le ha,
      List.drop_of_length_le (hl ▸ ha), hl]
  refine ⟨hdrop ▸ h.start, ?_⟩
  have := h.le
  rw [List.length_append] at this ⊢
  omega

theorem Slice.split {b x y : Bytes} {off : Nat} (h : Slice b off (x ++ y)) :
    Slice b off x ∧ Slice b (off + x.length) y := by
  have hle := h.le
  rw [List.length_append] at hle
  obtain ⟨t, ht⟩ := h.start
  refine ⟨⟨⟨y ++ t, by rw [← ht, List.append_assoc]⟩, by omega⟩, ⟨t, ?_⟩, by omega⟩
  rw [← List.drop_drop, ← ht, List.append_assoc, List.drop_left]

theorem slice_flatten {packed : List Bytes} (hp : ∀ p ∈ packed, p.length = 32) {i : Nat}
    {p : Bytes} (hi : packed[i]? = some p) : Slice packed.flatten (32 * i) p := by
  induction packed generalizing i with
  | nil => cases hi
  | cons q rest ih =>
    rw [List.flatten_cons]
    cases i with
    | zero =>
      rw [← Option.some.inj hi]
      exact ⟨List.prefix_append _ _, by rw [List.length_append]; omega⟩
    | succ i =>
      have h32 := hp q (List.mem_cons_self ..)
      have h := (ih (fun r hr => hp r (List.mem_cons_of_mem _ hr)) hi).shift q
      rwa [h32, show 32 + 32 * i = 32 * (i + 1) by omega] at h

theorem Listed.length {blob packed : Bytes} {start : Nat} {e : Bytes × Bytes}
    (h : Listed blob start e packed) : packed.length = 32 := by
  obtain ⟨nameOff, dataOff, rfl, -⟩ := h
  rw [length_packWords]
  rfl

theorem forall_length {blob : Bytes} {start : Nat} {entries : List (Bytes × Bytes)}
    {packed : List Bytes} (h : List.Forall₂ (Listed blob start) entries packed) :
    ∀ p ∈ packed, p.length = 32 := by
  induction h with
  | nil => exact fun p hp => absurd hp List.not_mem_nil
  | cons he _ ih =>
    intro p hp
    rcases List.mem_cons.mp hp with rfl | hp
    · exact he.length
    · exact ih p hp

def imageHeader (n : Nat) : Bytes := packWords [initramfsMagic, initramfsVersion, n, 0]

theorem length_imageHeader (n : Nat) : (imageHeader n).length = 32 := length_packWords _

/-- A built image: the header, the packed table entries, and the bytes of the files. -/
theorem buildImage_layout (entries : List (Bytes × Bytes)) : ∃ packed body,
    buildImage entries = imageHeader entries.length ++ packed.flatten ++ body ∧
    List.Forall₂ (Listed (buildImage entries) (32 + entries.length * 32)) entries packed := by
  have hlen : (imageHeader entries.length ++
      List.replicate (entries.length * 32) (0 : UInt8)).length = 32 + entries.length * 32 := by
    rw [List.length_append, length_imageHeader, List.length_replicate]
  obtain ⟨hpre, hlisted⟩ := addEntries_spec entries hlen.ge
  rw [hlen] at hpre hlisted
  obtain ⟨out, packed, hadd⟩ : ∃ out packed, addEntries entries (imageHeader entries.length ++
      List.replicate (entries.length * 32) 0) (32 + entries.length * 32) = (out, packed) :=
    ⟨_, _, rfl⟩
  rw [hadd] at hpre hlisted
  dsimp only at hpre hlisted
  obtain ⟨body, rfl⟩ := hpre
  have h32 := forall_length hlisted
  have hflat : packed.flatten.length = entries.length * 32 := by
    rw [List.length_flatten, List.map_congr_left h32, List.map_const', List.sum_replicate,
      ← hlisted.length_eq, smul_eq_mul]
  have himage : buildImage entries = imageHeader entries.length ++ packed.flatten ++ body := by
    have hunfold : buildImage entries = patchTable 0 packed (imageHeader entries.length ++
        List.replicate (entries.length * 32) 0 ++ body) := by
      unfold buildImage
      unfold imageHeader at hadd ⊢
      dsimp only
      rw [hadd]
    rw [hunfold]
    refine patchTable_eq h32 (length_imageHeader _) ?_
    rw [List.length_replicate, ← hlisted.length_eq, Nat.mul_comm]
  refine ⟨packed, body, himage, hlisted.imp fun e p he => ?_⟩
  obtain ⟨nameOff, dataOff, hp, h1, h2, h3, h4⟩ := he
  have hl : (imageHeader entries.length ++ packed.flatten).length = (imageHeader entries.length ++
      List.replicate (entries.length * 32) (0 : UInt8)).length := by
    rw [hlen, List.length_append, length_imageHeader, hflat]
  rw [himage]
  exact ⟨nameOff, dataOff, hp, h1, h2, h3.replace (hlen.trans_le h1) hl,
    h4.replace (hlen.trans_le h2) hl⟩

/-! ## Reading a built image -/

/-- The image lies in memory where the loader put it, on whole pages. -/
structure Loaded (m : Mem) (ptr : Nat) (image : Bytes) : Prop where
  bytes : loadBytes m ptr image.length = image
  pos : 0 < ptr
  aligned : ptr % 4096 = 0
  range : ptr + image.length < 2 ^ 63

theorem Loaded.slice {m : Mem} {ptr : Nat} {image : Bytes} (h : Loaded m ptr image) {off : Nat}
    {s : Bytes} (hs : Slice image off s) : loadBytes m (ptr + off) s.length = s := by
  rw [loadBytes_slice hs.le, h.bytes]
  exact (List.prefix_iff_eq_take.mp hs.start).symm

theorem vfsRawQword_ok {m : Mem} {ptr : Nat} {image : Bytes} (h : Loaded m ptr image) {off w : Nat}
    (ho : off % 8 = 0) (hs : Slice image off (wordBytes w)) (hw : w < 2 ^ 63) :
    vfsRawQword m (ptr + off) = .ok (w : Int) := by
  have hload := h.slice hs
  have hle := hs.le
  have hr := h.range
  have hp := h.pos
  have ha := h.aligned
  rw [length_wordBytes] at hload hle
  unfold vfsRawQword
  rw [addr_of_nonneg (by omega) (by omega), loadQwordRegion_ok (by omega) (by omega) (le_refl _)
    (by norm_num), ok_bind, show ((ptr : Int) + off).toNat = ptr + off by omega]
  simp only [Int.toNat_zero, Nat.mul_zero, Nat.add_zero]
  rw [loadQword_of_wordBytes hload, Nat.mod_eq_of_lt (by omega), wrap_of_range (by omega) (by omega)]

theorem packWords_cons (w : Nat) (ws : List Nat) : packWords (w :: ws) = wordBytes w ++ packWords ws :=
  rfl

/-- The four words of entry `i`, and where they point. -/
theorem entryWords_buildImage {entries : List (Bytes × Bytes)} {m : Mem} {ptr : Nat}
    (h : Loaded m ptr (buildImage entries)) {i : Nat} {e : Bytes × Bytes}
    (hi : entries[i]? = some e) :
    ∃ nameOff dataOff : Nat, vfsRawQword m ((ptr : Int) + 32 + i * 32) = .ok (nameOff : Int) ∧
      vfsRawQword m ((ptr : Int) + 32 + i * 32 + 8) = .ok (e.1.length : Int) ∧
      vfsRawQword m ((ptr : Int) + 32 + i * 32 + 16) = .ok (dataOff : Int) ∧
      vfsRawQword m ((ptr : Int) + 32 + i * 32 + 24) = .ok (e.2.length : Int) ∧
      Slice (buildImage entries) nameOff e.1 ∧ Slice (buildImage entries) dataOff e.2 := by
  obtain ⟨packed, body, himage, hlisted⟩ := buildImage_layout entries
  have hr := h.range
  obtain ⟨p, hp, nameOff, dataOff, rfl, -, -, hn, hd⟩ : ∃ p, packed[i]? = some p ∧
      Listed (buildImage entries) (32 + entries.length * 32) e p := by
    obtain ⟨hlt, rfl⟩ := List.getElem?_eq_some_iff.mp hi
    have hlt' : i < packed.length := hlisted.length_eq ▸ hlt
    exact ⟨_, List.getElem?_eq_getElem hlt', hlisted.get hlt hlt'⟩
  have hs : Slice (buildImage entries) (32 + 32 * i)
      (packWords [nameOff, e.1.length, dataOff, e.2.length]) := by
    have hflat := (slice_flatten (forall_length hlisted) hp).shift (imageHeader entries.length)
    rw [length_imageHeader] at hflat
    rw [himage]
    exact hflat.mono (List.prefix_append _ _)
  rw [packWords_cons, packWords_cons, packWords_cons, packWords_cons] at hs
  obtain ⟨h1, hs⟩ := hs.split
  obtain ⟨h2, hs⟩ := hs.split
  obtain ⟨h3, hs⟩ := hs.split
  obtain ⟨h4, -⟩ := hs.split
  simp only [length_wordBytes] at h2 h3 h4
  have hnle := hn.le
  have hdle := hd.le
  refine ⟨nameOff, dataOff, ?_, ?_, ?_, ?_, hn, hd⟩
  · convert vfsRawQword_ok h (by omega) h1 (by omega) using 2
    push_cast
    ring
  · convert vfsRawQword_ok h (by omega) h2 (by omega) using 2
    push_cast
    ring
  · convert vfsRawQword_ok h (by omega) h3 (by omega) using 2
    push_cast
    ring
  · convert vfsRawQword_ok h (by omega) h4 (by omega) using 2
    push_cast
    ring

theorem readEntry_buildImage {entries : List (Bytes × Bytes)} {m : Mem} {ptr : Nat}
    (h : Loaded m ptr (buildImage entries)) {i : Nat} {e : Bytes × Bytes}
    (hi : entries[i]? = some e) :
    readEntry m ptr (buildImage entries).length i = .ok (Entry.of e) := by
  obtain ⟨nameOff, dataOff, q1, q2, q3, q4, hn, hd⟩ := entryWords_buildImage h hi
  have hr := h.range
  have hnle := hn.le
  have hdle := hd.le
  unfold readEntry Entry.of
  dsimp only
  rw [q1, ok_bind, q2, ok_bind, q3, ok_bind, q4, ok_bind, wrap_of_range (by omega) (by omega),
    if_neg (by omega), wrap_of_range (by omega) (by omega), if_neg (by omega),
    addr_of_nonneg (by omega) (by omega), addr_of_nonneg (by omega) (by omega),
    show ((ptr : Int) + nameOff).toNat = ptr + nameOff by omega,
    show ((ptr : Int) + dataOff).toNat = ptr + dataOff by omega, Int.toNat_natCast,
    Int.toNat_natCast, h.slice hn, h.slice hd]

/-- The number of entries, in the header. -/
theorem count_buildImage {entries : List (Bytes × Bytes)} {m : Mem} {ptr : Nat}
    (h : Loaded m ptr (buildImage entries)) (hcount : entries.length < 2 ^ 63) :
    vfsRawQword m ((ptr : Int) + 16) = .ok (entries.length : Int) := by
  obtain ⟨packed, body, himage, -⟩ := buildImage_layout entries
  have hs : Slice (buildImage entries) 0 (imageHeader entries.length) := by
    rw [himage, List.append_assoc]
    exact ⟨List.prefix_append _ _, by simp⟩
  unfold imageHeader at hs
  rw [packWords_cons, packWords_cons, packWords_cons] at hs
  obtain ⟨-, hs⟩ := hs.split
  obtain ⟨-, hs⟩ := hs.split
  obtain ⟨h3, -⟩ := hs.split
  simp only [length_wordBytes, Nat.zero_add] at h3
  have q3 := vfsRawQword_ok h (by norm_num) h3 (by omega)
  push_cast at q3
  exact q3

/-- `build_image` writes no negative length. -/
theorem lengthsOk_buildImage {entries : List (Bytes × Bytes)} {m : Mem} {ptr : Nat}
    (h : Loaded m ptr (buildImage entries)) (hcount : entries.length < 2 ^ 63) :
    LengthsOk m ptr (buildImage entries).length := by
  refine Or.inr (Or.inr fun count hc i hi len hlen => ?_)
  rw [count_buildImage h hcount] at hc
  cases hc
  rw [Int.toNat_natCast] at hi
  obtain ⟨-, -, -, q2, -, q4, -, -⟩ := entryWords_buildImage h (List.getElem?_eq_getElem hi)
  rcases hlen with hlen | hlen
  · rw [q2] at hlen
    cases hlen
    exact Int.natCast_nonneg _
  · rw [q4] at hlen
    cases hlen
    exact Int.natCast_nonneg _

/-- The lengths of an entry are two words of the table, and as much was copied. -/
theorem readEntry_spec {m : Mem} {ptr size : Int} {i : Nat} {e : Entry}
    (h : readEntry m ptr size i = .ok e) :
    vfsRawQword m (ptr + 32 + i * 32 + 8) = .ok e.nameLen ∧
      vfsRawQword m (ptr + 32 + i * 32 + 24) = .ok e.dataLen ∧ e.nameLen < 2 ^ 63 ∧
      e.name.length = e.nameLen.toNat ∧ e.data.length = e.dataLen.toNat := by
  unfold readEntry at h
  obtain ⟨nameOff, -, h⟩ := bind_eq_ok.mp h
  obtain ⟨nameLen, hname, h⟩ := bind_eq_ok.mp h
  obtain ⟨dataOff, -, h⟩ := bind_eq_ok.mp h
  obtain ⟨dataLen, hdata, h⟩ := bind_eq_ok.mp h
  split_ifs at h
  cases h
  obtain ⟨w, -, hw⟩ := bind_eq_ok.mp hname
  have hlt := (wrap_range w).2
  rw [Except.ok.inj hw] at hlt
  exact ⟨hname, hdata, hlt, length_loadBytes .., length_loadBytes ..⟩

/-! ## Nodes of a built image -/

/-- A node that is a read-only file with the name and the data of `e`. -/
structure NodeHolds (m : Mem) (e : Bytes × Bytes) (n : Node) : Prop where
  name : n.name = e.1
  kind : n.kind = .file
  flags : n.flags = 0
  dataLen : n.dataLen = e.2.length
  dataCapacity : n.dataCapacity = e.2.length
  data : loadBytes m n.dataPtr n.dataLen = e.2

theorem NodeHolds.congr {m m' : Mem} {e : Bytes × Bytes} {n : Node} (h : NodeHolds m e n)
    (hm : ∀ x, n.dataPtr ≤ x → x < n.dataPtr + n.dataLen → m' x = m x) : NodeHolds m' e n := by
  refine ⟨h.name, h.kind, h.flags, h.dataLen, h.dataCapacity, ?_⟩
  rw [loadBytes_congr fun i hi => hm _ (by omega) (by omega)]
  exact h.data

/-- Placing an entry takes two blocks of the heap and adds a node. -/
theorem placeEntry_spec {e : Entry} (hname : e.nameLen = e.name.length) (hlt : e.nameLen < 2 ^ 63)
    (hdata : e.dataLen = e.data.length) (v : VfsState) {heap : Heap} (hh : HeapOk heap) :
    Ends (placeEntry e v heap)
      (fun r => ∃ dst, r.1 = { v with
          nodes := v.nodes ++ [⟨e.name, dst, e.data.length, .file, 0, e.data.length⟩]
          mem := storeBytes v.mem dst e.data } ∧
        HeapMoves heap r.2 ∧ heap.ptr ≤ dst ∧ dst + e.data.length ≤ r.2.ptr ∧
        r.2.ptr ≤ heap.ptr + (e.name.length + e.data.length + 33))
      (fun _ => heap.stop < heap.ptr + (e.name.length + e.data.length + 33)) := by
  have hstop := hh.stop_lt
  unfold placeEntry
  rw [hname, hdata]
  rcases Int.lt_or_le ((e.name.length : Int) + 1) (2 ^ 63) with hsmall | hlarge
  · rw [wrap_of_range (by omega) hsmall]
    refine ends_bind ((allocBytes_spec hh (n := (e.name.length : Int) + 1) (by omega)).mono
      (fun _ h => h) fun _ he => by omega) ?_
    rintro ⟨p, heap₁⟩ ⟨-, hok₁, hg₁, -, hlt₁⟩
    have hp₁ := hg₁.ptr_le
    have hs₁ := hg₁.stop
    dsimp only at hok₁ hlt₁ hp₁ hs₁ ⊢
    refine ends_bind ((allocBytes_spec hok₁ (n := (e.data.length : Int)) (by omega)).mono
      (fun _ h => h) fun _ he => by omega) ?_
    rintro ⟨dst, heap₂⟩ ⟨hdst, hok₂, hg₂, hle₂, hlt₂⟩
    dsimp only at hdst hok₂ hle₂ hlt₂
    exact ⟨dst, rfl, ⟨hok₂, hg₁.trans hg₂⟩, by omega, by dsimp only; omega, by dsimp only; omega⟩
  · -- the size of the name wraps to `-2^63`, which the heap refuses
    have hle := hh.le
    have hrefused : allocBytes heap (wrap ((e.name.length : Int) + 1)) =
        .error "early heap exhausted" := by
      unfold allocBytes alignDownI wrap
      dsimp only
      rw [if_pos (by omega)]
    rw [hrefused, error_bind]
    show heap.stop < _
    omega

/-- Heap bytes for the names and data of the entries. -/
def heapFor (entries : List (Bytes × Bytes)) : Nat :=
  (entries.map fun e => e.1.length + e.2.length + 33).sum

/-- The nodes of the first `i` entries hold them, in buffers below the heap pointer, and the heap
    has room for the rest and for the name of `/tmp`. -/
structure Placed (entries : List (Bytes × Bytes)) (i : Nat) (st : VfsState × Heap) : Prop where
  heap : HeapOk st.2
  room : st.2.ptr + heapFor (entries.drop i) + 21 ≤ st.2.stop
  nodes : List.Forall₂ (fun e n => NodeHolds st.1.mem e n ∧ n.dataPtr + n.dataLen ≤ st.2.ptr)
    (entries.take i) st.1.nodes

theorem initramfsEntry_placed {entries : List (Bytes × Bytes)} {m : Mem} {ptr i : Nat}
    (h : Loaded m ptr (buildImage entries)) (hi : i < entries.length) {st : VfsState × Heap}
    (hp : Placed entries i st) :
    ∃ st', initramfsEntry m ptr (buildImage entries).length i st = .ok st' ∧
      Placed entries (i + 1) st' := by
  have hget := List.getElem?_eq_getElem hi
  have hroom := hp.room
  rw [List.drop_eq_getElem_cons hi, heapFor, List.map_cons, List.sum_cons] at hroom
  have hread := readEntry_buildImage h hget
  obtain ⟨⟨v', heap'⟩, he, dst, hv, hm, h1, h2, h3⟩ :=
    (placeEntry_spec (e := Entry.of entries[i]) rfl (readEntry_spec hread).2.2.1 rfl st.1
      hp.heap).exists_ok fun _ he => by
        dsimp only [Entry.of] at he
        omega
  dsimp only [Entry.of] at hv hm h2 h3
  unfold initramfsEntry
  rw [hread, ok_bind]
  have hstop := hm.2.stop
  refine ⟨_, he, hm.1, ?_, ?_⟩
  · unfold heapFor
    dsimp only
    omega
  · dsimp only
    rw [hv, List.take_add_one, hget]
    refine List.rel_append (hp.nodes.imp ?_) (List.Forall₂.cons ?_ List.Forall₂.nil)
    · rintro e n ⟨hn, hle⟩
      exact ⟨hn.congr fun x _ hx => storeBytes_of_outside (by omega), by omega⟩
    · exact ⟨⟨rfl, rfl, rfl, rfl, rfl, loadBytes_storeBytes _ _ _⟩, h2⟩

/-- `init_vfs` on a built image of at most 31 entries gives back the entries, each as a read-only
    file in its place, and one writable directory `/tmp` behind them. -/
theorem init_vfs_round_trip (entries : List (Bytes × Bytes))
    (hcount : entries.length ≤ maxVfsNodes - 1) {m : Mem} {ptr : Nat}
    (h : Loaded m ptr (buildImage entries)) {heap : Heap} (hh : HeapOk heap)
    (hroom : heap.ptr + heapFor entries + 4000 ≤ heap.stop) :
    ∃ v heap' files, initVfs m ptr (buildImage entries).length heap = .ok (v, heap') ∧
      v.nodes = files ++ [⟨tmpName, 0, 0, .directory, nodeFlagWritable, 0⟩] ∧
      List.Forall₂ (NodeHolds v.mem) entries files := by
  obtain ⟨packed, body, himage, -⟩ := buildImage_layout entries
  have hlen : 32 ≤ (buildImage entries).length := by
    rw [himage, List.length_append, List.length_append, length_imageHeader]
    omega
  unfold maxVfsNodes at hcount
  -- the first words of the header
  have hs : Slice (buildImage entries) 0 (imageHeader entries.length) := by
    rw [himage, List.append_assoc]
    exact ⟨List.prefix_append _ _, by simp⟩
  unfold imageHeader at hs
  rw [packWords_cons, packWords_cons, packWords_cons] at hs
  obtain ⟨h1, hs⟩ := hs.split
  obtain ⟨h2, -⟩ := hs.split
  simp only [length_wordBytes, Nat.zero_add] at h2
  have q1 := vfsRawQword_ok h (by norm_num) h1 (by decide)
  have q2 := vfsRawQword_ok h (by norm_num) h2 (by decide)
  have q3 := count_buildImage h (by omega)
  push_cast at q1 q2
  rw [add_zero] at q1
  have hpos := h.pos
  unfold initVfs maxVfsNodes maxVfsDescriptors
  obtain ⟨⟨p₁, heap₁⟩, e₁, -, hok₁, hg₁, -, hlt₁⟩ :=
    (allocBytes_spec hh (n := 6 * 8) (by norm_num)).exists_ok fun _ he => by omega
  have hs₁ := hg₁.stop
  dsimp only at hok₁ hlt₁ hs₁
  obtain ⟨⟨p₂, heap₂⟩, e₂, -, hok₂, hg₂, -, hlt₂⟩ :=
    (allocBytes_spec hok₁ (n := (32 : Nat) * 7 * 8) (by norm_num)).exists_ok fun _ he => by omega
  have hs₂ := hg₂.stop
  dsimp only at hok₂ hlt₂ hs₂
  obtain ⟨⟨p₃, heap₃⟩, e₃, -, hok₃, hg₃, -, hlt₃⟩ :=
    (allocBytes_spec hok₂ (n := (32 : Nat) * 6 * 8) (by norm_num)).exists_ok fun _ he => by omega
  have hs₃ := hg₃.stop
  dsimp only at hok₃ hlt₃ hs₃
  have hstart : Placed entries 0 (emptyVfs, heap₃) :=
    ⟨hok₃, by dsimp only; rw [List.drop_zero]; omega, List.Forall₂.nil⟩
  obtain ⟨⟨v, heap₄⟩, e₄, hv⟩ := loop_eq_ok (Placed entries)
    (f := initramfsEntry m ptr (buildImage entries).length) (n := entries.length)
    hstart fun i st _ hi hp => initramfsEntry_placed h (by omega) hp
  have hnodes := hv.nodes
  have hroom₄ := hv.room
  rw [Nat.zero_add, List.take_length] at hnodes
  dsimp only at hnodes hroom₄
  obtain ⟨⟨p₅, heap₅⟩, e₅, -⟩ :=
    (allocBytes_spec hv.heap (n := 5) (by norm_num)).exists_ok fun _ he => by
      dsimp only at he
      omega
  refine ⟨{ v with nodes := v.nodes ++ [tmpNode] }, heap₅, v.nodes, ?_, rfl,
    hnodes.imp fun e n hn => hn.1⟩
  rw [e₁, ok_bind]
  dsimp only
  rw [e₂, ok_bind]
  dsimp only
  rw [e₃, ok_bind]
  dsimp only
  rw [if_neg (by omega), if_neg (by omega), q1, ok_bind, if_neg (not_not.mpr rfl), q2, ok_bind, if_neg (not_not.mpr rfl), q3, ok_bind,
    if_neg (by push_cast; omega), Int.toNat_natCast, e₄, ok_bind]
  dsimp only
  rw [e₅, ok_bind, if_neg (by push_cast; omega), if_neg (by omega)]

/-- `/a` with one byte, and `/b`, which is empty. -/
def smallEntries : List (Bytes × Bytes) := [([47, 97], [120]), ([47, 98], [])]

def smallImageMem : Mem := storeBytes (fun _ => 0) 4096 (buildImage smallEntries)

theorem loaded_smallEntries : Loaded smallImageMem 4096 (buildImage smallEntries) :=
  ⟨loadBytes_storeBytes _ _ _, by decide, by decide, by decide +kernel⟩

theorem init_vfs_round_trip_small : ∃ v heap' files,
    initVfs smallImageMem 4096 (buildImage smallEntries).length ⟨16, 2 ^ 20, fun _ => 0⟩ =
      .ok (v, heap') ∧
    v.nodes = files ++ [⟨tmpName, 0, 0, .directory, nodeFlagWritable, 0⟩] ∧
    List.Forall₂ (NodeHolds v.mem) smallEntries files :=
  init_vfs_round_trip smallEntries (by decide) loaded_smallEntries
    ⟨by decide, by decide, by decide, by decide⟩ (by decide)

end PcoOs.Vfs
