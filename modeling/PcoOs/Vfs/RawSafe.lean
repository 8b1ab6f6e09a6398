/-
  When `init_vfs` stays inside the image. `Tables` says that the function's own tables are intact
  and that memory outside the early heap is as it was; `Clean` adds that the record is clean so
  far. A row that fits keeps `Clean`, and a row that does not fit spoils the record for good
  (`Spoiled`).
-/
import PcoOs.Vfs.RawInit

namespace PcoOs.Vfs

open PcoOs.Lib PcoOs.Lib.Prog PcoOs.Support PcoOs.Pmm

/-! ## A spoiled record -/

/-- A byte outside the image was read or a negative length recorded. -/
def Spoiled (ptr size : Int) (s : RawState) : Prop :=
  (∃ a ∈ s.reads, ¬ (ptr ≤ a ∧ (a : Int) < ptr + size)) ∨ ∃ n ∈ s.lengths, n < 0

section Spoiled

variable {ptr size : Int}

theorem SafeInit.not_spoiled {state : Int} {s : RawState} (h : SafeInit ptr size state s) :
    ¬ Spoiled ptr size s := by
  rintro (⟨a, ha, hn⟩ | ⟨n, hn, hneg⟩)
  · exact hn (h.reads a ha)
  · have := h.lengths n hn
    omega

/-- More reads and lengths leave it spoiled. -/
theorem Spoiled.mono {s t : RawState} (h : Spoiled ptr size s) (hr : ∀ a ∈ s.reads, a ∈ t.reads)
    (hl : ∀ n ∈ s.lengths, n ∈ t.lengths) : Spoiled ptr size t := by
  rcases h with ⟨a, ha, hn⟩ | ⟨n, hn, hneg⟩
  · exact Or.inl ⟨a, hr a ha, hn⟩
  · exact Or.inr ⟨n, hl n hn, hneg⟩

/-- A program that only adds to the record. -/
theorem maintains_spoiled {α : Type} {x : Raw α}
    (h : ∀ s a t, x s = .ok (a, t) → s.reads ⊆ t.reads ∧ s.lengths ⊆ t.lengths) :
    Maintains (Spoiled ptr size) x := by
  intro s hs a t heq
  obtain ⟨hr, hl⟩ := h s a t heq
  exact hs.mono (fun _ ha => hr ha) fun _ hn => hl hn

@[simp] theorem allocRaw_spoiled (n : Int) : Maintains (Spoiled ptr size) (allocRaw n) := by
  refine maintains_spoiled fun s a t heq => ?_
  unfold allocRaw at heq
  obtain ⟨⟨p, heap⟩, -, heq⟩ := bind_eq_ok.mp heq
  obtain ⟨-, rfl⟩ := Prod.mk.inj (Except.ok.inj heq)
  exact ⟨List.Subset.refl _, List.Subset.refl _⟩

@[simp] theorem loadQwordRaw_spoiled (base count slot : Int) :
    Maintains (Spoiled ptr size) (loadQwordRaw base count slot) := by
  refine maintains_spoiled fun s a t heq => ?_
  unfold loadQwordRaw at heq
  obtain ⟨r, -, heq⟩ := bind_eq_ok.mp heq
  obtain ⟨-, rfl⟩ := Prod.mk.inj (Except.ok.inj heq)
  exact ⟨List.Subset.refl _, List.Subset.refl _⟩

@[simp] theorem storeQwordRaw_spoiled (base count slot value : Int) :
    Maintains (Spoiled ptr size) (storeQwordRaw base count slot value) := by
  refine maintains_spoiled fun s a t heq => ?_
  unfold storeQwordRaw at heq
  obtain ⟨r, -, heq⟩ := bind_eq_ok.mp heq
  obtain ⟨-, rfl⟩ := Prod.mk.inj (Except.ok.inj heq)
  exact ⟨List.Subset.refl _, List.Subset.refl _⟩

@[simp] theorem loadByteRaw_spoiled (a : Int) : Maintains (Spoiled ptr size) (loadByteRaw a) := by
  refine maintains_spoiled fun s b t heq => ?_
  cases heq
  exact ⟨List.subset_cons_self _ _, List.Subset.refl _⟩

@[simp] theorem storeByteRaw_spoiled (a : Int) (b : UInt8) :
    Maintains (Spoiled ptr size) (storeByteRaw a b) := maintains_update fun _ h => h

@[simp] theorem vfsRawQwordRaw_spoiled (a : Int) :
    Maintains (Spoiled ptr size) (vfsRawQwordRaw a) := by
  refine maintains_bind (by simp) fun w => maintains_bind (maintains_update fun s h => ?_) fun _ => by simp
  exact h.mono (fun _ hm => List.mem_append_right _ hm) fun _ hm => hm

@[simp] theorem setVfsStateQword_spoiled (state slot value : Int) :
    Maintains (Spoiled ptr size) (setVfsStateQword state slot value) := storeQwordRaw_spoiled _ _ _ _

@[simp] theorem setVfsNodeQword_spoiled (state nodeId slot value : Int) :
    Maintains (Spoiled ptr size) (setVfsNodeQword state nodeId slot value) := by
  simp [setVfsNodeQword, vfsNodeEntryPtr, vfsStateQword, maintains_bind]

@[simp] theorem vfsSetNodeNameData_spoiled (state nodeId namePtr nameLen dataPtr dataLen : Int) :
    Maintains (Spoiled ptr size)
      (vfsSetNodeNameData state nodeId namePtr nameLen dataPtr dataLen) := by
  have hset : ∀ slot value, Maintains (Spoiled ptr size) (setVfsNodeQword state nodeId slot value) :=
    setVfsNodeQword_spoiled _ _
  unfold vfsSetNodeNameData
  refine maintains_bind (hset _ _) fun _ => maintains_bind (hset _ _) fun _ => maintains_bind (hset _ _) fun _ =>
    maintains_bind (hset _ _) fun _ => maintains_update fun s h => ?_
  exact h.mono (fun _ hm => hm) fun _ hm => List.mem_cons_of_mem _ (List.mem_cons_of_mem _ hm)

@[simp] theorem vfsSetNodeMeta_spoiled (state nodeId kind flags dataCapacity : Int) :
    Maintains (Spoiled ptr size) (vfsSetNodeMeta state nodeId kind flags dataCapacity) := by
  simp [vfsSetNodeMeta, maintains_bind]

@[simp] theorem vfsCopyInitramfsSlice_spoiled (base offset length : Int) (nul : Bool) :
    Maintains (Spoiled ptr size) (vfsCopyInitramfsSlice base offset length nul) := by
  unfold vfsCopyInitramfsSlice
  refine maintains_bind (by simp) fun dst => maintains_bind (maintains_times (fun i => ?_) _ _) fun _ => ?_
  · exact maintains_bind (by simp) fun b => by simp
  · exact maintains_ite (maintains_bind (by simp) fun _ => by simp) (by simp)

theorem initEntryRaw_spoiled (state : Int) (index : Nat) :
    Maintains (Spoiled ptr size) (initEntryRaw state ptr size index) := by
  unfold initEntryRaw
  repeat refine maintains_bind (by simp) fun _ => ?_
  simp

theorem vfsTmpNode_spoiled (state : Int) : Maintains (Spoiled ptr size) (vfsTmpNode state) := by
  have hreserve : Maintains (Spoiled ptr size) (vfsReserveNode state) := by
    refine maintains_bind (loadQwordRaw_spoiled _ _ _) fun _ => ?_
    refine maintains_bind (by simp) fun _ => maintains_bind (by simp) fun _ => by simp
  unfold vfsTmpNode
  repeat refine maintains_bind (by first | exact hreserve | simp) fun _ => ?_
  simp

end Spoiled

/-! ## The tables -/

/-- The tables start at the heap pointer of `h₀`, the slots of the state's block hold what `F` says
    of them, and memory outside the heap is that of `h₀`. -/
structure Tables (h₀ : Heap) (F : Nat → Option Nat) (s : RawState) : Prop where
  heap : HeapOk s.heap
  stop : s.heap.stop = h₀.stop
  above : h₀.ptr + 3376 ≤ s.heap.ptr
  frame : ∀ a, a < h₀.ptr ∨ h₀.stop ≤ a → s.heap.mem a = h₀.mem a
  slots : ∀ k < 6, ∀ w, F k = some w → loadQword s.heap.mem (h₀.ptr + 8 * k) = w

/-- Nothing outside the image was read and no negative length recorded. -/
structure Clean (h₀ : Heap) (ptr size : Int) (F : Nat → Option Nat) (s : RawState) : Prop where
  tables : Tables h₀ F s
  reads : ∀ a ∈ s.reads, ptr ≤ a ∧ (a : Int) < ptr + size
  lengths : ∀ n ∈ s.lengths, 0 ≤ n

/-- Memory changed in the heap behind the state's block only. -/
theorem Tables.withMem {h₀ : Heap} {F : Nat → Option Nat} {s : RawState} (h : Tables h₀ F s)
    {m : Mem} {reads : List Nat} {lengths : List Int}
    (hm : ∀ a, a < h₀.ptr + 48 ∨ h₀.stop ≤ a → m a = s.heap.mem a) :
    Tables h₀ F ⟨{ s.heap with mem := m }, reads, lengths⟩ := by
  refine ⟨h.heap.withMem _, h.stop, h.above, fun a ha => ?_, fun k hk w hw => ?_⟩
  · exact (hm a (by omega)).trans (h.frame a ha)
  · rw [← h.slots k hk w hw]
    exact loadQword_congr fun a _ _ => hm a (Or.inl (by omega))

/-- The word at an offset of the image is still the one of `h₀`. -/
theorem Tables.imageWord {h₀ : Heap} {F : Nat → Option Nat} {ptr size : Int} {s : RawState}
    (h : Tables h₀ F s) (hp : ImagePlaced h₀ ptr size) {k : Nat} (hk : (k : Int) + 8 ≤ size) :
    imageWord s.heap.mem ptr k = imageWord h₀.mem ptr k := by
  have hlow := hp.low
  have hapart := hp.apart
  unfold Vfs.imageWord
  rw [loadQword_congr fun a ha ha8 => h.frame a (by omega)]

/-! ## Steps of a clean run -/

section Clean

variable {h₀ : Heap} {ptr size : Int} {F : Nat → Option Nat}

theorem allocRaw_clean {n : Int} (h0 : 0 ≤ n) :
    Hoare (Clean h₀ ptr size F) (allocRaw n) fun p s => Clean h₀ ptr size F s ∧
      ((h₀.ptr : Int) + 48 ≤ p ∧ p + n ≤ h₀.stop) := by
  intro s hs p t heq
  unfold allocRaw at heq
  obtain ⟨⟨q, heap⟩, halloc, heq⟩ := bind_eq_ok.mp heq
  obtain ⟨rfl, rfl⟩ := Prod.mk.inj (Except.ok.inj heq)
  obtain ⟨rfl, hok, hgrow, hle, -⟩ := (allocBytes_spec hs.tables.heap h0).of_ok halloc
  have habove := hs.tables.above
  have hptr := hgrow.ptr_le
  have hend := hok.le
  have hstop := hgrow.stop.trans hs.tables.stop
  dsimp only at hok hgrow hle hptr hend hstop ⊢
  refine ⟨⟨⟨hok, hstop, by dsimp only; omega, ?_, ?_⟩, hs.reads,
    hs.lengths⟩, by omega, by omega⟩
  all_goals (dsimp only; rw [hgrow.mem])
  · exact hs.tables.frame
  · exact hs.tables.slots

/-- A byte stored behind the state's block. -/
theorem storeByteRaw_clean {a : Int} {b : UInt8} (hlo : (h₀.ptr : Int) + 48 ≤ a)
    (hhi : a < h₀.stop) (hstop : h₀.stop < 2 ^ 63) :
    Maintains (Clean h₀ ptr size F) (storeByteRaw a b) := by
  refine maintains_update fun s hs => ⟨hs.tables.withMem fun x hx => ?_, hs.reads, hs.lengths⟩
  rw [addr_of_nonneg (by omega) (by omega)]
  exact storeByte_ne (by omega)

/-- A word stored behind the state's block. -/
theorem storeQwordRaw_clean {base count slot value : Int} (hlo : (h₀.ptr : Int) + 48 ≤ base)
    (hhi : base + 8 * count ≤ h₀.stop) (hstop : h₀.stop < 2 ^ 63) :
    Maintains (Clean h₀ ptr size F) (storeQwordRaw base count slot value) := by
  intro s hs u t heq
  unfold storeQwordRaw at heq
  obtain ⟨m, hm, heq⟩ := bind_eq_ok.mp heq
  obtain ⟨-, rfl⟩ := Prod.mk.inj (Except.ok.inj heq)
  obtain ⟨h0, hcount, rfl⟩ := storeQwordRegion_eq hm
  refine ⟨hs.tables.withMem fun x hx => ?_, hs.reads, hs.lengths⟩
  rw [addr_of_nonneg (by omega) (by omega)]
  exact storeQword_of_outside (by omega)

/-- A slot of the state's block. -/
theorem vfsStateQword_clean (hstop : h₀.stop < 2 ^ 63) (hle : h₀.ptr ≤ h₀.stop) {slot : Int}
    {w : Nat} (hF : F slot.toNat = some w) : Hoare (Clean h₀ ptr size F)
      (vfsStateQword h₀.ptr slot) fun v s => Clean h₀ ptr size F s ∧ v = wrap w := by
  intro s hs v t heq
  unfold vfsStateQword loadQwordRaw at heq
  obtain ⟨v', hv, heq⟩ := bind_eq_ok.mp heq
  obtain ⟨rfl, rfl⟩ := Prod.mk.inj (Except.ok.inj heq)
  obtain ⟨h0, hcount, rfl⟩ := loadQwordRegion_eq hv
  rw [addr_of_nonneg (by omega) (by omega), Int.toNat_natCast,
    hs.tables.slots _ (by omega) _ hF]
  exact ⟨hs, rfl⟩

/-- Filling one. -/
theorem setVfsStateQword_clean (hstop : h₀.stop < 2 ^ 63) (hle : h₀.ptr + 3376 ≤ h₀.stop)
    (slot value : Int) : Hoare (Clean h₀ ptr size F) (setVfsStateQword h₀.ptr slot value)
      fun _ => Clean h₀ ptr size (Function.update F slot.toNat (some (addr value))) := by
  intro s hs u t heq
  unfold setVfsStateQword storeQwordRaw at heq
  obtain ⟨m, hm, heq⟩ := bind_eq_ok.mp heq
  obtain ⟨-, rfl⟩ := Prod.mk.inj (Except.ok.inj heq)
  obtain ⟨h0, hcount, rfl⟩ := storeQwordRegion_eq hm
  have hbase : addr h₀.ptr = h₀.ptr := addr_of_nonneg (by omega) (by omega)
  rw [hbase]
  refine ⟨⟨hs.tables.heap.withMem _, hs.tables.stop, hs.tables.above, fun a ha => ?_,
    fun k hk w hw => ?_⟩, hs.reads, hs.lengths⟩
  · exact (storeQword_of_outside (by omega)).trans (hs.tables.frame a ha)
  · dsimp only
    by_cases hslot : k = slot.toNat
    · subst hslot
      rw [Function.update_self] at hw
      rw [loadQword_storeQword, Nat.mod_eq_of_lt (addr_lt value)]
      exact Option.some.inj hw
    · rw [Function.update_of_ne hslot] at hw
      rw [loadQword_storeQword_ne (by omega)]
      exact hs.tables.slots k hk w hw

theorem vfsNodeEntryPtr_clean (hstop : h₀.stop < 2 ^ 63) (hle : h₀.ptr + 3376 ≤ h₀.stop)
    (hF : F 2 = some (h₀.ptr + 48)) (nodeId : Int) :
    Hoare (Clean h₀ ptr size F) (vfsNodeEntryPtr h₀.ptr nodeId) fun p s =>
      Clean h₀ ptr size F s ∧ 0 ≤ nodeId ∧ nodeId < 32 ∧ p = h₀.ptr + 48 + nodeId * 56 := by
  unfold vfsNodeEntryPtr
  refine hoare_bind hoare_refuse fun _ => hoare_fact fun hid => ?_
  refine hoare_bind (vfsStateQword_clean hstop (by omega) hF) fun table => hoare_fact ?_
  intro htable
  rw [wrap_of_range (by omega) (by omega)] at htable
  refine hoare_pure fun s hs => ⟨hs, by omega, by omega, ?_⟩
  rw [htable, wrap_of_range (by omega) (by omega)]
  omega

theorem setVfsNodeQword_clean (hstop : h₀.stop < 2 ^ 63) (hle : h₀.ptr + 3376 ≤ h₀.stop)
    (hF : F 2 = some (h₀.ptr + 48)) (nodeId slot value : Int) :
    Maintains (Clean h₀ ptr size F) (setVfsNodeQword h₀.ptr nodeId slot value) := by
  refine hoare_bind (vfsNodeEntryPtr_clean hstop hle hF nodeId) fun p => hoare_fact ?_
  rintro ⟨h0, h32, rfl⟩
  exact storeQwordRaw_clean (by omega) (by omega) hstop

theorem vfsSetNodeNameData_clean (hstop : h₀.stop < 2 ^ 63) (hle : h₀.ptr + 3376 ≤ h₀.stop)
    (hF : F 2 = some (h₀.ptr + 48))
    {nodeId namePtr nameLen dataPtr dataLen : Int} (hname : 0 ≤ nameLen) (hdata : 0 ≤ dataLen) :
    Maintains (Clean h₀ ptr size F)
      (vfsSetNodeNameData h₀.ptr nodeId namePtr nameLen dataPtr dataLen) := by
  have hset : ∀ slot value, Maintains (Clean h₀ ptr size F) (setVfsNodeQword h₀.ptr nodeId slot value) :=
    setVfsNodeQword_clean hstop hle hF _
  unfold vfsSetNodeNameData
  refine maintains_bind (hset _ _) fun _ => maintains_bind (hset _ _) fun _ => maintains_bind (hset _ _) fun _ =>
    maintains_bind (hset _ _) fun _ => maintains_update fun s hs => ⟨?_, hs.reads, ?_⟩
  · exact hs.tables.withMem fun _ _ => rfl
  · simpa [hname, hdata] using hs.lengths

/-- A negative node id is refused. -/
theorem vfsSetNodeNameData_id {state nodeId namePtr nameLen dataPtr dataLen : Int} {u : Unit}
    {s t : RawState}
    (h : vfsSetNodeNameData state nodeId namePtr nameLen dataPtr dataLen s = .ok (u, t)) :
    0 ≤ nodeId := by
  obtain ⟨_, _, hset, -⟩ := run_bind_ok.mp h
  obtain ⟨_, _, hentry, -⟩ := run_bind_ok.mp hset
  obtain ⟨_, _, hrefuse, -⟩ := run_bind_ok.mp hentry
  have hid := (hoare_refuse (P := fun _ => True) s trivial _ _ hrefuse).2
  omega

theorem vfsSetNodeMeta_clean (hstop : h₀.stop < 2 ^ 63) (hle : h₀.ptr + 3376 ≤ h₀.stop)
    (hF : F 2 = some (h₀.ptr + 48))
    (nodeId kind flags cap : Int) :
    Maintains (Clean h₀ ptr size F) (vfsSetNodeMeta h₀.ptr nodeId kind flags cap) := by
  have hset : ∀ slot value, Maintains (Clean h₀ ptr size F) (setVfsNodeQword h₀.ptr nodeId slot value) :=
    setVfsNodeQword_clean hstop hle hF _
  exact maintains_bind (hset _ _) fun _ => maintains_bind (hset _ _) fun _ => hset _ _

/-- A word of the image. -/
theorem vfsRawQwordRaw_clean (hp : ImagePlaced h₀ ptr size) {k : Nat}
    (hk : (k : Int) + 8 ≤ size) : Hoare (Clean h₀ ptr size F) (vfsRawQwordRaw (ptr + k))
      fun w s => Clean h₀ ptr size F s ∧ w = imageWord h₀.mem ptr k := by
  have hlow := hp.low
  have hhigh := hp.high
  intro s hs w t heq
  obtain ⟨v, u, hload, heq⟩ := run_bind_ok.mp heq
  unfold loadQwordRaw at hload
  obtain ⟨v', hv, hload⟩ := bind_eq_ok.mp hload
  obtain ⟨rfl, rfl⟩ := Prod.mk.inj (Except.ok.inj hload)
  obtain ⟨-, -, rfl⟩ := loadQwordRegion_eq hv
  obtain ⟨rfl, rfl⟩ := Prod.mk.inj (Except.ok.inj heq)
  rw [addr_of_nonneg (by omega) (by omega), show (ptr + k).toNat = ptr.toNat + k by omega]
  refine ⟨⟨hs.tables.withMem fun _ _ => rfl, fun a ha => ?_, hs.lengths⟩,
    hs.tables.imageWord hp hk⟩
  rcases List.mem_append.mp ha with ha | ha
  · obtain ⟨i, hi, rfl⟩ := List.mem_map.mp ha
    have := List.mem_range.mp hi
    omega
  · exact hs.reads a ha

/-- A byte of the image. -/
theorem loadByteRaw_clean (hp : ImagePlaced h₀ ptr size) {off : Int} (h0 : 0 ≤ off)
    (hoff : off < size) : Maintains (Clean h₀ ptr size F) (loadByteRaw (ptr + off)) := by
  have hlow := hp.low
  have hhigh := hp.high
  intro s hs b t heq
  obtain ⟨-, rfl⟩ := Prod.mk.inj (Except.ok.inj heq)
  refine ⟨hs.tables.withMem fun _ _ => rfl, ?_, hs.lengths⟩
  rw [List.forall_mem_cons, addr_of_nonneg (by omega) (by omega)]
  exact ⟨by omega, hs.reads⟩

/-- A byte elsewhere. -/
theorem loadByteRaw_spoils {P : RawState → Prop} (hp : ImagePlaced h₀ ptr size) {off : Int}
    (h0 : -2 ^ 63 ≤ off) (hoff : off < 2 ^ 63) (hout : off < 0 ∨ size ≤ off) :
    Hoare P (loadByteRaw (ptr + off)) fun _ => Spoiled ptr size := by
  have hlow := hp.low
  have hhigh := hp.high
  intro s _ b t heq
  obtain ⟨-, rfl⟩ := Prod.mk.inj (Except.ok.inj heq)
  refine Or.inl ⟨_, List.mem_cons_self, ?_⟩
  unfold addr
  omega

/-- A word that ends behind the image. -/
theorem vfsRawQwordRaw_spoils {P : RawState → Prop} (hp : ImagePlaced h₀ ptr size) {k : Nat}
    (hk : size < (k : Int) + 8) (hk' : k < 2 ^ 63) :
    Hoare P (vfsRawQwordRaw (ptr + k)) fun _ => Spoiled ptr size := by
  have hlow := hp.low
  have hhigh := hp.high
  intro s _ w t heq
  obtain ⟨v, u, -, heq⟩ := run_bind_ok.mp heq
  obtain ⟨-, rfl⟩ := Prod.mk.inj (Except.ok.inj heq)
  refine Or.inl ⟨addr (ptr + k) + 7, List.mem_append_left _ ?_, ?_⟩
  · exact List.mem_map_of_mem (List.mem_range.mpr (by omega))
  · unfold addr
    omega

/-- A slice inside the image is copied to a fresh block. -/
theorem vfsCopyInitramfsSlice_clean (hp : ImagePlaced h₀ ptr size) {off len : Int} (nul : Bool)
    (hlen : len < 2 ^ 63 - 1) (hfits : SliceFits size off len) :
    Hoare (Clean h₀ ptr size F) (vfsCopyInitramfsSlice ptr off len nul) fun _ s =>
      Clean h₀ ptr size F s := by
  have hlow := hp.low
  have hhigh := hp.high
  have hstop := hp.heap.stop_lt
  have h0 : 0 ≤ len := by
    rcases hfits with rfl | ⟨h, -⟩ <;> omega
  have hsize : (if nul then wrap (len + 1) else len) = if nul then len + 1 else len := by
    rw [wrap_of_range (by omega) (by omega)]
  unfold vfsCopyInitramfsSlice
  rw [hsize]
  refine hoare_bind (allocRaw_clean (by split_ifs <;> omega)) fun dst => hoare_fact fun hdst => ?_
  have hend : dst + len ≤ h₀.stop := by
    have := hdst.2
    split_ifs at this <;> omega
  refine hoare_bind (hoare_times _ (fun _ => Clean h₀ ptr size F) fun i _ hi => ?_) fun _ => ?_
  · rw [Int.add_assoc]
    refine maintains_bind (loadByteRaw_clean hp ?_ ?_) fun b =>
      storeByteRaw_clean (by omega) (by omega) hstop
    all_goals
      rcases hfits with rfl | ⟨_, _, _⟩ <;> omega
  · refine hoare_ite (fun hnul => ?_) fun _ => hoare_pure fun _ hs => hs
    rw [if_pos hnul] at hdst
    exact maintains_bind (storeByteRaw_clean (by omega) (by omega) hstop) fun _ => by simp

/-- A slice that does not fit is read beyond the image. -/
theorem vfsCopyInitramfsSlice_spoils {P : RawState → Prop} (hp : ImagePlaced h₀ ptr size)
    {off len : Int} (nul : Bool) (hoff : -2 ^ 63 ≤ off) (hoff' : off < 2 ^ 63) (h0 : 0 < len)
    (hfits : ¬ SliceFits size off len) :
    Hoare P (vfsCopyInitramfsSlice ptr off len nul) fun _ => Spoiled ptr size := by
  have hlow := hp.low
  have hhigh := hp.high
  -- the first byte behind the image, or the very first one
  obtain ⟨k, hk, hk', hout⟩ : ∃ k : Nat, (k : Int) < len ∧ off + k < 2 ^ 63 ∧
      (off + k < 0 ∨ size ≤ off + k) := by
    have hnot : off < 0 ∨ size < off + len := by
      unfold SliceFits at hfits
      omega
    by_cases hneg : off < 0 ∨ size ≤ off
    · exact ⟨0, h0, by simpa using hoff', by simpa using hneg⟩
    · refine ⟨(size - off).toNat, ?_, ?_, ?_⟩ <;> omega
  unfold vfsCopyInitramfsSlice
  refine hoare_bind (Q := fun _ _ => True) (fun _ _ _ _ _ => trivial) fun dst => ?_
  refine hoare_bind (Q := fun _ => Spoiled ptr size) ?_ fun _ => ?_
  · have hloop := hoare_times (fun i : Nat => do
        let b ← loadByteRaw (ptr + off + i)
        storeByteRaw (dst + i) b)
      (fun j s => k < j → Spoiled ptr size s) (i := 0) (n := len.toNat) fun j _ _ => ?_
    · exact hloop.mono (fun _ _ h => absurd h (by omega)) fun _ s hs => hs (by omega)
    · by_cases hj : j = k
      · subst hj
        refine hoare_bind (Q := fun _ => Spoiled ptr size) ?_ fun b => ?_
        · rw [Int.add_assoc]
          exact loadByteRaw_spoils hp (by omega) hk' hout
        · exact (storeByteRaw_spoiled _ _).mono (fun _ hs => hs) fun _ _ hs _ => hs
      · have hbody : Maintains (Spoiled ptr size) (do
            let b ← loadByteRaw (ptr + off + j)
            storeByteRaw (dst + j) b) := maintains_bind (by simp) fun b => by simp
        intro s hs u t heq hlt
        exact hbody s (hs (by omega)) u t heq
  · exact maintains_ite (maintains_bind (by simp) fun _ => by simp) (by simp)

/-- A negative length is recorded. -/
theorem vfsSetNodeNameData_spoils {P : RawState → Prop} {state nodeId namePtr nameLen dataPtr dataLen : Int}
    (h : nameLen < 0 ∨ dataLen < 0) :
    Hoare P (vfsSetNodeNameData state nodeId namePtr nameLen dataPtr dataLen) fun _ =>
      Spoiled ptr size := by
  have htop : ∀ slot value, Hoare (fun _ => True) (setVfsNodeQword state nodeId slot value)
      fun _ _ => True := fun _ _ _ _ _ _ _ => trivial
  unfold vfsSetNodeNameData
  refine Hoare.mono (P := fun _ => True) ?_ (fun _ _ => trivial) fun _ _ hs => hs
  refine hoare_bind (htop _ _) fun _ => hoare_bind (htop _ _) fun _ => hoare_bind (htop _ _) fun _ =>
    hoare_bind (htop _ _) fun _ => hoare_update fun s _ => Or.inr ?_
  rcases h with h | h
  · exact ⟨nameLen, List.mem_cons_self, h⟩
  · exact ⟨dataLen, List.mem_cons_of_mem _ List.mem_cons_self, h⟩

/-! ## Rows -/

/-- What is known after row `i`. -/
def Verdict (h₀ : Heap) (ptr size : Int) (F : Nat → Option Nat) (φ : Prop) (s : RawState) :
    Prop :=
  (φ → Clean h₀ ptr size F s) ∧ (¬ φ → Spoiled ptr size s)

/-- The copies and the node of a row. -/
theorem initEntryRaw_tail (hp : ImagePlaced h₀ ptr size) (hle : h₀.ptr + 3376 ≤ h₀.stop)
    (hF : F 2 = some (h₀.ptr + 48))
    (hptr : 0 < ptr) (i : Int) {nameOff nameLen dataOff dataLen : Int}
    (hnameOff : -2 ^ 63 ≤ nameOff ∧ nameOff < 2 ^ 63)
    (hnameLen : -2 ^ 63 ≤ nameLen ∧ nameLen < 2 ^ 63)
    (hdataOff : -2 ^ 63 ≤ dataOff ∧ dataOff < 2 ^ 63)
    (hdataLen : -2 ^ 63 ≤ dataLen ∧ dataLen < 2 ^ 63) :
    Hoare (Clean h₀ ptr size F) (do
        let namePtr ← vfsCopyInitramfsSlice ptr nameOff nameLen true
        let dataPtr ← vfsCopyInitramfsSlice ptr dataOff dataLen false
        vfsSetNodeNameData h₀.ptr i namePtr nameLen dataPtr dataLen
        vfsSetNodeMeta h₀.ptr i 1 0 dataLen) fun _ =>
      Verdict h₀ ptr size F (SliceFits size nameOff nameLen ∧ SliceFits size dataOff dataLen) := by
  have hhigh := hp.high
  have hstop := hp.heap.stop_lt
  have hlt : ∀ {off len : Int}, SliceFits size off len → 0 ≤ len ∧ len < 2 ^ 63 - 1 := by
    rintro off len (rfl | ⟨_, _, _⟩) <;> omega
  by_cases hfits : SliceFits size nameOff nameLen ∧ SliceFits size dataOff dataLen
  · obtain ⟨hname, hdata⟩ := hfits
    refine Hoare.mono (Q := fun _ => Clean h₀ ptr size F) ?_ (fun _ hs => hs)
      fun _ s hs => ⟨fun _ => hs, fun h => absurd ⟨hname, hdata⟩ h⟩
    refine hoare_bind (vfsCopyInitramfsSlice_clean hp true (hlt hname).2 hname) fun _ => ?_
    refine hoare_bind (vfsCopyInitramfsSlice_clean hp false (hlt hdata).2 hdata) fun _ => ?_
    refine hoare_bind (vfsSetNodeNameData_clean hstop hle hF (hlt hname).1 (hlt hdata).1) fun _ => ?_
    exact vfsSetNodeMeta_clean hstop hle hF _ _ _ _
  · refine Hoare.mono (P := fun _ => True) (Q := fun _ => Spoiled ptr size) ?_ (fun _ _ => trivial)
      fun _ s hs => ⟨fun h => absurd h hfits, fun _ => hs⟩
    have hcopy : ∀ off len nul, Hoare (fun _ => True) (vfsCopyInitramfsSlice ptr off len nul)
        fun _ _ => True := fun _ _ _ _ _ _ _ _ => trivial
    by_cases hneg : nameLen < 0 ∨ dataLen < 0
    · refine hoare_bind (hcopy _ _ _) fun _ => hoare_bind (hcopy _ _ _) fun _ => ?_
      exact hoare_bind (vfsSetNodeNameData_spoils hneg) fun _ => vfsSetNodeMeta_spoiled _ _ _ _ _
    · by_cases hname : SliceFits size nameOff nameLen
      · have hdata : ¬ SliceFits size dataOff dataLen := fun h => hfits ⟨hname, h⟩
        have h0 : dataLen ≠ 0 := fun h => hdata (Or.inl h)
        refine hoare_bind (hcopy _ _ _) fun _ => ?_
        refine hoare_bind (vfsCopyInitramfsSlice_spoils hp false hdataOff.1 hdataOff.2 (by omega)
          hdata) fun _ => ?_
        exact maintains_bind (by simp) fun _ => by simp
      · have h0 : nameLen ≠ 0 := fun h => hname (Or.inl h)
        refine hoare_bind (vfsCopyInitramfsSlice_spoils hp true hnameOff.1 hnameOff.2 (by omega)
          hname) fun _ => ?_
        exact maintains_bind (by simp) fun _ => maintains_bind (by simp) fun _ => by simp

/-- A row keeps a clean record clean or spoils it. -/
theorem initEntryRaw_verdict (hp : ImagePlaced h₀ ptr size) (hle : h₀.ptr + 3376 ≤ h₀.stop)
    (hF : F 2 = some (h₀.ptr + 48))
    (hptr : 0 < ptr) {i : Nat} (hi : i < 32) :
    Hoare (Clean h₀ ptr size F) (initEntryRaw h₀.ptr ptr size i) fun _ =>
      Verdict h₀ ptr size F (RowFits h₀.mem ptr size i) := by
  have hhigh := hp.high
  have hstop := hp.heap.stop_lt
  have hentry : ∀ k : Nat, ptr + 32 + (i : Int) * 32 + k = ptr + ((32 + i * 32 + k : Nat) : Int) := by
    intro k
    push_cast
    ring
  unfold initEntryRaw
  by_cases hinside : 32 + ((i : Int) + 1) * 32 ≤ size
  · have hword : ∀ k : Nat, k ≤ 24 → Hoare (Clean h₀ ptr size F)
        (vfsRawQwordRaw (ptr + 32 + (i : Int) * 32 + k)) fun w s =>
          Clean h₀ ptr size F s ∧ w = imageWord h₀.mem ptr (32 + i * 32 + k) := by
      intro k hk
      rw [hentry]
      exact vfsRawQwordRaw_clean hp (by push_cast; omega)
    refine hoare_bind (hword 0 (by omega)) fun nameOff => hoare_fact fun hnameOff => ?_
    refine hoare_bind (hword 8 (by omega)) fun nameLen => hoare_fact fun hnameLen => ?_
    refine hoare_bind (hword 16 (by omega)) fun dataOff => hoare_fact fun hdataOff => ?_
    refine hoare_bind (hword 24 (by omega)) fun dataLen => hoare_fact fun hdataLen => ?_
    refine hoare_bind (maintains_refuse _ _) fun _ => hoare_bind (maintains_refuse _ _) fun _ => ?_
    have hfits : RowFits h₀.mem ptr size i ↔
        SliceFits size nameOff nameLen ∧ SliceFits size dataOff dataLen := by
      rw [hnameOff, hnameLen, hdataOff, hdataLen]
      exact ⟨fun h => ⟨h.name, h.data⟩, fun h => ⟨hinside, h.1, h.2⟩⟩
    rw [hfits]
    exact initEntryRaw_tail hp hle hF hptr i (hnameOff ▸ wrap_range _) (hnameLen ▸ wrap_range _)
      (hdataOff ▸ wrap_range _) (hdataLen ▸ wrap_range _)
  · have hrow : ¬ RowFits h₀.mem ptr size i := fun h => hinside h.inside
    refine Hoare.mono (P := fun _ => True) (Q := fun _ => Spoiled ptr size) ?_ (fun _ _ => trivial)
      fun _ s hs => ⟨fun h => absurd h hrow, fun _ => hs⟩
    have htop : ∀ a, Hoare (fun _ => True) (vfsRawQwordRaw a) fun _ _ => True :=
      fun _ _ _ _ _ _ => trivial
    refine hoare_bind (htop _) fun _ => hoare_bind (htop _) fun _ => hoare_bind (htop _) fun _ =>
      hoare_bind (Q := fun _ => Spoiled ptr size) ?_ fun dataLen => ?_
    · rw [show ptr + 32 + (i : Int) * 32 + 24 = _ from hentry 24]
      exact vfsRawQwordRaw_spoils hp (by push_cast; omega) (by omega)
    · repeat refine maintains_bind (by simp) fun _ => ?_
      simp

/-- The loop over the rows. -/
theorem initEntries_verdict (hp : ImagePlaced h₀ ptr size) (hle : h₀.ptr + 3376 ≤ h₀.stop)
    (hF : F 2 = some (h₀.ptr + 48))
    (hptr : 0 < ptr) {n : Nat} (hn : n ≤ 32) :
    Hoare (Clean h₀ ptr size F) (times (initEntryRaw h₀.ptr ptr size) 0 n) fun _ =>
      Verdict h₀ ptr size F (∀ i < n, RowFits h₀.mem ptr size i) := by
  have hloop := hoare_times (initEntryRaw (h₀.ptr : Int) ptr size)
    (fun j => Verdict h₀ ptr size F (∀ i < j, RowFits h₀.mem ptr size i)) (i := 0) (n := n) ?_
  · rw [Nat.zero_add] at hloop
    refine hloop.mono (fun s hs => ⟨fun _ => hs, fun h => ?_⟩) fun _ _ hs => hs
    exact absurd (fun i hi => absurd hi (Nat.not_lt_zero i)) h
  · intro j _ hj s hs u t heq
    have hsucc : (∀ i < j + 1, RowFits h₀.mem ptr size i) ↔
        (∀ i < j, RowFits h₀.mem ptr size i) ∧ RowFits h₀.mem ptr size j := by
      rw [Nat.forall_lt_succ_right]
    by_cases hbefore : ∀ i < j, RowFits h₀.mem ptr size i
    · have := initEntryRaw_verdict hp hle hF hptr (by omega) s (hs.1 hbefore) u t heq
      rwa [hsucc, and_iff_right hbefore]
    · have := initEntryRaw_spoiled h₀.ptr j s (hs.2 hbefore) u t heq
      exact ⟨fun h => absurd (hsucc.mp h).1 hbefore, fun _ => this⟩

/-! ## The tables and the last node -/

/-- The slots `init_vfs` fills. -/
def stateSlots (h₀ : Heap) (ptr size : Int) : Nat → Option Nat :=
  Function.update (Function.update (Function.update (Function.update (Function.update
    (Function.update (fun _ => none) 0 (some (addr ptr))) 1 (some (addr size)))
    2 (some (h₀.ptr + 48))) 3 (some 0)) 4 (some (h₀.ptr + 1840))) 5 (some 32)

theorem vfsDescEntryPtr_clean (hstop : h₀.stop < 2 ^ 63) (hle : h₀.ptr + 3376 ≤ h₀.stop)
    (hdesc : F 4 = some (h₀.ptr + 1840)) (hcap : F 5 = some 32) (descId : Int) :
    Hoare (Clean h₀ ptr size F) (vfsDescEntryPtr h₀.ptr descId) fun p s =>
      Clean h₀ ptr size F s ∧ 0 < descId ∧ descId ≤ 32 ∧
        p = h₀.ptr + 1840 + (descId - 1) * 48 := by
  unfold vfsDescEntryPtr
  refine hoare_bind (vfsStateQword_clean hstop (by omega) hcap) fun capacity => hoare_fact ?_
  intro hcapacity
  rw [wrap_of_range (by omega) (by omega)] at hcapacity
  refine hoare_bind hoare_refuse fun _ => hoare_fact fun hid => ?_
  refine hoare_bind (vfsStateQword_clean hstop (by omega) hdesc) fun table => hoare_fact ?_
  intro htable
  rw [wrap_of_range (by omega) (by omega)] at htable
  refine hoare_pure fun s hs => ⟨hs, by omega, by omega, ?_⟩
  rw [htable, wrap_of_range (by omega) (by omega)]
  omega

theorem vfsClearDescriptors_clean (hstop : h₀.stop < 2 ^ 63) (hle : h₀.ptr + 3376 ≤ h₀.stop)
    (hdesc : F 4 = some (h₀.ptr + 1840)) (hcap : F 5 = some 32) :
    Maintains (Clean h₀ ptr size F) (vfsClearDescriptors h₀.ptr) := by
  have hset : ∀ descId slot value : Int,
      Maintains (Clean h₀ ptr size F) (setVfsDescQword h₀.ptr descId slot value) := by
    intro descId slot value
    unfold setVfsDescQword
    refine hoare_bind (vfsDescEntryPtr_clean hstop hle hdesc hcap descId) fun p => hoare_fact ?_
    rintro ⟨h0, h32, rfl⟩
    exact storeQwordRaw_clean (by omega) (by omega) hstop
  unfold vfsClearDescriptors
  refine maintains_bind ?_ fun capacity => maintains_times (fun descId => maintains_times (fun slot => ?_) _ _) _ _
  · exact (vfsStateQword_clean hstop (by omega) hcap).mono (fun _ hs => hs) fun _ _ hs => hs.1
  · exact hset _ _ _

/-- `n` bytes of the heap are taken, and nothing else happened. -/
structure Fresh (h₀ : Heap) (n : Nat) (s : RawState) : Prop where
  heap : HeapOk s.heap
  grows : HeapGrows h₀ s.heap
  taken : s.heap.ptr = h₀.ptr + n
  reads : s.reads = []
  lengths : s.lengths = []

theorem allocRaw_fresh {n k : Nat} (hk : k % 16 = 0) : Hoare (Fresh h₀ n) (allocRaw k)
    fun p s => Fresh h₀ (n + k) s ∧ p = h₀.ptr + n := by
  intro s hs p t heq
  unfold allocRaw at heq
  obtain ⟨⟨q, heap⟩, halloc, heq⟩ := bind_eq_ok.mp heq
  obtain ⟨rfl, rfl⟩ := Prod.mk.inj (Except.ok.inj heq)
  obtain ⟨rfl, hok, hgrow, hle, hlt⟩ :=
    (allocBytes_spec hs.heap (Int.natCast_nonneg k)).of_ok halloc
  have h16 := hs.heap.aligned
  have h16' := hok.aligned
  have htaken := hs.taken
  dsimp only at hok hgrow hle hlt h16' ⊢
  exact ⟨⟨hok, hs.grows.trans hgrow, by dsimp only; omega, hs.reads, hs.lengths⟩, by omega⟩

theorem Fresh.clean {s : RawState} (h : Fresh h₀ 3376 s) :
    Clean h₀ ptr size (fun _ => none) s := by
  refine ⟨⟨h.heap, h.grows.stop, h.taken.ge, fun a _ => by rw [h.grows.mem], ?_⟩, ?_, ?_⟩
  · rintro k _ w ⟨⟩
  · simp [h.reads]
  · simp [h.lengths]

theorem Clean.room {s : RawState} (h : Clean h₀ ptr size F s) : h₀.ptr + 3376 ≤ h₀.stop := by
  have := h.tables.above
  have := h.tables.heap.le
  have := h.tables.stop
  omega

theorem vfsTables_clean (hstop : h₀.stop < 2 ^ 63) :
    Hoare (Fresh h₀ 0) (vfsTables ptr size) fun state s =>
      Clean h₀ ptr size (stateSlots h₀ ptr size) s ∧ state = h₀.ptr := by
  unfold vfsTables
  refine hoare_bind (allocRaw_fresh (k := 48) (by omega)) fun state => hoare_fact ?_
  rintro rfl
  refine hoare_bind (allocRaw_fresh (k := 1792) (by omega)) fun nodeTable => hoare_fact ?_
  rintro rfl
  refine hoare_bind (allocRaw_fresh (k := 1536) (by omega)) fun descTable => hoare_fact ?_
  rintro rfl
  refine Hoare.mono (P := Clean h₀ ptr size fun _ => none) ?_ (fun s hs => hs.clean) fun _ _ hs => hs
  refine hoare_from (fun s hs => hs.room) fun hle => ?_
  simp only [Int.natCast_zero, Int.add_zero, Nat.zero_add, Nat.reduceAdd]
  refine hoare_bind (setVfsStateQword_clean hstop hle 0 _) fun _ => ?_
  refine hoare_bind (setVfsStateQword_clean hstop hle 1 _) fun _ => ?_
  refine hoare_bind (setVfsStateQword_clean hstop hle 2 _) fun _ => ?_
  refine hoare_bind (setVfsStateQword_clean hstop hle 3 _) fun _ => ?_
  refine hoare_bind (setVfsStateQword_clean hstop hle 4 _) fun _ => ?_
  refine hoare_bind (setVfsStateQword_clean hstop hle 5 _) fun _ => ?_
  have haddr : ∀ k : Nat, k ≤ 3376 → addr (h₀.ptr + k) = h₀.ptr + k := fun k hk => by
    rw [addr_of_nonneg (by omega) (by omega)]
    omega
  rw [haddr 48 (by omega), haddr 1840 (by omega), show addr 0 = 0 from rfl,
    show addr 32 = 32 from rfl]
  refine hoare_bind (vfsClearDescriptors_clean hstop hle rfl rfl) fun _ => hoare_pure fun s hs => ?_
  exact ⟨hs, rfl⟩

/-- `/tmp` is the node behind the last one. -/
theorem vfsTmpNode_clean (hstop : h₀.stop < 2 ^ 63) (hle : h₀.ptr + 3376 ≤ h₀.stop)
    (hF : F 2 = some (h₀.ptr + 48)) {c : Int} (hc : -2 ^ 63 ≤ c ∧ c < 2 ^ 63)
    (hcount : F 3 = some (addr c)) : Hoare (Clean h₀ ptr size F) (vfsTmpNode h₀.ptr)
      fun _ s => Clean h₀ ptr size (Function.update F 3 (some (addr (c + 1)))) s ∧
        0 ≤ c ∧ c < 32 := by
  unfold vfsTmpNode
  refine hoare_bind (allocRaw_clean (by omega)) fun name => hoare_fact fun hname => ?_
  have hstore : ∀ (k : Nat) b, k < 5 → Maintains (Clean h₀ ptr size F) (storeByteRaw (name + k) b) :=
    fun k b hk => storeByteRaw_clean (by omega) (by omega) hstop
  refine hoare_bind (hstore 0 _ (by omega)) fun _ => hoare_bind (hstore 1 _ (by omega)) fun _ =>
    hoare_bind (hstore 2 _ (by omega)) fun _ => hoare_bind (hstore 3 _ (by omega)) fun _ =>
    hoare_bind (hstore 4 _ (by omega)) fun _ => ?_
  have hreserve : Hoare (Clean h₀ ptr size F) (vfsReserveNode h₀.ptr) fun id s =>
      Clean h₀ ptr size (Function.update F 3 (some (addr (c + 1)))) s ∧ id = c ∧ c < 32 := by
    unfold vfsReserveNode
    refine hoare_bind (vfsStateQword_clean hstop (by omega) hcount) fun id => hoare_fact ?_
    rw [wrap_addr, wrap_of_range hc.1 hc.2]
    rintro rfl
    refine hoare_bind hoare_refuse fun _ => hoare_fact fun hid => ?_
    exact hoare_bind (setVfsStateQword_clean hstop hle 3 _) fun _ =>
      hoare_pure fun s hs => ⟨hs, rfl, by omega⟩
  refine hoare_bind hreserve fun id => hoare_fact ?_
  rintro ⟨rfl, h32⟩
  have hnodes : Function.update F 3 (some (addr (id + 1))) 2 = some (h₀.ptr + 48) := hF
  have hdata : Maintains (Clean h₀ ptr size _) (vfsSetNodeNameData h₀.ptr id name 4 0 0) :=
    vfsSetNodeNameData_clean hstop hle hnodes (by omega) (by omega)
  intro s hs u t heq
  obtain ⟨_, s₁, hname, hmeta⟩ := run_bind_ok.mp heq
  exact ⟨vfsSetNodeMeta_clean hstop hle hnodes _ _ _ _ s₁ (hdata s hs _ s₁ hname) u t hmeta,
    vfsSetNodeNameData_id hname, h32⟩

/-! ## The whole function -/

theorem Clean.safe {s : RawState} (h : Clean h₀ ptr size F s) {c : Int} (hF : F 3 = some (addr c))
    (h0 : 0 ≤ c) (h32 : c ≤ 32) : SafeInit ptr size h₀.ptr s := by
  have hstop := h.tables.stop
  have hle := h.room
  have hlt := h.tables.heap.stop_lt
  have hcount : wrap (loadQword s.heap.mem (addr h₀.ptr + 24)) = c := by
    rw [addr_of_nonneg (by omega) (by omega), Int.toNat_natCast,
      show h₀.ptr + 24 = h₀.ptr + 8 * 3 from rfl, h.tables.slots 3 (by omega) _ hF, wrap_addr]
    exact wrap_of_range (by omega) (by omega)
  exact ⟨h.reads, h.lengths, by rw [hcount]; exact ⟨h0, h32⟩⟩

/-- A returning run records what the image says it must. -/
theorem initVfsRaw_verdict (hp : ImagePlaced h₀ ptr size) :
    Hoare (Fresh h₀ 0) (initVfsRaw ptr size) fun state s =>
      (TableFits h₀.mem ptr size → SafeInit ptr size state s) ∧
      (¬ TableFits h₀.mem ptr size → Spoiled ptr size s) := by
  have hstop := hp.heap.stop_lt
  have hlow := hp.low
  unfold initVfsRaw
  refine hoare_bind (vfsTables_clean hstop) fun state => hoare_fact ?_
  rintro rfl
  refine hoare_from (fun s hs => hs.room) fun hle => ?_
  have hnodes : stateSlots h₀ ptr size 2 = some (h₀.ptr + 48) := rfl
  refine hoare_ite (fun hempty => hoare_pure fun s hs => ?_) fun hfull => ?_
  · have hfits : TableFits h₀.mem ptr size := by
      rcases hempty with h | h
      · exact Or.inl h
      · exact Or.inr (Or.inl h)
    exact ⟨fun _ => hs.safe (c := 0) rfl (by omega) (by omega), fun h => absurd hfits h⟩
  · have hptr : 0 < ptr := by omega
    refine hoare_bind hoare_refuse fun _ => hoare_fact fun h32 => ?_
    have hread := fun k : Nat => vfsRawQwordRaw_clean (F := stateSlots h₀ ptr size) hp (k := k)
    refine hoare_bind (hread 0 (by omega)) fun magic => hoare_fact fun _ => ?_
    refine hoare_bind (maintains_refuse _ _) fun _ => ?_
    refine hoare_bind (hread 8 (by omega)) fun version => hoare_fact fun _ => ?_
    refine hoare_bind (maintains_refuse _ _) fun _ => ?_
    refine hoare_bind (hread 16 (by omega)) fun nodeCount => hoare_fact fun hcount => ?_
    have hrange : -2 ^ 63 ≤ nodeCount ∧ nodeCount < 2 ^ 63 := hcount ▸ wrap_range _
    have hfits : TableFits h₀.mem ptr size ↔
        ∀ i < nodeCount.toNat, RowFits h₀.mem ptr size i := by
      unfold TableFits
      rw [or_iff_right (by omega), or_iff_right (by omega), hcount]
    rw [hfits]
    refine hoare_bind hoare_refuse fun _ => hoare_fact fun hmax => ?_
    refine hoare_bind (initEntries_verdict hp hle hnodes hptr (by omega)) fun _ => ?_
    have hsafe : Hoare (Clean h₀ ptr size (stateSlots h₀ ptr size)) (do
        setVfsStateQword h₀.ptr 3 nodeCount
        vfsTmpNode h₀.ptr
        pure (h₀.ptr : Int)) (SafeInit ptr size) := by
      refine hoare_bind (setVfsStateQword_clean hstop hle 3 _) fun _ => ?_
      refine hoare_bind (vfsTmpNode_clean (F := Function.update (stateSlots h₀ ptr size) 3
        (some (addr nodeCount))) hstop hle hnodes hrange rfl) fun _ => hoare_fact ?_
      rintro ⟨h0, hlt⟩
      exact hoare_pure fun s hs => hs.safe (c := nodeCount + 1) rfl (by omega) (by omega)
    have hspoiled : Maintains (Spoiled ptr size) (do
        setVfsStateQword h₀.ptr 3 nodeCount
        vfsTmpNode h₀.ptr
        pure (h₀.ptr : Int)) :=
      maintains_bind (by simp) fun _ => maintains_bind (vfsTmpNode_spoiled _) fun _ => by simp
    exact fun s hs u t heq => ⟨fun h => hsafe s (hs.1 h) u t heq, fun h => hspoiled s (hs.2 h) u t heq⟩

end Clean

/-- The function stays inside the image and records sane lengths exactly if the header and the
    entry table describe slices of the image. -/
theorem init_vfs_safe_iff {ptr size state : Int} {s t : RawState}
    (hp : ImagePlaced s.heap ptr size) (hreads : s.reads = []) (hlengths : s.lengths = [])
    (hr : initVfsRaw ptr size s = .ok (state, t)) :
    SafeInit ptr size state t ↔ TableFits s.heap.mem ptr size := by
  have hfresh : Fresh s.heap 0 s := ⟨hp.heap, HeapGrows.refl _, rfl, hreads, hlengths⟩
  obtain ⟨hsafe, hspoiled⟩ := initVfsRaw_verdict hp s hfresh state t hr
  exact ⟨fun h => not_not.mp fun hn => h.not_spoiled (hspoiled hn), hsafe⟩

/-- A header that announces one entry, at 8 MiB, and an early heap of 256 KiB at 1 MiB. -/
@[irreducible] def oneEntryHeader : RawState :=
  ⟨⟨1048576, 1310720,
    storeBytes (fun _ => 0) 8388608 (packWords [initramfsMagic, initramfsVersion, 1, 0])⟩, [], []⟩

theorem oneEntryHeader_placed (size : Int) (hsize : size < 2 ^ 62) :
    ImagePlaced oneEntryHeader.heap 8388608 size := by
  have hptr : oneEntryHeader.heap.ptr = 1048576 := by decide +kernel
  have hstop : oneEntryHeader.heap.stop = 1310720 := by decide +kernel
  refine ⟨⟨?_, ?_, ?_, ?_⟩, ?_, ?_, ?_⟩ <;> omega

/-- The image of a file `/a` that holds `hi!`. -/
def oneFile : Bytes :=
  packWords [initramfsMagic, initramfsVersion, 1, 0] ++ packWords [64, 2, 66, 3] ++
    [47, 97, 104, 105, 33]

/-- The image at 8 MiB, and the early heap as above. -/
@[irreducible] def oneEntryState : RawState :=
  ⟨⟨1048576, 1310720, storeBytes (fun _ => 0) 8388608 oneFile⟩, [], []⟩

/-- The name and the data of the file are in the image of 69 bytes, its last byte included. -/
theorem init_vfs_safe_iff_oneEntry : ∃ state t,
    initVfsRaw 8388608 69 oneEntryState = .ok (state, t) ∧ 8388676 ∈ t.reads ∧
      (SafeInit 8388608 69 state t ↔ TableFits oneEntryState.heap.mem 8388608 69) := by
  have hptr : oneEntryState.heap.ptr = 1048576 := by decide +kernel
  have hstop : oneEntryState.heap.stop = 1310720 := by decide +kernel
  have hplaced : ImagePlaced oneEntryState.heap 8388608 69 := by
    refine ⟨⟨?_, ?_, ?_, ?_⟩, ?_, ?_, ?_⟩ <;> omega
  obtain ⟨r, hr⟩ := exists_ok_of_isOk (x := do
    let r ← initVfsRaw 8388608 69 oneEntryState
    if 8388676 ∈ r.2.reads then Except.ok r else .error "not read") (by decide +kernel)
  obtain ⟨⟨state, t⟩, hr, hread⟩ := bind_eq_ok.mp hr
  replace hread : 8388676 ∈ t.reads := by
    by_contra hn
    cases (if_neg hn).symm.trans hread
  exact ⟨state, t, hr, hread, init_vfs_safe_iff hplaced (by decide +kernel) (by decide +kernel) hr⟩

/-- An image that is the header only: the entry is read behind it. -/
theorem init_vfs_reads_past_image : ¬ ∀ (ptr size state : Int) (s t : RawState),
    ImagePlaced s.heap ptr size → s.reads = [] → s.lengths = [] →
      initVfsRaw ptr size s = .ok (state, t) → SafeInit ptr size state t := by
  intro h
  obtain ⟨r, hr⟩ := exists_ok_of_isOk (x := do
    let r ← initVfsRaw 8388608 32 oneEntryHeader
    if 8388640 ∈ r.2.reads then Except.ok r else .error "not read") (by decide +kernel)
  obtain ⟨⟨state, t⟩, hr, hread⟩ := bind_eq_ok.mp hr
  replace hread : 8388640 ∈ t.reads := by
    by_contra hn
    rw [if_neg hn] at hread
    cases hread
  have hsafe := h _ _ state _ t (oneEntryHeader_placed 32 (by omega)) (by decide +kernel)
    (by decide +kernel) hr
  have := (hsafe.reads _ hread).2
  omega

end PcoOs.Vfs
