/-
  Which descriptors are open. Opening a path or a console adds one that was closed, closing takes
  one away, and nothing else changes the set. `vfs_self_test` forgets to close one of the seven it
  opens (`vfsSelfTest_spec`).
-/
import PcoOs.Vfs.Runs

namespace PcoOs.Vfs

open PcoOs.Lib PcoOs.Support

def openDescs (v : VfsState) : Finset Nat :=
  (Finset.Icc 1 maxVfsDescriptors).filter fun id => (v.desc id).kind ≠ .closed

theorem mem_openDescs {v : VfsState} {id : Nat} : id ∈ openDescs v ↔
    (1 ≤ id ∧ id ≤ maxVfsDescriptors) ∧ (v.desc id).kind ≠ .closed := by
  rw [openDescs, Finset.mem_filter, Finset.mem_Icc]

theorem zero_notMem_openDescs (v : VfsState) : 0 ∉ openDescs v := by
  intro h
  have := (mem_openDescs.mp h).1.1
  omega

/-! ## One descriptor -/

theorem openDescs_congr {v v' : VfsState} (h : ∀ id, (v'.desc id).kind = (v.desc id).kind) :
    openDescs v' = openDescs v := by
  unfold openDescs
  simp only [h]

theorem openDescs_set {v : VfsState} {id : Nat} {d : Desc} (h1 : 1 ≤ id)
    (h32 : id ≤ maxVfsDescriptors) (hd : d.kind ≠ .closed) :
    openDescs (setVfsDesc v id d) = insert id (openDescs v) := by
  ext j
  rw [Finset.mem_insert, mem_openDescs, mem_openDescs]
  unfold setVfsDesc
  by_cases hj : j = id
  · subst hj
    simp [h1, h32, hd]
  · simp [hj]

theorem openDescs_close (v : VfsState) (id : Nat) :
    openDescs (setVfsDesc v id closedDesc) = (openDescs v).erase id := by
  ext j
  rw [Finset.mem_erase, mem_openDescs, mem_openDescs]
  unfold setVfsDesc
  by_cases hj : j = id
  · subst hj
    simp [closedDesc]
  · simp [hj]

/-- A descriptor that stays as open as it was. -/
theorem openDescs_keep {v : VfsState} {id : Nat} {d : Desc} (hd : d.kind = (v.desc id).kind) :
    openDescs (setVfsDesc v id d) = openDescs v := by
  refine openDescs_congr fun j => ?_
  unfold setVfsDesc
  by_cases hj : j = id
  · subst hj
    simp [hd]
  · simp [hj]

theorem descsFull_card {v : VfsState} (h : DescsFull v) : (openDescs v).card = maxVfsDescriptors := by
  have : openDescs v = Finset.Icc 1 maxVfsDescriptors :=
    Finset.filter_true_of_mem fun id hid => h id (Finset.mem_Icc.mp hid).1 (Finset.mem_Icc.mp hid).2
  rw [this, Nat.card_Icc]
  rfl

/-! ## Calls -/

/-- Nothing was opened and `d` is 0, or `d` was opened. -/
def Opened (v v' : VfsState) (d : Nat) : Prop :=
  (d = 0 ∧ openDescs v' = openDescs v) ∨
    (d ≠ 0 ∧ d ∉ openDescs v ∧ openDescs v' = insert d (openDescs v))

theorem vfsAllocDescriptor_opened {v v₁ v' : VfsState} (hv : v₁.desc = v.desc) {desc : Desc}
    (hk : desc.kind ≠ .closed) {d : Nat} (he : vfsAllocDescriptor v₁ desc = (d, v')) :
    Opened v v' d := by
  have hsame : openDescs v₁ = openDescs v := openDescs_congr fun id => by rw [hv]
  rcases vfsAllocDescriptor_spec v₁ desc with ⟨-, h⟩ | ⟨id, h1, h32, hclosed, h⟩
  · cases he.symm.trans h
    exact Or.inl ⟨rfl, hsame⟩
  · cases he.symm.trans h
    refine Or.inr ⟨by omega, ?_, by rw [openDescs_set h1 h32 hk, hsame]⟩
    rw [← hsame, mem_openDescs]
    exact fun hm => hm.2 hclosed

theorem vfsOpenPath_opened {v v' : VfsState} {h h' : Heap} (hok : HeapOk h) {path : Bytes}
    {flags : Int} {d : Nat} (he : vfsOpenPath v h path flags = .ok (d, v', h')) :
    Opened v v' d := by
  have hr := ((vfsOpenPath_spec hok v path flags).of_ok he).2
  cases hp : openPlan v path flags with
  | refuse =>
    rw [hp] at hr
    cases hr
    exact Or.inl ⟨rfl, rfl⟩
  | directory p =>
    rw [hp] at hr
    exact vfsAllocDescriptor_opened rfl (fun h => by cases h) (Except.ok.inj hr)
  | file id =>
    rw [hp] at hr
    exact vfsAllocDescriptor_opened rfl (fun h => by cases h) (Except.ok.inj hr)
  | truncate id =>
    rw [hp] at hr
    refine vfsAllocDescriptor_opened ?_ (fun h => by cases h) (Except.ok.inj hr)
    unfold truncateNode
    split <;> rfl
  | create p =>
    rw [hp, runPlan] at hr
    split_ifs at hr
    have hdesc : (addNode v (newFile p)).desc = v.desc := rfl
    exact vfsAllocDescriptor_opened hdesc (fun h => by cases h) (Except.ok.inj hr)

/-- An open descriptor can be closed. -/
theorem vfsCloseDescriptor_open {v : VfsState} {d : Nat} (hd : d ∈ openDescs v) :
    vfsCloseDescriptor v d = .ok (0, setVfsDesc v d closedDesc) := by
  obtain ⟨⟨h1, h32⟩, hk⟩ := mem_openDescs.mp hd
  unfold vfsCloseDescriptor vfsDesc
  rw [if_neg (by omega), if_neg (by omega), ok_bind, if_neg hk]

theorem openDescs_write {v v' : VfsState} {h h' : Heap} (hok : HeapOk h) {id : Nat} {bytes : Bytes}
    {r : Int} (he : vfsWriteDescriptor v h id bytes = .ok (r, v', h')) :
    openDescs v' = openDescs v := by
  obtain ⟨-, rfl, -⟩ | ⟨n, -, rfl, -⟩ := vfsWriteDescriptor_cases hok he
  · rfl
  · exact openDescs_keep rfl

theorem openDescs_advanced {v v' : VfsState} {id : Nat} (h : Advanced v v' id) :
    openDescs v' = openDescs v := by
  obtain rfl | ⟨-, -, -, o, rfl⟩ := h
  · rfl
  · exact openDescs_keep rfl

theorem openDescs_initVfs {m : Mem} {ptr size : Int} {heap h : Heap} {v : VfsState}
    (hok : HeapOk heap) (hlens : LengthsOk m ptr size) (he : initVfs m ptr size heap = .ok (v, h)) :
    openDescs v = ∅ := by
  refine Finset.filter_false_of_mem fun id _ => not_not.mpr ?_
  rw [(initVfs_started hok hlens he).2.1]
  rfl

/-! ## The self-test -/

/-- `if not c: panic(text)`. -/
def require (c : Prop) [Decidable c] (text : String) : Except String Unit :=
  if c then .ok () else .error text

/-- Open a path, or panic. -/
def openOrPanic (v : VfsState) (heap : Heap) (path : Bytes) (flags : Int) (text : String) :
    Except String (Nat × VfsState × Heap) := do
  let (d, v, heap) ← vfsOpenPath v heap path flags
  require (d ≠ 0) text
  .ok (d, v, heap)

def vfsOpenCstring (v : VfsState) (heap : Heap) (path : Bytes) :
    Except String (Nat × VfsState × Heap) := do
  let (_, heap) ← allocBytes heap (path.length + 1)
  vfsOpenPath v heap path 0

/-- Read a directory, or panic. -/
def readdirOrPanic (v : VfsState) (d : Nat) (text : String) : Except String VfsState := do
  let (count, _, v) ← vfsReaddirDescriptor v d 64
  require (count > 0) text
  .ok v

/-- Close a descriptor, or panic. -/
def closeOrPanic (v : VfsState) (d : Nat) (text : String) : Except String VfsState := do
  let (r, v) ← vfsCloseDescriptor v d
  require (r = 0) text
  .ok v

/-- `/hello.txt`, `//bin/./hello`, `/bin`, `/tmp/log.txt` and `tmpfs-ok`. -/
def helloPath : Bytes := [47, 104, 101, 108, 108, 111, 46, 116, 120, 116]
def nestedPath : Bytes := [47, 47, 98, 105, 110, 47, 46, 47, 104, 101, 108, 108, 111]
def binPath : Bytes := [47, 98, 105, 110]
def logPath : Bytes := [47, 116, 109, 112, 47, 108, 111, 103, 46, 116, 120, 116]
def tmpMsg : Bytes := [116, 109, 112, 102, 115, 45, 111, 107]

/-- The opens of `vfs_self_test` and what it does between them. The descriptor of the nested path
    is dropped. -/
def selfTestOpens (v : VfsState) (heap : Heap) :
    Except String (Nat × Nat × Nat × Nat × Nat × VfsState × Heap) := do
  let (desc, v, heap) ← openOrPanic v heap helloPath 0 "vfs self-test open failed"
  let (_, heap) ← allocBytes heap 64
  let (count, _, v) ← vfsReadDescriptor v [] desc 64
  require (count > 0) "vfs self-test read failed"
  let (_, heap) ← allocBytes heap 16
  let (r, _) ← vfsStatDescriptor v desc
  require (r = 0) "vfs self-test stat failed"
  let (dirDesc, v, heap) ← vfsOpenCstring v heap [slash]
  require (dirDesc ≠ 0) "vfs self-test dir open failed"
  let (subdirDesc, v, heap) ← vfsOpenCstring v heap binPath
  require (subdirDesc ≠ 0) "vfs self-test subdir open failed"
  let (_, v, heap) ← openOrPanic v heap nestedPath 0 "vfs self-test nested path failed"
  let (tmpDesc, v, heap) ← openOrPanic v heap logPath 3 "vfs self-test tmp create failed"
  let (r, v, heap) ← vfsWriteDescriptor v heap tmpDesc tmpMsg
  require (r = 8) "vfs self-test tmp write failed"
  let v ← closeOrPanic v tmpDesc "vfs self-test tmp close failed"
  let (tmpDesc, v, heap) ← openOrPanic v heap logPath 0 "vfs self-test tmp reopen failed"
  let (tmpDirDesc, v, heap) ← openOrPanic v heap tmpName 0 "vfs self-test tmp dir open failed"
  .ok (desc, dirDesc, subdirDesc, tmpDesc, tmpDirDesc, v, heap)

def vfsSelfTest (v : VfsState) (heap : Heap) : Except String (VfsState × Heap) := do
  let (_, heap) ← allocBytes heap 16
  let (_, heap) ← allocBytes heap 24
  let (_, heap) ← allocBytes heap 20
  let (_, heap) ← allocBytes heap 8
  let (_, heap) ← allocBytes heap 16
  let (desc, dirDesc, subdirDesc, tmpDesc, tmpDirDesc, v, heap) ← selfTestOpens v heap
  let v ← readdirOrPanic v dirDesc "vfs self-test readdir failed"
  let v ← readdirOrPanic v subdirDesc "vfs self-test subdir readdir failed"
  let (count, _, v) ← vfsReadDescriptor v [] tmpDesc 64
  require (count = 8) "vfs self-test tmp read failed"
  let v ← readdirOrPanic v tmpDirDesc "vfs self-test tmp dir readdir failed"
  let v ← closeOrPanic v desc "vfs self-test close failed"
  let v ← closeOrPanic v dirDesc "vfs self-test dir close failed"
  let v ← closeOrPanic v subdirDesc "vfs self-test subdir close failed"
  let v ← closeOrPanic v tmpDesc "vfs self-test tmp final close failed"
  let v ← closeOrPanic v tmpDirDesc "vfs self-test tmp dir close failed"
  .ok (v, heap)

theorem require_eq_ok {c : Prop} [Decidable c] {text : String} {u : Unit} :
    require c text = .ok u ↔ c := by
  unfold require
  split_ifs with h
  · simp [h]
  · simp [h]

section SelfTest

variable {v v' : VfsState} {h h' : Heap}

/-- A descriptor was opened in a reachable state, and the state is still reachable. -/
structure OpenedOne (v v' : VfsState) (h' : Heap) (d : Nat) : Prop where
  reach : VfsReachable (v', h')
  fresh : d ∉ openDescs v
  descs : openDescs v' = insert d (openDescs v)

theorem VfsReachable.alloc (hs : VfsReachable (v, h)) {size : Int} (h0 : 0 ≤ size) {p : Nat}
    (he : allocBytes h size = .ok (p, h')) : VfsReachable (v, h') := by
  obtain ⟨-, hok, hg, -, -⟩ := (allocBytes_spec hs.inv.heap h0).of_ok he
  exact hs.use ⟨hok, hg.ptr_le, hg.stop⟩

theorem vfsOpenPath_one (hs : VfsReachable (v, h)) {path : Bytes} {flags : Int} {d : Nat}
    (he : vfsOpenPath v h path flags = .ok (d, v', h')) (hd : d ≠ 0) : OpenedOne v v' h' d := by
  obtain ⟨h0, -⟩ | ⟨-, hfresh, hins⟩ := vfsOpenPath_opened hs.inv.heap he
  · exact absurd h0 hd
  · exact ⟨hs.openPath he, hfresh, hins⟩

theorem openOrPanic_one (hs : VfsReachable (v, h)) {path : Bytes} {flags : Int} {text : String}
    {d : Nat} (he : openOrPanic v h path flags text = .ok (d, v', h')) : OpenedOne v v' h' d := by
  obtain ⟨⟨d₁, v₁, h₁⟩, ho, he⟩ := bind_eq_ok.mp he
  obtain ⟨_, hd, he⟩ := bind_eq_ok.mp he
  cases he
  exact vfsOpenPath_one hs ho (require_eq_ok.mp hd)

theorem vfsOpenCstring_one (hs : VfsReachable (v, h)) {path : Bytes} {d : Nat}
    (he : vfsOpenCstring v h path = .ok (d, v', h')) (hd : d ≠ 0) : OpenedOne v v' h' d := by
  obtain ⟨⟨p, h₁⟩, ha, he⟩ := bind_eq_ok.mp he
  exact vfsOpenPath_one (hs.alloc (by omega) ha) he hd

theorem readdirOrPanic_spec (hs : VfsReachable (v, h)) {d : Nat} {text : String}
    (he : readdirOrPanic v d text = .ok v') : VfsReachable (v', h) ∧ openDescs v' = openDescs v := by
  obtain ⟨⟨r, bytes, v₁⟩, hr, he⟩ := bind_eq_ok.mp he
  obtain ⟨_, -, he⟩ := bind_eq_ok.mp he
  cases he
  exact ⟨hs.readdir hr, openDescs_advanced (vfsReaddirDescriptor_advanced hr)⟩

theorem closeOrPanic_spec (hs : VfsReachable (v, h)) {d : Nat} {text : String}
    (he : closeOrPanic v d text = .ok v') :
    VfsReachable (v', h) ∧ openDescs v' = (openDescs v).erase d := by
  obtain ⟨⟨r, v₁⟩, hc, he⟩ := bind_eq_ok.mp he
  obtain ⟨_, hr, he⟩ := bind_eq_ok.mp he
  cases he
  refine ⟨hs.close hc, ?_⟩
  obtain ⟨h1, -⟩ | ⟨-, -, -, -, rfl⟩ := vfsCloseDescriptor_spec hc
  · rw [require_eq_ok.mp hr] at h1
    cases h1
  · exact openDescs_close v d

/-- Seven descriptors are opened, one of them closed; the fourth is lost. -/
theorem selfTestOpens_spec (hs : VfsReachable (v, h)) (hnone : openDescs v = ∅)
    {d₁ d₂ d₃ d₆ d₇ : Nat} (he : selfTestOpens v h = .ok (d₁, d₂, d₃, d₆, d₇, v', h')) :
    VfsReachable (v', h') ∧ ∃ d₄, openDescs v' = {d₇, d₆, d₄, d₃, d₂, d₁} ∧
      [d₇, d₆, d₄, d₃, d₂, d₁].Nodup := by
  unfold selfTestOpens at he
  obtain ⟨⟨d₁, v₁, h₁⟩, e₁, he⟩ := bind_eq_ok.mp he
  have o₁ := openOrPanic_one hs e₁
  obtain ⟨⟨p₁, h₂⟩, a₁, he⟩ := bind_eq_ok.mp he
  have s₂ := o₁.reach.alloc (by norm_num) a₁
  obtain ⟨⟨count, bytes, v₂⟩, e₂, he⟩ := bind_eq_ok.mp he
  have s₃ := s₂.read e₂
  have k₂ := openDescs_advanced (vfsReadDescriptor_advanced e₂)
  obtain ⟨_, -, he⟩ := bind_eq_ok.mp he
  obtain ⟨⟨p₂, h₃⟩, a₂, he⟩ := bind_eq_ok.mp he
  have s₄ := s₃.alloc (by norm_num) a₂
  obtain ⟨r, -, he⟩ := bind_eq_ok.mp he
  obtain ⟨_, -, he⟩ := bind_eq_ok.mp he
  obtain ⟨⟨d₂, v₃, h₄⟩, e₃, he⟩ := bind_eq_ok.mp he
  obtain ⟨_, n₂, he⟩ := bind_eq_ok.mp he
  have o₂ := vfsOpenCstring_one s₄ e₃ (require_eq_ok.mp n₂)
  obtain ⟨⟨d₃, v₄, h₅⟩, e₄, he⟩ := bind_eq_ok.mp he
  obtain ⟨_, n₃, he⟩ := bind_eq_ok.mp he
  have o₃ := vfsOpenCstring_one o₂.reach e₄ (require_eq_ok.mp n₃)
  obtain ⟨⟨d₄, v₅, h₆⟩, e₅, he⟩ := bind_eq_ok.mp he
  have o₄ := openOrPanic_one o₃.reach e₅
  obtain ⟨⟨d₅, v₆, h₇⟩, e₆, he⟩ := bind_eq_ok.mp he
  have o₅ := openOrPanic_one o₄.reach e₆
  obtain ⟨⟨w, v₇, h₈⟩, e₇, he⟩ := bind_eq_ok.mp he
  have s₅ := o₅.reach.write e₇
  have k₅ := openDescs_write o₅.reach.inv.heap e₇
  obtain ⟨_, -, he⟩ := bind_eq_ok.mp he
  obtain ⟨v₈, e₈, he⟩ := bind_eq_ok.mp he
  obtain ⟨s₆, k₆⟩ := closeOrPanic_spec s₅ e₈
  obtain ⟨⟨d₆, v₉, h₉⟩, e₉, he⟩ := bind_eq_ok.mp he
  have o₆ := openOrPanic_one s₆ e₉
  obtain ⟨⟨d₇, v₁₀, h₁₀⟩, e₁₀, he⟩ := bind_eq_ok.mp he
  have o₇ := openOrPanic_one o₆.reach e₁₀
  cases he
  -- the open descriptors, one step after the other
  have l₁ : openDescs v₁ = {d₁} := by rw [o₁.descs, hnone]; rfl
  have l₂ : openDescs v₃ = {d₂, d₁} := by rw [o₂.descs, k₂, l₁]
  have l₃ : openDescs v₄ = {d₃, d₂, d₁} := by rw [o₃.descs, l₂]
  have l₄ : openDescs v₅ = {d₄, d₃, d₂, d₁} := by rw [o₄.descs, l₃]
  have l₆ : openDescs v₈ = {d₄, d₃, d₂, d₁} := by
    rw [k₆, k₅, o₅.descs, Finset.erase_insert o₅.fresh, l₄]
  have f₂ := o₂.fresh
  have f₃ := o₃.fresh
  have f₄ := o₄.fresh
  have f₆ := o₆.fresh
  have f₇ := o₇.fresh
  rw [o₆.descs, l₆] at f₇
  rw [k₂, l₁] at f₂
  rw [l₂] at f₃
  rw [l₃] at f₄
  rw [l₆] at f₆
  refine ⟨o₇.reach, d₄, by rw [o₇.descs, o₆.descs, l₆], ?_⟩
  simp only [Finset.mem_insert, Finset.mem_singleton] at f₂ f₃ f₄ f₆ f₇
  simp only [List.nodup_cons, List.mem_cons, List.not_mem_nil, or_false, not_false_iff,
    List.nodup_nil, and_true]
  exact ⟨f₇, f₆, f₄, f₃, f₂⟩

/-- `vfs_self_test` on a file system with no open descriptor leaves exactly one. -/
theorem vfsSelfTest_spec (hs : VfsReachable (v, h)) (hnone : openDescs v = ∅)
    (he : vfsSelfTest v h = .ok (v', h')) :
    VfsReachable (v', h') ∧ ∃ d, openDescs v' = {d} := by
  unfold vfsSelfTest at he
  obtain ⟨⟨p₁, h₁⟩, a₁, he⟩ := bind_eq_ok.mp he
  have s₁ := hs.alloc (by norm_num) a₁
  obtain ⟨⟨p₂, h₂⟩, a₂, he⟩ := bind_eq_ok.mp he
  have s₂ := s₁.alloc (by norm_num) a₂
  obtain ⟨⟨p₃, h₃⟩, a₃, he⟩ := bind_eq_ok.mp he
  have s₃ := s₂.alloc (by norm_num) a₃
  obtain ⟨⟨p₄, h₄⟩, a₄, he⟩ := bind_eq_ok.mp he
  have s₄ := s₃.alloc (by norm_num) a₄
  obtain ⟨⟨p₅, h₅⟩, a₅, he⟩ := bind_eq_ok.mp he
  have s₅ := s₄.alloc (by norm_num) a₅
  obtain ⟨⟨d₁, d₂, d₃, d₆, d₇, v₁, h₆⟩, e₁, he⟩ := bind_eq_ok.mp he
  obtain ⟨t₁, d₄, l₁, hnodup⟩ := selfTestOpens_spec s₅ hnone e₁
  obtain ⟨v₂, e₂, he⟩ := bind_eq_ok.mp he
  obtain ⟨t₂, k₂⟩ := readdirOrPanic_spec t₁ e₂
  obtain ⟨v₃, e₃, he⟩ := bind_eq_ok.mp he
  obtain ⟨t₃, k₃⟩ := readdirOrPanic_spec t₂ e₃
  obtain ⟨⟨count, bytes, v₄⟩, e₄, he⟩ := bind_eq_ok.mp he
  have t₄ := t₃.read e₄
  have k₄ := openDescs_advanced (vfsReadDescriptor_advanced e₄)
  obtain ⟨_, -, he⟩ := bind_eq_ok.mp he
  obtain ⟨v₅, e₅, he⟩ := bind_eq_ok.mp he
  obtain ⟨t₅, k₅⟩ := readdirOrPanic_spec t₄ e₅
  obtain ⟨v₆, e₆, he⟩ := bind_eq_ok.mp he
  obtain ⟨t₆, k₆⟩ := closeOrPanic_spec t₅ e₆
  obtain ⟨v₇, e₇, he⟩ := bind_eq_ok.mp he
  obtain ⟨t₇, k₇⟩ := closeOrPanic_spec t₆ e₇
  obtain ⟨v₈, e₈, he⟩ := bind_eq_ok.mp he
  obtain ⟨t₈, k₈⟩ := closeOrPanic_spec t₇ e₈
  obtain ⟨v₉, e₉, he⟩ := bind_eq_ok.mp he
  obtain ⟨t₉, k₉⟩ := closeOrPanic_spec t₈ e₉
  obtain ⟨v₁₀, e₁₀, he⟩ := bind_eq_ok.mp he
  obtain ⟨t₁₀, k₁₀⟩ := closeOrPanic_spec t₉ e₁₀
  cases he
  refine ⟨t₁₀, d₄, ?_⟩
  rw [k₁₀, k₉, k₈, k₇, k₆, k₅, k₄, k₃, k₂, l₁]
  simp only [List.nodup_cons, List.mem_cons, List.not_mem_nil, or_false, not_false_iff,
    List.nodup_nil, and_true] at hnodup
  ext x
  simp only [Finset.mem_erase, Finset.mem_insert, Finset.mem_singleton]
  grind

end SelfTest

end PcoOs.Vfs
