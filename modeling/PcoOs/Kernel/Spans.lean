/-
  The spans of the tasks over whole runs. Every task has a span of the early heap of its own, apart
  from those of the others (`BlocksInv`), and a step writes below the heap pointer only in the span
  of the current task (`Effect.span`).
-/
import PcoOs.Kernel.Ready

namespace PcoOs.Kernel

open PcoOs.Lib PcoOs.Pmm PcoOs.Support PcoOs.Vmm PcoOs.Elf PcoOs.Image PcoOs.Sched PcoOs.Vfs
  PcoOs.Syscall

/-! ## Spans of all tasks -/

structure BlocksInv (k : KernelState) : Prop where
  row : ∀ t, (k.task t).state ≠ .empty → RowBlocks (k.task t)
  stop : ∀ t, (k.task t).state ≠ .empty → spanStop (k.task t) ≤ k.heap.ptr
  apart : ∀ t u, t ≠ u → (k.task t).state ≠ .empty → (k.task u).state ≠ .empty →
    spanStop (k.task t) ≤ spanStart (k.task u) ∨ spanStop (k.task u) ≤ spanStart (k.task t)

/-- Rows with the same blocks. -/
structure SameBlocks (row row' : Task) : Prop where
  state : row'.state ≠ .empty → row.state ≠ .empty
  mode : row'.mode = row.mode
  context : row'.contextPtr = row.contextPtr
  stack : row'.stackBase = row.stackBase
  frame : row'.irqFramePtr = row.irqFramePtr

theorem SameBlocks.refl (row : Task) : SameBlocks row row := ⟨fun h => h, rfl, rfl, rfl, rfl⟩

theorem SameBlocks.start {row row' : Task} (h : SameBlocks row row') :
    spanStart row' = spanStart row := by
  unfold spanStart
  rw [h.mode, h.context, h.frame]

theorem SameBlocks.stop {row row' : Task} (h : SameBlocks row row') :
    spanStop row' = spanStop row := by
  unfold spanStop
  rw [h.stack]

theorem SameBlocks.blocks {row row' : Task} (h : SameBlocks row row') (hb : RowBlocks row) :
    RowBlocks row' where
  frame := by
    rw [h.mode, h.frame, h.context]
    exact hb.frame
  context := by
    rw [h.context, h.stack]
    exact hb.context
  stack := by
    rw [h.stack]
    exact hb.stack

theorem SameBlocks.setTask {s : SchedState} {t : TaskId} {row : Task}
    (h : SameBlocks (s.task t) row) (u : TaskId) :
    SameBlocks (s.task u) ((s.setTask t row).task u) := by
  unfold SchedState.setTask
  dsimp only
  by_cases hu : u = t
  · rw [hu, Function.update_self]
    exact h
  · rw [Function.update_of_ne hu]
    exact SameBlocks.refl _

section Step

variable {k k' : KernelState} {a : Act}

theorem BlocksInv.of_rows (h : BlocksInv k)
    (hrow : ∀ t, (k'.task t).state ≠ .empty → SameBlocks (k.task t) (k'.task t))
    (hp : k.heap.ptr ≤ k'.heap.ptr) : BlocksInv k' where
  row := fun t ht => (hrow t ht).blocks (h.row t ((hrow t ht).state ht))
  stop := fun t ht => by
    rw [(hrow t ht).stop]
    exact (h.stop t ((hrow t ht).state ht)).trans hp
  apart := fun t u hne ht hu => by
    rw [(hrow t ht).stop, (hrow u hu).stop, (hrow t ht).start, (hrow u hu).start]
    exact h.apart t u hne ((hrow t ht).state ht) ((hrow u hu).state hu)

theorem BlocksInv.same (h : BlocksInv k) (hrow : ∀ t, SameBlocks (k.task t) (k'.task t))
    (hp : k.heap.ptr ≤ k'.heap.ptr) : BlocksInv k' := h.of_rows (fun t _ => hrow t) hp

/-- A new task gets a span above all others. -/
theorem BlocksInv.publish (h : BlocksInv k) {t : TaskId} {row : Task}
    (hrow : ∀ u, k'.task u = if u = t then row else k.task u)
    (hfresh : FreshBlocks k.heap.ptr k'.heap.ptr row) (hp : k.heap.ptr ≤ k'.heap.ptr) :
    BlocksInv k' where
  row := fun u hu => by
    rw [hrow] at hu ⊢
    split_ifs at hu ⊢
    · exact hfresh.blocks
    · exact h.row u hu
  stop := fun u hu => by
    rw [hrow] at hu ⊢
    split_ifs at hu ⊢
    · exact hfresh.stop
    · exact (h.stop u hu).trans hp
  apart := fun u v hne hu hv => by
    rw [hrow] at hu hv
    rw [hrow, hrow]
    have hlo := hfresh.start
    split_ifs at hu hv ⊢ with hut hvt hvt
    · exact absurd (hut.trans hvt.symm) hne
    · exact Or.inr ((h.stop v hv).trans hlo)
    · exact Or.inl ((h.stop u hu).trans hlo)
    · exact h.apart u v hne hu hv

/-! ## What is written -/

/-- `m'` differs from `m` in the span of the row at most. -/
def OnlySpan (row : Task) (m m' : Mem) : Prop :=
  ∀ x, x < spanStart row ∨ spanStop row ≤ x → m' x = m x

theorem OnlySpan.trans {row : Task} {m m' m'' : Mem} (h : OnlySpan row m m')
    (h' : OnlySpan row m' m'') : OnlySpan row m m'' := fun x hx => (h' x hx).trans (h x hx)

theorem onlySpan_configure {row : Task} (hb : RowBlocks row) {m m' : Mem}
    {trampoline rbx rbp r12 r13 r14 : UInt64}
    (h : configureContext m row.contextPtr row.stackBase trampoline rbx rbp r12 r13 r14 = .ok m') :
    OnlySpan row m m' := by
  obtain ⟨m₁, hm, -, -, hout⟩ := configureContext_spec (m := m) trampoline rbx rbp r12 r13 r14
    hb.context.1 hb.context.2.1
    hb.context.2.2 hb.stack
  rw [h] at hm
  cases hm
  intro x hx
  have hstart := hb.start_le
  exact hout x (hx.imp (fun hlt => hlt.trans_le hstart) fun hle => hle)

theorem onlySpan_words {row : Task} (hb : RowBlocks row) (m : Mem) (ws : List UInt64)
    (hw : ws.length = 7) : OnlySpan row m (storeWords m row.contextPtr ws) := by
  intro x hx
  have hstart := hb.start_le
  have hc := hb.context
  unfold spanStop taskStackSize at hx
  exact storeWords_of_outside ws (by rw [hw]; omega)

theorem onlySpan_frame {row : Task} (hb : RowBlocks row) (hm : row.mode = .user) (m : Mem)
    (ws : List UInt64) (hw : ws.length = 20) :
    OnlySpan row m (storeWords m row.irqFramePtr ws) := by
  intro x hx
  have hf := hb.frame hm
  have hc := hb.context
  unfold spanStop taskStackSize spanStart at hx
  rw [hm] at hx
  dsimp only at hx
  exact storeWords_of_outside ws (by rw [hw]; omega)

theorem SavedAs.onlySpan (hb : RowBlocks (k.task k.current)) {sv : Saves} {m : Mem}
    (h : SavedAs k sv m) : OnlySpan (k.task k.current) k.heap.mem m := by
  cases sv with
  | nothing => exact False.elim h
  | switch regs =>
    obtain ⟨hs, rfl⟩ := h
    refine OnlySpan.trans (fun x hx => storeQword_of_outside (v := k.code.switchReturn.toNat) ?_)
      (onlySpan_words hb _ _ rfl)
    have hstart := hb.start_le
    have hc := hb.context
    unfold OnStack at hs
    unfold spanStop at hx
    omega
  | irq regs =>
    obtain ⟨hm, h⟩ := h
    unfold schedulerSaveUserIrqContext at h
    dsimp only at h
    split_ifs at h
    obtain ⟨m₁, h₁, h⟩ := bind_eq_ok.mp h
    unfold schedulerCopyInterruptFrame at h₁
    obtain ⟨-, -, h₁⟩ := bind_eq_ok.mp h₁
    cases h₁
    exact (onlySpan_frame hb hm _ _ rfl).trans (onlySpan_configure hb h)

/-- A step writes old heap memory in the span of the current task only. -/
theorem Effect.span (hk : KernelOk k) (hb : BlocksInv k) (h : Effect k a k') {x : Nat}
    (hx : x < k.heap.ptr) (ho : x < spanStart (k.task k.current) ∨ spanStop (k.task k.current) ≤ x) :
    k'.heap.mem x = k.heap.mem x := by
  have hcur := hb.row _ hk.current_present
  cases h with
  | tick now => rfl
  | brk b hm hlo hhi => rfl
  | files h hm => exact congrFun h.heap.2.mem x
  | stack h =>
    refine h x fun hs => ?_
    have hstart := hcur.start_le
    have hc := hcur.context
    unfold OnStack at hs
    unfold spanStop at ho
    omega
  | stay now q hw hq => rfl
  | leave now hne q hw hq hs => exact hs.onlySpan hcur x ho
  | spawn q ht hbuild hh hq => exact (buildUserTask_blocks hk.heap hbuild).heap.below x hx
  | exec hm hv hr hc =>
    have hmoves := replaceUserImage_moves hk.heap hv hr
    exact (onlySpan_configure hcur hc x ho).trans (congrFun hmoves.2.mem x)
  | exit ha hc hne q hq hs => exact hs.onlySpan hcur x ho
  | reap hw ht hd hf => rfl

theorem exitCurrent_sameBlocks (hk : KernelOk k) {exitCode : Int} (t : TaskId) :
    SameBlocks (k.task t) ((exitCurrent k.sched exitCode).task t) := by
  rw [exitCurrent_row]
  refine ⟨fun hne => ?_, rfl, rfl, rfl, rfl⟩
  dsimp only at hne
  split_ifs at hne with htc
  · rw [htc]
    exact hk.current_present
  · exact hne

theorem Effect.blocksInv (hk : KernelOk k) (hb : BlocksInv k) (h : Effect k a k') :
    BlocksInv k' := by
  cases h with
  | tick now => exact hb.same (fun t => SameBlocks.refl _) (le_refl _)
  | brk b hm hlo hhi =>
    exact hb.same (SameBlocks.setTask ⟨fun h => h, rfl, rfl, rfl, rfl⟩) (le_refl _)
  | files h hm =>
    obtain ⟨vfs, heap, fds, rfl⟩ := h.shape
    exact hb.same (SameBlocks.setTask ⟨fun h => h, rfl, rfl, rfl, rfl⟩)
      h.heap.2.ptr_le
  | stack h => exact hb.same (fun t => SameBlocks.refl _) (le_refl _)
  | stay now q hw hq => exact hb.same (fun t => SameBlocks.refl _) (le_refl _)
  | leave now hne q hw hq hs => exact hb.same (fun t => SameBlocks.refl _) (le_refl _)
  | @spawn img argv envp t row phys heap vfs fds q ht hbuild hh hq =>
    have hnew := buildUserTask_blocks hk.heap hbuild
    refine hb.publish (t := t) (fun u => publishTask_task u)
      ⟨?_, hnew.fresh.start, hnew.fresh.stop⟩ hnew.heap.ptr_le
    have hsame : SameBlocks row { row with fds := fds } := ⟨fun h => h, rfl, rfl, rfl, rfl⟩
    exact hsame.blocks hnew.fresh.blocks
  | exec hm hv hr hc =>
    exact hb.same (SameBlocks.setTask ⟨fun h => h, rfl, rfl, rfl, rfl⟩)
      (replaceUserImage_moves hk.heap hv hr).2.ptr_le
  | @exit exitCode regs ha hc next hne q hq m hs =>
    exact hb.same (exitCurrent_sameBlocks hk) (le_refl _)
  | @reap wait t hw ht phys vfs hd hf =>
    refine hb.of_rows (fun u hu => ?_) (le_refl _)
    change ((releaseRow k.sched t).task u).state ≠ .empty at hu
    show SameBlocks (k.task u) ((releaseRow k.sched t).task u)
    rw [releaseRow_task] at hu ⊢
    split_ifs at hu ⊢
    · exact absurd rfl hu
    · exact SameBlocks.refl _

/-- The blocks of a task stay where they are as long as the task is there. -/
theorem Effect.sameBlocks (hk : KernelOk k) (h : Effect k a k') {t : TaskId}
    (ht : (k.task t).state ≠ .empty) (ht' : (k'.task t).state ≠ .empty) :
    SameBlocks (k.task t) (k'.task t) := by
  cases h with
  | tick now => exact SameBlocks.refl _
  | brk b hm hlo hhi =>
    refine SameBlocks.setTask ?_ t
    exact ⟨fun h => h, rfl, rfl, rfl, rfl⟩
  | files h hm =>
    obtain ⟨vfs, heap, fds, rfl⟩ := h.shape
    refine SameBlocks.setTask ?_ t
    exact ⟨fun h => h, rfl, rfl, rfl, rfl⟩
  | stack h => exact SameBlocks.refl _
  | stay now q hw hq => exact SameBlocks.refl _
  | leave now hne q hw hq hs => exact SameBlocks.refl _
  | @spawn img argv envp u row phys heap vfs fds q hu hbuild hh hq =>
    have hne : t ≠ u := by
      rintro rfl
      exact ht hu
    unfold KernelState.task
    rw [publishTask_task, if_neg hne]
    exact SameBlocks.refl _
  | exec hm hv hr hc =>
    refine SameBlocks.setTask ?_ t
    exact ⟨fun h => h, rfl, rfl, rfl, rfl⟩
  | exit ha hc hne q hq hs => exact exitCurrent_sameBlocks hk t
  | @reap wait u hw hu phys vfs hd hf =>
    change ((releaseRow k.sched u).task t).state ≠ .empty at ht'
    show SameBlocks (k.task t) ((releaseRow k.sched u).task t)
    rw [releaseRow_task] at ht' ⊢
    split_ifs at ht' ⊢
    · exact absurd rfl ht'
    · exact SameBlocks.refl _

end Step

/-! ## Boot -/

theorem Booted.blocksInv {M : Machine} {k : KernelState} (h : Booted M k) : BlocksInv k := by
  obtain ⟨row0, row1, hrows, htask⟩ := h.rows
  obtain ⟨mid, hb0, hb1⟩ := hrows.blocks
  have hrow : ∀ t, k.task t = if t = 0 then row0 else if t = 1 then row1 else clearTask := by
    intro t
    unfold KernelState.task
    rw [htask]
    rfl
  have hmid : mid ≤ k.heap.ptr := by
    have h1 := hb1.start
    have h2 := hb1.stop
    have h3 := hb1.blocks.start_le
    have h4 := hb1.blocks.context.2.2
    unfold spanStop at h2
    omega
  refine ⟨fun t ht => ?_, fun t ht => ?_, fun t u hne ht hu => ?_⟩
  · rw [hrow] at ht ⊢
    split_ifs at ht ⊢
    · exact hb0.blocks
    · exact hb1.blocks
    · exact absurd rfl ht
  · rw [hrow] at ht ⊢
    split_ifs at ht ⊢
    · exact hb0.stop.trans hmid
    · exact hb1.stop
    · exact absurd rfl ht
  · rw [hrow] at ht hu
    rw [hrow, hrow]
    split_ifs at ht hu ⊢ with ht0 hu0 hu1 ht1 hu0 hu1
    · exact absurd (ht0.trans hu0.symm) hne
    · exact Or.inl (hb0.stop.trans hb1.start)
    · exact absurd rfl hu
    · exact Or.inr (hb0.stop.trans hb1.start)
    · exact absurd (ht1.trans hu1.symm) hne
    · exact absurd rfl hu
    · exact absurd rfl ht
    · exact absurd rfl ht
    · exact absurd rfl ht

theorem ReachableBy.blocksInv {M : Machine} {P : KernelState → Act → Prop} {k : KernelState}
    (h : ReachableBy M P k) : KernelOk k ∧ BlocksInv k :=
  ⟨h.kernelOk, h.effects (fun _ hb => hb.blocksInv) fun _ _ _ hk _ he hb => he.blocksInv hk hb⟩

end PcoOs.Kernel
