/-
  The process tree over whole runs in which task 1 never exits. Parents are older than their
  children: the serial number of a task is above that of its parent, which is what makes the links
  a tree. The log pairs every reaped task with one exit and with the waiter, who is its parent.
-/
import PcoOs.Kernel.Ready

namespace PcoOs.Kernel

open PcoOs.Lib PcoOs.Support PcoOs.Elf PcoOs.Image PcoOs.Sched

/-! ## Steps as the tree sees them -/

structure SameKin (row row' : Task) : Prop where
  state : row'.state = row.state
  exitCode : row'.exitCode = row.exitCode
  parent : row'.parentPid = row.parentPid

theorem SameKin.setTask {s : SchedState} {t : TaskId} {row : Task} (h : SameKin (s.task t) row)
    (u : TaskId) : SameKin (s.task u) ((s.setTask t row).task u) := by
  unfold SchedState.setTask
  dsimp only
  by_cases hu : u = t
  · rw [hu, Function.update_self]
    exact h
  · rw [Function.update_of_ne hu]
    exact ⟨rfl, rfl, rfl⟩

/-- Same tasks under the same serial numbers, with the same log. -/
structure SameGhost (g g' : Ghost) : Prop where
  serial : g'.serial = g.serial
  next : g'.next = g.next
  log : g'.log = g.log

/-- The effects, without what the tree does not depend on. -/
inductive FamilyStep (k : KernelState) (a : Act) (k' : KernelState) : Prop
  | same {wait : Kont} (hrow : ∀ t, SameKin (k.task t) (k'.task t)) (hw : WaitOk k wait)
      (hkont : k'.kont = Function.update k.kont k.current wait)
      (hghost : SameGhost k.ghost k'.ghost)
  | spawn {t : TaskId} {img : Image} (ht : (k.task t).state = .empty)
      (hrow : ∀ u, u ≠ t → k'.task u = k.task u) (hs : (k'.task t).state = .runnable)
      (hp : (k'.task t).parentPid = k.current) (hkont : k'.kont = Function.update k.kont t .run)
      (hghost : k'.ghost = k.ghost.spawn t k.current img)
  | exit {exitCode : Int} {regs : Ctx} (ha : a = .exit exitCode regs) (hc : k.current ≠ 0)
      (hrow : ∀ t, k'.task t = (exitCurrent k.sched exitCode).task t)
      (hkont : k'.kont = Function.update k.kont k.current .dead)
      (hghost : k'.ghost = k.ghost.exit k.current exitCode)
  | reap {wait : Kont} {t : TaskId} (hw : WaitOk k wait) (ht : waitTarget k wait = some t)
      (hrow : ∀ u, k'.task u = if u = t then clearTask else k.task u)
      (hkont : k'.kont = Function.update k.kont k.current .run)
      (hghost : k'.ghost = k.ghost.reap t (k.task t).parentPid k.current (k.task t).exitCode)

theorem Effect.family {k k' : KernelState} {a : Act} (hk : KernelOk k) (h : Effect k a k') :
    FamilyStep k a k' := by
  have hstay := (Function.update_eq_self k.current k.kont).symm
  cases h with
  | tick now => exact .same (fun t => ⟨rfl, rfl, rfl⟩) .same hstay ⟨rfl, rfl, rfl⟩
  | brk b hm hlo hhi =>
    exact .same (SameKin.setTask ⟨rfl, rfl, rfl⟩) .same hstay ⟨rfl, rfl, rfl⟩
  | files h hm =>
    obtain ⟨vfs, heap, fds, rfl⟩ := h.shape
    exact .same (SameKin.setTask ⟨rfl, rfl, rfl⟩) .same hstay ⟨rfl, rfl, rfl⟩
  | stack h => exact .same (fun t => ⟨rfl, rfl, rfl⟩) .same hstay ⟨rfl, rfl, rfl⟩
  | stay now q hw hq => exact .same (fun t => ⟨rfl, rfl, rfl⟩) hw rfl ⟨rfl, rfl, rfl⟩
  | leave now hne q hw hq hs => exact .same (fun t => ⟨rfl, rfl, rfl⟩) hw rfl ⟨rfl, rfl, rfl⟩
  | @spawn img argv envp t row phys heap vfs fds q ht hb hh hq =>
    have hnew := buildUserTask_blocks hk.heap hb
    refine .spawn (t := t) ht (fun u hu => ?_) ?_ ?_ rfl rfl
    · exact Function.update_of_ne hu _ _
    · unfold KernelState.task
      rw [publishTask_task, if_pos rfl]
      exact hnew.state
    · unfold KernelState.task
      rw [publishTask_task, if_pos rfl]
      exact hnew.parent
  | exec hm hv hr hc => exact .same (SameKin.setTask ⟨rfl, rfl, rfl⟩) .same hstay ⟨rfl, rfl, rfl⟩
  | exit ha hc hne q hq hs => exact .exit ha hc (fun t => rfl) rfl rfl
  | reap hw ht hd hf => exact .reap hw ht (releaseRow_task k.sched _) rfl rfl

/-! ## Waiters -/

/-- A task that waits for another waits for a child of its own, as long as it waits. -/
structure WaitsInv (k : KernelState) : Prop where
  waits : ∀ w t s, k.kont w = .waitFor t s →
    (k.task t).state ≠ .empty ∧ (k.task t).parentPid = w ∧ k.ghost.serial t = s

section Waits

variable {k k' : KernelState} {a : Act}

/-- A waiter takes a child of its own. -/
theorem WaitsInv.target_parent (h : WaitsInv k) {wait : Kont} {t : TaskId} (hw : WaitOk k wait)
    (ht : waitTarget k wait = some t) : (k.task t).parentPid = k.current := by
  unfold waitTarget at ht
  cases wait with
  | run => cases ht
  | dead => cases ht
  | waitAny => exact (schedulerFindChild_some ht).2.1
  | waitFor u serial =>
    dsimp only at ht
    split_ifs at ht
    cases ht
    generalize hkw : Kont.waitFor t serial = w at hw
    cases hw with
    | same => exact (h.waits _ t serial hkw.symm).2.1
    | any => cases hkw
    | target hs hp =>
      cases hkw
      exact hp

theorem WaitsInv.same (h : WaitsInv k) {wait : Kont}
    (hrow : ∀ t, SameKin (k.task t) (k'.task t)) (hw : WaitOk k wait)
    (hkont : k'.kont = Function.update k.kont k.current wait)
    (hghost : SameGhost k.ghost k'.ghost) : WaitsInv k' := by
  refine ⟨fun w t s hs => ?_⟩
  rw [(hrow t).state, (hrow t).parent, hghost.serial]
  rw [hkont] at hs
  by_cases hwc : w = k.current
  · subst hwc
    rw [Function.update_self] at hs
    subst hs
    generalize hkw : Kont.waitFor t s = v at hw
    cases hw with
    | same => exact h.waits _ t s hkw.symm
    | any => cases hkw
    | target hs hp =>
      cases hkw
      exact ⟨hs, hp, rfl⟩
  · rw [Function.update_of_ne hwc] at hs
    exact h.waits w t s hs

theorem WaitsInv.spawn (h : WaitsInv k) {t : TaskId} {img : Image}
    (ht : (k.task t).state = .empty) (hrow : ∀ u, u ≠ t → k'.task u = k.task u)
    (hkont : k'.kont = Function.update k.kont t .run)
    (hghost : k'.ghost = k.ghost.spawn t k.current img) : WaitsInv k' := by
  refine ⟨fun w u s hws => ?_⟩
  rw [hkont] at hws
  by_cases hwt : w = t
  · rw [hwt, Function.update_self] at hws
    cases hws
  · rw [Function.update_of_ne hwt] at hws
    obtain ⟨p1, p2, p3⟩ := h.waits w u s hws
    have hut : u ≠ t := by
      rintro rfl
      exact p1 ht
    have hser : k'.ghost.serial u = k.ghost.serial u := by
      rw [hghost]
      exact Function.update_of_ne hut _ _
    rw [hrow u hut, hser]
    exact ⟨p1, p2, p3⟩

/-- A task that ends no longer waits, and its own children are nobody else's. -/
theorem WaitsInv.exit (h : WaitsInv k) {exitCode : Int}
    (hrow : ∀ t, k'.task t = (exitCurrent k.sched exitCode).task t)
    (hkont : k'.kont = Function.update k.kont k.current .dead)
    (hghost : k'.ghost = k.ghost.exit k.current exitCode) : WaitsInv k' := by
  have hser : k'.ghost.serial = k.ghost.serial := by rw [hghost]; rfl
  have hstate : ∀ t, (k'.task t).state = if t = k.current then .exited else (k.task t).state := by
    intro t
    rw [hrow, exitCurrent_task]
    rfl
  refine ⟨fun w t s hws => ?_⟩
  rw [hkont] at hws
  by_cases hwc : w = k.current
  · rw [hwc, Function.update_self] at hws
    cases hws
  · rw [Function.update_of_ne hwc] at hws
    obtain ⟨p1, p2, p3⟩ := h.waits w t s hws
    have hparent : (k'.task t).parentPid = w := by
      rw [hrow, exitCurrent_row]
      refine (if_neg fun hx => hwc ?_).trans p2
      exact p2.symm.trans hx.2.2
    rw [hparent, hser, hstate]
    refine ⟨?_, rfl, p3⟩
    split_ifs
    · decide
    · exact p1

theorem WaitsInv.reap (h : WaitsInv k) {wait : Kont} {t : TaskId} (hw : WaitOk k wait)
    (ht : waitTarget k wait = some t)
    (hrow : ∀ u, k'.task u = if u = t then clearTask else k.task u)
    (hkont : k'.kont = Function.update k.kont k.current .run)
    (hghost : k'.ghost = k.ghost.reap t (k.task t).parentPid k.current (k.task t).exitCode) :
    WaitsInv k' := by
  have hser : k'.ghost.serial = k.ghost.serial := by rw [hghost]; rfl
  refine ⟨fun w u s hws => ?_⟩
  rw [hkont] at hws
  by_cases hwc : w = k.current
  · rw [hwc, Function.update_self] at hws
    cases hws
  · rw [Function.update_of_ne hwc] at hws
    obtain ⟨p1, p2, p3⟩ := h.waits w u s hws
    -- the reaped task is a child of the current task, so nobody else waits for it
    have hut : u ≠ t := by
      rintro rfl
      exact hwc (p2.symm.trans (h.target_parent hw ht))
    rw [hrow, if_neg hut, hser]
    exact ⟨p1, p2, p3⟩

theorem WaitsInv.step (h : WaitsInv k) (hs : FamilyStep k a k') : WaitsInv k' := by
  cases hs with
  | same hrow hw hkont hghost => exact h.same hrow hw hkont hghost
  | spawn ht hrow hs hp hkont hghost => exact h.spawn ht hrow hkont hghost
  | exit ha hc hrow hkont hghost => exact h.exit hrow hkont hghost
  | reap hw ht hrow hkont hghost => exact h.reap hw ht hrow hkont hghost

end Waits

theorem Booted.waits {M : Machine} {k : KernelState} (h : Booted M k) : WaitsInv k := by
  refine ⟨fun w t s hw => ?_⟩
  rw [h.kont] at hw
  cases hw

theorem ReachableBy.waits {M : Machine} {P : KernelState → Act → Prop} {k : KernelState}
    (h : ReachableBy M P k) : WaitsInv k :=
  h.effects (I := WaitsInv) (fun _ hb => hb.waits) fun _ _ _ hk _ he hw => hw.step (he.family hk)

/-! ## Parents -/

structure TreeInv (k : KernelState) : Prop extends WaitsInv k where
  one : (k.task 1).state = .runnable
  serial_zero : k.ghost.serial 0 = 0
  serial_one : k.ghost.serial 1 = 1
  serial_two : ∀ t, t ≠ 0 → t ≠ 1 → (k.task t).state ≠ .empty → 2 ≤ k.ghost.serial t
  serial_lt : ∀ t, (k.task t).state ≠ .empty → k.ghost.serial t < k.ghost.next
  serial_inj : ∀ t u, (k.task t).state ≠ .empty → (k.task u).state ≠ .empty →
    k.ghost.serial t = k.ghost.serial u → t = u
  parent : ∀ t, t ≠ 0 → (k.task t).state ≠ .empty →
    (k.task (k.task t).parentPid).state ≠ .empty ∧
      (k.task (k.task t).parentPid).state ≠ .exited ∧
      k.ghost.serial (k.task t).parentPid < k.ghost.serial t

section Step

variable {k k' : KernelState} {a : Act}

theorem TreeInv.same (h : TreeInv k) {wait : Kont}
    (hrow : ∀ t, SameKin (k.task t) (k'.task t)) (hw : WaitOk k wait)
    (hkont : k'.kont = Function.update k.kont k.current wait)
    (hghost : SameGhost k.ghost k'.ghost) : TreeInv k' := by
  have hst := fun t => (hrow t).state
  have hpa := fun t => (hrow t).parent
  refine ⟨h.toWaitsInv.same hrow hw hkont hghost, ?_, ?_, ?_, fun t => ?_, fun t => ?_,
    fun t u => ?_, fun t => ?_⟩
  · rw [hst]
    exact h.one
  · rw [hghost.serial]
    exact h.serial_zero
  · rw [hghost.serial]
    exact h.serial_one
  · rw [hst, hghost.serial]
    exact h.serial_two t
  · rw [hst, hghost.serial, hghost.next]
    exact h.serial_lt t
  · rw [hst, hst, hghost.serial]
    exact h.serial_inj t u
  · rw [hpa, hst, hst, hghost.serial]
    exact h.parent t

theorem TreeInv.spawn (hk : KernelOk k) (h : TreeInv k) {t : TaskId} {img : Image}
    (ht : (k.task t).state = .empty) (hrow : ∀ u, u ≠ t → k'.task u = k.task u)
    (hs : (k'.task t).state = .runnable) (hp : (k'.task t).parentPid = k.current)
    (hkont : k'.kont = Function.update k.kont t .run)
    (hghost : k'.ghost = k.ghost.spawn t k.current img) : TreeInv k' := by
  have hne : ∀ {u : TaskId}, (k.task u).state ≠ .empty → u ≠ t := by
    rintro u hu rfl
    exact hu ht
  have hcur : (k.task k.current).state = .runnable := hk.queue.current_runnable
  have hcur' : (k.task k.current).state ≠ .empty := by
    rw [hcur]
    decide
  have h0 : (0 : TaskId) ≠ t := hne (by
    have : (k.task 0).state = .runnable := hk.queue.idle_runnable
    rw [this]
    decide)
  have h1 : (1 : TaskId) ≠ t := hne (by rw [h.one]; decide)
  have hser : ∀ u, u ≠ t → k'.ghost.serial u = k.ghost.serial u := by
    intro u hu
    rw [hghost]
    exact Function.update_of_ne hu _ _
  have hnew : k'.ghost.serial t = k.ghost.next := by
    rw [hghost]
    exact Function.update_self _ _ _
  have hnext : k'.ghost.next = k.ghost.next + 1 := by rw [hghost]; rfl
  refine ⟨h.toWaitsInv.spawn ht hrow hkont hghost, ?_, ?_, ?_, fun u hu0 hu1 hu => ?_,
    fun u hu => ?_, fun u v hu hv huv => ?_, fun u hu0 hu => ?_⟩
  · rw [hrow 1 h1]
    exact h.one
  · rw [hser 0 h0]
    exact h.serial_zero
  · rw [hser 1 h1]
    exact h.serial_one
  · by_cases hut : u = t
    · rw [hut, hnew]
      have := h.serial_lt 1 (by rw [h.one]; decide)
      rw [h.serial_one] at this
      omega
    · rw [hser u hut]
      rw [hrow u hut] at hu
      exact h.serial_two u hu0 hu1 hu
  · rw [hnext]
    by_cases hut : u = t
    · rw [hut, hnew]
      omega
    · rw [hser u hut]
      rw [hrow u hut] at hu
      have := h.serial_lt u hu
      omega
  · by_cases hut : u = t <;> by_cases hvt : v = t
    · rw [hut, hvt]
    · rw [hut, hnew, hser v hvt] at huv
      rw [hrow v hvt] at hv
      have := h.serial_lt v hv
      omega
    · rw [hvt, hnew, hser u hut] at huv
      rw [hrow u hut] at hu
      have := h.serial_lt u hu
      omega
    · rw [hser u hut, hser v hvt] at huv
      rw [hrow u hut] at hu
      rw [hrow v hvt] at hv
      exact h.serial_inj u v hu hv huv
  · by_cases hut : u = t
    · subst hut
      rw [hp, hrow _ (hne hcur'), hser _ (hne hcur'), hnew]
      refine ⟨hcur', by rw [hcur]; decide, h.serial_lt _ hcur'⟩
    · rw [hrow u hut] at hu ⊢
      obtain ⟨p1, p2, p3⟩ := h.parent u hu0 hu
      rw [hrow _ (hne p1), hser _ (hne p1), hser u hut]
      exact ⟨p1, p2, p3⟩

theorem TreeInv.exit (hk : KernelOk k) (h : TreeInv k) {exitCode : Int} (hc : k.current ≠ 0)
    (hc1 : k.current ≠ 1) (hrow : ∀ t, k'.task t = (exitCurrent k.sched exitCode).task t)
    (hkont : k'.kont = Function.update k.kont k.current .dead)
    (hghost : k'.ghost = k.ghost.exit k.current exitCode) : TreeInv k' := by
  have hser : k'.ghost.serial = k.ghost.serial := by rw [hghost]; rfl
  have hnext : k'.ghost.next = k.ghost.next := by rw [hghost]; rfl
  have hcur : (k.task k.current).state = .runnable := hk.queue.current_runnable
  have hcur' : (k.task k.current).state ≠ .empty := by
    rw [hcur]
    decide
  have hstate : ∀ t, (k'.task t).state = if t = k.current then .exited else (k.task t).state := by
    intro t
    rw [hrow, exitCurrent_task]
    rfl
  have hne : ∀ t, (k'.task t).state ≠ .empty → (k.task t).state ≠ .empty := by
    intro t ht
    rw [hstate] at ht
    split_ifs at ht with htc
    · rw [htc]
      exact hcur'
    · exact ht
  have hone : (k.task 1).state ≠ .empty := by
    rw [h.one]
    decide
  -- task 1 is there to take the orphans
  have htarget : schedulerReparentTarget k.sched k.current = 1 := by
    unfold schedulerReparentTarget
    have hlt : (1 : TaskId) ∈ k.sched.ids := hk.table.mem_ids hone
    rw [mem_ids] at hlt
    exact if_pos ⟨hc1, hlt⟩
  have hparent : ∀ t, (k.task t).state ≠ .empty → (k'.task t).parentPid =
      if (k.task t).parentPid = k.current then 1 else (k.task t).parentPid := by
    intro t ht
    have hlt : t ∈ k.sched.ids := hk.table.mem_ids ht
    rw [mem_ids] at hlt
    rw [hrow, exitCurrent_row]
    show (if t.val < k.sched.taskCount ∧ (k.task t).state ≠ .empty ∧
      (k.task t).parentPid = k.current then schedulerReparentTarget k.sched k.current
      else (k.task t).parentPid) = _
    rw [htarget]
    by_cases hp : (k.task t).parentPid = k.current
    · rw [if_pos ⟨hlt, ht, hp⟩, if_pos hp]
    · rw [if_neg (fun hx => hp hx.2.2), if_neg hp]
  have hone' : (k'.task 1).state = .runnable := by
    rw [hstate, if_neg hc1.symm]
    exact h.one
  refine ⟨h.toWaitsInv.exit hrow hkont hghost, hone', by rw [hser]; exact h.serial_zero,
    by rw [hser]; exact h.serial_one, fun t h0 h1 ht => ?_, fun t ht => ?_, fun t u ht hu => ?_,
    fun t h0 ht => ?_⟩
  · rw [hser]
    exact h.serial_two t h0 h1 (hne t ht)
  · rw [hser, hnext]
    exact h.serial_lt t (hne t ht)
  · rw [hser]
    exact h.serial_inj t u (hne t ht) (hne u hu)
  · rw [hparent t (hne t ht), hser]
    obtain ⟨p1, p2, p3⟩ := h.parent t h0 (hne t ht)
    split_ifs with hp
    · rw [hone']
      refine ⟨by decide, by decide, ?_⟩
      rw [h.serial_one]
      -- the exiting task is older than its child and younger than task 1
      have hold := h.serial_two k.current hc hc1 hcur'
      rw [hp] at p3
      omega
    · rw [hstate, if_neg hp]
      exact ⟨p1, p2, p3⟩

theorem TreeInv.reap (h : TreeInv k) {wait : Kont} {t : TaskId} (hw : WaitOk k wait)
    (ht : waitTarget k wait = some t)
    (hrow : ∀ u, k'.task u = if u = t then clearTask else k.task u)
    (hkont : k'.kont = Function.update k.kont k.current .run)
    (hghost : k'.ghost = k.ghost.reap t (k.task t).parentPid k.current (k.task t).exitCode) :
    TreeInv k' := by
  have hx : (k.task t).state = .exited := waitTarget_exited ht
  have hser : k'.ghost.serial = k.ghost.serial := by rw [hghost]; rfl
  have hnext : k'.ghost.next = k.ghost.next := by rw [hghost]; rfl
  have hof : ∀ u, (k'.task u).state ≠ .empty → u ≠ t ∧ k'.task u = k.task u := by
    intro u hu
    rw [hrow] at hu ⊢
    split_ifs at hu ⊢ with hut
    · exact absurd rfl hu
    · exact ⟨hut, rfl⟩
  have hold : ∀ u, (k'.task u).state ≠ .empty → (k.task u).state ≠ .empty := fun u hu =>
    (hof u hu).2 ▸ hu
  have h1 : (1 : TaskId) ≠ t := by
    rintro rfl
    exact absurd (h.one.symm.trans hx) (by decide)
  refine ⟨h.toWaitsInv.reap hw ht hrow hkont hghost, by rw [hrow, if_neg h1]; exact h.one,
    by rw [hser]; exact h.serial_zero, by rw [hser]; exact h.serial_one, fun u h0 h1 hu => ?_,
    fun u hu => ?_, fun u v hu hv => ?_, fun u h0 hu => ?_⟩
  · rw [hser]
    exact h.serial_two u h0 h1 (hold u hu)
  · rw [hser, hnext]
    exact h.serial_lt u (hold u hu)
  · rw [hser]
    exact h.serial_inj u v (hold u hu) (hold v hv)
  · obtain ⟨p1, p2, p3⟩ := h.parent u h0 (hold u hu)
    have hp : (k.task u).parentPid ≠ t := by
      rintro hp
      rw [hp] at p2
      exact p2 hx
    rw [(hof u hu).2, hrow, if_neg hp, hser]
    exact ⟨p1, p2, p3⟩

end Step

end PcoOs.Kernel
