/-
  Exits and waits in the log, and the main result about the process tree: every reaped task exited
  once, was reaped once, by its parent, with the code it exited with.
-/
import PcoOs.Kernel.Progress
import PcoOs.Kernel.Tree

namespace PcoOs.Kernel

open PcoOs.Lib PcoOs.Support PcoOs.Elf PcoOs.Image PcoOs.Sched

/-! ## The log -/

def Event.exitedSerial : Event → Option Nat
  | .exited serial _ => some serial
  | _ => none

def Event.reapedSerial : Event → Option Nat
  | .reaped serial _ _ _ => some serial
  | _ => none

/-- The serial numbers of the tasks that exited, latest first. -/
def Ghost.exits (g : Ghost) : List Nat := g.log.filterMap Event.exitedSerial

/-- The serial numbers of the tasks that were reaped, latest first. -/
def Ghost.reaps (g : Ghost) : List Nat := g.log.filterMap Event.reapedSerial

theorem Ghost.mem_exits {g : Ghost} {serial : Nat} :
    serial ∈ g.exits ↔ ∃ c, .exited serial c ∈ g.log := by
  unfold Ghost.exits
  rw [List.mem_filterMap]
  constructor
  · rintro ⟨e, he, hs⟩
    cases e with
    | exited s c =>
      cases hs
      exact ⟨c, he⟩
    | spawned _ _ _ => cases hs
    | reaped _ _ _ _ => cases hs
  · rintro ⟨c, hc⟩
    exact ⟨_, hc, rfl⟩

theorem Ghost.mem_reaps {g : Ghost} {serial : Nat} :
    serial ∈ g.reaps ↔ ∃ p w c, .reaped serial p w c ∈ g.log := by
  unfold Ghost.reaps
  rw [List.mem_filterMap]
  constructor
  · rintro ⟨e, he, hs⟩
    cases e with
    | reaped s p w c =>
      cases hs
      exact ⟨p, w, c, he⟩
    | spawned _ _ _ => cases hs
    | exited _ _ => cases hs
  · rintro ⟨p, w, c, hc⟩
    exact ⟨_, hc, rfl⟩

structure LogInv (k : KernelState) : Prop where
  exit_lt : ∀ s ∈ k.ghost.exits, s < k.ghost.next
  exit_once : k.ghost.exits.Nodup
  reap_once : k.ghost.reaps.Nodup
  reaped : ∀ s p w c, .reaped s p w c ∈ k.ghost.log → p = w ∧ .exited s c ∈ k.ghost.log
  living : ∀ t, (k.task t).state ≠ .empty → (k.task t).state ≠ .exited →
    k.ghost.serial t ∉ k.ghost.exits
  gone : ∀ t, (k.task t).state = .exited →
    .exited (k.ghost.serial t) (k.task t).exitCode ∈ k.ghost.log ∧
      k.ghost.serial t ∉ k.ghost.reaps

section Step

variable {k k' : KernelState} {a : Act}

/-- What was reaped has exited. -/
theorem LogInv.reaps_subset (h : LogInv k) {s : Nat} (hs : s ∈ k.ghost.reaps) :
    s ∈ k.ghost.exits := by
  obtain ⟨p, w, c, hm⟩ := Ghost.mem_reaps.mp hs
  exact Ghost.mem_exits.mpr ⟨c, (h.reaped s p w c hm).2⟩

theorem LogInv.step (hk : KernelOk k) (ht : TreeInv k) (h : LogInv k) (hs : FamilyStep k a k') :
    LogInv k' := by
  have hcur : (k.task k.current).state = .runnable := hk.queue.current_runnable
  cases hs with
  | same hrow hw hkont hghost =>
    have hexits : k'.ghost.exits = k.ghost.exits := congrArg (List.filterMap _) hghost.log
    have hreaps : k'.ghost.reaps = k.ghost.reaps := congrArg (List.filterMap _) hghost.log
    refine ⟨?_, ?_, ?_, ?_, fun t => ?_, fun t => ?_⟩
    · rw [hexits, hghost.next]
      exact h.exit_lt
    · rw [hexits]
      exact h.exit_once
    · rw [hreaps]
      exact h.reap_once
    · rw [hghost.log]
      exact h.reaped
    · rw [(hrow t).state, hexits, hghost.serial]
      exact h.living t
    · rw [(hrow t).state, (hrow t).exitCode, hreaps, hghost.serial, hghost.log]
      exact h.gone t
  | @spawn t img hempty hrow hstate hp hkont hghost =>
    have hexits : k'.ghost.exits = k.ghost.exits := by rw [hghost]; rfl
    have hreaps : k'.ghost.reaps = k.ghost.reaps := by rw [hghost]; rfl
    have hlog : k'.ghost.log = .spawned k.ghost.next t k.current :: k.ghost.log := by
      rw [hghost]
      rfl
    have hnext : k'.ghost.next = k.ghost.next + 1 := by rw [hghost]; rfl
    have hser : ∀ u, u ≠ t → k'.ghost.serial u = k.ghost.serial u := by
      intro u hu
      rw [hghost]
      exact Function.update_of_ne hu _ _
    refine ⟨fun s hs => ?_, hexits ▸ h.exit_once, hreaps ▸ h.reap_once, fun s p w c hm => ?_,
      fun u h1 h2 => ?_, fun u hu => ?_⟩
    · rw [hexits] at hs
      have := h.exit_lt s hs
      omega
    · rw [hlog] at hm ⊢
      rcases List.mem_cons.mp hm with hm | hm
      · cases hm
      · exact ⟨(h.reaped s p w c hm).1, List.mem_cons_of_mem _ (h.reaped s p w c hm).2⟩
    · rw [hexits]
      by_cases hut : u = t
      · -- the new number is above all that exited
        intro hm
        have hnew : k'.ghost.serial u = k.ghost.next := by
          rw [hghost, hut]
          exact Function.update_self _ _ _
        rw [hnew] at hm
        exact absurd (h.exit_lt _ hm) (lt_irrefl _)
      · rw [hrow u hut] at h1 h2
        rw [hser u hut]
        exact h.living u h1 h2
    · have hut : u ≠ t := by
        rintro rfl
        exact absurd (hstate.symm.trans hu) (by decide)
      rw [hrow u hut] at hu ⊢
      rw [hser u hut, hlog, hreaps]
      exact ⟨List.mem_cons_of_mem _ (h.gone u hu).1, (h.gone u hu).2⟩
  | @exit exitCode regs ha hc hrow hkont hghost =>
    have hser : k'.ghost.serial = k.ghost.serial := by rw [hghost]; rfl
    have hexits : k'.ghost.exits = k.ghost.serial k.current :: k.ghost.exits := by
      rw [hghost]
      rfl
    have hreaps : k'.ghost.reaps = k.ghost.reaps := by rw [hghost]; rfl
    have hlog : k'.ghost.log = .exited (k.ghost.serial k.current) exitCode :: k.ghost.log := by
      rw [hghost]
      rfl
    have hnext : k'.ghost.next = k.ghost.next := by rw [hghost]; rfl
    have hcur' : (k.task k.current).state ≠ .empty ∧ (k.task k.current).state ≠ .exited := by
      rw [hcur]
      decide
    have hfresh := h.living k.current hcur'.1 hcur'.2
    have hstate : ∀ t, (k'.task t).state =
        if t = k.current then .exited else (k.task t).state := by
      intro t
      rw [hrow, exitCurrent_task]
      rfl
    have hcode : ∀ t, (k'.task t).exitCode =
        if t = k.current then exitCode else (k.task t).exitCode := by
      intro t
      rw [hrow, exitCurrent_row]
      rfl
    refine ⟨fun s hs => ?_, ?_, hreaps ▸ h.reap_once, fun s p w c hm => ?_, fun t h1 h2 => ?_,
      fun t hx => ?_⟩
    · rw [hexits] at hs
      rw [hnext]
      rcases List.mem_cons.mp hs with rfl | hs
      · exact ht.serial_lt _ hcur'.1
      · exact h.exit_lt s hs
    · rw [hexits]
      exact List.nodup_cons.mpr ⟨hfresh, h.exit_once⟩
    · rw [hlog] at hm ⊢
      rcases List.mem_cons.mp hm with hm | hm
      · cases hm
      · exact ⟨(h.reaped s p w c hm).1, List.mem_cons_of_mem _ (h.reaped s p w c hm).2⟩
    · rw [hstate] at h1 h2
      split_ifs at h1 h2 with htc
      · exact absurd rfl h2
      · rw [hser, hexits, List.mem_cons, not_or]
        exact ⟨fun he => htc (ht.serial_inj t _ h1 hcur'.1 he), h.living t h1 h2⟩
    · rw [hser, hlog, hcode, hreaps]
      rw [hstate] at hx
      by_cases htc : t = k.current
      · rw [htc, if_pos rfl]
        exact ⟨List.mem_cons_self .., fun hm => hfresh (h.reaps_subset hm)⟩
      · rw [if_neg htc] at hx ⊢
        exact ⟨List.mem_cons_of_mem _ (h.gone t hx).1, (h.gone t hx).2⟩
  | @reap wait t hw htarget hrow hkont hghost =>
    have hx : (k.task t).state = .exited := waitTarget_exited htarget
    have hne : (k.task t).state ≠ .empty := by
      rw [hx]
      decide
    have hser : k'.ghost.serial = k.ghost.serial := by rw [hghost]; rfl
    have hexits : k'.ghost.exits = k.ghost.exits := by rw [hghost]; rfl
    have hreaps : k'.ghost.reaps = k.ghost.serial t :: k.ghost.reaps := by rw [hghost]; rfl
    have hlog : k'.ghost.log = .reaped (k.ghost.serial t) (k.task t).parentPid k.current
        (k.task t).exitCode :: k.ghost.log := by rw [hghost]; rfl
    have hnext : k'.ghost.next = k.ghost.next := by rw [hghost]; rfl
    have hof : ∀ u, (k'.task u).state ≠ .empty → u ≠ t ∧ k'.task u = k.task u := by
      intro u hu
      rw [hrow] at hu ⊢
      split_ifs at hu ⊢ with hut
      · exact absurd rfl hu
      · exact ⟨hut, rfl⟩
    refine ⟨by rw [hexits, hnext]; exact h.exit_lt, hexits ▸ h.exit_once, ?_, fun s p w c hm => ?_,
      fun u h1 h2 => ?_, fun u hu => ?_⟩
    · rw [hreaps]
      exact List.nodup_cons.mpr ⟨(h.gone t hx).2, h.reap_once⟩
    · rw [hlog] at hm ⊢
      rcases List.mem_cons.mp hm with hm | hm
      · cases hm
        exact ⟨ht.target_parent hw htarget, List.mem_cons_of_mem _ (h.gone t hx).1⟩
      · exact ⟨(h.reaped s p w c hm).1, List.mem_cons_of_mem _ (h.reaped s p w c hm).2⟩
    · have hrow' := (hof u h1).2
      rw [hrow'] at h1 h2
      rw [hser, hexits]
      exact h.living u h1 h2
    · obtain ⟨hut, hrow'⟩ := hof u (by rw [hu]; decide)
      rw [hrow'] at hu ⊢
      rw [hser, hlog, hreaps, List.mem_cons (l := k.ghost.reaps), not_or]
      refine ⟨List.mem_cons_of_mem _ (h.gone u hu).1, fun he => hut ?_, (h.gone u hu).2⟩
      exact ht.serial_inj u t (by rw [hu]; decide) hne he

/-- Task 1 does not exit in this step. -/
def TaskOneStays (k : KernelState) (a : Act) : Prop := ¬ (k.current = 1 ∧ ∃ c r, a = .exit c r)

theorem TreeInv.step (hk : KernelOk k) (h : TreeInv k) (hp : TaskOneStays k a) (hs : FamilyStep k a k') : TreeInv k' := by
  cases hs with
  | same hrow hw hkont hghost => exact h.same hrow hw hkont hghost
  | spawn ht hrow hs hp hkont hghost => exact h.spawn hk ht hrow hs hp hkont hghost
  | @exit exitCode regs ha hc hrow hkont hghost =>
    exact h.exit hk hc (fun h1 => hp ⟨h1, exitCode, regs, ha⟩) hrow hkont hghost
  | reap hw ht hrow hkont hghost => exact h.reap hw ht hrow hkont hghost

end Step

/-! ## Boot -/

theorem Booted.treeInv {M : Machine} {k : KernelState} (h : Booted M k) :
    TreeInv k ∧ LogInv k := by
  obtain ⟨row0, row1, hrows, htask⟩ := h.rows
  obtain ⟨c0, s0, f0, h0⟩ := hrows.row0
  obtain ⟨c1, s1, f1, h1⟩ := hrows.row1
  have hrow : ∀ t, k.task t = if t = 0 then row0 else if t = 1 then row1 else clearTask := by
    intro t
    unfold KernelState.task
    rw [htask]
    rfl
  have hser : ∀ t, k.ghost.serial t = t.val := by
    intro t
    rw [h.ghost]
    rfl
  have hlog : k.ghost.log = [] := by
    rw [h.ghost]
    rfl
  have hsmall : ∀ t, (k.task t).state ≠ .empty → t = 0 ∨ t = 1 := by
    intro t ht
    rw [hrow] at ht
    split_ifs at ht with ht0 ht1
    · exact Or.inl ht0
    · exact Or.inr ht1
    · exact absurd rfl ht
  have hrun : ∀ t, t = 0 ∨ t = 1 → (k.task t).state = .runnable ∧ (k.task t).parentPid = 0 := by
    rintro t (rfl | rfl)
    · rw [hrow, if_pos rfl, h0]
      exact ⟨rfl, rfl⟩
    · rw [hrow, if_neg (by decide), if_pos rfl, h1]
      exact ⟨rfl, rfl⟩
  refine ⟨⟨h.waits, (hrun 1 (Or.inr rfl)).1, hser 0, hser 1, fun t ht0 ht1 ht => ?_,
    fun t ht => ?_, fun t u _ _ he => ?_, fun t ht0 ht => ?_⟩, ?_, ?_, ?_, ?_, ?_, ?_⟩
  · rcases hsmall t ht with rfl | rfl
    · exact absurd rfl ht0
    · exact absurd rfl ht1
  · have hnext : k.ghost.next = 8 := by rw [h.ghost]; rfl
    rw [hser, hnext]
    exact t.isLt
  · rw [hser, hser] at he
    exact Fin.ext he
  · have ht1 : t = 1 := (hsmall t ht).resolve_left ht0
    subst ht1
    rw [(hrun 1 (Or.inr rfl)).2, (hrun 0 (Or.inl rfl)).1, hser, hser]
    decide
  · unfold Ghost.exits
    rw [hlog]
    exact fun s hs => absurd hs (List.not_mem_nil)
  · unfold Ghost.exits
    rw [hlog]
    exact List.nodup_nil
  · unfold Ghost.reaps
    rw [hlog]
    exact List.nodup_nil
  · rw [hlog]
    exact fun s p w c hm => absurd hm (List.not_mem_nil)
  · unfold Ghost.exits
    rw [hlog]
    exact fun t _ _ => List.not_mem_nil
  · intro t ht
    have := (hrun t (hsmall t (by rw [ht]; decide))).1
    exact absurd (this.symm.trans ht) (by decide)

theorem ReachableBy.tree {M : Machine} {k : KernelState} (h : ReachableBy M TaskOneStays k) :
    KernelOk k ∧ TreeInv k ∧ LogInv k := by
  refine ⟨h.kernelOk, h.effects (I := fun k => TreeInv k ∧ LogInv k) (fun _ hb => hb.treeInv) ?_⟩
  rintro k a k' hk hp he ⟨ht, hl⟩
  have hfam := he.family hk
  exact ⟨ht.step hk hp hfam, hl.step hk ht hfam⟩

/-! ## Waiting -/

section Wait

variable {k k' : KernelState}

theorem reapTask_returns {t : TaskId} {r : Int} (h : reapTask k t = .ok (r, k')) :
    k'.ghost.log =
      .reaped (k.ghost.serial t) (k.task t).parentPid k.current r :: k.ghost.log := by
  unfold reapTask at h
  obtain ⟨phys, -, h⟩ := bind_eq_ok.mp h
  obtain ⟨vfs, -, h⟩ := bind_eq_ok.mp h
  cases h
  rfl

/-- A round that ends a wait returns the status it logged. -/
theorem TreeInv.waitRound_returns (ht : TreeInv k) {wait : Kont} (hw : WaitOk k wait) {regs : Ctx}
    {r : Int} (h : waitRound k wait (waitTarget k wait) regs = .ok (some r, k')) :
    ∃ s, k'.ghost.log = .reaped s k.current k.current r :: k.ghost.log := by
  unfold waitRound at h
  cases htarget : waitTarget k wait with
  | some t =>
    rw [htarget] at h
    obtain ⟨⟨status, k₁⟩, hr, h⟩ := bind_eq_ok.mp h
    cases h
    have hp := ht.target_parent hw htarget
    have hlog := reapTask_returns hr
    rw [hp] at hlog
    exact ⟨_, hlog⟩
  | none =>
    rw [htarget] at h
    obtain ⟨k₁, -, h⟩ := bind_eq_ok.mp h
    cases h

theorem TreeInv.schedulerWaitpid_returns (ht : TreeInv k) {taskId : Int} {regs : Ctx} {r : Int}
    (h : schedulerWaitpid k taskId regs = .ok (some r, k')) :
    (r = -1 ∧ k' = k) ∨ ∃ s, k'.ghost.log = .reaped s k.current k.current r :: k.ghost.log := by
  unfold schedulerWaitpid at h
  dsimp only at h
  split_ifs at h with h1 h2 h3 h4 h5 h6 h7
  · cases h
    exact Or.inl ⟨rfl, rfl⟩
  · cases h
    exact Or.inl ⟨rfl, rfl⟩
  · cases h
    exact Or.inl ⟨rfl, rfl⟩
  · exact Or.inr (ht.waitRound_returns .any h)
  · cases h
    exact Or.inl ⟨rfl, rfl⟩
  · cases h
    exact Or.inl ⟨rfl, rfl⟩
  · exact Or.inr (ht.waitRound_returns (.target h6 (not_not.mp h7)) h)

theorem TreeInv.resumeCurrent_returns (ht : TreeInv k) {regs : Ctx} {r : Int}
    (h : resumeCurrent k regs = .ok (some r, k')) :
    ∃ s, k'.ghost.log = .reaped s k.current k.current r :: k.ghost.log := by
  have hround : waitRound k (k.kont k.current) (waitTarget k (k.kont k.current)) regs =
      .ok (some r, k') → ∃ s, k'.ghost.log = .reaped s k.current k.current r :: k.ghost.log :=
    ht.waitRound_returns .same
  unfold resumeCurrent at h
  cases hkont : k.kont k.current with
  | run =>
    rw [hkont] at h
    cases h
  | dead =>
    rw [hkont] at h
    cases h
  | waitAny =>
    rw [hkont] at h hround
    exact hround h
  | waitFor t serial =>
    rw [hkont] at h hround
    exact hround h

theorem schedulerExitCurrentTask_log {exitCode : Int} {regs : Ctx}
    (h : schedulerExitCurrentTask k exitCode regs = .ok k') :
    k'.ghost.log = .exited (k.ghost.serial k.current) exitCode :: k.ghost.log := by
  unfold schedulerExitCurrentTask at h
  dsimp only at h
  split_ifs at h
  obtain ⟨⟨next, sched⟩, -, h⟩ := bind_eq_ok.mp h
  dsimp only at h
  split_ifs at h with hn
  cases h
  unfold schedulerSwitchToTask
  rw [if_neg hn]
  rfl

end Wait

/-! ## The process tree -/

/-- The chain of parents of a task ends at task 0. -/
theorem TreeInv.reaches_root {k : KernelState} (h : TreeInv k) (n : Nat) {t : TaskId}
    (hn : k.ghost.serial t = n) (ht : (k.task t).state ≠ .empty) :
    ∃ i, (fun t => (k.task t).parentPid)^[i] t = 0 := by
  induction n using Nat.strong_induction_on generalizing t with
  | _ n ih =>
    by_cases h0 : t = 0
    · exact ⟨0, h0⟩
    · obtain ⟨p1, -, p3⟩ := h.parent t h0 ht
      obtain ⟨i, hi⟩ := ih _ (hn ▸ p3) rfl p1
      exact ⟨i + 1, hi⟩

/-- The process tree of a state, with the history of exits and waits behind it. -/
structure ProcessTree (k : KernelState) : Prop where
  parent : ∀ t, t ≠ 0 → (k.task t).state ≠ .empty →
    (k.task (k.task t).parentPid).state ≠ .empty ∧ (k.task (k.task t).parentPid).state ≠ .exited
  root : ∀ t, (k.task t).state ≠ .empty → ∃ i, (fun t => (k.task t).parentPid)^[i] t = 0
  /-- No task exits twice, and none is reaped twice. -/
  once : k.ghost.exits.Nodup ∧ k.ghost.reaps.Nodup
  /-- The waiter was the parent, and the status is the code of the exit. -/
  reaped : ∀ s p w c, .reaped s p w c ∈ k.ghost.log → p = w ∧ .exited s c ∈ k.ghost.log
  /-- The slot somebody waits for still holds the child it was called for. -/
  blocked : ∀ w t s, k.kont w = .waitFor t s →
    (k.task t).state ≠ .empty ∧ (k.task t).parentPid = w ∧ k.ghost.serial t = s
  /-- What the calls return is what the log says. -/
  waitpid : ∀ taskId regs r k', schedulerWaitpid k taskId regs = .ok (some r, k') →
    (r = -1 ∧ k' = k) ∨ ∃ s, k'.ghost.log = .reaped s k.current k.current r :: k.ghost.log
  resume : ∀ regs r k', resumeCurrent k regs = .ok (some r, k') →
    ∃ s, k'.ghost.log = .reaped s k.current k.current r :: k.ghost.log
  exit : ∀ exitCode regs k', schedulerExitCurrentTask k exitCode regs = .ok k' →
    k'.ghost.log = .exited (k.ghost.serial k.current) exitCode :: k.ghost.log

/-- The process tree in every state of every run in which task 1 does not exit. -/
theorem process_tree_sound (M : Machine) (k : KernelState) (h : ReachableBy M TaskOneStays k) :
    ProcessTree k := by
  obtain ⟨-, ht, hl⟩ := h.tree
  exact {
    parent := fun t h0 hne => ⟨(ht.parent t h0 hne).1, (ht.parent t h0 hne).2.1⟩
    root := fun t hne => ht.reaches_root _ rfl hne
    once := ⟨hl.exit_once, hl.reap_once⟩
    reaped := hl.reaped
    blocked := ht.waits
    waitpid := fun _ _ _ _ hw => ht.schedulerWaitpid_returns hw
    resume := fun _ _ _ hr => ht.resumeCurrent_returns hr
    exit := fun _ _ _ he => schedulerExitCurrentTask_log he }

theorem process_tree_sound_small : ∃ k, ReachableBy smallMachine TaskOneStays k ∧
    IsUser (k.task k.current) ∧ ProcessTree k := by
  obtain ⟨k₀, hboot, hb⟩ := boot_ok smallMachine_boots
  have hspawn : ∀ k img argv envp, TaskOneStays k (.spawn img argv envp) := by
    rintro k img argv envp ⟨-, c, r, hc⟩
    cases hc
  have hyield : ∀ k regs, TaskOneStays k (.yield regs) := by
    rintro k regs ⟨-, c, r, hc⟩
    cases hc
  obtain ⟨k, hr, hs⟩ := started_by hspawn hyield rfl hboot hb.room_small
  exact ⟨k, hr, hs.user, process_tree_sound smallMachine k hr⟩

end PcoOs.Kernel
