/-
  What processes cannot do to each other. A step of one process leaves every other one as it is,
  its open files included, as long as no two hold a handle together (`OsStep.others`). The kernel
  sees to that, so it holds over whole runs (`process_private`): only its parent can change while a
  process does not run.
-/
import PcoOs.Kernel.OsRefines

namespace PcoOs.Kernel

open PcoOs.Lib PcoOs.Elf PcoOs.Image PcoOs.Sched PcoOs.Vfs PcoOs.Syscall

/-! ## Handles -/

/-- Open handles stay as they are, unless they are among `own`. -/
def KeepsHandles (own : Nat → Prop) (s s' : FileSystem) : Prop :=
  ∀ id, s.handle id ≠ .closed → ¬ own id → s'.handle id = s.handle id

theorem KeepsHandles.refl (own : Nat → Prop) (s : FileSystem) : KeepsHandles own s s :=
  fun _ _ _ => rfl

theorem KeepsHandles.trans {own : Nat → Prop} {s s' s'' : FileSystem} (h : KeepsHandles own s s')
    (h' : KeepsHandles own s' s'') : KeepsHandles own s s'' := by
  intro id hopen hown
  have hsame := h id hopen hown
  rw [h' id (hsame ▸ hopen) hown, hsame]

theorem KeepsHandles.mono {own own' : Nat → Prop} {s s' : FileSystem} (h : KeepsHandles own s s')
    (hle : ∀ id, own id → own' id) : KeepsHandles own' s s' :=
  fun id hopen hown => h id hopen (mt (hle id) hown)

/-- Setting a handle that is one's own, or closed. -/
theorem keepsHandles_set {own : Nat → Prop} {s : FileSystem} {id : Nat} (x : Handle)
    (h : own id ∨ s.handle id = .closed) : KeepsHandles own s (s.setHandle id x) := by
  intro j hopen hown
  refine Function.update_of_ne ?_ ..
  rintro rfl
  obtain h | h := h
  · exact hown h
  · exact hopen h

theorem keepsHandles_hand (own : Nat → Prop) (s : FileSystem) (x : Handle) :
    KeepsHandles own s (s.hand x).2 := by
  obtain ⟨-, hsame⟩ | ⟨-, hclosed, hset⟩ := s.hand_cases x
  · rw [hsame]
    exact .refl _ _
  · rw [hset]
    exact keepsHandles_set x (Or.inr hclosed)

/-- An open hands out a handle that was closed. -/
theorem openPath_keeps {s s' : FileSystem} {path : Bytes} {flags : Int} {r : Reply}
    (h : s.openPath path flags = .ok (r, s')) :
    KeepsHandles (fun _ => False) s s' ∧
      (r.value.toNat ≠ 0 → s.handle r.value.toNat = .closed) := by
  obtain ⟨hr, hs⟩ | ⟨s₁, x, hsame, hhand⟩ := s.openPath_cases h
  · rw [hr, hs]
    exact ⟨.refl _ _, fun h0 => absurd rfl h0⟩
  · have hr : (s₁.hand x).1 = r := congrArg Prod.fst hhand
    have hs : (s₁.hand x).2 = s' := congrArg Prod.snd hhand
    have hkeeps := keepsHandles_hand (fun _ => False) s₁ x
    unfold KeepsHandles at hkeeps
    rw [hsame, hs] at hkeeps
    refine ⟨hkeeps, fun h0 => ?_⟩
    obtain ⟨hzero, -⟩ | ⟨-, hclosed, -⟩ := s₁.hand_cases x
    · rw [hr] at hzero
      rw [hzero] at h0
      exact absurd rfl h0
    · rw [hr, hsame] at hclosed
      exact hclosed

/-- The handle a call is about. -/
def handleOfCall : VfsCall → Nat
  | .write id _ | .read id _ _ | .readdir id _ | .stat id | .close id => id
  | _ => 0

theorem fileSystem_call_keeps {s s' : FileSystem} {c : VfsCall} {r : Reply}
    (h : s.call c = .ok (r, s')) : KeepsHandles (fun id => id = handleOfCall c) s s' := by
  have hon : ∀ id (f : Handle → Reply × FileSystem), id = handleOfCall c →
      (∀ x, KeepsHandles (fun j => j = id) s (f x).2) →
      s.onHandle id f = .ok (r, s') → KeepsHandles (fun j => j = handleOfCall c) s s' := by
    intro id f hid hf h
    unfold FileSystem.onHandle at h
    rw [← hid]
    split_ifs at h
    · cases h
      exact .refl _ _
    · have heq := congrArg Prod.snd (Except.ok.inj h)
      dsimp only at heq
      rw [← heq]
      exact hf _
  have hset : ∀ id x, KeepsHandles (fun j => j = id) s (s.setHandle id x) :=
    fun id x => keepsHandles_set x (Or.inl rfl)
  have hhand : ∀ x, (.ok (s.hand x) : Except String (Reply × FileSystem)) = .ok (r, s') →
      KeepsHandles (fun id => id = handleOfCall c) s s' := by
    intro x hx
    have heq := congrArg Prod.snd (Except.ok.inj hx)
    dsimp only at heq
    rw [← heq]
    exact keepsHandles_hand _ s x
  cases c with
  | openPath path flags => exact (openPath_keeps h).1.mono fun _ hf => hf.elim
  | write id bytes =>
    refine hon id _ rfl (fun x => ?_) h
    unfold FileSystem.write
    split
    · exact .refl _ _
    · unfold FileSystem.writeFile
      split
      · exact .refl _ _
      · split_ifs
        · exact .refl _ _
        · intro j _ hown
          exact Function.update_of_ne hown ..
    · exact .refl _ _
  | read id length input =>
    refine hon id _ rfl (fun x => ?_) h
    unfold FileSystem.read
    split
    · exact .refl _ _
    · exact hset id _
    · exact .refl _ _
  | readdir id length =>
    refine hon id _ rfl (fun x => ?_) h
    unfold FileSystem.readdir
    split
    · split
      · exact .refl _ _
      · exact hset id _
    · exact .refl _ _
  | stat id =>
    refine hon id _ rfl (fun x => ?_) h
    unfold FileSystem.stat
    split
    · exact .refl _ _
    · exact .refl _ _
    · exact .refl _ _
  | close id =>
    refine hon id _ rfl (fun x => ?_) h
    unfold FileSystem.close
    split
    · exact .refl _ _
    · exact hset id _
  | consoleIn => exact hhand _ h
  | consoleOut => exact hhand _ h
  | use size mem =>
    cases h
    exact .refl _ _

/-- The slots of a task, and the handle 0 of an empty one. -/
def SlotsOf (fds : Fin 4 → Nat) (id : Nat) : Prop := id = 0 ∨ ∃ fd, fds fd = id

theorem slotsOf_number (s : TaskFiles) (fd : Int) : SlotsOf s.fds (s.number fd) := by
  unfold TaskFiles.number
  cases TaskFiles.slot fd with
  | none => exact Or.inl rfl
  | some i => exact Or.inr ⟨i, rfl⟩

theorem taskFiles_call_keeps {s f : TaskFiles} {c : FileCall} {r : Int × Bytes}
    (h : s.call c = .ok (r, f)) : KeepsHandles (SlotsOf s.fds) s.system f.system := by
  have hask : ∀ (q : VfsCall) (bytes : Reply → Bytes), SlotsOf s.fds (handleOfCall q) →
      s.ask q bytes = .ok (r, f) → KeepsHandles (SlotsOf s.fds) s.system f.system := by
    intro q bytes hq h
    obtain ⟨⟨reply, s'⟩, hcall, h⟩ := bind_eq_ok.mp h
    have hf := congrArg Prod.snd (Except.ok.inj h)
    dsimp only at hf
    rw [← hf]
    refine (fileSystem_call_keeps hcall).mono fun id hid => ?_
    rw [hid]
    exact hq
  cases c with
  | write fd bytes => exact hask (.write (s.number fd) bytes) (fun _ => []) (slotsOf_number s fd) h
  | read fd length input => exact hask (.read (s.number fd) length input) _ (slotsOf_number s fd) h
  | fstat fd =>
    exact hask (.stat (s.number fd)) (fun r => r.words.flatMap wordBytes) (slotsOf_number s fd) h
  | readdir fd length => exact hask (.readdir (s.number fd) length) _ (slotsOf_number s fd) h
  | openPath path flags =>
    obtain ⟨⟨reply, s'⟩, hopen, h⟩ := bind_eq_ok.mp h
    obtain ⟨hkeeps, hclosed⟩ := openPath_keeps hopen
    have hkeeps : KeepsHandles (SlotsOf s.fds) s.system s' := hkeeps.mono fun _ hf => hf.elim
    have hf := congrArg Prod.snd (Except.ok.inj h)
    dsimp only at hf
    rw [← hf]
    unfold TaskFiles.install
    split_ifs with h0
    · exact hkeeps
    · cases hslot : s.freeSlot with
      | some fd => exact hkeeps
      | none =>
        intro id hopen hown
        have hne : id ≠ reply.value.toNat := by
          rintro rfl
          exact hopen (hclosed h0)
        exact (Function.update_of_ne hne ..).trans (hkeeps id hopen hown)
  | close fd =>
    replace h : s.close fd = .ok (r, f) := h
    unfold TaskFiles.close at h
    cases hslot : TaskFiles.slot fd with
    | none =>
      rw [hslot] at h
      cases h
      exact .refl _ _
    | some i =>
      rw [hslot] at h
      dsimp only at h
      by_cases h0 : s.fds i = 0
      · rw [if_pos h0] at h
        cases h
        exact .refl _ _
      · rw [if_neg h0] at h
        obtain ⟨⟨reply, s'⟩, hcall, h⟩ := bind_eq_ok.mp h
        have hkeeps : KeepsHandles (SlotsOf s.fds) s.system s' :=
          (fileSystem_call_keeps hcall).mono fun id hid => Or.inr ⟨i, hid.symm⟩
        dsimp only at h
        split_ifs at h
        · cases h
          exact hkeeps
        · cases h
          exact hkeeps

theorem closeAll_keeps (fds : Fin 4 → Nat) (s : FileSystem) :
    KeepsHandles (SlotsOf fds) s (OsState.closeAll fds s) := by
  have hone : ∀ (s : FileSystem) fd, KeepsHandles (SlotsOf fds) s
      (if fds fd ≠ 0 then s.setHandle (fds fd) .closed else s) := by
    intro s fd
    split_ifs
    · exact keepsHandles_set _ (Or.inl (Or.inr ⟨fd, rfl⟩))
    · exact .refl _ _
  unfold OsState.closeAll
  simp only [List.foldl_cons, List.foldl_nil]
  exact (hone _ 0).trans ((hone _ 1).trans ((hone _ 2).trans (hone _ 3)))

theorem standard_keeps {s : FileSystem} {r : (Fin 4 → Nat) × FileSystem}
    (h : OsState.standard s = some r) : KeepsHandles (fun _ => False) s r.2 := by
  unfold OsState.standard at h
  dsimp only at h
  split_ifs at h
  cases h
  exact (keepsHandles_hand _ _ _).trans ((keepsHandles_hand _ _ _).trans (keepsHandles_hand _ _ _))

/-! ## Steps of others -/

/-- The open files of process `u` are its own. -/
structure Separate (s : OsState) (u : TaskId) (p : Process) : Prop where
  live : ∀ fd, p.fds fd ≠ 0 → s.system.handle (p.fds fd) ≠ .closed
  apart : ∀ v q, v ≠ u → s.process v = some q → ∀ fd, ¬ SlotsOf q.fds (p.fds fd) ∨ p.fds fd = 0

/-- Process `u` is still `p`, but for its parent, and its open files are as they were. -/
def Undisturbed (s s' : OsState) (u : TaskId) (p : Process) : Prop :=
  (∃ parent, s'.process u = some { p with parent := parent }) ∧
    ∀ fd, p.fds fd ≠ 0 → s'.system.handle (p.fds fd) = s.system.handle (p.fds fd)

section Others

variable {wp : Bool} {s s' : OsState} {u : TaskId} {p : Process} {a : Act}

theorem Separate.handles (h : Separate s u p) {v : TaskId} {q : Process} (hv : v ≠ u)
    (hq : s.process v = some q) {f : FileSystem} (hf : KeepsHandles (SlotsOf q.fds) s.system f) :
    ∀ fd, p.fds fd ≠ 0 → f.handle (p.fds fd) = s.system.handle (p.fds fd) := by
  intro fd h0
  obtain hown | hz := h.apart v q hv hq fd
  · exact hf _ (h.live fd h0) hown
  · exact absurd hz h0

theorem Undisturbed.put (hp : s.process u = some p) (hsep : Separate s u p) (hu : u ≠ s.current)
    {q q' : Process} (hq : s.process s.current = some q) {f : TaskFiles}
    (hf : KeepsHandles (SlotsOf q.fds) s.system f.system) : Undisturbed s (s.put q' f) u p := by
  refine ⟨⟨p.parent, ?_⟩, hsep.handles hu.symm hq hf⟩
  exact (Function.update_of_ne hu ..).trans hp

/-- A step of one process leaves the others as they are. -/
theorem OsStep.others (h : OsStep wp s a s') (hu : u ≠ s.current) (hp : s.process u = some p)
    (hsep : Separate s u p) (hkeep : s'.process u ≠ none) : Undisturbed s s' u p := by
  have hsame : Undisturbed s s u p := ⟨⟨p.parent, hp⟩, fun _ _ => rfl⟩
  cases h with
  | stay ha => exact hsame
  | switch ha hn hs => exact ⟨⟨p.parent, hp⟩, fun _ _ => rfl⟩
  | kernelCall hq hr => exact .put hp hsep hu hq (taskFiles_call_keeps hr)
  | @userCall q prog c r s' hq hprog hr =>
    unfold OsState.call at hr
    by_cases hno : ¬ prog.Permits c
    · rw [if_pos hno] at hr
      rw [← (Prod.mk.inj (Except.ok.inj hr)).2]
      exact hsame
    · rw [if_neg hno] at hr
      obtain ⟨⟨x, f⟩, hcall, hr⟩ := bind_eq_ok.mp hr
      split_ifs at hr
      rw [← (Prod.mk.inj (Except.ok.inj hr)).2]
      exact .put hp hsep hu hq (taskFiles_call_keeps hcall)
  | userStore hq hprog hx => exact .put hp hsep hu hq (.refl _ _)
  | brk hq hprog hlo hhi => exact .put hp hsep hu hq (.refl _ _)
  | exec hq hprog hv hstart => exact .put hp hsep hu hq (.refl _ _)
  | @spawn t img argv envp q r ht hv hq hr =>
    have htu : u ≠ t := by
      rintro rfl
      rw [ht] at hp
      cases hp
    refine ⟨⟨p.parent, (Function.update_of_ne htu ..).trans hp⟩, fun fd h0 => ?_⟩
    exact standard_keeps hr _ (hsep.live fd h0) id
  | @exit status regs next n h0 hne hn hs =>
    refine ⟨⟨(OsState.adopt s.current p).parent, ?_⟩, fun _ _ => rfl⟩
    unfold OsState.exit
    dsimp only
    rw [hp, Option.map_some, if_neg hu, OsState.adopt_parent]
  | @reap _ t q status ha hq hc hs =>
    have htu : u ≠ t := by
      rintro rfl
      exact hkeep (Function.update_self ..)
    refine ⟨⟨p.parent, (Function.update_of_ne htu ..).trans hp⟩, ?_⟩
    exact hsep.handles htu.symm hq (closeAll_keeps _ _)

end Others

/-! ## Runs -/

section Runs

variable {M : Machine} {k k' : KernelState} {u : TaskId}

/-- No descriptor of the kernel is in two slots. -/
theorem FdInv.separate (h : FdInv M k) :
    Separate (osOf k) u (processOf k.phys.mem (k.task u)) := by
  constructor
  · intro fd h0
    have hlive := h.owns.held_live (u, fd) h0
    exact mt handleOf_closed.mp (mem_openDescs.mp hlive).2
  · intro v q hv hq fd
    by_cases h0 : (k.task u).fds fd = 0
    · exact Or.inr h0
    refine Or.inl fun hin => ?_
    obtain hz | ⟨fd', he⟩ := hin
    · exact h0 hz
    · have hfds : q.fds = (k.task v).fds := by
        unfold osOf at hq
        dsimp only at hq
        split_ifs at hq
        rw [← Option.some.inj hq]
        rfl
      rw [hfds] at he
      exact hv (congrArg Prod.fst (h.owns.inj (u, fd) (v, fd') h0 he.symm)).symm

/-- While a process does not run, its program, its memory, its descriptors and what they stand for
    stay as they are, and so does its status. -/
theorem process_private (hM : M.FilesReady) (hr : Reachable M k) (hu : (k.task u).state ≠ .empty)
    (haway : Away u k k') :
    ∃ p, (osOf k).process u = some p ∧ Undisturbed (osOf k) (osOf k') u p := by
  refine ⟨processOf k.phys.mem (k.task u), if_neg hu, ?_⟩
  suffices h : Reachable M k' ∧ (k'.task u).state ≠ .empty ∧
      Undisturbed (osOf k) (osOf k') u (processOf k.phys.mem (k.task u)) from h.2.2
  induction haway with
  | refl => exact ⟨hr, hu, ⟨⟨_, if_neg hu⟩, fun _ _ => rfl⟩⟩
  | @step k₁ k₂ a _ hc he ha hkeep ih =>
    obtain ⟨hr₁, hu₁, ⟨parent, hp₁⟩, hhandles₁⟩ := ih
    have hp : (osOf k₁).process u = some (processOf k₁.phys.mem (k₁.task u)) := if_neg hu₁
    have heq := Option.some.inj (hp.symm.trans hp₁)
    have hthere : (osOf k₂).process u ≠ none := by
      unfold osOf
      dsimp only
      rw [if_neg hkeep]
      exact Option.some_ne_none _
    obtain ⟨⟨parent', hp₂⟩, hhandles₂⟩ := (act_refines hM hr₁ he ha).others (Ne.symm hc) hp
      hr₁.fdInv.separate hthere
    rw [heq] at hp₂ hhandles₂
    refine ⟨hr₁.step trivial he ha, hkeep, ⟨parent', hp₂⟩, fun fd h0 => ?_⟩
    rw [hhandles₂ fd h0, hhandles₁ fd h0]

end Runs

/-- The idle task while the first one closes its standard input. -/
theorem process_private_hello : ∃ M k k', M.FilesReady ∧ Reachable M k ∧
    act k (.kernelCall (.close 0)) = .ok k' ∧ Away 0 k k' ∧
    ∃ p, (osOf k).process 0 = some p ∧ Undisturbed (osOf k) (osOf k') 0 p := by
  obtain ⟨M, hM⟩ := exists_helloMachine
  obtain ⟨k, hboot, hb⟩ := boot_ok hM.boots
  have hr : Reachable M k := .boot hboot
  obtain ⟨hcur, -⟩ := hb.start hM.picks
  have hmode : (k.task k.current).mode = .kernel := by
    obtain ⟨row0, row1, hrows, htask⟩ := hb.rows
    obtain ⟨ctx, stack, fds, hrow⟩ := hrows.row1
    unfold KernelState.task
    rw [htask, hcur]
    show row1.mode = .kernel
    rw [hrow]
    rfl
  have he : Enabled k (.kernelCall (.close 0)) := by
    refine ⟨?_, hmode⟩
    unfold Running
    rw [hb.kont]
  obtain ⟨r, k', hclose⟩ := fileCall_close hr.fdInv 0
  have ha : act k (.kernelCall (.close 0)) = .ok k' := by
    dsimp only [act]
    rw [hclose]
    rfl
  have hthere : ∀ {q}, Reachable M q → (q.task 0).state ≠ .empty := by
    intro q hq
    have hidle := hq.kernelOk.queue.idle_runnable
    unfold KernelState.task
    rw [hidle]
    decide
  have haway : Away 0 k k' := by
    refine Away.refl.step ?_ he ha (hthere (hr.step trivial he ha))
    rw [hcur]
    decide
  exact ⟨M, k, k', hM.files, hr, ha, haway, process_private hM.files hr (hthere hr) haway⟩

end PcoOs.Kernel
