/-
  System calls of programs. `osOf k` is the kernel as its programs see it. A file call of a program
  answers, and changes its memory, the files and its descriptors, as `OsState.call` says of that
  view, or runs out of the kernel's heap (`user_call_answers`). The pointer check is `Program.Owns`,
  the pages of the buffer are found through the page tables of the program, and no other page is
  written.
-/
import PcoOs.Kernel.Dispatch
import PcoOs.Kernel.Os

namespace PcoOs.Kernel

open PcoOs.Lib PcoOs.Pmm PcoOs.Support PcoOs.Vmm PcoOs.Elf PcoOs.Image PcoOs.Sched PcoOs.Vfs
  PcoOs.Syscall

/-! ## The view -/

def programOf (m : Mem) (row : Task) : Program where
  memory := fun virt => if virt < 2 ^ 48 then userView m row.cr3 virt else none
  pages := row.userPages.length
  heapBreak := row.heapBreak

def processOf (m : Mem) (row : Task) : Process where
  parent := row.parentPid
  status := if row.state = .exited then some row.exitCode else none
  fds := row.fds
  program := if row.mode = .user then some (programOf m row) else none

def osOf (k : KernelState) : OsState where
  system := view k.vfs
  process := fun t => if (k.task t).state = .empty then none else some (processOf k.phys.mem (k.task t))
  current := k.current

theorem osOf_files (k : KernelState) (m : Mem) :
    (osOf k).files (processOf m (k.task k.current)) = files k := rfl

theorem osOf_current {k : KernelState} (hk : KernelOk k) :
    (osOf k).process (osOf k).current = some (processOf k.phys.mem (k.task k.current)) :=
  if_neg hk.current_present

/-! ## Buffers -/

section Buffers

variable {P : Pool} {k : KernelState} {sk : Shape} {S : TaskId → Shape}

/-- The pointer check. -/
theorem MemInv.owns_iff (hk : KernelOk k) (h : MemInv P k sk S) (hu : IsUser (k.task k.current))
    (m : Mem) {ptr length : Int} (hp : IsInt64 ptr) (hl : IsInt64 length) :
    (programOf m (k.task k.current)).Owns ptr length ↔
      syscallValidateUserBuffer (k.task k.current) ptr length = true := by
  have hs := h.user _ hu
  have hbase := hk.base _ hu.2
  have hlayout := hs.layout hbase
  have hlen := hs.fits.length.2
  have hareas : (programOf m (k.task k.current)).Owns ptr length ↔
      0 ≤ length ∧ InOneArea (k.task k.current) ptr length := by
    unfold Program.Owns InOneArea Program.heapBase Program.heapLimit Program.limit programOf
    rw [hbase, hs.heapBase, hs.heapLimit, hs.limit]
  rw [hareas]
  constructor
  · intro hin
    have hlim := hs.limit
    refine syscallValidateUserBuffer_complete hlayout hbase ?_ hin.1 hin.2
    unfold userTaskRegionBase userPageSize at hlim
    omega
  · intro hv
    obtain ⟨hlo, h0, hhi, hw⟩ := syscallValidateUserBuffer_range hp hl hv
    refine ⟨h0, ?_⟩
    unfold syscallValidateUserBuffer at hv
    dsimp only at hv
    rw [hw] at hv
    unfold InOneArea
    split_ifs at hv with h1 h2 h3 h4 h5 h6 h7
    · exact Or.inl ⟨hlo, h6⟩
    · exact Or.inr (Or.inr ⟨h7, hhi⟩)
    · exact Or.inr (Or.inl (of_decide_eq_true hv))

theorem MemInv.permits_iff (hk : KernelOk k) (h : MemInv P k sk S) (hu : IsUser (k.task k.current))
    (m : Mem) {c : UserCall} (hreg : c.InRegisters) :
    (programOf m (k.task k.current)).Permits c ↔ c.accepted (k.task k.current) = true := by
  unfold Program.Permits UserCall.accepted
  cases hb : c.buffer with
  | none => simp
  | some b =>
    have hin := hreg b hb
    simp only [Option.mem_def, Option.some.injEq, forall_eq']
    exact h.owns_iff hk hu m hin.1 hin.2

/-- Where the byte at an address of the program lies. -/
def frameByte (row : Task) (virt : Nat) : Nat := row.userPages.getD (pageIndex virt) 0 + virt % 4096

theorem MemInv.memory_eq (h : MemInv P k sk S) (hu : IsUser (k.task k.current)) {m : Mem}
    (hm : OnlyPages ((k.task k.current).userPages : Multiset Nat) k.phys.mem m) {virt : Nat}
    (hlo : userTaskRegionBase ≤ virt) (hhi : (virt : Int) < (k.task k.current).userLimit) :
    pageIndex virt < (k.task k.current).userPages.length ∧
    (programOf m (k.task k.current)).memory virt = some (m (frameByte (k.task k.current) virt),
      decide (userPageFlag (k.ghost.image k.current) (pageIndex virt) = 7)) := by
  have hs := (h.user _ hu).frame fun p hp =>
    h.samePage hu hm (Multiset.mem_add.mpr (Or.inl hp))
  have hl := hs.fits.length.2
  rw [hs.limit] at hhi
  unfold userTaskRegionBase at hlo
  unfold userTaskRegionBase userPageSize at hhi
  have hi : pageIndex virt < (k.task k.current).userPages.length := by
    unfold pageIndex windowPage
    omega
  have hwin : windowIndex virt = pageIndex virt := by
    unfold windowIndex pageIndex windowPage
    omega
  have hv : InWindow (k.task k.current) virt := by
    refine ⟨?_, hwin.symm ▸ hi⟩
    unfold windowPage
    omega
  refine ⟨hi, ?_⟩
  unfold programOf frameByte
  dsimp only
  rw [if_pos (by omega), hs.userView_inside (h.pages_aligned hu) hv, hwin]

theorem Program.load_succ (q : Program) (ptr n : Nat) :
    q.load ptr (n + 1) = ((q.memory ptr).map Prod.fst).getD 0 :: q.load (ptr + 1) n := by
  unfold Program.load
  rw [List.range_succ_eq_map, List.map_cons, List.map_map]
  congr 1
  apply List.map_congr_left
  intro i _
  dsimp only [Function.comp]
  rw [Nat.add_right_comm, Nat.add_assoc]

/-- What the kernel loads from a buffer is what the program has there. -/
theorem MemInv.load_eq (h : MemInv P k sk S) (hu : IsUser (k.task k.current)) (n : Nat)
    {virt : Nat} (hlo : userTaskRegionBase ≤ virt)
    (hhi : (virt + n : Int) ≤ (k.task k.current).userLimit) :
    loadUserBytes k.phys.mem k.phys.cr3 virt n =
      .ok ((programOf k.phys.mem (k.task k.current)).load virt n) := by
  induction n generalizing virt with
  | zero => rfl
  | succ n ih =>
    push_cast at hhi
    have hmem := (h.memory_eq hu (OnlyPages.refl _ _) hlo (by omega)).2
    have hbyte : loadUserByte k.phys.mem k.phys.cr3 virt =
        .ok (k.phys.mem (frameByte (k.task k.current) virt)) := by
      unfold programOf at hmem
      dsimp only at hmem
      rw [h.cr3]
      unfold loadUserByte
      split_ifs at hmem
      unfold userView at hmem
      cases hw : mmuWalk k.phys.mem (k.task k.current).cr3 (virt / 4096) with
      | none =>
        rw [hw] at hmem
        cases hmem
      | some a =>
        rw [hw] at hmem
        dsimp only at hmem ⊢
        split_ifs at hmem
        rw [(Prod.mk.inj (Option.some.inj hmem)).1]
    unfold loadUserBytes
    rw [hbyte, ok_bind, ih (by push_cast; omega) (by push_cast; omega), ok_bind, Program.load_succ,
      hmem]
    rfl

/-- Two addresses of a program lie in different bytes of memory. -/
theorem MemInv.frameByte_inj (h : MemInv P k sk S) (hu : IsUser (k.task k.current)) {x y : Nat}
    (hx : pageIndex x < (k.task k.current).userPages.length)
    (hy : pageIndex y < (k.task k.current).userPages.length)
    (hxlo : userTaskRegionBase ≤ x) (hylo : userTaskRegionBase ≤ y)
    (heq : frameByte (k.task k.current) x = frameByte (k.task k.current) y) : x = y := by
  have haligned : ∀ i < (k.task k.current).userPages.length,
      (k.task k.current).userPages.getD i 0 % 4096 = 0 := by
    intro i hi
    rw [List.getD_eq_getElem _ _ hi]
    exact h.pages_aligned hu _ (List.getElem_mem hi)
  obtain ⟨hpage, hoffset⟩ : (k.task k.current).userPages.getD (pageIndex x) 0 =
      (k.task k.current).userPages.getD (pageIndex y) 0 ∧ x % 4096 = y % 4096 := by
    have hax := haligned _ hx
    have hay := haligned _ hy
    unfold frameByte at heq
    clear hxlo hylo
    omega
  rw [List.getD_eq_getElem _ _ hx, List.getD_eq_getElem _ _ hy] at hpage
  have hindex := (h.userPages_nodup hu).getElem_inj_iff.mp hpage
  unfold userTaskRegionBase at hxlo hylo
  unfold pageIndex windowPage at hindex
  omega

theorem MemInv.store_eq (h : MemInv P k sk S) (hu : IsUser (k.task k.current)) {m : Mem}
    (hm : OnlyPages ((k.task k.current).userPages : Multiset Nat) k.phys.mem m) {virt : Nat}
    (hlo : userTaskRegionBase ≤ virt) (hhi : (virt : Int) < (k.task k.current).userLimit)
    (b : UInt8) :
    OnlyPages ((k.task k.current).userPages : Multiset Nat) k.phys.mem
      (storeByte m (frameByte (k.task k.current) virt) b) ∧
    programOf (storeByte m (frameByte (k.task k.current) virt) b) (k.task k.current) =
      (programOf m (k.task k.current)).store virt [b] := by
  have hvirt := (h.memory_eq hu hm hlo hhi).1
  have honly : OnlyPages ((k.task k.current).userPages : Multiset Nat) k.phys.mem
      (storeByte m (frameByte (k.task k.current) virt) b) := by
    refine hm.trans ((onlyPages_storeByte m (Nat.mod_lt virt (by norm_num))).mono fun p hp => ?_)
    rw [Multiset.mem_singleton.mp hp, List.getD_eq_getElem _ _ hvirt]
    exact Multiset.mem_coe.mpr (List.getElem_mem hvirt)
  refine ⟨honly, ?_⟩
  have hs := h.user _ hu
  have hlim := hs.limit
  have hl := hs.fits.length.2
  unfold userTaskRegionBase userPageSize at hlim
  have hview : (programOf (storeByte m (frameByte (k.task k.current) virt) b)
      (k.task k.current)).memory = ((programOf m (k.task k.current)).store virt [b]).memory := by
    funext x
    unfold Program.store
    dsimp only
    by_cases hx : userTaskRegionBase ≤ x ∧ (x : Int) < (k.task k.current).userLimit
    · obtain ⟨hin, hmem⟩ := h.memory_eq hu hm hx.1 hx.2
      rw [(h.memory_eq hu honly hx.1 hx.2).2, hmem, Option.map_some]
      unfold storeByte
      by_cases heq : x = virt
      · subst heq
        simp
      · have hne : frameByte (k.task k.current) x ≠ frameByte (k.task k.current) virt :=
          fun hc => heq (h.frameByte_inj hu hin hvirt hx.1 hlo hc)
        rw [if_neg hne, if_neg (by rw [List.length_singleton]; omega)]
    · have hnone : ∀ m', OnlyPages ((k.task k.current).userPages : Multiset Nat) k.phys.mem m' →
          (programOf m' (k.task k.current)).memory x = none := by
        intro m' hm'
        have hs' := hs.frame fun p hp => h.samePage hu hm' (Multiset.mem_add.mpr (Or.inl hp))
        unfold programOf
        dsimp only
        split_ifs with h48
        · refine hs'.userView_outside ?_
          unfold InWindow windowIndex windowPage
          unfold userTaskRegionBase at hx
          omega
        · rfl
      rw [hnone _ honly, hnone _ hm]
      rfl
  unfold Program.store programOf at hview ⊢
  dsimp only at hview ⊢
  rw [hview]

theorem Program.store_nil (q : Program) (ptr : Nat) : q.store ptr [] = q := by
  have hmem : (q.store ptr []).memory = q.memory := by
    funext virt
    unfold Program.store
    dsimp only
    cases q.memory virt with
    | none => rfl
    | some x =>
      rw [Option.map_some, if_neg]
      rw [List.length_nil]
      omega
  exact congrArg (fun f => ({ q with memory := f } : Program)) hmem

theorem Program.store_cons (q : Program) (ptr : Nat) (b : UInt8) (bytes : Bytes) :
    q.store ptr (b :: bytes) = (q.store ptr [b]).store (ptr + 1) bytes := by
  have hmem : (q.store ptr (b :: bytes)).memory =
      ((q.store ptr [b]).store (ptr + 1) bytes).memory := by
    funext virt
    unfold Program.store
    dsimp only
    cases q.memory virt with
    | none => rfl
    | some x =>
      simp only [Option.map_some, List.length_cons, List.length_nil]
      by_cases hlow : ptr + 1 ≤ virt ∧ virt < ptr + 1 + bytes.length
      · obtain ⟨i, rfl⟩ : ∃ i, virt = ptr + 1 + i := ⟨virt - (ptr + 1), by omega⟩
        rw [if_pos hlow, if_pos (by omega), if_neg (by omega),
          show ptr + 1 + i - ptr = i + 1 by omega, List.getD_cons_succ,
          show ptr + 1 + i - (ptr + 1) = i by omega]
      · rw [if_neg hlow]
        by_cases hat : virt = ptr
        · subst hat
          rw [if_pos (by omega), if_pos (by omega), Nat.sub_self, List.getD_cons_zero,
            List.getD_cons_zero]
        · rw [if_neg (by omega), if_neg (by omega)]
  exact congrArg (fun f => ({ q with memory := f } : Program)) hmem

theorem Program.canStore_succ (q : Program) (ptr n : Nat) :
    q.canStore ptr (n + 1) =
      (((q.memory ptr).map Prod.snd).getD false && q.canStore (ptr + 1) n) := by
  unfold Program.canStore
  rw [List.range_succ_eq_map, List.all_cons, List.all_map]
  congr 2
  funext i
  dsimp only [Function.comp]
  rw [Nat.add_right_comm, Nat.add_assoc]

/-- A store does not change what may be stored to. -/
theorem Program.canStore_store (q : Program) (first : Nat) (bytes : Bytes) (ptr n : Nat) :
    (q.store first bytes).canStore ptr n = q.canStore ptr n := by
  unfold Program.canStore Program.store
  congr 1
  funext i
  dsimp only
  cases q.memory (ptr + i) with
  | none => rfl
  | some x =>
    simp only [Option.map_some, Option.getD_some]
    split_ifs <;> rfl

/-- Filling a buffer stores in the memory of the program. -/
theorem MemInv.storeUserBytes_program (hk : KernelOk k) (h : MemInv P k sk S)
    (hu : IsUser (k.task k.current)) (wp : Bool) (bytes : Bytes) {m : Mem}
    (hm : OnlyPages ((k.task k.current).userPages : Multiset Nat) k.phys.mem m) {virt : Nat}
    (hlo : userTaskRegionBase ≤ virt)
    (hhi : (virt + bytes.length : Int) ≤ (k.task k.current).userLimit) :
    Ends (storeUserBytes wp k.phys.cr3 virt bytes m)
      (fun m' => programOf m' (k.task k.current) =
          (programOf m (k.task k.current)).store virt bytes ∧
        ¬ (wp = true ∧ ¬ (programOf m (k.task k.current)).canStore virt bytes.length))
      (fun e => e = "page fault" ∧
        wp = true ∧ ¬ (programOf m (k.task k.current)).canStore virt bytes.length) := by
  induction bytes generalizing virt m with
  | nil =>
    refine ⟨(Program.store_nil _ _).symm, ?_⟩
    rintro ⟨-, hno⟩
    exact hno rfl
  | cons b bytes ih =>
    rw [List.length_cons] at hhi
    push_cast at hhi
    have hbase := hk.base _ hu.2
    have hmem := (h.memory_eq hu hm hlo (by omega)).2
    have hbyte := (h.storeUserByte_eq hu hbase hm (by rw [hbase]; exact hlo) (by omega) wp b).2
    unfold storeUserBytes
    rw [hbyte, List.length_cons, Program.canStore_succ, hmem]
    dsimp only [Option.map_some, Option.getD_some]
    by_cases hflag : wp = true ∧ userPageFlag (k.ghost.image k.current) (pageIndex virt) ≠ 7
    · rw [if_pos hflag, error_bind, decide_eq_false hflag.2, Bool.false_and]
      exact ⟨rfl, hflag.1, Bool.false_ne_true⟩
    · rw [if_neg hflag, ok_bind]
      obtain ⟨honly, hstore⟩ := h.store_eq hu hm hlo (by omega) b
      have hlo' : userTaskRegionBase ≤ ((virt + 1 : Nat) : Int) := by
        push_cast
        omega
      have hrest := ih honly hlo' (by push_cast; omega)
      rw [hstore, Program.canStore_store, ← Program.store_cons] at hrest
      have hiff : (wp = true ∧ ¬ (decide (userPageFlag (k.ghost.image k.current)
          (pageIndex virt) = 7) && (programOf m (k.task k.current)).canStore (virt + 1)
            bytes.length) = true) ↔
          (wp = true ∧ ¬ (programOf m (k.task k.current)).canStore (virt + 1) bytes.length) := by
        rw [Bool.and_eq_true, decide_eq_true_iff]
        tauto
      rw [hiff]
      exact hrest

end Buffers

/-! ## Other programs -/

section Step

variable {M : Machine} {k k' : KernelState} {a : Act}

theorem Untouched.program {P : Pool} {sk : Shape} {S S' : TaskId → Shape} {u : TaskId}
    (hs : Untouched k k' u) (h : MemInv P k sk S) (h' : MemInv P k' sk S')
    (hu : IsUser (k.task u)) :
    programOf k'.phys.mem (k'.task u) = programOf k.phys.mem (k.task u) := by
  unfold programOf
  rw [hs.row.pages, hs.row.heapBreak]
  congr 1
  funext virt
  rw [hs.userView h h' hu virt]

theorem processOf_eq {m m' : Mem} {row row' : Task} (hrow : row' = row)
    (hprogram : row.mode = .user → programOf m' row' = programOf m row) :
    processOf m' row' = processOf m row := by
  subst hrow
  unfold processOf
  congr 1
  split_ifs with hmode
  · rw [hprogram hmode]
  · rfl

/-- A step of one program leaves the others as they are. -/
theorem process_kept (hr : Reachable M k) (he : Enabled k a) (ha : act k a = .ok k') {u : TaskId}
    (hne : u ≠ k.current) (hrow : k'.task u = k.task u) (hp : (k.task u).state ≠ .empty) :
    processOf k'.phys.mem (k'.task u) = processOf k.phys.mem (k.task u) := by
  refine processOf_eq hrow fun hm => ?_
  obtain ⟨sk, S, hinv⟩ := hr.memInv
  have heff := (act_effect hr.kernelOk he).of_ok ha
  obtain ⟨S', hinv'⟩ := heff.memInv hr.kernelOk hinv
  exact (heff.untouched hr.kernelOk hinv ⟨hp, hm⟩ hne (hrow ▸ hp)).program hinv hinv' ⟨hp, hm⟩

end Step

/-! ## Calls -/

theorem userCall_eq (k : KernelState) (c : UserCall) :
    Syscall.userCall k c = if ¬ c.accepted (k.task k.current) then .ok (-1, k)
      else c.fetch k.phys.mem k.phys.cr3 >>= fun call => fileReply k call >>= fun r =>
        if r.1.2 ≠ [] ∧ ¬ c.aligned then .error "qword region base is unaligned"
        else storeUserBytes r.2.cr0Wp r.2.phys.cr3 (UserCall.start c) r.1.2 r.2.phys.mem >>= fun m =>
          .ok (r.1.1, { r.2 with phys := { r.2.phys with mem := m } }) := by
  unfold Syscall.userCall userCallBytes
  by_cases ha : c.accepted (k.task k.current) = true
  · rw [if_neg (not_not.mpr ha), if_neg (not_not.mpr ha)]
    cases c.fetch k.phys.mem k.phys.cr3 with
    | error e => rfl
    | ok call =>
      unfold fileReply
      simp only [ok_bind]
      cases fileCall k call with
      | error e => rfl
      | ok r =>
        obtain ⟨r, bytes, k₁⟩ := r
        simp only [ok_bind]
        split_ifs with hbad
        · rfl
        · rfl
  · rw [if_pos ha, if_pos ha]
    rfl

section Call

variable {P : Pool} {k : KernelState} {sk : Shape} {S : TaskId → Shape} {c : UserCall}

/-- The bytes an accepted call reads are those of the program. -/
theorem MemInv.fetch_eq (hk : KernelOk k) (h : MemInv P k sk S) (hu : IsUser (k.task k.current))
    (hreg : c.InRegisters) (ha : c.accepted (k.task k.current) = true) :
    c.fetch k.phys.mem k.phys.cr3 =
      .ok ((programOf k.phys.mem (k.task k.current)).request c) := by
  have hbase := hk.base _ hu.2
  have hload : ∀ ptr length, c.buffer = some (ptr, length) →
      loadUserBytes k.phys.mem k.phys.cr3 ptr.toNat length.toNat =
        .ok ((programOf k.phys.mem (k.task k.current)).load ptr.toNat length.toNat) := by
    intro ptr length hb
    have hin := hreg (ptr, length) hb
    unfold UserCall.accepted at ha
    rw [hb] at ha
    obtain ⟨hlo, h0, hhi, -⟩ := syscallValidateUserBuffer_range hin.1 hin.2 ha
    rw [hbase] at hlo
    have hpos : (0 : Int) ≤ userTaskRegionBase := by decide
    exact h.load_eq hu _ (by omega) (by omega)
  unfold UserCall.fetch Program.request
  cases c with
  | write fd ptr length =>
    dsimp only
    rw [hload ptr length rfl]
    rfl
  | openPath ptr length flags =>
    dsimp only
    rw [hload ptr length rfl]
    rfl
  | close | read | fstat | readdir => rfl

/-- The bytes a call returns fit the buffer it names. -/
theorem buffer_range (hk : KernelOk k) (hu : IsUser (k.task k.current)) (hreg : c.InRegisters)
    (ha : c.accepted (k.task k.current) = true) {call : FileCall} {r : Int} {bytes : Bytes}
    {k₁ : KernelState} (hf : c.fetch k.phys.mem k.phys.cr3 = .ok call)
    (hc : fileCall k call = .ok (r, bytes, k₁)) (hne : bytes ≠ []) :
    userTaskRegionBase ≤ UserCall.start c ∧
      (UserCall.start c + bytes.length : Int) ≤ (k.task k.current).userLimit := by
  have hfits := fileCall_length hc
  have hpos := List.length_pos_iff.mpr hne
  have hbase := hk.base _ hu.2
  obtain h0 | ⟨ptr, length, hb, hcap⟩ := fetch_capacity hf
  · omega
  have hin := hreg (ptr, length) hb
  unfold UserCall.accepted at ha
  rw [hb] at ha
  obtain ⟨hlo, h0, hhi, -⟩ := syscallValidateUserBuffer_range hin.1 hin.2 ha
  unfold UserCall.start
  rw [hb]
  dsimp only [Option.getD_some]
  rw [hbase] at hlo
  have hstart : (0 : Int) ≤ userTaskRegionBase := by decide
  omega

end Call

/-- The current process after a call. -/
theorem osOf_put {M : Machine} {k k' : KernelState} {a : Act} (hr : Reachable M k) (he : Enabled k a)
    (ha : act k a = .ok k') (f : TaskFiles) (row : Task) (hview : view k'.vfs = f.system)
    (hs : k'.sched = k.sched.setTask k.current { row with fds := f.fds })
    (hrow : row.state = (k.task k.current).state) :
    osOf k' = (osOf k).put (processOf k'.phys.mem row) f := by
  have hcur : k'.current = k.current := by
    unfold KernelState.current
    rw [hs]
    rfl
  have hpresent := hr.kernelOk.current_present
  have htask : ∀ t, k'.task t = if t = k.current then { row with fds := f.fds } else k.task t := by
    intro t
    unfold KernelState.task
    rw [hs, setTask_task]
  unfold OsState.put osOf
  dsimp only
  rw [hview, hcur]
  congr 1
  funext t
  by_cases ht : t = k.current
  · subst ht
    rw [Function.update_self, htask, if_pos rfl]
    dsimp only
    rw [if_neg (hrow ▸ hpresent)]
    rfl
  · have hkept := htask t
    rw [if_neg ht] at hkept
    rw [Function.update_of_ne ht, hkept]
    by_cases hp : (k.task t).state = .empty
    · rw [if_pos hp, if_pos hp]
    · have hproc := process_kept hr he ha ht hkept hp
      rw [hkept] at hproc
      rw [if_neg hp, if_neg hp, hproc]

/-- The end of a call: the bytes of the reply go to the buffer. -/
theorem deliver_agrees {M : Machine} {k k₁ : KernelState} (hr : Reachable M k) {c : UserCall}
    (he : Enabled k (.userCall c)) (ha : c.accepted (k.task k.current) = true) {call : FileCall}
    (hfetch : c.fetch k.phys.mem k.phys.cr3 = .ok call) {r : Int × Bytes}
    (hcall : fileReply k call = .ok (r, k₁)) {f : TaskFiles} (hf : HasFiles k k₁ f)
    (halign : ¬ (r.2 ≠ [] ∧ ¬ c.aligned)) :
    Ends (storeUserBytes k₁.cr0Wp k₁.phys.cr3 (UserCall.start c) r.2 k₁.phys.mem >>= fun m =>
        .ok (r.1, { k₁ with phys := { k₁.phys with mem := m } }))
      (fun x => roomLeft k₁ = roomLeft x.2 ∧ x.1 = r.1 ∧
        osOf x.2 = (osOf k).put { processOf k.phys.mem (k.task k.current) with
          program := some ((programOf k.phys.mem (k.task k.current)).store (UserCall.start c) r.2) } f ∧
        ¬ (k.cr0Wp = true ∧ ¬ (programOf k.phys.mem (k.task k.current)).canStore
          (UserCall.start c) r.2.length))
      (fun e => e = "page fault" ∧ k.cr0Wp = true ∧
        ¬ (programOf k.phys.mem (k.task k.current)).canStore (UserCall.start c) r.2.length) := by
  have hstep := he
  obtain ⟨hrun, hmode, hreg⟩ := he
  have hk := hr.kernelOk
  obtain ⟨sk, S, hm⟩ := hr.memInv
  have hu : IsUser (k.task k.current) := ⟨hk.current_present, hmode⟩
  have hreply : fileCall k call = .ok (r.1, r.2, k₁) := by
    unfold fileReply at hcall
    obtain ⟨x, hx, hcall⟩ := bind_eq_ok.mp hcall
    cases hcall
    exact hx
  have hstore : Ends (storeUserBytes k.cr0Wp k.phys.cr3 (UserCall.start c) r.2 k.phys.mem)
      (fun m => programOf m (k.task k.current) =
          (programOf k.phys.mem (k.task k.current)).store (UserCall.start c) r.2 ∧
        ¬ (k.cr0Wp = true ∧ ¬ (programOf k.phys.mem (k.task k.current)).canStore
          (UserCall.start c) r.2.length))
      (fun e => e = "page fault" ∧ k.cr0Wp = true ∧
        ¬ (programOf k.phys.mem (k.task k.current)).canStore (UserCall.start c) r.2.length) := by
    by_cases hne : r.2 = []
    · rw [hne]
      refine ⟨(Program.store_nil _ _).symm, ?_⟩
      rintro ⟨-, hfail⟩
      exact hfail rfl
    · obtain ⟨hlo, hhi⟩ := buffer_range hk hu hreg ha hfetch hreply hne
      exact hm.storeUserBytes_program hk hu _ _ (OnlyPages.refl _ _) hlo hhi
  have hwp : k₁.cr0Wp = k.cr0Wp := by rw [hf.rest]; rfl
  have hphys : k₁.phys = k.phys := by rw [hf.rest]; rfl
  have hsched : k₁.sched = k.sched.setTask k.current { k.task k.current with fds := f.fds } := by
    rw [hf.rest]
    rfl
  have hsame : storeUserBytes k₁.cr0Wp k₁.phys.cr3 (UserCall.start c) r.2 k₁.phys.mem =
      storeUserBytes k.cr0Wp k.phys.cr3 (UserCall.start c) r.2 k.phys.mem := by rw [hwp, hphys]
  rw [hsame]
  cases hs : storeUserBytes k.cr0Wp k.phys.cr3 (UserCall.start c) r.2 k.phys.mem with
  | error e => exact hstore.of_error hs
  | ok m =>
    obtain ⟨hprogram, hok⟩ := hstore.of_ok hs
    refine ⟨rfl, rfl, ?_, hok⟩
    have hact : act k (.userCall c) = .ok { k₁ with phys := { k₁.phys with mem := m } } := by
      dsimp only [act]
      rw [userCall_eq, if_neg (not_not.mpr ha), hfetch, ok_bind, hcall, ok_bind, if_neg halign, hsame,
        hs]
      rfl
    have hput := osOf_put hr hstep hact f (k.task k.current) hf.system hsched rfl
    rw [hput]
    congr 1
    unfold processOf
    rw [if_pos hmode, ← hprogram]

/-- A call whose buffer the kernel accepts. -/
theorem accepted_call_agrees {M : Machine} (hM : M.FilesReady) {k : KernelState}
    (hr : Reachable M k) {c : UserCall} (he : Enabled k (.userCall c))
    (ha : c.accepted (k.task k.current) = true) :
    Ends (Syscall.userCall k c)
      (fun r => roomLeft k = roomLeft r.2 +
          (osOf k).cost (processOf k.phys.mem (k.task k.current))
            (programOf k.phys.mem (k.task k.current)) c ∧
        (osOf k).call k.cr0Wp (processOf k.phys.mem (k.task k.current))
          (programOf k.phys.mem (k.task k.current)) c = .ok (r.1, osOf r.2))
      (fun e => if roomLeft k < (osOf k).cost (processOf k.phys.mem (k.task k.current))
            (programOf k.phys.mem (k.task k.current)) c then e = exhausted
        else (osOf k).call k.cr0Wp (processOf k.phys.mem (k.task k.current))
          (programOf k.phys.mem (k.task k.current)) c = .error e) := by
  have hk := hr.kernelOk
  obtain ⟨sk, S, hm⟩ := hr.memInv
  have hu : IsUser (k.task k.current) := ⟨hk.current_present, he.2.1⟩
  have hno := not_not.mpr ((hm.permits_iff hk hu k.phys.mem he.2.2).mpr ha)
  have hfetch := hm.fetch_eq hk hu he.2.2 ha
  have hagrees := fileReply_agrees (HasFiles.start (hr.vfs hM))
    ((programOf k.phys.mem (k.task k.current)).request c)
  unfold CallAgrees at hagrees
  rw [userCall_eq]
  unfold OsState.cost OsState.call
  rw [osOf_files, if_neg (not_not.mpr ha), if_neg hno, if_neg hno, hfetch, ok_bind]
  cases hcall : fileReply k ((programOf k.phys.mem (k.task k.current)).request c) with
  | error e =>
    have he := hagrees.of_error hcall
    rw [error_bind]
    show if _ then _ else _
    split_ifs at he ⊢ with hroom
    · exact he
    · rw [he]
      rfl
  | ok r =>
    obtain ⟨hroom, f, habstract, hfiles⟩ := hagrees.of_ok hcall
    have henough : ¬ roomLeft k < (files k).cost
        ((programOf k.phys.mem (k.task k.current)).request c) := by omega
    rw [ok_bind, habstract, ok_bind]
    by_cases hbad : r.1.2 ≠ [] ∧ ¬ c.aligned
    · rw [if_pos hbad, if_pos hbad]
      show if _ then _ else _
      rw [if_neg henough]
    · rw [if_neg hbad, if_neg hbad]
      refine (deliver_agrees hr he ha hfetch hcall hfiles hbad).mono (fun x hx => ?_) fun e hx => ?_
      · obtain ⟨hleft, hvalue, hos, hok⟩ := hx
        rw [if_neg hok, hos, hvalue]
        exact ⟨hleft ▸ hroom, rfl⟩
      · rw [if_neg henough, if_pos hx.2, hx.1]

/-- Any other call is refused, and changes nothing. -/
theorem refused_call {M : Machine} {k : KernelState} (hr : Reachable M k) {c : UserCall}
    (he : Enabled k (.userCall c)) (ha : ¬ c.accepted (k.task k.current) = true) :
    Syscall.userCall k c = .ok (-1, k) ∧
      ¬ (programOf k.phys.mem (k.task k.current)).Permits c := by
  have hk := hr.kernelOk
  obtain ⟨sk, S, hm⟩ := hr.memInv
  have hpermits := hm.permits_iff hk ⟨hk.current_present, he.2.1⟩ k.phys.mem he.2.2
  rw [userCall_eq]
  exact ⟨if_pos ha, mt hpermits.mp ha⟩

/-- What a program sees of a file call is what the abstract system does, and the heap it takes. -/
theorem user_call_answers {M : Machine} (hM : M.FilesReady) {k : KernelState} (hr : Reachable M k)
    {c : UserCall} (he : Enabled k (.userCall c)) :
    Ends (Syscall.userCall k c)
      (fun r => roomLeft k = roomLeft r.2 +
          (osOf k).cost (processOf k.phys.mem (k.task k.current))
            (programOf k.phys.mem (k.task k.current)) c ∧
        (osOf k).call k.cr0Wp (processOf k.phys.mem (k.task k.current))
          (programOf k.phys.mem (k.task k.current)) c = .ok (r.1, osOf r.2))
      (fun e => if roomLeft k < (osOf k).cost (processOf k.phys.mem (k.task k.current))
            (programOf k.phys.mem (k.task k.current)) c then e = exhausted
        else (osOf k).call k.cr0Wp (processOf k.phys.mem (k.task k.current))
          (programOf k.phys.mem (k.task k.current)) c = .error e) := by
  by_cases ha : c.accepted (k.task k.current) = true
  · exact accepted_call_agrees hM hr he ha
  · obtain ⟨hcall, hno⟩ := refused_call hr he ha
    rw [hcall]
    unfold OsState.cost OsState.call
    rw [if_pos hno, if_pos hno]
    exact ⟨rfl, rfl⟩

/-- A program gets the words of an open directory. -/
theorem user_call_answers_hello : ∃ M k r, M.FilesReady ∧ Reachable M k ∧
    Enabled k (.userCall (.fstat 3 stackByte)) ∧ (UserCall.fstat 3 stackByte).delivers k = 16 ∧
    Syscall.userCall k (.fstat 3 stackByte) = .ok r ∧
    (osOf k).call k.cr0Wp (processOf k.phys.mem (k.task k.current))
      (programOf k.phys.mem (k.task k.current)) (.fstat 3 stackByte) = .ok (r.1, osOf r.2) := by
  obtain ⟨M, k, h⟩ := exists_openedRoot
  have hr := h.reachable
  obtain ⟨sk, S, hm⟩ := hr.memInv
  have hreg : (UserCall.fstat 3 stackByte).InRegisters :=
    fstat_inRegisters (Nat.zero_le _)
  have hacc : syscallValidateUserBuffer (k.task k.current) stackByte 16 = true :=
    stack_accepted hr h.user h.image (le_refl _) (by decide) (by decide)
  obtain ⟨r, hcall, -⟩ := (userCall_fills hr.kernelOk hm h.user (hr.vfs h.hello.files).inv hr.fdInv
    hreg rfl hacc).exists_ok fun _ he => he.1 h.haltFree
  have he : Enabled k (.userCall (.fstat 3 stackByte)) := ⟨h.running, h.user.2, hreg⟩
  exact ⟨M, k, r, h.hello.files, hr, he, h.delivers _, hcall,
    ((user_call_answers h.hello.files hr he).of_ok hcall).2⟩

end PcoOs.Kernel
