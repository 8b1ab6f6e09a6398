/-
  When the shell's path buffers overflow. `cd` keeps the path it was given, so the current path
  grows with the commands: `PathsSafe` is kept by a command whose path fits behind it (`Fits`), and
  any other command stores behind the end of `path_buf`.
-/
import PcoOs.Kernel.Boot
import PcoOs.Shell.Model
import PcoOs.Syscall.Spec

namespace PcoOs.Shell

open PcoOs.Lib PcoOs.Lib.Prog PcoOs.Support PcoOs.Pmm PcoOs.Vfs PcoOs.Kernel PcoOs.Syscall

/-- The buffers, with their sizes. -/
def Layout.buffers (L : Layout) : List (Nat × Nat) :=
  [(L.line, 128), (L.stat, 16), (L.path, 128), (L.cwd, 128), (L.cwdLen, 8)]

/-- They are apart from each other and below `2^63`. -/
structure LayoutOk (L : Layout) : Prop where
  low : ∀ b ∈ L.buffers, b.1 + b.2 < 2 ^ 63
  apart : L.buffers.Pairwise fun a b => a.1 + a.2 ≤ b.1 ∨ b.1 + b.2 ≤ a.1

/-- The stored length of the current path. -/
def storedLen (L : Layout) (m : Mem) : Int := wrap (loadQword m L.cwdLen)

/-- All stores to the path buffers were inside them. -/
def StoresOk (s : ShellState) : Prop := ∀ p ∈ s.stores, 0 ≤ p.2 ∧ p.2 < shellPathCapacity

structure PathsSafe (L : Layout) (s : ShellState) : Prop where
  stores : StoresOk s
  pos : 1 ≤ storedLen L s.mem
  lt : storedLen L s.mem < shellPathCapacity

/-- The path argument of a line, if its command has one. -/
def pathArg (line : Bytes) : Option Bytes :=
  let verb := line.takeWhile (· ≠ 32)
  let arg := line.drop (verb.length + 1)
  if arg = [] then none
  else if verb = verbCd ∨ verb ∈ verbsPath then some arg
  else if verb = verbWrite ∧ (arg.takeWhile (· ≠ 32)).length < arg.length then
    some (arg.takeWhile (· ≠ 32))
  else none

/-- A path that is empty or absolute, or is resolved against `/`, or fits behind the current one. -/
def PathFits (L : Layout) (m : Mem) (path : Bytes) : Prop :=
  path = [] ∨ path.head? = some 47 ∨ storedLen L m = 1 ∧ m L.cwd = 47 ∨
    storedLen L m + 1 + path.length < shellPathCapacity

def Fits (L : Layout) (line : Bytes) (s : ShellState) : Prop :=
  ∀ path, pathArg line = some path → PathFits L s.mem path

/-- Every command of a run fits in the state it is executed in. -/
def EveryFits (L : Layout) : List Command → ShellState → Prop
  | [], _ => True
  | c :: cs, s => Fits L c.line s ∧ ∀ u, runCommand L c s = .ok ((), u) → EveryFits L cs u

/-- `shell_run` starts in `/`. -/
structure AtRoot (L : Layout) (s : ShellState) : Prop where
  stores : s.stores = []
  len : storedLen L s.mem = 1
  cwd : s.mem L.cwd = 47

theorem AtRoot.safe {L : Layout} {s : ShellState} (h : AtRoot L s) : PathsSafe L s := by
  refine ⟨fun p hp => ?_, h.len.ge, ?_⟩
  · rw [h.stores] at hp
    cases hp
  · rw [h.len]
    decide

/-! ## A store that went wrong -/

section Spoiled

variable {L : Layout}

/-- A program that only adds to the record. -/
theorem maintains_spoiled {α : Type} {x : ShellProg α}
    (h : ∀ s a t, x s = .ok (a, t) → s.stores ⊆ t.stores) : Maintains (fun s => ¬ StoresOk s) x :=
  fun s hs a t heq ht => hs fun p hp => ht p (h s a t heq hp)

@[simp] theorem loadByteS_spoiled (p : Int) : Maintains (fun s => ¬ StoresOk s) (loadByteS p) :=
  maintains_gets _

@[simp] theorem bytesAt_spoiled (p n : Int) : Maintains (fun s => ¬ StoresOk s) (bytesAt p n) :=
  maintains_gets _

@[simp] theorem loadQwordS_spoiled (base : Nat) (count slot : Int) :
    Maintains (fun s => ¬ StoresOk s) (loadQwordS base count slot) := by
  refine maintains_spoiled fun s a t heq => ?_
  obtain ⟨w, -, heq⟩ := bind_eq_ok.mp heq
  obtain ⟨-, rfl⟩ := Prod.mk.inj (Except.ok.inj heq)
  exact List.Subset.refl _

@[simp] theorem storeQwordS_spoiled (base : Nat) (count slot value : Int) :
    Maintains (fun s => ¬ StoresOk s) (storeQwordS base count slot value) := by
  refine maintains_spoiled fun s a t heq => ?_
  obtain ⟨m, -, heq⟩ := bind_eq_ok.mp heq
  obtain ⟨-, rfl⟩ := Prod.mk.inj (Except.ok.inj heq)
  exact List.Subset.refl _

@[simp] theorem storePath_spoiled (dst : PathBuf) (i : Int) (b : UInt8) :
    Maintains (fun s => ¬ StoresOk s) (storePath L dst i b) :=
  maintains_update fun _ hs ht => hs fun p hp => ht p (List.mem_cons_of_mem _ hp)

@[simp] theorem shellCall_spoiled (c : FileCall) : Maintains (fun s => ¬ StoresOk s) (shellCall c) := by
  refine maintains_spoiled fun s a t heq => ?_
  obtain ⟨r, -, heq⟩ := bind_eq_ok.mp heq
  obtain ⟨-, rfl⟩ := Prod.mk.inj (Except.ok.inj heq)
  exact List.Subset.refl _

@[simp] theorem sysClose_spoiled (fd : Int) : Maintains (fun s => ¬ StoresOk s) (sysClose fd) :=
  maintains_bind (by simp) fun _ => by simp

@[simp] theorem copyBytesTo_spoiled (dst : PathBuf) (i src n : Int) :
    Maintains (fun s => ¬ StoresOk s) (copyBytesTo L dst i src n) :=
  maintains_times (fun k => maintains_bind (by simp) fun b => by simp) _ _

@[simp] theorem shellCopyBuffer_spoiled (dst : PathBuf) (src n : Int) :
    Maintains (fun s => ¬ StoresOk s) (shellCopyBuffer L dst src n) :=
  maintains_bind (by simp) fun _ => by simp

@[simp] theorem shellRunCd_spoiled (n : Int) : Maintains (fun s => ¬ StoresOk s) (shellRunCd L n) := by
  refine maintains_bind (by simp) fun path => maintains_bind (by simp) fun fd => maintains_ite (by simp) ?_
  refine maintains_bind (by simp) fun r => maintains_bind (maintains_update fun _ hs => hs) fun _ => ?_
  refine maintains_bind (by simp) fun kind => maintains_ite (by simp) ?_
  exact maintains_bind (by simp) fun _ => maintains_bind (by simp) fun _ => by simp

theorem shellResolvePath_spoiled (c p n : Int) :
    Maintains (fun s => ¬ StoresOk s) (shellResolvePath L c p n) := by
  unfold shellResolvePath
  refine maintains_ite (by simp) (maintains_bind (by simp) fun first => maintains_ite ?_ (maintains_ite (by simp) ?_))
  · exact maintains_bind (by simp) fun _ => by simp
  · refine maintains_bind (by simp) fun root => maintains_ite ?_ ?_
    · repeat refine maintains_bind (by simp) fun _ => ?_
      simp
    · repeat refine maintains_bind (by simp) fun _ => ?_
      simp

theorem runCommand_spoiled (c : Command) : Maintains (fun s => ¬ StoresOk s) (runCommand L c) := by
  have hresolve : ∀ c p n, Maintains (fun s => ¬ StoresOk s) (do
      let _ ← shellResolvePath L c p n
      pure ()) := fun c p n => maintains_bind (shellResolvePath_spoiled c p n) fun _ => by simp
  refine maintains_bind (maintains_update fun _ hs => hs) fun _ => ?_
  unfold shellExecuteLine
  refine maintains_bind (by simp) fun cwdLen => maintains_ite (by simp) (maintains_bind (by simp) fun line => ?_)
  refine maintains_ite (by simp) (maintains_ite ?_ (maintains_ite (hresolve _ _ _) (maintains_ite ?_ (by simp))))
  · exact maintains_bind (shellResolvePath_spoiled _ _ _) fun _ => maintains_ite (by simp) (by simp)
  · exact maintains_ite (by simp) (hresolve _ _ _)

theorem runCommands_spoiled (cs : List Command) :
    Maintains (fun s => ¬ StoresOk s) (runCommands L cs) := by
  induction cs with
  | nil => exact maintains_pure _
  | cons c cs ih => exact maintains_bind (runCommand_spoiled c) fun _ => ih

end Spoiled

/-! ## Commands that fit -/

section Safe

variable {L : Layout}

theorem LayoutOk.ptr_apart (h : LayoutOk L) (dst : PathBuf) :
    (L.ptr dst + 128 ≤ L.cwdLen ∨ L.cwdLen + 8 ≤ L.ptr dst) ∧ L.ptr dst + 128 < 2 ^ 63 := by
  obtain ⟨hlow, hapart⟩ := h
  simp only [Layout.buffers, List.pairwise_cons, List.forall_mem_cons] at hlow hapart
  cases dst with
  | path => exact ⟨hapart.2.2.1.2.1, hlow.2.2.1⟩
  | cwd => exact ⟨hapart.2.2.2.1.1, hlow.2.2.2.1⟩

theorem LayoutOk.addr_cwd (h : LayoutOk L) : addr (L.cwd + 0) = L.cwd := by
  have hlow : L.cwd + 128 < 2 ^ 63 := (h.ptr_apart .cwd).2
  rw [addr_of_nonneg (by omega) (by omega)]
  omega

theorem LayoutOk.line_apart (h : LayoutOk L) :
    (L.line + 128 ≤ L.cwd ∨ L.cwd + 128 ≤ L.line) ∧
      (L.line + 128 ≤ L.cwdLen ∨ L.cwdLen + 8 ≤ L.line) ∧ L.line + 128 < 2 ^ 63 := by
  obtain ⟨hlow, hapart⟩ := h
  simp only [Layout.buffers, List.pairwise_cons, List.forall_mem_cons] at hlow hapart
  exact ⟨hapart.1.2.2.1, hapart.1.2.2.2.1, hlow.1⟩

theorem LayoutOk.stat_apart (h : LayoutOk L) :
    L.stat + 16 ≤ L.cwdLen ∨ L.cwdLen + 8 ≤ L.stat := by
  obtain ⟨-, hapart⟩ := h
  simp only [Layout.buffers, List.pairwise_cons, List.forall_mem_cons] at hapart
  exact hapart.2.1.2.2.1

/-- The stored length depends on its own word only. -/
theorem storedLen_congr {m m' : Mem} (h : ∀ x, L.cwdLen ≤ x → x < L.cwdLen + 8 → m' x = m x) :
    storedLen L m' = storedLen L m := by
  unfold storedLen
  rw [loadQword_congr h]

/-- A store inside a path buffer. -/
theorem storePath_safe (hL : LayoutOk L) {dst : PathBuf} {i : Int} {b : UInt8} (h0 : 0 ≤ i)
    (hi : i < 128) : Maintains (PathsSafe L) (storePath L dst i b) := by
  obtain ⟨hapart, hlow⟩ := hL.ptr_apart dst
  refine maintains_update fun s hs => ?_
  rw [addr_of_nonneg (by omega) (by omega)]
  have hlen : storedLen L (storeByte s.mem (L.ptr dst + i).toNat b) = storedLen L s.mem :=
    storedLen_congr fun x _ _ => storeByte_ne (by omega)
  refine ⟨List.forall_mem_cons.mpr ⟨⟨h0, hi⟩, hs.stores⟩, ?_, ?_⟩ <;> dsimp only <;> rw [hlen]
  · exact hs.pos
  · exact hs.lt

/-- A store behind it. -/
theorem storePath_spoils {P : ShellState → Prop} {dst : PathBuf} {i : Int} {b : UInt8}
    (hi : shellPathCapacity ≤ i) : Hoare P (storePath L dst i b) fun _ s => ¬ StoresOk s :=
  hoare_update fun _ _ ht => absurd (ht _ List.mem_cons_self).2 (not_lt.mpr hi)

theorem copyBytesTo_safe (hL : LayoutOk L) {dst : PathBuf} {i src n : Int} (h0 : 0 ≤ i)
    (hi : i + n ≤ 128) : Maintains (PathsSafe L) (copyBytesTo L dst i src n) :=
  hoare_times _ (fun _ => PathsSafe L) fun k _ hk =>
    maintains_bind (maintains_gets _) fun b => storePath_safe hL (by omega) (by omega)

theorem shellCopyBuffer_safe (hL : LayoutOk L) {dst : PathBuf} {src n : Int} (h0 : 0 ≤ n)
    (hn : n < 128) : Maintains (PathsSafe L) (shellCopyBuffer L dst src n) :=
  maintains_bind (copyBytesTo_safe hL (le_refl 0) (by omega)) fun _ => storePath_safe hL h0 hn

theorem shellCall_safe (c : FileCall) : Hoare (PathsSafe L) (shellCall c) fun r s =>
    PathsSafe L s ∧ r.2.length ≤ c.capacity := by
  intro s hs r t heq
  obtain ⟨⟨r', bytes, kernel⟩, hcall, heq⟩ := bind_eq_ok.mp heq
  obtain ⟨rfl, rfl⟩ := Prod.mk.inj (Except.ok.inj heq)
  exact ⟨⟨hs.stores, hs.pos, hs.lt⟩, fileCall_length hcall⟩

theorem loadQwordS_safe (base : Nat) (count slot : Int) :
    Maintains (PathsSafe L) (loadQwordS base count slot) := by
  intro s hs r t heq
  obtain ⟨w, -, heq⟩ := bind_eq_ok.mp heq
  obtain ⟨-, rfl⟩ := Prod.mk.inj (Except.ok.inj heq)
  exact hs

theorem sysClose_safe (fd : Int) : Maintains (PathsSafe L) (sysClose fd) :=
  hoare_bind (shellCall_safe _) fun _ => hoare_pure fun _ hs => hs.1

/-- The new length is stored. -/
theorem storeLen_safe {n : Int} (h0 : 1 ≤ n) (hn : n < 128) :
    Maintains (PathsSafe L) (storeQwordS L.cwdLen 1 0 n) := by
  intro s hs u t heq
  unfold storeQwordS at heq
  obtain ⟨m, hm, heq⟩ := bind_eq_ok.mp heq
  obtain ⟨-, rfl⟩ := Prod.mk.inj (Except.ok.inj heq)
  obtain ⟨-, -, rfl⟩ := storeQwordRegion_eq hm
  have hlen : storedLen L (storeQword s.mem (L.cwdLen + 8 * (0 : Int).toNat) (addr n)) = n := by
    unfold storedLen
    rw [show L.cwdLen + 8 * (0 : Int).toNat = L.cwdLen from rfl, loadQword_storeQword,
      Nat.mod_eq_of_lt (addr_lt n), wrap_addr, wrap_of_range (by omega) (by omega)]
  refine ⟨hs.stores, ?_, ?_⟩ <;> dsimp only <;> rw [hlen]
  · exact h0
  · exact hn

theorem shellRunCd_safe (hL : LayoutOk L) {n : Int} (h0 : 1 ≤ n) (hn : n < 128) :
    Maintains (PathsSafe L) (shellRunCd L n) := by
  have hstat := hL.stat_apart
  unfold shellRunCd
  refine maintains_bind (maintains_gets _) fun path => ?_
  refine hoare_bind (shellCall_safe _) fun fd => hoare_fact fun _ => ?_
  refine hoare_ite (fun _ => maintains_pure _) fun _ => ?_
  refine hoare_bind (shellCall_safe _) fun r => hoare_fact fun hr => ?_
  replace hr : r.2.length ≤ 16 := hr
  refine maintains_bind (maintains_update fun s hs => ?_) fun _ => ?_
  · have hlen : storedLen L (storeBytes s.mem L.stat r.2) = storedLen L s.mem :=
      storedLen_congr fun x _ _ => storeBytes_of_outside (by omega)
    refine ⟨hs.stores, ?_, ?_⟩ <;> dsimp only <;> rw [hlen]
    · exact hs.pos
    · exact hs.lt
  · refine maintains_bind (loadQwordS_safe _ _ _) fun kind => maintains_ite (sysClose_safe _) ?_
    refine maintains_bind (shellCopyBuffer_safe hL (by omega) hn) fun _ => ?_
    exact maintains_bind (storeLen_safe h0 hn) fun _ => sysClose_safe _

/-! ## Resolving a path -/

/-- A byte loaded before anything was stored. -/
theorem loadByteS_from {m : Mem} {P : ShellState → Prop} (p : Int) :
    Hoare (fun s => P s ∧ s.mem = m) (loadByteS p) fun b s => (P s ∧ s.mem = m) ∧ b = m (addr p) :=
  hoare_gets fun s hs => ⟨hs, by rw [hs.2]⟩

theorem loadLen_from {m : Mem} {P : ShellState → Prop} :
    Hoare (fun s => P s ∧ s.mem = m) (loadQwordS L.cwdLen 1 0) fun n s =>
      (P s ∧ s.mem = m) ∧ n = storedLen L m := by
  intro s hs n t heq
  obtain ⟨w, hw, heq⟩ := bind_eq_ok.mp heq
  obtain ⟨rfl, rfl⟩ := Prod.mk.inj (Except.ok.inj heq)
  obtain ⟨-, -, rfl⟩ := loadQwordRegion_eq hw
  exact ⟨hs, by rw [hs.2]; rfl⟩

theorem bytesAt_from {m : Mem} {P : ShellState → Prop} (p n : Int) :
    Hoare (fun s => P s ∧ s.mem = m) (bytesAt p n) fun bs s =>
      (P s ∧ s.mem = m) ∧ bs = loadBytes m (addr p) n.toNat :=
  hoare_gets fun s hs => ⟨hs, by rw [hs.2]⟩

section Resolve

variable {m : Mem} {path : Bytes} {ptr : Int}

theorem head_eq_iff (hfirst : path ≠ [] → path.head? = some (m (addr ptr))) (hne : path ≠ []) (b : UInt8) :
    path.head? = some b ↔ m (addr ptr) = b := by
  rw [hfirst hne, Option.some_inj]

theorem shellResolvePath_safe (hL : LayoutOk L)
    (hfirst : path ≠ [] → path.head? = some (m (addr ptr))) (hlen : path.length + 1 < 128)
    (hfits : PathFits L m path) : Hoare (fun s => PathsSafe L s ∧ s.mem = m)
      (shellResolvePath L (storedLen L m) ptr path.length) fun n s => PathsSafe L s ∧ n < 128 := by
  unfold shellResolvePath
  refine hoare_ite (fun _ => hoare_pure fun s hs => ⟨hs.1, by omega⟩) fun h0 => ?_
  have hne : path ≠ [] := by
    rintro rfl
    exact h0 (by simp)
  have hhead := head_eq_iff hfirst hne
  refine hoare_bind (loadByteS_from _) fun first => hoare_fact fun hb => ?_
  rw [Int.add_zero] at hb
  refine hoare_ite (fun h47 => ?_) fun h47 => hoare_ite
    (fun _ => hoare_pure fun s hs => ⟨hs.1, by omega⟩) fun hpos => ?_
  · refine hoare_bind ((shellCopyBuffer_safe hL (by omega) (by omega)).mono (fun _ hs => hs.1)
      fun _ _ hs => hs) fun _ => hoare_pure fun s hs => ⟨hs, by omega⟩
  · refine hoare_bind (loadByteS_from _) fun root => hoare_fact fun hroot => ?_
    rw [hL.addr_cwd] at hroot
    refine Hoare.mono (P := PathsSafe L) ?_ (fun _ hs => hs.1) fun _ _ hs => hs
    refine hoare_ite (fun _ => ?_) fun hnot => ?_
    · refine hoare_bind (storePath_safe hL (by omega) (by omega)) fun _ => ?_
      refine hoare_bind (copyBytesTo_safe hL (by omega) (by omega)) fun _ => ?_
      refine hoare_bind (storePath_safe hL (by omega) (by omega)) fun _ => ?_
      exact hoare_pure fun s hs => ⟨hs, by omega⟩
    · have hroom : storedLen L m + 1 + path.length < 128 := by
        rcases hfits with h | h | h | h
        · exact absurd h hne
        · exact absurd (hb.trans ((hhead 47).mp h)) h47
        · exact absurd ⟨h.1, hroot.trans h.2⟩ hnot
        · exact h
      refine hoare_bind (shellCopyBuffer_safe hL (by omega) (by omega)) fun _ => ?_
      refine hoare_bind (storePath_safe hL (by omega) (by omega)) fun _ => ?_
      refine hoare_bind (copyBytesTo_safe hL (by omega) (by omega)) fun _ => ?_
      refine hoare_bind (storePath_safe hL (by omega) (by omega)) fun _ => ?_
      refine hoare_pure fun s hs => ⟨hs, ?_⟩
      rw [wrap_of_range (by omega) (by omega)]
      exact hroom

theorem shellResolvePath_spoils (hL : LayoutOk L)
    (hfirst : path ≠ [] → path.head? = some (m (addr ptr))) (hpos : 1 ≤ storedLen L m)
    (hfits : ¬ PathFits L m path) : Hoare (fun s => PathsSafe L s ∧ s.mem = m)
      (shellResolvePath L (storedLen L m) ptr path.length) fun _ s => ¬ StoresOk s := by
  simp only [PathFits, not_or] at hfits
  obtain ⟨hne, hhead47, hnotRoot, hlen⟩ := hfits
  have hhead := head_eq_iff hfirst hne
  have hpath : 0 < path.length := List.length_pos_iff.mpr hne
  unfold shellResolvePath
  refine hoare_ite (fun h => absurd h (by omega)) fun _ => ?_
  refine hoare_bind (loadByteS_from _) fun first => hoare_fact fun hb => ?_
  rw [Int.add_zero] at hb
  refine hoare_ite (fun h => absurd ((hhead 47).mpr (hb.symm.trans h)) hhead47) fun _ => ?_
  refine hoare_ite (fun h => absurd hpos (by omega)) fun _ => ?_
  refine hoare_bind (loadByteS_from _) fun root => hoare_fact fun hroot => ?_
  rw [hL.addr_cwd] at hroot
  refine hoare_ite (fun h => absurd ⟨h.1, hroot.symm.trans h.2⟩ hnotRoot) fun _ => ?_
  refine Hoare.mono (P := fun _ => True) ?_ (fun _ _ => trivial) fun _ _ hs => hs
  have htop : ∀ {x : ShellProg Unit}, Hoare (fun _ => True) x fun _ _ => True :=
    fun _ _ _ _ _ => trivial
  refine hoare_bind htop fun _ => hoare_bind htop fun _ => hoare_bind htop fun _ => ?_
  exact hoare_bind (storePath_spoils (not_lt.mp hlen)) fun _ => maintains_pure _

end Resolve

/-! ## Commands -/

/-- Where the argument of a line starts. -/
def argStart (line : Bytes) : Nat := (line.takeWhile (· ≠ 32)).length + 1

theorem pathArg_starts {line path : Bytes} (h : pathArg line = some path) :
    path <+: line.drop (argStart line) := by
  unfold pathArg at h
  dsimp only at h
  split_ifs at h
  · obtain rfl := Option.some.inj h
    exact List.prefix_refl _
  · obtain rfl := Option.some.inj h
    exact List.takeWhile_prefix _

/-- The dispatch: a command with a path resolves it, and `cd` goes on. -/
theorem shellExecuteLine_rule {m : Mem} {line : Bytes} (hlow : L.line < 2 ^ 63)
    (hline : loadBytes m L.line line.length = line) {R : Int → ShellState → Prop}
    {Q : ShellState → Prop} (hnone : pathArg line = none → ∀ s, PathsSafe L s ∧ s.mem = m → Q s)
    (hres : ∀ path, pathArg line = some path → Hoare (fun s => PathsSafe L s ∧ s.mem = m)
      (shellResolvePath L (storedLen L m) (L.line + argStart line) path.length) R)
    (hR : ∀ n s, R n s → Q s) (hcd : ∀ n, 1 ≤ n → Hoare (R n) (shellRunCd L n) fun _ => Q) :
    Hoare (fun s => PathsSafe L s ∧ s.mem = m) (shellExecuteLine L line.length) fun _ => Q := by
  have hptr : (L.line : Int) + (line.takeWhile (· ≠ 32)).length + 1 = L.line + argStart line := by
    unfold argStart
    omega
  unfold shellExecuteLine
  refine hoare_bind loadLen_from fun cwdLen => hoare_fact fun hcwd => ?_
  rw [hcwd]
  refine hoare_ite (fun h => hoare_pure fun s hs => hnone ?_ s hs) fun _ => ?_
  · have : line = [] := List.length_eq_zero_iff.mp (by omega)
    subst this
    rfl
  refine hoare_bind (bytesAt_from L.line line.length) fun typed => hoare_fact fun htyped => ?_
  have haddr : addr L.line = L.line := addr_of_nonneg (by omega) (by omega)
  rw [haddr, Int.toNat_natCast, hline] at htyped
  subst htyped
  dsimp only
  rw [hptr]
  refine hoare_ite (fun harg => hoare_pure fun s hs => hnone (if_pos harg) s hs) fun harg => ?_
  have hpath : pathArg typed = _ := if_neg harg
  refine hoare_ite (fun hverb => ?_) fun hnotCd => hoare_ite (fun hverb => ?_) fun hnotPath =>
    hoare_ite (fun hverb => ?_) fun hnotWrite => hoare_pure fun s hs => hnone ?_ s hs
  · refine hoare_bind (hres _ (hpath.trans (if_pos (Or.inl hverb)))) fun n => ?_
    exact hoare_ite (fun _ => hoare_pure (hR n)) fun hn => hcd n (by omega)
  · exact hoare_bind (hres _ (hpath.trans (if_pos (Or.inr hverb)))) fun n => hoare_pure (hR n)
  · rw [if_neg (not_or.mpr ⟨hnotCd, hnotPath⟩)] at hpath
    refine hoare_ite (fun hsplit => hoare_pure fun s hs => hnone ?_ s hs) fun hsplit => ?_
    · exact hpath.trans (if_neg fun h => absurd h.2 (not_lt.mpr hsplit))
    · exact hoare_bind (hres _ (hpath.trans (if_pos ⟨hverb, not_le.mp hsplit⟩))) fun n =>
        hoare_pure (hR n)
  · rw [if_neg (not_or.mpr ⟨hnotCd, hnotPath⟩)] at hpath
    exact hpath.trans (if_neg fun h => hnotWrite h.1)

/-- The first byte of a path, where the line was typed. -/
theorem head_of_typed {m : Mem} {line path : Bytes} (hlow : L.line + line.length < 2 ^ 63)
    (hline : loadBytes m L.line line.length = line) (hp : path <+: line.drop (argStart line))
    (hne : path ≠ []) : path.head? = some (m (addr (L.line + argStart line))) := by
  obtain ⟨rest, hrest⟩ := hp
  obtain ⟨b, path, rfl⟩ := List.exists_cons_of_ne_nil hne
  have hget : (line.drop (argStart line))[0]? = some b := by
    rw [← hrest]
    rfl
  rw [List.getElem?_drop, Nat.add_zero] at hget
  obtain ⟨hlt, hb⟩ := List.getElem?_eq_some_iff.mp hget
  have haddr : addr (L.line + argStart line) = L.line + argStart line := by
    rw [addr_of_nonneg (by omega) (by omega)]
    omega
  have hbyte := getElem_loadBytes (m := m) (a := L.line) (n := line.length) (i := argStart line)
    (by rwa [length_loadBytes])
  simp only [hline] at hbyte
  rw [haddr, ← hbyte, hb]
  rfl

/-! ## Runs -/

/-- The line is typed; the current path does not change. -/
theorem typed_state (hL : LayoutOk L) (c : Command) (m : Mem) :
    loadBytes (storeBytes m L.line (c.line ++ [0])) L.line c.line.length = c.line ∧
      storeBytes m L.line (c.line ++ [0]) L.cwd = m L.cwd ∧
      storedLen L (storeBytes m L.line (c.line ++ [0])) = storedLen L m := by
  obtain ⟨hcwd, hlen, -⟩ := hL.line_apart
  have hlt : c.line.length < 128 := c.length_lt
  have hlength : (c.line ++ [0]).length = c.line.length + 1 := by simp
  refine ⟨?_, storeBytes_of_outside (by omega), storedLen_congr fun x _ _ =>
    storeBytes_of_outside (by omega)⟩
  have h := loadBytes_storeBytes m L.line (c.line ++ [0])
  rw [hlength] at h
  have hslice : loadBytes (storeBytes m L.line (c.line ++ [0])) (L.line + 0) c.line.length =
      ((loadBytes (storeBytes m L.line (c.line ++ [0])) L.line (c.line.length + 1)).drop 0).take
        c.line.length := loadBytes_slice (by omega)
  rw [h] at hslice
  simpa using hslice

/-- A command that fits keeps the paths safe, and one that does not is a store out of bounds. -/
theorem runCommand_verdict (hL : LayoutOk L) {c : Command} {s u : ShellState}
    (hs : PathsSafe L s) (hrun : runCommand L c s = .ok ((), u)) :
    (Fits L c.line s → PathsSafe L u) ∧ (¬ Fits L c.line s → ¬ StoresOk u) := by
  obtain ⟨hline, hcwd, hlen⟩ := typed_state hL c s.mem
  obtain ⟨-, -, hlow⟩ := hL.line_apart
  have hlt : c.line.length < 128 := c.length_lt
  obtain ⟨_, s₁, htype, hexec⟩ := run_bind_ok.mp hrun
  obtain ⟨-, rfl⟩ := Prod.mk.inj (Except.ok.inj htype)
  dsimp only at hexec
  generalize storeBytes s.mem L.line (c.line ++ [0]) = m at *
  have hfits : ∀ path, PathFits L m path ↔ PathFits L s.mem path := fun path => by
    unfold PathFits
    rw [hlen, hcwd]
  have hstart : PathsSafe L ⟨m, c.kernel, s.stores⟩ :=
    ⟨hs.stores, by rw [hlen]; exact hs.pos, by rw [hlen]; exact hs.lt⟩
  have hhead : ∀ path, pathArg c.line = some path → path ≠ [] →
      path.head? = some (m (addr (L.line + argStart c.line))) := fun path hp =>
    head_of_typed (by omega) hline (pathArg_starts hp)
  refine ⟨fun hf => ?_, fun hf => ?_⟩
  · refine shellExecuteLine_rule (R := fun n s => PathsSafe L s ∧ n < 128) (Q := PathsSafe L)
      (by omega) hline (fun _ _ h => h.1) (fun path hp => ?_) (fun _ _ h => h.1) (fun n hn => ?_)
      _ ⟨hstart, rfl⟩ _ _ hexec
    · have hle := (pathArg_starts hp).length_le
      rw [List.length_drop] at hle
      have hpos : 1 ≤ argStart c.line := Nat.le_add_left 1 _
      exact shellResolvePath_safe hL (hhead path hp) (by omega) ((hfits path).mpr (hf path hp))
    · exact hoare_fact fun hlt => shellRunCd_safe hL hn hlt
  · obtain ⟨path, hp, hnot⟩ : ∃ path, pathArg c.line = some path ∧ ¬ PathFits L s.mem path := by
      simpa [Fits] using hf
    refine shellExecuteLine_rule (R := fun _ s => ¬ StoresOk s) (Q := fun s => ¬ StoresOk s)
      (by omega) hline (fun hnone => ?_) (fun path' hp' => ?_) (fun _ _ h => h)
      (fun n _ => shellRunCd_spoiled n) _ ⟨hstart, rfl⟩ _ _ hexec
    · rw [hp] at hnone
      cases hnone
    · obtain rfl := Option.some.inj (hp.symm.trans hp')
      exact shellResolvePath_spoils hL (hhead _ hp) (by rw [hlen]; exact hs.pos)
        fun h => hnot ((hfits _).mp h)

theorem runCommands_safe_iff (hL : LayoutOk L) {s t : ShellState} {cs : List Command}
    (hs : PathsSafe L s) (hr : runCommands L cs s = .ok ((), t)) :
    PathsSafe L t ↔ EveryFits L cs s := by
  induction cs generalizing s with
  | nil =>
    obtain ⟨-, rfl⟩ := Prod.mk.inj (Except.ok.inj hr)
    exact iff_of_true hs trivial
  | cons c cs ih =>
    obtain ⟨_, u, hc, hr⟩ := run_bind_ok.mp hr
    obtain ⟨hsafe, hspoiled⟩ := runCommand_verdict hL hs hc
    by_cases hf : Fits L c.line s
    · rw [ih (hsafe hf) hr]
      refine ⟨fun h => ⟨hf, fun u' hu' => ?_⟩, fun h => h.2 u hc⟩
      rw [hc] at hu'
      cases hu'
      exact h
    · have hbad := runCommands_spoiled cs u (hspoiled hf) _ t hr
      exact iff_of_false (fun h => hbad h.stores) fun h => hf h.1

/-- From `/` on, the path buffers hold exactly as long as every command fits. -/
theorem shell_paths_safe_iff (hL : LayoutOk L) {s t : ShellState} {cs : List Command}
    (h0 : AtRoot L s) (hr : runCommands L cs s = .ok ((), t)) :
    PathsSafe L t ↔ EveryFits L cs s := runCommands_safe_iff hL h0.safe hr

end Safe

/-! ## A shell at 9 MiB -/

/-- The blocks in the order `shell_run` allocates them. -/
def smallLayout : Layout := ⟨0x900000, 0x900180, 0x900190, 0x900210, 0x900290⟩

theorem smallLayout_ok : LayoutOk smallLayout := by
  refine ⟨?_, ?_⟩
  · simp [Layout.buffers, smallLayout]
  · simp [Layout.buffers, smallLayout]

def smallShell (k : KernelState) : ShellState :=
  ⟨storeQword (storeByte (fun _ => 0) 0x900210 47) 0x900290 1, k, []⟩

theorem smallShell_atRoot (k : KernelState) : AtRoot smallLayout (smallShell k) := by
  refine ⟨rfl, ?_, ?_⟩
  · unfold storedLen smallShell smallLayout
    rw [loadQword_storeQword]
    rfl
  · unfold smallShell smallLayout
    dsimp only
    rw [storeQword_of_outside (by omega), storeByte_self]

/-- A verb of two letters and `n` times `./`. -/
def dotsLine (a b : UInt8) (n : Nat) : Bytes := a :: b :: 32 :: (List.replicate n [46, 47]).flatten

/-- `cd ././…` or `ls ././…` -/
def dotsCommand (k : KernelState) (cd : Bool) (n : Fin 63) : Command where
  line := if cd then dotsLine 99 100 n else dotsLine 108 115 n
  kernel := k
  length_lt := by
    have hn := n.isLt
    cases cd <;> simp [dotsLine, shellLineCapacity] <;> omega
  printable := by
    have hdots : ∀ b ∈ (List.replicate n.val [(46 : UInt8), 47]).flatten, 32 ≤ b ∧ b ≤ 126 := by
      intro b hb
      simp only [List.mem_flatten, List.mem_replicate] at hb
      obtain ⟨_, ⟨-, rfl⟩, hb⟩ := hb
      fin_cases hb <;> decide
    cases cd
    · simpa [dotsLine] using hdots
    · simpa [dotsLine] using hdots

/-- A short `cd`, and a long `cd` with an `ls` behind it, on a kernel that booted. -/
def smallRuns : Except String (KernelState × ShellState × ShellState) :=
  match boot smallMachine with
  | .ok k => do
    let (_, t) ← runCommands smallLayout [dotsCommand k true 1] (smallShell k)
    let (_, u) ← runCommands smallLayout [dotsCommand k true 32, dotsCommand k false 31] (smallShell k)
    if (PathBuf.path, 128) ∈ u.stores then .ok (k, t, u) else .error "inside"
  | .error _ => .error "boot"

theorem smallRuns_ok : ∃ k t u,
    runCommands smallLayout [dotsCommand k true 1] (smallShell k) = .ok ((), t) ∧
    runCommands smallLayout [dotsCommand k true 32, dotsCommand k false 31] (smallShell k) =
      .ok ((), u) ∧ (PathBuf.path, 128) ∈ u.stores := by
  obtain ⟨⟨k, t, u⟩, h⟩ := exists_ok_of_isOk (x := smallRuns) (by decide +kernel)
  unfold smallRuns at h
  split at h
  · obtain ⟨⟨_, t'⟩, ht, h⟩ := bind_eq_ok.mp h
    obtain ⟨⟨_, u'⟩, hu, h⟩ := bind_eq_ok.mp h
    dsimp only at h
    split_ifs at h with hstore
    exact ⟨_, t', u', ht, hu, hstore⟩
  · cases h

theorem shell_paths_safe_iff_small : ∃ k t,
    runCommands smallLayout [dotsCommand k true 1] (smallShell k) = .ok ((), t) ∧
      (PathsSafe smallLayout t ↔ EveryFits smallLayout [dotsCommand k true 1] (smallShell k)) := by
  obtain ⟨k, t, _, hr, -⟩ := smallRuns_ok
  exact ⟨k, t, hr, shell_paths_safe_iff smallLayout_ok (smallShell_atRoot k) hr⟩

/-- `cd` to a long name of `/`, and then a long relative path: the terminator goes behind the end of
    `path_buf`. -/
theorem shell_path_overruns : ¬ ∀ (L : Layout) (s t : ShellState) (cs : List Command),
    LayoutOk L → AtRoot L s → runCommands L cs s = .ok ((), t) → PathsSafe L t := by
  intro hsafe
  obtain ⟨k, _, u, -, hr, hstore⟩ := smallRuns_ok
  have hu := hsafe _ _ u _ smallLayout_ok (smallShell_atRoot k) hr
  exact absurd (hu.stores _ hstore).2 (by decide)

end PcoOs.Shell
