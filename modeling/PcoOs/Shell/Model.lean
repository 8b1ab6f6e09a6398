/-
  The shell (`kshell.py`): the commands that take a path, the buffer they build it in and the
  current path. Lengths and pointers are signed 64-bit values. What a command prints, and what
  `ls`, `cat`, `stat`, `write`, `run` and `spawn` do with a resolved path, is left out: it goes
  through kernel calls that store to neither path buffer.
-/
import PcoOs.Lib.Program
import PcoOs.Syscall.Model

namespace PcoOs.Shell

open PcoOs.Lib PcoOs.Lib.Prog PcoOs.Support PcoOs.Pmm PcoOs.Vfs PcoOs.Kernel PcoOs.Syscall

def shellLineCapacity : Nat := 128
def shellPathCapacity : Nat := 128

/-- The buffers `shell_run` allocates, as far as they matter here. -/
structure Layout where
  line : Nat
  stat : Nat
  path : Nat
  cwd : Nat
  cwdLen : Nat

/-- The two path buffers. -/
inductive PathBuf where
  | path
  | cwd
deriving DecidableEq, Repr

def Layout.ptr (L : Layout) : PathBuf → Nat
  | .path => L.path
  | .cwd => L.cwd

/-- All of memory, the kernel's state and the indices stored to in the path buffers. -/
structure ShellState where
  mem : Mem
  kernel : KernelState
  stores : List (PathBuf × Int)

abbrev ShellProg (α : Type) := Prog ShellState String α

def loadByteS (ptr : Int) : ShellProg UInt8 := gets fun s => s.mem (addr ptr)

def loadQwordS (base : Nat) (count slot : Int) : ShellProg Int := fun s => do
  let w ← loadQwordRegion s.mem base count slot
  .ok (wrap w, s)

def storeQwordS (base : Nat) (count slot value : Int) : ShellProg Unit := fun s => do
  let m ← storeQwordRegion s.mem base count slot (addr value)
  .ok ((), { s with mem := m })

/-- `store_byte(dst + i, b)` for a path buffer `dst`. -/
def storePath (L : Layout) (dst : PathBuf) (i : Int) (b : UInt8) : ShellProg Unit :=
  update fun s =>
    { s with mem := storeByte s.mem (addr (L.ptr dst + i)) b, stores := (dst, i) :: s.stores }

/-- The loop that copies `length` bytes to the indices from `i` on. -/
def copyBytesTo (L : Layout) (dst : PathBuf) (i src length : Int) : ShellProg Unit :=
  times (fun k => do
    let b ← loadByteS (src + k)
    storePath L dst (i + k) b) 0 length.toNat

def shellCopyBuffer (L : Layout) (dst : PathBuf) (src length : Int) : ShellProg Unit := do
  copyBytesTo L dst 0 src length
  storePath L dst length 0

/-- `shell_resolve_path` into `path_buf`; the result is the length, or negative. -/
def shellResolvePath (L : Layout) (cwdLen pathPtr pathLen : Int) : ShellProg Int :=
  if pathLen ≤ 0 then pure (-1)
  else do
    let first ← loadByteS (pathPtr + 0)
    if first = 47 then do
      shellCopyBuffer L .path pathPtr pathLen
      pure pathLen
    else if cwdLen ≤ 0 then pure (-1)
    else do
      let root ← loadByteS (L.cwd + 0)
      if cwdLen = 1 ∧ root = 47 then do
        storePath L .path 0 47
        copyBytesTo L .path 1 pathPtr pathLen
        storePath L .path (pathLen + 1) 0
        pure (pathLen + 1)
      else do
        shellCopyBuffer L .path L.cwd cwdLen
        storePath L .path cwdLen 47
        copyBytesTo L .path (cwdLen + 1) pathPtr pathLen
        storePath L .path (cwdLen + 1 + pathLen) 0
        pure (wrap (cwdLen + 1 + pathLen))

/-- The bytes at a pointer. -/
def bytesAt (ptr length : Int) : ShellProg Bytes :=
  gets fun s => loadBytes s.mem (addr ptr) length.toNat

/-- A file call of the shell's task: the result and the bytes for its buffer. -/
def shellCall (c : FileCall) : ShellProg (Int × Bytes) := fun s => do
  let (r, bytes, kernel) ← fileCall s.kernel c
  .ok ((r, bytes), { s with kernel := kernel })

/-- `sys_close`, whose result is not looked at. -/
def sysClose (fd : Int) : ShellProg Unit := do
  let _ ← shellCall (.close fd)
  pure ()

def shellRunCd (L : Layout) (pathLen : Int) : ShellProg Unit := do
  let path ← bytesAt L.path pathLen
  let fd ← shellCall (.openPath path 0)
  if fd.1 < 0 then pure ()
  else do
    let r ← shellCall (.fstat fd.1)
    update fun s => { s with mem := storeBytes s.mem L.stat r.2 }
    let kind ← loadQwordS L.stat 2 0
    if r.1 ≠ 0 ∨ kind ≠ 2 then sysClose fd.1
    else do
      shellCopyBuffer L .cwd L.path pathLen
      storeQwordS L.cwdLen 1 0 pathLen
      sysClose fd.1

/-! ## Commands -/

/-- `cd` -/
def verbCd : Bytes := [99, 100]

/-- `ls`, `run`, `cat` and `stat` -/
def verbsPath : List Bytes := [[108, 115], [114, 117, 110], [99, 97, 116], [115, 116, 97, 116]]

/-- `write` -/
def verbWrite : Bytes := [119, 114, 105, 116, 101]

/-- `shell_execute_line` on the `lineLen` bytes in `line_buf`. The commands without a path come to
    nothing here, and so does a line that is no command. -/
def shellExecuteLine (L : Layout) (lineLen : Int) : ShellProg Unit := do
  let cwdLen ← loadQwordS L.cwdLen 1 0
  if lineLen ≤ 0 then pure ()
  else do
    let line ← bytesAt L.line lineLen
    let verb := line.takeWhile (· ≠ 32)
    let arg := line.drop (verb.length + 1)
    let argPtr : Int := L.line + verb.length + 1
    if arg = [] then pure ()
    else if verb = verbCd then do
      let resolved ← shellResolvePath L cwdLen argPtr arg.length
      if resolved ≤ 0 then pure () else shellRunCd L resolved
    else if verb ∈ verbsPath then do
      let _ ← shellResolvePath L cwdLen argPtr arg.length
      pure ()
    else if verb = verbWrite then do
      let split := (arg.takeWhile (· ≠ 32)).length
      if split ≥ arg.length then pure ()
      else do
        let _ ← shellResolvePath L cwdLen argPtr split
        pure ()
    else pure ()

/-- A line as `shell_run` hands it over, and the state the kernel is in by then. -/
structure Command where
  line : Bytes
  kernel : KernelState
  length_lt : line.length < shellLineCapacity
  printable : ∀ b ∈ line, 32 ≤ b ∧ b ≤ 126

/-- The line is typed and executed. -/
def runCommand (L : Layout) (c : Command) : ShellProg Unit := do
  update fun s => { s with mem := storeBytes s.mem L.line (c.line ++ [0]), kernel := c.kernel }
  shellExecuteLine L c.line.length

/-- Commands after each other. -/
def runCommands (L : Layout) : List Command → ShellProg Unit
  | [] => pure ()
  | c :: cs => do
    runCommand L c
    runCommands L cs

end PcoOs.Shell
