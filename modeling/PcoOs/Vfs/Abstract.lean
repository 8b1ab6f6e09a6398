/-
  What the file system is for: named files with bytes, and handles with a position. Buffers,
  addresses and the early heap are gone, and so is what they could do wrong: a call touches the
  file of its handle and nothing else. A file also has the bytes its buffer holds behind its end,
  because a later write can bring them back. A directory is what the names of the files say, and
  a position in one counts the children before it.
-/
import PcoOs.Vfs.Listing

namespace PcoOs.Vfs

open PcoOs.Lib PcoOs.Support

/-! ## Files -/

/-- `spare` is what the buffer holds behind the end of the file. -/
structure File where
  name : Bytes
  kind : NodeKind
  flags : Nat
  bytes : Bytes
  spare : Bytes
  deriving DecidableEq

def File.writable (f : File) : Bool := f.flags &&& nodeFlagWritable ≠ 0

def File.room (f : File) : Nat := f.bytes.length + f.spare.length

/-- The size of a new buffer for `size` bytes: at least 64, and at least twice the old one. -/
def File.larger (f : File) (size : Nat) : Nat := max (max 64 size) (2 * f.room)

/-- The buffer a write of `size` bytes in total goes to. A new one is zero behind the file. -/
def File.buffer (f : File) (size : Nat) : Bytes :=
  if size ≤ f.room then f.bytes ++ f.spare
  else f.bytes ++ List.replicate (f.larger size - f.bytes.length) 0

def File.write (f : File) (position : Nat) (bytes : Bytes) : File :=
  let stop := position + bytes.length
  let buffer := (f.buffer stop).take position ++ bytes ++ (f.buffer stop).drop stop
  let size := max f.bytes.length stop
  { f with bytes := buffer.take size, spare := buffer.drop size }

def File.truncate (f : File) : File := { f with bytes := [], spare := f.bytes ++ f.spare }

/-! ## Directories -/

/-- The entry of `dir` that a file of this name lies at or below. -/
def childOf (dir name : Bytes) : Option Bytes :=
  if dirPrefix dir <+: name then
    some ((name.drop (dirPrefix dir).length).takeWhile (· ≠ slash)) |>.filter (· ≠ [])
  else none

/-- The entries of `dir`, each where it is met first. -/
def children (names : List Bytes) (dir : Bytes) : List Bytes :=
  (names.filterMap (childOf dir)).eraseDups

/-! ## The file system -/

inductive Handle where
  | closed
  | consoleIn
  | consoleOut
  | file (id position : Nat)
  | directory (path : Bytes) (position : Nat)
  deriving DecidableEq

structure FileSystem where
  files : List File
  handle : Nat → Handle

/-- The result of a call, the bytes it returns and the words of `stat`. -/
structure Reply where
  value : Int
  bytes : Bytes
  words : List Nat
  deriving DecidableEq

namespace FileSystem

def names (s : FileSystem) : List Bytes := s.files.map File.name

def lookup (s : FileSystem) (name : Bytes) : Option Nat := s.files.findIdx? fun f => f.name = name

def modify (s : FileSystem) (id : Nat) (f : File → File) : FileSystem :=
  { s with files := s.files.modify id f }

def add (s : FileSystem) (f : File) : FileSystem := { s with files := s.files ++ [f] }

def setHandle (s : FileSystem) (id : Nat) (h : Handle) : FileSystem :=
  { s with handle := Function.update s.handle id h }

/-- Hand out the first closed handle, or 0. -/
def hand (s : FileSystem) (h : Handle) : Reply × FileSystem :=
  match (List.range' 1 maxVfsDescriptors).find? fun id => s.handle id = .closed with
  | some id => (⟨id, [], []⟩, s.setHandle id h)
  | none => (⟨0, [], []⟩, s)

/-- The parent is a directory files may be put in. -/
def mayCreate (s : FileSystem) (name : Bytes) : Bool :=
  name.length > 1 && ((s.lookup (parentPath name)).bind (s.files[·]?)).any fun f =>
    f.kind = .directory ∧ f.writable

/-- A directory is there, or a file lies below it. -/
def isDirectory (s : FileSystem) (name : Bytes) : Bool :=
  name = [slash] ∨ s.files.any fun f =>
    (f.kind = .directory ∧ f.name = name) ∨ dirPrefix name <+: f.name

/-- The first flag bit asks for a new file, the second for an empty one. -/
def openPath (s : FileSystem) (path : Bytes) (flags : Int) : Except String (Reply × FileSystem) :=
  let name := normalForm path
  if flags < 0 ∨ flags > 3 ∨ path.head? ≠ some slash then .ok (⟨0, [], []⟩, s)
  else if name = [slash] then .ok (s.hand (.directory name 0))
  else match s.lookup name with
  | some id => match s.files[id]? with
    | none => .ok (⟨0, [], []⟩, s)
    | some f =>
      if f.kind = .directory then .ok (s.hand (.directory name 0))
      else if flags.toNat &&& 2 ≠ 0 ∧ f.writable then .ok ((s.modify id File.truncate).hand (.file id 0))
      else .ok (s.hand (.file id 0))
  | none =>
    if flags.toNat &&& 1 ≠ 0 ∧ s.mayCreate name then
      if s.files.length ≥ maxVfsNodes then .error "vfs node table full"
      else .ok ((s.add ⟨name, .file, nodeFlagWritable, [], []⟩).hand (.file s.files.length 0))
    else if s.isDirectory name then .ok (s.hand (.directory name 0))
    else .ok (⟨0, [], []⟩, s)

/-- What a call on handle `id` does; there is none with number 0. -/
def onHandle (s : FileSystem) (id : Nat) (f : Handle → Reply × FileSystem) :
    Except String (Reply × FileSystem) :=
  if id = 0 then .ok (⟨-1, [], []⟩, s)
  else if id > maxVfsDescriptors then .error "vfs desc id out of range"
  else .ok (f (s.handle id))

/-- A write through a file handle, which moves it. -/
def writeFile (s : FileSystem) (id fileId position : Nat) (bytes : Bytes) : Reply × FileSystem :=
  match s.files[fileId]?.filter File.writable with
  | none => (⟨-1, [], []⟩, s)
  | some _ =>
    if wrap (position + bytes.length) < position then (⟨-1, [], []⟩, s)
    else (⟨bytes.length, [], []⟩,
      (s.modify fileId fun f => f.write position bytes).setHandle id
        (.file fileId (position + bytes.length)))

def write (s : FileSystem) (id : Nat) (bytes : Bytes) : Handle → Reply × FileSystem
  | .consoleOut => (⟨bytes.length, [], []⟩, s)
  | .file fileId position => s.writeFile id fileId position bytes
  | _ => (⟨-1, [], []⟩, s)

/-- A read of a file moves its handle. -/
def readFile (s : FileSystem) (id fileId position length : Nat) : Reply × FileSystem :=
  let bytes := (((s.files[fileId]?.map File.bytes).getD []).drop position).take length
  (⟨bytes.length, bytes, []⟩, s.setHandle id (.file fileId (position + bytes.length)))

def read (s : FileSystem) (id length : Nat) (input : Bytes) : Handle → Reply × FileSystem
  | .consoleIn => (⟨(consoleReadPtrLen input length).length, consoleReadPtrLen input length, []⟩, s)
  | .file fileId position => s.readFile id fileId position length
  | _ => (⟨-1, [], []⟩, s)

/-- The next entry, of which at most `length` bytes are returned. -/
def readdir (s : FileSystem) (id length : Nat) : Handle → Reply × FileSystem
  | .directory path position =>
    match (children s.names path)[position]? with
    | none => (⟨0, [], []⟩, s)
    | some child => (⟨(child.take length).length, child.take length, []⟩,
        s.setHandle id (.directory path (position + 1)))
  | _ => (⟨-1, [], []⟩, s)

def stat (s : FileSystem) : Handle → Reply × FileSystem
  | .directory path _ =>
    (⟨0, [], [NodeKind.directory.code, (children s.names path).length]⟩, s)
  | .file fileId _ =>
    let f := s.files[fileId]?.getD ⟨[], .file, 0, [], []⟩
    (⟨0, [], [f.kind.code, f.bytes.length]⟩, s)
  | _ => (⟨-1, [], []⟩, s)

def close (s : FileSystem) (id : Nat) : Handle → Reply × FileSystem
  | .closed => (⟨-1, [], []⟩, s)
  | _ => (⟨0, [], []⟩, s.setHandle id .closed)

def call (s : FileSystem) : VfsCall → Except String (Reply × FileSystem)
  | .openPath path flags => s.openPath path flags
  | .write id bytes => s.onHandle id (s.write id bytes)
  | .read id length input => s.onHandle id (s.read id length input)
  | .readdir id length => s.onHandle id (s.readdir id length)
  | .stat id => s.onHandle id s.stat
  | .close id => s.onHandle id (s.close id)
  | .consoleIn => .ok (s.hand .consoleIn)
  | .consoleOut => .ok (s.hand .consoleOut)
  | .use _ _ => .ok (⟨0, [], []⟩, s)

/-! ## New handles -/

def freeHandle (s : FileSystem) : Option Nat :=
  (List.range' 1 maxVfsDescriptors).find? fun id => s.handle id = .closed

theorem freeHandle_some {s : FileSystem} {id : Nat} (h : s.freeHandle = some id) :
    1 ≤ id ∧ id ≤ maxVfsDescriptors ∧ s.handle id = .closed := by
  have hmem := List.mem_of_find?_eq_some h
  have hclosed := List.find?_some h
  rw [List.mem_range'_1] at hmem
  exact ⟨hmem.1, by omega, of_decide_eq_true hclosed⟩

theorem hand_eq (s : FileSystem) (h : Handle) : s.hand h =
    (s.freeHandle.map fun id : Nat => (⟨id, [], []⟩, s.setHandle id h)).getD (⟨0, [], []⟩, s) := by
  unfold hand freeHandle
  cases (List.range' 1 maxVfsDescriptors).find? fun id => s.handle id = .closed <;> rfl

theorem hand_cases (s : FileSystem) (h : Handle) :
    ((s.hand h).1.value = 0 ∧ (s.hand h).2 = s) ∨
      ((s.hand h).1.value.toNat ≠ 0 ∧ s.handle (s.hand h).1.value.toNat = .closed ∧
        (s.hand h).2 = s.setHandle (s.hand h).1.value.toNat h) := by
  rw [hand_eq]
  cases hf : s.freeHandle with
  | none => exact Or.inl ⟨rfl, rfl⟩
  | some id =>
    obtain ⟨hpos, -, hclosed⟩ := freeHandle_some hf
    refine Or.inr ⟨?_, hclosed, rfl⟩
    show (id : Int).toNat ≠ 0
    omega

/-- What a path stands for, if anything. -/
def target (s : FileSystem) (path : Bytes) : Option Handle :=
  let name := normalForm path
  if path.head? ≠ some slash then none
  else if name = [slash] then some (.directory name 0)
  else match s.lookup name with
  | some id => s.files[id]?.map fun f => if f.kind = .directory then .directory name 0 else .file id 0
  | none => if s.isDirectory name then some (.directory name 0) else none

/-- Without flags an open hands out what the path stands for. -/
theorem openPath_zero (s : FileSystem) (path : Bytes) :
    s.openPath path 0 = .ok (((s.target path).map s.hand).getD (⟨0, [], []⟩, s)) := by
  unfold openPath target
  dsimp only
  by_cases hhead : path.head? ≠ some slash
  · rw [if_pos (Or.inr (Or.inr hhead)), if_pos hhead]
    rfl
  rw [if_neg (by rintro (h | h | h); exacts [absurd h (by decide), absurd h (by decide), hhead h]),
    if_neg hhead]
  by_cases hroot : normalForm path = [slash]
  · rw [if_pos hroot, if_pos hroot]
    rfl
  rw [if_neg hroot, if_neg hroot]
  cases hl : s.lookup (normalForm path) with
  | some id =>
    dsimp only
    cases hf : s.files[id]? with
    | none => rfl
    | some f =>
      dsimp only [Option.map_some]
      by_cases hdir : f.kind = .directory
      · rw [if_pos hdir, if_pos hdir]
        rfl
      · rw [if_neg hdir, if_neg hdir, if_neg (fun h => h.1 rfl)]
        rfl
  | none =>
    dsimp only
    rw [if_neg (fun h => h.1 rfl)]
    by_cases hdir : s.isDirectory (normalForm path) = true
    · rw [if_pos hdir, if_pos hdir]
      rfl
    · rw [if_neg hdir, if_neg hdir]
      rfl

/-- An open comes to nothing, or hands out a handle once the file is as the flags ask for. -/
theorem openPath_cases (s : FileSystem) {s' : FileSystem} {path : Bytes} {flags : Int} {r : Reply}
    (h : s.openPath path flags = .ok (r, s')) : (r = ⟨0, [], []⟩ ∧ s' = s) ∨
      ∃ (s₁ : FileSystem) (x : Handle), s₁.handle = s.handle ∧ s₁.hand x = (r, s') := by
  have hnone : (.ok (⟨0, [], []⟩, s) : Except String (Reply × FileSystem)) = .ok (r, s') →
      (r = ⟨0, [], []⟩ ∧ s' = s) ∨
        ∃ (s₁ : FileSystem) (x : Handle), s₁.handle = s.handle ∧ s₁.hand x = (r, s') := by
    intro hx
    cases hx
    exact Or.inl ⟨rfl, rfl⟩
  have hhand : ∀ (s₁ : FileSystem) x, s₁.handle = s.handle →
      (.ok (s₁.hand x) : Except String (Reply × FileSystem)) = .ok (r, s') →
      (r = ⟨0, [], []⟩ ∧ s' = s) ∨
        ∃ (s₁ : FileSystem) (x : Handle), s₁.handle = s.handle ∧ s₁.hand x = (r, s') :=
    fun s₁ x hs hx => Or.inr ⟨s₁, x, hs, Except.ok.inj hx⟩
  unfold openPath at h
  dsimp only at h
  by_cases hbad : flags < 0 ∨ flags > 3 ∨ path.head? ≠ some slash
  · rw [if_pos hbad] at h
    exact hnone h
  rw [if_neg hbad] at h
  by_cases hroot : normalForm path = [slash]
  · rw [if_pos hroot] at h
    exact hhand s _ rfl h
  rw [if_neg hroot] at h
  cases hl : s.lookup (normalForm path) with
  | some id =>
    rw [hl] at h
    dsimp only at h
    cases hf : s.files[id]? with
    | none =>
      rw [hf] at h
      exact hnone h
    | some f =>
      rw [hf] at h
      dsimp only at h
      split_ifs at h with hdir htrunc
      · exact hhand s _ rfl h
      · exact hhand (s.modify id File.truncate) _ rfl h
      · exact hhand s _ rfl h
  | none =>
    rw [hl] at h
    dsimp only at h
    split_ifs at h with hcreate hfull hdir
    · exact hhand (s.add ⟨normalForm path, .file, nodeFlagWritable, [], []⟩) _ rfl h
    · exact hhand s _ rfl h
    · exact hnone h

end FileSystem

end PcoOs.Vfs
