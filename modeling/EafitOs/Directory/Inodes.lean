import EafitOs.Foundation.Panics
import EafitOs.Foundation.Runs
import Mathlib.Algebra.Group.Int.Defs
import Mathlib.Algebra.Group.Nat.Defs
import Mathlib.Data.List.FinRange

/-!
# Inodes, directory entries and path lookup

The inode layer of `fs.c` as the naming system calls see it: inode records with
their link counts and directory contents, the reference counts of the inode
table, and the lookup of path names. An inode in the table is equal to its record
on disk after every `iupdate`, so one record stands for both. Which directory
growth still finds a disk block is an arbitrary sequence of answers.
-/

namespace EafitOs.Directory

open Foundation Function

def ninodes : Nat := 200

/-- `NINODE`, the entries of the inode table. -/
def ninode : Nat := 50

def nfile : Nat := 100

def nofile : Nat := 16

def nproc : Nat := 64

theorem nproc_pos : 0 < nproc := by decide

theorem nfile_pos : 0 < nfile := by decide

def ndev : Nat := 10

def maxpath : Nat := 128

def dirsiz : Nat := 14

def rootino : Nat := 1

def entriesPerBlock : Nat := 64

/-- Directory entries in a file of `MAXFILE` blocks. -/
def maxEntries : Nat := 268 * entriesPerBlock

abbrev Path := List UInt8

abbrev Name := List UInt8

def dot : Name := [46]

def dotdot : Name := [46, 46]

/-- The value a `short` holds after being assigned `n`. -/
def short (n : Int) : Int :=
  n.bmod (2 ^ 16)

inductive InodeType
  | free
  | dir
  | file
  | device
  deriving DecidableEq

/-- A directory entry. `gen` is not stored: it says which allocation of the inode number
the entry was made for. -/
structure Dirent where
  inum : Nat
  name : Name
  gen : Nat
  deriving DecidableEq

/-- An inode with the entries it holds when it is a directory. `gen` is not stored: it
counts the allocations of the inode number. -/
structure Inode where
  type : InodeType
  major : Int
  nlink : Int
  entries : List Dirent
  gen : Nat

inductive FileType
  | none
  | inode
  | device
  deriving DecidableEq

structure File where
  type : FileType
  ref : Nat
  ip : Nat

structure Proc where
  ofile : Fin nofile → Option (Fin nfile)
  cwd : Nat

inductive Slot
  | unused
  | live (p : Proc)
  | zombie

/-- The inodes, the reference count and `valid` flag of each in the inode table, the open
files, the processes, and the answers of the block allocator with the number already
used. -/
structure State where
  inode : Nat → Inode
  ref : Nat → Nat
  valid : Nat → Bool
  ftable : Fin nfile → File
  slot : Fin nproc → Slot
  room : Nat → Bool
  asked : Nat
  panic : Option String

namespace State

def setInode (s : State) (i : Nat) (n : Inode) : State :=
  { s with inode := update s.inode i n }

@[simp] theorem setInode_self (s : State) (i : Nat) (n : Inode) : (s.setInode i n).inode i = n :=
  update_self ..

@[simp] theorem setInode_setInode (s : State) (i : Nat) (n n' : Inode) :
    (s.setInode i n).setInode i n' = s.setInode i n' := by
  rw [setInode, setInode, setInode, update_idem]

def inUse (s : State) : Nat :=
  (List.range ninodes).countP fun i => 0 < s.ref i

end State

def iget (s : State) (i : Nat) : Except String State :=
  if 0 < s.ref i then
    .ok { s with ref := update s.ref i (s.ref i + 1) }
  else if ninode ≤ s.inUse then
    .error "iget: no inodes"
  else
    .ok { s with ref := update s.ref i 1, valid := update s.valid i false }

def idup (s : State) (i : Nat) : State :=
  { s with ref := update s.ref i (s.ref i + 1) }

def ilock (s : State) (i : Nat) : Except String State :=
  if s.ref i < 1 then
    .error "ilock"
  else if s.valid i then
    .ok s
  else if (s.inode i).type = .free then
    .error "ilock: no type"
  else
    .ok { s with valid := update s.valid i true }

def iput (s : State) (i : Nat) : State :=
  if s.ref i = 1 ∧ s.valid i = true ∧ (s.inode i).nlink = 0 then
    { s.setInode i { s.inode i with type := .free, entries := [] } with
      ref := update s.ref i 0
      valid := update s.valid i false }
  else
    { s with ref := update s.ref i (s.ref i - 1) }

/-- The first free inode number gets a cleared record of the given type. -/
def ialloc (s : State) (type : InodeType) : Except String (Option Nat × State) :=
  match (List.range' 1 (ninodes - 1)).find? fun i => (s.inode i).type = .free with
  | none => .ok (none, s)
  | some i => do
    let s ← iget (s.setInode i ⟨type, 0, 0, [], (s.inode i).gen + 1⟩) i
    return (some i, s)

/-- The scan of `dirlookup`: the first entry in use with the name, and its index. -/
def findEntry (name : Name) : List Dirent → Nat → Option (Nat × Dirent)
  | [], _ => none
  | e :: es, k => if e.inum ≠ 0 ∧ e.name = name then some (k, e) else findEntry name es (k + 1)

def dirlookup (s : State) (dp : Nat) (name : Name) :
    Except String (Option (Nat × Nat) × State) :=
  if (s.inode dp).type ≠ .dir then
    .error "dirlookup not DIR"
  else
    match findEntry name (s.inode dp).entries 0 with
    | none => .ok (none, s)
    | some (k, e) => do
      let s ← iget s e.inum
      return (some (e.inum, k), s)

/-- `writei` of one entry: an entry inside the file is overwritten, the next one after its
end needs a new block where it starts one. -/
def writeEntry (s : State) (dp k : Nat) (e : Dirent) : Bool × State :=
  let n := s.inode dp
  let grown := s.setInode dp { n with entries := n.entries ++ [e] }
  if k < n.entries.length then
    (true, s.setInode dp { n with entries := n.entries.set k e })
  else if maxEntries ≤ k then
    (false, s)
  else if k % entriesPerBlock ≠ 0 then
    (true, grown)
  else if s.room s.asked then
    (true, { grown with asked := s.asked + 1 })
  else
    (false, { s with asked := s.asked + 1 })

/-- Put the name into the directory, at the first unused entry or at the end. -/
def dirlink (s : State) (dp : Nat) (name : Name) (inum : Nat) : Except String (Bool × State) := do
  let (found, s) ← dirlookup s dp name
  match found with
  | some (ip, _) => return (false, iput s ip)
  | none =>
    let k := (s.inode dp).entries.findIdx fun e => e.inum == 0
    return writeEntry s dp k ⟨inum, name, (s.inode inum).gen⟩

def slash : UInt8 := 47

/-- The next element of the path, cut to `DIRSIZ` bytes, and the path after it. -/
def skipelem (path : Path) : Option (Name × Path) :=
  match path.dropWhile (· = slash) with
  | [] => none
  | p => some ((p.takeWhile (· ≠ slash)).take dirsiz,
      (p.dropWhile (· ≠ slash)).dropWhile (· = slash))

/-- The loop of `namex` at inode `ip`; `parent` asks to stop one level early. -/
def namexLoop (parent : Bool) : Nat → State → Nat → Path → Name →
    Except String (Option (Nat × Name) × State)
  | 0, s, ip, _, _ => .ok (none, iput s ip)
  | fuel + 1, s, ip, path, name =>
    match skipelem path with
    | none => if parent then .ok (none, iput s ip) else .ok (some (ip, name), s)
    | some (name, rest) => do
      let s ← ilock s ip
      if (s.inode ip).type ≠ .dir then
        return (none, iput s ip)
      else if parent ∧ rest = [] then
        return (some (ip, name), s)
      else
        let (next, s) ← dirlookup s ip name
        match next with
        | none => return (none, iput s ip)
        | some (ip', _) => namexLoop parent fuel (iput s ip) ip' rest name

def start (cwd : Nat) (path : Path) : Nat :=
  if path.head? = some slash then rootino else cwd

/-- The reference `namex` takes before its loop. -/
def enter (s : State) (cwd : Nat) (path : Path) : Except String State :=
  if path.head? = some slash then iget s rootino else .ok (idup s cwd)

def namex (s : State) (cwd : Nat) (path : Path) (parent : Bool) :
    Except String (Option (Nat × Name) × State) := do
  let s ← enter s cwd path
  namexLoop parent (path.length + 1) s (start cwd path) path []

def namei (s : State) (cwd : Nat) (path : Path) : Except String (Option Nat × State) := do
  let (r, s) ← namex s cwd path false
  return (r.map (·.1), s)

def nameiparent (s : State) (cwd : Nat) (path : Path) :
    Except String (Option (Nat × Name) × State) :=
  namex s cwd path true

end EafitOs.Directory
