import EafitOs.Directory.Inodes

/-!
# The naming system calls

`open`, `mkdir`, `mknod`, `link`, `unlink`, `chdir` and `close` of `sysfile.c`, and
what `fork` and `exit` do to open files and current directories. Calls run one at a
time, each inside one transaction. A call ends in its result and the new state, or
panics and stops the machine.
-/

namespace EafitOs.Directory

open Foundation Function

def oCreate : Nat := 0x200

def oRdonly : Nat := 0

/-- The string a system call fetches: up to its terminator, and shorter than `MAXPATH`. -/
def argstr (arg : Path) : Option Path :=
  let str := arg.takeWhile (· ≠ 0)
  if str.length < maxpath then some str else none

def State.setFile (s : State) (f : Fin nfile) (x : File) : State :=
  { s with ftable := update s.ftable f x }

def State.setSlot (s : State) (i : Fin nproc) (sl : Slot) : State :=
  { s with slot := update s.slot i sl }

def filealloc (s : State) : Option (Fin nfile × State) :=
  ((List.finRange nfile).find? fun f => (s.ftable f).ref = 0).map fun f =>
    (f, s.setFile f { s.ftable f with ref := 1 })

def filedup (s : State) (f : Fin nfile) : Except String State :=
  if (s.ftable f).ref < 1 then
    .error "filedup"
  else
    .ok (s.setFile f { s.ftable f with ref := (s.ftable f).ref + 1 })

def fileclose (s : State) (f : Fin nfile) : Except String State :=
  let ff := s.ftable f
  if ff.ref < 1 then
    .error "fileclose"
  else if 0 < ff.ref - 1 then
    .ok (s.setFile f { ff with ref := ff.ref - 1 })
  else
    let s := s.setFile f { ff with ref := 0, type := .none }
    if ff.type = .none then .ok s else .ok (iput s ff.ip)

def fdalloc (p : Proc) : Option (Fin nofile) :=
  (List.finRange nofile).find? fun fd => (p.ofile fd).isNone

/-- The error exit of `create`: the new inode loses its link and both are put. -/
def createFail (s : State) (dp ip : Nat) : Option Nat × State :=
  (none, iput (iput (s.setInode ip { s.inode ip with nlink := 0 }) ip) dp)

/-- The end of `create`: the name goes into the parent, which a new directory links to. -/
def createName (s : State) (dp ip : Nat) (name : Name) (type : InodeType) :
    Except String (Option Nat × State) := do
  let (ok, s) ← dirlink s dp name ip
  if ¬ ok then
    return createFail s dp ip
  else if type = .dir then
    let s := s.setInode dp { s.inode dp with nlink := short ((s.inode dp).nlink + 1) }
    return (some ip, iput s dp)
  else
    return (some ip, iput s dp)

/-- The entries `.` and `..` of a new directory. -/
def createDots (s : State) (dp ip : Nat) : Except String (Bool × State) := do
  let (ok, s) ← dirlink s ip dot ip
  if ¬ ok then
    return (false, s)
  else
    dirlink s ip dotdot dp

/-- The part of `create` after `ialloc`. -/
def createInode (s : State) (dp ip : Nat) (name : Name) (type : InodeType) (major : Int) :
    Except String (Option Nat × State) := do
  let s ← ilock s ip
  let s := s.setInode ip { s.inode ip with major := short major, nlink := 1 }
  if type = .dir then
    let (ok, s) ← createDots s dp ip
    if ¬ ok then
      return createFail s dp ip
    else
      createName s dp ip name type
  else
    createName s dp ip name type

/-- The part of `create` for a name that exists. -/
def createFound (s : State) (dp ip : Nat) (type : InodeType) :
    Except String (Option Nat × State) := do
  let s ← ilock (iput s dp) ip
  if type = .file ∧ ((s.inode ip).type = .file ∨ (s.inode ip).type = .device) then
    return (some ip, s)
  else
    return (none, iput s ip)

def create (s : State) (cwd : Nat) (path : Path) (type : InodeType) (major : Int) :
    Except String (Option Nat × State) := do
  let (r, s) ← nameiparent s cwd path
  match r with
  | none => return (none, s)
  | some (dp, name) =>
    let s ← ilock s dp
    let (found, s) ← dirlookup s dp name
    match found with
    | some (ip, _) => createFound s dp ip type
    | none =>
      let (new, s) ← ialloc s type
      match new with
      | none => return (none, iput s dp)
      | some ip => createInode s dp ip name type major

def linkBad (s : State) (ip : Nat) : Except String (Int × State) := do
  let s ← ilock s ip
  return (-1, iput (s.setInode ip { s.inode ip with nlink := short ((s.inode ip).nlink - 1) }) ip)

/-- The part of `sys_link` after the link count went up. -/
def linkName (s : State) (cwd : Nat) (new : Path) (ip : Nat) : Except String (Int × State) := do
  let (r, s) ← nameiparent s cwd new
  match r with
  | none => linkBad s ip
  | some (dp, name) =>
    let s ← ilock s dp
    let (ok, s) ← dirlink s dp name ip
    if ¬ ok then
      linkBad (iput s dp) ip
    else
      return (0, iput (iput s dp) ip)

def sysLink (s : State) (cwd : Nat) (old new : Path) : Except String (Int × State) := do
  let (r, s) ← namei s cwd old
  match r with
  | none => return (-1, s)
  | some ip =>
    let s ← ilock s ip
    if (s.inode ip).type = .dir then
      return (-1, iput s ip)
    else
      linkName (s.setInode ip { s.inode ip with nlink := short ((s.inode ip).nlink + 1) })
        cwd new ip

/-- The scan starts after the two entries that every directory has first. -/
def isdirempty (n : Inode) : Bool :=
  (n.entries.drop 2).all fun e => e.inum == 0

/-- The part of `sys_unlink` that removes entry `k` of `dp`, which refers to `ip`. -/
def unlinkEntry (s : State) (dp ip k : Nat) : Except String (Int × State) :=
  let (ok, s) := writeEntry s dp k ⟨0, [], 0⟩
  if ¬ ok then
    .error "unlink: writei"
  else
    let s := if (s.inode ip).type = .dir then
        s.setInode dp { s.inode dp with nlink := short ((s.inode dp).nlink - 1) }
      else s
    let s := iput s dp
    .ok (0, iput (s.setInode ip { s.inode ip with nlink := short ((s.inode ip).nlink - 1) }) ip)

def sysUnlink (s : State) (cwd : Nat) (path : Path) : Except String (Int × State) := do
  let (r, s) ← nameiparent s cwd path
  match r with
  | none => return (-1, s)
  | some (dp, name) =>
    let s ← ilock s dp
    if name = dot ∨ name = dotdot then
      return (-1, iput s dp)
    else
      let (found, s) ← dirlookup s dp name
      match found with
      | none => return (-1, iput s dp)
      | some (ip, k) =>
        let s ← ilock s ip
        if (s.inode ip).nlink < 1 then
          .error "unlink: nlink < 1"
        else if (s.inode ip).type = .dir ∧ ¬ isdirempty (s.inode ip) then
          return (-1, iput (iput s ip) dp)
        else
          unlinkEntry s dp ip k

/-- The inode `sys_open` opens, locked. -/
def openInode (s : State) (cwd : Nat) (path : Path) (omode : Nat) :
    Except String (Option Nat × State) := do
  if omode &&& oCreate ≠ 0 then
    create s cwd path .file 0
  else
    let (r, s) ← namei s cwd path
    match r with
    | none => return (none, s)
    | some ip =>
      let s ← ilock s ip
      if (s.inode ip).type = .dir ∧ omode ≠ oRdonly then
        return (none, iput s ip)
      else
        return (some ip, s)

/-- The end of `sys_open`: a file table entry and a descriptor for the inode. -/
def openFile (s : State) (i : Fin nproc) (p : Proc) (ip : Nat) : Except String (Int × State) :=
  match filealloc s with
  | none => .ok (-1, iput s ip)
  | some (f, s) =>
    match fdalloc p with
    | none => do
      let s ← fileclose s f
      return (-1, iput s ip)
    | some fd =>
      let type := if (s.inode ip).type = .device then FileType.device else FileType.inode
      .ok (fd, (s.setFile f { s.ftable f with type := type, ip := ip }).setSlot i
        (.live { p with ofile := update p.ofile fd (some f) }))

def sysOpen (s : State) (i : Fin nproc) (p : Proc) (path : Path) (omode : Nat) :
    Except String (Int × State) := do
  let (r, s) ← openInode s p.cwd path omode
  match r with
  | none => return (-1, s)
  | some ip =>
    let n := s.inode ip
    if n.type = .device ∧ (n.major < 0 ∨ (ndev : Int) ≤ n.major) then
      return (-1, iput s ip)
    else
      openFile s i p ip

/-- `sys_mkdir` and `sys_mknod`: create the inode and put it. -/
def sysMake (s : State) (cwd : Nat) (path : Path) (type : InodeType) (major : Int) :
    Except String (Int × State) := do
  let (r, s) ← create s cwd path type major
  match r with
  | none => return (-1, s)
  | some ip => return (0, iput s ip)

def sysMkdir (s : State) (cwd : Nat) (path : Path) : Except String (Int × State) :=
  sysMake s cwd path .dir 0

def sysMknod (s : State) (cwd : Nat) (path : Path) (major : Int) : Except String (Int × State) :=
  sysMake s cwd path .device major

def sysChdir (s : State) (i : Fin nproc) (p : Proc) (path : Path) :
    Except String (Int × State) := do
  let (r, s) ← namei s p.cwd path
  match r with
  | none => return (-1, s)
  | some ip =>
    let s ← ilock s ip
    if (s.inode ip).type ≠ .dir then
      return (-1, iput s ip)
    else
      return (0, (iput s p.cwd).setSlot i (.live { p with cwd := ip }))

def sysClose (s : State) (i : Fin nproc) (p : Proc) (fd : Fin nofile) :
    Except String (Int × State) :=
  match p.ofile fd with
  | none => .ok (-1, s)
  | some f => do
    let p := { p with ofile := update p.ofile fd none }
    let s ← fileclose (s.setSlot i (.live p)) f
    return (0, s)

/-- What `kfork` does to open files and the current directory. -/
def kfork (s : State) (p : Proc) : Except String (Int × State) :=
  match (List.finRange nproc).find? fun j => s.slot j matches .unused with
  | none => .ok (-1, s)
  | some j => do
    let s ← ((List.finRange nofile).filterMap p.ofile).foldlM filedup s
    return (j, (idup s p.cwd).setSlot j (.live p))

/-- What `kexit` does to open files and the current directory. -/
def kexit (s : State) (i : Fin nproc) (p : Proc) : Except String (Int × State) :=
  if i = ⟨0, nproc_pos⟩ then
    .error "init exiting"
  else do
    let s ← ((List.finRange nofile).filterMap p.ofile).foldlM fileclose s
    return (0, (iput s p.cwd).setSlot i .zombie)

inductive Call
  | open (path : Path) (omode : Nat)
  | mkdir (path : Path)
  | mknod (path : Path) (major : Int)
  | link (old new : Path)
  | unlink (path : Path)
  | chdir (path : Path)
  | close (fd : Fin nofile)
  | fork
  | exit

/-- A system call of a process, or a parent collecting an exited child. -/
inductive Act
  | call (i : Fin nproc) (c : Call)
  | reap (i : Fin nproc)

def withPath (s : State) (arg : Path) (body : Path → Except String (Int × State)) :
    Except String (Int × State) :=
  match argstr arg with
  | none => .ok (-1, s)
  | some path => body path

def Call.run (s : State) (i : Fin nproc) (p : Proc) : Call → Except String (Int × State)
  | .open path omode => withPath s path fun path => sysOpen s i p path omode
  | .mkdir path => withPath s path fun path => sysMkdir s p.cwd path
  | .mknod path major => withPath s path fun path => sysMknod s p.cwd path major
  | .link old new => withPath s old fun old => withPath s new fun new => sysLink s p.cwd old new
  | .unlink path => withPath s path fun path => sysUnlink s p.cwd path
  | .chdir path => withPath s path fun path => sysChdir s i p path
  | .close fd => sysClose s i p fd
  | .fork => kfork s p
  | .exit => kexit s i p

/-- A call that panics stops the machine in the middle of its transaction; one that returns
leaves it running. -/
def State.settle (s : State) (r : Except String (Int × State)) : State :=
  match r with
  | .ok (_, s') => { s' with panic := none }
  | .error e => { s with panic := some e }

def State.step (s : State) (a : Act) : Option State :=
  if s.panic.isSome then
    none
  else
    match a with
    | .call i c =>
      match s.slot i with
      | .live p => some (s.settle (c.run s i p))
      | _ => none
    | .reap i =>
      match s.slot i with
      | .zombie => some (s.setSlot i .unused)
      | _ => none

/-- The inodes `mkfs` writes: the root directory, padded to whole blocks, and one file for
each name. -/
def mkfs (names : List Name) : Nat → Inode := fun i =>
  if i = rootino then
    let files := names.zipIdx.map fun (name, k) => Dirent.mk (k + 2) name 0
    let pad := ((names.length + 2) / entriesPerBlock + 1) * entriesPerBlock - (names.length + 2)
    ⟨.dir, 0, 1, ⟨rootino, dot, 0⟩ :: ⟨rootino, dotdot, 0⟩ :: files ++
      List.replicate pad ⟨0, [], 0⟩, 0⟩
  else if 2 ≤ i ∧ i < names.length + 2 then
    ⟨.file, 0, 1, [], 0⟩
  else
    ⟨.free, 0, 0, [], 0⟩

/-- The first process runs in the root directory of a fresh image; no file is open. -/
def boot (names : List Name) (room : Nat → Bool) : State where
  inode := mkfs names
  ref := fun i => if i = rootino then 1 else 0
  valid := fun _ => false
  ftable := fun _ => ⟨.none, 0, 0⟩
  slot := fun i => if i.val = 0 then .live ⟨fun _ => none, rootino⟩ else .unused
  room := room
  asked := 0
  panic := none

structure ImageNames (names : List Name) : Prop where
  fit : names.length + 2 ≤ ninodes
  ok : ∀ name ∈ names, name ≠ dot ∧ name ≠ dotdot

end EafitOs.Directory
