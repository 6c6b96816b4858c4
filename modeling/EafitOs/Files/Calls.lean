import EafitOs.Files.Inodes
import EafitOs.Directory.Calls
import EafitOs.Memory.Process

/-!
# Open files, mappings and pipes

The open-file table of `file.c`, the ends of pipes in `pipe.c`, and the system calls
that create, copy and drop references to open files: descriptors and mapped regions of
processes. A call runs alone, with arbitrary arguments and arbitrary answers of the disk
and the memory allocator.
-/

namespace EafitOs.Files

open Foundation Function
open Directory (Path ninode nfile nofile nproc ndev oRdonly oCreate)
open Memory (maxvma pgroundup pgrounddown pages trapframe maxva hasBit firstIdx)

inductive FileType
  | none
  | pipe
  | inode
  | device
  deriving DecidableEq

/-- `struct file`, without the offset. `pipe` and `ip` keep what an earlier use of the
entry left in them. -/
structure File where
  type : FileType
  ref : Int
  readable : Bool
  writable : Bool
  pipe : Nat
  ip : Option Entry
  major : Int

/-- A mapped region; whether its pages are resident is not kept here. -/
structure Vma where
  used : Bool
  addr : Nat
  length : Nat
  prot : UInt32
  flags : UInt32
  file : Fin nfile

inductive ProcState
  | unused
  | live
  | zombie
  deriving DecidableEq

structure Proc where
  state : ProcState
  sz : Nat
  ofile : Fin nofile → Option (Fin nfile)
  cwd : Option Entry
  vmas : Fin maxvma → Vma

structure Pipe where
  readopen : Bool
  writeopen : Bool
  frees : Nat

structure State where
  table : Table
  ftable : Fin nfile → File
  proc : Fin nproc → Proc
  pipe : Nat → Pipe
  npipe : Nat
  panic : Option String

namespace State

def setFile (s : State) (f : Fin nfile) (x : File) : State :=
  { s with ftable := update s.ftable f x }

def setProc (s : State) (j : Fin nproc) (p : Proc) : State :=
  { s with proc := update s.proc j p }

def setOfile (s : State) (j : Fin nproc) (fd : Fin nofile) (f : Option (Fin nfile)) : State :=
  s.setProc j { s.proc j with ofile := update (s.proc j).ofile fd f }

def setVma (s : State) (j : Fin nproc) (i : Fin maxvma) (v : Vma) : State :=
  s.setProc j { s.proc j with vmas := update (s.proc j).vmas i v }

def exec {α : Type} (s : State) (x : Fs α) : Except String (α × State) := do
  let (a, t) ← x s.table
  return (a, { s with table := t })

/-- Run a call of the inode layer with the current directory of the process. -/
def onCwd {α : Type} (s : State) (j : Fin nproc) (x : Entry → Fs α) :
    Except String (α × State) :=
  match (s.proc j).cwd with
  | none => .error "idup"
  | some cwd => s.exec (x cwd)

end State

def filealloc (s : State) : Option (Fin nfile × State) :=
  ((List.finRange nfile).find? fun f => (s.ftable f).ref = 0).map fun f =>
    (f, s.setFile f { s.ftable f with ref := 1 })

def filedup (s : State) (f : Fin nfile) : Except String State :=
  if (s.ftable f).ref < 1 then
    .error "filedup"
  else
    .ok (s.setFile f { s.ftable f with ref := (s.ftable f).ref + 1 })

def pipeclose (s : State) (k : Nat) (writable : Bool) : State :=
  let pi := if writable then { s.pipe k with writeopen := false }
    else { s.pipe k with readopen := false }
  let pi := if pi.readopen = false ∧ pi.writeopen = false then
      { pi with frees := pi.frees + 1 } else pi
  { s with pipe := update s.pipe k pi }

/-- The operation in which `fileclose` and `kexit` put an inode. -/
def putInode (ip : Option Entry) : Fs Unit := do
  beginOp
  match ip with
  | none => throw "iput"
  | some e =>
    iput e
    endOp

def fileclose (s : State) (f : Fin nfile) : Except String State :=
  let ff := s.ftable f
  if ff.ref < 1 then
    .error "fileclose"
  else if 0 < ff.ref - 1 then
    .ok (s.setFile f { ff with ref := ff.ref - 1 })
  else
    let s := s.setFile f { ff with ref := 0, type := .none }
    match ff.type with
    | .none => .ok s
    | .pipe => .ok (pipeclose s ff.pipe ff.writable)
    | .inode | .device => do
      let (_, s) ← s.exec (putInode ff.ip)
      return s

/-- The descriptor an open file of the process has, for an argument of type `int`. -/
def argfd (s : State) (j : Fin nproc) (fd : Int) : Option (Fin nofile × Fin nfile) :=
  if h : fd < 0 ∨ (nofile : Int) ≤ fd then
    none
  else
    ((s.proc j).ofile ⟨fd.toNat, by omega⟩).map fun f => (⟨fd.toNat, by omega⟩, f)

def fdalloc (s : State) (j : Fin nproc) (f : Fin nfile) : Option (Fin nofile × State) :=
  (firstIdx fun fd => ((s.proc j).ofile fd).isNone).map fun fd => (fd, s.setOfile j fd (some f))

def sysDup (s : State) (j : Fin nproc) (fd : Int) : Except String (Int × State) :=
  match argfd s j fd with
  | none => .ok (-1, s)
  | some (_, f) =>
    match fdalloc s j f with
    | none => .ok (-1, s)
    | some (fd', s) => do
      let s ← filedup s f
      return (fd', s)

def sysClose (s : State) (j : Fin nproc) (fd : Int) : Except String (Int × State) :=
  match argfd s j fd with
  | none => .ok (-1, s)
  | some (fd, f) => do
    let s ← fileclose (s.setOfile j fd none) f
    return (0, s)

/-- `pipealloc`, with the page for the pipe if the allocator has one. -/
def pipealloc (s : State) : Except String (Option (Fin nfile × Fin nfile) × State) :=
  match filealloc s with
  | none => .ok (none, s)
  | some (f0, s) =>
    match filealloc s with
    | none => do
      let s ← fileclose s f0
      return (none, s)
    | some (f1, s) => do
      let (page, s) ← s.exec ask
      if ¬ page.ok then
        let s ← fileclose s f0
        let s ← fileclose s f1
        return (none, s)
      else
        let k := s.npipe
        let s := { s with pipe := update s.pipe k ⟨true, true, 0⟩, npipe := k + 1 }
        let s := s.setFile f0 { s.ftable f0 with
          type := .pipe, readable := true, writable := false, pipe := k }
        let s := s.setFile f1 { s.ftable f1 with
          type := .pipe, readable := false, writable := true, pipe := k }
        return (some (f0, f1), s)

def pipeFail (s : State) (rf wf : Fin nfile) : Except String (Int × State) := do
  let s ← fileclose s rf
  let s ← fileclose s wf
  return (-1, s)

def sysPipe (s : State) (j : Fin nproc) : Except String (Int × State) := do
  let (r, s) ← pipealloc s
  match r with
  | none => return (-1, s)
  | some (rf, wf) =>
    match fdalloc s j rf with
    | none => pipeFail s rf wf
    | some (fd0, s) =>
      match fdalloc s j wf with
      | none => pipeFail (s.setOfile j fd0 none) rf wf
      | some (fd1, s) =>
        let (copied, s) ← s.exec ask
        if ¬ copied.ok then
          pipeFail ((s.setOfile j fd0 none).setOfile j fd1 none) rf wf
        else
          return (0, s)

/-- The inode `sys_open` opens, locked, in an operation that goes on. -/
def openInode (path : Path) (omode : Nat) (cwd : Entry) : Fs (Option Entry) := do
  beginOp
  if omode &&& oCreate ≠ 0 then
    let r ← create cwd path .file 0
    match r with
    | none =>
      endOp
      return none
    | some ip => return some ip
  else
    let r ← namei cwd path
    match r with
    | none =>
      endOp
      return none
    | some ip =>
      ilock ip
      let t ← get
      if (t.inode ip).type = .dir ∧ omode ≠ oRdonly then
        iunlockput ip
        endOp
        return none
      else
        return some ip

/-- The error exits of `sys_open` that have the inode. -/
def openBad (ip : Entry) : Fs Int := do
  iunlockput ip
  endOp
  return -1

def openDone (ip : Entry) : Fs Unit := do
  iunlock ip
  endOp

def oWronly : Nat := 1

def oRdwr : Nat := 2

/-- The end of `sys_open`: a file table entry and a descriptor for the inode. -/
def openFile (s : State) (j : Fin nproc) (ip : Entry) (omode : Nat) :
    Except String (Int × State) :=
  match filealloc s with
  | none => s.exec (openBad ip)
  | some (f, s) =>
    match fdalloc s j f with
    | none => do
      let s ← fileclose s f
      s.exec (openBad ip)
    | some (fd, s) => do
      let n := s.table.inode ip
      let type := if n.type = .device then FileType.device else FileType.inode
      let s := s.setFile f { s.ftable f with
        type := type
        ip := some ip
        major := if n.type = .device then n.major else (s.ftable f).major
        readable := omode &&& oWronly = 0
        writable := omode &&& oWronly ≠ 0 ∨ omode &&& oRdwr ≠ 0 }
      let (_, s) ← s.exec (openDone ip)
      return (fd, s)

/-- `sys_open`; a path that could not be fetched is `none`. -/
def sysOpen (s : State) (j : Fin nproc) (path : Option Path) (omode : Nat) :
    Except String (Int × State) :=
  match path with
  | none => .ok (-1, s)
  | some path => do
    let (r, s) ← s.onCwd j (openInode path omode)
    match r with
    | none => return (-1, s)
    | some ip =>
      let n := s.table.inode ip
      if n.type = .device ∧ (n.major < 0 ∨ (ndev : Int) ≤ n.major) then
        s.exec (openBad ip)
      else
        openFile s j ip omode

def filereadInode (e : Entry) : Fs Int := do
  ilock e
  let a ← ask
  iunlock e
  return a.inum

/-- `fileread`; what a pipe or a device delivers is for the answers to say. -/
def fileread (f : File) : Fs Int :=
  if ¬ f.readable then
    return -1
  else
    match f.type, f.ip with
    | .inode, some e => filereadInode e
    | .inode, none => throw "ilock"
    | .none, _ => throw "fileread"
    | _, _ => do
      let a ← ask
      return a.inum

/-- Bytes that one transaction of `filewrite` writes. -/
def writeMax : Nat := (10 - 1 - 1 - 2) / 2 * 1024

/-- The loop of `filewrite`, with the number of pieces left; a piece that is not written
whole ends it. -/
def filewriteLoop (e : Entry) : Nat → Fs Bool
  | 0 => return true
  | k + 1 => do
    beginOp
    ilock e
    let a ← ask
    iunlock e
    endOp
    if ¬ a.ok then return false else filewriteLoop e k

def filewrite (f : File) (n : Int) : Fs Int :=
  if ¬ f.writable then
    return -1
  else
    match f.type, f.ip with
    | .inode, some e => do
      let all ← filewriteLoop e ((n.toNat + (writeMax - 1)) / writeMax)
      return if all ∧ 0 ≤ n then n else -1
    | .inode, none => throw "ilock"
    | .none, _ => throw "filewrite"
    | _, _ => do
      let a ← ask
      return a.inum

def sysRead (s : State) (j : Fin nproc) (fd : Int) : Except String (Int × State) :=
  match argfd s j fd with
  | none => .ok (-1, s)
  | some (_, f) => s.exec (fileread (s.ftable f))

def sysWrite (s : State) (j : Fin nproc) (fd n : Int) : Except String (Int × State) :=
  match argfd s j fd with
  | none => .ok (-1, s)
  | some (_, f) => s.exec (filewrite (s.ftable f) n)

def chdirInode (path : Option Path) (cwd : Entry) : Fs (Option Entry) := do
  beginOp
  match path with
  | none =>
    endOp
    return none
  | some path =>
    let r ← namei cwd path
    match r with
    | none =>
      endOp
      return none
    | some ip =>
      ilock ip
      let t ← get
      if (t.inode ip).type ≠ .dir then
        iunlockput ip
        endOp
        return none
      else
        iunlock ip
        iput cwd
        endOp
        return some ip

def sysChdir (s : State) (j : Fin nproc) (path : Option Path) : Except String (Int × State) := do
  let (r, s) ← s.onCwd j (chdirInode path)
  match r with
  | none => return (-1, s)
  | some ip => return (0, s.setProc j { s.proc j with cwd := some ip })

namespace Vma

/-- Changes are written back: `MAP_SHARED` with `PROT_WRITE`. -/
def writesBack (v : Vma) : Bool :=
  hasBit v.flags 1 && hasBit v.prot 2

def covers (v : Vma) (va : Nat) : Bool :=
  v.used && decide (v.addr ≤ va) && decide (va < (v.addr + v.length) % 2 ^ 64)

end Vma

def sysMmap (s : State) (j : Fin nproc) (length : Nat) (prot flags : UInt32) (fd : Int) :
    Except String (Int × State) :=
  if length = 0 then
    .ok (-1, s)
  else
    match argfd s j fd with
    | none => .ok (-1, s)
    | some (_, f) =>
      if hasBit prot 2 && hasBit flags 1 && !(s.ftable f).writable then
        .ok (-1, s)
      else
        match firstIdx fun i => !((s.proc j).vmas i).used with
        | none => .ok (-1, s)
        | some i =>
          let va := pgroundup (s.proc j).sz
          let rounded := pgroundup length
          if trapframe < (va + rounded) % 2 ^ 64 then
            .ok (-1, s)
          else do
            let s := s.setProc j { s.proc j with sz := (va + rounded) % 2 ^ 64 }
            let s := s.setVma j i ⟨true, va, rounded, prot, flags, f⟩
            let s ← filedup s f
            return (va, s)

def writeBackPage (ip : Option Entry) : Fs Unit := do
  beginOp
  match ip with
  | none => throw "ilock"
  | some e =>
    ilock e
    let _ ← ask
    iunlock e
    endOp

/-- One page of the release loops of `sys_munmap` and `kexit`, resident or not. -/
def releasePage (back : Bool) (ip : Option Entry) (va : Nat) : Fs Unit :=
  if maxva ≤ va then
    throw "walk"
  else do
    let resident ← ask
    if resident.ok ∧ back then writeBackPage ip else return ()

def releasePages (back : Bool) (ip : Option Entry) : List Nat → Fs Unit
  | [] => return ()
  | va :: vas => do
    releasePage back ip va
    releasePages back ip vas

/-- Release the pages and the record of region `i`. -/
def releaseVma (j : Fin nproc) (i : Fin maxvma) (vas : List Nat) (s : State) :
    Except String State := do
  let v := (s.proc j).vmas i
  let (_, s) ← s.exec (releasePages v.writesBack (s.ftable v.file).ip vas)
  let s ← fileclose s v.file
  return s.setVma j i { v with used := false }

def sysMunmap (s : State) (j : Fin nproc) (addr length : Nat) : Except String (Int × State) :=
  match firstIdx fun i => ((s.proc j).vmas i).covers addr with
  | none => .ok (-1, s)
  | some i => do
    let stop := pgroundup ((addr + length) % 2 ^ 64)
    let s ← releaseVma j i (pages (pgrounddown addr) stop) s
    return (0, s)

/-- The address space of the process changes: `sbrk`, or a new program. -/
def resize (s : State) (j : Fin nproc) (sz : Nat) : State :=
  s.setProc j { s.proc j with sz := sz }

def sysExec (s : State) (j : Fin nproc) (path : Option Path) (sz : Nat) :
    Except String (Int × State) := do
  let (r, s) ← s.onCwd j fun cwd => kexec cwd path
  if r < 0 then return (r, s) else return (r, resize s j sz)

def Proc.files (p : Proc) : List (Fin nfile) :=
  ((List.finRange maxvma).filter fun i => (p.vmas i).used).map (fun i => (p.vmas i).file) ++
    (List.finRange nofile).filterMap p.ofile

/-- `kfork`: the child gets what the parent has; descriptors that the parent does not have
keep what the process table entry held. -/
def kfork (s : State) (j : Fin nproc) : Except String (Int × State) :=
  match firstIdx fun k => decide ((s.proc k).state = .unused) with
  | none => .ok (-1, s)
  | some k => do
    let (memory, s) ← s.exec ask
    if ¬ memory.ok then
      return (-1, s)
    else
      let p := s.proc j
      let s ← p.files.foldlM filedup s
      let (_, s) ← s.onCwd j idup
      return (k, s.setProc k
        { p with ofile := fun fd => (p.ofile fd).or ((s.proc k).ofile fd) })

def exitVma (j : Fin nproc) (s : State) (i : Fin maxvma) : Except String State :=
  let v := (s.proc j).vmas i
  if ¬ v.used then
    .ok s
  else
    releaseVma j i (pages v.addr ((v.addr + v.length) % 2 ^ 64)) s

def exitFile (j : Fin nproc) (s : State) (fd : Fin nofile) : Except String State :=
  match (s.proc j).ofile fd with
  | none => .ok s
  | some f => do
    let s ← fileclose s f
    return s.setOfile j fd none

def kexit (s : State) (j : Fin nproc) : Except String (Int × State) :=
  if j = ⟨0, Directory.nproc_pos⟩ then
    .error "init exiting"
  else do
    let s ← (List.finRange maxvma).foldlM (exitVma j) s
    let s ← (List.finRange nofile).foldlM (exitFile j) s
    let (_, s) ← s.exec (putInode (s.proc j).cwd)
    return (0, s.setProc j { s.proc j with cwd := none, state := .zombie })

inductive Call
  | open (path : Option Path) (omode : Nat)
  | link (old new : Option Path)
  | unlink (path : Option Path)
  | mkdir (path : Option Path)
  | mknod (path : Option Path) (major : Int)
  | chdir (path : Option Path)
  | read (fd : Int)
  | write (fd n : Int)
  | dup (fd : Int)
  | close (fd : Int)
  | pipe
  | mmap (length : Nat) (prot flags : UInt32) (fd : Int)
  | munmap (addr length : Nat)
  | sbrk (sz : Nat)
  | fork
  | exec (path : Option Path) (sz : Nat)
  | exit

def Call.run (s : State) (j : Fin nproc) : Call → Except String (Int × State)
  | .open path omode => sysOpen s j path omode
  | .link old new => s.onCwd j fun cwd => sysLink cwd old new
  | .unlink path => s.onCwd j fun cwd => sysUnlink cwd path
  | .mkdir path => s.onCwd j fun cwd => sysMkdir cwd path
  | .mknod path major => s.onCwd j fun cwd => sysMknod cwd path major
  | .chdir path => sysChdir s j path
  | .read fd => sysRead s j fd
  | .write fd n => sysWrite s j fd n
  | .dup fd => sysDup s j fd
  | .close fd => sysClose s j fd
  | .pipe => sysPipe s j
  | .mmap length prot flags fd => sysMmap s j length prot flags fd
  | .munmap addr length => sysMunmap s j addr length
  | .sbrk sz => .ok (0, resize s j sz)
  | .fork => kfork s j
  | .exec path sz => sysExec s j path sz
  | .exit => kexit s j

/-- A system call of a process with the answers it gets, or a parent collecting an exited
child. -/
inductive Act
  | call (j : Fin nproc) (c : Call) (answer : Nat → Answer)
  | reap (j : Fin nproc)

def State.settle (s : State) (r : Except String (Int × State)) : State :=
  match r with
  | .ok (_, s') => { s' with panic := none }
  | .error e => { s with panic := some e }

def State.step (s : State) (a : Act) : Option State :=
  if s.panic.isSome then
    none
  else
    match a with
    | .call j c answer =>
      if (s.proc j).state = .live then
        let s := { s with table := { s.table with answer := answer, asked := 0 } }
        some (s.settle (c.run s j))
      else
        none
    | .reap j =>
      if (s.proc j).state = .zombie then
        some (s.setProc j { s.proc j with state := .unused, sz := 0 })
      else
        none

def boot (answer : Nat → Answer) : State where
  table :=
    { inode := fun e => ⟨if e.val = 0 then rootdev else 0,
        if e.val = 0 then Directory.rootino else 0, if e.val = 0 then 1 else 0, false, .free, 0, 0⟩
      locked := []
      begun := 0
      ended := 0
      stray := false
      answer := answer
      asked := 0 }
  ftable := fun _ => ⟨.none, 0, false, false, 0, none, 0⟩
  proc := fun j =>
    { state := if j.val = 0 then .live else .unused
      sz := 0
      ofile := fun _ => none
      cwd := if j.val = 0 then some ⟨0, by decide⟩ else none
      vmas := fun _ => ⟨false, 0, 0, 0, 0, ⟨0, Directory.nfile_pos⟩⟩ }
  pipe := fun _ => ⟨false, false, 0⟩
  npipe := 0
  panic := none

end EafitOs.Files
