import EafitOs.Foundation.Resources
import EafitOs.Directory.Inodes

/-!
# The inode table and its callers

The inode functions of `fs.c` with everything a caller must give back: the references and locks of
inode table entries, and the operations it has begun and ended. What the disk holds is an
arbitrary sequence of answers.
-/

namespace EafitOs.Files

open Foundation Function
open Directory (InodeType Path Name skipelem slash ninode rootino dot dotdot)

def rootdev : Nat := 1

abbrev Entry : Type := Fin ninode

/-- `struct inode`, without the size and the block addresses. -/
structure Inode where
  dev : Nat
  inum : Nat
  ref : Int
  valid : Bool
  type : InodeType
  major : Int
  nlink : Int

/-- What the disk answers to one question: the record of an inode that is read, the number
of an inode that is looked up or allocated (0 for none), and whether a write or an
allocation succeeds. -/
structure Answer where
  type : InodeType
  major : Int
  nlink : Int
  inum : Nat
  ok : Bool

/-- The inode table, the sleep locks of inodes that the running call holds, the calls of
`begin_op` and `end_op` so far, whether an `iput` happened outside of an operation, and
the answers of the disk with the number already given. -/
structure Table where
  inode : Entry → Inode
  locked : List Entry
  begun : Nat
  ended : Nat
  stray : Bool
  answer : Nat → Answer
  asked : Nat

abbrev Fs (α : Type) : Type :=
  Code Table α

def ask : Fs Answer := do
  let t ← get
  set { t with asked := t.asked + 1 }
  return t.answer t.asked

def beginOp : Fs Unit :=
  modify fun t => { t with begun := t.begun + 1 }

def endOp : Fs Unit :=
  modify fun t => { t with ended := t.ended + 1 }

def setInode (e : Entry) (f : Inode → Inode) : Fs Unit :=
  modify fun t => { t with inode := update t.inode e (f (t.inode e)) }

def findInode (t : Table) (dev inum : Nat) : Option Entry :=
  (List.finRange ninode).find? fun e =>
    0 < (t.inode e).ref ∧ (t.inode e).dev = dev ∧ (t.inode e).inum = inum

def findEmpty (t : Table) : Option Entry :=
  (List.finRange ninode).find? fun e => (t.inode e).ref = 0

def iget (dev inum : Nat) : Fs Entry := do
  let t ← get
  match findInode t dev inum with
  | some e =>
    setInode e fun n => { n with ref := n.ref + 1 }
    return e
  | none =>
    match findEmpty t with
    | none => throw "iget: no inodes"
    | some e =>
      setInode e fun n => { n with dev := dev, inum := inum, ref := 1, valid := false }
      return e

def idup (e : Entry) : Fs Unit :=
  setInode e fun n => { n with ref := n.ref + 1 }

def iload (e : Entry) : Fs Unit := do
  let t ← get
  if (t.inode e).valid then
    return ()
  else
    let a ← ask
    setInode e fun n => { n with valid := true, type := a.type, major := a.major, nlink := a.nlink }
    if a.type = .free then throw "ilock: no type" else return ()

/-- A process that locks an inode twice sleeps forever. -/
def ilock (e : Entry) : Fs Unit := do
  let t ← get
  if (t.inode e).ref < 1 then
    throw "ilock"
  else if e ∈ t.locked then
    throw "acquiresleep"
  else
    set { t with locked := e :: t.locked }
    iload e

def iunlock (e : Entry) : Fs Unit := do
  let t ← get
  if e ∉ t.locked ∨ (t.inode e).ref < 1 then
    throw "iunlock"
  else
    set { t with locked := t.locked.erase e }

def iput (e : Entry) : Fs Unit := do
  let t ← get
  let n := t.inode e
  let t := { t with stray := t.stray || t.begun ≤ t.ended }
  if n.ref = 1 ∧ n.valid ∧ n.nlink = 0 then
    if e ∈ t.locked then
      throw "acquiresleep"
    else
      set { t with
        inode := update t.inode e
          { n with type := .free, valid := false, ref := n.ref - 1 } }
  else
    set { t with inode := update t.inode e { n with ref := n.ref - 1 } }

def iunlockput (e : Entry) : Fs Unit := do
  iunlock e
  iput e

def addLink (e : Entry) (k : Int) : Fs Unit :=
  setInode e fun n => { n with nlink := Directory.short (n.nlink + k) }

/-- Which entry has the name is for the disk to answer. -/
def dirlookup (dp : Entry) (_name : Name) : Fs (Option Entry) := do
  let t ← get
  if (t.inode dp).type ≠ .dir then
    throw "dirlookup not DIR"
  else
    let a ← ask
    if a.inum = 0 then
      return none
    else
      let e ← iget (t.inode dp).dev a.inum
      return some e

/-- The Boolean is `true` for the return value 0. -/
def dirlink (dp : Entry) (name : Name) (_inum : Nat) : Fs Bool := do
  let found ← dirlookup dp name
  match found with
  | some e =>
    iput e
    return false
  | none =>
    let a ← ask
    return a.ok

def ialloc (dev : Nat) (_type : InodeType) : Fs (Option Entry) := do
  let a ← ask
  if a.inum = 0 then
    return none
  else
    let e ← iget dev a.inum
    return some e

/-- The loop of `namex`; `parent` asks to stop one level early. -/
def namexLoop (parent : Bool) : Nat → Entry → Path → Name → Fs (Option (Entry × Name))
  | 0, ip, _, _ => do
    iput ip
    return none
  | fuel + 1, ip, path, name =>
    match skipelem path with
    | none =>
      if parent then do
        iput ip
        return none
      else
        return some (ip, name)
    | some (name, rest) => do
      ilock ip
      let t ← get
      if (t.inode ip).type ≠ .dir then
        iunlockput ip
        return none
      else if parent ∧ rest = [] then
        iunlock ip
        return some (ip, name)
      else
        let next ← dirlookup ip name
        match next with
        | none =>
          iunlockput ip
          return none
        | some next =>
          iunlockput ip
          namexLoop parent fuel next rest name

/-- The reference `namex` takes before its loop. -/
def enter (cwd : Entry) (path : Path) : Fs Entry :=
  if path.head? = some slash then
    iget rootdev rootino
  else do
    idup cwd
    return cwd

def namex (cwd : Entry) (path : Path) (parent : Bool) : Fs (Option (Entry × Name)) := do
  let ip ← enter cwd path
  namexLoop parent (path.length + 1) ip path []

def namei (cwd : Entry) (path : Path) : Fs (Option Entry) := do
  let r ← namex cwd path false
  return r.map (·.1)

def nameiparent (cwd : Entry) (path : Path) : Fs (Option (Entry × Name)) :=
  namex cwd path true

def createFail (dp ip : Entry) : Fs (Option Entry) := do
  setInode ip fun n => { n with nlink := 0 }
  iunlockput ip
  iunlockput dp
  return none

/-- The end of `create`: the name goes into the parent. -/
def createName (dp ip : Entry) (name : Name) (type : InodeType) : Fs (Option Entry) := do
  let t ← get
  let ok ← dirlink dp name (t.inode ip).inum
  if ¬ ok then
    createFail dp ip
  else if type = .dir then
    addLink dp 1
    iunlockput dp
    return some ip
  else
    iunlockput dp
    return some ip

/-- The entries `.` and `..` of a new directory. -/
def createDots (dp ip : Entry) : Fs Bool := do
  let t ← get
  let ok ← dirlink ip dot (t.inode ip).inum
  if ¬ ok then
    return false
  else
    dirlink ip dotdot (t.inode dp).inum

/-- The part of `create` after `ialloc`. -/
def createInode (dp ip : Entry) (name : Name) (type : InodeType) (major : Int) :
    Fs (Option Entry) := do
  ilock ip
  setInode ip fun n => { n with major := Directory.short major, nlink := 1 }
  if type = .dir then
    let ok ← createDots dp ip
    if ¬ ok then createFail dp ip else createName dp ip name type
  else
    createName dp ip name type

/-- The part of `create` for a name that exists. -/
def createFound (dp ip : Entry) (type : InodeType) : Fs (Option Entry) := do
  iunlockput dp
  ilock ip
  let t ← get
  if type = .file ∧ ((t.inode ip).type = .file ∨ (t.inode ip).type = .device) then
    return some ip
  else
    iunlockput ip
    return none

def create (cwd : Entry) (path : Path) (type : InodeType) (major : Int) : Fs (Option Entry) := do
  let r ← nameiparent cwd path
  match r with
  | none => return none
  | some (dp, name) =>
    ilock dp
    let found ← dirlookup dp name
    match found with
    | some ip => createFound dp ip type
    | none =>
      let t ← get
      let new ← ialloc (t.inode dp).dev type
      match new with
      | none =>
        iunlockput dp
        return none
      | some ip => createInode dp ip name type major

def linkBad (ip : Entry) : Fs Int := do
  ilock ip
  addLink ip (-1)
  iunlockput ip
  endOp
  return -1

/-- The part of `sys_link` after the link count went up. -/
def linkName (cwd ip : Entry) (new : Path) : Fs Int := do
  let r ← nameiparent cwd new
  match r with
  | none => linkBad ip
  | some (dp, name) =>
    ilock dp
    let t ← get
    if (t.inode dp).dev ≠ (t.inode ip).dev then
      iunlockput dp
      linkBad ip
    else
      let ok ← dirlink dp name (t.inode ip).inum
      if ¬ ok then
        iunlockput dp
        linkBad ip
      else
        iunlockput dp
        iput ip
        endOp
        return 0

/-- `sys_link`; a path that could not be fetched is `none`. -/
def sysLink (cwd : Entry) : Option Path → Option Path → Fs Int
  | some old, some new => do
    beginOp
    let r ← namei cwd old
    match r with
    | none =>
      endOp
      return -1
    | some ip =>
      ilock ip
      let t ← get
      if (t.inode ip).type = .dir then
        iunlockput ip
        endOp
        return -1
      else
        addLink ip 1
        iunlock ip
        linkName cwd ip new
  | _, _ => return -1

def unlinkBad (dp : Entry) : Fs Int := do
  iunlockput dp
  endOp
  return -1

def unlinkParent (dp ip : Entry) : Fs Unit := do
  let t ← get
  if (t.inode ip).type = .dir then addLink dp (-1) else return ()

/-- The part of `sys_unlink` that removes the entry of `ip`. -/
def unlinkEntry (dp ip : Entry) : Fs Int := do
  let a ← ask
  if ¬ a.ok then
    throw "unlink: writei"
  else
    unlinkParent dp ip
    iunlockput dp
    addLink ip (-1)
    iunlockput ip
    endOp
    return 0

def sysUnlink (cwd : Entry) : Option Path → Fs Int
  | none => return -1
  | some path => do
    beginOp
    let r ← nameiparent cwd path
    match r with
    | none =>
      endOp
      return -1
    | some (dp, name) =>
      ilock dp
      if name = dot ∨ name = dotdot then
        unlinkBad dp
      else
        let found ← dirlookup dp name
        match found with
        | none => unlinkBad dp
        | some ip =>
          ilock ip
          let t ← get
          if (t.inode ip).nlink < 1 then
            throw "unlink: nlink < 1"
          else
            let empty ← ask
            if (t.inode ip).type = .dir ∧ ¬ empty.ok then
              iunlockput ip
              unlinkBad dp
            else
              unlinkEntry dp ip

/-- `sys_mkdir` and `sys_mknod`, which begin their operation before they fetch the path. -/
def sysMake (cwd : Entry) (path : Option Path) (type : InodeType) (major : Int) : Fs Int := do
  beginOp
  match path with
  | none =>
    endOp
    return -1
  | some path =>
    let r ← create cwd path type major
    match r with
    | none =>
      endOp
      return -1
    | some ip =>
      iunlockput ip
      endOp
      return 0

def sysMkdir (cwd : Entry) (path : Option Path) : Fs Int :=
  sysMake cwd path .dir 0

def sysMknod (cwd : Entry) (path : Option Path) (major : Int) : Fs Int :=
  sysMake cwd path .device major

/-- What `kexec` does to inodes: the image is read while the inode is locked, the stack is
built after it was put. -/
def kexec (cwd : Entry) : Option Path → Fs Int
  | none => return -1
  | some path => do
    beginOp
    let r ← namei cwd path
    match r with
    | none =>
      endOp
      return -1
    | some ip =>
      ilock ip
      let image ← ask
      if ¬ image.ok then
        iunlockput ip
        endOp
        return -1
      else
        iunlockput ip
        endOp
        let stack ← ask
        if ¬ stack.ok then return -1 else return stack.inum

end EafitOs.Files
