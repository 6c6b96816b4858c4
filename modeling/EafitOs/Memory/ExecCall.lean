import EafitOs.Memory.Exec

/-!
# `kexec` from its path to its registers

The whole of `kexec`: the log operation around the lookup, the lock and the reference of the
inode, the jump to `bad` from every failure, and the commit.

## Implementation notes

`namei` is a parameter, which leaves a reference to the inode it finds. `copyout` would ask
`vmfault` for a page that is missing in the new table, but none is.
-/

namespace EafitOs.Memory

/-- The fields of `struct trapframe` that `kexec` and `syscall` set. -/
inductive Reg
  | epc
  | sp
  | a0
  | a1
  deriving DecidableEq

def Reg.offset : Reg → Nat
  | .epc => 24
  | .sp => 48
  | .a0 => 112
  | .a1 => 120

def Mem.reg (m : Mem) (tf : Frame) (r : Reg) : Nat := leField ((m.page tf).slice r.offset 8) 0 8

def Mem.setReg (m : Mem) (tf : Frame) (r : Reg) (x : Nat) : Mem :=
  m.setPage tf ((m.page tf).overlay r.offset (le64 x))

/-- What follows the last slash of a path; `last` is what follows the last one so far. -/
def lastElem (last : List UInt8) : List UInt8 → List UInt8
  | [] => last
  | c :: s => lastElem (if c = 47 then s else last) s

def safestrcpy (t : List UInt8) (n : Nat) : List UInt8 := t.take (n - 1)

/-- The process that calls `kexec`, with its name, the inodes it has locked and the number of
log operations under way. -/
structure Caller where
  ctx : Ctx
  name : List UInt8
  locked : Nat → Bool
  outstanding : Nat

namespace Caller

def setMem (x : Caller) (m : Mem) : Caller := { x with ctx := { x.ctx with mem := m } }

def setFs (x : Caller) (fs : Fs) : Caller := { x with ctx := { x.ctx with fs := fs } }

def beginOp (x : Caller) : Caller := { x with outstanding := x.outstanding + 1 }

def endOp (x : Caller) : Caller := { x with outstanding := x.outstanding - 1 }

def ilock (x : Caller) (ip : Nat) : Except String Caller := do
  let i ← x.ctx.fs.ilock (some ip)
  .ok { x with locked := Function.update x.locked i true }

def iunlockput (x : Caller) (ip : Nat) : Except String Caller :=
  if x.locked ip = false ∨ (x.ctx.fs.inode ip).ref < 1 then .error "iunlock"
  else .ok { x.setFs (x.ctx.fs.iput ip) with locked := Function.update x.locked ip false }

/-- What `bad` does with the table, if there is one. -/
def badTable (x : Caller) : Option (Vm × Nat) → Except String Caller
  | none => .ok x
  | some (v, sz) => do
    let m ← procFreepagetable v sz
    .ok (x.setMem m)

/-- What `bad` does with the inode, if it is not released yet. -/
def badInode (x : Caller) : Option Nat → Except String Caller
  | none => .ok x
  | some ip => do
    let x ← x.iunlockput ip
    .ok x.endOp

def bad (x : Caller) (table : Option (Vm × Nat)) (ip : Option Nat) :
    Except String (Option Nat × Caller) := do
  let x ← x.badTable table
  let x ← x.badInode ip
  .ok (none, x)

def commit (x : Caller) (path : List UInt8) (entry sz sp : Nat) (v : Vm) :
    Except String Caller := do
  let tf := x.ctx.proc.tf
  let m := ((v.mem.setReg tf .a1 sp).setReg tf .epc entry).setReg tf .sp sp
  let m ← procFreepagetable ⟨m, x.ctx.proc.pt⟩ x.ctx.proc.sz
  .ok { x with
    name := safestrcpy (lastElem path path) 16
    ctx := { x.ctx with mem := m, proc := { x.ctx.proc with pt := v.pt, sz := sz } } }

/-- The part of `kexec` after the inode is released. -/
def finish (x : Caller) (path : List UInt8) (argv : List (List UInt8)) (entry sz : Nat) (v : Vm) :
    Except String (Option Nat × Caller) := do
  let (sp, sz, v) ← growStack x.ctx.proc.sz argv sz v
  match sp with
  | none => x.bad (some (v, sz)) none
  | some sp => do
    let x ← x.commit path entry sz sp v
    .ok (some argv.length, x)

/-- The part of `kexec` after the table is made. -/
def load (x : Caller) (path : List UInt8) (argv : List (List UInt8)) (ip : Nat) (v : Vm) :
    Except String (Option Nat × Caller) := do
  let elf := x.ctx.fs.readi ip 0 elfhdrSize
  let (ok, sz, v) ← loadLoop x.ctx.fs ip (leField elf 56 2) (leField elf 32 8 % 2 ^ 32) 0 v
  if !ok then x.bad (some (v, sz)) (some ip)
  else do
    let x ← x.iunlockput ip
    x.endOp.finish path argv (leField elf 24 8) sz v

/-- `kexec`: the number of arguments, or `none` for -1. -/
def kexec (x : Caller) (namei : List UInt8 → Option Nat) (path : List UInt8)
    (argv : List (List UInt8)) : Except String (Option Nat × Caller) :=
  let x := x.beginOp
  match namei path with
  | none => .ok (none, x.endOp)
  | some ip => do
    let x ← (x.setFs (x.ctx.fs.idup ip)).ilock ip
    let elf := x.ctx.fs.readi ip 0 elfhdrSize
    if elf.length ≠ elfhdrSize then x.bad none (some ip)
    else if leField elf 0 4 ≠ elfMagic then x.bad none (some ip)
    else do
      let (v, m) ← procPagetable x.ctx.mem x.ctx.proc.tf
      match v with
      | none => (x.setMem m).bad none (some ip)
      | some v => x.load path argv ip v

/-- `syscall` puts the return value into `a0`. -/
def exec (x : Caller) (namei : List UInt8 → Option Nat) (path : List UInt8)
    (argv : List (List UInt8)) : Except String Caller := do
  let (r, x) ← x.kexec namei path argv
  .ok (x.setMem (x.ctx.mem.setReg x.ctx.proc.tf .a0 (r.getD (2 ^ 64 - 1))))

end Caller

end EafitOs.Memory
