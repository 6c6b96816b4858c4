import EafitOs.Memory.UserCopy
import EafitOs.Memory.Files
import Mathlib.Algebra.GroupWithZero.Nat

/-!
# System calls on the address space of one process

The current process with the memory and the files it works on. A system call ends
with its return value, where `none` stands for -1, or panics.
-/

namespace EafitOs.Memory

abbrev maxvma : Nat := 16

instance : NeZero maxvma := ⟨by decide⟩

abbrev nvreg : Nat := 4

abbrev nofile : Nat := 16

abbrev nproc : Nat := 64

instance : NeZero nproc := ⟨by decide⟩

structure Vma where
  used : Bool
  addr : Nat
  length : Nat
  prot : UInt32
  flags : UInt32
  file : Nat
  offset : Nat

structure Vregion where
  used : Bool
  start : Nat
  size : Nat

def hasBit (x m : UInt32) : Bool := x &&& m != 0

namespace Vma

def protRead (v : Vma) : Bool := hasBit v.prot 1

def protWrite (v : Vma) : Bool := hasBit v.prot 2

def protExec (v : Vma) : Bool := hasBit v.prot 4

/-- Changes are written back: `MAP_SHARED` with `PROT_WRITE`. -/
def writesBack (v : Vma) : Bool := hasBit v.flags 1 && v.protWrite

/-- The test for an address in the region, on `uint64`. -/
def covers (v : Vma) (va : Nat) : Bool :=
  v.used && decide (v.addr ≤ va) && decide (va < (v.addr + v.length) % 2 ^ 64)

end Vma

/-- The file offset of the page at `pg`, as the `uint` that `readi` and `writei` take. -/
def Vma.fileOff (v : Vma) (pg : Nat) : Nat :=
  (v.offset + (pg + 2 ^ 64 - v.addr)) % 2 ^ 64 % 2 ^ 32

def Vregion.covers (r : Vregion) (va : Nat) : Bool :=
  r.used && decide (r.start ≤ va) && decide (va < (r.start + r.size) % 2 ^ 64)

structure Proc where
  sz : Nat
  pt : PageTable
  /-- The frame of the trapframe. -/
  tf : Frame
  vmas : Fin maxvma → Vma
  vregions : Fin nvreg → Vregion
  ofile : Fin nofile → Option Nat
  cwd : Option Nat
  parent : Option (Fin nproc)
  killed : Bool

structure Ctx where
  mem : Mem
  fs : Fs
  proc : Proc

namespace Ctx

def vm (c : Ctx) : Vm := ⟨c.mem, c.proc.pt⟩

def setVm (c : Ctx) (v : Vm) : Ctx := { c with mem := v.mem, proc := { c.proc with pt := v.pt } }

def setSz (c : Ctx) (sz : Nat) : Ctx := { c with proc := { c.proc with sz := sz } }

def setVma (c : Ctx) (i : Fin maxvma) (v : Vma) : Ctx :=
  { c with proc := { c.proc with vmas := Function.update c.proc.vmas i v } }

end Ctx

/-- The sum of a `uint64` and an `int`, as a `uint64`. -/
def addInt (a : Nat) (n : Int) : Nat := ((a + n) % 2 ^ 64).toNat

/-- `growproc`: the Boolean is `true` for the return value 0. -/
def growproc (c : Ctx) (n : Int) : Except String (Bool × Ctx) :=
  let sz := c.proc.sz
  if 0 < n then
    if trapframe < addInt sz n then .ok (false, c)
    else do
      let (sz', v) ← uvmalloc c.vm sz (addInt sz n) true false
      if sz' = 0 then .ok (false, c.setVm v) else .ok (true, (c.setVm v).setSz sz')
  else if n < 0 then do
    let (sz', v) ← uvmdealloc c.vm sz (addInt sz n)
    .ok (true, (c.setVm v).setSz sz')
  else .ok (true, c)

/-- `sys_sbrk`, where `t = 1` is `SBRK_EAGER`. -/
def sysSbrk (c : Ctx) (n t : Int) : Except String (Option Nat × Ctx) :=
  let addr := c.proc.sz
  if t = 1 ∨ n < 0 then do
    let (ok, c) ← growproc c n
    .ok (if ok then some addr else none, c)
  else if addInt addr n < addr then .ok (none, c)
  else if trapframe < addInt addr n then .ok (none, c)
  else .ok (some addr, c.setSz (addInt addr n))

def firstIdx {n : Nat} (test : Fin n → Bool) : Option (Fin n) := (List.finRange n).find? test

/-- `sys_mmap`; its address argument is not used. -/
def sysMmap (c : Ctx) (length : Nat) (prot flags : UInt32) (fd : Int) (offset : Nat) :
    Except String (Option Nat × Ctx) :=
  if length = 0 then .ok (none, c)
  else if h : fd < 0 ∨ (nofile : Int) ≤ fd then .ok (none, c)
  else
    match c.proc.ofile ⟨fd.toNat, by omega⟩ with
    | none => .ok (none, c)
    | some f =>
      if hasBit prot 2 && hasBit flags 1 && !(c.fs.ftable f).writable then .ok (none, c)
      else
        match firstIdx fun i => !(c.proc.vmas i).used with
        | none => .ok (none, c)
        | some i =>
          let va := pgroundup c.proc.sz
          let rounded := pgroundup length
          if trapframe < (va + rounded) % 2 ^ 64 then .ok (none, c)
          else do
            let fs ← c.fs.filedup f
            let v : Vma := ⟨true, va, rounded, prot, flags, f, offset⟩
            .ok (some va, ({ c with fs := fs }.setSz ((va + rounded) % 2 ^ 64)).setVma i v)

/-- Write a resident page of a shared writable region back to its file. The source
copy is refused if the page is not a user page. -/
def writeBack (c : Ctx) (v : Vma) (va : Nat) (e : Pte) : Except String Ctx := do
  let i ← c.fs.ilock (c.fs.ftable v.file).ip
  let src := if e.perm.u then (c.mem.page e.frame).slice 0 pgsize else []
  .ok { c with fs := c.fs.writei i (v.fileOff va) pgsize src }

/-- `writeBack` where the region asks for it. -/
def writeBackIf (c : Ctx) (v : Vma) (va : Nat) (e : Pte) : Except String Ctx :=
  if v.writesBack then writeBack c v va e else .ok c

def releasePte (v : Vma) (c : Ctx) (va : Nat) : Option Pte → Except String Ctx
  | none => .ok c
  | some e => do
    let c ← writeBackIf c v va e
    let vm ← uvmunmap c.vm va 1 true
    .ok (c.setVm vm)

/-- One page of the release loop of `sys_munmap` and `kexit`. -/
def releasePage (v : Vma) (c : Ctx) (va : Nat) : Except String Ctx := do
  let e ← c.proc.pt.walk va
  releasePte v c va e

/-- `fileclose(v->file); v->used = 0`. -/
def releaseVma (c : Ctx) (i : Fin maxvma) : Except String Ctx := do
  let v := c.proc.vmas i
  let fs ← c.fs.fileclose v.file
  .ok ({ c with fs := fs }.setVma i { v with used := false })

/-- `sys_munmap`: the Boolean is `true` for the return value 0. -/
def sysMunmap (c : Ctx) (addr length : Nat) : Except String (Bool × Ctx) :=
  match firstIdx fun i => (c.proc.vmas i).covers addr with
  | none => .ok (false, c)
  | some i => do
    let stop := pgroundup ((addr + length) % 2 ^ 64)
    let c ← (pages (pgrounddown addr) stop).foldlM (releasePage (c.proc.vmas i)) c
    let c ← releaseVma c i
    .ok (true, c)

/-- `PGROUNDUP` on a C `int`, which wraps. -/
def pgroundupInt (n : Int) : Int := (n + 4095).bmod (2 ^ 32) / 4096 * 4096

def sysMapzero (c : Ctx) (size : Int) : Option Nat × Ctx :=
  if size ≤ 0 then (none, c)
  else
    let size := pgroundupInt size
    match firstIdx fun i => !(c.proc.vregions i).used with
    | none => (none, c)
    | some i =>
      let sz := c.proc.sz
      if addInt sz size < sz then (none, c)
      else if trapframe < addInt sz size then (none, c)
      else
        let r : Vregion := ⟨true, sz, addInt 0 size⟩
        (some sz, { c with proc := { c.proc with
          sz := addInt sz size
          vregions := Function.update c.proc.vregions i r } })

/-- The text `sys_map_ro` puts into its page. -/
def mapRoMsg : List UInt8 := "Pagina solo lectura desde kernel\n".toList.map fun ch =>
    ch.toNat.toUInt8

/-- `sys_map_ro`: the Boolean is `true` for the return value 0. -/
def sysMapRo (c : Ctx) (va : Nat) : Except String (Bool × Ctx) := do
  let (f, v) ← mapFilled c.vm (pgrounddown va) ((memset 0).overlay 0 mapRoMsg)
    ⟨true, false, false, true⟩
  .ok (f.isSome, c.setVm v)

end EafitOs.Memory
