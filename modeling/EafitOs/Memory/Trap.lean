import EafitOs.Memory.Process

/-!
# Page faults and exit

The page-fault branch of `usertrap` tries the `mapzero` regions, the file mappings
and the lazy heap in this order. What is left kills the process.
-/

namespace EafitOs.Memory

/-- The permissions `mmap_fault` gives a page. -/
def Vma.perm (v : Vma) : Perm := ⟨v.protRead, v.protWrite, v.protExec, true⟩

/-- The contents `mmap_fault` loads for the page at `pg`. -/
def Vma.fill (v : Vma) (fs : Fs) (i pg : Nat) : Page :=
  (memset 0).overlay 0 (fs.readi i (v.fileOff pg) pgsize)

/-- `mmap_fault`: the Boolean is `true` for the return value 0. -/
def mmapFault (c : Ctx) (va : Nat) : Except String (Bool × Ctx) :=
  match firstIdx fun i => (c.proc.vmas i).covers va with
  | none => .ok (false, c)
  | some i =>
    match c.mem.kalloc with
    | none => .ok (false, c)
    | some _ => do
      let v := c.proc.vmas i
      let ip ← c.fs.ilock (c.fs.ftable v.file).ip
      let pg := pgrounddown va
      let (f, vm) ← mapFilled c.vm pg (v.fill c.fs ip pg) v.perm
      .ok (f.isSome, c.setVm vm)

namespace Ctx

def setKilled (c : Ctx) : Ctx := { c with proc := { c.proc with killed := true } }

end Ctx

/-- A fault in a `mapzero` region, as in `usertrap`. -/
def vregionFault (c : Ctx) (va : Nat) : Except String (Bool × Ctx) :=
  match firstIdx fun i => (c.proc.vregions i).covers va with
  | none => .ok (false, c)
  | some _ => do
    let mapped ← ismapped c.proc.pt (pgrounddown va)
    if mapped then .ok (true, c)
    else
      let (f, vm) ← mapFilled c.vm (pgrounddown va) (memset 0x41) .heap
      .ok (f.isSome, if f.isSome then c.setVm vm else (c.setVm vm).setKilled)

def heapFault (c : Ctx) (va : Nat) : Except String (Bool × Ctx) := do
  let (f, vm) ← vmfault c.vm c.proc.sz va
  .ok (f.isSome, c.setVm vm)

/-- A fault nobody handled: the page goes and the process is killed. -/
def badFault (c : Ctx) (va : Nat) : Except String Ctx := do
  let mapped ← ismapped c.proc.pt (pgrounddown va)
  if mapped then
    let vm ← uvmunmap c.vm (pgrounddown va) 1 true
    .ok (c.setVm vm).setKilled
  else .ok c.setKilled

/-- Try a handler unless the fault is handled or the process killed. -/
def orElse (r : Bool × Ctx) (handler : Ctx → Except String (Bool × Ctx)) :
    Except String (Bool × Ctx) :=
  if r.1 || r.2.proc.killed then .ok r else handler r.2

/-- The page-fault branch of `usertrap`. -/
def usertrap (c : Ctx) (va : Nat) : Except String Ctx := do
  let r ← vregionFault c va
  let r ← orElse r fun c => mmapFault c va
  let r ← orElse r fun c => heapFault c va
  if r.1 || r.2.proc.killed then .ok r.2 else badFault r.2 va

/-- Release one entry of the VMA table in `kexit`. -/
def exitVma (c : Ctx) (i : Fin maxvma) : Except String Ctx :=
  let v := c.proc.vmas i
  if !v.used then .ok c
  else do
    let c ← (pages v.addr ((v.addr + v.length) % 2 ^ 64)).foldlM (releasePage v) c
    releaseVma c i

def exitFile (c : Ctx) (fd : Fin nofile) : Except String Ctx :=
  match c.proc.ofile fd with
  | none => .ok c
  | some f => do
    let fs ← c.fs.fileclose f
    .ok { c with fs := fs, proc := { c.proc with ofile := Function.update c.proc.ofile fd none } }

/-- What `kexit` does before the process becomes a zombie. -/
def kexit (c : Ctx) : Except String Ctx := do
  let c ← (List.finRange maxvma).foldlM exitVma c
  let c ← (List.finRange nofile).foldlM exitFile c
  match c.proc.cwd with
  | none => .ok c
  | some i => .ok { c with fs := c.fs.iput i, proc := { c.proc with cwd := none } }

end EafitOs.Memory
