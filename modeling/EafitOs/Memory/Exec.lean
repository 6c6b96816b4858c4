import EafitOs.Memory.Trap

/-!
# The program loader

`kexec` builds a new page table from an ELF file, puts the arguments on a fresh stack
and only then gives up the old table. Every failure frees the new table. The loop of `loadseg` has
the `uint` counter of the source, which wraps: a second round does the same as the first, so that
fuel for one is enough.

## Implementation notes

Looking up the path takes a reference to the inode that is given back before
`kexec` returns, so `kexec` starts from the inode here. Registers and the process
name are not modelled.
-/

namespace EafitOs.Memory

/-- A little-endian field of `n` bytes. -/
def leField (bs : List UInt8) (off n : Nat) : Nat :=
  ((bs.drop off).take n).foldr (fun b acc => b.toNat + 256 * acc) 0

def elfMagic : Nat := 0x464C457F

def elfhdrSize : Nat := 64

def proghdrSize : Nat := 56

def maxarg : Nat := 32

def userstack : Nat := 1

/-- The loop of `loadseg`: the Boolean is `true` for the return value 0. -/
def loadsegLoop (fs : Fs) (ip va offset sz : Nat) : Nat → Nat → Vm → Except String (Bool × Vm)
  | 0, _, _ => .error "loadseg: no end"
  | fuel + 1, i, v =>
    if sz ≤ i then .ok (true, v)
    else
      match v.pt.walkaddr ((va + i) % 2 ^ 64) with
      | none => .error "loadseg: address should exist"
      | some f =>
        let n := if sz - i < pgsize then sz - i else pgsize
        let bs := fs.readi ip ((offset + i) % 2 ^ 32) n
        let v := { v with mem := v.mem.setPage f ((v.mem.page f).overlay 0 bs) }
        if bs.length ≠ n then .ok (false, v)
        else loadsegLoop fs ip va offset sz fuel ((i + pgsize) % 2 ^ 32) v

/-- `loadseg`, whose offset and size are `uint`. -/
def loadseg (fs : Fs) (v : Vm) (va ip offset sz : Nat) : Except String (Bool × Vm) :=
  loadsegLoop fs ip va (offset % 2 ^ 32) (sz % 2 ^ 32) (2 ^ 20 + 1) 0 v

/-- One program header: success, `sz` and the new image. -/
def loadHeader (fs : Fs) (ip off sz : Nat) (v : Vm) : Except String (Bool × Nat × Vm) :=
  let ph := fs.readi ip off proghdrSize
  let vaddr := leField ph 16 8
  let filesz := leField ph 32 8
  let memsz := leField ph 40 8
  let flags := (leField ph 4 4).toUInt32
  if ph.length ≠ proghdrSize then .ok (false, sz, v)
  else if leField ph 0 4 ≠ 1 then .ok (true, sz, v)
  else if memsz < filesz then .ok (false, sz, v)
  else if (vaddr + memsz) % 2 ^ 64 < vaddr then .ok (false, sz, v)
  else if vaddr % pgsize ≠ 0 then .ok (false, sz, v)
  else do
    let (sz1, v) ← uvmalloc v sz (vaddr + memsz) (hasBit flags 2) (hasBit flags 1)
    if sz1 = 0 then .ok (false, sz, v)
    else
      let (ok, v) ← loadseg fs v vaddr ip (leField ph 8 8) filesz
      .ok (ok, sz1, v)

/-- The loop over the program headers: success, `sz` and the new image. -/
def loadLoop (fs : Fs) (ip : Nat) : Nat → Nat → Nat → Vm → Except String (Bool × Nat × Vm)
  | 0, _, sz, v => .ok (true, sz, v)
  | n + 1, off, sz, v => do
    let (ok, sz, v) ← loadHeader fs ip off sz v
    if ok then loadLoop fs ip n ((off + proghdrSize) % 2 ^ 32) sz v else .ok (false, sz, v)

def sub64 (a b : Nat) : Nat := (a + 2 ^ 64 - b % 2 ^ 64) % 2 ^ 64

def le64 (n : Nat) : List UInt8 := (List.range 8).map fun i => (n / 256 ^ i).toUInt8

/-- Push the argument strings, where `psz` is the size of the old image: success, `sp`, and
their addresses. -/
def pushArgs (psz stackbase : Nat) : List (List UInt8) → Nat → List Nat → Vm →
    Except String (Bool × Nat × List Nat × Vm)
  | [], sp, ustack, v => .ok (true, sp, ustack, v)
  | arg :: rest, sp, ustack, v =>
    if maxarg ≤ ustack.length then .ok (false, sp, ustack, v)
    else
      let sp := sub64 sp (arg.length + 1)
      let sp := sp - sp % 16
      if sp < stackbase then .ok (false, sp, ustack, v)
      else do
        let (ok, v) ← copyout v psz sp (arg ++ [0])
        if !ok then .ok (false, sp, ustack, v)
        else pushArgs psz stackbase rest sp (ustack ++ [sp]) v

/-- The stack with its arguments: `sp`, or `none` for a jump to `bad`. The null pointer after
`MAXARG` strings would lie beyond the end of `ustack`. -/
def buildStack (psz : Nat) (argv : List (List UInt8)) (sz : Nat) (v : Vm) :
    Except String (Option Nat × Vm) := do
  let v ← uvmclear v (sz - (userstack + 1) * pgsize)
  let stackbase := sz - userstack * pgsize
  let (ok, sp, ustack, v) ← pushArgs psz stackbase argv sz [] v
  if !ok then .ok (none, v)
  else if maxarg ≤ ustack.length then .error "ustack"
  else
    let sp := sub64 sp ((argv.length + 1) * 8)
    let sp := sp - sp % 16
    if sp < stackbase then .ok (none, v)
    else do
      let (ok, v) ← copyout v psz sp ((ustack ++ [0]).flatMap le64)
      .ok (if ok then some sp else none, v)

/-- The last two pages of the image, the guard and the stack: `sp`, or `none` for a jump to `bad`,
and the size to free there. -/
def growStack (psz : Nat) (argv : List (List UInt8)) (sz : Nat) (v : Vm) :
    Except String (Option Nat × Nat × Vm) := do
  let sz := pgroundup sz
  let (sz1, v) ← uvmalloc v sz ((sz + (userstack + 1) * pgsize) % 2 ^ 64) true false
  if sz1 = 0 then .ok (none, sz, v)
  else
    let (sp, v) ← buildStack psz argv sz1 v
    .ok (sp, sz1, v)

/-- The image and its stack. All pages that `copyout` writes there are mapped, so that it never
asks for the size of the old image. -/
def buildImage (fs : Fs) (ip : Nat) (argv : List (List UInt8)) (v : Vm) :
    Except String (Bool × Nat × Vm) := do
  let elf := fs.readi ip 0 elfhdrSize
  let (ok, sz, v) ← loadLoop fs ip (leField elf 56 2) (leField elf 32 8 % 2 ^ 32) 0 v
  if !ok then .ok (false, sz, v)
  else
    let (sp, sz, v) ← growStack 0 argv sz v
    .ok (sp.isSome, sz, v)

/-- `kexec` of the inode its path leads to: the number of arguments, or `none` for -1. -/
def kexec (c : Ctx) (ip : Option Nat) (argv : List (List UInt8)) :
    Except String (Option Nat × Ctx) :=
  match ip with
  | none => .ok (none, c)
  | some ip =>
    let elf := c.fs.readi ip 0 elfhdrSize
    if elf.length ≠ elfhdrSize then .ok (none, c)
    else if leField elf 0 4 ≠ elfMagic then .ok (none, c)
    else do
      let (v, m) ← procPagetable c.mem c.proc.tf
      match v with
      | none => .ok (none, { c with mem := m })
      | some v =>
        let (ok, sz, v) ← buildImage c.fs ip argv v
        if ok then
          let m ← procFreepagetable ⟨v.mem, c.proc.pt⟩ c.proc.sz
          .ok (some argv.length, { c with mem := m, proc := { c.proc with pt := v.pt, sz := sz } })
        else
          let m ← procFreepagetable v sz
          .ok (none, { c with mem := m })

end EafitOs.Memory
