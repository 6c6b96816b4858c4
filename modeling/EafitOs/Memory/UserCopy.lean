import EafitOs.Memory.PageTable

/-!
# Access to user memory

The kernel reaches user memory through `copyin`, `copyout` and `copyinstr`, which
allocate a missing page below `p->sz` with `vmfault`. User loads and stores go
through the entry of their page as the hardware does.
-/

namespace EafitOs.Memory

/-- The bytes of a page from `off` on replaced by `bs`. -/
def Page.overlay (d : Page) (off : Nat) (bs : List UInt8) : Page :=
  fun i => if off ≤ i.val ∧ i.val < off + bs.length then bs.getD (i.val - off) 0 else d i

/-- The `n` bytes of a page from `off` on. -/
def Page.slice (d : Page) (off n : Nat) : List UInt8 := ((List.ofFn d).drop off).take n

def ismapped (pt : PageTable) (va : Nat) : Except String Bool := (pt.walk va).map Option.isSome

/-- Map a fresh page with contents `d` at a page-aligned address. The frame is `none`
when there is no memory for it. -/
def mapFilled (v : Vm) (va : Nat) (d : Page) (perm : Perm) : Except String (Option Frame × Vm) :=
  match v.mem.kalloc with
  | none => .ok (none, v)
  | some (f, m) => do
    let (ok, v) ← mappages ⟨m.setPage f d, v.pt⟩ va pgsize f perm
    if ok then .ok (some f, v)
    else
      let m ← v.mem.kfree f
      .ok (none, ⟨m, v.pt⟩)

/-- `vmfault` for a process of size `sz`: `none` is the return value 0. -/
def vmfault (v : Vm) (sz va : Nat) : Except String (Option Frame × Vm) :=
  if sz ≤ va then .ok (none, v)
  else do
    let mapped ← ismapped v.pt (pgrounddown va)
    if mapped then .ok (none, v)
    else mapFilled v (pgrounddown va) (memset 0) .heap

/-- `walkaddr`, and `vmfault` if that finds nothing. -/
def userFrame (v : Vm) (sz va0 : Nat) : Except String (Option Frame × Vm) :=
  match v.pt.walkaddr va0 with
  | some f => .ok (some f, v)
  | none => vmfault v sz va0

/-- The loop of `copyin`. The Boolean is `true` for the return value 0; the list is
what was copied. Each iteration copies at least one byte. -/
def copyinLoop (sz : Nat) : Nat → Vm → Nat → Nat → List UInt8 →
    Except String (Bool × List UInt8 × Vm)
  | 0, v, _, _, acc => .ok (true, acc, v)
  | fuel + 1, v, srcva, len, acc =>
    if len = 0 then .ok (true, acc, v)
    else do
      let va0 := pgrounddown srcva
      let (f, v) ← userFrame v sz va0
      match f with
      | none => .ok (false, acc, v)
      | some f =>
        let n := min (pgsize - (srcva - va0)) len
        let bs := (v.mem.page f).slice (srcva - va0) n
        copyinLoop sz fuel v ((va0 + pgsize) % 2 ^ 64) (len - n) (acc ++ bs)

def copyin (v : Vm) (sz srcva len : Nat) : Except String (Bool × List UInt8 × Vm) :=
  copyinLoop sz len v srcva len []

/-- The entry `copyout` tests for `PTE_W`. -/
def writablePte (pt : PageTable) (va0 : Nat) : Bool :=
  match pt.leaf.lookup (vpn va0) with
  | none => false
  | some e => e.perm.w

def copyoutLoop (sz : Nat) : Nat → Vm → Nat → List UInt8 → Except String (Bool × Vm)
  | 0, v, _, _ => .ok (true, v)
  | fuel + 1, v, dstva, src =>
    if src = [] then .ok (true, v)
    else if maxva ≤ pgrounddown dstva then .ok (false, v)
    else do
      let va0 := pgrounddown dstva
      let (f, v) ← userFrame v sz va0
      match f with
      | none => .ok (false, v)
      | some f =>
        if writablePte v.pt va0 then
          let n := min (pgsize - (dstva - va0)) src.length
          let d := (v.mem.page f).overlay (dstva - va0) (src.take n)
          copyoutLoop sz fuel { v with mem := v.mem.setPage f d } ((va0 + pgsize) % 2 ^ 64)
            (src.drop n)
        else .ok (false, v)

def copyout (v : Vm) (sz dstva : Nat) (src : List UInt8) : Except String (Bool × Vm) :=
  copyoutLoop sz src.length v dstva src

def copyinstrLoop (sz : Nat) : Nat → Vm → Nat → Nat → List UInt8 →
    Except String (Bool × List UInt8 × Vm)
  | 0, v, _, _, acc => .ok (false, acc, v)
  | fuel + 1, v, srcva, max, acc =>
    if max = 0 then .ok (false, acc, v)
    else do
      let va0 := pgrounddown srcva
      let (f, v) ← userFrame v sz va0
      match f with
      | none => .ok (false, acc, v)
      | some f =>
        let n := min (pgsize - (srcva - va0)) max
        let bs := (v.mem.page f).slice (srcva - va0) n
        if 0 ∈ bs then .ok (true, acc ++ bs.takeWhile (· ≠ 0) ++ [0], v)
        else copyinstrLoop sz fuel v ((va0 + pgsize) % 2 ^ 64) (max - n) (acc ++ bs)

def copyinstr (v : Vm) (sz srcva max : Nat) : Except String (Bool × List UInt8 × Vm) :=
  copyinstrLoop sz max v srcva max []

/-- The user entry the hardware uses for a load. Writable entries that are not
readable are reserved and fault. -/
def loadPte (pt : PageTable) (va : Nat) : Option Pte :=
  if maxva ≤ va then none
  else (pt.leaf.lookup (vpn va)).filter fun e => e.perm.u && e.perm.r

def storePte (pt : PageTable) (va : Nat) : Option Pte :=
  (loadPte pt va).filter fun e => e.perm.w

def pageOffset (va : Nat) : Fin pgsize := ⟨va % pgsize, Nat.mod_lt _ (by decide)⟩

/-- The byte a user load returns; `none` is a page fault. -/
def loadByte (v : Vm) (va : Nat) : Option UInt8 :=
  (loadPte v.pt va).map fun e => v.mem.page e.frame (pageOffset va)

/-- A user store; `none` is a page fault. -/
def storeByte (v : Vm) (va : Nat) (b : UInt8) : Option Vm :=
  (storePte v.pt va).map fun e =>
    { v with
      mem := v.mem.setPage e.frame (Function.update (v.mem.page e.frame) (pageOffset va) b) }

end EafitOs.Memory
