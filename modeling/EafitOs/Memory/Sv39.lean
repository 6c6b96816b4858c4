import EafitOs.Foundation.ByteLayout
import EafitOs.Foundation.RadixTree
import EafitOs.Memory.PageTable

/-!
# The page table in memory

A page of a Sv39 table is a page of physical memory that holds 512 entries of eight
bytes. `walk` follows the entries of the levels 2 and 1, which it selects with nine
bits of the address each, to the entry of level 0.
-/

namespace EafitOs.Memory.Sv39

open Foundation

instance : NeZero pgsize := ⟨by decide⟩

def pteV : Nat := 1

def pa2pte (pa : Nat) : Nat := (pa >>> 12) <<< 10

def pte2pa (pte : Nat) : Nat := (pte >>> 10) <<< 12 % 2 ^ 64

def pteFlags (pte : Nat) : Nat := pte &&& 0x3FF

/-- `PX`: the index of an address at a level. -/
def px (level va : Nat) : Fin 512 := Fin.ofNat 512 (va >>> (12 + 9 * level))

def readPte (m : Mem) (f : Frame) (i : Fin 512) : Nat := getLE (m.page f) (8 * i) 8

def writePte (m : Mem) (f : Frame) (i : Fin 512) (pte : Nat) : Mem :=
  m.setPage f (setLE (m.page f) (8 * i) 8 pte)

/-- The page an entry with `PTE_V` leads to. -/
def child (pte : Nat) : Option Frame :=
  if pte &&& pteV ≠ 0 then some (pte2pa pte / pgsize) else none

/-- The levels of `walk` above level 0, from the table in `f` on: the table of level 0,
if there is one. -/
def walkLevels (va : Nat) (alloc : Bool) : Nat → Frame → Mem → Option Frame × Mem
  | 0, f, m => (some f, m)
  | level + 1, f, m =>
    match child (readPte m f (px (level + 1) va)) with
    | some g => walkLevels va alloc level g m
    | none =>
      if !alloc then (none, m)
      else
        match m.kalloc with
        | none => (none, m)
        | some (g, m) =>
          walkLevels va alloc level g (writePte (m.setPage g (memset 0)) f
            (px (level + 1) va) (pa2pte (g * pgsize) ||| pteV))

/-- `walk`: the page and the index of the entry, or `none` for the null pointer. -/
def walk (m : Mem) (root : Frame) (va : Nat) (alloc : Bool) :
    Except String (Option (Frame × Fin 512) × Mem) :=
  if maxva ≤ va then .error "walk"
  else
    let r := walkLevels va alloc 2 root m
    .ok (r.1.map fun f => (f, px 0 va), r.2)

abbrev Flags := Fin 1024

/-- The loop of `mappages`, with the number of pages left. -/
def mapLoop (root : Frame) (perm : Flags) : Nat → Nat → Frame → Mem → Except String (Bool × Mem)
  | 0, _, _, m => .ok (true, m)
  | n + 1, a, pa, m => do
    let (slot, m) ← walk m root a true
    match slot with
    | none => .ok (false, m)
    | some (f, i) =>
      if readPte m f i &&& pteV ≠ 0 then .error "mappages: remap"
      else
        mapLoop root perm n ((a + pgsize) % 2 ^ 64) (pa + 1)
          (writePte m f i (pa2pte (pa * pgsize) ||| perm ||| pteV))

/-- `mappages`: the Boolean is `true` for the return value 0. -/
def mappages (m : Mem) (root : Frame) (va size : Nat) (pa : Frame) (perm : Flags) :
    Except String (Bool × Mem) :=
  if va % pgsize ≠ 0 then .error "mappages: va not aligned"
  else if size % pgsize ≠ 0 then .error "mappages: size not aligned"
  else if size = 0 then .error "mappages: size"
  else mapLoop root perm (size / pgsize) va pa m

def unmapPage (root : Frame) (doFree : Bool) (m : Mem) (a : Nat) : Except String Mem := do
  let (slot, m) ← walk m root a false
  match slot with
  | none => .ok m
  | some (f, i) =>
    if readPte m f i &&& pteV = 0 then .ok m
    else
      let m ← freeIf doFree m (pte2pa (readPte m f i) / pgsize)
      .ok (writePte m f i 0)

def uvmunmap (m : Mem) (root : Frame) (va npages : Nat) (doFree : Bool) : Except String Mem :=
  if va % pgsize ≠ 0 then .error "uvmunmap: not aligned"
  else (pages va ((va + npages * pgsize) % 2 ^ 64)).foldlM (unmapPage root doFree) m

structure Entry where
  frame : Frame
  flags : Nat
  deriving DecidableEq

/-- An entry of level 0, if it has `PTE_V`. -/
def entry (pte : Nat) : Option Entry := (child pte).map fun f => ⟨f, pteFlags pte⟩

/-- The finite map a table stands for: the valid entry `walk` finds without allocating. -/
def lookup (m : Mem) (root : Frame) (va : Nat) : Option Entry :=
  (walkLevels va false 2 root m).1.bind fun f => entry (readPte m f (px 0 va))

end EafitOs.Memory.Sv39
