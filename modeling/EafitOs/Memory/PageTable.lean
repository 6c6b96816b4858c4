import Mathlib.Data.List.AList
import EafitOs.Memory.Frames

/-!
# User page tables

A Sv39 table is kept as the valid entries of each level, keyed by the part of the
address that selects them: `va >> 30`, `va >> 21` and `va >> 12`. An entry of one
level exists only under an entry of the level above.

## Implementation notes

The kernel keeps the entries of a table in the frame that `mid`, `low` or `root`
names. Zeroing such a frame is having no entries under it.
-/

namespace EafitOs.Memory

/-- The bits `PTE_R`, `PTE_W`, `PTE_X` and `PTE_U`. -/
structure Perm where
  r : Bool
  w : Bool
  x : Bool
  u : Bool
  deriving DecidableEq, Repr

def Perm.heap : Perm := ⟨true, true, false, true⟩

structure Pte where
  frame : Frame
  perm : Perm
  deriving DecidableEq

/-- `walk` and `freewalk` take an entry without `R`, `W` and `X` for a branch. -/
def Pte.isLeaf (e : Pte) : Bool := e.perm.r || e.perm.w || e.perm.x

structure PageTable where
  root : Frame
  mid : AList fun _ : Nat => Frame
  low : AList fun _ : Nat => Frame
  leaf : AList fun _ : Nat => Pte
  low_mid : ∀ i, i ∈ low → i / 512 ∈ mid
  leaf_low : ∀ i, i ∈ leaf → i / 512 ∈ low

def vpn (va : Nat) : Nat := va / pgsize

namespace PageTable

def empty (root : Frame) : PageTable where
  root := root
  mid := ∅
  low := ∅
  leaf := ∅
  low_mid := by simp
  leaf_low := by simp

def addMid (pt : PageTable) (i : Nat) (f : Frame) : PageTable :=
  { pt with
    mid := pt.mid.insert i f
    low_mid := fun j hj => (AList.mem_insert pt.mid).mpr (Or.inr (pt.low_mid j hj)) }

def addLow (pt : PageTable) (i : Nat) (f : Frame) : PageTable :=
  if h : i / 512 ∈ pt.mid then
    { pt with
      low := pt.low.insert i f
      low_mid := by
        intro j hj
        rcases (AList.mem_insert pt.low).mp hj with rfl | hj
        · exact h
        · exact pt.low_mid j hj
      leaf_low := fun j hj => (AList.mem_insert pt.low).mpr (Or.inr (pt.leaf_low j hj)) }
  else pt

def setLeaf (pt : PageTable) (i : Nat) (e : Pte) : PageTable :=
  if h : i / 512 ∈ pt.low then
    { pt with
      leaf := pt.leaf.insert i e
      leaf_low := by
        intro j hj
        rcases (AList.mem_insert pt.leaf).mp hj with rfl | hj
        · exact h
        · exact pt.leaf_low j hj }
  else pt

def eraseLeaf (pt : PageTable) (i : Nat) : PageTable :=
  { pt with
    leaf := pt.leaf.erase i
    leaf_low := fun j hj => pt.leaf_low j (AList.mem_erase.mp hj).2 }

/-- The valid entry `walk(pagetable, va, 0)` leads to, if there is one. -/
def walk (pt : PageTable) (va : Nat) : Except String (Option Pte) :=
  if maxva ≤ va then .error "walk" else .ok (pt.leaf.lookup (vpn va))

/-- `walkaddr`: the frame of a user page. -/
def walkaddr (pt : PageTable) (va : Nat) : Option Frame :=
  if maxva ≤ va then none
  else
    match pt.leaf.lookup (vpn va) with
    | none => none
    | some e => if e.perm.u then some e.frame else none

end PageTable

structure Vm where
  mem : Mem
  pt : PageTable

/-- The level-2 part of `walk(pagetable, va, 1)`. -/
def walkMid (v : Vm) (va : Nat) : Option Vm :=
  if va / 2 ^ 30 ∈ v.pt.mid then some v
  else v.mem.kalloc.map fun (f, m) => ⟨m, v.pt.addMid (va / 2 ^ 30) f⟩

/-- The level-1 part of `walk(pagetable, va, 1)`. -/
def walkLow (v : Vm) (va : Nat) : Option Vm :=
  if va / 2 ^ 21 ∈ v.pt.low then some v
  else v.mem.kalloc.map fun (f, m) => ⟨m, v.pt.addLow (va / 2 ^ 21) f⟩

/-- `walk(pagetable, va, 1)`. A level-1 table stays when there is no memory for the
level-0 table under it. -/
def walkAlloc (v : Vm) (va : Nat) : Except String (Bool × Vm) :=
  if maxva ≤ va then .error "walk"
  else
    match walkMid v va with
    | none => .ok (false, v)
    | some v =>
      match walkLow v va with
      | none => .ok (false, v)
      | some v => .ok (true, v)

/-- The loop of `mappages`, with the number of pages left. -/
def mapLoop (perm : Perm) : Nat → Nat → Frame → Vm → Except String (Bool × Vm)
  | 0, _, _, v => .ok (true, v)
  | n + 1, a, pa, v => do
    let (ok, v) ← walkAlloc v a
    if !ok then .ok (false, v)
    else if vpn a ∈ v.pt.leaf then .error "mappages: remap"
    else mapLoop perm n (a + pgsize) (pa + 1) { v with pt := v.pt.setLeaf (vpn a) ⟨pa, perm⟩ }

/-- `mappages`: the Boolean is `true` for the return value 0. -/
def mappages (v : Vm) (va size : Nat) (pa : Frame) (perm : Perm) : Except String (Bool × Vm) :=
  if va % pgsize ≠ 0 then .error "mappages: va not aligned"
  else if size % pgsize ≠ 0 then .error "mappages: size not aligned"
  else if size = 0 then .error "mappages: size"
  else mapLoop perm (size / pgsize) va pa v

def freeIf (doFree : Bool) (m : Mem) (f : Frame) : Except String Mem :=
  if doFree then m.kfree f else .ok m

/-- Clear a valid entry in `uvmunmap`. -/
def unmapPte (doFree : Bool) (v : Vm) (a : Nat) : Option Pte → Except String Vm
  | none => .ok v
  | some e => do
    let m ← freeIf doFree v.mem e.frame
    .ok ⟨m, v.pt.eraseLeaf (vpn a)⟩

def unmapPage (doFree : Bool) (v : Vm) (a : Nat) : Except String Vm := do
  let e ← v.pt.walk a
  unmapPte doFree v a e

/-- The addresses a loop from `va` up to `stop` visits page by page. -/
def pages (va stop : Nat) : List Nat :=
  (List.range ((stop - va + (pgsize - 1)) / pgsize)).map fun i => va + i * pgsize

def uvmunmap (v : Vm) (va npages : Nat) (doFree : Bool) : Except String Vm :=
  if va % pgsize ≠ 0 then .error "uvmunmap: not aligned"
  else (pages va ((va + npages * pgsize) % 2 ^ 64)).foldlM (unmapPage doFree) v

/-- Store a value in a C `int` and convert it back to `uint64`. -/
def throughInt (n : Nat) : Nat := ((n : Int).bmod (2 ^ 32) % 2 ^ 64).toNat

def uvmdealloc (v : Vm) (oldsz newsz : Nat) : Except String (Nat × Vm) :=
  if oldsz ≤ newsz then .ok (oldsz, v)
  else if pgroundup newsz < pgroundup oldsz then do
    let npages := throughInt ((pgroundup oldsz - pgroundup newsz) / pgsize)
    let v ← uvmunmap v (pgroundup newsz) npages true
    .ok (newsz, v)
  else .ok (newsz, v)

/-- The loop of `uvmalloc` over the pages that are left. -/
def allocLoop (perm : Perm) (oldsz : Nat) : List Nat → Vm → Except String (Bool × Vm)
  | [], v => .ok (true, v)
  | a :: rest, v =>
    match v.mem.kalloc with
    | none => do
      let (_, v) ← uvmdealloc v a oldsz
      .ok (false, v)
    | some (f, m) => do
      let (ok, v) ← mappages ⟨m.setPage f (memset 0), v.pt⟩ a pgsize f perm
      if ok then allocLoop perm oldsz rest v
      else
        let m ← v.mem.kfree f
        let (_, v) ← uvmdealloc ⟨m, v.pt⟩ a oldsz
        .ok (false, v)

/-- `uvmalloc`, with the writable and executable bits of `xperm`. -/
def uvmalloc (v : Vm) (oldsz newsz : Nat) (w x : Bool) : Except String (Nat × Vm) :=
  if newsz < oldsz then .ok (oldsz, v)
  else do
    let (ok, v) ← allocLoop ⟨true, w, x, true⟩ (pgroundup oldsz) (pages (pgroundup oldsz) newsz) v
    .ok (if ok then newsz else 0, v)

/-- `freewalk` on a level-0 table. On an entry without `R`, `W` and `X` the kernel
goes on into the page it maps as if it were a table; the model stops there. -/
def freeLow (pt : PageTable) (m : Mem) (i : Nat) : Except String Mem :=
  match pt.low.lookup i with
  | none => .ok m
  | some f => do
    let m ← (List.range 512).foldlM (fun m k =>
      match pt.leaf.lookup (i * 512 + k) with
      | none => .ok m
      | some e => if e.isLeaf then .error "freewalk: leaf" else .error "freewalk: data page") m
    m.kfree f

def freeMid (pt : PageTable) (m : Mem) (i : Nat) : Except String Mem :=
  match pt.mid.lookup i with
  | none => .ok m
  | some f => do
    let m ← (List.range 512).foldlM (fun m k => freeLow pt m (i * 512 + k)) m
    m.kfree f

-- Irreducible, so that no unifier runs the loop over the 512 entries.
@[irreducible]
def freewalk (v : Vm) : Except String Mem := do
  let m ← (List.range 512).foldlM (freeMid v.pt) v.mem
  m.kfree v.pt.root

/-- The user pages `uvmfree` removes. -/
def unmapUser (v : Vm) (sz : Nat) : Except String Vm :=
  if 0 < sz then uvmunmap v 0 (pgroundup sz / pgsize) true else .ok v

def uvmfree (v : Vm) (sz : Nat) : Except String Mem := do
  let v ← unmapUser v sz
  freewalk v

/-- Copy the page `e` maps at `i` into the new table: `false` if there is no memory. -/
def copyPte (v : Vm) (i : Nat) (e : Pte) : Except String (Bool × Vm) :=
  match v.mem.kalloc with
  | none => .ok (false, v)
  | some (f, m) => do
    let (ok, v) ← mappages ⟨m.setPage f (m.page e.frame), v.pt⟩ i pgsize f e.perm
    if ok then .ok (true, v)
    else
      let m ← v.mem.kfree f
      .ok (false, ⟨m, v.pt⟩)

def copyPage (old : PageTable) (v : Vm) (i : Nat) : Except String (Bool × Vm) :=
  if maxva ≤ i then .error "walk"
  else
    match old.leaf.lookup (vpn i) with
    | none => .ok (true, v)
    | some e => copyPte v i e

/-- The loop of `uvmcopy` over the pages that are left. The Boolean is `true` for the
return value 0; a failure removes what was copied. -/
def copyLoop (old : PageTable) : List Nat → Vm → Except String (Bool × Vm)
  | [], v => .ok (true, v)
  | i :: rest, v => do
    let (ok, v) ← copyPage old v i
    if ok then copyLoop old rest v
    else
      let v ← uvmunmap v 0 (i / pgsize) true
      .ok (false, v)

def uvmcopy (old : PageTable) (v : Vm) (sz : Nat) : Except String (Bool × Vm) :=
  copyLoop old (pages 0 sz) v

/-- `uvmclear`: take a page away from user mode. -/
def uvmclear (v : Vm) (va : Nat) : Except String Vm :=
  if maxva ≤ va then .error "walk"
  else
    match v.pt.leaf.lookup (vpn va) with
    | none => if va / 2 ^ 21 ∈ v.pt.low then .ok v else .error "uvmclear"
    | some e =>
      .ok { v with pt := v.pt.setLeaf (vpn va) { e with perm := { e.perm with u := false } } }

def uvmcreate (m : Mem) : Option Vm := m.kalloc.map fun (f, m) => ⟨m, PageTable.empty f⟩

/-- The second half of `proc_pagetable`: the trapframe page. -/
def mapTrapframe (v : Vm) (tf : Frame) : Except String (Option Vm × Mem) := do
  let (ok, v) ← mappages v trapframe pgsize tf ⟨true, true, false, false⟩
  if ok then .ok (some v, v.mem)
  else
    let v ← uvmunmap v trampoline 1 false
    let m ← uvmfree v 0
    .ok (none, m)

/-- `proc_pagetable`, given the frame of the process's trapframe. -/
def procPagetable (m : Mem) (tf : Frame) : Except String (Option Vm × Mem) :=
  match uvmcreate m with
  | none => .ok (none, m)
  | some v => do
    let (ok, v) ← mappages v trampoline pgsize v.mem.text ⟨true, false, true, false⟩
    if ok then mapTrapframe v tf
    else
      let m ← uvmfree v 0
      .ok (none, m)

def procFreepagetable (v : Vm) (sz : Nat) : Except String Mem := do
  let v ← uvmunmap v trampoline 1 false
  let v ← uvmunmap v trapframe 1 false
  uvmfree v sz

end EafitOs.Memory
