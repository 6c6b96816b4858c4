import Mathlib.Algebra.Group.Int.Defs
import Mathlib.Algebra.Group.Nat.Defs
import Mathlib.Data.List.Basic
import Mathlib.Logic.Function.Basic

/-!
# Physical memory

Frames are physical page numbers. `kalloc` takes the first frame of the free list
and `kfree` puts one back in front; both fill the page with junk. Addresses are
natural numbers, and arithmetic on `uint64` is written modulo `2 ^ 64`.
-/

namespace EafitOs.Memory

open Function

def pgsize : Nat := 4096

def maxva : Nat := 2 ^ 38

def trampoline : Nat := maxva - pgsize

def trapframe : Nat := trampoline - pgsize

def phystop : Nat := (0x80000000 + 128 * 1024 * 1024) / pgsize

def pgroundup (sz : Nat) : Nat := (sz + pgsize - 1) % 2 ^ 64 / pgsize * pgsize

def pgrounddown (a : Nat) : Nat := a / pgsize * pgsize

abbrev Frame := Nat

abbrev Page := Fin pgsize → UInt8

def memset (c : UInt8) : Page := fun _ => c

/-- Physical memory. The kernel's own image ends below frame `kend`; the trampoline
is one of its text pages. -/
structure Mem where
  free : List Frame
  page : Frame → Page
  kend : Frame
  text : Frame
  text_lt : text < kend

namespace Mem

def setPage (m : Mem) (f : Frame) (d : Page) : Mem :=
  { m with page := update m.page f d }

/-- `kalloc`: `none` when no memory is left. -/
def kalloc (m : Mem) : Option (Frame × Mem) :=
  match m.free with
  | [] => none
  | f :: rest => some (f, { m with free := rest, page := update m.page f (memset 5) })

def kfree (m : Mem) (f : Frame) : Except String Mem :=
  if f < m.kend ∨ phystop ≤ f then .error "kfree"
  else .ok { m with free := f :: m.free, page := update m.page f (memset 1) }

end Mem

end EafitOs.Memory
