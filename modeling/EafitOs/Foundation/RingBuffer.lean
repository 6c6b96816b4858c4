import Mathlib.Data.List.Basic
import Mathlib.Data.Nat.ModEq
import Mathlib.Logic.Function.Basic

/-!
# Ring buffers with wrapping counters

A ring stores elements at the positions between two counters that only count up and
wrap at a modulus. The size of the ring divides the modulus, so a counter that wraps
does not skip a cell.
-/

namespace EafitOs.Foundation

open Function List

/-- Cells, the counter of elements taken out and the counter of elements put in. -/
structure RingBuffer (α : Type*) where
  cell : Nat → α
  head : Nat
  tail : Nat

namespace RingBuffer

variable {α : Type*} (size modulus : Nat)

def count (r : RingBuffer α) : Nat :=
  (r.tail + modulus - r.head) % modulus

def contents (r : RingBuffer α) : List α :=
  (List.range (r.count modulus)).map fun j => r.cell ((r.head + j) % size)

def push (r : RingBuffer α) (x : α) : RingBuffer α :=
  { r with cell := update r.cell (r.tail % size) x, tail := (r.tail + 1) % modulus }

def pop (r : RingBuffer α) : RingBuffer α :=
  { r with head := (r.head + 1) % modulus }

/-- Counters below the modulus that are at most `size` apart. -/
structure Valid (r : RingBuffer α) : Prop where
  head_lt : r.head < modulus
  tail_lt : r.tail < modulus
  fits : r.count modulus ≤ size

variable {size modulus} {r : RingBuffer α}

theorem length_contents : (r.contents size modulus).length = r.count modulus := by
  simp [contents]

namespace Valid

theorem tail_eq (h : Valid size modulus r) : r.tail = (r.head + r.count modulus) % modulus := by
  have hhead := h.head_lt
  rw [count, Nat.add_mod_mod, show r.head + (r.tail + modulus - r.head) = r.tail + modulus by omega,
    Nat.add_mod_right, Nat.mod_eq_of_lt h.tail_lt]

theorem isEmpty_iff (h : Valid size modulus r) : r.head = r.tail ↔ r.count modulus = 0 := by
  constructor
  · intro heq
    rw [count, ← heq, Nat.add_sub_cancel_left, Nat.mod_self]
  · intro hzero
    rw [h.tail_eq, hzero, Nat.add_zero, Nat.mod_eq_of_lt h.head_lt]

theorem isFull_iff (h : Valid size modulus r) (hsize : size < modulus) :
    r.tail = (r.head + size) % modulus ↔ r.count modulus = size := by
  constructor
  · intro heq
    have hmod : r.head + r.count modulus ≡ r.head + size [MOD modulus] := by
      rw [Nat.ModEq, ← heq, ← h.tail_eq]
    have hcount := h.fits.trans_lt hsize
    have hmod' := Nat.ModEq.add_left_cancel' r.head hmod
    rw [Nat.ModEq, Nat.mod_eq_of_lt hcount, Nat.mod_eq_of_lt hsize] at hmod'
    exact hmod'
  · intro heq
    rw [h.tail_eq, heq]

end Valid

theorem count_of_tail {k : Nat} (hhead : r.head < modulus) (hk : k < modulus)
    (htail : r.tail = (r.head + k) % modulus) : r.count modulus = k := by
  rw [count, htail]
  by_cases hwrap : r.head + k < modulus
  · rw [Nat.mod_eq_of_lt hwrap, show r.head + k + modulus - r.head = k + modulus by omega,
      Nat.add_mod_right, Nat.mod_eq_of_lt hk]
  · have hmod : (r.head + k) % modulus = r.head + k - modulus := by
      rw [Nat.mod_eq_sub_mod (by omega), Nat.mod_eq_of_lt (by omega)]
    rw [hmod, show r.head + k - modulus + modulus - r.head = k by omega, Nat.mod_eq_of_lt hk]

namespace Valid

theorem push (h : Valid size modulus r) (hdvd : size ∣ modulus) (hsize : size < modulus)
    (hroom : r.count modulus < size) (x : α) :
    Valid size modulus (r.push size modulus x) ∧
      (r.push size modulus x).contents size modulus = r.contents size modulus ++ [x] := by
  have hcount : (r.push size modulus x).count modulus = r.count modulus + 1 := by
    refine count_of_tail h.head_lt (by omega) ?_
    change (r.tail + 1) % modulus = _
    rw [h.tail_eq, Nat.mod_add_mod, Nat.add_assoc]
    rfl
  refine ⟨⟨h.head_lt, Nat.mod_lt _ (by omega), by omega⟩, ?_⟩
  have hlast : r.tail % size = (r.head + r.count modulus) % size := by
    rw [h.tail_eq, Nat.mod_mod_of_dvd _ hdvd]
  have hkeep : ∀ j < r.count modulus,
      (r.push size modulus x).cell ((r.head + j) % size) = r.cell ((r.head + j) % size) := by
    intro j hj
    apply update_of_ne
    -- two positions less than `size` apart are different cells
    rw [hlast]
    intro heq
    have hmod := Nat.ModEq.add_left_cancel' r.head heq
    rw [Nat.ModEq, Nat.mod_eq_of_lt (by omega), Nat.mod_eq_of_lt hroom] at hmod
    omega
  rw [contents, hcount, range_succ, map_append]
  congr 1
  · exact map_congr_left fun j hj => hkeep j (mem_range.mp hj)
  · change [(r.push size modulus x).cell ((r.head + r.count modulus) % size)] = [x]
    rw [← hlast]
    exact congrArg (fun y => [y]) (update_self ..)

theorem pop (h : Valid size modulus r) (hdvd : size ∣ modulus) (hsize : size < modulus)
    (hne : r.count modulus ≠ 0) :
    Valid size modulus (r.pop modulus) ∧
      r.contents size modulus = r.cell (r.head % size) :: (r.pop modulus).contents size
        modulus := by
  obtain ⟨k, hk⟩ := Nat.exists_eq_succ_of_ne_zero hne
  have hfits := h.fits
  have hhead : (r.head + 1) % modulus < modulus := Nat.mod_lt _ (by omega)
  have hcount : (r.pop modulus).count modulus = k := by
    refine count_of_tail hhead (by omega) ?_
    change r.tail = ((r.head + 1) % modulus + k) % modulus
    rw [h.tail_eq, hk, Nat.mod_add_mod]
    congr 1
    omega
  refine ⟨⟨hhead, h.tail_lt, by omega⟩, ?_⟩
  rw [contents, contents, hcount, hk, range_succ_eq_map, map_cons, map_map]
  congr 1
  apply map_congr_left
  intro j _
  change r.cell ((r.head + (j + 1)) % size) = r.cell (((r.head + 1) % modulus + j) % size)
  congr 1
  rw [Nat.add_mod ((r.head + 1) % modulus), Nat.mod_mod_of_dvd _ hdvd, ← Nat.add_mod]
  congr 1
  omega

end Valid

end RingBuffer

/-!
The same cells seen as stretches of a given length, for rings with more than two
counters. -/

section Window

variable {α : Type*}

/-- The `len` cells from position `start` on. -/
def window (size : Nat) (cell : Nat → α) (start len : Nat) : List α :=
  (List.range len).map fun i => cell ((start + i) % size)

variable {size : Nat} {cell : Nat → α} {start len : Nat}

@[simp] theorem length_window : (window size cell start len).length = len := by
  simp [window]

@[simp] theorem window_zero : window size cell start 0 = [] :=
  rfl

theorem window_succ :
    window size cell start (len + 1) = window size cell start len ++
      [cell ((start + len) % size)] := by
  simp [window, range_succ]

theorem window_append (k j : Nat) :
    window size cell start k ++ window size cell (start + k) j = window size cell start
      (k + j) := by
  simp [window, range_add, Nat.add_assoc]

theorem window_cons : window size cell start (len + 1) =
    cell (start % size) :: window size cell (start + 1) len := by
  have happend : window size cell start 1 ++ window size cell (start + 1) len =
      window size cell start (1 + len) := window_append 1 len
  rw [Nat.add_comm 1 len] at happend
  rw [← happend]
  rfl

theorem window_mod {modulus : Nat} (hdvd : size ∣ modulus) :
    window size cell (start % modulus) len = window size cell start len := by
  refine map_congr_left fun i _ => ?_
  rw [Nat.add_mod (start % modulus), Nat.mod_mod_of_dvd _ hdvd, ← Nat.add_mod]

theorem window_update {pos : Nat} (x : α) (hpast : start + len ≤ pos)
    (hround : pos < start + size) :
    window size (update cell (pos % size) x) start len = window size cell start len := by
  refine map_congr_left fun i hi => update_of_ne ?_ ..
  have hi' := mem_range.mp hi
  intro heq
  have hmod : start + i ≡ start + (pos - start) [MOD size] := by
    rw [Nat.ModEq, heq, Nat.add_sub_cancel' (by omega)]
  have hcancel := Nat.ModEq.add_left_cancel' start hmod
  rw [Nat.ModEq, Nat.mod_eq_of_lt (by omega), Nat.mod_eq_of_lt (by omega)] at hcancel
  omega

end Window

end EafitOs.Foundation
