import Mathlib.Algebra.Ring.Int.Defs
import Mathlib.Logic.Function.Basic

/-!
# Overlapping copies

The kernel (`kernel/string.c`) and the user library (`user/ulib.c`) each have a `memmove`. Both
copy byte by byte in one of two directions, and they choose the direction by different tests.
-/

namespace EafitOs.Library

open Function

abbrev Memory := UInt64 → UInt8

def copyUp : Nat → Memory → UInt64 → UInt64 → Memory
  | 0, mem, _, _ => mem
  | n + 1, mem, d, s => copyUp n (update mem d (mem s)) (d + 1) (s + 1)

def copyDown : Nat → Memory → UInt64 → UInt64 → Memory
  | 0, mem, _, _ => mem
  | n + 1, mem, d, s => copyDown n (update mem (d - 1) (mem (s - 1))) (d - 1) (s - 1)

/-- `memmove` of the kernel goes down for an overlap where the destination is higher. -/
def Kernel.memmove (mem : Memory) (dst src : UInt64) (n : UInt32) : Memory :=
  if n = 0 then mem
  else if src < dst ∧ dst < src + n.toUInt64 then
    copyDown n.toNat mem (dst + n.toUInt64) (src + n.toUInt64)
  else
    copyUp n.toNat mem dst src

/-- `memmove` of the user library goes down whenever the destination is not lower. Its loops
do nothing for a negative count. -/
def Ulib.memmove (mem : Memory) (dst src : UInt64) (n : Int32) : Memory :=
  if dst < src then copyUp n.toNatClampNeg mem dst src
  else copyDown n.toNatClampNeg mem (dst + .ofInt n.toInt) (src + .ofInt n.toInt)

/-- `mem'` has the bytes of the source in the destination, and is `mem` elsewhere. -/
structure Moved (mem mem' : Memory) (dst src : UInt64) (n : Nat) : Prop where
  copied : ∀ i < n, mem' (dst + .ofNat i) = mem (src + .ofNat i)
  kept : ∀ a, (∀ i < n, a ≠ dst + .ofNat i) → mem' a = mem a

variable {mem : Memory} {dst src p : UInt64} {n i j : Nat}

theorem add_ofNat_succ (p : UInt64) (i : Nat) : p + .ofNat (i + 1) = p + 1 + .ofNat i := by
  rw [Nat.add_comm i, UInt64.ofNat_add, ← UInt64.add_assoc]
  rfl

theorem add_ofNat_sub_one (p : UInt64) (n : Nat) : p + .ofNat (n + 1) - 1 = p + .ofNat n := by
  rw [UInt64.ofNat_add, ← UInt64.add_assoc]
  exact UInt64.add_sub_cancel _ _

theorem ofNat_ne (hi : i < UInt64.size) (hj : j < UInt64.size) (hne : i ≠ j) :
    p + .ofNat i ≠ p + .ofNat j := by
  intro heq
  have hval := congrArg UInt64.toNat ((UInt64.add_right_inj p).mp heq)
  rw [UInt64.toNat_ofNat_of_lt' hi, UInt64.toNat_ofNat_of_lt' hj] at hval
  exact hne hval

theorem copyUp_moved (hn : n ≤ UInt64.size)
    (hclear : ∀ i j, i < j → j < n → dst + .ofNat i ≠ src + .ofNat j) :
    Moved mem (copyUp n mem dst src) dst src n := by
  induction n generalizing mem dst src with
  | zero => exact ⟨fun i hi => absurd hi (Nat.not_lt_zero i), fun _ _ => rfl⟩
  | succ n ih =>
    have hrest := @ih (update mem dst (mem src)) (dst + 1) (src + 1) (by omega)
      fun i j hij hj => by
        rw [← add_ofNat_succ, ← add_ofNat_succ]
        exact hclear _ _ (by omega) (by omega)
    have hzero : ∀ p : UInt64, p + .ofNat 0 = p := UInt64.add_zero
    refine ⟨fun i hi => ?_, fun a ha => ?_⟩
    · cases i with
      | zero =>
        rw [copyUp, hrest.kept, hzero, hzero, update_self]
        intro i hi
        rw [← add_ofNat_succ]
        exact ofNat_ne (by omega) (by omega) (by omega)
      | succ i =>
        rw [copyUp, add_ofNat_succ, hrest.copied i (by omega), ← add_ofNat_succ, update_of_ne]
        have := hclear 0 (i + 1) (by omega) hi
        rw [hzero] at this
        exact this.symm
    · rw [copyUp, hrest.kept, update_of_ne]
      · have := ha 0 (by omega)
        rwa [hzero] at this
      · intro i hi
        rw [← add_ofNat_succ]
        exact ha _ (by omega)

theorem copyDown_moved (hn : n ≤ UInt64.size)
    (hclear : ∀ i j, j < i → i < n → dst + .ofNat i ≠ src + .ofNat j) :
    Moved mem (copyDown n mem (dst + .ofNat n) (src + .ofNat n)) dst src n := by
  induction n generalizing mem with
  | zero => exact ⟨fun i hi => absurd hi (Nat.not_lt_zero i), fun _ _ => rfl⟩
  | succ n ih =>
    rw [copyDown, add_ofNat_sub_one, add_ofNat_sub_one]
    have hrest := @ih (update mem (dst + .ofNat n) (mem (src + .ofNat n))) (by omega)
      fun i j hji hi => hclear i j hji (by omega)
    refine ⟨fun i hi => ?_, fun a ha => ?_⟩
    · obtain hlt | rfl := Nat.lt_or_eq_of_le (Nat.le_of_lt_succ hi)
      · rw [hrest.copied i hlt, update_of_ne (hclear n i hlt (by omega)).symm]
      · rw [hrest.kept, update_self]
        exact fun j hj => ofNat_ne (by omega) (by omega) (by omega)
    · rw [hrest.kept a fun i hi => ha i (by omega), update_of_ne (ha n (by omega))]

theorem toNat_add_ofNat (hp : p.toNat + n ≤ UInt64.size) (hi : i < n) :
    (p + .ofNat i).toNat = p.toNat + i := by
  have hlt : i < UInt64.size := by omega
  rw [UInt64.toNat_add, UInt64.toNat_ofNat_of_lt' hlt]
  exact Nat.mod_eq_of_lt (by omega : p.toNat + i < UInt64.size)

section Directions

variable (hdst : dst.toNat + n ≤ UInt64.size) (hsrc : src.toNat + n ≤ UInt64.size)
include hdst hsrc

theorem copyUp_moved_of_le (hle : dst ≤ src ∨ src.toNat + n ≤ dst.toNat) :
    Moved mem (copyUp n mem dst src) dst src n := by
  refine copyUp_moved (by omega) fun i j hij hj heq => ?_
  have hval := congrArg UInt64.toNat heq
  rw [toNat_add_ofNat hdst (by omega), toNat_add_ofNat hsrc hj] at hval
  rw [UInt64.le_iff_toNat_le] at hle
  omega

theorem copyDown_moved_of_le (hle : src ≤ dst) :
    Moved mem (copyDown n mem (dst + .ofNat n) (src + .ofNat n)) dst src n := by
  refine copyDown_moved (by omega) fun i j hji hi heq => ?_
  have hval := congrArg UInt64.toNat heq
  rw [toNat_add_ofNat hdst hi, toNat_add_ofNat hsrc (by omega)] at hval
  rw [UInt64.le_iff_toNat_le] at hle
  omega

end Directions

theorem Kernel.memmove_moved (n : UInt32) (hdst : dst.toNat + n.toNat ≤ UInt64.size)
    (hsrc : src.toNat + n.toNat ≤ UInt64.size) :
    Moved mem (Kernel.memmove mem dst src n) dst src n.toNat := by
  have hcount : n.toUInt64 = .ofNat n.toNat := by
    rw [UInt64.ofNat_uInt32ToNat]
  rw [Kernel.memmove]
  split
  · subst n
    exact ⟨fun i hi => absurd hi (Nat.not_lt_zero i), fun _ _ => rfl⟩
  · split
    · rename_i hover
      rw [hcount]
      exact copyDown_moved_of_le hdst hsrc (UInt64.le_of_lt hover.1)
    · rename_i hover
      refine copyUp_moved_of_le hdst hsrc ?_
      rw [UInt64.le_iff_toNat_le]
      by_contra hno
      -- below the destination, the end of the source does not wrap
      refine hover ⟨UInt64.lt_iff_toNat_lt.mpr (by omega), UInt64.lt_iff_toNat_lt.mpr ?_⟩
      have hend : (src + n.toUInt64).toNat = src.toNat + n.toNat := by
        rw [UInt64.toNat_add, UInt32.toNat_toUInt64]
        exact Nat.mod_eq_of_lt (by omega : _ < UInt64.size)
      omega

theorem Ulib.memmove_moved (n : Int32) (hdst : dst.toNat + n.toNatClampNeg ≤ UInt64.size)
    (hsrc : src.toNat + n.toNatClampNeg ≤ UInt64.size) :
    Moved mem (Ulib.memmove mem dst src n) dst src n.toNatClampNeg := by
  rw [Ulib.memmove]
  split
  · rename_i hlt
    exact copyUp_moved_of_le hdst hsrc (.inl (UInt64.le_of_lt hlt))
  · rename_i hge
    by_cases hneg : n.toInt ≤ 0
    · have hzero : n.toNatClampNeg = 0 := Int.toNat_of_nonpos hneg
      rw [hzero]
      exact ⟨fun i hi => absurd hi (Nat.not_lt_zero i), fun _ _ => rfl⟩
    · have hcount : UInt64.ofInt n.toInt = .ofNat n.toNatClampNeg := by
        have hpos : n.toInt = (n.toNatClampNeg : Int) :=
          (Int.toNat_of_nonneg (by omega)).symm
        have hmod : ∀ k : Nat, ((k : Int) % 2 ^ 64).toNat = k % 2 ^ 64 := by omega
        rw [hpos, UInt64.ofInt, hmod]
        exact UInt64.ofNat_mod_size
      rw [hcount]
      exact copyDown_moved_of_le hdst hsrc (UInt64.not_lt.mp hge)

/-- Both versions of `memmove` copy right however the two ranges overlap, and write nothing
else. -/
theorem memmove_copies (mem : Memory) (dst src : UInt64) :
    (∀ n : UInt32, dst.toNat + n.toNat ≤ UInt64.size → src.toNat + n.toNat ≤ UInt64.size →
      Moved mem (Kernel.memmove mem dst src n) dst src n.toNat) ∧
    ∀ n : Int32, dst.toNat + n.toNatClampNeg ≤ UInt64.size →
      src.toNat + n.toNatClampNeg ≤ UInt64.size →
      Moved mem (Ulib.memmove mem dst src n) dst src n.toNatClampNeg :=
  ⟨fun n => Kernel.memmove_moved n, fun n => Ulib.memmove_moved n⟩

/-- Four bytes moved up by one. -/
theorem memmove_copies_overlap :
    Moved (fun a => a.toUInt8) (Kernel.memmove (fun a => a.toUInt8) 11 10 4) 11 10 4 ∧
      Moved (fun a => a.toUInt8) (Ulib.memmove (fun a => a.toUInt8) 11 10 4) 11 10 4 :=
  ⟨(memmove_copies _ 11 10).1 4 (by decide) (by decide),
    (memmove_copies _ 11 10).2 4 (by decide) (by decide)⟩

end EafitOs.Library
