import Mathlib.Data.Fin.Basic
import Mathlib.Logic.Function.Basic
import Mathlib.Tactic.Ring

/-!
# Little-endian fields of a byte array

`getLE` and `setLE` read and write a field of `len` bytes at a byte offset.
Two fields that do not overlap never see each other's writes.
-/

namespace EafitOs.Foundation

variable {n : Nat} [NeZero n]

def getByte (b : Fin n → UInt8) (off : Nat) : Nat := (b (Fin.ofNat n off)).toNat

def setByte (b : Fin n → UInt8) (off v : Nat) : Fin n → UInt8 :=
  Function.update b (Fin.ofNat n off) (UInt8.ofNat v)

/-- The little-endian value of the `len` bytes at an offset. -/
def getLE (b : Fin n → UInt8) : (off len : Nat) → Nat
  | _, 0 => 0
  | off, len + 1 => getByte b off + 256 * getLE b (off + 1) len

/-- Store the low `len` bytes of a value at an offset, least significant first. -/
def setLE (b : Fin n → UInt8) : (off len v : Nat) → Fin n → UInt8
  | _, 0, _ => b
  | off, len + 1, v => setLE (setByte b off v) (off + 1) len (v / 256)

section

variable (b : Fin n → UInt8)
include b

theorem getByte_lt (off : Nat) : getByte b off < 256 :=
  UInt8.toNat_lt _

@[simp] theorem getByte_setByte (off v : Nat) :
    getByte (setByte b off v) off = v % 256 := by
  simp [getByte, setByte]

theorem getByte_setByte_of_ne {off off' : Nat} (v : Nat)
    (ho : off < n) (ho' : off' < n) (hne : off' ≠ off) :
    getByte (setByte b off v) off' = getByte b off' := by
  have hfin : Fin.ofNat n off' ≠ Fin.ofNat n off := by
    intro h
    apply hne
    have hv := congrArg Fin.val h
    simpa [Fin.ofNat, Nat.mod_eq_of_lt ho, Nat.mod_eq_of_lt ho'] using hv
  rw [getByte, setByte, Function.update_of_ne hfin, getByte]

theorem getByte_setLE_of_outside {off len : Nat} (v : Nat) {o : Nat}
    (hoff : off + len ≤ n) (ho : o < n) (hout : o < off ∨ off + len ≤ o) :
    getByte (setLE b off len v) o = getByte b o := by
  induction len generalizing b off v with
  | zero => rfl
  | succ len ih =>
    rw [setLE, ih (setByte b off v) (v / 256) (by omega) (by omega)]
    exact getByte_setByte_of_ne b v (by omega) ho (by omega)

theorem getLE_setLE {off len : Nat} (v : Nat) (hoff : off + len ≤ n) :
    getLE (setLE b off len v) off len = v % 256 ^ len := by
  induction len generalizing b off v with
  | zero => simp [getLE, Nat.mod_one]
  | succ len ih =>
    have hlow : getByte (setLE (setByte b off v) (off + 1) len (v / 256)) off = v % 256 := by
      rw [getByte_setLE_of_outside _ _ (by omega) (by omega) (by omega), getByte_setByte]
    rw [setLE, getLE, hlow, ih _ _ (by omega), Nat.pow_succ, Nat.mul_comm (256 ^ len) 256,
      Nat.mod_mul]

theorem getLE_setLE_of_disjoint {off len off' len' : Nat} (v : Nat)
    (hoff : off + len ≤ n) (hoff' : off' + len' ≤ n)
    (hdis : off' + len' ≤ off ∨ off + len ≤ off') :
    getLE (setLE b off len v) off' len' = getLE b off' len' := by
  induction len' generalizing off' with
  | zero => rfl
  | succ len' ih =>
    rw [getLE, getLE, ih (by omega) (by omega)]
    by_cases hlen : len = 0
    · subst hlen
      rfl
    · rw [getByte_setLE_of_outside b v hoff (by omega) (by omega)]

theorem getLE_lt (off len : Nat) : getLE b off len < 256 ^ len := by
  induction len generalizing off with
  | zero => simp [getLE]
  | succ len ih =>
    have hb := getByte_lt b off
    have ht := ih (off + 1)
    rw [getLE, Nat.pow_succ]
    omega

end

structure Field where
  off : Nat
  len : Nat
  val : Nat

/-- Store the fields of a record that starts at `base`. -/
def setFields (b : Fin n → UInt8) (base : Nat) : List Field → Fin n → UInt8
  | [] => b
  | f :: rest => setFields (setLE b (base + f.off) f.len f.val) base rest

/-- The fields lie one after the other from `lo` up to `hi`. -/
def InOrder (lo hi : Nat) : List Field → Prop
  | [] => lo ≤ hi
  | f :: rest => lo ≤ f.off ∧ InOrder (f.off + f.len) hi rest

theorem InOrder.le {lo hi : Nat} {fs : List Field} (h : InOrder lo hi fs) : lo ≤ hi := by
  induction fs generalizing lo with
  | nil => exact h
  | cons f rest ih =>
    have := ih h.2
    have := h.1
    omega

theorem getLE_setFields_of_outside (b : Fin n → UInt8) {base lo hi off len : Nat}
    {fs : List Field} (h : InOrder lo hi fs) (hhi : base + hi ≤ n) (hoff : off + len ≤ n)
    (hout : off + len ≤ base + lo ∨ base + hi ≤ off) :
    getLE (setFields b base fs) off len = getLE b off len := by
  induction fs generalizing b lo with
  | nil => rfl
  | cons f rest ih =>
    obtain ⟨hlo, hrest⟩ := h
    have hle := hrest.le
    rw [setFields, ih _ hrest (by omega)]
    exact getLE_setLE_of_disjoint b f.val (by omega) hoff (by omega)

theorem getLE_setFields (b : Fin n → UInt8) {base lo hi : Nat} {fs : List Field}
    (h : InOrder lo hi fs) (hhi : base + hi ≤ n) {f : Field} (hf : f ∈ fs) :
    getLE (setFields b base fs) (base + f.off) f.len = f.val % 256 ^ f.len := by
  induction fs generalizing b lo with
  | nil => cases hf
  | cons g rest ih =>
    obtain ⟨_, hrest⟩ := h
    have hle := hrest.le
    rcases List.mem_cons.mp hf with rfl | hf
    · rw [setFields, getLE_setFields_of_outside _ hrest hhi (by omega) (by omega)]
      exact getLE_setLE b f.val (by omega)
    · exact ih _ hrest hf

end EafitOs.Foundation
