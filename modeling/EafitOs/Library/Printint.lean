import Mathlib.Data.Nat.Digits.Lemmas

/-!
# Number formatting

`printint` of the kernel (`kernel/printf.c`) and of the user library (`user/printf.c`) fill a
buffer of 20 bytes with the digits of a number, the lowest first, and print it from its end.
-/

namespace EafitOs.Library

open List

def bufSize : Nat := 20

def minus : UInt8 := 45

def Kernel.digits : List UInt8 :=
  [48, 49, 50, 51, 52, 53, 54, 55, 56, 57, 97, 98, 99, 100, 101, 102]

def Ulib.digits : List UInt8 :=
  [48, 49, 50, 51, 52, 53, 54, 55, 56, 57, 65, 66, 67, 68, 69, 70]

/-- The loop that stores the digits of `x`, with `room` places left in the buffer. It gives the
bytes stored and the room after them, or `none` if it stores outside the buffer. -/
def storeDigits (digits : List UInt8) (base : Nat) : Nat → Nat → Option (List UInt8 × Nat)
  | 0, _ => none
  | room + 1, x =>
    let c := digits.getD (x % base) 0
    if x / base = 0 then some ([c], room)
    else (storeDigits digits base room (x / base)).map fun r => (c :: r.1, r.2)

def printDigits (digits : List UInt8) (base : Nat) (neg : Bool) (x : UInt64) :
    Option (List UInt8) :=
  (storeDigits digits base bufSize x.toNat).bind fun r =>
    if neg then
      if r.2 = 0 then none else some (r.1 ++ [minus]).reverse
    else some r.1.reverse

def Kernel.printint (xx : Int64) (base : Nat) (sign : Bool) : Option (List UInt8) :=
  -- `sign && (sign = (xx < 0))`
  let sign := sign && decide (xx < 0)
  printDigits Kernel.digits base sign (if sign then (-xx).toUInt64 else xx.toUInt64)

def Ulib.printint (xx : Int64) (base : Nat) (sgn : Bool) : Option (List UInt8) :=
  let neg := sgn && decide (xx < 0)
  printDigits Ulib.digits base neg (if neg then (-xx).toUInt64 else xx.toUInt64)

/-- Base and signedness of the conversions of `printf`: `%d`, `%u`, `%x` and their long forms. -/
inductive Conversion : Nat → Bool → Prop
  | d : Conversion 10 true
  | u : Conversion 10 false
  | x : Conversion 16 false

def shown (xx : Int64) (sign : Bool) : Int := if sign then xx.toInt else xx.toUInt64.toNat

/-- `ds` is the representation of `x`, the highest digit first and without leading zeros. -/
structure Canonical (base x : Nat) (ds : List Nat) : Prop where
  lt_base : ∀ d ∈ ds, d < base
  ne_nil : ds ≠ []
  no_zero : ds.head? = some 0 → ds = [0]
  value : Nat.ofDigits base ds.reverse = x

def signOf (v : Int) : List UInt8 := if v < 0 then [minus] else []

def digitsOf (base x : Nat) : List Nat := if x = 0 then [0] else Nat.digits base x

variable {base room x : Nat} {digits : List UInt8} {xx : Int64} {sign : Bool}

theorem digitsOf_canonical (hbase : 1 < base) (x : Nat) :
    Canonical base x (digitsOf base x).reverse := by
  rw [digitsOf]
  split
  · subst x
    exact ⟨by simpa using Nat.zero_lt_of_lt hbase, by simp, by simp, by simp⟩
  · rename_i hx
    have hne : Nat.digits base x ≠ [] := Nat.digits_ne_nil_iff_ne_zero.mpr hx
    refine ⟨fun d hd => Nat.digits_lt_base hbase (mem_reverse.mp hd), by simpa using hne,
      fun hhead => ?_, ?_⟩
    · -- the highest digit is not zero
      rw [List.head?_reverse, List.getLast?_eq_getLast_of_ne_nil hne] at hhead
      exact absurd (Option.some.inj hhead) (Nat.getLast_digit_ne_zero base hx)
    · rw [reverse_reverse, Nat.ofDigits_digits]

theorem digitsOf_succ (hbase : 1 < base) (hx : x / base ≠ 0) :
    digitsOf base x = x % base :: digitsOf base (x / base) := by
  have hpos : 0 < x := Nat.pos_of_ne_zero fun h => hx (by simp [h])
  rw [digitsOf, if_neg (Nat.ne_of_gt hpos), digitsOf, if_neg hx, Nat.digits_def' hbase hpos]

theorem digitsOf_last (hbase : 1 < base) (hx : x / base = 0) : digitsOf base x = [x % base] := by
  have hlt : x < base := (Nat.div_eq_zero_iff_lt (by omega)).mp hx
  rw [digitsOf, Nat.mod_eq_of_lt hlt]
  split
  · subst x
    rfl
  · exact Nat.digits_of_lt base x (by assumption) hlt

theorem length_digitsOf_le (hbase : 1 < base) (hroom : 0 < room) (hx : x < base ^ room) :
    (digitsOf base x).length ≤ room := by
  rw [digitsOf]
  split
  · exact hroom
  · exact (Nat.digits_length_le_iff hbase x).mpr hx

theorem storeDigits_eq (hbase : 1 < base) (hroom : (digitsOf base x).length ≤ room) :
    storeDigits digits base room x = some ((digitsOf base x).map fun d => digits.getD d 0,
      room - (digitsOf base x).length) := by
  induction room generalizing x with
  | zero =>
    refine absurd (eq_nil_of_length_eq_zero (Nat.le_zero.mp hroom)) ?_
    simpa using (digitsOf_canonical hbase x).ne_nil
  | succ room ih =>
    rw [storeDigits]
    split
    · rename_i hlast
      rw [digitsOf_last hbase hlast]
      rfl
    · rename_i hmore
      rw [digitsOf_succ hbase hmore] at hroom ⊢
      rw [ih (Nat.le_of_succ_le_succ hroom), map_cons, length_cons,
        Nat.succ_sub_succ_eq_sub]
      rfl

theorem shown_unsigned (xx : Int64) : shown xx false = xx.toUInt64.toNat := rfl

theorem signOf_unsigned (xx : Int64) : signOf (shown xx false) = [] :=
  if_neg (Int.not_lt.mpr (Int.natCast_nonneg _))

theorem length_shown_le (xx : Int64) (h : Conversion base sign) :
    (digitsOf base (shown xx sign).natAbs).length + (signOf (shown xx sign)).length ≤ bufSize := by
  have hmin := Int64.le_toInt xx
  have hmax := Int64.toInt_lt xx
  have hlt := xx.toUInt64.toNat_lt
  cases h with
  | d =>
    have habs : (shown xx true).natAbs < 10 ^ 19 := by
      rw [shown, if_pos rfl]
      omega
    have := length_digitsOf_le (by norm_num) (by norm_num) habs
    rw [signOf, bufSize]
    split <;> simp only [length_cons, length_nil] <;> omega
  | u =>
    have habs : (shown xx false).natAbs < 10 ^ 20 := by
      rw [shown_unsigned, Int.natAbs_natCast]
      omega
    exact (signOf_unsigned xx).symm ▸ length_digitsOf_le (by norm_num) (by decide) habs
  | x =>
    have habs : (shown xx false).natAbs < 16 ^ 20 := by
      rw [shown_unsigned, Int.natAbs_natCast]
      omega
    exact (signOf_unsigned xx).symm ▸ length_digitsOf_le (by norm_num) (by decide) habs

theorem decide_neg (xx : Int64) : decide (xx < 0) = decide (xx.toInt < 0) :=
  decide_eq_decide.mpr Int64.lt_iff_toInt_lt

theorem toNat_magnitude (xx : Int64) (sign : Bool) :
    (if sign && decide (xx < 0) then (-xx).toUInt64 else xx.toUInt64).toNat =
      (shown xx sign).natAbs := by
  have hval : xx.toInt = if 2 * xx.toUInt64.toNat < 2 ^ 64 then (xx.toUInt64.toNat : Int)
      else xx.toUInt64.toNat - 2 ^ 64 := BitVec.toInt_eq_toNat_cond xx.toBitVec
  have hneg : (-xx).toUInt64.toNat = (2 ^ 64 - xx.toUInt64.toNat) % 2 ^ 64 :=
    BitVec.toNat_neg xx.toBitVec
  have hlt := xx.toUInt64.toNat_lt
  rw [decide_neg xx]
  cases sign with
  | false => rw [shown_unsigned, Int.natAbs_natCast]; rfl
  | true =>
    rw [shown, if_pos rfl, Bool.true_and]
    by_cases hlow : xx.toInt < 0
    · rw [if_pos (decide_eq_true hlow), hneg]
      omega
    · rw [if_neg (by simpa using hlow)]
      omega

theorem printDigits_eq (digits : List UInt8) (h : Conversion base sign) :
    printDigits digits base (sign && decide (xx < 0))
        (if sign && decide (xx < 0) then (-xx).toUInt64 else xx.toUInt64) =
      some (signOf (shown xx sign) ++
        (digitsOf base (shown xx sign).natAbs).reverse.map fun d => digits.getD d 0) := by
  have hbase : 1 < base := by cases h <;> norm_num
  have hfits := length_shown_le xx h
  have hneg : (sign && decide (xx < 0)) = decide (shown xx sign < 0) := by
    cases sign with
    | false => simp [shown]
    | true =>
      rw [Bool.true_and, shown, if_pos rfl]
      exact decide_neg xx
  rw [printDigits, toNat_magnitude, storeDigits_eq hbase (by omega), hneg, Option.bind_some]
  rw [signOf] at hfits ⊢
  split
  · rename_i hlow
    have hlow : shown xx sign < 0 := of_decide_eq_true hlow
    rw [if_pos hlow, length_singleton] at hfits
    rw [if_pos hlow, if_neg (by simp only; omega)]
    simp [map_reverse]
  · rename_i hlow
    have hlow : ¬shown xx sign < 0 := fun h => hlow (decide_eq_true h)
    rw [if_neg hlow, nil_append, map_reverse]

/-- Both versions of `printint` print the canonical representation of the number, with the same
digits, and stay inside their buffer. -/
theorem printint_canonical (xx : Int64) (base : Nat) (sign : Bool) (h : Conversion base sign) :
    ∃ ds, Canonical base (shown xx sign).natAbs ds ∧
      (signOf (shown xx sign)).length + ds.length ≤ bufSize ∧
      Kernel.printint xx base sign =
        some (signOf (shown xx sign) ++ ds.map fun d => Kernel.digits.getD d 0) ∧
      Ulib.printint xx base sign =
        some (signOf (shown xx sign) ++ ds.map fun d => Ulib.digits.getD d 0) := by
  have hbase : 1 < base := by cases h <;> norm_num
  refine ⟨_, digitsOf_canonical hbase _, ?_, printDigits_eq _ h, printDigits_eq _ h⟩
  rw [length_reverse, Nat.add_comm]
  exact length_shown_le xx h

/-- The most negative number. -/
theorem printint_canonical_min : ∃ ds, Canonical 10 9223372036854775808 ds ∧
    Kernel.printint Int64.minValue 10 true =
      some (minus :: ds.map fun d => Kernel.digits.getD d 0) := by
  obtain ⟨ds, hds, -, hkernel, -⟩ := printint_canonical Int64.minValue 10 true .d
  exact ⟨ds, hds, hkernel⟩

end EafitOs.Library
