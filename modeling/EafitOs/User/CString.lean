import Mathlib.Data.List.Basic

/-!
# Strings of C

A string is read from a pointer on, up to its terminator. Memory from the pointer on is a list
of bytes, which counts as terminated at its end.
-/

namespace EafitOs.User

open List

def charAt (buf : List UInt8) (s : Nat) : UInt8 := buf.getD s 0

def strlen : List UInt8 → Nat
  | [] => 0
  | c :: cs => if c = 0 then 0 else strlen cs + 1

def text (buf : List UInt8) : List UInt8 := buf.take (strlen buf)

variable {buf : List UInt8} {s : Nat} {c : UInt8}

theorem strlen_le (buf : List UInt8) : strlen buf ≤ buf.length := by
  induction buf with
  | nil => exact Nat.le_refl 0
  | cons c cs ih =>
    rw [strlen, length_cons]
    split <;> omega

theorem charAt_strlen (buf : List UInt8) : charAt buf (strlen buf) = 0 := by
  induction buf with
  | nil => rfl
  | cons c cs ih =>
    rw [strlen]
    split
    · assumption
    · exact ih

theorem length_text (buf : List UInt8) : (text buf).length = strlen buf :=
  length_take_of_le (strlen_le buf)

theorem ne_zero_of_mem_text (h : c ∈ text buf) : c ≠ 0 := by
  induction buf with
  | nil => cases h
  | cons d ds ih =>
    rw [text, strlen] at h
    split at h
    · cases h
    · rcases mem_cons.mp h with rfl | h
      · assumption
      · exact ih h

theorem drop_text (hs : s < strlen buf) :
    (text buf).drop s = charAt buf s :: (text buf).drop (s + 1) := by
  have hlt : s < (text buf).length := (length_text buf).symm ▸ hs
  have hbuf : s < buf.length := Nat.lt_of_lt_of_le hs (strlen_le buf)
  rw [drop_eq_getElem_cons hlt]
  simp only [text, getElem_take, charAt, getD_eq_getElem?_getD,
    List.getElem?_eq_getElem hbuf, Option.getD_some]

theorem charAt_ne_zero (hs : s < strlen buf) : charAt buf s ≠ 0 := by
  have hmem : charAt buf s ∈ (text buf).drop s := drop_text hs ▸ mem_cons_self
  exact ne_zero_of_mem_text (mem_of_mem_drop hmem)

theorem charAt_drop (buf : List UInt8) (q k : Nat) :
    charAt (buf.drop q) k = charAt buf (q + k) := by
  simp [charAt, getD_eq_getElem?_getD, List.getElem?_drop]

theorem strlen_eq {n : Nat} (hpos : ∀ k < n, charAt buf k ≠ 0) (hn : charAt buf n = 0) :
    strlen buf = n := by
  rcases Nat.lt_trichotomy (strlen buf) n with hlt | heq | hgt
  · exact absurd (charAt_strlen buf) (hpos _ hlt)
  · exact heq
  · exact absurd hn (charAt_ne_zero hgt)

end EafitOs.User
