import Mathlib.Data.List.Basic

/-!
# Spans of a sequence

A sequence of cells is a function on the natural numbers. `span` reads the cells from a position
on, and `splice` puts a list in their place. `overwrite` does the same to a list.
-/

namespace EafitOs.Foundation

open List Option

variable {α : Type*} {g g' : Nat → α} {a x m n : Nat} {xs ys : List α}

def span (g : Nat → α) (a n : Nat) : List α := (List.range n).map fun j => g (a + j)

/-- The sequence with the cells from `a` on replaced by `xs`. -/
def splice (g : Nat → α) (a : Nat) (xs : List α) (x : Nat) : α :=
  if a ≤ x then xs[x - a]?.getD (g x) else g x

@[simp] theorem length_span (g : Nat → α) (a n : Nat) : (span g a n).length = n := by
  rw [span, length_map, length_range]

@[simp] theorem span_zero (g : Nat → α) (a : Nat) : span g a 0 = [] := rfl

theorem span_add (g : Nat → α) (a m n : Nat) :
    span g a (m + n) = span g a m ++ span g (a + m) n := by
  rw [span, List.range_add, List.map_append, List.map_map]
  simp only [span, Function.comp_def, Nat.add_assoc]

theorem span_congr (h : ∀ x, a ≤ x → x < a + n → g x = g' x) : span g a n = span g' a n := by
  refine map_congr_left fun j hj => ?_
  have hj := mem_range.mp hj
  exact h (a + j) (by omega) (by omega)

theorem getElem?_span (g : Nat → α) (a n j : Nat) :
    (span g a n)[j]? = if j < n then some (g (a + j)) else none := by
  rw [span, List.getElem?_map]
  split
  · rename_i hj
    rw [List.getElem?_range hj, map_some]
  · rename_i hj
    rw [List.getElem?_eq_none (by rw [length_range]; omega), map_none]

theorem take_span (g : Nat → α) (a : Nat) (h : m ≤ n) : (span g a n).take m = span g a m := by
  rw [span, ← map_take, take_range, Nat.min_eq_left h]
  rfl

@[simp] theorem splice_nil (g : Nat → α) (a : Nat) : splice g a [] = g := by
  funext x
  simp [splice]

theorem splice_outside (h : x < a ∨ a + xs.length ≤ x) : splice g a xs x = g x := by
  rw [splice]
  split
  · rw [List.getElem?_eq_none (by omega), getD_none]
  · rfl

theorem splice_inside (h : a ≤ x) {y : α} (hy : xs[x - a]? = some y) : splice g a xs x = y := by
  rw [splice, if_pos h, hy, getD_some]

theorem splice_append (g : Nat → α) (a : Nat) (xs ys : List α) :
    splice (splice g a xs) (a + xs.length) ys = splice g a (xs ++ ys) := by
  funext x
  by_cases hx : x < a + xs.length
  · rw [splice_outside (Or.inl hx), splice, splice]
    split
    · rw [List.getElem?_append_left (by omega)]
    · rfl
  · have hsub : x - a - xs.length = x - (a + xs.length) := by omega
    rw [splice, if_pos (by omega), splice_outside (Or.inr (by omega)), splice, if_pos (by omega),
      List.getElem?_append_right (by omega), hsub]

theorem span_splice (g : Nat → α) (a : Nat) (xs : List α) :
    span (splice g a xs) a xs.length = xs := by
  refine ext_getElem? fun j => ?_
  rw [getElem?_span]
  split
  · rename_i hj
    rw [splice, if_pos (by omega), Nat.add_sub_cancel_left, List.getElem?_eq_getElem hj,
      getD_some]
  · rename_i hj
    exact (List.getElem?_eq_none (by omega)).symm

theorem splice_extends {g g' : Nat → Option α} (h : ∀ k v, g k = some v → g' k = some v) (a : Nat)
    (xs : List (Option α)) : ∀ k v, splice g a xs k = some v → splice g' a xs k = some v := by
  intro k v hk
  rw [splice] at hk ⊢
  split at hk
  · rename_i hle
    rw [if_pos hle]
    cases hx : xs[k - a]? with
    | none =>
      rw [hx] at hk
      exact h k v hk
    | some y => rwa [hx] at hk
  · rename_i hlt
    rw [if_neg hlt]
    exact h k v hk

/-- The list with the cells from `a` on replaced by `ys`. -/
def overwrite (xs : List α) (a : Nat) (ys : List α) : List α :=
  xs.take a ++ ys ++ xs.drop (a + ys.length)

theorem length_overwrite (h : a ≤ xs.length) (ys : List α) :
    (overwrite xs a ys).length = max xs.length (a + ys.length) := by
  simp only [overwrite, length_append, length_take, length_drop]
  omega

theorem getElem?_overwrite (h : a ≤ xs.length) (ys : List α) (k : Nat) :
    (overwrite xs a ys)[k]? = splice (fun j => xs[j]?) a (ys.map some) k := by
  have hlen : (xs.take a).length = a := length_take_of_le h
  rw [overwrite, append_assoc]
  by_cases hlow : k < a
  · rw [List.getElem?_append_left (by omega), List.getElem?_take_of_lt hlow,
      splice_outside (Or.inl hlow)]
  · rw [List.getElem?_append_right (by omega), hlen]
    by_cases hin : k - a < ys.length
    · rw [List.getElem?_append_left hin, splice, if_pos (by omega), List.getElem?_map,
        List.getElem?_eq_getElem hin]
      rfl
    · have hsub : a + ys.length + (k - a - ys.length) = k := by omega
      rw [List.getElem?_append_right (by omega), List.getElem?_drop, hsub,
        splice_outside (Or.inr (by rw [length_map]; omega))]

theorem overwrite_overwrite (h : a ≤ xs.length) (ys zs : List α) :
    overwrite (overwrite xs a ys) (a + ys.length) zs = overwrite xs a (ys ++ zs) := by
  have hle : a + ys.length ≤ (overwrite xs a ys).length := by
    rw [length_overwrite h]
    exact Nat.le_max_right _ _
  refine ext_getElem? fun k => ?_
  rw [getElem?_overwrite hle, getElem?_overwrite h, map_append, ← splice_append,
    length_map]
  exact congrArg (fun g => splice g _ _ k) (funext fun j => getElem?_overwrite h ys j)

theorem take_drop_overwrite (h : a ≤ xs.length) (ys : List α) :
    ((overwrite xs a ys).drop a).take ys.length = ys := by
  have hlen : (xs.take a).length = a := length_take_of_le h
  rw [overwrite, append_assoc, drop_left' hlen, take_left]

end EafitOs.Foundation
