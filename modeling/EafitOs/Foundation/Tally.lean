import Mathlib.Algebra.BigOperators.Group.Finset.Basic
import Mathlib.Algebra.BigOperators.Group.Finset.Piecewise
import Mathlib.Algebra.Order.BigOperators.Group.Finset

/-!
# Tallies

A tally adds up what each record of a table contributes. Writing one record changes
the tally by the difference of the two contributions.
-/

namespace EafitOs.Foundation

open Function

variable {ι α : Type*}

/-- What the records at the indices in `dom` contribute together. -/
def tally (dom : Finset ι) (g : α → Nat) (f : ι → α) : Nat :=
  ∑ x ∈ dom, g (f x)

variable {dom : Finset ι} {g : α → Nat} {f : ι → α} {i : ι} {a : α}

theorem tally_pos : 0 < tally dom g f ↔ ∃ x ∈ dom, 0 < g (f x) :=
  Finset.sum_pos_iff

theorem tally_eq_zero : tally dom g f = 0 ↔ ∀ x ∈ dom, g (f x) = 0 :=
  Finset.sum_eq_zero_iff

theorem tally_congr {g' : α → Nat} {f' : ι → α} (h : ∀ x ∈ dom, g (f x) = g' (f' x)) :
    tally dom g f = tally dom g' f' :=
  Finset.sum_congr rfl h

variable [DecidableEq ι]

theorem tally_update (hi : i ∈ dom) :
    tally dom g (update f i a) + g (f i) = tally dom g f + g a := by
  have hcomp : (fun x => g (update f i a x)) =
      update (fun x => g (f x)) i (g a) := by
    funext x
    exact Function.apply_update (fun _ => g) f i a x
  calc
    tally dom g (update f i a) + g (f i)
        = g a + ∑ x ∈ dom \ {i}, g (f x) + g (f i) := by
          rw [tally, hcomp, Finset.sum_update_of_mem hi]
    _ = g (f i) + ∑ x ∈ dom.erase i, g (f x) + g a := by
          rw [Finset.sdiff_singleton_eq_erase]
          omega
    _ = tally dom g f + g a := by
          rw [tally, Finset.add_sum_erase dom (fun x => g (f x)) hi]

theorem tally_update_of_eq (h : g a = g (f i)) :
    tally dom g (update f i a) = tally dom g f := by
  apply tally_congr
  intro x _
  by_cases hx : x = i
  · rw [hx, update_self, h]
  · rw [update_of_ne hx]

end EafitOs.Foundation
