import EafitOs.Foundation.Panics

/-!
# Two computations side by side

Two computations end alike if they panic with the same message or end in values that are in a
relation. The rules follow the composition of the computations, so that two runs of one
program, or a program and a model of it, are compared step by step.
-/

namespace EafitOs.Foundation

open List

variable {α β α' β' : Type} {R R' : α → β → Prop} {x : Except String α} {y : Except String β}

/-- The computations panic with the same message, or end in values in the relation. -/
inductive Alike (R : α → β → Prop) : Except String α → Except String β → Prop
  | ok {a : α} {b : β} (h : R a b) : Alike R (.ok a) (.ok b)
  | error (e : String) : Alike R (.error e) (.error e)

namespace Alike

theorem imp (h : Alike R x y) (hR : ∀ a b, R a b → R' a b) : Alike R' x y := by
  cases h with
  | ok h => exact .ok (hR _ _ h)
  | error e => exact .error e

theorem refl (x : Except String α) : Alike Eq x x := by
  cases x with
  | ok a => exact .ok rfl
  | error e => exact .error e

theorem and {Q E Q' E'} (h : Alike R x y) (hx : Ends x Q E) (hy : Ends y Q' E') :
    Alike (fun a b => R a b ∧ Q a ∧ Q' b) x y := by
  cases h with
  | ok h => exact .ok ⟨h, hx.of_eq_ok rfl, hy.of_eq_ok rfl⟩
  | error e => exact .error e

theorem bind {f : α → Except String α'} {g : β → Except String β'} {S : α' → β' → Prop}
    (h : Alike R x y) (hf : ∀ a b, R a b → Alike S (f a) (g b)) :
    Alike S (x >>= f) (y >>= g) := by
  cases h with
  | ok h => exact hf _ _ h
  | error e => exact .error e

/-- Loops end alike if each round does. -/
theorem foldlM {γ : Type} {f : α → γ → Except String α} {g : β → γ → Except String β}
    {xs : List γ} {a : α} {b : β} (h0 : R a b)
    (hstep : ∀ x ∈ xs, ∀ a b, R a b → Alike R (f a x) (g b x)) :
    Alike R (xs.foldlM f a) (xs.foldlM g b) := by
  induction xs generalizing a b with
  | nil => exact .ok h0
  | cons x rest ih =>
    rw [foldlM_cons, foldlM_cons]
    exact (hstep x mem_cons_self a b h0).bind fun a b hab =>
      ih hab fun y hy => hstep y (mem_cons_of_mem x hy)

theorem exists_ok_right {a : α} (h : Alike R (.ok a) y) : ∃ b, y = .ok b ∧ R a b := by
  cases h with
  | ok h => exact ⟨_, rfl, h⟩

theorem exists_ok {b : β} (h : Alike R x (.ok b)) : ∃ a, x = .ok a ∧ R a b := by
  cases h with
  | ok h => exact ⟨_, rfl, h⟩

end Alike

end EafitOs.Foundation
