import Mathlib.Data.List.Basic
import Mathlib.Logic.Function.Basic

/-!
# Traces of single-cell writes

A store maps addresses to values. A trace is the list of writes issued to it, and a crash keeps
some prefix of the trace.
-/

namespace EafitOs.Foundation

open Function

variable {A V : Type*} [DecidableEq A]

def applyWrites (d : A → V) (ws : List (A × V)) : A → V :=
  ws.foldl (fun d w => update d w.1 w.2) d

@[simp] theorem applyWrites_nil (d : A → V) : applyWrites d [] = d := rfl

@[simp] theorem applyWrites_cons (d : A → V) (w : A × V) (ws : List (A × V)) :
    applyWrites d (w :: ws) = applyWrites (update d w.1 w.2) ws := rfl

theorem applyWrites_append (d : A → V) (ws vs : List (A × V)) :
    applyWrites d (ws ++ vs) = applyWrites (applyWrites d ws) vs := by
  simp [applyWrites, List.foldl_append]

theorem applyWrites_concat (d : A → V) (ws : List (A × V)) (w : A × V) :
    applyWrites d (ws ++ [w]) = update (applyWrites d ws) w.1 w.2 := by
  rw [applyWrites_append, applyWrites_cons, applyWrites_nil]

theorem applyWrites_of_forall_ne (d : A → V) (ws : List (A × V)) (a : A)
    (h : ∀ w ∈ ws, w.1 ≠ a) : applyWrites d ws a = d a := by
  induction ws generalizing d with
  | nil => rfl
  | cons w rest ih =>
    have hw : a ≠ w.1 := (h w (by simp)).symm
    rw [applyWrites_cons, ih _ (fun v hv => h v (by simp [hv])), update_of_ne hw]

end EafitOs.Foundation
