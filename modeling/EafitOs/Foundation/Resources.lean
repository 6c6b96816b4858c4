import EafitOs.Foundation.Panics
import Mathlib.Algebra.Group.Basic

/-!
# Resources of running code

Code that takes and gives back resources is specified by what it needs and what it
leaves. Resources add up, and whatever else the caller holds is not touched.
-/

namespace EafitOs.Foundation

variable {σ M α β : Type} [AddCommMonoid M]

abbrev Code (σ α : Type) : Type :=
  StateT σ (Except String) α

theorem get_bind (f : σ → Code σ β) (s : σ) : (get >>= f : Code σ β) s = f s s :=
  rfl

/-- Run with the resources `c` and any others, the code ends with the resources `d`, which
depend on its result, and the same others, or it panics with a message in `E`. -/
def Uses (Own : M → σ → Prop) (E : String → Prop) (c : M) (x : Code σ α) (d : α → M) : Prop :=
  ∀ h s, Own (h + c) s → Ends (x s) (fun r => Own (h + d r.1) r.2) E

namespace Uses

variable {Own : M → σ → Prop} {E : String → Prop} {c c' k : M} {x : Code σ α}
  {f : α → Code σ β} {d : α → M} {d' : β → M} {a : α}

theorem pure (h : c = d a) : Uses Own E c (Pure.pure a) d := by
  subst h
  exact fun _ _ hs => .ok hs

theorem throw {e : String} (h : E e) : Uses Own E c (MonadExcept.throw e) d :=
  fun _ _ _ => .error h

theorem bind (hx : Uses Own E c x d) (hf : ∀ a, Uses Own E (d a) (f a) d') :
    Uses Own E c (x >>= f) d' :=
  fun h s hs => (hx h s hs).bind fun r hr => hf r.1 h r.2 hr

theorem frame (hx : Uses Own E c x d) : Uses Own E (k + c) x fun a => k + d a := by
  intro h s hs
  rw [← add_assoc] at hs
  refine (hx (h + k) s hs).imp fun r hr => ?_
  rw [← add_assoc]
  exact hr

theorem step (hx : Uses Own E c x d) (hc : c' = k + c)
    (hf : ∀ a, Uses Own E (k + d a) (f a) d') : Uses Own E c' (x >>= f) d' := by
  subst hc
  exact hx.frame.bind hf

theorem last {d₂ : α → M} (hx : Uses Own E c x d) (hc : c' = k + c)
    (hd : ∀ a, k + d a = d₂ a) : Uses Own E c' x d₂ := by
  subst hc
  exact funext hd ▸ hx.frame

theorem ite {p : Prop} [Decidable p] {y : Code σ α} (hx : p → Uses Own E c x d)
    (hy : ¬ p → Uses Own E c y d) : Uses Own E c (if p then x else y) d := by
  split
  · exact hx ‹_›
  · exact hy ‹_›

theorem read {f : σ → Code σ β} (hf : ∀ s, Uses Own E c (f s) d') :
    Uses Own E c (get >>= f) d' :=
  fun h s hs => hf s h s hs

end Uses

end EafitOs.Foundation
