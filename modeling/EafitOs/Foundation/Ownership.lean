import Mathlib.Data.Finite.Defs
import Mathlib.Data.Set.Finite.Basic
import Mathlib.Data.Set.Insert
import Mathlib.Logic.Function.Basic

/-!
# Resources held by slots

A resource is used or not, and slots hold resources. In a well-kept state the used resources are
exactly those that some slot holds, each in one slot only.
-/

namespace EafitOs.Foundation

open Function Option

variable {X B : Type*}

structure Owns (used : Set B) (val : X → Option B) : Prop where
  inj : ∀ {x y b}, val x = some b → val y = some b → x = y
  mem : ∀ {x b}, val x = some b → b ∈ used
  held : ∀ {b}, b ∈ used → ∃ x, val x = some b

namespace Owns

variable {used used' : Set B} {val val' : X → Option B}

theorem mem_iff (h : Owns used val) (b : B) : b ∈ used ↔ ∃! x, val x = some b := by
  constructor
  · intro hb
    obtain ⟨x, hx⟩ := h.held hb
    exact ⟨x, hx, fun y hy => h.inj hy hx⟩
  · rintro ⟨x, hx, _⟩
    exact h.mem hx

theorem filled_of_full {U : Set B} (hU : U.Finite) (h : Owns used val) (h' : Owns used' val')
    (hfull : U ⊆ used) (hused : used' ⊆ U) (hsub : ∀ x, val x ≠ none → val' x ≠ none) {x : X}
    (hx : val' x ≠ none) : val x ≠ none := by
  have hnext : ∀ b : U, ∃ c : U, ∃ y, val y = some b.1 ∧ val' y = some c.1 := by
    intro b
    obtain ⟨y, hy⟩ := h.held (hfull b.2)
    obtain ⟨c, hc⟩ := ne_none_iff_exists'.mp (hsub y (by rw [hy]; simp))
    exact ⟨⟨c, hused (h'.mem hc)⟩, y, hy, hc⟩
  choose f owner hval hval' using hnext
  have hinj : Function.Injective f := by
    intro b b' heq
    have hsame : owner b = owner b' := h'.inj (hval' b) (heq ▸ hval' b')
    have hvals := (hval b).symm.trans (hsame ▸ hval b')
    exact Subtype.ext (some.inj hvals)
  have := hU.to_subtype
  obtain ⟨c, hc⟩ := ne_none_iff_exists'.mp hx
  obtain ⟨b, hb⟩ := Finite.injective_iff_surjective.mp hinj ⟨c, hused (h'.mem hc)⟩
  have hback := hval' b
  rw [hb] at hback
  rw [h'.inj hc hback, hval b]
  simp

variable [DecidableEq X]

theorem alloc (h : Owns used val) {x : X} {b : B} (hx : val x = none) (hb : b ∉ used) :
    Owns (insert b used) (update val x (some b)) := by
  have hcases : ∀ {y c}, update val x (some b) y = some c →
      (y = x ∧ c = b) ∨ (y ≠ x ∧ val y = some c) := by
    intro y c hy
    by_cases hyx : y = x
    · subst hyx
      exact Or.inl ⟨rfl, by simpa using hy.symm⟩
    · exact Or.inr ⟨hyx, by simpa [hyx] using hy⟩
  constructor
  · intro y z c hy hz
    rcases hcases hy with ⟨hyx, hyc⟩ | ⟨_, hyv⟩ <;> rcases hcases hz with ⟨hzx, hzc⟩ | ⟨_, hzv⟩
    · exact hyx.trans hzx.symm
    · exact absurd (hyc ▸ h.mem hzv) hb
    · exact absurd (hzc ▸ h.mem hyv) hb
    · exact h.inj hyv hzv
  · intro y c hy
    rcases hcases hy with ⟨_, rfl⟩ | ⟨_, hy⟩
    · exact Set.mem_insert c used
    · exact Set.mem_insert_of_mem b (h.mem hy)
  · rintro c (rfl | hc)
    · exact ⟨x, by simp⟩
    · obtain ⟨y, hy⟩ := h.held hc
      have hyx : y ≠ x := by
        rintro rfl
        simp [hx] at hy
      exact ⟨y, by simpa [hyx] using hy⟩

theorem free (h : Owns used val) {x : X} {b : B} (hx : val x = some b) :
    Owns (used \ {b}) (update val x none) := by
  have hcases : ∀ {y c}, update val x none y = some c → y ≠ x ∧ val y = some c := by
    intro y c hy
    by_cases hyx : y = x
    · subst hyx
      simp at hy
    · exact ⟨hyx, by simpa [hyx] using hy⟩
  constructor
  · intro y z c hy hz
    exact h.inj (hcases hy).2 (hcases hz).2
  · intro y c hy
    obtain ⟨hyx, hy⟩ := hcases hy
    refine ⟨h.mem hy, ?_⟩
    rintro rfl
    exact hyx (h.inj hy hx)
  · rintro c ⟨hc, hcb⟩
    obtain ⟨y, hy⟩ := h.held hc
    have hyx : y ≠ x := by
      rintro rfl
      exact hcb (some.inj (hy.symm.trans hx))
    exact ⟨y, by simpa [hyx] using hy⟩

end Owns

inductive Event (B : Type*)
  | alloc (b : B)
  | free (b : B)

/-- The events are possible one after the other from the resources used at the start,
and leave the last set used: what is handed out is allowed and unused, what is taken
back is used. -/
inductive Ledger (Ok : Set B) (start : Set B) : List (Event B) → Set B → Prop
  | nil : Ledger Ok start [] start
  | alloc {es used b} : Ledger Ok start es used → b ∈ Ok → b ∉ used →
      Ledger Ok start (es ++ [.alloc b]) (insert b used)
  | free {es used b} : Ledger Ok start es used → b ∈ used →
      Ledger Ok start (es ++ [.free b]) (used \ {b})

end EafitOs.Foundation
