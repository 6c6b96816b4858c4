import Mathlib.Data.List.Basic

/-!
# Code that may panic

A computation ends in a value or stops with a message. A specification says what
holds of the value and which messages are possible.
-/

namespace EafitOs.Foundation

open List

variable {α β : Type} {Q Q' : α → Prop} {E E' : String → Prop}

section Returns

variable {a : α} {q : β → Prop}

/-- Whether a computation returns what is asked for is found by running it. -/
instance decidableReturns {x : Except String β} [DecidablePred q] :
    Decidable (∃ b, x = .ok b ∧ q b) :=
  match x with
  | .ok b => decidable_of_iff (q b) (by simp)
  | .error _ => .isFalse (by simp)

instance decidableReturnsPair {x : Except String (α × β)} [DecidableEq α] [DecidablePred q] :
    Decidable (∃ b, x = .ok (a, b) ∧ q b) :=
  match x with
  | .ok (a', b) => decidable_of_iff (a' = a ∧ q b) (by simp)
  | .error _ => .isFalse (by simp)

instance decidableReturnsAny {x : Except String (α × β)} [DecidableEq α] :
    Decidable (∃ b, x = .ok (a, b)) :=
  decidable_of_iff (∃ b, x = .ok (a, b) ∧ True) (by simp)

instance decidablePanics {x : Except String α} {e : String} : Decidable (x = .error e) :=
  match x with
  | .ok _ => .isFalse (by simp)
  | .error e' => decidable_of_iff (e' = e) (by simp)

end Returns

theorem ok_bind (a : α) (f : α → Except String β) : (Except.ok a >>= f) = f a :=
  rfl

/-- The computation ends in a value satisfying `Q` or panics with a message satisfying `E`. -/
structure Ends (x : Except String α) (Q : α → Prop) (E : String → Prop) : Prop where
  of_eq_ok : ∀ {a}, x = .ok a → Q a
  of_eq_error : ∀ {e}, x = .error e → E e

namespace Ends

theorem ok {a : α} (h : Q a) : Ends (.ok a) Q E :=
  ⟨fun heq => Except.ok.inj heq ▸ h, nofun⟩

theorem error {e : String} (h : E e) : Ends (.error e) Q E :=
  ⟨nofun, fun heq => Except.error.inj heq ▸ h⟩

theorem trivial (x : Except String α) : Ends x (fun _ => True) fun _ => True :=
  ⟨fun _ => True.intro, fun _ => True.intro⟩

theorem self (x : Except String α) : Ends x (fun a => x = .ok a) fun _ => True :=
  ⟨id, fun _ => True.intro⟩

theorem mono {x : Except String α} (h : Ends x Q E) (hQ : ∀ a, Q a → Q' a)
    (hE : ∀ e, E e → E' e) : Ends x Q' E' :=
  ⟨fun heq => hQ _ (h.of_eq_ok heq), fun heq => hE _ (h.of_eq_error heq)⟩

theorem imp {x : Except String α} (h : Ends x Q E) (hQ : ∀ a, Q a → Q' a) : Ends x Q' E :=
  h.mono hQ fun _ => id

theorem any {x : Except String α} (h : Ends x Q E) : Ends x Q fun _ => True :=
  h.mono (fun _ => id) fun _ _ => True.intro

theorem exists_ok {x : Except String α} (h : Ends x Q fun _ => False) : ∃ a, x = .ok a ∧ Q a := by
  cases x with
  | ok a => exact ⟨a, rfl, h.of_eq_ok rfl⟩
  | error e => exact (h.of_eq_error rfl).elim

theorem and {x : Except String α} (h : Ends x Q E) (h' : Ends x Q' fun _ => True) :
    Ends x (fun a => Q a ∧ Q' a) E :=
  ⟨fun heq => ⟨h.of_eq_ok heq, h'.of_eq_ok heq⟩, h.of_eq_error⟩

theorem bind {x : Except String α} {f : α → Except String β} {R : β → Prop} (h : Ends x Q E)
    (hf : ∀ a, Q a → Ends (f a) R E) : Ends (x >>= f) R E := by
  cases x with
  | ok a => exact hf a (h.of_eq_ok rfl)
  | error e => exact error (h.of_eq_error rfl)

theorem map {x : Except String α} {f : α → β} {R : β → Prop} (h : Ends x Q E)
    (hf : ∀ a, Q a → R (f a)) : Ends (x.map f) R E := by
  cases x with
  | ok a => exact ok (hf a (h.of_eq_ok rfl))
  | error e => exact error (h.of_eq_error rfl)

theorem foldlM {γ : Type} (Inv : α → Prop) {f : α → γ → Except String α} {xs : List γ} {a : α}
    (h0 : Inv a) (hstep : ∀ x ∈ xs, ∀ a, Inv a → Ends (f a x) Inv E) :
    Ends (xs.foldlM f a) Inv E := by
  induction xs generalizing a with
  | nil => exact ok h0
  | cons x rest ih =>
    rw [foldlM_cons]
    exact (hstep x (by simp) a h0).bind fun b hb =>
      ih hb fun y hy => hstep y (by simp [hy])

theorem foldlM_each {γ : Type} {P : γ → Prop} {f : α → γ → Except String α} {xs : List γ} {a : α}
    (hstep : ∀ x ∈ xs, ∀ a, Ends (f a x) (fun _ => P x) E) :
    Ends (xs.foldlM f a) (fun _ => ∀ x ∈ xs, P x) E := by
  induction xs generalizing a with
  | nil => exact ok fun x hx => absurd hx not_mem_nil
  | cons x rest ih =>
    rw [foldlM_cons]
    refine (hstep x mem_cons_self a).bind fun b hx => ?_
    refine (ih fun y hy => hstep y (mem_cons_of_mem x hy)).imp fun _ hrest => ?_
    exact forall_mem_cons.mpr ⟨hx, hrest⟩

theorem foldlM_congr {γ : Type} (Inv : α → Prop) {f g : α → γ → Except String α} {xs : List γ}
    {a : α} (h0 : Inv a) (hstep : ∀ x ∈ xs, ∀ a, Inv a → Ends (g a x) Inv E)
    (heq : ∀ x ∈ xs, ∀ a, Inv a → f a x = g a x) : xs.foldlM f a = xs.foldlM g a := by
  induction xs generalizing a with
  | nil => rfl
  | cons x rest ih =>
    rw [foldlM_cons, foldlM_cons, heq x (by simp) a h0]
    have hx := hstep x (by simp) a h0
    cases hg : g a x with
    | error e => rfl
    | ok b =>
      exact ih (hx.of_eq_ok hg) (fun y hy => hstep y (by simp [hy]))
        fun y hy => heq y (by simp [hy])

theorem foldlM_visited {γ : Type} (Inv : List γ → α → Prop) {f : α → γ → Except String α}
    {xs : List γ} {a : α} (hnodup : xs.Nodup) (h0 : Inv [] a)
    (hstep : ∀ ys, ∀ x ∈ xs, x ∉ ys → ∀ a, Inv ys a → Ends (f a x) (Inv (ys ++ [x])) E) :
    Ends (xs.foldlM f a) (Inv xs) E := by
  suffices h : ∀ ys zs a, ys ++ zs = xs → Inv ys a → Ends (zs.foldlM f a) (Inv xs) E from
    h [] xs a rfl h0
  intro ys zs
  induction zs generalizing ys with
  | nil =>
    intro a heq ha
    rw [append_nil] at heq
    exact ok (heq ▸ ha)
  | cons x rest ih =>
    intro a heq ha
    have hx : x ∉ ys := by
      rw [← heq, nodup_append] at hnodup
      exact fun hmem => hnodup.2.2 x hmem x (by simp) rfl
    rw [foldlM_cons]
    refine (hstep ys x (heq ▸ by simp) hx a ha).bind fun b hb => ?_
    exact ih (ys ++ [x]) b (by simpa using heq) hb

end Ends

end EafitOs.Foundation
