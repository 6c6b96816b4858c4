import Mathlib.Data.List.Basic
import Mathlib.Logic.Function.Basic

/-!
# Runs of a labelled step relation

A run is the list of labels taken from a start state, oldest first. Guarded runs are runs of the
step relation restricted by a predicate on the state before the step and its label.
-/

namespace EafitOs.Foundation

variable {S L : Type*}

/-- The states reached from `s` by taking the listed labels in order. -/
inductive Run (Step : S → L → S → Prop) (s : S) : List L → S → Prop
  | nil : Run Step s [] s
  | snoc {ls t l u} : Run Step s ls t → Step t l u → Run Step s (ls ++ [l]) u

def guarded (Good : S → L → Prop) (Step : S → L → S → Prop) : S → L → S → Prop :=
  fun s l t => Good s l ∧ Step s l t

namespace Run

variable {Step : S → L → S → Prop} {s t : S} {ls : List L}

theorem invariant (Inv : S → Prop) (h0 : Inv s)
    (hstep : ∀ t l u, Inv t → Step t l u → Inv u) (run : Run Step s ls t) : Inv t := by
  induction run with
  | nil => exact h0
  | snoc _ hs ih => exact hstep _ _ _ ih hs

theorem mono {Step' : S → L → S → Prop} (h : ∀ s l t, Step s l t → Step' s l t)
    (run : Run Step s ls t) : Run Step' s ls t := by
  induction run with
  | nil => exact nil
  | snoc _ hs ih => exact snoc ih (h _ _ _ hs)

theorem of_guarded {Good : S → L → Prop} (run : Run (guarded Good Step) s ls t) :
    Run Step s ls t :=
  run.mono fun _ _ _ hs => hs.2

theorem cons {l : L} {u : S} (h : Step s l t) (run : Run Step t ls u) :
    Run Step s (l :: ls) u := by
  induction run with
  | nil => exact snoc nil h
  | snoc _ hs ih => exact snoc ih hs

theorem append {ls' : List L} {u : S} (run : Run Step s ls t) (run' : Run Step t ls' u) :
    Run Step s (ls ++ ls') u := by
  induction run' with
  | nil => rwa [List.append_nil]
  | snoc _ hs ih =>
    rw [← List.append_assoc]
    exact snoc ih hs

theorem eq_of_nil (run : Run Step s [] t) : t = s := by
  generalize hls : ([] : List L) = ls at run
  cases run with
  | nil => rfl
  | snoc => simp at hls

theorem exists_last {l : L} (run : Run Step s (ls ++ [l]) t) :
    ∃ u, Run Step s ls u ∧ Step u l t := by
  generalize hls : ls ++ [l] = ls' at run
  cases run with
  | nil => simp at hls
  | snoc hrun hs =>
    obtain ⟨rfl, hl⟩ := List.append_inj' hls rfl
    obtain rfl := List.singleton_inj.mp hl
    exact ⟨_, hrun, hs⟩

theorem unique (hstep : ∀ s l t u, Step s l t → Step s l u → t = u) {u : S}
    (run : Run Step s ls t) (run' : Run Step s ls u) : t = u := by
  induction run generalizing u with
  | nil => exact run'.eq_of_nil.symm
  | snoc _ hs ih =>
    obtain ⟨t', hrun, hs'⟩ := run'.exists_last
    obtain rfl := ih hrun
    exact hstep _ _ _ _ hs hs'

end Run

def exec (step : S → L → Option S) : S → List L → Option S
  | s, [] => some s
  | s, l :: ls => (step s l).bind fun t => exec step t ls

theorem Run.of_exec {step : S → L → Option S} {s t : S} {ls : List L}
    (h : exec step s ls = some t) : Run (fun s l t => step s l = some t) s ls t := by
  induction ls generalizing s with
  | nil =>
    obtain rfl := Option.some.inj h
    exact nil
  | cons l ls ih =>
    obtain ⟨u, hu, hrest⟩ := Option.bind_eq_some_iff.mp h
    exact cons hu (ih hrest)

def checked (Good : S → L → Prop) [∀ s l, Decidable (Good s l)] (step : S → L → Option S) :
    S → L → Option S :=
  fun s l => if Good s l then step s l else none

theorem Run.of_checked {Good : S → L → Prop} [∀ s l, Decidable (Good s l)]
    {step : S → L → Option S} {s t : S} {ls : List L}
    (h : exec (checked Good step) s ls = some t) :
    Run (guarded Good fun s l t => step s l = some t) s ls t := by
  refine (Run.of_exec h).mono fun s l t hst => ?_
  rw [checked] at hst
  split at hst
  · exact ⟨‹_›, hst⟩
  · cases hst

section Computed

variable {step : S → L → Option S} {s : S} {ls : List L} {p q : S → Prop}

/-- A run that is computed, with what is tested at its end. -/
theorem Run.exists_exec (h : ∃ t ∈ exec step s ls, p t)
    (hq : ∀ t, Run (fun s l t => step s l = some t) s ls t → p t → q t) :
    ∃ t, Run (fun s l t => step s l = some t) s ls t ∧ q t := by
  obtain ⟨t, ht, hp⟩ := h
  have run := Run.of_exec ht
  exact ⟨t, run, hq t run hp⟩

theorem Run.exists_checked {Good : S → L → Prop} [∀ s l, Decidable (Good s l)]
    (h : ∃ t ∈ exec (checked Good step) s ls, p t)
    (hq : ∀ t, Run (guarded Good fun s l t => step s l = some t) s ls t → p t → q t) :
    ∃ t, Run (guarded Good fun s l t => step s l = some t) s ls t ∧ q t := by
  obtain ⟨t, ht, hp⟩ := h
  have run := Run.of_checked ht
  exact ⟨t, run, hq t run hp⟩

end Computed

end EafitOs.Foundation
