import EafitOs.Process.Pids
import EafitOs.Process.Kill
import Mathlib.Logic.Relation

/-!
# The process tree

`kfork` makes a child that is younger than its parent, and `kexit` hands its children to the
oldest process. Whatever the interleaving, `p->parent` leads from every process to `init`.
-/

namespace EafitOs.Process

open Foundation Function Relation

variable {n : Nat} {initproc i k q : Fin n} {s t : State n} {sec : Section n}

def State.ParentOf (s : State n) (k q : Fin n) : Prop := (s.proc k).parent = some q

/-- Processes are numbered by age: `init` is the oldest, and a child is younger than its
parent. -/
structure ByAge (initproc : Fin n) (s : State n) : Prop where
  first : ∀ k, (s.proc k).state ≠ .unused → s.uid initproc ≤ s.uid k
  child : ∀ j np, (s.pc j).child = some np → s.uid j < s.uid np
  older : ∀ k q, s.ParentOf k q → s.uid q < s.uid k ∧ (s.proc q).state ≠ .used

section

variable (hd : Does initproc s i sec t)
include hd

theorem Does.uid_kept (hk : (s.proc k).state ≠ .unused) : t.uid k = s.uid k := by
  have hfrom := hd.takes.from
  rw [uid_step hd.performed]
  split
  · rename_i heff
    rw [heff] at hfrom
    exact absurd hfrom.2.1 hk
  · rfl

theorem Does.parent_step (hk : t.ParentOf k q) : s.ParentOf k q ∨ sec.effect = .setParent k q := by
  rw [State.ParentOf, hd.performed.proc] at hk
  cases heff : sec.effect <;> grind [State.ParentOf]

theorem Does.used_step (hk : (t.proc k).state = .used) :
    (s.proc k).state = .used ∨ (s.proc k).state = .unused := by
  have hfrom := hd.takes.from
  rw [hd.performed.proc] at hk
  cases heff : sec.effect <;> grind

theorem Does.acts : (s.proc i).state ≠ .unused ∧ (s.proc i).state ≠ .used := by
  have hfrom := hd.takes.from
  obtain hrun | heff := hd.runs
  · simp [hrun]
  · rw [heff] at hfrom
    simp [hfrom.1]

end

namespace ByAge

section

variable (h : ByAge initproc s) (hs : Sane initproc s) (hd : Does initproc s i sec t)
include h hs hd

theorem child_step (j np : Fin n) (hnp : (t.pc j).child = some np) : t.uid j < t.uid np := by
  have hkept (hj : (s.proc j).state ≠ .unused) (hchild : (s.pc j).child = some np) :
      t.uid j < t.uid np := by
    rw [hd.uid_kept hj, hd.uid_kept (by simp [hs.family.child_used hchild])]
    exact h.child j np hchild
  rw [hd.performed.pc, update_apply] at hnp
  split at hnp
  · rename_i hji
    subst hji
    obtain hchild | heff := Family.child_own hd.takes hnp
    · exact hkept hd.acts.1 hchild
    · rw [hd.uid_kept hd.acts.1, uid_step hd.performed, if_pos heff]
      exact hs.history.uid_lt j hd.acts.1
  · refine hkept (fun hj => ?_) hnp
    rw [hs.control.idle j (.inl hj)] at hnp
    cases hnp

theorem older_step
    (k q : Fin n) (hk : t.ParentOf k q) : t.uid q < t.uid k ∧ (t.proc q).state ≠ .used := by
  -- it is enough to find the two in use before the step, in the right order
  have hkept (hq : (s.proc q).state ≠ .unused ∧ (s.proc q).state ≠ .used)
      (hk : (s.proc k).state ≠ .unused) (hlt : s.uid q < s.uid k) :
      t.uid q < t.uid k ∧ (t.proc q).state ≠ .used := by
    rw [hd.uid_kept hq.1, hd.uid_kept hk]
    exact ⟨hlt, fun hused => (hd.used_step hused).elim hq.2 hq.1⟩
  have hinuse {p} (hp : s.ParentOf k p) : (s.proc k).state ≠ .unused := fun hun => by
    rw [State.ParentOf, hs.family.free k hun] at hp
    cases hp
  obtain hold | heff := hd.parent_step hk
  · have hlive := of_decide_eq_true (hs.family.live k q hold)
    exact hkept ⟨hlive.1, (h.older k q hold).2⟩ (hinuse hold) (h.older k q hold).1
  · have hfrom := hd.takes.from
    rw [heff] at hfrom
    obtain ⟨hpc, rfl, -⟩ | ⟨status, -, rfl, hparent, -⟩ := hfrom
    · have hchild : (s.pc q).child = some k := by rw [hpc]; rfl
      exact hkept hd.acts (by simp [hs.family.child_used hchild]) (h.child q k hchild)
    · have hroot := hs.family.rootLive
      exact hkept ⟨hroot.1, hroot.2.1⟩ (hinuse hparent)
        ((h.first i hd.acts.1).trans_lt (h.older k i hparent).1)

theorem perform : ByAge initproc t := by
  refine ⟨fun k hk => ?_, h.child_step hs hd, h.older_step hs hd⟩
  rw [hd.uid_kept hs.family.rootLive.1]
  obtain ⟨-, huid, -⟩ | ⟨hold, huid, -⟩ := hs.family.inUse hd hk
  · rw [huid]
    exact (hs.history.uid_lt initproc hs.family.rootLive.1).le
  · rw [huid]
    exact h.first k hold

end

theorem step {a : Act n} (h : Sane initproc s ∧ ByAge initproc s)
    (hstep : s.step initproc a = some t) : Sane initproc t ∧ ByAge initproc t := by
  refine ⟨h.1.step hstep, ?_⟩
  obtain ⟨i, sec, hd, _⟩ | rfl := step_cases hstep
  · exact h.2.perform h.1 hd
  · exact ⟨h.2.first, h.2.child, h.2.older⟩

theorem older_of_transGen (h : ByAge initproc s) (hkq : TransGen s.ParentOf k q) :
    s.uid q < s.uid k := by
  induction hkq with
  | single hq => exact (h.older _ _ hq).1
  | tail _ hq ih => exact (h.older _ _ hq).1.trans ih

theorem reaches (h : ByAge initproc s) (hf : Family initproc s) (k : Fin n)
    (hunused : (s.proc k).state ≠ .unused) (hused : (s.proc k).state ≠ .used) :
    ReflTransGen s.ParentOf k initproc := by
  induction hu : s.uid k using Nat.strong_induction_on generalizing k with
  | _ u ih =>
    by_cases hinit : k = initproc
    · rw [hinit]
    · obtain ⟨q, hq⟩ := Option.ne_none_iff_exists'.mp (hf.parented k hinit hunused hused)
      obtain ⟨hlt, hused'⟩ := h.older k q hq
      have hlive := of_decide_eq_true (hf.live k q hq)
      exact .head hq (ih _ (hu ▸ hlt) q hlive.1 hused' rfl)

end ByAge

/-- At every step of every run, the parents of a process that has been started lead to `init`, and
no process is its own ancestor. -/
theorem process_tree {acts : List (Act n)} (run : Run (Steps initproc) (userinit initproc) acts s) :
    (∀ k, (s.proc k).state ≠ .unused → (s.proc k).state ≠ .used →
      ReflTransGen s.ParentOf k initproc) ∧ ∀ k, ¬TransGen s.ParentOf k k := by
  have hinit : ByAge initproc (userinit initproc) := by
    refine ⟨fun k _ => Nat.le_refl 0, fun j np hnp => (by cases hnp), fun k q hk => ?_⟩
    rw [State.ParentOf] at hk
    by_cases hinit : k = initproc
    · rw [hinit, userinit_self] at hk
      cases hk
    · rw [userinit_of_ne hinit] at hk
      cases hk
  obtain ⟨hs, h⟩ := run.invariant (fun s => Sane initproc s ∧ ByAge initproc s)
    ⟨sane_run .nil, hinit⟩ fun _ _ _ => ByAge.step
  exact ⟨h.reaches hs.family, fun k hk => Nat.lt_irrefl _ (h.older_of_transGen hk)⟩

theorem process_tree_child : ∃ s, Run (Steps (0 : Fin 2)) (userinit 0) ([.schedule 0] ++ initForks)
    s ∧
    (s.proc 1).state = .runnable ∧ ReflTransGen s.ParentOf 1 0 := by
  refine Run.exists_exec (p := fun s => (s.proc 1).state = .runnable) (by decide +kernel) ?_
  exact fun s run hstate => ⟨hstate, (process_tree run).1 1 (by simp [hstate]) (by simp [hstate])⟩

end EafitOs.Process
