import EafitOs.Foundation.Panics
import EafitOs.Foundation.Runs
import EafitOs.Memory.Kernel

/-!
# Invariants of processes

A property of single processes holds in every reachable state of the machine if each
call, `kexit` and `kfork` keep it. The rule also bounds the panics that can happen.
-/

namespace EafitOs.Memory

open Foundation

def Kernel.AllProcs (P : Proc → Prop) (k : Kernel) : Prop :=
  ∀ i p, (k.slot i = .live p ∨ ∃ x, k.slot i = .zombie p x) → P p

/-- What a property of processes has to satisfy to be an invariant of the machine,
for calls that satisfy `Good` and panics that satisfy `E`. -/
structure ProcInvariant (P : Proc → Prop) (Good : Proc → Call → Prop) (E : String → Prop) :
    Prop where
  parent : ∀ p x, P p → P { p with parent := x }
  call : ∀ mem fs p namei a, P p → Good p a →
    Ends (Ctx.run ⟨mem, fs, p⟩ namei a) (fun r => P r.2.proc) E
  exit : ∀ c : Ctx, P c.proc → Ends (kexit c) (fun c' => P c'.proc) E
  init : E "init exiting"
  kfree : ∀ (m : Mem) f, Ends (m.kfree f) (fun _ => True) E
  fork : ∀ m (p : Proc) tf i, P p → Ends (procPagetable m tf) (fun r => ∀ v, r.1 = some v →
    Ends (uvmcopy p.pt v p.sz) (fun r =>
      if r.1 then P { p with pt := r.2.pt, tf := tf, parent := i, killed := false }
      else ∀ m, Ends (procFreepagetable ⟨m, r.2.pt⟩ 0) (fun _ => True) E) E) E
  dup : ∀ fs p, Ends (Kernel.dupFiles fs p) (fun _ => True) E
  copyout : ∀ m (p : Proc) va bs, P p →
    Ends (copyout ⟨m, p.pt⟩ p.sz va bs) (fun r => P { p with pt := r.2.pt }) E
  free : ∀ m (p : Proc), P p → Ends (procFreepagetable ⟨m, p.pt⟩ p.sz) (fun _ => True) E

/-- The call a step makes, if any, satisfies `Good`. -/
def Calls (Good : Proc → Call → Prop) (k : Kernel) (a : Act) : Prop :=
  ∀ i c p, a = .call i c → k.slot i = .live p → Good p c

theorem slot_of_proc? {k : Kernel} {i : Fin nproc} {p : Proc} (h : k.proc? i = some p) :
    k.slot i = .live p := by
  simp only [Kernel.proc?] at h
  split at h
  · rename_i q hq
    rw [hq, Option.some.inj h]
  · cases h

theorem kstep_cases {k k' : Kernel} {a : Act} (h : KStep k a k') :
    k.panic = none ∧ ∃ p, k.slot a.who = .live p ∧ p.canRun ∧ k' = k.settle (k.act p a) := by
  simp only [KStep, Kernel.step] at h
  split at h
  · cases h
  · rename_i hpanic
    split at h
    · rename_i p hp
      split at h
      · rename_i hrun
        exact ⟨by simpa using hpanic, p, hp, hrun, (Option.some.inj h).symm⟩
      · cases h
    · cases h

namespace Kernel.AllProcs

variable {P : Proc → Prop} {k : Kernel}

theorem live (h : k.AllProcs P) {i : Fin nproc} {p : Proc} (hp : k.slot i = .live p) : P p :=
  h i p (Or.inl hp)

theorem update {mem : Mem} {fs : Fs} {slot : Fin nproc → Slot} {i : Fin nproc} {s : Slot}
    (h : AllProcs P { k with mem := mem, fs := fs, slot := slot })
    (hs : ∀ p, (s = .live p ∨ ∃ x, s = .zombie p x) → P p) :
    AllProcs P { k with mem := mem, fs := fs, slot := Function.update slot i s } := by
  intro j p hp
  by_cases hj : j = i
  · subst hj
    exact hs p (by simpa using hp)
  · exact h j p (by simpa [hj] using hp)

theorem of_slot (h : k.AllProcs P) (mem : Mem) (fs : Fs) :
    AllProcs P { k with mem := mem, fs := fs } := h

theorem put (h : k.AllProcs P) {c : Ctx} (hc : P c.proc) (i : Fin nproc) :
    (k.put i c).AllProcs P := by
  apply (h.of_slot c.mem c.fs).update
  rintro p (hp | ⟨x, hp⟩)
  · cases hp
    exact hc
  · cases hp

theorem reparent (hpar : ∀ p x, P p → P { p with parent := x }) (h : k.AllProcs P) (i : Fin nproc)
    (mem : Mem) (fs : Fs) : AllProcs P { k with mem := mem, fs := fs, slot := k.reparent i } := by
  have hif : ∀ p : Proc, P p →
      P (if p.parent = some i then { p with parent := some k.initproc } else p) := by
    intro p hp
    split
    · exact hpar p _ hp
    · exact hp
  intro j p hp
  simp only [Kernel.reparent] at hp
  cases hj : k.slot j with
  | unused => simp [hj] at hp
  | live q =>
    simp only [hj, Slot.live.injEq, reduceCtorEq, exists_false, or_false] at hp
    exact hp ▸ hif q (h j q (Or.inl hj))
  | zombie q x =>
    simp only [hj, reduceCtorEq, false_or, Slot.zombie.injEq] at hp
    obtain ⟨_, hq, _⟩ := hp
    exact hq ▸ hif q (h j q (Or.inr ⟨x, hj⟩))

end Kernel.AllProcs

theorem sampleKernel_allProcs {P : Proc → Prop} (h : ∀ f parent, P (sampleProc f parent)) :
    sampleKernel.AllProcs P := by
  intro i p hp
  simp only [sampleKernel] at hp
  split at hp
  · rcases hp with hp | ⟨x, hp⟩ <;> cases hp
    exact h _ _
  · split at hp
    · rcases hp with hp | ⟨x, hp⟩ <;> cases hp
      exact h _ _
    · rcases hp with hp | ⟨x, hp⟩ <;> cases hp

namespace ProcInvariant

variable {P : Proc → Prop} {Good : Proc → Call → Prop} {E : String → Prop} {k : Kernel}

section

variable (hI : ProcInvariant P Good E)
include hI

section

variable (h : k.AllProcs P)
include h

theorem exitStep {c : Ctx} (hc : P c.proc) (i : Fin nproc) (status : UInt32) :
    Ends (k.exit i c status) (fun k' => k'.AllProcs P) E := by
  simp only [Kernel.exit]
  split
  · exact .error hI.init
  · refine (hI.exit c hc).bind ?_
    intro c' hc'
    apply Ends.ok
    apply (Kernel.AllProcs.reparent hI.parent h i c'.mem c'.fs).update
    rintro p (hp | ⟨x, hp⟩)
    · cases hp
    · cases hp
      exact hc'

theorem callStep {i : Fin nproc} {p : Proc} (hp : k.slot i = .live p) {a : Call} (ha : Good p a) :
    Ends (k.call i p a) (fun k' => k'.AllProcs P) E := by
  refine (hI.call k.mem k.fs p k.namei a (h.live hp) ha).bind ?_
  rintro ⟨_, c⟩ hc
  simp only
  split
  · exact hI.exitStep h hc i _
  · exact .ok (h.put hc i)

theorem forkStep {i : Fin nproc} {p : Proc}
    (hp : k.slot i = .live p) : Ends (k.fork i p) (fun k' => k'.AllProcs P) E := by
  simp only [Kernel.fork]
  split
  · exact .ok h
  · split
    · exact .ok h
    · rename_i tf m _
      refine (hI.fork m p tf (some i) (h.live hp)).bind ?_
      rintro ⟨v, m'⟩ hv
      cases v with
      | none =>
        have hfree : Ends (Kernel.freeproc m' tf none 0) (fun _ => True) E :=
          (hI.kfree m' tf).bind fun _ _ => .ok trivial
        exact hfree.bind fun m'' _ => .ok (h.of_slot m'' k.fs)
      | some v =>
        refine (hv v rfl).bind ?_
        rintro ⟨ok, v'⟩ hcopy
        cases ok with
        | false =>
          have hfree : Ends (Kernel.freeproc v'.mem tf (some v'.pt) 0) (fun _ => True) E :=
            (hI.kfree v'.mem tf).bind fun m'' _ => hcopy m''
          exact hfree.bind fun m'' _ => .ok (h.of_slot m'' k.fs)
        | true =>
          refine (hI.dup k.fs p).bind fun fs _ => ?_
          apply Ends.ok
          apply (h.of_slot v'.mem fs).update
          rintro q (hq | ⟨x, hq⟩)
          · cases hq
            exact hcopy
          · cases hq

theorem waitStep {i : Fin nproc} {p : Proc} (hp : k.slot i = .live p) (addr : Nat) :
    Ends (k.wait i p addr) (fun k' => k'.AllProcs P) E := by
  simp only [Kernel.wait]
  split
  · exact .ok h
  · rename_i j _
    split
    · rename_i q xstate hq
      have hcopy : Ends (Kernel.giveStatus (k.ctx p) addr xstate)
          (fun r => P { p with pt := r.2.pt }) E := by
        simp only [Kernel.giveStatus]
        split
        · exact .ok (h.live hp)
        · exact hI.copyout k.mem p addr _ (h.live hp)
      refine hcopy.bind ?_
      rintro ⟨ok, v⟩ hv
      have hput : (k.put i ((k.ctx p).setVm v)).AllProcs P := h.put hv i
      cases ok with
      | false => exact .ok hput
      | true =>
        have hfree : Ends (Kernel.freeproc (k.put i ((k.ctx p).setVm v)).mem q.tf (some q.pt) q.sz)
            (fun _ => True) E :=
          (hI.kfree _ q.tf).bind fun m _ => hI.free m q (h j q (Or.inr ⟨xstate, hq⟩))
        refine hfree.bind fun m _ => ?_
        apply Ends.ok
        apply (hput.of_slot m (k.put i ((k.ctx p).setVm v)).fs).update
        rintro r (hr | ⟨x, hr⟩) <;> cases hr
    · exact .ok h

theorem step {a : Act} {k' : Kernel} (hs : KStep k a k') (hgood : Calls Good k a) :
    k'.AllProcs P ∧ ∀ e, k'.panic = some e → E e := by
  obtain ⟨hnone, p, hp, _, rfl⟩ := kstep_cases hs
  have hact : Ends (k.act p a) (fun k' => k'.AllProcs P) E := by
    cases a with
    | call i c => exact hI.callStep h hp (hgood i c p rfl hp)
    | fork i => exact hI.forkStep h hp
    | exit i status => exact hI.exitStep h (h.live hp) i status
    | wait i addr => exact hI.waitStep h hp addr.toNat
  cases hr : k.act p a with
  | ok k' =>
    refine ⟨show k'.AllProcs P from hact.of_eq_ok hr, ?_⟩
    intro e he
    simp [Kernel.settle, hnone] at he
  | error e =>
    refine ⟨h, ?_⟩
    intro e' he'
    have : e = e' := by simpa [Kernel.settle] using he'
    exact this ▸ hact.of_eq_error hr

end

theorem run {k₀ k : Kernel} {ls : List Act} (h₀ : k₀.AllProcs P)
    (hpanic : k₀.panic = none) (hrun : Run (guarded (Calls Good) KStep) k₀ ls k) :
    k.AllProcs P ∧ ∀ e, k.panic = some e → E e :=
  hrun.invariant (fun k => k.AllProcs P ∧ ∀ e, k.panic = some e → E e) ⟨h₀, by simp [hpanic]⟩
    fun _ _ _ h hs => hI.step h.1 hs.2 hs.1

end

end ProcInvariant

end EafitOs.Memory
