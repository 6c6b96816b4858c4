import EafitOs.Process.History
import Mathlib.Algebra.GroupWithZero.Nat
import Mathlib.Algebra.Ring.Int.Defs

/-!
# Process identifiers

`allocpid` hands out `nextpid` and adds one, and never looks at the pids in use. Pids are distinct
and positive for as long as `nextpid` is positive and not in use whenever a process is created.
-/

namespace EafitOs.Process

open Foundation Function List Option

-- the number of slots of the process table
instance neZeroSlots : NeZero 64 := ⟨by decide⟩

variable {n : Nat} {initproc i : Fin n} {s t : State n} {sec : Section n}

/-- What a `kfork` under way will return: it reads `np->pid` when `np` is set up. -/
def State.kforkPid (s : State n) (i : Fin n) : Option Int :=
  (s.pc i).child.map fun np => (s.proc np).pid

/-- The pids of the processes in use are positive and distinct, and `kfork` returns no other. -/
structure Pids (s : State n) : Prop where
  pos : ∀ k, (s.proc k).state ≠ .unused → 0 < (s.proc k).pid
  distinct : ∀ j k, (s.proc j).state ≠ .unused → (s.proc k).state ≠ .unused →
    (s.proc j).pid = (s.proc k).pid → j = k
  returned : ∀ i pid, s.kforkPid i = some pid → 0 < pid

/-- The step is an `allocproc` at a slot that is free, with enough memory. -/
def Allocates (s : State n) (a : Act n) : Prop :=
  ∃ (i k : Fin n), a = .run i .ok ∧ s.pc i = .allocproc k ∧ (s.proc k).state = .unused

def PidFree (s : State n) : Prop :=
  0 < s.nextpid ∧ ∀ k, (s.proc k).state ≠ .unused → (s.proc k).pid ≠ s.nextpid

theorem Family.child_used (h : Family initproc s) {np : Fin n} (hc : (s.pc i).child = some np) :
    (s.proc np).state = .used := by
  have hknows := h.knows i
  obtain hpc | hpc := Pc.child_cases hc <;> rw [hpc] at hknows <;> exact hknows.1

theorem next_allocproc {k : Fin n} (hpc : s.pc i = .allocproc k)
    (hfree : (s.proc k).state = .unused) :
    s.next initproc i .ok = some ⟨.allocproc k true, .keep, .kforkParent k⟩ := by
  simp [State.next, hpc, State.allocprocAt, hfree]

theorem next_allocproc_fail {k : Fin n} (hpc : s.pc i = .allocproc k)
    (hfree : (s.proc k).state = .unused) {c : Choice n} (hc : c ≠ .ok) :
    s.next initproc i c = some ⟨.allocproc k false, .keep, .user⟩ := by
  cases c <;> simp [State.next, hpc, State.allocprocAt, hfree] at hc ⊢

theorem Allocates.step {a : Act n} (h : Allocates s a) (hstep : s.step initproc a = some t) :
    ∃ k, (s.proc k).state = .unused ∧ (t.proc k).state ≠ .unused ∧ (t.proc k).pid = s.nextpid ∧
      t.nextpid = (s.nextpid + 1).bmod (2 ^ 32) ∧ ∀ j, j ≠ k → t.proc j = s.proc j := by
  obtain ⟨i, k, rfl, hpc, hfree⟩ := h
  obtain ⟨-, hperform⟩ := ite_none_right_eq_some.mp hstep
  rw [next_allocproc hpc hfree, bind_some] at hperform
  have hproc := (performed hperform).proc
  refine ⟨k, hfree, ?_, ?_, (performed hperform).nextpid, fun j hj => ?_⟩
  · simp [hproc, Effect.slot, Effect.change]
  · simp [hproc, Effect.slot, Effect.change]
  · simp [hproc, Effect.slot, hj.symm]

theorem Family.inUse_step {a : Act n} (h : Family initproc s) (hstep : s.step initproc a = some t)
    {k : Fin n} (hk : (t.proc k).state ≠ .unused) :
    Allocates s a ∧ (s.proc k).state = .unused ∨
      (s.proc k).state ≠ .unused ∧ (t.proc k).pid = (s.proc k).pid := by
  obtain ⟨i, sec, hd, hlabel⟩ | rfl := step_cases hstep
  · rcases h.inUse hd hk with ⟨heff, -, -⟩ | ⟨hused, -, hpid⟩
    · have hfrom := hd.takes.from
      rw [heff] at hfrom
      obtain ⟨hpc, hfree, -⟩ := hfrom
      obtain ⟨c, rfl, huser⟩ | ⟨c, rfl⟩ | ⟨-, hrun⟩ | ⟨-, hyield⟩ := hlabel
      · rw [hpc] at huser
        cases huser
      · refine Or.inl ⟨⟨i, k, ?_, hpc, hfree⟩, hfree⟩
        -- any other outcome leaves the slot free
        by_contra hc
        obtain ⟨-, hperform⟩ := ite_none_right_eq_some.mp hstep
        rw [next_allocproc_fail hpc hfree fun heq => hc (heq ▸ rfl), bind_some] at hperform
        apply hk
        simp [(performed hperform).proc k, Effect.slot, Effect.change, Proc.free]
      · rw [heff] at hrun
        cases hrun
      · rw [heff] at hyield
        cases hyield
    · exact Or.inr ⟨hused, hpid⟩
  · exact Or.inr ⟨hk, rfl⟩

theorem Pids.of_family (h : Family initproc s)
    (hpos : ∀ k, (s.proc k).state ≠ .unused → 0 < (s.proc k).pid)
    (hdistinct : ∀ j k, (s.proc j).state ≠ .unused → (s.proc k).state ≠ .unused →
      (s.proc j).pid = (s.proc k).pid → j = k) : Pids s := by
  refine ⟨hpos, hdistinct, fun i pid hi => ?_⟩
  obtain ⟨np, hc, rfl⟩ := map_eq_some_iff.mp hi
  apply hpos
  rw [h.child_used hc]
  decide

theorem Pids.step {a : Act n} (h : Pids s) (hf : Family initproc s) (hf' : Family initproc t)
    (hfree : Allocates s a → PidFree s) (hstep : s.step initproc a = some t) : Pids t := by
  by_cases ha : Allocates s a
  · obtain ⟨hpos, hnew⟩ := hfree ha
    obtain ⟨k, -, -, hpid, -, hother⟩ := ha.step hstep
    have hold : ∀ j, j ≠ k → (t.proc j).state ≠ .unused →
        0 < (t.proc j).pid ∧ (t.proc j).pid ≠ s.nextpid := by
      intro j hj hused
      rw [hother j hj] at hused ⊢
      exact ⟨h.pos j hused, hnew j hused⟩
    refine .of_family hf' (fun j hj => ?_) fun j m hj hm heq => ?_
    · by_cases hjk : j = k
      · rwa [hjk, hpid]
      · exact (hold j hjk hj).1
    · by_cases hjk : j = k <;> by_cases hmk : m = k
      · rw [hjk, hmk]
      · rw [hjk, hpid] at heq
        exact absurd heq.symm (hold m hmk hm).2
      · rw [hmk, hpid] at heq
        exact absurd heq (hold j hjk hj).2
      · rw [hother j hjk] at hj heq
        rw [hother m hmk] at hm heq
        exact h.distinct j m hj hm heq
  · have hsame : ∀ j, (t.proc j).state ≠ .unused →
        (s.proc j).state ≠ .unused ∧ (t.proc j).pid = (s.proc j).pid :=
      fun j hj => (hf.inUse_step hstep hj).resolve_left fun hleft => ha hleft.1
    refine .of_family hf' (fun j hj => ?_) fun j m hj hm heq => ?_
    · rw [(hsame j hj).2]
      exact h.pos j (hsame j hj).1
    · rw [(hsame j hj).2, (hsame m hm).2] at heq
      exact h.distinct j m (hsame j hj).1 (hsame m hm).1 heq

theorem Pids.free {a : Act n} (h : Pids t) (ha : Allocates s a)
    (hstep : s.step initproc a = some t) : PidFree s := by
  obtain ⟨k, hfree, hused, hpid, -, hother⟩ := ha.step hstep
  refine ⟨hpid ▸ h.pos k hused, fun j hj heq => ?_⟩
  have hjk : j ≠ k := by
    rintro rfl
    exact hj hfree
  rw [← hother j hjk] at hj heq
  exact hjk (h.distinct j k hj hused (heq.trans hpid.symm))

theorem Pids.userinit (initproc : Fin n) : Pids (userinit initproc) := by
  have honly : ∀ k, ((Process.userinit initproc).proc k).state ≠ .unused → k = initproc := by
    intro k hk
    by_contra hne
    rw [userinit_of_ne hne] at hk
    exact hk rfl
  refine .of_family (.userinit initproc) (fun k hk => ?_) fun j k hj hk _ => ?_
  · rw [honly k hk, userinit_self]
    exact Int.one_pos
  · rw [honly j hj, honly k hk]

/-- The pids of the processes in use are distinct and positive in every state of a run, and
`kfork` returns no other, exactly if each process of the run was created while `nextpid` was
positive and not in use. -/
theorem pids_distinct_iff {acts : List (Act n)} {s : State n}
    (run : Run (Steps initproc) (userinit initproc) acts s) :
    (∀ pre t, pre <+: acts → Run (Steps initproc) (userinit initproc) pre t → Pids t) ↔
      Run (guarded (fun s a => Allocates s a → PidFree s) (Steps initproc)) (userinit initproc)
        acts s := by
  have hdet : ∀ (s : State n) a t u, Steps initproc s a t → Steps initproc s a u → t = u :=
    fun s a t u ht hu => some.inj (ht.symm.trans hu)
  constructor
  · intro h
    induction run with
    | nil => exact .nil
    | snoc run hs ih =>
      refine .snoc (ih fun pre t hpre => h pre t (hpre.trans (prefix_append _ _))) ⟨?_, hs⟩
      intro ha
      exact (h _ _ prefix_rfl (run.snoc hs)).free ha hs
  · intro hguard
    clear run
    induction hguard with
    | nil =>
      intro pre t hpre run
      obtain rfl := prefix_nil.mp hpre
      rw [run.eq_of_nil]
      exact .userinit initproc
    | @snoc ls u a v hguard hs ih =>
      intro pre t hpre run
      rcases prefix_concat_iff.mp hpre with rfl | hpre
      · have hu := hguard.of_guarded
        obtain rfl := run.unique hdet (hu.snoc hs.2)
        have hf := (sane_run hu).family
        exact (ih _ _ prefix_rfl hu).step hf (sane_run run).family hs.1 hs.2
      · exact ih pre t hpre run

theorem nextpid_step {a : Act n} (hstep : s.step initproc a = some t) :
    t.nextpid = s.nextpid ∨ t.nextpid = (s.nextpid + 1).bmod (2 ^ 32) := by
  obtain ⟨i, sec, hd, -⟩ | rfl := step_cases hstep
  · rw [hd.performed.nextpid]
    cases sec.effect with
    | allocproc k ok => cases ok <;> exact Or.inr rfl
    | _ => exact Or.inl rfl
  · exact Or.inl rfl

structure Counted (k : Nat) (s : State n) : Prop where
  two_le : 2 ≤ s.nextpid
  le : s.nextpid ≤ 2 + k
  below : ∀ j, (s.proc j).state ≠ .unused → (s.proc j).pid < s.nextpid

theorem Counted.pidFree {k : Nat} (h : Counted k s) : PidFree s :=
  ⟨by have := h.two_le; omega, fun j hj => Int.ne_of_lt (h.below j hj)⟩

theorem Counted.step {k : Nat} {a : Act n} (h : Counted k s) (hf : Family initproc s)
    (hk : k + 3 < 2 ^ 31) (hstep : s.step initproc a = some t) : Counted (k + 1) t := by
  have htwo := h.two_le
  have hle := h.le
  have hnext : (s.nextpid + 1).bmod (2 ^ 32) = s.nextpid + 1 :=
    Int.bmod_eq_of_le (by omega) (by omega)
  have hstep' := nextpid_step hstep
  rw [hnext] at hstep'
  refine ⟨by omega, by omega, fun j hj => ?_⟩
  by_cases ha : Allocates s a
  · obtain ⟨m, -, -, hpid, hinc, hother⟩ := ha.step hstep
    rw [hinc, hnext]
    by_cases hjm : j = m
    · rw [hjm, hpid]
      omega
    · rw [hother j hjm] at hj ⊢
      have := h.below j hj
      omega
  · obtain ⟨hused, hpid⟩ := (hf.inUse_step hstep hj).resolve_left fun hleft => ha hleft.1
    have := h.below j hused
    omega

theorem Counted.userinit (initproc : Fin n) : Counted 0 (userinit initproc) := by
  refine ⟨Int.le_refl 2, Int.le_refl 2, fun j hj => ?_⟩
  by_cases hji : j = initproc
  · rw [hji, userinit_self]
    exact Int.lt_add_one_of_le (Int.le_refl 1)
  · rw [userinit_of_ne hji] at hj
    exact absurd rfl hj

theorem pidFree_of_short {acts : List (Act n)} {s : State n}
    (run : Run (Steps initproc) (userinit initproc) acts s) (hshort : acts.length < 2 ^ 31 - 2) :
    Run (guarded (fun s a => Allocates s a → PidFree s) (Steps initproc)) (userinit initproc)
        acts s ∧ Counted acts.length s := by
  induction run with
  | nil => exact ⟨.nil, .userinit initproc⟩
  | snoc run hs ih =>
    rw [length_append, length_singleton] at hshort ⊢
    obtain ⟨hguard, hcount⟩ := ih (by omega)
    have hf := (sane_run run).family
    exact ⟨.snoc hguard ⟨fun _ => hcount.pidFree, hs⟩, hcount.step hf (by omega) hs⟩

/-- A child is created in a run of five steps. -/
theorem pids_distinct_fork : ∃ s, Run (Steps (0 : Fin 64)) (userinit 0)
      [.schedule 0, .call 0 .kfork, .run 0 .ok, .run 0 .ok, .run 0 .ok] s ∧
    s.kforkPid 0 = some 2 ∧ Pids s := by
  refine Run.exists_exec (p := fun s => s.kforkPid 0 = some 2) (by decide +kernel) ?_
  intro s run hret
  have hguard := (pidFree_of_short run (by decide)).1
  exact ⟨hret, (pids_distinct_iff run).mpr hguard _ s prefix_rfl run⟩

structure Spinning (p : Int) (s : State 64) : Prop where
  panic : s.panic = none
  state : (s.proc 0).state = .running
  pid : (s.proc 0).pid = 1
  pc : s.pc 0 = .user
  free : (s.proc 1).state = .unused
  nextpid : s.nextpid = p

theorem step_run {c : Choice n} {e : Effect n} {pc : Pc n} (hpanic : s.panic = none)
    (hrun : (s.proc i).state = .running) (hnext : s.next initproc i c = some ⟨e, .keep, pc⟩) :
    s.step initproc (.run i c) = some ((s.apply i e).goto i pc) := by
  rw [State.step, if_pos ⟨hpanic, hrun⟩, hnext]
  rfl

theorem skip_goto (s : State n) (i : Fin n) (pc : Pc n) :
    (s.apply i .skip).goto i pc = { s with pc := update s.pc i pc } := by
  simp [State.apply, State.goto, Effect.slot, Effect.event]

namespace Spinning

variable {p : Int} {s : State 64}

theorem kfork (h : Spinning p s) : ∃ t, Run (Steps 0) s [.call 0 .kfork, .run 0 .ok] t ∧
    t.panic = none ∧ t.proc = s.proc ∧ t.nextpid = p ∧ t.pc 0 = .allocproc 1 ∧
    (t.proc 0).state = .running ∧ (t.proc 1).state = .unused := by
  have hcall : s.step 0 (.call 0 .kfork) =
      some { s with pc := update s.pc 0 (.allocproc 0) } := by
    rw [← skip_goto]
    simp [State.step, h.panic, h.state, h.pc]
    rfl
  have hnext : ({ s with pc := update s.pc 0 (.allocproc 0) } : State 64).next 0 0 .ok =
      some ⟨.skip, .keep, .allocproc 1⟩ := by
    simp [State.next, State.allocprocAt, h.state]
  refine ⟨_, .snoc (.snoc .nil hcall) (step_run ?_ ?_ hnext), ?_⟩
  · exact h.panic
  · exact h.state
  · simp [skip_goto, h.panic, h.nextpid, h.state, h.free]

theorem fail (h : Spinning p s) :
    ∃ acts t, Run (Steps 0) s acts t ∧ Spinning ((p + 1).bmod (2 ^ 32)) t := by
  obtain ⟨t, run, hpanic, hproc, hpid, hpc, hstate, hfree⟩ := h.kfork
  have hnext : t.next 0 0 .fail = some ⟨.allocproc 1 false, .keep, .user⟩ :=
    next_allocproc_fail (k := 1) hpc hfree (by simp)
  refine ⟨_, _, run.snoc (step_run hpanic hstate hnext), ?_⟩
  constructor <;> simp [State.apply, State.goto, Effect.slot, Effect.change, Proc.free, hpanic,
    hpid, hproc, h.state, h.pid]

theorem created (h : Spinning p s) (hp : p.bmod (2 ^ 32) = p) (k : Nat) :
    ∃ acts t, Run (Steps 0) s acts t ∧ t.kforkPid 0 = some ((p + k).bmod (2 ^ 32)) ∧
      (t.proc 0).state ≠ .unused ∧ (t.proc 0).pid = 1 ∧ (t.proc 1).state ≠ .unused ∧
      (t.proc 1).pid = (p + k).bmod (2 ^ 32) := by
  induction k generalizing p s with
  | zero =>
    obtain ⟨t, run, hpanic, hproc, hpid, hpc, hstate, hfree⟩ := h.kfork
    have hnext : t.next 0 0 .ok = some ⟨.allocproc 1 true, .keep, .kforkParent 1⟩ :=
      next_allocproc (k := 1) hpc hfree
    refine ⟨_, _, run.snoc (step_run hpanic hstate hnext), ?_⟩
    rw [Int.natCast_zero, Int.add_zero, hp]
    simp [State.kforkPid, Pc.child, State.apply, State.goto, Effect.slot, Effect.change, hpid,
      hproc, h.state, h.pid]
  | succ k ih =>
    obtain ⟨acts, t, run, hnext⟩ := h.fail
    obtain ⟨acts', u, run', hu⟩ := ih hnext (Int.bmod_bmod ..)
    have hsum : p + 1 + k = p + (k + 1 : Nat) := by omega
    rw [Int.bmod_add_bmod, hsum] at hu
    exact ⟨acts ++ acts', u, run.append run', hu⟩

end Spinning

theorem userinit_spinning : ∃ t, Run (Steps (0 : Fin 64)) (userinit 0) [.schedule 0] t ∧
    Spinning 2 t := by
  refine ⟨_, .snoc .nil rfl, ?_⟩
  constructor <;> rfl

/-- After `2 ^ 31 - 2` calls of `allocpid`, `kfork` returns a negative pid. Later it returns -1,
and then the pid of init. -/
theorem pid_overflow :
    (∃ acts s, Run (Steps (0 : Fin 64)) (userinit 0) acts s ∧
      s.kforkPid 0 = some (-2 ^ 31) ∧ ¬Pids s) ∧
    (∃ acts s, Run (Steps (0 : Fin 64)) (userinit 0) acts s ∧ s.kforkPid 0 = some (-1)) ∧
    ∃ acts s, Run (Steps (0 : Fin 64)) (userinit 0) acts s ∧
      (s.proc 0).state ≠ .unused ∧ (s.proc 1).state ≠ .unused ∧
      (s.proc 0).pid = (s.proc 1).pid := by
  obtain ⟨t, run, h⟩ := userinit_spinning
  have hreach := h.created (by decide)
  refine ⟨?_, ?_, ?_⟩
  · obtain ⟨acts, s, run', hret, -⟩ := hreach (2 ^ 31 - 2)
    refine ⟨_, s, run.append run', hret, fun hpids => ?_⟩
    exact absurd (hpids.returned 0 _ hret) (by decide)
  · obtain ⟨acts, s, run', hret, -⟩ := hreach (2 ^ 32 - 3)
    exact ⟨_, s, run.append run', hret⟩
  · obtain ⟨acts, s, run', -, hinit, hpid, hnew, hpid'⟩ := hreach (2 ^ 32 - 1)
    exact ⟨_, s, run.append run', hinit, hnew, hpid.trans hpid'.symm⟩

end EafitOs.Process
