import EafitOs.Process.History

/-!
# Wakeups

A `wakeup` notes the sleeps on its channel when it starts. `sleep` takes `p->lock` before it
gives the condition lock up, so every one of these sleeps is marked in the table before the
scan gets to its slot.
-/

namespace EafitOs.Process

open Foundation Option

variable {n : Nat} {initproc i : Fin n} {s t : State n} {sec : Section n}

/-- Whether process `p` has called `sleep` on a channel and not returned from `sched`, as the number
of that sleep. -/
def State.sleepOn (s : State n) (chan : Option (Chan n)) (p : Fin n) : Option Nat :=
  match s.pc p with
  | .sleep c _ => if chan = some c then some (s.naps p + 1) else none
  | .asleep c _ => if chan = some c then some (s.naps p) else none
  | _ => none

/-- The sleeps `sleeps`, each given by its slot and number, that still go on are on the channel and
in slots from position `j` on. -/
def State.Waking (s : State n) (sleeps : Fin n → Option Nat) (chan : Option (Chan n)) (j : Nat) :
    Prop :=
  ∀ p k, sleeps p = some k → k ≤ s.naps p ∧
    (s.naps p = k → (s.proc p).state = .sleeping → (s.proc p).chan = chan ∧ j ≤ p)

theorem naps_step (hp : Performed s i sec t) (p : Fin n) :
    t.naps p = s.naps p ∧ (∀ chan, sec.effect = .sleep chan → p ≠ i) ∨
      t.naps p = s.naps p + 1 ∧ p = i ∧ ∃ chan, sec.effect = .sleep chan := by
  rw [hp.naps]
  cases heff : sec.effect with
  | sleep chan => by_cases hpi : p = i <;> simp [State.apply, hpi]
  | allocproc k ok => cases ok <;> simp [State.apply]
  | _ => simp [State.apply]

theorem sleeping_step (hd : Does initproc s i sec t) {p : Fin n}
    (hp : (t.proc p).state = .sleeping) :
    (s.proc p).state = .sleeping ∧ (t.proc p).chan = (s.proc p).chan ∧
        sec.effect ≠ .wake (s.proc p).chan p ∨
      p = i ∧ ∃ chan, sec.effect = .sleep chan := by
  have hfrom := hd.takes.from
  rw [hd.performed.proc] at hp ⊢
  cases heff : sec.effect <;> grind

theorem State.Waking.perform {sleeps : Fin n → Option Nat} {chan : Option (Chan n)} {j j' : Nat}
    (h : s.Waking sleeps chan j) (hd : Does initproc s i sec t)
    (hnext : ∀ p : Fin n, j ≤ p → (s.proc p).state = .sleeping →
      sec.effect ≠ .wake chan p → j' ≤ p) : t.Waking sleeps chan j' := by
  intro p k hk
  obtain ⟨hle, hchan⟩ := h p k hk
  obtain ⟨hnaps, hother⟩ | ⟨hnaps, _⟩ := naps_step hd.performed p
  · refine ⟨hnaps ▸ hle, fun heq hsleeping => ?_⟩
    obtain ⟨hs, hsame, hwake⟩ | ⟨hpi, chan', heff⟩ := sleeping_step hd hsleeping
    · obtain ⟨hc, hj⟩ := hchan (hnaps ▸ heq) hs
      exact ⟨hsame.trans hc, hnext p hj hs (hc ▸ hwake)⟩
    · exact absurd hpi (hother chan' heff)
  · -- the process has gone to sleep again since
    exact ⟨by omega, by omega⟩

theorem Control.waking {chan : Option (Chan n)} {next : After} (h : Control s)
    (hpc : s.pc i = .wakeup chan 0 next) : s.Waking (s.sleepOn chan) chan 0 := by
  intro p k hk
  rw [State.sleepOn] at hk
  split at hk
  · rename_i c r hp
    obtain ⟨rfl, _⟩ := ite_none_right_eq_some.mp hk
    have hwaker := h.chanOk i
    have hsleeper := h.chanOk p
    rw [hpc] at hwaker
    rw [hp] at hsleeper
    have hi : (s.pc i).holds = some c.lock := by
      rw [hpc]
      exact congrArg some hwaker.symm
    have hsleep : (s.pc p).holds = some c.lock := by
      rw [hp]
      exact congrArg some hsleeper.symm
    obtain rfl := h.exclusive hi hsleep
    cases hpc.symm.trans hp
  · rename_i c r hp
    obtain ⟨rfl, hnaps⟩ := ite_none_right_eq_some.mp hk
    refine ⟨(some.inj hnaps).ge, fun _ hsleeping => ⟨?_, Nat.zero_le _⟩⟩
    obtain ⟨c', r', hp', hc⟩ := h.asleep p hsleeping
    obtain ⟨rfl, _⟩ := Pc.asleep.inj (hp.symm.trans hp')
    exact hc
  · cases hk

theorem wakeup_resumed {pc : Pc n} {chan : Option (Chan n)} {j : Nat} {next : After}
    (h : State.resumed pc = .wakeup chan j next) : pc = .wakeup chan j next := by
  cases pc with
  | asleep => cases h
  | _ => exact h

theorem wakeup_own {chan : Option (Chan n)} {j : Nat} {next : After}
    (ht : Takes initproc s i sec) (h : sec.pc = .wakeup chan j next) (hj : j ≠ 0) :
    s.pc i = .wakeup chan j next ∨ ∃ k : Fin n, j = k + 1 ∧ s.pc i = .wakeup chan k next ∧
      (sec.effect = .wake chan k ∨ sec.effect = .skip ∧ k = i) := by
  cases ht with
  | call c _ _ => cases c <;> cases h
  | loop l _ hsec => cases hsec <;> cases h <;> exact absurd rfl hj
  | held l _ hsec =>
    cases hsec <;> cases h
    exact absurd rfl hj
  | reparent | reparented =>
    cases h
    exact absurd rfl hj
  | wakeupDone chan j next _ _ => cases next <;> cases h
  | reacquire next _ => cases next <;> cases h
  | wakeup chan k next hpc _ =>
    cases h
    exact .inr ⟨k, rfl, hpc, .inl rfl⟩
  | wakeupSelf chan next hpc =>
    cases h
    exact .inr ⟨i, rfl, hpc, .inr ⟨rfl, rfl⟩⟩
  | schedule _ => exact .inl (wakeup_resumed h)
  | yield _ => exact .inl h
  | _ => cases h

/-- The steps during which process `w` stays in its `wakeup`. -/
def InWakeup (initproc w : Fin n) (chan : Option (Chan n)) (next : After) :
    State n → Act n → State n → Prop :=
  fun s a t => s.step initproc a = some t ∧ ∃ j, j ≠ 0 ∧ t.pc w = .wakeup chan j next

theorem State.Waking.step {a : Act n} {sleeps : Fin n → Option Nat} {chan : Option (Chan n)}
    {j j' : Nat} {next : After} {w : Fin n} (hw : s.pc w = .wakeup chan j next)
    (h : s.Waking sleeps chan j) (hstep : s.step initproc a = some t)
    (hw' : t.pc w = .wakeup chan j' next) (hj' : j' ≠ 0) : t.Waking sleeps chan j' := by
  obtain ⟨i, sec, hd, _⟩ | rfl := step_cases hstep
  · rw [hd.performed.pc, Function.update_apply] at hw'
    split at hw'
    · subst ‹w = i›
      obtain hsame | ⟨k, rfl, hpc, heff⟩ := wakeup_own hd.takes hw' hj'
      · obtain ⟨_, rfl, _⟩ := Pc.wakeup.inj (hw.symm.trans hsame)
        exact h.perform hd fun p hj _ _ => hj
      · obtain ⟨_, rfl, _⟩ := Pc.wakeup.inj (hw.symm.trans hpc)
        refine h.perform hd fun p hj hsleeping hwake => ?_
        have hpk : p ≠ k := by
          rintro rfl
          obtain heff | ⟨hskip, rfl⟩ := heff
          · exact hwake heff
          · -- the caller runs
            obtain hrun | hsched := hd.runs
            · cases hsleeping.symm.trans hrun
            · cases hskip.symm.trans hsched
        exact Nat.lt_of_le_of_ne hj fun heq => hpk (Fin.ext heq.symm)
    · obtain ⟨_, rfl, _⟩ := Pc.wakeup.inj (hw.symm.trans hw')
      exact h.perform hd fun p hj _ _ => hj
  · obtain ⟨_, rfl, _⟩ := Pc.wakeup.inj (hw.symm.trans hw')
    exact h

theorem waking_run {acts : List (Act n)} {chan : Option (Chan n)} {next : After} {w : Fin n}
    (hc : Control s) (hw : s.pc w = .wakeup chan 0 next)
    (run : Run (InWakeup initproc w chan next) s acts t) :
    ∃ j, t.pc w = .wakeup chan j next ∧ t.Waking (s.sleepOn chan) chan j := by
  induction run with
  | nil => exact ⟨0, hw, hc.waking hw⟩
  | snoc _ hstep ih =>
    obtain ⟨j, hpc, hwaking⟩ := ih
    obtain ⟨hstep, j', hj', hpc'⟩ := hstep
    exact ⟨j', hpc', hwaking.step hpc hstep hpc' hj'⟩

theorem Family.woken (h : Family initproc s) (hd : Does initproc s i sec t) {p : Fin n}
    (hs : (s.proc p).state = .sleeping) (ht : (t.proc p).state ≠ .sleeping) :
    (t.proc p).state = .runnable ∧
      (sec.effect = .wake (s.proc p).chan p ∨ sec.effect = .kill p) := by
  have hfrom := hd.takes.from
  have hrun := hd.runs
  have hknows := h.knows i
  rw [hd.performed.proc] at ht ⊢
  cases heff : sec.effect <;> grind [Pc.Knows]

/-- No wakeup is lost: while process `w` is in a `wakeup` that it started in the state `s`, and its
scan has come to the end in `t`, none of the sleeps on its channel that were called before is still
going on. A process leaves `SLEEPING` only for `RUNNABLE`, by a `wakeup` of its channel or a
`kkill` of its pid. -/
theorem no_lost_wakeup (initproc : Fin n) {acts : List (Act n)} {s : State n}
    (run : Run (Steps initproc) (userinit initproc) acts s) :
    (∀ w chan next, s.pc w = .wakeup chan 0 next → ∀ acts' t j,
        Run (InWakeup initproc w chan next) s acts' t → t.pc w = .wakeup chan j next → n ≤ j →
        ∀ p k, s.sleepOn chan p = some k →
          ¬((t.proc p).state = .sleeping ∧ t.naps p = k)) ∧
      ∀ a t p, s.step initproc a = some t → (s.proc p).state = .sleeping →
        (t.proc p).state ≠ .sleeping → (t.proc p).state = .runnable ∧
          ∃ i c, a = .run i c ∧ ((∃ next, s.pc i = .wakeup (s.proc p).chan p next) ∨
            s.pc i = .kkill (s.proc p).pid p) := by
  have h := sane_run run
  refine ⟨?_, ?_⟩
  · rintro w chan next hw acts' t j hrun hpc hj p k hk ⟨hsleeping, hnaps⟩
    obtain ⟨j', hpc', hwaking⟩ := waking_run h.control hw hrun
    obtain ⟨_, rfl, _⟩ := Pc.wakeup.inj (hpc.symm.trans hpc')
    have hle := ((hwaking p k hk).2 hnaps hsleeping).2
    omega
  · intro a t p hstep hs ht
    obtain ⟨i, sec, hd, ha⟩ | rfl := step_cases hstep
    · obtain ⟨hrunnable, heff⟩ := h.family.woken hd hs ht
      refine ⟨hrunnable, i, ?_⟩
      have hpc : (∃ next, s.pc i = .wakeup (s.proc p).chan p next) ∨
          s.pc i = .kkill (s.proc p).pid p := by
        have hfrom := hd.takes.from
        obtain heff | heff := heff <;> rw [heff] at hfrom
        · obtain ⟨next, hpc, _⟩ := hfrom
          exact .inl ⟨next, hpc⟩
        · exact .inr hfrom.1
      obtain ⟨c, rfl, huser⟩ | ⟨c, rfl⟩ | ⟨_, hother⟩ | ⟨_, hother⟩ := ha
      · rw [huser] at hpc
        obtain ⟨_, hpc⟩ | hpc := hpc <;> cases hpc
      · exact ⟨c, rfl, hpc⟩
      · obtain heff | heff := heff <;> cases heff.symm.trans hother
      · obtain heff | heff := heff <;> cases heff.symm.trans hother
    · exact absurd hs ht

def writer : Fin 2 := ⟨0, Nat.zero_lt_two⟩

def reader : Fin 2 := ⟨1, Nat.one_lt_two⟩

/-- `init` forks, the child sleeps in `piperead`, and `init` is about to scan the table for it. -/
def readerSleeps : List (Act 2) :=
  [.schedule writer, .call writer .kfork, .run writer .ok, .run writer .ok, .run writer .ok,
    .run writer .ok, .schedule reader, .call reader (.loop (.piperead 0)), .run reader .block,
    .run reader .ok, .call writer (.hold (.pipe 0)), .run writer (.wakeup (.nread 0))]

/-- The child is woken up. -/
theorem no_lost_wakeup_reader : ∃ s t, Run (Steps (0 : Fin 2)) (userinit 0) readerSleeps s ∧
    s.pc 0 = .wakeup (some (.nread 0)) 0 (.held (.pipe 0)) ∧
    s.sleepOn (some (.nread 0)) 1 = some 1 ∧ (s.proc 1).state = .sleeping ∧
    Run (InWakeup 0 0 (some (.nread 0)) (.held (.pipe 0))) s [.run 0 .ok, .run 0 .ok] t ∧
    t.pc 0 = .wakeup (some (.nread 0)) 2 (.held (.pipe 0)) ∧
    ¬((t.proc 1).state = .sleeping ∧ t.naps 1 = 1) := by
  have hfacts : ∃ s ∈ exec (State.step (0 : Fin 2)) (userinit 0) readerSleeps,
      ∃ u ∈ s.step 0 (.run 0 .ok), ∃ t ∈ u.step 0 (.run 0 .ok),
        s.pc 0 = .wakeup (some (.nread 0)) 0 (.held (.pipe 0)) ∧
        s.sleepOn (some (.nread 0)) 1 = some 1 ∧ (s.proc 1).state = .sleeping ∧
        u.pc 0 = .wakeup (some (.nread 0)) 1 (.held (.pipe 0)) ∧
        t.pc 0 = .wakeup (some (.nread 0)) 2 (.held (.pipe 0)) := by
    decide +kernel
  obtain ⟨s, hs, u, hu, t, ht, hpc, hsleep, hsleeping, hpcu, hpct⟩ := hfacts
  have run := Run.of_exec hs
  have hwakeup : Run (InWakeup 0 0 (some (.nread 0)) (.held (.pipe 0))) s
      [.run 0 .ok, .run 0 .ok] t :=
    .cons ⟨hu, 1, by decide, hpcu⟩ (.cons ⟨ht, 2, by decide, hpct⟩ .nil)
  exact ⟨s, t, run, hpc, hsleep, hsleeping, hwakeup, hpct,
    (no_lost_wakeup 0 run).1 0 _ _ hpc _ t 2 hwakeup hpct le_rfl 1 1 hsleep⟩

end EafitOs.Process
