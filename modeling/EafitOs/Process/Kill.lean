import EafitOs.Process.History

/-!
# Kills

`kkill` compares pids without looking at the state of a slot, a free slot has pid 0, and
`allocproc` does not clear the killed flag. A kill with another pid reaches only processes that
were created before it. A process that is about to sleep in a loop has tested its flag, and a
kill that comes after the test and before the sleep is slept through.
-/

namespace EafitOs.Process

open Foundation Function List Option

variable {n : Nat} {initproc i : Fin n} {s t : State n} {sec : Section n}

/-- The killed flag of a slot comes from a kill of the process in it, after its creation. -/
def KilledSince (log : List Event) (uid : Nat) (pid : Int) : Prop :=
  ∃ before after, log = before ++ .created uid pid :: after ∧
    (.killed pid ∈ after ∨ .setkilled uid ∈ after)

theorem KilledSince.append {log : List Event} {uid : Nat} {pid : Int}
    (h : KilledSince log uid pid) (es : List Event) : KilledSince (log ++ es) uid pid := by
  obtain ⟨before, after, rfl, hmem⟩ := h
  refine ⟨before, after ++ es, by rw [append_assoc, cons_append], ?_⟩
  exact hmem.imp (mem_append_left es) (mem_append_left es)

theorem KilledSince.of_mem {log : List Event} {uid : Nat} {pid : Int} {e : Event}
    (hmem : .created uid pid ∈ log) (he : e = .killed pid ∨ e = .setkilled uid) :
    KilledSince (log ++ [e]) uid pid := by
  obtain ⟨before, after, rfl⟩ := append_of_mem hmem
  refine ⟨before, after ++ [e], by rw [append_assoc, cons_append], ?_⟩
  obtain rfl | rfl := he
  · exact .inl (mem_append_right after (mem_singleton_self _))
  · exact .inr (mem_append_right after (mem_singleton_self _))

/-- A call of `kkill` with pid 0, which no process has. -/
def Act.killsZero : Act n → Bool
  | .call _ (.kkill pid) => pid = 0
  | _ => false

/-- Every call of `kkill` names a pid other than 0. -/
abbrev NonzeroPid (_ : State n) (a : Act n) : Prop :=
  a.killsZero = false

structure Aimed (s : State n) : Prop where
  pid : ∀ i pid j, s.pc i = .kkill pid j → pid ≠ 0
  free : ∀ k, (s.proc k).state = .unused → (s.proc k).pid = 0
  killed : ∀ k, (s.proc k).killed = true →
    (s.proc k).state ≠ .unused ∧ KilledSince s.log (s.uid k) (s.proc k).pid

theorem killed_step (hd : Does initproc s i sec t) {k : Fin n} (hk : (t.proc k).killed = true) :
    (s.proc k).killed = true ∧ sec.effect ≠ .reap k ∨ sec.effect = .kill k ∨ k = i ∧ sec.effect =
      .setkilled := by
  rw [hd.performed.proc] at hk
  cases heff : sec.effect <;> grind

theorem pc_kkill {c : Choice n} {pid : Int} {j : Nat} (hnext : s.next initproc i c = some sec)
    (h : sec.pc = .kkill pid j) : ∃ j, s.pc i = .kkill pid j := by
  cases takes_next hnext with
  | call _ huser _ => simp [State.next, huser] at hnext
  | killNext pid' j' hpc =>
    obtain ⟨rfl, _⟩ := Pc.kkill.inj h
    exact ⟨j', hpc⟩
  | loop l _ hsec => cases hsec <;> cases h
  | held l _ hsec => cases hsec <;> cases h
  | wakeupDone chan j' next _ _ => cases next <;> cases h
  | reacquire next _ => cases next <;> cases h
  | schedule _ =>
    cases hpc : s.pc i <;> rw [hpc] at h <;> cases h
    exact ⟨j, rfl⟩
  | yield _ => exact ⟨j, h⟩
  | _ => cases h

theorem kkill_called {a : Act n} {pid : Int} {j : Nat} (hstep : s.step initproc a = some t)
    (h : t.pc i = .kkill pid j) :
    (∃ j, s.pc i = .kkill pid j) ∨ a = .call i (.kkill pid) := by
  have hperform {i' : Fin n} {sec : Section n} (hp : s.perform i' sec = some t) :
      (∃ j, s.pc i = .kkill pid j) ∨ i = i' ∧ sec.pc = .kkill pid j := by
    rw [(performed hp).pc, update_apply] at h
    split at h
    · exact .inr ⟨‹_›, h⟩
    · exact .inl ⟨j, h⟩
  cases a with
  | call i' c =>
    obtain ⟨_, huser, ⟨hp, _⟩ | rfl⟩ := call_cases hstep
    · obtain hold | ⟨rfl, hpc⟩ := hperform hp
      · exact .inl hold
      · cases c <;> cases hpc
        exact .inr rfl
    · exact .inl ⟨j, h⟩
  | run i' c =>
    obtain ⟨_, hstep⟩ := ite_none_right_eq_some.mp hstep
    obtain ⟨sec, hsec, hstep⟩ := bind_eq_some_iff.mp hstep
    obtain hold | ⟨rfl, hpc⟩ := hperform hstep
    · exact .inl hold
    · exact .inl (pc_kkill hsec hpc)
  | schedule i' =>
    obtain ⟨_, hstep⟩ := ite_none_right_eq_some.mp hstep
    obtain hold | ⟨rfl, hpc⟩ := hperform hstep
    · exact .inl hold
    · refine .inl ⟨j, ?_⟩
      cases hp : s.pc i <;> rw [hp] at hpc <;> first | exact hpc | cases hpc
  | yield i' =>
    obtain ⟨_, hstep⟩ := ite_none_right_eq_some.mp hstep
    obtain hold | ⟨rfl, hpc⟩ := hperform hstep
    · exact .inl hold
    · exact .inl ⟨j, hpc⟩

namespace Aimed

theorem free_step (h : Aimed s) (hd : Does initproc s i sec t) (k : Fin n)
    (hk : (t.proc k).state = .unused) : (t.proc k).pid = 0 := by
  have hfrom := hd.takes.from
  have hfree := h.free k
  rw [hd.performed.proc] at hk ⊢
  cases heff : sec.effect <;> grind

theorem unused_step (hd : Does initproc s i sec t) {k : Fin n}
    (hk : (t.proc k).state = .unused) : (s.proc k).state = .unused ∨ sec.effect = .reap k := by
  have hfrom := hd.takes.from
  rw [hd.performed.proc] at hk
  cases heff : sec.effect <;> grind

theorem killed_of_does (h : Aimed s) (hs : Sane initproc s) (hd : Does initproc s i sec t)
    (k : Fin n) (hk : (t.proc k).killed = true) :
    (t.proc k).state ≠ .unused ∧ KilledSince t.log (t.uid k) (t.proc k).pid := by
  have hfrom := hd.takes.from
  -- the process in the slot is the one that was there before
  have hsame (hused : (s.proc k).state ≠ .unused) (hreap : sec.effect ≠ .reap k) :
      (t.proc k).state ≠ .unused ∧ t.uid k = s.uid k ∧ (t.proc k).pid = (s.proc k).pid := by
    have ht : (t.proc k).state ≠ .unused := fun ht => (unused_step hd ht).elim hused hreap
    obtain ⟨heff, _⟩ | ⟨_, huid, hpid⟩ := hs.family.inUse hd ht
    · rw [heff] at hfrom
      exact absurd hfrom.2.1 hused
    · exact ⟨ht, huid, hpid⟩
  rw [hd.performed.log]
  obtain ⟨hold, hreap⟩ | heff | ⟨rfl, heff⟩ := killed_step hd hk
  · obtain ⟨hused, hsince⟩ := h.killed k hold
    obtain ⟨ht, huid, hpid⟩ := hsame hused hreap
    rw [huid, hpid]
    exact ⟨ht, hsince.append _⟩
  · rw [heff] at hfrom
    have hused : (s.proc k).state ≠ .unused := fun hu => h.pid i _ _ hfrom.1 (h.free k hu)
    obtain ⟨ht, huid, hpid⟩ := hsame hused (by rw [heff]; nofun)
    rw [huid, hpid, heff]
    exact ⟨ht, .of_mem (hs.history.created k hused) (.inl rfl)⟩
  · have hused : (s.proc k).state ≠ .unused := by
      obtain hrun | hsched := hd.runs
      · rw [hrun]
        nofun
      · cases heff.symm.trans hsched
    obtain ⟨ht, huid, hpid⟩ := hsame hused (by rw [heff]; nofun)
    rw [huid, hpid, heff]
    exact ⟨ht, .of_mem (hs.history.created k hused) (.inr rfl)⟩

protected theorem step {a : Act n} (h : Aimed s) (hs : Sane initproc s) (ha : NonzeroPid s a)
    (hstep : s.step initproc a = some t) : Aimed t := by
  have hpid : ∀ i pid j, t.pc i = .kkill pid j → pid ≠ 0 := by
    intro i pid j hpc
    obtain ⟨j', hold⟩ | hcall := kkill_called hstep hpc
    · exact h.pid i pid j' hold
    · rw [hcall] at ha
      exact of_decide_eq_false ha
  obtain ⟨i, sec, hd, _⟩ | rfl := step_cases hstep
  · exact ⟨hpid, h.free_step hd, h.killed_of_does hs hd⟩
  · exact ⟨hpid, h.free, h.killed⟩

protected theorem userinit (initproc : Fin n) : Aimed (userinit initproc) := by
  have hkilled : ∀ k, ((userinit initproc).proc k).killed = false := by
    intro k
    by_cases hk : k = initproc
    · rw [hk, userinit_self]
      rfl
    · rw [userinit_of_ne hk]
      rfl
  refine ⟨nofun, ?_, ?_⟩
  · intro k hk
    by_cases hinit : k = initproc
    · rw [hinit, userinit_self] at hk
      cases hk
    · rw [userinit_of_ne hinit]
      rfl
  · intro k hk
    cases hk.symm.trans (hkilled k)

end Aimed

/-- Only a kill aimed at a process kills it, as long as nobody kills pid 0: a flag that is set
belongs to a process, and after the creation of that process there was a kill of its pid or a trap
of its own. A process is created with the flag clear, and a step that sets the flag of a slot is
such a kill or trap. -/
theorem kill_is_aimed (initproc : Fin n) {acts : List (Act n)} {s : State n}
    (run : Run (guarded NonzeroPid (Steps initproc)) (userinit initproc) acts s) :
    (∀ k, (s.proc k).killed = true →
        (s.proc k).state ≠ .unused ∧ KilledSince s.log (s.uid k) (s.proc k).pid) ∧
      ∀ a t, NonzeroPid s a → s.step initproc a = some t → ∀ k,
        ((s.proc k).state = .unused → (t.proc k).state ≠ .unused → (t.proc k).killed = false) ∧
        ((s.proc k).killed = false → (t.proc k).killed = true →
          t.log = s.log ++ [.killed (s.proc k).pid] ∨ t.log = s.log ++ [.setkilled (s.uid k)]) := by
  have h : Sane initproc s ∧ Aimed s := by
    refine run.invariant (fun s => Sane initproc s ∧ Aimed s) ?_ ?_
    · exact ⟨⟨.userinit initproc, .userinit initproc, .userinit initproc⟩, .userinit initproc⟩
    · rintro t a u ⟨hs, ha⟩ ⟨hgood, hstep⟩
      exact ⟨hs.step hstep, ha.step hs hgood hstep⟩
  obtain ⟨hs, haimed⟩ := h
  refine ⟨haimed.killed, fun a t hgood hstep k => ?_⟩
  obtain ⟨i, sec, hd, _⟩ | rfl := step_cases hstep
  · refine ⟨fun hunused hused => Bool.eq_false_iff.mpr fun hk => ?_, fun hclear hk => ?_⟩
    · obtain ⟨hold, _⟩ | heff | ⟨rfl, heff⟩ := killed_step hd hk
      · exact (haimed.killed k hold).1 hunused
      · have hfrom := hd.takes.from
        rw [heff] at hfrom
        exact haimed.pid i _ _ hfrom.1 (haimed.free k hunused)
      · obtain hrun | hsched := hd.runs
        · cases hunused.symm.trans hrun
        · cases heff.symm.trans hsched
    · rw [hd.performed.log]
      obtain ⟨hold, _⟩ | heff | ⟨rfl, heff⟩ := killed_step hd hk
      · cases hclear.symm.trans hold
      · exact .inl (by rw [heff]; rfl)
      · exact .inr (by rw [heff]; rfl)
  · exact ⟨fun hk hk' => absurd hk hk', fun hk hk' => by cases hk.symm.trans hk'⟩

/-- The calls and the choices of `init` forking a child, with two slots. -/
def initForks : List (Act 2) :=
  [.call 0 .kfork, .run 0 .ok, .run 0 .ok, .run 0 .ok, .run 0 .ok]

/-- A child that is killed by its pid. -/
theorem kill_is_aimed_child : ∃ s, Run (guarded NonzeroPid (Steps (0 : Fin 2))) (userinit 0)
      ([.schedule 0] ++ initForks ++ [.call 0 (.kkill 2), .run 0 .ok, .run 0 .ok]) s ∧
    (s.proc 1).killed = true ∧ KilledSince s.log (s.uid 1) (s.proc 1).pid := by
  refine Run.exists_checked (p := fun s => (s.proc 1).killed = true) (by decide +kernel) ?_
  exact fun s run hkilled => ⟨hkilled, ((kill_is_aimed 0 run).1 1 hkilled).2⟩

/-- Without the condition: `kill(0)` marks a free slot, and the child that is forked into the slot
afterwards is killed although nobody killed it. -/
theorem kill_zero_hits_child : ∃ s, Run (Steps (0 : Fin 2)) (userinit 0)
      ([.schedule 0, .call 0 (.kkill 0), .run 0 .ok, .run 0 .ok] ++ initForks) s ∧
    (s.proc 1).state = .runnable ∧ (s.proc 1).pid = 2 ∧ (s.proc 1).killed = true ∧
    s.log = [.created 0 1, .killed 0, .created 1 2] := by
  exact Run.exists_exec (by decide +kernel) fun _ _ => id

/-- The code that goes back to a loop that tests the flag. -/
def Resume.tests : Resume → Bool
  | .kwait _ | .loop _ => true
  | .held _ => false

/-- A process that has tested its flag in a loop and is about to sleep. -/
def Pc.window : Pc n → Bool
  | .sleep _ next => next.tests
  | .wakeup _ _ (.pipewrite _) => true
  | _ => false

/-- No kill hits a process between its test and its sleep. -/
def State.timely (s : State n) : Act n → Bool
  | .run i _ =>
    match s.pc i with
    | .kkill pid j =>
      if h : j < n then
        if (s.proc ⟨j, h⟩).pid = pid then !(s.pc ⟨j, h⟩).window else true
      else true
    | _ => true
  | _ => true

abbrev Timely (s : State n) (a : Act n) : Prop :=
  s.timely a = true

structure Heeded (s : State n) : Prop where
  window : ∀ i, (s.pc i).window = true → (s.proc i).killed = false
  asleep : ∀ i chan next, s.pc i = .asleep chan next → next.tests = true →
    (s.proc i).state = .sleeping → (s.proc i).killed = false

theorem window_resumed {pc : Pc n} (h : (State.resumed pc).window = true) :
    pc.window = true := by
  cases pc <;> exact h

theorem window_own (ht : Takes initproc s i sec) (h : sec.pc.window = true) :
    (s.pc i).window = true ∨ (s.proc i).killed = false := by
  cases ht with
  | call c _ _ => cases c <;> cases h
  | waitSleep addr j havekids _ hkilled => exact .inr hkilled
  | loop l _ hsec =>
    cases hsec with
    | sleeps chan _ hkilled => exact .inr hkilled
    | isFull pi _ hkilled => exact .inr hkilled
    | _ => cases h
  | held l _ hsec => cases hsec <;> cases h
  | wakeupDone chan j next hpc _ =>
    rw [hpc]
    cases next with
    | pipewrite pi => exact .inl rfl
    | _ => cases h
  | wakeup chan k next hpc _ =>
    rw [hpc]
    cases next <;> exact .inl h
  | wakeupSelf chan next hpc =>
    rw [hpc]
    cases next <;> exact .inl h
  | reacquire next _ => cases next <;> cases h
  | schedule _ => exact .inl (window_resumed h)
  | yield _ => exact .inl h
  | _ => cases h

theorem window_of_kill {a : Act n} {k : Fin n} (hd : Does initproc s i sec t)
    (ha : a.Labels s i sec) (hgood : Timely s a) (heff : sec.effect = .kill k) :
    (s.pc k).window = false := by
  have hfrom := hd.takes.from
  rw [heff] at hfrom
  obtain ⟨hpc, _⟩ := hfrom
  obtain ⟨c, rfl, huser⟩ | ⟨c, rfl⟩ | ⟨_, hother⟩ | ⟨_, hother⟩ := ha
  · cases huser.symm.trans hpc
  · simpa [Timely, State.timely, hpc] using hgood
  · cases heff.symm.trans hother
  · cases heff.symm.trans hother

namespace Heeded

theorem window_step {a : Act n} (h : Heeded s) (hd : Does initproc s i sec t)
    (ha : a.Labels s i sec) (hgood : Timely s a) (k : Fin n) (hk : (t.pc k).window = true) :
    (t.proc k).killed = false := by
  have hfrom := hd.takes.from
  rw [hd.performed.pc, update_apply] at hk
  have hclear : (s.proc k).killed = false := by
    split at hk
    · subst ‹k = i›
      exact (window_own hd.takes hk).elim (h.window k) id
    · exact h.window k hk
  refine Bool.eq_false_iff.mpr fun hkilled => ?_
  obtain ⟨hold, _⟩ | heff | ⟨rfl, heff⟩ := killed_step hd hkilled
  · cases hclear.symm.trans hold
  · -- the killer itself is back in user code, and the kill does not hit another window
    rw [heff] at hfrom
    split at hk
    · rw [hfrom.2] at hk
      cases hk
    · cases hk.symm.trans (window_of_kill hd ha hgood heff)
  · rw [heff] at hfrom
    rw [if_pos rfl, hfrom.2] at hk
    cases hk

theorem asleep_step (h : Heeded s) (hd : Does initproc s i sec t) (k : Fin n) (chan : Chan n)
    (next : Resume) (hpc : t.pc k = .asleep chan next) (htests : next.tests = true)
    (hk : (t.proc k).state = .sleeping) : (t.proc k).killed = false := by
  have hfrom := hd.takes.from
  have hwindow := h.window k
  have hasleep := h.asleep k chan next
  rw [hd.performed.pc, update_apply] at hpc
  rw [hd.performed.proc] at hk ⊢
  cases heff : sec.effect <;> grind [Pc.window]

protected theorem step {a : Act n} (h : Heeded s) (hgood : Timely s a)
    (hstep : s.step initproc a = some t) : Heeded t := by
  obtain ⟨i, sec, hd, ha⟩ | rfl := step_cases hstep
  · exact ⟨h.window_step hd ha hgood, h.asleep_step hd⟩
  · exact ⟨h.window, h.asleep⟩

protected theorem userinit (initproc : Fin n) : Heeded (userinit initproc) where
  window := fun _ h => by cases h
  asleep := fun _ _ _ h => by cases h

end Heeded

/-- A kill is not slept through, as long as no kill hits a process between the test of its flag and
its sleep: a process that sleeps in `kwait`, `piperead`, `pipewrite`, `consoleread` or `sys_pause`
is not killed. -/
theorem kill_is_heeded (initproc : Fin n) {acts : List (Act n)} {s : State n}
    (run : Run (guarded Timely (Steps initproc)) (userinit initproc) acts s) (k : Fin n)
    (chan : Chan n) (next : Resume) (hpc : s.pc k = .asleep chan next)
    (htests : next.tests = true) (hk : (s.proc k).state = .sleeping) :
    (s.proc k).killed = false := by
  have h : Heeded s := run.invariant Heeded (.userinit initproc) fun _ _ _ h hs => h.step hs.1 hs.2
  exact h.asleep k chan next hpc htests hk

/-- A child that sleeps in `piperead`. -/
theorem kill_is_heeded_reader : ∃ s, Run (guarded Timely (Steps (0 : Fin 2))) (userinit 0)
      ([.schedule 0] ++ initForks ++ [.schedule 1, .call 1 (.loop (.piperead 0)), .run 1 .block,
        .run 1 .ok]) s ∧
    s.pc 1 = .asleep (.nread 0) (.loop (.piperead 0)) ∧ (s.proc 1).state = .sleeping ∧
    (s.proc 1).killed = false := by
  refine Run.exists_checked (p := fun s => s.pc 1 = .asleep (.nread 0) (.loop (.piperead 0)) ∧
    (s.proc 1).state = .sleeping) (by decide +kernel) ?_
  rintro s run ⟨hpc, hstate⟩
  exact ⟨hpc, hstate, kill_is_heeded 0 run 1 _ _ hpc rfl hstate⟩

/-- Without the condition: the child has tested its flag in `piperead`, `kkill` sets the flag and
returns 0, and the child goes to sleep. -/
theorem kill_is_slept_through : ∃ s, Run (Steps (0 : Fin 2)) (userinit 0)
      ([.schedule 0] ++ initForks ++ [.schedule 1, .call 1 (.loop (.piperead 0)), .run 1 .block,
        .call 0 (.kkill 2), .run 0 .ok, .run 0 .ok, .run 1 .ok]) s ∧
    s.log = [.created 0 1, .created 1 2, .killed 2] ∧ s.pc 0 = .user ∧
    (s.proc 1).killed = true ∧ (s.proc 1).state = .sleeping ∧
    s.pc 1 = .asleep (.nread 0) (.loop (.piperead 0)) := by
  exact Run.exists_exec (by decide +kernel) fun _ _ => id

end EafitOs.Process
