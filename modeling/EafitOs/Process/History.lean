import EafitOs.Process.Family

/-!
# Exits and waits

Processes are numbered in the order of their creation. The history of every run says that a
number is created once, exits at most once and is returned by at most one `kwait`, with the
pid and the status of that process.
-/

namespace EafitOs.Process

open Foundation List Option

variable {n : Nat} {initproc i : Fin n} {s t : State n} {sec : Section n}

namespace Event

def createdUid : Event → Option Nat
  | .created uid _ => some uid
  | _ => none

def exitedUid : Event → Option Nat
  | .exited uid _ => some uid
  | _ => none

def reapedUid : Event → Option Nat
  | .reaped _ child _ _ => some child
  | _ => none

theorem createdUid_eq {e : Event} {uid : Nat} (h : e.createdUid = some uid) :
    ∃ pid, e = .created uid pid := by
  cases e <;> simp_all [createdUid]

theorem exitedUid_eq {e : Event} {uid : Nat} (h : e.exitedUid = some uid) :
    ∃ status, e = .exited uid status := by
  cases e <;> simp_all [exitedUid]

theorem reapedUid_eq {e : Event} {uid : Nat} (h : e.reapedUid = some uid) :
    ∃ parent pid status, e = .reaped parent uid pid status := by
  cases e <;> simp_all [reapedUid]

end Event

theorem uid_step (hp : Performed s i sec t) (k : Fin n) :
    t.uid k = if sec.effect = .allocproc k true then s.nextuid else s.uid k := by
  rw [hp.uid]
  cases heff : sec.effect with
  | allocproc j ok => cases ok <;> simp [State.apply, Function.update_apply, eq_comm]
  | _ => simp [State.apply]

theorem nextuid_step (hp : Performed s i sec t) :
    t.nextuid = s.nextuid ∧ (∀ k, sec.effect ≠ .allocproc k true) ∨
      t.nextuid = s.nextuid + 1 ∧ ∃ k, sec.effect = .allocproc k true := by
  rw [hp.nextuid]
  cases heff : sec.effect with
  | allocproc j ok => cases ok <;> simp [State.apply]
  | _ => simp [State.apply]

structure History (s : State n) : Prop where
  uid_lt : ∀ k, (s.proc k).state ≠ .unused → s.uid k < s.nextuid
  uid_inj : ∀ j k, (s.proc j).state ≠ .unused → (s.proc k).state ≠ .unused →
    s.uid j = s.uid k → j = k
  created : ∀ k, (s.proc k).state ≠ .unused → .created (s.uid k) (s.proc k).pid ∈ s.log
  created_lt : ∀ uid pid, .created uid pid ∈ s.log → uid < s.nextuid
  zombie : ∀ k, (s.proc k).state = .zombie → .exited (s.uid k) (s.proc k).xstate ∈ s.log
  exited : ∀ uid status, .exited uid status ∈ s.log →
    uid < s.nextuid ∧ ∀ k, (s.proc k).state ≠ .unused → s.uid k = uid → (s.proc k).state = .zombie
  reaped : ∀ parent uid pid status, .reaped parent uid pid status ∈ s.log →
    .created uid pid ∈ s.log ∧ .exited uid status ∈ s.log ∧
      ∀ k, (s.proc k).state ≠ .unused → s.uid k ≠ uid
  created_once : (s.log.filterMap Event.createdUid).Nodup
  exited_once : (s.log.filterMap Event.exitedUid).Nodup
  reaped_once : (s.log.filterMap Event.reapedUid).Nodup

section

variable (h : Family initproc s) (hd : Does initproc s i sec t)
include h hd

theorem Family.inUse {k : Fin n} (hk : (t.proc k).state ≠ .unused) :
    sec.effect = .allocproc k true ∧ t.uid k = s.nextuid ∧ (t.proc k).pid = s.nextpid ∨
      (s.proc k).state ≠ .unused ∧ t.uid k = s.uid k ∧ (t.proc k).pid = (s.proc k).pid := by
  have hfrom := hd.takes.from
  have hrun := hd.runs
  have hknows := h.knows i
  rw [uid_step hd.performed]
  rw [hd.performed.proc] at hk ⊢
  cases heff : sec.effect <;> grind [Pc.Knows]

theorem Family.zombie_iff {k : Fin n} (hk : (t.proc k).state ≠ .unused) :
    (t.proc k).state = .zombie ↔
      (s.proc k).state = .zombie ∨ k = i ∧ ∃ status, sec.effect = .exit status := by
  have hfrom := hd.takes.from
  have hrun := hd.runs
  have hknows := h.knows i
  rw [hd.performed.proc] at hk ⊢
  cases heff : sec.effect <;> grind [Pc.Knows]

theorem Family.xstate_eq {k : Fin n} (hk : (t.proc k).state = .zombie) :
    (s.proc k).state = .zombie ∧ (t.proc k).xstate = (s.proc k).xstate ∨
      k = i ∧ sec.effect = .exit (t.proc k).xstate := by
  have hfrom := hd.takes.from
  have hrun := hd.runs
  have hknows := h.knows i
  rw [hd.performed.proc] at hk ⊢
  cases heff : sec.effect <;> grind [Pc.Knows]

end

theorem event_created {e : Effect n} {uid : Nat} {pid : Int}
    (h : e.event s i = some (.created uid pid)) :
    ∃ k, e = .allocproc k true ∧ uid = s.nextuid := by
  cases e with
  | allocproc k ok => cases ok <;> simp_all [Effect.event]
  | _ => simp [Effect.event] at h

theorem event_exited {e : Effect n} {uid : Nat} {status : Int}
    (h : e.event s i = some (.exited uid status)) : e = .exit status ∧ uid = s.uid i := by
  cases e with
  | allocproc k ok => cases ok <;> simp [Effect.event] at h
  | _ => simp_all [Effect.event]

theorem event_reaped {e : Effect n} {parent uid : Nat} {pid status : Int}
    (h : e.event s i = some (.reaped parent uid pid status)) :
    ∃ k, e = .reap k ∧ parent = s.uid i ∧ uid = s.uid k ∧ pid = (s.proc k).pid ∧
      status = (s.proc k).xstate := by
  cases e with
  | allocproc k ok => cases ok <;> simp [Effect.event] at h
  | _ => simp_all [Effect.event]

theorem mem_log (hp : Performed s i sec t) {e : Event} :
    e ∈ t.log ↔ e ∈ s.log ∨ sec.effect.event s i = some e := by
  rw [hp.log, mem_append, mem_toList]

theorem nextuid_le (hp : Performed s i sec t) : s.nextuid ≤ t.nextuid := by
  obtain ⟨heq, _⟩ | ⟨heq, _⟩ := nextuid_step hp <;> omega

theorem nodup_log (hp : Performed s i sec t) {f : Event → Option Nat}
    (h : (s.log.filterMap f).Nodup)
    (hnew : ∀ e uid, sec.effect.event s i = some e → f e = some uid →
      ∀ e' ∈ s.log, f e' ≠ some uid) : (t.log.filterMap f).Nodup := by
  rw [hp.log, filterMap_append, nodup_append]
  refine ⟨h, ?_, ?_⟩
  · cases sec.effect.event s i with
    | none => simp
    | some e => cases hf : f e <;> simp [hf]
  · intro uid hold uid' hnewer heq
    obtain ⟨e', he', hf'⟩ := mem_filterMap.mp hold
    obtain ⟨e, he, hf⟩ := mem_filterMap.mp hnewer
    exact hnew e uid' (mem_toList.mp he) hf e' he' (heq ▸ hf')

namespace History

theorem uid_lt_step (h : History s) (hf : Family initproc s) (hd : Does initproc s i sec t)
    (k : Fin n) (hk : (t.proc k).state ≠ .unused) : t.uid k < t.nextuid := by
  obtain ⟨heff, huid, _⟩ | ⟨hs, huid, _⟩ := hf.inUse hd hk
  · obtain ⟨_, hnone⟩ | ⟨hnext, _⟩ := nextuid_step hd.performed
    · exact absurd heff (hnone k)
    · omega
  · rw [huid]
    exact (h.uid_lt k hs).trans_le (nextuid_le hd.performed)

theorem uid_inj_step (h : History s) (hf : Family initproc s) (hd : Does initproc s i sec t)
    (j k : Fin n) (hj : (t.proc j).state ≠ .unused) (hk : (t.proc k).state ≠ .unused)
    (heq : t.uid j = t.uid k) : j = k := by
  obtain ⟨hej, huj, _⟩ | ⟨hsj, huj, _⟩ := hf.inUse hd hj <;>
    obtain ⟨hek, huk, _⟩ | ⟨hsk, huk, _⟩ := hf.inUse hd hk
  · rw [hej] at hek
    cases hek
    rfl
  · have := h.uid_lt k hsk
    omega
  · have := h.uid_lt j hsj
    omega
  · exact h.uid_inj j k hsj hsk (huj ▸ huk ▸ heq)

theorem created_step (h : History s) (hf : Family initproc s) (hd : Does initproc s i sec t)
    (k : Fin n) (hk : (t.proc k).state ≠ .unused) :
    .created (t.uid k) (t.proc k).pid ∈ t.log := by
  rw [mem_log hd.performed]
  obtain ⟨heff, huid, hpid⟩ | ⟨hs, huid, hpid⟩ := hf.inUse hd hk <;> rw [huid, hpid]
  · exact .inr (by rw [heff]; rfl)
  · exact .inl (h.created k hs)

theorem created_lt_step (h : History s) (hd : Does initproc s i sec t) (uid : Nat) (pid : Int)
    (hmem : .created uid pid ∈ t.log) : uid < t.nextuid := by
  obtain hold | hnew := (mem_log hd.performed).mp hmem
  · exact (h.created_lt uid pid hold).trans_le (nextuid_le hd.performed)
  · obtain ⟨k, heff, huid⟩ := event_created hnew
    obtain ⟨_, hnone⟩ | ⟨hnext, _⟩ := nextuid_step hd.performed
    · exact absurd heff (hnone k)
    · omega

theorem zombie_step (h : History s) (hf : Family initproc s) (hd : Does initproc s i sec t)
    (k : Fin n) (hk : (t.proc k).state = .zombie) :
    .exited (t.uid k) (t.proc k).xstate ∈ t.log := by
  have huid : sec.effect ≠ .allocproc k true → t.uid k = s.uid k := by
    intro hne
    rw [uid_step hd.performed, if_neg hne]
  rw [mem_log hd.performed]
  obtain ⟨hs, hx⟩ | ⟨rfl, heff⟩ := hf.xstate_eq hd hk
  · left
    have hne : sec.effect ≠ .allocproc k true := by
      intro heff
      have hfrom := hd.takes.from
      rw [heff] at hfrom
      cases hs.symm.trans hfrom.2.1
    rw [huid hne, hx]
    exact h.zombie k hs
  · right
    rw [huid (by rw [heff]; nofun), heff]
    rfl

theorem running_of_exit (hd : Does initproc s i sec t) {status : Int}
    (heff : sec.effect = .exit status) : (s.proc i).state = .running := by
  obtain hrun | hsched := hd.runs
  · exact hrun
  · cases heff.symm.trans hsched

section

variable (h : History s)
include h

theorem exited_step (hf : Family initproc s) (hd : Does initproc s i sec t)
    (uid : Nat) (status : Int) (hmem : .exited uid status ∈ t.log) :
    uid < t.nextuid ∧
      ∀ k, (t.proc k).state ≠ .unused → t.uid k = uid → (t.proc k).state = .zombie := by
  obtain hold | hnew := (mem_log hd.performed).mp hmem
  · obtain ⟨hlt, hzombie⟩ := h.exited uid status hold
    refine ⟨hlt.trans_le (nextuid_le hd.performed), fun k hk huid => ?_⟩
    rw [hf.zombie_iff hd hk]
    obtain ⟨_, hfresh, _⟩ | ⟨hs, hsame, _⟩ := hf.inUse hd hk
    · omega
    · exact .inl (hzombie k hs (hsame ▸ huid))
  · obtain ⟨heff, rfl⟩ := event_exited hnew
    have hrun := running_of_exit hd heff
    have hi : (s.proc i).state ≠ .unused := by rw [hrun]; nofun
    refine ⟨(h.uid_lt i hi).trans_le (nextuid_le hd.performed), fun k hk huid => ?_⟩
    rw [hf.zombie_iff hd hk]
    obtain ⟨heff', _, _⟩ | ⟨hs, hsame, _⟩ := hf.inUse hd hk
    · cases heff.symm.trans heff'
    · exact .inr ⟨h.uid_inj k i hs hi (hsame ▸ huid), status, heff⟩

theorem reaped_step (hf : Family initproc s) (hd : Does initproc s i sec t)
    (parent uid : Nat) (pid status : Int) (hmem : .reaped parent uid pid status ∈ t.log) :
    .created uid pid ∈ t.log ∧ .exited uid status ∈ t.log ∧
      ∀ k, (t.proc k).state ≠ .unused → t.uid k ≠ uid := by
  have hlog {e : Event} (he : e ∈ s.log) : e ∈ t.log := (mem_log hd.performed).mpr (.inl he)
  obtain hold | hnew := (mem_log hd.performed).mp hmem
  · obtain ⟨hcreated, hexited, hgone⟩ := h.reaped parent uid pid status hold
    refine ⟨hlog hcreated, hlog hexited, fun k hk => ?_⟩
    obtain ⟨_, hfresh, _⟩ | ⟨hs, hsame, _⟩ := hf.inUse hd hk
    · have := h.created_lt uid pid hcreated
      omega
    · rw [hsame]
      exact hgone k hs
  · obtain ⟨j, heff, _, rfl, rfl, rfl⟩ := event_reaped hnew
    have hfrom := hd.takes.from
    rw [heff] at hfrom
    obtain ⟨_, _, _, _, hzombie, _⟩ := hfrom
    have hj : (s.proc j).state ≠ .unused := by rw [hzombie]; nofun
    refine ⟨hlog (h.created j hj), hlog (h.zombie j hzombie), fun k hk huid => ?_⟩
    obtain ⟨heff', _, _⟩ | ⟨hs, hsame, _⟩ := hf.inUse hd hk
    · cases heff.symm.trans heff'
    · obtain rfl := h.uid_inj k j hs hj (hsame ▸ huid)
      -- the slot of the process that is returned is free
      rw [hd.performed.proc, heff] at hk
      exact hk (by simp [Effect.slot, Effect.change, Proc.free])

theorem created_once_step (hd : Does initproc s i sec t) :
    (t.log.filterMap Event.createdUid).Nodup := by
  refine nodup_log hd.performed h.created_once fun e uid hnew he e' hold he' => ?_
  obtain ⟨pid, rfl⟩ := Event.createdUid_eq he
  obtain ⟨pid', rfl⟩ := Event.createdUid_eq he'
  obtain ⟨_, _, huid⟩ := event_created hnew
  have := h.created_lt uid pid' hold
  omega

theorem exited_once_step (hd : Does initproc s i sec t) :
    (t.log.filterMap Event.exitedUid).Nodup := by
  refine nodup_log hd.performed h.exited_once fun e uid hnew he e' hold he' => ?_
  obtain ⟨status, rfl⟩ := Event.exitedUid_eq he
  obtain ⟨status', rfl⟩ := Event.exitedUid_eq he'
  obtain ⟨heff, rfl⟩ := event_exited hnew
  have hrun := running_of_exit hd heff
  have hzombie := (h.exited _ status' hold).2 i (by rw [hrun]; nofun) rfl
  cases hrun.symm.trans hzombie

theorem reaped_once_step (hd : Does initproc s i sec t) :
    (t.log.filterMap Event.reapedUid).Nodup := by
  refine nodup_log hd.performed h.reaped_once fun e uid hnew he e' hold he' => ?_
  obtain ⟨parent, pid, status, rfl⟩ := Event.reapedUid_eq he
  obtain ⟨parent', pid', status', rfl⟩ := Event.reapedUid_eq he'
  obtain ⟨k, heff, _, rfl, _⟩ := event_reaped hnew
  have hfrom := hd.takes.from
  rw [heff] at hfrom
  obtain ⟨_, _, _, _, hzombie, _⟩ := hfrom
  exact (h.reaped _ _ _ _ hold).2.2 k (by rw [hzombie]; nofun) rfl

protected theorem perform (hf : Family initproc s)
    (hd : Does initproc s i sec t) : History t where
  uid_lt := h.uid_lt_step hf hd
  uid_inj := h.uid_inj_step hf hd
  created := h.created_step hf hd
  created_lt := h.created_lt_step hd
  zombie := h.zombie_step hf hd
  exited := h.exited_step hf hd
  reaped := h.reaped_step hf hd
  created_once := h.created_once_step hd
  exited_once := h.exited_once_step hd
  reaped_once := h.reaped_once_step hd

end

protected theorem userinit (initproc : Fin n) : History (userinit initproc) := by
  have hinit : ∀ k, ((userinit initproc).proc k).state ≠ .unused → k = initproc := by
    intro k hk
    by_contra hne
    rw [userinit_of_ne hne] at hk
    exact hk rfl
  refine ⟨fun _ _ => Nat.one_pos, ?_, ?_, ?_, ?_, nofun, nofun, ?_, ?_, ?_⟩
  · intro j k hj hk _
    rw [hinit j hj, hinit k hk]
  · intro k hk
    rw [hinit k hk, userinit_self]
    exact mem_singleton_self _
  · intro uid pid hmem
    obtain ⟨rfl, _⟩ := Event.created.inj (mem_singleton.mp hmem)
    exact Nat.one_pos
  · intro k hk
    have hne : ((userinit initproc).proc k).state ≠ .unused := by rw [hk]; nofun
    rw [hinit k hne, userinit_self] at hk
    cases hk
  all_goals
    rw [show (userinit initproc).log = [.created 0 1] from rfl]
    decide

end History

structure Sane (initproc : Fin n) (s : State n) : Prop where
  control : Control s
  family : Family initproc s
  history : History s

theorem Sane.step {a : Act n} (h : Sane initproc s) (hstep : s.step initproc a = some t) :
    Sane initproc t := by
  obtain ⟨i, sec, hd, _⟩ | rfl := step_cases hstep
  · exact ⟨h.control.perform hd, h.family.perform h.control hd, h.history.perform h.family hd⟩
  · obtain ⟨⟨hholds, hchan, hidle, hasleep, hawake⟩, ⟨hlive, hparented, hroot, hrootLive, hfree,
      hknows, hforks⟩, ⟨hlt, hinj, hcreated, hcreatedLt, hzombie, hexited, hreaped, hc, he, hr⟩⟩ :=
        h
    exact ⟨⟨hholds, hchan, hidle, hasleep, hawake⟩, ⟨hlive, hparented, hroot, hrootLive, hfree,
      hknows, hforks⟩, ⟨hlt, hinj, hcreated, hcreatedLt, hzombie, hexited, hreaped, hc, he, hr⟩⟩

theorem sane_run {acts : List (Act n)} (run : Run (Steps initproc) (userinit initproc) acts s) :
    Sane initproc s :=
  run.invariant (Sane initproc) ⟨.userinit initproc, .userinit initproc, .userinit initproc⟩
    fun _ _ _ h hstep => h.step hstep

/-- What a `kwait` that returns in the step from `s` to `t` has found. A child is returned by its
parent, with its pid and status. A child whose status cannot be copied out stays as it is, and
the scan of any later `kwait` that gets to it returns it. Without that, `-1` means that the caller
has no child or is killed. -/
def Event.Returns (initproc : Fin n) (s t : State n) : Event → Prop
  | .reaped parent child pid status => ∃ i k, s.uid i = parent ∧ s.uid k = child ∧
      (s.proc k).parent = some i ∧ (s.proc k).state = .zombie ∧ (s.proc k).pid = pid ∧
      (s.proc k).xstate = status
  | .waitFault parent child => ∃ i k, s.uid i = parent ∧ s.uid k = child ∧
      (s.proc k).parent = some i ∧ (s.proc k).state = .zombie ∧ t.proc k = s.proc k ∧
      ∀ (u : State n) addr havekids, u.proc k = t.proc k → u.pc i = .scan addr k havekids →
        u.next initproc i .ok = some ⟨.reap k, .release .wait, .user⟩
  | .waitNone parent => ∃ i, s.uid i = parent ∧
      ((∀ k, (s.proc k).parent ≠ some i) ∨ (s.proc i).killed = true)
  | _ => True

theorem Sane.returns {a : Act n} {e : Event} (h : Sane initproc s)
    (hstep : s.step initproc a = some t) (hlog : t.log = s.log ++ [e]) :
    e.Returns initproc s t := by
  obtain ⟨i, sec, hd, _⟩ | rfl := step_cases hstep
  · have hevent : sec.effect.event s i = some e := by
      have heq := hd.performed.log.symm.trans hlog
      exact toList_eq_singleton_iff.mp (append_cancel_left heq)
    have hfrom := hd.takes.from
    cases heff : sec.effect <;> rw [heff] at hevent hfrom
    case reap k =>
      obtain rfl := some.inj hevent
      obtain ⟨_, _, _, hparent, hzombie, _⟩ := hfrom
      exact ⟨i, k, rfl, rfl, hparent, hzombie, rfl, rfl⟩
    case waitFault k =>
      obtain rfl := some.inj hevent
      obtain ⟨_, _, _, hparent, hzombie, _⟩ := hfrom
      have hsame : t.proc k = s.proc k := by
        rw [hd.performed.proc, heff]
        rfl
      refine ⟨i, k, rfl, rfl, hparent, hzombie, hsame, fun u addr havekids hu hpc => ?_⟩
      have hscan := hu.trans hsame
      simp [State.next, hpc, State.scanAt, hscan, hparent, hzombie]
    case waitNone =>
      obtain rfl := some.inj hevent
      obtain ⟨addr, j, havekids, hpc, hj, hnone, _⟩ := hfrom
      refine ⟨i, rfl, ?_⟩
      obtain rfl | hkilled := hnone
      · -- the scan has passed every slot without finding a child
        have hknows := h.family.knows i
        rw [hpc] at hknows
        exact .inl fun k => hknows k (k.isLt.trans_le hj)
      · exact .inr hkilled
    case allocproc k ok =>
      cases ok with
      | true =>
        obtain rfl := some.inj hevent
        trivial
      | false => cases hevent
    case exit | kill | setkilled =>
      obtain rfl := some.inj hevent
      trivial
    all_goals cases hevent
  · exact absurd (congrArg List.length hlog) (by simp)

/-- The protocol of `kfork`, `kexit` and `kwait`: every process that was started has a live
parent. A process exits at most once and at most one `kwait` returns it, with its pid and the
status of its exit, and every return of `kwait` is as it should be. -/
theorem fork_exit_wait (initproc : Fin n) {acts : List (Act n)} {s : State n}
    (run : Run (Steps initproc) (userinit initproc) acts s) :
    (∀ k, k ≠ initproc → (s.proc k).state = .runnable ∨ (s.proc k).state = .running ∨
        (s.proc k).state = .sleeping ∨ (s.proc k).state = .zombie →
        ∃ q, (s.proc k).parent = some q ∧ (s.proc q).isLive = true) ∧
      (s.log.filterMap Event.createdUid).Nodup ∧ (s.log.filterMap Event.exitedUid).Nodup ∧
      (s.log.filterMap Event.reapedUid).Nodup ∧
      (∀ parent uid pid status, .reaped parent uid pid status ∈ s.log →
        .created uid pid ∈ s.log ∧ .exited uid status ∈ s.log) ∧
      ∀ a t e, s.step initproc a = some t → t.log = s.log ++ [e] → e.Returns initproc s t := by
  have h := sane_run run
  refine ⟨fun k hk hstate => ?_, h.history.created_once, h.history.exited_once,
    h.history.reaped_once, ?_, fun a t e hstep hlog => h.returns hstep hlog⟩
  · obtain ⟨q, hq⟩ := ne_none_iff_exists'.mp
      (h.family.parented k hk (by grind) (by grind))
    exact ⟨q, hq, h.family.live k q hq⟩
  · intro parent uid pid status hmem
    obtain ⟨hcreated, hexited, _⟩ := h.history.reaped parent uid pid status hmem
    exact ⟨hcreated, hexited⟩

/-- A child exits with status 7, one `kwait` fails to copy the status out and the next one returns
the child. -/
theorem fork_exit_wait_retry : ∃ s, Run (Steps (0 : Fin 2)) (userinit 0)
      ([.schedule 0, .call 0 .kfork, .run 0 .ok, .run 0 .ok, .run 0 .ok, .run 0 .ok, .schedule 1,
        .call 1 (.kexit 7)] ++ List.replicate 8 (.run 1 .ok) ++
        [.call 0 (.kwait 64), .run 0 .ok, .run 0 .ok, .run 0 .fail, .call 0 (.kwait 64),
          .run 0 .ok, .run 0 .ok, .run 0 .ok]) s ∧
    s.log = [.created 0 1, .created 1 2, .exited 1 7, .waitFault 0 1, .reaped 0 1 2 7] ∧
    (s.log.filterMap Event.reapedUid).Nodup := by
  refine Run.exists_exec (p := fun s => s.log =
    [.created 0 1, .created 1 2, .exited 1 7, .waitFault 0 1, .reaped 0 1 2 7])
    (by decide +kernel) ?_
  exact fun s run hlog => ⟨hlog, (fork_exit_wait 0 run).2.2.2.1⟩

end EafitOs.Process
