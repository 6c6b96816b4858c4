import EafitOs.Process.Model

/-!
# Places and locks

What a section can do, stated once: which place it starts from for each effect, and where it ends.
-/

namespace EafitOs.Process

open Foundation Function Option

variable {n : Nat} {initproc i : Fin n} {s t : State n} {sec : Section n}

/-- What the operation of a section makes of the holders of the locks. -/
def LockOp.Takes (lock : Lock → Option (Fin n)) (i : Fin n) :
    LockOp → (Lock → Option (Fin n)) → Prop
  | .keep, lock' => lock' = lock
  | .acquire lk, lock' => lock lk = none ∧ lock' = update lock lk (some i)
  | .release lk, lock' => lock' = update lock lk none
  | .inside lk, lock' => lock lk = none ∧ lock' = lock

namespace State

theorem apply_eq (s : State n) (i : Fin n) (e : Effect n) :
    ∃ nextpid uid nextuid naps, s.apply i e = { s with
      proc := fun j => if e.slot i = some j then e.change s i (s.proc j) else s.proc j
      log := s.log ++ (e.event s i).toList
      nextpid := nextpid, uid := uid, nextuid := nextuid, naps := naps } := by
  cases e with
  | allocproc k ok => cases ok <;> exact ⟨_, _, _, _, rfl⟩
  | _ => exact ⟨_, _, _, _, rfl⟩

@[simp] theorem apply_pc (i : Fin n) (e : Effect n) : (s.apply i e).pc = s.pc := by
  obtain ⟨_, _, _, _, heq⟩ := apply_eq s i e
  rw [heq]

@[simp] theorem apply_lock (i : Fin n) (e : Effect n) : (s.apply i e).lock = s.lock := by
  obtain ⟨_, _, _, _, heq⟩ := apply_eq s i e
  rw [heq]

theorem apply_proc (i : Fin n) (e : Effect n) (j : Fin n) :
    (s.apply i e).proc j = if e.slot i = some j then e.change s i (s.proc j) else s.proc j := by
  obtain ⟨_, _, _, _, heq⟩ := apply_eq s i e
  rw [heq]

theorem apply_log (i : Fin n) (e : Effect n) :
    (s.apply i e).log = s.log ++ (e.event s i).toList := by
  obtain ⟨_, _, _, _, heq⟩ := apply_eq s i e
  rw [heq]

theorem locked_cases {op : LockOp} (h : s.locked i op = some t) :
    ∃ lock, op.Takes s.lock i lock ∧ t = { s with lock := lock } := by
  cases op with
  | keep =>
    obtain rfl := some.inj h
    exact ⟨_, rfl, rfl⟩
  | acquire lk =>
    obtain ⟨hfree, h⟩ := ite_none_right_eq_some.mp h
    obtain rfl := some.inj h
    exact ⟨_, ⟨hfree, rfl⟩, rfl⟩
  | release lk =>
    obtain rfl := some.inj h
    exact ⟨_, rfl, rfl⟩
  | inside lk =>
    obtain ⟨hfree, h⟩ := ite_none_right_eq_some.mp h
    obtain rfl := some.inj h
    exact ⟨_, ⟨hfree, rfl⟩, rfl⟩

end State

structure Performed (s : State n) (i : Fin n) (sec : Section n) (t : State n) : Prop where
  proc : ∀ j, t.proc j =
    if sec.effect.slot i = some j then sec.effect.change s i (s.proc j) else s.proc j
  pc : t.pc = update s.pc i sec.pc
  lock : sec.lock.Takes s.lock i t.lock
  nextpid : t.nextpid = (s.apply i sec.effect).nextpid
  uid : t.uid = (s.apply i sec.effect).uid
  nextuid : t.nextuid = (s.apply i sec.effect).nextuid
  naps : t.naps = (s.apply i sec.effect).naps
  log : t.log = s.log ++ (sec.effect.event s i).toList

theorem performed (h : s.perform i sec = some t) : Performed s i sec t := by
  obtain ⟨u, hu, rfl⟩ := map_eq_some_iff.mp h
  obtain ⟨lock, hlock, rfl⟩ := State.locked_cases hu
  refine ⟨State.apply_proc i _, ?_, ?_, rfl, rfl, rfl, rfl, State.apply_log i _⟩
  · exact congrArg (update · i sec.pc) (State.apply_pc i sec.effect)
  · rwa [State.apply_lock] at hlock

/-- The sections of a loop. Only a process that is not killed goes on to sleep. -/
inductive LoopSection (s : State n) (i : Fin n) (l : Loop) : Section n → Prop
  | returns : LoopSection s i l ⟨.skip, .release l.lock, .user⟩
  | leaks : LoopSection s i l ⟨.skip, .keep, .user⟩
  | again : LoopSection s i l ⟨.skip, .keep, .loop l⟩
  | finishes (chan : Chan n) : chan.lock = l.lock →
      LoopSection s i l ⟨.skip, .keep, .wakeup (some chan) 0 (.release l.lock)⟩
  | sleeps (chan : Chan n) : chan.lock = l.lock → (s.proc i).killed = false →
      LoopSection s i l ⟨.skip, .keep, .sleep chan (.loop l)⟩
  | isFull (pi : Nat) : l = .pipewrite pi → (s.proc i).killed = false →
      LoopSection s i l ⟨.skip, .keep, .wakeup (some (.nread pi)) 0 (.pipewrite pi)⟩

theorem loopSection_unlessKilled {l : Loop} {pc : Pc n}
    (h : (s.proc i).killed = false → LoopSection s i l ⟨.skip, .keep, pc⟩) :
    LoopSection s i l (s.unlessKilled i l.lock pc) := by
  rw [State.unlessKilled]
  split
  · exact .returns
  · rename_i hkilled
    exact h (Bool.eq_false_iff.mpr hkilled)

theorem loopSection (s : State n) (i : Fin n) (c : Choice n) (l : Loop) :
    LoopSection s i l (s.loopAt i c l) := by
  cases l with
  | piperead pi =>
    cases c with
    | block => exact loopSection_unlessKilled fun hkilled => .sleeps _ rfl hkilled
    | _ => exact .finishes _ rfl
  | pipewrite pi =>
    cases c with
    | fail => exact .returns
    | stop => exact .finishes _ rfl
    | block => exact loopSection_unlessKilled fun hkilled => .isFull pi rfl hkilled
    | _ => exact loopSection_unlessKilled fun _ => .again
  | consoleread =>
    cases c with
    | block => exact loopSection_unlessKilled fun hkilled => .sleeps _ rfl hkilled
    | fail => exact .leaks
    | ok => exact .again
    | _ => exact .returns
  | pause =>
    cases c with
    | block => exact loopSection_unlessKilled fun hkilled => .sleeps _ rfl hkilled
    | _ => exact .returns

inductive HeldSection (lk : Lock) : Section n → Prop
  | returns : HeldSection lk ⟨.skip, .release lk, .user⟩
  | wakes (chan : Chan n) : chan.lock = lk →
      HeldSection lk ⟨.skip, .keep, .wakeup (some chan) 0 (.held lk)⟩
  | sleeps (chan : Chan n) : chan.lock = lk →
      HeldSection lk ⟨.skip, .keep, .sleep chan (.held lk)⟩

theorem heldSection {c : Choice n} {lk : Lock} (h : State.heldAt lk c = some sec) :
    HeldSection lk sec := by
  cases c with
  | wakeup chan =>
    obtain ⟨hlock, h⟩ := ite_none_right_eq_some.mp h
    obtain rfl := some.inj h
    exact .wakes chan hlock
  | sleep chan =>
    obtain ⟨hlock, h⟩ := ite_none_right_eq_some.mp h
    obtain rfl := some.inj h
    exact .sleeps chan hlock
  | _ =>
    obtain rfl := some.inj h
    exact .returns

/-- The sections that process `i` can take in state `s`, when their locks are free. -/
inductive Takes (initproc : Fin n) (s : State n) (i : Fin n) : Section n → Prop
  | call (c : Call) : s.pc i = .user → (∀ status, c = .kexit status → i ≠ initproc) →
      Takes initproc s i c.start
  | allocproc (k : Fin n) : s.pc i = .allocproc k → (s.proc k).state = .unused →
      Takes initproc s i ⟨.allocproc k true, .keep, .kforkParent k⟩
  | allocprocFails (k : Fin n) : s.pc i = .allocproc k → (s.proc k).state = .unused →
      Takes initproc s i ⟨.allocproc k false, .keep, .user⟩
  | allocprocNext (j : Nat) : s.pc i = .allocproc j →
      Takes initproc s i ⟨.skip, .keep, .allocproc (j + 1)⟩
  | allocprocFull (j : Nat) : s.pc i = .allocproc j → Takes initproc s i ⟨.skip, .keep, .user⟩
  | kforkParent (np : Fin n) : s.pc i = .kforkParent np →
      Takes initproc s i ⟨.setParent np i, .inside .wait, .kforkRun np⟩
  | kforkRun (np : Fin n) : s.pc i = .kforkRun np →
      Takes initproc s i ⟨.setRunnable np, .keep, .user⟩
  | kexit (status : Int) : s.pc i = .kexit status →
      Takes initproc s i ⟨.skip, .acquire .wait, .reparent status 0⟩
  | reparent (status : Int) (k : Fin n) : s.pc i = .reparent status k →
      (s.proc k).parent = some i →
      Takes initproc s i ⟨.setParent k initproc, .keep,
        .wakeup (some (.proc initproc)) 0 (.reparent status (k + 1))⟩
  | reparentNext (status : Int) (k : Fin n) : s.pc i = .reparent status k →
      (s.proc k).parent ≠ some i → Takes initproc s i ⟨.skip, .keep, .reparent status (k + 1)⟩
  | reparented (status : Int) (j : Nat) : s.pc i = .reparent status j → n ≤ j →
      Takes initproc s i
        ⟨.skip, .keep, .wakeup ((s.proc i).parent.map .proc) 0 (.zombie status)⟩
  | zombie (status : Int) : s.pc i = .zombie status →
      Takes initproc s i ⟨.exit status, .release .wait, .user⟩
  | kwait (addr : Nat) : s.pc i = .kwait addr →
      Takes initproc s i ⟨.skip, .acquire .wait, .scan addr 0 false⟩
  | reap (addr : Nat) (k : Fin n) (havekids : Bool) : s.pc i = .scan addr k havekids →
      (s.proc k).parent = some i → (s.proc k).state = .zombie →
      Takes initproc s i ⟨.reap k, .release .wait, .user⟩
  | waitFault (addr : Nat) (k : Fin n) (havekids : Bool) : s.pc i = .scan addr k havekids →
      (s.proc k).parent = some i → (s.proc k).state = .zombie →
      Takes initproc s i ⟨.waitFault k, .release .wait, .user⟩
  | scanChild (addr : Nat) (k : Fin n) (havekids : Bool) : s.pc i = .scan addr k havekids →
      Takes initproc s i ⟨.skip, .keep, .scan addr (k + 1) true⟩
  | scanNext (addr : Nat) (k : Fin n) (havekids : Bool) : s.pc i = .scan addr k havekids →
      (s.proc k).parent ≠ some i →
      Takes initproc s i ⟨.skip, .keep, .scan addr (k + 1) havekids⟩
  | waitNone (addr j : Nat) (havekids : Bool) : s.pc i = .scan addr j havekids → n ≤ j →
      havekids = false ∨ (s.proc i).killed = true →
      Takes initproc s i ⟨.waitNone, .release .wait, .user⟩
  | waitSleep (addr j : Nat) (havekids : Bool) : s.pc i = .scan addr j havekids →
      (s.proc i).killed = false →
      Takes initproc s i ⟨.skip, .keep, .sleep (.proc i) (.kwait addr)⟩
  | kill (k : Fin n) : s.pc i = .kkill (s.proc k).pid k →
      Takes initproc s i ⟨.kill k, .keep, .user⟩
  | killNext (pid : Int) (j : Nat) : s.pc i = .kkill pid j →
      Takes initproc s i ⟨.skip, .keep, .kkill pid (j + 1)⟩
  | killNone (pid : Int) (j : Nat) : s.pc i = .kkill pid j →
      Takes initproc s i ⟨.skip, .keep, .user⟩
  | loop (l : Loop) {sec : Section n} : s.pc i = .loop l → LoopSection s i l sec →
      Takes initproc s i sec
  | held (lk : Lock) {sec : Section n} : s.pc i = .held lk → HeldSection lk sec →
      Takes initproc s i sec
  | release (lk : Lock) : s.pc i = .release lk → Takes initproc s i ⟨.skip, .release lk, .user⟩
  | wakeupSelf (chan : Option (Chan n)) (next : After) : s.pc i = .wakeup chan i next →
      Takes initproc s i ⟨.skip, .keep, .wakeup chan (i + 1) next⟩
  | wakeup (chan : Option (Chan n)) (k : Fin n) (next : After) : s.pc i = .wakeup chan k next →
      k ≠ i → Takes initproc s i ⟨.wake chan k, .keep, .wakeup chan (k + 1) next⟩
  | wakeupDone (chan : Option (Chan n)) (j : Nat) (next : After) :
      s.pc i = .wakeup chan j next → n ≤ j → Takes initproc s i ⟨.skip, .keep, next.pc⟩
  | sleep (chan : Chan n) (next : Resume) : s.pc i = .sleep chan next →
      Takes initproc s i ⟨.sleep chan, .release next.lock, .asleep chan next⟩
  | reacquire (next : Resume) : s.pc i = .reacquire next →
      Takes initproc s i ⟨.skip, .acquire next.lock, next.pc⟩
  | schedule : (s.proc i).state = .runnable →
      Takes initproc s i ⟨.run, .keep, State.resumed (s.pc i)⟩
  | yield : (s.pc i).holds = none → Takes initproc s i ⟨.yield, .keep, s.pc i⟩

theorem takes_scanAt {addr j : Nat} {havekids : Bool} (c : Choice n)
    (h : s.pc i = .scan addr j havekids) : Takes initproc s i (s.scanAt i addr j havekids c) := by
  rw [State.scanAt]
  split
  · rename_i hj
    split
    · rename_i hparent
      split
      · rename_i hzombie
        split
        · exact .waitFault _ ⟨j, hj⟩ havekids h hparent hzombie
        · exact .reap addr ⟨j, hj⟩ havekids h hparent hzombie
      · exact .scanChild addr ⟨j, hj⟩ havekids h
    · rename_i hparent
      exact .scanNext addr ⟨j, hj⟩ havekids h hparent
  · rename_i hj
    split
    · rename_i hnone
      exact .waitNone addr j havekids h (Nat.not_lt.mp hj) hnone
    · rename_i hnone
      exact .waitSleep addr j havekids h (Bool.eq_false_iff.mpr fun hk => hnone (.inr hk))

theorem takes_allocprocAt {j : Nat} (c : Choice n) (h : s.pc i = .allocproc j) :
    Takes initproc s i (s.allocprocAt j c) := by
  rw [State.allocprocAt]
  split
  · rename_i hj
    split
    · rename_i hunused
      cases c with
      | ok => exact .allocproc ⟨j, hj⟩ h hunused
      | _ => exact .allocprocFails ⟨j, hj⟩ h hunused
    · exact .allocprocNext j h
  · exact .allocprocFull j h

theorem takes_reparentAt {status : Int} {j : Nat} (h : s.pc i = .reparent status j) :
    Takes initproc s i (s.reparentAt initproc i status j) := by
  rw [State.reparentAt]
  split
  · rename_i hj
    split
    · rename_i hparent
      exact .reparent status ⟨j, hj⟩ h hparent
    · rename_i hparent
      exact .reparentNext status ⟨j, hj⟩ h hparent
  · rename_i hj
    exact .reparented status j h (Nat.not_lt.mp hj)

theorem takes_kkillAt {pid : Int} {j : Nat} (h : s.pc i = .kkill pid j) :
    Takes initproc s i (s.kkillAt pid j) := by
  rw [State.kkillAt]
  split
  · rename_i hj
    split
    · rename_i hpid
      exact .kill ⟨j, hj⟩ (hpid ▸ h)
    · exact .killNext pid j h
  · exact .killNone pid j h

theorem takes_wakeupAt {chan : Option (Chan n)} {j : Nat} {next : After}
    (h : s.pc i = .wakeup chan j next) :
    Takes initproc s i (State.wakeupAt i chan j next) := by
  rw [State.wakeupAt]
  split
  · rename_i hj
    split
    · rename_i hself
      obtain rfl := hself
      exact .wakeupSelf chan next h
    · rename_i hself
      exact .wakeup chan ⟨j, hj⟩ next h hself
  · rename_i hj
    exact .wakeupDone chan j next h (Nat.not_lt.mp hj)

theorem takes_next {c : Choice n} (h : s.next initproc i c = some sec) :
    Takes initproc s i sec := by
  unfold State.next at h
  cases hp : s.pc i <;> rw [hp] at h
  case user => cases h
  case asleep => cases h
  case held lk => exact .held lk hp (heldSection h)
  all_goals obtain rfl := some.inj h
  case allocproc j => exact takes_allocprocAt c hp
  case kforkParent np => exact .kforkParent np hp
  case kforkRun np => exact .kforkRun np hp
  case kexit status => exact .kexit status hp
  case reparent status j => exact takes_reparentAt hp
  case zombie status => exact .zombie status hp
  case kwait addr => exact .kwait addr hp
  case scan addr j havekids => exact takes_scanAt c hp
  case kkill pid j => exact takes_kkillAt hp
  case loop l => exact .loop l hp (loopSection s i c l)
  case release lk => exact .release lk hp
  case wakeup chan j next => exact takes_wakeupAt hp
  case sleep chan next => exact .sleep chan next hp
  case reacquire next => exact .reacquire next hp

/-- Process `i` takes a section from `s` to `t`. It runs, except that the scheduler switches to a
process that does not run yet. -/
structure Does (initproc : Fin n) (s : State n) (i : Fin n) (sec : Section n) (t : State n) :
    Prop where
  takes : Takes initproc s i sec
  performed : Performed s i sec t
  runs : (s.proc i).state = .running ∨ sec.effect = .run

theorem call_cases {c : Call} (h : s.step initproc (.call i c) = some t) :
    (s.proc i).state = .running ∧ s.pc i = .user ∧
      (s.perform i c.start = some t ∧ (∀ status, c = .kexit status → i ≠ initproc) ∨
        t = { s with panic := some "init exiting" }) := by
  obtain ⟨⟨_, hrun, huser⟩, h⟩ := ite_none_right_eq_some.mp h
  refine ⟨hrun, huser, ?_⟩
  by_cases hexit : i = initproc ∧ ∃ status, c = .kexit status
  · obtain ⟨rfl, status, rfl⟩ := hexit
    rw [if_pos rfl] at h
    exact .inr (some.inj h).symm
  · refine .inl ⟨?_, ?_⟩
    · cases c with
      | kexit status => rwa [if_neg fun heq => hexit ⟨heq, status, rfl⟩] at h
      | _ => exact h
    · rintro status rfl rfl
      exact hexit ⟨rfl, status, rfl⟩

def Act.Labels (a : Act n) (s : State n) (i : Fin n) (sec : Section n) : Prop :=
  (∃ c, a = .call i c ∧ s.pc i = .user) ∨ (∃ c, a = .run i c) ∨
    a = .schedule i ∧ sec.effect = .run ∨ a = .yield i ∧ sec.effect = .yield

theorem step_cases {a : Act n} (h : s.step initproc a = some t) :
    (∃ i sec, Does initproc s i sec t ∧ a.Labels s i sec) ∨
      t = { s with panic := some "init exiting" } := by
  cases a with
  | call i c =>
    obtain ⟨hrun, huser, ⟨hp, hexit⟩ | hpanic⟩ := call_cases h
    · exact .inl ⟨i, c.start, ⟨.call c huser hexit, performed hp, .inl hrun⟩, .inl ⟨c, rfl, huser⟩⟩
    · exact .inr hpanic
  | run i c =>
    obtain ⟨⟨_, hrun⟩, h⟩ := ite_none_right_eq_some.mp h
    obtain ⟨sec, hsec, h⟩ := bind_eq_some_iff.mp h
    exact .inl ⟨i, sec, ⟨takes_next hsec, performed h, .inl hrun⟩, .inr (.inl ⟨c, rfl⟩)⟩
  | schedule i =>
    obtain ⟨⟨_, hrunnable⟩, h⟩ := ite_none_right_eq_some.mp h
    exact .inl ⟨i, _, ⟨.schedule hrunnable, performed h, .inr rfl⟩, .inr (.inr (.inl ⟨rfl, rfl⟩))⟩
  | yield i =>
    obtain ⟨⟨_, hrun, hholds⟩, h⟩ := ite_none_right_eq_some.mp h
    exact .inl ⟨i, _, ⟨.yield hholds, performed h, .inl hrun⟩, .inr (.inr (.inr ⟨rfl, rfl⟩))⟩

/-- The place and the table from which a section with a given effect is taken, and where it
ends. -/
@[grind]
def Effect.From (initproc : Fin n) (s : State n) (i : Fin n) (pc : Pc n) : Effect n → Prop
  | .skip => ∀ chan next, pc ≠ .asleep chan next
  | .allocproc k ok => s.pc i = .allocproc k ∧ (s.proc k).state = .unused ∧
      pc = if ok then .kforkParent k else .user
  | .setParent k q => s.pc i = .kforkParent k ∧ q = i ∧ pc = .kforkRun k ∨
      ∃ status, s.pc i = .reparent status k ∧ q = initproc ∧ (s.proc k).parent = some i ∧
        pc = .wakeup (some (.proc initproc)) 0 (.reparent status (k + 1))
  | .setRunnable k => s.pc i = .kforkRun k ∧ pc = .user
  | .exit status => s.pc i = .zombie status ∧ pc = .user
  | .reap k => ∃ addr havekids, s.pc i = .scan addr k havekids ∧ (s.proc k).parent = some i ∧
      (s.proc k).state = .zombie ∧ pc = .user
  | .waitFault k => ∃ addr havekids, s.pc i = .scan addr k havekids ∧
      (s.proc k).parent = some i ∧ (s.proc k).state = .zombie ∧ pc = .user
  | .waitNone => ∃ addr j havekids, s.pc i = .scan addr j havekids ∧ n ≤ j ∧
      (havekids = false ∨ (s.proc i).killed = true) ∧ pc = .user
  | .wake chan k => ∃ next, s.pc i = .wakeup chan k next ∧ k ≠ i ∧ pc = .wakeup chan (k + 1) next
  | .sleep chan => ∃ next, s.pc i = .sleep chan next ∧ pc = .asleep chan next
  | .kill k => s.pc i = .kkill (s.proc k).pid k ∧ pc = .user
  | .setkilled => s.pc i = .user ∧ pc = .user
  | .run => (s.proc i).state = .runnable ∧ pc = State.resumed (s.pc i)
  | .yield => (s.pc i).holds = none ∧ pc = s.pc i

theorem Takes.from (h : Takes initproc s i sec) : sec.effect.From initproc s i sec.pc := by
  cases h with
  | call c huser _ => cases c <;> simp [Call.start, Effect.From, huser]
  | loop l _ hsec => cases hsec <;> simp [Effect.From]
  | held lk _ hsec => cases hsec <;> simp [Effect.From]
  | wakeupDone chan j next _ _ => cases next <;> simp [Effect.From, After.pc]
  | reacquire next _ => cases next <;> simp [Effect.From, Resume.pc]
  | kforkParent np hpc => exact .inl ⟨hpc, rfl, rfl⟩
  | reparent status k hpc hparent => exact .inr ⟨status, hpc, rfl, hparent, rfl⟩
  | waitNone addr j havekids hpc hj hnone => exact ⟨addr, j, havekids, hpc, hj, hnone, rfl⟩
  | _ => simp_all [Effect.From]

theorem Resume.holds_pc (next : Resume) : (next.pc : Pc n).holds = some next.lock := by
  cases next <;> rfl

theorem After.holds_pc (next : After) : (next.pc : Pc n).holds = some next.lock := by
  cases next <;> rfl

theorem holds_resumed {pc : Pc n} {lk : Lock} (h : (State.resumed pc).holds = some lk) :
    pc.holds = some lk := by
  cases pc with
  | asleep => cases h
  | _ => exact h

theorem Takes.holds {lk : Lock} (h : Takes initproc s i sec) (hlk : sec.pc.holds = some lk) :
    sec.lock = .acquire lk ∨ sec.lock = .keep ∧ (s.pc i).holds = some lk := by
  cases h with
  | call c _ _ => cases c <;> simp_all [Call.start, Pc.holds]
  | loop l hpc hsec => cases hsec <;> simp_all [Pc.holds, After.lock, Resume.lock, Loop.lock]
  | held l hpc hsec => cases hsec <;> simp_all [Pc.holds, After.lock, Resume.lock]
  | schedule _ => exact .inr ⟨rfl, holds_resumed hlk⟩
  | yield _ => exact .inr ⟨rfl, hlk⟩
  | wakeupDone chan j next hpc _ => exact .inr ⟨rfl, by rw [hpc, ← hlk, After.holds_pc]; rfl⟩
  | reacquire next hpc =>
    rw [Resume.holds_pc] at hlk
    exact .inl (congrArg _ (some.inj hlk))
  | _ => simp_all [Pc.holds, After.lock, Resume.lock]

theorem Takes.releases {lk : Lock} (h : Takes initproc s i sec) (hlk : sec.lock = .release lk) :
    (s.pc i).holds = some lk := by
  cases h with
  | call c _ _ => cases c <;> cases hlk
  | loop l hpc hsec => cases hsec <;> simp_all [Pc.holds]
  | held l hpc hsec => cases hsec <;> simp_all [Pc.holds]
  | _ => simp_all [Pc.holds]

def Pc.ChanOk : Pc n → Prop
  | .wakeup (some chan) _ next => chan.lock = next.lock
  | .sleep chan next => chan.lock = next.lock
  | _ => True

theorem Pc.ChanOk.resumed {pc : Pc n} (h : pc.ChanOk) : (State.resumed pc).ChanOk := by
  cases pc <;> exact h

theorem Takes.chanOk (h : Takes initproc s i sec) (hpc : (s.pc i).ChanOk) : sec.pc.ChanOk := by
  cases h with
  | call c _ _ => cases c <;> trivial
  | loop l _ hsec => cases hsec <;> simp_all [Pc.ChanOk, After.lock, Resume.lock, Chan.lock]
  | held l _ hsec => cases hsec <;> simp_all [Pc.ChanOk, After.lock, Resume.lock]
  | reparented status j _ _ => cases (s.proc i).parent <;> trivial
  | wakeupSelf chan next hp =>
    rw [hp] at hpc
    cases chan <;> exact hpc
  | wakeup chan k next hp _ =>
    rw [hp] at hpc
    cases chan <;> exact hpc
  | wakeupDone chan j next _ _ => cases next <;> trivial
  | reacquire next _ => cases next <;> trivial
  | schedule _ => exact hpc.resumed
  | yield _ => exact hpc
  | _ => trivial

/-- Only processes that can run are in the kernel, sleeping processes are in `sleep` and hold no
lock, and each lock has one holder. -/
structure Control (s : State n) : Prop where
  holds : ∀ i lk, (s.pc i).holds = some lk → s.lock lk = some i
  chanOk : ∀ i, (s.pc i).ChanOk
  idle : ∀ i, (s.proc i).state = .unused ∨ (s.proc i).state = .used ∨
    (s.proc i).state = .zombie → s.pc i = .user
  asleep : ∀ i, (s.proc i).state = .sleeping →
    ∃ chan next, s.pc i = .asleep chan next ∧ (s.proc i).chan = some chan
  awake : ∀ i chan next, s.pc i = .asleep chan next →
    (s.proc i).state = .sleeping ∨ (s.proc i).state = .runnable

theorem userinit_self (initproc : Fin n) :
    (userinit initproc).proc initproc = { Proc.free with state := .runnable, pid := 1 } := by
  simp [userinit]

theorem userinit_of_ne {k : Fin n} (h : k ≠ initproc) :
    (userinit initproc).proc k = Proc.free := by
  simp [userinit, h]

namespace Control

section

variable (h : Control s) (hd : Does initproc s i sec t)
include h hd

theorem idle_step (j : Fin n)
    (hj : (t.proc j).state = .unused ∨ (t.proc j).state = .used ∨ (t.proc j).state = .zombie) :
    t.pc j = .user := by
  have hfrom := hd.takes.from
  have hrun := hd.runs
  have hidle := h.idle j
  rw [hd.performed.proc] at hj
  rw [hd.performed.pc, update_apply]
  cases heff : sec.effect <;> grind

theorem asleep_step (j : Fin n) (hj : (t.proc j).state = .sleeping) :
    ∃ chan next, t.pc j = .asleep chan next ∧ (t.proc j).chan = some chan := by
  have hfrom := hd.takes.from
  have hrun := hd.runs
  have hasleep := h.asleep j
  rw [hd.performed.proc] at hj ⊢
  rw [hd.performed.pc, update_apply]
  cases heff : sec.effect <;> grind

theorem awake_step (j : Fin n) (chan : Chan n) (next : Resume) (hj : t.pc j = .asleep chan next) :
    (t.proc j).state = .sleeping ∨ (t.proc j).state = .runnable := by
  have hfrom := hd.takes.from
  have hrun := hd.runs
  have hawake := h.awake j
  have hidle := h.idle j
  rw [hd.performed.pc, update_apply] at hj
  rw [hd.performed.proc]
  cases heff : sec.effect <;> grind

theorem holds_step
    (j : Fin n) (lk : Lock) (hj : (t.pc j).holds = some lk) : t.lock lk = some j := by
  have hlock := hd.performed.lock
  rw [hd.performed.pc] at hj
  by_cases hji : j = i
  · subst hji
    rw [update_self] at hj
    obtain hop | ⟨hop, hheld⟩ := hd.takes.holds hj
    · rw [hop] at hlock
      rw [hlock.2, update_self]
    · rw [hop] at hlock
      rw [hlock]
      exact h.holds j lk hheld
  · rw [update_of_ne hji] at hj
    have hheld := h.holds j lk hj
    cases hop : sec.lock with
    | keep =>
      rw [hop] at hlock
      rw [hlock, hheld]
    | acquire lk' =>
      rw [hop] at hlock
      have hne : lk ≠ lk' := by
        rintro rfl
        cases hheld.symm.trans hlock.1
      rw [hlock.2, update_of_ne hne, hheld]
    | release lk' =>
      rw [hop] at hlock
      have hne : lk ≠ lk' := by
        rintro rfl
        have hmine := h.holds i lk (hd.takes.releases hop)
        exact hji (some.inj (hheld.symm.trans hmine))
      rw [hlock, update_of_ne hne, hheld]
    | inside lk' =>
      rw [hop] at hlock
      rw [hlock.2, hheld]

theorem chanOk_step (j : Fin n) : (t.pc j).ChanOk := by
  rw [hd.performed.pc]
  by_cases hji : j = i
  · rw [hji, update_self]
    exact hd.takes.chanOk (h.chanOk i)
  · rw [update_of_ne hji]
    exact h.chanOk j

protected theorem perform : Control t where
  holds := h.holds_step hd
  chanOk := h.chanOk_step hd
  idle := h.idle_step hd
  asleep := h.asleep_step hd
  awake := h.awake_step hd

end

protected theorem userinit (initproc : Fin n) : Control (userinit initproc) where
  holds := fun _ _ h => by cases h
  chanOk := fun _ => trivial
  idle := fun _ _ => rfl
  asleep := by
    intro i hi
    by_cases hk : i = initproc
    · rw [hk, userinit_self] at hi
      cases hi
    · rw [userinit_of_ne hk] at hi
      cases hi
  awake := fun _ _ _ h => by cases h

theorem exclusive (h : Control s) {i j : Fin n} {lk : Lock} (hi : (s.pc i).holds = some lk)
    (hj : (s.pc j).holds = some lk) : i = j :=
  some.inj ((h.holds i lk hi).symm.trans (h.holds j lk hj))

end Control

end EafitOs.Process
