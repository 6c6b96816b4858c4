import EafitOs.Foundation.Runs
import Mathlib.Algebra.Group.Nat.Defs
import Mathlib.Data.Fintype.Basic

/-!
# Processes, sleep and wakeup

The process table of `proc.c` with its functions as the sections that run under a lock. A process
is somewhere in kernel code, and its next section has an effect on the table, takes or gives up a
spinlock and leaves the process at another place. The critical sections of `wait_lock` and of the
condition locks are spread over several sections, and other processes run between them.
-/

namespace EafitOs.Process

open Foundation Function

inductive ProcState where
  | unused
  | used
  | sleeping
  | runnable
  | running
  | zombie
  deriving DecidableEq

inductive Lock where
  | wait
  | pipe (pi : Nat)
  | cons
  | ticks
  | other (k : Nat)
  deriving DecidableEq

inductive Chan (n : Nat) where
  | proc (i : Fin n)
  | nread (pi : Nat)
  | nwrite (pi : Nat)
  | consr
  | ticks
  | other (k c : Nat)
  deriving DecidableEq

def Chan.lock {n : Nat} : Chan n → Lock
  | .proc _ => .wait
  | .nread pi => .pipe pi
  | .nwrite pi => .pipe pi
  | .consr => .cons
  | .ticks => .ticks
  | .other k _ => .other k

/-- The functions besides `kwait` that test `killed` and sleep in a loop. -/
inductive Loop where
  | piperead (pi : Nat)
  | pipewrite (pi : Nat)
  | consoleread
  | pause
  deriving DecidableEq

def Loop.lock : Loop → Lock
  | .piperead pi => .pipe pi
  | .pipewrite pi => .pipe pi
  | .consoleread => .cons
  | .pause => .ticks

/-- Where a call of `sleep` returns to, with its lock held again: the loop of `kwait`, one of the
other loops or unspecified code. -/
inductive Resume where
  | kwait (addr : Nat)
  | loop (l : Loop)
  | held (lk : Lock)
  deriving DecidableEq

def Resume.lock : Resume → Lock
  | .kwait _ => .wait
  | .loop l => l.lock
  | .held lk => lk

/-- Where a call of `wakeup` returns to. -/
inductive After where
  | reparent (status : Int) (j : Nat)
  | zombie (status : Int)
  | pipewrite (pi : Nat)
  | release (lk : Lock)
  | held (lk : Lock)
  deriving DecidableEq

def After.lock : After → Lock
  | .reparent _ _ => .wait
  | .zombie _ => .wait
  | .pipewrite pi => .pipe pi
  | .release lk => lk
  | .held lk => lk

/-- Where a process is in the kernel, between two sections. Positions `j` are the next slot of a
scan of the process table. -/
inductive Pc (n : Nat) where
  | user
  | allocproc (j : Nat)
  | kforkParent (np : Fin n)
  | kforkRun (np : Fin n)
  | kexit (status : Int)
  | reparent (status : Int) (j : Nat)
  | zombie (status : Int)
  | kwait (addr : Nat)
  | scan (addr j : Nat) (havekids : Bool)
  | kkill (pid : Int) (j : Nat)
  | loop (l : Loop)
  | held (lk : Lock)
  | release (lk : Lock)
  | wakeup (chan : Option (Chan n)) (j : Nat) (next : After)
  | sleep (chan : Chan n) (next : Resume)
  | asleep (chan : Chan n) (next : Resume)
  | reacquire (next : Resume)
  deriving DecidableEq

variable {n : Nat}

def Resume.pc : Resume → Pc n
  | .kwait addr => .scan addr 0 false
  | .loop l => .loop l
  | .held lk => .held lk

def After.pc : After → Pc n
  | .reparent status j => .reparent status j
  | .zombie status => .zombie status
  | .pipewrite pi => .sleep (.nwrite pi) (.loop (.pipewrite pi))
  | .release lk => .release lk
  | .held lk => .held lk

def Pc.holds : Pc n → Option Lock
  | .reparent _ _ => some .wait
  | .zombie _ => some .wait
  | .scan _ _ _ => some .wait
  | .loop l => some l.lock
  | .held lk => some lk
  | .release lk => some lk
  | .wakeup _ _ next => some next.lock
  | .sleep _ next => some next.lock
  | _ => none

/-- The fields of `struct proc` that the sections use. The null address is `none`. -/
structure Proc (n : Nat) where
  state : ProcState
  pid : Int
  parent : Option (Fin n)
  xstate : Int
  killed : Bool
  chan : Option (Chan n)
  deriving DecidableEq

def Proc.isLive (p : Proc n) : Bool :=
  p.state ≠ .unused ∧ p.state ≠ .zombie

/-- What `freeproc` leaves, which is also a slot that was never used. -/
@[grind]
def Proc.free : Proc n where
  state := .unused
  pid := 0
  parent := none
  xstate := 0
  killed := false
  chan := none

/-- What happened, in order. Processes are named by numbers that are never used again. -/
inductive Event where
  | created (uid : Nat) (pid : Int)
  | exited (uid : Nat) (status : Int)
  | reaped (parent child : Nat) (pid status : Int)
  | waitFault (parent child : Nat)
  | waitNone (parent : Nat)
  | killed (pid : Int)
  | setkilled (uid : Nat)
  deriving DecidableEq

/-- The process table and `nextpid`, the place of each process and the holders of the spinlocks.
The fields from `uid` on only record the history: the number of the process in each slot, how
often a slot went to sleep, and the events. -/
structure State (n : Nat) where
  proc : Fin n → Proc n
  nextpid : Int
  pc : Fin n → Pc n
  lock : Lock → Option (Fin n)
  panic : Option String
  uid : Fin n → Nat
  nextuid : Nat
  naps : Fin n → Nat
  log : List Event

/-- What a section of process `i` does to the table. -/
inductive Effect (n : Nat) where
  | skip
  | allocproc (k : Fin n) (ok : Bool)
  | setParent (k q : Fin n)
  | setRunnable (k : Fin n)
  | exit (status : Int)
  | reap (k : Fin n)
  | waitFault (k : Fin n)
  | waitNone
  | wake (chan : Option (Chan n)) (k : Fin n)
  | sleep (chan : Chan n)
  | kill (k : Fin n)
  | setkilled
  | run
  | yield
  deriving DecidableEq

inductive LockOp where
  | keep
  | acquire (lk : Lock)
  | release (lk : Lock)
  | inside (lk : Lock)
  deriving DecidableEq

structure Section (n : Nat) where
  effect : Effect n
  lock : LockOp
  pc : Pc n

/-- The outcomes that the table does not decide: allocations and copies that fail, and the
conditions that the loops wait for. -/
inductive Choice (n : Nat) where
  | ok
  | fail
  | block
  | stop
  | wakeup (chan : Chan n)
  | sleep (chan : Chan n)

namespace Effect

/-- The slot that an effect of process `i` changes. -/
@[grind]
def slot (i : Fin n) : Effect n → Option (Fin n)
  | .skip | .waitFault _ | .waitNone => none
  | .allocproc k _ | .setParent k _ | .setRunnable k | .reap k | .wake _ k | .kill k => some k
  | .exit _ | .sleep _ | .setkilled | .run | .yield => some i

@[grind]
def change (s : State n) (i : Fin n) : Effect n → Proc n → Proc n
  | .skip, p | .waitFault _, p | .waitNone, p => p
  -- `allocproc` and the rest of `kfork` up to `release(&np->lock)` do not touch `killed`; when an
  -- allocation fails the slot is freed
  | .allocproc _ ok, p => if ok then { p with pid := s.nextpid, state := .used } else .free
  | .setParent _ q, p => { p with parent := some q }
  | .setRunnable _, p => { p with state := .runnable }
  | .exit status, p => { p with xstate := status, state := .zombie }
  | .reap _, _ => .free
  | .wake chan _, p =>
    if p.state = .sleeping ∧ p.chan = chan then { p with state := .runnable } else p
  | .sleep chan, p => { p with chan := some chan, state := .sleeping }
  | .kill _, p =>
    { p with killed := true, state := if p.state = .sleeping then .runnable else p.state }
  | .setkilled, p => { p with killed := true }
  -- a process that is switched to in `sleep` clears its channel
  | .run, p =>
    match s.pc i with
    | .asleep _ _ => { p with state := .running, chan := none }
    | _ => { p with state := .running }
  | .yield, p => { p with state := .runnable }

def event (s : State n) (i : Fin n) : Effect n → Option Event
  | .allocproc _ true => some (.created s.nextuid s.nextpid)
  | .exit status => some (.exited (s.uid i) status)
  | .reap k => some (.reaped (s.uid i) (s.uid k) (s.proc k).pid (s.proc k).xstate)
  | .waitFault k => some (.waitFault (s.uid i) (s.uid k))
  | .waitNone => some (.waitNone (s.uid i))
  | .kill k => some (.killed (s.proc k).pid)
  | .setkilled => some (.setkilled (s.uid i))
  | _ => none

end Effect

namespace State

variable (s : State n)

def apply (i : Fin n) (e : Effect n) : State n :=
  let t := { s with
    proc := fun j => if e.slot i = some j then e.change s i (s.proc j) else s.proc j
    log := s.log ++ (e.event s i).toList }
  match e with
  | .allocproc k ok =>
    -- `nextpid` is an `int`
    let t := { t with nextpid := (s.nextpid + 1).bmod (2 ^ 32) }
    if ok then
      { t with uid := update s.uid k s.nextuid, nextuid := s.nextuid + 1 }
    else t
  | .sleep _ => { t with naps := update s.naps i (s.naps i + 1) }
  | _ => t

/-- `allocproc` at slot `j`, called by `kfork`. -/
def allocprocAt (j : Nat) (c : Choice n) : Section n :=
  if h : j < n then
    if (s.proc ⟨j, h⟩).state = .unused then
      match c with
      | .ok => ⟨.allocproc ⟨j, h⟩ true, .keep, .kforkParent ⟨j, h⟩⟩
      | _ => ⟨.allocproc ⟨j, h⟩ false, .keep, .user⟩
    else ⟨.skip, .keep, .allocproc (j + 1)⟩
  else ⟨.skip, .keep, .user⟩

/-- `reparent` at slot `j`, and the `wakeup(p->parent)` of `kexit` after it. -/
def reparentAt (initproc i : Fin n) (status : Int) (j : Nat) : Section n :=
  if h : j < n then
    if (s.proc ⟨j, h⟩).parent = some i then
      ⟨.setParent ⟨j, h⟩ initproc, .keep,
        .wakeup (some (.proc initproc)) 0 (.reparent status (j + 1))⟩
    else ⟨.skip, .keep, .reparent status (j + 1)⟩
  else ⟨.skip, .keep, .wakeup ((s.proc i).parent.map .proc) 0 (.zombie status)⟩

/-- The scan of `kwait` at slot `j`, and the tests after it. -/
def scanAt (i : Fin n) (addr j : Nat) (havekids : Bool) (c : Choice n) : Section n :=
  if h : j < n then
    if (s.proc ⟨j, h⟩).parent = some i then
      if (s.proc ⟨j, h⟩).state = .zombie then
        match addr, c with
        | _ + 1, .fail => ⟨.waitFault ⟨j, h⟩, .release .wait, .user⟩
        | _, _ => ⟨.reap ⟨j, h⟩, .release .wait, .user⟩
      else ⟨.skip, .keep, .scan addr (j + 1) true⟩
    else ⟨.skip, .keep, .scan addr (j + 1) havekids⟩
  else if havekids = false ∨ (s.proc i).killed = true then ⟨.waitNone, .release .wait, .user⟩
  else ⟨.skip, .keep, .sleep (.proc i) (.kwait addr)⟩

def kkillAt (pid : Int) (j : Nat) : Section n :=
  if h : j < n then
    if (s.proc ⟨j, h⟩).pid = pid then ⟨.kill ⟨j, h⟩, .keep, .user⟩
    else ⟨.skip, .keep, .kkill pid (j + 1)⟩
  else ⟨.skip, .keep, .user⟩

/-- `wakeup` at slot `j`, which skips the caller. -/
def wakeupAt (i : Fin n) (chan : Option (Chan n)) (j : Nat) (next : After) : Section n :=
  if h : j < n then
    if ⟨j, h⟩ = i then ⟨.skip, .keep, .wakeup chan (j + 1) next⟩
    else ⟨.wake chan ⟨j, h⟩, .keep, .wakeup chan (j + 1) next⟩
  else ⟨.skip, .keep, next.pc⟩

/-- The test of `killed` before a wait: a killed process releases the lock and returns. -/
def unlessKilled (i : Fin n) (lk : Lock) (pc : Pc n) : Section n :=
  if (s.proc i).killed then ⟨.skip, .release lk, .user⟩ else ⟨.skip, .keep, pc⟩

/-- One round of the wait loop of `piperead`. -/
def pipereadAt (i : Fin n) (pi : Nat) : Choice n → Section n
  | .block => s.unlessKilled i (.pipe pi) (.sleep (.nread pi) (.loop (.piperead pi)))
  | _ => ⟨.skip, .keep, .wakeup (some (.nwrite pi)) 0 (.release (.pipe pi))⟩

/-- One round of the loop of `pipewrite`. It fails when the read end is closed. -/
def pipewriteAt (i : Fin n) (pi : Nat) : Choice n → Section n
  | .fail => ⟨.skip, .release (.pipe pi), .user⟩
  | .stop => ⟨.skip, .keep, .wakeup (some (.nread pi)) 0 (.release (.pipe pi))⟩
  | .block => s.unlessKilled i (.pipe pi) (.wakeup (some (.nread pi)) 0 (.pipewrite pi))
  | _ => s.unlessKilled i (.pipe pi) (.loop (.pipewrite pi))

/-- One round of the loops of `consoleread`. When the copy to user memory fails it returns with
`cons.lock` held. -/
def consolereadAt (i : Fin n) : Choice n → Section n
  | .block => s.unlessKilled i .cons (.sleep .consr (.loop .consoleread))
  | .fail => ⟨.skip, .keep, .user⟩
  | .ok => ⟨.skip, .keep, .loop .consoleread⟩
  | _ => ⟨.skip, .release .cons, .user⟩

/-- One round of the loop of `sys_pause`. -/
def pauseAt (i : Fin n) : Choice n → Section n
  | .block => s.unlessKilled i .ticks (.sleep .ticks (.loop .pause))
  | _ => ⟨.skip, .release .ticks, .user⟩

def loopAt (i : Fin n) (c : Choice n) : Loop → Section n
  | .piperead pi => s.pipereadAt i pi c
  | .pipewrite pi => s.pipewriteAt i pi c
  | .consoleread => s.consolereadAt i c
  | .pause => s.pauseAt i c

/-- Unspecified code that holds a lock and calls `wakeup` and `sleep` with it. -/
def heldAt (lk : Lock) : Choice n → Option (Section n)
  | .wakeup chan =>
    if chan.lock = lk then some ⟨.skip, .keep, .wakeup (some chan) 0 (.held lk)⟩ else none
  | .sleep chan => if chan.lock = lk then some ⟨.skip, .keep, .sleep chan (.held lk)⟩ else none
  | _ => some ⟨.skip, .release lk, .user⟩

def next (initproc i : Fin n) (c : Choice n) : Option (Section n) :=
  match s.pc i with
  | .user => none
  | .allocproc j => some (s.allocprocAt j c)
  | .kforkParent np => some ⟨.setParent np i, .inside .wait, .kforkRun np⟩
  | .kforkRun np => some ⟨.setRunnable np, .keep, .user⟩
  | .kexit status => some ⟨.skip, .acquire .wait, .reparent status 0⟩
  | .reparent status j => some (s.reparentAt initproc i status j)
  | .zombie status => some ⟨.exit status, .release .wait, .user⟩
  | .kwait addr => some ⟨.skip, .acquire .wait, .scan addr 0 false⟩
  | .scan addr j havekids => some (s.scanAt i addr j havekids c)
  | .kkill pid j => some (s.kkillAt pid j)
  | .loop l => some (s.loopAt i c l)
  | .held lk => heldAt lk c
  | .release lk => some ⟨.skip, .release lk, .user⟩
  | .wakeup chan j next => some (wakeupAt i chan j next)
  -- `sleep` gives its lock up once it holds `p->lock`
  | .sleep chan next => some ⟨.sleep chan, .release next.lock, .asleep chan next⟩
  | .asleep _ _ => none
  | .reacquire next => some ⟨.skip, .acquire next.lock, next.pc⟩

end State

/-- What a process in user code can start: the calls, the trap that kills it, and other code that
takes a lock. -/
inductive Call where
  | kfork
  | kexit (status : Int)
  | kwait (addr : Nat)
  | kkill (pid : Int)
  | setkilled
  | loop (l : Loop)
  | hold (lk : Lock)
  deriving DecidableEq

def Call.start : Call → Section n
  | .kfork => ⟨.skip, .keep, .allocproc 0⟩
  | .kexit status => ⟨.skip, .keep, .kexit status⟩
  | .kwait addr => ⟨.skip, .keep, .kwait addr⟩
  | .kkill pid => ⟨.skip, .keep, .kkill pid 0⟩
  | .setkilled => ⟨.setkilled, .keep, .user⟩
  | .loop l => ⟨.skip, .acquire l.lock, .loop l⟩
  | .hold lk => ⟨.skip, .acquire lk, .held lk⟩

inductive Act (n : Nat) where
  | call (i : Fin n) (c : Call)
  | run (i : Fin n) (c : Choice n)
  | schedule (i : Fin n)
  | yield (i : Fin n)

namespace State

def goto (s : State n) (i : Fin n) (pc : Pc n) : State n :=
  { s with pc := update s.pc i pc }

def locked (s : State n) (i : Fin n) : LockOp → Option (State n)
  | .keep => some s
  | .acquire lk =>
    if s.lock lk = none then some { s with lock := update s.lock lk (some i) } else none
  | .release lk => some { s with lock := update s.lock lk none }
  | .inside lk => if s.lock lk = none then some s else none

def perform (s : State n) (i : Fin n) (sec : Section n) : Option (State n) :=
  ((s.apply i sec.effect).locked i sec.lock).map fun t => t.goto i sec.pc

/-- The place of a process that the scheduler switches to. -/
@[grind]
def resumed : Pc n → Pc n
  | .asleep _ next => .reacquire next
  | pc => pc

/-- One section. Only a running process has sections of its own, and a process that holds a
spinlock runs with interrupts off and does not yield. -/
def step (initproc : Fin n) (s : State n) : Act n → Option (State n)
  | .call i c =>
    if s.panic = none ∧ (s.proc i).state = .running ∧ s.pc i = .user then
      match c with
      | .kexit _ =>
        if i = initproc then some { s with panic := some "init exiting" }
        else s.perform i c.start
      | _ => s.perform i c.start
    else none
  | .run i c =>
    if s.panic = none ∧ (s.proc i).state = .running then
      (s.next initproc i c).bind fun sec => s.perform i sec
    else none
  | .schedule i =>
    if s.panic = none ∧ (s.proc i).state = .runnable then
      s.perform i ⟨.run, .keep, resumed (s.pc i)⟩
    else none
  | .yield i =>
    if s.panic = none ∧ (s.proc i).state = .running ∧ (s.pc i).holds = none then
      s.perform i ⟨.yield, .keep, s.pc i⟩
    else none

end State

def userinit (initproc : Fin n) : State n where
  proc := update (fun _ => .free) initproc { Proc.free with state := .runnable, pid := 1 }
  nextpid := 2
  pc := fun _ => .user
  lock := fun _ => none
  panic := none
  uid := fun _ => 0
  nextuid := 1
  naps := fun _ => 0
  log := [.created 0 1]

abbrev Steps (initproc : Fin n) : State n → Act n → State n → Prop :=
  fun s a t => s.step initproc a = some t

end EafitOs.Process
