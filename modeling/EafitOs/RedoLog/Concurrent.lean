import EafitOs.RedoLog.Commit
import EafitOs.Foundation.Runs

/-!
# Concurrent operations on the log

Each section between `acquire(&log.lock)` and `release(&log.lock)` is one step,
and so is each block copied by `commit`, which runs without the lock. A process
that sleeps in `begin_op` tries again, so a failed attempt changes nothing.

## Implementation notes

The buffer a process has modified stays locked until `log_write` and `brelse`. The steps of
`commit` do not wait for that lock, so that they are allowed more often than in the kernel.
-/

namespace EafitOs.RedoLog

open Foundation Disk Machine Function Option

/-- Where a process is. The last five places are inside `end_op` of the last operation. -/
inductive Pc
  | idle
  /-- Between `begin_op` and `end_op`, running operation `op`. -/
  | inOp (op : Nat)
  /-- In operation `op`, having modified the buffer of `b`, about to call `log_write`. -/
  | modified (op : Nat) (b : UInt32)
  | writeLog (tail : Nat)
  | install (tail : Nat)
  | erase
  | release

namespace Pc

/-- The operation the process is running, if it is between `begin_op` and `end_op`. -/
def op : Pc → Option Nat
  | inOp op => some op
  | modified op _ => some op
  | _ => none

def commits : Pc → Bool
  | writeLog _ | install _ | erase | release => true
  | _ => false

end Pc

structure Update where
  op : Nat
  block : Nat
  data : Block

/-- What a header write committed: the updates since the previous one, and the
home blocks with the contents of their log slots. -/
structure Txn where
  updates : List Update
  blocks : List (Nat × Block)

/-- The log, the machine, the processes and the history of the run. -/
structure Sys (P : Type) where
  log : Log
  mach : Machine
  pc : P → Pc
  /-- The process holding the sleep lock of a block's buffer. -/
  holder : Nat → Option P
  panic : Option String
  nextOp : Nat
  /-- Operations that have called `end_op`. -/
  ended : List Nat
  /-- Every `log_write`, oldest first. -/
  all : List Update
  /-- The calls of `log_write` since the last header write. -/
  pending : List Update
  txns : List Txn

inductive Act (P : Type)
  | beginOp (p : P)
  | modify (p : P) (b : UInt32) (data : Block)
  | logWrite (p : P)
  | endOp (p : P)
  | commit (p : P)

variable {P : Type} [DecidableEq P]

/-- The header after the loop of `log_write`: a block already in it is absorbed,
any other is added at the end. -/
def addBlock (lh : LogHeader) (b : UInt32) (h : lh.n < logBlocks) : LogHeader :=
  if b.toNat ∈ lh.block then lh
  else
    { block := lh.block ++ [b.toNat]
      bound := by
        rw [List.length_append]
        exact h
      fits := by
        intro x hx
        rcases List.mem_append.mp hx with hx | hx
        · exact lh.fits x hx
        · rw [List.mem_singleton.mp hx]
          exact b.toNat_lt }

/-- One pass of the loop of `begin_op`. -/
def beginOp (s : Sys P) (p : P) : Sys P :=
  if s.log.committing then s
  else if s.log.lh.n + (s.log.outstanding + 1) * maxOpBlocks > logBlocks then s
  else
    { s with
      log := { s.log with outstanding := s.log.outstanding + 1 }
      pc := update s.pc p (.inOp s.nextOp)
      nextOp := s.nextOp + 1 }

def modify (s : Sys P) (p : P) (op : Nat) (b : UInt32) (data : Block) : Sys P :=
  { s with
    mach := (s.mach.bread b.toNat).2.fill b.toNat data
    pc := update s.pc p (.modified op b)
    holder := update s.holder b.toNat (some p) }

def pinNew (lh : LogHeader) (m : Machine) (b : Nat) : Machine :=
  if b ∈ lh.block then m else m.bpin b

/-- `log_write` of the modified buffer, then `brelse`. -/
def logWrite (s : Sys P) (p : P) (op : Nat) (b : UInt32) : Sys P :=
  if h : s.log.lh.n < logBlocks then
    if s.log.outstanding < 1 then { s with panic := some "log_write outside of trans" }
    else
      let update : Update := ⟨op, b.toNat, s.mach.view b.toNat⟩
      { s with
        log := { s.log with lh := addBlock s.log.lh b h }
        mach := (pinNew s.log.lh s.mach b.toNat).brelse b.toNat
        pc := Function.update s.pc p (.inOp op)
        holder := Function.update s.holder b.toNat none
        all := s.all ++ [update]
        pending := s.pending ++ [update] }
  else { s with panic := some "too big a transaction" }

/-- The locked section of `end_op`. The last operation goes on to commit. -/
def endOp (s : Sys P) (p : P) (op : Nat) : Sys P :=
  let s := { s with log := { s.log with outstanding := s.log.outstanding - 1 } }
  if s.log.committing then { s with panic := some "log.committing" }
  else if s.log.outstanding = 0 then
    { s with
      log := { s.log with committing := true }
      pc := update s.pc p (if s.log.lh.n > 0 then .writeLog 0 else .release)
      ended := op :: s.ended }
  else { s with pc := update s.pc p .idle, ended := op :: s.ended }

def nextTxn (s : Sys P) : Txn where
  updates := s.pending
  blocks := (List.range s.log.lh.n).map fun i =>
    (home s.log i, s.mach.disk (s.log.start + i + 1))

/-- One write of `write_log`, then the header write. -/
def writeLogStep (s : Sys P) (p : P) (tail : Nat) : Sys P :=
  if tail < s.log.lh.n then
    { s with
      mach := writeLogAt s.log s.mach tail
      pc := update s.pc p (.writeLog (tail + 1)) }
  else
    { s with
      mach := writeHead s.log s.mach
      pc := update s.pc p (.install 0)
      pending := []
      txns := s.txns ++ [nextTxn s] }

/-- One write of `install_trans(0)`, then `log.lh.n = 0`. -/
def installStep (s : Sys P) (p : P) (tail : Nat) : Sys P :=
  if tail < s.log.lh.n then
    { s with
      mach := installTransAt s.log false s.mach tail
      pc := update s.pc p (.install (tail + 1)) }
  else
    { s with
      log := { s.log with lh := LogHeader.empty }
      pc := update s.pc p .erase }

def commitStep (s : Sys P) (p : P) : Option (Sys P) :=
  match s.pc p with
  | .writeLog tail => some (writeLogStep s p tail)
  | .install tail => some (installStep s p tail)
  | .erase =>
    some { s with
      mach := writeHead s.log s.mach
      pc := update s.pc p .release }
  | .release =>
    some { s with
      log := { s.log with committing := false }
      pc := update s.pc p .idle }
  | _ => none

/-- The step a label stands for, where the process can take it. A modified block
lies outside the log area, as every block the file system logs does. -/
def step (s : Sys P) (a : Act P) : Option (Sys P) :=
  if s.panic.isSome then none
  else
    match a with
    | .beginOp p =>
      match s.pc p with
      | .idle => some (beginOp s p)
      | _ => none
    | .modify p b data =>
      match s.pc p with
      | .inOp op =>
        if s.holder b.toNat = none ∧ ¬inLog s.log.start b.toNat then
          some (modify s p op b data)
        else none
      | _ => none
    | .logWrite p =>
      match s.pc p with
      | .modified op b => some (logWrite s p op b)
      | _ => none
    | .endOp p =>
      match s.pc p with
      | .inOp op => some (endOp s p op)
      | _ => none
    | .commit p => commitStep s p

def Step (s : Sys P) (a : Act P) (s' : Sys P) : Prop := step s a = some s'

/-- The system after `initlog` on a machine whose on-disk header is empty. -/
def initSys (P : Type) (start : Nat) (m : Machine) : Sys P where
  log := initlog start
  mach := m
  pc := fun _ => .idle
  holder := fun _ => none
  panic := none
  nextOp := 0
  ended := []
  all := []
  pending := []
  txns := []

theorem step_cases {s s' : Sys P} {a : Act P} (h : Step s a s') :
    s.panic = none ∧
      ((∃ p, a = .beginOp p ∧ s.pc p = .idle ∧ s' = beginOp s p) ∨
      (∃ p b data op, a = .modify p b data ∧ s.pc p = .inOp op ∧ s.holder b.toNat = none ∧
        ¬inLog s.log.start b.toNat ∧ s' = modify s p op b data) ∨
      (∃ p op b, a = .logWrite p ∧ s.pc p = .modified op b ∧ s' = logWrite s p op b) ∨
      (∃ p op, a = .endOp p ∧ s.pc p = .inOp op ∧ s' = endOp s p op) ∨
      (∃ p, a = .commit p ∧ commitStep s p = some s')) := by
  simp only [Step, step] at h
  split at h
  · cases h
  · rename_i hpanic
    refine ⟨by simpa using hpanic, ?_⟩
    cases a with
    | beginOp p =>
      simp only at h
      split at h
      · rename_i hpc
        exact Or.inl ⟨p, rfl, hpc, (some.inj h).symm⟩
      · cases h
    | modify p b data =>
      simp only at h
      split at h
      · rename_i op hpc
        split at h
        · rename_i hlock
          exact Or.inr (Or.inl ⟨p, b, data, op, rfl, hpc, hlock.1, hlock.2,
            (some.inj h).symm⟩)
        · cases h
      · cases h
    | logWrite p =>
      simp only at h
      split at h
      · rename_i op b hpc
        exact Or.inr (Or.inr (Or.inl ⟨p, op, b, rfl, hpc, (some.inj h).symm⟩))
      · cases h
    | endOp p =>
      simp only at h
      split at h
      · rename_i op hpc
        exact Or.inr (Or.inr (Or.inr (Or.inl ⟨p, op, rfl, hpc, (some.inj h).symm⟩)))
      · cases h
    | commit p => exact Or.inr (Or.inr (Or.inr (Or.inr ⟨p, rfl, h⟩)))

end EafitOs.RedoLog
