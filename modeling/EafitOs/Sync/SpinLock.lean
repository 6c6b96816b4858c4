import EafitOs.Foundation.Runs

/-!
# Spin locks

The code of a spin lock under every interleaving of the cpus. A step is one access that another
cpu can see: `holding` reads the two fields of a lock one after the other, and a lock is taken
and given up by an atomic swap. `push_off` and `pop_off` touch only their own cpu and are one
step each. A cpu holds the locks whose swap it has won and not yet undone.
-/

namespace EafitOs.Sync

open Foundation Function

/-- The struct `spinlock`, with `none` for no cpu. -/
structure Spinlock (n : Nat) where
  locked : Bool
  cpu : Option (Fin n)

/-- Where a cpu is: outside of the lock functions, or before the access of that name. The first
two are in `holding`, for `acquire` or else for `release`. -/
inductive LockPc (κ : Type*) where
  | run
  | readLocked (acquire : Bool) (lk : κ)
  | readCpu (acquire : Bool) (lk : κ)
  | swap (lk : κ)
  | setCpu (lk : κ)
  | clearCpu (lk : κ)
  | unlock (lk : κ)
  | popOff
  | panicked (msg : String)
  deriving DecidableEq

/-- The fields of the struct `cpu` for locks, the interrupt enable bit `intr`, and, for the
proofs, the locks that are held and the calls of `push_off` that are open. -/
structure LockCpu (κ : Type*) where
  pc : LockPc κ
  noff : Nat
  intena : Bool
  intr : Bool
  held : List κ
  pushes : Nat

/-- What code outside of the lock functions does, or a step within them. `setIntena` is the
assignment of `sched` after a switch. -/
inductive LockAct (κ : Type*) where
  | acquire (lk : κ)
  | release (lk : κ)
  | pushOff
  | popOff
  | setIntr (b : Bool)
  | setIntena (b : Bool)
  | next
  deriving DecidableEq

variable {n : Nat} {κ : Type*}

namespace LockCpu

variable (c : LockCpu κ)

def pushOff : LockCpu κ :=
  { c with intr := false, intena := if c.noff = 0 then c.intr else c.intena, noff := c.noff + 1 }

def popOff : LockCpu κ :=
  if c.intr then { c with pc := .panicked "pop_off - interruptible" }
  else if c.noff < 1 then { c with pc := .panicked "pop_off" }
  else { c with pc := .run, noff := c.noff - 1, intr := c.noff - 1 = 0 && c.intena }

def call : LockAct κ → LockCpu κ
  | .acquire lk => { c.pushOff with pc := .readLocked true lk }
  | .release lk => { c with pc := .readLocked false lk }
  | .pushOff => { c.pushOff with pushes := c.pushes + 1 }
  | .popOff => { c.popOff with pushes := c.pushes - 1 }
  | .setIntr b => { c with intr := b }
  | .setIntena b => { c with intena := b }
  | .next => c

/-- What the callers keep to: a `pop_off` has its `push_off`, and interrupts are turned on only
outside of all of them. -/
def Allowed : LockAct κ → Prop
  | .popOff => 0 < c.pushes
  | .setIntr b => b = true → c.noff = 0
  | _ => True

instance decidableAllowed : ∀ a, Decidable (c.Allowed a)
  | .popOff => inferInstanceAs (Decidable (0 < c.pushes))
  | .setIntr b => inferInstanceAs (Decidable (b = true → c.noff = 0))
  | .acquire _ | .release _ | .pushOff | .setIntena _ | .next => inferInstanceAs (Decidable True)

end LockCpu

/-- The end of `holding`, in `acquire` or in `release`. -/
def LockPc.holding (lk : κ) (acquire held : Bool) : LockPc κ :=
  if acquire then if held then .panicked "acquire" else .swap lk
  else if held then .clearCpu lk else .panicked "release"

structure Locks (n : Nat) (κ : Type*) where
  lock : κ → Spinlock n
  cpu : Fin n → LockCpu κ

namespace Locks

/-- Every lock after `initlock`. -/
def init (intr : Fin n → Bool) : Locks n κ where
  lock _ := ⟨false, none⟩
  cpu i := ⟨.run, 0, false, intr i, [], 0⟩

variable (s : Locks n κ) (i : Fin n)

def setCpu (c : LockCpu κ) : Locks n κ := { s with cpu := update s.cpu i c }

@[grind =] theorem setCpu_cpu (j : Fin n) (c : LockCpu κ) :
    (s.setCpu i c).cpu j = if j = i then c else s.cpu j := update_apply ..

@[grind =] theorem setCpu_lock (lk : κ) (c : LockCpu κ) : (s.setCpu i c).lock lk = s.lock lk := rfl

variable [DecidableEq κ]

def setLock (lk : κ) (l : Spinlock n) : Locks n κ := { s with lock := update s.lock lk l }

@[grind =] theorem setLock_lock (lk lk' : κ) (l : Spinlock n) :
    (s.setLock lk l).lock lk' = if lk' = lk then l else s.lock lk' := update_apply ..

@[grind =] theorem setLock_cpu (lk : κ) (l : Spinlock n) : (s.setLock lk l).cpu i = s.cpu i := rfl

/-- The next access of a cpu that is within `acquire` or `release`. -/
def next : Option (Locks n κ) :=
  let c := s.cpu i
  match c.pc with
  | .run => none
  | .readLocked a lk =>
    s.setCpu i { c with pc := if (s.lock lk).locked then .readCpu a lk else .holding lk a false }
  | .readCpu a lk => s.setCpu i { c with pc := .holding lk a ((s.lock lk).cpu = some i) }
  | .swap lk =>
    if (s.lock lk).locked then s
    else
      (s.setLock lk { s.lock lk with locked := true }).setCpu i
        { c with pc := .setCpu lk, held := lk :: c.held }
  | .setCpu lk => (s.setLock lk { s.lock lk with cpu := some i }).setCpu i { c with pc := .run }
  | .clearCpu lk =>
    (s.setLock lk { s.lock lk with cpu := none }).setCpu i { c with pc := .unlock lk }
  | .unlock lk =>
    (s.setLock lk { s.lock lk with locked := false }).setCpu i
      { c with pc := .popOff, held := c.held.erase lk }
  | .popOff => s.setCpu i c.popOff
  | .panicked _ => none

def step (l : Fin n × LockAct κ) : Option (Locks n κ) :=
  if l.2 = .next then s.next l.1
  else if (s.cpu l.1).pc = .run then s.setCpu l.1 ((s.cpu l.1).call l.2) else none

/-- The steps of code whose calls are allowed. -/
def LockStep : Locks n κ → Fin n × LockAct κ → Locks n κ → Prop :=
  guarded (fun s l => (s.cpu l.1).Allowed l.2) fun s l t => s.step l = some t

end Locks

/-- The `push_off` of an `acquire` that has no lock yet, or of a `release` that has none
left. -/
def LockPc.extra : LockPc κ → Nat
  | .readLocked a _ | .readCpu a _ => a.toNat
  | .swap _ | .popOff => 1
  | .panicked msg => if msg = "acquire" then 1 else 0
  | _ => 0

/-- What a cpu knows of the lock it works on. -/
def LockCpu.Knows (c : LockCpu κ) : Prop :=
  match c.pc with
  | .swap lk => lk ∉ c.held
  | .setCpu lk | .clearCpu lk | .unlock lk => lk ∈ c.held
  | _ => True

/-- The lock is held, and its field `cpu` says so. -/
def LockCpu.Shows (c : LockCpu κ) (lk : κ) : Prop :=
  lk ∈ c.held ∧ c.pc ≠ .setCpu lk ∧ c.pc ≠ .unlock lk

structure LockCpu.Ok (c : LockCpu κ) : Prop where
  nodup : c.held.Nodup
  knows : c.Knows
  depth : c.noff = c.held.length + c.pushes + c.pc.extra
  off : 0 < c.noff → c.intr = false

/-- The locks as their users see them, with the owner of each: a cpu does nothing to them, takes
a free one, or gives up one of its own. -/
inductive AtomicStep [DecidableEq κ] (i : Fin n) (owner : κ → Option (Fin n)) :
    (κ → Option (Fin n)) → Prop
  | stay : AtomicStep i owner owner
  | take {lk} : owner lk = none → AtomicStep i owner (update owner lk (some i))
  | give {lk} : owner lk = some i → AtomicStep i owner (update owner lk none)

structure Locks.OwnedBy (s : Locks n κ) (owner : κ → Option (Fin n)) : Prop where
  locked : ∀ lk, (s.lock lk).locked = (owner lk).isSome
  held : ∀ lk i, lk ∈ (s.cpu i).held ↔ owner lk = some i

structure Locks.Ok (s : Locks n κ) (owner : κ → Option (Fin n)) : Prop extends s.OwnedBy owner where
  each : ∀ i, (s.cpu i).Ok
  cpu : ∀ lk i, (s.lock lk).cpu = some i ↔ (s.cpu i).Shows lk

theorem LockCpu.call_frame {c : LockCpu κ} (hpc : c.pc = .run) (a : LockAct κ) :
    (c.call a).held = c.held ∧ ∀ lk, (c.call a).Shows lk ↔ c.Shows lk := by
  cases a <;> grind [LockCpu.call, pushOff, popOff, Shows]

theorem LockCpu.Ok.call {c : LockCpu κ} (h : c.Ok) (hpc : c.pc = .run) {a : LockAct κ}
    (ha : c.Allowed a) : (c.call a).Ok := by
  obtain ⟨hnodup, -, hdepth, hoff⟩ := h
  refine ⟨(call_frame hpc a).1 ▸ hnodup, ?_, ?_, ?_⟩ <;>
    cases a <;> grind [LockCpu.call, pushOff, popOff, Allowed, Knows, LockPc.extra]

namespace Locks

theorem init_ok (intr : Fin n → Bool) : (init intr : Locks n κ).Ok fun _ => none where
  locked lk := rfl
  held lk i := by simp [init]
  each i := ⟨List.nodup_nil, trivial, rfl, fun h => absurd h (Nat.lt_irrefl 0)⟩
  cpu lk i := by simp [init, LockCpu.Shows]

variable {s t : Locks n κ} {i : Fin n} {owner : κ → Option (Fin n)}

/-- A cpu changes, and what it holds and shows stays. -/
theorem Ok.keep (h : s.Ok owner) {c : LockCpu κ} (hc : c.Ok) (hheld : c.held = (s.cpu i).held)
    (hshows : ∀ lk, c.Shows lk ↔ (s.cpu i).Shows lk) : (s.setCpu i c).Ok owner := by
  obtain ⟨⟨hlocked, howner⟩, heach, hcpu⟩ := h
  exact ⟨⟨by grind, by grind⟩, by grind, by grind⟩

variable [DecidableEq κ]

theorem Ok.next (h : s.Ok owner) (hs : s.next i = some t) :
    ∃ owner', t.Ok owner' ∧ AtomicStep i owner owner' := by
  obtain ⟨⟨hlocked, howner⟩, heach, hcpu⟩ := id h
  obtain ⟨hnodup, hknows, hdepth, hoff⟩ := heach i
  cases hpc : (s.cpu i).pc with
  | run | panicked => simp [Locks.next, hpc] at hs
  | readLocked a lk | readCpu a lk =>
    simp only [Locks.next, hpc, Option.some.injEq] at hs
    subst hs
    refine ⟨owner, h.keep ⟨hnodup, ?_, ?_, hoff⟩ rfl ?_, .stay⟩ <;>
      grind [LockCpu.Knows, LockPc.extra, LockCpu.Shows, LockPc.holding]
  | popOff =>
    simp only [Locks.next, hpc, Option.some.injEq] at hs
    subst hs
    refine ⟨owner, h.keep ?_ ?_ ?_, .stay⟩ <;>
      grind [LockCpu.Knows, LockPc.extra, LockCpu.Shows, LockCpu.popOff, LockCpu.Ok]
  | swap lk =>
    simp only [Locks.next, hpc] at hs
    split at hs
    · obtain rfl := Option.some.inj hs
      exact ⟨owner, h, .stay⟩
    · rename_i hfree
      obtain rfl := Option.some.inj hs
      refine ⟨_, ⟨⟨?_, ?_⟩, ?_, ?_⟩, .take (by simpa [hlocked] using hfree)⟩ <;>
        grind [LockCpu.Ok, LockCpu.Knows, LockPc.extra, LockCpu.Shows, update_apply]
  | setCpu lk | clearCpu lk =>
    simp only [Locks.next, hpc, Option.some.injEq] at hs
    subst hs
    refine ⟨owner, ⟨⟨?_, ?_⟩, ?_, ?_⟩, .stay⟩ <;>
      grind [LockCpu.Ok, LockCpu.Knows, LockPc.extra, LockCpu.Shows]
  | unlock lk =>
    simp only [Locks.next, hpc, Option.some.injEq] at hs
    subst hs
    have howns : owner lk = some i := (howner lk i).mp (by simpa [LockCpu.Knows, hpc] using hknows)
    refine ⟨_, ⟨⟨?_, ?_⟩, ?_, ?_⟩, .give howns⟩ <;>
      grind [LockCpu.Ok, LockCpu.Knows, LockPc.extra, LockCpu.Shows, update_apply]

theorem Ok.step {l : Fin n × LockAct κ} (h : s.Ok owner) (hs : LockStep s l t) :
    ∃ owner', t.Ok owner' ∧ AtomicStep l.1 owner owner' := by
  obtain ⟨hallowed, hs⟩ := hs
  rw [Locks.step] at hs
  split at hs
  · exact h.next hs
  · split at hs
    · rename_i hpc
      obtain rfl := Option.some.inj hs
      obtain ⟨hheld, hshows⟩ := LockCpu.call_frame hpc l.2
      exact ⟨owner, h.keep ((h.each l.1).call hpc hallowed) hheld hshows, .stay⟩
    · cases hs

variable {intr : Fin n → Bool} {ls : List (Fin n × LockAct κ)}

theorem ok_run (run : Run LockStep (init intr) ls s) : ∃ owner, s.Ok owner :=
  run.invariant (fun s => ∃ owner, s.Ok owner) ⟨_, init_ok intr⟩ fun _ _ _ ⟨_, h⟩ hs =>
    (h.step hs).imp fun _ => And.left

/-- However the cpus interleave, the code of the locks does what atomic locks do: a lock has one
owner at a time, who holds it, it is locked exactly while it has an owner, and a step of a cpu
takes only a free lock and gives up only its own. -/
theorem spinlock_refines (run : Run LockStep (init intr) ls s) :
    ∃ owner, s.OwnedBy owner ∧ ∀ l t, LockStep s l t →
      ∃ owner', t.OwnedBy owner' ∧ AtomicStep l.1 owner owner' := by
  obtain ⟨owner, h⟩ := ok_run run
  refine ⟨owner, h.toOwnedBy, fun l t hs => ?_⟩
  obtain ⟨owner', h', hstep⟩ := h.step hs
  exact ⟨owner', h'.toOwnedBy, hstep⟩

/-- The depth of a cpu counts its locks and its open calls of `push_off`, and its interrupts are
off while there is one. -/
theorem spinlock_interrupts (run : Run LockStep (init intr) ls s) (i : Fin n) :
    (s.cpu i).held.Nodup ∧
      (s.cpu i).noff = (s.cpu i).held.length + (s.cpu i).pushes + (s.cpu i).pc.extra ∧
      (0 < (s.cpu i).noff → (s.cpu i).intr = false) := by
  obtain ⟨owner, h⟩ := ok_run run
  exact ⟨(h.each i).nodup, (h.each i).depth, (h.each i).off⟩

/-- The panics of the lock functions are exact: the swap is only for a lock that the cpu does
not hold, the stores of `release` are only for one that it holds, and nothing else panics. -/
theorem spinlock_panics (run : Run LockStep (init intr) ls s) (i : Fin n) :
    (∀ lk, (s.cpu i).pc = .swap lk → lk ∉ (s.cpu i).held) ∧
      (∀ lk, (s.cpu i).pc = .clearCpu lk → lk ∈ (s.cpu i).held) ∧
      ∀ a t msg, LockStep s (i, a) t → (t.cpu i).pc = .panicked msg →
        ∃ lk, (s.cpu i).pc = .readCpu true lk ∧ lk ∈ (s.cpu i).held ∧ msg = "acquire" ∨
          ((s.cpu i).pc = .readLocked false lk ∨ (s.cpu i).pc = .readCpu false lk) ∧
            lk ∉ (s.cpu i).held ∧ msg = "release" := by
  obtain ⟨owner, ⟨hlocked, howner⟩, heach, hcpu⟩ := ok_run run
  obtain ⟨-, hknows, hdepth, hoff⟩ := heach i
  refine ⟨fun lk hpc => ?_, fun lk hpc => ?_, fun a t msg hs hp => ?_⟩
  · rwa [LockCpu.Knows, hpc] at hknows
  · rwa [LockCpu.Knows, hpc] at hknows
  · obtain ⟨hallowed, hs⟩ := hs
    simp only [Locks.step] at hs hallowed
    split at hs
    · cases hpc : (s.cpu i).pc <;> simp only [Locks.next, hpc] at hs <;>
        grind [LockPc.holding, LockCpu.Shows, LockCpu.popOff, LockPc.extra]
    · cases a <;> grind [LockCpu.call, LockCpu.popOff, LockCpu.Allowed, LockCpu.pushOff]

/-- Cpu 0 has taken lock 5, and cpu 1 spins for it. -/
theorem contended : ∃ (ls : List (Fin 2 × LockAct Nat)) (s : Locks 2 Nat),
    Run LockStep (init fun _ => true) ls s ∧ 5 ∈ (s.cpu 0).held ∧ (s.cpu 1).pc = .swap 5 := by
  let take (i : Fin 2) : List (Fin 2 × LockAct Nat) := (i, .acquire 5) :: .replicate 3 (i, .next)
  have h : ∃ s ∈ exec (checked (fun s l => (s.cpu l.1).Allowed l.2) fun s => s.step)
      (init fun _ => true) (take 0 ++ take 1), 5 ∈ (s.cpu 0).held ∧ (s.cpu 1).pc = .swap 5 := by
    decide +kernel
  obtain ⟨s, hs, hfacts⟩ := h
  exact ⟨_, s, .of_checked hs, hfacts⟩

theorem spinlock_refines_contended : ∃ (s : Locks 2 Nat) (owner : Nat → Option (Fin 2)),
    s.OwnedBy owner ∧ owner 5 = some 0 ∧ (s.cpu 1).pc = .swap 5 := by
  obtain ⟨ls, s, run, hheld, hpc⟩ := contended
  obtain ⟨owner, h, -⟩ := spinlock_refines run
  exact ⟨s, owner, h, (h.held 5 0).mp hheld, hpc⟩

theorem spinlock_interrupts_contended : ∃ s : Locks 2 Nat,
    5 ∈ (s.cpu 0).held ∧ (s.cpu 0).intr = false := by
  obtain ⟨ls, s, run, hheld, -⟩ := contended
  obtain ⟨-, hdepth, hoff⟩ := spinlock_interrupts run 0
  have hlength := List.length_pos_of_mem hheld
  exact ⟨s, hheld, hoff (by omega)⟩

theorem spinlock_panics_contended : ∃ s : Locks 2 Nat,
    (s.cpu 1).pc = .swap 5 ∧ 5 ∉ (s.cpu 1).held := by
  obtain ⟨ls, s, run, -, hpc⟩ := contended
  exact ⟨s, hpc, (spinlock_panics run 1).1 5 hpc⟩

end Locks

end EafitOs.Sync
