import EafitOs.Foundation.Runs

/-!
# Sleep locks

A step is what runs under the spin lock inside of a sleep lock: up to a sleep in `acquiresleep`
or up to the return. A process that waits can be woken at any time, by `releasesleep` or `kkill`.
-/

namespace EafitOs.Sync

open Foundation Function

inductive SleepPc where
  | user
  | asleep
  | woken
  | holds
  deriving DecidableEq

/-- The struct `sleeplock`, with the processes that use it. -/
structure Sleeplock where
  locked : Bool
  pid : Int
  pc : Nat → SleepPc

inductive SleepAct where
  | acquiresleep (i : Nat)
  | resume (i : Nat)
  | releasesleep (i : Nat)
  | rouse (i : Nat)

namespace Sleeplock

/-- `initsleeplock`. -/
def init : Sleeplock := ⟨false, 0, fun _ => .user⟩

section

variable (pid : Nat → Int) (s : Sleeplock) (i : Nat)

/-- The loop of `acquiresleep`, up to its end or its next sleep. -/
def take : Sleeplock :=
  if s.locked then { s with pc := update s.pc i .asleep }
  else ⟨true, pid i, update s.pc i .holds⟩

def holdingsleep : Bool := s.locked && s.pid = pid i

def wakeup (pc : SleepPc) : SleepPc := if pc = .asleep then .woken else pc

/-- Only the holder releases, as its callers make sure with `holdingsleep`. -/
def step : SleepAct → Option Sleeplock
  | .acquiresleep i => if s.pc i = .user then some (s.take pid i) else none
  | .resume i => if s.pc i = .woken then some (s.take pid i) else none
  | .releasesleep i =>
    if s.pc i = .holds then some ⟨false, 0, fun j => wakeup (update s.pc i .user j)⟩ else none
  | .rouse i => some { s with pc := update s.pc i (wakeup (s.pc i)) }

end

structure Ok (pid : Nat → Int) (s : Sleeplock) : Prop where
  holder : s.locked = true → ∃ i, s.pc i = .holds
  holds : ∀ i, s.pc i = .holds → s.locked = true ∧ s.pid = pid i
  sleeps : ∀ i, s.pc i = .asleep → s.locked = true
  one : ∀ i j, s.pc i = .holds → s.pc j = .holds → i = j

variable {pid : Nat → Int} {s t : Sleeplock} {i : Nat}

theorem Ok.take (h : s.Ok pid) (hpc : s.pc i ≠ .holds) : (s.take pid i).Ok pid := by
  obtain ⟨hholder, hholds, hsleeps, hone⟩ := h
  rw [Sleeplock.take]
  split
  · obtain ⟨j, hj⟩ := hholder ‹_›
    refine ⟨fun _ => ⟨j, ?_⟩, fun k hk => ?_, fun _ _ => ‹_›, fun k l hk hl => ?_⟩ <;>
      grind [update_apply]
  · refine ⟨fun _ => ⟨i, update_self ..⟩, fun k hk => ?_, fun _ _ => rfl, fun k l hk hl => ?_⟩ <;>
      grind [update_apply]

theorem Ok.step {a : SleepAct} (h : s.Ok pid) (hs : s.step pid a = some t) : t.Ok pid := by
  cases a with
  | acquiresleep i | resume i =>
    obtain ⟨hpc, hs⟩ := Option.ite_none_right_eq_some.mp hs
    obtain rfl := Option.some.inj hs
    exact h.take (by simp [hpc])
  | releasesleep i =>
    obtain ⟨hpc, hs⟩ := Option.ite_none_right_eq_some.mp hs
    obtain rfl := Option.some.inj hs
    have hone := h.one
    refine ⟨Bool.noConfusion, fun j hj => ?_, fun j hj => ?_, fun j k hj hk => ?_⟩ <;>
      grind [update_apply, wakeup]
  | rouse i =>
    obtain rfl := Option.some.inj hs
    obtain ⟨hholder, hholds, hsleeps, hone⟩ := h
    refine ⟨fun hl => ?_, fun j hj => ?_, fun j hj => ?_, fun j k hj hk => ?_⟩
    · obtain ⟨j, hj⟩ := hholder hl
      exact ⟨j, by grind [update_apply, wakeup]⟩
    all_goals grind [update_apply, wakeup]

/-- A sleep lock has at most one holder, `holdingsleep` answers for it exactly, and nobody sleeps
while the lock is free, whoever is woken when. -/
theorem sleeplock_exclusive (hpid : Injective pid) {ls : List SleepAct}
    (run : Run (fun s a t => s.step pid a = some t) init ls s) :
    (∀ i j, s.pc i = .holds → s.pc j = .holds → i = j) ∧
      (∀ i, s.holdingsleep pid i = true ↔ s.pc i = .holds) ∧
      ∀ i, s.pc i = .asleep → ∃ j, s.pc j = .holds := by
  have hinit : init.Ok pid := ⟨Bool.noConfusion, fun _ h => (by cases h), fun _ h => (by cases h),
    fun _ _ h => (by cases h)⟩
  obtain ⟨hholder, hholds, hsleeps, hone⟩ := run.invariant (Ok pid) hinit fun _ _ _ => Ok.step
  refine ⟨hone, fun i => ⟨fun h => ?_, fun h => ?_⟩, fun i h => hholder (hsleeps i h)⟩
  · obtain ⟨hlocked, heq⟩ := Bool.and_eq_true_iff.mp h
    obtain ⟨j, hj⟩ := hholder hlocked
    rwa [← hpid ((hholds j hj).2.symm.trans (of_decide_eq_true heq))]
  · simp [holdingsleep, hholds i h]

theorem sleeplock_exclusive_two : ∃ s : Sleeplock, s.pc 2 = .asleep ∧ ∃ j, s.pc j = .holds := by
  have h : ∃ s ∈ exec (step Int.ofNat) init [.acquiresleep 1, .acquiresleep 2],
      s.pc 2 = .asleep := by
    decide +kernel
  obtain ⟨s, hs, hpc⟩ := h
  exact ⟨s, hpc, (sleeplock_exclusive (fun _ _ => Int.ofNat.inj) (.of_exec hs)).2.2 2 hpc⟩

end Sleeplock

end EafitOs.Sync
