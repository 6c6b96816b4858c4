import EafitOs.Process.Control

/-!
# Parents and children

Every process that was started has a live parent. A process in the middle of `kfork`, `kexit`
or `kwait` knows something about the table that the sections of the other processes keep: the
slot it is setting up, or that the slots it has passed are not its children.
-/

namespace EafitOs.Process

open Foundation Function

variable {n : Nat} {initproc i : Fin n} {s t : State n} {sec : Section n}

def State.Passed (s : State n) (i : Fin n) (j : Nat) : Prop :=
  ∀ k : Fin n, k.val < j → (s.proc k).parent ≠ some i

theorem State.Passed.zero : s.Passed i 0 :=
  fun k hk => absurd hk (Nat.not_lt_zero k)

theorem State.Passed.succ {k : Fin n} (h : s.Passed i k) (hk : (s.proc k).parent ≠ some i) :
    s.Passed i (k + 1) := by
  intro j hj
  obtain hlt | heq := Nat.lt_succ_iff_lt_or_eq.mp hj
  · exact h j hlt
  · rwa [Fin.ext heq]

/-- What process `i` knows about the table at its place. -/
def Pc.Knows (initproc : Fin n) (s : State n) (i : Fin n) : Pc n → Prop
  | .kforkParent np => (s.proc np).state = .used ∧ (s.proc np).parent = none
  | .kforkRun np => (s.proc np).state = .used ∧ (s.proc np).parent = some i
  | .kexit _ => i ≠ initproc
  | .reparent _ j | .wakeup _ _ (.reparent _ j) => i ≠ initproc ∧ s.Passed i j
  | .zombie _ | .wakeup _ _ (.zombie _) => i ≠ initproc ∧ s.Passed i n
  | .scan _ j false => s.Passed i j
  | _ => True

/-- The slot that a process in `kfork` is setting up. -/
def Pc.child : Pc n → Option (Fin n)
  | .kforkParent np | .kforkRun np => some np
  | _ => none

theorem Pc.child_cases {pc : Pc n} {np : Fin n} (h : pc.child = some np) :
    pc = .kforkParent np ∨ pc = .kforkRun np := by
  cases pc <;> simp_all [Pc.child]

theorem Pc.Knows.mono {pc : Pc n} (h : pc.Knows initproc s i)
    (hstate : ∀ k, (s.proc k).state = .used → (t.proc k).state = .used)
    (hparent : ∀ k, (t.proc k).parent = (s.proc k).parent) : pc.Knows initproc t i := by
  have hpassed : ∀ j, s.Passed i j → t.Passed i j := fun j hj k hk => hparent k ▸ hj k hk
  cases pc with
  | kforkParent np => exact ⟨hstate np h.1, (hparent np).trans h.2⟩
  | kforkRun np => exact ⟨hstate np h.1, (hparent np).trans h.2⟩
  | kexit status => exact h
  | reparent status j => exact ⟨h.1, hpassed _ h.2⟩
  | zombie status => exact ⟨h.1, hpassed _ h.2⟩
  | scan addr j havekids =>
    cases havekids with
    | false => exact hpassed _ h
    | true => trivial
  | wakeup chan j next =>
    cases next with
    | reparent status j => exact ⟨h.1, hpassed _ h.2⟩
    | zombie status => exact ⟨h.1, hpassed _ h.2⟩
    | _ => trivial
  | _ => trivial

theorem Pc.Knows.resumed {pc : Pc n} (h : pc.Knows initproc s i) :
    (State.resumed pc).Knows initproc s i := by
  cases pc <;> exact h

structure Family (initproc : Fin n) (s : State n) : Prop where
  live : ∀ k q, (s.proc k).parent = some q → (s.proc q).isLive = true
  parented : ∀ k, k ≠ initproc → (s.proc k).state ≠ .unused → (s.proc k).state ≠ .used →
    (s.proc k).parent ≠ none
  root : (s.proc initproc).parent = none
  rootLive : (s.proc initproc).state ≠ .unused ∧ (s.proc initproc).state ≠ .used ∧
    (s.proc initproc).state ≠ .zombie
  free : ∀ k, (s.proc k).state = .unused → (s.proc k).parent = none
  knows : ∀ i, (s.pc i).Knows initproc s i
  forks : ∀ i j np, (s.pc i).child = some np → (s.pc j).child = some np → i = j

namespace Family

section

variable (h : Family initproc s)
include h

section

variable (hd : Does initproc s i sec t)
include hd

theorem live_step (k q : Fin n) (hk : (t.proc k).parent = some q) : (t.proc q).isLive = true := by
  have hfrom := hd.takes.from
  have hrun := hd.runs
  have hlive := h.live k
  have hknows := h.knows i
  have hroot := h.rootLive
  rw [hd.performed.proc] at hk ⊢
  simp only [Proc.isLive] at hlive ⊢
  cases heff : sec.effect <;> grind [Pc.Knows, State.Passed]

theorem parented_step (k : Fin n) (hk : k ≠ initproc)
    (hunused : (t.proc k).state ≠ .unused) (hused : (t.proc k).state ≠ .used) :
    (t.proc k).parent ≠ none := by
  have hfrom := hd.takes.from
  have hrun := hd.runs
  have hparented := h.parented k hk
  have hknows := h.knows i
  rw [hd.performed.proc] at hunused hused ⊢
  cases heff : sec.effect <;> grind [Pc.Knows]

theorem root_step : (t.proc initproc).parent = none ∧ (t.proc initproc).state ≠ .unused ∧
      (t.proc initproc).state ≠ .used ∧ (t.proc initproc).state ≠ .zombie := by
  have hfrom := hd.takes.from
  have hknows := h.knows i
  have hroot := h.root
  have hlive := h.rootLive
  rw [hd.performed.proc]
  cases heff : sec.effect <;> grind [Pc.Knows]

theorem free_step (k : Fin n) (hk : (t.proc k).state = .unused) : (t.proc k).parent = none := by
  have hfrom := hd.takes.from
  have hknows := h.knows i
  have hfree := h.free k
  have hlive := h.live k
  rw [hd.performed.proc] at hk ⊢
  cases heff : sec.effect <;> grind [Pc.Knows]

end

theorem knows_skip (ht : Takes initproc s i sec)
    (hskip : sec.effect = .skip) : sec.pc.Knows initproc s i := by
  have hknows := h.knows i
  cases ht with
  | call c _ hexit =>
      cases c <;> simp_all [Call.start, Pc.Knows]
  | loop l _ hsec => cases hsec <;> trivial
  | held l _ hsec => cases hsec <;> trivial
  | wakeupDone chan j next hpc _ =>
    rw [hpc] at hknows
    cases next <;> exact hknows
  | wakeupSelf chan next hpc =>
    rw [hpc] at hknows
    cases next <;> exact hknows
  | reacquire next _ =>
    cases next with
    | kwait addr => exact State.Passed.zero
    | _ => trivial
  | kexit status hpc =>
    rw [hpc] at hknows
    exact ⟨hknows, .zero⟩
  | kwait addr _ => exact State.Passed.zero
  | reparentNext status k hpc hparent =>
    rw [hpc] at hknows
    exact ⟨hknows.1, hknows.2.succ hparent⟩
  | reparented status j hpc hj =>
    rw [hpc] at hknows
    exact ⟨hknows.1, fun k _ => hknows.2 k (k.isLt.trans_le hj)⟩
  | scanNext addr k havekids hpc hparent =>
    rw [hpc] at hknows
    cases havekids with
    | false => exact State.Passed.succ hknows hparent
    | true => trivial
  | allocprocNext | allocprocFull | scanChild | waitSleep | killNext | killNone | release => trivial
  | _ => cases hskip

end

theorem passed_other (hc : Control s) (hd : Does initproc s i sec t) {j : Fin n} {m : Nat}
    (hj : j ≠ i) (hlock : (s.pc j).holds = some .wait) (hpassed : s.Passed j m) :
    t.Passed j m := by
  intro k hk
  have hfrom := hd.takes.from
  have hold := hpassed k hk
  have hfree : (s.pc i).holds ≠ some .wait := fun hi => hj (hc.exclusive hlock hi)
  rw [hd.performed.proc]
  cases heff : sec.effect <;> grind [Pc.holds]

theorem child_other (h : Family initproc s) (hd : Does initproc s i sec t) {j np : Fin n}
    (hj : j ≠ i) (hchild : (s.pc j).child = some np) :
    (t.proc np).state = (s.proc np).state ∧ (t.proc np).parent = (s.proc np).parent := by
  have hfrom := hd.takes.from
  have hrun := hd.runs
  have hmine : (s.pc i).child ≠ some np := fun hi => hj (h.forks j i np hchild hi)
  have hknows : (s.proc np).state = .used ∧ (s.proc np).parent ≠ some i := by
    have hknows := h.knows j
    obtain hpc | hpc := Pc.child_cases hchild <;> rw [hpc] at hknows
    · exact ⟨hknows.1, by rw [hknows.2]; exact Option.some_ne_none i ∘ Eq.symm⟩
    · exact ⟨hknows.1, by rw [hknows.2]; exact hj ∘ Option.some.inj⟩
  rw [hd.performed.proc]
  cases heff : sec.effect <;> grind [Pc.child]

theorem knows_other (h : Family initproc s) (hc : Control s) (hd : Does initproc s i sec t)
    {j : Fin n} (hj : j ≠ i) : (s.pc j).Knows initproc t j := by
  have hknows := h.knows j
  have hpassed := fun m => passed_other (m := m) hc hd hj
  have hchild (np : Fin n) (hnp : (s.pc j).child = some np) := h.child_other hd hj hnp
  cases hpc : s.pc j <;> rw [hpc] at hknows hpassed hchild
  case kforkParent np =>
    obtain ⟨hstate, hparent⟩ := hchild np rfl
    exact ⟨hstate.trans hknows.1, hparent.trans hknows.2⟩
  case kforkRun np =>
    obtain ⟨hstate, hparent⟩ := hchild np rfl
    exact ⟨hstate.trans hknows.1, hparent.trans hknows.2⟩
  case kexit status => exact hknows
  case reparent status j => exact ⟨hknows.1, hpassed _ rfl hknows.2⟩
  case zombie status => exact ⟨hknows.1, hpassed _ rfl hknows.2⟩
  case scan addr j havekids =>
    cases havekids with
    | false => exact hpassed _ rfl hknows
    | true => trivial
  case wakeup chan j next =>
    cases next with
    | reparent status j => exact ⟨hknows.1, hpassed _ rfl hknows.2⟩
    | zombie status => exact ⟨hknows.1, hpassed _ rfl hknows.2⟩
    | _ => trivial
  all_goals trivial

theorem knows_own (h : Family initproc s) (hd : Does initproc s i sec t) :
    sec.pc.Knows initproc t i := by
  have hfrom := hd.takes.from
  have hrun := hd.runs
  have hknows := h.knows i
  have hproc := hd.performed.proc
  cases heff : sec.effect <;> rw [heff] at hfrom hrun hproc <;>
    simp only [Effect.slot, Effect.change, Effect.From] at hfrom hproc
  case skip =>
    exact (h.knows_skip hd.takes heff).mono (fun k hk => by rw [hproc]; exact hk)
      (fun k => by rw [hproc]; rfl)
  case allocproc k ok =>
    obtain ⟨_, hunused, hpc⟩ := hfrom
    rw [hpc]
    cases ok with
    | false => trivial
    | true => exact ⟨by grind, by grind [h.free k hunused]⟩
  case setParent k q =>
    obtain ⟨hpc, rfl, hpc'⟩ | ⟨status, hpc, rfl, _, hpc'⟩ := hfrom <;>
      rw [hpc] at hknows <;> rw [hpc']
    · exact ⟨by grind [hknows.1], by grind⟩
    · refine ⟨hknows.1, State.Passed.succ (fun j hj => ?_) ?_⟩
      · grind [hknows.2 j hj]
      · grind [hknows.1]
  case wake chan k =>
    obtain ⟨next, hpc, _, hpc'⟩ := hfrom
    rw [hpc] at hknows
    rw [hpc']
    have hnext : (Pc.wakeup chan (k + 1) next).Knows initproc s i := by
      cases next <;> exact hknows
    exact hnext.mono (by grind) (by grind)
  case run =>
    rw [hfrom.2]
    exact hknows.resumed.mono (by grind) (by grind)
  case yield =>
    rw [hfrom.2]
    exact hknows.mono (by grind) (by grind)
  all_goals grind [Pc.Knows]

theorem knows_step (h : Family initproc s) (hc : Control s) (hd : Does initproc s i sec t)
    (j : Fin n) : (t.pc j).Knows initproc t j := by
  rw [hd.performed.pc]
  by_cases hj : j = i
  · rw [hj, update_self]
    exact h.knows_own hd
  · rw [update_of_ne hj]
    exact h.knows_other hc hd hj

theorem child_resumed {pc : Pc n} {np : Fin n} (h : (State.resumed pc).child = some np) :
    pc.child = some np := by
  cases pc <;> exact h

theorem child_own (ht : Takes initproc s i sec) {np : Fin n} (h : sec.pc.child = some np) :
    (s.pc i).child = some np ∨ sec.effect = .allocproc np true := by
  cases ht with
  | call c _ _ => cases c <;> cases h
  | loop l _ hsec => cases hsec <;> cases h
  | held l _ hsec => cases hsec <;> cases h
  | wakeupDone chan j next _ _ => cases next <;> cases h
  | reacquire next _ => cases next <;> cases h
  | schedule _ => exact .inl (child_resumed h)
  | _ => simp_all [Pc.child]

theorem forks_step (h : Family initproc s) (hd : Does initproc s i sec t) (a b np : Fin n)
    (ha : (t.pc a).child = some np) (hb : (t.pc b).child = some np) : a = b := by
  -- a slot that is allocated is set up by nobody yet
  have hother : ∀ j, j ≠ i → (s.pc j).child = some np → sec.pc.child ≠ some np := by
    intro j hj hchild hown
    obtain hown | heff := child_own hd.takes hown
    · exact hj (h.forks j i np hchild hown)
    · have hfrom := hd.takes.from
      have hknows := h.knows j
      rw [heff] at hfrom
      obtain hpc | hpc := Pc.child_cases hchild <;> rw [hpc] at hknows <;>
        cases hfrom.2.1.symm.trans hknows.1
  rw [hd.performed.pc, update_apply] at ha hb
  split at ha <;> split at hb
  · simp_all
  · exact absurd ha (hother b ‹_› hb)
  · exact absurd hb (hother a ‹_› ha)
  · exact h.forks a b np ha hb

protected theorem perform (h : Family initproc s) (hc : Control s)
    (hd : Does initproc s i sec t) : Family initproc t where
  live := h.live_step hd
  parented := h.parented_step hd
  root := (h.root_step hd).1
  rootLive := (h.root_step hd).2
  free := h.free_step hd
  knows := h.knows_step hc hd
  forks := h.forks_step hd

protected theorem userinit (initproc : Fin n) : Family initproc (userinit initproc) := by
  have hproc : ∀ k, ((userinit initproc).proc k).parent = none := by
    intro k
    by_cases hk : k = initproc
    · rw [hk, userinit_self]
      rfl
    · rw [userinit_of_ne hk]
      rfl
  refine ⟨?_, ?_, hproc _, ?_, fun k _ => hproc k, fun _ => trivial, ?_⟩
  · intro k q hk
    rw [hproc] at hk
    cases hk
  · intro k hk hunused
    rw [userinit_of_ne hk] at hunused
    exact absurd rfl hunused
  · rw [userinit_self]
    exact ⟨nofun, nofun, nofun⟩
  · intro i j np hi
    cases hi

end Family

end EafitOs.Process
