import EafitOs.Foundation.RingBuffer
import EafitOs.Foundation.Runs

/-!
# Pipes

A pipe is a page with a ring of `pipesize` bytes and two 32-bit counters. Writers and readers work
under the pipe's lock. They give the lock up when they return and when they sleep, so the model
takes one step for each stretch between two such points.
-/

namespace EafitOs.Sync

open List Option

open Foundation

def pipesize : Nat := 512

/-- The range of the counters `nread` and `nwrite`. -/
def uintRange : Nat := 2 ^ 32

structure Pipe where
  data : Nat → UInt8
  nread : Nat
  nwrite : Nat
  readopen : Bool
  writeopen : Bool

namespace Pipe

def isEmpty (pi : Pipe) : Bool :=
  pi.nread = pi.nwrite

/-- `nwrite == nread + PIPESIZE` in unsigned arithmetic. -/
def isFull (pi : Pipe) : Bool :=
  pi.nwrite = (pi.nread + pipesize) % uintRange

/-- `data[nwrite++ % PIPESIZE] = ch`. -/
def put (pi : Pipe) (ch : UInt8) : Pipe :=
  { pi with
    data := Function.update pi.data (pi.nwrite % pipesize) ch
    nwrite := (pi.nwrite + 1) % uintRange }

def front (pi : Pipe) : UInt8 :=
  pi.data (pi.nread % pipesize)

def take (pi : Pipe) : Pipe :=
  { pi with nread := (pi.nread + 1) % uintRange }

end Pipe

/-- Where a thread is: in user code with the result of its last call, or asleep in a call. -/
inductive Thread where
  | user (result : Int)
  | pipewrite (n : Int) (i : Nat)
  | piperead (n : Int)
  deriving DecidableEq

/-- What a call finds in its process: whether the process is killed when byte `i` is due, and
the copies from and to user memory, which may fail. -/
structure Caller where
  killed : Nat → Bool
  copyin : Nat → Option UInt8
  copyout : Nat → Bool

structure PipeState where
  pipe : Pipe
  freed : Bool
  accepted : List UInt8
  delivered : List UInt8
  thread : Nat → Thread

namespace PipeState

def accept (s : PipeState) (ch : UInt8) : PipeState :=
  { s with pipe := s.pipe.put ch, accepted := s.accepted ++ [ch] }

def deliver (s : PipeState) : PipeState :=
  { s with pipe := s.pipe.take, delivered := s.delivered ++ [s.pipe.front] }

/-- The loop of `pipewrite` from byte `i`, with `left` bytes to go, up to its return or its
next sleep. -/
def pipewriteLoop (c : Caller) (n : Int) : Nat → PipeState → Nat → PipeState × Thread
  | 0, s, i => (s, .user i)
  | left + 1, s, i =>
    if s.pipe.readopen = false ∨ c.killed i = true then (s, .user (-1))
    else if s.pipe.isFull then (s, .pipewrite n i)
    else
      match c.copyin i with
      | none => (s, .user i)
      | some ch => pipewriteLoop c n left (s.accept ch) (i + 1)

/-- `pipewrite` from byte `i`, which is `0` when the call starts. -/
def pipewrite (c : Caller) (n : Int) (s : PipeState) (i : Nat) : PipeState × Thread :=
  pipewriteLoop c n (n - i).toNat s i

/-- The copy loop of `piperead` from byte `i`, with `left` bytes to go. -/
def pipereadLoop (c : Caller) : Nat → PipeState → Nat → PipeState × Thread
  | 0, s, i => (s, .user i)
  | left + 1, s, i =>
    if s.pipe.isEmpty then (s, .user i)
    else if c.copyout i then pipereadLoop c left s.deliver (i + 1)
    else (s, .user (if i = 0 then -1 else i))

/-- `piperead`, from its start or from the return of its sleep. -/
def piperead (s : PipeState) (c : Caller) (n : Int) : PipeState × Thread :=
  if s.pipe.isEmpty ∧ s.pipe.writeopen then
    if c.killed 0 then (s, .user (-1)) else (s, .piperead n)
  else pipereadLoop c n.toNat s 0

/-- `pipeclose`, which frees the page when both ends are closed. -/
def pipeclose (s : PipeState) (writable : Bool) : PipeState :=
  let pipe :=
    if writable then { s.pipe with writeopen := false } else { s.pipe with readopen := false }
  { s with pipe := pipe, freed := !pipe.readopen && !pipe.writeopen }

def setThread (tid : Nat) (r : PipeState × Thread) : PipeState :=
  { r.1 with thread := Function.update r.1.thread tid r.2 }

end PipeState

/-- The stretches of code that run under the pipe's lock. -/
inductive PipeAct where
  | write (tid : Nat) (n : Int) (c : Caller)
  | read (tid : Nat) (n : Int) (c : Caller)
  | resume (tid : Nat) (c : Caller)
  | close (writable : Bool)

open PipeState in
/-- A thread in user code can call, a sleeping thread can go on, and an end can be closed, as
long as the page is not freed. -/
def PipeState.step (s : PipeState) (a : PipeAct) : Option PipeState :=
  if s.freed then none
  else
    match a with
    | .write tid n c =>
      match s.thread tid with
      | .user _ => some (setThread tid (pipewrite c n s 0))
      | _ => none
    | .read tid n c =>
      match s.thread tid with
      | .user _ => some (setThread tid (s.piperead c n))
      | _ => none
    | .resume tid c =>
      match s.thread tid with
      | .user _ => none
      | .pipewrite n i => some (setThread tid (pipewrite c n s i))
      | .piperead n => some (setThread tid (s.piperead c n))
    | .close writable => some (pipeclose s writable)

/-- The pipe that `pipealloc` sets up in a page with arbitrary bytes. -/
def pipealloc (page : Nat → UInt8) : PipeState where
  pipe := { data := page, nread := 0, nwrite := 0, readopen := true, writeopen := true }
  freed := false
  accepted := []
  delivered := []
  thread := fun _ => .user 0

abbrev PipeRun : PipeState → List PipeAct → PipeState → Prop :=
  Run fun s a t => s.step a = some t

/-- The number of bytes in the pipe, `nwrite - nread` in unsigned arithmetic. -/
def Pipe.fill (pi : Pipe) : Nat :=
  (pi.nwrite + uintRange - pi.nread) % uintRange

/-- The bytes `data[nread % PIPESIZE ..]` up to `nwrite`. -/
def Pipe.undelivered (pi : Pipe) : List UInt8 :=
  (List.range pi.fill).map fun j => pi.data ((pi.nread + j) % pipesize)

def Pipe.ring (pi : Pipe) : RingBuffer UInt8 :=
  ⟨pi.data, pi.nread, pi.nwrite⟩

/-- The counters are in range and at most `pipesize` apart, and what was accepted is what was
delivered followed by what is in the pipe. -/
structure PipeState.Fifo (s : PipeState) : Prop where
  valid : s.pipe.ring.Valid pipesize uintRange
  queue : s.accepted = s.delivered ++ s.pipe.undelivered

private theorem pipesize_dvd : pipesize ∣ uintRange := by decide

private theorem pipesize_lt : pipesize < uintRange := by decide

namespace PipeState

variable {s t : PipeState} {c : Caller}

theorem Fifo.of_pipe (h : s.Fifo) (hring : t.pipe.ring = s.pipe.ring)
    (haccepted : t.accepted = s.accepted) (hdelivered : t.delivered = s.delivered) : t.Fifo where
  valid := hring ▸ h.valid
  queue := by
    have hcontents : t.pipe.undelivered = s.pipe.undelivered :=
      congrArg (RingBuffer.contents pipesize uintRange) hring
    rw [haccepted, hdelivered, hcontents, h.queue]

theorem Fifo.isEmpty_iff (h : s.Fifo) : s.pipe.isEmpty = true ↔ s.pipe.undelivered = [] := by
  rw [Pipe.isEmpty, decide_eq_true_iff, ← length_eq_zero_iff]
  exact h.valid.isEmpty_iff.trans (by rw [← RingBuffer.length_contents]; rfl)

theorem Fifo.accept (h : s.Fifo) (hfull : s.pipe.isFull = false) (ch : UInt8) :
    (s.accept ch).Fifo := by
  have hne : s.pipe.ring.count uintRange ≠ pipesize := fun heq =>
    of_decide_eq_false hfull ((h.valid.isFull_iff pipesize_lt).mpr heq)
  have hroom := lt_of_le_of_ne h.valid.fits hne
  obtain ⟨hvalid, hcontents⟩ := h.valid.push pipesize_dvd pipesize_lt hroom ch
  refine ⟨hvalid, ?_⟩
  change s.accepted ++ [ch] =
    s.delivered ++ (s.pipe.ring.push pipesize uintRange ch).contents pipesize uintRange
  rw [hcontents, ← append_assoc, h.queue]
  rfl

theorem Fifo.undelivered_eq (h : s.Fifo) (hempty : s.pipe.isEmpty = false) :
    s.deliver.pipe.ring.Valid pipesize uintRange ∧
      s.pipe.undelivered = s.pipe.front :: s.deliver.pipe.undelivered :=
  h.valid.pop pipesize_dvd pipesize_lt fun heq =>
    of_decide_eq_false hempty (h.valid.isEmpty_iff.mpr heq)

theorem Fifo.deliver (h : s.Fifo) (hempty : s.pipe.isEmpty = false) : s.deliver.Fifo := by
  obtain ⟨hvalid, hcontents⟩ := h.undelivered_eq hempty
  refine ⟨hvalid, ?_⟩
  change s.accepted = s.delivered ++ [s.pipe.front] ++ s.deliver.pipe.undelivered
  rw [append_assoc, singleton_append, ← hcontents, h.queue]

theorem Fifo.pipewriteLoop (n : Int) (left : Nat) (h : s.Fifo) (i : Nat) :
    (pipewriteLoop c n left s i).1.Fifo := by
  induction left generalizing s i with
  | zero => exact h
  | succ left ih =>
    rw [PipeState.pipewriteLoop]
    split
    · exact h
    · split
      · exact h
      · rename_i hfull
        cases c.copyin i with
        | none => exact h
        | some ch => exact ih (h.accept (Bool.eq_false_iff.mpr hfull) ch) (i + 1)

/-- What the stretch of `piperead` from `s` to `t` does: the bytes `bytes` leave the front of the
pipe, and each of them was copied out. -/
structure Delivers (c : Caller) (i : Nat) (s t : PipeState) (bytes : List UInt8) : Prop where
  front : s.pipe.undelivered = bytes ++ t.pipe.undelivered
  delivered : t.delivered = s.delivered ++ bytes
  copied : ∀ j < bytes.length, c.copyout (i + j) = true
  accepted : t.accepted = s.accepted
  writeopen : t.pipe.writeopen = s.pipe.writeopen

theorem Delivers.nil (i : Nat) : Delivers c i s s [] where
  front := (nil_append _).symm
  delivered := (append_nil _).symm
  copied := fun _ hj => absurd hj (Nat.not_lt_zero _)
  accepted := rfl
  writeopen := rfl

theorem Delivers.cons {i : Nat} {bytes : List UInt8} (h : s.Fifo)
    (hempty : s.pipe.isEmpty = false) (hcopy : c.copyout i = true)
    (hrest : Delivers c (i + 1) s.deliver t bytes) :
    Delivers c i s t (s.pipe.front :: bytes) where
  front := by rw [(h.undelivered_eq hempty).2, hrest.front, cons_append]
  delivered := by
    rw [hrest.delivered, append_cons]
    rfl
  copied := by
    intro j hj
    cases j with
    | zero => exact hcopy
    | succ j =>
      rw [Nat.add_comm j, ← Nat.add_assoc]
      exact hrest.copied j (Nat.lt_of_succ_lt_succ hj)
  accepted := hrest.accepted
  writeopen := hrest.writeopen

theorem Fifo.pipereadLoop (left : Nat) (h : s.Fifo) (i : Nat) :
    ∃ t bytes r, pipereadLoop c left s i = (t, .user r) ∧ t.Fifo ∧ Delivers c i s t bytes ∧
      (r = (i + bytes.length : Nat) ∨ r = -1 ∧ i = 0 ∧ bytes = []) ∧
      (r = 0 → left = 0 ∨ t.pipe.isEmpty = true) := by
  induction left generalizing s i with
  | zero => exact ⟨s, [], i, rfl, h, .nil i, .inl rfl, fun _ => .inl rfl⟩
  | succ left ih =>
    rw [PipeState.pipereadLoop]
    split
    · rename_i hempty
      exact ⟨s, [], i, rfl, h, .nil i, .inl rfl, fun _ => .inr hempty⟩
    · rename_i hempty
      have hempty := Bool.eq_false_iff.mpr hempty
      split
      · rename_i hcopy
        obtain ⟨t, bytes, r, heq, ht, hbytes, hr, hzero⟩ := ih (h.deliver hempty) (i + 1)
        refine ⟨t, s.pipe.front :: bytes, r, heq, ht, hbytes.cons h hempty hcopy, .inl ?_, ?_⟩
        · obtain hr | ⟨_, hi, _⟩ := hr
          · rw [hr, length_cons]
            omega
          · omega
        · -- a byte was delivered, so the result is not `0`
          obtain hr | ⟨_, hi, _⟩ := hr <;> omega
      · refine ⟨s, [], _, rfl, h, .nil i, ?_, ?_⟩
        · split
          · rename_i hi
            exact .inr ⟨rfl, hi, rfl⟩
          · exact .inl rfl
        · split <;> omega

theorem Fifo.piperead (h : s.Fifo) (n : Int) :
    (s.piperead c n).1.Fifo ∧ (∃ bytes, Delivers c 0 s (s.piperead c n).1 bytes) ∧
      ((s.piperead c n).2 = .user 0 → 0 < n →
        (s.piperead c n).1.pipe.isEmpty = true ∧ (s.piperead c n).1.pipe.writeopen = false) := by
  rw [PipeState.piperead]
  split
  · split
    · exact ⟨h, ⟨[], .nil 0⟩, fun hret => by cases hret⟩
    · exact ⟨h, ⟨[], .nil 0⟩, fun hret => by cases hret⟩
  · rename_i hwait
    obtain ⟨t, bytes, r, heq, ht, hbytes, hr, hzero⟩ := h.pipereadLoop (c := c) n.toNat 0
    rw [heq]
    refine ⟨ht, ⟨bytes, hbytes⟩, fun hret hn => ?_⟩
    obtain rfl : r = 0 := Thread.user.inj hret
    have hnone : bytes = [] := by
      obtain hr | ⟨hr, _⟩ := hr
      · exact eq_nil_of_length_eq_zero (by omega)
      · omega
    have hempty : t.pipe.isEmpty = true := (hzero rfl).resolve_left (by omega)
    refine ⟨hempty, ?_⟩
    -- nothing was delivered, so the pipe was empty when the wait loop was left
    have hstart : s.pipe.isEmpty = true := by
      rw [h.isEmpty_iff, hbytes.front, hnone, ht.isEmpty_iff.mp hempty, append_nil]
    rw [hbytes.writeopen]
    exact Bool.eq_false_iff.mpr fun hopen => hwait ⟨hstart, hopen⟩

theorem Fifo.step {a : PipeAct} (h : s.Fifo) (hstep : s.step a = some t) : t.Fifo := by
  unfold PipeState.step at hstep
  split at hstep
  · cases hstep
  · cases a with
    | write tid n c =>
      dsimp only at hstep
      split at hstep
      · obtain rfl := some.inj hstep
        exact (h.pipewriteLoop n _ 0).of_pipe rfl rfl rfl
      · cases hstep
    | read tid n c =>
      dsimp only at hstep
      split at hstep
      · obtain rfl := some.inj hstep
        exact (h.piperead n).1.of_pipe rfl rfl rfl
      · cases hstep
    | resume tid c =>
      dsimp only at hstep
      split at hstep
      · cases hstep
      · obtain rfl := some.inj hstep
        exact (h.pipewriteLoop _ _ _).of_pipe rfl rfl rfl
      · obtain rfl := some.inj hstep
        exact (h.piperead _).1.of_pipe rfl rfl rfl
    | close writable =>
      obtain rfl := some.inj hstep
      refine h.of_pipe ?_ rfl rfl
      cases writable <;> rfl

theorem fifo_pipealloc (page : Nat → UInt8) : (pipealloc page).Fifo := by
  have hfill : (pipealloc page).pipe.fill = 0 := by simp [pipealloc, Pipe.fill]
  refine ⟨⟨Nat.two_pow_pos 32, Nat.two_pow_pos 32, ?_⟩, ?_⟩
  · exact hfill.trans_le (Nat.zero_le _)
  · rw [Pipe.undelivered, hfill]
    rfl

end PipeState

/-- Every reachable pipe is a bounded queue: the bytes delivered are the first of the bytes
accepted, and the others are in the ring in order. From there, a stretch of `piperead` takes
only bytes that were copied out, and returns `0` for a positive count only when the pipe is
empty and its write end closed. -/
theorem pipe_isQueue (page : Nat → UInt8) {acts : List PipeAct} {s : PipeState}
    (run : PipeRun (pipealloc page) acts s) :
    s.delivered <+: s.accepted ∧ s.pipe.fill ≤ pipesize ∧
      s.accepted.drop s.delivered.length = s.pipe.undelivered ∧
      ∀ c n, (∃ bytes, PipeState.Delivers c 0 s (s.piperead c n).1 bytes) ∧
        ((s.piperead c n).2 = .user 0 → 0 < n →
          (s.piperead c n).1.pipe.isEmpty = true ∧
            (s.piperead c n).1.pipe.writeopen = false) := by
  have h : s.Fifo := run.invariant PipeState.Fifo (PipeState.fifo_pipealloc page)
    fun _ _ _ ht hstep => ht.step hstep
  refine ⟨⟨s.pipe.undelivered, h.queue.symm⟩, h.valid.fits, ?_, fun c n => (h.piperead n).2⟩
  rw [h.queue, drop_left]

/-- A caller whose copies to user memory fail from byte `k` on. -/
def copiesBelow (k : Nat) : Caller where
  killed := fun _ => false
  copyin := fun i => some (UInt8.ofNat (65 + i))
  copyout := fun i => i < k

/-- Three bytes are written, and the third fails to be copied out by the reader. -/
theorem pipe_isQueue_partialCopy : ∃ s, PipeRun (pipealloc fun _ => 0)
      [.write 0 3 (copiesBelow 0), .read 1 3 (copiesBelow 2)] s ∧
    s.thread 1 = .user 2 ∧ s.delivered = [65, 66] ∧ s.pipe.undelivered = [67] ∧
    s.pipe.fill ≤ pipesize ∧ s.delivered <+: s.accepted := by
  refine Run.exists_exec (p := fun s => s.thread 1 = .user 2 ∧ s.delivered = [65, 66] ∧
    s.accepted = [65, 66, 67]) (by decide +kernel) ?_
  rintro s run ⟨hthread, hdelivered, haccepted⟩
  obtain ⟨hfifo, hfill, hrest, _⟩ := pipe_isQueue (fun _ => 0) run
  rw [haccepted, hdelivered] at hrest
  exact ⟨hthread, hdelivered, hrest.symm, hfill, hfifo⟩

end EafitOs.Sync
