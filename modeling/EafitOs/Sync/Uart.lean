import EafitOs.Foundation.Runs
import Mathlib.Data.Fintype.Card
import Mathlib.Data.Fintype.Option

/-!
# The transmitter of the UART

`uartwrite` gives the device one byte at a time and sleeps while it is busy, `uartintr` wakes
the writers up, and `uartputc_sync` goes past them without `tx_lock`. A step is what runs under
the lock up to a sleep or the return, or one access of the device without it. The device has a
queue, raises an interrupt when the queue becomes empty, and drops a byte that finds no room.
After a `panic` has begun `uartputc_sync` leaves interrupts on, so that calls of it can be nested
on a cpu, and once the panic message is out it spins for ever.
-/

namespace EafitOs.Sync

open Foundation Function List Option

abbrev ncpu : Nat := 8

/-- The room in the queue of the 16550a. -/
def fifoSize : Nat := 16

/-- Who writes to the device: a process in `uartwrite`, or a cpu in `uartputc_sync`, with
interrupts off or in one of several calls with interrupts on. -/
inductive UartSource where
  | process (i : Nat)
  | cpu (k : Fin ncpu)
  | nested (k : Fin ncpu) (n : Nat)
  deriving DecidableEq

/-- Processes take turns, so that they count as one. -/
def UartSource.turn : UartSource → Option (Fin ncpu)
  | .process _ => none
  | .cpu k | .nested k _ => some k

/-- Where a source is, with what it has not written yet. A cpu has `polled` when it has seen the
device idle and is about to write. -/
inductive UartPc where
  | out
  | runs (left : List UInt8)
  | asleep (left : List UInt8)
  | polled (c : UInt8)
  | spins (c : UInt8)
  deriving DecidableEq

def UartPc.left : UartPc → List UInt8
  | .out => []
  | .runs left | .asleep left => left
  | .polled c | .spins c => [c]

def UartPc.wakeup : UartPc → UartPc
  | .asleep left => .runs left
  | pc => pc

/-- The device, with every byte beside its source, and the driver. `acks` counts the handlers
that have read `ISR` and wait for the lock, and `given` has what each source was asked to
write. -/
structure Uart where
  fifo : List (UartSource × UInt8)
  sent : List (UartSource × UInt8)
  lost : List (UartSource × UInt8)
  pending : Bool
  acks : Nat
  txBusy : Bool
  panicking : Bool
  panicked : Bool
  pc : UartSource → UartPc
  given : UartSource → List UInt8

/-- `lock` is a process that gets `tx_lock`, after its call or its sleep, and `rouse` is `kkill`.
`poll` and `put` are the rest of `uartputc_sync`. `panic` and `freeze` set `panicking` and
`panicked`. The device takes the steps `send` and `receive`. -/
inductive UartAct where
  | uartwrite (i : Nat) (buf : List UInt8)
  | lock (i : Nat)
  | rouse (i : Nat)
  | uartputcSync (k : Fin ncpu) (n : Nat) (c : UInt8)
  | poll (x : UartSource)
  | put (x : UartSource)
  | panic
  | freeze
  | ack
  | uartintr
  | send
  | receive

namespace Uart

def init : Uart := ⟨[], [], [], false, 0, false, false, false, fun _ => .out, fun _ => []⟩

def setPc (s : Uart) (x : UartSource) (pc : UartPc) : Uart := { s with pc := update s.pc x pc }

@[grind =] theorem setPc_pc (s : Uart) (x y : UartSource) (pc : UartPc) :
    (s.setPc x pc).pc y = if y = x then pc else s.pc y := update_apply ..

def call (s : Uart) (x : UartSource) (pc : UartPc) : Option Uart :=
  if s.pc x = .out then
    some { s.setPc x pc with given := update s.given x (s.given x ++ pc.left) }
  else none

/-- `WriteReg(THR, c)`. -/
def write (s : Uart) (x : UartSource) (c : UInt8) : Uart :=
  let room := s.fifo.length < fifoSize
  { s with
    fifo := if room then s.fifo ++ [(x, c)] else s.fifo
    lost := if room then s.lost else s.lost ++ [(x, c)] }

/-- The loop of `uartwrite`, up to its end or its next sleep. -/
def writeLoop (i : Nat) : List UInt8 → Uart → Uart
  | [], s => s.setPc (.process i) .out
  | c :: left, s =>
    if s.txBusy then s.setPc (.process i) (.asleep (c :: left))
    else
      writeLoop i left
        ({ s.write (.process i) c with txBusy := true }.setPc (.process i) (.runs left))

def step (s : Uart) : UartAct → Option Uart
  | .uartwrite i buf => s.call (.process i) (.runs buf)
  | .lock i =>
    match s.pc (.process i) with
    | .runs left => some (s.writeLoop i left)
    | _ => none
  | .rouse i => some (s.setPc (.process i) (s.pc (.process i)).wakeup)
  | .uartputcSync k n c =>
    s.call (if s.panicking then .nested k n else .cpu k)
      (if s.panicked then .spins c else .runs [c])
  | .poll x =>
    match s.pc x with
    | .runs [c] =>
      if x.turn = none then none
      else some (if s.fifo = [] then s.setPc x (.polled c) else s)
    | _ => none
  | .put x =>
    match s.pc x with
    | .polled c => some ((s.write x c).setPc x .out)
    | _ => none
  | .panic => some { s with panicking := true }
  | .freeze => if s.panicking then some { s with panicked := true } else none
  | .ack => if s.pending then some { s with pending := false, acks := s.acks + 1 } else none
  | .uartintr =>
    if s.acks = 0 then none
    else if s.fifo = [] then
      some { s with acks := s.acks - 1, txBusy := false, pc := fun x => (s.pc x).wakeup }
    else some { s with acks := s.acks - 1 }
  | .send =>
    match s.fifo with
    | [] => none
    | c :: fifo =>
      some { s with fifo, sent := s.sent ++ [c], pending := s.pending || fifo.isEmpty }
  | .receive => some { s with pending := true }

/-- What the device has of a source. -/
def bytes (s : Uart) (x : UartSource) : List UInt8 :=
  ((s.sent ++ s.fifo).filter fun c => c.1 = x).map Prod.snd

def turns (s : Uart) : List (Option (Fin ncpu)) := s.fifo.map fun c => c.1.turn

/-- What holds before a panic. -/
structure Ok (s : Uart) : Prop where
  calm : ∀ k n, s.pc (.nested k n) = .out
  lost : s.lost = []
  turns : s.turns.Nodup
  idle : s.txBusy = false → none ∉ s.turns
  polled : ∀ x c, s.pc x = .polled c → x.turn ∉ s.turns ∧ x.turn ≠ none
  busy : s.txBusy = true → s.fifo ≠ [] ∨ s.pending = true ∨ 0 < s.acks
  sleeps : ∀ x l, s.pc x = .asleep l → s.txBusy = true
  order : ∀ x, s.bytes x ++ (s.pc x).left = s.given x

variable {s t : Uart} {x : UartSource} {i : Nat} {c : UInt8} {l : List UInt8}

theorem Ok.length_le (h : s.Ok) : s.fifo.length ≤ ncpu + 1 := by
  simpa [Uart.turns] using h.turns.length_le_card

theorem Ok.setPc (h : s.Ok) {pc : UartPc} (hx : ∀ k n, x ≠ .nested k n)
    (hleft : pc.left = (s.pc x).left) (hsleeps : ∀ l, pc = .asleep l → s.txBusy = true)
    (hpolled : ∀ c, pc = .polled c → s.fifo = [] ∧ x.turn ≠ none ∨ s.pc x = pc) :
    (s.setPc x pc).Ok := by
  obtain ⟨hcalm, hlost, hturns, hidle, hpolled', hbusy, hsleeps', horder⟩ := h
  refine ⟨fun k n => ?_, hlost, hturns, hidle, fun y c hy => ?_, hbusy, fun y l hy => ?_,
    fun y => ?_⟩
  · rw [setPc_pc, if_neg (hx k n).symm]
    exact hcalm k n
  · change y.turn ∉ s.turns ∧ y.turn ≠ none
    grind [Uart.turns]
  · change s.txBusy = true
    grind
  · change s.bytes y ++ ((s.setPc x pc).pc y).left = s.given y
    grind

/-- A source writes when nothing of its turn is in the queue. -/
theorem Ok.write (h : s.Ok) (hx : ∀ k n, x ≠ .nested k n) (hturn : x.turn ∉ s.turns)
    {pc : UartPc} {busy : Bool}
    (hpc : pc = .out ∨ pc = .runs pc.left) (hleft : (s.pc x).left = c :: pc.left)
    (hbusy : busy = false → s.txBusy = false ∧ x.turn ≠ none) :
    ({ s.write x c with txBusy := busy }.setPc x pc).Ok := by
  obtain ⟨hcalm, hlost, hturns, hidle, hpolled, -, hsleeps, horder⟩ := id h
  have hroom : s.fifo.length < fifoSize := h.length_le.trans_lt (by decide)
  simp only [Uart.write, hroom, if_true]
  have hmem : ∀ o, o ∈ (s.fifo ++ [(x, c)]).map (fun c => c.1.turn) ↔ o ∈ s.turns ∨ o = x.turn := by
    simp [Uart.turns]
  refine ⟨fun k n => ?_, hlost, ?_, fun hb hnone => ?_, fun y d hy => ?_, fun _ => ?_,
    fun y l hy => ?_, fun y => ?_⟩
  · rw [setPc_pc, if_neg (hx k n).symm]
    exact hcalm k n
  · rw [Uart.turns, Uart.setPc, map_append, map_singleton, ← concat_eq_append]
    exact hturns.concat hturn
  · obtain hold | hnew := (hmem none).mp hnone
    · exact hidle (hbusy hb).1 hold
    · exact (hbusy hb).2 hnew.symm
  · have hyx : y ≠ x := by grind
    have hpc : s.pc y = .polled d := by
      rw [setPc_pc, if_neg hyx] at hy
      exact hy
    refine ⟨fun hmem' => ?_, (hpolled y d hpc).2⟩
    obtain hold | hnew := (hmem y.turn).mp hmem'
    · exact (hpolled y d hpc).1 hold
    · cases x <;> cases y <;> grind [UartSource.turn]
  · simp [Uart.setPc]
  · change busy = true
    grind
  · have hy := horder y
    by_cases hyx : y = x
    · subst hyx
      rw [hleft] at hy
      simpa [bytes, Uart.setPc] using hy
    · simpa [bytes, Uart.setPc, hyx, Ne.symm hyx] using hy

theorem Ok.writeLoop (h : s.Ok) (hpc : s.pc (.process i) = .runs l) : (s.writeLoop i l).Ok := by
  induction l generalizing s with
  | nil => exact h.setPc (by simp) (by rw [hpc]; rfl) (by simp) (by simp)
  | cons c l ih =>
    rw [Uart.writeLoop]
    split
    · rename_i hbusy
      exact h.setPc (by simp) (by rw [hpc]; rfl) (fun _ _ => hbusy) (by simp)
    · rename_i hfree
      have hturn := h.idle (Bool.eq_false_iff.mpr hfree)
      exact ih (h.write (x := .process i) (by simp) hturn (.inr rfl) (by rw [hpc]; rfl) (by simp))
        (update_self ..)

theorem left_wakeup (pc : UartPc) : pc.wakeup.left = pc.left := by cases pc <;> rfl

theorem wakeup_ne_asleep (pc : UartPc) (l : List UInt8) : pc.wakeup ≠ .asleep l := by
  cases pc <;> simp [UartPc.wakeup]

theorem wakeup_eq_polled {pc : UartPc} (h : pc.wakeup = .polled c) : pc = .polled c := by
  cases pc <;> simp_all [UartPc.wakeup]

theorem Ok.call (h : s.Ok) (hx : ∀ k n, x ≠ .nested k n) {buf : List UInt8}
    (hs : s.call x (.runs buf) = some t) : t.Ok := by
  obtain ⟨hcalm, hlost, hturns, hidle, hpolled, hbusy, hsleeps, horder⟩ := h
  obtain ⟨hpc, hs⟩ := ite_none_right_eq_some.mp hs
  obtain rfl := some.inj hs
  refine ⟨fun k n => ?_, hlost, hturns, hidle, fun k c hk => ?_, hbusy, fun y l hy => ?_,
      fun y => ?_⟩ <;>
    simp only [Uart.setPc, update_apply, bytes, Uart.turns] at * <;> grind [UartPc.left]

theorem Ok.step {a : UartAct} (h : s.Ok) (hcalm : s.panicking = false)
    (hfrozen : s.panicked = false) (hs : s.step a = some t) (ht : t.panicking = false) : t.Ok := by
  obtain ⟨hnested, hlost, hturns, hidle, hpolled, hbusy, hsleeps, horder⟩ := id h
  cases a with
  | uartwrite i buf => exact h.call (by simp) hs
  | uartputcSync k n c =>
    simp only [Uart.step, hcalm, hfrozen, Bool.false_eq_true, if_false] at hs
    exact h.call (by simp) hs
  | panic =>
    obtain rfl := some.inj hs
    cases ht
  | freeze =>
    simp only [Uart.step, hcalm, Bool.false_eq_true, if_false] at hs
    cases hs
  | lock i =>
    simp only [Uart.step] at hs
    split at hs
    · obtain rfl := some.inj hs
      exact h.writeLoop ‹_›
    · cases hs
  | rouse i =>
    obtain rfl := some.inj hs
    refine h.setPc (by simp) (left_wakeup _) (fun l hl => absurd hl (wakeup_ne_asleep _ l))
      fun c hc => ?_
    exact .inr ((wakeup_eq_polled hc).trans hc.symm)
  | poll x =>
    simp only [Uart.step] at hs
    split at hs
    · rename_i c hpc
      obtain ⟨hturn, hs⟩ := ite_none_left_eq_some.mp hs
      obtain rfl := some.inj hs
      split
      · refine h.setPc (fun k n hx => ?_) (by rw [hpc]; rfl) (by simp)
          fun _ _ => .inl ⟨‹_›, hturn⟩
        rw [hx, hnested] at hpc
        cases hpc
      · exact h
    · cases hs
  | put x =>
    simp only [Uart.step] at hs
    split at hs
    · rename_i c hpc
      obtain rfl := some.inj hs
      obtain ⟨hturn, hcpu⟩ := hpolled x c hpc
      refine h.write (fun k n hx => ?_) hturn (.inl rfl) (by rw [hpc]; rfl) fun hb => ⟨hb, hcpu⟩
      rw [hx, hnested] at hpc
      cases hpc
    · cases hs
  | ack =>
    obtain ⟨-, hs⟩ := ite_none_right_eq_some.mp hs
    obtain rfl := some.inj hs
    exact ⟨hnested, hlost, hturns, hidle, hpolled, fun _ => .inr (.inr (Nat.succ_pos _)), hsleeps,
      horder⟩
  | uartintr =>
    obtain ⟨-, hs⟩ := ite_none_left_eq_some.mp hs
    split at hs <;> rename_i hfifo <;> obtain rfl := some.inj hs
    · refine ⟨fun k n => (by simp [hnested, UartPc.wakeup]), hlost, hturns,
        fun _ => (by simp [Uart.turns, hfifo]), fun k c hk => hpolled k c (wakeup_eq_polled hk),
          Bool.noConfusion,
        fun y l hy => absurd hy (wakeup_ne_asleep _ l), fun y => ?_⟩
      exact (congrArg _ (left_wakeup _)).trans (horder y)
    · exact ⟨hnested, hlost, hturns, hidle, hpolled, fun _ => .inl hfifo, hsleeps, horder⟩
  | send =>
    simp only [Uart.step] at hs
    split at hs
    · cases hs
    · rename_i c fifo hfifo
      obtain rfl := some.inj hs
      simp only [Uart.turns, hfifo, map_cons, nodup_cons, mem_cons, not_or]
        at hturns hidle hpolled
      refine ⟨hnested, hlost, hturns.2, fun hb => (hidle hb).2,
        fun y d hy => ⟨(hpolled y d hy).1.2, (hpolled y d hy).2⟩, fun _ => ?_, hsleeps,
        fun y => ?_⟩
      · cases fifo <;> simp
      · simpa [bytes, hfifo] using horder y
  | receive =>
    obtain rfl := some.inj hs
    exact ⟨hnested, hlost, hturns, hidle, hpolled, fun _ => .inr (.inl rfl), hsleeps, horder⟩

theorem writeLoop_flags (i : Nat) (l : List UInt8) (s : Uart) :
    (s.writeLoop i l).panicking = s.panicking ∧ (s.writeLoop i l).panicked = s.panicked := by
  induction l generalizing s with
  | nil => exact ⟨rfl, rfl⟩
  | cons c l ih =>
    rw [Uart.writeLoop]
    split
    · exact ⟨rfl, rfl⟩
    · exact ih _

theorem step_flags {a : UartAct} (hs : s.step a = some t) :
    (s.panicking = true → t.panicking = true) ∧
      (t.panicked = true → s.panicked = true ∨ t.panicking = true) := by
  cases a <;> simp only [Uart.step, Uart.call] at hs <;>
    grind [writeLoop_flags, Uart.setPc, Uart.write]

/-- Until a cpu panics the queue has at most one byte of each cpu and one of the processes, so
that no byte is lost, and the bytes of each source come out in order. A process sleeps only
while the device has something to send or an interrupt is on its way to a handler. -/
theorem uart_in_order {ls : List UartAct}
    (run : Run (fun s a t => Uart.step s a = some t) init ls s) (hcalm : s.panicking = false) :
    s.turns.Nodup ∧ s.fifo.length ≤ ncpu + 1 ∧ s.lost = [] ∧
      (∀ x, s.bytes x ++ (s.pc x).left = s.given x) ∧
      ∀ x l, s.pc x = .asleep l → s.fifo ≠ [] ∨ s.pending = true ∨ 0 < s.acks := by
  have hinit : init.Ok := ⟨fun _ _ => rfl, rfl, nodup_nil, by simp [init, Uart.turns],
    fun _ _ hpc => (by cases hpc), Bool.noConfusion, fun _ _ hpc => (by cases hpc), fun _ => rfl⟩
  have hrun := run.invariant (fun s => s.panicking = false → s.panicked = false ∧ s.Ok)
    (fun _ => ⟨rfl, hinit⟩) ?_
  · obtain ⟨-, h⟩ := hrun hcalm
    exact ⟨h.turns, h.length_le, h.lost, h.order, fun x l hl => h.busy (h.sleeps x l hl)⟩
  · intro s a t hs hstep ht
    obtain ⟨hrise, hfreeze⟩ := step_flags hstep
    have hbefore : s.panicking = false := Bool.eq_false_iff.mpr fun h => by
      rw [hrise h] at ht
      cases ht
    obtain ⟨hfrozen, h⟩ := hs hbefore
    refine ⟨Bool.eq_false_iff.mpr fun hf => ?_, h.step hbefore hfrozen hstep ht⟩
    obtain hf | hf := hfreeze hf
    · rw [hfrozen] at hf
      cases hf
    · rw [ht] at hf
      cases hf

/-- A cpu has seen the device idle when a writer is faster. -/
theorem uart_in_order_race : ∃ s : Uart,
    s.fifo = [(.process 1, 97), (.cpu 0, 62)] ∧ s.pc (.process 1) = .asleep [98] ∧
      s.bytes (.process 1) ++ [98] = s.given (.process 1) := by
  have h : ∃ s ∈ exec Uart.step init
      [.uartputcSync 0 0 62, .poll (.cpu 0), .uartwrite 1 [97, 98], .lock 1, .put (.cpu 0)],
      s.fifo = [(.process 1, 97), (.cpu 0, 62)] ∧ s.pc (.process 1) = .asleep [98] ∧
        s.panicking = false := by
    decide +kernel
  obtain ⟨s, hs, hfifo, hpc, hcalm⟩ := h
  have horder := (uart_in_order (.of_exec hs) hcalm).2.2.2.1 (.process 1)
  rw [hpc] at horder
  exact ⟨s, hfifo, hpc, horder⟩

end Uart

end EafitOs.Sync
