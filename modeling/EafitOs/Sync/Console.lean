import EafitOs.Foundation.RingBuffer
import EafitOs.Foundation.Runs

/-!
# The console line discipline

Typed characters go into a ring of 128 bytes with three 32-bit counters: readers take at `r`,
lines that are complete end at `w`, and editing happens between `w` and `e`. The interrupt handler
and the readers work under the lock of the console. A reader gives it up when it returns and when
it sleeps, so the model takes one step for each stretch between two such points.
-/

namespace EafitOs.Sync

open Foundation Function List Option

def inputBufSize : Nat := 128

def ctrlD : UInt8 := 4

def ctrlH : UInt8 := 8

/-- `C('P')`, which prints the processes. -/
def ctrlP : UInt8 := 16

def ctrlU : UInt8 := 21

def delete : UInt8 := 0x7f

def newline : UInt8 := 10

def carriageReturn : UInt8 := 13

/-- The struct `cons`, with the characters that were echoed to the UART. -/
structure Cons where
  buf : Nat → UInt8
  r : UInt32
  w : UInt32
  e : UInt32
  echo : List UInt8

namespace Cons

def erase (s : Cons) : Cons :=
  { s with e := s.e - 1, echo := s.echo ++ [ctrlH, 32, ctrlH] }

/-- `consputc(c); cons.buf[cons.e++ % INPUT_BUF_SIZE] = c`. -/
def store (s : Cons) (c : UInt8) : Cons :=
  { s with
    buf := update s.buf (s.e.toNat % inputBufSize) c
    e := s.e + 1
    echo := s.echo ++ [c] }

/-- The loop of kill line, which ends at `w` after as many rounds at the latest. -/
def killLine : Nat → Cons → Cons
  | 0, s => s
  | k + 1, s =>
    if s.e ≠ s.w ∧ s.buf ((s.e - 1).toNat % inputBufSize) ≠ newline then killLine k s.erase else s

/-- The end of `consoleintr` for a character that was stored. -/
def commit (s : Cons) (c : UInt8) : Cons :=
  if c = newline ∨ c = ctrlD ∨ (s.e - s.r).toNat = inputBufSize then { s with w := s.e } else s

def consoleintr (s : Cons) (c : UInt8) : Cons :=
  if c = ctrlP then s
  else if c = ctrlU then killLine (s.e - s.w).toNat s
  else if c = ctrlH ∨ c = delete then if s.e ≠ s.w then s.erase else s
  else if c ≠ 0 ∧ (s.e - s.r).toNat < inputBufSize then
    let c := if c = carriageReturn then newline else c
    (s.store c).commit c
  else s

/-- `cons.buf[cons.r % INPUT_BUF_SIZE]`. -/
def front (s : Cons) : UInt8 := s.buf (s.r.toNat % inputBufSize)

def take (s : Cons) : Cons := { s with r := s.r + 1 }

def putBack (s : Cons) : Cons := { s with r := s.r - 1 }

end Cons

/-- Where a reader is: in user code with the result of its last call, or asleep in
`consoleread` with the bytes that are left to read. `got` is what the call has copied to
its destination. -/
inductive Reader where
  | user (result : Int) (got : List UInt8)
  | reading (target left : Nat) (got : List UInt8)
  deriving DecidableEq

/-- The loop of `consoleread` with `left` bytes to go, up to its return or its next
sleep. -/
def readLoop (killed : Bool) (target : Nat) : Nat → Cons → List UInt8 → Cons × Reader
  | 0, s, got => (s, .user target got)
  | left + 1, s, got =>
    if s.r = s.w then
      (s, if killed then .user (-1) got else .reading target (left + 1) got)
    else
      let c := s.front
      let s := s.take
      if c = ctrlD then
        (if left + 1 < target then s.putBack else s, .user ((target : Int) - (left + 1)) got)
      else if c = newline then (s, .user ((target : Int) - left) (got ++ [c]))
      else readLoop killed target left s (got ++ [c])

structure ConsState where
  cons : Cons
  reader : Nat → Reader

/-- The stretches of code that run under the lock of the console. -/
inductive ConsAct where
  | intr (c : UInt8)
  | read (tid : Nat) (n : Int) (killed : Bool)
  | resume (tid : Nat) (killed : Bool)

namespace ConsState

def setReader (s : ConsState) (tid : Nat) (r : Cons × Reader) : ConsState :=
  ⟨r.1, update s.reader tid r.2⟩

def step (s : ConsState) : ConsAct → Option ConsState
  | .intr c => some { s with cons := s.cons.consoleintr c }
  | .read tid n killed =>
    match s.reader tid with
    | .user _ _ => some (s.setReader tid (readLoop killed n.toNat n.toNat s.cons []))
    | .reading .. => none
  | .resume tid killed =>
    match s.reader tid with
    | .user .. => none
    | .reading target left got =>
      some (s.setReader tid (readLoop killed target left s.cons got))

end ConsState

/-- An empty console. After `consoleinit` the counters are 0. -/
def emptyConsole (k : UInt32) : ConsState :=
  ⟨⟨fun _ => 0, k, k, k, []⟩, fun _ => .user 0 []⟩

structure Lines where
  committed : List UInt8
  editing : List UInt8

namespace Lines

def length (l : Lines) : Nat := l.committed.length + l.editing.length

/-- A character is added to the line; some complete it. -/
def add (l : Lines) (c : UInt8) : Lines :=
  let editing := l.editing ++ [c]
  if c = newline ∨ c = ctrlD ∨ l.length + 1 = inputBufSize then ⟨l.committed ++ editing, []⟩
  else ⟨l.committed, editing⟩

def type (l : Lines) (c : UInt8) : Lines :=
  if c = 0 ∨ c = ctrlP then l
  else if c = ctrlU then ⟨l.committed, []⟩
  else if c = ctrlH ∨ c = delete then ⟨l.committed, l.editing.dropLast⟩
  else if l.length < inputBufSize then l.add (if c = carriageReturn then newline else c)
  else l

end Lines

def Plain (bs : List UInt8) : Prop := ∀ c ∈ bs, c ≠ newline ∧ c ≠ ctrlD

/-- What a read of `target` bytes that has copied `got` makes of the committed bytes: where
it ends up, and what stays committed. -/
inductive Reads (target : Nat) (got : List UInt8) : List UInt8 → Reader → List UInt8 → Prop
  /-- It has all the bytes it asked for. -/
  | full {new rest} (hplain : Plain new) (hlength : (got ++ new).length = target) :
      Reads target got (new ++ rest) (.user (got ++ new).length (got ++ new)) rest
  /-- It has read a newline. -/
  | line {new rest} (hplain : Plain new) (hlength : (got ++ new).length < target) :
      Reads target got (new ++ newline :: rest)
        (.user (got ++ new ++ [newline]).length (got ++ new ++ [newline])) rest
  /-- An end of file stays for the next read. -/
  | eofKept {new rest} (hplain : Plain new) (hlength : (got ++ new).length < target)
      (hsome : got ++ new ≠ []) :
      Reads target got (new ++ ctrlD :: rest) (.user (got ++ new).length (got ++ new))
        (ctrlD :: rest)
  /-- An end of file is all there is. -/
  | eofTaken {rest} (hlength : 0 < target) (hnone : got = []) :
      Reads target got (ctrlD :: rest) (.user 0 []) rest
  /-- It has read everything and sleeps. -/
  | asleep {new} (hplain : Plain new) (hlength : (got ++ new).length < target) :
      Reads target got new (.reading target (target - (got ++ new).length) (got ++ new)) []
  /-- It has read everything and its process is killed. -/
  | killed {new} (hplain : Plain new) (hlength : (got ++ new).length < target) :
      Reads target got new (.user (-1) (got ++ new)) []

theorem Plain.cons {c : UInt8} {bs : List UInt8} (hc : c ≠ newline ∧ c ≠ ctrlD) (h : Plain bs) :
    Plain (c :: bs) := by
  intro x hx
  obtain rfl | hx := mem_cons.mp hx
  · exact hc
  · exact h x hx

theorem Reads.cons {target : Nat} {got cs rest : List UInt8} {c : UInt8} {r : Reader}
    (hc : c ≠ newline ∧ c ≠ ctrlD) (h : Reads target (got ++ [c]) cs r rest) :
    Reads target got (c :: cs) r rest := by
  cases h with
  | @full new _ hplain hlength =>
    rw [append_assoc] at hlength ⊢
    exact .full (hplain.cons hc) hlength
  | @line new _ hplain hlength =>
    rw [append_assoc got] at hlength ⊢
    exact .line (hplain.cons hc) hlength
  | @eofKept new _ hplain hlength hsome =>
    rw [append_assoc] at hlength hsome ⊢
    exact .eofKept (hplain.cons hc) hlength hsome
  | eofTaken _ hnone =>
    exact absurd hnone (by simp)
  | asleep hplain hlength =>
    rw [append_assoc] at hlength ⊢
    exact .asleep (hplain.cons hc) hlength
  | killed hplain hlength =>
    rw [append_assoc] at hlength ⊢
    exact .killed (hplain.cons hc) hlength

theorem plain_nil : Plain [] :=
  fun _ hc => absurd hc not_mem_nil

section Stop

variable {target : Nat} {got rest : List UInt8}

theorem Reads.full_nil (hlength : got.length = target) :
    Reads target got rest (.user target got) rest := by
  have h := @Reads.full target got [] rest plain_nil (by simpa using hlength)
  simpa [hlength] using h

section

variable (hlength : got.length < target)
include hlength

theorem Reads.line_nil :
    Reads target got (newline :: rest) (.user (got.length + 1) (got ++ [newline])) rest := by
  have h := @Reads.line target got [] rest plain_nil (by simpa using hlength)
  simpa using h

theorem Reads.eofKept_nil (hsome : got ≠ []) :
    Reads target got (ctrlD :: rest) (.user got.length got) (ctrlD :: rest) := by
  have h := @Reads.eofKept target got [] rest plain_nil (by simpa using hlength)
    (by simpa using hsome)
  simpa using h

theorem Reads.asleep_nil : Reads target got [] (.reading target (target - got.length) got) [] := by
  have h := @Reads.asleep target got [] plain_nil (by simpa using hlength)
  simpa using h

theorem Reads.killed_nil : Reads target got [] (.user (-1) got) [] := by
  have h := @Reads.killed target got [] plain_nil (by simpa using hlength)
  simpa using h

end

end Stop

namespace Cons

def readable (s : Cons) : Nat := (s.w - s.r).toNat

def typed (s : Cons) : Nat := (s.e - s.w).toNat

def lines (s : Cons) : Lines where
  committed := window inputBufSize s.buf s.r.toNat s.readable
  editing := window inputBufSize s.buf s.w.toNat s.typed

/-- The counters are in the order `r ≤ w ≤ e ≤ r + 128` modulo `2 ^ 32`, and the line has no
newline. -/
structure Valid (s : Cons) : Prop where
  fits : s.readable + s.typed ≤ inputBufSize
  editing : newline ∉ s.lines.editing

variable {s : Cons}

theorem length_lines : s.lines.length = s.readable + s.typed := by
  simp [Lines.length, lines]

theorem toNat_sub (hfits : s.lines.length ≤ inputBufSize) :
    (s.e - s.r).toNat = s.lines.length := by
  rw [length_lines] at hfits ⊢
  simp only [readable, typed, inputBufSize, UInt32.toNat_sub] at hfits ⊢
  have hr := s.r.toNat_lt
  have hw := s.w.toNat_lt
  have he := s.e.toNat_lt
  omega

theorem e_eq_w_iff : s.e = s.w ↔ s.typed = 0 := by
  simp only [typed, ← UInt32.toNat_inj, UInt32.toNat_sub]
  have hw := s.w.toNat_lt
  have he := s.e.toNat_lt
  omega

theorem toNat_e : s.e.toNat = (s.w.toNat + s.typed) % 2 ^ 32 := by
  simp only [typed, UInt32.toNat_sub]
  have hw := s.w.toNat_lt
  have he := s.e.toNat_lt
  omega

theorem toNat_w : s.w.toNat = (s.r.toNat + s.readable) % 2 ^ 32 := by
  simp only [readable, UInt32.toNat_sub]
  have hr := s.r.toNat_lt
  have hw := s.w.toNat_lt
  omega

theorem typed_erase {k : Nat} (hk : s.typed = k + 1) : s.erase.typed = k := by
  simp only [typed, erase, UInt32.toNat_sub] at hk ⊢
  have hw := s.w.toNat_lt
  have he := s.e.toNat_lt
  have hone : (1 : UInt32).toNat = 1 := rfl
  omega

theorem lines_erase (hne : s.e ≠ s.w) :
    s.erase.lines = ⟨s.lines.committed, s.lines.editing.dropLast⟩ := by
  obtain ⟨k, hk⟩ := Nat.exists_eq_succ_of_ne_zero (fun hzero => hne (e_eq_w_iff.mpr hzero))
  have hediting : s.erase.lines.editing = s.lines.editing.dropLast := by
    rw [lines, lines, hk, window_succ, dropLast_concat, typed_erase hk]
    rfl
  rw [← hediting]
  rfl

theorem Valid.erase (h : s.Valid) (hne : s.e ≠ s.w) : s.erase.Valid := by
  obtain ⟨k, hk⟩ := Nat.exists_eq_succ_of_ne_zero (fun hzero => hne (e_eq_w_iff.mpr hzero))
  have hfits := h.fits
  refine ⟨?_, fun hmem => h.editing ?_⟩
  · have hreadable : s.erase.readable = s.readable := rfl
    rw [hreadable, typed_erase hk]
    omega
  · rw [lines_erase hne] at hmem
    exact dropLast_subset _ hmem

theorem Valid.last_ne_newline (h : s.Valid) (hne : s.e ≠ s.w) :
    s.buf ((s.e - 1).toNat % inputBufSize) ≠ newline := by
  obtain ⟨k, hk⟩ := Nat.exists_eq_succ_of_ne_zero (fun hzero => hne (e_eq_w_iff.mpr hzero))
  intro heq
  refine h.editing ?_
  have hcell : (s.e - 1).toNat % inputBufSize = (s.w.toNat + k) % inputBufSize := by
    have hend := toNat_e (s := s)
    have hone : (1 : UInt32).toNat = 1 := rfl
    have he := s.e.toNat_lt
    simp only [UInt32.toNat_sub, inputBufSize]
    omega
  rw [lines, hk, window_succ, ← hcell, heq]
  exact mem_append_right _ (mem_singleton_self _)

theorem Valid.killLine {k : Nat} (h : s.Valid) (hk : s.typed = k) :
    (killLine k s).Valid ∧ (Cons.killLine k s).lines = ⟨s.lines.committed, []⟩ := by
  induction k generalizing s with
  | zero =>
    refine ⟨h, ?_⟩
    rw [Cons.killLine, lines, hk, window_zero]
  | succ k ih =>
    have hne : s.e ≠ s.w := by
      rw [Ne, e_eq_w_iff, hk]
      exact Nat.succ_ne_zero k
    obtain ⟨hvalid, hlines⟩ := ih (h.erase hne) (typed_erase hk)
    rw [Cons.killLine, if_pos ⟨hne, h.last_ne_newline hne⟩]
    refine ⟨hvalid, ?_⟩
    rw [hlines, lines_erase hne]

theorem typed_store (c : UInt8) (hroom : s.typed < inputBufSize) :
    (s.store c).typed = s.typed + 1 := by
  simp only [typed, store, inputBufSize, UInt32.toNat_sub, UInt32.toNat_add] at hroom ⊢
  have hw := s.w.toNat_lt
  have he := s.e.toNat_lt
  have hone : (1 : UInt32).toNat = 1 := rfl
  omega

theorem lines_store (hroom : s.lines.length < inputBufSize) (c : UInt8) :
    (s.store c).lines = ⟨s.lines.committed, s.lines.editing ++ [c]⟩ := by
  rw [length_lines] at hroom
  have hdvd : inputBufSize ∣ 2 ^ 32 := by decide
  -- the cell of `e` is one after the line, and so less than one round after `r`
  have hcell : s.e.toNat % inputBufSize = (s.w.toNat + s.typed) % inputBufSize := by
    rw [toNat_e, Nat.mod_mod_of_dvd _ hdvd]
  have hcell' : s.e.toNat % inputBufSize =
      (s.r.toNat + s.readable + s.typed) % inputBufSize := by
    rw [hcell, toNat_w]
    simp only [inputBufSize]
    omega
  have hcommitted : (s.store c).lines.committed = s.lines.committed := by
    change window inputBufSize (update s.buf (s.e.toNat % inputBufSize) c) s.r.toNat
      s.readable = _
    rw [hcell', window_update c (Nat.le_add_right _ _) (by omega)]
    rfl
  have hediting : (s.store c).lines.editing = s.lines.editing ++ [c] := by
    change window inputBufSize (update s.buf (s.e.toNat % inputBufSize) c) s.w.toNat
      (s.store c).typed = _
    rw [typed_store c (by omega), window_succ, hcell,
      window_update c (le_refl _) (by omega), update_self]
    rfl
  rw [← hcommitted, ← hediting]

theorem lines_commit (hfits : s.lines.length ≤ inputBufSize) :
    { s with w := s.e }.lines = ⟨s.lines.committed ++ s.lines.editing, []⟩ := by
  have hdvd : inputBufSize ∣ 2 ^ 32 := by decide
  have htyped : { s with w := s.e }.typed = 0 := by
    simp [typed]
  have hreadable : { s with w := s.e }.readable = s.readable + s.typed := by
    rw [← length_lines, ← toNat_sub hfits]
    rfl
  have hsplit : s.lines.committed ++ s.lines.editing =
      window inputBufSize s.buf s.r.toNat (s.readable + s.typed) := by
    rw [← window_append, lines, toNat_w, window_mod hdvd]
  rw [hsplit, lines, htyped, hreadable, window_zero]

theorem Valid.backspace (h : s.Valid) :
    (if s.e ≠ s.w then s.erase else s).Valid ∧
      (if s.e ≠ s.w then s.erase else s).lines =
        ⟨s.lines.committed, s.lines.editing.dropLast⟩ := by
  by_cases hne : s.e ≠ s.w
  · rw [if_pos hne]
    exact ⟨h.erase hne, lines_erase hne⟩
  · rw [if_neg hne]
    have hempty : s.lines.editing = [] := by
      rw [lines, e_eq_w_iff.mp (not_not.mp hne), window_zero]
    refine ⟨h, ?_⟩
    rw [hempty, dropLast_nil, ← hempty]

theorem Valid.add (h : s.Valid) (hroom : s.lines.length < inputBufSize) (c : UInt8) :
    ((s.store c).commit c).Valid ∧ ((s.store c).commit c).lines = s.lines.add c := by
  have hstore := lines_store hroom c
  have hlength : (s.store c).lines.length = s.lines.length + 1 := by
    rw [hstore, Lines.length, Lines.length, length_append]
    rfl
  have hfits : (s.store c).lines.length ≤ inputBufSize := by omega
  rw [commit, Lines.add, toNat_sub hfits, hlength]
  split
  · have hcommit := lines_commit hfits
    refine ⟨⟨?_, ?_⟩, ?_⟩
    · rw [← length_lines, hcommit, Lines.length, length_append, length_nil]
      exact hfits
    · rw [hcommit]
      exact not_mem_nil
    · rw [hcommit, hstore]
  · rename_i hopen
    refine ⟨⟨?_, fun hmem => ?_⟩, hstore⟩
    · rw [← length_lines]
      exact hfits
    · rw [hstore] at hmem
      obtain hold | hnew := mem_append.mp hmem
      · exact h.editing hold
      · exact hopen (.inl (mem_singleton.mp hnew).symm)

theorem Valid.consoleintr (h : s.Valid) (c : UInt8) :
    (s.consoleintr c).Valid ∧ (s.consoleintr c).lines = s.lines.type c := by
  have hfits : s.lines.length ≤ inputBufSize := by
    rw [length_lines]
    exact h.fits
  rw [Cons.consoleintr, Lines.type]
  by_cases hP : c = ctrlP
  · rw [if_pos hP, if_pos (.inr hP)]
    exact ⟨h, rfl⟩
  · rw [if_neg hP]
    by_cases hU : c = ctrlU
    · rw [if_pos hU, if_neg (by rw [hU]; decide), if_pos hU]
      exact h.killLine rfl
    · rw [if_neg hU]
      by_cases hH : c = ctrlH ∨ c = delete
      · have hzero : ¬(c = 0 ∨ c = ctrlP) := by
          rintro (rfl | hc)
          · revert hH
            decide
          · exact hP hc
        rw [if_pos hH, if_neg hzero, if_neg hU, if_pos hH]
        exact h.backspace
      · rw [if_neg hH, toNat_sub hfits]
        by_cases hzero : c = 0
        · rw [if_neg (fun hc => hc.1 hzero), if_pos (.inl hzero)]
          exact ⟨h, rfl⟩
        · rw [if_neg (not_or.mpr ⟨hzero, hP⟩), if_neg hU, if_neg hH]
          by_cases hroom : s.lines.length < inputBufSize
          · rw [if_pos ⟨hzero, hroom⟩, if_pos hroom]
            exact h.add hroom _
          · rw [if_neg (fun hc => hroom hc.2), if_neg hroom]
            exact ⟨h, rfl⟩

theorem r_eq_w_iff : s.r = s.w ↔ s.readable = 0 := by
  simp only [readable, ← UInt32.toNat_inj, UInt32.toNat_sub]
  have hr := s.r.toNat_lt
  have hw := s.w.toNat_lt
  omega

theorem readable_take {k : Nat} (hk : s.readable = k + 1) : s.take.readable = k := by
  simp only [readable, take, UInt32.toNat_sub, UInt32.toNat_add] at hk ⊢
  have hr := s.r.toNat_lt
  have hw := s.w.toNat_lt
  have hone : (1 : UInt32).toNat = 1 := rfl
  omega

theorem Valid.take (h : s.Valid) (hne : s.r ≠ s.w) :
    s.take.Valid ∧ s.lines.committed = s.front :: s.take.lines.committed ∧
      s.take.lines.editing = s.lines.editing := by
  obtain ⟨k, hk⟩ := Nat.exists_eq_succ_of_ne_zero (fun hzero => hne (r_eq_w_iff.mpr hzero))
  have hfits := h.fits
  refine ⟨⟨?_, h.editing⟩, ?_, rfl⟩
  · have htyped : s.take.typed = s.typed := rfl
    rw [readable_take hk, htyped]
    omega
  · have hdvd : inputBufSize ∣ 2 ^ 32 := by decide
    have hnext : (s.r + 1).toNat = (s.r.toNat + 1) % 2 ^ 32 := UInt32.toNat_add ..
    change window inputBufSize s.buf s.r.toNat s.readable =
      s.front :: window inputBufSize s.buf (s.r + 1).toNat s.take.readable
    rw [readable_take hk, hk, window_cons, hnext, window_mod hdvd]
    rfl

theorem putBack_take : s.take.putBack = s := by
  have hback : s.r + 1 - 1 = s.r := by
    rw [UInt32.add_sub_cancel]
  rw [putBack, take]
  simp only [hback]

end Cons

theorem Cons.Valid.readLoop {s : Cons} (h : s.Valid) (killed : Bool) {target left : Nat}
    {got : List UInt8} (hleft : got.length + left = target) :
    (readLoop killed target left s got).1.Valid ∧
      Reads target got s.lines.committed (Sync.readLoop killed target left s got).2
        (Sync.readLoop killed target left s got).1.lines.committed ∧
      (Sync.readLoop killed target left s got).1.lines.editing = s.lines.editing := by
  induction left generalizing s got with
  | zero => exact ⟨h, .full_nil hleft, rfl⟩
  | succ left ih =>
    have hlength : got.length < target := by omega
    rw [Sync.readLoop]
    by_cases heq : s.r = s.w
    · have hempty : s.lines.committed = [] := by
        rw [lines, r_eq_w_iff.mp heq, window_zero]
      rw [if_pos heq]
      refine ⟨h, ?_, rfl⟩
      rw [hempty]
      cases killed with
      | true => exact .killed_nil hlength
      | false =>
        have hsleep := Reads.asleep_nil hlength
        rw [show target - got.length = left + 1 by omega] at hsleep
        exact hsleep
    · obtain ⟨hvalid, hcons, hediting⟩ := h.take heq
      rw [if_neg heq]
      simp only
      by_cases hD : s.front = ctrlD
      · rw [if_pos hD]
        rw [hD] at hcons
        by_cases hmore : left + 1 < target
        · rw [if_pos hmore, putBack_take]
          refine ⟨h, ?_, rfl⟩
          rw [hcons, show ((target : Int) - (left + 1)) = got.length by omega]
          refine .eofKept_nil hlength ?_
          rintro rfl
          simp only [length_nil] at hleft
          omega
        · have hnone : got = [] := length_eq_zero_iff.mp (by omega)
          rw [if_neg hmore, hcons, show ((target : Int) - (left + 1)) = 0 by omega, hnone]
          exact ⟨hvalid, .eofTaken (by omega) rfl, hediting⟩
      · rw [if_neg hD]
        by_cases hnl : s.front = newline
        · rw [if_pos hnl]
          refine ⟨hvalid, ?_, hediting⟩
          rw [hcons, hnl, show ((target : Int) - left) = got.length + 1 by omega]
          exact .line_nil hlength
        · rw [if_neg hnl]
          have hleft' : (got ++ [s.front]).length + left = target := by
            rw [length_append, length_singleton]
            omega
          obtain ⟨hvalid', hreads, hediting'⟩ := ih hvalid hleft'
          refine ⟨hvalid', ?_, hediting'.trans hediting⟩
          rw [hcons]
          exact hreads.cons ⟨hnl, hD⟩

/-- A reader that sleeps still has bytes to read, and knows how many. -/
def Reader.Sound : Reader → Prop
  | .user .. => True
  | .reading target left got => got.length + left = target

theorem Reads.sound {target : Nat} {got cs rest : List UInt8} {r : Reader}
    (h : Reads target got cs r rest) : r.Sound := by
  cases h with
  | asleep _ hlength => exact Nat.add_sub_cancel' hlength.le
  | full | line | eofKept | eofTaken | killed => trivial

namespace ConsState

def lines (s : ConsState) : Lines := s.cons.lines

structure Valid (s : ConsState) : Prop where
  cons : s.cons.Valid
  readers : ∀ tid, (s.reader tid).Sound

def Read (s : ConsState) (tid target : Nat) (got : List UInt8) (s' : ConsState) : Prop :=
  ∃ r, Reads target got s.lines.committed r s'.lines.committed ∧
    s'.lines.editing = s.lines.editing ∧ s'.reader = update s.reader tid r

variable {s s' : ConsState}

theorem Valid.readLoop (h : s.Valid) (tid : Nat) (killed : Bool) {target left : Nat}
    {got : List UInt8} (hleft : got.length + left = target) :
    (s.setReader tid (readLoop killed target left s.cons got)).Valid ∧
      s.Read tid target got (s.setReader tid (Sync.readLoop killed target left s.cons got)) := by
  obtain ⟨hvalid, hreads, hediting⟩ := h.cons.readLoop killed hleft
  refine ⟨⟨hvalid, fun tid' => ?_⟩, _, hreads, hediting, rfl⟩
  by_cases htid : tid' = tid
  · have hself : (s.setReader tid (Sync.readLoop killed target left s.cons got)).reader tid' =
        (Sync.readLoop killed target left s.cons got).2 := by
      rw [htid]
      exact update_self ..
    rw [hself]
    exact hreads.sound
  · have hother : (s.setReader tid (Sync.readLoop killed target left s.cons got)).reader tid' =
        s.reader tid' := update_of_ne htid ..
    rw [hother]
    exact h.readers tid'

def Does (s : ConsState) (s' : ConsState) : ConsAct → Prop
  | .intr c => s'.lines = s.lines.type c ∧ s'.reader = s.reader
  | .read tid n _ => s.Read tid n.toNat [] s'
  | .resume tid _ => ∃ target left got, s.reader tid = .reading target left got ∧
      got.length + left = target ∧ s.Read tid target got s'

theorem Valid.step {a : ConsAct} (h : s.Valid) (hs : s.step a = some s') :
    s'.Valid ∧ s.Does s' a := by
  cases a with
  | intr c =>
    obtain rfl := some.inj hs
    obtain ⟨hvalid, hlines⟩ := h.cons.consoleintr c
    exact ⟨⟨hvalid, h.readers⟩, hlines, rfl⟩
  | read tid n killed =>
    simp only [ConsState.step] at hs
    split at hs
    · obtain rfl := some.inj hs
      exact h.readLoop tid killed (by simp)
    · cases hs
  | resume tid killed =>
    simp only [ConsState.step] at hs
    split at hs
    · cases hs
    · rename_i target left got hreader
      obtain rfl := some.inj hs
      have hsound := h.readers tid
      rw [hreader] at hsound
      obtain ⟨hvalid, hread⟩ := h.readLoop tid killed hsound
      exact ⟨hvalid, target, left, got, hreader, hsound, hread⟩

theorem emptyConsole_valid (k : UInt32) : (emptyConsole k).Valid := by
  refine ⟨⟨?_, ?_⟩, fun _ => trivial⟩
  · simp [emptyConsole, Cons.readable, Cons.typed]
  · simp [emptyConsole, Cons.lines, Cons.typed]

end ConsState

/-- A line is typed over the wrap of the counters while a reader takes two bytes of it. -/
def wrapActs : List ConsAct :=
  [.read 0 2 false, .intr 97, .intr 120, .intr ctrlH, .intr 98, .intr carriageReturn,
    .intr 99, .resume 0 false]

end EafitOs.Sync
