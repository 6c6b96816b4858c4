import EafitOs.Sync.Console

/-!
# The exits of `consoleread`

A byte that was taken from the ring is copied to a destination that may be inaccessible.
`consoleread` has five exits, and the one for a failed copy neither releases the lock nor puts the
byte back. A call is a sequence of stretches under the lock, one for each time that it wakes up.
-/

namespace EafitOs.Sync

open Foundation

inductive Why where
  | killed
  | eof
  | fault
  | line
  | count
  deriving DecidableEq

/-- What a call leaves behind: the ring, whether it still holds `cons.lock`, its result and the
bytes it has delivered. -/
structure Exit where
  why : Why
  cons : Cons
  locked : Bool
  result : Int
  got : List UInt8

/-- A stretch of code under the lock ends with a return or in `sleep`, which releases the lock. -/
inductive Stretch where
  | returns (e : Exit)
  | sleeps (s : Cons) (left : Nat) (got : List UInt8)

/-- The loop of `consoleread` with `left` bytes to go, up to its return or its next sleep. The
byte at `dst + j` can be copied if `copy j`. -/
def readStretch (copy : Nat → Bool) (killed : Bool) (target : Nat) :
    Nat → Cons → List UInt8 → Stretch
  | 0, s, got => .returns ⟨.count, s, false, target, got⟩
  | left + 1, s, got =>
    if s.r = s.w then
      if killed then .returns ⟨.killed, s, false, -1, got⟩ else .sleeps s (left + 1) got
    else
      let c := s.front
      let s := s.take
      if c = ctrlD then
        .returns ⟨.eof, if left + 1 < target then s.putBack else s, false,
          (target : Int) - (left + 1), got⟩
      -- no `release(&cons.lock)`
      else if copy (target - (left + 1)) = false then .returns ⟨.fault, s, true, -1, got⟩
      else if c = newline then .returns ⟨.line, s, false, (target : Int) - left, got ++ [c]⟩
      else readStretch copy killed target left s (got ++ [c])

/-- A call with `left` bytes to go that has delivered `got`, where `k` says whether its process
is killed. Its last stretch starts with the ring
`last` and the bytes `start` delivered. -/
inductive Call (copy : Nat → Bool) (target : Nat) :
    Nat → List UInt8 → Cons → List UInt8 → Exit → Prop
  | returns {left got s k e} (h : readStretch copy k target left s got = .returns e) :
      Call copy target left got s got e
  | wakes {left got s k s' left' got' last start e}
      (h : readStretch copy k target left s got = .sleeps s' left' got')
      (rest : Call copy target left' got' last start e) : Call copy target left got last start e

/-- A call of `consoleread` for `n` bytes. -/
def Consoleread (copy : Nat → Bool) (n : Int) (last : Cons) (start : List UInt8) (e : Exit) :
    Prop :=
  Call copy n.toNat n.toNat [] last start e

/-- The lock is released, and a failed copy has removed only delivered bytes from the ring. -/
def CleansUp (last : Cons) (start : List UInt8) (e : Exit) : Prop :=
  e.locked = false ∧ (e.why = .fault →
    ∃ new, e.got = start ++ new ∧ last.lines.committed = new ++ e.cons.lines.committed)

/-- The bytes that a read of at most `left` bytes copies, from those that are committed. -/
def wanted : Nat → List UInt8 → List UInt8
  | 0, _ => []
  | _ + 1, [] => []
  | left + 1, c :: cs =>
    if c = ctrlD then [] else if c = newline then [c] else c :: wanted left cs

/-- The bytes from `start` on that are copied next can all be copied. -/
def Accessible (copy : Nat → Bool) (start : Nat) (bs : List UInt8) : Prop :=
  ∀ j < bs.length, copy (start + j) = true

variable {copy : Nat → Bool} {killed : Bool} {target left : Nat} {s : Cons} {got : List UInt8}

theorem accessible_nil (start : Nat) : Accessible copy start [] :=
  fun _ hj => absurd hj (Nat.not_lt_zero _)

theorem accessible_cons {start : Nat} {c : UInt8} {bs : List UInt8} :
    Accessible copy start (c :: bs) ↔ copy start = true ∧ Accessible copy (start + 1) bs := by
  constructor
  · intro h
    refine ⟨h 0 (Nat.succ_pos _), fun j hj => ?_⟩
    have := h (j + 1) (Nat.succ_lt_succ hj)
    rwa [Nat.add_comm j 1, ← Nat.add_assoc] at this
  · rintro ⟨hfirst, hrest⟩ j hj
    cases j with
    | zero => exact hfirst
    | succ j =>
      have := hrest j (Nat.lt_of_succ_lt_succ hj)
      rwa [Nat.add_assoc, Nat.add_comm 1 j] at this

theorem Cons.Valid.readStretch (h : s.Valid) (hleft : got.length + left = target) :
    (Accessible copy got.length (wanted left s.lines.committed) →
      ∀ e, Sync.readStretch copy killed target left s got = .returns e →
        e.locked = false ∧ e.why ≠ .fault) ∧
    (¬Accessible copy got.length (wanted left s.lines.committed) →
      ∃ e, Sync.readStretch copy killed target left s got = .returns e ∧ e.locked = true) := by
  induction left generalizing s got with
  | zero =>
    refine ⟨fun _ e he => ?_, fun hn => absurd (accessible_nil _) hn⟩
    cases he
    exact ⟨rfl, by simp⟩
  | succ left ih =>
    rw [Sync.readStretch]
    by_cases heq : s.r = s.w
    · have hempty : s.lines.committed = [] := by
        rw [lines, r_eq_w_iff.mp heq, window_zero]
      rw [if_pos heq, hempty]
      refine ⟨fun _ e he => ?_, fun hn => absurd (accessible_nil _) hn⟩
      split at he
      · cases he
        exact ⟨rfl, by simp⟩
      · cases he
    · obtain ⟨hvalid, hcons, -⟩ := h.take heq
      have hpos : target - (left + 1) = got.length := by omega
      rw [if_neg heq, hcons, wanted, hpos]
      simp only
      by_cases hD : s.front = ctrlD
      · rw [if_pos hD, if_pos hD]
        refine ⟨fun _ e he => ?_, fun hn => absurd (accessible_nil _) hn⟩
        cases he
        exact ⟨rfl, by simp⟩
      · rw [if_neg hD, if_neg hD]
        by_cases hcopy : copy got.length = false
        · rw [if_pos hcopy]
          refine ⟨fun hall => ?_, fun _ => ⟨_, rfl, rfl⟩⟩
          -- the byte at hand is one that the read wants
          split at hall
          · exact absurd (accessible_cons.mp hall).1 (by rw [hcopy]; decide)
          · exact absurd (accessible_cons.mp hall).1 (by rw [hcopy]; decide)
        · have htrue : copy got.length = true := Bool.eq_true_of_not_eq_false hcopy
          rw [if_neg hcopy]
          by_cases hnl : s.front = newline
          · rw [if_pos hnl, if_pos hnl]
            refine ⟨fun _ e he => ?_, fun hn => ?_⟩
            · cases he
              exact ⟨rfl, by simp⟩
            · exact absurd (accessible_cons.mpr ⟨htrue, accessible_nil _⟩) hn
          · rw [if_neg hnl, if_neg hnl, accessible_cons]
            have hlength : (got ++ [s.front]).length = got.length + 1 := by simp
            have hleft' : (got ++ [s.front]).length + left = target := by omega
            obtain ⟨hall, hsome⟩ := ih hvalid hleft'
            rw [hlength] at hall hsome
            exact ⟨fun hacc => hall hacc.2, fun hn => hsome fun hrest => hn ⟨htrue, hrest⟩⟩

theorem readStretch_sleeps (hleft : got.length + left = target) {s' : Cons} {left' : Nat}
    {got' : List UInt8} (h : readStretch copy killed target left s got = .sleeps s' left' got') :
    got'.length + left' = target := by
  induction left generalizing s got with
  | zero => cases h
  | succ left ih =>
    simp only [readStretch] at h
    split at h
    · split at h
      · cases h
      · cases h
        exact hleft
    · split at h
      · cases h
      · split at h
        · cases h
        · split at h
          · cases h
          · refine ih ?_ h
            rw [List.length_append, List.length_singleton]
            omega

theorem Call.last {last : Cons} {start : List UInt8} {e : Exit}
    (h : Call copy target left got last start e) (hleft : got.length + left = target) :
    ∃ killed, readStretch copy killed target (target - start.length) last start = .returns e ∧
      start.length ≤ target := by
  induction h with
  | @returns left got s killed e h =>
    obtain rfl : target - got.length = left := by omega
    exact ⟨killed, h, by omega⟩
  | wakes h rest ih => exact ih (readStretch_sleeps hleft h)

def Stretch.outcome (target : Nat) : Stretch → Cons × Reader
  | .returns e => (e.cons, .user e.result e.got)
  | .sleeps s left got => (s, .reading target left got)

theorem readStretch_outcome (hcopy : ∀ j, copy j = true) :
    (readStretch copy killed target left s got).outcome target =
      readLoop killed target left s got := by
  induction left generalizing s got with
  | zero => rfl
  | succ left ih =>
    rw [readStretch, readLoop]
    by_cases heq : s.r = s.w
    · rw [if_pos heq, if_pos heq]
      cases killed <;> rfl
    · rw [if_neg heq, if_neg heq]
      simp only [hcopy, Bool.true_eq_false, if_false]
      by_cases hD : s.front = ctrlD
      · rw [if_pos hD, if_pos hD]
        rfl
      · rw [if_neg hD, if_neg hD]
        by_cases hnl : s.front = newline
        · rw [if_pos hnl, if_pos hnl]
          rfl
        · rw [if_neg hnl, if_neg hnl, ih]

/-- `consoleread` cleans up exactly if each byte that its last stretch comes to can be copied to
the destination. -/
theorem consoleread_cleans_up_iff {n : Int} {last : Cons} {start : List UInt8} {e : Exit}
    (hlast : last.Valid) (h : Consoleread copy n last start e) :
    CleansUp last start e ↔
      Accessible copy start.length (wanted (n.toNat - start.length) last.lines.committed) := by
  obtain ⟨killed, hstretch, hle⟩ := Call.last h (Nat.zero_add _)
  obtain ⟨hclean, hleak⟩ := @Cons.Valid.readStretch copy killed _ _ _ _ hlast
    (Nat.add_sub_cancel' hle)
  constructor
  · intro hup
    by_contra hn
    obtain ⟨e', he', hlocked⟩ := hleak hn
    rw [hstretch] at he'
    cases he'
    rw [hup.1] at hlocked
    cases hlocked
  · intro hacc
    obtain ⟨hlocked, hwhy⟩ := hclean hacc e hstretch
    exact ⟨hlocked, fun hfault => absurd hfault hwhy⟩

def typedLine : Cons := ((emptyConsole 0).cons.consoleintr 97).consoleintr newline

theorem typedLine_valid : typedLine.Valid :=
  (((ConsState.emptyConsole_valid 0).cons.consoleintr 97).1.consoleintr newline).1

/-- The line is read into a buffer that is accessible. -/
theorem consoleread_cleans_up_line : ∃ e, Consoleread (fun _ => true) 8 typedLine [] e ∧
    e.result = 2 ∧ e.got = [97, newline] ∧ CleansUp typedLine [] e := by
  have hcall : Consoleread (fun _ => true) 8 typedLine []
      ⟨.line, typedLine.take.take, false, 2, [97, newline]⟩ := .returns (k := false) rfl
  exact ⟨_, hcall, rfl, rfl, (consoleread_cleans_up_iff typedLine_valid hcall).mpr fun _ _ => rfl⟩

/-- A read into a buffer that is not accessible returns with the lock held, and the byte it took
is lost. -/
theorem consoleread_leaks : ∃ e, Consoleread (fun _ => false) 8 typedLine [] e ∧
    e.result = -1 ∧ e.got = [] ∧ e.locked = true ∧
    typedLine.lines.committed = [97, newline] ∧ e.cons.lines.committed = [newline] ∧
    ¬CleansUp typedLine [] e := by
  have hcall : Consoleread (fun _ => false) 8 typedLine []
      ⟨.fault, typedLine.take, true, -1, []⟩ := .returns (k := false) rfl
  exact ⟨_, hcall, rfl, rfl, rfl, by decide, by decide, fun h => by cases h.1⟩

end EafitOs.Sync
