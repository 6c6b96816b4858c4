import EafitOs.User.GrepMatch

/-!
# The line buffer of `grep`

`grep` reads into a buffer of 1024 bytes, handles the complete lines in it and moves what is
left to the front. A line that fills the buffer leaves no room to read, which looks like the end
of the input.
-/

namespace EafitOs.User.Grep

open List

def bufSize : Nat := 1024

def newline : UInt8 := 10

def strchr (c : UInt8) : List UInt8 → Option Nat
  | [] => none
  | d :: s => if d = 0 then none else if d = c then some 0 else (strchr c s).map (· + 1)

def isMatch (pattern line : List UInt8) : Bool :=
  matchText (strlen pattern + strlen line + 2) pattern line = some true

/-- The loop over the lines in the buffer from `p` on: the lines it writes, and where it ends. -/
def lineLoop (pattern : List UInt8) : Nat → List UInt8 → List (List UInt8) × List UInt8
  | 0, p => ([], p)
  | fuel + 1, p =>
    match strchr newline p with
    | none => ([], p)
    | some q =>
      let r := lineLoop pattern fuel (p.drop (q + 1))
      (if isMatch pattern (p.take q) then p.take (q + 1) :: r.1 else r.1, r.2)

/-- The loop over reads, with the bytes kept in the buffer. The `i`-th `read` delivers
`sizes i + 1` bytes if there is room for them and the input has them. -/
def grepLoop (pattern : List UInt8) (sizes : Nat → Nat) :
    Nat → Nat → List UInt8 → List UInt8 → List (List UInt8)
  | 0, _, _, _ => []
  | fuel + 1, i, buf, input =>
    let n := min (sizes i + 1) (min (bufSize - buf.length - 1) input.length)
    if n = 0 then []
    else
      let r := lineLoop pattern (buf.length + n + 1) (buf ++ input.take n)
      r.1 ++ grepLoop pattern sizes fuel (i + 1) r.2 (input.drop n)

def grep (pattern : List UInt8) (sizes : Nat → Nat) (input : List UInt8) : List (List UInt8) :=
  grepLoop pattern sizes (input.length + 1) 0 [] input

def lines (input : List UInt8) : List (List UInt8) := (input.splitOn newline).dropLast

def selected (pattern : List UInt8) (ls : List (List UInt8)) : List (List UInt8) :=
  (ls.filter (isMatch pattern)).map (· ++ [newline])

def Fits (line : List UInt8) : Prop := line.length < bufSize - 1

instance (line : List UInt8) : Decidable (Fits line) := inferInstanceAs (Decidable (_ < _))

variable {pattern input l s t : List UInt8} {ls ms : List (List UInt8)} {q fuel : Nat}

theorem not_newline (h : newline ∉ l) : ∀ c ∈ l, (c == newline) = false := by
  intro c hc
  rw [beq_eq_false_iff_ne]
  rintro rfl
  exact h hc

theorem lines_of_not_mem (h : newline ∉ l) : lines l = [] := by
  rw [lines, List.splitOn, splitOnP_eq_singleton (not_newline h)]
  rfl

theorem lines_cons (h : newline ∉ l) (t : List UInt8) :
    lines (l ++ newline :: t) = l :: lines t := by
  rw [lines, List.splitOn,
    splitOnP_append_cons_of_forall_mem (not_newline h) _ (beq_self_eq_true _)]
  exact dropLast_cons_of_ne_nil (splitOnP_ne_nil _ _)

theorem strchr_none (hs : 0 ∉ s) (h : strchr newline s = none) : newline ∉ s := by
  induction s with
  | nil => exact not_mem_nil
  | cons d s ih =>
    have hd : d ≠ 0 := by
      rintro rfl
      exact hs mem_cons_self
    rw [strchr, if_neg hd] at h
    split at h
    · cases h
    · rename_i hd
      have hrest := ih (fun hm => hs (mem_cons_of_mem d hm)) (Option.map_eq_none_iff.mp h)
      simpa using ⟨fun heq => hd heq.symm, hrest⟩

theorem strchr_some (h : strchr newline s = some q) :
    s = s.take q ++ newline :: s.drop (q + 1) ∧ newline ∉ s.take q := by
  induction s generalizing q with
  | nil => cases h
  | cons d s ih =>
    rw [strchr] at h
    split at h
    · cases h
    · split at h
      · rename_i hd
        obtain rfl := Option.some.inj h
        exact ⟨by simp [hd], by simp⟩
      · rename_i hd
        obtain ⟨q, hq, rfl⟩ := Option.map_eq_some_iff.mp h
        obtain ⟨heq, hmem⟩ := ih hq
        refine ⟨?_, ?_⟩
        · simpa using heq
        · simpa using ⟨fun heq => hd heq.symm, hmem⟩

/-- What the loop over lines does with a text: it writes the selected lines and keeps a tail
that the next bytes go on. -/
structure Scanned (pattern t : List UInt8) (r : List (List UInt8) × List UInt8) : Prop where
  written : r.1 = selected pattern (lines t)
  suffix : r.2 <:+ t
  open_line : newline ∉ r.2
  goes_on : ∀ rest, lines (t ++ rest) = lines t ++ lines (r.2 ++ rest)
  short : ∀ l ∈ lines t, l.length < t.length

theorem lineLoop_scanned (pattern : List UInt8) (ht : 0 ∉ t) (hfuel : t.length < fuel) :
    Scanned pattern t (lineLoop pattern fuel t) := by
  induction fuel generalizing t with
  | zero => exact absurd hfuel (Nat.not_lt_zero _)
  | succ fuel ih =>
    rw [lineLoop]
    cases hq : strchr newline t with
    | none =>
      have hmem := strchr_none ht hq
      have hlines := lines_of_not_mem hmem
      exact ⟨by rw [hlines]; rfl, suffix_refl t, hmem, fun rest => by rw [hlines]; rfl,
        by simp [hlines]⟩
    | some q =>
      obtain ⟨heq, hmem⟩ := strchr_some hq
      have hlen := congrArg List.length heq
      rw [length_append, length_cons] at hlen
      have htail := @ih (t.drop (q + 1)) (fun h => ht (mem_of_mem_drop h)) (by omega)
      have hlines : ∀ rest, lines (t ++ rest) = t.take q :: lines (t.drop (q + 1) ++ rest) := by
        intro rest
        conv_lhs => rw [heq, append_assoc, cons_append]
        exact lines_cons hmem _
      have hself := hlines []
      rw [append_nil, append_nil] at hself
      have htake : t.take (q + 1) = t.take q ++ [newline] := by
        conv_lhs => rw [heq]
        have hq : (t.take q).length = q := by
          rw [length_take] at hlen ⊢
          omega
        rw [take_append, hq, take_of_length_le (by omega)]
        simp
      refine ⟨?_, htail.suffix.trans (drop_suffix _ _), htail.open_line, fun rest => ?_, ?_⟩
      · simp only [htail.written, hself, selected, filter_cons, htake]
        split <;> rfl
      · rw [hlines, hself, htail.goes_on rest]
        rfl
      · rw [hself]
        intro l hl
        rcases mem_cons.mp hl with rfl | hl
        · omega
        · have := htail.short l hl
          omega

theorem selected_append (h : ∀ l ∈ ls, Fits l) :
    selected pattern ((ls ++ ms).takeWhile fun l => Fits l) =
      selected pattern ls ++ selected pattern (ms.takeWhile fun l => Fits l) := by
  rw [takeWhile_append_of_pos (by simpa using h), selected, filter_append,
    map_append]
  rfl

theorem lines_full {buf : List UInt8} (hbuf : newline ∉ buf) (hfull : ¬Fits buf) :
    (lines (buf ++ input)).takeWhile (fun l => Fits l) = [] := by
  by_cases hmem : newline ∈ input
  · obtain ⟨u, v, rfl, hu⟩ := eq_append_cons_of_mem hmem
    have hline : newline ∉ buf ++ u := by simp [hbuf, hu]
    rw [← append_assoc, lines_cons hline, takeWhile_cons_of_neg]
    rw [Fits] at hfull
    simp only [Fits, length_append, decide_eq_true_eq]
    omega
  · rw [lines_of_not_mem (by simp [hbuf, hmem])]
    rfl

theorem grepLoop_eq (pattern : List UInt8) (sizes : Nat → Nat) {i : Nat} {buf : List UInt8}
    (hzero : 0 ∉ buf ++ input) (hbuf : newline ∉ buf) (hlen : buf.length ≤ bufSize - 1)
    (hfuel : input.length < fuel) : grepLoop pattern sizes fuel i buf input =
      selected pattern ((lines (buf ++ input)).takeWhile fun l => Fits l) := by
  induction fuel generalizing i buf input with
  | zero => exact absurd hfuel (Nat.not_lt_zero _)
  | succ fuel ih =>
    rw [grepLoop]
    generalize hn : min (sizes i + 1) (min (bufSize - buf.length - 1) input.length) = n
    by_cases hstop : n = 0
    · rw [if_pos hstop]
      by_cases hend : input = []
      · rw [hend, append_nil, lines_of_not_mem hbuf]
        rfl
      · have := length_pos_iff.mpr hend
        rw [lines_full hbuf (by rw [Fits]; omega)]
        rfl
    · rw [if_neg hstop]
      have hsplit : buf ++ input = (buf ++ input.take n) ++ input.drop n := by
        rw [append_assoc, take_append_drop]
      have hchunk : (buf ++ input.take n).length = buf.length + n := by
        rw [length_append, length_take_of_le (by omega)]
      rw [hsplit] at hzero ⊢
      have hscan := @lineLoop_scanned (buf ++ input.take n) (buf.length + n + 1) pattern
        (fun h => hzero (mem_append_left _ h)) (by omega)
      generalize lineLoop pattern (buf.length + n + 1) (buf ++ input.take n) = r at *
      have hkept := hscan.suffix.length_le
      have hnext := @ih (input.drop n) (i + 1) r.2 (fun h => hzero ?_) hscan.open_line (by omega)
        (by rw [length_drop]; omega)
      · have hshort : ∀ l ∈ lines (buf ++ input.take n), Fits l := by
          intro l hl
          have := hscan.short l hl
          rw [Fits]
          omega
        rw [hscan.goes_on, selected_append hshort, ← hnext, ← hscan.written]
      · rcases mem_append.mp h with h | h
        · exact mem_append_left _ (hscan.suffix.subset h)
        · exact mem_append_right _ h

theorem grep_eq (pattern : List UInt8) (sizes : Nat → Nat) (hzero : 0 ∉ input) :
    grep pattern sizes input = selected pattern ((lines input).takeWhile fun l => Fits l) :=
  grepLoop_eq pattern sizes hzero not_mem_nil (Nat.zero_le _) (Nat.lt_succ_self _)

/-- `grep` writes all lines it should exactly if none of them comes at or after a line that does
not fit the buffer. -/
theorem grep_exact_iff (pattern input : List UInt8) (sizes : Nat → Nat) (hzero : 0 ∉ input) :
    grep pattern sizes input = selected pattern (lines input) ↔
      ∀ l ∈ (lines input).dropWhile (fun l => Fits l), isMatch pattern l = false := by
  rw [grep_eq pattern sizes hzero]
  generalize lines input = ls
  have hsplit : selected pattern ls = selected pattern (ls.takeWhile fun l => Fits l) ++
      selected pattern (ls.dropWhile fun l => Fits l) := by
    conv_lhs => rw [← takeWhile_append_dropWhile (p := fun l => decide (Fits l)) (l := ls)]
    rw [selected, filter_append, map_append]
    rfl
  rw [hsplit, eq_comm, append_right_eq_self]
  simp [selected]

/-- Two lines, one of which matches, read byte by byte. -/
theorem grep_exact_two :
    grep [98] (fun _ => 0) [97, 10, 98, 10] = selected [98] (lines [97, 10, 98, 10]) :=
  (grep_exact_iff [98] [97, 10, 98, 10] (fun _ => 0) (by decide)).mpr (by decide +kernel)

/-- A line of 1023 characters hides the line after it. -/
theorem grep_loses_line :
    grep [98] (fun _ => 0) (List.replicate 1023 97 ++ newline :: [98, newline]) = [] ∧
      [98, newline] ∈ selected [98] (lines (List.replicate 1023 97 ++ newline ::
        [98, newline])) := by
  have hmem : ∀ c, c ≠ 97 → c ∉ List.replicate 1023 (97 : UInt8) := by
    intro c hc h
    exact hc (eq_of_mem_replicate h)
  have hnl := hmem newline (by decide)
  have hzero := hmem 0 (by decide)
  have hlen : (List.replicate 1023 (97 : UInt8)).length = 1023 := length_replicate
  generalize List.replicate 1023 (97 : UInt8) = long at *
  have hlines : lines (long ++ newline :: [98, newline]) = [long, [98]] := by
    rw [lines_cons hnl]
    rfl
  refine ⟨?_, ?_⟩
  · rw [grep_eq, hlines, takeWhile_cons_of_neg]
    · rfl
    · simp [Fits, bufSize, hlen]
    · simp [newline, hzero]
  · have hmatch : isMatch [98] [98] = true := by decide +kernel
    rw [hlines]
    exact mem_map.mpr ⟨[98], mem_filter.mpr ⟨by simp, hmatch⟩, rfl⟩

end EafitOs.User.Grep
