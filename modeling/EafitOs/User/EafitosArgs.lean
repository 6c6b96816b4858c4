import EafitOs.User.Eafitos

/-!
# Argument splitting of EAFITos

The words of a line are its maximal runs of characters that are not blank. The loop finds their
beginnings in order, keeps five of them, and ends every word with the NUL it writes over the
blank after it.
-/

namespace EafitOs.User.Eafitos

open Function List

/-- The positions where the maximal runs of a text begin, in order. -/
def starts (t : List UInt8) : List Nat :=
  (range t.length).filter fun p =>
    ¬Blank (charAt t p) ∧ (p = 0 ∨ Blank (charAt t (p - 1)))

def wordAt (t : List UInt8) (p : Nat) : List UInt8 := (t.drop p).takeWhile fun c => ¬Blank c

/-- The positions the loop keeps, from `i` on. -/
def startsFrom : Bool → Nat → List UInt8 → List Nat
  | _, _, [] => []
  | inword, i, c :: cs =>
    if Blank c then startsFrom false (i + 1) cs
    else if inword then startsFrom true (i + 1) cs
    else i :: startsFrom true (i + 1) cs

def blanked (t : List UInt8) : List UInt8 := t.map fun c => if Blank c then 0 else c

variable {line t pre cs : List UInt8} {a : Args} {i p : Nat} {inword : Bool} {c : UInt8}

theorem not_blank_zero : ¬Blank 0 := by decide

theorem charAt_append_length (pre cs : List UInt8) (c : UInt8) :
    charAt (pre ++ c :: cs) pre.length = c := by
  simp [charAt]

theorem splitLoop_eq (line : List UInt8) (i : Nat) (inword : Bool) (a : Args) :
    splitLoop line i inword a = (blanked (text line) ++ line.drop (strlen line),
      (startsFrom inword i (text line)).foldl Args.push a) := by
  induction line generalizing i inword a with
  | nil => rfl
  | cons c cs ih =>
    rw [splitLoop]
    by_cases hc : c = 0
    · rw [if_pos hc, text, strlen, if_pos hc]
      rfl
    · have htext : text (c :: cs) = c :: text cs := by
        rw [text, strlen, if_neg hc]
        rfl
      have hdrop : (c :: cs).drop (strlen (c :: cs)) = cs.drop (strlen cs) := by
        rw [strlen, if_neg hc]
        rfl
      rw [if_neg hc, htext, hdrop, startsFrom, blanked, map_cons]
      by_cases hb : Blank c
      · simp only [if_pos hb, ih]
        rfl
      · cases inword <;> simp only [if_neg hb, ih] <;> rfl

theorem startsFrom_eq (hin : inword = true ↔ pre ≠ [] ∧ ¬Blank (charAt pre (pre.length - 1))) :
    startsFrom inword pre.length cs = (range' pre.length cs.length).filter fun p =>
      ¬Blank (charAt (pre ++ cs) p) ∧ (p = 0 ∨ Blank (charAt (pre ++ cs) (p - 1))) := by
  induction cs generalizing pre inword with
  | nil => rfl
  | cons c cs ih =>
    have hlast : charAt (pre ++ [c]) ((pre ++ [c]).length - 1) = c := by
      simpa using charAt_append_length pre [] c
    have hnext : ∀ inword', (inword' = true ↔ ¬Blank c) →
        startsFrom inword' (pre.length + 1) cs =
          (range' (pre.length + 1) cs.length).filter fun p =>
            ¬Blank (charAt (pre ++ c :: cs) p) ∧
              (p = 0 ∨ Blank (charAt (pre ++ c :: cs) (p - 1))) := by
      intro inword' h'
      have hpre := @ih (pre ++ [c]) inword' (by rw [hlast, h']; simp)
      rw [append_assoc, singleton_append, length_append,
        length_singleton] at hpre
      exact hpre
    -- whether `c` begins a run is what the flag says
    have hflag : (pre.length = 0 ∨ Blank (charAt (pre ++ c :: cs) (pre.length - 1))) ↔
        inword = false := by
      rw [← Bool.not_eq_true, hin, length_eq_zero_iff]
      by_cases hpre : pre = []
      · simp [hpre]
      · have hlt : pre.length - 1 < pre.length :=
          Nat.sub_lt (length_pos_iff.mpr hpre) Nat.one_pos
        have hsame : charAt (pre ++ c :: cs) (pre.length - 1) = charAt pre (pre.length - 1) := by
          simp [charAt, getD_eq_getElem?_getD, List.getElem?_append_left hlt]
        simp [hpre, hsame]
    rw [startsFrom, length_cons, range'_succ, filter_cons, charAt_append_length]
    simp only [hflag]
    by_cases hb : Blank c
    · rw [if_pos hb, hnext false (by simp [hb])]
      simp [hb]
    · rw [if_neg hb, hnext true (by simp [hb])]
      cases inword <;> simp [hb]

theorem starts_eq (t : List UInt8) : starts t = startsFrom false 0 t := by
  have h := @startsFrom_eq [] t false (by simp)
  rw [nil_append, length_nil, ← range_eq_range'] at h
  exact h.symm

theorem push_foldl_argc (ps : List Nat) (ha : a.argc ≤ 5) :
    (ps.foldl Args.push a).argc = min 5 (a.argc + ps.length) := by
  induction ps generalizing a with
  | nil => exact (Nat.min_eq_right ha).symm
  | cons p ps ih =>
    rw [foldl_cons, Args.push, length_cons]
    split
    · rw [ih (by simp only; omega)]
      simp only
      omega
    · rw [ih ha]
      omega

theorem push_foldl_args (ps : List Nat) (k : Nat) (hk : k < (ps.foldl Args.push a).argc)
    (ha : a.argc ≤ 5) : (ps.foldl Args.push a).args k =
      if k < a.argc then a.args k else ps[k - a.argc]? := by
  induction ps generalizing a with
  | nil => exact (if_pos hk).symm
  | cons p ps ih =>
    rw [foldl_cons] at hk ⊢
    by_cases hroom : a.argc < 6 - 1
    · have hpush : a.push p = ⟨update a.args a.argc (some p), a.argc + 1⟩ := if_pos hroom
      rw [ih hk (by rw [hpush]; simp only; omega), hpush]
      simp only
      obtain hlt | rfl | hgt := Nat.lt_trichotomy k a.argc
      · rw [if_pos (by omega), if_pos hlt, update_of_ne (by omega)]
      · simp
      · rw [if_neg (by omega), if_neg (by omega)]
        obtain ⟨d, rfl⟩ := Nat.exists_eq_add_of_lt hgt
        simp [show a.argc + d + 1 - (a.argc + 1) = d by omega,
          show a.argc + d + 1 - a.argc = d + 1 by omega]
    · have hpush : a.push p = a := if_neg hroom
      rw [hpush] at hk ⊢
      have hlt : k < a.argc := by
        rw [push_foldl_argc ps ha] at hk
        omega
      rw [ih hk ha, if_pos hlt, if_pos hlt]

theorem text_blanked {rest : List UInt8} (ht : ∀ c ∈ t, c ≠ 0) (hrest : charAt rest 0 = 0)
    (p : Nat) (hp : p ≤ t.length) : text ((blanked t ++ rest).drop p) = wordAt t p ∧
      charAt (blanked t ++ rest) (p + (wordAt t p).length) = 0 := by
  induction t generalizing p with
  | nil =>
    obtain rfl : p = 0 := Nat.le_zero.mp hp
    refine ⟨?_, by simpa [wordAt, blanked] using hrest⟩
    have hlen : strlen rest = 0 := strlen_eq (fun k hk => absurd hk (Nat.not_lt_zero k)) hrest
    rw [blanked, map_nil, nil_append, drop_zero, text, hlen]
    rfl
  | cons c t ih =>
    have ht' : ∀ c ∈ t, c ≠ 0 := fun d hd => ht d (mem_cons_of_mem c hd)
    cases p with
    | succ p =>
      obtain ⟨htext, hnul⟩ := ih ht' p (Nat.le_of_succ_le_succ hp)
      refine ⟨htext, ?_⟩
      rw [Nat.add_right_comm]
      exact hnul
    | zero =>
      obtain ⟨htext, hnul⟩ := ih ht' 0 (Nat.zero_le _)
      have hc : c ≠ 0 := ht c mem_cons_self
      rw [drop_zero, Nat.zero_add] at *
      rw [blanked, map_cons, cons_append, wordAt, drop_zero]
      by_cases hb : Blank c
      · rw [if_pos hb, takeWhile_cons_of_neg (by simpa using hb)]
        exact ⟨rfl, rfl⟩
      · rw [if_neg hb, takeWhile_cons_of_pos (by simpa using hb), text, strlen, if_neg hc,
          take_succ_cons]
        exact ⟨congrArg (c :: ·) htext, hnul⟩

theorem strlen_lt (hnul : 0 ∈ line) : strlen line < line.length := by
  induction line with
  | nil => cases hnul
  | cons c cs ih =>
    rw [strlen, length_cons]
    split
    · exact Nat.succ_pos _
    · rename_i hc
      exact Nat.succ_lt_succ (ih ((mem_cons.mp hnul).resolve_left fun h => hc h.symm))

theorem split_eq (line : List UInt8) (args : Nat → Option Nat) :
    split line args = (blanked (text line) ++ line.drop (strlen line),
      { (starts (text line)).foldl Args.push ⟨args, 0⟩ with
        args := update ((starts (text line)).foldl Args.push ⟨args, 0⟩).args
          ((starts (text line)).foldl Args.push ⟨args, 0⟩).argc none }) := by
  rw [split, splitLoop_eq, ← starts_eq]

theorem split_word (args : Nat → Option Nat) {k : Nat} (hk : k < (split line args).2.argc) :
    ∃ p, (starts (text line))[k]? = some p ∧ (split line args).2.args k = some p ∧
      p + (wordAt (text line) p).length ≤ strlen line ∧
      text ((split line args).1.drop p) = wordAt (text line) p ∧
      charAt (split line args).1 (p + (wordAt (text line) p).length) = 0 := by
  rw [split_eq] at hk ⊢
  have hargs := push_foldl_args _ k hk (Nat.zero_le 5)
  have hlt : k < (starts (text line)).length := by
    have hargc := push_foldl_argc (a := ⟨args, 0⟩) (starts (text line)) (Nat.zero_le 5)
    simp only at hk hargc
    omega
  rw [if_neg (Nat.not_lt_zero k), Nat.sub_zero, List.getElem?_eq_getElem hlt] at hargs
  have hmem := getElem_mem hlt
  generalize hp : (starts (text line)).get ⟨k, hlt⟩ = p at *
  rw [get_eq_getElem] at hp
  rw [hp] at hargs hmem
  have hle : p < (text line).length := mem_range.mp (mem_filter.mp hmem).1
  have hrest : charAt (line.drop (strlen line)) 0 = 0 := by
    rw [charAt_drop]
    exact charAt_strlen line
  obtain ⟨htext, hnul⟩ :=
    text_blanked (fun c hc => ne_zero_of_mem_text hc) hrest p (Nat.le_of_lt hle)
  refine ⟨p, by rw [List.getElem?_eq_getElem hlt, hp], ?_, ?_, htext, hnul⟩
  · exact (update_of_ne (Nat.ne_of_lt hk) _ _).trans hargs
  · have hword : (wordAt (text line) p).length ≤ ((text line).drop p).length :=
      (takeWhile_sublist _).length_le
    rw [length_drop] at hword
    rw [← length_text]
    omega

/-- The arguments of a line are its first five words, in order and each ended by a NUL. -/
theorem split_args (line : List UInt8) (args : Nat → Option Nat) (hnul : 0 ∈ line) :
    (split line args).2.argc = min 5 (starts (text line)).length ∧
      (∀ k < (split line args).2.argc, ∃ p, (starts (text line))[k]? = some p ∧
        (split line args).2.args k = some p ∧
        text ((split line args).1.drop p) = wordAt (text line) p ∧
        (split line args).1[p + (wordAt (text line) p).length]? = some 0) ∧
      (split line args).2.args (split line args).2.argc = none := by
  refine ⟨?_, fun k hk => ?_, ?_⟩
  · rw [split_eq]
    simpa using push_foldl_argc (a := ⟨args, 0⟩) (starts (text line)) (Nat.zero_le 5)
  · obtain ⟨p, hstart, hargs, hle, htext, hzero⟩ := split_word args hk
    refine ⟨p, hstart, hargs, htext, ?_⟩
    have hlen : (split line args).1.length = line.length := by
      have := strlen_le line
      rw [split_eq, length_append, blanked, length_map, length_text, length_drop]
      omega
    have hin : p + (wordAt (text line) p).length < (split line args).1.length := by
      have := strlen_lt hnul
      omega
    rw [charAt, getD_eq_getElem?_getD, List.getElem?_eq_getElem hin] at hzero
    rw [List.getElem?_eq_getElem hin]
    exact congrArg some hzero
  · rw [split_eq]
    exact update_self _ _ _

theorem argv_eq (line : List UInt8) :
    argv line = ((starts (text line)).take 5).map (wordAt (text line)) := by
  have hargc : (split line fun _ => none).2.argc = min 5 (starts (text line)).length := by
    rw [split_eq]
    simpa using push_foldl_argc (a := ⟨fun _ => none, 0⟩) (starts (text line)) (Nat.zero_le 5)
  refine ext_getElem? fun k => ?_
  rw [argv, List.getElem?_map, List.getElem?_map]
  by_cases hk : k < (split line fun _ => none).2.argc
  · obtain ⟨p, hstart, hargs, -, htext, -⟩ := split_word (fun _ => none) hk
    rw [List.getElem?_range hk, List.getElem?_take_of_lt (by omega), hstart, Option.map_some,
      Option.map_some, hargs, Option.getD_some, htext]
  · have htake : ((starts (text line)).take 5).length ≤ k := by
      rw [length_take]
      omega
    rw [List.getElem?_eq_none (by simpa using hk), List.getElem?_eq_none htake]
    rfl

/-- Two words in front of the NUL. -/
theorem split_args_two :
    (split [97, 98, 32, 99, 10, 0, 7] fun _ => none).2.argc = min 5 2 ∧
      (split [97, 98, 32, 99, 10, 0, 7] fun _ => none).2.args 2 = none := by
  obtain ⟨hargc, -, hend⟩ := split_args [97, 98, 32, 99, 10, 0, 7] (fun _ => none) (by decide)
  have hstarts : (starts (text [97, 98, 32, 99, 10, 0, 7])).length = 2 := by decide +kernel
  rw [hstarts] at hargc
  rw [hargc] at hend
  exact ⟨hargc, hend⟩

end EafitOs.User.Eafitos
