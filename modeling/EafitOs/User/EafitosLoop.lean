import EafitOs.User.EafitosArgs

/-!
# The command loop of EAFITos

`gets` never returns null, so the loop ends only with the command `salir`: an input that ends
without it is followed by empty lines forever.
-/

namespace EafitOs.User.Eafitos

open List

variable {env : Env} {input following : List UInt8} {room : Nat}

def answer (input : List UInt8) : List UInt8 := input.takeWhile fun c => ¬EndsLine c

theorem answer_end {c : UInt8} (hc : EndsLine c) (input : List UInt8) :
    answer (c :: input) = [] := by
  simp [answer, hc]

theorem answer_cons {c : UInt8} (hc : ¬EndsLine c) (input : List UInt8) :
    answer (c :: input) = c :: answer input := by
  simp [answer, hc]

theorem getsLoop_eq (room : Nat) (input : List UInt8) : getsLoop room input =
    (input.take (min room ((answer input).length + 1)),
      input.drop (min room ((answer input).length + 1))) := by
  induction room generalizing input with
  | zero => simp [getsLoop]
  | succ room ih =>
    cases input with
    | nil => simp [getsLoop]
    | cons c input =>
      rw [getsLoop]
      by_cases hc : EndsLine c
      · simp [hc, answer_end hc]
      · rw [if_neg hc, ih, answer_cons hc, length_cons, Nat.succ_min_succ]
        rfl

def promptLine (input : List UInt8) : List UInt8 := (getsLoop 127 input).1 ++ [0]

def promptRest (input : List UInt8) : List UInt8 := (getsLoop 127 input).2

def left (input : List UInt8) : List UInt8 :=
  match argv (promptLine input) with
  | [cmd, _] => if cmd = eliminar then (getsLoop 15 (promptRest input)).2 else promptRest input
  | _ => promptRest input

theorem runEliminar_input (env : Env) (input file : List UInt8) :
    (runEliminar env input [file]).2 = (getsLoop 15 input).2 := by
  rw [runEliminar, gets]
  simp only
  split
  · split <;> rfl
  · rfl

theorem command_input {cmd : List UInt8} {args : List (List UInt8)}
    (h : ∀ file, cmd = eliminar → args ≠ [file]) : (command env cmd args input).2 = input := by
  simp only [command]
  repeat' split
  all_goals try rfl
  rename_i heq
  cases args with
  | nil => rfl
  | cons file args =>
    cases args with
    | nil => exact absurd rfl (h file heq)
    | cons file' args => rfl

theorem command_eliminar (env : Env) (args : List (List UInt8)) (input : List UInt8) :
    command env eliminar args input = runEliminar env input args := by
  rw [command, if_neg (by decide), if_neg (by decide), if_neg (by decide), if_neg (by decide),
    if_neg (by decide), if_neg (by decide), if_pos rfl]

theorem turn_eq (env : Env) (input : List UInt8) : turn env input =
    match argv (promptLine input) with
    | [] => ⟨[prompt], promptRest input, false⟩
    | cmd :: args =>
      if cmd = salir then ⟨[prompt], promptRest input, true⟩
      else ⟨prompt :: (command env cmd args (promptRest input)).1,
        (command env cmd args (promptRest input)).2, false⟩ := rfl

theorem turn_ends : (turn env input).ends = true ↔ (argv (promptLine input)).head? =
    some salir := by
  rw [turn_eq]
  cases argv (promptLine input) with
  | nil => simp
  | cons cmd args =>
    by_cases hcmd : cmd = salir
    · simp [hcmd]
    · simp [hcmd]

theorem turn_input : (turn env input).input = left input := by
  rw [turn_eq, left]
  cases argv (promptLine input) with
  | nil => rfl
  | cons cmd args =>
    simp only
    by_cases hcmd : cmd = salir
    · subst cmd
      rw [if_pos rfl]
      cases args with
      | nil => rfl
      | cons file args => cases args <;> rfl
    · rw [if_neg hcmd]
      cases args with
      | nil => exact command_input (by simp)
      | cons file args =>
        cases args with
        | cons file' args => exact command_input (by simp)
        | nil =>
          simp only
          split
          · subst cmd
            rw [command_eliminar, runEliminar_input]
          · rename_i hne
            exact command_input fun _ heq => absurd heq hne

/-- Whether the loop ends within `n` turns, from turn `k` on. -/
def endsWithin (env : Nat → Env) : Nat → Nat → List UInt8 → Bool
  | _, 0, _ => false
  | k, n + 1, input =>
    (turn (env k) input).ends || endsWithin env (k + 1) n (turn (env k) input).input

/-- The lines read at the prompt before the input ends. -/
inductive Prompted : List UInt8 → List UInt8 → Prop
  | here {rest : List UInt8} (h : rest ≠ []) : Prompted rest (promptLine rest)
  | later {rest line : List UInt8} (h : rest ≠ []) (hline : Prompted (left rest) line) :
      Prompted rest line

theorem endsWithin_nil (env : Nat → Env) (k n : Nat) : endsWithin env k n [] = false := by
  induction n generalizing k with
  | zero => rfl
  | succ n ih =>
    have hline : argv (promptLine []) = [] := by decide
    have hends : (turn (env k) []).ends = false := by
      rw [← Bool.not_eq_true, turn_ends, hline]
      simp
    have hleft : left [] = [] := by
      rw [left, hline]
      rfl
    rw [endsWithin, hends, turn_input, hleft]
    exact ih (k + 1)

/-- The shell ends exactly on inputs that hold the command `salir`, as a line it reads. -/
theorem shell_ends_iff (env : Nat → Env) (input : List UInt8) :
    (∃ n, endsWithin env 0 n input = true) ↔
      ∃ line, Prompted input line ∧ (argv line).head? = some salir := by
  constructor
  · rintro ⟨n, hn⟩
    generalize 0 = k at hn
    induction n generalizing k input with
    | zero => cases hn
    | succ n ih =>
      have hne : input ≠ [] := by
        rintro rfl
        rw [endsWithin_nil] at hn
        cases hn
      rw [endsWithin, Bool.or_eq_true, turn_ends, turn_input] at hn
      rcases hn with hsalir | hlater
      · exact ⟨_, .here hne, hsalir⟩
      · obtain ⟨line, hline, hsalir⟩ := ih _ _ hlater
        exact ⟨line, .later hne hline, hsalir⟩
  · rintro ⟨line, hline, hsalir⟩
    generalize 0 = k
    induction hline generalizing k with
    | here h =>
      refine ⟨1, ?_⟩
      rw [endsWithin, turn_ends.mpr hsalir, Bool.true_or]
    | later h hline ih =>
      obtain ⟨n, hn⟩ := ih hsalir (k + 1)
      refine ⟨n + 1, ?_⟩
      rw [endsWithin, turn_input, hn, Bool.or_true]

/-- The empty input is never left. -/
theorem shell_never_ends :
    ¬∀ (env : Nat → Env) (input : List UInt8), ∃ n, endsWithin env 0 n input = true := by
  intro h
  obtain ⟨n, hn⟩ := h (fun _ => ⟨true, fun _ => true, fun _ => true, 0⟩) []
  rw [endsWithin_nil] at hn
  cases hn

/-- Nothing is deleted but on the answers `s` and `si`, and no part of the answer is left for
the next prompt. -/
def Confirmed (t : Turn) (following : List UInt8) : Prop :=
  ((∃ file, .unlink file ∈ t.events) → answer following = [115] ∨ answer following = [115, 105]) ∧
    t.input <:+ following.drop (answer following).length

theorem turn_eliminar {file : List UInt8} (hcmd : argv (promptLine input) = [eliminar, file]) :
    ((∃ f, .unlink f ∈ (turn env input).events) ↔
      Confirms ((getsLoop 15 (promptRest input)).1 ++ [0])) ∧
    (turn env input).input = (getsLoop 15 (promptRest input)).2 := by
  refine ⟨?_, ?_⟩
  · rw [turn_eq, hcmd]
    simp only
    rw [if_neg (by decide), command_eliminar, runEliminar, gets]
    simp only
    split
    · rename_i hyes
      split <;> simp [hyes, prompt, say]
    · rename_i hno
      simp [hno, prompt, say]
  · rw [turn_input, left, hcmd]
    simp

theorem charAt_answer (c : UInt8) (hc : ¬EndsLine c) (rest : List UInt8) :
    charAt ((getsLoop 15 (c :: rest)).1 ++ [0]) 0 = c ∧
      charAt ((getsLoop 15 (c :: rest)).1 ++ [0]) 1 = charAt rest 0 := by
  rw [getsLoop, if_neg hc]
  refine ⟨rfl, ?_⟩
  cases rest with
  | nil => rfl
  | cons d rest =>
    rw [getsLoop]
    split <;> rfl

theorem confirms_whole_iff (following : List UInt8) :
    (Confirms ((getsLoop 15 following).1 ++ [0]) →
        answer following = [115] ∨ answer following = [115, 105]) ↔
      ([115, 105] <+: answer following → answer following = [115, 105]) ∧
        ¬[115, 0] <+: answer following := by
  cases following with
  | nil => decide
  | cons c rest =>
    by_cases hc : EndsLine c
    · have hno : ¬Confirms ((getsLoop 15 (c :: rest)).1 ++ [0]) := by
        rw [getsLoop, if_pos hc]
        rintro ⟨hs, -⟩
        rcases hc with rfl | rfl <;> cases hs
      simp [answer_end hc, hno]
    · obtain ⟨hfirst, hsecond⟩ := charAt_answer c hc rest
      rw [Confirms, hfirst, hsecond, answer_cons hc]
      cases rest with
      | nil => simp +contextual [answer]
      | cons d rest =>
        have hd : charAt (d :: rest) 0 = d := rfl
        rw [hd]
        by_cases hend : EndsLine d
        · simp +contextual [answer_end hend]
        · have hnl : d ≠ 10 := fun h => hend (.inl h)
          simp only [answer_cons hend, hnl, false_or, cons_prefix_cons, nil_prefix, and_true,
            List.cons.injEq]
          grind

/-- An answer is judged as a whole exactly if it fits the buffer, is `si` if it begins so, and
has no NUL after an `s`. -/
theorem eliminar_confirmed_iff (env : Env) (input file : List UInt8)
    (hcmd : argv (promptLine input) = [eliminar, file]) :
    Confirmed (turn env input) (promptRest input) ↔
      (answer (promptRest input)).length ≤ 15 ∧
        ([115, 105] <+: answer (promptRest input) → answer (promptRest input) = [115, 105]) ∧
        ¬[115, 0] <+: answer (promptRest input) := by
  obtain ⟨hunlink, hinput⟩ := @turn_eliminar env input file hcmd
  generalize promptRest input = following at *
  have hle : (answer following).length ≤ following.length :=
    (takeWhile_sublist _).length_le
  have hsuffix : (getsLoop 15 following).2 <:+ following.drop (answer following).length ↔
      (answer following).length ≤ 15 := by
    rw [getsLoop_eq]
    constructor
    · intro h
      have hlen := h.length_le
      rw [length_drop, length_drop] at hlen
      omega
    · intro h
      obtain ⟨d, hd⟩ : ∃ d, min 15 ((answer following).length + 1) =
          (answer following).length + d := ⟨_, (Nat.add_sub_cancel' (by omega)).symm⟩
      rw [hd, ← drop_drop]
      exact drop_suffix _ _
  rw [Confirmed, hunlink, hinput, hsuffix, confirms_whole_iff]
  exact and_comm

def willing : Env := ⟨true, fun _ => true, fun _ => true, 0⟩

def eliminarF : List UInt8 := eliminar ++ [32, 102, 10]

/-- The answer `no`. -/
theorem eliminar_confirmed_no :
    Confirmed (turn willing (eliminarF ++ [110, 111, 10])) [110, 111, 10] :=
  (eliminar_confirmed_iff willing (eliminarF ++ [110, 111, 10]) [102] (by decide +kernel)).mpr
    (by decide +kernel)

/-- The answer `siempre no` deletes the file, and of a long answer the end is a command. -/
theorem eliminar_unconfirmed :
    Event.unlink [102] ∈ (turn willing (eliminarF ++
        ascii ['s', 'i', 'e', 'm', 'p', 'r', 'e', ' ', 'n', 'o'] ++ [10])).events ∧
      (turn willing (eliminarF ++ List.replicate 16 32 ++ salir ++ [10])).input =
        32 :: salir ++ [10] := by
  decide +kernel

end EafitOs.User.Eafitos
