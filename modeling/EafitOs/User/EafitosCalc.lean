import EafitOs.User.EafitosLoop

/-!
# The calculator of EAFITos

`calc a op b` goes through the splitting of the line, `atoi`, arithmetic on `int` and `printint`.
`atoi` knows no sign, so a negative operand counts as zero.
-/

namespace EafitOs.User.Eafitos

open Library List

def spell (v : Int) : List UInt8 :=
  signOf v ++ (digitsOf 10 v.natAbs).reverse.map fun d => Ulib.digits.getD d 0

def IsInt (v : Int) : Prop := -2 ^ 31 ≤ v ∧ v < 2 ^ 31

instance (v : Int) : Decidable (IsInt v) := inferInstanceAs (Decidable (_ ∧ _))

variable {a b v w : Int} {c : UInt8} {d : Nat}

theorem toNat_digit (hd : d < 10) : (Ulib.digits.getD d 0).toNat = 48 + d := by
  interval_cases d <;> rfl

theorem lt_of_mem_digitsOf (hd : d ∈ digitsOf 10 w.natAbs) : d < 10 :=
  (digitsOf_canonical (by norm_num) _).lt_base d (mem_reverse.mpr hd)

theorem percentD_eq (r : Int32) : percentD r = spell r.toInt := by
  have h : Ulib.printint r.toInt64 10 true = _ := printDigits_eq Ulib.digits .d
  rw [percentD, h, Option.getD_some, shown, if_pos rfl, Int32.toInt_toInt64]
  rfl

theorem mem_spell (hc : c ∈ spell v) : c = minus ∨ 48 ≤ c ∧ c ≤ 57 := by
  rcases mem_append.mp hc with hc | hc
  · rw [signOf] at hc
    split at hc
    · exact .inl (mem_singleton.mp hc)
    · cases hc
  · obtain ⟨d, hd, rfl⟩ := mem_map.mp hc
    have hlt := lt_of_mem_digitsOf (mem_reverse.mp hd)
    refine .inr ?_
    rw [UInt8.le_iff_toNat_le, UInt8.le_iff_toNat_le, toNat_digit hlt]
    exact ⟨Nat.le_add_right 48 d, by simp only [UInt8.toNat_ofNat]; omega⟩

theorem spell_ne_nil (v : Int) : spell v ≠ [] := by
  have hne := (digitsOf_canonical (by norm_num : 1 < 10) v.natAbs).ne_nil
  rw [spell]
  simpa using fun _ => hne

theorem length_spell_le (hv : IsInt v) : (spell v).length ≤ 11 := by
  have hlt : v.natAbs < 10 ^ 10 := by
    have := hv.1
    have := hv.2
    omega
  have hdigits := length_digitsOf_le (by norm_num) (by norm_num) hlt
  rw [spell, length_append, length_map, length_reverse, signOf]
  split <;> simp only [length_cons, length_nil] <;> omega

def valueOf (n : Int) (ds : List Nat) : Int := ds.foldl (fun (n : Int) (d : Nat) => n * 10 + d) n

theorem valueOf_digitsOf (x : Nat) : valueOf 0 (digitsOf 10 x).reverse = x := by
  have hvalue := (digitsOf_canonical (by norm_num : 1 < 10) x).value
  rw [reverse_reverse, Nat.ofDigits_eq_foldr] at hvalue
  conv_rhs => rw [← hvalue]
  rw [valueOf, foldl_reverse]
  generalize digitsOf 10 x = ds
  induction ds with
  | nil => rfl
  | cons d ds ih =>
    rw [foldr_cons, foldr_cons, ih]
    push_cast
    ring

theorem atoiLoop_digits (n : Int) (ds : List Nat) (hds : ∀ d ∈ ds, d < 10) :
    atoiLoop (.ofInt n) (ds.map fun d => Ulib.digits.getD d 0) = .ofInt (valueOf n ds) := by
  induction ds generalizing n with
  | nil => rfl
  | cons d ds ih =>
    have hd : d < 10 := hds d mem_cons_self
    have hdigit : (48 : UInt8) ≤ Ulib.digits.getD d 0 ∧ Ulib.digits.getD d 0 ≤ 57 := by
      rw [UInt8.le_iff_toNat_le, UInt8.le_iff_toNat_le, toNat_digit hd]
      exact ⟨Nat.le_add_right 48 d, by simp only [UInt8.toNat_ofNat]; omega⟩
    have hstep : Int32.ofInt n * 10 + .ofNat (Ulib.digits.getD d 0).toNat - 48 =
        .ofInt (n * 10 + d) := by
      rw [toNat_digit hd, ← Int32.ofInt_eq_ofNat, Nat.cast_add, Int32.ofInt_add, Int32.ofInt_add,
        Int32.ofInt_mul]
      have hswap : ∀ x y z : Int32, x + (y + z) - y = x + z := by
        intro x y z
        rw [Int32.add_comm y, ← Int32.add_assoc, Int32.add_sub_cancel]
      exact hswap _ _ _
    rw [map_cons, atoiLoop, if_pos hdigit, hstep]
    exact ih _ fun d' hd' => hds d' (mem_cons_of_mem d hd')

theorem atoi_spell (v : Int) : atoi (spell v) = .ofInt (max v 0) := by
  by_cases hneg : v < 0
  · rw [spell, signOf, if_pos hneg, max_eq_right (le_of_lt hneg)]
    rfl
  · rw [spell, signOf, if_neg hneg, nil_append, atoi]
    refine (atoiLoop_digits 0 _ fun d hd => lt_of_mem_digitsOf (mem_reverse.mp hd)).trans ?_
    rw [valueOf_digitsOf, Int.natAbs_of_nonneg (not_lt.mp hneg), max_eq_left (not_lt.mp hneg)]

theorem digits_injective {x y : Nat} (h : ((digitsOf 10 x).reverse.map fun d =>
    Ulib.digits.getD d 0) = (digitsOf 10 y).reverse.map fun d => Ulib.digits.getD d 0) : x = y := by
  have hback : ∀ x : Nat, (((digitsOf 10 x).reverse.map fun d => Ulib.digits.getD d 0).map
      fun c => c.toNat - 48) = (digitsOf 10 x).reverse := by
    intro x
    rw [map_map]
    refine (map_congr_left fun d hd => ?_).trans (map_id _)
    have hd := (digitsOf_canonical (by norm_num : 1 < 10) x).lt_base d hd
    rw [Function.comp_apply, toNat_digit hd, Nat.add_sub_cancel_left, id]
  have hds := hback x
  rw [h, hback y] at hds
  have hval := valueOf_digitsOf x
  rw [← hds, valueOf_digitsOf] at hval
  exact (Int.ofNat_inj.mp hval).symm

theorem spell_injective (h : spell v = spell w) : v = w := by
  have hfirst : ∀ {u : Int}, ¬u < 0 → minus ∉ spell u := by
    intro u hu hmem
    rw [spell, signOf, if_neg hu, nil_append] at hmem
    obtain ⟨d, hd, hminus⟩ := mem_map.mp hmem
    have hval := congrArg UInt8.toNat hminus
    rw [toNat_digit (lt_of_mem_digitsOf (mem_reverse.mp hd))] at hval
    simp only [minus, UInt8.toNat_ofNat] at hval
    omega
  have hsigned : ∀ {u : Int}, u < 0 → minus ∈ spell u := by
    intro u hu
    rw [spell, signOf, if_pos hu]
    exact mem_cons_self
  have hsign : v < 0 ↔ w < 0 := by
    constructor
    · intro hv
      by_contra hw
      exact hfirst hw (h ▸ hsigned hv)
    · intro hw
      by_contra hv
      exact hfirst hv (h ▸ hsigned hw)
  have hsame : signOf v = signOf w := if_congr hsign rfl rfl
  rw [spell, spell, hsame] at h
  have habs := digits_injective (append_cancel_left h)
  omega

variable {ws : List (List UInt8 × UInt8)} {t pre u : List UInt8}

theorem startsFrom_word {i : Nat} (hu : ∀ c ∈ u, ¬Blank c) (hc : Blank c) :
    startsFrom true i (u ++ c :: t) = startsFrom false (i + u.length + 1) t := by
  induction u generalizing i with
  | nil => rw [nil_append, startsFrom, if_pos hc]; rfl
  | cons e u ih =>
    rw [cons_append, startsFrom, if_neg (hu e mem_cons_self), if_pos rfl,
      ih fun c hc => hu c (mem_cons_of_mem e hc), length_cons]
    congr 1
    omega

def IsWord (x : List UInt8 × UInt8) : Prop :=
  x.1 ≠ [] ∧ (∀ c ∈ x.1, ¬Blank c ∧ c ≠ 0) ∧ Blank x.2

def spaced (ws : List (List UInt8 × UInt8)) : List UInt8 := ws.flatMap fun x => x.1 ++ [x.2]

theorem words_spaced (hws : ∀ x ∈ ws, IsWord x) (pre : List UInt8) :
    (startsFrom false pre.length (spaced ws)).map (wordAt (pre ++ spaced ws)) =
      ws.map Prod.fst := by
  induction ws generalizing pre with
  | nil => rfl
  | cons x ws ih =>
    obtain ⟨hne, hword, hblank⟩ := hws x mem_cons_self
    have hspaced : spaced (x :: ws) = x.1 ++ x.2 :: spaced ws := by simp [spaced]
    have hstarts : startsFrom false pre.length (spaced (x :: ws)) =
        pre.length :: startsFrom false (pre ++ x.1 ++ [x.2]).length (spaced ws) := by
      obtain ⟨e, u, hu⟩ := exists_cons_of_ne_nil hne
      have hnb : ∀ c ∈ e :: u, ¬Blank c := fun c hc => (hword c (hu ▸ hc)).1
      rw [hspaced, hu, cons_append, startsFrom, if_neg (hnb e mem_cons_self),
        if_neg (by decide), startsFrom_word (fun c hc => hnb c (mem_cons_of_mem e hc)) hblank]
      congr 2
      simp only [length_append, length_cons, length_nil]
      omega
    have hhead : wordAt (pre ++ spaced (x :: ws)) pre.length = x.1 := by
      have hall : ∀ c ∈ x.1, decide (¬Blank c) = true := by simpa using fun c hc => (hword c hc).1
      rw [wordAt, drop_left, hspaced, takeWhile_append_of_pos hall,
        takeWhile_cons_of_neg (by simpa using hblank), append_nil]
    have htail := ih (fun y hy => hws y (mem_cons_of_mem x hy)) (pre ++ x.1 ++ [x.2])
    rw [hstarts, map_cons, map_cons, hhead, ← htail, hspaced]
    simp only [append_assoc, singleton_append]

theorem argv_spaced (hws : ∀ x ∈ ws, IsWord x) (hlen : ws.length ≤ 5) :
    argv (spaced ws ++ [0]) = ws.map Prod.fst := by
  have hzero : ∀ c ∈ spaced ws, c ≠ 0 := by
    intro c hc
    obtain ⟨x, hx, hc⟩ := mem_flatMap.mp hc
    obtain ⟨-, hword, hblank⟩ := hws x hx
    rcases mem_append.mp hc with hc | hc
    · exact (hword c hc).2
    · rw [mem_singleton.mp hc]
      rintro heq
      rw [heq] at hblank
      exact not_blank_zero hblank
  have htext : text (spaced ws ++ [0]) = spaced ws := by
    have hstrlen : strlen (spaced ws ++ [0]) = (spaced ws).length := by
      refine strlen_eq (fun k hk => ?_) (charAt_append_length _ [] 0)
      rw [charAt, getD_eq_getElem?_getD, List.getElem?_append_left hk,
        List.getElem?_eq_getElem hk]
      exact hzero _ (getElem_mem hk)
    rw [text, hstrlen, take_left]
  have hwords := words_spaced hws []
  rw [nil_append, length_nil, ← starts_eq] at hwords
  rw [argv_eq, htext, map_take, hwords]
  exact take_of_length_le (by rwa [length_map])

inductive Op where
  | add
  | sub
  | mul
  | div

namespace Op

def char : Op → UInt8
  | add => 43
  | sub => 45
  | mul => 42
  | div => 47

def value (a b : Int) : Op → Option Int
  | add => some (a + b)
  | sub => some (a - b)
  | mul => some (a * b)
  | div => if b = 0 then none else some (a.tdiv b)

def expected (a b : Int) (op : Op) : Event :=
  match op.value a b with
  | some v => .printf "Resultado: %d\n" [spell v]
  | none => say "Error: division por cero\n"

/-- The operands are not negative, or their signs do not matter. -/
def SignsLost (a b : Int) (op : Op) : Prop :=
  0 ≤ a ∧ 0 ≤ b ∨
    match op with
    | add => False
    | sub => a = b
    | mul => a = 0 ∨ b = 0
    | div => b = 0 ∨ 0 < b ∧ -b < a

end Op

def calcLine (a b : Int) (op : Op) : List UInt8 :=
  spaced [(calcCmd, 32), (spell a, 32), ([op.char], 32), (spell b, 10)]

theorem promptLine_append {rest : List UInt8} (hu : ∀ c ∈ u, ¬EndsLine c) (hlen : u.length < 127) :
    promptLine (u ++ 10 :: rest) = u ++ [10] ++ [0] ∧ promptRest (u ++ 10 :: rest) = rest := by
  have hanswer : answer (u ++ 10 :: rest) = u := by
    rw [answer, takeWhile_append_of_pos (by simpa using hu)]
    simp [EndsLine]
  rw [promptLine, promptRest, getsLoop_eq, hanswer, Nat.min_eq_right hlen]
  simp [take_append, drop_append]

theorem mem_spell_plain (hc : c ∈ spell v) : ¬Blank c ∧ c ≠ 0 := by
  rcases mem_spell hc with rfl | ⟨hlow, -⟩
  · decide
  · refine ⟨?_, ?_⟩
    · rintro (rfl | rfl | rfl | rfl) <;> exact absurd hlow (by decide)
    · rintro rfl
      exact absurd hlow (by decide)

theorem calcCmd_plain : ∀ c ∈ calcCmd, ¬Blank c ∧ c ≠ 0 := by
  change ∀ c ∈ [99, 97, 108, 99], ¬Blank c ∧ c ≠ 0
  simp only [forall_mem_cons, not_mem_nil, false_imp_iff, implies_true, and_true]
  decide

theorem turn_calc (env : Env) (ha : IsInt a) (hb : IsInt b) (op : Op) (rest : List UInt8) :
    (turn env (calcLine a b op ++ rest)).events =
      prompt :: runCalc [spell a, [op.char], spell b] := by
  have hwords : ∀ x ∈ [(calcCmd, 32), (spell a, 32), ([op.char], 32), (spell b, 10)], IsWord x := by
    have hop : ∀ c ∈ [op.char], ¬Blank c ∧ c ≠ 0 := by
      rw [forall_mem_singleton]
      cases op <;> decide
    have hspace : Blank 32 := .inl rfl
    simp only [mem_cons, not_mem_nil, or_false]
    rintro x (rfl | rfl | rfl | rfl)
    · exact ⟨by decide, calcCmd_plain, hspace⟩
    · exact ⟨spell_ne_nil a, fun c => mem_spell_plain, hspace⟩
    · exact ⟨by simp, hop, hspace⟩
    · exact ⟨spell_ne_nil b, fun c => mem_spell_plain, .inr (.inr (.inl rfl))⟩
  have hargv := argv_spaced hwords (by simp)
  have hline : promptLine (calcLine a b op ++ rest) = calcLine a b op ++ [0] ∧
      promptRest (calcLine a b op ++ rest) = rest := by
    have hla := length_spell_le ha
    have hlb := length_spell_le hb
    have hends : ∀ {c : UInt8}, EndsLine c → Blank c := fun h => .inr (.inr h)
    have hplain : ∀ c ∈ calcCmd ++ 32 :: (spell a ++ 32 :: op.char :: 32 :: spell b),
        ¬EndsLine c := by
      intro c hc hend
      simp only [mem_append, mem_cons] at hc
      rcases hc with hc | rfl | hc | rfl | rfl | rfl | hc
      · exact (calcCmd_plain c hc).1 (hends hend)
      · exact absurd hend (by decide)
      · exact (mem_spell_plain hc).1 (hends hend)
      · exact absurd hend (by decide)
      · exact absurd (hends hend) (by cases op <;> decide)
      · exact absurd hend (by decide)
      · exact (mem_spell_plain hc).1 (hends hend)
    have hlen : (calcCmd ++ 32 :: (spell a ++ 32 :: op.char :: 32 :: spell b)).length < 127 := by
      have hlc : calcCmd.length = 4 := rfl
      simp only [length_append, length_cons, hlc]
      omega
    have h := @promptLine_append _ rest hplain hlen
    simpa [calcLine, spaced] using h
  rw [turn_eq, hline.1, hline.2, calcLine, hargv]
  rfl

theorem resultado_eq {r : Int32} : resultado r = .printf "Resultado: %d\n" [spell v] ↔
    r.toInt = v := by
  rw [resultado, percentD_eq]
  constructor
  · intro h
    simp only [Event.printf.injEq, List.cons.injEq, and_true, true_and] at h
    exact spell_injective h
  · rintro rfl
    rfl

theorem toInt_ofInt (h : IsInt v) : (Int32.ofInt v).toInt = v :=
  Int32.toInt_ofInt_of_le h.1 h.2

theorem events_eq_iff {op : Op} {r : Int32} (hvalue : op.value a b = some v) :
    prompt :: [resultado r] = [prompt, op.expected a b] ↔ r.toInt = v := by
  rw [Op.expected, hvalue, ← resultado_eq]
  simp

/-- The calculator prints the exact value exactly if no sign of an operand matters. -/
theorem calc_exact_iff (env : Env) (a b : Int) (op : Op) (rest : List UInt8) (ha : IsInt a)
    (hb : IsInt b) (hv : ∀ v, op.value a b = some v → IsInt v) :
    (turn env (calcLine a b op ++ rest)).events = [prompt, op.expected a b] ↔
      op.SignsLost a b := by
  rw [turn_calc env ha hb, runCalc, atoi_spell, atoi_spell]
  cases op with
  | add =>
    have hsum := hv _ rfl
    have hr : IsInt (max a 0 + max b 0) := by
      unfold IsInt at *
      omega
    refine (events_eq_iff rfl).trans ?_
    rw [← Int32.ofInt_add, toInt_ofInt hr]
    simp only [Op.SignsLost, or_false]
    omega
  | sub =>
    have hdiff := hv _ rfl
    have hr : IsInt (max a 0 - max b 0) := by
      unfold IsInt at *
      omega
    refine (events_eq_iff rfl).trans ?_
    rw [← Int32.ofInt_sub, toInt_ofInt hr]
    simp only [Op.SignsLost]
    omega
  | mul =>
    have hprod := hv _ rfl
    refine (events_eq_iff rfl).trans ?_
    rw [← Int32.ofInt_mul, Op.SignsLost]
    by_cases hpos : 0 ≤ a ∧ 0 ≤ b
    · rw [max_eq_left hpos.1, max_eq_left hpos.2, toInt_ofInt hprod]
      simp [hpos]
    · -- one operand counts as zero
      have hzero : max a 0 * max b 0 = 0 := by
        rcases not_and_or.mp hpos with h | h
        · rw [max_eq_right (by omega), zero_mul]
        · rw [max_eq_right (by omega : b ≤ 0), mul_zero]
      rw [hzero, toInt_ofInt (by unfold IsInt; omega), eq_comm, mul_eq_zero]
      simp [hpos]
  | div =>
    by_cases hb0 : max b 0 = 0
    · have hrun : (if Int32.ofInt (max b 0) = 0 then [say "Error: division por cero\n"]
          else [resultado (.ofInt (max a 0) / .ofInt (max b 0))]) =
          [say "Error: division por cero\n"] := by
        rw [hb0]
        rfl
      refine (iff_of_eq (congrArg (prompt :: · = _) hrun)).trans ?_
      rw [Op.expected, Op.value, Op.SignsLost]
      by_cases hbz : b = 0
      · simp [hbz]
      · simp [hbz, say]
        omega
    · have hbi : IsInt (max b 0) := by
        unfold IsInt at *
        omega
      have hai : IsInt (max a 0) := by
        unfold IsInt at *
        omega
      have hbne : Int32.ofInt (max b 0) ≠ 0 := by
        intro h
        have hval := congrArg Int32.toInt h
        rw [toInt_ofInt hbi] at hval
        exact hb0 hval
      have hrun : (if Int32.ofInt (max b 0) = 0 then [say "Error: division por cero\n"]
          else [resultado (.ofInt (max a 0) / .ofInt (max b 0))]) =
          [resultado (.ofInt (max a 0) / .ofInt (max b 0))] := if_neg hbne
      refine (iff_of_eq (congrArg (prompt :: · = _) hrun)).trans ?_
      have hvalue : Op.div.value a b = some (a.tdiv b) := if_neg (by omega)
      have hbm : Int32.ofInt (max b 0) ≠ -1 := by
        intro h
        have hval := congrArg Int32.toInt h
        rw [toInt_ofInt hbi] at hval
        have : (-1 : Int32).toInt = -1 := by decide
        omega
      rw [events_eq_iff hvalue, Int32.toInt_div_of_ne_right _ _ hbm, toInt_ofInt hai,
        toInt_ofInt hbi, max_eq_left (by omega : 0 ≤ b)]
      simp only [Op.SignsLost]
      by_cases hneg : 0 ≤ a
      · rw [max_eq_left hneg]
        simp only [true_iff]
        omega
      · rw [max_eq_right (by omega), Int.zero_tdiv, eq_comm]
        have hdiv : a.tdiv b = -((-a) / b) := by
          rw [← Int.tdiv_eq_ediv_of_nonneg (by omega), Int.neg_tdiv, neg_neg]
        have hquot : (-a) / b = 0 ↔ -a < b := by
          refine ⟨fun hq => ?_, Int.ediv_eq_zero_of_lt (by omega)⟩
          by_contra hlow
          have := (Int.le_ediv_iff_mul_le (by omega : 0 < b)).mpr (by omega : 1 * b ≤ -a)
          omega
        rw [hdiv, neg_eq_zero, hquot]
        omega

/-- `calc 7 / 2`. -/
theorem calc_exact_seven :
    (turn willing (calcLine 7 2 .div)).events = [prompt, Op.div.expected 7 2] := by
  have h := calc_exact_iff willing 7 2 .div [] (by decide) (by decide) fun v hv => by
    obtain rfl : 3 = v := Option.some.inj hv
    decide
  rw [append_nil] at h
  exact h.mpr (.inl (by decide))

/-- `calc -5 + 3` prints 3. -/
theorem calc_loses_sign :
    (turn willing (calcLine (-5) 3 .add)).events = [prompt, .printf "Resultado: %d\n" [spell 3]] ∧
      Op.add.expected (-5) 3 = .printf "Resultado: %d\n" [spell (-2)] := by
  have h := turn_calc willing (by decide : IsInt (-5)) (by decide : IsInt 3) .add []
  rw [append_nil, runCalc, atoi_spell, atoi_spell] at h
  refine ⟨h.trans (congrArg (fun e => [prompt, e]) (resultado_eq.mpr ?_)), rfl⟩
  decide

end EafitOs.User.Eafitos
