import EafitOs.Directory.Lookup

/-!
# Path decomposition

`skipelem` on the bytes of a path: three loops over a NUL-terminated string, and a name that is
copied into a buffer of `DIRSIZ` bytes. Called until it returns null it gives the components of
the path.
-/

namespace EafitOs.Directory

open List

def cstr (path : List UInt8) : Path := path.takeWhile (· ≠ 0)

/-- The name buffer after `len` bytes of `s` are copied into it. -/
def copyName (s name : List UInt8) (len : Nat) : List UInt8 :=
  if dirsiz ≤ len then s.take dirsiz ++ name.drop dirsiz
  else s.take len ++ 0 :: name.drop (len + 1)

/-- `skipelem` on memory from `path` on and the contents of the name buffer. -/
def skipelemBytes (path name : List UInt8) : Option (List UInt8 × List UInt8) :=
  let s := path.dropWhile (· = slash)
  if s.headD 0 = 0 then none
  else
    let p := s.dropWhile fun c => c ≠ slash ∧ c ≠ 0
    some (copyName s name (s.length - p.length), p.dropWhile (· = slash))

/-- The names and remaining paths of calls until one returns null; `none` if there are more
than the fuel. -/
def skipAll : Nat → List UInt8 → List UInt8 → Option (List (List UInt8 × List UInt8))
  | 0, _, _ => none
  | fuel + 1, path, name =>
    match skipelemBytes path name with
    | none => some []
    | some e => (skipAll fuel e.2 e.1).map (e :: ·)

def components (t : Path) : List Path := (t.splitOnP (· = slash)).filter (· ≠ [])

def component (t : Path) : Path := (t.dropWhile (· = slash)).takeWhile (· ≠ slash)

def following (t : Path) : Path := (t.dropWhile (· = slash)).dropWhile (· ≠ slash)

def remaining (t : Path) : Path := (following t).dropWhile (· = slash)

variable {t u path name : List UInt8} {fuel : Nat}

theorem components_slash (t : Path) : components (slash :: t) = components t := by
  simp [components, splitOnP_cons_eq_if_modifyHead]

theorem components_dropWhile (t : Path) : components (t.dropWhile (· = slash)) = components t := by
  induction t with
  | nil => rfl
  | cons c t ih =>
    by_cases hc : c = slash
    · rw [dropWhile_cons_of_pos (by simpa using hc), ih, hc, components_slash]
    · rw [dropWhile_cons_of_neg (by simpa using hc)]

section

variable (h : t.dropWhile (· = slash) ≠ [])
include h

theorem dropWhile_head : ∃ c u, t.dropWhile (· = slash) = c :: u ∧ c ≠ slash := by
  obtain ⟨c, u, hcu⟩ := exists_cons_of_ne_nil h
  have hhead := List.head?_dropWhile_not (fun c => decide (c = slash)) t
  rw [hcu] at hhead
  exact ⟨c, u, hcu, by simpa using hhead⟩

theorem component_ne_nil : component t ≠ [] := by
  obtain ⟨c, u, hcu, hc⟩ := dropWhile_head h
  rw [component, hcu, takeWhile_cons_of_pos (by simpa using hc)]
  exact cons_ne_nil _ _

theorem components_eq : components t = component t :: components (remaining t) := by
  have hplain : ∀ c ∈ component t, decide (c = slash) = false := by
    intro c hc
    simpa using mem_takeWhile_imp hc
  have hsplit : t.dropWhile (· = slash) = component t ++ following t :=
    takeWhile_append_dropWhile.symm
  have hfirst : components t = components (component t ++ following t) := by
    rw [← hsplit, components_dropWhile]
  rw [hfirst, remaining, components_dropWhile, components]
  cases hf : following t with
  | nil =>
    rw [append_nil, splitOnP_eq_singleton hplain]
    simp [component_ne_nil h, components]
  | cons c u =>
    have hc : c = slash := by
      have hhead := List.head?_dropWhile_not (fun c => decide (c ≠ slash)) (t.dropWhile (· = slash))
      rw [show (t.dropWhile (· = slash)).dropWhile (fun c => decide (c ≠ slash)) = c :: u from hf]
        at hhead
      simpa using hhead
    rw [hc, splitOnP_append_cons_of_forall_mem hplain _ (by simp), components_slash,
      filter_cons, if_pos (by simpa using component_ne_nil h)]
    rfl

end

theorem components_nil (h : t.dropWhile (· = slash) = []) : components t = [] := by
  rw [← components_dropWhile, h]
  rfl

theorem remaining_eq_nil_iff : remaining t = [] ↔ components (remaining t) = [] := by
  constructor
  · intro h
    rw [h]
    rfl
  · intro h
    by_contra hne
    obtain ⟨c, u, hcu, hc⟩ := dropWhile_head hne
    rw [remaining, hcu, components_eq] at h
    · cases h
    · rw [dropWhile_cons_of_neg (by simpa using hc)]
      exact cons_ne_nil _ _

theorem cstr_append_rest (path : List UInt8) :
    path = cstr path ++ path.dropWhile (· ≠ 0) ∧ (0 : UInt8) ∉ cstr path ∧
      (path.dropWhile (· ≠ 0)).headD 0 = 0 := by
  refine ⟨takeWhile_append_dropWhile.symm, fun h => ?_, ?_⟩
  · simpa using mem_takeWhile_imp h
  · have hhead := List.head?_dropWhile_not (fun c => decide (c ≠ 0)) path
    cases hz : path.dropWhile fun c => decide (c ≠ 0) with
    | nil => rfl
    | cons c z =>
      rw [hz] at hhead
      simpa using hhead

theorem dropWhile_string {f : UInt8 → Bool} {z : List UInt8} (hf : f 0 = false)
    (hz : z.headD 0 = 0) (t : List UInt8) : (t ++ z).dropWhile f = t.dropWhile f ++ z := by
  induction t with
  | nil =>
    cases z with
    | nil => rfl
    | cons c z =>
      obtain rfl : c = 0 := hz
      rw [nil_append, dropWhile_cons_of_neg (by simp [hf])]
      rfl
  | cons c t ih =>
    by_cases hc : f c = true
    · rw [cons_append, dropWhile_cons_of_pos hc, dropWhile_cons_of_pos hc, ih]
    · rw [cons_append, dropWhile_cons_of_neg hc, dropWhile_cons_of_neg hc]
      rfl

theorem dropWhile_congr {f g : UInt8 → Bool} (h : ∀ c ∈ t, f c = g c) :
    t.dropWhile f = t.dropWhile g := by
  induction t with
  | nil => rfl
  | cons c t ih =>
    rw [dropWhile_cons, dropWhile_cons, h c mem_cons_self,
      ih fun d hd => h d (mem_cons_of_mem c hd)]

theorem cstr_append {z : List UInt8} (ht : 0 ∉ t) (hz : z.headD 0 = 0) : cstr (t ++ z) = t := by
  have hall : ∀ c ∈ t, decide (c ≠ 0) = true := by
    intro c hc
    simp only [ne_eq, decide_eq_true_eq]
    rintro rfl
    exact ht hc
  rw [cstr, takeWhile_append_of_pos hall]
  cases z with
  | nil => simp
  | cons c z =>
    obtain rfl : c = 0 := hz
    simp

def HoldsName (name comp : List UInt8) : Prop :=
  if dirsiz ≤ comp.length then comp.take dirsiz <+: name else comp ++ [0] <+: name

theorem skipelemBytes_eq (path name : List UInt8) :
    if (cstr path).dropWhile (· = slash) = [] then skipelemBytes path name = none
    else ∃ e, skipelemBytes path name = some e ∧ HoldsName e.1 (component (cstr path)) ∧
      cstr e.2 = remaining (cstr path) ∧ e.2.length < path.length := by
  obtain ⟨hpath, hzero, hz⟩ := cstr_append_rest path
  generalize path.dropWhile (· ≠ 0) = z at hpath hz
  generalize cstr path = t at *
  subst path
  have hs : (t ++ z).dropWhile (· = slash) = t.dropWhile (· = slash) ++ z :=
    dropWhile_string (by decide) hz t
  by_cases hnil : t.dropWhile (· = slash) = []
  · rw [if_pos hnil, skipelemBytes, hs, hnil, nil_append, if_pos hz]
  · rw [if_neg hnil]
    obtain ⟨c, u, hcu, hc⟩ := dropWhile_head hnil
    have hne : (t.dropWhile (· = slash) ++ z).headD 0 ≠ 0 := by
      rw [hcu]
      rintro rfl
      exact hzero ((dropWhile_sublist _).subset (hcu ▸ mem_cons_self))
    have hin : ∀ c ∈ t.dropWhile (· = slash), c ≠ 0 := by
      rintro c hc rfl
      exact hzero ((dropWhile_sublist _).subset hc)
    have hsplit : t.dropWhile (· = slash) = component t ++ following t :=
      takeWhile_append_dropWhile.symm
    have hp : (t.dropWhile (· = slash) ++ z).dropWhile (fun c => c ≠ slash ∧ c ≠ 0) =
        following t ++ z := by
      rw [dropWhile_string (by decide) hz, following]
      exact congrArg (· ++ z) (dropWhile_congr fun c hc => by simp [hin c hc])
    have hlen : (t.dropWhile (· = slash) ++ z).length - (following t ++ z).length =
        (component t).length := by
      rw [hsplit]
      simp only [length_append]
      omega
    have hrest : (following t ++ z).dropWhile (· = slash) = remaining t ++ z :=
      dropWhile_string (by decide) hz _
    have hcall : skipelemBytes (t ++ z) name = some (copyName (component t ++ (following t ++ z))
        name (component t).length, remaining t ++ z) := by
      rw [skipelemBytes, hs, if_neg hne]
      simp only [hp, hlen, hrest]
      rw [hsplit, append_assoc]
    refine ⟨_, hcall, ?_, ?_, ?_⟩
    · simp only [HoldsName, copyName]
      split
      · rename_i hle
        rw [take_append_of_le_length hle]
        exact prefix_append _ _
      · rw [take_left]
        exact ⟨_, by rw [append_assoc]; rfl⟩
    · refine cstr_append (fun h => hin 0 ?_ rfl) hz
      rw [hsplit]
      exact mem_append_right _ ((dropWhile_sublist _).subset h)
    · have hpos := length_pos_iff.mpr (component_ne_nil hnil)
      have hle : (remaining t).length ≤ (following t).length := length_dropWhile_le _ _
      have hle' : (t.dropWhile (· = slash)).length ≤ t.length := length_dropWhile_le _ _
      rw [hsplit, length_append] at hle'
      simp only [length_append]
      omega

/-- What a call gives for a component: the name, and a remaining path that is empty if only
slashes follow the component. -/
structure Element (t : Path) (e : List UInt8 × List UInt8) (comp : Path) : Prop where
  holds : HoldsName e.1 comp
  ends : ∃ before after, t = before ++ comp ++ after ∧
    (cstr e.2 = [] ↔ ∀ c ∈ after, c = slash)

theorem Element.append {e : List UInt8 × List UInt8} {comp : Path} (h : Element t e comp)
    (pre : Path) : Element (pre ++ t) e comp := by
  obtain ⟨before, after, rfl, hends⟩ := h.ends
  exact ⟨h.holds, pre ++ before, after, by simp only [append_assoc], hends⟩

theorem split_remaining (t : Path) : t = t.takeWhile (· = slash) ++ component t ++ following t ∧
    t = (t.takeWhile (· = slash) ++ component t ++ (following t).takeWhile (· = slash)) ++
      remaining t := by
  have hsplit : t = t.takeWhile (· = slash) ++ component t ++ following t := by
    rw [append_assoc, component, following, takeWhile_append_dropWhile,
      takeWhile_append_dropWhile]
  refine ⟨hsplit, ?_⟩
  rw [append_assoc _ _ (remaining t), remaining, takeWhile_append_dropWhile]
  exact hsplit

theorem skipAll_components (hfuel : path.length < fuel) :
    ∃ es, skipAll fuel path name = some es ∧
      List.Forall₂ (Element (cstr path)) es (components (cstr path)) ∧
      ∀ k e, es[k]? = some e → (cstr e.2 = [] ↔ k + 1 = es.length) := by
  induction fuel generalizing path name with
  | zero => exact absurd hfuel (Nat.not_lt_zero _)
  | succ fuel ih =>
    have hcall := skipelemBytes_eq path name
    split at hcall
    · rename_i hnil
      refine ⟨[], by rw [skipAll, hcall], ?_, by simp⟩
      rw [components_nil hnil]
      exact .nil
    · rename_i hnil
      obtain ⟨e, hcall, hholds, hrest, hlen⟩ := hcall
      obtain ⟨es, hes, hall, hlast⟩ := @ih e.2 e.1 (by omega)
      obtain ⟨hfirst, hsplit⟩ := split_remaining (cstr path)
      rw [hrest] at hall
      refine ⟨e :: es, by rw [skipAll, hcall]; exact congrArg (Option.map _) hes, ?_, ?_⟩
      · rw [components_eq hnil]
        refine .cons ⟨hholds, _, _, hfirst, ?_⟩ (hall.imp fun e' comp h => ?_)
        · rw [hrest, remaining, dropWhile_eq_nil_iff]
          simp
        · rw [hsplit]
          exact h.append _
      · intro k e' he'
        cases k with
        | zero =>
          obtain rfl : e = e' := Option.some.inj he'
          rw [hrest, remaining_eq_nil_iff, ← length_eq_zero_iff, ← hall.length_eq,
            length_cons]
          omega
        | succ k =>
          rw [hlast k e' he', length_cons]
          omega

theorem elements_eq_components (hfuel : t.length < fuel) :
    elements fuel t = (components t).map (·.take dirsiz) := by
  induction fuel generalizing t with
  | zero => exact absurd hfuel (Nat.not_lt_zero _)
  | succ fuel ih =>
    rw [elements]
    by_cases hnil : t.dropWhile (· = slash) = []
    · have hskip : skipelem t = none := by rw [skipelem, hnil]
      rw [hskip, components_nil hnil]
      rfl
    · have hskip : skipelem t = some ((component t).take dirsiz, remaining t) := by
        obtain ⟨c, u, hcu, -⟩ := dropWhile_head hnil
        rw [component, remaining, following, skipelem, hcu]
      have hlen := skipelem_length hskip
      rw [hskip, components_eq hnil, map_cons, ← ih (by omega)]

/-- Calling `skipelem` until it returns null ends, and gives every component of the path in
order. The remaining path is empty with the last one only. -/
theorem skipelem_components (path name : List UInt8) :
    ∃ es, skipAll (path.length + 1) path name = some es ∧
      List.Forall₂ (Element (cstr path)) es (components (cstr path)) ∧
      (∀ k e, es[k]? = some e → (cstr e.2 = [] ↔ k + 1 = es.length)) ∧
      Path.elements (cstr path) = (components (cstr path)).map (·.take dirsiz) := by
  obtain ⟨es, hes, hall, hlast⟩ := @skipAll_components path name _ (Nat.lt_succ_self _)
  exact ⟨es, hes, hall, hlast, elements_eq_components (Nat.lt_succ_self _)⟩

end EafitOs.Directory
