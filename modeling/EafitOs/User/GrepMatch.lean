import EafitOs.User.CString

/-!
# The pattern matcher of `grep`

`match`, `matchhere` and `matchstar` of `grep.c` call each other on pointers into the pattern and
the text. A pattern is a list of items: a character, a starred character, or the end of the text.
-/

namespace EafitOs.User.Grep

open List

mutual

/-- Whether the pattern matches at the beginning of the text; `none` if the steps run out. -/
def matchhere : Nat → List UInt8 → List UInt8 → Option Bool
  | 0, _, _ => none
  | fuel + 1, re, t =>
    if charAt re 0 = 0 then some true
    else if charAt re 1 = 42 then matchstar fuel (charAt re 0) (re.drop 2) t
    else if charAt re 0 = 36 ∧ charAt re 1 = 0 then some (charAt t 0 = 0)
    else if charAt t 0 ≠ 0 ∧ (charAt re 0 = 46 ∨ charAt re 0 = charAt t 0) then
      matchhere fuel (re.drop 1) (t.drop 1)
    else some false

def matchstar : Nat → UInt8 → List UInt8 → List UInt8 → Option Bool
  | 0, _, _, _ => none
  | fuel + 1, c, re, t =>
    (matchhere fuel re t).bind fun found =>
      if found then some true
      else if charAt t 0 ≠ 0 ∧ (charAt t 0 = c ∨ c = 46) then matchstar fuel c re (t.drop 1)
      else some false

end

def matchLoop : Nat → List UInt8 → List UInt8 → Option Bool
  | 0, _, _ => none
  | fuel + 1, re, t =>
    (matchhere fuel re t).bind fun found =>
      if found then some true
      else if charAt t 0 ≠ 0 then matchLoop fuel re (t.drop 1)
      else some false

def matchText (fuel : Nat) (re t : List UInt8) : Option Bool :=
  if charAt re 0 = 94 then matchhere fuel (re.drop 1) t else matchLoop fuel re t

inductive Item where
  | char (c : UInt8)
  | star (c : UInt8)
  | eol

/-- A pattern without its anchor. A star belongs to the character before it, and a dollar sign
is the end of the text in the last place only. -/
def items : List UInt8 → List Item
  | [] => []
  | [c] => if c = 36 then [.eol] else [.char c]
  | c :: d :: re => if d = 42 then .star c :: items re else .char c :: items (d :: re)

def Covers (c a : UInt8) : Prop := c = 46 ∨ c = a

/-- The items match the first list where the second one follows it. -/
inductive Matches : List Item → List UInt8 → List UInt8 → Prop
  | nil {post : List UInt8} : Matches [] [] post
  | char {c a : UInt8} {is : List Item} {w post : List UInt8} (hc : Covers c a)
      (h : Matches is w post) : Matches (.char c :: is) (a :: w) post
  | star {c : UInt8} {is : List Item} {v w post : List UInt8} (hv : ∀ a ∈ v, Covers c a)
      (h : Matches is w post) : Matches (.star c :: is) (v ++ w) post
  | eol {is : List Item} (h : Matches is [] []) : Matches (.eol :: is) [] []

def anchored (re : List UInt8) : Prop := re.head? = some 94

instance (re : List UInt8) : Decidable (anchored re) := inferInstanceAs (Decidable (_ = _))

def body (re : List UInt8) : List UInt8 := if anchored re then re.tail else re

/-- Some substring is matched, at the start of the text if the pattern is anchored. -/
def MatchesSome (re txt : List UInt8) : Prop :=
  ∃ pre w post, txt = pre ++ (w ++ post) ∧ (anchored re → pre = []) ∧
    Matches (items (body re)) w post

variable {c a : UInt8} {is : List Item} {cs re t : List UInt8} {fuel : Nat}

def Here (is : List Item) (cs : List UInt8) : Prop := ∃ w post, cs = w ++ post ∧ Matches is w post

theorem here_nil (cs : List UInt8) : Here [] cs := ⟨[], cs, rfl, .nil⟩

theorem here_eol : Here [.eol] cs ↔ cs = [] := by
  constructor
  · rintro ⟨w, post, rfl, h⟩
    cases h
    rfl
  · rintro rfl
    exact ⟨[], [], rfl, .eol .nil⟩

theorem here_char_nil : ¬Here (.char c :: is) [] := by
  rintro ⟨w, post, heq, h⟩
  cases h
  cases heq

theorem here_char_cons : Here (.char c :: is) (a :: cs) ↔ Covers c a ∧ Here is cs := by
  constructor
  · rintro ⟨w, post, heq, h⟩
    cases h with
    | char hc h =>
      obtain ⟨rfl, rfl⟩ := List.cons.inj heq
      exact ⟨hc, _, post, rfl, h⟩
  · rintro ⟨hc, w, post, rfl, h⟩
    exact ⟨a :: w, post, rfl, .char hc h⟩

theorem here_star_of_here (h : Here is cs) : Here (.star c :: is) cs := by
  obtain ⟨w, post, rfl, h⟩ := h
  exact ⟨w, post, rfl, .star (v := []) nofun h⟩

theorem here_star_cons : Here (.star c :: is) (a :: cs) ↔
    Here is (a :: cs) ∨ Covers c a ∧ Here (.star c :: is) cs := by
  constructor
  · rintro ⟨w, post, heq, h⟩
    cases h with
    | @star _ _ v w _ hv h =>
      cases v with
      | nil => exact Or.inl ⟨w, post, heq, h⟩
      | cons b v =>
        obtain ⟨rfl, rfl⟩ := List.cons.inj heq
        exact Or.inr ⟨hv a mem_cons_self, v ++ w, post, rfl,
          .star (fun x hx => hv x (mem_cons_of_mem a hx)) h⟩
  · rintro (h | ⟨hc, w, post, rfl, h⟩)
    · exact here_star_of_here h
    · cases h with
      | @star _ _ v w _ hv h =>
        refine ⟨a :: v ++ w, post, rfl, .star (fun x hx => ?_) h⟩
        rcases mem_cons.mp hx with rfl | hx
        · exact hc
        · exact hv x hx

theorem here_star_nil : Here (.star c :: is) [] ↔ Here is [] := by
  constructor
  · rintro ⟨w, post, heq, h⟩
    cases h with
    | @star _ _ v w _ hv h =>
      obtain ⟨hw, rfl⟩ := append_eq_nil_iff.mp heq.symm
      obtain ⟨-, rfl⟩ := append_eq_nil_iff.mp hw
      exact ⟨[], [], rfl, h⟩
  · exact here_star_of_here

theorem text_of_zero (h : charAt t 0 = 0) : text t = [] := by
  have hlen : strlen t = 0 := strlen_eq nofun h
  rw [text, hlen, take_zero]

theorem text_of_ne (h : charAt t 0 ≠ 0) : text t = charAt t 0 :: text (t.drop 1) := by
  cases t with
  | nil => exact absurd rfl h
  | cons c cs =>
    have hc : c ≠ 0 := h
    rw [text, strlen, if_neg hc]
    rfl

theorem text_drop_one (h : charAt t 1 ≠ 0) :
    text (t.drop 1) = charAt t 1 :: text (t.drop 2) := by
  have hdrop : charAt (t.drop 1) 0 = charAt t 1 := charAt_drop t 1 0
  rw [text_of_ne (hdrop.symm ▸ h), hdrop, drop_drop]

theorem items_star (h0 : charAt re 0 ≠ 0) (h1 : charAt re 1 = 42) :
    items (text re) = .star (charAt re 0) :: items (text (re.drop 2)) := by
  rw [text_of_ne h0, text_drop_one (by rw [h1]; decide), items, if_pos h1]

theorem items_eol (h0 : charAt re 0 = 36) (h1 : charAt re 1 = 0) : items (text re) = [.eol] := by
  have hdrop : charAt (re.drop 1) 0 = 0 := (charAt_drop re 1 0).trans h1
  rw [text_of_ne (by rw [h0]; decide), text_of_zero hdrop, items, if_pos h0]

theorem items_char (h0 : charAt re 0 ≠ 0) (h1 : charAt re 1 ≠ 42)
    (heol : ¬(charAt re 0 = 36 ∧ charAt re 1 = 0)) :
    items (text re) = .char (charAt re 0) :: items (text (re.drop 1)) := by
  rw [text_of_ne h0]
  by_cases hlast : charAt re 1 = 0
  · have hdrop : charAt (re.drop 1) 0 = 0 := (charAt_drop re 1 0).trans hlast
    rw [text_of_zero hdrop]
    exact if_neg fun h => heol ⟨h, hlast⟩
  · rw [text_drop_one hlast, items, if_neg h1]

theorem strlen_drop_one (h : charAt t 0 ≠ 0) : strlen t = strlen (t.drop 1) + 1 := by
  rw [← length_text, text_of_ne h, length_cons, length_text]

theorem strlen_drop_two (h0 : charAt t 0 ≠ 0) (h1 : charAt t 1 ≠ 0) :
    strlen t = strlen (t.drop 2) + 2 := by
  rw [← length_text, text_of_ne h0, text_drop_one h1, length_cons, length_cons,
    length_text]

def Decides (x : Option Bool) (P : Prop) : Prop := ∃ b, x = some b ∧ (b = true ↔ P)

theorem Decides.congr {x : Option Bool} {P Q : Prop} (h : Decides x P) (hPQ : P ↔ Q) :
    Decides x Q := by
  obtain ⟨b, hb, hP⟩ := h
  exact ⟨b, hb, hP.trans hPQ⟩

theorem decides_true {P : Prop} (h : P) : Decides (some true) P := ⟨true, rfl, iff_of_true rfl h⟩

theorem decides_false {P : Prop} (h : ¬P) : Decides (some false) P :=
  ⟨false, rfl, iff_of_false Bool.false_ne_true h⟩

theorem Decides.orElse {x y : Option Bool} {P Q : Prop} (hx : Decides x P) (hy : ¬P → Decides y Q) :
    Decides (x.bind fun found => if found then some true else y) (P ∨ Q) := by
  obtain ⟨b, rfl, hP⟩ := hx
  cases b with
  | true => exact decides_true (Or.inl (hP.mp rfl))
  | false =>
    have hnot : ¬P := fun h => Bool.false_ne_true (hP.mpr h)
    exact (hy hnot).congr (or_iff_right hnot).symm

theorem covers_iff : c = 46 ∨ c = a ↔ a = c ∨ c = 46 := by
  rw [or_comm, eq_comm]

structure Suffices (fuel : Nat) : Prop where
  here : ∀ re t, strlen re + strlen t + 1 ≤ fuel →
    Decides (matchhere fuel re t) (Here (items (text re)) (text t))
  star : ∀ c re t, strlen re + strlen t + 2 ≤ fuel →
    Decides (matchstar fuel c re t) (Here (.star c :: items (text re)) (text t))

theorem matchhere_succ (h : Suffices fuel) (hfuel : strlen re + strlen t ≤ fuel) :
    Decides (matchhere (fuel + 1) re t) (Here (items (text re)) (text t)) := by
  rw [matchhere]
  by_cases h0 : charAt re 0 = 0
  · rw [if_pos h0, text_of_zero h0]
    exact decides_true (here_nil _)
  rw [if_neg h0]
  by_cases h1 : charAt re 1 = 42
  · have hlen := strlen_drop_two h0 (by rw [h1]; decide)
    rw [if_pos h1, items_star h0 h1]
    exact h.star _ _ _ (by omega)
  rw [if_neg h1]
  by_cases heol : charAt re 0 = 36 ∧ charAt re 1 = 0
  · rw [if_pos heol, items_eol heol.1 heol.2]
    refine ⟨_, rfl, ?_⟩
    rw [decide_eq_true_iff, here_eol]
    by_cases ht : charAt t 0 = 0
    · exact iff_of_true ht (text_of_zero ht)
    · exact iff_of_false ht (by rw [text_of_ne ht]; exact cons_ne_nil _ _)
  rw [if_neg heol, items_char h0 h1 heol]
  have hlen := strlen_drop_one h0
  by_cases ht : charAt t 0 = 0
  · rw [if_neg fun h => h.1 ht, text_of_zero ht]
    exact decides_false here_char_nil
  · have hlen' := strlen_drop_one ht
    rw [text_of_ne ht]
    by_cases hc : charAt re 0 = 46 ∨ charAt re 0 = charAt t 0
    · rw [if_pos ⟨ht, hc⟩]
      refine (h.here _ _ (by omega)).congr ?_
      rw [here_char_cons]
      exact (and_iff_right hc).symm
    · rw [if_neg fun h => hc h.2]
      exact decides_false fun h => hc (here_char_cons.mp h).1

theorem matchstar_succ (h : Suffices fuel) (hfuel : strlen re + strlen t + 1 ≤ fuel) :
    Decides (matchstar (fuel + 1) c re t) (Here (.star c :: items (text re)) (text t)) := by
  have hhere := h.here re t hfuel
  rw [matchstar]
  by_cases ht : charAt t 0 = 0
  · refine (hhere.orElse (Q := False) fun _ => ?_).congr ?_
    · rw [if_neg fun h => h.1 ht]
      exact decides_false id
    · rw [or_false, text_of_zero ht, here_star_nil]
  · have hlen := strlen_drop_one ht
    refine (hhere.orElse fun _ => ?_).congr (text_of_ne ht ▸ here_star_cons.symm)
    by_cases hc : charAt t 0 = c ∨ c = 46
    · rw [if_pos ⟨ht, hc⟩]
      exact (h.star _ _ _ (by omega)).congr (and_iff_right (covers_iff.mpr hc)).symm
    · rw [if_neg fun h => hc h.2]
      exact decides_false fun h => hc (covers_iff.mp h.1)

theorem matchhere_matchstar (fuel : Nat) : Suffices fuel := by
  induction fuel with
  | zero => exact ⟨fun re t h => by omega, fun c re t h => by omega⟩
  | succ fuel ih =>
    exact ⟨fun re t h => matchhere_succ ih (by omega), fun c re t h => matchstar_succ ih (by omega)⟩

def Found (is : List Item) (cs : List UInt8) : Prop := ∃ pre ds, cs = pre ++ ds ∧ Here is ds

theorem found_nil : Found is [] ↔ Here is [] := by
  constructor
  · rintro ⟨pre, ds, heq, h⟩
    obtain ⟨-, rfl⟩ := append_eq_nil_iff.mp heq.symm
    exact h
  · exact fun h => ⟨[], [], rfl, h⟩

theorem found_cons : Found is (a :: cs) ↔ Here is (a :: cs) ∨ Found is cs := by
  constructor
  · rintro ⟨pre, ds, heq, h⟩
    cases pre with
    | nil => exact Or.inl (heq ▸ h)
    | cons b pre => exact Or.inr ⟨pre, ds, (List.cons.inj heq).2, h⟩
  · rintro (h | ⟨pre, ds, rfl, h⟩)
    · exact ⟨[], _, rfl, h⟩
    · exact ⟨a :: pre, ds, rfl, h⟩

theorem matchLoop_decides (hfuel : strlen re + strlen t + 2 ≤ fuel) :
    Decides (matchLoop fuel re t) (Found (items (text re)) (text t)) := by
  induction fuel generalizing t with
  | zero => omega
  | succ fuel ih =>
    rw [matchLoop]
    have hhere := (matchhere_matchstar fuel).here re t (by omega)
    by_cases ht : charAt t 0 = 0
    · refine (hhere.orElse (Q := False) fun _ => ?_).congr ?_
      · rw [if_neg (not_not.mpr ht)]
        exact decides_false id
      · rw [or_false, text_of_zero ht, found_nil]
    · have hlen := strlen_drop_one ht
      refine (hhere.orElse fun _ => ?_).congr (text_of_ne ht ▸ found_cons.symm)
      rw [if_pos ht]
      exact ih (by omega)

theorem anchored_iff : anchored (text re) ↔ charAt re 0 = 94 := by
  by_cases h0 : charAt re 0 = 0
  · rw [anchored, text_of_zero h0, h0]
    exact iff_of_false nofun (by decide)
  · rw [anchored, text_of_ne h0, List.head?_cons, Option.some_inj]

theorem matchText_decides (re t : List UInt8) (extra : Nat) :
    Decides (matchText (strlen re + strlen t + 2 + extra) re t)
      (MatchesSome (text re) (text t)) := by
  rw [matchText]
  by_cases h : charAt re 0 = 94
  · have hanchor : anchored (text re) := anchored_iff.mpr h
    have hzero : charAt re 0 ≠ 0 := by
      rw [h]
      decide
    have hbody : body (text re) = text (re.drop 1) := by
      rw [body, if_pos hanchor, text_of_ne hzero, tail_cons]
    have hlen := strlen_drop_one hzero
    rw [if_pos h]
    refine ((matchhere_matchstar _).here (re.drop 1) t (by omega)).congr ?_
    rw [MatchesSome, hbody]
    constructor
    · rintro ⟨w, post, heq, hmatch⟩
      exact ⟨[], w, post, heq, fun _ => rfl, hmatch⟩
    · rintro ⟨pre, w, post, heq, hpre, hmatch⟩
      rw [hpre hanchor] at heq
      exact ⟨w, post, heq, hmatch⟩
  · have hanchor : ¬anchored (text re) := fun ha => h (anchored_iff.mp ha)
    rw [if_neg h]
    refine (matchLoop_decides (Nat.le_add_right _ _)).congr ?_
    rw [MatchesSome, body, if_neg hanchor]
    constructor
    · rintro ⟨pre, ds, heq, w, post, rfl, hmatch⟩
      exact ⟨pre, w, post, heq, fun ha => absurd ha hanchor, hmatch⟩
    · rintro ⟨pre, w, post, heq, -, hmatch⟩
      exact ⟨pre, w ++ post, heq, w, post, rfl, hmatch⟩

/-- For every pattern and text `match` ends, and it returns 1 exactly if the pattern matches
some substring. `matchhere` and `matchstar` end. -/
theorem matchText_iff (re t : List UInt8) (extra : Nat) :
    (∃ b, matchText (strlen re + strlen t + 2 + extra) re t = some b ∧
      (b = true ↔ MatchesSome (text re) (text t))) ∧
    (∃ b, matchhere (strlen re + strlen t + 2 + extra) re t = some b) ∧
    ∀ c, ∃ b, matchstar (strlen re + strlen t + 2 + extra) c re t = some b := by
  refine ⟨matchText_decides re t extra, ?_, fun c => ?_⟩
  · obtain ⟨b, hb, -⟩ := (matchhere_matchstar (strlen re + strlen t + 2 + extra)).here re t
      (by omega)
    exact ⟨b, hb⟩
  · obtain ⟨b, hb, -⟩ := (matchhere_matchstar (strlen re + strlen t + 2 + extra)).star c re t
      (by omega)
    exact ⟨b, hb⟩

end EafitOs.User.Grep
