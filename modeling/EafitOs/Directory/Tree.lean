import EafitOs.Directory.Calls
import EafitOs.Foundation.Tally

/-!
# The directory tree

What holds of the inodes between system calls: every directory starts with its own entries, a
directory has one name and that name is in its parent, and link counts are the numbers of entries.
-/

namespace EafitOs.Directory

open Foundation Function List

def Inode.Live (n : Inode) : Prop :=
  n.type = .dir ∧ 0 < n.nlink

instance (n : Inode) : Decidable n.Live :=
  inferInstanceAs (Decidable (_ ∧ _))

/-- The entries with the property, of a directory that has not been removed. -/
def Inode.matching (p : Dirent → Bool) (n : Inode) : Nat :=
  if n.Live then n.entries.countP p else 0

/-- The entry refers to the inode under a name other than `.`. -/
def refersTo (i : Nat) (e : Dirent) : Bool :=
  e.inum = i ∧ e.name ≠ dot

def isNameOf (i : Nat) (e : Dirent) : Bool :=
  e.inum = i ∧ e.name ≠ dot ∧ e.name ≠ dotdot

/-- The entries with a name other than `.` that refer to the inode from directories with a
positive link count. -/
def linksTo (T : Nat → Inode) (i : Nat) : Nat :=
  tally (Finset.range ninodes) (Inode.matching (refersTo i)) T

/-- The names given to the inode in directories with a positive link count. -/
def namesOf (T : Nat → Inode) (i : Nat) : Nat :=
  tally (Finset.range ninodes) (Inode.matching (isNameOf i)) T

def Inode.parent (n : Inode) : Nat :=
  (n.entries[1]?.map Dirent.inum).getD 0

def Points (T : Nat → Inode) (e : Dirent) : Prop :=
  (T e.inum).type ≠ .free ∧ (T e.inum).gen = e.gen

/-- A directory starts with `.` and `..`; only a directory that is not removed holds
further entries, under other names. -/
structure DirShape (d : Nat) (n : Inode) (par : Dirent) (rest : List Dirent) : Prop where
  entries : n.entries = ⟨d, dot, n.gen⟩ :: par :: rest
  parName : par.name = dotdot
  parInum : par.inum ≠ 0
  names : ∀ e ∈ rest, e.inum ≠ 0 → 0 < n.nlink ∧ e.name ≠ dot ∧ e.name ≠ dotdot

/-- The largest link count a `short` holds. -/
def maxLinks : Int := 32767

structure Tree (strict : Prop) (T : Nat → Inode) : Prop where
  root : (T rootino).Live
  rootParent : (T rootino).parent = rootino
  range : ∀ i, (T i).type ≠ .free → 0 < i ∧ i < ninodes
  shape : ∀ d, (T d).type = .dir → ∃ par rest, DirShape d (T d) par rest
  points : ∀ d, (T d).type = .dir → strict ∨ (T d).Live → ∀ e ∈ (T d).entries, e.inum ≠ 0 →
    Points T e
  child : ∀ d, (T d).Live → ∀ e ∈ (T d).entries, isNameOf e.inum e →
    (T e.inum).type = .dir → (T e.inum).parent = d
  orphan : strict → ∀ d, (T d).type = .dir → ¬ (T d).Live → (T (T d).parent).Live
  named : ∀ d, (T d).Live → namesOf T d = if d = rootino then 0 else 1
  law : ∀ i, (T i).type ≠ .free → (T i).nlink = linksTo T i
  small : ∀ i, (T i).type ≠ .free → (T i).nlink ≤ maxLinks

section Counting

variable {n : Inode} {p : Dirent → Bool} {i : Nat} {e : Dirent}

theorem not_live_of_type (h : n.type ≠ .dir) : ¬ n.Live :=
  fun hlive => h hlive.1

theorem matching_of_live (h : n.Live) : n.matching p = n.entries.countP p :=
  if_pos h

theorem matching_of_not_live (h : ¬ n.Live) : n.matching p = 0 :=
  if_neg h

theorem matching_pos : 0 < n.matching p ↔ n.Live ∧ ∃ e ∈ n.entries, p e = true := by
  by_cases h : n.Live
  · rw [matching_of_live h, countP_pos_iff]
    exact ⟨fun hp => ⟨h, hp⟩, fun hp => hp.2⟩
  · rw [matching_of_not_live h]
    exact ⟨fun hp => absurd hp (by decide), fun hp => absurd hp.1 h⟩

theorem refersTo_iff : refersTo i e = true ↔ e.inum = i ∧ e.name ≠ dot :=
  decide_eq_true_iff

theorem isNameOf_iff :
    isNameOf i e = true ↔ e.inum = i ∧ e.name ≠ dot ∧ e.name ≠ dotdot :=
  decide_eq_true_iff

theorem refersTo_unused (hi : i ≠ 0) (he : e.inum = 0) : refersTo i e = false :=
  decide_eq_false fun h => hi (h.1.symm.trans he)

theorem isNameOf_unused (hi : i ≠ 0) (he : e.inum = 0) : isNameOf i e = false :=
  decide_eq_false fun h => hi (h.1.symm.trans he)

end Counting

def putEntry : List Dirent → Dirent → List Dirent
  | [], e => [e]
  | u :: es, e => if u.inum = 0 then e :: es else u :: putEntry es e

theorem countP_putEntry {p : Dirent → Bool} (hp : ∀ u, u.inum = 0 → p u = false)
    (es : List Dirent) (e : Dirent) :
    (putEntry es e).countP p = es.countP p + if p e then 1 else 0 := by
  induction es with
  | nil => simp [putEntry, countP_cons]
  | cons u es ih =>
    by_cases hu : u.inum = 0
    · simp [putEntry, hu, countP_cons, hp u hu]
    · simp only [putEntry, hu, if_false, countP_cons, ih]
      omega

theorem mem_putEntry {es : List Dirent} {e x : Dirent} (h : x ∈ putEntry es e) :
    x = e ∨ x ∈ es := by
  induction es with
  | nil => exact .inl (mem_singleton.mp h)
  | cons u es ih =>
    by_cases hu : u.inum = 0
    · simp only [putEntry, hu, if_true, mem_cons] at h
      exact h.imp_right (mem_cons_of_mem u)
    · simp only [putEntry, hu, if_false, mem_cons] at h
      obtain h | h := h
      · exact .inr (h ▸ mem_cons_self)
      · exact (ih h).imp_right (mem_cons_of_mem u)

theorem putEntry_eq_set {es : List Dirent} {e : Dirent}
    (h : es.findIdx (fun u => u.inum == 0) < es.length) :
    putEntry es e = es.set (es.findIdx fun u => u.inum == 0) e := by
  induction es with
  | nil => exact absurd h (Nat.not_lt_zero _)
  | cons u es ih =>
    by_cases hu : u.inum = 0
    · simp [putEntry, hu, findIdx_cons]
    · have hne : (u.inum == 0) = false := beq_false_of_ne hu
      simp only [findIdx_cons, hne, cond_false, length_cons] at h
      simp only [putEntry, hu, if_false, findIdx_cons, hne, cond_false, set_cons_succ]
      rw [ih (by omega)]

theorem putEntry_eq_append {es : List Dirent} {e : Dirent}
    (h : ¬ es.findIdx (fun u => u.inum == 0) < es.length) : putEntry es e = es ++ [e] := by
  induction es with
  | nil => rfl
  | cons u es ih =>
    by_cases hu : u.inum = 0
    · simp [hu, findIdx_cons] at h
    · have hne : (u.inum == 0) = false := beq_false_of_ne hu
      simp only [findIdx_cons, hne, cond_false, length_cons] at h
      simp only [putEntry, hu, if_false, cons_append]
      rw [ih (by omega)]

theorem DirShape.put {d : Nat} {n : Inode} {par e : Dirent} {rest : List Dirent} {m : Int}
    (h : DirShape d n par rest) (hd : d ≠ 0) (hm : 0 < m) (he : e.name ≠ dot ∧ e.name ≠ dotdot) :
    DirShape d { n with entries := putEntry n.entries e, nlink := m } par (putEntry rest e) where
  entries := by simp [h.entries, putEntry, hd, h.parInum]
  parName := h.parName
  parInum := h.parInum
  names := by
    intro x hx hx0
    refine ⟨hm, ?_⟩
    obtain rfl | hx := mem_putEntry hx
    · exact he
    · exact (h.names x hx hx0).2

theorem DirShape.parent {d : Nat} {n : Inode} {par : Dirent} {rest : List Dirent}
    (h : DirShape d n par rest) : n.parent = par.inum := by
  simp [Inode.parent, h.entries]

theorem DirShape.cases {d : Nat} {n : Inode} {par e : Dirent} {rest : List Dirent}
    (h : DirShape d n par rest) (he : e ∈ n.entries) :
    e.inum = d ∧ e.name = dot ∨ e = par ∨ e ∈ rest := by
  rw [h.entries, mem_cons, mem_cons] at he
  obtain rfl | rfl | he := he
  · exact .inl ⟨rfl, rfl⟩
  · exact .inr (.inl rfl)
  · exact .inr (.inr he)

namespace Tree

variable {strict : Prop} {T : Nat → Inode} {d i : Nat} {e : Dirent}

section

variable (h : Tree strict T)
include h

theorem live_range (hd : (T d).Live) : 0 < d ∧ d < ninodes :=
  h.range d (by rw [hd.1]; decide)

theorem linksTo_pos (hd : (T d).Live) (he : e ∈ (T d).entries)
    (hi : refersTo i e = true) : 0 < linksTo T i :=
  tally_pos.mpr ⟨d, Finset.mem_range.mpr (h.live_range hd).2, matching_pos.mpr ⟨hd, e, he, hi⟩⟩

theorem namesOf_pos (hd : (T d).Live) (he : e ∈ (T d).entries)
    (hi : isNameOf i e = true) : 0 < namesOf T i :=
  tally_pos.mpr ⟨d, Finset.mem_range.mpr (h.live_range hd).2, matching_pos.mpr ⟨hd, e, he, hi⟩⟩

theorem name_in_parent (hd : (T d).Live) (hroot : d ≠ rootino) :
    (T (T d).parent).Live ∧ ∃ e ∈ (T (T d).parent).entries, isNameOf d e = true := by
  have hone : 0 < namesOf T d := by
    rw [h.named d hd, if_neg hroot]
    decide
  obtain ⟨d', -, hmatch⟩ := tally_pos.mp hone
  obtain ⟨hlive, e, he, hname⟩ := matching_pos.mp hmatch
  obtain rfl := (isNameOf_iff.mp hname).1
  rw [h.child d' hlive e he hname hd.1]
  exact ⟨hlive, e, he, hname⟩

theorem nlink_nonneg (hi : (T i).type ≠ .free) : 0 ≤ (T i).nlink := by
  rw [h.law i hi]
  exact Int.natCast_nonneg _

theorem nlink_eq_zero (hd : (T d).type = .dir) (hlive : ¬ (T d).Live) : (T d).nlink = 0 := by
  have hpos : ¬ 0 < (T d).nlink := fun hpos => hlive ⟨hd, hpos⟩
  have hnonneg := h.nlink_nonneg (i := d) (by rw [hd]; decide)
  omega

theorem inum_ne_of_unlinked (hi : (T i).type ≠ .free)
    (hzero : (T i).nlink = 0) (hd : (T d).Live) (he : e ∈ (T d).entries) : e.inum ≠ i := by
  rintro rfl
  by_cases hdot : e.name = dot
  · obtain ⟨par, rest, hshape⟩ := h.shape d hd.1
    obtain ⟨hself, -⟩ | rfl | hrest := hshape.cases he
    · rw [hself] at hzero
      exact absurd hd.2 (by omega)
    · rw [hshape.parName] at hdot
      exact absurd hdot (by decide)
    · exact (hshape.names e hrest (h.range _ hi).1.ne').2.1 hdot
  · have hpos := h.linksTo_pos hd he (refersTo_iff.mpr ⟨rfl, hdot⟩)
    rw [h.law _ hi] at hzero
    omega

theorem linksTo_free (hi : (T i).type = .free) (hne : i ≠ 0) : linksTo T i = 0 := by
  by_contra hpos
  obtain ⟨d, -, hmatch⟩ := tally_pos.mp (Nat.pos_of_ne_zero hpos)
  obtain ⟨hlive, e, he, hrefers⟩ := matching_pos.mp hmatch
  obtain rfl := (refersTo_iff.mp hrefers).1
  exact (h.points d hlive.1 (.inr hlive) e he hne).1 hi

theorem orphan_cases (hd : (T d).type = .dir) (hlive : ¬ (T d).Live)
    (he : e ∈ (T d).entries) (hinum : e.inum ≠ 0) : e.inum = d ∨ e.inum = (T d).parent := by
  obtain ⟨par, rest, hshape⟩ := h.shape d hd
  obtain ⟨hself, -⟩ | rfl | hrest := hshape.cases he
  · exact .inl hself
  · exact .inr hshape.parent.symm
  · exact absurd ⟨hd, (hshape.names e hrest hinum).1⟩ hlive

/-- An inode without links is freed, or the record of a free inode changes. -/
theorem retire {n : Inode} (hn : n.type = .free)
    (hi : (T i).type = .free ∨ (T i).nlink = 0) : Tree strict (update T i n) := by
  have hold : ¬ (T i).Live := by
    obtain hi | hi := hi
    · exact not_live_of_type (by rw [hi]; decide)
    · exact fun hlive => absurd hlive.2 (by omega)
  have hnew : ¬ n.Live := not_live_of_type (by rw [hn]; decide)
  have htally : ∀ p, tally (Finset.range ninodes) (Inode.matching p) (update T i n) =
      tally (Finset.range ninodes) (Inode.matching p) T := fun p =>
    tally_update_of_eq (by rw [matching_of_not_live hold, matching_of_not_live hnew])
  have hkeep : ∀ {d}, (update T i n d).type ≠ .free →
      d ≠ i ∧ update T i n d = T d := by
    intro d hd
    have hne : d ≠ i := by
      rintro rfl
      rw [update_self] at hd
      exact hd hn
    exact ⟨hne, update_of_ne hne ..⟩
  have hlive : ∀ {d}, (T d).Live → update T i n d = T d := by
    intro d hd
    apply update_of_ne
    rintro rfl
    exact hold hd
  have hdir : ∀ {d}, (update T i n d).type = .dir →
      d ≠ i ∧ update T i n d = T d := fun hd => hkeep (by rw [hd]; decide)
  have hroot := hlive h.root
  refine
    { root := by rw [hroot]; exact h.root
      rootParent := by rw [hroot]; exact h.rootParent
      range := fun d hd => h.range d ((hkeep hd).2 ▸ hd)
      shape := fun d hd => by
        have heq := (hdir hd).2
        rw [heq] at hd ⊢
        exact h.shape d hd
      points := ?_
      child := ?_
      orphan := fun hs d hd hdead => by
        have heq := (hdir hd).2
        rw [heq] at hd hdead ⊢
        have hpar := h.orphan hs d hd hdead
        rw [hlive hpar]
        exact hpar
      named := fun d hd => by
        rw [(hdir hd.1).2] at hd
        rw [namesOf, htally]
        exact h.named d hd
      law := fun d hd => by
        have heq := (hkeep hd).2
        rw [heq] at hd ⊢
        rw [linksTo, htally]
        exact h.law d hd
      small := fun d hd => by
        have heq := (hkeep hd).2
        rw [heq] at hd ⊢
        exact h.small d hd }
  · intro d hd hcover e he hinum
    obtain ⟨hne, heq⟩ := hdir hd
    rw [heq] at hd hcover he
    have hpoints := h.points d hd hcover e he hinum
    have hei : e.inum ≠ i := by
      intro hei
      have hfree : (T i).type ≠ .free := hei ▸ hpoints.1
      have hzero := hi.resolve_left hfree
      by_cases hdl : (T d).Live
      · exact h.inum_ne_of_unlinked hfree hzero hdl he hei
      · -- only `..` of a removed directory can refer elsewhere, and it is not removed
        obtain hself | hpar := h.orphan_cases hd hdl he hinum
        · exact hne (hself.symm.trans hei)
        · have hlp := h.orphan (hcover.resolve_right hdl) d hd hdl
          rw [← hpar, hei] at hlp
          exact hold hlp
    rw [Points, update_of_ne hei]
    exact hpoints
  · intro d hd e he hname hkid
    have heq := (hdir hd.1).2
    have heqKid := (hdir hkid).2
    rw [heq] at hd he
    rw [heqKid] at hkid ⊢
    exact h.child d hd e he hname hkid

end

end Tree

end EafitOs.Directory
