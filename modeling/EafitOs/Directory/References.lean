import EafitOs.Directory.Tree
import Mathlib.Data.Fintype.Basic

/-!
# References to inodes

The reference count of an inode is the number of open files and current directories
that use it, plus the references the running call holds. An inode without links stays
allocated just as long as someone refers to it.
-/

namespace EafitOs.Directory

open Foundation Function List

def Slot.cwd? : Slot → Option Nat
  | .live p => some p.cwd
  | _ => none

def File.opens (i : Nat) (f : File) : Nat :=
  if f.type ≠ .none ∧ f.ip = i then 1 else 0

def Slot.sitsIn (i : Nat) (sl : Slot) : Nat :=
  if sl.cwd? = some i then 1 else 0

def State.users (s : State) (i : Nat) : Nat :=
  tally Finset.univ (File.opens i) s.ftable + tally Finset.univ (Slot.sitsIn i) s.slot

structure Counted (held : List Nat) (s : State) : Prop where
  count : ∀ i, s.ref i = s.users i + held.count i
  typed : ∀ i, 0 < s.ref i → s.valid i = true → (s.inode i).type ≠ .free
  used : ∀ i, 0 < s.users i → (s.inode i).type ≠ .free
  files : ∀ f, (s.ftable f).ref = 0 → (s.ftable f).type = .none

/-- An allocated inode without links is referenced, and its record has been read. -/
def Kept (s : State) (i : Nat) : Prop :=
  (s.inode i).type ≠ .free → (s.inode i).nlink = 0 → 0 < s.ref i ∧ s.valid i = true

/-- With no more references by the call than `held`, the inode is not freed. -/
def Stays (held : List Nat) (s : State) (i : Nat) : Prop :=
  (s.inode i).type ≠ .free → (s.inode i).nlink = 0 → 0 < s.users i + held.count i

theorem Counted.stays {held : List Nat} {s : State} {i : Nat} (h : Counted held s)
    (hi : Kept s i) : Stays held s i := by
  intro hfree hlink
  rw [← h.count]
  exact (hi hfree hlink).1

theorem Stays.weaken {held : List Nat} {s : State} {i k : Nat} (h : Stays held s i) :
    Stays (k :: held) s i := fun hfree hlink =>
  (h hfree hlink).trans_le (Nat.add_le_add_left (count_le_count_cons ..) _)

structure Touches (s s' : State) : Prop where
  inode : s'.inode = s.inode
  ftable : s'.ftable = s.ftable
  slot : s'.slot = s.slot
  kept : ∀ i, Kept s i → Kept s' i

namespace Touches

variable {s s' s'' : State}

theorem rfl : Touches s s :=
  ⟨Eq.refl _, Eq.refl _, Eq.refl _, fun _ => id⟩

theorem trans (h : Touches s s') (h' : Touches s' s'') : Touches s s'' where
  inode := h'.inode.trans h.inode
  ftable := h'.ftable.trans h.ftable
  slot := h'.slot.trans h.slot
  kept := fun i hi => h'.kept i (h.kept i hi)

theorem users (h : Touches s s') : s'.users = s.users := by
  funext i
  rw [State.users, State.users, h.ftable, h.slot]

theorem stays {held : List Nat} {i : Nat} (h : Touches s s') (hi : Stays held s i) :
    Stays held s' i := by
  rw [Stays, h.inode, h.users]
  exact hi

end Touches

def Avoids (strict : Prop) (e : String) : Prop :=
  e ≠ "unlink: nlink < 1" ∧ (strict → e ≠ "ilock: no type")

section InodeTable

variable {strict : Prop} {s : State} {held : List Nat} {i : Nat}

theorem Counted.perm {held' : List Nat} (h : Counted held s) (hperm : held.Perm held') :
    Counted held' s where
  count := fun i => by rw [h.count, hperm.count_eq]
  typed := h.typed
  used := h.used
  files := h.files

theorem Counted.ref_pos (h : Counted (i :: held) s) : 0 < s.ref i := by
  rw [h.count, count_cons_self]
  omega

theorem Counted.move {held' : List Nat} {s' : State} (h : Counted held s)
    (hinode : s'.inode = s.inode) (hftable : s'.ftable = s.ftable) (hslot : s'.slot = s.slot)
    (hcount : ∀ k, s'.ref k + held.count k = s.ref k + held'.count k)
    (htyped : ∀ k, 0 < s'.ref k → s'.valid k = true → (s.inode k).type ≠ .free) :
    Counted held' s' := by
  have husers : ∀ k, s'.users k = s.users k := by
    intro k
    rw [State.users, State.users, hftable, hslot]
  refine ⟨fun k => ?_, hinode ▸ htyped, fun k hk => ?_, hftable ▸ h.files⟩
  · have hk := h.count k
    have hk' := hcount k
    rw [husers]
    omega
  · rw [hinode]
    exact h.used k (husers k ▸ hk)

theorem Counted.idup (h : Counted held s) (hi : 0 < s.ref i) :
    Touches s (idup s i) ∧ Counted (i :: held) (idup s i) := by
  refine ⟨⟨rfl, rfl, rfl, fun k hk hfree hlink => ⟨?_, (hk hfree hlink).2⟩⟩,
    h.move rfl rfl rfl (fun k => ?_) (fun k hk hv => ?_)⟩
  · have hpos := (hk hfree hlink).1
    by_cases hki : k = i
    · simp [Directory.idup, hki]
    · simpa [Directory.idup, hki] using hpos
  · by_cases hk : k = i
    · simp [Directory.idup, hk]
      omega
    · simp [Directory.idup, hk, count_cons_of_ne (Ne.symm hk)]
  · apply h.typed k ?_ hv
    by_cases hki : k = i
    · exact hki ▸ hi
    · simpa [Directory.idup, hki] using hk

theorem Counted.iget (h : Counted held s) :
    Ends (iget s i) (fun s' => Touches s s' ∧ Counted (i :: held) s' ∧
      ∀ k, 0 < s.ref k → s'.valid k = s.valid k) (Avoids strict) := by
  rw [Directory.iget]
  by_cases hi : 0 < s.ref i
  · rw [if_pos hi]
    exact .ok ⟨(h.idup hi).1, (h.idup hi).2, fun _ _ => rfl⟩
  · rw [if_neg hi]
    split
    · exact .error ⟨by decide, fun _ => by decide⟩
    · have hzero : s.ref i = 0 := by omega
      have hother : ∀ k, k ≠ i → update s.valid i false k = s.valid k := fun k hk =>
        update_of_ne hk ..
      refine .ok ⟨⟨rfl, rfl, rfl, fun k hk hfree hlink => ?_⟩, h.move rfl rfl rfl ?_ ?_, ?_⟩
      · obtain ⟨hpos, hvalid⟩ := hk hfree hlink
        have hki : k ≠ i := by
          rintro rfl
          exact hi hpos
        simp only [hother k hki, update_of_ne hki]
        exact ⟨hpos, hvalid⟩
      · intro k
        by_cases hk : k = i
        · subst hk
          simp [hzero]
          omega
        · simp [hk, count_cons_of_ne (Ne.symm hk)]
      · intro k hk hv
        by_cases hki : k = i
        · subst hki
          simp at hv
        · simp only [ne_eq, hki, not_false_eq_true, update_of_ne] at hk hv
          exact h.typed k hk hv
      · intro k hk
        apply hother
        rintro rfl
        exact hi hk

theorem Counted.ilock (h : Counted held s) (hfree : strict → (s.inode i).type ≠ .free) :
    Ends (ilock s i) (fun s' => Touches s s' ∧ Counted held s' ∧
      (∀ k, k = i ∨ s.valid k = true → s'.valid k = true) ∧ (s.inode i).type ≠ .free)
      (Avoids strict) := by
  rw [Directory.ilock]
  split
  · exact .error ⟨by decide, fun _ => by decide⟩
  · rename_i href
    split
    · rename_i hvalid
      exact .ok ⟨.rfl, h, fun k hk => hk.elim (fun heq => heq ▸ hvalid) id,
        h.typed i (by omega) hvalid⟩
    · split
      · rename_i htype
        exact .error ⟨by decide, fun hs => absurd htype (hfree hs)⟩
      · rename_i htype
        have hmono : ∀ k, k = i ∨ s.valid k = true → update s.valid i true k = true := by
          intro k hk
          by_cases hki : k = i
          · rw [hki, update_self]
          · rw [update_of_ne hki]
            exact hk.resolve_left hki
        refine .ok ⟨⟨rfl, rfl, rfl, fun k hk hf hl => ?_⟩, h.move rfl rfl rfl (fun _ => rfl) ?_,
          hmono, htype⟩
        · exact ⟨(hk hf hl).1, hmono k (.inr (hk hf hl).2)⟩
        · intro k hk hv
          by_cases hki : k = i
          · rw [hki]
            exact htype
          · simp only [ne_eq, hki, not_false_eq_true, update_of_ne] at hv
            exact h.typed k hk hv

section

variable (h : Counted (i :: held) s)
include h

theorem Counted.drop : Counted held { s with ref := update s.ref i (s.ref i - 1) } := by
  have hpos := h.ref_pos
  refine h.move rfl rfl rfl (fun k => ?_) (fun k hk hv => h.typed k ?_ hv)
  · by_cases hk : k = i
    · subst hk
      simp only [update_self, count_cons_self]
      omega
    · simp [hk, count_cons_of_ne (Ne.symm hk)]
  · by_cases hki : k = i
    · exact hki ▸ hpos
    · simpa [hki] using hk

theorem Counted.iput_eq (hi : Stays held s i) :
    Directory.iput s i = { s with ref := update s.ref i (s.ref i - 1) } := by
  rw [Directory.iput, if_neg]
  rintro ⟨hone, hvalid, hlink⟩
  have huser := hi (h.typed i (by omega) hvalid) hlink
  have hcount := h.count i
  rw [count_cons_self] at hcount
  omega

theorem Counted.iput (hi : Stays held s i) : Touches s (iput s i) ∧ Counted held (iput s i) := by
  rw [h.iput_eq hi]
  refine ⟨⟨rfl, rfl, rfl, fun k hk hfree hlink => ⟨?_, (hk hfree hlink).2⟩⟩, h.drop⟩
  by_cases hki : k = i
  · subst hki
    have hcount := h.count k
    have huser := hi hfree hlink
    rw [count_cons_self] at hcount
    simp only [update_self]
    omega
  · simp only [update_of_ne hki]
    exact (hk hfree hlink).1

theorem Counted.iput_free (hone : s.ref i = 1)
    (hvalid : s.valid i = true) (hlink : (s.inode i).nlink = 0) :
    (Directory.iput s i).inode =
      update s.inode i { s.inode i with type := .free, entries := [] } ∧
    Counted held (Directory.iput s i) ∧ (∀ k, k ≠ i → Kept s k → Kept (Directory.iput s i) k) ∧
    (Directory.iput s i).slot = s.slot := by
  have hcount := h.count i
  rw [count_cons_self] at hcount
  have husers : s.users i = 0 := by omega
  rw [Directory.iput, if_pos ⟨hone, hvalid, hlink⟩]
  refine ⟨rfl, ⟨fun k => ?_, fun k hk hv => ?_, fun k hk => ?_, h.files⟩, fun k hk hkept => ?_,
    rfl⟩
  · by_cases hki : k = i
    · subst hki
      have hzero : held.count k = 0 := by omega
      simp only [update_self]
      exact (Nat.add_eq_zero_iff.mpr ⟨husers, hzero⟩).symm
    · have hk := h.count k
      rw [count_cons_of_ne (Ne.symm hki)] at hk
      simp only [ne_eq, hki, not_false_eq_true, update_of_ne]
      exact hk
  · have hki : k ≠ i := by
      rintro rfl
      simp at hk
    simp only [State.setInode, ne_eq, hki, not_false_eq_true, update_of_ne] at hk hv ⊢
    exact h.typed k hk hv
  · have hki : k ≠ i := by
      rintro rfl
      exact absurd hk (by
        change ¬ 0 < s.users k
        omega)
    simp only [State.setInode, ne_eq, hki, not_false_eq_true, update_of_ne]
    exact h.used k hk
  · intro hfree hzero
    simp only [State.setInode, ne_eq, hk, not_false_eq_true, update_of_ne]
      at hfree hzero ⊢
    exact hkept hfree hzero

end

theorem Counted.setInode {n : Inode} (h : Counted held s)
    (hn : (s.inode i).type ≠ .free → n.type ≠ .free) : Counted held (s.setInode i n) := by
  have hfree : ∀ k, (s.inode k).type ≠ .free → ((s.setInode i n).inode k).type ≠ .free := by
    intro k hk
    by_cases hki : k = i
    · subst hki
      simpa [State.setInode] using hn hk
    · simpa [State.setInode, hki] using hk
  exact ⟨h.count, fun k hk hv => hfree k (h.typed k hk hv), fun k hk => hfree k (h.used k hk),
    h.files⟩

theorem Kept.setInode_ne {n : Inode} {k : Nat} (h : Kept s k) (hk : k ≠ i) :
    Kept (s.setInode i n) k := by
  intro hfree hzero
  simp only [State.setInode, ne_eq, hk, not_false_eq_true, update_of_ne] at hfree hzero
  exact h hfree hzero

theorem Kept.setInode {n : Inode} (h : ∀ k, k ≠ i → Kept s k)
    (hn : n.nlink ≠ 0 ∨ 0 < s.ref i ∧ s.valid i = true) (k : Nat) : Kept (s.setInode i n) k := by
  by_cases hk : k = i
  · subst hk
    intro _ hzero
    rw [State.setInode_self] at hzero
    exact hn.resolve_left (not_not.mpr hzero)
  · exact (h k hk).setInode_ne hk

theorem iput_inode_ne {k : Nat} (hk : k ≠ i) : (iput s i).inode k = s.inode k := by
  rw [iput]
  split
  · exact update_of_ne hk ..
  · rfl

theorem iput_valid (h : Counted (i :: held) s) {k : Nat} (hk : k ∈ held)
    (hv : s.valid k = true) : (iput s i).valid k = true := by
  rw [iput]
  split
  · rename_i hlast
    have hne : k ≠ i := by
      rintro rfl
      have hcount := h.count k
      have hpos := count_pos_iff.mpr hk
      rw [count_cons_self] at hcount
      omega
    exact (update_of_ne hne ..).trans hv
  · exact hv

end InodeTable

/-- A property of the inodes that stays when an inode without links is freed, and under which
every link count fits the `short` that stores it. -/
class Settled (P : (Nat → Inode) → Prop) : Prop where
  retire : ∀ {T i n}, P T → n.type = .free → (T i).type = .free ∨ (T i).nlink = 0 →
    P (update T i n)
  short : ∀ {T i}, P T → (T i).type ≠ .free → short (T i).nlink = (T i).nlink

/-- The invariant of a state between the steps of a call. -/
structure Sound (P : (Nat → Inode) → Prop) (held : List Nat) (s : State) : Prop where
  table : P s.inode
  counted : Counted held s
  kept : ∀ i, Kept s i

namespace Sound

variable {P : (Nat → Inode) → Prop} {s s' : State} {held held' : List Nat} {i : Nat}

theorem touch (h : Sound P held s) (ht : Touches s s') (hc : Counted held' s') :
    Sound P held' s' where
  table := ht.inode ▸ h.table
  counted := hc
  kept := fun i => ht.kept i (h.kept i)

theorem stays (h : Sound P held s) (i : Nat) : Stays held s i :=
  h.counted.stays (h.kept i)

theorem iput [Settled P] (h : Sound P (i :: held) s) :
    Sound P held (iput s i) ∧ (Directory.iput s i).slot = s.slot := by
  by_cases hfree : s.ref i = 1 ∧ s.valid i = true ∧ (s.inode i).nlink = 0
  · obtain ⟨hinode, hc, hkept, hslot⟩ := h.counted.iput_free hfree.1 hfree.2.1 hfree.2.2
    refine ⟨⟨?_, hc, fun k => ?_⟩, hslot⟩
    · rw [hinode]
      exact Settled.retire h.table rfl (.inr hfree.2.2)
    · by_cases hk : k = i
      · subst hk
        intro hne
        rw [hinode, update_self] at hne
        exact absurd rfl hne
      · exact hkept k hk (h.kept k)
  · have hstays : Stays held s i := by
      intro hne hzero
      obtain ⟨hpos, hv⟩ := h.kept i hne hzero
      have hcount := h.counted.count i
      have hone : s.ref i ≠ 1 := fun hone => hfree ⟨hone, hv, hzero⟩
      rw [count_cons_self] at hcount
      omega
    obtain ⟨ht, hc⟩ := h.counted.iput hstays
    exact ⟨h.touch ht hc, ht.slot⟩

end Sound

end EafitOs.Directory
