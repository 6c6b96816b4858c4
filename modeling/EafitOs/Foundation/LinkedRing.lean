import Mathlib.Data.List.Induction
import Mathlib.Data.List.Nodup
import Mathlib.Data.Option.Basic
import Mathlib.Logic.Function.Basic

/-!
# Circular doubly linked lists

The cells of a list are linked in both directions through a head, which is always there. A link
leads to a cell or to the head, `none`. The list that the links stand for is read off along
`next`.
-/

namespace EafitOs.Foundation

open Function List Option

structure Links (α : Type*) where
  next : Option α → Option α
  prev : Option α → Option α

namespace Links

variable {α : Type*}

def empty : Links α := ⟨fun _ => none, fun _ => none⟩

/-- Following the links from `a` to `b` visits the cells of the list, and back. -/
def Seg (l : Links α) : Option α → List α → Option α → Prop
  | a, [], b => l.next a = b ∧ l.prev b = a
  | a, x :: xs, b => (l.next a = some x ∧ l.prev (some x) = a) ∧ l.Seg (some x) xs b

structure Ring (l : Links α) (xs : List α) : Prop where
  seg : l.Seg none xs none
  nodup : xs.Nodup

/-- The loop that follows a link up to the first cell that passes the test, or to the head.
The number bounds its rounds. -/
def scan (link : Option α → Option α) (test : α → Bool) : Nat → Option α → Option α
  | 0, _ => none
  | _ + 1, none => none
  | k + 1, some x => if test x then some x else scan link test k (link (some x))

variable {l l' : Links α} {a b c : Option α} {x : α} {xs ys : List α}

theorem ring_empty : (empty : Links α).Ring [] :=
  ⟨⟨rfl, rfl⟩, nodup_nil⟩

theorem seg_append : l.Seg a (xs ++ x :: ys) b ↔ l.Seg a xs (some x) ∧ l.Seg (some x) ys b := by
  induction xs generalizing a with
  | nil => rfl
  | cons y xs ih => rw [cons_append, Seg, Seg, ih, ← and_assoc]

theorem Seg.congr (h : l.Seg a xs b) (hnext : ∀ y ∈ a :: xs.map some, l'.next y = l.next y)
    (hprev : ∀ y ∈ xs.map some ++ [b], l'.prev y = l.prev y) : l'.Seg a xs b := by
  induction xs generalizing a with
  | nil => exact ⟨(hnext a (by simp)).trans h.1, (hprev b (by simp)).trans h.2⟩
  | cons y xs ih =>
    obtain ⟨⟨hfirst, hback⟩, hrest⟩ := h
    refine ⟨⟨(hnext a (by simp)).trans hfirst, (hprev (some y) (by simp)).trans hback⟩, ?_⟩
    refine ih hrest (fun z hz => hnext z (mem_cons_of_mem a hz)) fun z hz => ?_
    exact hprev z (mem_append.mpr ((mem_append.mp hz).imp_left fun h => by simp_all))

theorem Seg.prev_mem (h : l.Seg a xs b) : l.prev b ∈ a :: xs.map some := by
  induction xs generalizing a with
  | nil => rw [h.2]; exact mem_cons_self
  | cons y xs ih => exact mem_cons_of_mem a (ih h.2)

theorem Seg.redirect (h : l.Seg a xs b) (hnodup : (a :: xs.map some).Nodup)
    (hc : c ∉ xs.map some) (hlast : l'.next (l.prev b) = c) (hback : l'.prev c = l.prev b)
    (hnext : ∀ y, y ≠ l.prev b → l'.next y = l.next y)
    (hprev : ∀ y, y ≠ c → l'.prev y = l.prev y) : l'.Seg a xs c := by
  induction xs generalizing a with
  | nil => exact ⟨h.2 ▸ hlast, hback.trans h.2⟩
  | cons y xs ih =>
    obtain ⟨⟨hfirst, hyback⟩, hrest⟩ := h
    obtain ⟨ha, hnodup'⟩ := nodup_cons.mp hnodup
    have hne : a ≠ l.prev b := fun heq => ha (heq ▸ hrest.prev_mem)
    have hy : some y ≠ c := fun heq => hc (heq ▸ mem_cons_self)
    exact ⟨⟨(hnext a hne).trans hfirst, (hprev _ hy).trans hyback⟩,
      ih hrest hnodup' fun hmem => hc (mem_cons_of_mem _ hmem)⟩

theorem Seg.scan_next {k : Nat} (h : l.Seg a xs none) (hk : xs.length < k) (test : α → Bool) :
    scan l.next test k (l.next a) = xs.find? test := by
  induction xs generalizing a k with
  | nil =>
    obtain ⟨k, rfl⟩ := Nat.exists_eq_add_of_lt hk
    rw [h.1]
    rfl
  | cons y xs ih =>
    obtain ⟨k, rfl⟩ := Nat.exists_eq_succ_of_ne_zero (Nat.ne_zero_of_lt hk)
    rw [h.1.1, scan, find?_cons]
    split
    · rename_i hy
      rw [hy]
    · rename_i hy
      rw [Bool.eq_false_iff.mpr hy]
      exact ih h.2 (Nat.lt_of_succ_lt_succ hk)

theorem Seg.scan_prev {k : Nat} (h : l.Seg none xs b) (hk : xs.length < k) (test : α → Bool) :
    scan l.prev test k (l.prev b) = xs.reverse.find? test := by
  induction xs using reverseRecOn generalizing b k with
  | nil =>
    obtain ⟨k, rfl⟩ := Nat.exists_eq_add_of_lt hk
    rw [h.2]
    rfl
  | append_singleton xs y ih =>
    obtain ⟨hinit, -, hlast⟩ := seg_append.mp h
    obtain ⟨k, rfl⟩ := Nat.exists_eq_succ_of_ne_zero (Nat.ne_zero_of_lt hk)
    rw [hlast, scan, reverse_concat, find?_cons]
    split
    · rename_i hy
      rw [hy]
    · rename_i hy
      rw [Bool.eq_false_iff.mpr hy]
      refine ih hinit ?_
      rw [length_append] at hk
      exact Nat.lt_of_succ_lt_succ hk

theorem find_reverse_of_pairwise {R : α → α → Prop} {test : α → Bool} {y z : α}
    (hsorted : xs.Pairwise R) (hfind : xs.reverse.find? test = some y) (hz : z ∈ xs)
    (htest : test z = true) (hne : z ≠ y) : R z y := by
  obtain ⟨-, as, bs, hsplit, hfail⟩ := find?_eq_some_iff_append.mp hfind
  have hxs : xs = bs.reverse ++ y :: as.reverse := by
    rw [← reverse_reverse xs, hsplit]
    simp
  rw [hxs] at hsorted hz
  have hbefore : z ∈ bs.reverse := by
    simp only [mem_append, mem_cons, mem_reverse] at hz ⊢
    obtain hz | rfl | hz := hz
    · exact hz
    · exact absurd rfl hne
    · exact absurd htest (by simpa using hfail z hz)
  exact (pairwise_append.mp hsorted).2.2 z hbefore y mem_cons_self

variable [DecidableEq α]

def setNext (l : Links α) (p q : Option α) : Links α :=
  { l with next := update l.next p q }

def setPrev (l : Links α) (p q : Option α) : Links α :=
  { l with prev := update l.prev p q }

def unlink (l : Links α) (x : α) : Links α :=
  let l := l.setPrev (l.next (some x)) (l.prev (some x))
  l.setNext (l.prev (some x)) (l.next (some x))

def push (l : Links α) (x : α) : Links α :=
  let l := l.setNext (some x) (l.next none)
  let l := l.setPrev (some x) none
  let l := l.setPrev (l.next none) (some x)
  l.setNext none (some x)

theorem unlink_next : (l.unlink x).next =
    update l.next (l.prev (some x)) (l.next (some x)) := by
  have hsame : update l.prev (l.next (some x)) (l.prev (some x)) (some x) =
      l.prev (some x) := by
    rw [update_apply, ite_eq_right_iff]
    exact fun _ => rfl
  simp only [unlink, setNext, setPrev, hsame]

theorem unlink_prev : (l.unlink x).prev =
    update l.prev (l.next (some x)) (l.prev (some x)) :=
  rfl

theorem Ring.unlink (h : l.Ring (xs ++ x :: ys)) : (l.unlink x).Ring (xs ++ ys) := by
  obtain ⟨hleft, hright⟩ := seg_append.mp h.seg
  obtain ⟨hxs, hxys, hapart⟩ := nodup_append.mp h.nodup
  obtain ⟨hx, hys⟩ := nodup_cons.mp hxys
  have hcells : (none :: xs.map some).Nodup :=
    nodup_cons.mpr ⟨by simp, hxs.map (some_injective α)⟩
  have hnext : ∀ y, y ≠ l.prev (some x) → (l.unlink x).next y = l.next y := fun y hy => by
    rw [unlink_next, update_of_ne hy]
  have hprev : ∀ y, y ≠ l.next (some x) → (l.unlink x).prev y = l.prev y := fun y hy => by
    rw [unlink_prev, update_of_ne hy]
  -- The cells before `x` are led to what comes after it.
  have hlead : ∀ c, l.next (some x) = c → c ∉ xs.map some → (l.unlink x).Seg none xs c := by
    rintro c rfl hc
    refine hleft.redirect hcells hc ?_ ?_ hnext hprev
    · rw [unlink_next, update_self]
    · rw [unlink_prev, update_self]
  refine ⟨?_, nodup_append.mpr ⟨hxs, hys, fun y hy z hz =>
    hapart y hy z (mem_cons_of_mem x hz)⟩⟩
  cases ys with
  | nil =>
    rw [append_nil]
    exact hlead none hright.1 (by simp)
  | cons z zs =>
    obtain ⟨⟨hfirst, -⟩, hrest⟩ := hright
    refine seg_append.mpr ⟨hlead _ hfirst fun hmem => ?_, hrest.congr (fun y hy => ?_) fun y hy =>
      ?_⟩
    · obtain ⟨y, hy, hyz⟩ := mem_map.mp hmem
      exact hapart y hy z (by simp) (some.inj hyz)
    · refine hnext y fun heq => ?_
      have hbefore := hleft.prev_mem
      rw [← heq] at hbefore
      rw [← map_cons] at hy
      obtain ⟨w, hw, rfl⟩ := mem_map.mp hy
      obtain hnone | hmem := mem_cons.mp hbefore
      · cases hnone
      · obtain ⟨w', hw', hww⟩ := mem_map.mp hmem
        exact hapart w' hw' w (mem_cons_of_mem x hw) (some.inj hww)
    · refine hprev y fun heq => ?_
      rw [heq, hfirst] at hy
      simp only [mem_append, List.mem_map, Option.some.injEq, exists_eq_right,
        mem_singleton, reduceCtorEq, or_false] at hy
      exact (nodup_cons.mp hys).1 hy

theorem push_next : (l.push x).next =
    update (update l.next (some x) (l.next none)) none (some x) :=
  rfl

theorem push_prev : (l.push x).prev =
    update (update l.prev (some x) none) (l.next none) (some x) := by
  simp [push, setNext, setPrev]

theorem Ring.push (h : l.Ring xs) (hx : x ∉ xs) : (l.push x).Ring (x :: xs) := by
  have hseg := h.seg
  have hne : l.next none ≠ some x := by
    cases xs with
    | nil => simp [hseg.1]
    | cons y ys =>
      rw [hseg.1.1]
      exact fun heq => hx (some.inj heq ▸ mem_cons_self)
  have hfirst : (l.push x).next none = some x := by rw [push_next, update_self]
  have hnext : (l.push x).next (some x) = l.next none := by
    rw [push_next, update_of_ne (by simp), update_self]
  have hback : (l.push x).prev (l.next none) = some x := by rw [push_prev, update_self]
  have hprev : (l.push x).prev (some x) = none := by
    rw [push_prev, update_of_ne hne.symm, update_self]
  refine ⟨⟨⟨hfirst, hprev⟩, ?_⟩, nodup_cons.mpr ⟨hx, h.nodup⟩⟩
  cases xs with
  | nil =>
    rw [hseg.1] at hnext hback
    exact ⟨hnext, hback⟩
  | cons y ys =>
    obtain ⟨⟨hy, -⟩, hrest⟩ := hseg
    rw [hy] at hnext hback
    refine ⟨⟨hnext, hback⟩, hrest.congr (fun z hz => ?_) fun z hz => ?_⟩
    · rw [← map_cons] at hz
      obtain ⟨w, hw, rfl⟩ := mem_map.mp hz
      have hwx : some w ≠ some x := fun heq => hx (some.inj heq ▸ hw)
      rw [push_next, update_of_ne (by simp), update_of_ne hwx]
    · have hzy : z ≠ some y := by
        rintro rfl
        simp only [mem_append, List.mem_map, Option.some.injEq, exists_eq_right,
          mem_singleton, reduceCtorEq, or_false] at hz
        exact (nodup_cons.mp h.nodup).1 hz
      have hzx : z ≠ some x := by
        rintro rfl
        simp only [mem_append, List.mem_map, Option.some.injEq, exists_eq_right,
          mem_singleton, reduceCtorEq, or_false] at hz
        exact hx (mem_cons_of_mem y hz)
      rw [push_prev, hy, update_of_ne hzy, update_of_ne hzx]

theorem Ring.moveToFront (h : l.Ring xs) (hx : x ∈ xs) :
    ((l.unlink x).push x).Ring (x :: xs.erase x) := by
  obtain ⟨as, bs, rfl⟩ := append_of_mem hx
  have hnot : x ∉ as := fun hmem => (nodup_append.mp h.nodup).2.2 x hmem x (by simp) rfl
  rw [erase_append_right _ hnot, erase_cons_head]
  refine h.unlink.push fun hmem => ?_
  obtain hmem | hmem := mem_append.mp hmem
  · exact hnot hmem
  · exact (nodup_cons.mp (nodup_append.mp h.nodup).2.1).1 hmem

end Links

end EafitOs.Foundation
