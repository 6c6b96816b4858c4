import Mathlib.Data.List.Induction
import Mathlib.Logic.Function.Basic

/-!
# Trees of nodes in a memory

A node is an array of words, and a word may link to another node. `descend` follows the links
along a path of indices. In a tree of depth `d` each node is reached along one path of at most `d`
links.
-/

namespace EafitOs.Foundation

open Function List Option

variable {F I W : Type*} (child : W → Option F) (mem : F → I → W)

/-- The node reached from `f` along a path. -/
def descend (f : F) : List I → Option F
  | [] => some f
  | i :: path => (child (mem f i)).bind fun g => descend g path

def IsTree (root : F) (d : Nat) : Prop :=
  ∀ p q f, p.length ≤ d → q.length ≤ d → descend child mem root p = some f →
    descend child mem root q = some f → p = q

def IsNode (root : F) (d : Nat) (f : F) : Prop :=
  ∃ p, p.length ≤ d ∧ descend child mem root p = some f

def wordAt (root : F) (path : List I) (i : I) : Option W :=
  (descend child mem root path).map fun f => mem f i

variable {child mem} {root f g : F} {d : Nat} {p q : List I} {i j : I}

theorem descend_snoc (f : F) (p : List I) (i : I) : descend child mem f (p ++ [i]) =
    (descend child mem f p).bind fun g => child (mem g i) := by
  induction p generalizing f with
  | nil => cases h : child (mem f i) <;> simp [descend, h]
  | cons j p ih =>
    rw [cons_append, descend, descend]
    cases h : child (mem f j) with
    | none => rfl
    | some g => exact ih g

theorem descend_congr {mem' : F → I → W}
    (h : ∀ q i, q ++ [i] <+: p → ∀ f, descend child mem root q = some f → mem' f i = mem f i) :
    descend child mem' root p = descend child mem root p := by
  induction p using List.reverseRecOn with
  | nil => rfl
  | append_singleton p i ih =>
    have hprefix := ih fun q j hq => h q j (hq.trans (prefix_append p [i]))
    rw [descend_snoc, descend_snoc, hprefix]
    cases hf : descend child mem root p with
    | none => rfl
    | some f => exact congrArg child (h p i (prefix_refl _) f hf)

variable [DecidableEq F]

section Outside

variable {node : I → W}

theorem descend_update (hg : ¬IsNode child mem root d g) (hq : q.length ≤ d) :
    descend child (update mem g node) root q = descend child mem root q := by
  apply descend_congr
  intro r j hr f hf
  have hlen := hr.length_le
  rw [length_append, length_singleton] at hlen
  have hne : f ≠ g := by
    rintro rfl
    exact hg ⟨r, by omega, hf⟩
  rw [update_of_ne hne]

theorem isNode_update (hg : ¬IsNode child mem root d g) :
    IsNode child (update mem g node) root d f ↔ IsNode child mem root d f := by
  constructor <;> rintro ⟨q, hq, hf⟩
  · exact ⟨q, hq, by rwa [descend_update hg hq] at hf⟩
  · exact ⟨q, hq, by rwa [descend_update hg hq]⟩

theorem IsTree.update (ht : IsTree child mem root d) (hg : ¬IsNode child mem root d g) :
    IsTree child (update mem g node) root d := by
  intro q r f hq hr hfq hfr
  rw [descend_update hg hq] at hfq
  rw [descend_update hg hr] at hfr
  exact ht q r f hq hr hfq hfr

theorem wordAt_update (hg : ¬IsNode child mem root d g) (hq : q.length ≤ d) :
    wordAt child (update mem g node) root q i = wordAt child mem root q i := by
  rw [wordAt, descend_update hg hq, wordAt]
  cases hf : descend child mem root q with
  | none => rfl
  | some f =>
    have hne : f ≠ g := by
      rintro rfl
      exact hg ⟨q, hq, hf⟩
    rw [map_some, map_some, update_of_ne hne]

end Outside

variable [DecidableEq I]

def setWord (mem : F → I → W) (f : F) (i : I) (w : W) : F → I → W :=
  update mem f (update (mem f) i w)

theorem setWord_self (mem : F → I → W) (f : F) (i : I) (w : W) : setWord mem f i w f i = w := by
  rw [setWord, update_self, update_self]

theorem setWord_of_ne {w : W} (h : g ≠ f ∨ j ≠ i) : setWord mem f i w g j = mem g j := by
  rw [setWord]
  by_cases hg : g = f
  · subst hg
    rw [update_self, update_of_ne (h.resolve_left fun hne => hne rfl)]
  · rw [update_of_ne hg]

section Leaf

variable {w : W}

section

variable (ht : IsTree child mem root d) (hp : p.length = d) (hf : descend child mem root p = some f)
include ht hp hf

theorem IsTree.descend_setLeaf (hq : q.length ≤ d) :
    descend child (setWord mem f i w) root q = descend child mem root q := by
  apply descend_congr
  intro r j hr g hg
  have hlen := hr.length_le
  rw [length_append, length_singleton] at hlen
  apply setWord_of_ne
  left
  rintro rfl
  have := congrArg List.length (ht p r g (by omega) (by omega) hf hg)
  omega

theorem IsTree.setLeaf : IsTree child (setWord mem f i w) root d := by
  intro q r g hq hr hgq hgr
  rw [ht.descend_setLeaf hp hf hq] at hgq
  rw [ht.descend_setLeaf hp hf hr] at hgr
  exact ht q r g hq hr hgq hgr

theorem IsTree.isNode_setLeaf :
    IsNode child (setWord mem f i w) root d g ↔ IsNode child mem root d g := by
  constructor <;> rintro ⟨q, hq, hg⟩
  · exact ⟨q, hq, by rwa [ht.descend_setLeaf hp hf hq] at hg⟩
  · exact ⟨q, hq, by rwa [ht.descend_setLeaf hp hf hq]⟩

theorem IsTree.wordAt_setLeaf (hq : q.length ≤ d) : wordAt child (setWord mem f i w) root q j =
      if q = p ∧ j = i then some w else wordAt child mem root q j := by
  rw [wordAt, ht.descend_setLeaf hp hf hq, wordAt]
  split
  · rename_i h
    obtain ⟨rfl, rfl⟩ := h
    rw [hf, map_some, setWord_self]
  · rename_i h
    cases hg : descend child mem root q with
    | none => rfl
    | some g =>
      rw [map_some, map_some, setWord_of_ne]
      by_cases hgf : g = f
      · subst hgf
        exact Or.inr fun hij => h ⟨ht q p g hq (by omega) hg hf, hij⟩
      · exact Or.inl hgf

end

end Leaf

section Link

variable {blank : I → W} {w : W}

/-- Link a blank node `g` into the word `i` of the node `f`. -/
def link (mem : F → I → W) (f : F) (i : I) (w : W) (g : F) (blank : I → W) : F → I → W :=
  setWord (update mem g blank) f i w

theorem link_new (hgf : g ≠ f) : link mem f i w g blank g = blank := by
  rw [link, setWord, update_of_ne hgf, update_self]

theorem link_of_ne {h : F} (hg : h ≠ g) (hij : h ≠ f ∨ j ≠ i) :
    link mem f i w g blank h j = mem h j := by
  rw [link, setWord_of_ne hij, update_of_ne hg]

theorem link_self (mem : F → I → W) (f : F) (i : I) (w : W) (g : F) (blank : I → W) :
    link mem f i w g blank f i = w :=
  setWord_self _ _ _ _

structure Linkable (child : W → Option F) (mem : F → I → W) (root : F) (d : Nat) (p : List I)
    (f : F) (i : I) (w : W) (g : F) (blank : I → W) : Prop where
  tree : IsTree child mem root d
  above : p.length < d
  at_path : descend child mem root p = some f
  empty : child (mem f i) = none
  fresh : ¬IsNode child mem root d g
  leads : child w = some g
  childless : ∀ j, child (blank j) = none

namespace Linkable

omit [DecidableEq F] [DecidableEq I] in
theorem ne_new (h : Linkable child mem root d p f i w g blank) {a : F} (hq : q.length ≤ d)
    (ha : descend child mem root q = some a) : a ≠ g := by
  rintro rfl
  exact h.fresh ⟨q, hq, ha⟩

theorem descend_link (h : Linkable child mem root d p f i w g blank) (hq : q.length ≤ d) :
    descend child (link mem f i w g blank) root q =
      if q = p ++ [i] then some g else descend child mem root q := by
  have hpd := h.above
  have hfg := h.ne_new (by omega) h.at_path
  induction q using List.reverseRecOn with
  | nil => simp [descend]
  | append_singleton q j ih =>
    rw [length_append, length_singleton] at hq
    rw [descend_snoc, ih (by omega), descend_snoc]
    by_cases hqp : q = p ++ [i]
    · -- below the new node there is nothing, and there was nothing before
      have hold : descend child mem root q = none := by
        rw [hqp, descend_snoc, h.at_path, bind_some, h.empty]
      have hne : q ++ [j] ≠ p ++ [i] := by
        intro heq
        have := congrArg List.length heq
        rw [hqp] at this
        simp at this
      rw [if_pos hqp, if_neg hne, hold, bind_some, link_new hfg.symm, h.childless]
      rfl
    · rw [if_neg hqp]
      cases ha : descend child mem root q with
      | none =>
        have hne : q ++ [j] ≠ p ++ [i] := by
          intro heq
          obtain ⟨rfl, -⟩ := append_singleton_inj.mp heq
          rw [h.at_path] at ha
          cases ha
        rw [if_neg hne]
        rfl
      | some a =>
        have hag := h.ne_new (by omega) ha
        rw [bind_some, bind_some]
        by_cases hslot : a = f ∧ j = i
        · obtain ⟨rfl, rfl⟩ := hslot
          have hqp' : q = p := h.tree q p a (by omega) (by omega) ha h.at_path
          rw [if_pos (by rw [hqp']), link_self, h.leads]
        · have hne : q ++ [j] ≠ p ++ [i] := by
            intro heq
            obtain ⟨rfl, rfl⟩ := append_singleton_inj.mp heq
            rw [h.at_path] at ha
            exact hslot ⟨(some.inj ha).symm, rfl⟩
          rw [if_neg hne, link_of_ne hag (not_and_or.mp hslot)]

theorem isTree (h : Linkable child mem root d p f i w g blank) :
    IsTree child (link mem f i w g blank) root d := by
  intro q r a hq hr haq har
  rw [h.descend_link hq] at haq
  rw [h.descend_link hr] at har
  split at haq <;> split at har
  · simp_all
  · obtain rfl := some.inj haq
    exact absurd rfl (h.ne_new hr har)
  · obtain rfl := some.inj har
    exact absurd rfl (h.ne_new hq haq)
  · exact h.tree q r a hq hr haq har

theorem isNode (h : Linkable child mem root d p f i w g blank) {a : F}
    (ha : IsNode child (link mem f i w g blank) root d a) :
    a = g ∨ IsNode child mem root d a := by
  obtain ⟨q, hq, haq⟩ := ha
  rw [h.descend_link hq] at haq
  split at haq
  · exact Or.inl (some.inj haq).symm
  · exact Or.inr ⟨q, hq, haq⟩

theorem wordAt_link (h : Linkable child mem root d p f i w g blank) (hq : q.length = d) :
    wordAt child (link mem f i w g blank) root q j =
      if q = p ++ [i] then some (blank j) else wordAt child mem root q j := by
  have hpd := h.above
  have hfg := h.ne_new (by omega) h.at_path
  rw [wordAt, h.descend_link (by omega), wordAt]
  split
  · rw [map_some, link_new hfg.symm]
  · cases ha : descend child mem root q with
    | none => rfl
    | some a =>
      have haf : a ≠ f := by
        rintro rfl
        have := congrArg List.length (h.tree q p a (by omega) (by omega) ha h.at_path)
        omega
      rw [map_some, map_some, link_of_ne (h.ne_new (by omega) ha) (Or.inl haf)]

end Linkable

end Link

end EafitOs.Foundation
