import Mathlib.Algebra.BigOperators.Group.Finset.Piecewise
import Mathlib.Algebra.Order.Group.Multiset
import Mathlib.Data.List.AList

/-!
# What a table holds

The values of a finite map, as a multiset: adding and removing a key are one addition
each. A loop over all possible keys meets each value once.
-/

namespace EafitOs.Foundation

open Function AList Finset

section Values

variable {κ α : Type*} [DecidableEq κ]

def values (l : AList fun _ : κ => α) : Multiset α := (l.entries.map Sigma.snd : List α)

variable {l l' : AList fun _ : κ => α} {i j : κ} {x : α}

omit [DecidableEq κ] in
@[simp] theorem values_empty : values (∅ : AList fun _ : κ => α) = 0 := rfl

theorem values_congr (h : ∀ i, l.lookup i = l'.lookup i) : values l = values l' := by
  have hperm : l.entries.Perm l'.entries :=
    List.lookup_ext l.nodupKeys l'.nodupKeys fun i x => (congrArg (x ∈ ·) (h i)).to_iff
  exact Multiset.coe_eq_coe.mpr (hperm.map _)

theorem values_insert (h : i ∉ l) : values (l.insert i x) = x ::ₘ values l := by
  rw [values, entries_insert_of_notMem h]
  rfl

theorem values_erase (h : l.lookup i = some x) : values l = x ::ₘ values (l.erase i) := by
  have hnot : i ∉ l.erase i := fun hmem => (mem_erase.mp hmem).1 rfl
  rw [← values_insert hnot]
  apply values_congr
  intro j
  by_cases hj : j = i
  · subst hj
    rw [lookup_insert, h]
  · rw [lookup_insert_ne hj, lookup_erase_ne hj]

theorem values_replace (l : AList fun _ : κ => α) (i : κ) (x : α) :
    values (l.insert i x) = x ::ₘ values (l.erase i) := by
  have hmissing : i ∉ l.erase i := fun h => (mem_erase.mp h).1 rfl
  rw [← values_insert hmissing]
  refine values_congr fun j => ?_
  by_cases hj : j = i
  · rw [hj, lookup_insert, lookup_insert]
  · rw [lookup_insert_ne hj, lookup_insert_ne hj, lookup_erase_ne hj]

omit [DecidableEq κ] in
theorem length_le_card_values (ks : List κ) (hn : ks.Nodup) (h : ∀ i ∈ ks, i ∈ l) :
    ks.length ≤ (values l).card := by
  have hle := (hn.subperm h).length_le
  rw [values, Multiset.coe_card, List.length_map]
  rwa [keys, List.keys, List.length_map] at hle

theorem mem_values : x ∈ values l ↔ ∃ i, l.lookup i = some x := by
  rw [values, Multiset.mem_coe, List.mem_map]
  constructor
  · rintro ⟨⟨i, y⟩, hmem, rfl⟩
    exact ⟨i, mem_lookup_iff.mpr hmem⟩
  · rintro ⟨i, hi⟩
    exact ⟨⟨i, x⟩, mem_lookup_iff.mp hi, rfl⟩

theorem mem_values_of_lookup (h : l.lookup i = some x) : x ∈ values l := mem_values.mpr ⟨i, h⟩

theorem key_unique {β : Type*} {f : α → β} {y : α} (hnodup : ((values l).map f).Nodup)
    (hi : l.lookup i = some x) (hj : l.lookup j = some y) (hxy : f x = f y) : i = j := by
  by_contra hne
  rw [values_erase hi, Multiset.map_cons, Multiset.nodup_cons] at hnodup
  refine hnodup.1 (Multiset.mem_map.mpr ⟨y, mem_values_of_lookup (i := j) ?_, hxy.symm⟩)
  rw [lookup_erase_ne (Ne.symm hne), hj]

end Values

section Holdings

variable {α : Type*}

@[irreducible]
def holdings (n : Nat) (f : Nat → Option α) : Multiset α :=
  ∑ i ∈ range n, ((f i).toList : Multiset α)

variable {n a : Nat} {f : Nat → Option α} {x : α}

theorem holdings_put (ha : a < n) (hf : f a = none) :
    holdings n (update f a (some x)) = x ::ₘ holdings n f := by
  have hmem : a ∈ range n := mem_range.mpr ha
  have hrest : ∑ i ∈ (range n).erase a, ((update f a (some x) i).toList :
      Multiset α) = ∑ i ∈ (range n).erase a, ((f i).toList : Multiset α) :=
    sum_congr rfl fun i hi => by rw [update_of_ne (ne_of_mem_erase hi)]
  rw [holdings, holdings, ← add_sum_erase _ _ hmem, ← add_sum_erase _ _ hmem, hrest,
    update_self, hf]
  simp

theorem holdings_mul (m n : Nat) (f : Nat → Option α) :
    ∑ i ∈ range m, holdings n (fun k => f (i * n + k)) = holdings (m * n) f := by
  induction m with
  | zero => simp [holdings]
  | succ m ih =>
    rw [sum_range_succ, ih, Nat.succ_mul, holdings, holdings, holdings,
      sum_range_add]

theorem values_eq_holdings (l : AList fun _ : Nat => α) (h : ∀ i ∈ l, i < n) :
    values l = holdings n fun i => l.lookup i := by
  induction l using insertRec with
  | H0 => simp [holdings]
  | IH i x l hi ih =>
    have hupdate : (fun j => (l.insert i x).lookup j) =
        update (fun j => l.lookup j) i (some x) := by
      funext j
      by_cases hj : j = i
      · subst hj
        rw [lookup_insert, update_self]
      · rw [lookup_insert_ne hj, update_of_ne hj]
    have hrest := ih fun j hj => h j ((mem_insert _).mpr (Or.inr hj))
    rw [values_insert hi, hrest, hupdate,
      holdings_put (h i ((mem_insert _).mpr (Or.inl rfl))) (lookup_eq_none.mpr hi)]

end Holdings

end EafitOs.Foundation
