import EafitOs.Foundation.Panics
import EafitOs.Memory.Exec

/-!
# What the page-table functions do to the leaf entries

One specification for each function, in terms of looking up an entry. Only `freewalk`
panics with "freewalk: leaf".
-/

namespace EafitOs.Memory

open Foundation List

def NotLeaf (e : String) : Prop := e ≠ "freewalk: leaf"

instance (e : String) : Decidable (NotLeaf e) := inferInstanceAs (Decidable (e ≠ _))

theorem kfree_pt (m : Mem) (f : Frame) : Ends (m.kfree f) (fun _ => True) NotLeaf := by
  simp only [Mem.kfree]
  split
  · exact .error (by decide)
  · exact .ok trivial

theorem vpn_div (va : Nat) : vpn va / 512 = va / 2 ^ 21 := by
  simp only [vpn, pgsize]
  omega

theorem vpn_pgrounddown (va : Nat) : vpn (pgrounddown va) = vpn va := by
  simp only [vpn, pgrounddown, pgsize]
  omega

theorem pgrounddown_mod (va : Nat) : pgrounddown va % pgsize = 0 := by
  simp [pgrounddown]

namespace PageTable

variable (pt : PageTable) (i j : Nat) (f : Frame) (e : Pte)

@[simp] theorem addLow_leaf : (pt.addLow i f).leaf = pt.leaf := by
  simp only [addLow]
  split <;> rfl

theorem setLeaf_leaf (h : i / 512 ∈ pt.low) : (pt.setLeaf i e).leaf = pt.leaf.insert i e := by
  simp [setLeaf, h]

@[simp] theorem eraseLeaf_leaf : (pt.eraseLeaf i).leaf = pt.leaf.erase i := rfl

theorem lookup_eraseLeaf : (pt.eraseLeaf i).leaf.lookup j =
    if j = i then none else pt.leaf.lookup j := by
  split
  · rename_i h
    rw [h, eraseLeaf_leaf, AList.lookup_erase]
  · rename_i h
    rw [eraseLeaf_leaf, AList.lookup_erase_ne h]

end PageTable

theorem walkMid_leaf {v v' : Vm} {va : Nat} (h : walkMid v va = some v') :
    v'.pt.leaf = v.pt.leaf ∧ va / 2 ^ 30 ∈ v'.pt.mid := by
  simp only [walkMid] at h
  split at h
  · cases h
    exact ⟨rfl, ‹_›⟩
  · obtain ⟨⟨f, m⟩, _, rfl⟩ := Option.map_eq_some_iff.mp h
    exact ⟨rfl, by simp [PageTable.addMid]⟩

theorem walkLow_leaf {v v' : Vm} {va : Nat} (h : walkLow v va = some v')
    (hmid : va / 2 ^ 30 ∈ v.pt.mid) :
    v'.pt.leaf = v.pt.leaf ∧ va / 2 ^ 21 ∈ v'.pt.low := by
  simp only [walkLow] at h
  split at h
  · cases h
    exact ⟨rfl, ‹_›⟩
  · obtain ⟨⟨f, m⟩, _, rfl⟩ := Option.map_eq_some_iff.mp h
    have hdiv : va / 2 ^ 21 / 512 = va / 2 ^ 30 := by omega
    refine ⟨PageTable.addLow_leaf _ _ _, ?_⟩
    rw [← hdiv] at hmid
    simp only [PageTable.addLow, dif_pos hmid]
    exact (AList.mem_insert _).mpr (Or.inl rfl)

theorem walkAlloc_leaf (v : Vm) (va : Nat) :
    Ends (walkAlloc v va) (fun r => r.2.pt.leaf = v.pt.leaf ∧ va < maxva ∧
      (r.1 = true → va / 2 ^ 21 ∈ r.2.pt.low)) NotLeaf := by
  simp only [walkAlloc]
  split
  · exact .error (by decide)
  · rename_i hva
    split
    · exact .ok ⟨rfl, by omega, by simp⟩
    · rename_i v₁ h₁
      obtain ⟨hleaf₁, hmid⟩ := walkMid_leaf h₁
      split
      · exact .ok ⟨hleaf₁, by omega, by simp⟩
      · rename_i v₂ h₂
        obtain ⟨hleaf₂, hlow⟩ := walkLow_leaf h₂ hmid
        exact .ok ⟨hleaf₂.trans hleaf₁, by omega, fun _ => hlow⟩

theorem mappages_leaf (v : Vm) (va : Nat) (f : Frame) (perm : Perm) :
    Ends (mappages v va pgsize f perm) (fun r => va % pgsize = 0 ∧ va < maxva ∧
      if r.1 then vpn va ∉ v.pt.leaf ∧ r.2.pt.leaf = v.pt.leaf.insert (vpn va) ⟨f, perm⟩
      else r.2.pt.leaf = v.pt.leaf) NotLeaf := by
  have hone : pgsize / pgsize = 1 := by decide
  simp only [mappages, hone]
  split
  · exact .error (by decide)
  · rename_i hva
    split
    · exact .error (by decide)
    · split
      · exact .error (by decide)
      · simp only [mapLoop]
        refine (walkAlloc_leaf v va).bind ?_
        rintro ⟨ok, v'⟩ ⟨hleaf, hmax, hlow⟩
        cases ok with
        | false => exact .ok ⟨by omega, hmax, hleaf⟩
        | true =>
          simp only [Bool.not_true, Bool.false_eq_true, if_false]
          split
          · exact .error (by decide)
          · rename_i hnot
            refine .ok ⟨by omega, hmax, ?_⟩
            simp only [if_true]
            rw [PageTable.setLeaf_leaf _ _ _ (vpn_div va ▸ hlow rfl), hleaf]
            exact ⟨hleaf ▸ hnot, rfl⟩

theorem unmapPage_leaf (doFree : Bool) (v : Vm) (a : Nat) :
    Ends (unmapPage doFree v a) (fun v' => ∀ i, v'.pt.leaf.lookup i =
      if i = vpn a then none else v.pt.leaf.lookup i) NotLeaf := by
  simp only [unmapPage, PageTable.walk]
  split
  · exact .error (by decide)
  · refine Ends.bind (Ends.ok (Q := fun e => e = v.pt.leaf.lookup (vpn a)) rfl) ?_
    intro e he
    cases e with
    | none =>
      refine .ok fun i => ?_
      split
      · rename_i hi
        rw [hi, ← he]
      · rfl
    | some e =>
      refine Ends.bind (Q := fun _ => True) ?_ fun m _ => ?_
      · simp only [freeIf]
        split
        · exact kfree_pt _ _
        · exact .ok trivial
      · exact .ok fun i => PageTable.lookup_eraseLeaf _ _ _

theorem unmapPages_leaf (doFree : Bool) (as : List Nat) (v : Vm) :
    Ends (as.foldlM (unmapPage doFree) v) (fun v' => ∀ i, v'.pt.leaf.lookup i =
      if i ∈ as.map vpn then none else v.pt.leaf.lookup i) NotLeaf := by
  induction as generalizing v with
  | nil => exact .ok (fun i => by simp)
  | cons a rest ih =>
    rw [foldlM_cons]
    refine (unmapPage_leaf doFree v a).bind fun v' hv' => ?_
    refine (ih v').imp fun v'' hv'' i => ?_
    simp only [hv'' i, hv' i, map_cons, mem_cons]
    by_cases hi : i ∈ rest.map vpn <;> by_cases ha : i = vpn a <;> simp [hi, ha]

theorem mem_pages {va stop i : Nat} (hva : va % pgsize = 0) :
    i ∈ (pages va stop).map vpn ↔ vpn va ≤ i ∧ i * pgsize < stop := by
  simp only [pages, map_map, mem_map, mem_range, Function.comp_apply, vpn, pgsize]
    at hva ⊢
  constructor
  · rintro ⟨n, hn, rfl⟩
    omega
  · rintro ⟨h1, h2⟩
    exact ⟨i - va / 4096, by omega, by omega⟩

theorem uvmunmap_leaf (v : Vm) (va npages : Nat) (doFree : Bool)
    (hwrap : va + npages * pgsize < 2 ^ 64) :
    Ends (uvmunmap v va npages doFree) (fun v' => ∀ i, v'.pt.leaf.lookup i =
      if vpn va ≤ i ∧ i < vpn va + npages then none else v.pt.leaf.lookup i) NotLeaf := by
  simp only [uvmunmap, Nat.mod_eq_of_lt hwrap]
  split
  · exact .error (by decide)
  · rename_i hva
    have hva' : va % pgsize = 0 := by omega
    refine (unmapPages_leaf doFree _ v).imp fun v' hv' i => ?_
    have hrange : i ∈ (pages va (va + npages * pgsize)).map vpn ↔
        vpn va ≤ i ∧ i < vpn va + npages := by
      rw [mem_pages hva']
      simp only [vpn, pgsize] at hva' ⊢
      omega
    simp only [hv' i, hrange]

end EafitOs.Memory
