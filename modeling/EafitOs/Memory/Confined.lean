import Mathlib.Tactic.NormNum
import Mathlib.Tactic.Ring
import EafitOs.Memory.Entries
import EafitOs.Memory.Layout

/-!
# Page tables confined to a size

`proc_freepagetable` removes the pages below `p->sz` and then expects to find no other
leaf but the two it has removed before. Growing, shrinking, copying and loading an
image keep every leaf below the size they return.
-/

namespace EafitOs.Memory

open Foundation List AList

def npg (sz : Nat) : Nat := pgroundup sz / pgsize

/-- Every leaf but the trampoline and the trapframe is one of the first `n` pages. -/
def Confined (pt : PageTable) (n : Nat) : Prop :=
  ∀ i ∈ pt.leaf, i = vpn trampoline ∨ i = vpn trapframe ∨ i < n

theorem Confined.mono {pt : PageTable} {n m : Nat} (h : Confined pt n) (hnm : n ≤ m) :
    Confined pt m := by
  intro i hi
  have := h i hi
  omega

theorem Confined.of_lookup {pt pt' : PageTable} {n m : Nat} {c : Nat → Prop} [DecidablePred c]
    (h : Confined pt n)
    (hpt : ∀ i, pt'.leaf.lookup i = if c i then none else pt.leaf.lookup i)
    (hm : ∀ i, ¬c i → i < n → i < m) : Confined pt' m := by
  intro i hi
  have hsome := lookup_isSome.mpr hi
  rw [hpt i] at hsome
  split at hsome
  · simp at hsome
  · rename_i hc
    have := h i (lookup_isSome.mp hsome)
    have := hm i hc
    omega

theorem Confined.insert {pt pt' : PageTable} {n j : Nat} {e : Pte} (h : Confined pt n)
    (hj : j < n) (hpt : pt'.leaf = pt.leaf.insert j e) : Confined pt' n := by
  intro i hi
  rw [hpt, mem_insert] at hi
  rcases hi with rfl | hi
  · exact Or.inr (Or.inr hj)
  · exact h i hi

theorem Confined.of_leaf {pt pt' : PageTable} {n : Nat} (h : Confined pt n)
    (hpt : pt'.leaf = pt.leaf) : Confined pt' n := by
  intro i hi
  exact h i (hpt ▸ hi)

theorem npg_mul (sz : Nat) : npg sz * pgsize = pgroundup sz := by
  have := pgroundup_mod sz
  simp only [npg, pgsize] at this ⊢
  omega

theorem npg_of_aligned {a : Nat} (ha : a % pgsize = 0) (hle : a ≤ maxva) : npg a = vpn a := by
  simp only [npg, pgroundup, vpn, maxva, pgsize] at ha hle ⊢
  omega

theorem special_not_lt {sz i : Nat} (hsz : sz ≤ trapframe)
    (hi : i = vpn trampoline ∨ i = vpn trapframe) : ¬i < npg sz := by
  have hround := pgroundup_of_le hsz
  have hmul := npg_mul sz
  rcases hi with rfl | rfl <;>
    simp only [vpn, trapframe, trampoline, maxva, pgsize] at hround hmul ⊢ <;> omega

theorem throughInt_of_lt {n : Nat} (h : n < 2147483648) : throughInt n = n := by
  have hb : (n : Int).bmod 4294967296 = n := by
    rw [Int.bmod_eq_of_le] <;> norm_num
    omega
  have hm : (n : Int) % 18446744073709551616 = n := by omega
  show ((n : Int).bmod 4294967296 % 18446744073709551616).toNat = n
  rw [hb, hm, Int.toNat_natCast]

theorem throughInt_npg {oldsz newsz : Nat} (h : pgroundup oldsz ≤ maxva) :
    throughInt ((pgroundup oldsz - pgroundup newsz) / pgsize) = npg oldsz - npg newsz := by
  have hmul := npg_mul oldsz
  have hmul' := npg_mul newsz
  have hdiff : (pgroundup oldsz - pgroundup newsz) / pgsize = npg oldsz - npg newsz := by
    simp only [pgsize] at hmul hmul' ⊢
    omega
  rw [hdiff, throughInt_of_lt]
  simp only [maxva, pgsize] at h hmul
  omega

theorem mapFilled_confined {v : Vm} {n va : Nat} {d : Page} {perm : Perm} (h : Confined v.pt n)
    (hva : vpn va < n) :
    Ends (mapFilled v va d perm) (fun r => Confined r.2.pt n) NotLeaf := by
  simp only [mapFilled]
  split
  · exact .ok h
  · refine (mappages_leaf _ _ _ _).bind ?_
    rintro ⟨ok, v'⟩ ⟨_, _, hr⟩
    cases ok with
    | true => exact .ok (h.insert hva hr.2)
    | false => exact (kfree_pt _ _).bind fun _ _ => .ok (h.of_leaf hr)

theorem uvmdealloc_confined {v : Vm} {oldsz newsz : Nat} (hold : oldsz ≤ trapframe)
    (h : Confined v.pt (npg oldsz)) :
    Ends (uvmdealloc v oldsz newsz) (fun r => Confined r.2.pt (npg (min oldsz newsz)))
      NotLeaf := by
  simp only [uvmdealloc]
  split
  · rename_i hle
    rw [Nat.min_eq_left hle]
    exact .ok h
  · rename_i hlt
    have htop := pgroundup_of_le hold
    rw [Nat.min_eq_right (by omega)]
    split
    · rename_i hpg
      have hmul := npg_mul oldsz
      have hmul' := npg_mul newsz
      have hvpn : vpn (pgroundup newsz) = npg newsz := rfl
      rw [throughInt_npg (htop.2.1.trans (by decide))]
      have hwrap : pgroundup newsz + (npg oldsz - npg newsz) * pgsize < 2 ^ 64 := by
        simp only [trapframe, trampoline, maxva, pgsize] at htop hmul hmul' ⊢
        omega
      refine (uvmunmap_leaf v _ _ true hwrap).bind fun v' hv' => Ends.ok ?_
      refine h.of_lookup hv' fun i hi hin => ?_
      rw [hvpn] at hi
      show i < npg newsz
      omega
    · refine .ok (h.mono ?_)
      show npg oldsz ≤ npg newsz
      have hmul := npg_mul oldsz
      have hmul' := npg_mul newsz
      simp only [pgsize] at hmul hmul'
      omega

theorem pages_eq (a stop : Nat) : pages a stop =
    (range ((stop - a + (pgsize - 1)) / pgsize)).map fun i => a + i * pgsize := rfl

theorem range_map_succ (a n : Nat) : ((range (n + 1)).map fun i => a + i * pgsize) =
    a :: (range n).map fun i => a + pgsize + i * pgsize := by
  rw [range_succ_eq_map, map_cons, map_map, Nat.zero_mul, Nat.add_zero]
  congr 1
  apply map_congr_left
  intro i _
  simp only [Function.comp_apply, Nat.succ_eq_add_one]
  ring

/-- The loop of `uvmalloc` fills consecutive pages from `a` on, or takes back all it
has mapped since `oldsz`. Where the trapframe is mapped, the loop panics before it. -/
theorem allocLoop_confined (perm : Perm) {oldsz : Nat} (hal : oldsz % pgsize = 0) (n : Nat) :
    ∀ {a : Nat} {v : Vm}, a % pgsize = 0 → oldsz ≤ a → a ≤ trapframe →
      Confined v.pt (a / pgsize) →
      (vpn trapframe ∈ v.pt.leaf ∨ a + n * pgsize ≤ trapframe) →
      Ends (allocLoop perm oldsz ((range n).map fun i => a + i * pgsize) v) (fun r =>
        if r.1 then Confined r.2.pt (a / pgsize + n) ∧ a + n * pgsize ≤ trapframe ∧
          (vpn trapframe ∈ v.pt.leaf → vpn trapframe ∈ r.2.pt.leaf)
        else Confined r.2.pt (oldsz / pgsize)) NotLeaf := by
  have hback : ∀ {a : Nat} {v : Vm}, a % pgsize = 0 → oldsz ≤ a → a ≤ trapframe →
      Confined v.pt (a / pgsize) →
      Ends (uvmdealloc v a oldsz) (fun r => Confined r.2.pt (oldsz / pgsize)) NotLeaf := by
    intro a v ha0 hle htop hc
    have hmax : a ≤ maxva := htop.trans (by decide)
    have hdealloc := @uvmdealloc_confined v a oldsz htop ((npg_of_aligned ha0 hmax).symm ▸ hc)
    rwa [Nat.min_eq_right hle, npg_of_aligned hal (hle.trans hmax)] at hdealloc
  induction n with
  | zero =>
    intro a v _ _ htop hc _
    exact .ok ⟨hc, by simpa using htop, id⟩
  | succ n ih =>
    intro a v ha0 hle htop hc hT
    rw [range_map_succ, allocLoop]
    split
    · exact (hback ha0 hle htop hc).bind fun _ h => .ok h
    · refine (mappages_leaf _ _ _ _).bind ?_
      rintro ⟨ok, v'⟩ ⟨_, _, hr⟩
      cases ok with
      | false =>
        refine (kfree_pt _ _).bind fun m _ => ?_
        exact (hback (v := ⟨m, v'.pt⟩) ha0 hle htop (hc.of_leaf hr)).bind fun _ h => .ok h
      | true =>
        obtain ⟨hnot, hleaf⟩ := hr
        have hne : vpn trapframe ∈ v.pt.leaf → a ≠ trapframe := by
          rintro hmem rfl
          exact hnot hmem
        have hnext : a + pgsize ≤ trapframe := by
          rcases hT with hT | hT
          · have := hne hT
            simp only [trapframe, trampoline, maxva, pgsize] at htop ha0 this ⊢
            omega
          · have : a + pgsize ≤ a + (n + 1) * pgsize := by
              rw [Nat.add_mul]
              omega
            omega
        have hdiv : (a + pgsize) / pgsize = a / pgsize + 1 := by
          simp only [pgsize]
          omega
        have hc' : Confined v'.pt ((a + pgsize) / pgsize) :=
          (hc.mono (by omega)).insert (j := vpn a) (by rw [hdiv, vpn]; omega) hleaf
        have hT' : vpn trapframe ∈ v.pt.leaf → vpn trapframe ∈ v'.pt.leaf := by
          intro hmem
          rw [hleaf, mem_insert]
          exact Or.inr hmem
        refine (ih (a := a + pgsize) (v := v') ?_ (by omega) hnext hc' ?_).imp ?_
        · simp only [pgsize] at ha0 ⊢
          omega
        · rcases hT with hT | hT
          · exact Or.inl (hT' hT)
          · right
            rw [Nat.add_mul] at hT
            omega
        · rintro ⟨ok, v''⟩ hr
          cases ok with
          | false => exact hr
          | true =>
            obtain ⟨h1, h2, h3⟩ := hr
            refine ⟨?_, ?_, fun hmem => h3 (hT' hmem)⟩
            · exact h1.mono (by omega)
            · rw [Nat.add_mul]
              omega

theorem uvmalloc_confined {v : Vm} {oldsz newsz : Nat} (w x : Bool) (hold : oldsz ≤ trapframe)
    (h : Confined v.pt (npg oldsz)) (hT : vpn trapframe ∈ v.pt.leaf ∨ newsz ≤ trapframe) :
    Ends (uvmalloc v oldsz newsz w x) (fun r =>
      if r.1 = 0 then Confined r.2.pt (npg oldsz)
      else Confined r.2.pt (npg r.1) ∧ r.1 ≤ trapframe ∧
        (vpn trapframe ∈ v.pt.leaf → vpn trapframe ∈ r.2.pt.leaf)) NotLeaf := by
  simp only [uvmalloc]
  split
  · rename_i hlt
    refine .ok ?_
    show if oldsz = 0 then _ else _
    rw [if_neg (by omega)]
    exact ⟨h, hold, id⟩
  · rename_i hle
    obtain ⟨h1, h2, h3⟩ := pgroundup_of_le hold
    have hround : pgroundup oldsz / pgsize = npg oldsz := rfl
    rw [pages_eq]
    -- The pages of the loop end with the rounded new size.
    have hend : ∀ n, n = (newsz - pgroundup oldsz + (pgsize - 1)) / pgsize →
        (newsz ≤ trapframe → pgroundup oldsz + n * pgsize ≤ trapframe) ∧
        (pgroundup oldsz + n * pgsize ≤ trapframe → newsz ≤ trapframe ∧
          npg oldsz + n = npg newsz) := by
      intro n hn
      simp only [npg, pgroundup, trapframe, trampoline, maxva, pgsize] at hn hold h1 h2 h3 ⊢
      omega
    generalize hn : (newsz - pgroundup oldsz + (pgsize - 1)) / pgsize = n
    obtain ⟨hfit, hnew⟩ := hend n hn.symm
    refine (allocLoop_confined _ (pgroundup_mod oldsz) n (pgroundup_mod oldsz) (Nat.le_refl _) h2
      (hround.symm ▸ h) (hT.imp id hfit)).bind ?_
    rintro ⟨ok, v'⟩ hr
    cases ok with
    | false => exact .ok hr
    | true =>
      obtain ⟨hc, htop, hmem⟩ := hr
      obtain ⟨hle', hnpg⟩ := hnew htop
      rw [hround, hnpg] at hc
      refine .ok ?_
      show if newsz = 0 then _ else _
      split
      · rename_i h0
        subst h0
        have : oldsz = 0 := by omega
        rw [this]
        exact hc
      · exact ⟨hc, hle', hmem⟩

theorem freewalk_of_empty {v : Vm} (h : ∀ i, i ∉ v.pt.leaf) :
    Ends (freewalk v) (fun _ => True) NotLeaf := by
  have hlow : ∀ m i, Ends (freeLow v.pt m i) (fun _ => True) NotLeaf := by
    intro m i
    simp only [freeLow]
    generalize range 512 = entries
    split
    · exact .ok trivial
    · refine Ends.bind (Q := fun _ => True) ?_ fun m _ => kfree_pt m _
      refine Ends.foldlM (fun _ => True) trivial fun k _ m _ => ?_
      rw [lookup_eq_none.mpr (h _)]
      exact .ok trivial
  have hmid : ∀ m i, Ends (freeMid v.pt m i) (fun _ => True) NotLeaf := by
    intro m i
    simp only [freeMid]
    generalize range 512 = entries
    split
    · exact .ok trivial
    · refine Ends.bind (Q := fun _ => True) ?_ fun m _ => kfree_pt m _
      exact Ends.foldlM (fun _ => True) trivial fun k _ m _ => hlow m _
  unfold freewalk
  generalize range 512 = entries
  refine Ends.bind (Q := fun _ => True) ?_ fun m _ => kfree_pt m _
  exact Ends.foldlM (fun _ => True) trivial fun i _ m _ => hmid m i

theorem uvmfree_of_lt {v : Vm} {sz : Nat} (hsz : sz ≤ trapframe)
    (h : ∀ i ∈ v.pt.leaf, i < npg sz) : Ends (uvmfree v sz) (fun _ => True) NotLeaf := by
  have hunmap : Ends (unmapUser v sz) (fun v' => ∀ i, i ∉ v'.pt.leaf) NotLeaf := by
    simp only [unmapUser]
    split
    · have hwrap : 0 + npg sz * pgsize < 2 ^ 64 := by
        have hround := pgroundup_of_le hsz
        rw [npg_mul]
        simp only [trapframe, trampoline, maxva, pgsize] at hround
        omega
      refine (uvmunmap_leaf v 0 (npg sz) true hwrap).imp fun v' hv' i hi => ?_
      have hsome := lookup_isSome.mpr hi
      rw [hv' i] at hsome
      split at hsome
      · simp at hsome
      · rename_i hnot
        have hlt := h i (lookup_isSome.mp hsome)
        simp only [vpn, Nat.zero_div] at hnot
        omega
    · rename_i h0
      refine .ok fun i hi => ?_
      have hlt := h i hi
      have hz : sz = 0 := by omega
      rw [hz] at hlt
      exact absurd hlt (by simp [npg, pgroundup, pgsize])
  simp only [uvmfree]
  refine hunmap.bind ?_
  intro v' hv'
  exact freewalk_of_empty hv'

theorem trampoline_add : trampoline + 1 * pgsize < 2 ^ 64 := by decide

theorem trapframe_add : trapframe + 1 * pgsize < 2 ^ 64 := by decide

theorem procFreepagetable_confined {v : Vm} {sz : Nat} (hsz : sz ≤ trapframe)
    (h : Confined v.pt (npg sz)) : Ends (procFreepagetable v sz) (fun _ => True) NotLeaf := by
  refine (uvmunmap_leaf v trampoline 1 false trampoline_add).bind fun v₁ h₁ => ?_
  refine (uvmunmap_leaf v₁ trapframe 1 false trapframe_add).bind fun v₂ h₂ => ?_
  apply uvmfree_of_lt hsz
  intro i hi
  have hsome := lookup_isSome.mpr hi
  rw [h₂ i] at hsome
  split at hsome
  · simp at hsome
  · rename_i hn₂
    rw [h₁ i] at hsome
    split at hsome
    · simp at hsome
    · rename_i hn₁
      have := h i (lookup_isSome.mp hsome)
      omega

theorem procPagetable_confined (m : Mem) (tf : Frame) :
    Ends (procPagetable m tf) (fun r => ∀ v, r.1 = some v → Confined v.pt 0 ∧
      vpn trapframe ∈ v.pt.leaf) NotLeaf := by
  have hz : (0 : Nat) ≤ trapframe := Nat.zero_le _
  simp only [procPagetable]
  split
  · exact .ok (fun v hv => by cases hv)
  · rename_i v₀ hv₀
    have hempty : ∀ i, i ∉ v₀.pt.leaf := by
      obtain ⟨⟨f, m'⟩, _, rfl⟩ := Option.map_eq_some_iff.mp hv₀
      simp [PageTable.empty]
    refine (mappages_leaf _ _ _ _).bind ?_
    rintro ⟨ok, v₁⟩ ⟨_, _, h₁⟩
    cases ok with
    | false =>
      have hfree : Ends (uvmfree v₁ 0) (fun _ => True) NotLeaf := by
        refine uvmfree_of_lt hz fun i hi => ?_
        rw [show v₁.pt.leaf = v₀.pt.leaf from h₁] at hi
        exact absurd hi (hempty i)
      exact hfree.bind fun m _ => .ok fun v hv => by cases hv
    | true =>
      obtain ⟨_, hleaf₁⟩ := h₁
      simp only [mapTrapframe, if_true]
      refine (mappages_leaf _ _ _ _).bind ?_
      rintro ⟨ok, v₂⟩ ⟨_, _, h₂⟩
      cases ok with
      | true =>
        refine .ok fun v hv => ?_
        obtain rfl := Option.some.inj hv
        obtain ⟨_, hleaf₂⟩ := h₂
        refine ⟨?_, by rw [hleaf₂, mem_insert]; exact Or.inl rfl⟩
        intro i hi
        rw [hleaf₂, mem_insert, hleaf₁, mem_insert] at hi
        rcases hi with hi | hi | hi
        · exact Or.inr (Or.inl hi)
        · exact Or.inl hi
        · exact absurd hi (hempty i)
      | false =>
        refine (uvmunmap_leaf v₂ trampoline 1 false trampoline_add).bind fun v₃ h₃ => ?_
        have hfree : Ends (uvmfree v₃ 0) (fun _ => True) NotLeaf := by
          refine uvmfree_of_lt hz fun i hi => ?_
          have hsome := lookup_isSome.mpr hi
          rw [h₃ i] at hsome
          split at hsome
          · simp at hsome
          · rename_i hnot
            have hmem := lookup_isSome.mp hsome
            rw [show v₂.pt.leaf = v₁.pt.leaf from h₂, hleaf₁, mem_insert] at hmem
            rcases hmem with rfl | hmem
            · omega
            · exact absurd hmem (hempty i)
        exact hfree.bind fun m _ => .ok fun v hv => by cases hv

theorem copyPage_confined (old : PageTable) {v : Vm} {a : Nat} (h : Confined v.pt (a / pgsize)) :
    Ends (copyPage old v a) (fun r => Confined r.2.pt (if r.1 then a / pgsize + 1 else a / pgsize))
      NotLeaf := by
  have hmono : Confined v.pt (a / pgsize + 1) := h.mono (by omega)
  simp only [copyPage]
  split
  · exact .error (by decide)
  · split
    · exact .ok hmono
    · simp only [copyPte]
      split
      · exact .ok h
      · refine (mappages_leaf _ _ _ _).bind ?_
        rintro ⟨ok, v'⟩ ⟨_, _, hr⟩
        cases ok with
        | true => exact .ok (hmono.insert (Nat.lt_succ_self _) hr.2)
        | false => exact (kfree_pt _ _).bind fun _ _ => .ok (h.of_leaf hr)

theorem copyLoop_confined (old : PageTable) (n : Nat) : ∀ {a : Nat} {v : Vm},
    a % pgsize = 0 → a + n * pgsize ≤ trapframe → Confined v.pt (a / pgsize) →
    Ends (copyLoop old ((range n).map fun i => a + i * pgsize) v)
      (fun r => Confined r.2.pt (if r.1 then a / pgsize + n else 0)) NotLeaf := by
  induction n with
  | zero => exact fun _ _ h => .ok h
  | succ n ih =>
    intro a v ha htop h
    rw [Nat.add_mul] at htop
    rw [range_map_succ, copyLoop]
    refine (copyPage_confined old h).bind ?_
    rintro ⟨ok, v'⟩ hv'
    have hdiv : (a + pgsize) / pgsize = a / pgsize + 1 := by
      simp only [pgsize]
      omega
    cases ok with
    | true =>
      refine (ih (a := a + pgsize) (v := v') ?_ (by omega) (hdiv.symm ▸ hv')).imp ?_
      · simp only [pgsize] at ha ⊢
        omega
      · rintro ⟨ok, v''⟩ hr
        rw [hdiv] at hr
        cases ok with
        | true => exact hr.mono (by simp only [if_true]; omega)
        | false => exact hr
    | false =>
      have hwrap : 0 + a / pgsize * pgsize < 2 ^ 64 := by
        simp only [trapframe, trampoline, maxva, pgsize] at htop ⊢
        omega
      refine (uvmunmap_leaf v' 0 _ true hwrap).bind fun v'' hv'' => Ends.ok ?_
      refine hv'.of_lookup hv'' fun i hi hlt => ?_
      simp only [vpn, Nat.zero_div] at hi
      simp only [Bool.false_eq_true, if_false] at hlt
      omega

theorem uvmcopy_confined (old : PageTable) {v : Vm} {sz : Nat} (hsz : sz ≤ trapframe)
    (h : Confined v.pt 0) :
    Ends (uvmcopy old v sz) (fun r => Confined r.2.pt (if r.1 then npg sz else 0)) NotLeaf := by
  have hn : (sz - 0 + (pgsize - 1)) / pgsize = npg sz := by
    simp only [npg, pgroundup, trapframe, trampoline, maxva, pgsize] at hsz ⊢
    omega
  have htop : 0 + npg sz * pgsize ≤ trapframe := by
    rw [Nat.zero_add, npg_mul]
    exact (pgroundup_of_le hsz).2.1
  have hloop := copyLoop_confined old (npg sz) (a := 0) (v := v) rfl htop h
  simp only [uvmcopy, pages_eq, hn]
  simpa using hloop

theorem ismapped_notLeaf (pt : PageTable) (va : Nat) :
    Ends (ismapped pt va) (fun b => b = (pt.leaf.lookup (vpn va)).isSome ∧ va < maxva) NotLeaf := by
  simp only [ismapped, PageTable.walk]
  split
  · exact .error (by decide)
  · exact .ok ⟨rfl, by omega⟩

theorem vpn_lt_npg {va sz : Nat} (h : va < sz) (hsz : sz ≤ trapframe) : vpn va < npg sz := by
  simp only [vpn, npg, pgroundup, trapframe, trampoline, maxva, pgsize] at h hsz ⊢
  omega

section

variable {sz n : Nat} (hsz : sz ≤ trapframe) (hn : npg sz ≤ n)
include hsz hn

theorem vmfault_confined {v : Vm} {va : Nat} (h : Confined v.pt n) :
    Ends (vmfault v sz va) (fun r => Confined r.2.pt n) NotLeaf := by
  simp only [vmfault]
  split
  · exact .ok h
  · refine (ismapped_notLeaf _ _).bind fun mapped _ => ?_
    split
    · exact .ok h
    · refine mapFilled_confined h ?_
      have : vpn va < npg sz := vpn_lt_npg (by omega) hsz
      rw [vpn_pgrounddown]
      omega

theorem userFrame_confined {v : Vm} {va : Nat} (h : Confined v.pt n) :
    Ends (userFrame v sz va) (fun r => Confined r.2.pt n) NotLeaf := by
  simp only [userFrame]
  split
  · exact .ok h
  · exact vmfault_confined hsz hn h

theorem copyinLoop_confined (fuel : Nat) :
    ∀ {v : Vm} {srcva len : Nat} {acc : List UInt8}, Confined v.pt n →
      Ends (copyinLoop sz fuel v srcva len acc) (fun r => Confined r.2.2.pt n) NotLeaf := by
  induction fuel with
  | zero => exact fun h => .ok h
  | succ fuel ih =>
    intro v srcva len acc h
    simp only [copyinLoop]
    split
    · exact .ok h
    · refine (userFrame_confined hsz hn h).bind ?_
      rintro ⟨f, v'⟩ hv'
      cases f with
      | none => exact .ok hv'
      | some f => exact ih hv'

theorem copyoutLoop_confined (fuel : Nat) :
    ∀ {v : Vm} {dstva : Nat} {src : List UInt8}, Confined v.pt n →
      Ends (copyoutLoop sz fuel v dstva src) (fun r => Confined r.2.pt n) NotLeaf := by
  induction fuel with
  | zero => exact fun h => .ok h
  | succ fuel ih =>
    intro v dstva src h
    simp only [copyoutLoop]
    split
    · exact .ok h
    · split
      · exact .ok h
      · refine (userFrame_confined hsz hn h).bind ?_
        rintro ⟨f, v'⟩ hv'
        cases f with
        | none => exact .ok hv'
        | some f =>
          simp only
          split
          · exact ih hv'
          · exact .ok hv'

theorem copyinstrLoop_confined (fuel : Nat) :
    ∀ {v : Vm} {srcva max : Nat} {acc : List UInt8}, Confined v.pt n →
      Ends (copyinstrLoop sz fuel v srcva max acc) (fun r => Confined r.2.2.pt n) NotLeaf := by
  induction fuel with
  | zero => exact fun h => .ok h
  | succ fuel ih =>
    intro v srcva max acc h
    simp only [copyinstrLoop]
    split
    · exact .ok h
    · refine (userFrame_confined hsz hn h).bind ?_
      rintro ⟨f, v'⟩ hv'
      cases f with
      | none => exact .ok hv'
      | some f =>
        simp only
        split
        · exact .ok hv'
        · exact ih hv'

end

theorem loadsegLoop_pt (fs : Fs) (ip va offset sz fuel i : Nat) (v : Vm) :
    Ends (loadsegLoop fs ip va offset sz fuel i v) (fun r => r.2.pt = v.pt) NotLeaf := by
  induction fuel generalizing i v with
  | zero => exact .error (by decide)
  | succ fuel ih =>
    simp only [loadsegLoop]
    split
    · exact .ok rfl
    · split
      · exact .error (by decide)
      · generalize (if sz - i < pgsize then sz - i else pgsize) = n
        split
        · exact .ok rfl
        · exact (ih _ _).imp fun _ h => h

structure Loading (sz : Nat) (v : Vm) : Prop where
  top : sz ≤ trapframe
  confined : Confined v.pt (npg sz)
  guarded : vpn trapframe ∈ v.pt.leaf

def LoadStep (r : Bool × Nat × Vm) : Prop :=
  r.2.1 ≤ trapframe ∧ Confined r.2.2.pt (npg r.2.1) ∧ (r.1 = true → vpn trapframe ∈ r.2.2.pt.leaf)

theorem Loading.step {sz : Nat} {v : Vm} (h : Loading sz v) (ok : Bool) : LoadStep (ok, sz, v) :=
  ⟨h.top, h.confined, fun _ => h.guarded⟩

theorem loadHeader_step (fs : Fs) (ip off : Nat) {sz : Nat} {v : Vm} (h : Loading sz v) :
    Ends (loadHeader fs ip off sz v) LoadStep NotLeaf := by
  simp only [loadHeader]
  split
  · exact .ok (h.step _)
  · split
    · exact .ok (h.step _)
    · split
      · exact .ok (h.step _)
      · split
        · exact .ok (h.step _)
        · split
          · exact .ok (h.step _)
          · refine (uvmalloc_confined _ _ h.top h.confined (Or.inl h.guarded)).bind ?_
            rintro ⟨sz1, v₁⟩ h₁
            simp only at h₁ ⊢
            split
            · rename_i hzero
              rw [if_pos hzero] at h₁
              exact .ok ⟨h.top, h₁, by simp⟩
            · rename_i hzero
              rw [if_neg hzero] at h₁
              refine (loadsegLoop_pt _ _ _ _ _ _ _ v₁).bind fun r hr => Ends.ok ?_
              rw [LoadStep, hr]
              exact ⟨h₁.2.1, h₁.1, fun _ => h₁.2.2 h.guarded⟩

theorem loadLoop_step (fs : Fs) (ip n : Nat) : ∀ {off sz : Nat} {v : Vm}, Loading sz v →
    Ends (loadLoop fs ip n off sz v) LoadStep NotLeaf := by
  induction n with
  | zero => exact fun h => .ok (h.step true)
  | succ n ih =>
    intro off sz v h
    simp only [loadLoop]
    refine (loadHeader_step fs ip off h).bind ?_
    rintro ⟨ok, sz', v'⟩ ⟨htop, hc, hT⟩
    cases ok with
    | true => exact ih ⟨htop, hc, hT rfl⟩
    | false => exact .ok ⟨htop, hc, by simp⟩

end EafitOs.Memory
