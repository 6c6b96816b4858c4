import EafitOs.Memory.Accounts
import EafitOs.Memory.Teardown

/-!
# Copying an address space

`uvmcopy` gives the child a fresh frame with the same contents for every page the parent has below
its size, and nothing else.
-/

namespace EafitOs.Memory

open Foundation Function List Option AList

variable {old : PageTable} {v : Vm}

theorem copyPte_eq {e : Pte} (h : e.frame ∉ v.mem.free) (a : Nat) : copyPte v a e =
    mapFilled v a (v.mem.page e.frame) e.perm >>= fun r => .ok (r.1.isSome, r.2) := by
  obtain ⟨d, hd, heq⟩ := copyPte_fills v a e
  rw [heq, hd h]

def Elsewhere (old : PageTable) (v : Vm) (i j : Nat) : Prop :=
  ∀ k e, i ≤ k → k < j → old.leaf.lookup k = some e → e.frame ∉ v.frames

def Vm.parent (v : Vm) (old : PageTable) : Vm := ⟨v.mem, old⟩

theorem parent_space {i j k : Nat} {v' : Vm} (h : Elsewhere old v i j) (hm : Moves v v')
    (hi : i ≤ k) (hj : k < j) : (v'.parent old).space k = (v.parent old).space k := by
  simp only [Vm.space, Vm.parent]
  cases hl : old.leaf.lookup k with
  | none => rfl
  | some e => simp only [map_some, hm.outside _ (h k e hi hj hl)]

/-- What copying `n` pages from `a` on leaves: all pages of the parent, or none below the
page where it failed. -/
structure Copied (old : PageTable) (v : Vm) (a n : Nat) (r : Bool × Vm) : Prop where
  moves : Moves v r.2
  copied : r.1 = true → ∀ i, r.2.space i =
    if vpn a ≤ i ∧ i < vpn a + n then ((v.parent old).space i).or (v.space i) else v.space i
  fresh : r.1 = true → (∀ f ∈ r.2.mem.free, f ∈ v.mem.free) ∧ ∀ i e,
    r.2.pt.leaf.lookup i = some e → v.pt.leaf.lookup i = some e ∨ e.frame ∈ v.mem.free
  above : ∀ i, vpn a + n ≤ i → r.2.pt.leaf.lookup i = v.pt.leaf.lookup i ∧
    r.2.space i = v.space i
  failed : r.1 = false → ∃ j, vpn a ≤ j ∧ ∀ i, r.2.pt.leaf.lookup i =
    if i < j then none else v.pt.leaf.lookup i

theorem copyPage_spec {a : Nat} (hv : v.Owned) (ha : a % pgsize = 0)
    (hold : Elsewhere old v (vpn a) (vpn a + 1)) :
    Ends (copyPage old v a) (fun r => Moves v r.2 ∧
      (r.1 = true → r.2.space = update v.space (vpn a)
        (((v.parent old).space (vpn a)).or (v.space (vpn a)))) ∧
      (r.1 = true → (∀ f ∈ r.2.mem.free, f ∈ v.mem.free) ∧ ∀ i e,
        r.2.pt.leaf.lookup i = some e → v.pt.leaf.lookup i = some e ∨ e.frame ∈ v.mem.free) ∧
      (∀ i, i ≠ vpn a → r.2.pt.leaf.lookup i = v.pt.leaf.lookup i ∧ r.2.space i = v.space i) ∧
      (r.1 = false → r.2.pt.leaf = v.pt.leaf)) fun _ => True := by
  rw [copyPage]
  split
  · exact .error trivial
  · cases hl : old.leaf.lookup (vpn a) with
    | none =>
      refine .ok ⟨.refl v, fun _ => ?_, fun _ => ⟨fun _ => id, fun _ _ => Or.inl⟩,
        fun _ _ => ⟨rfl, rfl⟩, fun h => by cases h⟩
      have hnone : (v.parent old).space (vpn a) = none := by
        rw [Vm.space, Vm.parent, hl]
        rfl
      rw [hnone, none_or, update_eq_self]
    | some e =>
      have hout := hold (vpn a) e le_rfl (Nat.lt_succ_self _) hl
      simp only [copyPte_eq (fun h => hout (mem_frames_of_free h))]
      refine (mapFilled_spec hv ha _ _).bind fun r hr => ?_
      obtain ⟨f, v'⟩ := r
      cases f with
      | none =>
        obtain ⟨hleaf, hspace⟩ := hr.failed rfl
        exact .ok ⟨hr.moves, fun h => (by cases h), fun h => (by cases h),
          fun i _ => ⟨by rw [hleaf], congrFun hspace i⟩, fun _ => hleaf⟩
      | some f =>
        obtain ⟨hfree, -, -, hleaf, hspace⟩ := hr.mapped f rfl
        have hsome : (v.parent old).space (vpn a) = some (v.mem.page e.frame, e.perm) := by
          rw [Vm.space, Vm.parent, hl]
          rfl
        refine .ok ⟨hr.moves, fun _ => ?_, fun _ => ⟨hr.free, fun i e' he' => ?_⟩,
          fun i hi => ?_, fun h => by cases h⟩
        · rw [hsome, hspace]
          rfl
        · rw [hleaf] at he'
          by_cases hi : i = vpn a
          · rw [hi, lookup_insert] at he'
            exact Or.inr (some.inj he' ▸ hfree)
          · rw [lookup_insert_ne hi] at he'
            exact Or.inl he'
        · rw [hleaf, lookup_insert_ne hi, hspace, update_of_ne hi]
          exact ⟨rfl, rfl⟩

theorem copyLoop_spec (old : PageTable) (n : Nat) : ∀ {a : Nat} {v : Vm}, v.Owned →
    a % pgsize = 0 → a + n * pgsize ≤ maxva → Elsewhere old v (vpn a) (vpn a + n) →
    Ends (copyLoop old ((range n).map fun i => a + i * pgsize) v) (Copied old v a n)
      fun _ => True := by
  induction n with
  | zero =>
    intro a v _ _ _ _
    refine .ok ⟨.refl v, fun _ i => ?_, fun _ => ⟨fun _ => id, fun _ _ => Or.inl⟩,
      fun _ _ => ⟨rfl, rfl⟩, fun h => by cases h⟩
    rw [if_neg (by omega)]
  | succ n ih =>
    intro a v hv ha htop hold
    rw [range_map_succ, copyLoop]
    refine (copyPage_spec hv ha fun k e h1 h2 => hold k e h1 (by omega)).bind fun r hr => ?_
    obtain ⟨ok, v₁⟩ := r
    obtain ⟨hmoves, hspace, hfresh, hother, hleaf⟩ := hr
    have hnext : vpn (a + pgsize) = vpn a + 1 := by
      simp only [vpn, pgsize]
      omega
    cases ok with
    | true =>
      have hold₁ : Elsewhere old v₁ (vpn (a + pgsize)) (vpn (a + pgsize) + n) := by
        intro k e h1 h2 hl
        rw [hmoves.frames]
        exact hold k e (by omega) (by omega) hl
      refine (ih (hmoves.owned hv) (by simp only [pgsize] at ha ⊢; omega)
        (by simp only [pgsize] at htop ⊢; omega) hold₁).imp fun r hr => ?_
      refine ⟨hmoves.trans hr.moves, fun hok i => ?_, fun hok => ⟨fun f hf => ?_, fun i e he => ?_⟩,
        fun i hi => ?_, fun hok => ?_⟩
      · rw [hr.copied hok i, hnext, hspace rfl]
        by_cases hi : i = vpn a
        · subst hi
          rw [if_neg (by omega), if_pos (by omega), update_self]
        · rw [update_of_ne hi]
          by_cases hin : vpn a + 1 ≤ i ∧ i < vpn a + 1 + n
          · rw [if_pos hin, if_pos (by omega),
              parent_space hold hmoves (by omega) (by omega)]
          · rw [if_neg hin, if_neg (by omega)]
      · exact (hfresh rfl).1 f ((hr.fresh hok).1 f hf)
      · rcases (hr.fresh hok).2 i e he with he | he
        · exact (hfresh rfl).2 i e he
        · exact Or.inr ((hfresh rfl).1 _ he)
      · obtain ⟨hl, hs⟩ := hr.above i (by omega)
        obtain ⟨hl', hs'⟩ := hother i (by omega)
        exact ⟨hl.trans hl', hs.trans hs'⟩
      · obtain ⟨j, hj, hall⟩ := hr.failed hok
        rw [hnext] at hj
        refine ⟨j, by omega, fun i => ?_⟩
        rw [hall i]
        split
        · rfl
        · exact (hother i (by omega)).1
    | false =>
      refine (uvmunmap_spec (hmoves.owned hv) 0 (a / pgsize)).bind fun v₂ h₂ => ?_
      have hmem : ∀ i, i ∈ (pages 0 ((0 + a / pgsize * pgsize) % 2 ^ 64)).map vpn ↔
          i < vpn a := by
        intro i
        rw [mem_pages rfl]
        simp only [vpn, pgsize, maxva] at ha htop ⊢
        omega
      refine .ok ⟨hmoves.trans h₂.2.moves, fun h => (by cases h), fun h => (by cases h),
        fun i hi => ?_, fun _ => ⟨vpn a, le_rfl, fun i => ?_⟩⟩
      · have hout : i ∉ (pages 0 ((0 + a / pgsize * pgsize) % 2 ^ 64)).map vpn := by
          rw [hmem i]
          omega
        obtain ⟨hl, hs⟩ := hother i (by omega)
        exact ⟨by rw [h₂.2.leaf, if_neg hout, hl], by rw [h₂.2.space, if_neg hout, hs]⟩
      · rw [h₂.2.leaf, hleaf rfl]
        exact if_congr (hmem i) rfl rfl

/-- A table with no page but the trampoline and the trapframe. -/
def PageTable.Fresh (pt : PageTable) : Prop :=
  ∀ i ∈ pt.leaf, i = vpn trampoline ∨ i = vpn trapframe

theorem pages_zero_eq {sz : Nat} (hsz : sz ≤ trapframe) :
    pages 0 sz = (range (npg sz)).map fun i => 0 + i * pgsize := by
  have hlen : (sz - 0 + (pgsize - 1)) / pgsize = npg sz := by
    simp only [npg, pgroundup, trapframe, trampoline, maxva, pgsize] at hsz ⊢
    omega
  rw [pages_eq, hlen]

theorem mem_leaf_iff {pt : PageTable} {i : Nat} : i ∈ pt.leaf ↔ pt.leaf.lookup i ≠ none := by
  rw [Ne, lookup_eq_none, not_not]

/-- The parent shares the trampoline with the child and no other frame. -/
def SharesTrampoline (old : PageTable) (v : Vm) : Prop :=
  ∀ i e, old.leaf.lookup i = some e → e.frame ∉ v.frames ∨
    i = vpn trampoline ∧ ∃ e', v.pt.leaf.lookup (vpn trampoline) = some e' ∧ e'.frame = e.frame

/-- Copying an address space into a fresh table. On success every page below the size has
the contents and permissions of the parent's in a frame that was free, and no page above
is mapped; on failure the child has no user page and every frame that is not in its
tables is free again. The parent is as it was in both cases. -/
theorem uvmcopy_exact {sz : Nat} {ok : Bool} {v' : Vm} (hsz : sz ≤ trapframe) (hv : v.Owned)
    (hfresh : v.pt.Fresh) (hold : SharesTrampoline old v) (hrun : uvmcopy old v sz = .ok (ok, v')) :
    (v'.parent old).space = (v.parent old).space ∧
    (ok = true →
      (∀ i < npg sz, v'.space i = (v.parent old).space i ∧
        ∀ e, v'.pt.leaf.lookup i = some e → e.frame ∈ v.mem.free ∧
          ∀ j e', v'.pt.leaf.lookup j = some e' → e'.frame = e.frame → j = i) ∧
      ∀ i, npg sz ≤ i → i ∈ v'.pt.leaf → i = vpn trampoline ∨ i = vpn trapframe) ∧
    (ok = false → v'.pt.Fresh ∧ ∀ f ∈ v.mem.free, f ∈ v'.mem.free ∨ f ∈ v'.pt.tables) := by
  rw [uvmcopy, pages_zero_eq hsz] at hrun
  have hround := pgroundup_of_le hsz
  have htop : 0 + npg sz * pgsize ≤ maxva := by
    rw [npg_mul]
    simp only [trapframe, trampoline] at hround
    omega
  have hzero : vpn 0 = 0 := rfl
  have hbelow : ∀ k, k < npg sz → k ≠ vpn trampoline := fun k hk heq =>
    special_not_lt hsz (Or.inl heq) hk
  have helse : Elsewhere old v (vpn 0) (vpn 0 + npg sz) := fun k e _ hk hl =>
    (hold k e hl).resolve_right fun h => hbelow k (by omega) h.1
  have hspec := (copyLoop_spec old (npg sz) hv rfl htop helse).of_eq_ok hrun
  refine ⟨?_, fun hok => ⟨fun i hi => ⟨?_, fun e he => ⟨?_, fun j e' he' heq => ?_⟩⟩,
    fun i hi hmem => ?_⟩, fun hok => ⟨fun i hi => ?_, fun f hf => ?_⟩⟩
  · funext k
    simp only [Vm.space, Vm.parent]
    cases hl : old.leaf.lookup k with
    | none => rfl
    | some e =>
      rcases hold k e hl with hout | ⟨rfl, e', he', hframe⟩
      · have hpage : v'.mem.page e.frame = v.mem.page e.frame := hspec.moves.outside _ hout
        rw [map_some, map_some, hpage]
      · -- the trampoline is mapped in the child as well, and stays what it is there
        obtain ⟨hleaf, hspace⟩ := hspec.above (vpn trampoline) (by
          have := special_not_lt hsz (Or.inl rfl)
          omega)
        rw [Vm.space, Vm.space, hleaf, he', map_some, map_some, hframe] at hspace
        rw [map_some, map_some, (Prod.mk.inj (some.inj hspace)).1]
  · have hnone : v.space i = none := by
      refine space_none fun hmem => ?_
      exact special_not_lt hsz (hfresh i hmem) hi
    rw [hspec.copied hok i, hzero, if_pos (by omega), hnone, or_none]
  · rcases (hspec.fresh hok).2 i e he with hl | hfree
    · exact absurd hi (special_not_lt hsz (hfresh i (mem_leaf_iff.mpr (by rw [hl]; simp))))
    · exact hfree
  · exact (hspec.moves.owned hv).inj he' he heq
  · have hspace := hspec.copied hok i
    rw [hzero, if_neg (by omega)] at hspace
    refine hfresh i (mem_leaf_iff.mpr fun hnone => ?_)
    have hnone' : v'.space i = none := by
      rw [hspace, Vm.space, hnone]
      rfl
    obtain ⟨e, he⟩ := ne_none_iff_exists'.mp (mem_leaf_iff.mp hmem)
    rw [Vm.space, he] at hnone'
    cases hnone'
  · obtain ⟨j, -, hall⟩ := hspec.failed hok
    rw [mem_leaf_iff, hall i] at hi
    split at hi
    · exact absurd rfl hi
    · exact hfresh i (mem_leaf_iff.mpr hi)
  · obtain ⟨j, -, hall⟩ := hspec.failed hok
    have hmem : f ∈ v'.frames := by
      rw [hspec.moves.frames]
      exact mem_frames_of_free hf
    rcases Multiset.mem_add.mp hmem with hmem | hmem
    · exact (Multiset.mem_add.mp hmem).imp_left Multiset.mem_coe.mp
    · -- a page that is still mapped was mapped before, and then its frame was not free
      obtain ⟨i, e, he, rfl⟩ := exists_of_mem_mapped hmem
      rw [hall i] at he
      split at he
      · cases he
      · exact absurd hf (hv.not_free he)

def sampleParent : PageTable :=
  (((samplePt 0x80120).addMid 0 0x80124).addLow 0 0x80125).setLeaf 0 ⟨0x80126, .heap⟩

def sampleChild : Vm := ⟨sampleKernel.mem, samplePt 0x80110⟩

theorem sampleChild_owned : sampleChild.Owned where
  once := Multiset.nodup_iff_count_le_one.mp (by decide +kernel)
  keys := by decide +kernel

theorem lookup_of_mem {pt : PageTable} {P : Nat → Pte → Prop}
    (h : ∀ s ∈ pt.leaf.entries, P s.1 s.2) {i : Nat} {e : Pte} (he : pt.leaf.lookup i = some e) :
    P i e :=
  h ⟨i, e⟩ (mem_lookup_iff.mp he)

theorem sampleParent_shares : SharesTrampoline sampleParent sampleChild := by
  intro i e he
  exact lookup_of_mem (P := fun i e => e.frame ∉ sampleChild.frames ∨ i = vpn trampoline ∧
    ∃ e', sampleChild.pt.leaf.lookup (vpn trampoline) = some e' ∧ e'.frame = e.frame)
    (by
      intro s hs
      have hcases : s ∈ [⟨0, ⟨0x80126, Perm.heap⟩⟩,
        ⟨vpn trapframe, ⟨0x80123, ⟨true, true, false, false⟩⟩⟩,
        ⟨vpn trampoline, ⟨0x80007, ⟨true, false, true, false⟩⟩⟩] := hs
      simp only [mem_cons, not_mem_nil, or_false] at hcases
      rcases hcases with rfl | rfl | rfl
      · exact Or.inl (by decide +kernel)
      · exact Or.inl (by decide +kernel)
      · exact Or.inr ⟨rfl, _, rfl, rfl⟩) he

/-- The copy of one page. -/
theorem uvmcopy_exact_sample : ∃ v', uvmcopy sampleParent sampleChild 4096 = .ok (true, v') ∧
    v'.space 0 = (sampleChild.parent sampleParent).space 0 ∧ (v'.space 0).isSome := by
  obtain ⟨v', hok⟩ : ∃ v', uvmcopy sampleParent sampleChild 4096 = .ok (true, v') := by
    decide +kernel
  obtain ⟨-, hcopied, -⟩ := uvmcopy_exact (by decide) sampleChild_owned (samplePt_leaf _)
    sampleParent_shares hok
  have hzero := ((hcopied rfl).1 0 (by decide)).1
  exact ⟨v', hok, hzero, by rw [hzero]; rfl⟩

end EafitOs.Memory
