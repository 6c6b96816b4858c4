import EafitOs.Memory.Accesses
import EafitOs.Memory.Accounts

/-!
# `map_ro`

`map_ro` maps a page at an address the program chooses and leaves it to `mappages` to
refuse what cannot be mapped, but `mappages` panics.
-/

namespace EafitOs.Memory

open Foundation Option

section MapRo

variable {v : Vm} {va : Nat} {d : Page} {perm : Perm} {c : Ctx}

theorem mapFilled_frame : Ends (mapFilled v va d perm) (fun r =>
    (∀ f, r.1 = some f → f ∈ v.mem.free) ∧
      (r.1 = none → ∀ f m, v.mem.kalloc = some (f, m) → f ∈ r.2.mem.free)) fun _ => True := by
  rw [mapFilled]
  cases hk : v.mem.kalloc with
  | none =>
    refine .ok ⟨?_, fun _ f m hf => ?_⟩
    · rintro _ ⟨⟩
    · cases hf
  | some fm =>
    obtain ⟨f, m⟩ := fm
    have hmem : f ∈ v.mem.free := by
      rw [kalloc_free hk]
      exact List.mem_cons_self
    refine (Ends.trivial _).bind fun r _ => ?_
    obtain ⟨ok, w⟩ := r
    cases ok with
    | true =>
      refine .ok ⟨?_, ?_⟩
      · rintro _ ⟨⟩
        exact hmem
      · rintro ⟨⟩
    | false =>
      refine Ends.bind (Q := fun m' => w.mem.kfree f = .ok m') ⟨id, fun _ => trivial⟩
        fun m' hm' => ?_
      refine .ok ⟨?_, fun _ g m₁ hg => ?_⟩
      · rintro _ ⟨⟩
      · obtain ⟨rfl, -⟩ := Prod.mk.inj (some.inj hg)
        have hlist : m'.free = f :: w.mem.free := (kfree_eq hm').1
        rw [hlist]
        exact List.mem_cons_self

theorem mapFilled_beyond (hva : va % pgsize = 0) (hmax : maxva ≤ va)
    (hfree : 0 < v.mem.free.length) : mapFilled v va d perm = .error "walk" := by
  obtain ⟨⟨f, m⟩, hk⟩ := kalloc_of_pos hfree
  simp only [mapFilled, hk, mappages_one _ hva, walkAlloc, if_pos hmax]
  rfl

/-- `map_ro` returns. It returns 0 with a page that was free as a new entry for reading, and
-1 with all entries as they were and the page it took on the free list. -/
def MapRoReturns (c : Ctx) (va : Nat) : Prop :=
  ∃ ok c', sysMapRo c va = .ok (ok, c') ∧
    (ok = true → vpn va ∉ c.proc.pt.leaf ∧ ∃ f ∈ c.mem.free,
      c'.proc.pt.leaf = c.proc.pt.leaf.insert (vpn va) ⟨f, true, false, false, true⟩) ∧
    (ok = false → c'.proc.pt.leaf = c.proc.pt.leaf ∧
      ∀ f m, c.mem.kalloc = some (f, m) → f ∈ c'.mem.free) ∧
    ∀ i e, c.proc.pt.leaf.lookup i = some e → c'.proc.pt.leaf.lookup i = some e

/-- The states and addresses for which `mappages` has no reason to panic. -/
def MapRoSafe (c : Ctx) (va : Nat) : Prop :=
  c.mem.free = [] ∨ pgrounddown va < maxva ∧ vpn va ∉ c.proc.pt.leaf

theorem mapRo_of_nil (hfree : c.mem.free = []) : MapRoReturns c va := by
  have hk : c.mem.kalloc = none := by rw [Mem.kalloc, hfree]
  have hcall : sysMapRo c va = .ok (false, c) := by
    simp only [sysMapRo, mapFilled, Ctx.vm, hk, ok_bind, isSome_none]
    rfl
  refine ⟨false, c, hcall, fun h => (by cases h), fun _ => ⟨rfl, fun f m hf => ?_⟩,
    fun _ _ => id⟩
  rw [hk] at hf
  cases hf

theorem mapRo_of_missing (hsound : c.mem.Sound) (hmax : pgrounddown va < maxva)
    (hmissing : vpn va ∉ c.proc.pt.leaf) : MapRoReturns c va := by
  have hmissing' : vpn (pgrounddown va) ∉ c.vm.pt.leaf := by
    rw [vpn_pgrounddown]
    exact hmissing
  obtain ⟨⟨o, w⟩, hr, hfills⟩ := mapFilled_missing ((memset 0).overlay 0 mapRoMsg)
    ⟨true, false, false, true⟩ (pgrounddown_mod va) hmax hsound hmissing'
  obtain ⟨hfree, hback⟩ := mapFilled_frame.of_eq_ok hr
  have hcall : sysMapRo c va = .ok (o.isSome, c.setVm w) := by
    rw [sysMapRo, hr]
    rfl
  refine ⟨_, _, hcall, fun hok => ⟨hmissing, ?_⟩, fun hok => ?_, fun i e he => ?_⟩
  · obtain ⟨f, hf⟩ := isSome_iff_exists.mp hok
    refine ⟨f, hfree f hf, ?_⟩
    have hleaf := hfills.mapped f hf
    rw [vpn_pgrounddown] at hleaf
    exact hleaf
  · have hnone : o = none := isSome_eq_false_iff.mp hok |> isNone_iff_eq_none.mp
    exact ⟨hfills.unmapped hnone, hback hnone⟩
  · have hne : i ≠ vpn va := fun heq => hmissing (AList.lookup_isSome.mp (by rw [← heq, he]; rfl))
    cases o with
    | none =>
      have hleaf : w.pt.leaf = c.proc.pt.leaf := hfills.unmapped rfl
      rw [← he]
      exact congrArg (AList.lookup i) hleaf
    | some f =>
      have hleaf := hfills.mapped f rfl
      rw [vpn_pgrounddown] at hleaf
      calc w.pt.leaf.lookup i
          = (c.proc.pt.leaf.insert (vpn va) ⟨f, true, false, false, true⟩).lookup i :=
            congrArg (AList.lookup i) hleaf
        _ = c.proc.pt.leaf.lookup i := AList.lookup_insert_ne hne
        _ = some e := he

/-- `map_ro` keeps its promises exactly where there is no memory for a page, or the address
is below `MAXVA` and has no page yet. -/
theorem mapRo_returns_iff (hsound : c.mem.Sound) (va : Nat) :
    MapRoReturns c va ↔ MapRoSafe c va := by
  constructor
  · rintro ⟨ok, c', hcall, -⟩
    by_contra hunsafe
    simp only [MapRoSafe, not_or, not_and, not_not] at hunsafe
    obtain ⟨hfree, hpage⟩ := hunsafe
    have hpos : 0 < c.vm.mem.free.length := List.length_pos_iff.mpr hfree
    rw [sysMapRo] at hcall
    by_cases hmax : pgrounddown va < maxva
    · have hpage' : vpn (pgrounddown va) ∈ c.vm.pt.leaf := by
        rw [vpn_pgrounddown]
        exact hpage hmax
      rw [mapFilled_resident _ _ (pgrounddown_mod va) hmax hpos hpage'] at hcall
      cases hcall
    · rw [mapFilled_beyond (pgrounddown_mod va) (Nat.not_lt.mp hmax) hpos] at hcall
      cases hcall
  · rintro (hnil | ⟨hmax, hmissing⟩)
    · exact mapRo_of_nil hnil
    · exact mapRo_of_missing hsound hmax hmissing

theorem mapRo_returns_first : sampleCtx.mem.Sound ∧ MapRoReturns sampleCtx 0 :=
  ⟨sampleKernel_sound, (mapRo_returns_iff sampleKernel_sound 0).mpr
    (Or.inr ⟨by decide, by decide +kernel⟩)⟩

/-- An address above all pages and the address of the trapframe stop the machine. -/
theorem mapRo_panics : sysMapRo sampleCtx maxva = .error "walk" ∧
    sysMapRo sampleCtx trapframe = .error "mappages: remap" ∧
    ¬MapRoReturns sampleCtx maxva ∧ ¬MapRoReturns sampleCtx trapframe := by
  have hfree : 0 < sampleCtx.vm.mem.free.length := by decide
  have hwalk : sysMapRo sampleCtx maxva = .error "walk" := by
    rw [sysMapRo, mapFilled_beyond (pgrounddown_mod _) (by decide) hfree]
    rfl
  have hremap : sysMapRo sampleCtx trapframe = .error "mappages: remap" := by
    rw [sysMapRo, mapFilled_resident _ _ (pgrounddown_mod _) (by decide) hfree (by decide +kernel)]
    rfl
  refine ⟨hwalk, hremap, ?_, ?_⟩
  · rintro ⟨ok, c', hcall, -⟩
    rw [hwalk] at hcall
    cases hcall
  · rintro ⟨ok, c', hcall, -⟩
    rw [hremap] at hcall
    cases hcall

end MapRo

end EafitOs.Memory
