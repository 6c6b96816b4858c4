import EafitOs.Memory.Unmapping

/-!
# Faults that end a process

A fault outside all regions fills a page of the heap or kills the process, and gives up the page
it found. For an address below the trapframe this concerns only user pages of the process.
-/

namespace EafitOs.Memory

open Foundation

namespace Ctx.Healthy

variable {c c' : Ctx}

section

variable (h : c.Healthy)
include h

theorem setVm {w : Vm} (hmoves : Moves c.vm w)
    (hspecial : ∀ n, n = vpn trampoline ∨ n = vpn trapframe →
      w.pt.leaf.lookup n = c.proc.pt.leaf.lookup n) : (c.setVm w).Healthy where
  owned := hmoves.owned h.owned
  backed f hf := by
    have hf' : f ∈ c.vm.frames := hmoves.frames ▸ hf
    refine (h.backed f hf').imp (fun heq => heq.trans hmoves.text.symm) fun hvalid => ?_
    exact hvalid.of_kend hmoves.kend
  mapsTrampoline := by
    obtain ⟨e, he, htext⟩ := h.mapsTrampoline
    exact ⟨e, (hspecial _ (Or.inl rfl)).trans he, htext.trans hmoves.text.symm⟩
  mapsTrapframe := by
    obtain ⟨e, he, htf⟩ := h.mapsTrapframe
    exact ⟨e, (hspecial _ (Or.inr rfl)).trans he, htf⟩
  top := h.top
  vmas := h.vmas

theorem of_vm (hvm : c'.vm = c.vm) (htf : c'.proc.tf = c.proc.tf)
    (hsz : c'.proc.sz = c.proc.sz) (hvmas : ∀ i, (c'.proc.vmas i).used = true →
      c'.proc.vmas i = c.proc.vmas i) : c'.Healthy := by
  have hmem : c'.mem = c.mem := congrArg Vm.mem hvm
  have hpt : c'.proc.pt = c.proc.pt := congrArg Vm.pt hvm
  refine ⟨hvm ▸ h.owned, ?_, ?_, ?_, hsz ▸ h.top, fun i hi => ?_⟩
  · rw [hvm, hmem]
    exact h.backed
  · rw [hpt, hmem]
    exact h.mapsTrampoline
  · rw [hpt, htf]
    exact h.mapsTrapframe
  · have heq := hvmas i hi
    rw [heq] at hi ⊢
    exact h.vmas i hi

theorem released {v : Vma} {as : List Nat} (hc' : Released v c as c')
    (has : ∀ a ∈ as, a < trapframe) : c'.Healthy := by
  have hspecial : ∀ n, n = vpn trampoline ∨ n = vpn trapframe →
      c'.vm.pt.leaf.lookup n = c.proc.pt.leaf.lookup n := by
    intro n hn
    refine (hc'.drops.leaf n).trans (if_neg fun hmem => ?_)
    obtain ⟨a, ha, rfl⟩ := List.mem_map.mp hmem
    have hlt := has a ha
    simp only [vpn, trapframe, trampoline, maxva, pgsize] at hlt hn
    omega
  refine (h.setVm hc'.drops.moves hspecial).of_vm rfl ?_ ?_ fun i _ => ?_
  · rw [hc'.proc]
    rfl
  · rw [hc'.proc]
    rfl
  · rw [hc'.proc]
    rfl

theorem exitVma (i : Fin maxvma) : Ends (exitVma c i) Ctx.Healthy fun _ => True := by
  rw [Memory.exitVma]
  split
  · exact .ok h
  · rename_i hused
    refine (releasePages_spec _ _ h.owned).any.bind fun c₁ h₁ => ?_
    have hused : (c.proc.vmas i).used = true := by simpa using hused
    have hhealthy := h.released h₁ fun a ha =>
      Nat.lt_of_lt_of_le (mem_pages_lt ha) (h.vmas i hused)
    refine (releaseVma_proc c₁ i).imp fun c₂ h₂ => ?_
    obtain ⟨hproc, hmem⟩ := h₂
    refine hhealthy.of_vm ?_ (by rw [hproc]; rfl) (by rw [hproc]; rfl) fun k hk => ?_
    · rw [Ctx.vm, Ctx.vm, hmem, hproc]
      rfl
    · rw [hproc] at hk ⊢
      by_cases hki : k = i
      · subst hki
        simp [Proc.release] at hk
      · exact Function.update_of_ne hki _ _

theorem exitFile (fd : Fin nofile) : Ends (exitFile c fd) Ctx.Healthy fun _ => True := by
  rw [Memory.exitFile]
  split
  · exact .ok h
  · exact (Ends.trivial _).bind fun fs _ => .ok (h.of_vm rfl rfl rfl fun _ _ => rfl)

theorem kexit : Ends (kexit c) Ctx.Healthy fun _ => True := by
  rw [Memory.kexit]
  refine (Ends.foldlM Ctx.Healthy h fun i _ _ h => h.exitVma i).bind fun c₁ h₁ => ?_
  refine (Ends.foldlM Ctx.Healthy h₁ fun fd _ _ h => h.exitFile fd).bind fun c₂ h₂ => ?_
  split
  · exact .ok h₂
  · exact .ok (h₂.of_vm rfl rfl rfl fun _ _ => rfl)

theorem frames_eq : c.vm.frames =
    c.mem.text ::ₘ c.proc.tf ::ₘ (Vm.mk c.mem c.proc.pt.userPart).frames := by
  obtain ⟨e, he, htext⟩ := h.mapsTrampoline
  obtain ⟨e', he', htf⟩ := h.mapsTrapframe
  have hne : vpn trapframe ≠ vpn trampoline := by decide
  have he'' : (c.proc.pt.eraseLeaf (vpn trampoline)).leaf.lookup (vpn trapframe) = some e' :=
    (AList.lookup_erase_ne hne).trans he'
  calc c.vm.frames
      = e.frame ::ₘ (Vm.mk c.mem (c.proc.pt.eraseLeaf (vpn trampoline))).frames :=
        frames_eraseLeaf (v := c.vm) he
    _ = e.frame ::ₘ e'.frame ::ₘ (Vm.mk c.mem c.proc.pt.userPart).frames :=
        congrArg (e.frame ::ₘ ·)
          (frames_eraseLeaf (v := ⟨c.mem, c.proc.pt.eraseLeaf (vpn trampoline)⟩) he'')
    _ = c.mem.text ::ₘ c.proc.tf ::ₘ (Vm.mk c.mem c.proc.pt.userPart).frames := by
        rw [htext, htf]

theorem freeproc_nodup :
    Ends (Kernel.freeproc c.mem c.proc.tf (some c.proc.pt) c.proc.sz) (fun m => m.free.Nodup)
      fun _ => True := by
  rw [Kernel.freeproc]
  refine (Ends.self _).bind fun m hm => ?_
  obtain ⟨hfree, -, -, -⟩ := kfree_eq hm
  simp only [procFreepagetable_eq]
  have hframes : (Vm.mk m c.proc.pt.userPart).frames ≤ c.vm.frames := by
    rw [h.frames_eq]
    simp only [Vm.frames, hfree, ← Multiset.cons_coe, Multiset.cons_add]
    exact Multiset.le_cons_self _ _
  have hown : (Vm.mk m c.proc.pt.userPart).Owned := h.owned.of_le hframes rfl
  refine (uvmfree_le hown _).imp fun m' hm' => ?_
  exact Multiset.coe_nodup.mp (Multiset.nodup_of_le hm' hown.nodup)

end

end Ctx.Healthy

section Fault

variable {c c' : Ctx} {va : Nat}

def ReapedOnce (c : Ctx) : Prop :=
  ∀ c' m, kexit c = .ok c' →
    Kernel.freeproc c'.mem c'.proc.tf (some c'.proc.pt) c'.proc.sz = .ok m → m.free.Nodup

/-- The fault has hurt only its process: it has filled a page of the heap or killed the
process, the trapframe and the trampoline are where they were, what was freed are other
pages of the process, and after the process is reaped no page is free twice. -/
structure Contained (c : Ctx) (va : Nat) (c' : Ctx) : Prop where
  outcome : c'.proc.killed = true ∨ va < c.proc.sz ∧ vpn va ∉ c.proc.pt.leaf ∧
    c'.vm.space = Function.update c.vm.space (vpn va) (some (memset 0, .heap))
  special : ∀ n, n = vpn trampoline ∨ n = vpn trapframe →
    c'.proc.pt.leaf.lookup n = c.proc.pt.leaf.lookup n
  freed : ∀ f ∈ c'.mem.free, f ∈ c.mem.free ∨ ∃ n e, c.proc.pt.leaf.lookup n = some e ∧
    e.frame = f ∧ n ≠ vpn trampoline ∧ n ≠ vpn trapframe
  reaped : ReapedOnce c'

theorem special_ne (hva : va < trapframe) {n : Nat} (hn : n = vpn trampoline ∨ n = vpn trapframe) :
    n ≠ vpn va := by
  simp only [vpn, trapframe, trampoline, maxva, pgsize] at hva hn ⊢
  omega

theorem Ctx.Healthy.reaped (h : c.Healthy) : ReapedOnce c :=
  fun _ _ hexit hfree => (h.kexit.of_eq_ok hexit).freeproc_nodup.of_eq_ok hfree

theorem Trap.contained (h : c.Healthy) (hregion : c.proc.noVregion va) (hvma : c.proc.noVma va)
    (hva : va < trapframe) (htrap : Trap c va c') : Contained c va c' := by
  cases htrap with
  | @served d perm f w hpage hserves hfill =>
    obtain ⟨-, -, -, hleaf, hspace⟩ := hfill.mapped f rfl
    rw [vpn_pgrounddown] at hleaf hspace
    have hspecial : ∀ n, n = vpn trampoline ∨ n = vpn trapframe →
        w.pt.leaf.lookup n = c.proc.pt.leaf.lookup n := by
      intro n hn
      rw [show w.pt.leaf = _ from hleaf, AList.lookup_insert_ne (special_ne hva hn)]
      rfl
    simp only [trapPage, firstIdx_none.mpr hregion, firstIdx_none.mpr hvma] at hserves
    refine ⟨Or.inr ?_, hspecial, fun g hg => Or.inl (hfill.free g hg),
      (h.setVm hfill.moves hspecial).reaped⟩
    split at hserves
    · cases hserves
    · split at hserves
      · rename_i hlt
        obtain ⟨rfl, rfl⟩ := Prod.mk.inj (Option.some.inj (Except.ok.inj hserves))
        exact ⟨hlt, hpage, hspace⟩
      · cases hserves
  | @starved w hpage hmoves hleaf hspace hfree =>
    have hspecial : ∀ n, n = vpn trampoline ∨ n = vpn trapframe →
        w.pt.leaf.lookup n = c.proc.pt.leaf.lookup n := fun n _ => by rw [hleaf]
    have hhealthy : (c.setVm w).setKilled.Healthy :=
      (h.setVm hmoves hspecial).of_vm rfl rfl rfl fun _ _ => rfl
    exact ⟨Or.inl rfl, hspecial, fun g hg => Or.inl (hfree g hg), hhealthy.reaped⟩
  | ignored hcase =>
    have hkilled := (hcase.resolve_left fun hcover => hcover.1 hregion).2
    exact ⟨Or.inl hkilled, fun _ _ => rfl, fun _ => Or.inl, h.reaped⟩
  | @dropped w hpage hmax _ _ _ hunmap =>
    have hdrops := (uvmunmap_one h.owned hmax).of_eq_ok hunmap
    have hmap : [pgrounddown va].map vpn = [vpn va] := by
      rw [List.map_singleton, vpn_pgrounddown]
    have hspecial : ∀ n, n = vpn trampoline ∨ n = vpn trapframe →
        w.pt.leaf.lookup n = c.proc.pt.leaf.lookup n := by
      intro n hn
      rw [hdrops.leaf, hmap, if_neg fun hmem => special_ne hva hn (List.mem_singleton.mp hmem)]
      rfl
    have hhealthy : (c.setVm w).setKilled.Healthy :=
      (h.setVm hdrops.moves hspecial).of_vm rfl rfl rfl fun _ _ => rfl
    refine ⟨Or.inl rfl, hspecial, fun g hg => ?_, hhealthy.reaped⟩
    refine (hdrops.free g hg).imp id fun hmapped => ?_
    rw [hmap] at hmapped
    obtain ⟨n, hn, e, he, heq⟩ := hmapped
    obtain rfl := List.mem_singleton.mp hn
    exact ⟨vpn va, e, he, heq, fun h => special_ne hva (Or.inl h) rfl,
      fun h => special_ne hva (Or.inr h) rfl⟩

theorem usertrap_outside (hregion : c.proc.noVregion va) (hvma : c.proc.noVma va)
    (halive : c.proc.killed = false) : usertrap c va = heapFault c va >>= fun r =>
      if r.1 || r.2.proc.killed then .ok r.2 else badFault r.2 va := by
  have hmmap : mmapFault c va = .ok (false, c) := by rw [mmapFault, firstIdx_none.mpr hvma]
  simp only [usertrap, vregionFault_none (firstIdx_none.mpr hregion), ok_bind, orElse, halive,
    Bool.or_false, Bool.false_eq_true, if_false, hmmap]

theorem badFault_total (h : c.Healthy) (hva : va < trapframe) :
    Ends (badFault c va) (fun _ => True) fun _ => False := by
  have hmax : pgrounddown va < maxva := by
    simp only [trapframe, trampoline, maxva, pgrounddown, pgsize] at hva ⊢
    omega
  rw [badFault]
  refine ((ismapped_spec _ va).mono (fun _ => id) fun _ hnot => hnot hmax).bind fun b _ => ?_
  cases b with
  | false => exact .ok trivial
  | true =>
    refine ((uvmunmap_one h.owned hmax).mono (fun _ => id) fun _ hnot =>
      hnot ⟨pgrounddown_mod va, hmax, fun e he => ?_⟩).bind fun w _ => .ok trivial
    rw [vpn_pgrounddown] at he
    exact h.valid he fun heq => special_ne hva (Or.inl heq) rfl

theorem usertrap_total (h : c.Healthy) (hregion : c.proc.noVregion va) (hvma : c.proc.noVma va)
    (hva : va < trapframe) : Ends (usertrap c va) (fun _ => True) fun _ => False := by
  have hmax : pgrounddown va < maxva := by
    simp only [trapframe, trampoline, maxva, pgrounddown, pgsize] at hva ⊢
    omega
  cases halive : c.proc.killed with
  | true =>
    rw [usertrap_killed (firstIdx_none.mpr hregion) halive]
    exact .ok trivial
  | false =>
    rw [usertrap_outside hregion hvma halive, heapFault, bind_assoc]
    refine ((vmfault_cases h.owned c.proc.sz va).mono (fun _ => id) fun _ hnot =>
      hnot ⟨hmax, h.sound⟩).bind fun r hr => ?_
    obtain ⟨o, w⟩ := r
    rw [ok_bind]
    split
    · exact .ok trivial
    · rename_i hfalse
      have hnone : o = none := by
        cases o with
        | none => rfl
        | some f => simp at hfalse
      subst hnone
      refine badFault_total ?_ hva
      rcases hr with ⟨heq, -⟩ | ⟨-, -, hfill, -⟩
      · obtain ⟨-, rfl⟩ := Prod.mk.inj heq
        exact h
      · obtain ⟨hleaf, -⟩ := hfill.failed rfl
        refine h.setVm hfill.moves fun n _ => ?_
        exact congrArg (AList.lookup n) hleaf

theorem usertrap_above (hregion : c.proc.noVregion va) (hvma : c.proc.noVma va)
    (halive : c.proc.killed = false) (hsz : c.proc.sz ≤ va) : usertrap c va = badFault c va := by
  have hheap : heapFault c va = .ok (false, c) := by
    rw [heapFault, vmfault, if_pos hsz]
    rfl
  simp only [usertrap_outside hregion hvma halive, hheap, ok_bind, halive, Bool.or_false,
    Bool.false_eq_true, if_false]

theorem not_contained (h : c.Healthy) (hregion : c.proc.noVregion va) (hvma : c.proc.noVma va)
    (halive : c.proc.killed = false) (hva : trapframe ≤ va) (htrap : usertrap c va = .ok c')
    (hcontained : Contained c va c') : False := by
  rw [usertrap_above hregion hvma halive (h.top.trans hva)] at htrap
  by_cases hmax : pgrounddown va < maxva
  · have hspecial : vpn va = vpn trampoline ∨ vpn va = vpn trapframe := by
      simp only [vpn, trapframe, trampoline, maxva, pgrounddown, pgsize] at hva hmax ⊢
      omega
    have hmapped : ∃ e, c.proc.pt.leaf.lookup (vpn va) = some e := by
      rcases hspecial with heq | heq
      · obtain ⟨e, he, -⟩ := h.mapsTrampoline
        exact ⟨e, heq ▸ he⟩
      · obtain ⟨e, he, -⟩ := h.mapsTrapframe
        exact ⟨e, heq ▸ he⟩
    obtain ⟨e, he⟩ := hmapped
    rcases badFault_cases.of_eq_ok htrap with ⟨hmissing, -⟩ | ⟨-, -, w, hunmap, rfl⟩
    · exact hmissing (AList.lookup_isSome.mp (by rw [he]; rfl))
    · have hdrops := (uvmunmap_one h.owned hmax).of_eq_ok hunmap
      have hgone : w.pt.leaf.lookup (vpn va) = none := by
        rw [hdrops.leaf, List.map_singleton, vpn_pgrounddown, if_pos (List.mem_singleton.mpr rfl)]
      have hkept : w.pt.leaf.lookup (vpn va) = c.proc.pt.leaf.lookup (vpn va) :=
        hcontained.special _ hspecial
      rw [hgone, he] at hkept
      cases hkept
  · have hwalk : badFault c va = .error "walk" := by
      rw [badFault, ismapped, PageTable.walk, if_pos (Nat.not_lt.mp hmax)]
      rfl
    rw [hwalk] at htrap
    cases htrap

/-- A fault outside all regions hurts only its process exactly if the process was killed
before or the address is below the trapframe. -/
theorem fault_contained_iff (h : c.Healthy) (hregion : c.proc.noVregion va)
    (hvma : c.proc.noVma va) : (∃ c', usertrap c va = .ok c' ∧ Contained c va c') ↔
      c.proc.killed = true ∨ va < trapframe := by
  constructor
  · rintro ⟨c', htrap, hcontained⟩
    by_contra hunsafe
    obtain ⟨halive, hva⟩ := not_or.mp hunsafe
    exact not_contained h hregion hvma (Bool.eq_false_iff.mpr halive) (Nat.not_lt.mp hva) htrap
      hcontained
  · rintro (hkilled | hva)
    · exact ⟨c, usertrap_killed (firstIdx_none.mpr hregion) hkilled, Or.inl hkilled,
        fun _ _ => rfl, fun _ => Or.inl, h.reaped⟩
    · obtain ⟨c', htrap, -⟩ := (usertrap_total h hregion hvma hva).exists_ok
      exact ⟨c', htrap, ((usertrap_cases h.owned va).of_eq_ok htrap).contained h hregion hvma hva⟩

/-- A store to an address nobody has mapped. -/
theorem fault_contained_sample : (sampleRegion 1).Healthy ∧
    ∃ c', usertrap (sampleRegion 1) 0x10000 = .ok c' ∧ Contained (sampleRegion 1) 0x10000 c' := by
  have hhealthy : (sampleRegion 1).Healthy := sampleRegion_healthy (by decide)
  refine ⟨hhealthy, (fault_contained_iff hhealthy (fun j => rfl) fun i => ?_).mpr
    (Or.inr (by decide))⟩
  cases hcovers : ((sampleRegion 1).proc.vmas i).covers 0x10000 with
  | false => rfl
  | true =>
    obtain rfl := sampleRegion_vmas (Vma.covers_iff.mp hcovers).1
    exact absurd hcovers (by decide)

/-- A fault above all pages or on the trampoline stops the machine; a fault on the trapframe
frees it, and it is freed once more when the process is reaped. -/
theorem fault_escapes : usertrap sampleCtx maxva = .error "walk" ∧
    usertrap sampleCtx trampoline = .error "kfree" ∧
    ∃ c c' m, usertrap sampleCtx trapframe = .ok c ∧ kexit c = .ok c' ∧
      Kernel.freeproc c'.mem c'.proc.tf (some c'.proc.pt) c'.proc.sz = .ok m ∧
      c'.proc.tf = sampleCtx.proc.tf ∧ m.free.count sampleCtx.proc.tf = 2 := by
  simp only [exists_and_left]
  decide +kernel

end Fault

end EafitOs.Memory
