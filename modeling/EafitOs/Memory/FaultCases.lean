import EafitOs.Memory.Accesses
import EafitOs.Memory.Accounts

/-!
# What a page fault does

The four handlers of `usertrap` end in four ways: a missing page is filled; there is no
memory for it or no reason to fill it and the process is killed; the fault is left alone;
or a page that is there is given up and the process is killed.
-/

namespace EafitOs.Memory

open Foundation

section Again

variable {v w : Vm} {va : Nat} {d : Page} {perm : Perm}

theorem kalloc_eq_none {m : Mem} : m.kalloc = none ↔ m.free = [] := by
  rw [Mem.kalloc]
  split <;> simp_all

theorem walkAlloc_fails : Ends (walkAlloc v va) (fun r => r.1 = false →
    r.2.mem.free = [] ∧ va / 2 ^ 21 ∉ r.2.pt.low) fun _ => True := by
  rw [walkAlloc]
  split
  · exact .error trivial
  · cases hmid : walkMid v va with
    | none =>
      refine .ok fun _ => ?_
      rw [walkMid] at hmid
      split at hmid
      · cases hmid
      · rename_i hnot
        refine ⟨kalloc_eq_none.mp (Option.map_eq_none_iff.mp hmid), fun hlow => hnot ?_⟩
        have hdiv : va / 2 ^ 21 / 512 = va / 2 ^ 30 := by omega
        exact hdiv ▸ v.pt.low_mid _ hlow
    | some w =>
      simp only
      cases hlow : walkLow w va with
      | none =>
        refine .ok fun _ => ?_
        rw [walkLow] at hlow
        split at hlow
        · cases hlow
        · rename_i hnot
          exact ⟨kalloc_eq_none.mp (Option.map_eq_none_iff.mp hlow), hnot⟩
      | some w' => exact .ok fun h => by cases h

def Vm.Exhausted (v : Vm) (va : Nat) : Prop := v.mem.free.length = 1 ∧ va / 2 ^ 21 ∉ v.pt.low

theorem mapFilled_exhausts (hva : va % pgsize = 0) : Ends (mapFilled v va d perm) (fun r =>
    r.1 = none → v.mem.free = [] ∧ r.2 = v ∨ r.2.Exhausted va) fun _ => True := by
  rw [mapFilled]
  cases hk : v.mem.kalloc with
  | none => exact .ok fun _ => Or.inl ⟨kalloc_eq_none.mp hk, rfl⟩
  | some fm =>
    obtain ⟨f, m⟩ := fm
    simp only [mappages_one _ hva]
    refine Ends.bind (Q := fun r => r.1 = false → r.2.mem.free = [] ∧ va / 2 ^ 21 ∉ r.2.pt.low)
      (walkAlloc_fails.bind fun r hr => ?_) fun r hr => ?_
    · obtain ⟨ok, w⟩ := r
      cases ok with
      | false => exact .ok hr
      | true =>
        simp only [Bool.not_true, Bool.false_eq_true, if_false]
        split
        · exact .error trivial
        · exact .ok fun h => by cases h
    · obtain ⟨ok, w⟩ := r
      cases ok with
      | true => exact .ok fun h => by cases h
      | false =>
        obtain ⟨hfree, hlow⟩ := hr rfl
        refine (Ends.self (w.mem.kfree f)).bind fun m' hm' => ?_
        refine .ok fun _ => Or.inr ⟨?_, hlow⟩
        have hlist : m'.free = f :: w.mem.free := (kfree_eq hm').1
        have hw : w.mem.free = [] := hfree
        rw [hlist, hw]
        rfl

theorem mapFilled_again (hva : va % pgsize = 0) (h : v.Exhausted va) (d : Page) (perm : Perm) :
    Ends (mapFilled v va d perm) (fun r => r.1 = none) fun _ => True := by
  rw [mapFilled]
  cases hk : v.mem.kalloc with
  | none => exact .ok rfl
  | some fm =>
    obtain ⟨f, m⟩ := fm
    have hfree := kalloc_free hk
    obtain ⟨hone, hlow⟩ := h
    have hm : (m.setPage f d).kalloc = none := by
      rw [hfree, List.length_cons] at hone
      exact kalloc_eq_none.mpr (List.length_eq_zero_iff.mp (Nat.succ.inj hone))
    have hlow' : walkLow ⟨m.setPage f d, v.pt⟩ va = none := by
      rw [walkLow, if_neg hlow]
      exact Option.map_eq_none_iff.mpr hm
    have hmid : walkMid ⟨m.setPage f d, v.pt⟩ va = some ⟨m.setPage f d, v.pt⟩ ∨
        walkMid ⟨m.setPage f d, v.pt⟩ va = none := by
      rw [walkMid]
      split
      · exact Or.inl rfl
      · exact Or.inr (Option.map_eq_none_iff.mpr hm)
    have hwalk : Ends (walkAlloc ⟨m.setPage f d, v.pt⟩ va) (fun r => r.1 = false)
        fun _ => True := by
      rw [walkAlloc]
      split
      · exact .error trivial
      · rcases hmid with hmid | hmid
        · simp only [hmid, hlow']
          exact .ok rfl
        · rw [hmid]
          exact .ok rfl
    simp only [mappages_one _ hva]
    refine Ends.bind (Q := fun r => r.1 = false) (hwalk.bind fun r hr => ?_) fun r hr => ?_
    · obtain ⟨ok, w⟩ := r
      obtain rfl : ok = false := hr
      exact .ok rfl
    · obtain ⟨ok, w⟩ := r
      obtain rfl : ok = false := hr
      exact (Ends.trivial _).bind fun m' _ => .ok rfl

end Again

/-- No `mapzero` region covers the address. -/
def Proc.noVregion (p : Proc) (va : Nat) : Prop := ∀ j, (p.vregions j).covers va = false

def Proc.noVma (p : Proc) (va : Nat) : Prop := ∀ i, (p.vmas i).covers va = false

/-- What `usertrap` leaves for a fault at `va`. -/
inductive Trap (c : Ctx) (va : Nat) : Ctx → Prop
  | served {d : Page} {perm : Perm} {f : Frame} {w : Vm} (hpage : vpn va ∉ c.proc.pt.leaf)
      (htrap : trapPage c va = .ok (some (d, perm)))
      (hfill : Filled c.vm (pgrounddown va) d perm (some f, w)) : Trap c va (c.setVm w)
  | starved {w : Vm} (hpage : vpn va ∉ c.proc.pt.leaf) (hmoves : Moves c.vm w)
      (hleaf : w.pt.leaf = c.proc.pt.leaf) (hspace : w.space = c.vm.space)
      (hfree : ∀ f ∈ w.mem.free, f ∈ c.mem.free) : Trap c va (c.setVm w).setKilled
  | ignored (h : ¬c.proc.noVregion va ∧ vpn va ∈ c.proc.pt.leaf ∨
      c.proc.noVregion va ∧ c.proc.killed = true) : Trap c va c
  | dropped {w : Vm} (hpage : vpn va ∈ c.proc.pt.leaf) (hmax : pgrounddown va < maxva)
      (hregion : c.proc.noVregion va)
      (halive : c.proc.killed = false) (hvma : c.proc.noVma va ∨ c.mem.free = [])
      (hunmap : uvmunmap c.vm (pgrounddown va) 1 true = .ok w) : Trap c va (c.setVm w).setKilled

section Handlers

variable {c : Ctx} {va : Nat}

theorem Ctx.setVm_self (c : Ctx) : c.setVm c.vm = c := rfl

theorem ismapped_spec (pt : PageTable) (va : Nat) : Ends (ismapped pt (pgrounddown va))
    (fun b => pgrounddown va < maxva ∧ (b = true ↔ vpn va ∈ pt.leaf))
    fun _ => ¬pgrounddown va < maxva := by
  rw [ismapped, PageTable.walk]
  split
  · rename_i hmax
    exact .error (Nat.not_lt.mpr hmax)
  · rename_i hmax
    refine .ok ⟨Nat.not_le.mp hmax, ?_⟩
    rw [vpn_pgrounddown, AList.lookup_isSome]

theorem badFault_cases : Ends (badFault c va) (fun c' =>
    vpn va ∉ c.proc.pt.leaf ∧ c' = c.setKilled ∨
    vpn va ∈ c.proc.pt.leaf ∧ pgrounddown va < maxva ∧ ∃ w, uvmunmap c.vm (pgrounddown va) 1 true =
      .ok w ∧
      c' = (c.setVm w).setKilled) fun _ => True := by
  rw [badFault]
  refine (ismapped_spec _ va).any.bind fun b hb => ?_
  obtain ⟨hmax, hb⟩ := hb
  cases b with
  | true =>
    refine (Ends.self _).bind fun w hw => .ok (Or.inr ⟨hb.mp rfl, hmax, w, hw, rfl⟩)
  | false => exact .ok (Or.inl ⟨fun h => Bool.false_ne_true (hb.mpr h), rfl⟩)

theorem vmfault_cases {v : Vm} (hv : v.Owned) (sz va : Nat) : Ends (vmfault v sz va) (fun r =>
    r = (none, v) ∧ (sz ≤ va ∨ vpn va ∈ v.pt.leaf) ∨
    va < sz ∧ vpn va ∉ v.pt.leaf ∧ Filled v (pgrounddown va) (memset 0) .heap r ∧
      (v.Exhausted (pgrounddown va) → r.1 = none))
    fun _ => ¬(pgrounddown va < maxva ∧ v.mem.Sound) := by
  rw [vmfault]
  split
  · rename_i hle
    exact .ok (Or.inl ⟨rfl, Or.inl hle⟩)
  · rename_i hlt
    refine ((ismapped_spec _ va).mono (fun _ => id) fun _ hnot h => hnot h.1).bind fun b hb => ?_
    obtain ⟨-, hb⟩ := hb
    cases b with
    | true => exact .ok (Or.inl ⟨rfl, Or.inr (hb.mp rfl)⟩)
    | false =>
      have hpage : vpn va ∉ v.pt.leaf := fun h => Bool.false_ne_true (hb.mpr h)
      have haligned := pgrounddown_mod va
      refine ⟨fun {r} hr => Or.inr ⟨by omega, hpage,
        (mapFilled_spec hv haligned _ _).of_eq_ok hr, fun h => ?_⟩, fun {e} herr h => ?_⟩
      · exact (mapFilled_again haligned h _ _).of_eq_ok hr
      · obtain ⟨r, hr, -⟩ := mapFilled_missing (memset 0) .heap haligned h.1 h.2
          (by rw [vpn_pgrounddown]; exact hpage)
        rw [show mapFilled v (pgrounddown va) (memset 0) .heap = .error e from herr] at hr
        cases hr

theorem exhausted_missing {v : Vm} (h : v.Exhausted (pgrounddown va)) : vpn va ∉ v.pt.leaf := by
  intro hpage
  refine h.2 ?_
  rw [← vpn_div, vpn_pgrounddown]
  exact v.pt.leaf_low _ hpage

theorem mmapFault_cases (hv : c.vm.Owned) (hregion : c.proc.noVregion va)
    (halive : c.proc.killed = false) : Ends (mmapFault c va) (fun r =>
    r = (false, c) ∧ (c.proc.noVma va ∨ c.mem.free = []) ∨
    r.1 = true ∧ Trap c va r.2 ∨
    ∃ w, r = (false, c.setVm w) ∧ Moves c.vm w ∧ w.pt.leaf = c.proc.pt.leaf ∧
      w.space = c.vm.space ∧ (∀ f ∈ w.mem.free, f ∈ c.mem.free) ∧
      w.Exhausted (pgrounddown va)) fun _ => True := by
  rw [mmapFault]
  cases hi : firstIdx fun i => (c.proc.vmas i).covers va with
  | none => exact .ok (Or.inl ⟨rfl, Or.inl (firstIdx_none.mp hi)⟩)
  | some i =>
    cases hk : c.mem.kalloc with
    | none => exact .ok (Or.inl ⟨rfl, Or.inr (kalloc_eq_none.mp hk)⟩)
    | some fm =>
      have haligned := pgrounddown_mod va
      refine (Ends.self (c.fs.ilock _)).bind fun ip hip => ?_
      refine (((mapFilled_spec hv haligned _ _).and (mapFilled_exhausts haligned)).bind
        fun r hr => ?_)
      obtain ⟨o, w⟩ := r
      obtain ⟨hfill, hex⟩ := hr
      cases o with
      | some f =>
        obtain ⟨-, hpage, -, -, -⟩ := hfill.mapped f rfl
        rw [vpn_pgrounddown] at hpage
        refine .ok (Or.inr (Or.inl ⟨rfl, .served hpage ?_ hfill⟩))
        simp only [trapPage, firstIdx_none.mpr hregion, halive, hi, hip, Bool.false_eq_true,
          if_false]
        rfl
      | none =>
        obtain ⟨hleaf, hspace⟩ := hfill.failed rfl
        refine .ok (Or.inr (Or.inr ⟨w, rfl, hfill.moves, hleaf, hspace, hfill.free, ?_⟩))
        rcases hex rfl with ⟨hnil, -⟩ | hex
        · have hnone : c.mem.kalloc = none := kalloc_eq_none.mpr hnil
          rw [hnone] at hk
          cases hk
        · exact hex

theorem badFault_starved {w : Vm} (hpage : vpn va ∉ c.proc.pt.leaf) (hmoves : Moves c.vm w)
    (hleaf : w.pt.leaf = c.proc.pt.leaf) (hspace : w.space = c.vm.space)
    (hfree : ∀ f ∈ w.mem.free, f ∈ c.mem.free) :
    Ends (badFault (c.setVm w) va) (Trap c va) fun _ => True := by
  refine badFault_cases.imp fun c' hc' => ?_
  rcases hc' with ⟨-, rfl⟩ | ⟨hthere, -⟩
  · exact .starved hpage hmoves hleaf hspace hfree
  · exact absurd (hleaf ▸ hthere) hpage

theorem heapFault_trap (hv : c.vm.Owned) (hregion : c.proc.noVregion va)
    (halive : c.proc.killed = false) (hvma : c.proc.noVma va ∨ c.mem.free = []) :
    Ends (heapFault c va >>= fun r => if r.1 || r.2.proc.killed then .ok r.2 else badFault r.2 va)
      (Trap c va) fun _ => True := by
  rw [heapFault, bind_assoc]
  refine (vmfault_cases hv c.proc.sz va).any.bind fun r hr => ?_
  rcases hr with ⟨rfl, -⟩ | ⟨hlt, hpage, hfill, -⟩
  · simp only [ok_bind, Option.isSome_none, Ctx.setVm_self, halive, Bool.or_false,
      Bool.false_eq_true, if_false]
    refine badFault_cases.imp fun c' hc' => ?_
    rcases hc' with ⟨hpage, rfl⟩ | ⟨hpage, hmax, w, hw, rfl⟩
    · exact .starved hpage (.refl c.vm) rfl rfl fun _ => id
    · exact .dropped hpage hmax hregion halive hvma hw
  · obtain ⟨o, w⟩ := r
    have halive' : (c.setVm w).proc.killed = false := halive
    cases o with
    | some f =>
      have hnovma : c.proc.noVma va := hvma.resolve_right fun hnil => by
        have hf : f ∈ c.mem.free := (hfill.mapped f rfl).1
        rw [hnil] at hf
        cases hf
      refine .ok (.served hpage ?_ hfill)
      simp only [trapPage, firstIdx_none.mpr hregion, firstIdx_none.mpr hnovma, halive,
        Bool.false_eq_true, if_false, if_pos hlt]
    | none =>
      obtain ⟨hleaf, hspace⟩ := hfill.failed rfl
      simp only [ok_bind, Option.isSome_none, halive', Bool.or_false, Bool.false_eq_true, if_false]
      exact badFault_starved hpage hfill.moves hleaf hspace hfill.free

theorem heapFault_exhausted {w : Vm} (hv : c.vm.Owned) (halive : c.proc.killed = false)
    (hmoves : Moves c.vm w) (hleaf : w.pt.leaf = c.proc.pt.leaf) (hspace : w.space = c.vm.space)
    (hfree : ∀ f ∈ w.mem.free, f ∈ c.mem.free) (hex : w.Exhausted (pgrounddown va)) :
      Ends (heapFault (c.setVm w) va >>= fun r =>
      if r.1 || r.2.proc.killed then .ok r.2 else badFault r.2 va) (Trap c va) fun _ => True := by
  have hpage : vpn va ∉ c.proc.pt.leaf := hleaf ▸ exhausted_missing hex
  rw [heapFault, bind_assoc]
  refine (vmfault_cases (hmoves.owned hv) c.proc.sz va).any.bind fun r hr => ?_
  obtain ⟨o, w'⟩ := r
  have halive' : (c.setVm w').proc.killed = false := halive
  obtain ⟨rfl, hmoves', hfree', hleaf', hspace'⟩ : o = none ∧ Moves w w' ∧
      (∀ f ∈ w'.mem.free, f ∈ w.mem.free) ∧ w'.pt.leaf = w.pt.leaf ∧ w'.space = w.space := by
    rcases hr with ⟨heq, -⟩ | ⟨-, -, hfill, hnone⟩
    · obtain ⟨rfl, rfl⟩ := Prod.mk.inj heq
      exact ⟨rfl, .refl _, fun _ => id, rfl, rfl⟩
    · obtain rfl : o = none := hnone hex
      exact ⟨rfl, hfill.moves, hfill.free, hfill.failed rfl⟩
  have hset : (c.setVm w).setVm w' = c.setVm w' := rfl
  simp only [ok_bind, Option.isSome_none, hset, halive', Bool.or_false, Bool.false_eq_true,
    if_false]
  exact badFault_starved hpage (hmoves.trans hmoves') (hleaf'.trans hleaf) (hspace'.trans hspace)
    fun f hf => hfree f (hfree' f hf)

theorem usertrap_cases (hv : c.vm.Owned) (va : Nat) :
    Ends (usertrap c va) (Trap c va) fun _ => True := by
  cases hj : firstIdx fun j => (c.proc.vregions j).covers va with
  | some j =>
    have hcover : ¬c.proc.noVregion va := fun h => by
      rw [firstIdx_none.mpr h] at hj
      cases hj
    rw [usertrap, vregionFault]
    simp only [hj]
    rw [bind_assoc]
    refine (ismapped_spec _ va).any.bind fun b hb => ?_
    obtain ⟨-, hb⟩ := hb
    cases b with
    | true =>
      refine .ok (.ignored (Or.inl ⟨hcover, hb.mp rfl⟩))
    | false =>
      have hpage : vpn va ∉ c.proc.pt.leaf := fun h => Bool.false_ne_true (hb.mpr h)
      simp only [Bool.false_eq_true, if_false, bind_assoc]
      refine (mapFilled_spec hv (pgrounddown_mod va) _ _).bind fun r hr => ?_
      obtain ⟨o, w⟩ := r
      cases o with
      | some f =>
        refine .ok (.served hpage ?_ hr)
        simp only [trapPage, hj]
      | none =>
        obtain ⟨hleaf, hspace⟩ := hr.failed rfl
        exact .ok (.starved hpage hr.moves hleaf hspace hr.free)
  | none =>
    have hregion : c.proc.noVregion va := firstIdx_none.mp hj
    cases halive : c.proc.killed with
    | true =>
      rw [usertrap_killed hj halive]
      exact .ok (.ignored (Or.inr ⟨hregion, halive⟩))
    | false =>
      rw [usertrap, vregionFault_none hj, ok_bind, orElse]
      simp only [halive, Bool.or_false, Bool.false_eq_true, if_false]
      refine (mmapFault_cases hv hregion halive).bind fun r hr => ?_
      rcases hr with ⟨rfl, hvma⟩ | ⟨hok, htrap⟩ | ⟨w, rfl, hmoves, hleaf, hspace, hfree, hex⟩
      · simp only [orElse, halive, Bool.or_false, Bool.false_eq_true, if_false]
        exact heapFault_trap hv hregion halive hvma
      · simp only [orElse, hok, Bool.true_or, if_true, ok_bind]
        exact .ok htrap
      · have halive' : (c.setVm w).proc.killed = false := halive
        simp only [orElse, halive', Bool.or_false, Bool.false_eq_true, if_false]
        exact heapFault_exhausted hv halive hmoves hleaf hspace hfree hex

end Handlers

theorem sampleCtx_owned : sampleCtx.vm.Owned :=
  ⟨Multiset.nodup_iff_count_le_one.mp (show sampleCtx.vm.frames.Nodup by decide +kernel),
    show ∀ i ∈ sampleCtx.vm.pt.mid, i < 512 by decide +kernel⟩

end EafitOs.Memory
