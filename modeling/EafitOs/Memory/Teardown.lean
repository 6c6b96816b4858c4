import EafitOs.Memory.Confined

/-!
# Freeing an address space

Every user page of a process lies below its size, so `proc_freepagetable` frees all of
them and `freewalk` meets no leaf. `sys_map_ro`, a wrapping `sys_mmap` and faults in
regions above the size can put a page above it.
-/

namespace EafitOs.Memory

open Foundation

structure Bounded (p : Proc) : Prop where
  top : p.sz ≤ trapframe
  confined : Confined p.pt (npg p.sz)

/-- The calls that put no page above the size of the process that makes them. -/
def TeardownSafe (p : Proc) : Call → Prop
  | .mmap length .. => pgroundup p.sz + pgroundup length.toNat < 2 ^ 64
  | .mapRo va => pgrounddown va.toNat < pgroundup p.sz
  | .load va | .store va _ =>
    (∃ i, (p.vmas i).covers va.toNat) ∨ (∃ j, (p.vregions j).covers va.toNat) →
      va.toNat < pgroundup p.sz
  | _ => True

theorem vpn_lt_of_lt_pgroundup {va sz : Nat} (h : va < pgroundup sz) : vpn va < npg sz := by
  have hmul := npg_mul sz
  simp only [vpn, pgsize] at hmul ⊢
  omega

theorem setLeaf_confined {pt : PageTable} {n i : Nat} {e : Pte} (h : Confined pt n)
    (hi : i ∈ pt.leaf) : Confined (pt.setLeaf i e) n := by
  intro j hj
  rw [PageTable.setLeaf_leaf pt i e (pt.leaf_low i hi), AList.mem_insert] at hj
  rcases hj with rfl | hj
  · exact h j hi
  · exact h j hj

theorem uvmclear_confined {v : Vm} {va n : Nat} (h : Confined v.pt n) :
    Ends (uvmclear v va) (fun v' => Confined v'.pt n) NotLeaf := by
  simp only [uvmclear]
  split
  · exact .error (by decide)
  · split
    · split
      · exact .ok h
      · exact .error (by decide)
    · rename_i e he
      exact .ok <| setLeaf_confined h (AList.lookup_isSome.mp (by simp [he]))

theorem copyout_new {v : Vm} {n : Nat} (h : Confined v.pt n) (dstva : Nat) (src : List UInt8) :
    Ends (copyout v 0 dstva src) (fun r => Confined r.2.pt n) NotLeaf :=
  copyoutLoop_confined (Nat.zero_le _) (by simp [npg, pgroundup, pgsize]) _ h

theorem pushArgs_confined {stackbase n : Nat} (args : List (List UInt8)) :
    ∀ {sp : Nat} {ustack : List Nat} {v : Vm}, Confined v.pt n →
      Ends (pushArgs 0 stackbase args sp ustack v) (fun r => Confined r.2.2.2.pt n) NotLeaf := by
  induction args with
  | nil => exact fun h => .ok h
  | cons arg rest ih =>
    intro sp ustack v h
    simp only [pushArgs]
    split
    · exact .ok h
    · split
      · exact .ok h
      · refine (copyout_new h _ _).bind ?_
        rintro ⟨ok, v'⟩ hv'
        cases ok with
        | true => exact ih hv'
        | false => exact .ok hv'

theorem buildStack_confined (argv : List (List UInt8)) (sz : Nat) {v : Vm} {n : Nat}
    (h : Confined v.pt n) :
    Ends (buildStack 0 argv sz v) (fun r => Confined r.2.pt n) NotLeaf := by
  simp only [buildStack]
  refine (uvmclear_confined h).bind fun v₁ h₁ => ?_
  refine (pushArgs_confined argv h₁).bind ?_
  rintro ⟨ok, sp, ustack, v₂⟩ h₂
  cases ok with
  | false => exact .ok h₂
  | true =>
    simp only [Bool.not_true, Bool.false_eq_true, if_false]
    split
    · exact .error (by decide)
    · split
      · exact .ok h₂
      · exact (copyout_new h₂ _ _).bind fun r hr => .ok hr

theorem buildImage_confined (fs : Fs) (ip : Nat) (argv : List (List UInt8)) {v : Vm}
    (h : Confined v.pt 0) (hT : vpn trapframe ∈ v.pt.leaf) :
    Ends (buildImage fs ip argv v) (fun r => r.2.1 ≤ trapframe ∧ Confined r.2.2.pt (npg r.2.1))
      NotLeaf := by
  have hload : Loading 0 v := ⟨Nat.zero_le _, h.mono (Nat.zero_le _), hT⟩
  simp only [buildImage]
  refine (loadLoop_step fs ip _ hload).bind ?_
  rintro ⟨ok, sz, v₁⟩ ⟨htop, hc, hguard⟩
  cases ok with
  | false => exact .ok ⟨htop, hc⟩
  | true =>
    have hround := pgroundup_of_le htop
    have hsame : npg (pgroundup sz) = npg sz := by
      simp only [npg, pgroundup, trapframe, trampoline, maxva, pgsize] at htop hround ⊢
      omega
    have hc' : Confined v₁.pt (npg (pgroundup sz)) := hsame.symm ▸ hc
    have hgrow : Ends (growStack 0 argv sz v₁) (fun r => r.2.1 ≤ trapframe ∧
        Confined r.2.2.pt (npg r.2.1)) NotLeaf := by
      refine (uvmalloc_confined _ _ hround.2.1 hc' (Or.inl (hguard rfl))).bind ?_
      rintro ⟨sz1, v₂⟩ h₂
      simp only at h₂ ⊢
      split
      · rename_i hzero
        rw [if_pos hzero] at h₂
        exact .ok ⟨hround.2.1, h₂⟩
      · rename_i hzero
        rw [if_neg hzero] at h₂
        exact (buildStack_confined argv sz1 h₂.1).bind fun r hr => Ends.ok ⟨h₂.2.1, hr⟩
    exact hgrow.bind fun r hr => .ok hr

theorem ilock_notLeaf (fs : Fs) (ip : Option Nat) :
    Ends (fs.ilock ip) (fun _ => True) NotLeaf := by
  simp only [Fs.ilock]
  split
  · exact .error (by decide)
  · split
    · exact .error (by decide)
    · split
      · exact .error (by decide)
      · exact .ok trivial

theorem filedup_notLeaf (fs : Fs) (f : Nat) :
    Ends (fs.filedup f) (fun _ => True) NotLeaf := by
  simp only [Fs.filedup]
  split
  · exact .error (by decide)
  · exact .ok trivial

theorem fileclose_notLeaf (fs : Fs) (f : Nat) :
    Ends (fs.fileclose f) (fun _ => True) NotLeaf := by
  simp only [Fs.fileclose]
  split
  · exact .error (by decide)
  · split
    · exact .ok trivial
    · split <;> exact .ok trivial

theorem dupFiles_notLeaf (fs : Fs) (p : Proc) :
    Ends (Kernel.dupFiles fs p) (fun _ => True) NotLeaf := by
  refine Ends.bind (Q := fun _ => True) ?_ fun fs₁ _ => ?_
  · refine Ends.foldlM (fun _ => True) trivial fun i _ fs _ => ?_
    split
    · exact filedup_notLeaf fs _
    · exact .ok trivial
  · refine Ends.bind (Q := fun _ => True) ?_ fun fs₂ _ => ?_
    · refine Ends.foldlM (fun _ => True) trivial fun fd _ fs _ => ?_
      split
      · exact .ok trivial
      · exact filedup_notLeaf fs _
    · split <;> exact .ok trivial

theorem releasePage_confined {v : Vma} {c : Ctx} {va n : Nat} (h : Confined c.proc.pt n) :
    Ends (releasePage v c va) (fun c' => Confined c'.proc.pt n) NotLeaf := by
  simp only [releasePage, PageTable.walk]
  split
  · exact .error (by decide)
  · rename_i hva
    refine Ends.bind (Ends.ok (Q := fun _ => True) trivial) fun e _ => ?_
    cases e with
    | none => exact .ok h
    | some e =>
      have hwrap : va + 1 * pgsize < 2 ^ 64 := by
        simp only [maxva, pgsize] at hva ⊢
        omega
      have hback : Ends (writeBackIf c v va e) (fun _ => True) NotLeaf := by
        simp only [writeBackIf]
        split
        · exact (ilock_notLeaf _ _).bind fun _ _ => .ok trivial
        · exact .ok trivial
      refine (hback.and (writeBackIf_proc c v va e)).bind fun c₁ h₁ => ?_
      refine (uvmunmap_leaf c₁.vm va 1 true hwrap).bind fun vm hvm => .ok ?_
      have hc₁ : Confined c₁.vm.pt n := by
        rw [Ctx.vm, h₁.2.1]
        exact h
      exact hc₁.of_lookup hvm fun _ _ hi => hi

theorem releasePages_confined {v : Vma} {c : Ctx} {n : Nat} (vas : List Nat)
    (h : Confined c.proc.pt n) :
    Ends (vas.foldlM (releasePage v) c) (fun c' => Confined c'.proc.pt n) NotLeaf :=
  Ends.foldlM (fun c' : Ctx => Confined c'.proc.pt n) h fun _ _ _ hc => releasePage_confined hc

theorem releaseVma_notLeaf (c : Ctx) (i : Fin maxvma) :
    Ends (releaseVma c i) (fun c' => c'.proc = c.proc.release i) NotLeaf :=
  (fileclose_notLeaf _ _).bind fun _ _ => .ok rfl

structure Handled (p : Proc) (c : Ctx) : Prop where
  same : SameRegions p c.proc
  confined : Confined c.proc.pt (npg p.sz)

namespace Handled

variable {p : Proc} {c : Ctx} {va : Nat}

section

variable (h : Handled p c)
include h

theorem setVm {v : Vm} (hv : Confined v.pt (npg p.sz)) : Handled p (c.setVm v) :=
  ⟨h.same.trans (setVm_sameRegions c v), hv⟩

theorem setKilled : Handled p c.setKilled :=
  ⟨⟨h.same.sz, h.same.vmas, h.same.vregions⟩, h.confined⟩

theorem vregionFault (hva : (∃ j, (p.vregions j).covers va) → va < pgroundup p.sz) :
    Ends (vregionFault c va) (fun r => Handled p r.2) NotLeaf := by
  simp only [Memory.vregionFault]
  split
  · exact .ok h
  · rename_i j hj
    have hlt := hva ⟨j, h.same.vregions ▸ firstIdx_some hj⟩
    refine (ismapped_notLeaf _ _).bind fun mapped _ => ?_
    split
    · exact .ok h
    · refine (mapFilled_confined (v := c.vm) h.confined ?_).bind fun r hr => .ok ?_
      · rw [vpn_pgrounddown]
        exact vpn_lt_of_lt_pgroundup hlt
      · split
        · exact h.setVm hr
        · exact (h.setVm hr).setKilled

theorem mmapFault (hva : (∃ i, (p.vmas i).covers va) → va < pgroundup p.sz) :
    Ends (mmapFault c va) (fun r => Handled p r.2) NotLeaf := by
  simp only [Memory.mmapFault]
  split
  · exact .ok h
  · rename_i i hi
    have hlt := hva ⟨i, h.same.vmas ▸ firstIdx_some hi⟩
    split
    · exact .ok h
    · refine (ilock_notLeaf _ _).bind fun ip _ => ?_
      refine (mapFilled_confined (v := c.vm) h.confined ?_).bind fun r hr => .ok (h.setVm hr)
      rw [vpn_pgrounddown]
      exact vpn_lt_of_lt_pgroundup hlt

theorem heapFault (htop : p.sz ≤ trapframe) :
    Ends (heapFault c va) (fun r => Handled p r.2) NotLeaf := by
  refine (vmfault_confined (v := c.vm) (n := npg p.sz) ?_ ?_ h.confined).bind fun r hr =>
    .ok (h.setVm hr)
  · exact h.same.sz.symm ▸ htop
  · rw [h.same.sz]

theorem badFault : Ends (badFault c va) (fun c' => Handled p c') NotLeaf := by
  refine (ismapped_notLeaf _ _).bind fun mapped hm => ?_
  split
  · have hwrap : pgrounddown va + 1 * pgsize < 2 ^ 64 := by
      have := hm.2
      simp only [maxva, pgsize] at this ⊢
      omega
    refine (uvmunmap_leaf c.vm _ 1 true hwrap).bind fun vm hvm => .ok ?_
    exact (h.setVm (h.confined.of_lookup hvm fun _ _ hi => hi)).setKilled
  · exact .ok h.setKilled

end

theorem orElse {r : Bool × Ctx} {f : Ctx → Except String (Bool × Ctx)} (h : Handled p r.2)
    (hf : ∀ c, Handled p c → Ends (f c) (fun r => Handled p r.2) NotLeaf) :
    Ends (orElse r f) (fun r => Handled p r.2) NotLeaf := by
  simp only [Memory.orElse]
  split
  · exact .ok h
  · exact hf r.2 h

theorem usertrap (h : Handled p c) (htop : p.sz ≤ trapframe)
    (hva : (∃ i, (p.vmas i).covers va) ∨ (∃ j, (p.vregions j).covers va) →
      va < pgroundup p.sz) : Ends (usertrap c va) (fun c' => Handled p c') NotLeaf := by
  refine (h.vregionFault fun hj => hva (Or.inr hj)).bind fun r hr => ?_
  refine (hr.orElse fun c hc => hc.mmapFault fun hi => hva (Or.inl hi)).bind fun r hr => ?_
  refine (hr.orElse fun c hc => hc.heapFault htop).bind fun r hr => ?_
  split
  · exact .ok hr
  · exact hr.badFault

end Handled

namespace Bounded

theorem of_handled {p : Proc} {c : Ctx} (h : Bounded p) (hc : Handled p c) : Bounded c.proc :=
  ⟨hc.same.sz ▸ h.top, hc.same.sz ▸ hc.confined⟩

theorem handled {c : Ctx} (h : Bounded c.proc) : Handled c.proc c :=
  ⟨SameRegions.refl _, h.confined⟩

theorem grow {p q : Proc} (h : Bounded p) (hpt : q.pt = p.pt) (hle : p.sz ≤ q.sz)
    (htop : q.sz ≤ trapframe) : Bounded q := by
  refine ⟨htop, ?_⟩
  rw [hpt]
  exact h.confined.mono (Nat.div_le_div_right (pgroundup_mono hle htop))

section

variable {c : Ctx} (h : Bounded c.proc)
include h

theorem exec (ip : Option Nat) (argv : List (List UInt8)) :
    Ends (kexec c ip argv) (fun r => Bounded r.2.proc) NotLeaf := by
  simp only [kexec]
  split
  · exact .ok h
  · split
    · exact .ok h
    · split
      · exact .ok h
      · refine (procPagetable_confined c.mem c.proc.tf).bind ?_
        rintro ⟨v, m⟩ hv
        cases v with
        | none => exact .ok ⟨h.top, h.confined⟩
        | some v =>
          obtain ⟨hc, hT⟩ := hv v rfl
          refine (buildImage_confined c.fs _ argv hc hT).bind ?_
          rintro ⟨ok, sz, v'⟩ ⟨htop, hc'⟩
          cases ok with
          | true =>
            refine (procFreepagetable_confined (v := ⟨v'.mem, c.proc.pt⟩) h.top h.confined).bind ?_
            exact fun _ _ => .ok ⟨htop, hc'⟩
          | false =>
            exact (procFreepagetable_confined htop hc').bind fun _ _ => .ok ⟨h.top, h.confined⟩

theorem mmap {length : Nat} (prot flags : UInt32) (fd : Int)
    (offset : Nat) (hwrap : pgroundup c.proc.sz + pgroundup length < 2 ^ 64) :
    Ends (sysMmap c length prot flags fd offset) (fun r => Bounded r.2.proc) NotLeaf := by
  have hpanic : Ends (sysMmap c length prot flags fd offset) (fun _ => True) NotLeaf := by
    simp only [sysMmap]
    repeat' split
    all_goals first
      | exact .ok trivial
      | exact (filedup_notLeaf _ _).bind fun _ _ => .ok trivial
  refine (hpanic.and (sysMmap_regions c length prot flags fd offset)).imp ?_
  rintro r ⟨-, hr | ⟨i, f, -, -, htop, -, hp⟩⟩
  · exact hr ▸ h
  · rw [hp]
    rw [Nat.mod_eq_of_lt hwrap] at htop ⊢
    exact h.grow rfl (Nat.le_trans (pgroundup_of_le h.top).1 (Nat.le_add_right _ _)) htop

theorem munmap (addr length : Nat) :
    Ends (sysMunmap c addr length) (fun r => Bounded r.2.proc) NotLeaf := by
  simp only [sysMunmap]
  split
  · exact .ok h
  · refine ((releasePages_confined _ h.confined).and (releasePages_sameRegions _ c _)).bind ?_
    rintro c₁ ⟨hc₁, hs₁⟩
    refine (releaseVma_notLeaf c₁ _).bind fun c₂ h₂ => .ok ?_
    show Bounded c₂.proc
    rw [h₂]
    exact ⟨hs₁.sz.symm ▸ h.top, hs₁.sz.symm ▸ hc₁⟩

theorem growproc (n : Int) : Ends (growproc c n) (fun r => Bounded r.2.proc) NotLeaf := by
  simp only [Memory.growproc]
  split
  · split
    · exact .ok h
    · rename_i htop
      refine (uvmalloc_confined (v := c.vm) true false h.top h.confined
        (Or.inr (by omega : addInt c.proc.sz n ≤ trapframe))).bind ?_
      rintro ⟨sz', v⟩ hr
      simp only at hr ⊢
      split
      · rename_i h0
        rw [if_pos h0] at hr
        exact .ok ⟨h.top, hr⟩
      · rename_i h0
        rw [if_neg h0] at hr
        exact .ok ⟨hr.2.1, hr.1⟩
  · split
    · refine ((uvmdealloc_confined (v := c.vm) h.top h.confined).and (uvmdealloc_size _ _ _)).bind
        ?_
      rintro ⟨sz', v⟩ ⟨hc, hsz⟩
      obtain rfl : sz' = min c.proc.sz (addInt c.proc.sz n) := hsz
      exact .ok ⟨Nat.le_trans (Nat.min_le_left _ _) h.top, hc⟩
    · exact .ok h

theorem sbrk (n t : Int) : Ends (sysSbrk c n t) (fun r => Bounded r.2.proc) NotLeaf := by
  simp only [sysSbrk]
  split
  · exact (h.growproc n).bind fun r hr => .ok hr
  · split
    · exact .ok h
    · split
      · exact .ok h
      · exact .ok (h.grow rfl (Nat.le_of_not_lt ‹_›) (Nat.le_of_not_lt ‹_›))

theorem mapzero (size : Int) : Bounded (sysMapzero c size).2.proc := by
  rcases sysMapzero_regions c size with hr | ⟨i, _, hle, htop, hr⟩
  · rw [hr]
    exact h
  · rw [hr]
    exact h.grow rfl hle htop

theorem mapRo {va : Nat} (hva : pgrounddown va < pgroundup c.proc.sz) :
    Ends (sysMapRo c va) (fun r => Bounded r.2.proc) NotLeaf := by
  refine (mapFilled_confined (v := c.vm) h.confined (vpn_lt_of_lt_pgroundup hva)).bind ?_
  exact fun r hr => .ok (h.of_handled (h.handled.setVm hr))

theorem fault {va : Nat}
    (hva : (∃ i, (c.proc.vmas i).covers va) ∨ (∃ j, (c.proc.vregions j).covers va) →
      va < pgroundup c.proc.sz) :
    Ends (do
      let c ← usertrap c va
      .ok (none, c)) (fun r : Option Nat × Ctx => Bounded r.2.proc) NotLeaf :=
  (h.handled.usertrap h.top hva).bind fun _ hr => .ok (h.of_handled hr)

theorem call (namei : String → Option Nat) {a : Call} (ha : TeardownSafe c.proc a) :
    Ends (c.run namei a) (fun r => Bounded r.2.proc) NotLeaf := by
  have hn := Nat.le_refl (npg c.proc.sz)
  cases a with
  | mmap length prot flags fd offset => exact h.mmap prot flags _ _ ha
  | munmap addr length => exact (h.munmap _ _).bind fun _ hr => .ok hr
  | sbrk n t => exact h.sbrk _ _
  | mapzero size => exact .ok (h.mapzero _)
  | mapRo va => exact (h.mapRo ha).bind fun _ hr => .ok hr
  | exec path argv => exact h.exec _ _
  | load va =>
    simp only [Ctx.run]
    split
    · exact .ok h
    · exact h.fault ha
  | store va b =>
    simp only [Ctx.run]
    split
    · rename_i v hv
      obtain ⟨e, _, rfl⟩ := Option.map_eq_some_iff.mp hv
      exact .ok ⟨h.top, h.confined⟩
    · exact h.fault ha
  | copyin va len =>
    refine (copyinLoop_confined (v := c.vm) h.top hn _ h.confined).bind fun r hr => ?_
    exact .ok (h.of_handled (h.handled.setVm hr))
  | copyout va bs =>
    refine (copyoutLoop_confined (v := c.vm) h.top hn _ h.confined).bind fun r hr => ?_
    exact .ok (h.of_handled (h.handled.setVm hr))
  | copyinstr va max =>
    refine (copyinstrLoop_confined (v := c.vm) h.top hn _ h.confined).bind fun r hr => ?_
    exact .ok (h.of_handled (h.handled.setVm hr))

theorem exit : Ends (kexit c) (fun c' => Bounded c'.proc) NotLeaf := by
  refine Ends.bind (Q := fun c' : Ctx => Bounded c'.proc) ?_ fun c₁ h₁ => ?_
  · refine Ends.foldlM (fun c : Ctx => Bounded c.proc) h fun i _ c hc => ?_
    simp only [exitVma]
    split
    · exact .ok hc
    · refine ((releasePages_confined _ hc.confined).and (releasePages_sameRegions _ c _)).bind ?_
      rintro c₁ ⟨hc₁, hs₁⟩
      refine (releaseVma_notLeaf c₁ i).imp fun c₂ h₂ => ?_
      rw [h₂]
      exact ⟨hs₁.sz.symm ▸ hc.top, hs₁.sz.symm ▸ hc₁⟩
  · refine Ends.bind (Q := fun c' : Ctx => Bounded c'.proc) ?_ fun c₂ h₂ => ?_
    · refine Ends.foldlM (fun c : Ctx => Bounded c.proc) h₁ fun fd _ c hc => ?_
      simp only [exitFile]
      split
      · exact .ok hc
      · exact (fileclose_notLeaf _ _).bind fun _ _ => .ok ⟨hc.top, hc.confined⟩
    · split
      · exact .ok h₂
      · exact .ok ⟨h₂.top, h₂.confined⟩

end

theorem fork {p : Proc} (h : Bounded p) (m : Mem) (tf : Frame) (i : Option (Fin nproc)) :
    Ends (procPagetable m tf) (fun r => ∀ v, r.1 = some v →
      Ends (uvmcopy p.pt v p.sz) (fun r =>
        if r.1 then Bounded { p with pt := r.2.pt, tf := tf, parent := i, killed := false }
        else ∀ m, Ends (procFreepagetable ⟨m, r.2.pt⟩ 0) (fun _ => True) NotLeaf) NotLeaf)
      NotLeaf := by
  refine (procPagetable_confined m tf).imp fun r hr v hv => ?_
  refine (uvmcopy_confined p.pt h.top (hr v hv).1).imp ?_
  rintro ⟨ok, v'⟩ hc
  cases ok with
  | true => exact ⟨h.top, hc⟩
  | false => exact fun m => procFreepagetable_confined (Nat.zero_le _) hc

theorem procInvariant : ProcInvariant Bounded TeardownSafe NotLeaf where
  parent _ _ h := ⟨h.top, h.confined⟩
  call mem fs p namei _ h ha := call (c := ⟨mem, fs, p⟩) h namei ha
  exit _ h := h.exit
  init := by decide
  kfree := kfree_pt
  fork m p tf i h := h.fork m tf i
  dup := dupFiles_notLeaf
  copyout m p _ _ h :=
    (copyoutLoop_confined (v := ⟨m, p.pt⟩) h.top (Nat.le_refl _) _ h.confined).imp
      fun _ hr => ⟨h.top, hr⟩
  free m p h := procFreepagetable_confined (v := ⟨m, p.pt⟩) h.top h.confined

theorem leaf_lt {p : Proc} (h : Bounded p) {i : Nat} (hi : i ∈ p.pt.leaf) :
    i = vpn trampoline ∨ i = vpn trapframe ∨ i * pgsize < pgroundup p.sz := by
  have hmul := npg_mul p.sz
  have hlt := h.confined i hi
  simp only [pgsize] at hmul ⊢
  omega

end Bounded

/-- In every run whose calls put no page above the size, all leaves but the trampoline
and the trapframe lie below the size, and freeing an address space meets no leaf. -/
theorem teardown_leaves_below_size {k₀ k : Kernel} {ls : List Act} (hpanic : k₀.panic = none)
    (h₀ : k₀.AllProcs Bounded) (run : Run (guarded (Calls TeardownSafe) KStep) k₀ ls k) :
    (k.AllProcs fun p =>
      (∀ i ∈ p.pt.leaf, i = vpn trampoline ∨ i = vpn trapframe ∨ i * pgsize < pgroundup p.sz) ∧
      ∀ m, procFreepagetable ⟨m, p.pt⟩ p.sz ≠ .error "freewalk: leaf") ∧
    k.panic ≠ some "freewalk: leaf" := by
  obtain ⟨hall, hlast⟩ := Bounded.procInvariant.run h₀ hpanic run
  refine ⟨fun i p hp => ⟨fun j hj => (hall i p hp).leaf_lt hj, fun m hm => ?_⟩, fun hk => ?_⟩
  · exact (Bounded.procInvariant.free m p (hall i p hp)).of_eq_error hm rfl
  · exact hlast _ hk rfl

theorem samplePt_leaf (f : Frame) : ∀ i ∈ (samplePt f).leaf, i = vpn trampoline ∨ i =
    vpn trapframe := by
  intro i hi
  have hkeys : (samplePt f).leaf.keys = [vpn trapframe, vpn trampoline] := rfl
  rw [AList.mem_keys, hkeys] at hi
  simp only [List.mem_cons, List.not_mem_nil, or_false] at hi
  exact hi.symm

theorem sampleProc_bounded (f : Frame) (parent : Option (Fin nproc)) :
    Bounded (sampleProc f parent) := by
  refine ⟨show 4096 ≤ trapframe by decide, fun i hi => ?_⟩
  have := samplePt_leaf f i hi
  omega

theorem sampleKernel_bounded : sampleKernel.AllProcs Bounded :=
  sampleKernel_allProcs sampleProc_bounded

/-- A read-only page below the size is safe. -/
theorem teardown_mapRo_below : ∃ k, KStep sampleKernel (.call 1 (.mapRo 0)) k ∧
    (k.proc? 1).map (fun p => decide (vpn 0 ∈ p.pt.leaf)) = some true ∧
    (k.AllProcs fun p =>
      (∀ i ∈ p.pt.leaf, i = vpn trampoline ∨ i = vpn trapframe ∨ i * pgsize < pgroundup p.sz) ∧
      ∀ m, procFreepagetable ⟨m, p.pt⟩ p.sz ≠ .error "freewalk: leaf") ∧
    k.panic ≠ some "freewalk: leaf" := by
  obtain ⟨k, hk, hleaf⟩ : ∃ k ∈ sampleKernel.step (.call 1 (.mapRo 0)),
      (k.proc? 1).map (fun p => decide (vpn 0 ∈ p.pt.leaf)) = some true := by decide +kernel
  refine ⟨k, hk, hleaf,
    teardown_leaves_below_size rfl sampleKernel_bounded (.snoc .nil ⟨?_, hk⟩)⟩
  intro i c p hc hp
  obtain ⟨rfl, rfl⟩ := Act.call.inj hc
  obtain rfl : sampleProc 0x80120 (some 0) = p := Slot.live.inj hp
  show pgrounddown 0 < pgroundup 4096
  decide

/-- A read-only page far above the size is still there when the parent frees the child. -/
theorem mapRo_breaks_teardown : sampleKernel.AllProcs Bounded ∧
    ∃ k, exec Kernel.step sampleKernel
        [.call 1 (.mapRo 0x40000000), .exit 1 0, .wait 0 0] = some k ∧
      k.panic = some "freewalk: leaf" := by
  have hfacts : ∃ k ∈ exec Kernel.step sampleKernel
      [.call 1 (.mapRo 0x40000000), .exit 1 0, .wait 0 0],
      k.panic = some "freewalk: leaf" := by decide +kernel
  exact ⟨sampleKernel_bounded, hfacts⟩

end EafitOs.Memory
