import EafitOs.Memory.Invariant

/-!
# What calls do to the size and the regions of a process

Most of the kernel changes only the page table of a process. The calls that move
`p->sz` or a region table are described one by one.
-/

namespace EafitOs.Memory

open Foundation Function

variable {E : String → Prop}

theorem firstIdx_some {n : Nat} {test : Fin n → Bool} {i : Fin n} (h : firstIdx test = some i) :
    test i = true :=
  List.find?_some h

structure SameRegions (p q : Proc) : Prop where
  sz : q.sz = p.sz
  vmas : q.vmas = p.vmas
  vregions : q.vregions = p.vregions

namespace SameRegions

theorem refl (p : Proc) : SameRegions p p := ⟨rfl, rfl, rfl⟩

theorem trans {p q r : Proc} (h : SameRegions p q) (h' : SameRegions q r) : SameRegions p r :=
  ⟨h'.sz.trans h.sz, h'.vmas.trans h.vmas, h'.vregions.trans h.vregions⟩

end SameRegions

theorem setVm_sameRegions (c : Ctx) (v : Vm) : SameRegions c.proc (c.setVm v).proc :=
  ⟨rfl, rfl, rfl⟩

theorem mmapFault_sameRegions (c : Ctx) (va : Nat) :
    Ends (mmapFault c va) (fun r => SameRegions c.proc r.2.proc) fun _ => True := by
  simp only [mmapFault]
  split
  · exact .ok (SameRegions.refl _)
  · split
    · exact .ok (SameRegions.refl _)
    · exact (Ends.trivial _).bind fun _ _ => (Ends.trivial _).bind fun r _ =>
        .ok (setVm_sameRegions c r.2)

theorem vregionFault_sameRegions (c : Ctx) (va : Nat) :
    Ends (vregionFault c va) (fun r => SameRegions c.proc r.2.proc) fun _ => True := by
  simp only [vregionFault]
  split
  · exact .ok (SameRegions.refl _)
  · refine (Ends.trivial _).bind fun mapped _ => ?_
    split
    · exact .ok (SameRegions.refl _)
    · refine (Ends.trivial _).bind fun r _ => ?_
      apply Ends.ok
      split
      · exact setVm_sameRegions c r.2
      · exact ⟨rfl, rfl, rfl⟩

theorem heapFault_sameRegions (c : Ctx) (va : Nat) :
    Ends (heapFault c va) (fun r => SameRegions c.proc r.2.proc) fun _ => True :=
  (Ends.trivial _).bind fun r _ => .ok (setVm_sameRegions c r.2)

theorem badFault_sameRegions (c : Ctx) (va : Nat) :
    Ends (badFault c va) (fun c' => SameRegions c.proc c'.proc) fun _ => True := by
  refine (Ends.trivial _).bind fun mapped _ => ?_
  split
  · exact (Ends.trivial _).bind fun _ _ => Ends.ok ⟨rfl, rfl, rfl⟩
  · exact .ok ⟨rfl, rfl, rfl⟩

theorem orElse_sameRegions {p : Proc} {r : Bool × Ctx} {f : Ctx → Except String (Bool × Ctx)}
    (h : SameRegions p r.2.proc)
    (hf : ∀ c, Ends (f c) (fun r => SameRegions c.proc r.2.proc) fun _ => True) :
    Ends (orElse r f) (fun r => SameRegions p r.2.proc) fun _ => True := by
  simp only [orElse]
  split
  · exact .ok h
  · exact (hf r.2).imp fun _ h' => h.trans h'

theorem usertrap_sameRegions (c : Ctx) (va : Nat) :
    Ends (usertrap c va) (fun c' => SameRegions c.proc c'.proc) fun _ => True := by
  refine (vregionFault_sameRegions c va).bind fun r hr => ?_
  refine (orElse_sameRegions hr fun c => mmapFault_sameRegions c va).bind fun r hr => ?_
  refine (orElse_sameRegions hr fun c => heapFault_sameRegions c va).bind fun r hr => ?_
  split
  · exact .ok hr
  · exact (badFault_sameRegions r.2 va).imp fun _ h => hr.trans h

theorem writeBackIf_proc (c : Ctx) (v : Vma) (va : Nat) (e : Pte) :
    Ends (writeBackIf c v va e) (fun c' => c'.proc = c.proc ∧ c'.mem = c.mem) fun _ => True := by
  simp only [writeBackIf]
  split
  · exact (Ends.trivial _).bind fun _ _ => Ends.ok ⟨rfl, rfl⟩
  · exact .ok ⟨rfl, rfl⟩

theorem releasePage_sameRegions (v : Vma) (c : Ctx) (va : Nat) :
    Ends (releasePage v c va) (fun c' => SameRegions c.proc c'.proc) fun _ => True := by
  refine (Ends.trivial _).bind fun e _ => ?_
  cases e with
  | none => exact .ok (SameRegions.refl _)
  | some e =>
    refine (writeBackIf_proc c v va e).bind fun c' hc' => ?_
    refine (Ends.trivial _).bind fun vm _ => Ends.ok ?_
    exact hc'.1 ▸ setVm_sameRegions c' vm

theorem releasePages_sameRegions (v : Vma) (c : Ctx) (vas : List Nat) :
    Ends (vas.foldlM (releasePage v) c) (fun c' => SameRegions c.proc c'.proc) fun _ => True :=
  Ends.foldlM (fun c' => SameRegions c.proc c'.proc) (SameRegions.refl _) fun va _ c' hc' =>
    (releasePage_sameRegions v c' va).imp fun _ h => hc'.trans h

/-- A process whose mapping `i` has been released. -/
def Proc.release (p : Proc) (i : Fin maxvma) : Proc :=
  { p with vmas := update p.vmas i { p.vmas i with used := false } }

theorem releaseVma_proc (c : Ctx) (i : Fin maxvma) :
    Ends (releaseVma c i) (fun c' => c'.proc = c.proc.release i ∧ c'.mem = c.mem)
      fun _ => True :=
  (Ends.trivial _).bind fun _ _ => Ends.ok ⟨rfl, rfl⟩

theorem sysMunmap_regions (c : Ctx) (addr length : Nat) :
    Ends (sysMunmap c addr length) (fun r => r = (false, c) ∨
      ∃ i, SameRegions (c.proc.release i) r.2.proc) fun _ => True := by
  simp only [sysMunmap]
  split
  · exact .ok (Or.inl rfl)
  · rename_i i _
    refine (releasePages_sameRegions _ c _).bind fun c₁ h₁ => ?_
    refine (releaseVma_proc c₁ i).bind fun c₂ h₂ => Ends.ok (Or.inr ⟨i, ?_⟩)
    simp only [h₂.1, Proc.release]
    exact ⟨h₁.sz, by rw [h₁.vmas], h₁.vregions⟩

theorem sysMmap_regions (c : Ctx) (length : Nat) (prot flags : UInt32) (fd : Int) (offset : Nat) :
    Ends (sysMmap c length prot flags fd offset) (fun r => r.2 = c ∨
      ∃ i f, 0 < length ∧ (c.proc.vmas i).used = false ∧
        (pgroundup c.proc.sz + pgroundup length) % 2 ^ 64 ≤ trapframe ∧ r.2.mem = c.mem ∧
        r.2.proc = { c.proc with
          sz := (pgroundup c.proc.sz + pgroundup length) % 2 ^ 64
          vmas := update c.proc.vmas i
            ⟨true, pgroundup c.proc.sz, pgroundup length, prot, flags, f, offset⟩ })
      fun _ => True := by
  simp only [sysMmap]
  split
  · exact .ok (Or.inl rfl)
  · rename_i hlen
    split
    · exact .ok (Or.inl rfl)
    · split
      · exact .ok (Or.inl rfl)
      · rename_i f _
        split
        · exact .ok (Or.inl rfl)
        · split
          · exact .ok (Or.inl rfl)
          · rename_i i hi
            split
            · exact .ok (Or.inl rfl)
            · refine (Ends.trivial _).bind fun fs _ =>
                Ends.ok (Or.inr ⟨i, f, by omega, ?_, by omega,
                rfl, rfl⟩)
              simpa using firstIdx_some hi

theorem pgroundupInt_bounds (n : Int) : -2 ^ 31 ≤ pgroundupInt n ∧ pgroundupInt n < 2 ^ 31 := by
  have hlow : -(2 ^ 32 / 2 : Int) ≤ (n + 4095).bmod (2 ^ 32) := Int.le_bmod (by decide)
  have hhigh : (n + 4095).bmod (2 ^ 32) < (2 ^ 32 + 1) / 2 := Int.bmod_lt (by decide)
  rw [pgroundupInt]
  omega

theorem sysMapzero_regions (c : Ctx) (size : Int) :
    (sysMapzero c size).2 = c ∨
      ∃ i, (c.proc.vregions i).used = false ∧ c.proc.sz ≤ addInt c.proc.sz (pgroundupInt size) ∧
        addInt c.proc.sz (pgroundupInt size) ≤ trapframe ∧
        (sysMapzero c size).2 = { c with proc := { c.proc with
          sz := addInt c.proc.sz (pgroundupInt size)
          vregions := update c.proc.vregions i
            ⟨true, c.proc.sz, addInt 0 (pgroundupInt size)⟩ } } := by
  simp only [sysMapzero]
  split
  · exact Or.inl rfl
  · split
    · exact Or.inl rfl
    · rename_i i hi
      split
      · exact Or.inl rfl
      · split
        · exact Or.inl rfl
        · exact Or.inr ⟨i, by simpa using firstIdx_some hi, by omega, by omega, rfl⟩

theorem uvmalloc_size (v : Vm) (oldsz newsz : Nat) (w x : Bool) :
    Ends (uvmalloc v oldsz newsz w x)
      (fun r => r.1 = oldsz ∨ r.1 = 0 ∨ (oldsz ≤ newsz ∧ r.1 = newsz)) fun _ => True := by
  simp only [uvmalloc]
  split
  · exact .ok (Or.inl rfl)
  · refine (Ends.trivial _).bind fun r _ => Ends.ok ?_
    split
    · exact Or.inr (Or.inr ⟨by omega, rfl⟩)
    · exact Or.inr (Or.inl rfl)

theorem uvmdealloc_size (v : Vm) (oldsz newsz : Nat) :
    Ends (uvmdealloc v oldsz newsz) (fun r => r.1 = min oldsz newsz) fun _ => True := by
  simp only [uvmdealloc]
  split
  · exact .ok (Nat.min_eq_left ‹_›).symm
  · have hmin : newsz = min oldsz newsz := by omega
    split
    · exact (Ends.trivial _).bind fun _ _ => Ends.ok hmin
    · exact .ok hmin

def SbrkSize (sz : Nat) (n : Int) (sz' : Nat) : Prop :=
  sz' = sz ∨ (sz ≤ sz' ∧ sz' ≤ trapframe) ∨ (n < 0 ∧ addInt sz n < sz ∧ sz' = addInt sz n)

theorem growproc_regions (c : Ctx) (n : Int) :
    Ends (growproc c n) (fun r => r.2.proc.vmas = c.proc.vmas ∧ r.2.proc.vregions =
      c.proc.vregions ∧
      SbrkSize c.proc.sz n r.2.proc.sz) fun _ => True := by
  simp only [growproc]
  split
  · split
    · exact .ok ⟨rfl, rfl, Or.inl rfl⟩
    · rename_i htop
      refine (uvmalloc_size _ _ _ _ _).bind fun r hr => ?_
      split
      · exact .ok ⟨rfl, rfl, Or.inl rfl⟩
      · rename_i hne
        rcases hr with hr | hr | ⟨hle, hr⟩
        · exact .ok ⟨rfl, rfl, Or.inl hr⟩
        · exact absurd hr hne
        · refine .ok ⟨rfl, rfl, Or.inr (Or.inl ?_)⟩
          show c.proc.sz ≤ r.1 ∧ r.1 ≤ trapframe
          omega
  · split
    · rename_i hneg
      refine (uvmdealloc_size _ _ _).bind fun r hr => ?_
      rcases Nat.lt_or_ge (addInt c.proc.sz n) c.proc.sz with hlt | hge
      · exact .ok ⟨rfl, rfl, Or.inr (Or.inr ⟨hneg, hlt, hr.trans (by omega)⟩)⟩
      · exact .ok ⟨rfl, rfl, Or.inl (hr.trans (by omega))⟩
    · exact .ok ⟨rfl, rfl, Or.inl rfl⟩

theorem sysSbrk_regions (c : Ctx) (n t : Int) :
    Ends (sysSbrk c n t) (fun r => r.2.proc.vmas = c.proc.vmas ∧
      r.2.proc.vregions = c.proc.vregions ∧ SbrkSize c.proc.sz n r.2.proc.sz) fun _ => True := by
  simp only [sysSbrk]
  split
  · exact (growproc_regions c n).bind fun r hr => Ends.ok hr
  · split
    · exact .ok ⟨rfl, rfl, Or.inl rfl⟩
    · split
      · exact .ok ⟨rfl, rfl, Or.inl rfl⟩
      · refine .ok ⟨rfl, rfl, Or.inr (Or.inl ?_)⟩
        show c.proc.sz ≤ addInt c.proc.sz n ∧ addInt c.proc.sz n ≤ trapframe
        omega

/-- A `kexec` that fails keeps the process, and one that succeeds puts the new image in place of the
old one. -/
theorem kexec_cases (c : Ctx) (ip : Option Nat) (argv : List (List UInt8)) :
    Ends (kexec c ip argv) (fun r => (r.1 = none ∧ r.2.proc = c.proc) ∨
      ∃ i v₀ m₀ sz v m, ip = some i ∧ procPagetable c.mem c.proc.tf = .ok (some v₀, m₀) ∧
        buildImage c.fs i argv v₀ = .ok (true, sz, v) ∧
        procFreepagetable ⟨v.mem, c.proc.pt⟩ c.proc.sz = .ok m ∧
        r = (some argv.length, { c with mem := m, proc := { c.proc with pt := v.pt, sz := sz } }))
      fun _ => True := by
  simp only [kexec]
  split
  · exact .ok (Or.inl ⟨rfl, rfl⟩)
  · split
    · exact .ok (Or.inl ⟨rfl, rfl⟩)
    · split
      · exact .ok (Or.inl ⟨rfl, rfl⟩)
      · refine (Ends.self _).bind fun r hr => ?_
        obtain ⟨o, m₀⟩ := r
        cases o with
        | none => exact .ok (Or.inl ⟨rfl, rfl⟩)
        | some v₀ =>
          refine (Ends.self _).bind fun s hs => ?_
          obtain ⟨ok, sz, v⟩ := s
          cases ok with
          | false => exact (Ends.trivial _).bind fun _ _ => .ok (Or.inl ⟨rfl, rfl⟩)
          | true =>
            refine (Ends.self _).bind fun m hm => .ok (Or.inr ?_)
            exact ⟨_, v₀, m₀, sz, v, m, rfl, hr, hs, hm, rfl⟩

def Call.isAccess : Call → Bool
  | .mapRo _ | .load _ | .store _ _ | .copyin _ _ | .copyout _ _ | .copyinstr _ _ => true
  | _ => false

theorem access_sameRegions (c : Ctx) (namei : String → Option Nat) {a : Call} (ha : a.isAccess) :
    Ends (c.run namei a) (fun r => SameRegions c.proc r.2.proc) fun _ => True := by
  have hvm : ∀ (ok : Bool) (v : Vm), Ends (.ok (if ok then some 0 else none, c.setVm v))
      (fun r : Option Nat × Ctx => SameRegions c.proc r.2.proc) fun _ => True :=
    fun _ v => .ok (setVm_sameRegions c v)
  have htrap : ∀ va, Ends (do
      let c ← usertrap c va
      .ok (none, c)) (fun r : Option Nat × Ctx => SameRegions c.proc r.2.proc) fun _ => True :=
    fun va => (usertrap_sameRegions c va).bind fun _ h => Ends.ok h
  cases a with
  | mapRo va =>
    refine Ends.bind (Q := fun r : Bool × Ctx => SameRegions c.proc r.2.proc) ?_ fun _ h =>
      Ends.ok h
    exact (Ends.trivial _).bind fun r _ => .ok (setVm_sameRegions c r.2)
  | load va =>
    simp only [Ctx.run]
    split
    · exact .ok (SameRegions.refl _)
    · exact htrap _
  | store va b =>
    simp only [Ctx.run]
    split
    · exact .ok (setVm_sameRegions c _)
    · exact htrap _
  | copyin va len => exact (Ends.trivial _).bind fun r _ => hvm r.1 r.2.2
  | copyout va bs => exact (Ends.trivial _).bind fun r _ => hvm r.1 r.2
  | copyinstr va max => exact (Ends.trivial _).bind fun r _ => hvm r.1 r.2.2
  | mmap | munmap | sbrk | mapzero | exec => simp [Call.isAccess] at ha

end EafitOs.Memory
