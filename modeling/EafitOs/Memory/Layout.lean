import EafitOs.Memory.Regions

/-!
# The layout of the mapped regions

The mappings of a process are non-empty runs of whole pages below its size, and no
page belongs to two regions. `sys_sbrk`, `sys_mmap`, `sys_mapzero` and `kexec` keep
this only where they are called on a process whose regions fit the new size.
-/

namespace EafitOs.Memory

open Foundation Function

def SharePage (a l b n : Nat) : Prop :=
  ∃ x y, a ≤ x ∧ x < a + l ∧ b ≤ y ∧ y < b + n ∧ x / pgsize = y / pgsize

/-- The layout of the mappings and of the `mapzero` regions of a process. -/
structure Layout (p : Proc) : Prop where
  whole : ∀ i, (p.vmas i).used → (p.vmas i).addr % pgsize = 0 ∧
    (p.vmas i).length % pgsize = 0 ∧ 0 < (p.vmas i).length
  inside : ∀ i, (p.vmas i).used → (p.vmas i).addr + (p.vmas i).length ≤ pgroundup p.sz ∧
    (p.vmas i).addr + (p.vmas i).length ≤ trapframe
  apart : ∀ i j, i ≠ j → (p.vmas i).used → (p.vmas j).used →
    ¬SharePage (p.vmas i).addr (p.vmas i).length (p.vmas j).addr (p.vmas j).length
  regions : ∀ i j, (p.vmas i).used → (p.vregions j).used →
    ¬SharePage (p.vmas i).addr (p.vmas i).length (p.vregions j).start (p.vregions j).size

/-- The calls that respect the regions of the process that makes them. -/
def LayoutSafe (p : Proc) : Call → Prop
  | .mmap length .. => length.toNat + pgsize ≤ 2 ^ 64 ∧
      pgroundup p.sz + pgroundup length.toNat < 2 ^ 64 ∧
      ∀ j, (p.vregions j).used → (p.vregions j).start + (p.vregions j).size ≤ pgroundup p.sz
  | .mapzero _ => ∀ i, (p.vmas i).used → (p.vmas i).addr + (p.vmas i).length ≤ p.sz
  | .sbrk n _ => n.toInt < 0 → addInt p.sz n.toInt < p.sz → ∀ i, (p.vmas i).used →
      (p.vmas i).addr + (p.vmas i).length ≤ pgroundup (addInt p.sz n.toInt)
  | .exec .. => ∀ i, (p.vmas i).used = false
  | _ => True

theorem pgroundup_mod (x : Nat) : pgroundup x % pgsize = 0 := by
  simp [pgroundup]

theorem pgroundup_of_le {x : Nat} (h : x ≤ trapframe) :
    x ≤ pgroundup x ∧ pgroundup x ≤ trapframe ∧ pgroundup x < x + pgsize := by
  simp only [pgroundup, trapframe, trampoline, maxva, pgsize] at h ⊢
  omega

theorem pgroundup_pos {x : Nat} (h0 : 0 < x) (h : x + pgsize ≤ 2 ^ 64) : 0 < pgroundup x := by
  simp only [pgroundup, pgsize] at h ⊢
  omega

theorem pgroundup_mono {x y : Nat} (hxy : x ≤ y) (hy : y ≤ trapframe) :
    pgroundup x ≤ pgroundup y := by
  simp only [pgroundup, trapframe, trampoline, maxva, pgsize] at hy ⊢
  omega

theorem SharePage.symm {a l b n : Nat} (h : SharePage a l b n) : SharePage b n a l := by
  obtain ⟨x, y, hx, hx', hy, hy', heq⟩ := h
  exact ⟨y, x, hy, hy', hx, hx', heq.symm⟩

theorem not_sharePage {a l b n m : Nat} (hl : a + l ≤ m) (hb : m ≤ b) (hm : m % pgsize = 0) :
    ¬SharePage a l b n := by
  rintro ⟨x, y, hx, hx', hy, hy', heq⟩
  simp only [pgsize] at hm heq
  omega

namespace Layout

variable {p q : Proc}

theorem of_same (h : Layout p) (hpq : SameRegions p q) : Layout q := by
  constructor
  · simpa only [hpq.vmas] using h.whole
  · simpa only [hpq.vmas, hpq.sz] using h.inside
  · simpa only [hpq.vmas] using h.apart
  · simpa only [hpq.vmas, hpq.vregions] using h.regions

theorem of_unused (h : ∀ i, (p.vmas i).used = false) : Layout p := by
  constructor <;> simp [h]

section

variable (h : Layout p)
include h

theorem release (i : Fin maxvma) : Layout (p.release i) := by
  have hused : ∀ j, ((p.release i).vmas j).used → (p.vmas j).used ∧
      (p.release i).vmas j = p.vmas j := by
    intro j hj
    by_cases hji : j = i
    · subst hji
      simp [Proc.release] at hj
    · simp only [Proc.release, update_of_ne hji] at hj ⊢
      exact ⟨hj, trivial⟩
  constructor
  · intro j hj
    obtain ⟨hj', heq⟩ := hused j hj
    exact heq ▸ h.whole j hj'
  · intro j hj
    obtain ⟨hj', heq⟩ := hused j hj
    exact heq ▸ h.inside j hj'
  · intro j l hjl hj hl
    obtain ⟨hj', heqj⟩ := hused j hj
    obtain ⟨hl', heql⟩ := hused l hl
    rw [heqj, heql]
    exact h.apart j l hjl hj' hl'
  · intro j l hj hl
    obtain ⟨hj', heqj⟩ := hused j hj
    rw [heqj]
    exact h.regions j l hj' hl

theorem resize (hvmas : q.vmas = p.vmas) (hvr : q.vregions = p.vregions)
    (hin : ∀ i, (p.vmas i).used → (p.vmas i).addr + (p.vmas i).length ≤ pgroundup q.sz) :
    Layout q := by
  constructor
  · simpa only [hvmas] using h.whole
  · intro i hi
    rw [hvmas] at hi ⊢
    exact ⟨hin i hi, (h.inside i hi).2⟩
  · simpa only [hvmas] using h.apart
  · simpa only [hvmas, hvr] using h.regions

theorem mmap {length : Nat} {i : Fin maxvma} {v : Vma} (h0 : 0 < length)
    (hlen : length + pgsize ≤ 2 ^ 64) (htop : pgroundup p.sz + pgroundup length ≤ trapframe)
    (hr : ∀ j, (p.vregions j).used →
      (p.vregions j).start + (p.vregions j).size ≤ pgroundup p.sz)
    (haddr : v.addr = pgroundup p.sz) (hvlen : v.length = pgroundup length) :
    Layout { p with
      sz := pgroundup p.sz + pgroundup length
      vmas := update p.vmas i v } := by
  have hal := pgroundup_mod p.sz
  have hsz := pgroundup_of_le htop
  -- The new mapping starts at a page boundary above every older region.
  have hbelow : ∀ j, (p.vmas j).used → ∀ n, ¬SharePage (p.vmas j).addr (p.vmas j).length
      (pgroundup p.sz) n := fun j hj n => not_sharePage (h.inside j hj).1 (Nat.le_refl _) hal
  constructor
  · intro j hj
    by_cases hji : j = i
    · subst hji
      simp only [update_self, haddr, hvlen]
      exact ⟨hal, pgroundup_mod length, pgroundup_pos h0 hlen⟩
    · simp only [update_of_ne hji] at hj ⊢
      exact h.whole j hj
  · intro j hj
    by_cases hji : j = i
    · subst hji
      simp only [update_self, haddr, hvlen]
      exact ⟨hsz.1, htop⟩
    · simp only [update_of_ne hji] at hj ⊢
      have hin := h.inside j hj
      exact ⟨by omega, hin.2⟩
  · intro j l hjl hj hl
    by_cases hji : j = i <;> by_cases hli : l = i
    · exact absurd (hji.trans hli.symm) hjl
    · subst hji
      simp only [update_self, update_of_ne hli, haddr, hvlen] at hl ⊢
      exact fun hs => hbelow l hl _ hs.symm
    · subst hli
      simp only [update_self, update_of_ne hji, haddr, hvlen] at hj ⊢
      exact hbelow j hj _
    · simp only [update_of_ne hji, update_of_ne hli] at hj hl ⊢
      exact h.apart j l hjl hj hl
  · intro j l hj hl
    by_cases hji : j = i
    · subst hji
      simp only [update_self, haddr, hvlen]
      exact fun hs => not_sharePage (hr l hl) (Nat.le_refl _) hal hs.symm
    · simp only [update_of_ne hji] at hj ⊢
      exact h.regions j l hj hl

theorem mapzero {sz n : Nat} {i : Fin nvreg}
    (hv : ∀ j, (p.vmas j).used → (p.vmas j).addr + (p.vmas j).length ≤ p.sz)
    (hle : p.sz ≤ sz) (htop : sz ≤ trapframe) :
    Layout { p with sz := sz, vregions := update p.vregions i ⟨true, p.sz, n⟩ } := by
  refine ⟨h.whole, ?_, h.apart, ?_⟩
  · intro j hj
    have hin := h.inside j hj
    have hmono := pgroundup_mono hle htop
    show (p.vmas j).addr + (p.vmas j).length ≤ pgroundup sz ∧
      (p.vmas j).addr + (p.vmas j).length ≤ trapframe
    omega
  · intro j l hj hl
    by_cases hli : l = i
    · subst hli
      simp only [update_self]
      have hal : ((p.vmas j).addr + (p.vmas j).length) % pgsize = 0 := by
        have := h.whole j hj
        simp only [pgsize] at this ⊢
        omega
      exact not_sharePage (Nat.le_refl _) (hv j hj) hal
    · simp only [update_of_ne hli] at hl ⊢
      exact h.regions j l hj hl

theorem sbrk {n : Int} (hs : SbrkSize p.sz n q.sz) (hvmas : q.vmas = p.vmas)
    (hvr : q.vregions = p.vregions)
    (hsafe : n < 0 → addInt p.sz n < p.sz → ∀ i, (p.vmas i).used →
      (p.vmas i).addr + (p.vmas i).length ≤ pgroundup (addInt p.sz n)) : Layout q := by
  apply h.resize hvmas hvr
  intro i hi
  rcases hs with hs | ⟨hle, htop⟩ | ⟨hneg, hlt, hs⟩
  · exact hs ▸ (h.inside i hi).1
  · exact Nat.le_trans (h.inside i hi).1 (pgroundup_mono hle htop)
  · exact hs ▸ hsafe hneg hlt i hi

theorem call (mem : Mem) (fs : Fs) (namei : String → Option Nat) {a : Call} (ha : LayoutSafe p a) :
    Ends (Ctx.run ⟨mem, fs, p⟩ namei a) (fun r => Layout r.2.proc) fun _ => True := by
  cases a with
  | mmap length prot flags fd offset =>
    obtain ⟨hlen, hwrap, hr⟩ := ha
    refine (sysMmap_regions ⟨mem, fs, p⟩ length.toNat prot flags fd.toInt offset.toNat).imp ?_
    rintro r (hr' | ⟨i, f, h0, _, htop, _, hp⟩)
    · exact hr' ▸ h
    · rw [hp]
      rw [Nat.mod_eq_of_lt hwrap] at htop ⊢
      exact h.mmap h0 hlen htop hr rfl rfl
  | munmap addr length =>
    refine Ends.bind (sysMunmap_regions ⟨mem, fs, p⟩ addr.toNat length.toNat) ?_
    rintro r (hr | ⟨i, hi⟩)
    · exact .ok (hr ▸ h)
    · exact .ok ((h.release i).of_same hi)
  | sbrk n t =>
    refine (sysSbrk_regions ⟨mem, fs, p⟩ n.toInt t.toInt).imp ?_
    rintro r ⟨hvmas, hvr, hs⟩
    exact h.sbrk hs hvmas hvr ha
  | mapzero size =>
    rcases sysMapzero_regions ⟨mem, fs, p⟩ size.toInt with hr | ⟨i, _, hle, htop, hr⟩
    · exact .ok ((congrArg (fun c => Layout c.proc) hr).mpr h)
    · exact .ok ((congrArg (fun c => Layout c.proc) hr).mpr (h.mapzero ha hle htop))
  | exec path argv =>
    refine (kexec_cases ⟨mem, fs, p⟩ (namei path) argv).imp ?_
    rintro r (⟨-, hproc⟩ | ⟨_, _, _, _, _, _, -, -, -, -, rfl⟩)
    · exact of_unused fun i => by rw [hproc]; exact ha i
    · exact of_unused ha
  | mapRo | load | store | copyin | copyout | copyinstr =>
    exact (access_sameRegions ⟨mem, fs, p⟩ namei rfl).imp fun r hr => h.of_same hr

end

theorem exit {c : Ctx} (h : Layout c.proc) :
    Ends (kexit c) (fun c' => Layout c'.proc) fun _ => True := by
  have hvmas : Ends ((List.finRange maxvma).foldlM exitVma c) (fun c' => Layout c'.proc)
      fun _ => True := by
    refine Ends.foldlM (fun c : Ctx => Layout c.proc) h fun i _ c hc => ?_
    simp only [exitVma]
    split
    · exact .ok hc
    · refine (releasePages_sameRegions _ c _).bind fun c₁ h₁ => ?_
      refine (releaseVma_proc c₁ i).imp fun c₂ h₂ => ?_
      rw [h₂.1]
      exact (hc.of_same h₁).release i
  refine hvmas.bind fun c₁ h₁ => ?_
  refine Ends.bind (Q := fun c' : Ctx => Layout c'.proc) ?_ fun c₂ h₂ => ?_
  · refine Ends.foldlM (fun c : Ctx => Layout c.proc) h₁ fun fd _ c hc => ?_
    simp only [exitFile]
    split
    · exact .ok hc
    · exact (Ends.trivial _).bind fun _ _ => .ok (hc.of_same ⟨rfl, rfl, rfl⟩)
  · split
    · exact .ok h₂
    · exact .ok (h₂.of_same ⟨rfl, rfl, rfl⟩)

theorem procInvariant : ProcInvariant Layout LayoutSafe fun _ => True where
  parent _ _ h := h.of_same ⟨rfl, rfl, rfl⟩
  call mem fs _ namei _ h ha := h.call mem fs namei ha
  exit _ h := h.exit
  init := trivial
  kfree _ _ := Ends.trivial _
  fork _ p _ _ h := (Ends.trivial _).imp fun _ _ _ _ => (Ends.trivial _).imp fun r _ => by
    split
    · exact h.of_same ⟨rfl, rfl, rfl⟩
    · exact fun _ => Ends.trivial _
  dup _ _ := Ends.trivial _
  copyout _ _ _ _ h := (Ends.trivial _).imp fun _ _ => h.of_same ⟨rfl, rfl, rfl⟩
  free _ _ _ := Ends.trivial _

end Layout

/-- Start from processes without mappings and make only safe calls: the mappings of
every process stay laid out. -/
theorem vma_layout {k₀ k : Kernel} {ls : List Act} (hpanic : k₀.panic = none)
    (h₀ : k₀.AllProcs fun p => (∀ i, (p.vmas i).used = false) ∧ ∀ j, (p.vregions j).used = false)
    (run : Run (guarded (Calls LayoutSafe) KStep) k₀ ls k) : k.AllProcs Layout :=
  (Layout.procInvariant.run (fun i p hp => Layout.of_unused (h₀ i p hp).1) hpanic run).1

theorem sampleKernel_unused : sampleKernel.AllProcs fun p =>
    (∀ i, (p.vmas i).used = false) ∧ ∀ j, (p.vregions j).used = false :=
  sampleKernel_allProcs fun _ _ => ⟨fun _ => rfl, fun _ => rfl⟩

/-- Mapping a file is safe for a process without regions. -/
theorem vma_layout_mmap : ∃ k, KStep sampleKernel (.call 1 (.mmap 4096 3 1 3 0)) k ∧
    k.AllProcs Layout ∧ (k.proc? 1).map (fun p => (p.vmas 0).used) = some true := by
  obtain ⟨k, hk, hvma⟩ : ∃ k ∈ sampleKernel.step (.call 1 (.mmap 4096 3 1 3 0)),
      (k.proc? 1).map (fun p => (p.vmas 0).used) = some true := by decide +kernel
  refine ⟨k, hk, vma_layout rfl sampleKernel_unused (.snoc .nil ⟨?_, hk⟩), hvma⟩
  intro i c p hc hp
  obtain ⟨rfl, rfl⟩ := Act.call.inj hc
  obtain rfl : sampleProc 0x80120 (some 0) = p := Slot.live.inj hp
  refine ⟨by decide, by decide, ?_⟩
  intro j hj
  cases hj

/-- Shrinking the heap below a mapping leaves the mapping above the end of the process. -/
theorem sbrk_breaks_layout : sampleKernel.AllProcs (fun p =>
      (∀ i, (p.vmas i).used = false) ∧ ∀ j, (p.vregions j).used = false) ∧
    ∃ k, exec Kernel.step sampleKernel
        [.call 1 (.mmap 4096 3 1 3 0), .call 1 (.sbrk (-4096) 1)] = some k ∧
      k.panic = none ∧ ¬k.AllProcs Layout := by
  refine ⟨sampleKernel_unused, ?_⟩
  have hfacts : ∃ k ∈ exec Kernel.step sampleKernel
      [.call 1 (.mmap 4096 3 1 3 0), .call 1 (.sbrk (-4096) 1)],
      k.panic = none ∧ ∃ p ∈ k.proc? 1, p.sz = 4096 ∧ (p.vmas 0).used = true ∧
        (p.vmas 0).addr = 4096 ∧ (p.vmas 0).length = 4096 := by decide +kernel
  obtain ⟨k, hk, hpanic, p, hslot, hsz, hused, haddr, hlen⟩ := hfacts
  refine ⟨k, hk, hpanic, ?_⟩
  intro hall
  have hin := ((hall.live (slot_of_proc? hslot)).inside 0 hused).1
  rw [haddr, hlen, hsz] at hin
  exact absurd hin (by decide)

end EafitOs.Memory
