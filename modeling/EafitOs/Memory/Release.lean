import EafitOs.Memory.Regions

/-!
# Exit and unmapping

`sys_munmap` and `kexit` each have a loop that writes back and frees the pages of a mapping, with
different bounds and different ways to find the mapping. On mappings that do not overlap they
agree.
-/

namespace EafitOs.Memory

open Foundation Function

/-- The mappings of a process are whole pages, contain an address, and share none. -/
structure Separate (p : Proc) : Prop where
  aligned : ∀ i, (p.vmas i).used → (p.vmas i).addr % pgsize = 0 ∧ (p.vmas i).length % pgsize = 0
  nonempty : ∀ i, (p.vmas i).used → ∃ va, (p.vmas i).covers va
  disjoint : ∀ i j va, (p.vmas i).covers va → (p.vmas j).covers va → i = j

/-- `sys_munmap(v->addr, v->length)` if the mapping is used. -/
def unmapVma (c : Ctx) (i : Fin maxvma) : Except String Ctx :=
  let v := c.proc.vmas i
  if !v.used then .ok c
  else do
    let (_, c) ← sysMunmap c v.addr v.length
    .ok c

def unmapAll (c : Ctx) : Except String Ctx :=
  (List.finRange maxvma).foldlM unmapVma c

theorem Vma.covers_iff {v : Vma} {va : Nat} :
    v.covers va = true ↔ v.used = true ∧ v.addr ≤ va ∧ va < (v.addr + v.length) % 2 ^ 64 := by
  simp [Vma.covers, and_assoc]

theorem Vregion.covers_iff {r : Vregion} {va : Nat} :
    r.covers va = true ↔ r.used = true ∧ r.start ≤ va ∧ va < (r.start + r.size) % 2 ^ 64 := by
  simp [Vregion.covers, and_assoc]

theorem Vma.covers_addr {v : Vma} {va : Nat} (h : v.covers va) : v.covers v.addr := by
  obtain ⟨hused, hle, hlt⟩ := Vma.covers_iff.mp h
  exact Vma.covers_iff.mpr ⟨hused, le_rfl, by omega⟩

theorem firstIdx_eq_of_unique {n : Nat} {test : Fin n → Bool} {i : Fin n} (hi : test i = true)
    (hunique : ∀ k, test k = true → k = i) : firstIdx test = some i := by
  cases hfind : firstIdx test with
  | none => exact absurd hi (List.find?_eq_none.mp hfind i (List.mem_finRange i))
  | some k => rw [hunique k (firstIdx_some hfind)]

theorem pgrounddown_of_aligned {a : Nat} (h : a % pgsize = 0) : pgrounddown a = a := by
  simp only [pgrounddown, pgsize] at h ⊢
  omega

theorem pgroundup_of_aligned {a n : Nat} (ha : a % pgsize = 0) (hn : n % pgsize = 0) :
    pgroundup ((a + n) % 2 ^ 64) = (a + n) % 2 ^ 64 := by
  simp only [pgroundup, pgsize] at ha hn ⊢
  omega

namespace Separate

variable {p q : Proc} {c : Ctx} {i : Fin maxvma}

theorem of_same (h : Separate p) (hpq : SameRegions p q) : Separate q := by
  refine ⟨?_, ?_, ?_⟩
  · simpa only [hpq.vmas] using h.aligned
  · simpa only [hpq.vmas] using h.nonempty
  · simpa only [hpq.vmas] using h.disjoint

theorem release (h : Separate p) (i : Fin maxvma) : Separate (p.release i) := by
  have hvma : ∀ k, ((p.release i).vmas k).used → (p.release i).vmas k = p.vmas k := by
    intro k hk
    by_cases hki : k = i
    · subst hki
      simp [Proc.release] at hk
    · simp only [Proc.release, update_of_ne hki]
  have hused : ∀ k, ((p.release i).vmas k).used → (p.vmas k).used := by
    intro k hk
    rw [← hvma k hk]
    exact hk
  refine ⟨fun k hk => ?_, fun k hk => ?_, fun k l va hk hl => ?_⟩
  · rw [hvma k hk]
    exact h.aligned k (hused k hk)
  · rw [hvma k hk]
    exact h.nonempty k (hused k hk)
  · rw [hvma k (Vma.covers_iff.mp hk).1] at hk
    rw [hvma l (Vma.covers_iff.mp hl).1] at hl
    exact h.disjoint k l va hk hl

theorem unmapVma_eq (h : Separate c.proc) (i : Fin maxvma) : unmapVma c i = exitVma c i := by
  rw [unmapVma, exitVma]
  cases hused : (c.proc.vmas i).used with
  | false => rfl
  | true =>
    obtain ⟨va, hva⟩ := h.nonempty i hused
    obtain ⟨haddr, hlength⟩ := h.aligned i hused
    have hcovers := Vma.covers_addr hva
    have hfirst : (firstIdx fun k => (c.proc.vmas k).covers (c.proc.vmas i).addr) = some i :=
      firstIdx_eq_of_unique hcovers fun k hk => h.disjoint k i _ hk hcovers
    rw [sysMunmap, hfirst, pgrounddown_of_aligned haddr, pgroundup_of_aligned haddr hlength]
    have hlast : ∀ x : Except String Ctx,
        (x >>= fun c => Except.ok (true, c) >>= fun r => Except.ok r.2) = x := by
      intro x
      cases x <;> rfl
    simp only [Bool.not_true, Bool.false_eq_true, if_false, bind_assoc, hlast]

theorem exitVma_proc (c : Ctx) (i : Fin maxvma) :
    Ends (exitVma c i) (fun c' => SameRegions (c.proc.release i) c'.proc) fun _ => True := by
  rw [Memory.exitVma]
  split
  · rename_i hunused
    have hsame : c.proc.release i = c.proc := by
      have hvma : { c.proc.vmas i with used := false } = c.proc.vmas i := by
        rw [← (Bool.not_eq_true' (c.proc.vmas i).used).mp hunused]
      rw [Proc.release, hvma, update_eq_self]
    rw [hsame]
    exact .ok (SameRegions.refl _)
  · refine (releasePages_sameRegions _ c _).bind fun c₁ h₁ => ?_
    refine (releaseVma_proc c₁ i).imp fun c₂ h₂ => ?_
    simp only [h₂.1, Proc.release]
    exact ⟨h₁.sz, by rw [h₁.vmas], h₁.vregions⟩

theorem exitVma (h : Separate c.proc) (i : Fin maxvma) :
    Ends (Memory.exitVma c i) (fun c' => Separate c'.proc) fun _ => True :=
  (exitVma_proc c i).imp fun _ hc => (h.release i).of_same hc

theorem unmapAll_eq (h : Separate c.proc) :
    unmapAll c = (List.finRange maxvma).foldlM Memory.exitVma c :=
  Ends.foldlM_congr (fun c : Ctx => Separate c.proc) h (fun i _ _ hc => hc.exitVma i)
    fun i _ _ hc => hc.unmapVma_eq i

end Separate

theorem exitVmas_unused (c : Ctx) :
    Ends ((List.finRange maxvma).foldlM exitVma c) (fun c' => ∀ i, (c'.proc.vmas i).used = false)
      fun _ => True := by
  refine (Ends.foldlM_visited (fun done (c' : Ctx) => ∀ i ∈ done, (c'.proc.vmas i).used = false)
    (List.nodup_finRange _) (by simp) fun done i _ _ c₁ hdone => ?_).imp
    fun c' hc' i => hc' i (List.mem_finRange i)
  refine (Separate.exitVma_proc c₁ i).imp fun c₂ hc₂ k hk => ?_
  rw [hc₂.vmas, Proc.release]
  by_cases hki : k = i
  · simp [hki]
  · simp only [update_of_ne hki]
    exact hdone k (by simpa [hki] using hk)

theorem exitVmas_of_unused (c : Ctx) (h : ∀ i, (c.proc.vmas i).used = false)
    (is : List (Fin maxvma)) : is.foldlM exitVma c = .ok c := by
  induction is with
  | nil => rfl
  | cons i rest ih =>
    have hstep : exitVma c i = .ok c := by
      simp [exitVma, h i]
    rw [List.foldlM_cons, hstep]
    exact ih

/-- Exit equals unmapping everything first: the files, the counts of the open files, the
free pages and the process are the same, and so is a panic. -/
theorem exit_after_unmapping (c : Ctx) (h : Separate c.proc) :
    (unmapAll c >>= kexit) = kexit c := by
  rw [h.unmapAll_eq]
  have hunused := exitVmas_unused c
  cases hvmas : (List.finRange maxvma).foldlM exitVma c with
  | error e =>
    rw [kexit, hvmas]
    rfl
  | ok c₁ =>
    have hnone := hunused.of_eq_ok hvmas
    change kexit c₁ = kexit c
    rw [kexit, kexit, hvmas, exitVmas_of_unused c₁ hnone]

/-- A process with two neighbouring shared mappings of one file; the first page of the
first is resident. -/
def mappedCtx : Ctx where
  mem := sampleKernel.mem
  fs := { sampleKernel.fs with ftable := fun _ => ⟨.inode, 3, true, true, some 1⟩ }
  proc := { sampleProc 0x80120 (some 0) with
    sz := 20480
    pt := (((samplePt 0x80120).addMid 0 0x80124).addLow 0 0x80125).setLeaf 1 ⟨0x80126, .heap⟩
    vmas := fun i => ⟨decide (i.val < 2), 4096 + 8192 * i.val, 8192, 3, 1, 0, 8192 * i.val⟩ }

theorem mappedCtx_separate : Separate mappedCtx.proc := by
  have hcovers : ∀ (i : Fin maxvma) (va : Nat), (mappedCtx.proc.vmas i).covers va = true ↔
      i.val < 2 ∧ 4096 + 8192 * i.val ≤ va ∧ va < 4096 + 8192 * (i.val + 1) := by
    intro i va
    rw [Vma.covers_iff]
    simp only [mappedCtx, decide_eq_true_eq]
    omega
  refine ⟨fun i _ => ?_, fun i hi => ⟨4096 + 8192 * i.val, ?_⟩, fun i j va hi hj => ?_⟩
  · change (4096 + 8192 * i.val) % 4096 = 0 ∧ 8192 % 4096 = 0
    omega
  · rw [hcovers]
    have hlt : i.val < 2 := of_decide_eq_true hi
    omega
  · rw [hcovers] at hi hj
    exact Fin.ext (by omega)

/-- The resident page is written back whether the process unmaps or only exits. -/
theorem exit_after_unmapping_mappedCtx : ∃ c, (unmapAll mappedCtx >>= kexit) = .ok c ∧
    kexit mappedCtx = .ok c ∧ c.fs.nwrites = 1 ∧ (c.fs.ftable 0).ref = 0 ∧
      c.mem.free.length = 17 := by
  obtain ⟨c, hexit, hvals⟩ : ∃ c, kexit mappedCtx = .ok c ∧ c.fs.nwrites = 1 ∧
      (c.fs.ftable 0).ref = 0 ∧ c.mem.free.length = 17 := by decide +kernel
  refine ⟨c, ?_, hexit, hvals⟩
  rw [exit_after_unmapping mappedCtx mappedCtx_separate, hexit]

end EafitOs.Memory
