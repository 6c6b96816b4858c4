import EafitOs.Memory.Layout

/-!
# Where mmap puts a region

`sys_mmap` rounds the length up, adds it to the rounded size and compares the sum with
`TRAPFRAME`, all on `uint64`. The region is placed right exactly when neither the
rounding nor the sum wraps.
-/

namespace EafitOs.Memory

open Foundation Option

/-- The tests `sys_mmap` makes before it looks at the size: it would map the file `f` with
the entry `i` of the VMA table. -/
structure Accepts (c : Ctx) (length : Nat) (prot flags : UInt32) (fd : Int) (f : Nat)
    (i : Fin maxvma) : Prop where
  length : length ≠ 0
  descriptor : ∃ n : Fin nofile, fd = n.val ∧ c.proc.ofile n = some f
  mode : (hasBit prot 2 && hasBit flags 1 && !(c.fs.ftable f).writable) = false
  entry : (firstIdx fun i => !(c.proc.vmas i).used) = some i

/-- The region that a successful `sys_mmap` returns. -/
structure Placed (c : Ctx) (length va : Nat) (c' : Ctx) : Prop where
  aligned : va % pgsize = 0
  above : c.proc.sz ≤ va
  fits : va + length ≤ c'.proc.sz
  top : c'.proc.sz ≤ trapframe
  grows : c.proc.sz ≤ c'.proc.sz
  region : ∃ i v, (c.proc.vmas i).used = false ∧
    c'.proc.vmas = Function.update c.proc.vmas i v ∧
    ∀ a, v.covers a = true ↔ va ≤ a ∧ a < c'.proc.sz

/-- `sys_mmap` refuses and changes nothing, or places the region right. -/
def WellPlaced (c : Ctx) (length : Nat) (r : Option Nat × Ctx) : Prop :=
  r = (none, c) ∨ ∃ va, r.1 = some va ∧ Placed c length va r.2

/-- A length that fits between the rounded size and the end of the 64-bit addresses, and a
file that is referenced if it is to be mapped. -/
def MmapSafe (c : Ctx) (length : Nat) (prot flags : UInt32) (fd : Int) : Prop :=
  ∀ f i, Accepts c length prot flags fd f i →
    pgroundup c.proc.sz + length + pgsize ≤ 2 ^ 64 ∧
      (pgroundup c.proc.sz + pgroundup length ≤ trapframe → 1 ≤ (c.fs.ftable f).ref)

section

variable {c : Ctx} {length : Nat} {prot flags : UInt32} {fd : Int} {f : Nat} {i : Fin maxvma}
  {offset : Nat}

theorem sysMmap_of_accepts (h : Accepts c length prot flags fd f i) :
    sysMmap c length prot flags fd offset =
      if trapframe < (pgroundup c.proc.sz + pgroundup length) % 2 ^ 64 then .ok (none, c)
      else c.fs.filedup f >>= fun fs =>
        .ok (some (pgroundup c.proc.sz), ({ c with fs := fs }.setSz
          ((pgroundup c.proc.sz + pgroundup length) % 2 ^ 64)).setVma i
            ⟨true, pgroundup c.proc.sz, pgroundup length, prot, flags, f, offset⟩) := by
  obtain ⟨n, hn, hfile⟩ := h.descriptor
  have hfd : ¬(fd < 0 ∨ (nofile : Int) ≤ fd) := by
    have hlt := n.isLt
    omega
  have hidx : (⟨fd.toNat, by omega⟩ : Fin nofile) = n := by
    apply Fin.ext
    change fd.toNat = n.val
    omega
  rw [sysMmap, if_neg h.length, dif_neg hfd, hidx, hfile]
  simp only [h.mode, h.entry, Bool.false_eq_true, if_false]

theorem Accepts.file_eq {f' : Nat} {i' : Fin maxvma} (h : Accepts c length prot flags fd f i)
    (h' : Accepts c length prot flags fd f' i') : f' = f := by
  obtain ⟨n, hn, hfile⟩ := h.descriptor
  obtain ⟨n', hn', hfile'⟩ := h'.descriptor
  obtain rfl : n = n' := Fin.ext (by omega)
  rw [hfile] at hfile'
  exact (some.inj hfile').symm

theorem sysMmap_of_not_accepts (h : ∀ f i, ¬Accepts c length prot flags fd f i) :
    sysMmap c length prot flags fd offset = .ok (none, c) := by
  rw [sysMmap]
  split
  · rfl
  · rename_i hlength
    split
    · rfl
    · rename_i hfd
      split
      · rfl
      · rename_i f hfile
        split
        · rfl
        · rename_i hmode
          split
          · rfl
          · rename_i i hentry
            refine absurd ⟨hlength, ⟨_, ?_, hfile⟩, by simpa using hmode, hentry⟩
              (h f i)
            change fd = (fd.toNat : Int)
            omega

theorem placement_exact {sz length : Nat} (hfit : pgroundup sz + length + pgsize ≤ 2 ^ 64) :
    length ≤ pgroundup length ∧
      (pgroundup sz + pgroundup length) % 2 ^ 64 = pgroundup sz + pgroundup length := by
  have hround : length ≤ pgroundup length ∧ pgroundup length < length + pgsize := by
    generalize pgroundup sz = va at hfit
    simp only [pgroundup, pgsize] at hfit ⊢
    omega
  exact ⟨hround.1, Nat.mod_eq_of_lt (by omega)⟩

theorem placement_wraps {sz length : Nat} (hsz : sz ≤ trapframe) (hlength : length < 2 ^ 64)
    (hfit : 2 ^ 64 < pgroundup sz + length + pgsize) :
    (pgroundup sz + pgroundup length) % 2 ^ 64 ≤ trapframe ∧
      (pgroundup sz + pgroundup length) % 2 ^ 64 < pgroundup sz + length := by
  have htop := (pgroundup_of_le hsz).2.1
  have hmod := pgroundup_mod sz
  generalize pgroundup sz = va at htop hmod hfit
  simp only [pgroundup, trapframe, trampoline, maxva, pgsize] at htop hmod hfit ⊢
  omega

theorem Accepts.placed {fs : Fs} (h : Accepts c length prot flags fd f i)
    (hsz : c.proc.sz ≤ trapframe) (hfit : pgroundup c.proc.sz + length + pgsize ≤ 2 ^ 64)
    (htop : pgroundup c.proc.sz + pgroundup length ≤ trapframe) :
    Placed c length (pgroundup c.proc.sz) (({ c with fs := fs }.setSz
      (pgroundup c.proc.sz + pgroundup length)).setVma i
        ⟨true, pgroundup c.proc.sz, pgroundup length, prot, flags, f, offset⟩) := by
  obtain ⟨hround, hexact⟩ := placement_exact hfit
  obtain ⟨habove, -, -⟩ := pgroundup_of_le hsz
  refine ⟨pgroundup_mod _, habove, ?_, htop, ?_, i, _, ?_, rfl, fun a => ?_⟩
  · exact Nat.add_le_add_left hround _
  · exact Nat.le_add_right_of_le habove
  · simpa using firstIdx_some h.entry
  · simp only [Vma.covers, hexact, Bool.and_eq_true, decide_eq_true_eq, true_and]
    exact Iff.rfl

/-- `sys_mmap` places every region right exactly when its length fits above the size,
rounding included. -/
theorem mmap_placement_iff (hsz : c.proc.sz ≤ trapframe) (length offset : UInt64)
    (prot flags : UInt32) (fd : Int32) :
    (∃ r, sysMmap c length.toNat prot flags fd.toInt offset.toNat = .ok r ∧
      WellPlaced c length.toNat r) ↔ MmapSafe c length.toNat prot flags fd.toInt := by
  by_cases hacc : ∃ f i, Accepts c length.toNat prot flags fd.toInt f i
  · obtain ⟨f, i, hacc⟩ := hacc
    rw [sysMmap_of_accepts hacc]
    constructor
    · rintro ⟨r, hr, hplaced⟩ f' i' hacc'
      obtain rfl := hacc.file_eq hacc'
      by_cases hfit : pgroundup c.proc.sz + length.toNat + pgsize ≤ 2 ^ 64
      · refine ⟨hfit, fun htop => ?_⟩
        by_contra href
        rw [(placement_exact hfit).2, if_neg (by omega), Fs.filedup, if_pos (by omega)] at hr
        cases hr
      · obtain ⟨htop, hshort⟩ := placement_wraps hsz length.toNat_lt (Nat.lt_of_not_le hfit)
        rw [if_neg (by omega), Fs.filedup] at hr
        split at hr
        · cases hr
        · obtain rfl := Except.ok.inj hr
          obtain hnone | ⟨va, hva, hright⟩ := hplaced
          · cases hnone
          · obtain rfl := some.inj hva
            exact absurd hright.fits (Nat.not_le_of_lt hshort)
    · intro hsafe
      obtain ⟨hfit, href⟩ := hsafe f i hacc
      rw [(placement_exact hfit).2]
      by_cases htop : pgroundup c.proc.sz + pgroundup length.toNat ≤ trapframe
      · have hpos := href htop
        rw [if_neg (by omega), Fs.filedup, if_neg (by omega)]
        exact ⟨_, rfl, .inr ⟨_, rfl, hacc.placed hsz hfit htop⟩⟩
      · rw [if_pos (by omega)]
        exact ⟨_, rfl, .inl rfl⟩
  · have hnot : ∀ f i, ¬Accepts c length.toNat prot flags fd.toInt f i :=
      fun f i h => hacc ⟨f, i, h⟩
    rw [sysMmap_of_not_accepts hnot]
    exact ⟨fun _ f i h => absurd h (hnot f i), fun _ => ⟨_, rfl, .inl rfl⟩⟩

end

def sampleCtx : Ctx := sampleKernel.ctx (sampleProc 0x80120 (some 0))

/-- One page of a file is mapped above the first page of the process. -/
theorem mmap_placement_sample : ∃ c', sysMmap sampleCtx (4096 : UInt64).toNat 3 1
    (3 : Int32).toInt (0 : UInt64).toNat = .ok (some 4096, c') ∧
      Placed sampleCtx (4096 : UInt64).toNat 4096 c' := by
  have hsafe : MmapSafe sampleCtx (4096 : UInt64).toNat 3 1 (3 : Int32).toInt :=
    fun f i _ => ⟨by decide, fun _ => Nat.le_succ 1⟩
  obtain ⟨r, hr, hplaced⟩ :=
    (mmap_placement_iff (c := sampleCtx) (by decide) 4096 0 3 1 3).mpr hsafe
  obtain ⟨c', hc'⟩ : ∃ c', sysMmap sampleCtx (4096 : UInt64).toNat 3 1 (3 : Int32).toInt
      (0 : UInt64).toNat = .ok (some 4096, c') := by decide +kernel
  obtain rfl : (some 4096, c') = r := Except.ok.inj (hc'.symm.trans hr)
  obtain hnone | ⟨va, hva, hright⟩ := hplaced
  · cases hnone
  · obtain rfl : 4096 = va := some.inj hva
    exact ⟨c', hc', hright⟩

/-- With a length of `2 ^ 64 - 4096` the call succeeds, and the size of the process drops
from 4096 to 0. -/
theorem mmap_length_wraps : ∃ c', sysMmap sampleCtx (0xFFFFFFFFFFFFF000 : UInt64).toNat 3 1
    (3 : Int32).toInt (0 : UInt64).toNat = .ok (some 4096, c') ∧ c'.proc.sz = 0 ∧
      ¬WellPlaced sampleCtx (0xFFFFFFFFFFFFF000 : UInt64).toNat (some 4096, c') := by
  obtain ⟨c', hr, hsz⟩ : ∃ c', sysMmap sampleCtx (0xFFFFFFFFFFFFF000 : UInt64).toNat 3 1
      (3 : Int32).toInt (0 : UInt64).toNat = .ok (some 4096, c') ∧ c'.proc.sz = 0 := by
    decide +kernel
  refine ⟨c', hr, hsz, ?_⟩
  rintro (hnone | ⟨va, -, hright⟩)
  · cases hnone
  · have hgrows : 4096 ≤ c'.proc.sz := hright.grows
    omega

end EafitOs.Memory
