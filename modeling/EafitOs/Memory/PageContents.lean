import EafitOs.Memory.FaultCases

/-!
# The contents of mapped pages

The first access to a page of a mapping loads the page from the file. The offset of the
page in the file is a `uint64` in the mapping and a `uint` in `readi`, so that a page
beyond the first four gigabytes shows other bytes of the file.
-/

namespace EafitOs.Memory

open Foundation Function Option

def Inode.byte (ino : Inode) (off : Nat) : UInt8 := if off < ino.size then ino.data off else 0

section Contents

variable {c c' : Ctx} {va : Nat} {v : Vma}

theorem fileOff_eq {pg k : Nat} (hk : pg = v.addr + k * pgsize) :
    v.fileOff pg = (v.offset + k * pgsize) % 2 ^ 32 := by
  subst hk
  simp only [Vma.fileOff, pgsize]
  omega

theorem fill_byte {fs : Fs} {i pg k : Nat} (hsize : (fs.inode i).size ≤ maxfile * bsize)
    (hk : pg = v.addr + k * pgsize) (j : Fin pgsize) :
    v.fill fs i pg j = (fs.inode i).byte ((v.offset + k * pgsize) % 2 ^ 32 + j) := by
  have hj := j.isLt
  rw [fill_apply, fileOff_eq hk, Inode.byte]
  generalize (v.offset + k * pgsize) % 2 ^ 32 = low
  refine if_congr ⟨fun h => h.1, fun h => ⟨h, ?_, hj⟩⟩ rfl rfl
  simp only [maxfile, bsize, pgsize] at hsize ⊢
  omega

/-- The mapping is the only region that covers the address. -/
structure Proc.Sole (p : Proc) (i : Fin maxvma) (va : Nat) : Prop where
  covers : (p.vmas i).covers va = true
  only : ∀ i', (p.vmas i').covers va = true → i' = i
  noVregion : p.noVregion va

theorem Proc.Sole.firstIdx {p : Proc} {i : Fin maxvma} (h : p.Sole i va) :
    Memory.firstIdx (fun i => (p.vmas i).covers va) = some i :=
  firstIdx_eq_of_unique h.covers h.only

/-- The installed page shows the file at the offset of page `k` of the mapping as an
unbounded number, and no other page of the process changes. -/
def ShowsFile (c c' : Ctx) (v : Vma) (ino : Inode) (va k : Nat) : Prop :=
  (∀ e, c'.proc.pt.leaf.lookup (vpn va) = some e → ∀ j : Fin pgsize,
    c'.mem.page e.frame j = ino.byte (v.offset + k * pgsize + j)) ∧
  ∀ n, n ≠ vpn va → c'.vm.space n = c.vm.space n

/-- The offset of page `k` fits into a `uint`, or there is nothing to see at the offset it is
cut down to. -/
def OffsetSafe (v : Vma) (ino : Inode) (k : Nat) : Prop :=
  v.offset + k * pgsize < 2 ^ 32 ∨
    ∀ j < pgsize, ino.byte ((v.offset + k * pgsize) % 2 ^ 32 + j) = 0

theorem Proc.Sole.trapPage {i : Fin maxvma} {ip : Nat} (h : c.proc.Sole i va)
    (hip : (c.fs.ftable (c.proc.vmas i).file).ip = some ip) {d : Page} {perm : Perm}
    (hserved : trapPage c va = .ok (some (d, perm))) :
    d = (c.proc.vmas i).fill c.fs ip (pgrounddown va) ∧ perm = (c.proc.vmas i).perm := by
  simp only [Memory.trapPage, firstIdx_none.mpr h.noVregion, h.firstIdx, hip] at hserved
  split at hserved
  · cases hserved
  · cases hlock : c.fs.ilock (some ip) with
    | error e =>
      rw [hlock] at hserved
      cases hserved
    | ok ip' =>
      obtain rfl : ip = ip' := some.inj (ilock_ok.mp hlock).1
      rw [hlock] at hserved
      obtain ⟨rfl, rfl⟩ := Prod.mk.inj (some.inj (Except.ok.inj hserved))
      exact ⟨rfl, rfl⟩

theorem touch_fills {namei : String → Option Nat} {t : Touch} {r : Option Nat} {i : Fin maxvma}
    {ip : Nat} (hv : c.vm.Owned) (hsole : c.proc.Sole i t.va)
    (hip : (c.fs.ftable (c.proc.vmas i).file).ip = some ip) (hmissing : vpn t.va ∉ c.proc.pt.leaf)
    (hrun : c.run namei t.call = .ok (r, c')) (hpage : vpn t.va ∈ c'.proc.pt.leaf) :
    r = none ∧ c'.vm.space = update c.vm.space (vpn t.va)
      (some ((c.proc.vmas i).fill c.fs ip (pgrounddown t.va), (c.proc.vmas i).perm)) := by
  rw [run_missing hmissing] at hrun
  cases htrap : usertrap c t.va with
  | error e =>
    rw [htrap] at hrun
    cases hrun
  | ok c₁ =>
    rw [htrap, ok_bind] at hrun
    obtain ⟨rfl, rfl⟩ := Prod.mk.inj (Except.ok.inj hrun)
    refine ⟨rfl, ?_⟩
    cases (usertrap_cases hv t.va).of_eq_ok htrap with
    | @served d perm f w _ hserves hfill =>
      obtain ⟨-, -, -, -, hspace⟩ := hfill.mapped f rfl
      rw [vpn_pgrounddown] at hspace
      obtain ⟨rfl, rfl⟩ := hsole.trapPage hip hserves
      exact hspace
    | starved _ _ hleaf _ _ => exact absurd (hleaf ▸ hpage) hmissing
    | ignored _ => exact absurd hpage hmissing
    | dropped hthere _ _ _ _ => exact absurd hthere hmissing

/-- The first load or store on page `k` of a mapping installs the page of the file exactly
where the offset of the page is not cut down to other bytes of the file. -/
theorem mmap_contents_iff {namei : String → Option Nat} {t : Touch} {r : Option Nat}
    {i : Fin maxvma} {ip k : Nat} (hv : c.vm.Owned) (hsole : c.proc.Sole i t.va)
    (hip : (c.fs.ftable (c.proc.vmas i).file).ip = some ip)
    (hsize : (c.fs.inode ip).size ≤ maxfile * bsize)
    (hk : pgrounddown t.va = (c.proc.vmas i).addr + k * pgsize)
    (hmissing : vpn t.va ∉ c.proc.pt.leaf) (hrun : c.run namei t.call = .ok (r, c'))
    (hpage : vpn t.va ∈ c'.proc.pt.leaf) :
    ShowsFile c c' (c.proc.vmas i) (c.fs.inode ip) t.va k ↔
      OffsetSafe (c.proc.vmas i) (c.fs.inode ip) k := by
  obtain ⟨-, hspace⟩ := touch_fills hv hsole hip hmissing hrun hpage
  obtain ⟨e, he⟩ := isSome_iff_exists.mp (AList.lookup_isSome.mpr hpage)
  have hbytes : ∀ j, c'.mem.page e.frame j =
      (c.fs.inode ip).byte (((c.proc.vmas i).offset + k * pgsize) % 2 ^ 32 + j) := by
    intro j
    have hat : c'.vm.space (vpn t.va) = some (c'.mem.page e.frame, e.perm) := by
      rw [Vm.space, show c'.vm.pt.leaf.lookup (vpn t.va) = some e from he]
      rfl
    rw [hspace, update_self] at hat
    rw [← fill_byte hsize hk, ← (Prod.mk.inj (some.inj hat)).1]
  have hother : ∀ n, n ≠ vpn t.va → c'.vm.space n = c.vm.space n := fun n hn => by
    rw [hspace, update_of_ne hn]
  have hbound : (c.fs.inode ip).size < 2 ^ 32 := by
    simp only [maxfile, bsize] at hsize
    omega
  constructor
  · rintro ⟨hshows, -⟩
    by_cases hfits : (c.proc.vmas i).offset + k * pgsize < 2 ^ 32
    · exact Or.inl hfits
    · refine Or.inr fun j hj => ?_
      rw [← hbytes ⟨j, hj⟩, hshows e he, Inode.byte, if_neg (by omega)]
  · rintro hsafe
    refine ⟨fun e' he' j => ?_, hother⟩
    obtain rfl : e' = e := some.inj (he'.symm.trans he)
    rw [hbytes]
    rcases hsafe with hfits | hzero
    · rw [Nat.mod_eq_of_lt hfits]
    · by_cases hfits : (c.proc.vmas i).offset + k * pgsize < 2 ^ 32
      · rw [Nat.mod_eq_of_lt hfits]
      · rw [hzero j j.isLt, Inode.byte, if_neg (by omega)]

/-- The first page of a mapping of a file of 5000 bytes. -/
theorem mmap_contents_first : ∃ r c', sampleCtx.vm.Owned ∧
    (sampleMapped 3).run (fun _ => none) (.load 4096) = .ok (r, c') ∧
    ShowsFile (sampleMapped 3) c' ((sampleMapped 3).proc.vmas 0) ((sampleMapped 3).fs.inode 1)
      4096 0 := by
  obtain ⟨⟨r, c'⟩, hr, hpage⟩ : ∃ r, (sampleMapped 3).run (fun _ => none) (.load 4096) = .ok r ∧
      vpn 4096 ∈ r.2.proc.pt.leaf := by
    decide +kernel
  have hsole : (sampleMapped 3).proc.Sole 0 4096 :=
    ⟨by decide, by decide +kernel, fun j => rfl⟩
  refine ⟨r, c', sampleCtx_owned, hr, ?_⟩
  exact (mmap_contents_iff (c := sampleMapped 3) (t := .load 4096) (k := 0) sampleCtx_owned hsole
    rfl (by decide) rfl (by decide +kernel) hr hpage).mpr (Or.inl (by decide))

/-- A mapping at the offset 2^32 shows the start of the file, which ends long before. -/
theorem mmap_contents_wrapped : ∃ c c',
    sysMmap sampleCtx 4096 3 1 3 (2 ^ 32) = .ok (some 4096, c) ∧
    c.run (fun _ => none) (.load 4096) = .ok (none, c') ∧
    ¬ShowsFile c c' (c.proc.vmas 0) (c.fs.inode 1) 4096 0 := by
  have hfacts : ∃ c, sysMmap sampleCtx 4096 3 1 3 (2 ^ 32) = .ok (some 4096, c) ∧
      ∃ c', c.run (fun _ => none) (.load 4096) = .ok (none, c') ∧
        (c.proc.vmas 0).offset = 2 ^ 32 ∧ (c.fs.inode 1).byte (2 ^ 32 + 0 * pgsize + 1) = 0 ∧
        ∃ e ∈ c'.proc.pt.leaf.lookup (vpn 4096), c'.mem.page e.frame (pageOffset 1) = 1 := by
    decide +kernel
  obtain ⟨c, h₁, c', h₂, hoff, hbyte, e, he, hone⟩ := hfacts
  refine ⟨c, c', h₁, h₂, fun hshows => ?_⟩
  have hzero := hshows.1 e he (pageOffset 1)
  rw [hone, hoff] at hzero
  exact absurd (hzero.trans hbyte) (by decide)

end Contents

end EafitOs.Memory
