import EafitOs.Memory.Containment
import EafitOs.Memory.ExecCommit
import EafitOs.Memory.Twins

/-!
# What a new image inherits

`kexec` replaces the page table and the size of a process and leaves its VMAs and vregions as they
are. A process without regions starts its new image without regions, and then the program
cannot tell what the old image was.
-/

namespace EafitOs.Memory

open Foundation Function Option Multiset

variable {c c' : Ctx} {namei : String → Option Nat}

structure NoRegions (p : Proc) : Prop where
  vmas : ∀ i, (p.vmas i).used = false
  vregions : ∀ j, (p.vregions j).used = false

def Call.isOwn : Call → Bool
  | .load _ | .store _ _ | .sbrk _ _ => true
  | _ => false

namespace NoRegions

theorem noVma {p : Proc} (h : NoRegions p) (va : Nat) : p.noVma va := by
  intro i
  simp [Vma.covers, h.vmas i]

theorem noVregion {p : Proc} (h : NoRegions p) (va : Nat) : p.noVregion va := by
  intro j
  simp [Vregion.covers, h.vregions j]

end NoRegions

/-- Two processes that differ in the frames of their address spaces only. -/
structure Ctx.Twins (c d : Ctx) : Prop where
  vm : Memory.Twins c.vm d.vm
  fs : c.fs = d.fs
  sz : c.proc.sz = d.proc.sz
  killed : c.proc.killed = d.proc.killed
  ofile : c.proc.ofile = d.proc.ofile
  cwd : c.proc.cwd = d.proc.cwd
  left : NoRegions c.proc
  right : NoRegions d.proc

namespace Ctx.Twins

variable {d : Ctx}

section

variable (h : c.Twins d)
include h

theorem setVm {v w : Vm} (hv : Memory.Twins v w) : (c.setVm v).Twins (d.setVm w) :=
  ⟨hv, h.fs, h.sz, h.killed, h.ofile, h.cwd, ⟨h.left.vmas, h.left.vregions⟩,
    ⟨h.right.vmas, h.right.vregions⟩⟩

theorem setSz (sz : Nat) : (c.setSz sz).Twins (d.setSz sz) :=
  ⟨h.vm, h.fs, rfl, h.killed, h.ofile, h.cwd, ⟨h.left.vmas, h.left.vregions⟩,
    ⟨h.right.vmas, h.right.vregions⟩⟩

theorem setKilled : c.setKilled.Twins d.setKilled :=
  ⟨h.vm, h.fs, h.sz, rfl, h.ofile, h.cwd, ⟨h.left.vmas, h.left.vregions⟩,
    ⟨h.right.vmas, h.right.vregions⟩⟩

theorem badFault (va : Nat) : Alike Ctx.Twins (badFault c va) (badFault d va) := by
  have hmapped : ismapped c.proc.pt (pgrounddown va) = ismapped d.proc.pt (pgrounddown va) :=
    h.vm.ismapped _
  rw [Memory.badFault, Memory.badFault, hmapped]
  refine (Alike.refl _).bind fun mapped _ heq => ?_
  rw [← heq]
  split
  · exact (h.vm.uvmunmap _ _).bind fun _ _ hv => .ok (h.setVm hv).setKilled
  · exact .ok h.setKilled

theorem usertrap (va : Nat) : Alike Ctx.Twins (usertrap c va) (usertrap d va) := by
  cases hkilled : d.proc.killed with
  | true =>
    rw [usertrap_killed (firstIdx_none.mpr (h.left.noVregion va)) (h.killed.trans hkilled),
      usertrap_killed (firstIdx_none.mpr (h.right.noVregion va)) hkilled]
    exact .ok h
  | false =>
    rw [usertrap_outside (h.left.noVregion va) (h.left.noVma va) (h.killed.trans hkilled),
      usertrap_outside (h.right.noVregion va) (h.right.noVma va) hkilled, heapFault, heapFault,
      h.sz, LawfulMonad.bind_assoc, LawfulMonad.bind_assoc]
    refine (h.vm.vmfault _ va).bind fun r s hrs => ?_
    have hset := h.setVm hrs.2
    rw [ok_bind, ok_bind, hrs.1, hset.killed]
    split
    · exact .ok hset
    · exact hset.badFault va

theorem growproc (n : Int) :
    Alike (fun r s => r.1 = s.1 ∧ r.2.Twins s.2) (growproc c n) (growproc d n) := by
  simp only [Memory.growproc, h.sz]
  split
  · split
    · exact .ok ⟨rfl, h⟩
    · refine (h.vm.uvmalloc _ _ _ _).bind fun r s hrs => ?_
      rw [hrs.1]
      split
      · exact .ok ⟨rfl, h.setVm hrs.2⟩
      · exact .ok ⟨rfl, (h.setVm hrs.2).setSz _⟩
  · split
    · refine (h.vm.uvmdealloc _ _).bind fun r s hrs => ?_
      rw [hrs.1]
      exact .ok ⟨rfl, (h.setVm hrs.2).setSz _⟩
    · exact .ok ⟨rfl, h⟩

theorem sysSbrk (n t : Int) :
    Alike (fun r s => r.1 = s.1 ∧ r.2.Twins s.2) (sysSbrk c n t) (sysSbrk d n t) := by
  simp only [Memory.sysSbrk, h.sz]
  split
  · refine (h.growproc n).bind fun r s hrs => ?_
    rw [hrs.1]
    exact .ok ⟨rfl, hrs.2⟩
  · split
    · exact .ok ⟨rfl, h⟩
    · split
      · exact .ok ⟨rfl, h⟩
      · exact .ok ⟨rfl, h.setSz _⟩

theorem run {a : Call} (ha : a.isOwn = true) :
    Alike (fun r s => r.1 = s.1 ∧ r.2.Twins s.2) (c.run namei a) (d.run namei a) := by
  have htrap : ∀ va, Alike (fun r s => r.1 = s.1 ∧ r.2.Twins s.2)
      (Memory.usertrap c va >>= fun c => .ok ((none : Option Nat), c))
      (Memory.usertrap d va >>= fun c => .ok ((none : Option Nat), c)) :=
    fun va => (h.usertrap va).bind fun _ _ h => .ok ⟨rfl, h⟩
  cases a with
  | load va =>
    simp only [Ctx.run, h.vm.loadByte]
    split
    · exact .ok ⟨rfl, h⟩
    · exact htrap _
  | store va b =>
    have hrel := h.vm.storeByte va.toNat b
    simp only [Ctx.run]
    generalize storeByte c.vm va.toNat b = x at hrel
    generalize storeByte d.vm va.toNat b = y at hrel
    cases hrel with
    | none => exact htrap _
    | some hv => exact .ok ⟨rfl, h.setVm hv⟩
  | sbrk n t => exact h.sysSbrk _ _
  | mmap | munmap | mapzero | mapRo | exec | copyin | copyout | copyinstr => cases ha

theorem kexit : Alike (fun c' d' => c'.fs = d'.fs) (kexit c) (kexit d) := by
  rw [Memory.kexit, Memory.kexit, exitVmas_of_unused c h.left.vmas,
    exitVmas_of_unused d h.right.vmas, ok_bind, ok_bind]
  have hclosed : Alike (fun c d : Ctx => c.fs = d.fs ∧ c.proc.ofile = d.proc.ofile ∧
      c.proc.cwd = d.proc.cwd) ((List.finRange nofile).foldlM exitFile c)
      ((List.finRange nofile).foldlM exitFile d) := by
    refine .foldlM ⟨h.fs, h.ofile, h.cwd⟩ fun fd _ c d hcd => ?_
    obtain ⟨hfs, hofile, hcwd⟩ := hcd
    rw [exitFile, exitFile, hfs, hofile]
    split
    · exact .ok ⟨hfs, hofile, hcwd⟩
    · exact (Alike.refl _).bind fun fs _ heq => .ok ⟨heq, rfl, hcwd⟩
  refine hclosed.bind fun c d hcd => ?_
  rw [hcd.1, hcd.2.2]
  split
  · exact .ok hcd.1
  · exact .ok rfl

end

end Ctx.Twins

/-- The results of a program's calls, and where they lead. -/
def Ctx.runAll (namei : String → Option Nat) : List Call → Ctx →
    Except String (List (Option Nat) × Ctx)
  | [], c => .ok ([], c)
  | a :: rest, c => do
    let (r, c) ← c.run namei a
    let (rs, c) ← runAll namei rest c
    .ok (r :: rs, c)

theorem Ctx.Twins.runAll (calls : List Call) (hown : ∀ a ∈ calls, a.isOwn = true) :
    ∀ {c d : Ctx}, c.Twins d → Alike (fun r s => r.1 = s.1 ∧ r.2.Twins s.2)
      (c.runAll namei calls) (d.runAll namei calls) := by
  induction calls with
  | nil => exact fun h => .ok ⟨rfl, h⟩
  | cons a rest ih =>
    intro c d h
    rw [Ctx.runAll, Ctx.runAll]
    refine (h.run (hown a List.mem_cons_self)).bind fun r s hrs => ?_
    refine (ih (fun b hb => hown b (List.mem_cons_of_mem a hb)) hrs.2).bind fun r' s' hrs' => ?_
    exact .ok ⟨congrArg₂ _ hrs.1 hrs'.1, hrs'.2⟩

section Commit

variable {sz : Nat} {v : Vm} {m : Mem}

/-- What a `kexec` leaves: the new table, and the frames of the old one free. -/
structure Committed (c : Ctx) (sz : Nat) (v : Vm) (m : Mem) : Prop where
  owns : c.OwnsTable
  image : Image c.mem c.proc.tf sz v
  regained : Regained (Vm.mk v.mem c.proc.pt.userPart).frames v.mem m

theorem Ctx.OwnsTable.committed (hc : c.OwnsTable) {fs : Fs} {ip : Nat}
    {argv : List (List UInt8)} {v₀ : Vm} {m₀ : Mem} {ok : Bool}
    (hargs : ∀ arg ∈ argv, arg.length < 2 ^ 63)
    (htable : procPagetable c.mem c.proc.tf = .ok (some v₀, m₀))
    (himage : buildImage fs ip argv v₀ = .ok (ok, sz, v))
    (hfree : procFreepagetable ⟨v.mem, c.proc.pt⟩ c.proc.sz = .ok m) : Committed c sz v m := by
  have hbuilt : Ends (buildImage fs ip argv v₀) (fun r => Image c.mem c.proc.tf r.2.1 r.2.2)
      fun _ => True := by
    obtain ⟨v₁, hv₁, hb⟩ | ⟨hnone, -⟩ := (procPagetable_builds hc.inUse).of_eq_ok htable
    · obtain rfl := some.inj hv₁
      refine (loadLoop_loaded fs ip hc.inUse _ _ (hb.loaded hc.inUse)).any.bind fun r hr => ?_
      obtain ⟨ok, sz, v₁⟩ := r
      cases ok with
      | false => exact .ok hr.toImage
      | true => exact (hr.growStack 0 hc.inUse hargs).any.bind fun s hs => .ok hs.1
    · cases hnone
  have hi : Image c.mem c.proc.tf sz v := hbuilt.of_eq_ok himage
  exact ⟨hc, hi, (hc.free_regains hi.free (hi.owned hc.inUse).free_nodup hi.kend
    (hc.confined_of_free hfree)).of_eq_ok hfree⟩

namespace Committed

section

variable (h : Committed c sz v m)
include h

theorem frames : (Vm.mk m v.pt).frames = c.vm.frames := by
  have hold : c.vm.frames = _ :=
    frames_userPart (v := c.vm) h.owns.trampolinePage h.owns.trapframePage
  have hnew := h.image.frames
  simp only [Vm.frames, h.regained.free, Ctx.vm] at hold hnew ⊢
  rw [hold]
  calc _ = (v.mem.free : Multiset Frame) + v.pt.tables + v.pt.mapped +
        (c.proc.pt.userPart.tables + c.proc.pt.userPart.mapped) := by ac_rfl
    _ = _ := by
      rw [hnew, cons_swap, cons_add, cons_add, add_assoc]

theorem owned : (Vm.mk m v.pt).Owned :=
  ⟨h.frames ▸ h.owns.owned.once, h.image.keys⟩

theorem space : (Vm.mk m v.pt).space = v.space := by
  funext i
  refine Option.map_congr fun e he => ?_
  have hnot := h.owned.not_free he
  rw [← mem_coe, h.regained.free] at hnot
  rw [h.regained.page _ hnot]

theorem kend : m.kend = c.mem.kend := h.regained.kend.trans h.image.kend

theorem sound : m.Sound := by
  intro f hf
  rw [← mem_coe, h.regained.free] at hf
  have hle := Ctx.OwnsTable.frames_le h.image.free (h.image.owned h.owns.inUse).free_nodup
  exact (h.owns.backed f (mem_of_le hle hf)).of_kend h.kend

end

end Committed

/-- Two processes that differ in their images only: they own their tables, which have as many
frames, and have no regions. -/
structure SameButImage (c d : Ctx) : Prop where
  left : c.OwnsTable
  right : d.OwnsTable
  noRegions : NoRegions c.proc
  noRegions' : NoRegions d.proc
  mem : d.mem = c.mem
  fs : d.fs = c.fs
  tf : d.proc.tf = c.proc.tf
  killed : c.proc.killed = d.proc.killed
  ofile : c.proc.ofile = d.proc.ofile
  cwd : c.proc.cwd = d.proc.cwd
  frames : c.vm.frames.card = d.vm.frames.card

theorem SameButImage.exec {d c₁ d₁ : Ctx} {ip : Option Nat} {argv : List (List UInt8)} {n n' : Nat}
    (h : SameButImage c d) (hargs : ∀ arg ∈ argv, arg.length < 2 ^ 63)
    (hc : kexec c ip argv = .ok (some n, c₁)) (hd : kexec d ip argv = .ok (some n', d₁)) :
    c₁.Twins d₁ := by
  obtain ⟨⟨⟩, -⟩ | ⟨i, v₀, m₀, sz, v, m, rfl, htable, himage, hfree, ⟨⟩⟩ :=
    (kexec_cases c ip argv).of_eq_ok hc
  obtain ⟨⟨⟩, -⟩ | ⟨_, w₀, m₀', sz', w, m', hip, htable', himage', hfree', ⟨⟩⟩ :=
    (kexec_cases d _ argv).of_eq_ok hd
  obtain rfl := some.inj hip
  have hl := h.left.committed hargs htable himage hfree
  have hr := h.right.committed hargs htable' himage' hfree'
  -- the image is the same: it depends on the memory and the file system alone
  rw [h.mem, h.tf, htable] at htable'
  obtain ⟨⟨⟩, rfl⟩ := Prod.mk.inj (Except.ok.inj htable')
  rw [h.fs, himage] at himage'
  obtain ⟨-, hsame⟩ := Prod.mk.inj (Except.ok.inj himage')
  obtain ⟨rfl, rfl⟩ := Prod.mk.inj hsame
  have hkend : m'.kend = m.kend := by rw [hl.kend, hr.kend, h.mem]
  have hcard := h.frames
  rw [← hl.frames, ← hr.frames] at hcard
  refine ⟨⟨⟨fun _ => .rfl, fun _ => .rfl, ?_⟩, hl.owned, hr.owned, hl.space.trans hr.space.symm,
    hl.sound, hr.sound, fun i e e' he he' => ?_⟩, h.fs.symm, rfl, h.killed, h.ofile, h.cwd,
    ⟨h.noRegions.vmas, h.noRegions.vregions⟩, ⟨h.noRegions'.vmas, h.noRegions'.vregions⟩⟩
  · simp only [Vm.frames, card_add, coe_card] at hcard
    show m.free.length = m'.free.length
    omega
  · obtain rfl := some.inj (he.symm.trans he')
    show m.Valid e.frame ↔ m'.Valid e.frame
    rw [Mem.Valid, Mem.Valid, hkend]

end Commit

/-- Two processes without regions replace their images by the same program. Whatever the program
loads, stores and asks of `sbrk`, it gets the same from both, up to a panic that meets both, and
leaves the same files, also if it exits. -/
theorem exec_discards_image {d c₁ d₁ : Ctx} {path : String} {argv : List (List UInt8)} {n n' : Nat}
    (h : SameButImage c d) (hargs : ∀ arg ∈ argv, arg.length < 2 ^ 63)
    (hc : c.run namei (.exec path argv) = .ok (some n, c₁))
    (hd : d.run namei (.exec path argv) = .ok (some n', d₁)) (calls : List Call)
    (hown : ∀ a ∈ calls, a.isOwn = true) :
    Alike (fun r s => r.1 = s.1 ∧ r.2.fs = s.2.fs ∧
        Alike (fun x y => x.fs = y.fs) (kexit r.2) (kexit s.2))
      (c₁.runAll namei calls) (d₁.runAll namei calls) :=
  ((h.exec hargs hc hd).runAll calls hown).imp fun _ _ hrs => ⟨hrs.1, hrs.2.fs, hrs.2.kexit⟩

def programFs : Fs := { sampleCtx.fs with inode := update sampleCtx.fs.inode 0 (bareElf.inode 0) }

def programCtx : Ctx := { sampleCtx with fs := programFs }

/-- The process with one page of its own, in frame `x.1` at `x.2.1`, and of size `x.2.2`. -/
def imageCtx (x : Frame × Nat × Nat) : Ctx :=
  { programCtx with proc := { programCtx.proc with
    sz := x.2.2
    pt := (((samplePt 0x80120).addMid 0 0x80124).addLow (x.2.1 / 2 ^ 21) 0x80125).setLeaf
      (vpn x.2.1) ⟨x.1, .heap⟩ } }

theorem imageCtx_ownsTable : ∀ x ∈ [(0x80126, 0, 4096), (0x80127, 0x200000, 0x201000)],
    (imageCtx x).OwnsTable := by
  have hfacts : ∀ x ∈ [(0x80126, 0, 4096), (0x80127, 0x200000, 0x201000)],
      (imageCtx x).vm.frames.Nodup ∧ (∀ i ∈ (imageCtx x).vm.pt.mid.keys, i < 512) ∧
      (imageCtx x).proc.pt.leaf.lookup (vpn trampoline) =
        some ⟨sampleCtx.mem.text, true, false, true, false⟩ ∧
      (imageCtx x).proc.pt.leaf.lookup (vpn trapframe) =
        some ⟨sampleCtx.proc.tf, true, true, false, false⟩ ∧
      (∀ f ∈ (Vm.mk sampleCtx.mem (imageCtx x).proc.pt.userPart).frames,
        sampleCtx.mem.Valid f) ∧ x.2.2 ≤ trapframe := by
    decide +kernel
  intro x hx
  obtain ⟨hnodup, hkeys, htramp, htf, hback, htop⟩ := hfacts x hx
  exact ⟨Caller.sampleCtx_inUse, ⟨nodup_iff_count_le_one.mp hnodup, hkeys⟩, htramp, htf,
    hback, htop⟩

theorem imageCtx_sameButImage :
    SameButImage (imageCtx (0x80126, 0, 4096)) (imageCtx (0x80127, 0x200000, 0x201000)) :=
  ⟨imageCtx_ownsTable _ (.head _), imageCtx_ownsTable _ (.tail _ (.head _)),
    ⟨fun _ => rfl, fun _ => rfl⟩, ⟨fun _ => rfl, fun _ => rfl⟩, rfl, rfl, rfl, rfl, rfl, rfl,
    by decide +kernel⟩

/-- The new program grows its heap, stores a byte there and reads it. -/
theorem exec_discards_image_heap : ∃ c₁ d₁ r s,
    (imageCtx (0x80126, 0, 4096)).run (fun _ => some 0) (.exec "sh" []) = .ok (some 0, c₁) ∧
    (imageCtx (0x80127, 0x200000, 0x201000)).run (fun _ => some 0) (.exec "sh" []) =
      .ok (some 0, d₁) ∧
    c₁.runAll (fun _ => some 0) [.sbrk 4096 2, .store 8192 7, .store 8192 7, .load 8192] = .ok r ∧
    d₁.runAll (fun _ => some 0) [.sbrk 4096 2, .store 8192 7, .store 8192 7, .load 8192] = .ok s ∧
    r.1 = [some 8192, none, some 0, some 7] ∧ r.1 = s.1 ∧ r.2.fs = s.2.fs := by
  have hrun : ∃ c₁, (imageCtx (0x80126, 0, 4096)).run (fun _ => some 0) (.exec "sh" []) =
      .ok (some 0, c₁) ∧ ∃ r, c₁.runAll (fun _ => some 0)
        [.sbrk 4096 2, .store 8192 7, .store 8192 7, .load 8192] = .ok r ∧
        r.1 = [some 8192, none, some 0, some 7] := by
    decide +kernel
  obtain ⟨c₁, hexec, r, hrun, hvalues⟩ := hrun
  obtain ⟨d₁, hexec'⟩ : ∃ d₁, (imageCtx (0x80127, 0x200000, 0x201000)).run (fun _ => some 0)
      (.exec "sh" []) = .ok (some 0, d₁) := by
    decide +kernel
  have halike := exec_discards_image imageCtx_sameButImage
    (fun arg harg => absurd harg List.not_mem_nil) hexec hexec'
    [.sbrk 4096 2, .store 8192 7, .store 8192 7, .load 8192] (by decide)
  rw [hrun] at halike
  obtain ⟨s, hs, hrs⟩ := halike.exists_ok_right
  exact ⟨c₁, d₁, r, s, hexec, hexec', hrun, hs, hvalues, hrs.1, hrs.2.1⟩

/-- Two processes run the same program, one of them with two pages of a file mapped before. In
the new image it reads a byte of the file where the other one is killed, and its exit writes
the stack of the new image to the file. -/
theorem exec_keeps_mapping : ∃ c c₁ c₂ c₃ d₁ d₂,
    programCtx.run (fun _ => some 0) (.mmap 8192 3 1 3 0) = .ok (some 4096, c) ∧
    c.run (fun _ => some 0) (.exec "sh" []) = .ok (some 0, c₁) ∧
    c₁.run (fun _ => some 0) (.load 8193) = .ok (none, c₂) ∧
    loadByte c₂.vm 8193 = some 1 ∧ c₂.proc.killed = false ∧
    kexit c₂ = .ok c₃ ∧ c₁.fs.written = [] ∧ c₃.fs.written ≠ [] ∧
    programCtx.run (fun _ => some 0) (.exec "sh" []) = .ok (some 0, d₁) ∧
    d₁.run (fun _ => some 0) (.load 8193) = .ok (none, d₂) ∧ d₂.proc.killed = true := by
  simp only [exists_and_left]
  set_option synthInstance.maxSize 1000 in
  decide +kernel

end EafitOs.Memory
