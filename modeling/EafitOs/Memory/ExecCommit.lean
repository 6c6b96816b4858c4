import EafitOs.Memory.ExecOutcome

/-!
# Committing to the new image

The commit sets the registers and frees the old table. No frame of the new image belongs to the
old one, so the program finds its arguments as they were pushed.
-/

namespace EafitOs.Memory

open Foundation Function List Option

section Registers

variable {m m' : Mem} {tf f : Frame} {r s : Reg} {x : Nat}

theorem leField_le64 (x : Nat) : leField (le64 x) 0 8 = x % 2 ^ 64 := by
  have hlist : le64 x = [x.toUInt8, (x / 256).toUInt8, (x / 256 ^ 2).toUInt8, (x / 256 ^ 3).toUInt8,
      (x / 256 ^ 4).toUInt8, (x / 256 ^ 5).toUInt8, (x / 256 ^ 6).toUInt8,
        (x / 256 ^ 7).toUInt8] := by
    simp [le64, range_succ]
  have hbyte : ∀ n : Nat, n.toUInt8.toNat = n % 256 := fun n => rfl
  simp only [leField, hlist, drop_zero, take_succ_cons, take_zero, foldr_cons,
    foldr_nil, hbyte]
  omega

theorem getElem?_slice (d : Page) (off n j : Nat) : (d.slice off n)[j]? =
    if h : j < n ∧ off + j < pgsize then some (d ⟨off + j, h.2⟩) else none := by
  rw [Page.slice, List.getElem?_take, List.getElem?_drop, List.getElem?_ofFn]
  by_cases hn : j < n
  · by_cases hp : off + j < pgsize
    · rw [if_pos hn, dif_pos hp, dif_pos ⟨hn, hp⟩]
    · rw [if_pos hn, dif_neg hp, dif_neg fun h => hp h.2]
  · rw [if_neg hn, dif_neg fun h => hn h.1]

theorem slice_overlay (d : Page) {off : Nat} {bs : List UInt8} (h : off + bs.length ≤ pgsize) :
    (d.overlay off bs).slice off bs.length = bs := by
  refine ext_getElem? fun j => ?_
  rw [getElem?_slice]
  split
  · rename_i hj
    simp only [Page.overlay]
    rw [if_pos ⟨by omega, by omega⟩, Nat.add_sub_cancel_left, getD_eq_getElem?_getD,
      List.getElem?_eq_getElem hj.1, getD_some]
  · rename_i hj
    rw [List.getElem?_eq_none (by omega)]

theorem slice_overlay_ne (d : Page) {off off' n : Nat} {bs : List UInt8}
    (h : off' + n ≤ off ∨ off + bs.length ≤ off') :
      (d.overlay off bs).slice off' n = d.slice off' n := by
  refine ext_getElem? fun j => ?_
  rw [getElem?_slice, getElem?_slice]
  split
  · rename_i hj
    simp only [Page.overlay]
    rw [if_neg (by omega)]
  · rfl

theorem length_le64 (x : Nat) : (le64 x).length = 8 := by
  rw [le64, length_map, length_range]

theorem reg_setReg (m : Mem) (tf : Frame) (r : Reg) (x : Nat) :
    (m.setReg tf r x).reg tf r = x % 2 ^ 64 := by
  have hfit : r.offset + (le64 x).length ≤ pgsize := by
    rw [length_le64]
    cases r <;> decide
  have hslice := slice_overlay (m.page tf) hfit
  rw [length_le64] at hslice
  rw [Mem.reg, Mem.setReg, Mem.setPage, ← leField_le64]
  simp only [update_self, hslice]

theorem reg_setReg_ne (h : r ≠ s) : (m.setReg tf r x).reg tf s = m.reg tf s := by
  have hfar : s.offset + 8 ≤ r.offset ∨ r.offset + (le64 x).length ≤ s.offset := by
    rw [length_le64]
    cases r <;> cases s <;> simp_all [Reg.offset]
  rw [Mem.reg, Mem.reg, Mem.setReg, Mem.setPage]
  simp only [update_self, slice_overlay_ne _ hfar]

theorem setReg_page_ne (h : f ≠ tf) : (m.setReg tf r x).page f = m.page f :=
  update_of_ne h _ _

theorem reg_congr (h : m'.page tf = m.page tf) (r : Reg) : m'.reg tf r = m.reg tf r := by
  rw [Mem.reg, Mem.reg, h]

end Registers

section Old

variable {c : Ctx} {m : Mem}

/-- The process owns its table: every frame of it is in one place and is a page that `kfree`
accepts, and the table maps the trampoline and the trapframe of the process. -/
structure Ctx.OwnsTable (c : Ctx) : Prop where
  inUse : c.mem.InUse c.proc.tf
  owned : c.vm.Owned
  trampolinePage : c.proc.pt.leaf.lookup (vpn trampoline) =
    some ⟨c.mem.text, true, false, true, false⟩
  trapframePage : c.proc.pt.leaf.lookup (vpn trapframe) =
    some ⟨c.proc.tf, true, true, false, false⟩
  backed : (Vm.mk c.mem c.proc.pt.userPart).Backed
  top : c.proc.sz ≤ trapframe

namespace Ctx.OwnsTable

theorem nodup (hc : c.OwnsTable) : (c.mem.text ::ₘ c.proc.tf ::ₘ
    (Vm.mk c.mem c.proc.pt.userPart).frames).Nodup := by
  have hframes : c.vm.frames = _ := frames_userPart (v := c.vm) hc.trampolinePage hc.trapframePage
  exact hframes ▸ hc.owned.nodup

theorem frames_le (hfree : ∀ f ∈ m.free, f ∈ c.mem.free) (hn : m.free.Nodup) :
    (Vm.mk m c.proc.pt.userPart).frames ≤ (Vm.mk c.mem c.proc.pt.userPart).frames :=
  add_le_add_left (add_le_add_left (Multiset.coe_le.mpr (hn.subperm hfree)) _) _

theorem free_regains (hc : c.OwnsTable) (hfree : ∀ f ∈ m.free, f ∈ c.mem.free)
    (hn : m.free.Nodup) (hkend : m.kend = c.mem.kend)
    (hconf : Confined c.proc.pt (npg c.proc.sz)) :
    Ends (procFreepagetable ⟨m, c.proc.pt⟩ c.proc.sz)
      (Regained (Vm.mk m c.proc.pt.userPart).frames m) fun _ => False := by
  have hle := frames_le hfree hn
  have hown : (Vm.mk m c.proc.pt.userPart).Owned := by
    refine ⟨fun f => ?_, hc.owned.keys⟩
    have hnodup := (Multiset.nodup_cons.mp (Multiset.nodup_cons.mp hc.nodup).2).2
    exact Multiset.nodup_iff_count_le_one.mp (Multiset.nodup_of_le hle hnodup) f
  have hback : (Vm.mk m c.proc.pt.userPart).Backed := fun f hf =>
    (hc.backed f (Multiset.mem_of_le hle hf)).of_kend hkend
  rw [procFreepagetable_eq]
  exact uvmfree_regains hown hback hc.top hconf.userPart

theorem confined_of_free (hc : c.OwnsTable) {m' : Mem}
    (h : procFreepagetable ⟨m, c.proc.pt⟩ c.proc.sz = .ok m') :
    Confined c.proc.pt (npg c.proc.sz) := by
  rw [procFreepagetable_eq] at h
  have hbelow := (uvmfree_below (v := ⟨m, c.proc.pt.userPart⟩) hc.owned.keys hc.top).of_eq_ok h
  intro i hi
  by_cases htramp : i = vpn trampoline
  · exact Or.inl htramp
  · by_cases htf : i = vpn trapframe
    · exact Or.inr (Or.inl htf)
    · exact Or.inr (Or.inr (hbelow i (mem_userPart.mpr ⟨htf, htramp, hi⟩)))

theorem notMem_of_free (hc : c.OwnsTable) {f : Frame} (hf : f ∈ c.mem.free) :
    f ≠ c.proc.tf ∧ f ∉ c.proc.pt.userPart.tables + c.proc.pt.userPart.mapped := by
  have hnodup := (Multiset.nodup_cons.mp (Multiset.nodup_cons.mp hc.nodup).2).2
  rw [Vm.frames, add_assoc] at hnodup
  exact ⟨fun heq => hc.inUse.taken (heq ▸ hf), fun hmem =>
    Multiset.disjoint_left.mp (Multiset.nodup_add.mp hnodup).2.2 (Multiset.mem_coe.mpr hf) hmem⟩

theorem tf_notMem (hc : c.OwnsTable) : c.proc.tf ∉ (Vm.mk c.mem c.proc.pt.userPart).frames :=
  (Multiset.nodup_cons.mp (Multiset.nodup_cons.mp hc.nodup).2).1

end Ctx.OwnsTable

end Old

section Commit

variable {x y : Caller} {argv : List (List UInt8)} {path : List UInt8} {ip entry n sp : Nat}
    {v : Vm}

def Mem.startRegs (m : Mem) (tf : Frame) (sp entry : Nat) : Mem :=
  ((m.setReg tf .a1 sp).setReg tf .epc entry).setReg tf .sp sp

theorem startRegs_page_ne {m : Mem} {tf f : Frame} (h : f ≠ tf) :
    (m.startRegs tf sp entry).page f = m.page f := by
  rw [Mem.startRegs, setReg_page_ne h, setReg_page_ne h, setReg_page_ne h]

namespace Caller

theorem commit_eq (x : Caller) (path : List UInt8) (ip entry sz sp : Nat) (v : Vm) :
    (x.closed ip x.ctx.mem).commit path entry sz sp v =
      (procFreepagetable ⟨v.mem.startRegs x.ctx.proc.tf sp entry, x.ctx.proc.pt⟩ x.ctx.proc.sz >>=
        fun m => .ok { x.closed ip m with
          name := safestrcpy (lastElem path path) 16
          ctx := { (x.closed ip m).ctx with proc := { x.ctx.proc with pt := v.pt, sz := sz } } }) :=
  rfl

theorem commit_returns (path : List UInt8) (ip entry : Nat) (hc : x.ctx.OwnsTable)
    (hr : ReadyImage x.ctx.mem x.ctx.proc.tf argv n sp v)
    (hconf : Confined x.ctx.proc.pt (npg x.ctx.proc.sz)) :
    ∃ y m, (x.closed ip x.ctx.mem).commit path entry ((n + 2) * pgsize) sp v = .ok y ∧
      y.ctx.mem = m ∧ y.ctx.proc = { x.ctx.proc with pt := v.pt, sz := (n + 2) * pgsize } ∧
      Regained (Vm.mk v.mem x.ctx.proc.pt.userPart).frames
        (v.mem.startRegs x.ctx.proc.tf sp entry) m := by
  obtain ⟨m, hm, hback⟩ := (hc.free_regains (m := v.mem.startRegs x.ctx.proc.tf sp entry) hr.free
    (hr.owned hc.inUse).free_nodup hr.kend hconf).exists_ok
  rw [commit_eq, hm, ok_bind]
  exact ⟨_, m, rfl, rfl, rfl, hback⟩

theorem confined_of_commit (hc : x.ctx.OwnsTable)
    (h : (x.closed ip x.ctx.mem).commit path entry ((n + 2) * pgsize) sp v = .ok y) :
    Confined x.ctx.proc.pt (npg x.ctx.proc.sz) := by
  rw [commit_eq] at h
  cases hm : procFreepagetable ⟨v.mem.startRegs x.ctx.proc.tf sp entry, x.ctx.proc.pt⟩
      x.ctx.proc.sz with
  | error e =>
    rw [hm] at h
    cases h
  | ok m => exact hc.confined_of_free hm

end Caller

theorem ReadyImage.seven_le {m : Mem} {tf : Frame} (hr : ReadyImage m tf argv n sp v)
    (h : m.InUse tf) : 7 ≤ m.free.length := by
  have hn : n ≤ phystop := by
    have hle := hr.npg_le h
    rw [npg_mul_pgsize hr.top] at hle
    omega
  obtain ⟨e, he, -⟩ := hr.guard
  have htramp : vpn trampoline ∈ v.pt.leaf := AList.lookup_isSome.mp
    (by rw [hr.trampolinePage]; rfl)
  have htf : vpn trapframe ∈ v.pt.leaf := AList.lookup_isSome.mp (by rw [hr.trapframePage]; rfl)
  have hguard : n ∈ v.pt.leaf := AList.lookup_isSome.mp (by rw [he]; rfl)
  have hleaf : 4 ≤ (values v.pt.leaf).card := by
    refine length_le_card_values [vpn trampoline, vpn trapframe, n, n + 1] ?_ ?_
    · simp only [nodup_cons, mem_cons, not_mem_nil, or_false, not_false_iff, nodup_nil, and_true,
        vpn, phystop, trapframe, trampoline, maxva, pgsize] at hn ⊢
      omega
    · simpa using ⟨htramp, htf, hguard, hr.stack⟩
  -- the guard page is far below the trampoline, so that each has tables of its own
  have hfar : vpn trampoline / 512 / 512 ≠ n / 512 / 512 := by
    simp only [vpn, phystop, trampoline, maxva, pgsize] at hn ⊢
    omega
  have hlow : 2 ≤ (values v.pt.low).card :=
    length_le_card_values [vpn trampoline / 512, n / 512]
      (by simpa using fun h => hfar (congrArg (· / 512) h))
      (by simpa using ⟨v.pt.leaf_low _ htramp, v.pt.leaf_low _ hguard⟩)
  have hmid : 2 ≤ (values v.pt.mid).card :=
    length_le_card_values [vpn trampoline / 512 / 512, n / 512 / 512] (by simpa using hfar)
      (by simpa using ⟨v.pt.low_mid _ (v.pt.leaf_low _ htramp),
        v.pt.low_mid _ (v.pt.leaf_low _ hguard)⟩)
  have hcard := congrArg Multiset.card hr.frames
  simp only [Vm.frames, PageTable.tables, PageTable.mapped, Multiset.card_add, Multiset.card_cons,
    Multiset.card_map, Multiset.coe_card] at hcard
  omega

end Commit

section Panics

def bareElf : Fs where
  ftable := fun _ => ⟨.none, 0, false, false, none⟩
  inode := fun _ => ⟨2, 1, 0, elfhdrSize, fun j => ([0x7F, 0x45, 0x4C, 0x46] : List UInt8).getD j 0⟩
  room := fun _ => 0
  nwrites := 0
  written := []

theorem bareElf_header : ((bareElf.idup 0).readi 0 0 elfhdrSize).length = elfhdrSize ∧
    leField ((bareElf.idup 0).readi 0 0 elfhdrSize) 0 4 = elfMagic ∧
    leField ((bareElf.idup 0).readi 0 0 elfhdrSize) 56 2 = 0 := by
  decide +kernel

section Bare

variable (f₀ f₁ f₂ f₃ f₄ f₅ f₆ : Frame) (rest : List Frame) (page : Frame → Page)
  (kend text tf : Frame) (hlt : text < kend)

def bareTable : PageTable :=
  ((((PageTable.empty f₀).addMid (trampoline / 2 ^ 30) f₁).addLow (trampoline / 2 ^ 21)
    f₂).setLeaf (vpn trampoline) ⟨text, ⟨true, false, true, false⟩⟩).setLeaf (vpn trapframe)
    ⟨tf, ⟨true, true, false, false⟩⟩

def stackTable : PageTable :=
  ((((bareTable f₀ f₁ f₂ text tf).addMid 0 f₄).addLow 0 f₅).setLeaf 0 ⟨f₃, .heap⟩).setLeaf 1
    ⟨f₆, .heap⟩

theorem procPagetable_bare : ∃ m, procPagetable ⟨f₀ :: f₁ :: f₂ :: rest, page, kend, text, hlt⟩ tf =
    .ok (some ⟨m, bareTable f₀ f₁ f₂ text tf⟩, m) ∧ m.free = rest :=
  ⟨_, rfl, rfl⟩

theorem uvmalloc_bare {m : Mem} (h : m.free = f₃ :: f₄ :: f₅ :: f₆ :: rest) :
    ∃ m', uvmalloc ⟨m, bareTable f₀ f₁ f₂ text tf⟩ 0 8192 true false =
      .ok (8192, ⟨m', stackTable f₀ f₁ f₂ f₃ f₄ f₅ f₆ text tf⟩) := by
  obtain ⟨free, page, kend, text', hlt⟩ := m
  obtain rfl : free = _ := h
  exact ⟨_, rfl⟩

theorem buildStack_bare (m : Mem) (psz : Nat) :
    ∃ v, buildStack psz [] 8192 ⟨m, stackTable f₀ f₁ f₂ f₃ f₄ f₅ f₆ text tf⟩ = .ok (some 8176, v) :=
  ⟨_, rfl⟩

end Bare

theorem exists_seven {l : List Frame} (h : 7 ≤ l.length) :
    ∃ a b c d e f g rest, l = a :: b :: c :: d :: e :: f :: g :: rest := by
  rcases l with _ | ⟨a, _ | ⟨b, _ | ⟨c, _ | ⟨d, _ | ⟨e, _ | ⟨f, _ | ⟨g, rest⟩⟩⟩⟩⟩⟩⟩
  all_goals first
    | exact ⟨a, b, c, d, e, f, g, rest, rfl⟩
    | (simp only [length_cons, length_nil] at h; omega)

variable {x : Caller}

namespace Caller

theorem bare_commits (h : 7 ≤ x.ctx.mem.free.length) : ∃ v,
    (x.setFs bareElf).kexec (fun _ => some 0) [] [] =
      (((x.setFs bareElf).closed 0 x.ctx.mem).commit []
        (leField ((bareElf.idup 0).readi 0 0 elfhdrSize) 24 8) 8192 8176 v >>= fun y =>
          .ok (some 0, y)) := by
  obtain ⟨⟨⟨free, page, kend, text, hlt⟩, fs, p⟩, name, locked, ops⟩ := x
  obtain ⟨f₀, f₁, f₂, f₃, f₄, f₅, f₆, rest, rfl⟩ := exists_seven h
  obtain ⟨hlength, hmagic, hphnum⟩ := bareElf_header
  obtain ⟨m, htable, hfree⟩ := procPagetable_bare f₀ f₁ f₂ (f₃ :: f₄ :: f₅ :: f₆ :: rest) page kend
    text p.tf hlt
  obtain ⟨m', halloc⟩ := uvmalloc_bare f₀ f₁ f₂ f₃ f₄ f₅ f₆ rest text p.tf hfree
  obtain ⟨v, hpush⟩ := buildStack_bare f₀ f₁ f₂ f₃ f₄ f₅ f₆ text p.tf m' p.sz
  refine ⟨v, ?_⟩
  obtain ⟨x, hx⟩ : ∃ x : Caller, x = ⟨⟨⟨f₀ :: f₁ :: f₂ :: f₃ :: f₄ :: f₅ :: f₆ :: rest, page, kend,
    text,
    hlt⟩, bareElf, p⟩, name, locked, ops⟩ := ⟨_, rfl⟩
  have hfs : (x.opened 0).ctx.fs = bareElf.idup 0 := by rw [hx]; rfl
  have htype : (x.ctx.fs.inode 0).type ≠ 0 := by
    rw [hx]
    exact Nat.succ_ne_zero 1
  have htable' : procPagetable (x.opened 0).ctx.mem (x.opened 0).ctx.proc.tf =
      .ok (some ⟨m, bareTable f₀ f₁ f₂ text p.tf⟩, m) := by
    rw [hx]
    exact htable
  have hpush' : buildStack (x.closed 0 x.ctx.mem).ctx.proc.sz [] 8192
      ⟨m', stackTable f₀ f₁ f₂ f₃ f₄ f₅ f₆ text p.tf⟩ = .ok (some 8176, v) := by
    rw [hx]
    exact hpush
  obtain ⟨y, hy, hend⟩ := iunlockput_opened x 0 x.ctx.mem
  have hy' : (x.opened 0).iunlockput 0 = .ok y := hy
  have hsz : pgroundup 0 = 0 := by decide
  have hnew : (0 + (userstack + 1) * pgsize) % 2 ^ 64 = 8192 := by decide
  have hne : ¬8192 = 0 := by decide
  show Caller.kexec ⟨⟨_, bareElf, p⟩, name, locked, ops⟩ _ _ _ =
    ((closed ⟨⟨_, bareElf, p⟩, name, locked, ops⟩ 0 _).commit _ _ _ _ _ >>= _)
  rw [← hx, kexec]
  simp only [ilock_opened htype, ok_bind, hfs]
  rw [if_neg (not_not_intro hlength), if_neg (not_not_intro hmagic), htable', ok_bind]
  simp only [load, hfs, hphnum, loadLoop, ok_bind, Bool.not_true, Bool.false_eq_true, if_false,
    hy', hend, finish, growStack, hsz, hnew, halloc, if_neg hne, hpush']
  rw [hx]
  rfl

/-- Whatever the file holds, `kexec` returns the number of arguments or -1, and its loops end,
exactly if the table of the caller maps nothing above its size, or if there is not even
memory for an empty program. -/
theorem exec_returns_iff (hc : x.ctx.OwnsTable) (hlocked : ∀ ip, x.locked ip = false) :
    (∀ (fs : Fs) (namei : List UInt8 → Option Nat) (path : List UInt8) (argv : List (List UInt8)),
      (x.setFs fs).Asks namei path argv → argv.length < maxarg →
      ∃ r y, (x.setFs fs).kexec namei path argv = .ok (r, y) ∧ (r = none ∨ r = some argv.length)) ↔
    Confined x.ctx.proc.pt (npg x.ctx.proc.sz) ∨ x.ctx.mem.free.length < 7 := by
  constructor
  · intro hall
    by_cases hmem : x.ctx.mem.free.length < 7
    · exact Or.inr hmem
    · have hasks : (x.setFs bareElf).Asks (fun _ => some 0) [] [] :=
        ⟨fun ip _ => ⟨Nat.succ_ne_zero 1, hlocked ip⟩, fun arg harg => absurd harg not_mem_nil⟩
      obtain ⟨r, y, hrun, -⟩ := hall bareElf (fun _ => some 0) [] [] hasks (by decide)
      obtain ⟨v, hcommit⟩ := bare_commits (x := x) (Nat.not_lt.mp hmem)
      rw [hcommit] at hrun
      cases hy : ((x.setFs bareElf).closed 0 x.ctx.mem).commit []
          (leField ((bareElf.idup 0).readi 0 0 elfhdrSize) 24 8) 8192 8176 v with
      | error e =>
        rw [hy] at hrun
        cases hrun
      | ok z =>
        have hc' : (x.setFs bareElf).ctx.OwnsTable :=
          ⟨hc.inUse, hc.owned, hc.trampolinePage, hc.trapframePage, hc.backed, hc.top⟩
        exact Or.inl (confined_of_commit (x := x.setFs bareElf) (n := 0) hc' hy)
  · intro hcond fs namei path argv hasks hcount
    have hc' : (x.setFs fs).ctx.OwnsTable :=
      ⟨hc.inUse, hc.owned, hc.trampolinePage, hc.trapframePage, hc.backed, hc.top⟩
    rcases kexec_cases hc'.inUse hasks with ⟨y, hy, -⟩ | ⟨ip, entry, n, sp, v, hr, hy⟩ | ⟨hmany, -⟩
    · exact ⟨none, y, hy, Or.inl rfl⟩
    · rcases hcond with hconf | hfew
      · obtain ⟨y, m, hcommit, -⟩ := commit_returns path ip entry hc' hr hconf
        exact ⟨some argv.length, y, by rw [hy, hcommit, ok_bind], Or.inr rfl⟩
      · exact absurd (hr.seven_le hc'.inUse) (Nat.not_le.mpr hfew)
    · omega

theorem sampleCtx_ownsTable : sampleCtx.OwnsTable where
  inUse := sampleCtx_inUse
  owned := sampleCtx_owned
  trampolinePage := by decide +kernel
  trapframePage := by decide +kernel
  backed := show ∀ f ∈ (Vm.mk sampleCtx.mem sampleCtx.proc.pt.userPart).frames,
    sampleCtx.mem.Valid f by decide +kernel
  top := by decide

/-- The bare program is loaded. -/
theorem exec_returns_sample : ∃ r y,
    ((sample sampleCtx).setFs bareElf).kexec (fun _ => some 0) [] [] = .ok (r, y) ∧
      (r = none ∨ r = some 0) :=
  (exec_returns_iff (x := sample sampleCtx) sampleCtx_ownsTable fun _ => rfl).mpr
    (Or.inl (sampleProc_bounded 0x80120 (some 0)).confined) bareElf (fun _ => some 0) [] []
    ⟨fun _ _ => ⟨Nat.succ_ne_zero 1, rfl⟩, fun arg harg => absurd harg not_mem_nil⟩ (by decide)

/-- A process that has mapped a read-only page far above its size runs a program. -/
theorem exec_meets_leaf : ∃ c, sysMapRo sampleCtx 0x40000000 = .ok (true, c) ∧
    c.mem.free.length ≤ 32768 ∧
    ((sample c).setFs bareElf).kexec (fun _ => some 0) [] [] = .error "freewalk: leaf" := by
  decide +kernel

end Caller

end Panics

section Arguments

variable {x : Caller} {argv : List (List UInt8)} {entry n sp : Nat} {v : Vm} {m : Mem}

theorem userByte_zero {a : Nat} {b : UInt8} (h : v.userByte 0 a = some b) : a < maxva ∧
    ∃ e, v.pt.leaf.lookup (vpn a) = some e ∧ e.perm.u = true ∧
      b = v.mem.page e.frame (pageOffset a) := by
  have hmax : a < maxva := lt_maxva_of_userByte (by rw [h]; exact some_ne_none b)
  refine ⟨hmax, ?_⟩
  cases he : v.pt.leaf.lookup (vpn a) with
  | none =>
    rw [userByte_missing hmax (AList.lookup_eq_none.mp he), if_neg (Nat.not_lt_zero _)] at h
    cases h
  | some e =>
    by_cases hu : e.perm.u = true
    · rw [userByte_of_lookup hmax he hu] at h
      exact ⟨e, rfl, hu, (some.inj h).symm⟩
    · simp only [Vm.userByte, if_neg (Nat.not_le.mpr hmax), he, if_neg hu] at h
      cases h

section

variable (hr : ReadyImage x.ctx.mem x.ctx.proc.tf argv n sp v) (hc : x.ctx.OwnsTable)
  (hm : Regained (Vm.mk v.mem x.ctx.proc.pt.userPart).frames
    (v.mem.startRegs x.ctx.proc.tf sp entry) m)
include hr hc hm

theorem ReadyImage.userByte {w : Vm} (hpt : w.pt = v.pt)
    (hpage : ∀ f, f ≠ x.ctx.proc.tf → w.mem.page f = m.page f) (sz : Nat) {a : Nat} {b : UInt8}
    (h : v.userByte 0 a = some b) : w.userByte sz a = some b := by
  obtain ⟨hmax, e, he, hu, rfl⟩ := userByte_zero h
  have hlt : vpn a < npg ((n + 2) * pgsize) := by
    rcases hr.below _ (AList.lookup_isSome.mp (by rw [he]; rfl)) with heq | heq | hlt
    · rw [heq, hr.trampolinePage] at he
      obtain rfl := some.inj he
      cases hu
    · rw [heq, hr.trapframePage] at he
      obtain rfl := some.inj he
      cases hu
    · exact hlt
  have hfree := hr.user_frame hc.inUse hlt he
  obtain ⟨hne, hold⟩ := hc.notMem_of_free hfree
  have hnot : e.frame ∉ (Vm.mk v.mem x.ctx.proc.pt.userPart).frames := by
    rw [Vm.frames, add_assoc, Multiset.mem_add, Multiset.mem_coe]
    exact fun hmem => hmem.elim ((hr.owned hc.inUse).not_free he) hold
  rw [userByte_of_lookup hmax (by rw [hpt]; exact he) hu, hpage _ hne, hm.page _ hnot,
    startRegs_page_ne hne]

theorem ReadyImage.regs : m.reg x.ctx.proc.tf .a1 = sp ∧ m.reg x.ctx.proc.tf .sp = sp := by
  have hle := Ctx.OwnsTable.frames_le hr.free (hr.owned hc.inUse).free_nodup
  have hpage := hm.page _ fun hmem => hc.tf_notMem (Multiset.mem_of_le hle hmem)
  have hsp : sp % 2 ^ 64 = sp := by
    obtain ⟨ustack, hargs⟩ := hr.arguments
    have hlast := (hargs.inside _ mem_cons_self).2
    have htop := hr.top
    simp only [trapframe, trampoline, maxva, pgsize] at hlast htop
    exact Nat.mod_eq_of_lt (by omega)
  rw [reg_congr hpage, reg_congr hpage, Mem.startRegs]
  refine ⟨?_, ?_⟩
  · rw [reg_setReg_ne (by decide), reg_setReg_ne (by decide), reg_setReg, hsp]
  · rw [reg_setReg, hsp]

end

/-- What a program finds when it starts: the number of its arguments in `a0`, in `a1` and in
the stack pointer the address of the array of pointers to them, and a guard page below the
stack that it cannot reach. -/
structure Caller.Started (x : Caller) (argv : List (List UInt8)) (sp : Nat) (ustack : List Nat) :
    Prop where
  a0 : x.ctx.mem.reg x.ctx.proc.tf .a0 = argv.length
  a1 : x.ctx.mem.reg x.ctx.proc.tf .a1 = sp
  pointer : x.ctx.mem.reg x.ctx.proc.tf .sp = sp
  stack : ArgStack (x.ctx.vm.userByte x.ctx.proc.sz) (x.ctx.proc.sz - userstack * pgsize)
    x.ctx.proc.sz argv sp ustack
  guard : ∃ e, x.ctx.proc.pt.walk (x.ctx.proc.sz - (userstack + 1) * pgsize) = .ok (some e) ∧
    e.perm.u = false

namespace Caller

theorem started (hc : x.ctx.OwnsTable) (hr : ReadyImage x.ctx.mem x.ctx.proc.tf argv n sp v)
    (hcount : argv.length < maxarg) {w : Caller}
    (hproc : w.ctx.proc = { x.ctx.proc with pt := v.pt, sz := (n + 2) * pgsize })
    (hm : Regained (Vm.mk v.mem x.ctx.proc.pt.userPart).frames
      (v.mem.startRegs x.ctx.proc.tf sp entry) w.ctx.mem) :
    ∃ ustack, (w.setMem (w.ctx.mem.setReg w.ctx.proc.tf .a0 argv.length)).Started argv sp
      ustack := by
  obtain ⟨ustack, hstack⟩ := hr.arguments
  obtain ⟨ha1, hsp⟩ := hr.regs hc hm
  have htf : w.ctx.proc.tf = x.ctx.proc.tf := by rw [hproc]
  have hsz : w.ctx.proc.sz = (n + 2) * pgsize := by rw [hproc]
  have hpt : w.ctx.proc.pt = v.pt := by rw [hproc]
  have htop := hr.top
  refine ⟨ustack, ?_, ?_, ?_, ?_, ?_⟩
  · show (w.ctx.mem.setReg w.ctx.proc.tf .a0 argv.length).reg w.ctx.proc.tf .a0 = _
    simp only [maxarg] at hcount
    rw [reg_setReg, Nat.mod_eq_of_lt (by omega)]
  · show (w.ctx.mem.setReg w.ctx.proc.tf .a0 argv.length).reg w.ctx.proc.tf .a1 = _
    rw [reg_setReg_ne (by decide), htf]
    exact ha1
  · show (w.ctx.mem.setReg w.ctx.proc.tf .a0 argv.length).reg w.ctx.proc.tf .sp = _
    rw [reg_setReg_ne (by decide), htf]
    exact hsp
  · have hbase : (n + 2) * pgsize - userstack * pgsize = (n + 1) * pgsize := by
      simp only [userstack, pgsize]
      omega
    show ArgStack (Vm.userByte ⟨w.ctx.mem.setReg w.ctx.proc.tf .a0 argv.length, w.ctx.proc.pt⟩
      w.ctx.proc.sz) (w.ctx.proc.sz - _) w.ctx.proc.sz _ _ _
    rw [hsz, hbase]
    refine hstack.mono fun a b hab => hr.userByte hc hm
      (w := ⟨w.ctx.mem.setReg w.ctx.proc.tf .a0 argv.length, w.ctx.proc.pt⟩) hpt (fun f hf => ?_) _
        hab
    rw [htf]
    exact setReg_page_ne hf
  · obtain ⟨e, he, hu⟩ := hr.guard
    have hguard : (n + 2) * pgsize - (userstack + 1) * pgsize = n * pgsize := by
      simp only [userstack, pgsize]
      omega
    refine ⟨e, ?_, hu⟩
    show w.ctx.proc.pt.walk (w.ctx.proc.sz - _) = _
    rw [hsz, hguard, hpt]
    refine walk_of_lookup ?_ (by rw [vpn_mul]; exact he)
    simp only [trapframe, trampoline, maxva, pgsize] at htop ⊢
    omega

/-- `exec` builds the argument stack: where `kexec` succeeds the program finds its arguments;
and at no point, whatever the lengths of the strings, is anything stored below the stack. -/
theorem exec_argument_stack :
    (∀ (x : Caller) (namei : List UInt8 → Option Nat) (path : List UInt8)
      (argv : List (List UInt8)), x.ctx.OwnsTable → x.Asks namei path argv → argv.length < maxarg →
      ∀ argc y, x.kexec namei path argv = .ok (some argc, y) → argc = argv.length ∧
        ∃ x' sp ustack, x.exec namei path argv = .ok x' ∧ x'.Started argv sp ustack) ∧
    ∀ (m : Mem) (tf : Frame) (n psz : Nat) (v : Vm) (argv : List (List UInt8)), m.InUse tf →
      Loaded m tf ((n + 2) * pgsize) v → (∀ arg ∈ argv, arg.length < 2 ^ 63) →
      ∀ r v', buildStack psz argv ((n + 2) * pgsize) v = .ok (r, v') → Keeps n v v' := by
  constructor
  · intro x namei path argv hc hasks hcount argc y hrun
    rcases kexec_cases hc.inUse hasks with ⟨z, hz, -⟩ | ⟨ip, entry, n, sp, v, hr, hz⟩ | ⟨hmany, -⟩
    · cases (Prod.mk.inj (Except.ok.inj (hz.symm.trans hrun))).1
    · have hret := hz.symm.trans hrun
      cases hcommit : (x.closed ip x.ctx.mem).commit path entry ((n + 2) * pgsize) sp v with
      | error e =>
        rw [hcommit] at hret
        cases hret
      | ok w =>
        rw [hcommit, ok_bind] at hret
        obtain ⟨hargc, rfl⟩ := Prod.mk.inj (Except.ok.inj hret)
        obtain rfl := some.inj hargc
        obtain ⟨w', m, hw', rfl, hproc, hback⟩ := commit_returns path ip entry hc hr
          (confined_of_commit hc hcommit)
        obtain rfl : w = w' := Except.ok.inj (hcommit.symm.trans hw')
        obtain ⟨ustack, hstarted⟩ := started hc hr hcount hproc hback
        refine ⟨rfl, _, sp, ustack, ?_, hstarted⟩
        rw [exec, hrun, ok_bind]
        rfl
    · omega
  · intro m tf n psz v argv h hi hargs r v' hcall
    exact ((buildStack_pushes psz h hi hargs).of_eq_ok hcall).2.1

/-- A program is started with one argument. -/
theorem exec_argument_stack_sample : ∃ x' sp ustack,
    ((sample sampleCtx).setFs bareElf).exec (fun _ => some 0) [] [[104, 105]] = .ok x' ∧
      x'.Started [[104, 105]] sp ustack := by
  obtain ⟨y, hcall⟩ : ∃ y, ((sample sampleCtx).setFs bareElf).kexec (fun _ => some 0) []
      [[104, 105]] = .ok (some 1, y) := by decide +kernel
  have howns : ((sample sampleCtx).setFs bareElf).ctx.OwnsTable :=
    ⟨sampleCtx_ownsTable.inUse, sampleCtx_ownsTable.owned, sampleCtx_ownsTable.trampolinePage,
      sampleCtx_ownsTable.trapframePage, sampleCtx_ownsTable.backed, sampleCtx_ownsTable.top⟩
  exact (exec_argument_stack.1 _ (fun _ => some 0) [] [[104, 105]] howns
    ⟨fun _ _ => ⟨Nat.succ_ne_zero 1, rfl⟩, fun arg harg => by
      obtain rfl := mem_singleton.mp harg
      decide⟩ (by decide) 1 y hcall).2

end Caller

end Arguments

end EafitOs.Memory
