import EafitOs.Memory.ExecStack

/-!
# What `kexec` leaves

From every failure `kexec` returns with the caller as it was. Otherwise it commits to an
image with the arguments on its stack, and gives the old table back; that is the only point
at which it can panic, and it does if the old table maps a page above the old size.
-/

namespace EafitOs.Memory

open Foundation Function

section Inode

variable {x : Caller} {ip : Nat} {m : Mem}

namespace Caller

def opened (x : Caller) (ip : Nat) : Caller where
  ctx := { x.ctx with fs := x.ctx.fs.idup ip }
  name := x.name
  locked := update x.locked ip true
  outstanding := x.outstanding + 1

/-- The caller over the memory `m`, after the inode was released and the operation ended. -/
def closed (x : Caller) (ip : Nat) (m : Mem) : Caller where
  ctx := { x.ctx with mem := m, fs := (x.ctx.fs.idup ip).iput ip }
  name := x.name
  locked := update x.locked ip false
  outstanding := x.outstanding

theorem ilock_opened (h : (x.ctx.fs.inode ip).type ≠ 0) :
    (x.beginOp.setFs (x.beginOp.ctx.fs.idup ip)).ilock ip = .ok (x.opened ip) := by
  have hlock : (x.ctx.fs.idup ip).ilock (some ip) = .ok ip := by
    simp only [Fs.ilock, Fs.idup, Fs.setInode, update_self]
    rw [if_neg (by omega), if_neg h]
  rw [ilock]
  simp only [setFs, beginOp, hlock, ok_bind]
  rfl

theorem iunlockput_opened (x : Caller) (ip : Nat) (m : Mem) :
    ∃ y, ((x.opened ip).setMem m).iunlockput ip = .ok y ∧ y.endOp = x.closed ip m := by
  have hlocked : ((x.opened ip).setMem m).locked ip = true := update_self ..
  have href : (((x.opened ip).setMem m).ctx.fs.inode ip).ref = (x.ctx.fs.inode ip).ref + 1 := by
    simp only [setMem, opened, Fs.idup, Fs.setInode, update_self]
  have hnot : ¬(((x.opened ip).setMem m).locked ip = false ∨
      (((x.opened ip).setMem m).ctx.fs.inode ip).ref < 1) := by
    rw [hlocked, href]
    rintro (h | h)
    · cases h
    · omega
  refine ⟨_, if_neg hnot, ?_⟩
  have hupdate : update (update x.locked ip true) ip false =
      update x.locked ip false := update_idem ..
  simp only [endOp, closed, setFs, setMem, opened, hupdate, Nat.add_sub_cancel]

theorem badInode_opened (x : Caller) (ip : Nat) (m : Mem) :
    ((x.opened ip).setMem m).badInode (some ip) = .ok (x.closed ip m) := by
  obtain ⟨y, hy, hend⟩ := iunlockput_opened x ip m
  rw [badInode, hy, ok_bind, hend]

/-- The call has left nothing behind: the process, its name and what it has open are as they
were, memory has the free pages it had, no inode is locked or referenced and no log operation
is under way that was not before. -/
structure Untouched (x x' : Caller) : Prop where
  memory : Regained x.ctx.mem.free x.ctx.mem x'.ctx.mem
  proc : x'.ctx.proc = x.ctx.proc
  name : x'.name = x.name
  files : x'.ctx.fs.ftable = x.ctx.fs.ftable
  refs : ∀ i, (x'.ctx.fs.inode i).ref = (x.ctx.fs.inode i).ref
  locked : x'.locked = x.locked
  outstanding : x'.outstanding = x.outstanding

theorem iput_idup_ref (fs : Fs) (ip i : Nat) :
    (((fs.idup ip).iput ip).inode i).ref = (fs.inode i).ref := by
  have hself : (fs.idup ip).inode ip = { fs.inode ip with ref := (fs.inode ip).ref + 1 } :=
    update_self ..
  have hother : i ≠ ip → (fs.idup ip).inode i = fs.inode i := fun hne => update_of_ne hne ..
  rw [Fs.iput, hself]
  split
  · rename_i hlast
    by_cases hi : i = ip
    · subst hi
      have hzero : (fs.inode i).ref + 1 = 1 := hlast.1
      simp only [Fs.setInode, update_self]
      omega
    · simp only [Fs.setInode, update_of_ne hi, hother hi]
  · by_cases hi : i = ip
    · subst hi
      simp only [Fs.setInode, update_self, Nat.add_sub_cancel]
    · simp only [Fs.setInode, update_of_ne hi, hother hi]

theorem iput_idup_ftable (fs : Fs) (ip : Nat) : ((fs.idup ip).iput ip).ftable = fs.ftable := by
  rw [Fs.iput]
  split <;> rfl

theorem closed_untouched (hlocked : x.locked ip = false)
    (hm : Regained x.ctx.mem.free x.ctx.mem m) : Untouched x (x.closed ip m) where
  memory := hm
  proc := rfl
  name := rfl
  files := iput_idup_ftable _ _
  refs := iput_idup_ref _ _
  locked := by
    rw [closed, ← hlocked]
    exact update_eq_self ..
  outstanding := rfl

end Caller

end Inode

section Ways

variable {x : Caller} {namei : List UInt8 → Option Nat} {path : List UInt8}
  {argv : List (List UInt8)}

/-- What `kexec` may rely on: `namei` finds an inode with a type that the process has not
locked, and no string is as long as the address space. -/
structure Caller.Asks (x : Caller) (namei : List UInt8 → Option Nat) (path : List UInt8)
    (argv : List (List UInt8)) : Prop where
  inode : ∀ ip, namei path = some ip → (x.ctx.fs.inode ip).type ≠ 0 ∧ x.locked ip = false
  strings : ∀ arg ∈ argv, arg.length < 2 ^ 63

namespace Caller

theorem badTable_regains {v : Vm} {sz : Nat} {y : Caller} (h : x.ctx.mem.InUse x.ctx.proc.tf)
    (hi : Image x.ctx.mem x.ctx.proc.tf sz v) : ∃ m, y.badTable (some (v, sz)) = .ok (y.setMem m) ∧
      Regained x.ctx.mem.free x.ctx.mem m := by
  obtain ⟨m, hm, hback⟩ := (hi.free_regains h).exists_ok
  exact ⟨m, by rw [badTable, hm, ok_bind], hback⟩

theorem finish_cases (h : x.ctx.mem.InUse x.ctx.proc.tf) (ha : x.Asks namei path argv)
    {ip entry sz : Nat} {v : Vm} (hi : Loaded x.ctx.mem x.ctx.proc.tf sz v) :
    (∃ m, (x.closed ip x.ctx.mem).finish path argv entry sz v = .ok (none, x.closed ip m) ∧
      Regained x.ctx.mem.free x.ctx.mem m) ∨
    (∃ n sp v', ReadyImage x.ctx.mem x.ctx.proc.tf argv n sp v' ∧
      (x.closed ip x.ctx.mem).finish path argv entry sz v =
        ((x.closed ip x.ctx.mem).commit path entry ((n + 2) * pgsize) sp v' >>= fun y =>
          .ok (some argv.length, y))) ∨
    maxarg ≤ argv.length ∧
      ∃ e, (x.closed ip x.ctx.mem).finish path argv entry sz v = .error e := by
  have hgrow := hi.growStack (x.closed ip x.ctx.mem).ctx.proc.sz h ha.strings
  rw [finish]
  cases hcall : growStack (x.closed ip x.ctx.mem).ctx.proc.sz argv sz v with
  | error e => exact Or.inr (Or.inr ⟨hgrow.of_eq_error hcall, e, rfl⟩)
  | ok r =>
    obtain ⟨sp, sz1, v₁⟩ := r
    obtain ⟨hi₁, hready⟩ := hgrow.of_eq_ok hcall
    rw [ok_bind]
    cases sp with
    | none =>
      obtain ⟨m, hm, hback⟩ := badTable_regains (y := x.closed ip x.ctx.mem) h hi₁
      refine Or.inl ⟨m, ?_, hback⟩
      simp only [bad]
      rw [hm]
      rfl
    | some sp =>
      obtain ⟨hsz, hready⟩ := hready sp rfl
      obtain rfl : sz1 = (npg sz + 2) * pgsize := hsz
      exact Or.inr (Or.inl ⟨npg sz, sp, v₁, hready, rfl⟩)

theorem kexec_cases (h : x.ctx.mem.InUse x.ctx.proc.tf) (ha : x.Asks namei path argv) :
    (∃ x', x.kexec namei path argv = .ok (none, x') ∧ Untouched x x') ∨
    (∃ ip entry n sp v, ReadyImage x.ctx.mem x.ctx.proc.tf argv n sp v ∧
      x.kexec namei path argv =
        ((x.closed ip x.ctx.mem).commit path entry ((n + 2) * pgsize) sp v >>= fun y =>
          .ok (some argv.length, y))) ∨
    maxarg ≤ argv.length ∧ ∃ e, x.kexec namei path argv = .error e := by
  cases hname : namei path with
  | none =>
    refine Or.inl ⟨x, ?_, ⟨rfl, fun _ _ => rfl, rfl, rfl⟩, rfl, rfl, rfl, fun _ => rfl, rfl, rfl⟩
    rw [kexec, hname]
    rfl
  | some ip =>
    obtain ⟨htype, hlocked⟩ := ha.inode ip hname
    have hfail : ∀ {m : Mem}, Regained x.ctx.mem.free x.ctx.mem m →
        ∃ x', ((x.opened ip).setMem m).bad none (some ip) = .ok (none, x') ∧ Untouched x x' :=
      fun hm => ⟨_, by rw [bad, badTable, ok_bind, badInode_opened, ok_bind],
        closed_untouched hlocked hm⟩
    have hstart : Regained x.ctx.mem.free x.ctx.mem x.ctx.mem := ⟨rfl, fun _ _ => rfl, rfl, rfl⟩
    rw [kexec, hname]
    simp only [ilock_opened htype, ok_bind]
    split
    · exact Or.inl (hfail hstart)
    · split
      · exact Or.inl (hfail hstart)
      · obtain ⟨⟨o, m⟩, hcall, hr⟩ := (procPagetable_builds h).exists_ok
        have hcall' : procPagetable (x.opened ip).ctx.mem (x.opened ip).ctx.proc.tf = .ok (o, m) :=
          hcall
        rw [hcall', ok_bind]
        rcases hr with ⟨v, ho, hbuilds⟩ | ⟨ho, hback⟩
        · obtain rfl : o = some v := ho
          obtain ⟨⟨ok, sz, v₁⟩, hloop, hi₁⟩ := (loadLoop_loaded (x.opened ip).ctx.fs ip h
            (leField ((x.opened ip).ctx.fs.readi ip 0 elfhdrSize) 56 2)
            (leField ((x.opened ip).ctx.fs.readi ip 0 elfhdrSize) 32 8 % 2 ^ 32)
            (hbuilds.loaded h)).exists_ok
          simp only [load, hloop, ok_bind]
          cases ok with
          | false =>
            obtain ⟨m', hm', hback⟩ := badTable_regains (y := x.opened ip) h hi₁.toImage
            refine Or.inl ⟨_, ?_, closed_untouched hlocked hback⟩
            simp only [Bool.not_false, if_true, bad]
            rw [hm', ok_bind, badInode_opened, ok_bind]
          | true =>
            obtain ⟨y, hy, hend⟩ := iunlockput_opened x ip x.ctx.mem
            have hy' : (x.opened ip).iunlockput ip = .ok y := hy
            simp only [Bool.not_true, Bool.false_eq_true, if_false, hy', ok_bind, hend]
            rcases finish_cases h ha hi₁ with ⟨m', hm', hback⟩ | ⟨n, sp, v₂, hready, hm'⟩ | hmany
            · exact Or.inl ⟨_, hm', closed_untouched hlocked hback⟩
            · exact Or.inr (Or.inl ⟨ip, _, n, sp, v₂, hready, hm'⟩)
            · exact Or.inr (Or.inr hmany)
        · obtain rfl : o = none := ho
          exact Or.inl (hfail hback)

/-- A failing `kexec` leaves the caller untouched, at whichever point it fails: its table with
what it maps, its size, registers, name, open files, directory and regions are as they were;
the free pages are those that were free; no inode is locked or referenced that was not, and
the log operation has ended. -/
theorem failed_exec_untouched (h : x.ctx.mem.InUse x.ctx.proc.tf)
    (hmapped : ∀ i e, x.ctx.proc.pt.leaf.lookup i = some e → e.frame ∉ x.ctx.mem.free)
    (ha : x.Asks namei path argv) {x' : Caller} (hfail : x.kexec namei path argv = .ok (none, x')) :
    x'.ctx.proc = x.ctx.proc ∧ x'.ctx.vm.space = x.ctx.vm.space ∧
    x'.ctx.mem.page x.ctx.proc.tf = x.ctx.mem.page x.ctx.proc.tf ∧
    x'.ctx.mem.free.Perm x.ctx.mem.free ∧ x'.name = x.name ∧
    x'.ctx.fs.ftable = x.ctx.fs.ftable ∧
    (∀ i, (x'.ctx.fs.inode i).ref = (x.ctx.fs.inode i).ref) ∧
    x'.locked = x.locked ∧ x'.outstanding = x.outstanding := by
  have hun : Untouched x x' := by
    rcases kexec_cases h ha with ⟨y, hy, hun⟩ | ⟨ip, entry, n, sp, v, -, hy⟩ | ⟨-, e, hy⟩
    · obtain ⟨-, rfl⟩ := Prod.mk.inj (Except.ok.inj (hy.symm.trans hfail))
      exact hun
    · -- a commit does not return -1
      rw [hy] at hfail
      cases hcommit : (x.closed ip x.ctx.mem).commit path entry ((n + 2) * pgsize) sp v with
      | error e =>
        rw [hcommit] at hfail
        cases hfail
      | ok y =>
        rw [hcommit, ok_bind] at hfail
        cases (Prod.mk.inj (Except.ok.inj hfail)).1
    · rw [hy] at hfail
      cases hfail
  refine ⟨hun.proc, ?_, hun.memory.page _ h.taken, Multiset.coe_eq_coe.mp hun.memory.free, hun.name,
    hun.files, hun.refs, hun.locked, hun.outstanding⟩
  funext i
  rw [Vm.space, Vm.space, Ctx.vm, hun.proc]
  exact Option.map_congr fun e he => by rw [hun.memory.page _ (hmapped i e he)]; rfl

def sample (c : Ctx) : Caller where
  ctx := c
  name := []
  locked := fun _ => false
  outstanding := 0

theorem sampleCtx_inUse : sampleCtx.mem.InUse sampleCtx.proc.tf :=
  ⟨sampleKernel_sound, by decide +kernel, ⟨by decide, by decide⟩, by decide +kernel⟩

/-- A program with one segment of a page and a second header that is malformed. -/
def segmentFs : Fs :=
  { sampleCtx.fs with inode := fun _ => ⟨2, 1, 1, 200, fun j => (([(0, 0x7F), (1, 0x45), (2, 0x4C),
    (3, 0x46), (32, 64), (56, 2), (64, 1), (68, 7), (96, 16), (105, 16), (120, 1),
    (152, 1)] : List (Nat × UInt8)).lookup j).getD 0⟩ }

/-- The second header fails after the first segment was loaded. -/
theorem failed_exec_untouched_segment : ∃ x',
    ((sample sampleCtx).setFs segmentFs).kexec (fun _ => some 1) [] [] = .ok (none, x') ∧
    x'.ctx.proc = sampleCtx.proc ∧ x'.ctx.vm.space = sampleCtx.vm.space ∧
    x'.ctx.mem.free.Perm sampleCtx.mem.free ∧ x'.outstanding = 0 := by
  obtain ⟨x', hcall⟩ : ∃ x', ((sample sampleCtx).setFs segmentFs).kexec (fun _ => some 1) [] [] =
      .ok (none, x') := by decide +kernel
  obtain ⟨hproc, hspace, -, hfree, -, -, -, -, hops⟩ :=
    failed_exec_untouched (x := (sample sampleCtx).setFs segmentFs) sampleCtx_inUse
      (fun i e he => sampleCtx_owned.not_free he)
      ⟨fun ip hip => ⟨by obtain rfl := Option.some.inj hip; decide, rfl⟩,
        fun arg harg => absurd harg List.not_mem_nil⟩ hcall
  exact ⟨x', hcall, hproc, hspace, hfree, hops⟩

end Caller

end Ways

end EafitOs.Memory
