import EafitOs.Files.Accounting
import Mathlib.Algebra.BigOperators.Fin

/-!
# Lifetimes of open files and inodes

The remaining calls keep the books: opening, moving, mapping, forking and exiting. So
they are exact after every run, whatever the disk and the allocator answer.
-/

namespace EafitOs.Files

open Foundation Function List Option
open Directory (Path nfile nofile nproc oCreate)
open Memory (maxvma firstIdx)

section Calls

variable {s s' : State} {j : Fin nproc} {f : Fin nfile}

theorem Books.openBad {ip : Entry} (hb : Books 0 (ref ip + lock ip + op) s) :
    Ends (s.exec (openBad ip)) (fun r => Books 0 0 r.2 ∧ r.2.proc = s.proc) Safe := by
  rw [← zero_add (ref ip + lock ip + op)] at hb
  refine (hb.exec (openBad_uses ip)).imp fun r hr => ?_
  obtain ⟨hb', t, heq⟩ := hr
  exact ⟨hb', by rw [heq]⟩

theorem Quiet.openFile {ip : Entry} (hq : Quiet s) (hlive : (s.proc j).state = .live)
    (hb : Books 0 (ref ip + lock ip + op) s') (hself : SelfOnly j s s') (omode : Nat) :
    Ends (openFile s' j ip omode) (fun r => Quiet r.2) Safe := by
  have hbad : ∀ {s'' : State}, Books 0 (ref ip + lock ip + op) s'' → SelfOnly j s s'' →
      Ends (s''.exec (Files.openBad ip)) (fun r => Quiet r.2) Safe :=
    fun hb hself => hb.openBad.imp fun r hr =>
      hq.change hlive hr.1 (hself.trans (.of_eq hr.2))
  rw [Files.openFile]
  cases halloc : filealloc s' with
  | none => exact hbad hb hself
  | some res =>
    obtain ⟨f, s₁⟩ := res
    obtain ⟨hb₁, hs₁, htype, href⟩ := hb.filealloc halloc
    have hself₁ : SelfOnly j s s₁ := by
      rw [hs₁]
      exact hself.trans (.of_eq rfl)
    simp only
    cases hfd : fdalloc s₁ j f with
    | none =>
      refine (hb₁.fileclose (by omega)).bind fun s₂ hs₂ => ?_
      obtain ⟨hb₂, hproc₂⟩ := hs₂
      rw [add_sub_cancel_right] at hb₂
      exact hbad hb₂ (hself₁.trans (.of_eq hproc₂))
    | some res =>
      obtain ⟨fd, s₂⟩ := res
      obtain ⟨hnone, rfl⟩ := fdalloc_some hfd
      have hb₂ := hb₁.install (f := f) hnone
      rw [add_sub_cancel_right, add_assoc, add_comm] at hb₂
      -- the entry takes the reference, the lock and the operation go
      have hb₃ : ∀ {x : File}, x.ref = (s₁.ftable f).ref →
          (x.type = .inode ∨ x.type = .device) → x.ip = some ip →
          Books 0 (0 + (lock ip + op)) ((s₁.setOfile j fd (some f)).setFile f x) := by
        intro x hx hx' hip
        rw [zero_add]
        refine hb₂.setInodeFile htype hx ?_ hx' hip
        rw [hx, href]
        decide
      refine ((hb₃ ?_ ?_ ?_).exec (openDone_uses ip)).bind fun r hr => ?_
      · rfl
      · simp only
        split
        · exact .inr rfl
        · exact .inl rfl
      · rfl
      · obtain ⟨hb₄, t, heq⟩ := hr
        refine .ok (hq.change hlive hb₄ ?_)
        rw [heq]
        exact hself₁.trans (SelfOnly.setOfile.trans (.of_eq rfl))

theorem Quiet.sysOpen (hq : Quiet s) (hlive : (s.proc j).state = .live) (path : Option Path)
    (omode : Nat) : Ends (sysOpen s j path omode) (fun r => Quiet r.2) Safe := by
  cases path with
  | none => exact .ok hq
  | some path =>
    refine (hq.books.onCwd (d := fun _ => openedTo)
      fun base cwd => openInode_uses path omode cwd).bind fun r hr => ?_
    obtain ⟨opened, s₁⟩ := r
    obtain ⟨_, t, -, rfl, hb⟩ := hr
    rw [zero_add] at hb
    cases opened with
    | none => exact .ok (hq.keep hb rfl)
    | some ip =>
      simp only
      split
      · exact hb.openBad.imp fun r hr => hq.keep hr.1 hr.2
      · exact hq.openFile hlive hb (.of_eq rfl) omode

theorem Quiet.sysRead (hq : Quiet s) (fd : Int) :
    Ends (sysRead s j fd) (fun r => Quiet r.2) Safe := by
  rw [Files.sysRead]
  cases hfd : argfd s j fd with
  | none => exact .ok hq
  | some res => exact hq.exec (fileread_uses _)

theorem Quiet.sysWrite (hq : Quiet s) (fd n : Int) :
    Ends (sysWrite s j fd n) (fun r => Quiet r.2) Safe := by
  rw [Files.sysWrite]
  cases hfd : argfd s j fd with
  | none => exact .ok hq
  | some res => exact hq.exec (filewrite_uses _ n)

theorem Quiet.sysChdir (hq : Quiet s) (hlive : (s.proc j).state = .live) (path : Option Path) :
    Ends (sysChdir s j path) (fun r => Quiet r.2) Safe := by
  obtain ⟨cwd, hcwd⟩ := ne_none_iff_exists'.mp ((hq.procs j).cwd hlive)
  rw [Files.sysChdir, State.onCwd, hcwd]
  have hx : ∀ base, Uses (Own base) Safe (ref cwd) (chdirInode path cwd)
      fun r => refTo (some (r.getD cwd)) + 0 := by
    intro base
    simpa only [add_zero, refTo] using chdirInode_uses path cwd
  refine (hq.books.execCwd (d := fun _ => 0) _ hcwd hx).bind fun r hr => ?_
  obtain ⟨found, s₁⟩ := r
  obtain ⟨⟨t, rfl⟩, hb⟩ := hr
  cases found with
  | none =>
    have hsame : State.setProc { s with table := t } j { s.proc j with cwd := some cwd } =
        { s with table := t } := by
      rw [← hcwd]
      simp only [State.setProc, update_eq_self]
    simp only [getD_none, add_zero] at hb
    rw [hsame] at hb
    exact .ok (hq.keep hb rfl)
  | some ip =>
    exact .ok (hq.update hb rfl ⟨fun _ => some_ne_none ip, fun hdead => absurd hlive hdead⟩)

theorem Books.resize {bal : Fin nfile → Int} {h : Multiset Token} (hb : Books bal h s)
    (sz : Nat) : Books bal h (resize s j sz) :=
  hb.setProc rfl fun _ => rfl

theorem SelfOnly.resize (sz : Nat) : SelfOnly j s (resize s j sz) :=
  .setProc rfl rfl

theorem Quiet.resize (hq : Quiet s) (hlive : (s.proc j).state = .live) (sz : Nat) :
    Quiet (resize s j sz) :=
  hq.change hlive (hq.books.resize sz) (.resize sz)

theorem Quiet.sysMmap (hq : Quiet s) (hlive : (s.proc j).state = .live) (length : Nat)
    (prot flags : UInt32) (fd : Int) :
    Ends (sysMmap s j length prot flags fd) (fun r => Quiet r.2) Safe := by
  rw [Files.sysMmap]
  split
  · exact .ok hq
  · cases hfd : argfd s j fd with
    | none => exact .ok hq
    | some res =>
      obtain ⟨fd₀, f⟩ := res
      have hpos := hq.ref_pos (uses_pos_of_ofile (argfd_some hfd))
      simp only
      split
      · exact .ok hq
      · cases hslot : firstIdx fun i => !((s.proc j).vmas i).used with
        | none => exact .ok hq
        | some i =>
          have hfree : ((s.proc j).vmas i).used = false := by
            simpa using firstIdx_some hslot
          simp only
          split
          · exact .ok hq
          · obtain ⟨sz, hsz⟩ : ∃ sz, sz = (Memory.pgroundup (s.proc j).sz +
                Memory.pgroundup length) % 2 ^ 64 := ⟨_, rfl⟩
            rw [← hsz]
            have hat : (((Files.resize s j sz).proc j).vmas i).used = false := by
              simpa only [Files.resize, State.setProc, update_self] using hfree
            have hb := (hq.books.resize (j := j) sz).map (v :=
              ⟨true, Memory.pgroundup (s.proc j).sz, Memory.pgroundup length, prot, flags, f⟩)
              hat rfl
            refine (hb.filedup hpos).bind fun s₁ hs₁ => .ok ?_
            obtain ⟨hb₁, hproc⟩ := hs₁
            rw [sub_add_cancel] at hb₁
            exact hq.change hlive hb₁ ((SelfOnly.resize sz).trans
              (SelfOnly.setVma.trans (.of_eq hproc)))

theorem Books.releaseVma {i : Fin maxvma} (hb : Books 0 0 s)
    (hused : ((s.proc j).vmas i).used = true) (vas : List Nat) :
    Ends (releaseVma j i vas s) (fun s' => Books 0 0 s' ∧
      s'.proc = (s.setVma j i { (s.proc j).vmas i with used := false }).proc) Safe := by
  have hb₀ : Books 0 (0 + 0) s := hb
  refine (hb₀.exec (releasePages_uses _ _ vas)).bind fun r hr => ?_
  obtain ⟨_, s₁⟩ := r
  obtain ⟨hb₁, t, rfl⟩ := hr
  have hpos := hb₁.one_le (f := ((s.proc j).vmas i).file) (by
    have huses := uses_pos_of_vma hused
    change 1 ≤ (s.uses _ : Int) + 0
    omega)
  refine (hb₁.fileclose hpos).bind fun s₂ hs₂ => .ok ?_
  obtain ⟨hb₂, hproc₂⟩ := hs₂
  have hvma : ((s₂.proc j).vmas i) = (s.proc j).vmas i := by
    rw [hproc₂]
  have hb₃ := hb₂.unmap (j := j) (i := i) (v := { (s.proc j).vmas i with used := false })
    (by rw [hvma, hused]) rfl
  rw [hvma, sub_add_cancel] at hb₃
  refine ⟨hb₃, ?_⟩
  rw [State.setVma, State.setVma, State.setProc, State.setProc, hproc₂]

theorem Quiet.sysMunmap (hq : Quiet s) (hlive : (s.proc j).state = .live) (addr length : Nat) :
    Ends (sysMunmap s j addr length) (fun r => Quiet r.2) Safe := by
  rw [Files.sysMunmap]
  cases hfind : firstIdx fun i => ((s.proc j).vmas i).covers addr with
  | none => exact .ok hq
  | some i =>
    have hused : ((s.proc j).vmas i).used = true := by
      have hcovers := firstIdx_some hfind
      simp only [Vma.covers, Bool.and_eq_true] at hcovers
      exact hcovers.1.1
    exact (hq.books.releaseVma hused _).bind fun s₁ ⟨hb, hproc⟩ =>
      .ok (hq.change hlive hb (SelfOnly.setVma.trans (.of_eq hproc)))

theorem Quiet.sysExec (hq : Quiet s) (hlive : (s.proc j).state = .live) (path : Option Path)
    (sz : Nat) : Ends (sysExec s j path sz) (fun r => Quiet r.2) Safe := by
  refine (hq.books.onCwd (d := fun _ _ => 0) fun base cwd => ?_).bind fun r hr => ?_
  · simpa only [add_zero] using kexec_uses cwd path
  · obtain ⟨ret, s₁⟩ := r
    obtain ⟨_, t, -, rfl, hb⟩ := hr
    have hq₁ : Quiet { s with table := t } := hq.keep hb rfl
    simp only
    split
    · exact .ok hq₁
    · exact .ok (hq₁.resize hlive sz)

theorem count_ofile (p : Proc) (f : Fin nfile) (fds : List (Fin nofile)) :
    (fds.filterMap p.ofile).count f = (fds.map fun fd => isFile f (p.ofile fd)).sum := by
  induction fds with
  | nil => rfl
  | cons fd rest ih =>
    rw [filterMap_cons, map_cons, sum_cons, ← ih]
    cases hfd : p.ofile fd with
    | none => simp [isFile]
    | some g => simp [isFile, count_cons, add_comm]

theorem count_vmas (p : Proc) (f : Fin nfile) (is : List (Fin maxvma)) :
    ((is.filter fun i => (p.vmas i).used).map fun i => (p.vmas i).file).count f =
      (is.map fun i => (p.vmas i).maps f).sum := by
  induction is with
  | nil => rfl
  | cons i rest ih =>
    rw [filter_cons, map_cons, sum_cons, ← ih]
    cases hused : (p.vmas i).used with
    | false => simp [Vma.maps, hused]
    | true => simp [Vma.maps, hused, count_cons, add_comm]

theorem Proc.count_files (p : Proc) (f : Fin nfile) : p.files.count f = p.uses f := by
  rw [Proc.files, count_append, count_vmas, count_ofile, Proc.uses, tally, tally,
    Fin.sum_univ_def, Fin.sum_univ_def, add_comm]

theorem Books.filedups {bal : Fin nfile → Int} {h : Multiset Token} (hb : Books bal h s)
    (fs : List (Fin nfile)) (huses : ∀ f ∈ fs, 0 < s.uses f) (hbal : ∀ f, 0 ≤ bal f) :
    Ends (fs.foldlM Files.filedup s) (fun s' => Books (fun f => bal f + fs.count f) h s' ∧
      s'.proc = s.proc) Safe := by
  induction fs generalizing s bal with
  | nil => exact .ok ⟨by simpa using hb, rfl⟩
  | cons g rest ih =>
    rw [foldlM_cons]
    have hpos : 1 ≤ (s.ftable g).ref := by
      refine hb.one_le ?_
      have hg := huses g (by simp)
      have hg' := hbal g
      omega
    refine (hb.filedup hpos).bind fun s₁ hs₁ => ?_
    obtain ⟨hb₁, hproc₁⟩ := hs₁
    have huses₁ : ∀ f, s₁.uses f = s.uses f := by
      intro f
      rw [State.uses, State.uses, hproc₁]
    refine (ih hb₁ (fun f hf => ?_) fun f => ?_).imp fun s₂ ⟨hb₂, hproc₂⟩ =>
      ⟨?_, hproc₂.trans hproc₁⟩
    · rw [huses₁]
      exact huses f (by simp [hf])
    · have hg := single_nonneg g f
      exact Int.add_nonneg (hbal f) hg
    · have hcount : (fun f => (bal + Pi.single g 1 : Fin nfile → Int) f + rest.count f) =
          fun f => bal f + (g :: rest).count f := by
        funext f
        rw [Pi.add_apply, count_cons]
        by_cases hf : f = g
        · subst hf
          simp
          omega
        · simp [hf, Ne.symm hf]
      rw [hcount] at hb₂
      exact hb₂

theorem Proc.Tidy.uses_eq_zero {p : Proc} (hp : p.Tidy) (hdead : p.state ≠ .live)
    (f : Fin nfile) : p.uses f = 0 := by
  obtain ⟨-, hfd, hvma⟩ := hp.idle hdead
  refine Nat.add_eq_zero_iff.mpr ⟨tally_eq_zero.mpr fun fd _ => ?_, tally_eq_zero.mpr fun i _ => ?_⟩
  · rw [hfd fd]
    rfl
  · exact Vma.maps_unused (hvma i) f

theorem Quiet.kfork (hq : Quiet s) :
    Ends (kfork s j) (fun r => Quiet r.2) Safe := by
  rw [Files.kfork]
  cases hslot : firstIdx fun k => decide ((s.proc k).state = .unused) with
  | none => exact .ok hq
  | some k =>
    have hunused : (s.proc k).state = .unused := of_decide_eq_true (firstIdx_some hslot)
    have hdead : (s.proc k).state ≠ .live := by
      rw [hunused]
      decide
    obtain ⟨hnocwd, hnofile, -⟩ := (hq.procs k).idle hdead
    have hb₀ : Books 0 (0 + 0) s := hq.books
    refine (hb₀.exec ask_uses).bind fun r hr => ?_
    obtain ⟨memory, s₁⟩ := r
    obtain ⟨hb₁, t, rfl⟩ := hr
    simp only
    split
    · exact .ok (hq.keep hb₁ rfl)
    · have huses : ∀ f ∈ (s.proc j).files, 0 < s.uses f := by
        intro f hf
        refine uses_pos (j := j) ?_
        rw [← Proc.count_files]
        exact count_pos_iff.mpr hf
      refine (hb₁.filedups (s.proc j).files huses fun _ => le_rfl).bind fun s₂ hs₂ => ?_
      obtain ⟨hb₂, hproc₂⟩ := hs₂
      refine (hb₂.onCwd (d := fun cwd _ => ref cwd) fun base cwd => idup_uses).bind fun r hr => ?_
      obtain ⟨_, s₃⟩ := r
      obtain ⟨cwd, t', hcwd, rfl, hb₃⟩ := hr
      have hproc : s₂.proc = s.proc := hproc₂
      -- the slot held nothing, so the child is a copy of the parent
      have hchild : ∀ p : Proc, { p with
          ofile := fun fd => (p.ofile fd).or ((s₂.proc k).ofile fd) } = p := by
        intro p
        rw [hproc]
        simp only [hnofile, or_none]
      refine .ok ?_
      simp only
      rw [hchild]
      refine hq.update (p := s.proc j) (j := k) (hb₃.replaceProc ?_ fun f => ?_) ?_ (hq.procs j)
      · change refTo (s.proc j).cwd + 0 = refTo (s₂.proc k).cwd + _
        rw [hproc] at hcwd ⊢
        rw [hcwd, hnocwd, refTo, refTo]
        abel
      · change ((s.proc j).uses f : Int) + 0 = (s₂.proc k).uses f + _
        rw [hproc, (hq.procs k).uses_eq_zero hdead, Proc.count_files]
        rw [Nat.cast_zero, Pi.zero_apply, zero_add, zero_add, add_zero]
      · change Function.update s₂.proc k _ = _
        rw [hproc]

theorem Books.exitVma (hb : Books 0 0 s) (i : Fin maxvma) :
    Ends (exitVma j s i) (fun s' => Books 0 0 s' ∧
      s'.proc = (s.setVma j i { (s.proc j).vmas i with used := false }).proc) Safe := by
  rw [Files.exitVma]
  simp only
  split
  · rename_i hunused
    have hsame : ({ (s.proc j).vmas i with used := false } : Vma) = (s.proc j).vmas i := by
      rw [← Bool.eq_false_of_not_eq_true hunused]
    refine .ok ⟨hb, ?_⟩
    rw [hsame]
    simp only [State.setVma, State.setProc, update_eq_self]
  · rename_i hused
    exact hb.releaseVma (not_not.mp hused) _

theorem Books.exitFile (hb : Books 0 0 s) (fd : Fin nofile) :
    Ends (exitFile j s fd) (fun s' => Books 0 0 s' ∧ s'.proc = (s.setOfile j fd none).proc)
      Safe := by
  rw [Files.exitFile]
  cases hfd : (s.proc j).ofile fd with
  | none =>
    refine .ok ⟨hb, ?_⟩
    rw [← hfd]
    simp only [State.setOfile, State.setProc, update_eq_self]
  | some f =>
    have hpos := hb.one_le (f := f) (by
      have huses := uses_pos_of_ofile hfd
      rw [Pi.zero_apply]
      omega)
    refine (hb.fileclose hpos).bind fun s₁ hs₁ => .ok ?_
    obtain ⟨hb₁, hproc₁⟩ := hs₁
    have hfd₁ : (s₁.proc j).ofile fd = some f := by
      rw [hproc₁, hfd]
    have hb₂ := hb₁.remove hfd₁
    rw [sub_add_cancel] at hb₂
    refine ⟨hb₂, ?_⟩
    rw [State.setOfile, State.setOfile, State.setProc, State.setProc, hproc₁]

theorem Books.exitVmas (hb : Books 0 0 s) :
    Ends ((List.finRange maxvma).foldlM (Files.exitVma j) s) (fun s' => Books 0 0 s' ∧
      SelfOnly j s s' ∧ ∀ i, ((s'.proc j).vmas i).used = false) Safe := by
  refine (Ends.foldlM_visited (fun done s' => Books 0 0 s' ∧ SelfOnly j s s' ∧
    ∀ i ∈ done, ((s'.proc j).vmas i).used = false) (nodup_finRange _)
    ⟨hb, .of_eq rfl, by simp⟩ fun done i _ _ s₁ ⟨hb₁, hself₁, hdone₁⟩ => ?_).imp
    fun s' ⟨hb', hself', hdone'⟩ => ⟨hb', hself', fun i => hdone' i (mem_finRange i)⟩
  refine (hb₁.exitVma i).imp fun s₂ ⟨hb₂, hproc₂⟩ =>
    ⟨hb₂, hself₁.trans (SelfOnly.setVma.trans (.of_eq hproc₂)), fun i' hi' => ?_⟩
  have hvmas : (s₂.proc j).vmas = update (s₁.proc j).vmas i
      { (s₁.proc j).vmas i with used := false } := by
    rw [hproc₂]
    simp [State.setVma, State.setProc]
  rw [hvmas]
  by_cases hi : i' = i
  · rw [hi, update_self]
  · rw [update_of_ne hi]
    exact hdone₁ i' (by simpa [hi] using hi')

theorem Books.exitFiles (hb : Books 0 0 s) :
    Ends ((List.finRange nofile).foldlM (Files.exitFile j) s) (fun s' => Books 0 0 s' ∧
      SelfOnly j s s' ∧ (s'.proc j).vmas = (s.proc j).vmas ∧
        ∀ fd, (s'.proc j).ofile fd = none) Safe := by
  refine (Ends.foldlM_visited (fun done s' => Books 0 0 s' ∧ SelfOnly j s s' ∧
    (s'.proc j).vmas = (s.proc j).vmas ∧ ∀ fd ∈ done, (s'.proc j).ofile fd = none)
    (nodup_finRange _) ⟨hb, .of_eq rfl, rfl, by simp⟩
    fun done fd _ _ s₁ ⟨hb₁, hself₁, hvmas₁, hdone₁⟩ => ?_).imp
    fun s' ⟨hb', hself', hvmas', hdone'⟩ =>
      ⟨hb', hself', hvmas', fun fd => hdone' fd (mem_finRange fd)⟩
  refine (hb₁.exitFile fd).imp fun s₂ ⟨hb₂, hproc₂⟩ =>
    ⟨hb₂, hself₁.trans (SelfOnly.setOfile.trans (.of_eq hproc₂)), ?_, fun fd' hfd' => ?_⟩
  · rw [hproc₂, ← hvmas₁]
    simp [State.setOfile, State.setProc]
  · rw [hproc₂, ofile_setOfile]
    by_cases hfd : fd' = fd
    · rw [hfd, update_self]
    · rw [update_of_ne hfd]
      exact hdone₁ fd' (by simpa [hfd] using hfd')

theorem Quiet.kexit (hq : Quiet s) (hlive : (s.proc j).state = .live) :
    Ends (kexit s j) (fun r => Quiet r.2) Safe := by
  rw [Files.kexit]
  split
  · exact .error ⟨by decide, by decide⟩
  · refine hq.books.exitVmas.bind fun s₁ hs₁ => ?_
    obtain ⟨hb₁, hself₁, hvmas₁⟩ := hs₁
    refine hb₁.exitFiles.bind fun s₂ hs₂ => ?_
    obtain ⟨hb₂, hself₂, hvmas₂, hfiles₂⟩ := hs₂
    have hself := hself₁.trans hself₂
    obtain ⟨cwd, hcwd⟩ := ne_none_iff_exists'.mp ((hq.procs j).cwd hlive)
    rw [← hself.cwd] at hcwd
    have hx : ∀ base, Uses (Own base) Safe (ref cwd) (putInode (s₂.proc j).cwd)
        fun _ => refTo none + 0 := by
      intro base
      rw [hcwd]
      exact putInode_uses (some cwd)
    refine (hb₂.execCwd (d := fun _ => 0) (fun _ => none) hcwd hx).bind fun r hr => ?_
    obtain ⟨_, s₃⟩ := r
    obtain ⟨⟨t, rfl⟩, hb₃⟩ := hr
    refine .ok (hq.update (p := { s₂.proc j with cwd := none, state := .zombie }) (j := j)
      ?_ ?_ ⟨fun hzombie => ?_, fun _ => ⟨rfl, hfiles₂, fun i => ?_⟩⟩)
    · have hb₄ : Books 0 0 _ := hb₃.setProc (j := j)
        (p := { s₂.proc j with cwd := none, state := .zombie }) ?_ fun f => ?_
      · simpa only [State.setProc, update_idem] using hb₄
      · simp only [State.setProc, update_self]
      · simp only [State.setProc, update_self]
        rfl
    · exact hself.update_eq _
    · cases hzombie
    · change ((s₂.proc j).vmas i).used = false
      rw [hvmas₂]
      exact hvmas₁ i

theorem Quiet.run (hq : Quiet s) (hlive : (s.proc j).state = .live) (c : Call) :
    Ends (c.run s j) (fun r => Quiet r.2) Safe := by
  cases c with
  | «open» path omode => exact hq.sysOpen hlive path omode
  | link old new => exact hq.onCwd fun base cwd => sysLink_uses cwd old new
  | unlink path => exact hq.onCwd fun base cwd => sysUnlink_uses cwd path
  | mkdir path => exact hq.onCwd fun base cwd => sysMake_uses cwd path .dir 0
  | mknod path major => exact hq.onCwd fun base cwd => sysMake_uses cwd path .device major
  | chdir path => exact hq.sysChdir hlive path
  | read fd => exact hq.sysRead fd
  | write fd n => exact hq.sysWrite fd n
  | dup fd => exact hq.sysDup hlive fd
  | close fd => exact hq.sysClose hlive fd
  | pipe => exact hq.sysPipe hlive
  | mmap length prot flags fd => exact hq.sysMmap hlive length prot flags fd
  | munmap addr length => exact hq.sysMunmap hlive addr length
  | sbrk sz => exact .ok (hq.resize hlive sz)
  | fork => exact hq.kfork
  | exec path sz => exact hq.sysExec hlive path sz
  | exit => exact hq.kexit hlive

theorem Quiet.reap (hq : Quiet s) (hzombie : (s.proc j).state = .zombie) :
    Quiet (s.setProc j { s.proc j with state := .unused, sz := 0 }) := by
  have hidle := (hq.procs j).idle (by rw [hzombie]; decide)
  exact hq.update (hq.books.setProc rfl fun _ => rfl) rfl ⟨nofun, fun _ => hidle⟩

structure Steady (s : State) : Prop where
  quiet : Quiet s
  panic : ∀ e, s.panic = some e → Safe e

theorem Quiet.settle {r : Except String (Int × State)} (hq : Quiet s)
    (hr : Ends r (fun r => Quiet r.2) Safe) : Steady (s.settle r) := by
  have hpanic : ∀ {s : State} (o : Option String), Quiet s → Quiet { s with panic := o } :=
    fun o hq => hq.keep ⟨hq.books.table, hq.books.refs, hq.books.closed, hq.books.pipes⟩ rfl
  cases r with
  | ok r => exact ⟨hpanic none (hr.of_eq_ok rfl), nofun⟩
  | error e => exact ⟨hpanic (some e) hq, fun e' he => some.inj he ▸ hr.of_eq_error rfl⟩

theorem Quiet.answers (hq : Quiet s) (answer : Nat → Answer) :
    Quiet { s with table := { s.table with answer := answer, asked := 0 } } := by
  have ht := hq.books.table
  exact hq.keep ⟨⟨ht.refs, ht.locks, ht.ops, ht.stray, ht.unique⟩, hq.books.refs, hq.books.closed,
    hq.books.pipes⟩ rfl

theorem Steady.step {a : Act} (hs : Steady s) (hstep : s.step a = some s') : Steady s' := by
  rw [State.step.eq_def] at hstep
  split at hstep
  · cases hstep
  · cases a with
    | call j c answer =>
      simp only at hstep
      split at hstep
      · rename_i hlive
        obtain rfl := some.inj hstep
        have hq := hs.quiet.answers answer
        exact hq.settle (hq.run hlive c)
      · cases hstep
    | reap j =>
      simp only at hstep
      split at hstep
      · rename_i hzombie
        obtain rfl := some.inj hstep
        exact ⟨hs.quiet.reap hzombie, hs.panic⟩
      · cases hstep

end Calls

theorem boot_owners (answer : Nat → Answer) (e : Entry) :
    (boot answer).owners e = if e.val = 0 then 1 else 0 := by
  have hfiles : tally Finset.univ (File.opens e) (boot answer).ftable = 0 :=
    tally_eq_zero.mpr fun _ _ => rfl
  have hothers : ∀ j ∈ Finset.univ, j ≠ ⟨0, by decide⟩ →
      Proc.sitsIn e ((boot answer).proc j) = 0 := by
    intro j _ hj
    have hcwd : ((boot answer).proc j).cwd = none := if_neg fun h => hj (Fin.ext h)
    rw [Proc.sitsIn, hcwd]
    rfl
  rw [State.owners, hfiles, zero_add, tally, Finset.sum_eq_single _ hothers (by simp), Proc.sitsIn]
  simp [boot, Fin.ext_iff, eq_comm]

theorem boot_quiet (answer : Nat → Answer) : Quiet (boot answer) := by
  have href : ∀ e, ((boot answer).table.inode e).ref = if e.val = 0 then 1 else 0 := fun e => rfl
  refine ⟨⟨⟨fun e => ?_, fun e => rfl, rfl, rfl, fun e e' he he' _ _ => ?_⟩, fun f => ?_,
    fun f _ => rfl, ⟨nofun, nofun, nofun, nofun, nofun⟩⟩, fun j =>
      ⟨fun hlive => ?_, fun hdead => ?_⟩⟩
  · rw [href, boot_owners]
    simp
  · rw [href] at he he'
    have h0 : e.val = 0 := by
      by_contra hne
      simp [hne] at he
    have h0' : e'.val = 0 := by
      by_contra hne
      simp [hne] at he'
    exact Fin.ext (h0.trans h0'.symm)
  · have huses : (boot answer).uses f = 0 :=
      tally_eq_zero.mpr fun j _ => Nat.add_eq_zero_iff.mpr
        ⟨tally_eq_zero.mpr fun _ _ => rfl, tally_eq_zero.mpr fun _ _ => rfl⟩
    rw [huses]
    rfl
  · by_cases hj : j.val = 0
    · simp [boot, hj]
    · simp [boot, hj] at hlive
  · by_cases hj : j.val = 0
    · simp [boot, hj] at hdead
    · exact ⟨if_neg hj, fun _ => rfl, fun _ => rfl⟩

def Steps (s : State) (a : Act) (s' : State) : Prop :=
  s.step a = some s'

theorem run_steady {answer : Nat → Answer} {acts : List Act} {s : State}
    (run : Run Steps (boot answer) acts s) : Steady s :=
  run.invariant Steady ⟨boot_quiet answer, nofun⟩ fun _ _ _ hs hstep => hs.step hstep

def State.descriptors (s : State) (f : Fin nfile) : Finset (Fin nproc × Fin nofile) :=
  Finset.univ.filter fun x => (s.proc x.1).ofile x.2 = some f

def State.regions (s : State) (f : Fin nfile) : Finset (Fin nproc × Fin maxvma) :=
  Finset.univ.filter fun x =>
    ((s.proc x.1).vmas x.2).used = true ∧ ((s.proc x.1).vmas x.2).file = f

theorem State.uses_eq (s : State) (f : Fin nfile) :
    s.uses f = (s.descriptors f).card + (s.regions f).card := by
  rw [State.uses, State.descriptors, State.regions, Finset.card_filter, Finset.card_filter,
    Fintype.sum_prod_type, Fintype.sum_prod_type, ← Finset.sum_add_distrib]
  rfl

def State.reaches (s : State) (k : Nat) : Prop :=
  ∃ f, (s.ftable f).type = .pipe ∧ (s.ftable f).pipe = k ∧
    0 < (s.descriptors f).card + (s.regions f).card

instance (s : State) (k : Nat) : Decidable (s.reaches k) :=
  inferInstanceAs (Decidable (∃ _, _))

theorem Quiet.frees {s : State} (hq : Quiet s) {k : Nat} (hk : k < s.npipe) :
    (s.pipe k).frees = if s.reaches k then 0 else 1 := by
  have hend : ∀ f, (s.ftable f).type = .pipe → 0 < (s.descriptors f).card + (s.regions f).card := by
    intro f hf
    rw [← State.uses_eq]
    by_contra hzero
    have href : (s.ftable f).ref = 0 := by
      rw [hq.books.refs, Pi.zero_apply]
      omega
    rw [hq.books.closed f href] at hf
    cases hf
  have hpipes := hq.books.pipes
  rw [hpipes.frees k hk]
  by_cases hreach : s.reaches k
  · rw [if_pos hreach, if_neg]
    rintro ⟨hread, hwrite⟩
    obtain ⟨f, hf, hfk, -⟩ := hreach
    cases hw : (s.ftable f).writable with
    | false =>
      have hopen := (hpipes.readopen k hk).mpr ⟨f, hf, hfk, hw⟩
      rw [hread] at hopen
      cases hopen
    | true =>
      have hopen := (hpipes.writeopen k hk).mpr ⟨f, hf, hfk, hw⟩
      rw [hwrite] at hopen
      cases hopen
  · have hclosed : ∀ w, ¬ ∃ f, (s.ftable f).type = .pipe ∧ (s.ftable f).pipe = k ∧
        (s.ftable f).writable = w :=
      fun w ⟨f, hf, hfk, _⟩ => hreach ⟨f, hf, hfk, hend f hf⟩
    rw [if_neg hreach, if_pos]
    exact ⟨Bool.eq_false_of_not_eq_true fun h => hclosed false ((hpipes.readopen k hk).mp h),
      Bool.eq_false_of_not_eq_true fun h => hclosed true ((hpipes.writeopen k hk).mp h)⟩

/-- Accounting of open files: after every run the count of a file is the number of
descriptors and mapped regions that refer to it, an unreferenced entry has no type, the
panics of the counts are not reached, and the page of a pipe is freed once, when the last
reference to its ends is gone. -/
theorem open_files_are_counted {answer : Nat → Answer} {acts : List Act} {s : State}
    (run : Run Steps (boot answer) acts s) :
    (∀ f, (s.ftable f).ref = ((s.descriptors f).card + (s.regions f).card : Nat)) ∧
      (∀ f, (s.ftable f).ref = 0 → (s.ftable f).type = .none) ∧
      (s.panic ≠ some "filedup" ∧ s.panic ≠ some "fileclose") ∧
      ∀ k < s.npipe, (s.pipe k).frees = if s.reaches k then 0 else 1 := by
  obtain ⟨hq, hpanic⟩ := run_steady run
  refine ⟨fun f => ?_, hq.books.closed, ⟨fun h => (hpanic _ h).1 rfl, fun h => (hpanic _ h).2 rfl⟩,
    fun k hk => hq.frees hk⟩
  rw [← State.uses_eq, hq.books.refs, Pi.zero_apply, add_zero]

/-- Answers under which a first `open` creates a file and every allocation succeeds. -/
def fresh (n : Nat) : Answer :=
  ⟨if n = 0 then .dir else .file, 0, 1, if n = 2 then 2 else 0, true⟩

def parent : Fin nproc := ⟨0, Directory.nproc_pos⟩

def child : Fin nproc := ⟨1, by decide⟩

def firstFile : Fin nfile := ⟨0, Directory.nfile_pos⟩

/-- A file that two processes have open twice and mapped once, and a pipe both closed. -/
def sharing : List Act :=
  [.call parent (.open (some [47, 97]) 0x202) fresh, .call parent (.dup 0) fresh,
    .call parent (.mmap 4096 3 1 0) fresh, .call parent .pipe fresh, .call parent .fork fresh,
    .call parent (.close 2) fresh, .call parent (.close 3) fresh, .call child (.close 2) fresh,
    .call child (.close 3) fresh]

theorem sharing_runs : ∃ s ∈ exec State.step (boot fresh) sharing,
    (s.ftable firstFile).ref = 6 ∧ s.npipe = 1 ∧ (s.pipe 0).frees = 1 := by
  decide +kernel

theorem open_files_are_counted_sharing : ∃ s : State, (s.ftable firstFile).ref = 6 ∧
    (s.pipe 0).frees = 1 ∧ (s.descriptors firstFile).card + (s.regions firstFile).card = 6 ∧
      ¬ s.reaches 0 := by
  obtain ⟨s, hrun, href, hn, hfrees⟩ := sharing_runs
  obtain ⟨hrefs, -, -, hpipes⟩ := open_files_are_counted (Run.of_exec hrun)
  have hcard := hrefs firstFile
  have hpipe := hpipes 0 (by omega)
  refine ⟨s, href, hfrees, by omega, fun hreach => ?_⟩
  rw [if_pos hreach, hfrees] at hpipe
  cases hpipe

theorem State.owners_eq (s : State) (e : Entry) :
    s.owners e = (Finset.univ.filter fun f =>
        ((s.ftable f).type = .inode ∨ (s.ftable f).type = .device) ∧
          (s.ftable f).ip = some e).card +
      (Finset.univ.filter fun j => (s.proc j).cwd = some e).card := by
  rw [State.owners, Finset.card_filter, Finset.card_filter]
  rfl

/-- Balanced calls: after every run no inode is locked, as many operations have ended as
were begun, no inode was put outside of one, the count of an inode table entry is the
number of file table entries and current directories that point to it, and no two entries
in use are for the same inode. -/
theorem calls_are_balanced {answer : Nat → Answer} {acts : List Act} {s : State}
    (run : Run Steps (boot answer) acts s) :
    s.table.locked = [] ∧ s.table.begun = s.table.ended ∧ s.table.stray = false ∧
      (∀ e, (s.table.inode e).ref = ((Finset.univ.filter fun f =>
          ((s.ftable f).type = .inode ∨ (s.ftable f).type = .device) ∧
            (s.ftable f).ip = some e).card +
        (Finset.univ.filter fun j => (s.proc j).cwd = some e).card : Nat)) ∧
      ∀ e e', 0 < (s.table.inode e).ref → 0 < (s.table.inode e').ref →
        (s.table.inode e).dev = (s.table.inode e').dev →
        (s.table.inode e).inum = (s.table.inode e').inum → e = e' := by
  have ht := (run_steady run).quiet.books.table
  refine ⟨eq_nil_iff_forall_not_mem.mpr fun e he => ?_, ?_, ht.stray, fun e => ?_, ht.unique⟩
  · have hcount := ht.locks e
    rw [Multiset.count_zero] at hcount
    exact count_eq_zero.mp hcount he
  · rw [ht.ops, Multiset.count_zero, add_zero]
  · rw [ht.refs, State.owners_eq, Multiset.count_zero, Nat.cast_zero, add_zero]

def wandering (n : Nat) : Answer :=
  ⟨.dir, 0, 1, if n = 0 then 3 else 0, true⟩

/-- A process opens a file and moves to another directory, where it finds nothing to run
or to link. -/
def failing : List Act :=
  [.call parent (.open (some [47, 97]) 0x202) fresh, .call parent (.chdir (some [98])) wandering,
    .call parent (.exec (some [99]) 0) fresh, .call parent (.link (some [99]) (some [100])) fresh]

theorem failing_runs : ∃ s ∈ exec State.step (boot fresh) failing,
    s.panic = none ∧ s.table.begun = 4 ∧ (s.proc parent).cwd = some ⟨2, by decide⟩ := by
  decide +kernel

theorem calls_are_balanced_failing : ∃ s : State, s.table.begun = 4 ∧ s.table.ended = 4 ∧
    s.table.locked = [] ∧ (s.proc parent).cwd = some ⟨2, by decide⟩ := by
  obtain ⟨s, hrun, -, hbegun, hcwd⟩ := failing_runs
  obtain ⟨hlocked, hops, -⟩ := calls_are_balanced (Run.of_exec hrun)
  exact ⟨s, hbegun, by omega, hlocked, hcwd⟩

end EafitOs.Files
