import EafitOs.Files.Books

/-!
# Accounting of open files and inodes

Between system calls the books are exact: nothing is held, every count is the number
of its holders, and the page of a pipe is gone when both of its ends are.
-/

namespace EafitOs.Files

open Foundation Function Option
open Directory (Path nfile nofile nproc)
open Memory (maxvma firstIdx)

structure Proc.Tidy (p : Proc) : Prop where
  cwd : p.state = .live → p.cwd ≠ none
  idle : p.state ≠ .live → p.cwd = none ∧ (∀ fd, p.ofile fd = none) ∧
    ∀ i, (p.vmas i).used = false

structure Quiet (s : State) : Prop where
  books : Books 0 0 s
  procs : ∀ j, (s.proc j).Tidy

section Calls

variable {s s' : State} {j : Fin nproc} {f : Fin nfile}

structure SelfOnly (j : Fin nproc) (s s' : State) : Prop where
  others : ∀ k, k ≠ j → s'.proc k = s.proc k
  state : (s'.proc j).state = (s.proc j).state
  cwd : (s'.proc j).cwd = (s.proc j).cwd

theorem SelfOnly.of_eq (hproc : s'.proc = s.proc) : SelfOnly j s s' :=
  ⟨fun k _ => congrFun hproc k, by rw [hproc], by rw [hproc]⟩

theorem SelfOnly.trans {s'' : State} (h : SelfOnly j s s') (h' : SelfOnly j s' s'') :
    SelfOnly j s s'' :=
  ⟨fun k hk => (h'.others k hk).trans (h.others k hk), h'.state.trans h.state,
    h'.cwd.trans h.cwd⟩

theorem SelfOnly.update_eq (h : SelfOnly j s s') (p : Proc) :
    update s'.proc j p = update s.proc j p := by
  funext k
  by_cases hk : k = j
  · rw [hk, update_self, update_self]
  · rw [update_of_ne hk, update_of_ne hk, h.others k hk]

theorem SelfOnly.setProc {p : Proc} (hstate : p.state = (s.proc j).state)
    (hcwd : p.cwd = (s.proc j).cwd) : SelfOnly j s (s.setProc j p) := by
  have hat : (s.setProc j p).proc j = p := update_self ..
  refine ⟨fun k hk => update_of_ne hk .., ?_, ?_⟩
  · rw [hat, hstate]
  · rw [hat, hcwd]

theorem SelfOnly.setOfile {fd : Fin nofile} {o : Option (Fin nfile)} :
    SelfOnly j s (s.setOfile j fd o) :=
  .setProc rfl rfl

theorem SelfOnly.setVma {i : Fin maxvma} {v : Vma} : SelfOnly j s (s.setVma j i v) :=
  .setProc rfl rfl

theorem Quiet.update {p : Proc} (hq : Quiet s) (hb : Books 0 0 s')
    (hproc : s'.proc = update s.proc j p) (hp : p.Tidy) : Quiet s' := by
  refine ⟨hb, fun k => ?_⟩
  rw [hproc]
  by_cases hkj : k = j
  · rw [hkj, update_self]
    exact hp
  · rw [update_of_ne hkj]
    exact hq.procs k

theorem Quiet.change (hq : Quiet s) (hlive : (s.proc j).state = .live) (hb : Books 0 0 s')
    (hself : SelfOnly j s s') : Quiet s' := by
  refine hq.update (p := s'.proc j) (j := j) hb ?_ ⟨fun _ => ?_, fun hdead => ?_⟩
  · refine (Function.eq_update_iff.mpr ⟨rfl, hself.others⟩)
  · rw [hself.cwd]
    exact (hq.procs j).cwd hlive
  · exact absurd (hself.state.trans hlive) hdead

theorem Quiet.keep (hq : Quiet s) (hb : Books 0 0 s') (hproc : s'.proc = s.proc) : Quiet s' :=
  ⟨hb, hproc ▸ hq.procs⟩

theorem Quiet.exec {x : Fs Int} (hq : Quiet s)
    (hx : Uses (Own s.owners) Safe 0 x fun _ => 0) :
    Ends (s.exec x) (fun r => Quiet r.2) Safe := by
  have hb : Books 0 (0 + 0) s := hq.books
  refine (hb.exec hx).imp fun r hr => ?_
  obtain ⟨hb', t, heq⟩ := hr
  exact hq.keep hb' (by rw [heq])

/-- The state in which the call has the reference of its process to the current
directory. -/
def State.lendCwd (s : State) (j : Fin nproc) : State :=
  s.setProc j { s.proc j with cwd := none }

theorem Books.lendCwd {bal : Fin nfile → Int} {h : Multiset Token} {cwd : Entry}
    (hb : Books bal h s) (hcwd : (s.proc j).cwd = some cwd) :
    Books bal (h + ref cwd) (s.lendCwd j) := by
  refine hb.replaceProc ?_ fun f => rfl
  rw [hcwd, refTo, refTo, zero_add, add_comm]

theorem Books.execCwd {α : Type} {bal : Fin nfile → Int} {h : Multiset Token} {x : Fs α}
    {d : α → Multiset Token} {cwd : Entry} (hb : Books bal h s) (next : α → Option Entry)
    (hcwd : (s.proc j).cwd = some cwd)
    (hx : ∀ base, Uses (Own base) Safe (ref cwd) x fun a => refTo (next a) + d a) :
    Ends (s.exec x) (fun r => (∃ t, r.2 = { s with table := t }) ∧
      Books bal (h + d r.1) (r.2.setProc j { s.proc j with cwd := next r.1 })) Safe := by
  have hlent := hb.lendCwd hcwd
  have hown : Own (s.lendCwd j).owners (h + ref cwd) s.table := hlent.table
  refine (exec_ends (hx _) hown).imp fun r hr => ?_
  obtain ⟨t, heq, ht⟩ := hr
  rw [heq]
  refine ⟨⟨t, rfl⟩, ?_⟩
  have hafter : Books bal (h + (refTo (next r.1) + d r.1)) { s.lendCwd j with table := t } :=
    ⟨ht, hlent.refs, hlent.closed, hlent.pipes⟩
  have hlast : Books bal (h + d r.1) (State.setProc { s.lendCwd j with table := t } j
      { s.proc j with cwd := next r.1 }) := by
    refine hafter.replaceProc ?_ fun f => ?_
    · simp only [State.lendCwd, State.setProc, update_self, refTo]
      abel
    · simp only [State.lendCwd, State.setProc, update_self]
      rfl
  simpa only [State.lendCwd, State.setProc, update_idem] using hlast

theorem Books.onCwd {α : Type} {bal : Fin nfile → Int} {h : Multiset Token} {x : Entry → Fs α}
    {d : Entry → α → Multiset Token} (hb : Books bal h s)
    (hx : ∀ base cwd, Uses (Own base) Safe (ref cwd) (x cwd) fun a => ref cwd + d cwd a) :
    Ends (s.onCwd j x) (fun r => ∃ cwd t, (s.proc j).cwd = some cwd ∧
      r.2 = { s with table := t } ∧ Books bal (h + d cwd r.1) r.2) Safe := by
  rw [State.onCwd]
  cases hcwd : (s.proc j).cwd with
  | none => exact .error ⟨by decide, by decide⟩
  | some cwd =>
    have hrun := hb.execCwd (fun _ => some cwd) hcwd fun base => hx base cwd
    refine hrun.imp fun r hr => ?_
    obtain ⟨⟨t, heq⟩, hb'⟩ := hr
    have hsame : r.2.setProc j { s.proc j with cwd := some cwd } = r.2 := by
      rw [← hcwd, heq]
      simp only [State.setProc, update_eq_self]
    rw [hsame] at hb'
    exact ⟨cwd, t, rfl, heq, hb'⟩

theorem Quiet.onCwd {x : Entry → Fs Int} (hq : Quiet s)
    (hx : ∀ base cwd, Uses (Own base) Safe (ref cwd) (x cwd) fun _ => ref cwd) :
    Ends (s.onCwd j x) (fun r => Quiet r.2) Safe := by
  refine (hq.books.onCwd (d := fun _ _ => 0) fun base cwd => ?_).imp fun r hr => ?_
  · simpa only [add_zero] using hx base cwd
  · obtain ⟨_, t, -, heq, hb⟩ := hr
    exact hq.keep hb (by rw [heq])

theorem argfd_some {fd : Int} {fd' : Fin nofile} (h : argfd s j fd = some (fd', f)) :
    (s.proc j).ofile fd' = some f := by
  rw [argfd] at h
  split at h
  · cases h
  · obtain ⟨g, hg, heq⟩ := map_eq_some_iff.mp h
    obtain ⟨rfl, rfl⟩ := Prod.mk.inj heq
    exact hg

theorem firstIdx_some {n : Nat} {test : Fin n → Bool} {i : Fin n} (h : firstIdx test = some i) :
    test i = true :=
  List.find?_some h

theorem fdalloc_some {fd : Fin nofile} (h : fdalloc s j f = some (fd, s')) :
    (s.proc j).ofile fd = none ∧ s' = s.setOfile j fd (some f) := by
  obtain ⟨fd', hfind, heq⟩ := map_eq_some_iff.mp h
  obtain ⟨rfl, rfl⟩ := Prod.mk.inj heq
  exact ⟨isNone_iff_eq_none.mp (firstIdx_some hfind), rfl⟩

theorem ofile_setOfile (s : State) (j : Fin nproc) (fd : Fin nofile) (o : Option (Fin nfile)) :
    ((s.setOfile j fd o).proc j).ofile = update (s.proc j).ofile fd o := by
  simp [State.setOfile, State.setProc]

theorem Quiet.ref_pos (hq : Quiet s) (huses : 0 < s.uses f) : 1 ≤ (s.ftable f).ref := by
  refine hq.books.one_le ?_
  rw [Pi.zero_apply]
  omega

theorem Quiet.sysDup (hq : Quiet s) (hlive : (s.proc j).state = .live) (fd : Int) :
    Ends (sysDup s j fd) (fun r => Quiet r.2) Safe := by
  rw [Files.sysDup]
  cases hfd : argfd s j fd with
  | none => exact .ok hq
  | some res =>
    obtain ⟨fd₀, f⟩ := res
    have hpos := hq.ref_pos (uses_pos_of_ofile (argfd_some hfd))
    simp only
    cases halloc : fdalloc s j f with
    | none => exact .ok hq
    | some res =>
      obtain ⟨fd', s₁⟩ := res
      obtain ⟨hnone, rfl⟩ := fdalloc_some halloc
      refine ((hq.books.install hnone).filedup hpos).bind fun s₂ hs₂ => .ok ?_
      obtain ⟨hb, hproc⟩ := hs₂
      rw [sub_add_cancel] at hb
      exact hq.change hlive hb (SelfOnly.setOfile.trans (.of_eq hproc))

theorem Quiet.sysClose (hq : Quiet s) (hlive : (s.proc j).state = .live) (fd : Int) :
    Ends (sysClose s j fd) (fun r => Quiet r.2) Safe := by
  rw [Files.sysClose]
  cases hfd : argfd s j fd with
  | none => exact .ok hq
  | some res =>
    obtain ⟨fd₀, f⟩ := res
    have hofile := argfd_some hfd
    have hpos := hq.ref_pos (uses_pos_of_ofile hofile)
    refine ((hq.books.remove hofile).fileclose hpos).bind fun s₁ hs₁ => .ok ?_
    obtain ⟨hb, hproc⟩ := hs₁
    rw [add_sub_cancel_right] at hb
    exact hq.change hlive hb (SelfOnly.setOfile.trans (.of_eq hproc))

/-- Two new entries are the ends of a new pipe. -/
theorem PipesOk.new {ftable : Fin nfile → File} {pipe : Nat → Pipe} {n : Nat}
    {f₀ f₁ : Fin nfile} {x₀ x₁ : File} (hp : PipesOk ftable pipe n) (hne : f₀ ≠ f₁)
    (h₀ : (ftable f₀).type ≠ .pipe) (h₁ : (ftable f₁).type ≠ .pipe)
    (hx₀ : x₀.type = .pipe ∧ x₀.pipe = n ∧ x₀.writable = false)
    (hx₁ : x₁.type = .pipe ∧ x₁.pipe = n ∧ x₁.writable = true) :
    PipesOk (update (update ftable f₀ x₀) f₁ x₁)
      (update pipe n ⟨true, true, 0⟩) (n + 1) := by
  obtain ⟨ft, hft⟩ : ∃ ft, ft = update (update ftable f₀ x₀) f₁ x₁ := ⟨_, rfl⟩
  rw [← hft]
  have hat₀ : ft f₀ = x₀ := by
    rw [hft, update_of_ne hne, update_self]
  have hat₁ : ft f₁ = x₁ := by
    rw [hft, update_self]
  have hother : ∀ g, g ≠ f₀ → g ≠ f₁ → ft g = ftable g := by
    intro g hg₀ hg₁
    rw [hft, update_of_ne hg₁, update_of_ne hg₀]
  -- an end belongs to the new pipe, or to an old one and was there before
  have hcases : ∀ g, (ft g).type = .pipe → g = f₀ ∨ g = f₁ ∨
      (ft g = ftable g ∧ (ftable g).type = .pipe ∧ (ftable g).pipe < n) := by
    intro g hg
    by_cases hg₀ : g = f₀
    · exact .inl hg₀
    · by_cases hg₁ : g = f₁
      · exact .inr (.inl hg₁)
      · have hsame := hother g hg₀ hg₁
        rw [hsame] at hg
        exact .inr (.inr ⟨hsame, hg, hp.bound g hg⟩)
  have hends : ∀ k w, k < n → ((∃ g, (ft g).type = .pipe ∧ (ft g).pipe = k ∧
      (ft g).writable = w) ↔
      ∃ g, (ftable g).type = .pipe ∧ (ftable g).pipe = k ∧ (ftable g).writable = w) := by
    intro k w hk
    constructor
    · rintro ⟨g, hg, hgk, hgw⟩
      obtain rfl | rfl | ⟨hsame, htype, -⟩ := hcases g hg
      · rw [hat₀, hx₀.2.1] at hgk
        omega
      · rw [hat₁, hx₁.2.1] at hgk
        omega
      · rw [hsame] at hgk hgw
        exact ⟨g, htype, hgk, hgw⟩
    · rintro ⟨g, hg, hgk, hgw⟩
      have hsame : ft g = ftable g := by
        refine hother g ?_ ?_
        · rintro rfl
          exact h₀ hg
        · rintro rfl
          exact h₁ hg
      refine ⟨g, ?_⟩
      rw [hsame]
      exact ⟨hg, hgk, hgw⟩
  have hold : ∀ {k}, k < n → update pipe n ⟨true, true, 0⟩ k = pipe k :=
    fun hk => update_of_ne (by omega) ..
  refine ⟨fun g hg => ?_, fun g g' hg hg' hpipe hw => ?_, fun k hk => ?_, fun k hk => ?_,
    fun k hk => ?_⟩
  · obtain rfl | rfl | ⟨hsame, -, hlt⟩ := hcases g hg
    · rw [hat₀, hx₀.2.1]
      omega
    · rw [hat₁, hx₁.2.1]
      omega
    · rw [hsame]
      omega
  · obtain rfl | rfl | ⟨hsame, htype, hlt⟩ := hcases g hg
    · obtain rfl | rfl | ⟨hsame', -, hlt'⟩ := hcases g' hg'
      · rfl
      · rw [hat₀, hat₁, hx₀.2.2, hx₁.2.2] at hw
        cases hw
      · rw [hat₀, hsame', hx₀.2.1] at hpipe
        omega
    · obtain rfl | rfl | ⟨hsame', -, hlt'⟩ := hcases g' hg'
      · rw [hat₀, hat₁, hx₀.2.2, hx₁.2.2] at hw
        cases hw
      · rfl
      · rw [hat₁, hsame', hx₁.2.1] at hpipe
        omega
    · obtain rfl | rfl | ⟨hsame', htype', -⟩ := hcases g' hg'
      · rw [hat₀, hsame, hx₀.2.1] at hpipe
        omega
      · rw [hat₁, hsame, hx₁.2.1] at hpipe
        omega
      · rw [hsame, hsame'] at hpipe hw
        exact hp.ends g g' htype htype' hpipe hw
  · obtain hlt | rfl := Nat.lt_succ_iff_lt_or_eq.mp hk
    · rw [hold hlt, hends k false hlt]
      exact hp.readopen k hlt
    · rw [update_self]
      exact ⟨fun _ => ⟨f₀, by rw [hat₀]; exact hx₀⟩, fun _ => rfl⟩
  · obtain hlt | rfl := Nat.lt_succ_iff_lt_or_eq.mp hk
    · rw [hold hlt, hends k true hlt]
      exact hp.writeopen k hlt
    · rw [update_self]
      exact ⟨fun _ => ⟨f₁, by rw [hat₁]; exact hx₁⟩, fun _ => rfl⟩
  · obtain hlt | rfl := Nat.lt_succ_iff_lt_or_eq.mp hk
    · rw [hold hlt]
      exact hp.frees k hlt
    · rw [update_self]
      rfl

/-- The references `pipealloc` returns. -/
def pipeRefs : Option (Fin nfile × Fin nfile) → Fin nfile → Int
  | none => 0
  | some (f₀, f₁) => Pi.single f₀ 1 + Pi.single f₁ 1

theorem single_nonneg (f g : Fin nfile) : 0 ≤ (Pi.single f 1 : Fin nfile → Int) g := by
  by_cases hg : g = f
  · simp [hg]
  · simp [hg]

theorem Books.newPipe {bal : Fin nfile → Int} {h : Multiset Token} {f₀ f₁ : Fin nfile}
    {x₀ x₁ : File} (hb : Books bal h s) (hs' : s' = { s with
      ftable := update (update s.ftable f₀ x₀) f₁ x₁
      pipe := update s.pipe s.npipe ⟨true, true, 0⟩
      npipe := s.npipe + 1 }) (hne : f₀ ≠ f₁)
    (h₀ : (s.ftable f₀).type = .none) (h₁ : (s.ftable f₁).type = .none)
    (hx₀ : x₀.type = .pipe ∧ x₀.pipe = s.npipe ∧ x₀.writable = false)
    (hx₁ : x₁.type = .pipe ∧ x₁.pipe = s.npipe ∧ x₁.writable = true)
    (hr₀ : x₀.ref = (s.ftable f₀).ref ∧ x₀.ref ≠ 0)
    (hr₁ : x₁.ref = (s.ftable f₁).ref ∧ x₁.ref ≠ 0) : Books bal h s' := by
  subst hs'
  have hat : ∀ g, update (update s.ftable f₀ x₀) f₁ x₁ g =
      if g = f₁ then x₁ else if g = f₀ then x₀ else s.ftable g := by
    intro g
    by_cases hg₁ : g = f₁
    · rw [if_pos hg₁, hg₁, update_self]
    · rw [if_neg hg₁, update_of_ne hg₁]
      by_cases hg₀ : g = f₀
      · rw [if_pos hg₀, hg₀, update_self]
      · rw [if_neg hg₀, update_of_ne hg₀]
  refine ⟨hb.table.trade (fun e => ?_) (fun _ => rfl) rfl, fun g => ?_, fun g hg => ?_,
    hb.pipes.new hne (by rw [h₀]; decide) (by rw [h₁]; decide) hx₀ hx₁⟩
  · have hsame : tally Finset.univ (File.opens e)
        (update (update s.ftable f₀ x₀) f₁ x₁) =
        tally Finset.univ (File.opens e) s.ftable := by
      refine tally_congr fun g _ => ?_
      rw [hat]
      split
      · rename_i hg
        simp [File.opens, hg, h₁, hx₁.1]
      · split
        · rename_i hg
          simp [File.opens, hg, h₀, hx₀.1]
        · rfl
    rw [State.owners, State.owners, hsame]
  · change (update (update s.ftable f₀ x₀) f₁ x₁ g).ref = s.uses g + bal g
    rw [← hb.refs g, hat]
    split
    · rename_i hg
      rw [hg, hr₁.1]
    · split
      · rename_i hg
        rw [hg, hr₀.1]
      · rfl
  · change (update (update s.ftable f₀ x₀) f₁ x₁ g).ref = 0 at hg
    change (update (update s.ftable f₀ x₀) f₁ x₁ g).type = .none
    rw [hat] at hg ⊢
    split
    · rename_i hg₁
      rw [if_pos hg₁] at hg
      exact absurd hg hr₁.2
    · rename_i hg₁
      rw [if_neg hg₁] at hg
      split
      · rename_i hg₀
        rw [if_pos hg₀] at hg
        exact absurd hg hr₀.2
      · rename_i hg₀
        rw [if_neg hg₀] at hg
        exact hb.closed g hg

theorem Books.pipealloc (hb : Books 0 0 s) :
    Ends (pipealloc s) (fun r => Books (pipeRefs r.1) 0 r.2 ∧ r.2.proc = s.proc) Safe := by
  rw [Files.pipealloc]
  cases h₀ : Files.filealloc s with
  | none => exact .ok ⟨hb, rfl⟩
  | some res =>
    obtain ⟨f₀, s₀⟩ := res
    obtain ⟨hb₀, hs₀, htype₀, href₀⟩ := hb.filealloc h₀
    have hproc₀ : s₀.proc = s.proc := by
      rw [hs₀]
      rfl
    rw [zero_add] at hb₀
    simp only
    cases h₁ : Files.filealloc s₀ with
    | none =>
      refine (hb₀.fileclose (by omega)).bind fun s₁ ⟨hb₁, hproc⟩ => .ok ⟨?_, hproc.trans hproc₀⟩
      rw [sub_self] at hb₁
      exact hb₁
    | some res =>
      obtain ⟨f₁, s₁⟩ := res
      obtain ⟨hb₁, hs₁, htype₁, href₁⟩ := hb₀.filealloc h₁
      have hne : f₀ ≠ f₁ := by
        rintro rfl
        obtain ⟨g, hfind, heq⟩ := map_eq_some_iff.mp h₁
        have hzero : (s₀.ftable g).ref = 0 := by simpa using List.find?_some hfind
        rw [(Prod.mk.inj heq).1] at hzero
        omega
      have hsame : s₁.ftable f₀ = s₀.ftable f₀ := by
        rw [hs₁]
        exact update_of_ne hne ..
      have hproc₁ : s₁.proc = s.proc := by
        rw [hs₁]
        exact hproc₀
      have hask : Books (Pi.single f₀ 1 + Pi.single f₁ 1) (0 + 0) s₁ := hb₁
      refine (hask.exec ask_uses).bind fun r hr => ?_
      obtain ⟨page, s₂⟩ := r
      obtain ⟨hb₂, t, rfl⟩ := hr
      simp only
      split
      · refine (hb₂.fileclose (f := f₀) ?_).bind fun s₃ hs₃ => ?_
        · change 1 ≤ (s₁.ftable f₀).ref
          rw [hsame, href₀]
        · obtain ⟨hb₃, hproc₃⟩ := hs₃
          rw [add_sub_cancel_left] at hb₃
          refine (hb₃.fileclose (f := f₁) (hb₃.one_le ?_)).bind
            fun s₄ ⟨hb₄, hproc₄⟩ => .ok ⟨?_, ?_⟩
          · rw [Pi.single_eq_same]
            omega
          · rw [sub_self] at hb₄
            exact hb₄
          · exact hproc₄.trans (hproc₃.trans hproc₁)
      · have href₀' : (s₁.ftable f₀).ref = 1 := by
          rw [hsame, href₀]
        have htype₀' : (s₁.ftable f₀).type = .none := by
          rw [hsame, htype₀]
        -- the second entry is read after the first was written
        have hafter : ∀ x, (update s₁.ftable f₀ x f₁).ref = (s₁.ftable f₁).ref :=
          fun x => congrArg File.ref (update_of_ne hne.symm ..)
        refine .ok ⟨hb₂.newPipe rfl hne htype₀' htype₁ ⟨rfl, rfl, rfl⟩ ⟨rfl, rfl, rfl⟩
          ⟨rfl, ?_⟩ ⟨?_, ?_⟩, hproc₁⟩
        · rw [href₀']
          exact one_ne_zero
        · exact hafter _
        · exact ne_of_eq_of_ne ((hafter _).trans href₁) one_ne_zero

theorem Books.pipeFail {rf wf : Fin nfile} (hb : Books (Pi.single rf 1 + Pi.single wf 1) 0 s) :
    Ends (pipeFail s rf wf) (fun r => Books 0 0 r.2 ∧ r.2.proc = s.proc) Safe := by
  rw [Files.pipeFail]
  refine (hb.fileclose (f := rf) (hb.one_le ?_)).bind fun s₁ hs₁ => ?_
  · have hnonneg := single_nonneg wf rf
    rw [Pi.add_apply, Pi.single_eq_same]
    omega
  · obtain ⟨hb₁, hproc₁⟩ := hs₁
    rw [add_sub_cancel_left] at hb₁
    refine (hb₁.fileclose (f := wf) (hb₁.one_le ?_)).bind fun s₂ hs₂ => .ok ⟨?_, ?_⟩
    · rw [Pi.single_eq_same]
      omega
    · obtain ⟨hb₂, -⟩ := hs₂
      rw [sub_self] at hb₂
      exact hb₂
    · exact hs₂.2.trans hproc₁

theorem Quiet.sysPipe (hq : Quiet s) (hlive : (s.proc j).state = .live) :
    Ends (sysPipe s j) (fun r => Quiet r.2) Safe := by
  rw [Files.sysPipe]
  refine hq.books.pipealloc.bind fun r hr => ?_
  obtain ⟨ends, s₁⟩ := r
  obtain ⟨hb₁, hproc₁⟩ := hr
  have hself₁ : SelfOnly j s s₁ := .of_eq hproc₁
  -- on every error exit the call has both references again
  have hfail : ∀ {s' : State} {rf wf : Fin nfile}, SelfOnly j s s' →
      Books (Pi.single rf 1 + Pi.single wf 1) 0 s' →
      Ends (Files.pipeFail s' rf wf) (fun r => Quiet r.2) Safe :=
    fun hself hb => hb.pipeFail.imp fun r hr =>
      hq.change hlive hr.1 (hself.trans (.of_eq hr.2))
  cases ends with
  | none => exact .ok (hq.change hlive hb₁ hself₁)
  | some ends =>
    obtain ⟨rf, wf⟩ := ends
    rw [pipeRefs] at hb₁
    simp only
    cases h₀ : fdalloc s₁ j rf with
    | none => exact hfail hself₁ hb₁
    | some res =>
      obtain ⟨fd₀, s₂⟩ := res
      obtain ⟨hnone₀, hs₂⟩ := fdalloc_some h₀
      have hself₂ : SelfOnly j s s₂ := hs₂ ▸ hself₁.trans .setOfile
      have hfd₀ : (s₂.proc j).ofile fd₀ = some rf := by
        rw [hs₂, ofile_setOfile, update_self]
      have hb₂ : Books (Pi.single wf 1) 0 s₂ := by
        have hinstall := hb₁.install (f := rf) hnone₀
        rw [add_sub_cancel_left, ← hs₂] at hinstall
        exact hinstall
      simp only
      cases h₁ : fdalloc s₂ j wf with
      | none =>
        refine hfail (hself₂.trans .setOfile) ?_
        rw [add_comm]
        exact hb₂.remove hfd₀
      | some res =>
        obtain ⟨fd₁, s₃⟩ := res
        obtain ⟨hnone₁, hs₃⟩ := fdalloc_some h₁
        have hne : fd₀ ≠ fd₁ := by
          rintro rfl
          rw [hfd₀] at hnone₁
          cases hnone₁
        have hself₃ : SelfOnly j s s₃ := hs₃ ▸ hself₂.trans .setOfile
        have hofile₃ : (s₃.proc j).ofile = Function.update (s₂.proc j).ofile fd₁ (some wf) := by
          rw [hs₃, ofile_setOfile]
        have hb₃ : Books 0 (0 + 0) s₃ := by
          have hinstall := hb₂.install (f := wf) hnone₁
          rw [sub_self, ← hs₃] at hinstall
          exact hinstall
        refine (hb₃.exec ask_uses).bind fun r hr => ?_
        obtain ⟨copied, s₄⟩ := r
        obtain ⟨hb₄, t, rfl⟩ := hr
        have hself₄ : SelfOnly j s { s₃ with table := t } := hself₃.trans (.of_eq rfl)
        simp only
        split
        · refine hfail ((hself₄.trans .setOfile).trans .setOfile) ?_
          have hfd₀' : (s₃.proc j).ofile fd₀ = some rf := by
            rw [hofile₃, update_of_ne hne, hfd₀]
          have hremove := hb₄.remove (j := j) (f := rf) hfd₀'
          rw [zero_add] at hremove
          refine hremove.remove ?_
          rw [ofile_setOfile, update_of_ne hne.symm]
          change (s₃.proc j).ofile fd₁ = some wf
          rw [hofile₃, update_self]
        · exact .ok (hq.change hlive hb₄ hself₄)

end Calls

end EafitOs.Files
