import EafitOs.Files.Balanced

/-!
# The books of open files

The reference count of an open file is the number of descriptors and mapped regions that refer to
it, and the reference count of an inode table entry is the number of open files and current
directories.
-/

namespace EafitOs.Files

open Foundation Function Finset
open Directory (nfile nofile nproc)
open Memory (maxvma)

def File.opens (e : Entry) (x : File) : Nat :=
  if (x.type = .inode ∨ x.type = .device) ∧ x.ip = some e then 1 else 0

def Proc.sitsIn (e : Entry) (p : Proc) : Nat :=
  if p.cwd = some e then 1 else 0

/-- The file table entries and current directories that point to the inode table entry. -/
def State.owners (s : State) (e : Entry) : Nat :=
  tally univ (File.opens e) s.ftable + tally univ (Proc.sitsIn e) s.proc

def isFile (f : Fin nfile) (o : Option (Fin nfile)) : Nat :=
  if o = some f then 1 else 0

def Vma.maps (f : Fin nfile) (v : Vma) : Nat :=
  if v.used ∧ v.file = f then 1 else 0

def Proc.uses (f : Fin nfile) (p : Proc) : Nat :=
  tally univ (isFile f) p.ofile + tally univ (Vma.maps f) p.vmas

/-- The pairs of a process and a descriptor, and of a process and a region, that refer to
the file. -/
def State.uses (s : State) (f : Fin nfile) : Nat :=
  tally univ (Proc.uses f) s.proc

/-- Every pipe has at most one entry for each end, is open at the ends that have one, and
its page was freed once if it has none. -/
structure PipesOk (ftable : Fin nfile → File) (pipe : Nat → Pipe) (npipe : Nat) : Prop where
  bound : ∀ f, (ftable f).type = .pipe → (ftable f).pipe < npipe
  ends : ∀ f f', (ftable f).type = .pipe → (ftable f').type = .pipe →
    (ftable f).pipe = (ftable f').pipe → (ftable f).writable = (ftable f').writable → f = f'
  readopen : ∀ k < npipe, (pipe k).readopen = true ↔
    ∃ f, (ftable f).type = .pipe ∧ (ftable f).pipe = k ∧ (ftable f).writable = false
  writeopen : ∀ k < npipe, (pipe k).writeopen = true ↔
    ∃ f, (ftable f).type = .pipe ∧ (ftable f).pipe = k ∧ (ftable f).writable = true
  frees : ∀ k < npipe, (pipe k).frees =
    if (pipe k).readopen = false ∧ (pipe k).writeopen = false then 1 else 0

structure Books (bal : Fin nfile → Int) (h : Multiset Token) (s : State) : Prop where
  table : Own s.owners h s.table
  refs : ∀ f, (s.ftable f).ref = s.uses f + bal f
  closed : ∀ f, (s.ftable f).ref = 0 → (s.ftable f).type = .none
  pipes : PipesOk s.ftable s.pipe s.npipe

section Updates

variable {s : State} {bal bal' : Fin nfile → Int} {h h' : Multiset Token} {f : Fin nfile}
  {j : Fin nproc}

theorem Own.trade {base base' : Entry → Nat} {t : Table} (ht : Own base h t)
    (hrefs : ∀ e, base' e + h'.count (.ref e) = base e + h.count (.ref e))
    (hlocks : ∀ e, h'.count (.lock e) = h.count (.lock e))
    (hops : h'.count .op = h.count .op) : Own base' h' t where
  refs := fun e => by
    have href := ht.refs e
    have htrade := hrefs e
    omega
  locks := fun e => by rw [hlocks, ht.locks]
  ops := by rw [hops, ht.ops]
  stray := ht.stray
  unique := ht.unique

theorem exec_ends {α : Type} {base : Entry → Nat} {c : Multiset Token} {x : Fs α}
    {d : α → Multiset Token} (hx : Uses (Own base) Safe c x d) (ht : Own base (h + c) s.table) :
    Ends (s.exec x) (fun r => ∃ t, r.2 = { s with table := t } ∧ Own base (h + d r.1) t) Safe :=
  (hx h s.table ht).bind fun r hr => .ok ⟨r.2, rfl, hr⟩

theorem Books.exec {α : Type} {c : Multiset Token} {x : Fs α} {d : α → Multiset Token}
    (hb : Books bal (h + c) s) (hx : Uses (Own s.owners) Safe c x d) :
    Ends (s.exec x) (fun r => Books bal (h + d r.1) r.2 ∧ ∃ t, r.2 = { s with table := t })
      Safe := by
  refine (exec_ends hx hb.table).imp fun r hr => ?_
  obtain ⟨t, heq, ht⟩ := hr
  rw [heq]
  exact ⟨⟨ht, hb.refs, hb.closed, hb.pipes⟩, t, rfl⟩

theorem uses_setProc (p : Proc) :
    (s.setProc j p).uses f + (s.proc j).uses f = s.uses f + p.uses f :=
  tally_update (mem_univ j)

theorem count_refTo (o : Option Entry) (e : Entry) :
    (refTo o).count (.ref e) = if o = some e then 1 else 0 := by
  cases o with
  | none => simp [refTo]
  | some e' => simp [refTo, eq_comm]

theorem count_refTo_lock (o : Option Entry) (e : Entry) : (refTo o).count (.lock e) = 0 := by
  cases o <;> simp [refTo]

theorem count_refTo_op (o : Option Entry) : (refTo o).count .op = 0 := by
  cases o <;> simp [refTo]

theorem owners_setProc (p : Proc) (e : Entry) :
    (s.setProc j p).owners e + (s.proc j).sitsIn e = s.owners e + p.sitsIn e := by
  have htally : tally univ (Proc.sitsIn e) (s.setProc j p).proc + (s.proc j).sitsIn e =
      tally univ (Proc.sitsIn e) s.proc + p.sitsIn e :=
    tally_update (mem_univ j)
  have hfiles : (s.setProc j p).ftable = s.ftable := rfl
  rw [State.owners, State.owners, hfiles]
  omega

theorem Books.replaceProc {p : Proc} (hb : Books bal h s)
    (hcwd : refTo p.cwd + h' = refTo (s.proc j).cwd + h)
    (huses : ∀ f, p.uses f + bal' f = (s.proc j).uses f + bal f) :
    Books bal' h' (s.setProc j p) := by
  have hcount : ∀ k, (refTo p.cwd).count k + h'.count k =
      (refTo (s.proc j).cwd).count k + h.count k := by
    intro k
    rw [← Multiset.count_add, ← Multiset.count_add, hcwd]
  refine ⟨hb.table.trade (fun e => ?_) (fun e => ?_) ?_, fun f => ?_, hb.closed, hb.pipes⟩
  · have howners := owners_setProc (s := s) (j := j) p e
    have href := hcount (.ref e)
    rw [count_refTo, count_refTo] at href
    rw [Proc.sitsIn, Proc.sitsIn] at howners
    omega
  · have hlock := hcount (.lock e)
    rw [count_refTo_lock, count_refTo_lock] at hlock
    omega
  · have hop := hcount .op
    rw [count_refTo_op, count_refTo_op] at hop
    omega
  · have href := hb.refs f
    have hset := uses_setProc (s := s) (f := f) (j := j) p
    have hbal := huses f
    change (s.ftable f).ref = (s.setProc j p).uses f + bal' f
    omega

theorem Books.setProc {p : Proc} (hb : Books bal h s) (hcwd : p.cwd = (s.proc j).cwd)
    (huses : ∀ f, p.uses f + bal' f = (s.proc j).uses f + bal f) :
    Books bal' h (s.setProc j p) :=
  hb.replaceProc (by rw [hcwd]) huses

theorem Books.setOfile {fd : Fin nofile} {o : Option (Fin nfile)} (hb : Books bal h s)
    (hbal : ∀ f, isFile f o + bal' f = isFile f ((s.proc j).ofile fd) + bal f) :
    Books bal' h (s.setOfile j fd o) := by
  refine hb.setProc rfl fun f => ?_
  have hset := tally_update (g := isFile f) (f := (s.proc j).ofile) (a := o)
    (mem_univ fd)
  have hf := hbal f
  simp only [Proc.uses]
  push_cast
  omega

theorem Books.setVma {i : Fin maxvma} {v : Vma} (hb : Books bal h s)
    (hbal : ∀ f, v.maps f + bal' f = ((s.proc j).vmas i).maps f + bal f) :
    Books bal' h (s.setVma j i v) := by
  refine hb.setProc rfl fun f => ?_
  have hset := tally_update (g := Vma.maps f) (f := (s.proc j).vmas) (a := v)
    (mem_univ i)
  have hf := hbal f
  simp only [Proc.uses]
  push_cast
  omega

theorem owners_setFile (x : File) (e : Entry) :
    (s.setFile f x).owners e + (s.ftable f).opens e = s.owners e + x.opens e := by
  have htally : tally univ (File.opens e) (s.setFile f x).ftable + (s.ftable f).opens e =
      tally univ (File.opens e) s.ftable + x.opens e :=
    tally_update (mem_univ f)
  have hproc : (s.setFile f x).proc = s.proc := rfl
  rw [State.owners, State.owners, hproc]
  omega

theorem uses_setFile (x : File) (f' : Fin nfile) : (s.setFile f x).uses f' = s.uses f' :=
  rfl

theorem PipesOk.congr {ftable ftable' : Fin nfile → File} {pipe : Nat → Pipe} {n : Nat}
    (hp : PipesOk ftable pipe n)
    (heq : ∀ f, ((ftable' f).type = .pipe ↔ (ftable f).type = .pipe) ∧
      ((ftable f).type = .pipe → (ftable' f).pipe = (ftable f).pipe ∧
        (ftable' f).writable = (ftable f).writable)) : PipesOk ftable' pipe n := by
  have hend : ∀ k w, (∃ f, (ftable' f).type = .pipe ∧ (ftable' f).pipe = k ∧
      (ftable' f).writable = w) ↔
      ∃ f, (ftable f).type = .pipe ∧ (ftable f).pipe = k ∧ (ftable f).writable = w := by
    intro k w
    constructor
    · rintro ⟨f, htype, hk, hw⟩
      have hf := (heq f).1.mp htype
      obtain ⟨hpipe, hwrite⟩ := (heq f).2 hf
      exact ⟨f, hf, hpipe ▸ hk, hwrite ▸ hw⟩
    · rintro ⟨f, htype, hk, hw⟩
      obtain ⟨hpipe, hwrite⟩ := (heq f).2 htype
      exact ⟨f, (heq f).1.mpr htype, hpipe.trans hk, hwrite.trans hw⟩
  refine ⟨fun f hf => ?_, fun f f' hf hf' hpipe hw => ?_, fun k hk => ?_, fun k hk => ?_,
    hp.frees⟩
  · have hf' := (heq f).1.mp hf
    rw [((heq f).2 hf').1]
    exact hp.bound f hf'
  · have hg := (heq f).1.mp hf
    have hg' := (heq f').1.mp hf'
    rw [((heq f).2 hg).1, ((heq f').2 hg').1] at hpipe
    rw [((heq f).2 hg).2, ((heq f').2 hg').2] at hw
    exact hp.ends f f' hg hg' hpipe hw
  · rw [hend]
    exact hp.readopen k hk
  · rw [hend]
    exact hp.writeopen k hk

theorem PipesOk.setFile {x : File} {pipe : Nat → Pipe} {n : Nat}
    (hp : PipesOk s.ftable pipe n) (hold : (s.ftable f).type ≠ .pipe) (hnew : x.type ≠ .pipe) :
    PipesOk (s.setFile f x).ftable pipe n := by
  refine hp.congr fun f' => ?_
  by_cases hf : f' = f
  · subst hf
    simp only [State.setFile, update_self]
    exact ⟨⟨fun h => absurd h hnew, fun h => absurd h hold⟩, fun h => absurd h hold⟩
  · have hsame : (s.setFile f x).ftable f' = s.ftable f' := update_of_ne hf ..
    rw [hsame]
    exact ⟨Iff.rfl, fun _ => ⟨rfl, rfl⟩⟩

theorem Books.setRef {r : Int} (hb : Books bal h s) (hr : r ≠ 0 ∨ (s.ftable f).type = .none)
    (hbal : ∀ f', bal' f' = bal f' + if f' = f then r - (s.ftable f).ref else 0) :
    Books bal' h (s.setFile f { s.ftable f with ref := r }) := by
  have hat : ∀ f', (s.setFile f { s.ftable f with ref := r }).ftable f' =
      if f' = f then { s.ftable f with ref := r } else s.ftable f' := by
    intro f'
    by_cases hf : f' = f
    · rw [if_pos hf, hf]
      exact update_self ..
    · rw [if_neg hf]
      exact update_of_ne hf ..
  have howners : (s.setFile f { s.ftable f with ref := r }).owners = s.owners := by
    funext e
    have hset := owners_setFile (s := s) (f := f) { s.ftable f with ref := r } e
    have hopens : File.opens e { s.ftable f with ref := r } = (s.ftable f).opens e := rfl
    omega
  refine ⟨?_, fun f' => ?_, fun f' hf' => ?_, hb.pipes.congr fun f' => ?_⟩
  · rw [howners]
    exact hb.table
  · have href := hb.refs f'
    rw [uses_setFile, hat, hbal f']
    split
    · rename_i hf
      subst hf
      simp only
      omega
    · omega
  · rw [hat] at hf' ⊢
    split
    · rename_i hf
      rw [if_pos hf] at hf'
      exact hr.resolve_left (not_not.mpr hf')
    · rename_i hf
      rw [if_neg hf] at hf'
      exact hb.closed f' hf'
  · rw [hat]
    split
    · rename_i hf
      subst hf
      exact ⟨Iff.rfl, fun _ => ⟨rfl, rfl⟩⟩
    · exact ⟨Iff.rfl, fun _ => ⟨rfl, rfl⟩⟩

end Updates

section Functions

variable {s : State} {bal : Fin nfile → Int} {h : Multiset Token} {f : Fin nfile}
  {j : Fin nproc}

theorem Books.filealloc {s' : State} (hb : Books bal h s)
    (halloc : filealloc s = some (f, s')) :
    Books (bal + Pi.single f 1) h s' ∧ s' = s.setFile f { s.ftable f with ref := 1 } ∧
      (s'.ftable f).type = .none ∧ (s'.ftable f).ref = 1 := by
  obtain ⟨f', hfind, heq⟩ := Option.map_eq_some_iff.mp halloc
  obtain ⟨rfl, rfl⟩ := Prod.mk.inj heq
  have hzero : (s.ftable f').ref = 0 := by simpa using List.find?_some hfind
  have hnone := hb.closed f' hzero
  refine ⟨hb.setRef (.inl one_ne_zero) fun g => ?_, rfl, ?_, ?_⟩
  · by_cases hg : g = f'
    · subst hg
      simp [hzero]
    · simp [hg]
  · simp [State.setFile, hnone]
  · simp [State.setFile]

theorem Books.filedup (hb : Books bal h s) (hpos : 1 ≤ (s.ftable f).ref) :
    Ends (filedup s f) (fun s' => Books (bal + Pi.single f 1) h s' ∧ s'.proc = s.proc) Safe := by
  rw [Files.filedup, if_neg (by omega)]
  refine .ok ⟨hb.setRef (.inl (by omega)) fun g => ?_, rfl⟩
  by_cases hg : g = f
  · subst hg
    simp
  · simp [hg]

theorem PipesOk.ends_close (hp : PipesOk s.ftable s.pipe s.npipe) {x : File}
    (hold : (s.ftable f).type = .pipe) (hnew : x.type ≠ .pipe) (k : Nat) (w : Bool) :
    (∃ g, ((s.setFile f x).ftable g).type = .pipe ∧ ((s.setFile f x).ftable g).pipe = k ∧
      ((s.setFile f x).ftable g).writable = w) ↔
      (∃ g, (s.ftable g).type = .pipe ∧ (s.ftable g).pipe = k ∧ (s.ftable g).writable = w) ∧
        ¬ (k = (s.ftable f).pipe ∧ w = (s.ftable f).writable) := by
  have hself : (s.setFile f x).ftable f = x := update_self ..
  have hother : ∀ g, g ≠ f → (s.setFile f x).ftable g = s.ftable g :=
    fun g hg => update_of_ne hg ..
  constructor
  · rintro ⟨g, htype, hk, hw⟩
    have hg : g ≠ f := by
      rintro rfl
      rw [hself] at htype
      exact hnew htype
    rw [hother g hg] at htype hk hw
    refine ⟨⟨g, htype, hk, hw⟩, fun ⟨hk', hw'⟩ => hg ?_⟩
    exact hp.ends g f htype hold (hk.trans hk') (hw.trans hw')
  · rintro ⟨⟨g, htype, hk, hw⟩, hne⟩
    have hg : g ≠ f := by
      rintro rfl
      exact hne ⟨hk.symm, hw.symm⟩
    refine ⟨g, ?_⟩
    rw [hother g hg]
    exact ⟨htype, hk, hw⟩

theorem PipesOk.close (hp : PipesOk s.ftable s.pipe s.npipe) {x : File}
    (hold : (s.ftable f).type = .pipe) (hnew : x.type ≠ .pipe) :
    PipesOk (s.setFile f x).ftable
      (pipeclose (s.setFile f x) (s.ftable f).pipe (s.ftable f).writable).pipe s.npipe := by
  have hother : ∀ g, g ≠ f → (s.setFile f x).ftable g = s.ftable g :=
    fun g hg => update_of_ne hg ..
  have hne : ∀ g, ((s.setFile f x).ftable g).type = .pipe → g ≠ f := by
    rintro g htype rfl
    have hself : (s.setFile g x).ftable g = x := update_self ..
    rw [hself] at htype
    exact hnew htype
  have hends := hp.ends_close hold hnew
  have hbound := hp.bound f hold
  refine ⟨fun g hg => ?_, fun g g' hg hg' hk hw => ?_, fun k hk => ?_, fun k hk => ?_,
    fun k hk => ?_⟩
  · have h₁ := hne g hg
    rw [hother g h₁] at hg ⊢
    exact hp.bound g hg
  · have h₁ := hne g hg
    have h₂ := hne g' hg'
    rw [hother g h₁] at hg hk hw
    rw [hother g' h₂] at hg' hk hw
    exact hp.ends g g' hg hg' hk hw
  · rw [hends, ← hp.readopen k hk, pipeclose]
    by_cases hkf : k = (s.ftable f).pipe
    · subst hkf
      cases hw : (s.ftable f).writable <;> simp [State.setFile] <;> split <;> simp_all
    · simp [State.setFile, hkf]
  · rw [hends, ← hp.writeopen k hk, pipeclose]
    by_cases hkf : k = (s.ftable f).pipe
    · subst hkf
      cases hw : (s.ftable f).writable <;> simp [State.setFile] <;> split <;> simp_all
    · simp [State.setFile, hkf]
  · rw [pipeclose]
    by_cases hkf : k = (s.ftable f).pipe
    · subst hkf
      have hfrees := hp.frees _ hbound
      cases hw : (s.ftable f).writable with
      | true =>
        have hopen := (hp.writeopen _ hbound).mpr ⟨f, hold, rfl, hw⟩
        rw [hopen] at hfrees
        cases hr : (s.pipe (s.ftable f).pipe).readopen <;> simp_all [State.setFile]
      | false =>
        have hopen := (hp.readopen _ hbound).mpr ⟨f, hold, rfl, hw⟩
        rw [hopen] at hfrees
        cases hr : (s.pipe (s.ftable f).pipe).writeopen <;> simp_all [State.setFile]
    · simp [State.setFile, hkf, hp.frees k hk]

theorem setFile_self (s : State) (f : Fin nfile) (x : File) : (s.setFile f x).ftable f = x :=
  update_self ..

theorem setFile_of_ne {f g : Fin nfile} (h : g ≠ f) (x : File) :
    (s.setFile f x).ftable g = s.ftable g :=
  update_of_ne h ..

theorem Books.shut (hb : Books bal h s) (hone : (s.ftable f).ref = 1) {s₁ : State}
    (hs₁ : s₁ = s.setFile f { s.ftable f with ref := 0, type := .none }) :
    (∀ g, (s₁.ftable g).ref = s₁.uses g + (bal - Pi.single f 1 : Fin nfile → Int) g) ∧
      (∀ g, (s₁.ftable g).ref = 0 → (s₁.ftable g).type = .none) ∧
      ∀ e, s₁.owners e + (s.ftable f).opens e = s.owners e := by
  subst hs₁
  refine ⟨fun g => ?_, fun g hg => ?_, fun e => ?_⟩
  · have href := hb.refs g
    rw [uses_setFile]
    by_cases hgf : g = f
    · subst hgf
      rw [setFile_self, Pi.sub_apply, Pi.single_eq_same]
      simp only
      omega
    · rw [setFile_of_ne hgf, Pi.sub_apply, Pi.single_eq_of_ne hgf, sub_zero]
      exact href
  · by_cases hgf : g = f
    · subst hgf
      rw [setFile_self]
    · rw [setFile_of_ne hgf] at hg ⊢
      exact hb.closed g hg
  · have howners := owners_setFile (s := s) (f := f)
      { s.ftable f with ref := 0, type := .none } e
    have hzero : File.opens e { s.ftable f with ref := 0, type := .none } = 0 := by
      simp [File.opens]
    omega

theorem Books.fileclose (hb : Books bal h s) (hpos : 1 ≤ (s.ftable f).ref) :
    Ends (fileclose s f) (fun s' => Books (bal - Pi.single f 1) h s' ∧ s'.proc = s.proc)
      Safe := by
  rw [Files.fileclose]
  simp only
  rw [if_neg (by omega)]
  split
  · refine .ok ⟨hb.setRef (.inl (by omega)) fun g => ?_, rfl⟩
    by_cases hg : g = f
    · subst hg
      simp
      omega
    · simp [hg]
  · have hone : (s.ftable f).ref = 1 := by omega
    obtain ⟨s₁, hs₁⟩ : ∃ s₁, s₁ = s.setFile f { s.ftable f with ref := 0, type := .none } :=
      ⟨_, rfl⟩
    rw [← hs₁]
    obtain ⟨hrefs, hclosed, howners⟩ := hb.shut hone hs₁
    have hproc : s₁.proc = s.proc := by
      rw [hs₁]
      rfl
    have htable : s₁.table = s.table := by
      rw [hs₁]
      rfl
    have hpipes : (s.ftable f).type ≠ .pipe → PipesOk s₁.ftable s₁.pipe s₁.npipe := by
      intro htype
      rw [hs₁]
      exact hb.pipes.setFile htype (by simp)
    have hsame : (∀ e, (s.ftable f).opens e = 0) → Own s₁.owners h s₁.table := by
      intro hopens
      rw [htable]
      refine hb.table.trade (fun e => ?_) (fun _ => rfl) rfl
      have he := howners e
      rw [hopens e] at he
      omega
    have hinode : (s.ftable f).type = .inode ∨ (s.ftable f).type = .device →
        Ends (s₁.exec (putInode (s.ftable f).ip) >>= fun r => pure r.2)
          (fun s' => Books (bal - Pi.single f 1) h s' ∧ s'.proc = s.proc) Safe := by
      intro htype
      have hown : Own s₁.owners (h + refTo (s.ftable f).ip) s₁.table := by
        rw [htable]
        refine hb.table.trade (fun e => ?_) (fun e => ?_) ?_
        · have he := howners e
          have hopens : (s.ftable f).opens e = if (s.ftable f).ip = some e then 1 else 0 := by
            simp only [File.opens, htype, true_and]
          rw [Multiset.count_add, count_refTo]
          omega
        · rw [Multiset.count_add, count_refTo_lock, add_zero]
        · rw [Multiset.count_add, count_refTo_op, add_zero]
      refine (exec_ends (putInode_uses _) hown).bind fun r hr => ?_
      obtain ⟨_, s'⟩ := r
      obtain ⟨t, rfl, ht⟩ := hr
      rw [add_zero] at ht
      refine .ok ⟨⟨ht, hrefs, hclosed, hpipes ?_⟩, hproc⟩
      rcases htype with h | h <;> rw [h] <;> decide
    cases htype : (s.ftable f).type with
    | none =>
      refine .ok ⟨⟨hsame fun e => ?_, hrefs, hclosed, hpipes ?_⟩, hproc⟩
      · simp [File.opens, htype]
      · rw [htype]
        decide
    | pipe =>
      refine .ok ⟨⟨hsame fun e => ?_, hrefs, hclosed, ?_⟩, hproc⟩
      · simp [File.opens, htype]
      · rw [hs₁]
        exact hb.pipes.close htype (by simp)
    | inode => exact hinode (.inl htype)
    | device => exact hinode (.inr htype)

theorem Books.one_le (hb : Books bal h s) (hpos : 1 ≤ (s.uses f : Int) + bal f) :
    1 ≤ (s.ftable f).ref := by
  rw [hb.refs]
  exact hpos

theorem isFile_some (f g : Fin nfile) :
    (isFile g (some f) : Int) = (Pi.single f 1 : Fin nfile → Int) g := by
  by_cases hg : g = f
  · simp [isFile, hg]
  · simp [isFile, hg, Ne.symm hg]

theorem Vma.maps_used {v : Vma} (hused : v.used = true) (g : Fin nfile) :
    (v.maps g : Int) = (Pi.single v.file 1 : Fin nfile → Int) g := by
  by_cases hg : g = v.file
  · simp [Vma.maps, hg, hused]
  · simp [Vma.maps, hg, Ne.symm hg]

theorem Vma.maps_unused {v : Vma} (hused : v.used = false) (g : Fin nfile) : v.maps g = 0 := by
  simp [Vma.maps, hused]

theorem Books.install {fd : Fin nofile} (hb : Books bal h s)
    (hfd : (s.proc j).ofile fd = none) :
    Books (bal - Pi.single f 1) h (s.setOfile j fd (some f)) := by
  refine hb.setOfile fun g => ?_
  rw [hfd, isFile_some, Pi.sub_apply]
  simp [isFile]

theorem Books.remove {fd : Fin nofile} (hb : Books bal h s)
    (hfd : (s.proc j).ofile fd = some f) :
    Books (bal + Pi.single f 1) h (s.setOfile j fd none) := by
  refine hb.setOfile fun g => ?_
  rw [hfd, isFile_some, Pi.add_apply]
  simp [isFile, add_comm]

theorem Books.map {i : Fin maxvma} {v : Vma} (hb : Books bal h s)
    (hold : ((s.proc j).vmas i).used = false) (hnew : v.used = true) :
    Books (bal - Pi.single v.file 1) h (s.setVma j i v) := by
  refine hb.setVma fun g => ?_
  rw [Vma.maps_used hnew, Vma.maps_unused hold, Pi.sub_apply]
  simp

theorem Books.unmap {i : Fin maxvma} {v : Vma} (hb : Books bal h s)
    (hold : ((s.proc j).vmas i).used = true) (hnew : v.used = false) :
    Books (bal + Pi.single ((s.proc j).vmas i).file 1) h (s.setVma j i v) := by
  refine hb.setVma fun g => ?_
  rw [Vma.maps_used hold, Vma.maps_unused hnew, Pi.add_apply]
  simp [add_comm]

theorem uses_pos (hpos : 0 < (s.proc j).uses f) : 0 < s.uses f :=
  tally_pos.mpr ⟨j, mem_univ j, hpos⟩

theorem uses_pos_of_ofile {fd : Fin nofile} (hfd : (s.proc j).ofile fd = some f) :
    0 < s.uses f := by
  refine uses_pos (j := j) (Nat.add_pos_left (tally_pos.mpr ⟨fd, mem_univ fd, ?_⟩) _)
  simp [isFile, hfd]

theorem uses_pos_of_vma {i : Fin maxvma} (hused : ((s.proc j).vmas i).used = true) :
    0 < s.uses ((s.proc j).vmas i).file := by
  refine uses_pos (j := j) (Nat.add_pos_right _ (tally_pos.mpr ⟨i, mem_univ i, ?_⟩))
  simp [Vma.maps, hused]

theorem Books.setInodeFile {x : File} {e : Entry} (hb : Books bal (h + ref e) s)
    (hold : (s.ftable f).type = .none) (href : x.ref = (s.ftable f).ref)
    (hzero : x.ref ≠ 0) (htype : x.type = .inode ∨ x.type = .device) (hip : x.ip = some e) :
    Books bal h (s.setFile f x) := by
  refine ⟨hb.table.trade (fun e' => ?_) (fun e' => ?_) ?_, fun g => ?_, fun g hg => ?_,
    hb.pipes.setFile (by rw [hold]; decide) ?_⟩
  · have howners := owners_setFile (s := s) (f := f) x e'
    have hx : x.opens e' = if e' = e then 1 else 0 := by
      simp only [File.opens, htype, hip, true_and, Option.some_inj]
      rw [if_congr eq_comm rfl rfl]
    have hf : (s.ftable f).opens e' = 0 := by
      simp [File.opens, hold]
    rw [Multiset.count_add, count_ref_ref]
    omega
  · simp
  · simp
  · rw [uses_setFile, ← hb.refs g]
    by_cases hg : g = f
    · subst hg
      simp [State.setFile, href]
    · simp [State.setFile, hg]
  · by_cases hgf : g = f
    · subst hgf
      have hself : (s.setFile g x).ftable g = x := update_self ..
      rw [hself] at hg
      exact absurd hg hzero
    · have hsame : (s.setFile f x).ftable g = s.ftable g := update_of_ne hgf ..
      rw [hsame] at hg ⊢
      exact hb.closed g hg
  · rcases htype with h | h <;> rw [h] <;> decide

end Functions

end EafitOs.Files
