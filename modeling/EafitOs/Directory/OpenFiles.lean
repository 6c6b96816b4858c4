import EafitOs.Directory.Unlink

/-!
# Open files and current directories

Opening, closing, changing directory, forking and exiting move references between the
running call, the file table and the processes.
-/

namespace EafitOs.Directory

open Foundation Function List

section Users

variable {s : State} {i : Nat}

theorem users_setFile (f : Fin nfile) (x : File) (i : Nat) :
    (s.setFile f x).users i + (s.ftable f).opens i =
      s.users i + x.opens i := by
  have h := tally_update (g := File.opens i) (f := s.ftable) (a := x) (Finset.mem_univ f)
  simp only [State.users, State.setFile]
  omega

theorem users_setSlot (j : Fin nproc) (sl : Slot) (i : Nat) :
    (s.setSlot j sl).users i + (s.slot j).sitsIn i =
      s.users i + sl.sitsIn i := by
  have h := tally_update (g := Slot.sitsIn i) (f := s.slot) (a := sl) (Finset.mem_univ j)
  simp only [State.users, State.setSlot]
  omega

theorem users_pos_of_cwd {j : Fin nproc} {p : Proc} (h : s.slot j = .live p) :
    0 < s.users p.cwd := by
  have hpos : 0 < tally Finset.univ (Slot.sitsIn p.cwd) s.slot := by
    refine tally_pos.mpr ⟨j, Finset.mem_univ j, ?_⟩
    rw [h]
    simp [Slot.sitsIn, Slot.cwd?]
  rw [State.users]
  omega

theorem exists_user (h : 0 < s.users i) :
    (∃ f, (s.ftable f).type ≠ .none ∧ (s.ftable f).ip = i) ∨
      ∃ j p, s.slot j = .live p ∧ p.cwd = i := by
  rw [State.users] at h
  by_cases hfile : 0 < tally Finset.univ (File.opens i) s.ftable
  · obtain ⟨f, -, hf⟩ := tally_pos.mp hfile
    refine .inl ⟨f, ?_⟩
    by_contra hno
    rw [File.opens, if_neg hno] at hf
    exact absurd hf (by decide)
  · obtain ⟨j, -, hj⟩ := tally_pos.mp (show 0 < tally Finset.univ (Slot.sitsIn i) s.slot by omega)
    rw [Slot.sitsIn] at hj
    split at hj
    · rename_i hcwd
      cases hslot : s.slot j with
      | live p =>
        rw [hslot] at hcwd
        exact .inr ⟨j, p, hslot, Option.some.inj hcwd⟩
      | unused => rw [hslot] at hcwd; cases hcwd
      | zombie => rw [hslot] at hcwd; cases hcwd
    · exact absurd hj (by decide)

end Users

section Specs

variable {strict : Prop} {P : (Nat → Inode) → Prop} {s s' : State} {held held' : List Nat}

theorem Counted.rebase (h : Counted held s) (hinode : s'.inode = s.inode) (href : s'.ref = s.ref)
    (hvalid : s'.valid = s.valid)
    (husers : ∀ i, s'.users i + held'.count i = s.users i + held.count i)
    (hused : ∀ i, 0 < s'.users i → 0 < s.users i ∨ (s.inode i).type ≠ .free)
    (hfiles : ∀ f, (s'.ftable f).ref = 0 → (s'.ftable f).type = .none) : Counted held' s' where
  count := fun i => by
    rw [href, h.count, husers]
  typed := by
    rw [href, hvalid, hinode]
    exact h.typed
  used := fun i hi => by
    rw [hinode]
    exact (hused i hi).elim (h.used i) id
  files := hfiles

theorem iput_setSlot (j : Fin nproc) (sl : Slot) (i : Nat) :
    (iput s i).setSlot j sl = iput (s.setSlot j sl) i := by
  have hsame : (s.setSlot j sl).ref i = s.ref i ∧ (s.setSlot j sl).valid i = s.valid i ∧
      (s.setSlot j sl).inode i = s.inode i := ⟨rfl, rfl, rfl⟩
  rw [iput, iput, hsame.1, hsame.2.1, hsame.2.2]
  split <;> rfl

theorem Sound.setFile (h : Sound P held s) {f : Fin nfile} {x : File}
    (hopens : ∀ i, x.opens i = (s.ftable f).opens i) (hx : x.ref = 0 → x.type = .none) :
    Sound P held (s.setFile f x) := by
  have husers : ∀ i, (s.setFile f x).users i = s.users i := by
    intro i
    have hset := users_setFile (s := s) f x i
    rw [hopens i] at hset
    omega
  refine ⟨h.table, h.counted.rebase rfl rfl rfl (fun i => by rw [husers])
    (fun i hi => .inl (husers i ▸ hi)) fun g hg => ?_, h.kept⟩
  by_cases hgf : g = f
  · subst hgf
    simp only [State.setFile, update_self] at hg ⊢
    exact hx hg
  · simp only [State.setFile, ne_eq, hgf, not_false_eq_true, update_of_ne] at hg ⊢
    exact h.counted.files g hg

theorem Sound.setSlot (h : Sound P held s) {j : Fin nproc} {sl : Slot}
    (hcwd : sl.cwd? = (s.slot j).cwd?) : Sound P held (s.setSlot j sl) := by
  have husers : ∀ i, (s.setSlot j sl).users i = s.users i := by
    intro i
    have hset := users_setSlot (s := s) j sl i
    simp only [Slot.sitsIn, hcwd] at hset
    omega
  exact ⟨h.table, h.counted.rebase rfl rfl rfl (fun i => by rw [husers])
    (fun i hi => .inl (husers i ▸ hi)) h.counted.files, h.kept⟩

theorem Sound.filealloc {f : Fin nfile} (h : Sound P held s)
    (hf : filealloc s = some (f, s')) :
    Sound P held s' ∧ s'.slot = s.slot ∧ s'.inode = s.inode ∧
      (s'.ftable f).type = .none ∧ (s'.ftable f).ref = 1 := by
  rw [Directory.filealloc] at hf
  obtain ⟨g, hg, heq⟩ := Option.map_eq_some_iff.mp hf
  obtain ⟨rfl, rfl⟩ := Prod.mk.inj heq
  have href : (s.ftable g).ref = 0 := by simpa using List.find?_some hg
  have hnone := h.counted.files g href
  refine ⟨h.setFile (fun i => rfl) (fun h0 => absurd h0 Nat.one_ne_zero), rfl, rfl, ?_, ?_⟩
  · simp only [State.setFile, update_self, hnone]
  · simp only [State.setFile, update_self]

theorem Sound.filedup (h : Sound P held s) (f : Fin nfile) :
    Ends (filedup s f) (fun s' => Sound P held s' ∧ s'.slot = s.slot ∧ s'.ref = s.ref)
      (Avoids strict) := by
  rw [Directory.filedup]
  split
  · exact .error ⟨by decide, fun _ => by decide⟩
  · exact .ok ⟨h.setFile (fun i => rfl) fun h0 => absurd h0 (Nat.succ_ne_zero _), rfl, rfl⟩

theorem Sound.fileclose [Settled P] (h : Sound P [] s) (f : Fin nfile) :
    Ends (fileclose s f) (fun s' => Sound P [] s' ∧ s'.slot = s.slot) (Avoids strict) := by
  rw [Directory.fileclose]
  simp only
  split
  · exact .error ⟨by decide, fun _ => by decide⟩
  · split
    · rename_i hmany
      exact .ok ⟨h.setFile (fun i => rfl) fun h0 => absurd h0 hmany.ne', rfl⟩
    · split
      · rename_i hnone
        refine .ok ⟨h.setFile (fun i => ?_) fun _ => rfl, rfl⟩
        simp [File.opens, hnone]
      · -- the last reference of an open file becomes a reference of the call
        rename_i hopen
        have husers : ∀ i, (s.setFile f { s.ftable f with ref := 0, type := .none }).users i +
            [(s.ftable f).ip].count i = s.users i := by
          intro i
          have hset := users_setFile (s := s) f { s.ftable f with ref := 0, type := .none } i
          simp only [File.opens, hopen, ne_eq, not_true_eq_false, false_and, if_false,
            not_false_eq_true, true_and] at hset
          simp only [count_singleton, beq_iff_eq]
          omega
        have hc : Counted [(s.ftable f).ip]
            (s.setFile f { s.ftable f with ref := 0, type := .none }) := by
          refine h.counted.rebase rfl rfl rfl (fun i => ?_) (fun i hi => .inl ?_) fun g hg => ?_
          · rw [husers, count_nil, Nat.add_zero]
          · have hi' := husers i
            omega
          · by_cases hgf : g = f
            · simp only [hgf, State.setFile, update_self]
            · simp only [State.setFile, ne_eq, hgf, not_false_eq_true, update_of_ne]
                at hg ⊢
              exact h.counted.files g hg
        exact .ok (Sound.iput ⟨h.table, hc, h.kept⟩)

theorem Sound.foldFiles {f : State → Fin nfile → Except String State} {files : List (Fin nfile)}
    (h : Sound P held s)
    (hf : ∀ s g, Sound P held s →
      Ends (f s g) (fun s' => Sound P held s' ∧ s'.slot = s.slot) (Avoids strict)) :
    Ends (files.foldlM f s) (fun s' => Sound P held s' ∧ s'.slot = s.slot)
      (Avoids strict) := by
  refine Ends.foldlM (fun t => Sound P held t ∧ t.slot = s.slot) ⟨h, rfl⟩ ?_
  exact fun g _ t ht => (hf t g ht.1).imp fun t' ht' => ⟨ht'.1, ht'.2.trans ht.2⟩

section Calls

variable {j : Fin nproc} {p : Proc}

theorem Sound.openInode [Settled P] {path : Path} {omode : Nat} {cwd : Nat} (h : Sound P [] s)
    (hw : Walkable strict [] s cwd)
    (hcreate : omode &&& oCreate ≠ 0 →
      Ends (Directory.create s cwd path .file 0) (Made P s.inode s) (Avoids strict)) :
    Ends (openInode s cwd path omode) (fun r => Sound P r.1.toList r.2 ∧
      r.2.slot = s.slot ∧ ∀ i ∈ r.1, (r.2.inode i).type ≠ .free) (Avoids strict) := by
  rw [Directory.openInode]
  split
  · exact (hcreate ‹_›).imp fun r hr => ⟨hr.sound, hr.slot, hr.typed⟩
  · refine hw.namei.bind fun r hr => ?_
    obtain ⟨found, s₁⟩ := r
    obtain ⟨ht₁, hc₁, hfound⟩ := hr
    cases found with
    | none => exact .ok ⟨h.touch ht₁ hc₁, ht₁.slot, by rintro i ⟨⟩⟩
    | some ip =>
      refine (hc₁.ilock (ht₁.inode ▸ (hfound ip rfl).2)).bind fun s₂ hs₂ => ?_
      obtain ⟨ht₂, hc₂, _, htyped⟩ := hs₂
      have ht := ht₁.trans ht₂
      have h₂ : Sound P [ip] s₂ := h.touch ht hc₂
      split
      · exact .ok ⟨h₂.iput.1, h₂.iput.2.trans ht.slot, by rintro i ⟨⟩⟩
      · refine .ok ⟨h₂, ht.slot, ?_⟩
        rintro i ⟨⟩
        rw [ht₂.inode]
        exact htyped

theorem Sound.openFile [Settled P] {ip : Nat} (h : Sound P [ip] s) (hslot : s.slot j = .live p)
    (hip : (s.inode ip).type ≠ .free) :
    Ends (openFile s j p ip) (fun r => Sound P [] r.2) (Avoids strict) := by
  rw [Directory.openFile]
  split
  · exact .ok h.iput.1
  · rename_i f s₁ halloc
    obtain ⟨h₁, hslot₁, hinode₁, hnone, href⟩ := h.filealloc halloc
    split
    · -- the fresh entry has no inode, so closing it keeps the reference of the call
      have hclose : Directory.fileclose s₁ f =
          .ok (s₁.setFile f { s₁.ftable f with ref := 0, type := .none }) := by
        rw [Directory.fileclose, href]
        simp [hnone]
      rw [hclose]
      have h₂ : Sound P [ip] (s₁.setFile f { s₁.ftable f with ref := 0, type := .none }) := by
        refine h₁.setFile (fun i => ?_) fun _ => rfl
        simp [File.opens, hnone]
      exact .ok h₂.iput.1
    · rename_i fd _
      simp only
      have htype : (if (s₁.inode ip).type = .device then FileType.device else FileType.inode) ≠
          .none := by
        split <;> decide
      generalize (if (s₁.inode ip).type = .device then FileType.device else FileType.inode) =
        type at htype ⊢
      have husers : ∀ i, (s₁.setFile f { s₁.ftable f with type := type, ip := ip }).users i =
          s₁.users i + [ip].count i := by
        intro i
        have hset := users_setFile (s := s₁) f { s₁.ftable f with type := type, ip := ip } i
        simp only [File.opens, hnone, htype, ne_eq, not_true_eq_false, false_and, if_false,
          not_false_eq_true, true_and, Nat.add_zero] at hset
        rw [hset, count_singleton]
        simp only [beq_iff_eq]
      have h₂ : Sound P [] (s₁.setFile f { s₁.ftable f with type := type, ip := ip }) := by
        refine ⟨h₁.table, h₁.counted.rebase rfl rfl rfl (fun i => ?_) (fun i hi => ?_)
          (fun g hg => ?_), h₁.kept⟩
        · rw [husers, count_nil, Nat.add_zero]
        · by_cases hi' : i = ip
          · refine .inr ?_
            rw [hi', hinode₁]
            exact hip
          · refine .inl ?_
            rw [husers, count_singleton, if_neg (by simpa using Ne.symm hi'),
              Nat.add_zero] at hi
            exact hi
        · by_cases hgf : g = f
          · subst hgf
            simp only [State.setFile, update_self, href] at hg
            exact absurd hg Nat.one_ne_zero
          · simp only [State.setFile, ne_eq, hgf, not_false_eq_true, update_of_ne] at hg ⊢
            exact h₁.counted.files g hg
      refine .ok (h₂.setSlot ?_)
      change _ = (s₁.slot j).cwd?
      rw [hslot₁, hslot]
      rfl

theorem Sound.sysOpen [Settled P] {path : Path} {omode : Nat} (h : Sound P [] s)
    (hw : Walkable strict [] s p.cwd) (hslot : s.slot j = .live p)
    (hcreate : omode &&& oCreate ≠ 0 →
      Ends (Directory.create s p.cwd path .file 0) (Made P s.inode s) (Avoids strict)) :
    Ends (sysOpen s j p path omode) (fun r => Sound P [] r.2) (Avoids strict) := by
  refine (h.openInode hw hcreate).bind fun r hr => ?_
  obtain ⟨found, s₁⟩ := r
  obtain ⟨h₁, hslot₁, htyped⟩ := hr
  cases found with
  | none => exact .ok h₁
  | some ip =>
    simp only
    split
    · exact .ok (Sound.iput h₁).1
    · exact Sound.openFile h₁ (by rw [hslot₁, hslot]) (htyped ip rfl)

theorem sysMake_done [Settled P] {path : Path} {type : InodeType} {major : Int} {cwd : Nat}
    (hcreate : Ends (create s cwd path type major) (Made P s.inode s) (Avoids strict)) :
    Ends (sysMake s cwd path type major) (Done P s) (Avoids strict) := by
  refine hcreate.bind fun r hr => ?_
  obtain ⟨found, s₁⟩ := r
  cases found with
  | none => exact .ok ⟨hr.sound, hr.slot, fun _ => hr.clean rfl⟩
  | some ip =>
    obtain ⟨h₁, hslot₁⟩ := Sound.iput hr.sound
    exact .ok ⟨h₁, hslot₁.trans hr.slot, nofun⟩

theorem Sound.moveCwd [Settled P] {sl : Slot} (h : Sound P held s) (hslot : s.slot j = .live p)
    (hsits : ∀ i, sl.sitsIn i = held.count i) (htyped : ∀ i ∈ held, (s.inode i).type ≠ .free) :
    Sound P [] (Directory.iput (s.setSlot j sl) p.cwd) := by
  have hset : ∀ i, (s.setSlot j sl).users i + [p.cwd].count i = s.users i + held.count i := by
    intro i
    have hset := users_setSlot (s := s) j sl i
    rw [hslot, hsits] at hset
    simpa [Slot.sitsIn, Slot.cwd?, count_singleton] using hset
  have hc : Counted [p.cwd] (s.setSlot j sl) := by
    refine h.counted.rebase rfl rfl rfl hset (fun i hi => ?_) h.counted.files
    by_cases hmem : i ∈ held
    · exact .inr (htyped i hmem)
    · have hi' := hset i
      rw [count_eq_zero_of_not_mem hmem] at hi'
      exact .inl (by omega)
  exact (Sound.iput (s := s.setSlot j sl) ⟨h.table, hc, h.kept⟩).1

theorem Sound.sysChdir [Settled P] {path : Path} (h : Sound P [] s)
    (hw : Walkable strict [] s p.cwd) (hslot : s.slot j = .live p) :
    Ends (sysChdir s j p path) (fun r => Sound P [] r.2) (Avoids strict) := by
  refine hw.namei.bind fun r hr => ?_
  obtain ⟨found, s₁⟩ := r
  obtain ⟨ht₁, hc₁, hfound⟩ := hr
  cases found with
  | none => exact .ok (h.touch ht₁ hc₁)
  | some ip =>
    refine (hc₁.ilock (ht₁.inode ▸ (hfound ip rfl).2)).bind fun s₂ hs₂ => ?_
    obtain ⟨ht₂, hc₂, _, htyped⟩ := hs₂
    have ht := ht₁.trans ht₂
    have h₂ : Sound P [ip] s₂ := h.touch ht hc₂
    split
    · exact .ok h₂.iput.1
    · rw [iput_setSlot]
      refine .ok (h₂.moveCwd (ht.slot ▸ hslot) (fun i => ?_) fun i hi => ?_)
      · simp [Slot.sitsIn, Slot.cwd?, count_singleton]
      · rw [mem_singleton.mp hi, ht₂.inode]
        exact htyped

theorem Sound.sysClose [Settled P] {fd : Fin nofile} (h : Sound P [] s)
    (hslot : s.slot j = .live p) :
    Ends (sysClose s j p fd) (fun r => Sound P [] r.2) (Avoids strict) := by
  rw [Directory.sysClose]
  split
  · exact .ok h
  · refine ((h.setSlot ?_).fileclose _).bind fun s' hs' => .ok hs'.1
    rw [hslot]
    rfl

theorem Sound.kfork (h : Sound P [] s) (hslot : s.slot j = .live p) :
    Ends (kfork s p) (fun r => Sound P [] r.2) (Avoids strict) := by
  rw [Directory.kfork]
  split
  · exact .ok h
  · rename_i i hfind
    have hunused : s.slot i = .unused := by
      have hmatch := List.find?_some hfind
      cases hi : s.slot i with
      | unused => rfl
      | live q => simp [hi] at hmatch
      | zombie => simp [hi] at hmatch
    refine (h.foldFiles fun t g ht => (ht.filedup g).imp fun t' ht' => ⟨ht'.1, ht'.2.1⟩).bind
      fun s₁ ⟨h₁, hslot₁⟩ => ?_
    have hcwd : 0 < s₁.users p.cwd := users_pos_of_cwd (hslot₁ ▸ hslot)
    have href : 0 < s₁.ref p.cwd := by
      have hcount := h₁.counted.count p.cwd
      omega
    obtain ⟨ht₂, hc₂⟩ := h₁.counted.idup href
    have h₂ : Sound P [p.cwd] (Directory.idup s₁ p.cwd) := h₁.touch ht₂ hc₂
    have hset : ∀ k, ((Directory.idup s₁ p.cwd).setSlot i (.live p)).users k =
        (Directory.idup s₁ p.cwd).users k + [p.cwd].count k := by
      intro k
      have hset := users_setSlot (s := Directory.idup s₁ p.cwd) i (.live p) k
      have hold : (Directory.idup s₁ p.cwd).slot i = .unused := by
        rw [ht₂.slot, hslot₁, hunused]
      rw [hold] at hset
      simp only [Slot.sitsIn, Slot.cwd?, reduceCtorEq, if_false, Nat.add_zero,
        Option.some.injEq] at hset
      rw [hset, count_singleton]
      simp only [beq_iff_eq]
    refine .ok ⟨h₂.table, h₂.counted.rebase rfl rfl rfl (fun k => ?_) (fun k hk => ?_)
      h₂.counted.files, h₂.kept⟩
    · rw [hset, count_nil, Nat.add_zero]
    · by_cases hk' : k = p.cwd
      · refine .inr ?_
        rw [hk', ht₂.inode]
        exact h₁.counted.used _ hcwd
      · rw [hset, count_singleton, if_neg (by simpa using Ne.symm hk'), Nat.add_zero] at hk
        exact .inl hk

theorem Sound.kexit [Settled P] (h : Sound P [] s) (hslot : s.slot j = .live p) :
    Ends (kexit s j p) (fun r => Sound P [] r.2) (Avoids strict) := by
  rw [Directory.kexit]
  split
  · exact .error ⟨by decide, fun _ => by decide⟩
  · refine (h.foldFiles fun t g ht => ht.fileclose g).bind fun s₁ hs₁ => ?_
    obtain ⟨h₁, hslot₁⟩ := hs₁
    rw [iput_setSlot]
    exact .ok (h₁.moveCwd (hslot₁ ▸ hslot) (fun i => by simp [Slot.sitsIn, Slot.cwd?]) (by simp))

end Calls

end Specs

end EafitOs.Directory
