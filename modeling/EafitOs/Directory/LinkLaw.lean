import EafitOs.Directory.OpenFiles

/-!
# The link-count law

In every run from a fresh image that puts no name into a removed directory and
overflows no link count, link counts are the numbers of entries and an inode without
links is in use. If it also removes no parent of a removed directory, every entry
refers to the inode it was made for.
-/

namespace EafitOs.Directory

open Foundation List Option

/-- The inode that following the path of a call from its process finds. -/
def State.target (s : State) (j : Fin nproc) (arg : Path) : Option Nat :=
  (s.slot j).cwd?.bind fun cwd => (argstr arg).bind fun path =>
    follow s.inode (start cwd path) path.elements

/-- The directory that the last element of the path of a call is a name in. -/
def State.parentOf (s : State) (j : Fin nproc) (arg : Path) : Option Nat :=
  (s.slot j).cwd?.bind fun cwd => (argstr arg).bind fun path =>
    follow s.inode (start cwd path) path.elements.dropLast

/-- No name is put into a removed directory, and no link count grows past `maxLinks`. -/
def LinkSafe (s : State) : Act → Prop
  | .call j (.open path omode) => omode &&& oCreate ≠ 0 →
      ∀ d ∈ s.parentOf j path, 0 < (s.inode d).nlink
  | .call j (.mkdir path) =>
    ∀ d ∈ s.parentOf j path, 0 < (s.inode d).nlink ∧ (s.inode d).nlink < maxLinks
  | .call j (.mknod path _) => ∀ d ∈ s.parentOf j path, 0 < (s.inode d).nlink
  | .call j (.link old new) => (∀ i ∈ s.target j old, (s.inode i).nlink < maxLinks) ∧
      ∀ d ∈ s.parentOf j new, 0 < (s.inode d).nlink
  | _ => True

/-- The directory a removed directory has as its parent is not removed. -/
def ParentSafe (s : State) : Act → Prop
  | .call j (.unlink path) => ∀ c ∈ s.target j path, ∀ d < ninodes,
      (s.inode d).type = .dir → (s.inode d).nlink = 0 → (s.inode d).parent ≠ c
  | _ => True

instance (s : State) : (a : Act) → Decidable (LinkSafe s a)
  | .call j (.open path omode) => inferInstanceAs (Decidable (omode &&& oCreate ≠ 0 →
      ∀ d ∈ s.parentOf j path, 0 < (s.inode d).nlink))
  | .call j (.mkdir path) => inferInstanceAs (Decidable
      (∀ d ∈ s.parentOf j path, 0 < (s.inode d).nlink ∧ (s.inode d).nlink < maxLinks))
  | .call j (.mknod path _) => inferInstanceAs (Decidable
      (∀ d ∈ s.parentOf j path, 0 < (s.inode d).nlink))
  | .call j (.link old new) => inferInstanceAs (Decidable
      ((∀ i ∈ s.target j old, (s.inode i).nlink < maxLinks) ∧
        ∀ d ∈ s.parentOf j new, 0 < (s.inode d).nlink))
  | .call _ (.unlink _) | .call _ (.chdir _) | .call _ (.close _) | .call _ .fork
  | .call _ .exit | .reap _ => isTrue trivial

instance (s : State) : (a : Act) → Decidable (ParentSafe s a)
  | .call j (.unlink path) => inferInstanceAs (Decidable
      (∀ c ∈ s.target j path, ∀ d < ninodes,
        (s.inode d).type = .dir → (s.inode d).nlink = 0 → (s.inode d).parent ≠ c))
  | .call _ (.open _ _) | .call _ (.mkdir _) | .call _ (.mknod _ _) | .call _ (.link _ _)
  | .call _ (.chdir _) | .call _ (.close _) | .call _ .fork | .call _ .exit
  | .reap _ => isTrue trivial

def NameSafe (strict : Prop) (s : State) (a : Act) : Prop :=
  LinkSafe s a ∧ (strict → ParentSafe s a)

section Runs

variable {strict : Prop} {P : (Nat → Inode) → Prop} {s s' : State} {j : Fin nproc} {p : Proc}
  {a : Act}

theorem mem_target {arg path : Path} {i : Nat} (hslot : s.slot j = .live p)
    (harg : argstr arg = some path)
    (hi : i ∈ follow s.inode (start p.cwd path) path.elements) : i ∈ s.target j arg := by
  rw [State.target, hslot, harg]
  exact hi

theorem mem_parentOf {arg path : Path} {d : Nat} (hslot : s.slot j = .live p)
    (harg : argstr arg = some path)
    (hd : d ∈ follow s.inode (start p.cwd path) path.elements.dropLast) :
    d ∈ s.parentOf j arg := by
  rw [State.parentOf, hslot, harg]
  exact hd

theorem Sound.withPath {arg : Path} {body : Path → Except String (Int × State)}
    (h : Sound P [] s)
    (hbody : ∀ path, argstr arg = some path →
      Ends (body path) (fun r => Sound P [] r.2) (Avoids strict)) :
    Ends (withPath s arg body) (fun r => Sound P [] r.2) (Avoids strict) := by
  rw [Directory.withPath]
  split
  · exact .ok h
  · exact hbody _ ‹_›

theorem Sound.run {c : Call} (h : Sound (Tree strict) [] s) (hslot : s.slot j = .live p)
    (hsafe : NameSafe strict s (.call j c)) :
    Ends (c.run s j p) (fun r => Sound (Tree strict) [] r.2) (Avoids strict) := by
  have hcwd := users_pos_of_cwd hslot
  have hw := h.walkable hcwd
  obtain ⟨hlink, hparent⟩ := hsafe
  cases c with
  | «open» arg omode =>
    refine h.withPath fun path harg => h.sysOpen hw hslot fun hcreate =>
      h.create hw (by decide) fun d hd ip name g hv => ?_
    exact h.table.created hv (by decide) (hlink hcreate d (mem_parentOf hslot harg hd)) nofun
  | mkdir arg =>
    refine h.withPath fun path harg => (sysMake_done (h.create hw (by decide)
      fun d hd ip name g hv => ?_)).imp fun r hr => hr.sound
    have hd' := hlink d (mem_parentOf hslot harg hd)
    exact h.table.created hv (by decide) hd'.1 fun _ => hd'.2
  | mknod arg major =>
    refine h.withPath fun path harg => (sysMake_done (h.create hw (by decide)
      fun d hd ip name g hv => ?_)).imp fun r hr => hr.sound
    exact h.table.created hv (by decide) (hlink d (mem_parentOf hslot harg hd)) nofun
  | link old new =>
    refine h.withPath fun oldPath hold => h.withPath fun newPath hnew =>
      (h.sysLink hw fun ip hip hfree hdir dp hdp name hd habsent => ?_).imp fun r hr => hr.sound
    exact h.table.linked hfree hdir (hlink.1 ip (mem_target hslot hold hip))
      ⟨hd, hlink.2 dp (mem_parentOf hslot hnew hdp)⟩ habsent
  | unlink arg =>
    refine h.withPath fun path harg => ?_
    refine (h.unlinkTree hcwd fun hs c hc d hd hzero => ?_).imp fun r hr => hr.sound
    have hrange := (h.table.range d (by rw [hd]; decide)).2
    exact hparent hs c (mem_target hslot harg hc) d hrange hd hzero
  | chdir arg => exact h.withPath fun path _ => h.sysChdir hw hslot
  | close fd => exact h.sysClose hslot
  | fork => exact h.kfork hslot
  | exit => exact h.kexit hslot

theorem Sound.step {E : String → Prop} (h : Sound P [] s)
    (hrun : ∀ j p c, a = .call j c → s.slot j = .live p →
      Ends (c.run s j p) (fun r => Sound P [] r.2) E) (hstep : s.step a = some s') :
    Sound P [] s' ∧ ∀ e ∈ s'.panic, e ∈ s.panic ∨ E e := by
  have hpanic : ∀ {s : State} (e : Option String), Sound P [] s →
      Sound P [] { s with panic := e } := fun e h =>
    ⟨h.table, ⟨h.counted.count, h.counted.typed, h.counted.used, h.counted.files⟩, h.kept⟩
  unfold State.step at hstep
  split at hstep
  · cases hstep
  · cases a with
    | call j c =>
      cases hslot : s.slot j with
      | live p =>
        simp only [hslot, some.injEq] at hstep
        cases hr : c.run s j p with
        | ok r =>
          obtain ⟨v, t⟩ := r
          rw [← hstep, hr]
          exact ⟨hpanic none ((hrun j p c rfl hslot).of_eq_ok hr), by rintro e ⟨⟩⟩
        | error msg =>
          rw [← hstep, hr]
          refine ⟨hpanic _ h, ?_⟩
          rintro e ⟨⟩
          exact .inr ((hrun j p c rfl hslot).of_eq_error hr)
      | unused => simp [hslot] at hstep
      | zombie => simp [hslot] at hstep
    | reap j =>
      cases hslot : s.slot j with
      | zombie =>
        simp only [hslot, some.injEq] at hstep
        rw [← hstep]
        exact ⟨h.setSlot (by rw [hslot]; rfl), fun e => .inl⟩
      | unused => simp [hslot] at hstep
      | live p => simp [hslot] at hstep

theorem Sound.exists_use {i : Nat} (h : Sound P [] s) (hi : (s.inode i).type ≠ .free)
    (hzero : (s.inode i).nlink = 0) :
    (∃ f, 0 < (s.ftable f).ref ∧ (s.ftable f).type ≠ .none ∧ (s.ftable f).ip = i) ∨
      ∃ j p, s.slot j = .live p ∧ p.cwd = i := by
  have huser : 0 < s.users i := by
    simpa using h.stays i hi hzero
  obtain ⟨f, hf⟩ | hcwd := exists_user huser
  · refine .inl ⟨f, Nat.pos_of_ne_zero fun href => ?_, hf⟩
    exact hf.1 (h.counted.files f href)
  · exact .inr hcwd

/-- The invariant of whole runs: the state between calls is sound, and a machine that
stopped did not stop in one of the panics to avoid. -/
structure Steady (strict : Prop) (s : State) : Prop where
  sound : Sound (Tree strict) [] s
  avoids : ∀ e ∈ s.panic, Avoids strict e

theorem Steady.step (h : Steady strict s) (hsafe : NameSafe strict s a)
    (hstep : s.step a = some s') : Steady strict s' := by
  obtain ⟨hsound, hpanic⟩ := h.sound.step
    (fun j p c ha hslot => h.sound.run hslot (ha ▸ hsafe)) hstep
  exact ⟨hsound, fun e he => (hpanic e he).elim (h.avoids e) id⟩

end Runs

section Fresh

variable {names : List Name}

theorem countP_files {p : Dirent → Bool} {i : Nat}
    (hp : ∀ k, ∀ name ∈ names, p ⟨k, name, 0⟩ = decide (k = i)) (k : Nat) :
    ((names.zipIdx k).map fun (name, k) => Dirent.mk (k + 2) name 0).countP p =
      if k + 2 ≤ i ∧ i < k + 2 + names.length then 1 else 0 := by
  induction names generalizing k with
  | nil =>
    have hno : ¬ (k + 2 ≤ i ∧ i < k + 2) := by omega
    simp [hno]
  | cons name names ih =>
    have hrest := ih (fun k' name' hname' => hp k' name' (mem_cons_of_mem _ hname')) (k + 1)
    simp only [zipIdx_cons, map_cons, countP_cons, hrest,
      hp (k + 2) name mem_cons_self, decide_eq_true_eq, length_cons]
    by_cases hi : k + 2 = i
    · rw [if_neg (by omega), if_pos hi, if_pos (by omega)]
    · rw [if_neg hi, Nat.add_zero]
      congr 1
      exact propext (by omega)

theorem live_mkfs_root : (mkfs names rootino).Live :=
  ⟨rfl, show (0 : Int) < 1 by decide⟩

theorem tally_mkfs (p : Dirent → Bool) :
    tally (Finset.range ninodes) (Inode.matching p) (mkfs names) =
      (mkfs names rootino).entries.countP p := by
  rw [tally, Finset.sum_eq_single rootino]
  · exact matching_of_live live_mkfs_root
  · intro i _ hi
    refine matching_of_not_live (not_live_of_type ?_)
    rw [mkfs, if_neg hi]
    split <;> decide
  · exact fun h => absurd (Finset.mem_range.mpr (by decide)) h

theorem mkfs_root : ∃ pad, (mkfs names rootino).entries =
    ⟨rootino, dot, 0⟩ :: ⟨rootino, dotdot, 0⟩ ::
      ((names.zipIdx.map fun (name, k) => Dirent.mk (k + 2) name 0) ++
        List.replicate pad ⟨0, [], 0⟩) :=
  ⟨_, rfl⟩

theorem mkfs_cases (names : List Name) (i : Nat) :
    i = rootino ∨ (2 ≤ i ∧ i < names.length + 2) ∧ mkfs names i = ⟨.file, 0, 1, [], 0⟩ ∨
      mkfs names i = ⟨.free, 0, 0, [], 0⟩ := by
  by_cases hroot : i = rootino
  · exact .inl hroot
  · by_cases hfile : 2 ≤ i ∧ i < names.length + 2
    · refine .inr (.inl ⟨hfile, ?_⟩)
      rw [mkfs, if_neg hroot, if_pos hfile]
    · refine .inr (.inr ?_)
      rw [mkfs, if_neg hroot, if_neg hfile]

theorem mem_files {pad : Nat} {e : Dirent} (hnames : ImageNames names)
    (he : e ∈ (names.zipIdx.map fun (name, k) => Dirent.mk (k + 2) name 0) ++
      List.replicate pad ⟨0, [], 0⟩) (hinum : e.inum ≠ 0) :
    (e.name ≠ dot ∧ e.name ≠ dotdot) ∧ 2 ≤ e.inum ∧ e.inum < names.length + 2 ∧ e.gen = 0 := by
  rw [mem_append] at he
  obtain he | he := he
  · obtain ⟨⟨name, k⟩, hk, rfl⟩ := mem_map.mp he
    have hk' := mem_zipIdx hk
    refine ⟨hnames.ok name (hk'.2.2 ▸ getElem_mem _), by simp only; omega, ?_, rfl⟩
    simp only
    omega
  · rw [(mem_replicate.mp he).2] at hinum
    exact absurd rfl hinum

theorem files_count {p : Dirent → Bool} {i pad : Nat}
    (hp : ∀ k, ∀ name ∈ names, p ⟨k, name, 0⟩ = decide (k = i))
    (hu : p ⟨0, [], 0⟩ = false) :
    ((names.zipIdx.map fun (name, k) => Dirent.mk (k + 2) name 0) ++
      List.replicate pad (Dirent.mk 0 [] 0)).countP p =
      if 2 ≤ i ∧ i < names.length + 2 then 1 else 0 := by
  have hpad : (List.replicate pad (Dirent.mk 0 [] 0)).countP p = 0 := by
    rw [countP_replicate, hu]
    rfl
  rw [countP_append, hpad, countP_files hp 0, Nat.add_zero]
  congr 1
  exact propext (by omega)

theorem tree_mkfs (strict : Prop) (hnames : ImageNames names) : Tree strict (mkfs names) := by
  obtain ⟨pad, hentries⟩ := (mkfs_root : ∃ pad, (mkfs names rootino).entries = _)
  have hrootType : (mkfs names rootino).type = .dir := rfl
  have hdir : ∀ {d}, (mkfs names d).type = .dir → d = rootino := by
    intro d hd
    obtain h | ⟨-, h⟩ | h := mkfs_cases names d
    · exact h
    · rw [h] at hd
      cases hd
    · rw [h] at hd
      cases hd
  have hrange : ∀ i, (mkfs names i).type ≠ .free → 0 < i ∧ i < ninodes := by
    intro i hi
    have hfit := hnames.fit
    obtain rfl | ⟨h, -⟩ | h := mkfs_cases names i
    · decide
    · omega
    · rw [h] at hi
      exact absurd rfl hi
  refine
    { root := live_mkfs_root
      rootParent := by simp [Inode.parent, hentries]
      range := hrange
      shape := ?_
      points := ?_
      child := ?_
      orphan := fun _ d hd hdead => absurd (hdir hd ▸ live_mkfs_root) hdead
      named := ?_
      law := ?_
      small := ?_ }
  · intro d hd
    obtain rfl := hdir hd
    refine ⟨_, _, hentries, rfl, by decide, fun e he hinum => ⟨live_mkfs_root.2, ?_⟩⟩
    exact (mem_files hnames he hinum).1
  · intro d hd _ e he hinum
    obtain rfl := hdir hd
    rw [hentries] at he
    simp only [mem_cons] at he
    obtain rfl | rfl | he := he
    · exact ⟨by rw [hrootType]; decide, rfl⟩
    · exact ⟨by rw [hrootType]; decide, rfl⟩
    · obtain ⟨-, hlow, hhigh, hgen⟩ := mem_files hnames he hinum
      have hfile : mkfs names e.inum = ⟨.file, 0, 1, [], 0⟩ := by
        rw [mkfs, if_neg (by rw [rootino]; omega), if_pos ⟨hlow, hhigh⟩]
      rw [Points, hfile, hgen]
      exact ⟨by decide, rfl⟩
  · intro d hd e he hname hkid
    obtain rfl := hdir hd.1
    have hinum := hdir hkid
    have hn := isNameOf_iff.mp hname
    rw [hentries] at he
    simp only [mem_cons] at he
    obtain rfl | rfl | he := he
    · exact absurd rfl hn.2.1
    · exact absurd rfl hn.2.2
    · have hfile := mem_files hnames he (by rw [hinum]; decide)
      rw [hinum, rootino] at hfile
      omega
  · intro d hd
    obtain rfl := hdir hd.1
    rw [namesOf, tally_mkfs, hentries, if_pos rfl]
    rw [countP_cons, countP_cons, files_count (p := isNameOf rootino) (i := rootino) ?_
      (by decide)]
    · simp [isNameOf, rootino, dot, dotdot]
    · intro k name hname
      simp [isNameOf, hnames.ok name hname]
  · intro i hi
    have hi0 := (hrange i hi).1.ne'
    rw [linksTo, tally_mkfs, hentries, countP_cons, countP_cons,
      files_count (i := i) ?_ (refersTo_unused hi0 rfl)]
    · obtain rfl | ⟨hfile, heq⟩ | h := mkfs_cases names i
      · have hno : ¬ (2 ≤ rootino ∧ rootino < names.length + 2) := by
          rw [rootino]
          omega
        rw [if_neg hno]
        simp [mkfs, refersTo, rootino, dot, dotdot]
      · have hne : rootino ≠ i := by
          rw [rootino]
          omega
        rw [if_pos hfile, heq]
        simp [refersTo, hne]
      · rw [h] at hi
        exact absurd rfl hi
    · intro k name hname
      simp [refersTo, (hnames.ok name hname).1]
  · intro i hi
    obtain rfl | ⟨-, h⟩ | h := mkfs_cases names i
    · change (1 : Int) ≤ maxLinks
      decide
    · rw [h]
      change (1 : Int) ≤ maxLinks
      decide
    · rw [h] at hi
      exact absurd rfl hi

theorem users_boot (names : List Name) (room : Nat → Bool) (i : Nat) :
    (boot names room).users i = if i = rootino then 1 else 0 := by
  have hfiles : tally Finset.univ (File.opens i) (boot names room).ftable = 0 :=
    tally_eq_zero.mpr fun f _ => by simp [boot, File.opens]
  have hslots : tally Finset.univ (Slot.sitsIn i) (boot names room).slot =
      if i = rootino then 1 else 0 := by
    rw [tally, Finset.sum_eq_single ⟨0, by decide⟩]
    · simp [boot, Slot.sitsIn, Slot.cwd?, eq_comm]
    · intro j _ hj
      have hval : j.val ≠ 0 := fun h => hj (Fin.ext h)
      simp [boot, hval, Slot.sitsIn, Slot.cwd?]
    · exact fun h => absurd (Finset.mem_univ _) h
  rw [State.users, hfiles, hslots, Nat.zero_add]

/-- The machine as it is after boot with the given inodes. -/
def bootFrom (T : Nat → Inode) (room : Nat → Bool) : State :=
  { boot [] room with inode := T }

theorem counted_boot {T : Nat → Inode} (hroot : (T rootino).type ≠ .free) (room : Nat → Bool) :
    Counted [] (bootFrom T room) := by
  refine ⟨fun i => ?_, ?_, fun i hi => ?_, fun _ _ => rfl⟩
  · change _ = (boot [] room).users i + _
    rw [users_boot, count_nil, Nat.add_zero]
    rfl
  · rintro i _ ⟨⟩
  · change 0 < (boot [] room).users i at hi
    rw [users_boot] at hi
    split at hi
    · rename_i heq
      rw [heq]
      exact hroot
    · exact absurd hi (by decide)

theorem mkfs_nlink (names : List Name) (i : Nat) (hi : (mkfs names i).type ≠ .free) :
    (mkfs names i).nlink = 1 := by
  obtain rfl | ⟨-, h⟩ | h := mkfs_cases names i
  · rfl
  · rw [h]
  · rw [h] at hi
    exact absurd rfl hi

theorem steady_boot (strict : Prop) (hnames : ImageNames names) (room : Nat → Bool) :
    Steady strict (boot names room) := by
  refine ⟨⟨tree_mkfs strict hnames, counted_boot (T := mkfs names) nofun room,
    fun i hfree hzero => ?_⟩, by rintro e ⟨⟩⟩
  rw [show (boot names room).inode i = mkfs names i from rfl, mkfs_nlink names i hfree] at hzero
  exact absurd hzero (by decide)

theorem steady_run {strict : Prop} {room : Nat → Bool} {ls : List Act} {s : State}
    (hnames : ImageNames names)
    (run : Run (guarded (NameSafe strict) fun s a s' => s.step a = some s') (boot names room)
      ls s) :
    Steady strict s :=
  run.invariant (Steady strict) (steady_boot strict hnames room)
    fun _ _ _ ht hstep => ht.step hstep.1 hstep.2

end Fresh

def Steps (s : State) (a : Act) (s' : State) : Prop :=
  s.step a = some s'

/-- Link-count law: in every run that puts no name into a removed directory and overflows no
link count, every link count is the number of entries, an inode without links is open or a
current directory, and `unlink` does not panic. -/
theorem link_count_law {names : List Name} {room : Nat → Bool} {ls : List Act} {s : State}
    (hnames : ImageNames names) (run : Run (guarded LinkSafe Steps) (boot names room) ls s) :
    (∀ i, (s.inode i).type ≠ .free → (s.inode i).nlink = linksTo s.inode i) ∧
      (∀ i, (s.inode i).type ≠ .free → (s.inode i).nlink = 0 →
        (∃ f, 0 < (s.ftable f).ref ∧ (s.ftable f).type ≠ .none ∧ (s.ftable f).ip = i) ∨
          ∃ j p, s.slot j = .live p ∧ p.cwd = i) ∧
      s.panic ≠ some "unlink: nlink < 1" := by
  have h : Steady False s := steady_run hnames
    (run.mono fun _ _ _ hs => ⟨⟨hs.1, False.elim⟩, hs.2⟩)
  refine ⟨h.sound.table.law, fun i => h.sound.exists_use, fun hpanic => ?_⟩
  · exact (h.avoids _ hpanic).1 rfl

def initCall (c : Call) : Act :=
  .call ⟨0, nproc_pos⟩ c

/-- A directory that is removed while it is the current directory. -/
theorem link_count_law_removed : ∃ s, Run (guarded LinkSafe Steps) (boot [] fun _ => true)
      [initCall (.mkdir [97]), initCall (.chdir [97]), initCall (.unlink [46, 46, 47, 97])] s ∧
    (s.inode 2).type = .dir ∧ (s.inode 2).nlink = 0 ∧
    ((∃ f, 0 < (s.ftable f).ref ∧ (s.ftable f).type ≠ .none ∧ (s.ftable f).ip = 2) ∨
      ∃ j p, s.slot j = .live p ∧ p.cwd = 2) := by
  refine Run.exists_checked (p := fun s => (s.inode 2).type = .dir ∧ (s.inode 2).nlink = 0)
    (by decide +kernel) ?_
  rintro s run ⟨htype, hzero⟩
  have hlaw := link_count_law (show ImageNames [] from ⟨by decide, by simp⟩) run
  exact ⟨htype, hzero, hlaw.2.1 2 (by rw [htype]; decide) hzero⟩

/-- Without the condition: a file created in a removed current directory has a link that no
counted entry accounts for. -/
theorem create_breaks_link_count : ∃ s, Run Steps (boot [] fun _ => true)
      [initCall (.mkdir [97]), initCall (.chdir [97]), initCall (.unlink [46, 46, 47, 97]),
        initCall (.open [102] oCreate)] s ∧
    (s.inode 3).type = .file ∧ (s.inode 3).nlink = 1 ∧ linksTo s.inode 3 = 0 := by
  exact Run.exists_exec (by decide +kernel) fun _ _ => id

/-- No dangling entry: if moreover no parent of a removed directory is removed, every entry of
every directory, removed or not, refers to an allocated inode and to the allocation it was
made for, and no lookup stops at a free inode. -/
theorem entries_never_dangle {names : List Name} {room : Nat → Bool} {ls : List Act} {s : State}
    (hnames : ImageNames names)
    (run : Run (guarded (fun s a => LinkSafe s a ∧ ParentSafe s a) Steps) (boot names room) ls s) :
    (∀ d, (s.inode d).type = .dir → ∀ e ∈ (s.inode d).entries, e.inum ≠ 0 →
        (s.inode e.inum).type ≠ .free ∧ (s.inode e.inum).gen = e.gen) ∧
      s.panic ≠ some "ilock: no type" := by
  have h : Steady True s := steady_run hnames
    (run.mono fun _ _ _ hs => ⟨⟨hs.1.1, fun _ => hs.1.2⟩, hs.2⟩)
  refine ⟨fun d hd e he hinum => h.sound.table.points d hd (.inl trivial) e he hinum, fun hpanic =>
    ?_⟩
  exact (h.avoids _ hpanic).2 trivial rfl

/-- The entries of a removed current directory. -/
theorem entries_never_dangle_removed : ∃ s,
    Run (guarded (fun s a => LinkSafe s a ∧ ParentSafe s a) Steps) (boot [] fun _ => true)
      [initCall (.mkdir [97]), initCall (.chdir [97]), initCall (.unlink [46, 46, 47, 97])] s ∧
    (s.inode 2).nlink = 0 ∧ (s.inode 2).entries = [⟨2, dot, 1⟩, ⟨1, dotdot, 0⟩] ∧
    ∀ e ∈ (s.inode 2).entries, (s.inode e.inum).type ≠ .free ∧ (s.inode e.inum).gen = e.gen := by
  refine Run.exists_checked (p := fun s => (s.inode 2).type = .dir ∧ (s.inode 2).nlink = 0 ∧
    (s.inode 2).entries = [⟨2, dot, 1⟩, ⟨1, dotdot, 0⟩]) (by decide +kernel) ?_
  rintro s run ⟨htype, hzero, hentries⟩
  have hlaw := entries_never_dangle (show ImageNames [] from ⟨by decide, by simp⟩) run
  refine ⟨hzero, hentries, fun e he => hlaw.1 2 htype e he ?_⟩
  rw [hentries] at he
  simp only [mem_cons, not_mem_nil, or_false] at he
  obtain rfl | rfl := he <;> decide

/-- Without the condition: after its parent was removed and freed, `..` of a removed current
directory leads a lookup to a free inode. -/
theorem unlink_breaks_entries : ∃ s, Run Steps (boot [] fun _ => true)
      [initCall (.mkdir [97]), initCall (.mkdir [97, 47, 98]), initCall (.chdir [97, 47, 98]),
        initCall (.unlink [46, 46, 47, 98]), initCall (.unlink [46, 46, 47, 46, 46, 47, 97]),
        initCall (.chdir [46, 46])] s ∧
    (s.inode 3).type = .dir ∧ (s.inode 3).parent = 2 ∧ (s.inode 2).type = .free ∧
    s.panic = some "ilock: no type" := by
  exact Run.exists_exec (by decide +kernel) fun _ _ => id

end EafitOs.Directory
