import EafitOs.Directory.LinkLaw

/-!
# Calls that fail

`mkdir`, `mknod`, `link` and `unlink` undo what they did before they return an error. The
undoing drops references, and dropping the last reference to an inode without links frees it.
In no run is there an inode without links that nobody uses, also when link counts overflow or
names are put into removed directories, so a failing call changes nothing.
-/

namespace EafitOs.Directory

open Foundation Function List Option

/-- Every link count fits the `short` that stores it. -/
def Shorts (T : Nat → Inode) : Prop :=
  ∀ i, (T i).type ≠ .free → short (T i).nlink = (T i).nlink

theorem Shorts.update {T : Nat → Inode} (h : Shorts T) {i : Nat} {n : Inode}
    (hn : n.type ≠ .free → short n.nlink = n.nlink) : Shorts (update T i n) := by
  intro k hk
  by_cases hki : k = i
  · subst hki
    rw [update_self] at hk ⊢
    exact hn hk
  · rw [update_of_ne hki] at hk ⊢
    exact h k hk

instance : Settled Shorts where
  retire := fun h hn _ => h.update fun hne => absurd hn hne
  short := fun h hi => h _ hi

theorem short_short (n : Int) : short (short n) = short n :=
  Int.bmod_bmod

section Calls

variable {s : State} {j : Fin nproc} {p : Proc} {held : List Nat}

theorem Shorts.created {T : Nat → Inode} (h : Shorts T) {dp ip g : Nat} {name : Name}
    {type : InodeType} {major : Int} :
    Shorts (addName T dp ip name (created T dp ip type major g) (linksAfter (T dp) type)) := by
  refine (h.update fun _ => (by decide : short 1 = 1)).update fun hdp => ?_
  change short (linksAfter (T dp) type) = linksAfter (T dp) type
  rw [linksAfter]
  split
  · exact short_short _
  · exact h dp hdp

theorem Shorts.linked {T : Nat → Inode} (h : Shorts T) {dp ip : Nat} {name : Name} :
    Shorts (addName T dp ip name (linked (T ip)) (T dp).nlink) :=
  (h.update fun _ => short_short _).update fun hdp => h dp hdp

theorem Sound.setHeld {i : Nat} {n : Inode} (h : Sound Shorts held s) (hi : i ∈ held)
    (hvalid : s.valid i = true) (htype : n.type = (s.inode i).type)
    (hshort : short n.nlink = n.nlink) : Sound Shorts held (s.setInode i n) := by
  refine ⟨h.table.update fun _ => hshort, h.counted.setInode fun hfree => htype ▸ hfree,
    Kept.setInode (fun k _ => h.kept k) (.inr ⟨?_, hvalid⟩)⟩
  rw [h.counted.count]
  exact Nat.add_pos_right _ (count_pos_iff.mpr hi)

theorem unlinkEntry_done {dp ip k : Nat} {E : String → Prop} (h : Sound Shorts [ip, dp] s)
    (hvalid : ∀ i, i = ip ∨ i = dp → s.valid i = true) (hk : k < (s.inode dp).entries.length) :
    Ends (unlinkEntry s dp ip k) (fun r => r.1 = 0 ∧ Sound Shorts [] r.2 ∧
      r.2.slot = s.slot) E := by
  have htyped : (s.inode dp).type ≠ .free :=
    h.counted.typed dp (h.counted.perm (.swap ..)).ref_pos (hvalid dp (.inr rfl))
  have h₁ := h.setHeld (i := dp) (n := { s.inode dp with
    entries := (s.inode dp).entries.set k ⟨0, [], 0⟩ }) (by simp) (hvalid dp (.inr rfl)) rfl
    (h.table dp htyped)
  rw [unlinkEntry, writeEntry, if_pos hk]
  simp only [not_true_eq_false, if_false]
  -- whether the link to the parent goes or not, what follows is the same
  have hrest : ∀ s₂, Sound Shorts [ip, dp] s₂ → s₂.valid ip = true → s₂.slot = s.slot →
      Ends (.ok (0, iput ((iput s₂ dp).setInode ip { (iput s₂ dp).inode ip with
        nlink := short (((iput s₂ dp).inode ip).nlink - 1) }) ip) : Except String (Int × State))
        (fun r => r.1 = 0 ∧ Sound Shorts [] r.2 ∧ r.2.slot = s.slot) E := by
    intro s₂ h₂ hvalid₂ hslot₂
    have hc₂ := h₂.counted.perm (.swap ..)
    obtain ⟨h₃, hslot₃⟩ := Sound.iput ⟨h₂.table, hc₂, h₂.kept⟩
    have h₄ := h₃.setHeld (i := ip) (n := { (iput s₂ dp).inode ip with
      nlink := short (((iput s₂ dp).inode ip).nlink - 1) }) (by simp)
      (iput_valid hc₂ (by simp) hvalid₂) rfl (short_short _)
    exact .ok ⟨rfl, h₄.iput.1, h₄.iput.2.trans (hslot₃.trans hslot₂)⟩
  split
  · exact hrest _ (h₁.setHeld (by simp) (hvalid dp (.inr rfl)) rfl (short_short _))
      (hvalid ip (.inl rfl)) rfl
  · exact hrest _ h₁ (hvalid ip (.inl rfl)) rfl

def Call.isNaming : Call → Bool
  | .mkdir _ | .mknod _ _ | .link _ _ | .unlink _ => true
  | _ => false

/-- A naming call of the process that returns an error leaves every inode as it was. -/
def FailsClean (s : State) (j : Fin nproc) (p : Proc) : Prop :=
  ∀ c : Call, c.isNaming = true → ∀ s', c.run s j p = .ok (-1, s') →
    SameInodes s.inode s'.inode

theorem withPath_done {E : String → Prop} {arg : Path}
    {body : Path → Except String (Int × State)} (h : Sound Shorts [] s)
    (hbody : ∀ path, Ends (body path) (Done Shorts s) E) :
    Ends (withPath s arg body) (Done Shorts s) E := by
  rw [withPath]
  split
  · exact .ok (.failed h .rfl)
  · exact hbody _

theorem Sound.naming {c : Call} (h : Sound Shorts [] s) (hslot : s.slot j = .live p)
    (hc : c.isNaming = true) : Ends (c.run s j p) (Done Shorts s) fun _ => True := by
  have hw : Walkable False [] s p.cwd :=
    ⟨h.counted, h.stays, False.elim, False.elim, users_pos_of_cwd hslot⟩
  have hmake : ∀ path type major, type ≠ .free →
      Ends (sysMake s p.cwd path type major) (Done Shorts s) fun _ => True := fun path _ _ htype =>
    (sysMake_done (h.create hw htype fun _ _ _ _ _ _ => h.table.created)).mono (fun _ => id)
      fun _ _ => trivial
  cases c with
  | mkdir arg => exact withPath_done h fun path => hmake _ _ _ (by decide)
  | mknod arg major => exact withPath_done h fun path => hmake _ _ _ (by decide)
  | link old new =>
    exact withPath_done h fun old => withPath_done h fun new =>
      (h.sysLink hw fun _ _ _ _ _ _ _ _ _ => h.table.linked).mono (fun _ => id) fun _ _ => trivial
  | unlink arg =>
    refine withPath_done h fun path => h.sysUnlink hw (fun _ _ => trivial)
      (fun _ _ _ _ _ => trivial)
      fun dp k e s' hn _ hinode h' hvalid => unlinkEntry_done h' hvalid ?_
    rw [hinode]
    exact (List.getElem?_eq_some_iff.mp hn.entry).1
  | «open» => cases hc
  | chdir => cases hc
  | close => cases hc
  | fork => cases hc
  | exit => cases hc

theorem Sound.anyCall {c : Call} (h : Sound Shorts [] s) (hslot : s.slot j = .live p) :
    Ends (c.run s j p) (fun r => Sound Shorts [] r.2) fun _ => True := by
  have hw : Walkable False [] s p.cwd :=
    ⟨h.counted, h.stays, False.elim, False.elim, users_pos_of_cwd hslot⟩
  have hany : ∀ {x : Except String (Int × State)},
      Ends x (fun r => Sound Shorts [] r.2) (Avoids False) →
      Ends x (fun r => Sound Shorts [] r.2) fun _ => True :=
    fun hx => hx.mono (fun _ => id) fun _ _ => trivial
  cases c with
  | «open» arg omode =>
    exact hany (h.withPath fun path _ => h.sysOpen hw hslot fun _ =>
      h.create hw (by decide) fun _ _ _ _ _ _ => h.table.created)
  | chdir arg => exact hany (h.withPath fun path _ => h.sysChdir hw hslot)
  | close fd => exact hany (h.sysClose hslot)
  | fork => exact hany (h.kfork hslot)
  | exit => exact hany (h.kexit hslot)
  | mkdir | mknod | link | unlink => exact (h.naming hslot rfl).imp fun r hr => hr.sound

end Calls

/-- The inodes that a machine boots with: `ireclaim` has freed those without links. -/
structure Bootable (T : Nat → Inode) : Prop where
  root : (T rootino).type ≠ .free
  linked : ∀ i, (T i).type ≠ .free → (T i).nlink ≠ 0
  short : Shorts T

theorem bootable_mkfs (names : List Name) : Bootable (mkfs names) where
  root := nofun
  linked := fun i hi => by
    rw [mkfs_nlink names i hi]
    decide
  short := fun i hi => by
    rw [mkfs_nlink names i hi]
    decide

section Runs

variable {T : Nat → Inode} {room : Nat → Bool} {ls : List Act} {s : State}

theorem Bootable.run (hT : Bootable T) (run : Run Steps (bootFrom T room) ls s) :
    Sound Shorts [] s := by
  refine run.invariant (Sound Shorts []) ⟨hT.short, counted_boot hT.root room, ?_⟩
    fun t a t' ht hstep => (ht.step (fun j p c _ hslot => ht.anyCall hslot) hstep).1
  exact fun i hfree hzero => absurd hzero (hT.linked i hfree)

/-- Failing calls change nothing: in every run of the naming calls, whatever the disk has room
for, an inode without links is open or a current directory, and a `mkdir`, `mknod`, `link` or
`unlink` of any process that returns an error leaves all inodes as they were. -/
theorem failing_call_changes_nothing (hT : Bootable T)
    (run : Run Steps (bootFrom T room) ls s) :
    (∀ i, (s.inode i).type ≠ .free → (s.inode i).nlink = 0 →
      (∃ f, 0 < (s.ftable f).ref ∧ (s.ftable f).type ≠ .none ∧ (s.ftable f).ip = i) ∨
        ∃ j p, s.slot j = .live p ∧ p.cwd = i) ∧
    ∀ j p, s.slot j = .live p → FailsClean s j p := by
  have h := hT.run run
  refine ⟨fun i => h.exists_use, fun j p hslot c hc s' heq => ?_⟩
  exact ((h.naming hslot hc).of_eq_ok heq).clean rfl

end Runs

/-- The disk has no block left after the one for a new directory, so a second `mkdir` fails
when its inode is allocated already. -/
theorem failing_call_changes_nothing_full : ∃ s p s', Run Steps
      (bootFrom (mkfs [[102]]) fun k => k = 0) [initCall (.mkdir [97])] s ∧
    (s.inode 3).type = .dir ∧ s.slot ⟨0, nproc_pos⟩ = .live p ∧
    (Call.mkdir [98]).run s ⟨0, nproc_pos⟩ p = .ok (-1, s') ∧ SameInodes s.inode s'.inode := by
  have hfacts : ∃ s ∈ exec State.step (bootFrom (mkfs [[102]]) fun k => k = 0)
      [initCall (.mkdir [97])], (s.inode 3).type = .dir ∧
        (s.slot ⟨0, nproc_pos⟩).cwd? = some rootino ∧
        ∃ s', sysMkdir s rootino [98] = .ok (-1, s') := by
    decide +kernel
  obtain ⟨s, hs, htype, hcwd, s', hrun⟩ := hfacts
  have run : Run Steps _ _ s := Run.of_exec hs
  cases hslot : s.slot ⟨0, nproc_pos⟩ with
  | live p =>
    rw [hslot] at hcwd
    have hcall : (Call.mkdir [98]).run s ⟨0, nproc_pos⟩ p = .ok (-1, s') := by
      change sysMkdir s p.cwd [98] = .ok (-1, s')
      rw [some.inj hcwd]
      exact hrun
    exact ⟨s, p, s', run, htype, hslot, hcall,
      (failing_call_changes_nothing (bootable_mkfs _) run).2 _ p hslot _ rfl s' hcall⟩
  | unused => rw [hslot] at hcwd; cases hcwd
  | zombie => rw [hslot] at hcwd; cases hcwd

end EafitOs.Directory
