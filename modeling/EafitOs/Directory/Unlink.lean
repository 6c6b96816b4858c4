import EafitOs.Directory.Create

/-!
# Linking and unlinking

`link` counts the new link before it looks for the place of the new name and takes it
back on failure. `unlink` removes a name and, with the last link and the last reference,
the inode.
-/

namespace EafitOs.Directory

open Foundation Function

section Specs

variable {strict : Prop} {P : (Nat → Inode) → Prop} {s : State} {held : List Nat}

theorem follow_congr {T T' : Nat → Inode} (htype : ∀ i, (T' i).type = (T i).type)
    (hentries : ∀ i, (T' i).entries = (T i).entries) (d : Nat) (names : List Name) :
    follow T' d names = follow T d names := by
  induction names generalizing d with
  | nil => rfl
  | cons name names ih => simp only [follow, htype, hentries, ih]

/-- What a naming call leaves; if it returns an error no inode has changed. -/
structure Done (P : (Nat → Inode) → Prop) (s : State) (r : Int × State) : Prop where
  sound : Sound P [] r.2
  slot : r.2.slot = s.slot
  clean : r.1 = -1 → SameInodes s.inode r.2.inode

theorem Done.failed {s' : State} (h : Sound P [] s') (ht : Touches s s') :
    Done P s (-1, s') :=
  ⟨h, ht.slot, fun _ => .of_eq ht.inode⟩

def linked (n : Inode) : Inode :=
  { n with nlink := short (n.nlink + 1) }

/-- The state of `sys_link` after the link was counted; `T` is what the inodes were before. -/
structure Linking (P : (Nat → Inode) → Prop) (T : Nat → Inode) (ip : Nat) (held : List Nat)
    (s : State) : Prop where
  inode : s.inode = update T ip (linked (T ip))
  counted : Counted held s
  kept : ∀ k, Kept s k
  table : P T
  allocated : (T ip).type ≠ .free
  notDir : (T ip).type ≠ .dir
  users : ∀ k, (T k).type ≠ .free → (T k).nlink = 0 → 0 < s.users k

theorem short_sub_one {n : Int} (h : short n = n) : short (short (n + 1) - 1) = n := by
  rw [short, short, Int.sub_eq_add_neg, Int.bmod_add_bmod, Int.add_neg_cancel_right]
  exact h

namespace Linking

variable {T : Nat → Inode} {ip : Nat}

section

variable (h : Linking P T ip held s)
include h

theorem touch {held' : List Nat} {s' : State}
    (ht : Touches s s') (hc : Counted held' s') : Linking P T ip held' s' :=
  { h with
    inode := ht.inode.trans h.inode
    counted := hc
    kept := fun k => ht.kept k (h.kept k)
    users := by
      rw [ht.users]
      exact h.users }

theorem type_eq (i : Nat) : (s.inode i).type = (T i).type := by
  rw [h.inode]
  by_cases hi : i = ip
  · rw [hi, update_self]
    rfl
  · rw [update_of_ne hi]

theorem entries_eq (i : Nat) : (s.inode i).entries = (T i).entries := by
  rw [h.inode]
  by_cases hi : i = ip
  · rw [hi, update_self]
    rfl
  · rw [update_of_ne hi]

/-- The inode that the call holds stays, whatever its link count says now. -/
theorem stays (i : Nat) : Stays [ip] s i := by
  intro hfree hlink
  by_cases hi : i = ip
  · rw [hi, List.count_singleton_self]
    exact Nat.succ_pos _
  · rw [h.inode, update_of_ne hi] at hfree hlink
    exact Nat.add_pos_left (h.users i hfree hlink) _

end

theorem walkable {cwd : Nat} (h : Linking P T ip [ip] s) (hcwd : 0 < s.users cwd)
    (hclosed : strict → Closed T) (hroot : strict → (T rootino).type ≠ .free) :
    Walkable strict [ip] s cwd where
  counted := h.counted
  stays := h.stays
  closed := by
    intro hs d hd e he hinum
    rw [h.type_eq] at hd ⊢
    rw [h.entries_eq] at he
    exact hclosed hs d hd e he hinum
  root := by
    rw [h.type_eq]
    exact hroot
  cwd := hcwd

theorem bad [Settled P] (h : Linking P T ip [ip] s) :
    Ends (linkBad s ip) (fun r => Sound P [] r.2 ∧ r.2.slot = s.slot ∧ r.2.inode = T)
      (Avoids strict) := by
  refine (h.counted.ilock fun _ => ?_).bind fun s₁ hs₁ => ?_
  · rw [h.type_eq]
    exact h.allocated
  obtain ⟨ht₁, hc₁, hvalid, _⟩ := hs₁
  have hip : s₁.inode ip = linked (T ip) := by
    rw [ht₁.inode, h.inode, update_self]
  have hrestore : s₁.setInode ip
      { s₁.inode ip with nlink := short ((s₁.inode ip).nlink - 1) } = s₁.setInode ip (T ip) := by
    rw [hip, linked]
    simp only
    rw [short_sub_one (Settled.short h.table h.allocated)]
  have hinode : (s₁.setInode ip (T ip)).inode = T := by
    rw [State.setInode, ht₁.inode, h.inode, update_idem, update_eq_self]
  rw [hrestore]
  have hsound : Sound P [ip] (s₁.setInode ip (T ip)) := by
    refine ⟨hinode.symm ▸ h.table, hc₁.setInode fun _ => h.allocated, ?_⟩
    exact Kept.setInode (fun k _ => ht₁.kept k (h.kept k))
      (.inr ⟨hc₁.ref_pos, hvalid ip (.inl rfl)⟩)
  have hstays : Stays [] (s₁.setInode ip (T ip)) ip := by
    intro hfree hlink
    rw [hinode] at hfree hlink
    have hpos := h.users ip hfree hlink
    rw [← ht₁.users] at hpos
    exact Nat.add_pos_left hpos _
  obtain ⟨ht₂, hc₂⟩ := hsound.counted.iput hstays
  exact .ok ⟨hsound.touch ht₂ hc₂, ht₂.slot.trans ht₁.slot, ht₂.inode.trans hinode⟩

theorem linkName [Settled P] {cwd : Nat} {new : Path} (h : Linking P T ip [ip] s)
    (hw : Walkable strict [ip] s cwd)
    (hadd : ∀ dp ∈ follow T (start cwd new) new.elements.dropLast, ∀ name,
      (T dp).type = .dir → (∀ e ∈ (T dp).entries, e.inum ≠ 0 → e.name ≠ name) →
        P (addName T dp ip name (linked (T ip)) (T dp).nlink)) :
    Ends (linkName s cwd new ip) (fun r => Sound P [] r.2 ∧ r.2.slot = s.slot ∧
      (r.1 = -1 → r.2.inode = T)) (Avoids strict) := by
  refine hw.namex.bind fun r hr => ?_
  obtain ⟨found, s₁⟩ := r
  obtain ⟨ht₁, hc₁, hfinds⟩ := hr
  cases found with
  | none =>
    exact (h.touch ht₁ hc₁).bad.imp fun r hr => ⟨hr.1, hr.2.1.trans ht₁.slot, fun _ => hr.2.2⟩
  | some res =>
    obtain ⟨dp, name⟩ := res
    obtain ⟨hdir, init, hnames, hfollow⟩ := hfinds
    rw [h.type_eq] at hdir
    rw [follow_congr h.type_eq h.entries_eq] at hfollow
    rw [hnames, List.dropLast_concat] at hadd
    have hne : dp ≠ ip := by
      rintro rfl
      exact h.notDir hdir
    refine (hc₁.ilock fun _ => ?_).bind fun s₂ hs₂ => ?_
    · rw [ht₁.inode, h.type_eq, hdir]
      decide
    obtain ⟨ht₂, hc₂, hvalid₂, _⟩ := hs₂
    have ht := ht₁.trans ht₂
    have h₂ := h.touch ht hc₂
    refine (hc₂.dirlink dp name ip fun _ e _ => (h₂.stays e.inum).weaken).bind fun r hr => ?_
    obtain ⟨s₃, ht₃, hc₃, hv₃, rfl | ⟨habsent, rfl⟩⟩ := hr
    · have h₃ := h₂.touch ht₃ hc₃
      obtain ⟨ht₄, hc₄⟩ := hc₃.iput (h₃.stays dp)
      refine (h₃.touch ht₄ hc₄).bad.imp fun r hr => ⟨hr.1, hr.2.1.trans ?_, fun _ => hr.2.2⟩
      exact ht₄.slot.trans (ht₃.slot.trans ht.slot)
    · have hdp : s₂.inode dp = T dp := by
        rw [h₂.inode, update_of_ne hne]
      have hgen : (s₂.inode ip).gen = (T ip).gen := by
        rw [h₂.inode, update_self]
        rfl
      rw [hdp] at habsent
      rw [hdp, hgen]
      have hinode : (s₃.setInode dp { T dp with
          entries := putEntry (T dp).entries ⟨ip, name, (T ip).gen⟩ }).inode =
          addName T dp ip name (linked (T ip)) (T dp).nlink := by
        rw [State.setInode, ht₃.inode, h₂.inode]
        rfl
      have hsound : Sound P [dp, ip] (s₃.setInode dp { T dp with
          entries := putEntry (T dp).entries ⟨ip, name, (T ip).gen⟩ }) := by
        refine ⟨hinode ▸ hadd dp hfollow name hdir habsent,
          hc₃.setInode fun _ => by rw [hdir]; decide,
          Kept.setInode (fun k _ => ht₃.kept k (h₂.kept k)) (.inr ⟨hc₃.ref_pos, ?_⟩)⟩
        rw [hv₃ dp List.mem_cons_self]
        exact hvalid₂ dp (.inl rfl)
      obtain ⟨h₄, hslot₄⟩ := hsound.iput
      obtain ⟨h₅, hslot₅⟩ := h₄.iput
      exact .ok ⟨h₅, hslot₅.trans (hslot₄.trans (ht₃.slot.trans ht.slot)),
        fun (hr : (0 : Int) = -1) => absurd hr (by decide)⟩

end Linking

theorem Sound.sysLink [Settled P] {cwd : Nat} {old new : Path} (h : Sound P [] s)
    (hw : Walkable strict [] s cwd)
    (hadd : ∀ ip ∈ follow s.inode (start cwd old) old.elements, (s.inode ip).type ≠ .free →
      (s.inode ip).type ≠ .dir → ∀ dp ∈ follow s.inode (start cwd new) new.elements.dropLast,
      ∀ name, (s.inode dp).type = .dir →
        (∀ e ∈ (s.inode dp).entries, e.inum ≠ 0 → e.name ≠ name) →
        P (addName s.inode dp ip name (linked (s.inode ip)) (s.inode dp).nlink)) :
    Ends (sysLink s cwd old new) (Done P s) (Avoids strict) := by
  refine hw.namei.bind fun r hr => ?_
  obtain ⟨found, s₁⟩ := r
  obtain ⟨ht₁, hc₁, hfound⟩ := hr
  cases found with
  | none => exact .ok (.failed (h.touch ht₁ hc₁) ht₁)
  | some ip =>
    obtain ⟨hfollow, hip⟩ := hfound ip rfl
    refine (hc₁.ilock (ht₁.inode ▸ hip)).bind fun s₂ hs₂ => ?_
    obtain ⟨ht₂, hc₂, hvalid, htyped⟩ := hs₂
    have ht := ht₁.trans ht₂
    rw [ht₁.inode] at htyped
    simp only
    split
    · obtain ⟨ht₃, hc₃⟩ := hc₂.iput (ht.stays (h.stays ip))
      exact .ok (.failed (h.touch (ht.trans ht₃) hc₃) (ht.trans ht₃))
    · rename_i hnotDir
      rw [ht.inode] at hnotDir ⊢
      have husers : (s₂.setInode ip (linked (s.inode ip))).users = s.users := ht.users
      have hlinking : Linking P s.inode ip [ip] (s₂.setInode ip (linked (s.inode ip))) := by
        refine ⟨?_, hc₂.setInode fun _ => htyped, ?_, h.table, htyped, hnotDir, ?_⟩
        · rw [State.setInode, ht.inode]
        · exact Kept.setInode (fun k _ => ht.kept k (h.kept k))
            (.inr ⟨hc₂.ref_pos, hvalid ip (.inl rfl)⟩)
        · intro k hfree hlink
          rw [husers]
          simpa using h.stays k hfree hlink
      have hcwd : 0 < (s₂.setInode ip (linked (s.inode ip))).users cwd := by
        rw [husers]
        exact hw.cwd
      refine (hlinking.linkName (hlinking.walkable hcwd hw.closed hw.root)
        (hadd ip hfollow htyped hnotDir)).imp fun r hr => ?_
      exact ⟨hr.1, hr.2.1.trans ht.slot, fun hfail => .of_eq (hr.2.2 hfail)⟩

/-- Entry `k` of `dp` is the name that the path `names` from `d` ends in, neither `.` nor
`..`. -/
structure Named (T : Nat → Inode) (d : Nat) (names : List Name) (dp k : Nat) (e : Dirent) :
    Prop where
  dir : (T dp).type = .dir
  entry : (T dp).entries[k]? = some e
  inum : e.inum ≠ 0
  name : e.name ≠ dot ∧ e.name ≠ dotdot
  target : e.inum ∈ follow T d names

/-- Up to the removal of the entry, which is left to each property of the inodes, `unlink`
changes no inode. -/
theorem Sound.sysUnlink {E : String → Prop} {cwd : Nat} {path : Path} (h : Sound P [] s)
    (hw : Walkable strict [] s cwd) (hE : ∀ e, Avoids strict e → E e)
    (hlinks : ∀ dp k e, Named s.inode (start cwd path) path.elements dp k e →
      (s.inode e.inum).nlink < 1 → E "unlink: nlink < 1")
    (hentry : ∀ dp k e s', Named s.inode (start cwd path) path.elements dp k e →
      ¬ ((s.inode e.inum).type = .dir ∧ ¬ isdirempty (s.inode e.inum) = true) →
      s'.inode = s.inode → Sound P [e.inum, dp] s' →
      (∀ i, i = e.inum ∨ i = dp → s'.valid i = true) →
      Ends (unlinkEntry s' dp e.inum k) (fun r => r.1 = 0 ∧ Sound P [] r.2 ∧
        r.2.slot = s'.slot) E) :
    Ends (sysUnlink s cwd path) (Done P s) E := by
  have hstays : ∀ {s' i}, Touches s s' → Stays [] s' i := fun ht => ht.stays (h.stays _)
  refine (hw.namex.mono (fun _ => id) hE).bind fun r hr => ?_
  obtain ⟨found, s₁⟩ := r
  obtain ⟨ht₁, hc₁, hfinds⟩ := hr
  cases found with
  | none => exact .ok (.failed (h.touch ht₁ hc₁) ht₁)
  | some res =>
    obtain ⟨dp, name⟩ := res
    obtain ⟨hdir, init, hnames, hfollow⟩ := hfinds
    refine ((hc₁.ilock fun _ => ?_).mono (fun _ => id) hE).bind fun s₂ hs₂ => ?_
    · rw [ht₁.inode, hdir]
      decide
    obtain ⟨ht₂, hc₂, hvalid₂, _⟩ := hs₂
    have ht := ht₁.trans ht₂
    simp only
    split
    · obtain ⟨ht₃, hc₃⟩ := hc₂.iput (hstays ht)
      exact .ok (.failed (h.touch (ht.trans ht₃) hc₃) (ht.trans ht₃))
    · rename_i hname
      rw [not_or] at hname
      refine ((hc₂.dirlookup dp name).mono (fun _ => id) hE).bind fun r hr => ?_
      obtain ⟨found, s₃⟩ := r
      obtain ⟨ht₃, hvalid₃, hr⟩ := hr
      have ht' := ht.trans ht₃
      cases found with
      | none =>
        obtain ⟨ht₄, hc₄⟩ := hr.1.iput (hstays ht')
        exact .ok (.failed (h.touch (ht'.trans ht₄) hc₄) (ht'.trans ht₄))
      | some res =>
        obtain ⟨ip, k⟩ := res
        obtain ⟨hc₃, e, hfind, rfl⟩ := hr
        rw [ht.inode] at hfind
        obtain ⟨j, hj, hentryAt, hinum, rfl⟩ := findEntry_some hfind
        obtain rfl : k = j := by omega
        have hnamed : Named s.inode (start cwd path) path.elements dp k e := by
          refine ⟨hdir, hentryAt, hinum, hname, ?_⟩
          rw [Option.mem_def, hnames, follow_append hfollow, follow, if_pos hdir, hfind]
          rfl
        refine ((hc₃.ilock fun hs => ?_).mono (fun _ => id) hE).bind fun s₄ hs₄ => ?_
        · rw [ht'.inode]
          exact hw.closed hs dp hdir e (List.mem_of_getElem? hentryAt) hinum
        obtain ⟨ht₄, hc₄, hvalid₄, _⟩ := hs₄
        have ht'' := ht'.trans ht₄
        rw [ht''.inode]
        split
        · exact .error (hlinks dp k e hnamed ‹_›)
        · split
          · obtain ⟨ht₅, hc₅⟩ := hc₄.iput (hstays ht'').weaken
            obtain ⟨ht₆, hc₆⟩ := hc₅.iput (hstays (ht''.trans ht₅))
            have hall := ht''.trans (ht₅.trans ht₆)
            exact .ok (.failed (h.touch hall hc₆) hall)
          · refine (hentry dp k e s₄ hnamed ‹_› ht''.inode (h.touch ht'' hc₄)
              fun i hi => hvalid₄ i (hi.imp id fun hi => ?_)).imp fun r hr => ?_
            · rw [hi, hvalid₃ dp hc₂.ref_pos]
              exact hvalid₂ dp (.inl rfl)
            · obtain ⟨hzero, hsound, hslot⟩ := hr
              refine ⟨hsound, hslot.trans ht''.slot, fun hfail => ?_⟩
              rw [hzero] at hfail
              exact absurd hfail (by decide)

end Specs

section Trees

variable {strict : Prop} {s : State}

/-- A link to an inode with room for it keeps the tree. -/
theorem Tree.linked {T : Nat → Inode} {dp ip : Nat} {name : Name} (h : Tree strict T)
    (hfree : (T ip).type ≠ .free) (hdir : (T ip).type ≠ .dir) (hroom : (T ip).nlink < maxLinks)
    (hlive : (T dp).Live) (habsent : ∀ e ∈ (T dp).entries, e.inum ≠ 0 → e.name ≠ name) :
    Tree strict (addName T dp ip name (linked (T ip)) (T dp).nlink) := by
  have hnonneg := h.nlink_nonneg hfree
  have hlinks : (Directory.linked (T ip)).nlink = (T ip).nlink + 1 :=
    short_eq (by omega) (by omega)
  refine Addable.tree ⟨hlive, hdir, h.range ip hfree, hfree, h.name_of_absent hlive habsent, ?_,
    fun _ => rfl, fun hd => absurd hd hdir, ?_, ?_, h.small dp (by rw [hlive.1]; decide)⟩ h
  · rw [hlinks, h.law ip hfree]
  · rw [if_neg (by exact hdir), add_zero]
  · rw [hlinks]
    omega

theorem Tree.live_of_name {T : Nat → Inode} {dp : Nat} {e : Dirent} (h : Tree strict T)
    (hdir : (T dp).type = .dir) (he : e ∈ (T dp).entries) (hinum : e.inum ≠ 0)
    (hname : e.name ≠ dot ∧ e.name ≠ dotdot) : (T dp).Live := by
  obtain ⟨par, rest, hshape⟩ := h.shape dp hdir
  obtain ⟨-, hdot⟩ | rfl | hrest := hshape.cases he
  · exact absurd hdot hname.1
  · exact absurd hshape.parName hname.2
  · exact ⟨hdir, (hshape.names e hrest hinum).1⟩

theorem Removable.unlinkEntry_eq {dp ip k : Nat} {e : Dirent} (ht : Tree strict s.inode)
    (h : Removable strict s.inode dp ip k e) :
    unlinkEntry s dp ip k = .ok (0, iput ((iput (s.setInode dp (removeName s.inode dp ip k dp))
      dp).setInode ip (removeName s.inode dp ip k ip)) ip) := by
  have hne := h.ne ht
  have hk : k < (s.inode dp).entries.length := (List.getElem?_eq_some_iff.mp h.entry).1
  have hwrite : writeEntry s dp k ⟨0, [], 0⟩ = (true, s.setInode dp { s.inode dp with
      entries := (s.inode dp).entries.set k unused }) := by
    rw [writeEntry, if_pos hk]
    rfl
  have hip : ∀ n, (s.setInode dp n).inode ip = s.inode ip := fun n =>
    update_of_ne hne.symm ..
  have hnlink : short ((s.inode ip).nlink - 1) = (s.inode ip).nlink - 1 := by
    have hpos := h.links_pos ht
    have hsmall := ht.small ip (h.allocated ht)
    exact short_eq (by omega) (by omega)
  rw [unlinkEntry, hwrite, at_dp hne, at_ip]
  simp only [not_true_eq_false, if_false, hip, iput_inode_ne hne.symm]
  by_cases hdir : (s.inode ip).type = .dir
  · have hlive := h.live_dp ht
    rw [at_dp hne] at hlive
    have hpos := hlive.2
    have hsmall := ht.small dp (by rw [h.live.1]; decide)
    simp only [hdir, if_true] at hpos
    simp only [hdir, if_true, State.setInode_self, State.setInode_setInode, hip,
      hnlink, short_eq (n := (s.inode dp).nlink - 1) (by omega) (by omega)]
  · simp only [hdir, if_false, sub_zero, hip, hnlink]

theorem Removable.unlinkEntry {dp ip k : Nat} {e : Dirent} (h : Sound (Tree strict) [ip, dp] s)
    (hrem : Removable strict s.inode dp ip k e) (hvalid : s.valid ip = true) :
    Ends (unlinkEntry s dp ip k) (fun r => r.1 = 0 ∧ Sound (Tree strict) [] r.2 ∧
      r.2.slot = s.slot) (Avoids strict) := by
  rw [hrem.unlinkEntry_eq h.table]
  obtain ⟨s₂, hs₂⟩ : ∃ s₂, s₂ = s.setInode dp (removeName s.inode dp ip k dp) := ⟨_, rfl⟩
  rw [← hs₂]
  have hc₂ : Counted [dp, ip] s₂ := by
    rw [hs₂]
    refine (h.counted.setInode fun hfree => ?_).perm (.swap ..)
    rw [type_after]
    exact hfree
  have hlink₂ : (s₂.inode dp).nlink ≠ 0 := by
    rw [hs₂, State.setInode_self]
    exact (hrem.live_dp h.table).2.ne'
  have hkept₂ : ∀ i, Kept s₂ i := by
    rw [hs₂] at hlink₂ ⊢
    rw [State.setInode_self] at hlink₂
    exact Kept.setInode (fun i _ => h.kept i) (.inl hlink₂)
  have hstays : Stays [ip] s₂ dp := fun _ hzero => absurd hzero hlink₂
  obtain ⟨ht₃, hc₃⟩ := hc₂.iput hstays
  have hvalid₃ : (iput s₂ dp).valid ip = true := by
    rw [hc₂.iput_eq hstays, hs₂]
    exact hvalid
  have hinode : ((iput s₂ dp).setInode ip (removeName s.inode dp ip k ip)).inode =
      removeName s.inode dp ip k := by
    rw [State.setInode, ht₃.inode, hs₂, State.setInode, at_dp (hrem.ne h.table), at_ip]
    rfl
  have hfree : (removeName s.inode dp ip k ip).type ≠ .free := by
    rw [type_after]
    exact hrem.allocated h.table
  have hsound : Sound (Tree strict) [ip]
      ((iput s₂ dp).setInode ip (removeName s.inode dp ip k ip)) := by
    refine ⟨?_, hc₃.setInode fun _ => hfree, Kept.setInode (fun j _ => ht₃.kept j (hkept₂ j))
      (.inr ⟨hc₃.ref_pos, hvalid₃⟩)⟩
    rw [hinode]
    exact hrem.tree h.table
  refine .ok ⟨rfl, hsound.iput.1, hsound.iput.2.trans (ht₃.slot.trans ?_)⟩
  rw [hs₂]
  rfl

/-- In a tree every name has a link, so `unlink` does not panic. -/
theorem Sound.unlinkTree {cwd : Nat} {path : Path} (h : Sound (Tree strict) [] s)
    (hcwd : 0 < s.users cwd)
    (hkeep : strict → ∀ c ∈ follow s.inode (start cwd path) path.elements, ∀ d,
      (s.inode d).type = .dir → (s.inode d).nlink = 0 → (s.inode d).parent ≠ c) :
    Ends (Directory.sysUnlink s cwd path) (Done (Tree strict) s) (Avoids strict) := by
  have hlive : ∀ {dp k e}, Named s.inode (start cwd path) path.elements dp k e →
      (s.inode dp).Live := fun hn =>
    h.table.live_of_name hn.dir (List.mem_of_getElem? hn.entry) hn.inum hn.name
  refine h.sysUnlink (h.walkable hcwd) (fun _ => id) (fun dp k e hn hzero => ?_)
    fun dp k e s' hn hempty hinode h' hvalid => ?_
  · have hmem := List.mem_of_getElem? hn.entry
    have hlinks := h.table.linksTo_pos (hlive hn) hmem (refersTo_iff.mpr ⟨rfl, hn.name.1⟩)
    rw [h.table.law e.inum (h.table.points dp hn.dir (.inr (hlive hn)) e hmem hn.inum).1] at hzero
    omega
  · refine Removable.unlinkEntry (e := e) h' ?_ (hvalid _ (.inl rfl))
    rw [hinode]
    refine ⟨hlive hn, hn.entry, isNameOf_iff.mpr ⟨rfl, hn.name⟩, hn.inum, fun hd u hu => ?_,
      fun hs _ d hd hdead => ?_⟩
    · by_contra hu0
      refine hempty ⟨hd, fun hall => hu0 ?_⟩
      simpa using List.all_eq_true.mp hall u hu
    · exact hkeep hs e.inum hn.target d hd (h.table.nlink_eq_zero hd hdead)

end Trees

end EafitOs.Directory
