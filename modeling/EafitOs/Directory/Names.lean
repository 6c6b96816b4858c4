import EafitOs.Directory.Tree

/-!
# Adding and removing names

`create` and `link` put a name into a directory, `unlink` takes one out. Both change two
inodes together: the directory and the inode the name is for.
-/

namespace EafitOs.Directory

open Foundation Function List

/-- The inodes after a name for `ip`, now with record `n`, was put into `dp`. -/
def addName (T : Nat → Inode) (dp ip : Nat) (name : Name) (n : Inode) (nlink : Int) :
    Nat → Inode :=
  update (update T ip n) dp
    { T dp with entries := putEntry (T dp).entries ⟨ip, name, n.gen⟩, nlink := nlink }

/-- What `create` and `link` see to before they put a name for `ip` into `dp`. A new
directory has just its two first entries and gives its parent another link. -/
structure Addable (T : Nat → Inode) (dp ip : Nat) (name : Name) (n : Inode) (nlink : Int) :
    Prop where
  live : (T dp).Live
  old : (T ip).type ≠ .dir
  range : 0 < ip ∧ ip < ninodes
  new : n.type ≠ .free
  name : name ≠ dot ∧ name ≠ dotdot
  links : n.nlink = linksTo T ip + 1
  gen : (T ip).type ≠ .free → n.gen = (T ip).gen
  fresh : n.type = .dir → (T ip).type = .free ∧
    n.entries = [⟨ip, dot, n.gen⟩, ⟨dp, dotdot, (T dp).gen⟩]
  parent : nlink = (T dp).nlink + if n.type = .dir then 1 else 0
  small : n.nlink ≤ maxLinks ∧ nlink ≤ maxLinks

namespace Addable

variable {strict : Prop} {T : Nat → Inode} {dp ip : Nat} {name : Name} {n : Inode} {nlink : Int}

theorem ne (h : Addable T dp ip name n nlink) : dp ≠ ip := by
  rintro rfl
  exact h.old h.live.1

theorem at_ip (h : Addable T dp ip name n nlink) : addName T dp ip name n nlink ip = n := by
  rw [addName, update_of_ne h.ne.symm, update_self]

theorem at_dp : addName T dp ip name n nlink dp =
    { T dp with entries := putEntry (T dp).entries ⟨ip, name, n.gen⟩, nlink := nlink } := by
  rw [addName, update_self]

theorem at_other {d : Nat} (hdp : d ≠ dp) (hip : d ≠ ip) :
    addName T dp ip name n nlink d = T d := by
  rw [addName, update_of_ne hdp, update_of_ne hip]

section

variable (h : Addable T dp ip name n nlink)
include h

theorem nlink_pos : 0 < nlink := by
  have hpos := h.live.2
  rw [h.parent]
  split <;> omega

theorem live_dp : (addName T dp ip name n nlink dp).Live := by
  rw [at_dp]
  exact ⟨h.live.1, h.nlink_pos⟩

theorem live_of_dir (hdir : n.type = .dir) : n.Live := by
  refine ⟨hdir, ?_⟩
  rw [h.links]
  omega

theorem tally (ht : Tree strict T) {p : Dirent → Bool} (hp : ∀ u, u.inum = 0 → p u = false) :
    tally (Finset.range ninodes) (Inode.matching p) (addName T dp ip name n nlink) =
      tally (Finset.range ninodes) (Inode.matching p) T + n.matching p +
        if p ⟨ip, name, n.gen⟩ then 1 else 0 := by
  have hfirst := tally_update (g := Inode.matching p) (f := T) (a := n)
    (Finset.mem_range.mpr h.range.2)
  have hsecond := tally_update (g := Inode.matching p) (f := update T ip n)
    (a := addName T dp ip name n nlink dp) (Finset.mem_range.mpr (ht.live_range h.live).2)
  rw [update_of_ne h.ne, matching_of_live h.live, matching_of_live h.live_dp, at_dp,
    countP_putEntry hp] at hsecond
  rw [matching_of_not_live (not_live_of_type h.old)] at hfirst
  rw [addName]
  omega

theorem links_after (ht : Tree strict T) {i : Nat}
    (hi : i ≠ 0) : linksTo (addName T dp ip name n nlink) i =
      linksTo T i + (if n.type = .dir ∧ dp = i then 1 else 0) + if ip = i then 1 else 0 := by
  have hnew : n.matching (refersTo i) = if n.type = .dir ∧ dp = i then 1 else 0 := by
    by_cases hdir : n.type = .dir
    · rw [matching_of_live (h.live_of_dir hdir), (h.fresh hdir).2]
      simp [countP_cons, refersTo, hdir, dot, dotdot]
    · rw [matching_of_not_live (not_live_of_type hdir)]
      simp [hdir]
  have hname : refersTo i ⟨ip, name, n.gen⟩ = decide (ip = i) := by simp [refersTo, h.name.1]
  rw [linksTo, h.tally ht fun _ => refersTo_unused hi, hnew, hname, linksTo]
  simp only [decide_eq_true_eq]

theorem names_after (ht : Tree strict T) {i : Nat}
    (hi : i ≠ 0) : namesOf (addName T dp ip name n nlink) i =
      namesOf T i + if ip = i then 1 else 0 := by
  have hnew : n.matching (isNameOf i) = 0 := by
    by_cases hdir : n.type = .dir
    · rw [matching_of_live (h.live_of_dir hdir), (h.fresh hdir).2]
      simp [isNameOf]
    · exact matching_of_not_live (not_live_of_type hdir)
  have hname : isNameOf i ⟨ip, name, n.gen⟩ = decide (ip = i) := by simp [isNameOf, h.name]
  rw [namesOf, h.tally ht fun _ => isNameOf_unused hi, hnew, hname, namesOf]
  simp only [decide_eq_true_eq, add_zero]

theorem points_after {e : Dirent} (he : Points T e) : Points (addName T dp ip name n nlink) e := by
  by_cases hdp : e.inum = dp
  · rw [Points, hdp] at he ⊢
    rw [at_dp]
    exact he
  · by_cases hip : e.inum = ip
    · rw [Points, hip] at he ⊢
      rw [h.at_ip]
      exact ⟨h.new, (h.gen he.1).trans he.2⟩
    · rw [Points, at_other hdp hip]
      exact he

theorem parent_after (ht : Tree strict T) {d : Nat}
    (hd : (T d).type ≠ .free) (hdir : (addName T dp ip name n nlink d).type = .dir) :
    (T d).type = .dir ∧ (addName T dp ip name n nlink d).parent = (T d).parent := by
  by_cases hdp : d = dp
  · subst hdp
    obtain ⟨par, rest, hshape⟩ := ht.shape d h.live.1
    refine ⟨h.live.1, ?_⟩
    rw [at_dp, hshape.parent]
    exact (hshape.put (ht.live_range h.live).1.ne' h.nlink_pos h.name).parent
  · by_cases hip : d = ip
    · subst hip
      rw [h.at_ip] at hdir
      exact absurd (h.fresh hdir).1 hd
    · rw [at_other hdp hip] at hdir ⊢
      exact ⟨hdir, rfl⟩

theorem live_after {d : Nat} (hd : (T d).Live) : (addName T dp ip name n nlink d).Live := by
  by_cases hdp : d = dp
  · rw [hdp]
    exact h.live_dp
  · have hip : d ≠ ip := by
      rintro rfl
      exact h.old hd.1
    rw [at_other hdp hip]
    exact hd

theorem live_before {d : Nat} (hip : d ≠ ip)
    (hd : (addName T dp ip name n nlink d).Live) : (T d).Live := by
  by_cases hdp : d = dp
  · rw [hdp]
    exact h.live
  · rw [at_other hdp hip] at hd
    exact hd

theorem namesOf_fresh (ht : Tree strict T) (hdir : n.type = .dir) : namesOf T ip = 0 := by
  by_contra hpos
  obtain ⟨d, -, hmatch⟩ := tally_pos.mp (Nat.pos_of_ne_zero hpos)
  obtain ⟨hlive, e, he, hname⟩ := matching_pos.mp hmatch
  have hinum := (isNameOf_iff.mp hname).1
  have hpoints := ht.points d hlive.1 (.inr hlive) e he (hinum ▸ h.range.1.ne')
  exact hpoints.1 (hinum ▸ (h.fresh hdir).1)

theorem range_after (ht : Tree strict T) {i : Nat}
    (hi : (addName T dp ip name n nlink i).type ≠ .free) : 0 < i ∧ i < ninodes := by
  by_cases hdp : i = dp
  · rw [hdp]
    exact ht.live_range h.live
  · by_cases hip : i = ip
    · rw [hip]
      exact h.range
    · rw [at_other hdp hip] at hi
      exact ht.range i hi

/-- A name put into a directory that is not removed keeps the invariant. -/
theorem tree (ht : Tree strict T) : Tree strict (addName T dp ip name n nlink) where
  root := h.live_after ht.root
  rootParent := by
    rw [(h.parent_after ht (by rw [ht.root.1]; decide) (h.live_after ht.root).1).2]
    exact ht.rootParent
  range := fun _ hi => h.range_after ht hi
  shape := by
    intro d hd
    by_cases hdp : d = dp
    · subst hdp
      obtain ⟨par, rest, hshape⟩ := ht.shape d h.live.1
      rw [at_dp]
      exact ⟨par, _, hshape.put (ht.live_range h.live).1.ne' h.nlink_pos h.name⟩
    · by_cases hip : d = ip
      · subst hip
        rw [h.at_ip] at hd ⊢
        exact ⟨_, [], (h.fresh hd).2, rfl, (ht.live_range h.live).1.ne', by simp⟩
      · rw [at_other hdp hip] at hd ⊢
        exact ht.shape d hd
  points := by
    intro d hd hcover e he hinum
    by_cases hdp : d = dp
    · subst hdp
      rw [at_dp] at he
      obtain rfl | he := mem_putEntry he
      · rw [Points, h.at_ip]
        exact ⟨h.new, rfl⟩
      · exact h.points_after (ht.points d h.live.1 (.inr h.live) e he hinum)
    · by_cases hip : d = ip
      · subst hip
        rw [h.at_ip] at hd he
        rw [(h.fresh hd).2] at he
        simp only [mem_cons, not_mem_nil, or_false] at he
        obtain rfl | rfl := he
        · rw [Points, h.at_ip]
          exact ⟨h.new, rfl⟩
        · rw [Points, at_dp]
          exact ⟨by rw [h.live.1]; decide, rfl⟩
      · rw [at_other hdp hip] at hd hcover he
        exact h.points_after (ht.points d hd hcover e he hinum)
  child := by
    intro d hd e he hname hkid
    by_cases hip : d = ip
    · subst hip
      rw [h.at_ip] at hd he
      rw [(h.fresh hd.1).2] at he
      simp only [mem_cons, not_mem_nil, or_false] at he
      obtain rfl | rfl := he
      · exact absurd rfl (isNameOf_iff.mp hname).2.1
      · exact absurd rfl (isNameOf_iff.mp hname).2.2
    · have hlive := h.live_before hip hd
      have hold : e ∈ (T d).entries ∨ d = dp ∧ e = ⟨ip, name, n.gen⟩ := by
        by_cases hdp : d = dp
        · subst hdp
          rw [at_dp] at he
          exact (mem_putEntry he).symm.imp_right fun heq => ⟨rfl, heq⟩
        · rw [at_other hdp hip] at he
          exact .inl he
      obtain he | ⟨rfl, rfl⟩ := hold
      · have hinum := h.range_after ht (by rw [hkid]; decide)
        have hpoints := ht.points d hlive.1 (.inr hlive) e he hinum.1.ne'
        obtain ⟨hdir, hpar⟩ := h.parent_after ht hpoints.1 hkid
        rw [hpar]
        exact ht.child d hlive e he hname hdir
      · rw [h.at_ip] at hkid ⊢
        simp [Inode.parent, (h.fresh hkid).2]
  orphan := by
    intro hs d hd hdead
    have hdp : d ≠ dp := by
      rintro rfl
      exact hdead h.live_dp
    have hip : d ≠ ip := by
      rintro rfl
      rw [h.at_ip] at hd hdead
      exact hdead (h.live_of_dir hd)
    rw [at_other hdp hip] at hd hdead ⊢
    exact h.live_after (ht.orphan hs d hd hdead)
  named := by
    intro d hd
    by_cases hip : d = ip
    · subst hip
      rw [h.at_ip] at hd
      have hroot : d ≠ rootino := fun hroot => h.old (hroot ▸ ht.root.1)
      rw [h.names_after ht h.range.1.ne', h.namesOf_fresh ht hd.1, if_pos rfl, if_neg hroot]
    · have hlive := h.live_before hip hd
      rw [h.names_after ht (ht.live_range hlive).1.ne', if_neg (Ne.symm hip), Nat.add_zero]
      exact ht.named d hlive
  law := by
    intro i hi
    by_cases hip : i = ip
    · subst hip
      have hlinks := h.links_after ht h.range.1.ne'
      simp only [h.ne, and_false, if_false, if_true] at hlinks
      rw [hlinks, h.at_ip, h.links]
      omega
    · by_cases hdp : i = dp
      · subst hdp
        have hlinks := h.links_after ht (ht.live_range h.live).1.ne'
        simp only [h.ne.symm, and_true, if_false] at hlinks
        rw [hlinks, at_dp, h.parent, ht.law i (by rw [h.live.1]; decide)]
        split <;> rfl
      · rw [at_other hdp hip] at hi ⊢
        have hlinks := h.links_after ht (ht.range i hi).1.ne'
        simp only [Ne.symm hdp, Ne.symm hip, and_false, if_false, Nat.add_zero] at hlinks
        rw [hlinks]
        exact ht.law i hi
  small := by
    intro i hi
    by_cases hip : i = ip
    · rw [hip, h.at_ip]
      exact h.small.1
    · by_cases hdp : i = dp
      · rw [hdp, at_dp]
        exact h.small.2
      · rw [at_other hdp hip] at hi ⊢
        exact ht.small i hi

end

end Addable

def unused : Dirent :=
  ⟨0, [], 0⟩

theorem countP_set_unused {p : Dirent → Bool} (hp : ∀ u, u.inum = 0 → p u = false)
    {es : List Dirent} {k : Nat} {e : Dirent} (h : es[k]? = some e) :
    (es.set k unused).countP p + (if p e then 1 else 0) = es.countP p := by
  induction es generalizing k with
  | nil => cases h
  | cons u es ih =>
    cases k with
    | zero =>
      obtain rfl : u = e := by simpa using h
      simp [countP_cons, hp unused rfl]
    | succ k =>
      have hrest := ih (k := k) (by simpa using h)
      simp only [set_cons_succ, countP_cons]
      omega

/-- The inodes after entry `k` of `dp`, a name of `ip`, was removed. -/
def removeName (T : Nat → Inode) (dp ip k : Nat) : Nat → Inode :=
  update
    (update T dp
      { T dp with
        entries := (T dp).entries.set k unused
        nlink := (T dp).nlink - if (T ip).type = .dir then 1 else 0 })
    ip { T ip with nlink := (T ip).nlink - 1 }

/-- What `unlink` sees to before it removes the name `e` of `ip` from `dp`. Under `strict`
no removed directory has `ip` as its parent. -/
structure Removable (strict : Prop) (T : Nat → Inode) (dp ip k : Nat) (e : Dirent) : Prop where
  live : (T dp).Live
  entry : (T dp).entries[k]? = some e
  name : isNameOf ip e = true
  inum : ip ≠ 0
  empty : (T ip).type = .dir → ∀ u ∈ (T ip).entries.drop 2, u.inum = 0
  kept : strict → (T ip).type = .dir → ∀ d, (T d).type = .dir → ¬ (T d).Live →
    (T d).parent ≠ ip

namespace Removable

variable {strict : Prop} {T : Nat → Inode} {dp ip k : Nat} {e : Dirent}

section

variable (h : Removable strict T dp ip k e)
include h

theorem mem : e ∈ (T dp).entries :=
  mem_of_getElem? h.entry

section

variable (ht : Tree strict T)
include ht

theorem two_le : 2 ≤ k := by
  obtain ⟨par, rest, hshape⟩ := ht.shape dp h.live.1
  have hname := (isNameOf_iff.mp h.name).2
  have hentry := h.entry
  rw [hshape.entries] at hentry
  match k with
  | 0 =>
    obtain rfl := Option.some.inj hentry
    exact absurd rfl hname.1
  | 1 =>
    obtain rfl := Option.some.inj hentry
    exact absurd hshape.parName hname.2
  | k + 2 => omega

theorem ne : dp ≠ ip := by
  rintro rfl
  have hk := h.two_le ht
  have hdrop : e ∈ (T dp).entries.drop 2 := by
    apply mem_of_getElem? (i := k - 2)
    rw [List.getElem?_drop, Nat.add_sub_cancel' hk]
    exact h.entry
  exact h.inum ((isNameOf_iff.mp h.name).1 ▸ h.empty h.live.1 e hdrop)

theorem allocated : (T ip).type ≠ .free := by
  have hinum := (isNameOf_iff.mp h.name).1
  have hpoints := ht.points dp h.live.1 (.inr h.live) e h.mem (hinum ▸ h.inum)
  exact hinum ▸ hpoints.1

theorem links_pos : 0 < (T ip).nlink := by
  have hname := isNameOf_iff.mp h.name
  have hpos := ht.linksTo_pos h.live h.mem (refersTo_iff.mpr ⟨hname.1, hname.2.1⟩)
  rw [ht.law ip (h.allocated ht)]
  omega

theorem dir_entries (hdir : (T ip).type = .dir) : ∃ g rest, (∀ u ∈ rest, u.inum = 0) ∧
      (T ip).entries = ⟨ip, dot, (T ip).gen⟩ :: ⟨dp, dotdot, g⟩ :: rest := by
  obtain ⟨par, rest, hshape⟩ := ht.shape ip hdir
  have hempty := h.empty hdir
  have hname := isNameOf_iff.mp h.name
  have hpar : par.inum = dp := by
    rw [← hshape.parent]
    have hchild := ht.child dp h.live e h.mem
    rw [hname.1] at hchild
    exact hchild h.name hdir
  rw [hshape.entries] at hempty ⊢
  refine ⟨par.gen, rest, by simpa using hempty, ?_⟩
  rw [← hpar, ← hshape.parName]

theorem dir_nlink (hdir : (T ip).type = .dir) : (T ip).nlink = 1 := by
  have hlive : (T ip).Live := ⟨hdir, h.links_pos ht⟩
  have hpos := ht.namesOf_pos h.live h.mem h.name
  have hnamed := ht.named ip hlive
  have hroot : ip ≠ rootino := by
    intro hroot
    rw [if_pos hroot] at hnamed
    omega
  have hsame : linksTo T ip = namesOf T ip := by
    apply tally_congr
    intro d _
    by_cases hd : (T d).Live
    · rw [matching_of_live hd, matching_of_live hd]
      apply countP_congr
      intro u hu
      rw [refersTo_iff, isNameOf_iff]
      refine ⟨fun hr => ⟨hr.1, hr.2, fun hdd => ?_⟩, fun hn => ⟨hn.1, hn.2.1⟩⟩
      have hparent : (T d).parent = ip := by
        obtain ⟨par, rest, hshape⟩ := ht.shape d hd.1
        obtain ⟨-, hdot⟩ | rfl | hrest := hshape.cases hu
        · exact absurd hdot hr.2
        · exact hshape.parent.trans hr.1
        · exact absurd hdd (hshape.names u hrest (hr.1 ▸ h.inum)).2.2
      have hd0 : d ≠ rootino := by
        rintro rfl
        exact hroot (hparent.symm.trans ht.rootParent)
      obtain ⟨-, v, hv, hvname⟩ := ht.name_in_parent hd hd0
      obtain ⟨g, rest, hunused, hentries⟩ := h.dir_entries ht hdir
      have hvn := isNameOf_iff.mp hvname
      rw [hparent, hentries] at hv
      simp only [mem_cons] at hv
      obtain rfl | rfl | hv := hv
      · exact hvn.2.1 rfl
      · exact hvn.2.2 rfl
      · exact (ht.live_range hd).1.ne' (hvn.1.symm.trans (hunused v hv))
    · rw [matching_of_not_live hd, matching_of_not_live hd]
  rw [ht.law ip (h.allocated ht), hsame, hnamed, if_neg hroot]
  rfl

theorem matching_links {i : Nat} (hi : i ≠ 0) :
    (T ip).matching (refersTo i) = if (T ip).type = .dir ∧ dp = i then 1 else 0 := by
  by_cases hdir : (T ip).type = .dir
  · obtain ⟨g, rest, hunused, hentries⟩ := h.dir_entries ht hdir
    have hrest : rest.countP (refersTo i) = 0 :=
      countP_eq_zero.mpr fun u hu => by simp [refersTo_unused hi (hunused u hu)]
    rw [matching_of_live ⟨hdir, h.links_pos ht⟩, hentries]
    simp [countP_cons, hrest, refersTo, hdir, dot, dotdot]
  · rw [matching_of_not_live (not_live_of_type hdir)]
    simp [hdir]

theorem matching_names {i : Nat} (hi : i ≠ 0) : (T ip).matching (isNameOf i) = 0 := by
  by_cases hdir : (T ip).type = .dir
  · obtain ⟨g, rest, hunused, hentries⟩ := h.dir_entries ht hdir
    have hrest : rest.countP (isNameOf i) = 0 :=
      countP_eq_zero.mpr fun u hu => by simp [isNameOf_unused hi (hunused u hu)]
    rw [matching_of_live ⟨hdir, h.links_pos ht⟩, hentries]
    simp [hrest, isNameOf]
  · exact matching_of_not_live (not_live_of_type hdir)

end

end

theorem at_ip : removeName T dp ip k ip = { T ip with nlink := (T ip).nlink - 1 } := by
  rw [removeName, update_self]

theorem at_dp (hne : dp ≠ ip) : removeName T dp ip k dp =
    { T dp with
      entries := (T dp).entries.set k unused
      nlink := (T dp).nlink - if (T ip).type = .dir then 1 else 0 } := by
  rw [removeName, update_of_ne hne, update_self]

theorem at_other {d : Nat} (hdp : d ≠ dp) (hip : d ≠ ip) : removeName T dp ip k d = T d := by
  rw [removeName, update_of_ne hip, update_of_ne hdp]

theorem type_after (d : Nat) : (removeName T dp ip k d).type = (T d).type := by
  by_cases hip : d = ip
  · rw [hip, at_ip]
  · by_cases hdp : d = dp
    · subst hdp
      rw [at_dp hip]
    · rw [at_other hdp hip]

theorem gen_after (d : Nat) : (removeName T dp ip k d).gen = (T d).gen := by
  by_cases hip : d = ip
  · rw [hip, at_ip]
  · by_cases hdp : d = dp
    · subst hdp
      rw [at_dp hip]
    · rw [at_other hdp hip]

theorem parent_after (h : Removable strict T dp ip k e) (ht : Tree strict T) (d : Nat) :
    (removeName T dp ip k d).parent = (T d).parent := by
  by_cases hip : d = ip
  · rw [hip, at_ip]
    rfl
  · by_cases hdp : d = dp
    · subst hdp
      have hk := h.two_le ht
      rw [at_dp hip, Inode.parent, Inode.parent, List.getElem?_set_ne (by omega)]
    · rw [at_other hdp hip]

theorem mem_after {d : Nat} {u : Dirent}
    (hu : u ∈ (removeName T dp ip k d).entries) (hinum : u.inum ≠ 0) : u ∈ (T d).entries := by
  by_cases hip : d = ip
  · rw [hip, at_ip] at hu
    exact hip ▸ hu
  · by_cases hdp : d = dp
    · subst hdp
      rw [at_dp hip] at hu
      obtain hu | rfl := mem_or_eq_of_mem_set hu
      · exact hu
      · exact absurd rfl hinum
    · rw [at_other hdp hip] at hu
      exact hu

section

variable (h : Removable strict T dp ip k e) (ht : Tree strict T)
include h ht

theorem live_dp : (removeName T dp ip k dp).Live := by
  refine ⟨(type_after dp).trans h.live.1, ?_⟩
  have hdp0 := (ht.live_range h.live).1.ne'
  have hpos := h.live.2
  rw [at_dp (h.ne ht)]
  by_cases hdir : (T ip).type = .dir
  · -- the links left when the removed directory no longer counts
    have hcut := tally_update (g := Inode.matching (refersTo dp)) (f := T)
      (a := ⟨.free, 0, 0, [], 0⟩) (Finset.mem_range.mpr (ht.range ip (h.allocated ht)).2)
    rw [h.matching_links ht hdp0, if_pos ⟨hdir, rfl⟩,
      matching_of_not_live (not_live_of_type (by decide))] at hcut
    have hlaw := ht.law dp (by rw [h.live.1]; decide)
    have hown : ∃ d, d ≠ ip ∧ (T d).Live ∧ ∃ u ∈ (T d).entries, refersTo dp u = true := by
      by_cases hroot : dp = rootino
      · obtain ⟨par, rest, hshape⟩ := ht.shape dp h.live.1
        refine ⟨dp, h.ne ht, h.live, par, by simp [hshape.entries], refersTo_iff.mpr ⟨?_, ?_⟩⟩
        · rw [← hshape.parent, hroot, ht.rootParent]
        · rw [hshape.parName]
          decide
      · obtain ⟨hlive, u, hu, hname⟩ := ht.name_in_parent h.live hroot
        have hun := isNameOf_iff.mp hname
        refine ⟨_, ?_, hlive, u, hu, refersTo_iff.mpr ⟨hun.1, hun.2.1⟩⟩
        intro hpar
        obtain ⟨g, rest, hunused, hentries⟩ := h.dir_entries ht hdir
        rw [hpar, hentries] at hu
        simp only [mem_cons] at hu
        obtain rfl | rfl | hu := hu
        · exact hun.2.1 rfl
        · exact hun.2.2 rfl
        · exact hdp0 (hun.1.symm.trans (hunused u hu))
    obtain ⟨d, hd, hlive, u, hu, hrefers⟩ := hown
    have hleft : 0 < tally (Finset.range ninodes) (Inode.matching (refersTo dp))
        (update T ip ⟨.free, 0, 0, [], 0⟩) := by
      refine tally_pos.mpr ⟨d, Finset.mem_range.mpr (ht.live_range hlive).2, ?_⟩
      rw [update_of_ne hd]
      exact matching_pos.mpr ⟨hlive, u, hu, hrefers⟩
    simp only [hdir, if_true]
    rw [linksTo] at hlaw
    omega
  · simpa [hdir] using hpos

theorem not_live_ip : ¬ (removeName T dp ip k ip).Live := by
  intro hlive
  have hdir : (T ip).type = .dir := (type_after ip).symm.trans hlive.1
  have hpos := hlive.2
  rw [at_ip] at hpos
  have hone := h.dir_nlink ht hdir
  simp only at hpos
  omega

theorem tally {p : Dirent → Bool} (hp : ∀ u, u.inum = 0 → p u = false) :
    tally (Finset.range ninodes) (Inode.matching p) (removeName T dp ip k) +
      (T ip).matching p + (if p e then 1 else 0) =
      tally (Finset.range ninodes) (Inode.matching p) T := by
  have hfirst := tally_update (g := Inode.matching p) (f := T) (a := removeName T dp ip k dp)
    (Finset.mem_range.mpr (ht.live_range h.live).2)
  have hsecond := tally_update (g := Inode.matching p)
    (f := update T dp (removeName T dp ip k dp)) (a := removeName T dp ip k ip)
    (Finset.mem_range.mpr (ht.range ip (h.allocated ht)).2)
  have hboth : removeName T dp ip k = update
      (update T dp (removeName T dp ip k dp)) ip (removeName T dp ip k ip) := by
    rw [at_dp (h.ne ht), at_ip]
    rfl
  have hset : (removeName T dp ip k dp).matching p + (if p e then 1 else 0) =
      (T dp).matching p := by
    rw [matching_of_live h.live, matching_of_live (h.live_dp ht), at_dp (h.ne ht)]
    exact countP_set_unused hp h.entry
  rw [update_of_ne (h.ne ht).symm, matching_of_not_live (h.not_live_ip ht),
    ← hboth] at hsecond
  omega

theorem links_after {i : Nat} (hi : i ≠ 0) : linksTo (removeName T dp ip k) i +
      (if (T ip).type = .dir ∧ dp = i then 1 else 0) + (if ip = i then 1 else 0) =
      linksTo T i := by
  have hname := isNameOf_iff.mp h.name
  have hval : refersTo i e = decide (ip = i) := by simp [refersTo, hname.1, hname.2.1]
  have htally := h.tally ht (p := refersTo i) fun _ => refersTo_unused hi
  simp only [h.matching_links ht hi, hval, decide_eq_true_eq] at htally
  exact htally

theorem names_after {i : Nat}
    (hi : i ≠ 0) (hip : i ≠ ip) : namesOf (removeName T dp ip k) i = namesOf T i := by
  have hname := isNameOf_iff.mp h.name
  have hval : isNameOf i e = false := by simp [isNameOf, hname.1, Ne.symm hip]
  have htally := h.tally ht (p := isNameOf i) fun _ => isNameOf_unused hi
  simp only [h.matching_names ht hi, hval, Bool.false_eq_true, if_false, Nat.add_zero] at htally
  exact htally

/-- Removing a name keeps the invariant. -/
theorem tree : Tree strict (removeName T dp ip k) := by
  have hpoints : ∀ {u}, Points T u → Points (removeName T dp ip k) u := by
    intro u hu
    rw [Points, type_after, gen_after]
    exact hu
  have hbefore : ∀ {d}, (removeName T dp ip k d).Live → d ≠ ip ∧ (T d).Live := by
    intro d hd
    have hip : d ≠ ip := by
      rintro rfl
      exact h.not_live_ip ht hd
    refine ⟨hip, ?_⟩
    by_cases hdp : d = dp
    · rw [hdp]
      exact h.live
    · rw [at_other hdp hip] at hd
      exact hd
  have hafter : ∀ {d}, d ≠ ip → (T d).Live → (removeName T dp ip k d).Live := by
    intro d hip hd
    by_cases hdp : d = dp
    · rw [hdp]
      exact h.live_dp ht
    · rw [at_other hdp hip]
      exact hd
  have hrootNe : rootino ≠ ip := by
    rintro rfl
    have hpos := ht.namesOf_pos h.live h.mem h.name
    rw [ht.named _ ht.root, if_pos rfl] at hpos
    exact absurd hpos (by decide)
  refine
    { root := hafter hrootNe ht.root
      rootParent := by
        rw [h.parent_after ht]
        exact ht.rootParent
      range := fun i hi => ht.range i (type_after i ▸ hi)
      shape := ?_
      points := ?_
      child := ?_
      orphan := ?_
      named := ?_
      law := ?_
      small := ?_ }
  · intro d hd
    rw [type_after] at hd
    obtain ⟨par, rest, hshape⟩ := ht.shape d hd
    by_cases hip : d = ip
    · subst hip
      obtain ⟨g, rest', hunused, hentries⟩ := h.dir_entries ht hd
      rw [at_ip]
      refine ⟨_, rest', hentries, rfl, (ht.live_range h.live).1.ne', fun u hu hinum => ?_⟩
      exact absurd (hunused u hu) hinum
    · by_cases hdp : d = dp
      · subst hdp
        have hk := h.two_le ht
        have hlive := h.live_dp ht
        rw [at_dp hip] at hlive ⊢
        refine ⟨par, rest.set (k - 2) unused, ?_, hshape.parName, hshape.parInum, ?_⟩
        · obtain ⟨k, rfl⟩ := Nat.exists_eq_add_of_le' hk
          simp [hshape.entries]
        · intro u hu hinum
          refine ⟨hlive.2, ?_⟩
          obtain hu | rfl := mem_or_eq_of_mem_set hu
          · exact (hshape.names u hu hinum).2
          · exact absurd rfl hinum
      · rw [at_other hdp hip]
        exact ⟨par, rest, hshape⟩
  · intro d hd hcover u hu hinum
    rw [type_after] at hd
    refine hpoints (ht.points d hd ?_ u (mem_after hu hinum) hinum)
    exact hcover.imp_right fun hlive => (hbefore hlive).2
  · intro d hd u hu hname hdir
    rw [type_after] at hdir
    rw [h.parent_after ht]
    have hinum := (ht.range u.inum (by rw [hdir]; decide)).1.ne'
    exact ht.child d (hbefore hd).2 u (mem_after hu hinum) hname hdir
  · intro hs d hd hdead
    rw [type_after] at hd
    rw [h.parent_after ht]
    by_cases hip : d = ip
    · subst hip
      obtain ⟨g, rest, -, hentries⟩ := h.dir_entries ht hd
      have hpar : (T d).parent = dp := by simp [Inode.parent, hentries]
      rw [hpar]
      exact h.live_dp ht
    · have hold : ¬ (T d).Live := fun hlive => hdead (hafter hip hlive)
      have hpar := ht.orphan hs d hd hold
      refine hafter (fun heq => ?_) hpar
      exact h.kept hs (heq ▸ hpar.1) d hd hold heq
  · intro d hd
    obtain ⟨hip, hlive⟩ := hbefore hd
    rw [h.names_after ht (ht.live_range hlive).1.ne' hip]
    exact ht.named d hlive
  · intro i hi
    rw [type_after] at hi
    have hlinks := h.links_after ht (ht.range i hi).1.ne'
    have hlaw := ht.law i hi
    by_cases hip : i = ip
    · subst hip
      simp only [h.ne ht, and_false, if_false, if_true, Nat.add_zero] at hlinks
      rw [at_ip]
      simp only
      omega
    · by_cases hdp : i = dp
      · subst hdp
        simp only [Ne.symm hip, and_true, if_false, Nat.add_zero] at hlinks
        rw [at_dp hip]
        by_cases hdir : (T ip).type = .dir
        · simp only [hdir, if_true] at hlinks ⊢
          omega
        · simp only [hdir, if_false] at hlinks ⊢
          omega
      · simp only [Ne.symm hdp, Ne.symm hip, and_false, if_false, Nat.add_zero] at hlinks
        rw [at_other hdp hip, hlinks]
        exact hlaw
  · intro i hi
    rw [type_after] at hi
    have hsmall := ht.small i hi
    by_cases hip : i = ip
    · subst hip
      rw [at_ip]
      exact (Int.sub_le_self _ (by decide)).trans hsmall
    · by_cases hdp : i = dp
      · subst hdp
        rw [at_dp hip]
        exact (Int.sub_le_self _ (by split <;> decide)).trans hsmall
      · rw [at_other hdp hip]
        exact hsmall

end

end Removable

end EafitOs.Directory
