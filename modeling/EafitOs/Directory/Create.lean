import EafitOs.Directory.Lookup
import EafitOs.Directory.Names

/-!
# Creating inodes

`create` puts a new inode and its name into a directory, or gives back everything it
took. While it runs the link counts are off; they are right again when it returns.
-/

namespace EafitOs.Directory

open Foundation Function List

theorem short_eq {n : Int} (hlow : -32768 ≤ n) (hhigh : n ≤ maxLinks) : short n = n := by
  rw [maxLinks] at hhigh
  rw [short, Int.bmod_eq_of_le (by omega) (by omega)]

/-- The link count of a parent after a child of the type was made. -/
def linksAfter (n : Inode) (type : InodeType) : Int :=
  if type = .dir then short (n.nlink + 1) else n.nlink

section Specs

variable {strict : Prop} {P : (Nat → Inode) → Prop} {s : State} {held : List Nat}

theorem writeEntry_put (s : State) (dp : Nat) (e : Dirent) :
    ∃ a, writeEntry s dp ((s.inode dp).entries.findIdx fun u => u.inum == 0) e =
        (false, { s with asked := a }) ∨
      writeEntry s dp ((s.inode dp).entries.findIdx fun u => u.inum == 0) e =
        (true, { s with asked := a }.setInode dp
          { s.inode dp with entries := putEntry (s.inode dp).entries e }) := by
  rw [writeEntry]
  simp only
  split
  · rename_i hlt
    exact ⟨s.asked, .inr (by rw [putEntry_eq_set hlt])⟩
  · rename_i hge
    rw [putEntry_eq_append hge]
    split
    · exact ⟨s.asked, .inl rfl⟩
    · split
      · exact ⟨s.asked, .inr rfl⟩
      · split
        · exact ⟨s.asked + 1, .inr rfl⟩
        · exact ⟨s.asked + 1, .inl rfl⟩

theorem Counted.dirlink (h : Counted held s) (dp : Nat) (name : Name) (inum : Nat)
    (hstays : ∀ k e, findEntry name (s.inode dp).entries 0 = some (k, e) →
      Stays held s e.inum) : Ends (dirlink s dp name inum) (fun r => ∃ s', Touches s s' ∧
      Counted held s' ∧ (∀ k ∈ held, s'.valid k = s.valid k) ∧
      (r = (false, s') ∨ (∀ e ∈ (s.inode dp).entries, e.inum ≠ 0 → e.name ≠ name) ∧
        r = (true, s'.setInode dp { s.inode dp with
          entries := putEntry (s.inode dp).entries ⟨inum, name, (s.inode inum).gen⟩ })))
      (Avoids strict) := by
  have hpos : ∀ k ∈ held, 0 < s.ref k := by
    intro k hk
    rw [h.count]
    exact Nat.add_pos_right _ (count_pos_iff.mpr hk)
  refine (h.dirlookup dp name).bind fun r hr => ?_
  obtain ⟨found, s₁⟩ := r
  obtain ⟨ht, hvalid, hr⟩ := hr
  have hvalid₁ : ∀ k ∈ held, s₁.valid k = s.valid k := fun k hk => hvalid k (hpos k hk)
  cases found with
  | some res =>
    obtain ⟨ip, k⟩ := res
    obtain ⟨hc, e, hfind, rfl⟩ := hr
    have hk := ht.stays (hstays k e hfind)
    obtain ⟨ht', hc'⟩ := hc.iput hk
    refine .ok ⟨_, ht.trans ht', hc', ?_, .inl rfl⟩
    rw [hc.iput_eq hk]
    exact hvalid₁
  | none =>
    obtain ⟨hc, hnone⟩ := hr
    obtain ⟨a, hput⟩ := writeEntry_put s₁ dp ⟨inum, name, (s₁.inode inum).gen⟩
    have hasked : Touches s₁ { s₁ with asked := a } := ⟨rfl, rfl, rfl, fun _ => id⟩
    refine .ok ⟨{ s₁ with asked := a }, ht.trans hasked,
      ⟨hc.count, hc.typed, hc.used, hc.files⟩, hvalid₁, ?_⟩
    refine hput.imp id fun hput => ⟨findEntry_none hnone, ?_⟩
    have hinode : s₁.inode = s.inode := ht.inode
    rw [← hinode]
    exact hput

theorem Counted.ialloc {type : InodeType} (h : Counted held s) (htype : type ≠ .free) :
    Ends (ialloc s type) (fun r => r = (none, s) ∨ ∃ ip s', r = (some ip, s') ∧
      (s.inode ip).type = .free ∧ 0 < ip ∧ ip < ninodes ∧ Counted (ip :: held) s' ∧
      s'.inode = update s.inode ip ⟨type, 0, 0, [], (s.inode ip).gen + 1⟩ ∧
      s'.slot = s.slot ∧ s'.ftable = s.ftable ∧ (∀ k, k ≠ ip → Kept s k → Kept s' k) ∧
      ∀ k, 0 < s.ref k → s'.valid k = s.valid k) (Avoids strict) := by
  rw [Directory.ialloc]
  split
  · exact .ok (.inl rfl)
  · rename_i ip hfind
    have hfree : (s.inode ip).type = .free := by simpa using List.find?_some hfind
    have hrange : 1 ≤ ip ∧ ip < ninodes := by
      have hmem := mem_range'_1.mp (mem_of_find?_eq_some hfind)
      rw [ninodes] at hmem ⊢
      omega
    have hset := h.setInode (i := ip) (n := ⟨type, 0, 0, [], (s.inode ip).gen + 1⟩)
      fun _ => htype
    refine hset.iget.bind fun s' hs' => .ok (.inr ⟨ip, s', rfl, hfree, hrange.1, hrange.2, hs'.2.1,
      hs'.1.inode, hs'.1.slot, hs'.1.ftable, fun k hk hkept => ?_, hs'.2.2⟩)
    exact hs'.1.kept k (hkept.setInode_ne hk)

/-- The same inodes are allocated, with the same records: type, link count and entries, and
of the same allocation, so that nothing was truncated in between. -/
def SameInodes (T T' : Nat → Inode) : Prop :=
  ∀ i, ((T' i).type = .free ↔ (T i).type = .free) ∧ ((T i).type ≠ .free → T' i = T i)

theorem SameInodes.of_eq {T T' : Nat → Inode} (h : T' = T) : SameInodes T T' := by
  subst h
  exact fun i => ⟨Iff.rfl, fun _ => rfl⟩

/-- What `create` leaves: its result is allocated, and if it fails the inodes are as `T` has
them. -/
structure Made (P : (Nat → Inode) → Prop) (T : Nat → Inode) (s : State) (r : Option Nat × State) :
    Prop where
  sound : Sound P r.1.toList r.2
  slot : r.2.slot = s.slot
  typed : ∀ j ∈ r.1, (r.2.inode j).type ≠ .free
  clean : r.1 = none → SameInodes T r.2.inode

theorem Made.of_slot {T : Nat → Inode} {s₀ : State} {r : Option Nat × State} (h : Made P T s r)
    (hslot : s.slot = s₀.slot) : Made P T s₀ r :=
  { h with slot := h.slot.trans hslot }

theorem Made.failed {s' : State} (h : Sound P [] s') (ht : Touches s s') :
    Made P s.inode s (none, s') :=
  ⟨h, ht.slot, fun j hj => (by cases hj), fun _ => .of_eq ht.inode⟩

/-- The state of `create` between `ialloc` and its return: the new inode has record `n` and
one link, and `T` is what the inodes were before. -/
structure Creating (P : (Nat → Inode) → Prop) (T : Nat → Inode) (dp ip : Nat) (n : Inode)
    (s : State) : Prop where
  inode : s.inode = update T ip n
  counted : Counted [ip, dp] s
  kept : ∀ k, Kept s k
  valid : ∀ k ∈ [ip, dp], s.valid k = true
  users : s.users ip = 0
  table : P T
  dir : (T dp).type = .dir
  parent : (T dp).nlink = 0 → 0 < s.users dp
  free : (T ip).type = .free
  new : n.type ≠ .free
  linked : n.nlink = 1

namespace Creating

variable {T : Nat → Inode} {dp ip : Nat} {n : Inode}

section

variable (h : Creating P T dp ip n s)
include h

theorem ne : dp ≠ ip := by
  rintro rfl
  have htype := h.dir
  rw [h.free] at htype
  cases htype

theorem touch {s' : State} (ht : Touches s s')
    (hc : Counted [ip, dp] s') (hv : ∀ k ∈ [ip, dp], s'.valid k = s.valid k) :
    Creating P T dp ip n s' :=
  { h with
    inode := ht.inode.trans h.inode
    counted := hc
    kept := fun k => ht.kept k (h.kept k)
    valid := fun k hk => (hv k hk).trans (h.valid k hk)
    users := by
      rw [ht.users]
      exact h.users
    parent := by
      rw [ht.users]
      exact h.parent }

theorem setInode {n' : Inode} (hnew : n'.type ≠ .free)
    (hlink : n'.nlink = 1) : Creating P T dp ip n' (s.setInode ip n') :=
  { h with
    inode := by
      rw [State.setInode, h.inode, update_idem]
    counted := h.counted.setInode fun _ => hnew
    kept := Kept.setInode (fun k _ => h.kept k) (.inl (by rw [hlink]; decide))
    new := hnew
    linked := hlink }

theorem inode_ip : s.inode ip = n := by
  rw [h.inode, update_self]

theorem inode_dp : s.inode dp = T dp := by
  rw [h.inode, update_of_ne h.ne]

theorem fail [Settled P] : Made P T s (createFail s dp ip) := by
  have hc₀ : Counted [ip, dp] (s.setInode ip { s.inode ip with nlink := 0 }) :=
    h.counted.setInode fun hfree => hfree
  have hone : s.ref ip = 1 := by
    rw [h.counted.count, h.users]
    simp [h.ne]
  have hzero : ((s.setInode ip { s.inode ip with nlink := 0 }).inode ip).nlink = 0 := by
    simp [State.setInode]
  obtain ⟨hinode, hc, hkept, hslot⟩ := hc₀.iput_free hone (h.valid ip (by simp)) hzero
  obtain ⟨s₁, hs₁⟩ : ∃ s₁, s₁ = iput (s.setInode ip { s.inode ip with nlink := 0 }) ip := ⟨_, rfl⟩
  rw [← hs₁] at hinode hc hkept hslot
  rw [State.setInode, h.inode, update_idem, update_idem] at hinode
  have hother : ∀ k, k ≠ ip → s₁.inode k = T k := fun k hk => by
    rw [hinode, update_of_ne hk]
  have husers : s₁.users = s.users := by
    funext k
    rw [hs₁, iput]
    split <;> rfl
  have hsound : Sound P [dp] s₁ := by
    refine ⟨?_, hc, fun k => ?_⟩
    · rw [hinode]
      exact Settled.retire h.table rfl (.inl h.free)
    · by_cases hk : k = ip
      · subst hk
        intro hne
        rw [hinode, update_self] at hne
        exact absurd rfl hne
      · exact hkept k hk ((h.kept k).setInode_ne hk)
  have hstays : Stays [] s₁ dp := by
    intro _ hlink
    rw [hother dp h.ne] at hlink
    rw [husers]
    exact Nat.add_pos_left (h.parent hlink) _
  obtain ⟨ht, hc'⟩ := hc.iput hstays
  rw [createFail, ← hs₁]
  refine ⟨hsound.touch ht hc', ht.slot.trans hslot, fun j hj => (by cases hj), fun _ i => ?_⟩
  rw [ht.inode]
  by_cases hi : i = ip
  · subst hi
    rw [hinode, update_self]
    exact ⟨⟨fun _ => h.free, fun _ => rfl⟩, fun hne => absurd h.free hne⟩
  · rw [hother i hi]
    exact ⟨Iff.rfl, fun _ => rfl⟩

/-- The end of `create`, for a property that the new name and the link of a new directory to
its parent keep. -/
theorem createName [Settled P] {name : Name}
    (hadd : (∀ e ∈ (T dp).entries, e.inum ≠ 0 → e.name ≠ name) →
      P (addName T dp ip name n (linksAfter (T dp) n.type))) :
    Ends (createName s dp ip name n.type) (Made P T s) (Avoids strict) := by
  refine (h.counted.dirlink dp name ip fun _ e _ => h.counted.stays (h.kept e.inum)).bind
    fun r hr => ?_
  obtain ⟨s', ht, hc, hv, rfl | ⟨habsent, rfl⟩⟩ := hr
  · exact .ok ((h.touch ht hc hv).fail.of_slot ht.slot)
  · have h' := h.touch ht hc hv
    rw [h.inode_dp] at habsent
    rw [h.inode_dp, h.inode_ip]
    -- both branches write the same record of the parent
    have hfinal : ∀ s'' : State, s'' = s'.setInode dp { T dp with
          entries := putEntry (T dp).entries ⟨ip, name, n.gen⟩
          nlink := linksAfter (T dp) n.type } → Made P T s (some ip, iput s'' dp) := by
      intro s'' hs''
      have hinode : s''.inode = addName T dp ip name n (linksAfter (T dp) n.type) := by
        rw [hs'', State.setInode, h'.inode]
        rfl
      have hsound : Sound P [dp, ip] s'' := by
        refine ⟨hinode ▸ hadd habsent, ?_, ?_⟩
        · rw [hs'']
          exact (hc.setInode fun _ => by rw [h.dir]; decide).perm (.swap ..)
        · rw [hs'']
          refine Kept.setInode (fun k _ => h'.kept k) (.inr ⟨?_, h'.valid dp (by simp)⟩)
          exact (hc.perm (.swap ..)).ref_pos
      obtain ⟨hs, hslot⟩ := hsound.iput
      refine ⟨hs, hslot.trans ?_, ?_, fun hnone => (by cases hnone)⟩
      · rw [hs'']
        exact ht.slot
      · rintro j ⟨⟩
        rw [iput_inode_ne h.ne.symm, hinode, addName, update_of_ne h.ne.symm, update_self]
        exact h.new
    simp only [not_true_eq_false, if_false]
    by_cases hdir : n.type = .dir
    · rw [if_pos hdir]
      refine .ok (hfinal _ ?_)
      simp only [State.setInode_self, State.setInode_setInode, linksAfter, if_pos hdir]
    · rw [if_neg hdir]
      refine .ok (hfinal _ ?_)
      rw [linksAfter, if_neg hdir]

theorem createDots (hempty : n.entries = []) (hip : 0 < ip) :
    Ends (createDots s dp ip) (fun r => r.2.slot = s.slot ∧
      ((r.1 = false ∧ ∃ n', Creating P T dp ip n' r.2) ∨
        (r.1 = true ∧ Creating P T dp ip
          { n with entries := [⟨ip, dot, n.gen⟩, ⟨dp, dotdot, (T dp).gen⟩] } r.2)))
      (Avoids strict) := by
  refine (h.counted.dirlink ip dot ip fun _ e _ => h.counted.stays (h.kept e.inum)).bind
    fun r hr => ?_
  obtain ⟨s₁, ht₁, hc₁, hv₁, rfl | ⟨-, rfl⟩⟩ := hr
  · exact .ok ⟨ht₁.slot, .inl ⟨rfl, n, h.touch ht₁ hc₁ hv₁⟩⟩
  · rw [h.inode_ip, hempty]
    have h₁ : Creating P T dp ip { n with entries := [⟨ip, dot, n.gen⟩] }
        (s₁.setInode ip { n with entries := putEntry [] ⟨ip, dot, n.gen⟩ }) :=
      (h.touch ht₁ hc₁ hv₁).setInode h.new h.linked
    simp only [not_true_eq_false, if_false]
    refine (h₁.counted.dirlink ip dotdot dp fun _ e _ =>
      h₁.counted.stays (h₁.kept e.inum)).imp fun r hr => ?_
    obtain ⟨s₂, ht₂, hc₂, hv₂, rfl | ⟨-, rfl⟩⟩ := hr
    · exact ⟨ht₂.slot.trans ht₁.slot, .inl ⟨rfl, _, h₁.touch ht₂ hc₂ hv₂⟩⟩
    · refine ⟨ht₂.slot.trans ht₁.slot, .inr ⟨rfl, ?_⟩⟩
      rw [h₁.inode_ip, h₁.inode_dp]
      have hput : putEntry [⟨ip, dot, n.gen⟩] ⟨dp, dotdot, (T dp).gen⟩ =
          [⟨ip, dot, n.gen⟩, ⟨dp, dotdot, (T dp).gen⟩] := by
        simp [putEntry, hip.ne']
      rw [hput]
      exact (h₁.touch ht₂ hc₂ hv₂).setInode h.new h.linked

end

end Creating

/-- What `create` has found out about the inode and the name it is going to add. -/
structure Vacant (T : Nat → Inode) (dp ip : Nat) (name : Name) : Prop where
  dir : (T dp).type = .dir
  free : (T ip).type = .free
  range : 0 < ip ∧ ip < ninodes
  absent : ∀ e ∈ (T dp).entries, e.inum ≠ 0 → e.name ≠ name

/-- The record that `create` makes. -/
def created (T : Nat → Inode) (dp ip : Nat) (type : InodeType) (major : Int) (g : Nat) : Inode where
  type := type
  major := short major
  nlink := 1
  entries := if type = .dir then [⟨ip, dot, g⟩, ⟨dp, dotdot, (T dp).gen⟩] else []
  gen := g

theorem createInode_made [Settled P] {T : Nat → Inode} {dp ip : Nat} {name : Name}
    {type : InodeType} {major : Int} {g : Nat} (ht : P T) (hv : Vacant T dp ip name)
    (htype : type ≠ .free) (hinode : s.inode = update T ip ⟨type, 0, 0, [], g⟩)
    (hc : Counted [ip, dp] s) (hkept : ∀ k, k ≠ ip → Kept s k) (husers : s.users ip = 0)
    (hvalid : s.valid dp = true) (hparent : (T dp).nlink = 0 → 0 < s.users dp)
    (hadd : P (addName T dp ip name (created T dp ip type major g) (linksAfter (T dp) type))) :
    Ends (createInode s dp ip name type major) (Made P T s) (Avoids strict) := by
  have hip : s.inode ip = ⟨type, 0, 0, [], g⟩ := by
    rw [hinode, update_self]
  refine (hc.ilock fun _ => by rw [hip]; exact htype).bind fun s₁ hs₁ => ?_
  obtain ⟨ht₁, hc₁, hvalid₁, _⟩ := hs₁
  have hip₁ : s₁.inode ip = ⟨type, 0, 0, [], g⟩ := by
    rw [ht₁.inode, hip]
  have h : Creating P T dp ip ⟨type, short major, 1, [], g⟩
      (s₁.setInode ip ⟨type, short major, 1, [], g⟩) := by
    refine ⟨?_, hc₁.setInode fun _ => htype, ?_, fun k hk => hvalid₁ k ?_, ?_, ht, hv.dir, ?_,
      hv.free,
      htype, rfl⟩
    · rw [State.setInode, ht₁.inode, hinode, update_idem]
    · exact Kept.setInode (fun k hk => ht₁.kept k (hkept k hk))
        (.inl (show (1 : Int) ≠ 0 by decide))
    · simp only [mem_cons, not_mem_nil, or_false] at hk
      obtain rfl | rfl := hk
      · exact .inl rfl
      · exact .inr hvalid
    · change s₁.users ip = 0
      rw [ht₁.users, husers]
    · change _ → 0 < s₁.users dp
      rw [ht₁.users]
      exact hparent
  simp only [hip₁]
  by_cases hdir : type = .dir
  · rw [created, if_pos hdir] at hadd
    rw [if_pos hdir]
    refine (h.createDots rfl hv.range.1).bind fun r hr => ?_
    obtain ⟨hslot, hr⟩ := hr
    obtain ⟨ok, s₂⟩ := r
    have hslot' : s₂.slot = s.slot := hslot.trans ht₁.slot
    obtain ⟨rfl, n', h'⟩ | ⟨rfl, h'⟩ := hr
    · exact .ok (h'.fail.of_slot hslot')
    · exact (h'.createName fun _ => hadd).imp fun r hr => hr.of_slot hslot'
  · rw [created, if_neg hdir] at hadd
    rw [if_neg hdir]
    exact (h.createName fun _ => hadd).imp fun r hr => hr.of_slot ht₁.slot

theorem Sound.createFound {dp ip : Nat} (type : InodeType) (h : Sound P [ip, dp] s)
    (hstays : ∀ i, Stays [] s i) (hip : strict → (s.inode ip).type ≠ .free) :
    Ends (createFound s dp ip type) (Made P s.inode s) (Avoids strict) := by
  obtain ⟨ht, hc⟩ := (h.counted.perm (.swap ..)).iput (hstays dp).weaken
  refine (hc.ilock (ht.inode ▸ hip)).bind fun s₁ hs₁ => ?_
  obtain ⟨ht₁, hc₁, _, htyped⟩ := hs₁
  have ht' := ht.trans ht₁
  split
  · refine .ok ⟨h.touch ht' hc₁, ht'.slot, ?_, fun hnone => (by cases hnone)⟩
    rintro j ⟨⟩
    rw [ht₁.inode]
    exact htyped
  · obtain ⟨ht₂, hc₂⟩ := hc₁.iput (ht'.stays (hstays ip))
    exact .ok (.failed (h.touch (ht'.trans ht₂) hc₂) (ht'.trans ht₂))

theorem Sound.create [Settled P] {cwd : Nat} {path : Path} {type : InodeType} {major : Int}
    (h : Sound P [] s) (hw : Walkable strict [] s cwd) (htype : type ≠ .free)
    (hadd : ∀ dp ∈ follow s.inode (start cwd path) path.elements.dropLast,
      ∀ ip name g, Vacant s.inode dp ip name →
        P (addName s.inode dp ip name (created s.inode dp ip type major g)
          (linksAfter (s.inode dp) type))) :
    Ends (create s cwd path type major) (Made P s.inode s) (Avoids strict) := by
  refine hw.namex.bind fun r hr => ?_
  obtain ⟨found, s₁⟩ := r
  obtain ⟨ht₁, hc₁, hfinds⟩ := hr
  cases found with
  | none => exact .ok (.failed (h.touch ht₁ hc₁) ht₁)
  | some res =>
    obtain ⟨dp, name⟩ := res
    obtain ⟨hdir, init, hnames, hfollow⟩ := hfinds
    rw [hnames, dropLast_concat] at hadd
    refine (hc₁.ilock fun _ => ?_).bind fun s₂ hs₂ => ?_
    · rw [ht₁.inode, hdir]
      decide
    obtain ⟨ht₂, hc₂, hvalid₂, _⟩ := hs₂
    have ht := ht₁.trans ht₂
    have href₂ : 0 < s₂.ref dp := hc₂.ref_pos
    refine (hc₂.dirlookup dp name).bind fun r hr => ?_
    obtain ⟨found, s₃⟩ := r
    obtain ⟨ht₃, hvalid₃, hr⟩ := hr
    have ht' := ht.trans ht₃
    cases found with
    | some res =>
      obtain ⟨ip, k⟩ := res
      obtain ⟨hc₃, e, hfind, rfl⟩ := hr
      have hmade := (h.touch ht' hc₃).createFound type (fun i => ht'.stays (h.stays i))
        fun hs : strict => by
          obtain ⟨i, -, hi, hinum, -⟩ := findEntry_some hfind
          rw [ht.inode] at hi
          rw [ht'.inode]
          exact hw.closed hs dp hdir e (mem_of_getElem? hi) hinum
      rw [ht'.inode] at hmade
      exact hmade.imp fun r hr => hr.of_slot ht'.slot
    | none =>
      refine (hr.1.ialloc htype).bind fun r hr₄ => ?_
      obtain rfl | ⟨ip, s₄, rfl, hfree, hip0, hip, hc₄, hinode, hslot, hftable, hkept, hv₄⟩ := hr₄
      · obtain ⟨ht₄, hc₄⟩ := hr.1.iput (ht'.stays (h.stays dp))
        exact .ok (.failed (h.touch (ht'.trans ht₄) hc₄) (ht'.trans ht₄))
      · have husers : s₄.users = s₃.users := by
          funext i
          rw [State.users, State.users, hslot, hftable]
        have hnew : s₄.users ip = 0 := by
          by_contra hne
          exact hr.1.used ip (Nat.pos_of_ne_zero (husers ▸ hne)) hfree
        have hvalid : s₄.valid dp = true := by
          rw [hv₄ dp hr.1.ref_pos, hvalid₃ dp href₂]
          exact hvalid₂ dp (.inl rfl)
        have hparent : (s.inode dp).nlink = 0 → 0 < s₄.users dp := by
          intro hlink
          rw [husers, ht'.users]
          simpa using h.stays dp (by rw [hdir]; decide) hlink
        rw [ht'.inode] at hfree hinode
        have hvacant : Vacant s.inode dp ip name :=
          ⟨hdir, hfree, ⟨hip0, hip⟩, findEntry_none (ht.inode ▸ hr.2)⟩
        refine (createInode_made h.table hvacant htype hinode hc₄
          (fun k hk => hkept k hk (ht'.kept k (h.kept k))) hnew hvalid hparent
          (hadd dp hfollow ip name _ hvacant)).imp fun r hr => ?_
        exact hr.of_slot (hslot.trans ht'.slot)

end Specs

section Trees

variable {strict : Prop} {T : Nat → Inode} {s : State} {held : List Nat}

instance : Settled (Tree strict) where
  retire := fun h hn hi => h.retire hn hi
  short := fun h hi => short_eq (by have := h.nlink_nonneg hi; omega) (h.small _ hi)

theorem Sound.walkable {cwd : Nat} (h : Sound (Tree strict) held s) (hcwd : 0 < s.users cwd) :
    Walkable strict held s cwd where
  counted := h.counted
  stays := h.stays
  closed := h.table.closed
  root := fun _ => by rw [h.table.root.1]; decide
  cwd := hcwd

theorem Tree.name_of_absent {dp : Nat} {name : Name} (h : Tree strict T)
    (hdp : (T dp).Live) (habsent : ∀ e ∈ (T dp).entries, e.inum ≠ 0 → e.name ≠ name) :
    name ≠ dot ∧ name ≠ dotdot := by
  obtain ⟨par, rest, hshape⟩ := h.shape dp hdp.1
  rw [hshape.entries] at habsent
  constructor
  · rintro rfl
    exact habsent ⟨dp, dot, (T dp).gen⟩ (by simp) (h.live_range hdp).1.ne' rfl
  · rintro rfl
    exact habsent par (by simp) hshape.parInum hshape.parName

/-- A new inode in a directory with room for its link keeps the tree. -/
theorem Tree.created {dp ip : Nat} {name : Name} {type : InodeType} {major : Int} {g : Nat}
    (h : Tree strict T) (hv : Vacant T dp ip name) (htype : type ≠ .free)
    (hpos : 0 < (T dp).nlink) (hroom : type = .dir → (T dp).nlink < maxLinks) :
    Tree strict (addName T dp ip name (created T dp ip type major g)
      (linksAfter (T dp) type)) := by
  have hlinks : linksAfter (T dp) type = (T dp).nlink + if type = .dir then 1 else 0 := by
    rw [linksAfter]
    split
    · have hlt := hroom ‹_›
      exact short_eq (by omega) (by omega)
    · rw [add_zero]
  have hsmall := h.small dp (by rw [hv.dir]; decide)
  rw [hlinks]
  refine Addable.tree ⟨⟨hv.dir, hpos⟩, by rw [hv.free]; decide, hv.range, htype,
    h.name_of_absent ⟨hv.dir, hpos⟩ hv.absent, ?_, fun hne => absurd hv.free hne,
    fun hdir => ⟨hv.free, if_pos hdir⟩, rfl, show (1 : Int) ≤ maxLinks by decide, ?_⟩ h
  · rw [h.linksTo_free hv.free hv.range.1.ne']
    rfl
  · split
    · have := hroom ‹_›
      omega
    · omega

end Trees

end EafitOs.Directory
