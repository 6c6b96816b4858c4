import EafitOs.FileSystem.BlockOwnership
import EafitOs.Foundation.Spans

/-!
# What writing a file changes

`bmap` gives a block to a place that names none, and a chunk of `writei` changes bytes of
one block of the file. The blocks of other files and the other bytes stay. Every change
is logged but for a source copy that fails within a block.
-/

namespace EafitOs.FileSystem

open Foundation Disk Function List Option

/-- The slot names the block at an index of file `i`. -/
inductive Names (i : Nat) : Nat → Slot → Prop
  | direct (k : Fin ndirect) : Names i k (.addr i k.castSucc)
  | entry (k : Fin nindirect) : Names i (ndirect + k) (.entry i k)

def Serves (i bn : Nat) (x : Slot) : Prop := Names i bn x ∨ x = .addr i indirect ∧ ndirect ≤ bn

def Slot.inum : Slot → Nat
  | .addr i _ | .entry i _ => i

def blockOf (s : Store) (d : Dinode) (bn : Nat) : Option Nat :=
  if bn < ndirect then ptr (d.addrs (@Fin.ofNat (ndirect + 1) neZeroAddrs bn))
  else if bn < maxfile then
    (ptr (d.addrs indirect)).bind fun a => ptr (entry (s.bread a) (bn - ndirect))
  else none

def byteOf (s : Store) (d : Dinode) (k : Nat) : Option UInt8 :=
  (blockOf s d (k / bsize)).map fun b => s.bread b (Fin.ofNat bsize k)

namespace Names

variable {i j bn bn' : Nat} {x : Slot}

theorem inj (h : Names i bn x) (h' : Names j bn' x) : i = j ∧ bn = bn' := by
  cases h with
  | direct k =>
    generalize hx : Slot.addr i k.castSucc = x at h'
    cases h' with
    | direct m =>
      obtain ⟨rfl, hkm⟩ := Slot.addr.inj hx
      have hval : k.castSucc.val = m.castSucc.val := congrArg Fin.val hkm
      exact ⟨rfl, hval⟩
    | entry m => cases hx
  | entry k =>
    generalize hx : Slot.entry i k = x at h'
    cases h' with
    | direct m => cases hx
    | entry m =>
      obtain ⟨rfl, rfl⟩ := Slot.entry.inj hx
      exact ⟨rfl, rfl⟩

theorem ne_indirect (h : Names i bn x) (j : Nat) : x ≠ .addr j indirect := by
  cases h with
  | direct k =>
    intro heq
    have hval := congrArg Fin.val (Slot.addr.inj heq).2
    have := k.isLt
    simp only [Fin.val_castSucc, indirect, Fin.val_last] at hval
    omega
  | entry k => simp

theorem inum (h : Names i bn x) : x.inum = i := by
  cases h with
  | direct k => rfl
  | entry k => rfl

theorem lt_maxfile (h : Names i bn x) : bn < maxfile := by
  cases h with
  | direct k =>
    have := k.isLt
    simp only [maxfile]
    omega
  | entry k =>
    have := k.isLt
    simp only [maxfile]
    omega

theorem exists_of_lt (i : Nat) (h : bn < maxfile) : ∃ x, Names i bn x := by
  by_cases hdir : bn < ndirect
  · exact ⟨_, .direct ⟨bn, hdir⟩⟩
  · have hlt : bn - ndirect < nindirect := by
      simp only [maxfile] at h
      omega
    have hname := Names.entry (i := i) ⟨bn - ndirect, hlt⟩
    simp only [Nat.add_sub_cancel' (Nat.not_lt.mp hdir)] at hname
    exact ⟨_, hname⟩

end Names

section BlockOf

variable {sb : Superblock} {s : Store} {inode : Nat → Dinode} {i bn b : Nat} {x : Slot}

theorem blockOf_eq_held (hi : i < sb.ninodes) (hlive : (inode i).type ≠ 0) (hx : Names i bn x) :
    blockOf s (inode i) bn = held sb s inode x := by
  have hlt := hx.lt_maxfile
  cases hx with
  | direct k =>
    have hfin : Fin.ofNat (ndirect + 1) k.val = k.castSucc :=
      Fin.ext (Nat.mod_eq_of_lt (Nat.lt_succ_of_lt k.isLt))
    rw [blockOf, if_pos k.isLt, hfin, held, if_pos ⟨hi, hlive⟩]
  | entry k =>
    rw [blockOf, if_neg (by omega), if_pos hlt, Nat.add_sub_cancel_left, held,
      if_pos ⟨hi, hlive⟩]

theorem blockOf_of_ge {d : Dinode} (h : maxfile ≤ bn) : blockOf s d bn = none := by
  have hdir : ndirect ≤ maxfile := Nat.le_add_right _ _
  rw [blockOf, if_neg (by omega), if_neg (by omega)]

theorem blockOf_eq_some (hi : i < sb.ninodes) (hlive : (inode i).type ≠ 0) :
    blockOf s (inode i) bn = some b ↔ ∃ x, Names i bn x ∧ held sb s inode x = some b := by
  constructor
  · intro h
    have hlt : bn < maxfile := by
      by_contra hge
      rw [blockOf_of_ge (Nat.not_lt.mp hge)] at h
      cases h
    obtain ⟨x, hx⟩ := Names.exists_of_lt i hlt
    exact ⟨x, hx, (blockOf_eq_held hi hlive hx).symm.trans h⟩
  · rintro ⟨x, hx, hheld⟩
    rw [blockOf_eq_held hi hlive hx, hheld]

theorem blockOf_congr {s' : Store} {d : Dinode}
    (h : ∀ a, ptr (d.addrs indirect) = some a → s'.bread a = s.bread a) (bn : Nat) :
    blockOf s' d bn = blockOf s d bn := by
  rw [blockOf, blockOf]
  cases hp : ptr (d.addrs indirect) with
  | none => rfl
  | some a => rw [bind_some, bind_some, h a hp]

end BlockOf

/-- Bytes of a file are replaced from an offset on. Slots name what they named, and the
blocks of other files read the same. -/
structure Writes (sb : Superblock) (base : Nat → Dinode) (i : Nat) (s : Store) (d : Dinode)
    (off : Nat) (bs : List UInt8) (s' : Store) (d' : Dinode) : Prop where
  fields : ∃ addrs, d' = { d with addrs := addrs }
  slots : ∀ x, held sb s' (update base i d') x = held sb s (update base i d) x ∨
    held sb s (update base i d) x = none ∧ x.inum = i
  others : ∀ j bn x b, j ≠ i → Names j bn x → held sb s (update base i d) x = some b →
    s'.bread b = s.bread b
  bytes : ∀ k v, splice (byteOf s d) off (bs.map some) k = some v → byteOf s' d' k = some v

def Synced (s s' : Store) : Prop :=
  ∀ b, s'.cached b = none ∨ s'.cached b = s.cached b ∧ s'.logged b = s.logged b

namespace Synced

variable {s s' s'' : Store}

theorem refl (s : Store) : Synced s s := fun _ => Or.inr ⟨rfl, rfl⟩

theorem trans (h : Synced s s') (h' : Synced s' s'') : Synced s s'' := by
  intro b
  rcases h' b with hnone | ⟨hcached, hlogged⟩
  · exact Or.inl hnone
  · rw [hcached, hlogged]
    exact h b

theorem write (s : Store) (b : Nat) (data : Block) : Synced s (s.write b data) := by
  intro c
  by_cases hcb : c = b
  · left
    rw [hcb, Store.write_cached, update_self]
  · right
    simp [Store.write, Store.fill, Store.logWrite, hcb]

theorem allocated (sb : Superblock) (s : Store) (c : Nat) : Synced s (allocated sb s c) :=
  (write s _ _).trans (write _ c _)

end Synced

structure Logs (sb : Superblock) (base : Nat → Dinode) (i : Nat) (s : Store) (d : Dinode)
    (s' : Store) (d' : Dinode) : Prop where
  synced : Synced s s'
  events : ∃ es, s'.events = s.events ++ es ∧
    (∀ x b, held sb s (update base i d) x = some b → Event.alloc b ∉ es) ∧
    ∀ x b, held sb s (update base i d) x = none →
      held sb s' (update base i d') x = some b → Event.alloc b ∈ es

namespace Writes

variable {sb : Superblock} {base : Nat → Dinode} {i off : Nat} {s s' s'' : Store}
  {d d' d'' : Dinode} {bs bs' : List UInt8}

section

variable (h : Writes sb base i s d off bs s' d')
include h

theorem names (x : Slot) (b : Nat) (hx : held sb s (update base i d) x = some b) :
    held sb s' (update base i d') x = some b := by
  rcases h.slots x with heq | ⟨hnone, -⟩
  · rw [heq, hx]
  · rw [hx] at hnone
    cases hnone

theorem trans (h' : Writes sb base i s' d' (off + bs.length) bs' s'' d'') :
    Writes sb base i s d off (bs ++ bs') s'' d'' := by
  refine ⟨?_, fun x => ?_, ?_, ?_⟩
  · obtain ⟨addrs, rfl⟩ := h.fields
    exact h'.fields
  · rcases h'.slots x with heq | ⟨hnone, hi⟩
    · rw [heq]
      exact h.slots x
    · rcases h.slots x with heq | hold
      · exact Or.inr ⟨heq ▸ hnone, hi⟩
      · exact Or.inr hold
  · intro j bn x b hj hn hx
    rw [h'.others j bn x b hj hn (h.names x b hx), h.others j bn x b hj hn hx]
  · intro k v hk
    rw [map_append, ← splice_append, length_map] at hk
    exact h'.bytes k v (splice_extends h.bytes _ _ k v hk)

theorem blockOf_other {j : Nat} (hj : j < sb.ninodes)
    (hji : j ≠ i) (hlive : (base j).type ≠ 0) (bn : Nat) :
    blockOf s' (base j) bn = blockOf s (base j) bn := by
  by_cases hbn : bn < maxfile
  · obtain ⟨x, hx⟩ := Names.exists_of_lt j hbn
    have hheld : ∀ (t : Store) (e : Dinode),
        blockOf t (base j) bn = held sb t (update base i e) x := by
      intro t e
      have hbase : update base i e j = base j := update_of_ne hji e base
      rw [← blockOf_eq_held hj (by rw [hbase]; exact hlive) hx, hbase]
    rw [hheld s' d', hheld s d]
    rcases h.slots x with heq | ⟨-, hi⟩
    · exact heq
    · exact absurd (hx.inum.symm.trans hi) hji
  · rw [blockOf_of_ge (Nat.not_lt.mp hbn), blockOf_of_ge (Nat.not_lt.mp hbn)]

theorem other_byte {j : Nat} (hj : j < sb.ninodes)
    (hji : j ≠ i) (hlive : (base j).type ≠ 0) {k : Nat} {v : UInt8}
    (hk : byteOf s (base j) k = some v) : byteOf s' (base j) k = some v := by
  have hbase : update base i d j = base j := update_of_ne hji d base
  obtain ⟨b, hb, rfl⟩ := map_eq_some_iff.mp hk
  rw [byteOf, h.blockOf_other hj hji hlive, hb, map_some]
  rw [← hbase] at hb hlive
  obtain ⟨x, hx, hxb⟩ := (blockOf_eq_some hj hlive).mp hb
  rw [h.others j _ x b hji hx hxb]

end

end Writes

namespace Logs

variable {sb : Superblock} {base : Nat → Dinode} {i : Nat} {s s' s'' : Store}
  {d d' d'' : Dinode}

theorem trans (h : Logs sb base i s d s' d') (h' : Logs sb base i s' d' s'' d'')
    (hnames : ∀ x b, held sb s (update base i d) x = some b →
      held sb s' (update base i d') x = some b)
    (hnames' : ∀ x b, held sb s' (update base i d') x = some b →
      held sb s'' (update base i d'') x = some b) : Logs sb base i s d s'' d'' := by
  obtain ⟨es, hes, hold, hnew⟩ := h.events
  obtain ⟨es', hes', hold', hnew'⟩ := h'.events
  refine ⟨h.synced.trans h'.synced, es ++ es', by rw [hes', hes, append_assoc],
    fun x b hx hmem => ?_, fun x b hx hx'' => mem_append.mpr ?_⟩
  · rcases mem_append.mp hmem with hmem | hmem
    · exact hold x b hx hmem
    · exact hold' x b (hnames x b hx) hmem
  · cases hx' : held sb s' (update base i d') x with
    | none => exact Or.inr (hnew' x b hx' hx'')
    | some c =>
      obtain rfl : c = b := some.inj ((hnames' x c hx').symm.trans hx'')
      exact Or.inl (hnew x c hx hx')

end Logs

namespace Mid

variable {sb : Superblock} {start : Set Nat} {base : Nat → Dinode} {i : Nat} {s : Store}
  {d : Dinode} {E : String → Prop}

theorem live_update (h : Mid sb start base i s d) : (update base i d i).type ≠ 0 := by
  rw [update_self]
  exact h.live

theorem blockOf_eq_held (h : Mid sb start base i s d) {bn : Nat} {x : Slot} (hx : Names i bn x) :
    blockOf s d bn = held sb s (update base i d) x := by
  rw [← FileSystem.blockOf_eq_held h.lt h.live_update hx, update_self]

theorem blockOf_eq_some (h : Mid sb start base i s d) {bn b : Nat} : blockOf s d bn = some b ↔
    ∃ x, Names i bn x ∧ held sb s (update base i d) x = some b := by
  rw [← FileSystem.blockOf_eq_some h.lt h.live_update, update_self]

theorem blockOf_of_held {s' : Store} {d' : Dinode} (h' : Mid sb start base i s' d')
    (h : Mid sb start base i s d) {m : Nat}
    (hheld : ∀ x, Names i m x → held sb s' (update base i d') x =
      held sb s (update base i d) x) :
    blockOf s' d' m = none ∨ blockOf s' d' m = blockOf s d m := by
  cases hb : blockOf s' d' m with
  | none => exact Or.inl rfl
  | some b =>
    obtain ⟨x, hx, -⟩ := h'.blockOf_eq_some.mp hb
    right
    rw [← hb, h'.blockOf_eq_held hx, h.blockOf_eq_held hx, hheld x hx]

section

variable (h : Mid sb start base i s d)
include h

theorem ne_of_names {j bn bn' : Nat} {x : Slot} {b c : Nat}
    (hb : blockOf s d bn = some b) (hx : Names j bn' x)
    (hc : held sb s (update base i d) x = some c) (hne : j ≠ i ∨ bn' ≠ bn) : c ≠ b := by
  rintro rfl
  obtain ⟨y, hy, hheld⟩ := h.blockOf_eq_some.mp hb
  obtain rfl := h.sound.owns.inj hheld hc
  obtain ⟨rfl, rfl⟩ := hx.inj hy
  rcases hne with hne | hne
  · exact hne rfl
  · exact hne rfl

theorem data_of_blockOf {bn b : Nat} (hb : blockOf s d bn = some b) :
    sb.nmeta ≤ b ∧ ∀ j, held sb s (update base i d) (.addr j indirect) ≠ some b := by
  obtain ⟨x, hx, hheld⟩ := h.blockOf_eq_some.mp hb
  exact ⟨(h.sound.mem hheld).1, fun j hj => hx.ne_indirect j (h.sound.owns.inj hheld hj)⟩

section

variable {b : Nat} (hb : sb.nmeta ≤ b)
  (hne : ∀ j, held sb s (update base i d) (.addr j indirect) ≠ some b)
include hb hne

theorem of_data {s' : Store} (hread : ∀ c, c ≠ b → s'.bread c = s.bread c)
    (hs : Sound sb start s' (held sb s (update base i d))) :
    Mid sb start base i s' d := by
  refine ⟨h.lt, h.live, ?_, h.inodes_congr fun j hj => hread _ ?_⟩
  · rw [held_congr (fun _ _ => rfl) fun j c hj => hread c ?_]
    · exact hs
    · rintro rfl
      exact hne j hj
  · have := sb.iblock_lt_nmeta hj
    omega

theorem write (data : Block) : Mid sb start base i (s.write b data) d := by
  apply h.of_data hb hne
  · intro c hc
    rw [Store.write_bread, update_of_ne hc]
  · apply h.sound.write
    intro c hc
    have := sb.bblock_lt hc
    omega

theorem fill (data : Block) : Mid sb start base i (s.fill b data) d := by
  apply h.of_data hb hne
  · intro c hc
    rw [Store.fill_bread, update_of_ne hc]
  · exact h.sound.fill hb hne data

end

theorem writes_nil {s' : Store} {d' : Dinode}
    (h' : Mid sb start base i s' d') (hfields : ∃ addrs, d' = { d with addrs := addrs })
    (hslots : ∀ x, held sb s' (update base i d') x =
        held sb s (update base i d) x ∨
      held sb s (update base i d) x = none ∧ x.inum = i)
    (hdata : ∀ j bn x b, Names j bn x → held sb s (update base i d) x = some b →
      s'.bread b = s.bread b) (off : Nat) : Writes sb base i s d off [] s' d' := by
  refine ⟨hfields, hslots, fun j bn x b _ => hdata j bn x b, fun k v hk => ?_⟩
  rw [map_nil, splice_nil] at hk
  obtain ⟨b, hb, rfl⟩ := map_eq_some_iff.mp hk
  obtain ⟨x, hx, hheld⟩ := h.blockOf_eq_some.mp hb
  have hheld' : held sb s' (update base i d') x = some b := by
    rcases hslots x with heq | ⟨hnone, -⟩
    · rw [heq, hheld]
    · rw [hheld] at hnone
      cases hnone
  rw [byteOf, h'.blockOf_eq_some.mpr ⟨x, hx, hheld'⟩, map_some, hdata i _ x b hx hheld]

theorem logs_alloc {s' : Store} {d' : Dinode} {c : Nat} {x : Slot}
    (hc : c < sb.size) (hfree : marked sb s c = false)
    (hx : held sb s (update base i d) x = none)
    (hheld : held sb s' (update base i d') =
      update (held sb s (update base i d)) x (some c))
    (hsync : Synced s s') (hev : s'.events = s.events ++ [.alloc c]) :
    Logs sb base i s d s' d' := by
  refine ⟨hsync, [.alloc c], hev, fun y b hy hmem => ?_, fun y b hy hy' => ?_⟩
  · obtain rfl : b = c := by simpa using hmem
    exact (h.sound.fresh hc hfree).2 (h.sound.owns.mem hy)
  · rw [hheld] at hy'
    by_cases hyx : y = x
    · subst hyx
      rw [update_self] at hy'
      obtain rfl := some.inj hy'
      exact mem_singleton_self _
    · rw [update_of_ne hyx, hy] at hy'
      cases hy'

end

theorem slots_alloc {val val' : Slot → Option Nat} {x : Slot} {c : Nat} (hx : val x = none)
    (hval : val' = update val x (some c)) :
    ∀ y, val' y = val y ∨ val y = none ∧ y.inum = x.inum := by
  intro y
  by_cases hyx : y = x
  · subst hyx
    exact Or.inr ⟨hx, rfl⟩
  · exact Or.inl (by rw [hval, update_of_ne hyx])

end Mid

structure Grown (sb : Superblock) (start : Set Nat) (base : Nat → Dinode) (i : Nat) (s : Store)
    (d : Dinode) (s' : Store) (d' : Dinode) : Prop where
  mid : Mid sb start base i s' d'
  writes : ∀ off, Writes sb base i s d off [] s' d'
  logs : Logs sb base i s d s' d'

namespace Grown

variable {sb : Superblock} {start : Set Nat} {base : Nat → Dinode} {i : Nat} {s s' s'' : Store}
  {d d' d'' : Dinode}

theorem refl (h : Mid sb start base i s d) : Grown sb start base i s d s d where
  mid := h
  writes := h.writes_nil h ⟨d.addrs, rfl⟩ (fun _ => Or.inl rfl) fun _ _ _ _ _ _ => rfl
  logs := ⟨Synced.refl s, [], (append_nil _).symm, fun _ _ _ => not_mem_nil,
    fun x b hx hx' => by rw [hx] at hx'; cases hx'⟩

theorem trans (h : Grown sb start base i s d s' d') (h' : Grown sb start base i s' d' s'' d'') :
    Grown sb start base i s d s'' d'' where
  mid := h'.mid
  writes off := (h.writes off).trans (h'.writes off)
  logs := h.logs.trans h'.logs (h.writes 0).names (h'.writes 0).names

end Grown

namespace Mid

variable {sb : Superblock} {start : Set Nat} {base : Nat → Dinode} {i : Nat} {s : Store}
  {d : Dinode} {E : String → Prop}

section

variable (h : Mid sb start base i s d)
include h

theorem bmapAddr (k : Fin (ndirect + 1)) :
    Grown sb start base i s d (bmapAddr sb s d k).2.2 (bmapAddr sb s d k).2.1 ∧
      ((bmapAddr sb s d k).1 = 0 → Full sb (bmapAddr sb s d k).2.2) ∧
      (bmapAddr sb s d k).2.1.addrs k = (bmapAddr sb s d k).1 ∧
      ∀ x, x ≠ .addr i k → held sb (bmapAddr sb s d k).2.2
        (update base i (bmapAddr sb s d k).2.1) x =
          held sb s (update base i d) x := by
  simp only [FileSystem.bmapAddr]
  split
  · rename_i hset
    exact ⟨.refl h, fun hzero => absurd hzero hset, rfl, fun _ _ => rfl⟩
  · rename_i hk
    have hk : d.addrs k = 0 := by simpa using hk
    rcases balloc_cases sb s with ⟨heq, hfull⟩ | ⟨c, hc, hfree, heq⟩
    · simp only [heq, if_true]
      exact ⟨.refl h, fun _ => hfull, hk, fun _ _ => True.intro⟩
    · have hpos : 0 < c := Nat.lt_of_lt_of_le sb.nmeta_pos (h.sound.fresh hc hfree).1.1
      have hne : UInt32.ofNat c ≠ 0 := (ptr_eq_some.mp (ptr_ofNat hc hpos)).1
      have hx : held sb s (update base i d) (.addr i k) = none := by
        rw [h.addr, hk, ptr_zero]
      have hheld := h.held_allocAddr hc hfree hk
      have hmid := h.allocAddr hc hfree hk
      simp only [heq, if_neg hne]
      refine ⟨⟨hmid, h.writes_nil hmid ⟨_, rfl⟩ (slots_alloc hx hheld) ?_, ?_⟩,
        fun hzero => absurd hzero hne, by simp [Dinode.setAddr],
        fun y hy => by rw [hheld, update_of_ne hy]⟩
      · exact fun _ _ x b _ hx => (h.fresh hc hfree).1 x b hx
      · exact h.logs_alloc hc hfree hx hheld (Synced.allocated sb s c) rfl

theorem bmapEntry (hind : d.addrs indirect ≠ 0) (m : Fin nindirect) :
    Grown sb start base i s d (bmapEntry sb s (d.addrs indirect) m).2 d ∧
      ((bmapEntry sb s (d.addrs indirect) m).1 = 0 →
        Full sb (bmapEntry sb s (d.addrs indirect) m).2) ∧
      held sb (bmapEntry sb s (d.addrs indirect) m).2 (update base i d) (.entry i m) =
        ptr (bmapEntry sb s (d.addrs indirect) m).1 ∧
      ∀ x, x ≠ .entry i m → held sb (bmapEntry sb s (d.addrs indirect) m).2
        (update base i d) x = held sb s (update base i d) x := by
  have hptr := ptr_of_ne hind
  have haddr : held sb s (update base i d) (.addr i indirect) =
      some (d.addrs indirect).toNat := (h.addr indirect).trans hptr
  simp only [FileSystem.bmapEntry]
  split
  · rename_i hset
    refine ⟨.refl h, fun hzero => absurd hzero hset, ?_, fun _ _ => rfl⟩
    rw [held_entry h.lt h.live, hptr, bind_some]
  · rename_i hset
    have hset : entry (s.bread (d.addrs indirect).toNat) m = 0 := by simpa using hset
    have hnone : held sb s (update base i d) (.entry i m) = none := by
      rw [held_entry h.lt h.live, hptr, bind_some, hset, ptr_zero]
    rcases balloc_cases sb s with ⟨heq, hfull⟩ | ⟨c, hc, hfree, heq⟩
    · simp only [heq, ne_eq, not_true_eq_false, if_false]
      exact ⟨.refl h, fun _ => hfull, hnone, fun _ _ => True.intro⟩
    · obtain ⟨hread, hino⟩ := h.fresh hc hfree
      have hpos : 0 < c := Nat.lt_of_lt_of_le sb.nmeta_pos (h.sound.fresh hc hfree).1.1
      have hc32 := ptr_ofNat hc hpos
      have hne : UInt32.ofNat c ≠ 0 := (ptr_eq_some.mp hc32).1
      have hheld : held sb (allocated sb s c) (update base i d) =
          held sb s (update base i d) :=
        held_congr (fun _ _ => rfl) fun _ b hj => hread _ b hj
      simp only [heq, ne_eq, hne, not_false_eq_true, if_true, IsEmpty.forall_iff, true_and]
      have hstep := held_setEntry (s := allocated sb s c) h.lt h.live hptr
        (fun j hj => by
          rw [hheld] at hj
          have := h.sound.owns.inj hj haddr
          simpa using this) m (UInt32.ofNat c)
      rw [hheld, hc32] at hstep
      have hlow := (h.sound.mem haddr).1
      have hmid : Mid sb start base i ((allocated sb s c).write (d.addrs indirect).toNat
          (setLE ((allocated sb s c).bread (d.addrs indirect).toNat) (4 * m) 4
            (UInt32.ofNat c).toNat)) d := by
        refine ⟨h.lt, h.live, ?_, fun j hj => ?_⟩
        · rw [hstep]
          apply (h.sound.alloc hc hfree hnone).write
          intro b hb
          have := sb.bblock_lt hb
          omega
        · rw [← h.inodes j hj, dinode, dinode, Store.write_bread, update_of_ne, hino j hj]
          have := sb.iblock_lt_nmeta hj
          omega
      refine ⟨⟨hmid, h.writes_nil hmid ⟨d.addrs, rfl⟩ (slots_alloc hnone hstep) ?_, ?_⟩, ?_,
        fun y hy => by rw [hstep, update_of_ne hy]⟩
      · -- Data blocks are neither the new block nor the indirect block.
        intro j bn x b hx hb
        have hba : b ≠ (d.addrs indirect).toNat := by
          rintro rfl
          exact hx.ne_indirect i (h.sound.owns.inj hb haddr)
        rw [Store.write_bread, update_of_ne hba, hread x b hb]
      · exact h.logs_alloc hc hfree hnone hstep
          ((Synced.allocated sb s c).trans (Synced.write _ _ _)) rfl
      · rw [hstep, update_self, hc32]

theorem bmap {bn : Nat} (hbn : bn < maxfile) :
    Ends (bmap sb s d bn) (fun r => Grown sb start base i s d r.2.2 r.2.1 ∧
      (r.1 = 0 → Full sb r.2.2) ∧ blockOf r.2.2 r.2.1 bn = ptr r.1 ∧
      (∀ m, m ≠ bn → blockOf r.2.2 r.2.1 m = none ∨ blockOf r.2.2 r.2.1 m = blockOf s d m) ∧
      ∀ x, held sb r.2.2 (update base i r.2.1) x =
        held sb s (update base i d) x ∨ Serves i bn x) E := by
  simp only [FileSystem.bmap]
  split
  · rename_i hdir
    obtain ⟨hgrown, hfull, haddr, hsame⟩ := h.bmapAddr ⟨bn, by omega⟩
    refine .ok ⟨hgrown, hfull, ?_, fun m hm => ?_, fun x => ?_⟩
    · rw [hgrown.mid.blockOf_eq_held (.direct ⟨bn, hdir⟩), hgrown.mid.addr]
      exact congrArg ptr haddr
    · refine hgrown.mid.blockOf_of_held h fun x hx => hsame x ?_
      rintro rfl
      exact hm (hx.inj (.direct ⟨bn, hdir⟩)).2
    · by_cases hx : x = .addr i (Fin.castSucc ⟨bn, hdir⟩)
      · exact Or.inr (Or.inl (hx ▸ .direct ⟨bn, hdir⟩))
      · exact Or.inl (hsame x hx)
  · rename_i hdir
    have hlt : bn - ndirect < nindirect := by
      simp only [maxfile] at hbn
      omega
    have hname := Names.entry (i := i) ⟨bn - ndirect, hlt⟩
    simp only [Nat.add_sub_cancel' (Nat.not_lt.mp hdir)] at hname
    rw [if_pos hlt]
    obtain ⟨hgrown, hfull, haddr, hsame⟩ := h.bmapAddr indirect
    generalize FileSystem.bmapAddr sb s d indirect = r at hgrown hfull haddr hsame
    obtain ⟨a, d', s'⟩ := r
    simp only at hgrown hfull haddr hsame ⊢
    subst haddr
    have hind : ∀ x, held sb s' (update base i d') x =
        held sb s (update base i d) x ∨ Serves i bn x := by
      intro x
      by_cases hx : x = .addr i indirect
      · exact Or.inr (Or.inr ⟨hx, Nat.not_lt.mp hdir⟩)
      · exact Or.inl (hsame x hx)
    split
    · rename_i hzero
      refine .ok ⟨hgrown, fun _ => hfull hzero, ?_, fun m _ => ?_, hind⟩
      · rw [hgrown.mid.blockOf_eq_held hname, held_entry hgrown.mid.lt hgrown.mid.live, hzero]
        rfl
      · exact hgrown.mid.blockOf_of_held h fun x hx => hsame x (hx.ne_indirect i)
    · rename_i hne
      obtain ⟨hgrown', hfull', hheld, hsame'⟩ := hgrown.mid.bmapEntry hne ⟨bn - ndirect, hlt⟩
      refine .ok ⟨hgrown.trans hgrown', hfull', ?_, fun m hm => ?_, fun x => ?_⟩
      · rw [hgrown'.mid.blockOf_eq_held hname, hheld]
      · refine hgrown'.mid.blockOf_of_held h fun x hx => ?_
        rw [hsame' x, hsame x (hx.ne_indirect i)]
        rintro rfl
        exact hm (hx.inj hname).2
      · by_cases hx : x = .entry i ⟨bn - ndirect, hlt⟩
        · exact Or.inr (Or.inl (hx ▸ hname))
        · rw [hsame' x hx]
          exact hind x

theorem writes_chunk {s' : Store} {off b : Nat} {bs : List UInt8}
    (hb : blockOf s d (off / bsize) = some b) (hlen : off % bsize + bs.length ≤ bsize)
    (hread : s'.bread = update s.bread b (overlay (s.bread b) (off % bsize) bs)) :
    Writes sb base i s d off bs s' d := by
  have hind : ∀ c, (∃ j, held sb s (update base i d) (.addr j indirect) = some c) →
      s'.bread c = s.bread c := by
    rintro c ⟨j, hj⟩
    rw [hread, update_of_ne]
    rintro rfl
    exact (h.data_of_blockOf hb).2 j hj
  have hheld : held sb s' (update base i d) = held sb s (update base i d) :=
    held_congr (fun _ _ => rfl) fun j c hj => hind c ⟨j, hj⟩
  refine ⟨⟨d.addrs, rfl⟩, fun x => Or.inl (by rw [hheld]), fun j bn x c hj hx hc => ?_,
    fun k v hk => ?_⟩
  · rw [hread, update_of_ne (h.ne_of_names hb hx hc (Or.inl hj))]
  · rw [byteOf, blockOf_congr fun a ha => hind a ⟨i, (h.addr _).trans ha⟩]
    by_cases hin : off ≤ k ∧ k < off + bs.length
    · -- The byte is one of the new ones, in the block of the offset.
      have hdiv : k / bsize = off / bsize := by
        simp only [bsize] at hlen ⊢
        omega
      have hmod : k % bsize = off % bsize + (k - off) := by
        simp only [bsize] at hlen ⊢
        omega
      have hlt : k - off < bs.length := by omega
      have hv : v = bs[k - off] := by
        rw [splice, if_pos hin.1, List.getElem?_map, List.getElem?_eq_getElem hlt] at hk
        exact (some.inj hk).symm
      have hval : (Fin.ofNat bsize k).val = off % bsize + (k - off) := hmod
      rw [hdiv, hb, map_some, hread, update_self, overlay, hval,
        if_pos (by omega), Nat.add_sub_cancel_left, hv, getD_eq_getElem _ _ hlt]
    · rw [splice_outside (by rw [length_map]; omega)] at hk
      obtain ⟨c, hc, rfl⟩ := map_eq_some_iff.mp hk
      rw [hc, map_some, hread]
      by_cases hdiv : k / bsize = off / bsize
      · rw [hdiv, hb] at hc
        obtain rfl := some.inj hc
        rw [update_self, overlay, if_neg]
        have hval : (Fin.ofNat bsize k).val = k % bsize := rfl
        rw [hval]
        simp only [bsize] at hdiv hlen ⊢
        omega
      · obtain ⟨x, hx, hxc⟩ := h.blockOf_eq_some.mp hc
        rw [update_of_ne (h.ne_of_names hb hx hxc (Or.inr hdiv))]

theorem chunk {off b : Nat} {bs : List UInt8}
    (hb : blockOf s d (off / bsize) = some b) (hlen : off % bsize + bs.length ≤ bsize) :
    Mid sb start base i (s.write b (overlay (s.bread b) (off % bsize) bs)) d ∧
      Writes sb base i s d off bs (s.write b (overlay (s.bread b) (off % bsize) bs)) d ∧
      Logs sb base i s d (s.write b (overlay (s.bread b) (off % bsize) bs)) d ∧
      (∀ bn, blockOf (s.write b (overlay (s.bread b) (off % bsize) bs)) d bn = blockOf s d bn) ∧
      held sb (s.write b (overlay (s.bread b) (off % bsize) bs)) (update base i d) =
        held sb s (update base i d) := by
  obtain ⟨hlow, hne⟩ := h.data_of_blockOf hb
  have hmid := h.write hlow hne (overlay (s.bread b) (off % bsize) bs)
  have hind : ∀ j c, held sb s (update base i d) (.addr j indirect) = some c →
      (s.write b (overlay (s.bread b) (off % bsize) bs)).bread c = s.bread c := by
    intro j c hj
    rw [Store.write_bread, update_of_ne]
    rintro rfl
    exact hne j hj
  refine ⟨hmid, h.writes_chunk hb hlen (Store.write_bread _ _ _), ⟨Synced.write _ _ _, [],
    (append_nil _).symm, fun _ _ _ => not_mem_nil, fun x c hx hx' => ?_⟩,
    blockOf_congr fun a ha => hind i a ((h.addr _).trans ha), held_congr (fun _ _ => rfl) hind⟩
  rw [held_congr (fun _ _ => rfl) hind, hx] at hx'
  cases hx'

end

end Mid

/-- The source copy fails within the block at an offset: the buffer has the bytes that
could be copied and is not logged. -/
def Stuck (s : Store) (d : Dinode) (off left : Nat) (src : List UInt8) (s' : Store) : Prop :=
  ∃ b, blockOf s d (off / bsize) = some b ∧ src.length < min left (bsize - off % bsize) ∧
    s' = s.fill b (overlay (s.bread b) (off % bsize) src)

/-- How the loop of `writei` ends: `n` bytes are in the file and logged, and the rest was
not written because there is none, the disk is full or the source copy failed. -/
structure Written (sb : Superblock) (start : Set Nat) (base : Nat → Dinode) (i : Nat) (s : Store)
    (d : Dinode) (off left : Nat) (src : List UInt8) (n : Nat) (s' : Store) (d' : Dinode)
    (last : Store) : Prop where
  le : n ≤ left
  le_length : n ≤ src.length
  mid : Mid sb start base i s' d'
  writes : Writes sb base i s d off (src.take n) s' d'
  logs : Logs sb base i s d s' d'
  added : ∀ bn, (off + n) / bsize < bn → blockOf s' d' bn = none ∨
    blockOf s' d' bn = blockOf s d bn
  touched : ∀ x, held sb s' (update base i d') x =
    held sb s (update base i d) x ∨ ∃ bn, bn * bsize < off + left ∧ Serves i bn x
  ends : last = s' ∧ (n = left ∨ Full sb s' ∧ blockOf s' d' ((off + n) / bsize) = none) ∨
    Stuck s' d' (off + n) (left - n) (src.drop n) last ∧ (n = 0 ∨ (off + n) % bsize = 0)

theorem same_or_none {α : Type} {x y z : Option α} (h : z = none ∨ z = y) (h' : y = none ∨ y = x) :
    z = none ∨ z = x := by
  rcases h with h | rfl
  · exact Or.inl h
  · exact h'

namespace Written

variable {sb : Superblock} {start : Set Nat} {base : Nat → Dinode} {i : Nat} {s t s' last : Store}
  {d e d' : Dinode} {off left n m : Nat} {src : List UInt8}

theorem mid_last (h : Written sb start base i s d off left src n s' d' last) :
    Mid sb start base i last d' := by
  rcases h.ends with ⟨rfl, -⟩ | ⟨⟨b, hb, -, rfl⟩, -⟩
  · exact h.mid
  · obtain ⟨hlow, hne⟩ := h.mid.data_of_blockOf hb
    exact h.mid.fill hlow hne _

theorem not_stuck (h : Written sb start base i s d off left src n s' d' last)
    (hsrc : left ≤ src.length) : last = s' ∧
      (n = left ∨ Full sb s' ∧ blockOf s' d' ((off + n) / bsize) = none) := by
  rcases h.ends with hend | ⟨⟨b, -, hshort, -⟩, -⟩
  · exact hend
  · have hle := h.le
    rw [length_drop] at hshort
    omega

theorem of_grown (hg : Grown sb start base i s d t e)
    (hadd : ∀ bn, bn ≠ off / bsize → blockOf t e bn = none ∨ blockOf t e bn = blockOf s d bn)
    (htouch : ∀ x, held sb t (update base i e) x =
      held sb s (update base i d) x ∨ Serves i (off / bsize) x) (hleft : left ≠ 0)
    (h : Written sb start base i t e off left src n s' d' last) :
    Written sb start base i s d off left src n s' d' last where
  le := h.le
  le_length := h.le_length
  mid := h.mid
  writes := (hg.writes off).trans h.writes
  logs := hg.logs.trans h.logs (hg.writes 0).names h.writes.names
  added := by
    intro bn hbn
    have hle : off / bsize ≤ (off + n) / bsize := Nat.div_le_div_right (Nat.le_add_right _ _)
    exact same_or_none (h.added bn hbn) (hadd bn (by omega))
  touched := by
    intro x
    rcases h.touched x with hsame | hserves
    · rw [hsame]
      refine (htouch x).imp_right fun hserves => ⟨off / bsize, ?_, hserves⟩
      have := Nat.div_mul_le_self off bsize
      omega
    · exact Or.inr hserves
  ends := h.ends

theorem of_chunk (hw : Writes sb base i s d off (src.take m) t e) (hl : Logs sb base i s d t e)
    (hblock : ∀ bn, blockOf t e bn = blockOf s d bn)
    (hslots : held sb t (update base i e) = held sb s (update base i d))
    (hm : m ≤ src.length) (hleft : m ≤ left) (hend : m = left ∨ (off + m) % bsize = 0)
    (h : Written sb start base i t e (off + m) (left - m) (src.drop m) n s' d' last) :
    Written sb start base i s d off left src (m + n) s' d' last := by
  have hle := h.le
  have hlen := h.le_length
  rw [length_drop] at hlen
  refine ⟨by omega, by omega, h.mid, ?_, hl.trans h.logs hw.names h.writes.names,
    fun bn hbn => ?_, fun x => ?_, ?_⟩
  · have hw' : Writes sb base i t e (off + (src.take m).length) ((src.drop m).take n) s' d' := by
      rw [length_take_of_le hm]
      exact h.writes
    rw [take_add]
    exact hw.trans hw'
  · rw [← hblock bn]
    exact h.added bn (by rwa [Nat.add_assoc])
  · have htouched := h.touched x
    rw [hslots] at htouched
    rcases htouched with hsame | ⟨bn, hbn, hserves⟩
    · exact Or.inl hsame
    · exact Or.inr ⟨bn, by omega, hserves⟩
  · have hoff : off + m + n = off + (m + n) := by omega
    have hrest : left - m - n = left - (m + n) := by omega
    rcases h.ends with ⟨rfl, hstop⟩ | ⟨hstuck, hbound⟩
    · rw [hoff] at hstop
      exact Or.inl ⟨rfl, hstop.imp_left fun heq => by omega⟩
    · rw [hoff, hrest, drop_drop] at hstuck
      rw [hoff] at hbound
      refine Or.inr ⟨hstuck, Or.inr ?_⟩
      rcases hbound with rfl | hbound
      · obtain ⟨b, -, hlt, -⟩ := hstuck
        rcases hend with rfl | hend
        · omega
        · exact hend
      · exact hbound

end Written

/-- The loop of `writei` writes a first part of the source, by induction on the
iterations: `bmap` adds a block if there is none, and one chunk is copied into it. -/
theorem Mid.writeiLoop {sb : Superblock} {start : Set Nat} {base : Nat → Dinode} {i : Nat}
    {E : String → Prop} (fuel : Nat) :
    ∀ {s : Store} {d : Dinode} {off left : Nat} {src : List UInt8},
    Mid sb start base i s d → off + left ≤ maxfile * bsize → left ≤ fuel →
    Ends (writeiLoop sb fuel s d off left src) (fun r => ∃ n s', r.1 = off + n ∧
      Written sb start base i s d off left src n s' r.2.1 r.2.2) E := by
  induction fuel with
  | zero =>
    intro s d off left src h hmax hfuel
    obtain rfl : left = 0 := Nat.le_zero.mp hfuel
    exact .ok ⟨0, s, rfl, le_rfl, Nat.zero_le _, h, (Grown.refl h).writes off, (Grown.refl h).logs,
      fun _ _ => Or.inr rfl, fun _ => Or.inl rfl, Or.inl ⟨rfl, Or.inl rfl⟩⟩
  | succ fuel ih =>
    intro s d off left src h hmax hfuel
    simp only [FileSystem.writeiLoop]
    split
    · rename_i hzero
      exact .ok ⟨0, s, rfl, Nat.zero_le _, Nat.zero_le _, h, (Grown.refl h).writes off,
        (Grown.refl h).logs, fun _ _ => Or.inr rfl, fun _ => Or.inl rfl,
        Or.inl ⟨rfl, Or.inl hzero.symm⟩⟩
    · rename_i hleft
      have hbn : off / bsize < maxfile := by
        rw [Nat.div_lt_iff_lt_mul (by decide)]
        omega
      have hmod : off % bsize < bsize := Nat.mod_lt _ (by decide)
      refine (h.bmap hbn).bind ?_
      rintro ⟨addr, e, t⟩ ⟨hgrown, hfull, hblock, hadd, htouch⟩
      simp only at hgrown hfull hblock hadd htouch ⊢
      have hrefl := Grown.refl hgrown.mid
      split
      · rename_i hzero
        refine .ok ⟨0, t, rfl, .of_grown hgrown hadd htouch hleft ⟨Nat.zero_le _, Nat.zero_le _,
          hgrown.mid, hrefl.writes off, hrefl.logs, fun _ _ => Or.inr rfl, fun _ => Or.inl rfl,
          Or.inl ⟨rfl, Or.inr ⟨hfull hzero, ?_⟩⟩⟩⟩
        rw [Nat.add_zero, hblock, hzero, ptr_zero]
      · rename_i hne
        have hb := hblock.trans (ptr_of_ne hne)
        obtain ⟨m, hm⟩ : ∃ m, m = min left (bsize - off % bsize) := ⟨_, rfl⟩
        rw [← hm]
        split
        · rename_i hshort
          refine .ok ⟨0, t, rfl, .of_grown hgrown hadd htouch hleft ⟨Nat.zero_le _, Nat.zero_le _,
            hgrown.mid, hrefl.writes off, hrefl.logs, fun _ _ => Or.inr rfl, fun _ => Or.inl rfl,
            Or.inr ⟨⟨addr.toNat, hb, ?_, ?_⟩, Or.inl rfl⟩⟩⟩
          · rw [Nat.sub_zero, Nat.add_zero, drop_zero, ← hm]
            exact hshort
          · rw [take_of_length_le (by omega)]
            rfl
        · rename_i hlong
          have hlen : (src.take m).length = m := length_take_of_le (by omega)
          have hfits : off % bsize + (src.take m).length ≤ bsize := by omega
          obtain ⟨hmid, hw, hl, hkeep, hslots⟩ := hgrown.mid.chunk hb hfits
          refine (ih hmid (by omega) (by omega)).imp ?_
          rintro ⟨stop, d', last⟩ ⟨n, s', rfl, hrest⟩
          refine ⟨m + n, s', Nat.add_assoc _ _ _, .of_grown hgrown hadd htouch hleft
            (.of_chunk hw hl hkeep hslots (by omega) (by omega) ?_ hrest)⟩
          by_cases hml : m = left
          · exact Or.inl hml
          · right
            simp only [bsize] at hm hmod ⊢
            omega

/-- The arguments `writei` answers with -1. -/
def Rejected (d : Dinode) (off n : UInt32) : Prop :=
  off.toNat > d.size.toNat ∨ 2 ^ 32 ≤ off.toNat + n.toNat ∨
    maxfile * bsize < off.toNat + n.toNat

theorem writei_rejected {d : Dinode} {off n : UInt32} (h : Rejected d off n) (sb : Superblock)
    (s : Store) (i : Nat) (src : List UInt8) : writei sb s i d off n src = .ok (none, d, s) := by
  rw [writei]
  split
  · rfl
  · rename_i hin
    rw [not_or, UInt32.not_lt, UInt32.le_iff_toNat_le] at hin
    rw [if_pos]
    rcases h with h | h | h
    · omega
    · exact absurd h hin.2
    · exact h

theorem Mid.writei_written {sb : Superblock} {start : Set Nat} {base : Nat → Dinode} {i : Nat}
    {s : Store} {d : Dinode} {E : String → Prop} (h : Mid sb start base i s d) {off n : UInt32}
    (hin : ¬Rejected d off n) (src : List UInt8) :
    Ends (writei sb s i d off n src) (fun r => ∃ tot t d' last size,
      Written sb start base i s d off.toNat n.toNat src tot t d' last ∧
      size.toNat = max d.size.toNat (off.toNat + tot) ∧
      r = (some tot, { d' with size := size }, iupdate sb last i { d' with size := size })) E := by
  simp only [Rejected, not_or] at hin
  have hsmall : maxfile * bsize < 2 ^ 32 := by decide
  rw [FileSystem.writei, if_neg (by rw [not_or, UInt32.not_lt, UInt32.le_iff_toNat_le]; omega),
    if_neg hin.2.2]
  refine (h.writeiLoop _ (by omega) le_rfl).bind ?_
  rintro ⟨stop, d', last⟩ ⟨tot, t, rfl, hw⟩
  have hle := hw.le
  obtain ⟨addrs, rfl⟩ := hw.writes.fields
  apply Ends.ok
  simp only
  split
  · refine ⟨tot, t, _, last, _, hw, ?_, by rw [Nat.add_sub_cancel_left]⟩
    simp only [UInt32.toNat_ofNat']
    omega
  · exact ⟨tot, t, _, last, d.size, hw, by omega, by rw [Nat.add_sub_cancel_left]⟩

end EafitOs.FileSystem
