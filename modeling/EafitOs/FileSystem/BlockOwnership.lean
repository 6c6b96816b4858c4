import EafitOs.Foundation.Panics
import EafitOs.Foundation.Runs
import EafitOs.FileSystem.BlockLayout

/-!
# Who owns a disk block

A block of the data area is marked in the bitmap exactly if one pointer of one allocated inode
names it.
-/

namespace EafitOs.FileSystem

open Foundation Disk Function Option

/-- The places that can name a block: `addrs[k]` of an inode, where the last one is the
indirect pointer, and the entries of its indirect block. -/
inductive Slot
  | addr (i : Nat) (k : Fin (ndirect + 1))
  | entry (i : Nat) (k : Fin nindirect)
  deriving DecidableEq

def ptr (a : UInt32) : Option Nat := if a = 0 then none else some a.toNat

/-- The block a slot of an allocated inode names, for the given inodes. -/
def held (sb : Superblock) (s : Store) (inode : Nat → Dinode) : Slot → Option Nat
  | .addr i k => if i < sb.ninodes ∧ (inode i).type ≠ 0 then ptr ((inode i).addrs k) else none
  | .entry i k =>
    if i < sb.ninodes ∧ (inode i).type ≠ 0 then
      (ptr ((inode i).addrs indirect)).bind fun b => ptr (entry (s.bread b) k)
    else none

def inUse (sb : Superblock) (s : Store) : Set Nat := { b | b ∈ sb.dataBlocks ∧ marked sb s b }

/-- The bitmap agrees with what the slots name, and so does the history of the
allocator. Bitmap blocks, inode blocks and indirect blocks are changed only through
the log. -/
structure Sound (sb : Superblock) (start : Set Nat) (s : Store) (val : Slot → Option Nat) :
    Prop where
  reserved : ∀ b < sb.nmeta, marked sb s b
  owns : Owns (inUse sb s) val
  ledger : Ledger sb.dataBlocks start s.events (inUse sb s)
  clean : ∀ b, (b < sb.nmeta ∨ ∃ i, val (.addr i indirect) = some b) → s.cached b = none

@[simp] theorem ptr_zero : ptr 0 = none := rfl

theorem ptr_of_ne {a : UInt32} (h : a ≠ 0) : ptr a = some a.toNat := if_neg h

theorem ptr_eq_some {a : UInt32} {b : Nat} : ptr a = some b ↔ a ≠ 0 ∧ a.toNat = b := by
  simp only [ptr]
  split <;> simp_all

namespace Superblock

variable (sb : Superblock)

theorem nmeta_le : sb.nmeta ≤ sb.size := Nat.sub_le _ _

theorem bmapstart_lt : sb.bmapstart < sb.nmeta :=
  Nat.lt_of_le_of_lt (Nat.le_add_right _ _) sb.bitmap_lt

theorem nmeta_pos : 0 < sb.nmeta := Nat.lt_of_le_of_lt (Nat.zero_le _) sb.bmapstart_lt

theorem bblock_lt {b : Nat} (hb : b < sb.size) : sb.bblock b < sb.nmeta := by
  have := sb.bitmap_lt
  have : b / bpb ≤ sb.size / bpb := Nat.div_le_div_right (by omega)
  simp only [bblock, nmeta]
  omega

theorem iblock_lt {i : Nat} (hi : i < sb.ninodes) : sb.iblock i < sb.bmapstart := by
  have := sb.inodes_lt
  have : i / ipb ≤ sb.ninodes / ipb := Nat.div_le_div_right (by omega)
  simp only [iblock]
  omega

theorem bmapstart_le (b : Nat) : sb.bmapstart ≤ sb.bblock b := Nat.le_add_left _ _

theorem iblock_lt_nmeta {i : Nat} (hi : i < sb.ninodes) : sb.iblock i < sb.nmeta :=
  (sb.iblock_lt hi).trans sb.bmapstart_lt

end Superblock

theorem marked_congr {sb : Superblock} {s s' : Store} {b : Nat}
    (h : s'.bread (sb.bblock b) = s.bread (sb.bblock b)) : marked sb s' b = marked sb s b := by
  rw [marked, marked, h]

theorem inUse_congr {sb : Superblock} {s s' : Store}
    (h : ∀ b < sb.size, s'.bread (sb.bblock b) = s.bread (sb.bblock b)) :
    inUse sb s' = inUse sb s := by
  ext b
  constructor
  · rintro ⟨hd, hm⟩
    exact ⟨hd, by rwa [marked_congr (h b hd.2)] at hm⟩
  · rintro ⟨hd, hm⟩
    exact ⟨hd, by rwa [marked_congr (h b hd.2)]⟩

theorem held_congr {sb : Superblock} {s s' : Store} {inode inode' : Nat → Dinode}
    (hi : ∀ i < sb.ninodes, inode' i = inode i)
    (hb : ∀ i b, held sb s inode (.addr i indirect) = some b → s'.bread b = s.bread b) :
    held sb s' inode' = held sb s inode := by
  funext x
  cases x with
  | addr i k =>
    simp only [held]
    by_cases hlt : i < sb.ninodes
    · rw [hi i hlt]
    · simp [hlt]
  | entry i k =>
    by_cases hlt : i < sb.ninodes ∧ (inode i).type ≠ 0
    · simp only [held, hi i hlt.1, if_pos hlt]
      cases hp : ptr ((inode i).addrs indirect) with
      | none => rfl
      | some b =>
        have := hb i b (by simp only [held, if_pos hlt, hp])
        simp only [bind_some, this]
    · have hlt' : ¬(i < sb.ninodes ∧ (inode' i).type ≠ 0) := by
        rintro ⟨h1, h2⟩
        rw [hi i h1] at h2
        exact hlt ⟨h1, h2⟩
      simp only [held, if_neg hlt, if_neg hlt']

namespace Sound

variable {sb : Superblock} {start : Set Nat} {s s' : Store} {val val' : Slot → Option Nat}

section

variable (h : Sound sb start s val)
include h

theorem congr (hv : ∀ x, val' x = val x) : Sound sb start s val' := by
  obtain rfl : val' = val := funext hv
  exact h

theorem mem {x : Slot} {b : Nat} (hx : val x = some b) :
    sb.nmeta ≤ b ∧ b < sb.size ∧ marked sb s b :=
  have hb := h.owns.mem hx
  ⟨hb.1.1, hb.1.2, hb.2⟩

theorem of_bitmap (hb : ∀ b < sb.size, s'.bread (sb.bblock b) = s.bread (sb.bblock b))
    (hev : s'.events = s.events)
    (hcl : ∀ b, (b < sb.nmeta ∨ ∃ i, val (.addr i indirect) = some b) → s.cached b = none →
      s'.cached b = none) : Sound sb start s' val := by
  refine ⟨?_, ?_, ?_, ?_⟩
  · intro b hlt
    have hlt' := sb.nmeta_le
    rw [marked_congr (hb b (by omega))]
    exact h.reserved b hlt
  · rw [inUse_congr hb]
    exact h.owns
  · rw [inUse_congr hb, hev]
    exact h.ledger
  · intro b hc
    exact hcl b hc (h.clean b hc)

theorem write {b : Nat} (hb : ∀ c < sb.size, sb.bblock c ≠ b)
    (d : Block) : Sound sb start (s.write b d) val := by
  apply h.of_bitmap
  · intro c hc
    rw [Store.write_bread, update_of_ne (hb c hc)]
  · rfl
  · intro c _ hc
    rw [Store.write_cached]
    by_cases hcb : c = b
    · rw [hcb, update_self]
    · rwa [update_of_ne hcb]

theorem fill {b : Nat} (hb : sb.nmeta ≤ b)
    (hne : ∀ i, val (.addr i indirect) ≠ some b) (d : Block) : Sound sb start (s.fill b d) val := by
  apply h.of_bitmap
  · intro c hc
    have := sb.bblock_lt hc
    rw [Store.fill_bread, update_of_ne (by omega)]
  · rfl
  · intro c hc hnone
    have hcb : c ≠ b := by
      rintro rfl
      rcases hc with hc | ⟨i, hi⟩
      · omega
      · exact hne i hi
    simpa [Store.fill, hcb] using hnone

end

theorem allocated_bread {c b : Nat} (hbb : b ≠ sb.bblock c) (hc : b ≠ c) :
    (allocated sb s c).bread b = s.bread b := by
  simp only [allocated, Store.record_bread, Store.write_bread, update_of_ne hc,
    update_of_ne hbb]

theorem fresh (h : Sound sb start s val) {c : Nat} (hc : c < sb.size)
    (hfree : marked sb s c = false) : c ∈ sb.dataBlocks ∧ c ∉ inUse sb s := by
  refine ⟨⟨?_, hc⟩, fun hmem => by simp [hmem.2] at hfree⟩
  by_contra hlt
  simp [h.reserved c (by omega)] at hfree

theorem alloc (h : Sound sb start s val) {c : Nat} (hc : c < sb.size)
    (hfree : marked sb s c = false) {x : Slot} (hx : val x = none) :
    Sound sb start (allocated sb s c) (update val x (some c)) := by
  obtain ⟨hdata, hnot⟩ := h.fresh hc hfree
  have hmark : ∀ b < sb.size, marked sb (allocated sb s c) b =
    (decide (b = c) || marked sb s b) := by
    intro b hb
    have hlt := sb.bblock_lt hb
    have hne : sb.bblock b ≠ c := fun heq => by
      have := hdata.1
      omega
    rw [← marked_setBit, allocated]
    apply marked_congr
    rw [Store.record_bread, Store.write_bread, update_of_ne hne]
  have huse : inUse sb (allocated sb s c) = insert c (inUse sb s) := by
    ext b
    constructor
    · rintro ⟨hd, hm⟩
      rw [hmark b hd.2, Bool.or_eq_true, decide_eq_true_eq] at hm
      rcases hm with rfl | hm
      · exact Set.mem_insert b _
      · exact Set.mem_insert_of_mem c ⟨hd, hm⟩
    · rintro (rfl | ⟨hd, hm⟩)
      · exact ⟨hdata, by rw [hmark b hc, decide_eq_true rfl, Bool.true_or]⟩
      · exact ⟨hd, by rw [hmark b hd.2, hm, Bool.or_true]⟩
  refine ⟨?_, ?_, ?_, ?_⟩
  · intro b hb
    have hle := sb.nmeta_le
    rw [hmark b (by omega), h.reserved b hb, Bool.or_true]
  · rw [huse]
    exact h.owns.alloc hx hnot
  · rw [huse]
    exact h.ledger.alloc hdata hnot
  · intro b hb
    have hcached : ∀ b, s.cached b = none ∨ b = c → (allocated sb s c).cached b = none := by
      intro b hb
      simp only [allocated, Store.record_cached, Store.write_cached]
      by_cases hbc : b = c
      · rw [hbc, update_self]
      · rw [update_of_ne hbc]
        by_cases hbb : b = sb.bblock c
        · rw [hbb, update_self]
        · rw [update_of_ne hbb]
          exact hb.resolve_right hbc
    apply hcached
    rcases hb with hb | ⟨i, hi⟩
    · exact Or.inl (h.clean b (Or.inl hb))
    · by_cases hix : Slot.addr i indirect = x
      · subst hix
        exact Or.inr (by simpa using hi.symm)
      · rw [update_of_ne hix] at hi
        exact Or.inl (h.clean b (Or.inr ⟨i, hi⟩))

theorem free (h : Sound sb start s val) {x : Slot} {b : Nat} (hx : val x = some b)
    {E : String → Prop} :
    Ends (bfree sb s b) (fun s' => Sound sb start s' (update val x none) ∧
      ∀ c, c ≠ sb.bblock b → s'.bread c = s.bread c) E := by
  obtain ⟨hlow, hhigh, hset⟩ := h.mem hx
  have hset' : getBit (s.bread (sb.bblock b)) (b % bpb) = true := hset
  simp only [bfree, hset', if_true]
  apply Ends.ok
  have hmark : ∀ c, marked sb ((s.write (sb.bblock b)
      (clearBit (s.bread (sb.bblock b)) (b % bpb))).record (.free b)) c =
        (decide (c ≠ b) && marked sb s c) := marked_clearBit sb s b
  have huse : inUse sb ((s.write (sb.bblock b)
      (clearBit (s.bread (sb.bblock b)) (b % bpb))).record (.free b)) = inUse sb s \ {b} := by
    ext c
    constructor
    · rintro ⟨hd, hm⟩
      rw [hmark c, Bool.and_eq_true, decide_eq_true_eq] at hm
      exact ⟨⟨hd, hm.2⟩, hm.1⟩
    · rintro ⟨⟨hd, hm⟩, hne⟩
      exact ⟨hd, by rw [hmark c, hm, Bool.and_true]; exact decide_eq_true hne⟩
  refine ⟨⟨?_, ?_, ?_, ?_⟩, ?_⟩
  · intro c hc
    rw [hmark c, h.reserved c hc, Bool.and_true]
    exact decide_eq_true (by omega)
  · rw [huse]
    exact h.owns.free hx
  · rw [huse]
    exact h.ledger.free (h.owns.mem hx)
  · intro c hc
    have hnone : s.cached c = none := by
      apply h.clean c
      rcases hc with hc | ⟨i, hi⟩
      · exact Or.inl hc
      · by_cases hix : Slot.addr i indirect = x
        · subst hix
          simp at hi
        · rw [update_of_ne hix] at hi
          exact Or.inr ⟨i, hi⟩
    rw [Store.record_cached, Store.write_cached]
    by_cases hcb : c = sb.bblock b
    · rw [hcb, update_self]
    · rwa [update_of_ne hcb]
  · intro c hc
    rw [Store.record_bread, Store.write_bread, update_of_ne hc]

end Sound

section Pointers

variable {sb : Superblock} {s : Store} {base : Nat → Dinode} {i : Nat} {d : Dinode}

section

variable (hi : i < sb.ninodes) (hlive : d.type ≠ 0)
include hi hlive

theorem held_addr (k : Fin (ndirect + 1)) :
    held sb s (update base i d) (.addr i k) = ptr (d.addrs k) := by
  simp [held, hi, hlive]

theorem held_entry (m : Fin nindirect) : held sb s (update base i d) (.entry i m) =
      (ptr (d.addrs indirect)).bind fun b => ptr (entry (s.bread b) m) := by
  simp [held, hi, hlive]

theorem held_setAddr (k : Fin (ndirect + 1)) (a : UInt32) (hk : k = indirect → ∀ m : Fin nindirect,
      ((ptr a).bind fun b => ptr (entry (s.bread b) m)) =
        (ptr (d.addrs indirect)).bind fun b => ptr (entry (s.bread b) m)) :
    held sb s (update base i (d.setAddr k a)) =
      update (held sb s (update base i d)) (.addr i k) (ptr a) := by
  have hlive' : (d.setAddr k a).type ≠ 0 := hlive
  funext x
  cases x with
  | addr j n =>
    by_cases hj : j = i
    · subst hj
      rw [held_addr hi hlive']
      by_cases hn : n = k
      · subst hn
        simp [Dinode.setAddr]
      · have hne : Slot.addr j n ≠ .addr j k := by simp [hn]
        rw [update_of_ne hne, held_addr hi hlive]
        simp [Dinode.setAddr, hn]
    · have hne : Slot.addr j n ≠ .addr i k := by simp [hj]
      rw [update_of_ne hne]
      simp only [held, update_of_ne hj]
  | entry j m =>
    have hne : Slot.entry j m ≠ .addr i k := by simp
    rw [update_of_ne hne]
    by_cases hj : j = i
    · subst hj
      rw [held_entry hi hlive', held_entry hi hlive]
      by_cases hki : k = indirect
      · subst hki
        simpa [Dinode.setAddr] using hk rfl m
      · simp [Dinode.setAddr, Ne.symm hki]
    · simp only [held, update_of_ne hj]

theorem held_setEntry {a : Nat} (ha : ptr (d.addrs indirect) = some a)
    (hinj : ∀ j, held sb s (update base i d) (.addr j indirect) = some a → j = i)
    (m : Fin nindirect) (v : UInt32) :
    held sb (s.write a (setLE (s.bread a) (4 * m) 4 v.toNat)) (update base i d) =
      update (held sb s (update base i d)) (.entry i m) (ptr v) := by
  funext x
  cases x with
  | addr j n =>
    have hne : Slot.addr j n ≠ .entry i m := by simp
    rw [update_of_ne hne]
    rfl
  | entry j n =>
    by_cases hj : j = i
    · subst hj
      rw [held_entry hi hlive, ha, bind_some, Store.write_bread, update_self,
        entry_setLE _ m.isLt n.isLt]
      by_cases hn : n = m
      · subst hn
        simp
      · have hne : Slot.entry j n ≠ .entry j m := by simp [hn]
        have hnm : n.val ≠ m.val := fun h => hn (Fin.ext h)
        rw [update_of_ne hne, held_entry hi hlive, ha, bind_some, if_neg hnm]
    · have hne : Slot.entry j n ≠ .entry i m := by simp [hj]
      rw [update_of_ne hne]
      by_cases hlt : j < sb.ninodes ∧ (update base i d j).type ≠ 0
      · simp only [held, if_pos hlt]
        cases hp : ptr ((update base i d j).addrs indirect) with
        | none => rfl
        | some b =>
          have hba : b ≠ a := by
            rintro rfl
            exact hj (hinj j (by simp only [held, if_pos hlt, hp]))
          simp only [bind_some, Store.write_bread, update_of_ne hba]
      · simp only [held, if_neg hlt]

end

end Pointers

/-- An operation on inode `i` under way: its in-memory copy is `d`, and the disk still
has the inodes of the start. -/
structure Mid (sb : Superblock) (start : Set Nat) (base : Nat → Dinode) (i : Nat) (s : Store)
    (d : Dinode) : Prop where
  lt : i < sb.ninodes
  live : d.type ≠ 0
  sound : Sound sb start s (held sb s (update base i d))
  inodes : ∀ j < sb.ninodes, dinode sb s j = base j

namespace Mid

variable {sb : Superblock} {start : Set Nat} {base : Nat → Dinode} {i : Nat} {s : Store}
  {d : Dinode}

theorem addr (h : Mid sb start base i s d) (k : Fin (ndirect + 1)) :
    held sb s (update base i d) (.addr i k) = ptr (d.addrs k) :=
  held_addr h.lt h.live k

theorem inodes_congr (h : Mid sb start base i s d) {s' : Store}
    (hb : ∀ j < sb.ninodes, s'.bread (sb.iblock j) = s.bread (sb.iblock j)) :
    ∀ j < sb.ninodes, dinode sb s' j = base j := by
  intro j hj
  rw [← h.inodes j hj, dinode, dinode, hb j hj]

theorem fresh (h : Mid sb start base i s d) {c : Nat} (hc : c < sb.size)
    (hfree : marked sb s c = false) :
    (∀ x b, held sb s (update base i d) x = some b →
      (allocated sb s c).bread b = s.bread b) ∧
    (∀ j < sb.ninodes, (allocated sb s c).bread (sb.iblock j) = s.bread (sb.iblock j)) := by
  obtain ⟨hdata, hnot⟩ := h.sound.fresh hc hfree
  have hbb := sb.bblock_lt hc
  have hge := hdata.1
  constructor
  · intro x b hx
    have hb := h.sound.owns.mem hx
    apply Sound.allocated_bread
    · have := hb.1.1
      omega
    · rintro rfl
      exact hnot hb
  · intro j hj
    have hlt := sb.iblock_lt hj
    have hstart := sb.bmapstart_le c
    have hlt' := sb.iblock_lt_nmeta hj
    apply Sound.allocated_bread
    · omega
    · omega

theorem ofNat_toNat {c : Nat} (hc : c < sb.size) : (UInt32.ofNat c).toNat = c := by
  have := sb.size_lt
  simp only [UInt32.toNat_ofNat']
  omega

theorem ptr_ofNat {c : Nat} (hc : c < sb.size) (hpos : 0 < c) : ptr (UInt32.ofNat c) = some c := by
  have hnat := ofNat_toNat hc
  rw [ptr_of_ne, hnat]
  intro h
  rw [h] at hnat
  simp at hnat
  omega

theorem held_allocAddr (h : Mid sb start base i s d) {c : Nat} (hc : c < sb.size)
    (hfree : marked sb s c = false) {k : Fin (ndirect + 1)} (hk : d.addrs k = 0) :
    held sb (allocated sb s c) (update base i (d.setAddr k (UInt32.ofNat c))) =
      update (held sb s (update base i d)) (.addr i k) (some c) := by
  have hpos : 0 < c := Nat.lt_of_lt_of_le sb.nmeta_pos (h.sound.fresh hc hfree).1.1
  have hptr := ptr_ofNat hc hpos
  rw [held_setAddr h.lt h.live,
    held_congr (fun _ _ => rfl) fun j b hj => (h.fresh hc hfree).1 _ b hj, hptr]
  rintro rfl m
  rw [hptr, hk, ptr_zero, bind_some, bind_none, allocated, Store.record_bread,
    Store.write_bread, update_self, entry_zero, ptr_zero]

theorem allocAddr (h : Mid sb start base i s d) {c : Nat} (hc : c < sb.size)
    (hfree : marked sb s c = false) {k : Fin (ndirect + 1)} (hk : d.addrs k = 0) :
    Mid sb start base i (allocated sb s c) (d.setAddr k (UInt32.ofNat c)) := by
  refine ⟨h.lt, h.live, ?_, h.inodes_congr (h.fresh hc hfree).2⟩
  rw [h.held_allocAddr hc hfree hk]
  exact h.sound.alloc hc hfree (by rw [h.addr, hk, ptr_zero])

end Mid

end EafitOs.FileSystem
