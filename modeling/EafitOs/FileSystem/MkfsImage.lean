import EafitOs.FileSystem.BlockRuns
import EafitOs.FileSystem.Mkfs

/-!
# What `mkfs` has built so far

At every point of `mkfs` each block below the counter belongs to one place of one inode,
the blocks past the counter are zero, and the blocks of a file hold the bytes appended
to it, followed by zeros.
-/

namespace EafitOs.FileSystem.Mkfs

open Foundation Disk Function List Option

instance : NeZero nindirect := ⟨by decide⟩

/-- The place of the block of inode `i` for the block index `n` of the file. -/
def slot (i n : Nat) : Slot :=
  if h : n < ndirect then .addr i ⟨n, Nat.lt_succ_of_lt h⟩
  else .entry i (Fin.ofNat nindirect (n - ndirect))

theorem slot_direct {i n : Nat} (h : n < ndirect) : slot i n = .addr i ⟨n, Nat.lt_succ_of_lt h⟩ :=
    dif_pos h

theorem slot_entry {i n : Nat} (h : ¬n < ndirect) :
    slot i n = .entry i (Fin.ofNat nindirect (n - ndirect)) := dif_neg h

theorem slot_ne_indirect (i j n : Nat) : slot i n ≠ .addr j indirect := by
  by_cases h : n < ndirect
  · rw [slot_direct h]
    intro heq
    have hval := congrArg Fin.val (Slot.addr.inj heq).2
    simp only [indirect, Fin.val_last] at hval
    omega
  · rw [slot_entry h]
    simp

theorem slot_inj {i j n k : Nat} (hn : n < maxfile) (hk : k < maxfile) (h : slot i n = slot j k) :
    i = j ∧ n = k := by
  have hentry : ∀ {n}, n < maxfile → ¬n < ndirect →
      (Fin.ofNat nindirect (n - ndirect)).val = n - ndirect := by
    intro n hn hnd
    simp only [maxfile] at hn
    exact Nat.mod_eq_of_lt (by omega)
  by_cases hnd : n < ndirect
  · rw [slot_direct hnd] at h
    by_cases hkd : k < ndirect
    · rw [slot_direct hkd] at h
      obtain ⟨hi, hfin⟩ := Slot.addr.inj h
      exact ⟨hi, congrArg Fin.val hfin⟩
    · rw [slot_entry hkd] at h
      cases h
  · rw [slot_entry hnd] at h
    by_cases hkd : k < ndirect
    · rw [slot_direct hkd] at h
      cases h
    · rw [slot_entry hkd] at h
      obtain ⟨hi, hfin⟩ := Slot.entry.inj h
      have hval := congrArg Fin.val hfin
      rw [hentry hn hnd, hentry hk hkd] at hval
      exact ⟨hi, by omega⟩

/-- The blocks below `free` are named once each; file `i` has its first `shape i` blocks,
with the bytes `content i` and then zeros. -/
structure Filled (sector : Nat → Block) (free : Nat) (val : Slot → Option Nat) (shape : Nat → Nat)
    (content : Nat → List UInt8) : Prop where
  low : nmeta ≤ free
  owns : Owns { b | nmeta ≤ b ∧ b < free } val
  fresh : ∀ b, free ≤ b → b < fssize → sector b = fun _ => 0
  mapped : ∀ i, ∀ n < maxfile, (∃ b, val (slot i n) = some b) ↔ n < shape i
  bytes : ∀ i, ∀ n < maxfile, ∀ b, val (slot i n) = some b → ∀ o : Fin bsize,
    sector b o = (content i).getD (n * bsize + o) 0
  fits : ∀ i, (content i).length ≤ shape i * bsize ∧ shape i ≤ maxfile

namespace Filled

variable {sector sector' : Nat → Block} {free : Nat} {val : Slot → Option Nat} {shape : Nat → Nat}
  {content : Nat → List UInt8} {i n b : Nat}

theorem congr (h : Filled sector free val shape content)
    (hsame : ∀ b, (free ≤ b ∨ ∃ i, ∃ n < maxfile, val (slot i n) = some b) → sector' b = sector b) :
    Filled sector' free val shape content where
  low := h.low
  owns := h.owns
  fresh b hlow hhigh := (hsame b (.inl hlow)).trans (h.fresh b hlow hhigh)
  mapped := h.mapped
  bytes i n hn b hb o := by
    rw [hsame b (.inr ⟨i, n, hn, hb⟩)]
    exact h.bytes i n hn b hb o
  fits := h.fits

theorem used_succ (hlow : nmeta ≤ free) :
    { b | nmeta ≤ b ∧ b < free + 1 } = insert free { b | nmeta ≤ b ∧ b < free } := by
  ext b
  simp only [Set.mem_ofPred_eq, Set.mem_insert_iff]
  omega

section

variable (h : Filled sector free val shape content)
include h

theorem takeIndirect (hnone : val (.addr i indirect) = none) :
    Filled sector (free + 1) (update val (.addr i indirect) (some free)) shape content := by
  have hslot : ∀ j n, update val (.addr i indirect) (some free) (slot j n) = val (slot j n) :=
    fun j n => update_of_ne (slot_ne_indirect j i n) ..
  refine ⟨Nat.le_succ_of_le h.low, ?_, fun b hlow => h.fresh b (by omega), ?_, ?_, h.fits⟩
  · rw [used_succ h.low]
    exact h.owns.alloc hnone fun hmem => Nat.lt_irrefl _ hmem.2
  · simpa only [hslot] using h.mapped
  · simpa only [hslot] using h.bytes

theorem takeBlock (hn : shape i < maxfile) (hroom : free < fssize) :
    Filled sector (free + 1) (update val (slot i (shape i)) (some free))
      (update shape i (shape i + 1)) content := by
  have hnone : val (slot i (shape i)) = none := by
    rw [eq_none_iff_forall_ne_some]
    intro b hb
    exact Nat.lt_irrefl _ ((h.mapped i (shape i) hn).mp ⟨b, hb⟩)
  refine ⟨Nat.le_succ_of_le h.low, ?_, fun b hlow => h.fresh b (by omega), fun j n hmax => ?_,
    fun j n hmax b hb o => ?_, fun j => ?_⟩
  · rw [used_succ h.low]
    exact h.owns.alloc hnone fun hmem => Nat.lt_irrefl _ hmem.2
  · by_cases heq : slot j n = slot i (shape i)
    · obtain ⟨rfl, rfl⟩ := slot_inj hmax hn heq
      simp
    · rw [update_of_ne heq, h.mapped j n hmax]
      by_cases hj : j = i
      · subst hj
        have hne : n ≠ shape j := fun hn => heq (by rw [hn])
        rw [update_self]
        omega
      · rw [update_of_ne hj]
  · by_cases heq : slot j n = slot i (shape i)
    · obtain ⟨rfl, rfl⟩ := slot_inj hmax hn heq
      rw [update_self] at hb
      obtain rfl := some.inj hb
      rw [h.fresh free (Nat.le_refl _) hroom, getD_eq_default]
      have := (h.fits j).1
      omega
    · rw [update_of_ne heq] at hb
      exact h.bytes j n hmax b hb o
  · by_cases hj : j = i
    · subst hj
      rw [update_self]
      exact ⟨(h.fits j).1.trans (Nat.mul_le_mul_right _ (Nat.le_succ _)), hn⟩
    · rw [update_of_ne hj]
      exact h.fits j

theorem append {p : List UInt8}
    (hn : n = (content i).length / bsize) (hmax : n < maxfile) (hb : val (slot i n) = some b)
    (hp : (content i).length + p.length ≤ (n + 1) * bsize) :
    Filled (update sector b (overlay (sector b) ((content i).length - n * bsize) p)) free val
      shape (update content i (content i ++ p)) := by
  have hshape := (h.mapped i n hmax).mp ⟨b, hb⟩
  have hlow : n * bsize ≤ (content i).length := by
    rw [hn]
    exact Nat.div_mul_le_self _ _
  have hmem := h.owns.mem hb
  refine ⟨h.low, h.owns, fun c hlow hhigh => ?_, h.mapped, fun j k hk c hc o => ?_, fun j => ?_⟩
  · have hne : c ≠ b := fun heq => by
      have := hmem.2
      omega
    rw [update_of_ne hne]
    exact h.fresh c hlow hhigh
  · by_cases hcb : c = b
    · subst hcb
      obtain ⟨rfl, rfl⟩ := slot_inj hk hmax (h.owns.inj hc hb)
      rw [update_self, update_self]
      have hold := h.bytes j k hk c hc o
      simp only [overlay]
      split
      · rename_i hin
        rw [getD_append_right _ _ _ _ (by omega)]
        congr 1
        omega
      · rename_i hout
        rw [hold]
        by_cases hlt : k * bsize + o.val < (content j).length
        · rw [getD_append _ _ _ _ hlt]
        · have hpast : (content j).length + p.length ≤ k * bsize + o.val := by omega
          rw [getD_eq_default _ _ (by omega),
            getD_eq_default _ _ (by rw [length_append]; exact hpast)]
    · rw [update_of_ne hcb]
      have hold := h.bytes j k hk c hc o
      by_cases hj : j = i
      · subst hj
        have hkn : k ≠ n := by
          rintro rfl
          exact hcb (some.inj (hc.symm.trans hb))
        rw [update_self, hold]
        have ho := o.isLt
        have hkshape := (h.mapped j k hk).mp ⟨c, hc⟩
        -- another block of the file ends before the new bytes or starts after them
        by_cases hlt : k < n
        · have hle : (k + 1) * bsize ≤ n * bsize := Nat.mul_le_mul_right _ hlt
          rw [Nat.succ_mul] at hle
          rw [getD_append _ _ _ _ (by omega)]
        · have hle : (n + 1) * bsize ≤ k * bsize := Nat.mul_le_mul_right _ (by omega)
          rw [getD_eq_default _ _ (by omega),
            getD_eq_default _ _ (by rw [length_append]; omega)]
      · rw [update_of_ne hj]
        exact hold
  · by_cases hj : j = i
    · subst hj
      rw [update_self, length_append]
      exact ⟨hp.trans (Nat.mul_le_mul_right _ hshape), (h.fits j).2⟩
    · rw [update_of_ne hj]
      exact h.fits j

end

end Filled

theorem seek_of_lt {sec : Nat} (h : sec ≤ fssize) : seek sec = sec := by
  have hlt : sec * bsize < 2 ^ 32 := by
    simp only [fssize, bsize] at h ⊢
    omega
  rw [seek, Nat.mod_eq_of_lt hlt, Nat.mul_div_cancel _ (by decide)]

def Image.store (m : Image) : Store := ⟨m.sector, fun _ => none, []⟩

@[simp] theorem Image.bread_store (m : Image) : m.store.bread = m.sector := rfl

def Image.inode (m : Image) : Nat → Dinode := dinode sb m.store

theorem held_of_bread {s s' : Store} {inode : Nat → Dinode} (h : s'.bread = s.bread) :
    held sb s' inode = held sb s inode :=
  held_congr (fun _ _ => rfl) fun _ b _ => congrFun h b

structure Built (m : Image) (inode : Nat → Dinode) (shape : Nat → Nat)
    (content : Nat → List UInt8) : Prop where
  length : m.length = fssize
  inodes_le : m.freeinode ≤ ninodes
  blocks_le : m.freeblock ≤ fssize
  super : m.sector 1 = setFields (fun _ => 0) 0 superFields
  types : ∀ i < ninodes, (inode i).type ≠ 0 ↔ 1 ≤ i ∧ i < m.freeinode
  filled : Filled m.sector m.freeblock (held sb m.store inode) shape content

structure Appending (m : Image) (base : Nat → Dinode) (i : Nat) (d : Dinode) (shape : Nat → Nat)
    (content : Nat → List UInt8) : Prop where
  live : 1 ≤ i ∧ i < m.freeinode
  built : Built m (update base i d) shape content
  inodes : ∀ j < ninodes, m.inode j = base j

namespace Appending

variable {m m' : Image} {base : Nat → Dinode} {i n : Nat} {d d' : Dinode} {shape : Nat → Nat}
  {content : Nat → List UInt8}

section

variable (h : Appending m base i d shape content)
include h

theorem lt : i < sb.ninodes :=
  Nat.lt_of_lt_of_le h.live.2 h.built.inodes_le

theorem type : d.type ≠ 0 := by
  have htype := (h.built.types i h.lt).mpr h.live
  rwa [update_self] at htype

theorem types (htype : d'.type = d.type) :
    ∀ j < ninodes, (update base i d' j).type ≠ 0 ↔ 1 ≤ j ∧ j < m.freeinode := by
  intro j hj
  rw [← h.built.types j hj]
  by_cases hji : j = i
  · rw [hji, update_self, update_self, htype]
  · rw [update_of_ne hji, update_of_ne hji]

theorem mem {x : Slot} {b : Nat} (hx : held sb m.store (update base i d) x = some b) :
    nmeta ≤ b ∧ b < m.freeblock ∧ b < fssize :=
  have hb := h.built.filled.owns.mem hx
  ⟨hb.1, hb.2, Nat.lt_of_lt_of_le hb.2 h.built.blocks_le⟩

theorem rsect {b : Nat} (hb : b < fssize) : m.rsect b = some (m.sector b) := by
  rw [Image.rsect, seek_of_lt (Nat.le_of_lt hb), if_pos (h.built.length ▸ hb)]

end

theorem rsect_end (hlen : m.length = fssize) : m.rsect fssize = none := by
  rw [Image.rsect, seek_of_lt (Nat.le_refl _), if_neg (by omega)]

theorem ofNat_toNat {b : Nat} (hb : b ≤ fssize) : (UInt32.ofNat b).toNat = b := by
  have : fssize < 2 ^ 32 := by decide
  simp only [UInt32.toNat_ofNat']
  omega

section

variable (h : Appending m base i d shape content)
include h

theorem ptr_free : ptr (UInt32.ofNat m.freeblock) = some m.freeblock := by
  have hnat := ofNat_toNat h.built.blocks_le
  rw [ptr_of_ne, hnat]
  intro hzero
  rw [hzero] at hnat
  have hlow := h.built.filled.low
  have hpos : 0 < nmeta := by decide
  simp only [UInt32.toNat_zero] at hnat
  omega

theorem wsect {b free : Nat} {buf : Block}
    {shape' : Nat → Nat} {content' : Nat → List UInt8} (hlow : nmeta ≤ b) (hhigh : b < fssize)
    (hfree : free ≤ fssize)
    (hfilled : Filled (update m.sector b buf) free
      (held sb (m.store.write b buf) (update base i d)) shape' content') :
    Appending ({ m with freeblock := free }.wsect b buf) base i d shape' content' := by
  have hseek := seek_of_lt (Nat.le_of_lt hhigh)
  have hsector : ({ m with freeblock := free }.wsect b buf).sector =
      update m.sector b buf := by
    rw [Image.wsect, hseek]
  have hbread : ({ m with freeblock := free }.wsect b buf).store.bread =
      (m.store.write b buf).bread := by
    rw [Store.write_bread]
    exact hsector
  refine ⟨h.live, ⟨?_, h.built.inodes_le, hfree, ?_, h.built.types, ?_⟩, ?_⟩
  · change max m.length (seek b + 1) = fssize
    rw [hseek, h.built.length]
    omega
  · have hne : 1 ≠ b := by
      have : 1 < nmeta := by decide
      omega
    rw [hsector, update_of_ne hne]
    exact h.built.super
  · rw [hsector, held_of_bread hbread]
    exact hfilled
  · intro j hj
    rw [← h.inodes j hj, Image.inode, Image.inode, dinode, dinode]
    have hne : sb.iblock j ≠ b := by
      have hblock := sb.iblock_lt_nmeta hj
      have heq : sb.nmeta = nmeta := by decide
      omega
    rw [hbread, Store.write_bread, update_of_ne hne]

theorem count {shape' : Nat → Nat} (hroom : m.freeblock < fssize) (htype : d'.type = d.type)
    (hfilled : Filled m.sector (m.freeblock + 1) (held sb m.store (update base i d')) shape'
      content) :
    Appending { m with freeblock := m.freeblock + 1 } base i d' shape' content :=
  ⟨h.live, ⟨h.built.length, h.built.inodes_le, hroom, h.built.super, h.types htype, hfilled⟩,
    h.inodes⟩

theorem held_fillAddr (hroom : m.freeblock < fssize) {k : Fin (ndirect + 1)} (hk : d.addrs k = 0) :
    held sb m.store (update base i (d.setAddr k (UInt32.ofNat m.freeblock))) =
      update (held sb m.store (update base i d)) (.addr i k)
        (some m.freeblock) := by
  rw [held_setAddr h.lt h.type, h.ptr_free]
  rintro rfl e
  have hzero : m.store.bread m.freeblock = fun _ => 0 :=
    h.built.filled.fresh _ (Nat.le_refl _) hroom
  rw [h.ptr_free, hk, ptr_zero, bind_some, bind_none, hzero, entry_zero, ptr_zero]

theorem held_addr_none {k : Fin (ndirect + 1)}
    (hk : d.addrs k = 0) : held sb m.store (update base i d) (.addr i k) = none := by
  rw [held_addr h.lt h.type, hk, ptr_zero]

theorem fillIndirect (hroom : m.freeblock < fssize) (hk : d.addrs indirect = 0) :
    Appending { m with freeblock := m.freeblock + 1 } base i
      (d.setAddr indirect (UInt32.ofNat m.freeblock)) shape content := by
  refine h.count hroom rfl ?_
  rw [h.held_fillAddr hroom hk]
  exact h.built.filled.takeIndirect (h.held_addr_none hk)

theorem fillDirect (hroom : m.freeblock < fssize)
    (hn : shape i < ndirect) (hk : d.addrs ⟨shape i, by omega⟩ = 0) :
    Appending { m with freeblock := m.freeblock + 1 } base i
      (d.setAddr ⟨shape i, by omega⟩ (UInt32.ofNat m.freeblock))
      (update shape i (shape i + 1)) content := by
  refine h.count hroom rfl ?_
  rw [h.held_fillAddr hroom hk, ← slot_direct hn]
  exact h.built.filled.takeBlock (by simp only [maxfile]; omega) hroom

theorem fillEntry (hroom : m.freeblock < fssize)
    (hind : d.addrs indirect ≠ 0) (hn : ¬shape i < ndirect) (hmax : shape i < maxfile) :
    Appending ({ m with freeblock := m.freeblock + 1 }.wsect (d.addrs indirect).toNat
      (setLE (m.sector (d.addrs indirect).toNat) (4 * (shape i - ndirect)) 4
        (UInt32.ofNat m.freeblock).toNat)) base i d
      (update shape i (shape i + 1)) content := by
  have hptr := ptr_of_ne hind
  have haddr : held sb m.store (update base i d) (.addr i indirect) =
      some (d.addrs indirect).toNat := (held_addr h.lt h.type indirect).trans hptr
  obtain ⟨hlow, hfree, hhigh⟩ := h.mem haddr
  have hk : (Fin.ofNat nindirect (shape i - ndirect)).val = shape i - ndirect := by
    simp only [maxfile] at hmax
    exact Nat.mod_eq_of_lt (by omega)
  have hheld := held_setEntry h.lt h.type hptr
    (fun j hj => (Slot.addr.inj (h.built.filled.owns.inj hj haddr)).1)
    (Fin.ofNat nindirect (shape i - ndirect)) (UInt32.ofNat m.freeblock)
  rw [hk, ← slot_entry hn, h.ptr_free] at hheld
  have htake := h.built.filled.takeBlock hmax hroom
  refine h.wsect hlow hhigh hroom ?_
  rw [Image.bread_store] at hheld
  rw [hheld]
  refine htake.congr fun b hb => update_of_ne ?_ ..
  rintro rfl
  obtain hpast | ⟨j, k, hkmax, hjk⟩ := hb
  · omega
  · by_cases heq : slot j k = slot i (shape i)
    · rw [heq, update_self] at hjk
      have := some.inj hjk
      omega
    · rw [update_of_ne heq] at hjk
      exact slot_ne_indirect j i k (h.built.filled.owns.inj hjk haddr)

end

structure Found (m : Image) (base : Nat → Dinode) (i n : Nat) (shape : Nat → Nat)
    (content : Nat → List UInt8) (x : UInt32) (d' : Dinode) (m' : Image) : Prop where
  appending : Appending m' base i d' (update shape i (max (shape i) (n + 1))) content
  held : held sb m'.store (update base i d') (slot i n) = some x.toNat
  freeinode : m'.freeinode = m.freeinode
  freeblock : m'.freeblock ≤ m.freeblock + 2

/-- The block is not in the image, and reading it ends the program. -/
structure Ends (m : Image) (r : Option (UInt32 × Dinode × Image)) : Prop where
  read : (r.bind fun r => r.2.2.rsect r.1.toNat) = none
  full : fssize < m.freeblock + 2

theorem mapped_iff (h : Appending m base i d shape content) (hn : n < maxfile) :
    held sb m.store (update base i d) (slot i n) = none ↔ shape i ≤ n := by
  have hmapped := h.built.filled.mapped i n hn
  rw [← Nat.not_lt, ← hmapped, eq_none_iff_forall_ne_some, not_exists]

theorem shape_max_of_lt (hlt : n < shape i) :
    update shape i (max (shape i) (n + 1)) = shape := by
  rw [Nat.max_eq_left hlt, update_eq_self]

theorem shape_max_self : update shape i (max (shape i) (shape i + 1)) =
    update shape i (shape i + 1) := by
  rw [Nat.max_eq_right (Nat.le_succ _)]

section

variable (h : Appending m base i d shape content)
include h

theorem blockFor_direct (hle : n ≤ shape i) (hn : n < ndirect) :
    (∃ x d' m', m.blockFor d n = some (x, d', m') ∧ Found m base i n shape content x d' m') ∨
      Ends m (m.blockFor d n) := by
  have hmax : n < maxfile := by
    simp only [maxfile]
    omega
  have hslot : held sb m.store (update base i d) (slot i n) =
      ptr (d.addrs ⟨n, by omega⟩) := by
    rw [slot_direct hn, held_addr h.lt h.type]
  simp only [Image.blockFor, dif_pos hn, Image.fillAddr]
  by_cases hk : d.addrs ⟨n, by omega⟩ = 0
  · rw [if_pos hk]
    have hshape : shape i = n := by
      refine Nat.le_antisymm ((h.mapped_iff hmax).mp ?_) hle
      rw [hslot, hk, ptr_zero]
    subst hshape
    by_cases hroom : m.freeblock < fssize
    · refine .inl ⟨_, _, _, rfl, ?_, ?_, rfl, by simp⟩
      · rw [shape_max_self]
        exact h.fillDirect hroom hn hk
      · change held sb m.store _ _ = _
        rw [h.held_fillAddr hroom hk, ← slot_direct hn, update_self]
        simp [Dinode.setAddr, ofNat_toNat h.built.blocks_le]
    · have hfull : m.freeblock = fssize := Nat.le_antisymm h.built.blocks_le (Nat.not_lt.mp hroom)
      refine .inr ⟨?_, by omega⟩
      simp only [bind_some, Dinode.setAddr, update_self, hfull]
      exact rsect_end h.built.length
  · rw [if_neg hk]
    rw [ptr_of_ne hk] at hslot
    have hlt : n < shape i := (h.built.filled.mapped i n hmax).mp ⟨_, hslot⟩
    exact .inl ⟨_, _, _, rfl, by rwa [shape_max_of_lt hlt], hslot, rfl, Nat.le_add_right _ 2⟩

theorem held_slot_entry (hn : ¬n < ndirect) (hmax : n < maxfile) (hind : d.addrs indirect ≠ 0) :
    held sb m.store (update base i d) (slot i n) =
      ptr (entry (m.sector (d.addrs indirect).toNat) (n - ndirect)) := by
  have hk : (Fin.ofNat nindirect (n - ndirect)).val = n - ndirect := by
    simp only [maxfile] at hmax
    exact Nat.mod_eq_of_lt (by omega)
  rw [slot_entry hn, held_entry h.lt h.type, ptr_of_ne hind, bind_some, hk]
  rfl

theorem fillEntry_cases (hle : n ≤ shape i)
    (hn : ¬n < ndirect) (hmax : n < maxfile) (hind : d.addrs indirect ≠ 0) :
    (∃ x m', m.fillEntry (d.addrs indirect).toNat (n - ndirect) = some (x, m') ∧
      Appending m' base i d (update shape i (max (shape i) (n + 1))) content ∧
      held sb m'.store (update base i d) (slot i n) = some x.toNat ∧
      m'.freeinode = m.freeinode ∧ m'.freeblock ≤ m.freeblock + 1) ∨
    (((m.fillEntry (d.addrs indirect).toNat (n - ndirect)).bind fun r => r.2.rsect r.1.toNat) =
      none ∧ fssize ≤ m.freeblock) := by
  have haddr : held sb m.store (update base i d) (.addr i indirect) =
      some (d.addrs indirect).toNat := (held_addr h.lt h.type indirect).trans (ptr_of_ne hind)
  obtain ⟨-, -, hhigh⟩ := h.mem haddr
  have hslot := h.held_slot_entry hn hmax hind
  have hk : n - ndirect < nindirect := by
    simp only [maxfile] at hmax
    omega
  simp only [Image.fillEntry, h.rsect hhigh, bind_eq_bind, bind_some]
  by_cases hzero : entry (m.sector (d.addrs indirect).toNat) (n - ndirect) = 0
  · have hshape : shape i = n := by
      refine Nat.le_antisymm ((h.mapped_iff hmax).mp ?_) hle
      rw [hslot, hzero, ptr_zero]
    subst hshape
    rw [if_pos hzero, entry_setLE _ hk hk, if_pos rfl]
    by_cases hroom : m.freeblock < fssize
    · have hnew := h.fillEntry hroom hind hn hmax
      refine .inl ⟨_, _, rfl, by rwa [shape_max_self], ?_, rfl, Nat.le_refl _⟩
      rw [hnew.held_slot_entry hn hmax hind]
      simp only [Image.wsect, seek_of_lt (Nat.le_of_lt hhigh), update_self]
      rw [entry_setLE _ hk hk, if_pos rfl, h.ptr_free, ofNat_toNat h.built.blocks_le]
    · have hfull : m.freeblock = fssize := Nat.le_antisymm h.built.blocks_le (Nat.not_lt.mp hroom)
      refine .inr ⟨?_, Nat.not_lt.mp hroom⟩
      simp only [bind_some, ofNat_toNat h.built.blocks_le]
      rw [hfull]
      refine rsect_end ?_
      simp only [Image.wsect, seek_of_lt (Nat.le_of_lt hhigh), h.built.length]
      omega
  · rw [if_neg hzero]
    rw [ptr_of_ne hzero] at hslot
    have hlt : n < shape i := (h.built.filled.mapped i n hmax).mp ⟨_, hslot⟩
    exact .inl ⟨_, _, rfl, by rwa [shape_max_of_lt hlt], hslot, rfl, Nat.le_succ _⟩

theorem blockFor_entry (hle : n ≤ shape i) (hn : ¬n < ndirect) (hmax : n < maxfile) :
    (∃ x d' m', m.blockFor d n = some (x, d', m') ∧ Found m base i n shape content x d' m') ∨
      Ends m (m.blockFor d n) := by
  simp only [Image.blockFor, dif_neg hn, Image.fillAddr]
  by_cases hk : d.addrs indirect = 0
  · rw [if_pos hk]
    by_cases hroom : m.freeblock < fssize
    · have hnew := h.fillIndirect hroom hk
      have hind : (d.setAddr indirect (UInt32.ofNat m.freeblock)).addrs indirect ≠ 0 := by
        simp only [Dinode.setAddr, update_self]
        exact (ptr_eq_some.mp h.ptr_free).1
      obtain ⟨x, m', heq, happ, hheld, hino, hblock⟩ | ⟨hread, hfull⟩ :=
        hnew.fillEntry_cases hle hn hmax hind
      · refine .inl ⟨x, _, m', by simp only [heq]; rfl, happ, hheld, hino, ?_⟩
        exact hblock.trans (Nat.le_of_eq (Nat.add_assoc ..))
      · refine .inr ⟨?_, Nat.lt_succ_of_le hfull⟩
        rw [← hread]
        simp only [bind_eq_bind, bind_assoc, bind_some]
    · have hfull : m.freeblock = fssize := Nat.le_antisymm h.built.blocks_le (Nat.not_lt.mp hroom)
      refine .inr ⟨?_, by omega⟩
      have hread : ({ m with freeblock := m.freeblock + 1 } : Image).rsect m.freeblock = none := by
        rw [hfull]
        exact rsect_end h.built.length
      simp only [Dinode.setAddr, update_self, ofNat_toNat h.built.blocks_le,
        Image.fillEntry, hread]
      rfl
  · rw [if_neg hk]
    obtain ⟨x, m', heq, happ, hheld, hino, hblock⟩ | ⟨hread, hfull⟩ :=
      h.fillEntry_cases hle hn hmax hk
    · exact .inl ⟨x, _, m', by simp only [heq]; rfl, happ, hheld, hino, Nat.le_succ_of_le hblock⟩
    · refine .inr ⟨?_, by omega⟩
      rw [← hread]
      simp only [bind_eq_bind, bind_assoc, bind_some]

theorem blockFor_cases (hle : n ≤ shape i) (hmax : n < maxfile) :
    (∃ x d' m', m.blockFor d n = some (x, d', m') ∧ Found m base i n shape content x d' m') ∨
      Ends m (m.blockFor d n) := by
  by_cases hn : n < ndirect
  · exact h.blockFor_direct hle hn
  · exact h.blockFor_entry hle hn hmax

end

def blocksFor (len : Nat) : Nat := (len + (bsize - 1)) / bsize

section

variable (h : Appending m base i d shape content) (hshape : shape i = blocksFor (content i).length)
include h hshape

theorem round {p : List UInt8} (hn : n = (content i).length / bsize)
    (hmax : n < maxfile) (hp : p ≠ []) (hfits : (content i).length + p.length ≤ (n + 1) * bsize) :
    (∃ x d' m', m.blockFor d n = some (x, d', m') ∧ m'.rsect x.toNat = some (m'.sector x.toNat) ∧
      Appending (m'.wsect x.toNat
        (overlay (m'.sector x.toNat) ((content i).length - n * bsize) p)) base i d'
        (update shape i (blocksFor ((content i).length + p.length)))
        (update content i (content i ++ p)) ∧
      m'.freeinode = m.freeinode ∧ m'.freeblock ≤ m.freeblock + 2) ∨ Ends m (m.blockFor d n) := by
  have hpos : 0 < p.length := length_pos_iff.mpr hp
  have hlow : n * bsize ≤ (content i).length := by
    rw [hn]
    exact Nat.div_mul_le_self _ _
  have hle : n ≤ shape i := by
    rw [hshape, hn, blocksFor]
    exact Nat.div_le_div_right (Nat.le_add_right _ _)
  have hafter : max (shape i) (n + 1) = blocksFor ((content i).length + p.length) := by
    rw [hshape, blocksFor, blocksFor]
    simp only [bsize] at hn hfits hlow ⊢
    omega
  obtain ⟨x, d', m', heq, hfound⟩ | hends := h.blockFor_cases hle hmax
  · obtain ⟨happ, hheld, hino, hblock⟩ := hfound
    rw [hafter] at happ
    obtain ⟨hlow', hfree, hhigh⟩ := happ.mem hheld
    refine .inl ⟨x, d', m', heq, happ.rsect hhigh, ?_, hino, hblock⟩
    refine happ.wsect hlow' hhigh happ.built.blocks_le ?_
    have hsame : held sb (m'.store.write x.toNat (overlay (m'.sector x.toNat)
        ((content i).length - n * bsize) p)) (update base i d') =
        held sb m'.store (update base i d') := by
      refine held_congr (fun _ _ => rfl) fun j b hj => ?_
      rw [Store.write_bread, update_of_ne]
      rintro rfl
      exact slot_ne_indirect i j n (happ.built.filled.owns.inj hheld hj)
    rw [hsame]
    exact happ.built.filled.append hn hmax hheld hfits
  · exact .inr hends

theorem loop_nil {fuel off : Nat}
    (hrun : Image.iappendLoop fuel m d (content i).length [] = some (off, d', m')) :
    off = (content i).length ∧ m'.freeinode = m.freeinode ∧
      Appending m' base i d' (update shape i (blocksFor (content i).length))
        (update content i (content i ++ [])) := by
  obtain ⟨rfl, rfl, rfl⟩ : (content i).length = off ∧ d = d' ∧ m = m' := by simpa using hrun
  refine ⟨rfl, rfl, ?_⟩
  rwa [← hshape, update_eq_self, append_nil, update_eq_self]

theorem loop {fuel off : Nat} {p : List UInt8} (hfuel : p.length ≤ fuel)
    (hrun : Image.iappendLoop fuel m d (content i).length p = some (off, d', m')) :
    off = (content i).length + p.length ∧ m'.freeinode = m.freeinode ∧
      Appending m' base i d' (update shape i (blocksFor ((content i).length + p.length)))
        (update content i (content i ++ p)) := by
  induction fuel generalizing m d content shape p with
  | zero =>
    obtain rfl := length_eq_zero_iff.mp (Nat.le_zero.mp hfuel)
    exact h.loop_nil hshape hrun
  | succ fuel ih =>
    by_cases hp : p = []
    · subst hp
      exact h.loop_nil hshape hrun
    · rw [Image.iappendLoop, if_neg hp] at hrun
      split at hrun
      · cases hrun
      · rename_i hmax
        have hpos : 0 < p.length := length_pos_iff.mpr hp
        obtain ⟨n, hn⟩ : ∃ n, n = (content i).length / bsize := ⟨_, rfl⟩
        obtain ⟨n₁, hn₁⟩ : ∃ n₁, n₁ = min p.length ((n + 1) * bsize - (content i).length) :=
          ⟨_, rfl⟩
        rw [← hn] at hrun hmax
        rw [← hn₁] at hrun
        have hlow : (content i).length < (n + 1) * bsize := by
          simp only [bsize] at hn ⊢
          omega
        have htake : (p.take n₁).length = n₁ := by
          rw [length_take]
          omega
        have htake' : p.take n₁ ≠ [] := by
          rw [← length_pos_iff, htake]
          omega
        obtain ⟨x, d₁, m₁, heq, hread, happ, hino, -⟩ | hends :=
          h.round hshape hn (Nat.not_le.mp hmax) htake' (by omega)
        · simp only [heq, hread, bind_eq_bind, bind_some] at hrun
          have hlen : (update content i (content i ++ p.take n₁) i).length =
              (content i).length + n₁ := by
            rw [update_self, length_append, htake]
          have hdrop : (p.drop n₁).length = p.length - n₁ := length_drop
          rw [htake] at happ
          have hrest : (p.drop n₁).length ≤ fuel := by omega
          have hstep := ih happ (by rw [update_self, hlen]) hrest
            (by rw [hlen]; exact hrun)
          rw [hlen, hdrop, update_idem, update_idem, update_self,
            append_assoc, take_append_drop,
            show (content i).length + n₁ + (p.length - n₁) = (content i).length + p.length by
              omega] at hstep
          exact ⟨hstep.1, hstep.2.1.trans hino, hstep.2.2⟩
        · have hnone := hends.read
          cases hblock : m.blockFor d n with
          | none =>
            rw [hblock] at hrun
            cases hrun
          | some r =>
            rw [hblock] at hnone hrun
            simp only [bind_some] at hnone
            simp only [hnone, bind_eq_bind, bind_some, bind_none] at hrun
            cases hrun

theorem loop_some {p : List UInt8} (hp : p ≠ [])
    (hn : n = (content i).length / bsize) (hmax : n < maxfile)
    (hfits : (content i).length + p.length ≤ (n + 1) * bsize) (hroom : m.freeblock + 2 ≤ fssize) :
    ∃ d' m', Image.iappendLoop p.length m d (content i).length p =
      some ((content i).length + p.length, d', m') ∧ m'.freeblock ≤ m.freeblock + 2 := by
  obtain ⟨x, d', m', heq, hread, -, -, hblock⟩ | hends := h.round hshape hn hmax hp hfits
  · obtain ⟨k, hk⟩ := Nat.exists_eq_succ_of_ne_zero (length_pos_iff.mpr hp).ne'
    have hn₁ : min p.length ((n + 1) * bsize - (content i).length) = p.length :=
      Nat.min_eq_left (by omega)
    refine ⟨d', m'.wsect x.toNat
      (overlay (m'.sector x.toNat) ((content i).length - n * bsize) p), ?_, hblock⟩
    rw [hk, Image.iappendLoop, ← hk, if_neg hp, ← hn, if_neg (Nat.not_le.mpr hmax)]
    simp only [heq, hread, hn₁, bind_eq_bind, bind_some, take_length,
      drop_length, Image.iappendLoop_nil]
  · exact absurd hends.full (Nat.not_lt.mpr hroom)

end

end Appending

open Appending

/-- The image between calls of `ialloc` and `iappend`: file `i` holds `content i`. -/
structure Made (m : Image) (content : Nat → List UInt8) : Prop where
  built : Built m m.inode (fun i => blocksFor (content i).length) content
  sizes : ∀ i, 1 ≤ i → i < m.freeinode → (m.inode i).size.toNat = (content i).length
  unborn : ∀ i, m.freeinode ≤ i → content i = []

namespace Made

variable {m m' : Image} {content : Nat → List UInt8} {i : Nat}

theorem iblock_lt (hi : i < ninodes) : sb.iblock i < nmeta :=
  sb.iblock_lt_nmeta hi

theorem iblock_rsect (hlen : m.length = fssize) (hi : i < ninodes) :
    m.rsect (sb.iblock i) = some (m.sector (sb.iblock i)) := by
  have hlt := iblock_lt hi
  have hmeta : nmeta ≤ fssize := by decide
  rw [Image.rsect, seek_of_lt (by omega), if_pos (by omega)]

theorem rinode_eq (hlen : m.length = fssize) (hi : i < ninodes) :
    m.rinode i = some (m.inode i) := by
  rw [Image.rinode, iblock_rsect hlen hi]
  rfl

structure Wrote (m : Image) (i : Nat) (d : Dinode) (m' : Image) : Prop where
  length : m'.length = m.length
  freeinode : m'.freeinode = m.freeinode
  freeblock : m'.freeblock = m.freeblock
  sector : ∀ b, b ≠ sb.iblock i → m'.sector b = m.sector b
  inode : m'.inode = update m.inode i d

theorem winode_some (hlen : m.length = fssize) (hi : i < ninodes) (d : Dinode) :
    ∃ m', m.winode i d = some m' ∧ Wrote m i d m' := by
  have hlt := iblock_lt hi
  have hmeta : nmeta ≤ fssize := by decide
  have hseek : seek (sb.iblock i) = sb.iblock i := seek_of_lt (by omega)
  refine ⟨m.wsect (sb.iblock i) (Dinode.put (m.sector (sb.iblock i)) (i % ipb) d),
    by rw [Image.winode, iblock_rsect hlen hi]; rfl, ?_, rfl, rfl, ?_, ?_⟩
  · simp only [Image.wsect, hseek]
    omega
  · intro b hb
    simp only [Image.wsect, hseek, update_of_ne hb]
  · have hdinode := dinode_iupdate sb m.store i d
    rw [Image.inode, Image.inode, ← hdinode]
    funext j
    simp only [dinode, iupdate, Store.write_bread]
    simp only [Image.store, Store.bread, Image.wsect, hseek]
    rfl

theorem built_winode {base : Nat → Dinode} {d : Dinode} {shape : Nat → Nat}
    (h : Built m (update base i d) shape content)
    (hbase : ∀ j < ninodes, m.inode j = base j) (hi : i < ninodes) :
    ∃ m', m.winode i d = some m' ∧ Built m' m'.inode shape content ∧ Wrote m i d m' := by
  obtain ⟨m', heq, hw⟩ := winode_some h.length hi d
  have hlt := iblock_lt hi
  have hinode : ∀ j < ninodes, m'.inode j = update base i d j := by
    intro j hj
    rw [hw.inode]
    by_cases hji : j = i
    · rw [hji, update_self, update_self]
    · rw [update_of_ne hji, update_of_ne hji, hbase j hj]
  have hheld : held sb m'.store m'.inode = held sb m.store (update base i d) := by
    refine held_congr hinode fun j b hj => hw.sector b ?_
    have := (h.filled.owns.mem hj).1
    omega
  refine ⟨m', heq, ⟨hw.length.trans h.length, hw.freeinode ▸ h.inodes_le,
    hw.freeblock ▸ h.blocks_le, ?_, ?_, ?_⟩, hw⟩
  · rw [hw.sector 1 ?_, h.super]
    have : 1 < sb.inodestart := by decide
    have : sb.inodestart ≤ sb.iblock i := Nat.le_add_left _ _
    omega
  · intro j hj
    rw [hinode j hj, hw.freeinode]
    exact h.types j hj
  · rw [hw.freeblock, hheld]
    refine h.filled.congr fun b hb => hw.sector b ?_
    have hb' : nmeta ≤ b := by
      obtain hb | ⟨j, n, -, hb⟩ := hb
      · exact h.filled.low.trans hb
      · exact (h.filled.owns.mem hb).1
    omega

section

variable (h : Made m content)
include h

theorem ialloc (type : UInt16) (hroom : m.freeinode < ninodes)
    (hpos : 1 ≤ m.freeinode) (htype : type ≠ 0) :
    ∃ m', m.ialloc type = some (m.freeinode, m') ∧ Made m' content ∧
      m'.freeinode = m.freeinode + 1 ∧ m'.freeblock = m.freeblock := by
  have hfree : (m.inode m.freeinode).type = 0 := by
    by_contra hne
    exact Nat.lt_irrefl _ ((h.built.types _ hroom).mp hne).2
  have hheld : held sb m.store m.inode = held sb m.store
      (update m.inode m.freeinode { Dinode.fresh type with nlink := 1 }) := by
    have hempty : held sb m.store
        (update m.inode m.freeinode (m.inode m.freeinode)) = held sb m.store
        (update m.inode m.freeinode { Dinode.fresh type with nlink := 1 }) :=
      held_update_empty (fun _ => rfl) (.inl hfree)
    rwa [update_eq_self] at hempty
  have hbuilt : Built { m with freeinode := m.freeinode + 1 }
      (update m.inode m.freeinode { Dinode.fresh type with nlink := 1 })
      (fun i => blocksFor (content i).length) content := by
    refine ⟨h.built.length, hroom, h.built.blocks_le, h.built.super, fun j hj => ?_, ?_⟩
    · by_cases hjf : j = m.freeinode
      · rw [hjf, update_self]
        exact ⟨fun _ => ⟨hpos, Nat.lt_succ_self _⟩, fun _ => htype⟩
      · rw [update_of_ne hjf, h.built.types j hj]
        change _ ↔ 1 ≤ j ∧ j < m.freeinode + 1
        omega
    · have hfilled := h.built.filled
      rw [hheld] at hfilled
      exact hfilled
  obtain ⟨m', heq, hbuilt', hw⟩ := built_winode hbuilt (fun _ _ => rfl) hroom
  have hino : m'.freeinode = m.freeinode + 1 := hw.freeinode
  refine ⟨m', ?_, ⟨hbuilt', fun j hlow hj => ?_, fun j hj => h.unborn j ?_⟩, hino,
    hw.freeblock⟩
  · rw [Image.ialloc, heq]
    rfl
  · rw [hw.inode]
    by_cases hjf : j = m.freeinode
    · rw [hjf, update_self, h.unborn _ (Nat.le_refl _)]
      rfl
    · rw [update_of_ne hjf]
      exact h.sizes j hlow (by omega)
  · omega

theorem appending (hi : 1 ≤ i ∧ i < m.freeinode) :
    Appending m m.inode i (m.inode i) (fun i => blocksFor (content i).length) content :=
  ⟨hi, by rw [update_eq_self]; exact h.built, fun _ _ => rfl⟩

theorem appended {m₁ : Image} {d : Dinode} {p : List UInt8} (happ : Appending m₁ m.inode i d
      (update (fun i => blocksFor (content i).length) i
        (blocksFor ((content i).length + p.length)))
      (update content i (content i ++ p)))
    (hino : m₁.freeinode = m.freeinode) :
    ∃ m', m₁.winode i { d with size := UInt32.ofNat ((content i).length + p.length) } = some m' ∧
      Made m' (update content i (content i ++ p)) ∧ m'.freeinode = m.freeinode ∧
      m'.freeblock = m₁.freeblock := by
  have hshape : update (fun i => blocksFor (content i).length) i
      (blocksFor ((content i).length + p.length)) =
        fun j => blocksFor (update content i (content i ++ p) j).length := by
    funext j
    by_cases hj : j = i
    · rw [hj, update_self, update_self, length_append]
    · rw [update_of_ne hj, update_of_ne hj]
  rw [hshape] at happ
  have hfits := happ.built.filled.fits i
  rw [update_self, length_append] at hfits
  have hsmall : (content i).length + p.length < 2 ^ 32 := by
    have hle := hfits.1.trans (Nat.mul_le_mul_right bsize hfits.2)
    have hmax : maxfile * bsize < 2 ^ 32 := by decide
    omega
  have hbuilt : Built m₁ (update m.inode i
      { d with size := UInt32.ofNat ((content i).length + p.length) })
      (fun j => blocksFor (update content i (content i ++ p) j).length)
      (update content i (content i ++ p)) := by
    have hheld : held sb m₁.store (update m.inode i
        { d with size := UInt32.ofNat ((content i).length + p.length) }) =
        held sb m₁.store (update m.inode i d) := held_update rfl rfl
    refine ⟨happ.built.length, happ.built.inodes_le, happ.built.blocks_le, happ.built.super,
      happ.types rfl, ?_⟩
    rw [hheld]
    exact happ.built.filled
  obtain ⟨m', heq, hbuilt', hw⟩ := built_winode hbuilt happ.inodes happ.lt
  have hino' : m'.freeinode = m.freeinode := hw.freeinode.trans hino
  have hlive := happ.live
  refine ⟨m', heq, ⟨hbuilt', fun j hlow hj => ?_, fun j hj => ?_⟩, hino', hw.freeblock⟩
  · rw [hw.inode]
    by_cases hji : j = i
    · rw [hji, update_self, update_self, length_append]
      simp only [UInt32.toNat_ofNat']
      omega
    · have hj' : j < m.freeinode := by omega
      rw [update_of_ne hji, update_of_ne hji,
        happ.inodes j (hj'.trans_le h.built.inodes_le)]
      exact h.sizes j hlow hj'
  · have hji : j ≠ i := by omega
    rw [update_of_ne hji]
    exact h.unborn j (by omega)

theorem iappend (hi : 1 ≤ i ∧ i < m.freeinode) {p : List UInt8} (hrun : m.iappend i p = some m') :
    Made m' (update content i (content i ++ p)) ∧ m'.freeinode = m.freeinode := by
  have hlt := Nat.lt_of_lt_of_le hi.2 h.built.inodes_le
  rw [Image.iappend, rinode_eq h.built.length hlt] at hrun
  simp only [bind_eq_bind, bind_some, h.sizes i hi.1 hi.2] at hrun
  obtain ⟨⟨off, d, m₁⟩, hloop, hw⟩ := bind_eq_some_iff.mp hrun
  obtain ⟨rfl, hino, happ⟩ := (h.appending hi).loop rfl (Nat.le_refl _) hloop
  obtain ⟨m₂, hw', hmade, hino', -⟩ := h.appended happ hino
  obtain rfl := some.inj (hw'.symm.trans hw)
  exact ⟨hmade, hino'⟩

theorem iappend_some (hi : 1 ≤ i ∧ i < m.freeinode) {p : List UInt8}
    (hp : p ≠ []) (hmax : (content i).length / bsize < maxfile)
    (hfits : (content i).length + p.length ≤ ((content i).length / bsize + 1) * bsize)
    (hroom : m.freeblock + 2 ≤ fssize) :
    ∃ m', m.iappend i p = some m' ∧ m'.freeblock ≤ m.freeblock + 2 := by
  have hlt := Nat.lt_of_lt_of_le hi.2 h.built.inodes_le
  obtain ⟨d, m₁, hloop, hblock⟩ := (h.appending hi).loop_some rfl hp rfl hmax hfits hroom
  obtain ⟨-, hino, happ⟩ := (h.appending hi).loop rfl (Nat.le_refl _) hloop
  obtain ⟨m₂, hw, -, -, hfree⟩ := h.appended happ hino
  refine ⟨m₂, ?_, hfree ▸ hblock⟩
  rw [Image.iappend, rinode_eq h.built.length hlt]
  simp only [bind_eq_bind, bind_some, h.sizes i hi.1 hi.2, hloop, hw]

end

end Made

end EafitOs.FileSystem.Mkfs
