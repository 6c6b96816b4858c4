import Mathlib.Data.Nat.Bitwise
import EafitOs.FileSystem.Blocks

/-!
# Reading back what was written to a block

Writing one bit, one inode or one block number changes what is read at its place and
nothing else.
-/

namespace EafitOs.FileSystem

open Foundation Disk Function List

namespace Store

variable (s : Store) (b : Nat) (d : Block) (e : Event Nat)

@[simp] theorem fill_bread : (s.fill b d).bread = update s.bread b d := by
  funext c
  by_cases hc : c = b
  · subst hc
    simp [bread, fill]
  · simp [bread, fill, hc]

@[simp] theorem logWrite_bread : (s.logWrite b).bread = s.bread := by
  funext c
  by_cases hc : c = b
  · subst hc
    simp [bread, logWrite]
  · simp [bread, logWrite, hc]

@[simp] theorem write_bread : (s.write b d).bread = update s.bread b d := by
  rw [write, logWrite_bread, fill_bread]

@[simp] theorem record_bread : (s.record e).bread = s.bread := rfl

@[simp] theorem record_cached : (s.record e).cached = s.cached := rfl

@[simp] theorem write_cached : (s.write b d).cached = update s.cached b none := by
  simp [write, logWrite, fill]

theorem evict_bread {c : Nat} (h : c = b → s.cached b = none) :
    (s.evict b).bread c = s.bread c := by
  by_cases hc : c = b
  · subst hc
    simp [bread, evict, h rfl]
  · simp [bread, evict, hc]

end Store

theorem getBit_setByte (d : Block) {i j v : Nat} (hi : i < bpb) (hj : j < bpb) (hv : v < 256) :
    getBit (setByte d (i / 8) v) j =
      if j / 8 = i / 8 then v.testBit (j % 8) else getBit d j := by
  have hi' : i / 8 < bsize := by simp only [bpb, bsize] at hi ⊢; omega
  have hj' : j / 8 < bsize := by simp only [bpb, bsize] at hj ⊢; omega
  rw [getBit]
  split
  · rename_i hq
    rw [hq, getByte_setByte, Nat.mod_eq_of_lt hv]
  · rename_i hq
    rw [getByte_setByte_of_ne d _ hi' hj' hq, getBit]

theorem decide_mod_eq {i j : Nat} (hq : j / 8 = i / 8) :
    decide (i % 8 = j % 8) = decide (j = i) := by
  apply decide_eq_decide.mpr
  omega

theorem getBit_setBit (d : Block) {i j : Nat} (hi : i < bpb) (hj : j < bpb) :
    getBit (setBit d i) j = (decide (j = i) || getBit d j) := by
  have hlt : getByte d (i / 8) ||| 2 ^ (i % 8) < 256 :=
    Nat.or_lt_two_pow (n := 8) (getByte_lt d (i / 8))
      (Nat.pow_lt_pow_right (by decide) (Nat.mod_lt _ (by decide)))
  rw [setBit, getBit_setByte d hi hj hlt]
  split
  · rename_i hq
    rw [Nat.testBit_or, Nat.testBit_two_pow, decide_mod_eq hq, Bool.or_comm, getBit, hq]
  · rename_i hq
    have hne : j ≠ i := fun h => hq (by rw [h])
    simp [hne]

theorem getBit_clearBit (d : Block) {i j : Nat} (hi : i < bpb) (hj : j < bpb) :
    getBit (clearBit d i) j = (decide (j ≠ i) && getBit d j) := by
  have hlt : getByte d (i / 8) &&& (255 ^^^ 2 ^ (i % 8)) < 256 :=
    Nat.lt_of_le_of_lt Nat.and_le_left (getByte_lt d (i / 8))
  rw [clearBit, getBit_setByte d hi hj hlt]
  split
  · rename_i hq
    have hfull : Nat.testBit 255 (j % 8) = true := by
      rw [show 255 = 2 ^ 8 - 1 from rfl, Nat.testBit_two_pow_sub_one]
      exact decide_eq_true (Nat.mod_lt _ (by decide))
    rw [Nat.testBit_and, Nat.testBit_xor, Nat.testBit_two_pow, decide_mod_eq hq, hfull, getBit, hq]
    simp [Bool.and_comm]
  · rename_i hq
    have hne : j ≠ i := fun h => hq (by rw [h])
    simp [hne]

theorem mod_bpb_lt (b : Nat) : b % bpb < bpb := Nat.mod_lt _ (by decide)

theorem bblock_inj {sb : Superblock} {b c : Nat} (hq : sb.bblock c = sb.bblock b)
    (hr : c % bpb = b % bpb) : c = b := by
  simp only [Superblock.bblock, bpb, bsize] at hq hr
  omega

theorem marked_setBit (sb : Superblock) (s : Store) (b c : Nat) :
    marked sb (s.write (sb.bblock b) (setBit (s.bread (sb.bblock b)) (b % bpb))) c =
      (decide (c = b) || marked sb s c) := by
  simp only [marked, Store.write_bread]
  by_cases hq : sb.bblock c = sb.bblock b
  · rw [hq, update_self, getBit_setBit _ (mod_bpb_lt b) (mod_bpb_lt c)]
    congr 1
    apply decide_eq_decide.mpr
    exact ⟨bblock_inj hq, fun h => h ▸ rfl⟩
  · rw [update_of_ne hq]
    have hne : c ≠ b := fun h => hq (by rw [h])
    simp [hne]

theorem marked_clearBit (sb : Superblock) (s : Store) (b c : Nat) :
    marked sb (s.write (sb.bblock b) (clearBit (s.bread (sb.bblock b)) (b % bpb))) c =
      (decide (c ≠ b) && marked sb s c) := by
  simp only [marked, Store.write_bread]
  by_cases hq : sb.bblock c = sb.bblock b
  · rw [hq, update_self, getBit_clearBit _ (mod_bpb_lt b) (mod_bpb_lt c)]
    congr 1
    apply decide_eq_decide.mpr
    exact not_congr ⟨bblock_inj hq, fun h => h ▸ rfl⟩
  · rw [update_of_ne hq]
    have hne : c ≠ b := fun h => hq (by rw [h])
    simp [hne]

theorem findFree_some {sb : Superblock} {s : Store} {b bi : Nat}
    (h : findFree sb s = some (b, bi)) :
    b + bi < sb.size ∧ marked sb s (b + bi) = false ∧ sb.bblock b = sb.bblock (b + bi) ∧
      bi = (b + bi) % bpb := by
  obtain ⟨n, _, hn⟩ := exists_of_findSome?_eq_some h
  obtain ⟨bi', hbi, heq⟩ := Option.map_eq_some_iff.mp hn
  obtain ⟨rfl, rfl⟩ := Prod.mk.inj heq
  have hfree := List.find?_some hbi
  have hlt := mem_range.mp (mem_of_find?_eq_some hbi)
  have hbblock : sb.bblock (n * bpb) = sb.bblock (n * bpb + bi') := by
    simp only [Superblock.bblock, bpb, bsize] at hlt ⊢
    omega
  have hmod : bi' = (n * bpb + bi') % bpb := by
    simp only [bpb, bsize] at hlt ⊢
    omega
  refine ⟨by omega, ?_, hbblock, hmod⟩
  rw [marked, ← hbblock, ← hmod]
  simpa using hfree

/-- The store after `balloc` has handed out a block. -/
def allocated (sb : Superblock) (s : Store) (c : Nat) : Store :=
  (((s.write (sb.bblock c) (setBit (s.bread (sb.bblock c)) (c % bpb))).write c fun _ => 0)).record
    (.alloc c)

def Full (sb : Superblock) (s : Store) : Prop := ∀ b < sb.size, marked sb s b

theorem full_of_findFree {sb : Superblock} {s : Store} (h : findFree sb s = none) : Full sb s := by
  intro b hb
  have hq : b / bpb < (sb.size + (bpb - 1)) / bpb := by
    simp only [bpb, bsize]
    omega
  have hbit : b % bpb < min bpb (sb.size - b / bpb * bpb) := by
    simp only [bpb, bsize]
    omega
  have hbblock : sb.bblock (b / bpb * bpb) = sb.bblock b := by
    simp only [Superblock.bblock, bpb, bsize]
    omega
  have hnone := List.findSome?_eq_none_iff.mp h (b / bpb) (mem_range.mpr hq)
  rw [Option.map_eq_none_iff] at hnone
  have hset := List.find?_eq_none.mp hnone (b % bpb) (mem_range.mpr hbit)
  rw [hbblock] at hset
  simpa [marked] using hset

theorem balloc_cases (sb : Superblock) (s : Store) : balloc sb s = (0, s) ∧ Full sb s ∨
    ∃ c, c < sb.size ∧ marked sb s c = false ∧
      balloc sb s = (UInt32.ofNat c, allocated sb s c) := by
  simp only [balloc]
  cases hfind : findFree sb s with
  | none => exact Or.inl ⟨rfl, full_of_findFree hfind⟩
  | some r =>
    obtain ⟨b, bi⟩ := r
    obtain ⟨hlt, hfree, hbb, hmod⟩ := findFree_some hfind
    refine Or.inr ⟨b + bi, hlt, hfree, ?_⟩
    simp only [allocated, hbb, ← hmod]

theorem Dinode.fields_inOrder (d : Dinode) : InOrder 0 64 d.fields := by
  simp [fields, ndirect, finRange_succ, InOrder]

theorem Dinode.get_put (b : Block) {i : Nat} (hi : i < ipb) (d : Dinode) :
    get (put b i d) i = d := by
  have hhi : 64 * i + 64 ≤ bsize := by
    simp only [ipb, bsize] at hi ⊢
    omega
  have hread : ∀ {f : Field}, f ∈ d.fields →
      getLE (put b i d) (64 * i + f.off) f.len = f.val % 256 ^ f.len :=
    fun hf => getLE_setFields b d.fields_inOrder hhi hf
  have h16 : ∀ {o : Nat} {x : UInt16}, ⟨o, 2, x.toNat⟩ ∈ d.fields →
      UInt16.ofNat (getLE (put b i d) (64 * i + o) 2) = x := by
    intro o x hx
    rw [hread hx]
    exact UInt16.toNat.inj (by simp)
  have h32 : ∀ {o : Nat} {x : UInt32}, ⟨o, 4, x.toNat⟩ ∈ d.fields →
      UInt32.ofNat (getLE (put b i d) (64 * i + o) 4) = x := by
    intro o x hx
    rw [hread hx]
    exact UInt32.toNat.inj (by simp)
  obtain ⟨type, major, minor, nlink, size, addrs⟩ := d
  simp only [get, Dinode.mk.injEq]
  refine ⟨h16 (o := 0) ?_, h16 ?_, h16 ?_, h16 ?_, h32 ?_, funext fun k => h32 ?_⟩
  · simp [fields]
  · simp [fields]
  · simp [fields]
  · simp [fields]
  · simp [fields]
  · exact mem_append_right _ (mem_map.mpr ⟨k, mem_finRange k, rfl⟩)

theorem Dinode.get_put_of_ne (b : Block) {i j : Nat} (hi : i < ipb) (hj : j < ipb) (hij : j ≠ i)
    (d : Dinode) : get (put b i d) j = get b j := by
  have hread : ∀ off len, off + len ≤ 64 →
      getLE (put b i d) (64 * j + off) len = getLE b (64 * j + off) len := by
    intro off len hlen
    simp only [ipb, bsize] at hi hj
    apply getLE_setFields_of_outside b d.fields_inOrder
    · simp only [bsize]
      omega
    · simp only [bsize]
      omega
    · omega
  have hzero := hread 0 2 (by omega)
  rw [Nat.add_zero] at hzero
  have haddrs : ∀ k : Fin (ndirect + 1), getLE (put b i d) (64 * j + (12 + 4 * k)) 4 =
      getLE b (64 * j + (12 + 4 * k)) 4 := by
    intro k
    apply hread
    have := k.isLt
    simp only [ndirect] at this
    omega
  simp only [get, hzero, hread 2 2 (by omega), hread 4 2 (by omega), hread 6 2 (by omega),
    hread 8 4 (by omega), haddrs]

theorem dinode_iupdate (sb : Superblock) (s : Store) (i : Nat) (d : Dinode) :
    dinode sb (iupdate sb s i d) = update (dinode sb s) i d := by
  have hlt : ∀ n, n % ipb < ipb := fun n => Nat.mod_lt _ (by decide)
  funext j
  simp only [dinode, iupdate, Store.write_bread]
  by_cases hji : j = i
  · subst hji
    rw [update_self, update_self, Dinode.get_put _ (hlt j)]
  · rw [update_of_ne hji]
    by_cases hq : sb.iblock j = sb.iblock i
    · have hr : j % ipb ≠ i % ipb := by
        simp only [Superblock.iblock, ipb, bsize] at hq ⊢
        omega
      rw [hq, update_self, Dinode.get_put_of_ne _ (hlt i) (hlt j) hr, dinode, hq]
    · rw [update_of_ne hq, dinode]

theorem entry_zero (k : Nat) : entry (fun _ => 0) k = 0 := by
  simp [entry, getLE, getByte]

theorem entry_setLE (d : Block) {k j : Nat} (hk : k < nindirect) (hj : j < nindirect) (a : UInt32) :
    entry (setLE d (4 * k) 4 a.toNat) j = if j = k then a else entry d j := by
  simp only [nindirect, bsize] at hk hj
  simp only [entry]
  split
  · rename_i hjk
    rw [hjk, getLE_setLE d _ (by simp only [bsize]; omega)]
    exact UInt32.toNat.inj (by simp)
  · rw [getLE_setLE_of_disjoint d _ (by simp only [bsize]; omega) (by simp only [bsize]; omega)
      (by omega)]

end EafitOs.FileSystem
