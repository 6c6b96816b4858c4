import EafitOs.FileSystem.Blocks
import EafitOs.Foundation.Panics

/-!
# Reading a file

`readi` copies a file block by block. Where every block below the size is there it reads the bytes
of the file from the offset on, up to the end of the file. It then never calls the allocator.
-/

namespace EafitOs.FileSystem

open Foundation Disk List

/-- The `n` bytes of a block from `off` on. -/
def slice (d : Block) (off n : Nat) : List UInt8 :=
  (List.range n).map fun j => d (Fin.ofNat bsize (off + j))

/-- The loop of `readi` into kernel memory, where the copy cannot fail. -/
def readiLoop (sb : Superblock) : Nat → Store → Dinode → Nat → Nat →
    Except String (List UInt8 × Dinode × Store)
  | 0, s, d, _, _ => .ok ([], d, s)
  | fuel + 1, s, d, off, left =>
    if left = 0 then .ok ([], d, s)
    else do
      let (addr, d, s) ← bmap sb s d (off / bsize)
      if addr = 0 then .ok ([], d, s)
      else
        let m := min left (bsize - off % bsize)
        let bs := slice (s.bread addr.toNat) (off % bsize) m
        let (rest, d, s) ← readiLoop sb fuel s d (off + m) (left - m)
        .ok (bs ++ rest, d, s)

/-- `readi` into kernel memory: the bytes it copies. -/
def readi (sb : Superblock) (s : Store) (d : Dinode) (off n : UInt32) :
    Except String (List UInt8 × Dinode × Store) :=
  if d.size < off ∨ 2 ^ 32 ≤ off.toNat + n.toNat then .ok ([], d, s)
  else
    let n := if d.size.toNat < off.toNat + n.toNat then d.size.toNat - off.toNat else n.toNat
    readiLoop sb n s d off.toNat n

section Using

variable (alloc : Store → Except String (UInt32 × Store))

/-- `bmapEntry` with an allocator that may panic. -/
def bmapEntryUsing (s : Store) (a : UInt32) (k : Nat) : Except String (UInt32 × Store) :=
  let addr := entry (s.bread a.toNat) k
  if addr ≠ 0 then .ok (addr, s)
  else do
    let (addr, s) ← alloc s
    if addr ≠ 0 then .ok (addr, s.write a.toNat (setLE (s.bread a.toNat) (4 * k) 4 addr.toNat))
    else .ok (addr, s)

/-- `bmapAddr` with an allocator that may panic. -/
def bmapAddrUsing (s : Store) (d : Dinode) (i : Fin (ndirect + 1)) :
    Except String (UInt32 × Dinode × Store) :=
  if d.addrs i ≠ 0 then .ok (d.addrs i, d, s)
  else do
    let (addr, s) ← alloc s
    if addr = 0 then .ok (0, d, s) else .ok (addr, d.setAddr i addr, s)

/-- `bmap` with an allocator that may panic. -/
def bmapUsing (s : Store) (d : Dinode) (bn : Nat) : Except String (UInt32 × Dinode × Store) :=
  if bn < ndirect then bmapAddrUsing alloc s d (Fin.ofNat (ndirect + 1) bn)
  else if bn - ndirect < nindirect then do
    let (a, d, s) ← bmapAddrUsing alloc s d indirect
    if a = 0 then .ok (0, d, s)
    else do
      let (addr, s) ← bmapEntryUsing alloc s a (bn - ndirect)
      .ok (addr, d, s)
  else .error "bmap: out of range"

/-- The loop of `readi` to a destination with room for `room` bytes: `none` where a copy
fails. -/
def readiLoopUsing : Nat → Nat → Store → Dinode → Nat → Nat →
    Except String (Option (List UInt8) × Dinode × Store)
  | 0, _, s, d, _, _ => .ok (some [], d, s)
  | fuel + 1, room, s, d, off, left =>
    if left = 0 then .ok (some [], d, s)
    else do
      let (addr, d, s) ← bmapUsing alloc s d (off / bsize)
      if addr = 0 then .ok (some [], d, s)
      else
        let m := min left (bsize - off % bsize)
        let bs := slice (s.bread addr.toNat) (off % bsize) m
        if room < m then .ok (none, d, s)
        else do
          let (rest, d, s) ← readiLoopUsing fuel (room - m) s d (off + m) (left - m)
          .ok (rest.map (bs ++ ·), d, s)

/-- `readi` to kernel or user memory: the bytes it copies, `none` for -1. -/
def readiUsing (room : Nat) (s : Store) (d : Dinode) (off n : UInt32) :
    Except String (Option (List UInt8) × Dinode × Store) :=
  if d.size < off ∨ 2 ^ 32 ≤ off.toNat + n.toNat then .ok (some [], d, s)
  else
    let n := if d.size.toNat < off.toNat + n.toNat then d.size.toNat - off.toNat else n.toNat
    readiLoopUsing alloc n room s d off.toNat n

end Using

/-- `balloc` outside a transaction: `log_write` panics as soon as a free block is found. -/
def ballocOutside (sb : Superblock) (s : Store) : Except String (UInt32 × Store) :=
  if (findFree sb s).isSome then .error "log_write outside of trans" else .ok (0, s)

theorem bmapUsing_balloc (sb : Superblock) (s : Store) (d : Dinode) (bn : Nat) :
    bmapUsing (fun s => .ok (balloc sb s)) s d bn = bmap sb s d bn := by
  have haddr : ∀ i, bmapAddrUsing (fun s => .ok (balloc sb s)) s d i = .ok (bmapAddr sb s d i) := by
    intro i
    rw [bmapAddrUsing, bmapAddr]
    split
    · rfl
    · simp only [ok_bind]
      split <;> rfl
  have hentry : ∀ (s : Store) a k, bmapEntryUsing (fun s => .ok (balloc sb s)) s a k =
      .ok (bmapEntry sb s a k) := by
    intro s a k
    simp only [bmapEntryUsing, bmapEntry]
    split
    · rfl
    · simp only [ok_bind]
      split <;> rfl
  rw [bmapUsing, bmap]
  by_cases hdir : bn < ndirect
  · have hfin : Fin.ofNat (ndirect + 1) bn = ⟨bn, Nat.lt_succ_of_lt hdir⟩ :=
      Fin.ext (Nat.mod_eq_of_lt (Nat.lt_succ_of_lt hdir))
    rw [if_pos hdir, dif_pos hdir, haddr, hfin]
  · rw [if_neg hdir, dif_neg hdir]
    split
    · simp only [haddr, hentry, ok_bind]
    · rfl

theorem readiLoopUsing_balloc (sb : Superblock) (fuel : Nat) : ∀ room s d off left, left ≤ room →
    readiLoopUsing (fun s => .ok (balloc sb s)) fuel room s d off left =
      (readiLoop sb fuel s d off left).map fun r => (some r.1, r.2) := by
  induction fuel with
  | zero => intros; rfl
  | succ fuel ih =>
    intro room s d off left hroom
    rw [readiLoopUsing, readiLoop, bmapUsing_balloc]
    split
    · rfl
    · cases bmap sb s d (off / bsize) with
      | error e => rfl
      | ok r =>
        simp only [ok_bind]
        split
        · rfl
        · rw [if_neg (by omega), ih _ _ _ _ _ (by omega)]
          cases readiLoop sb fuel r.2.2 r.2.1 (off + min left (bsize - off % bsize))
            (left - min left (bsize - off % bsize)) with
          | error e => rfl
          | ok r' => rfl

def blockAt (s : Store) (d : Dinode) (bn : Nat) : UInt32 :=
  if bn < ndirect then d.addrs (Fin.ofNat (ndirect + 1) bn)
  else entry (s.bread (d.addrs indirect).toNat) (bn - ndirect)

def byteAt (s : Store) (d : Dinode) (off : Nat) : UInt8 :=
  s.bread (blockAt s d (off / bsize)).toNat (Fin.ofNat bsize off)

structure Complete (s : Store) (d : Dinode) : Prop where
  size_le : d.size.toNat ≤ maxfile * bsize
  block : ∀ bn, bn * bsize < d.size.toNat → blockAt s d bn ≠ 0
  indirect : ndirect * bsize < d.size.toNat → d.addrs indirect ≠ 0

section Complete

variable {sb : Superblock} {s : Store} {d : Dinode}

theorem bmapUsing_complete (h : Complete s d) (alloc : Store → Except String (UInt32 × Store))
    {bn : Nat} (hbn : bn * bsize < d.size.toNat) :
    bmapUsing alloc s d bn = .ok (blockAt s d bn, d, s) := by
  have hblock := h.block bn hbn
  rw [bmapUsing]
  by_cases hdirect : bn < ndirect
  · rw [blockAt, if_pos hdirect] at hblock ⊢
    rw [if_pos hdirect, bmapAddrUsing, if_pos hblock]
  · have hsize := h.size_le
    have hentry : bn - ndirect < nindirect := by
      simp only [maxfile, nindirect, ndirect, bsize] at hsize hbn hdirect ⊢
      omega
    have hind : d.addrs FileSystem.indirect ≠ 0 :=
      h.indirect (Nat.lt_of_le_of_lt (Nat.mul_le_mul_right _ (Nat.not_lt.mp hdirect)) hbn)
    rw [blockAt, if_neg hdirect] at hblock ⊢
    rw [if_neg hdirect, if_pos hentry, bmapAddrUsing, if_pos hind, ok_bind]
    simp only [if_neg hind, bmapEntryUsing, if_pos hblock, ok_bind]

theorem slice_eq (off m : Nat) (hm : off % bsize + m ≤ bsize) :
    slice (s.bread (blockAt s d (off / bsize)).toNat) (off % bsize) m =
      (List.range m).map fun j => byteAt s d (off + j) := by
  refine map_congr_left fun j hj => ?_
  have hj := mem_range.mp hj
  have hdiv : (off + j) / bsize = off / bsize := by
    simp only [bsize] at hm ⊢
    omega
  have hmod : Fin.ofNat bsize (off % bsize + j) = Fin.ofNat bsize (off + j) :=
    Fin.ext (by simp only [Fin.ofNat, Nat.mod_add_mod])
  rw [byteAt, hdiv, hmod]

theorem readiLoopUsing_complete (h : Complete s d) (alloc : Store → Except String (UInt32 × Store))
    (fuel : Nat) : ∀ room off left, left ≤ fuel → off + left ≤ d.size.toNat →
    readiLoopUsing alloc fuel room s d off left =
      .ok (if left ≤ room then some ((List.range left).map fun j => byteAt s d (off + j)) else none,
        d, s) := by
  induction fuel with
  | zero =>
    intro room off left hfuel _
    obtain rfl : left = 0 := Nat.le_zero.mp hfuel
    rw [if_pos (Nat.zero_le room)]
    rfl
  | succ fuel ih =>
    intro room off left hfuel hsize
    rw [readiLoopUsing]
    by_cases hleft : left = 0
    · subst hleft
      rw [if_pos rfl, if_pos (Nat.zero_le room)]
      rfl
    · have hbn : off / bsize * bsize < d.size.toNat :=
        Nat.lt_of_le_of_lt (Nat.div_mul_le_self off bsize) (by omega)
      have hmod : off % bsize < bsize := Nat.mod_lt off (by decide)
      obtain ⟨m, hm⟩ : ∃ m, m = min left (bsize - off % bsize) := ⟨_, rfl⟩
      have hpos : 0 < m := by omega
      have hle : m ≤ left := by omega
      rw [if_neg hleft, bmapUsing_complete h alloc hbn, ok_bind]
      simp only [if_neg (h.block _ hbn), ← hm]
      by_cases hroom : room < m
      · rw [if_pos hroom, if_neg (by omega)]
      · rw [if_neg hroom, ih _ (off + m) (left - m) (by omega) (by omega), ok_bind,
          slice_eq off m (by omega)]
        have happend : (List.range left).map (fun j => byteAt s d (off + j)) =
            (List.range m).map (fun j => byteAt s d (off + j)) ++
              (List.range (left - m)).map fun j => byteAt s d (off + m + j) := by
          conv_lhs => rw [← Nat.add_sub_cancel' hle, range_add, map_append, map_map]
          simp only [Function.comp_def, Nat.add_assoc]
        by_cases hfits : left ≤ room
        · rw [if_pos hfits, if_pos (by omega), happend]
          rfl
        · rw [if_neg hfits, if_neg (by omega)]
          rfl

theorem readiLoop_complete (h : Complete s d) (fuel off left : Nat) (hfuel : left ≤ fuel)
    (hsize : off + left ≤ d.size.toNat) : readiLoop sb fuel s d off left =
      .ok ((List.range left).map fun j => byteAt s d (off + j), d, s) := by
  have hloop := readiLoopUsing_complete h (fun s => .ok (balloc sb s)) fuel left off left hfuel
    hsize
  rw [readiLoopUsing_balloc sb fuel left s d off left le_rfl, if_pos le_rfl] at hloop
  cases hread : readiLoop sb fuel s d off left with
  | error e =>
    rw [hread] at hloop
    cases hloop
  | ok r =>
    rw [hread] at hloop
    obtain ⟨hbytes, hrest⟩ := Prod.mk.inj (Except.ok.inj hloop)
    rw [← Option.some.inj hbytes, ← hrest]

theorem readi_count {size off n : UInt32}
    (hin : ¬(size < off ∨ 2 ^ 32 ≤ off.toNat + n.toNat)) : off.toNat ≤ size.toNat ∧
      (if size.toNat < off.toNat + n.toNat then size.toNat - off.toNat else n.toNat) =
        min n.toNat (size.toNat - off.toNat) := by
  have hoff : off.toNat ≤ size.toNat := by
    rw [not_or, UInt32.not_lt] at hin
    exact hin.1
  refine ⟨hoff, ?_⟩
  split <;> omega

theorem readiUsing_complete (h : Complete s d) (alloc : Store → Except String (UInt32 × Store))
    (room : Nat) (off n : UInt32) : readiUsing alloc room s d off n =
    .ok (if d.size < off ∨ 2 ^ 32 ≤ off.toNat + n.toNat then some []
      else if min n.toNat (d.size.toNat - off.toNat) ≤ room then
        some ((List.range (min n.toNat (d.size.toNat - off.toNat))).map fun j =>
          byteAt s d (off.toNat + j))
      else none, d, s) := by
  rw [readiUsing]
  split
  · rfl
  · rename_i hin
    obtain ⟨hoff, hcount⟩ := readi_count hin
    simp only [hcount]
    exact readiLoopUsing_complete h alloc _ _ _ _ le_rfl (by omega)

theorem readi_complete (h : Complete s d) (off n : UInt32) : readi sb s d off n =
    .ok (if d.size < off ∨ 2 ^ 32 ≤ off.toNat + n.toNat then [] else
      (List.range (min n.toNat (d.size.toNat - off.toNat))).map fun j =>
        byteAt s d (off.toNat + j), d, s) := by
  rw [readi]
  split
  · rfl
  · rename_i hin
    obtain ⟨hoff, hcount⟩ := readi_count hin
    simp only [hcount]
    exact readiLoop_complete h _ _ _ le_rfl (by omega)

end Complete

end EafitOs.FileSystem
