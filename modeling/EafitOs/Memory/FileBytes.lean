import EafitOs.FileSystem.Contents
import EafitOs.Memory.Files

/-!
# Files as bytes and as blocks

Memory mappings see a file as its bytes. What `readi` and `writei` do to these bytes is what they do
to the blocks of the inode.
-/

namespace EafitOs.Memory

open Foundation Function List FileSystem

variable {sb : Superblock} {start : Set Nat} {s : Store} {fs : Fs} {ino : Memory.Inode} {i : Nat}

def Inode.bytes (ino : Memory.Inode) : List UInt8 := span ino.data 0 ino.size

/-- The bytes are those of the blocks of inode `i`. -/
def Inode.Stored (ino : Memory.Inode) (sb : Superblock) (s : Store) (i : Nat) : Prop :=
  files sb s i = some ino.bytes

namespace Inode

theorem Stored.size (h : ino.Stored sb s i) : (dinode sb s i).size.toNat = ino.size := by
  have hlength := congrArg length (files_eq_some.mp h).2.2
  rwa [contents, bytes, length_span, length_span] at hlength

/-- What `readi` copies out of the blocks are the bytes of the file. -/
theorem Stored.readi (h : (fs.inode i).Stored sb s i) (hh : NoHoles sb s) (off n : UInt32) :
    FileSystem.readi sb s (dinode sb s i) off n =
      .ok (fs.readi i off.toNat n.toNat, dinode sb s i, s) := by
  obtain ⟨hi, hlive, hbytes⟩ := files_eq_some.mp h
  rw [readi_complete (hh i hi hlive), Fs.readi]
  simp only [h.size, UInt32.lt_iff_toNat_lt]
  split
  · rfl
  · refine congrArg (fun bs => Except.ok (bs, _, s)) (map_congr_left fun j hj => ?_)
    have hlt : off.toNat + j < (fs.inode i).size := by
      have hj := mem_range.mp hj
      omega
    have hbyte := congrArg (fun bs => bs[off.toNat + j]?) hbytes
    simp only [contents, bytes, getElem?_span, h.size, if_pos hlt, Nat.zero_add] at hbyte
    exact Option.some.inj hbyte

theorem overwrite_bytes (ino : Memory.Inode) {off tot : Nat} {src : List UInt8}
    (hoff : off ≤ ino.size) (htot : tot ≤ src.length) :
    overwrite ino.bytes off (src.take tot) = bytes { ino with
      size := max ino.size (off + tot)
      data := fun j => if off ≤ j ∧ j < off + tot then src.getD (j - off) 0 else ino.data j } := by
  refine ext_getElem? fun k => ?_
  rw [getElem?_overwrite (by rwa [bytes, length_span])]
  simp only [bytes, getElem?_span, Nat.zero_add]
  by_cases hk : off ≤ k ∧ k < off + tot
  · have hget : (src.take tot)[k - off]? = some (src.getD (k - off) 0) := by
      rw [List.getElem?_take_of_lt (by omega), getD_eq_getElem?_getD,
        List.getElem?_eq_getElem (by omega)]
      rfl
    rw [splice_inside hk.1 (by rw [List.getElem?_map, hget]; rfl), if_pos (by omega), if_pos hk]
  · rw [splice_outside (by rw [length_map, length_take_of_le htot]; omega), if_neg hk]
    split <;> split <;> first | rfl | omega

/-- A `writei` whose copy does not fail leaves in the blocks what it leaves in the bytes, given the
number of blocks that the disk provides to it. -/
theorem Stored.writei (h : (fs.inode i).Stored sb s i) (hg : Good sb start s) (hh : NoHoles sb s)
    (off n : UInt32) {src : List UInt8} (hsrc : src.length = n.toNat) :
    ∃ room r s', FileSystem.writei sb s i (dinode sb s i) off n src = .ok (r, dinode sb s' i, s') ∧
      Good sb start s' ∧ NoHoles sb s' ∧ (∀ j ≠ i, files sb s' j = files sb s j) ∧
      (fs.room fs.nwrites = room →
        ((fs.writei i off.toNat n.toNat src).inode i).Stored sb s' i) := by
  by_cases hin : Rejected (dinode sb s i) off n
  · refine ⟨0, _, s, writei_rejected hin .., hg, hh, fun _ _ => rfl, fun _ => ?_⟩
    rw [Rejected, h.size] at hin
    rwa [Fs.writei, if_pos (by exact hin)]
  obtain ⟨tot, s', hw, hgood, hholes, -, hle, hshort, hfiles⟩ := hg.writei_files hh h hin hsrc.ge
  rw [Rejected, h.size] at hin
  have hoff : off.toNat ≤ (fs.inode i).size := by omega
  rw [overwrite_bytes _ hoff (by omega)] at hfiles
  have hstored : Inode.Stored _ sb s' i := (congrFun hfiles i).trans (update_self ..)
  have hlen : ∃ room, fs.room fs.nwrites = room → fs.writeLen i off.toNat n.toNat src = tot := by
    simp only [Fs.writeLen]
    by_cases hcut : tot < n.toNat
    · -- a write that is cut short ends where the blocks of the file end
      obtain ⟨hi, hlive, -⟩ := files_eq_some.mp hstored
      have hend : ¬(off.toNat + tot) / Disk.bsize * Disk.bsize < (dinode sb s' i).size.toNat := by
        intro hlt
        have hnone := (hshort hcut).2
        rw [byteOf, (hholes i hi hlive).blockOf hlt] at hnone
        cases hnone
      refine ⟨(off.toNat + tot) / bsize, fun hroom => ?_⟩
      rw [hstored.size] at hend
      simp only [hroom, Disk.bsize, bsize] at hend ⊢
      omega
    · refine ⟨maxfile, fun hroom => ?_⟩
      have hmax : FileSystem.maxfile * Disk.bsize = maxfile * bsize := rfl
      have hblocks := Nat.mul_le_mul_right bsize
        (le_max_left maxfile (((fs.inode i).size + (bsize - 1)) / bsize))
      rw [hroom]
      omega
  obtain ⟨room, hroom⟩ := hlen
  refine ⟨room, _, s', hw, hgood, hholes, fun j hj => ?_, fun heq => ?_⟩
  · rw [hfiles, update_of_ne hj]
  · rw [Fs.writei, if_neg (by exact hin)]
    simp only [hroom heq, Fs.setInode, update_self]
    exact hstored

end Inode

end EafitOs.Memory
