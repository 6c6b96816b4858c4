import EafitOs.FileSystem.BlockRuns
import EafitOs.FileSystem.Reading

/-!
# Files as byte arrays

What the file system is for: every allocated inode has a list of bytes. `readi` returns a
part of the list, and `writei` overwrites a part of it and leaves all other files alone.
-/

namespace EafitOs.FileSystem

open Foundation Disk Function List Option

def contents (s : Store) (d : Dinode) : List UInt8 := span (byteAt s d) 0 d.size.toNat

theorem contents_slice {s : Store} {d : Dinode} {off : Nat} (hoff : off ≤ d.size.toNat) (n : Nat) :
    (List.range (min n (d.size.toNat - off))).map (fun j => byteAt s d (off + j)) =
      ((contents s d).drop off).take n := by
  have hsplit := span_add (byteAt s d) 0 off (d.size.toNat - off)
  rw [Nat.add_sub_cancel' hoff, Nat.zero_add] at hsplit
  rw [contents, take_eq_take_min, length_drop, length_span, hsplit,
    drop_left' (length_span _ _ _), take_span _ _ (Nat.min_le_right _ _)]
  rfl

def files (sb : Superblock) (s : Store) (j : Nat) : Option (List UInt8) :=
  if j < sb.ninodes ∧ (dinode sb s j).type ≠ 0 then some (contents s (dinode sb s j)) else none

def NoHoles (sb : Superblock) (s : Store) : Prop :=
  ∀ j < sb.ninodes, (dinode sb s j).type ≠ 0 → Complete s (dinode sb s j)

theorem files_eq_some {sb : Superblock} {s : Store} {j : Nat} {xs : List UInt8} :
    files sb s j = some xs ↔
      j < sb.ninodes ∧ (dinode sb s j).type ≠ 0 ∧ contents s (dinode sb s j) = xs := by
  rw [files]
  split
  · rename_i h
    simp [h]
  · rename_i h
    simp only [reduceCtorEq, false_iff]
    exact fun h' => h ⟨h'.1, h'.2.1⟩

section BlockAt

variable {s : Store} {d : Dinode} {bn b : Nat}

theorem blockAt_of_blockOf (h : blockOf s d bn = some b) : blockAt s d bn ≠ 0 ∧
    (blockAt s d bn).toNat = b ∧ bn < maxfile ∧ (ndirect ≤ bn → d.addrs indirect ≠ 0) := by
  rw [blockOf] at h
  split at h
  · rename_i hdir
    rw [blockAt, if_pos hdir]
    obtain ⟨hne, hb⟩ := ptr_eq_some.mp h
    refine ⟨hne, hb, ?_, fun hge => by omega⟩
    simp only [maxfile]
    omega
  · rename_i hdir
    split at h
    · rename_i hmax
      obtain ⟨a, ha, h⟩ := bind_eq_some_iff.mp h
      obtain ⟨hind, rfl⟩ := ptr_eq_some.mp ha
      obtain ⟨hne, hb⟩ := ptr_eq_some.mp h
      rw [blockAt, if_neg hdir]
      exact ⟨hne, hb, hmax, fun _ => hind⟩
    · cases h

theorem Complete.blockOf (h : Complete s d) (hbn : bn * bsize < d.size.toNat) :
    blockOf s d bn = some (blockAt s d bn).toNat := by
  have hblock := h.block bn hbn
  rw [FileSystem.blockOf]
  by_cases hdir : bn < ndirect
  · rw [blockAt, if_pos hdir] at hblock ⊢
    rw [if_pos hdir, ptr_of_ne hblock]
  · have hmax : bn < maxfile := Nat.lt_of_mul_lt_mul_right (hbn.trans_le h.size_le)
    have hind := h.indirect
      (Nat.lt_of_le_of_lt (Nat.mul_le_mul_right _ (Nat.not_lt.mp hdir)) hbn)
    rw [blockAt, if_neg hdir] at hblock ⊢
    rw [if_neg hdir, if_pos hmax, ptr_of_ne hind, bind_some, ptr_of_ne hblock]

theorem Complete.of_blockOf (hsize : d.size.toNat ≤ maxfile * bsize)
    (h : ∀ bn, bn * bsize < d.size.toNat → ∃ b, FileSystem.blockOf s d bn = some b) :
    Complete s d := by
  refine ⟨hsize, fun bn hbn => ?_, fun hlt => ?_⟩
  · obtain ⟨b, hb⟩ := h bn hbn
    exact (blockAt_of_blockOf hb).1
  · obtain ⟨b, hb⟩ := h ndirect hlt
    exact (blockAt_of_blockOf hb).2.2.2 le_rfl

theorem Complete.of_size_zero (h : d.size = 0) : Complete s d := by
  have hzero : d.size.toNat = 0 := by rw [h]; rfl
  exact .of_blockOf (by omega) fun bn hbn => by omega

theorem byteAt_of_byteOf {k : Nat} {v : UInt8} (h : byteOf s d k = some v) : byteAt s d k = v := by
  obtain ⟨b, hb, rfl⟩ := map_eq_some_iff.mp h
  rw [byteAt, (blockAt_of_blockOf hb).2.1]

end BlockAt

structure Holds (s : Store) (d : Dinode) (xs : List UInt8) : Prop where
  length : xs.length = d.size.toNat
  byte : ∀ k v, xs[k]? = some v → byteOf s d k = some v

namespace Holds

variable {s s' : Store} {d : Dinode} {xs : List UInt8}

theorem of_complete (h : Complete s d) : Holds s d (contents s d) := by
  refine ⟨length_span _ _ _, fun k v hk => ?_⟩
  rw [contents, getElem?_span, Nat.zero_add] at hk
  split at hk
  · rename_i hlt
    rw [byteOf, h.blockOf ((Nat.div_mul_le_self k bsize).trans_lt hlt)]
    exact hk
  · cases hk

theorem exists_block (h : Holds s d xs) {k : Nat} (hk : k < d.size.toNat) :
    ∃ b, blockOf s d (k / bsize) = some b := by
  rw [← h.length] at hk
  obtain ⟨b, hb, -⟩ := map_eq_some_iff.mp (h.byte k _ (List.getElem?_eq_getElem hk))
  exact ⟨b, hb⟩

theorem complete (h : Holds s d xs) : Complete s d := by
  refine .of_blockOf ?_ fun bn hbn => ?_
  · by_contra hlarge
    obtain ⟨b, hb⟩ := h.exists_block (k := d.size.toNat - 1) (by omega)
    have hmax := (blockAt_of_blockOf hb).2.2.1
    rw [Nat.div_lt_iff_lt_mul (by decide)] at hmax
    omega
  · obtain ⟨b, hb⟩ := h.exists_block hbn
    rw [Nat.mul_div_cancel _ (by decide)] at hb
    exact ⟨b, hb⟩

theorem contents_eq (h : Holds s d xs) : contents s d = xs := by
  refine ext_getElem? fun k => ?_
  rw [contents, getElem?_span, Nat.zero_add, ← h.length]
  split
  · rename_i hk
    have hget := List.getElem?_eq_getElem hk
    rw [hget, byteAt_of_byteOf (h.byte k _ hget)]
  · rename_i hk
    exact (List.getElem?_eq_none (by omega)).symm

theorem readi (h : Holds s d xs) (sb : Superblock) {off n : UInt32} (hoff : off.toNat ≤ xs.length)
    (hsum : off.toNat + n.toNat < 2 ^ 32) :
    readi sb s d off n = .ok ((xs.drop off.toNat).take n.toNat, d, s) := by
  have hlen := h.length
  have hin : ¬(d.size < off ∨ 2 ^ 32 ≤ off.toNat + n.toNat) := by
    rw [not_or, UInt32.not_lt, UInt32.le_iff_toNat_le]
    omega
  rw [readi_complete h.complete, if_neg hin, contents_slice (by omega), h.contents_eq]

end Holds

section Writing

variable {sb : Superblock} {start : Set Nat} {s s' : Store} {i : Nat} {d d' : Dinode} {off : Nat}
  {bs xs : List UInt8}

section

variable {inode : Nat → Dinode} (h : Sound sb start s (held sb s inode)) {j : Nat}
  (hj : j < sb.ninodes) (hlive : (inode j).type ≠ 0)
  (hread : ∀ b, sb.nmeta ≤ b → s'.bread b = s.bread b)
include h hj hlive hread

theorem Sound.blockOf_congr (bn : Nat) : blockOf s' (inode j) bn = blockOf s (inode j) bn := by
  apply FileSystem.blockOf_congr
  intro a ha
  have hheld : held sb s inode (.addr j indirect) = some a := by rw [held, if_pos ⟨hj, hlive⟩, ha]
  exact hread a (h.mem hheld).1

theorem Sound.byteOf_congr : byteOf s' (inode j) = byteOf s (inode j) := by
  funext k
  rw [byteOf, byteOf, h.blockOf_congr hj hlive hread]
  cases hb : blockOf s (inode j) (k / bsize) with
  | none => rfl
  | some b =>
    obtain ⟨x, -, hxb⟩ := (blockOf_eq_some hj hlive).mp hb
    rw [map_some, map_some, hread b (h.mem hxb).1]

end

variable {base : Nat → Dinode}

theorem Holds.writes (h : Holds s d xs) (hw : Writes sb base i s d off bs s' d')
    (hoff : off ≤ xs.length) {size : UInt32}
      (hsize : size.toNat ≤ max xs.length (off + bs.length)) :
    Holds s' { d' with size := size } ((overwrite xs off bs).take size.toNat) := by
  refine ⟨?_, fun k v hk => ?_⟩
  · rw [length_take_of_le]
    rw [length_overwrite hoff]
    exact hsize
  · have hk' : (overwrite xs off bs)[k]? = some v := by
      rw [List.getElem?_take] at hk
      split at hk
      · exact hk
      · cases hk
    rw [getElem?_overwrite hoff] at hk'
    exact hw.bytes k v (splice_extends h.byte _ _ k v hk')

theorem files_update (hi : i < sb.ninodes) (hlive : (dinode sb s' i).type ≠ 0)
    (hown : Holds s' (dinode sb s' i) xs)
    (hother : ∀ j < sb.ninodes, j ≠ i → dinode sb s' j = dinode sb s j ∧
      ((dinode sb s j).type ≠ 0 → Holds s' (dinode sb s j) (contents s (dinode sb s j)))) :
    NoHoles sb s' ∧ files sb s' = update (files sb s) i (some xs) := by
  constructor
  · intro j hj hlivej
    by_cases hji : j = i
    · subst hji
      exact hown.complete
    · obtain ⟨hsame, hholds⟩ := hother j hj hji
      rw [hsame] at hlivej ⊢
      exact (hholds hlivej).complete
  · funext j
    by_cases hji : j = i
    · subst hji
      rw [update_self, files, if_pos ⟨hi, hlive⟩, hown.contents_eq]
    · rw [update_of_ne hji, files, files]
      by_cases hj : j < sb.ninodes ∧ (dinode sb s j).type ≠ 0
      · obtain ⟨hsame, hholds⟩ := hother j hj.1 hji
        rw [hsame, if_pos hj, if_pos hj, (hholds hj.2).contents_eq]
      · rw [if_neg hj, if_neg]
        rintro ⟨hlt, htype⟩
        rw [(hother j hlt hji).1] at htype
        exact hj ⟨hlt, htype⟩

theorem Good.files_iupdate (hh : NoHoles sb s) (hmid : Mid sb start (dinode sb s) i s' d')
    (hlive : (dinode sb s i).type ≠ 0)
    (hw : Writes sb (dinode sb s) i s (dinode sb s i) off bs s' d')
    (hoff : off ≤ (dinode sb s i).size.toNat) {size : UInt32}
    (hsize : size.toNat ≤ max (dinode sb s i).size.toNat (off + bs.length)) :
    Good sb start (iupdate sb s' i { d' with size := size }) ∧
      dinode sb (iupdate sb s' i { d' with size := size }) i = { d' with size := size } ∧
      byteOf (iupdate sb s' i { d' with size := size }) d' = byteOf s' d' ∧
      NoHoles sb (iupdate sb s' i { d' with size := size }) ∧
      files sb (iupdate sb s' i { d' with size := size }) = update (files sb s) i
        (some ((overwrite (contents s (dinode sb s i)) off bs).take size.toNat)) := by
  have hi := hmid.lt
  obtain ⟨hgood, hino⟩ := hmid.sound.iupdate hi hmid.inodes { d' with size := size }
    (held_update rfl rfl)
  generalize hu : iupdate sb s' i { d' with size := size } = u at *
  have hread : ∀ b, sb.nmeta ≤ b → u.bread b = s'.bread b := fun b hb => hu ▸ iupdate_data hi _ hb
  have hself : dinode sb u i = { d' with size := size } := by
    rw [hino i hi, update_self]
  have hbytes : byteOf u d' = byteOf s' d' := by
    have hcongr := hmid.sound.byteOf_congr hi hmid.live_update hread
    rwa [update_self] at hcongr
  have hown : Holds u { d' with size := size }
      ((overwrite (contents s (dinode sb s i)) off bs).take size.toNat) := by
    have hholds := Holds.of_complete (hh i hi hlive)
    have hnew := hholds.writes hw (by rw [hholds.length]; exact hoff)
      (by rw [hholds.length]; exact hsize)
    exact ⟨hnew.length, fun k v hk => (congrFun hbytes k).trans (hnew.byte k v hk)⟩
  have hother : ∀ j < sb.ninodes, j ≠ i → dinode sb u j = dinode sb s j ∧
      ((dinode sb s j).type ≠ 0 → Holds u (dinode sb s j) (contents s (dinode sb s j))) := by
    intro j hj hji
    have hbase : update (dinode sb s) i d' j = dinode sb s j := update_of_ne hji _ _
    refine ⟨by rw [hino j hj, update_of_ne hji], fun hlivej => ?_⟩
    have hholds := Holds.of_complete (hh j hj hlivej)
    have hcongr := hmid.sound.byteOf_congr hj (by rw [hbase]; exact hlivej) hread
    rw [hbase] at hcongr
    exact ⟨hholds.length, fun k v hk =>
      (congrFun hcongr k).trans (hw.other_byte hj hji hlivej (hholds.byte k v hk))⟩
  rw [← hself] at hown
  exact ⟨hgood, hself, hbytes, files_update hi (by rw [hself]; exact hmid.live) hown hother⟩

theorem Good.writei_files (h : Good sb start s) (hh : NoHoles sb s) (hf : files sb s i = some xs)
    {off n : UInt32} (hin : ¬Rejected (dinode sb s i) off n) {src : List UInt8}
    (hsrc : n.toNat ≤ src.length) :
    ∃ tot s', writei sb s i (dinode sb s i) off n src = .ok (some tot, dinode sb s' i, s') ∧
      Good sb start s' ∧ NoHoles sb s' ∧ (dinode sb s' i).type = (dinode sb s i).type ∧
      tot ≤ n.toNat ∧
      (tot < n.toNat → Full sb s' ∧ byteOf s' (dinode sb s' i) (off.toNat + tot) = none) ∧
      files sb s' = update (files sb s) i
        (some (overwrite xs off.toNat (src.take tot))) := by
  obtain ⟨hi, hlive, rfl⟩ := files_eq_some.mp hf
  obtain ⟨r, hr, tot, t, d', last, size, hw, hsize, rfl⟩ :=
    ((h.mid hi rfl hlive).writei_written hin src).exists_ok
  have hoff : off.toNat ≤ (dinode sb s i).size.toNat := by
    simp only [Rejected, not_or] at hin
    omega
  have hle := hw.le
  have htot : (src.take tot).length = tot := length_take_of_le (by omega)
  -- A copy from kernel memory does not fail.
  obtain ⟨rfl, hstop⟩ := hw.not_stuck hsrc
  have hlen : (contents s (dinode sb s i)).length = (dinode sb s i).size.toNat := length_span _ _ _
  obtain ⟨hgood, hself, hbytes, hholes, hfiles⟩ :=
    Good.files_iupdate hh hw.mid hlive hw.writes hoff (by rw [htot, hsize])
  have htype : ({ d' with size := size } : Dinode).type = (dinode sb s i).type := by
    obtain ⟨addrs, rfl⟩ := hw.writes.fields
    rfl
  refine ⟨tot, _, by rw [hr, hself], hgood, hholes, by rw [hself, htype], hle, fun hlt => ?_, ?_⟩
  · obtain ⟨hfull, hnone⟩ := hstop.resolve_left (by omega)
    refine ⟨fun b hb => by rw [marked_iupdate hi, hfull b hb], ?_⟩
    rw [hself]
    exact (congrFun hbytes _).trans (by rw [byteOf, hnone, map_none])
  · rw [hfiles, take_of_length_le]
    rw [length_overwrite (by rw [hlen]; exact hoff), hlen, htot, hsize]

end Writing

/-- `readi` and `writei` implement a byte array for each inode. A read returns the bytes
from the offset on, up to the end of the file. A write with an offset past the end, or one
that would go past the largest file, changes nothing; any other overwrites a first part of
the range, all of it unless the disk is full, and what it wrote is read back. -/
theorem readi_writei_byte_array {sb : Superblock} {start : Set Nat} {s : Store} {i : Nat}
    {xs : List UInt8} (h : Good sb start s) (hh : NoHoles sb s) (hf : files sb s i = some xs)
    (off n : UInt32) :
    (off.toNat ≤ xs.length → off.toNat + n.toNat < 2 ^ 32 →
      readi sb s (dinode sb s i) off n =
        .ok ((xs.drop off.toNat).take n.toNat, dinode sb s i, s)) ∧
    ∀ src : List UInt8, src.length = n.toNat →
      (xs.length < off.toNat ∨ 2 ^ 32 ≤ off.toNat + n.toNat ∨
          maxfile * bsize < off.toNat + n.toNat →
        writei sb s i (dinode sb s i) off n src = .ok (none, dinode sb s i, s)) ∧
      (off.toNat ≤ xs.length → off.toNat + n.toNat ≤ maxfile * bsize → ∃ tot s',
        writei sb s i (dinode sb s i) off n src = .ok (some tot, dinode sb s' i, s') ∧
        Good sb start s' ∧ NoHoles sb s' ∧ tot ≤ n.toNat ∧
        (tot < n.toNat → Full sb s' ∧ byteOf s' (dinode sb s' i) (off.toNat + tot) = none) ∧
        (dinode sb s' i).size.toNat = max xs.length (off.toNat + tot) ∧
        files sb s' = update (files sb s) i
          (some (overwrite xs off.toNat (src.take tot))) ∧
        readi sb s' (dinode sb s' i) off (UInt32.ofNat tot) =
          .ok (src.take tot, dinode sb s' i, s')) := by
  obtain ⟨hi, hlive, hxs⟩ := files_eq_some.mp hf
  have hlen : xs.length = (dinode sb s i).size.toNat := by
    rw [← hxs]
    exact length_span _ _ _
  have hholds : Holds s (dinode sb s i) xs := hxs ▸ .of_complete (hh i hi hlive)
  refine ⟨hholds.readi sb, fun src hsrc => ⟨fun hrej => ?_, fun hoff hmax => ?_⟩⟩
  · apply writei_rejected
    rw [hlen] at hrej
    exact hrej
  · have hsmall : maxfile * bsize < 2 ^ 32 := by decide
    have hin : ¬Rejected (dinode sb s i) off n := by
      simp only [Rejected, not_or]
      omega
    obtain ⟨tot, s', hw, hgood, hholes, -, hle, hshort, hfiles⟩ := h.writei_files hh hf hin hsrc.ge
    have hself := congrFun hfiles i
    rw [update_self] at hself
    obtain ⟨-, hlive', hxs'⟩ := files_eq_some.mp hself
    have hholds' : Holds s' (dinode sb s' i) (overwrite xs off.toNat (src.take tot)) :=
      hxs' ▸ .of_complete (hholes i hi hlive')
    have htot : (src.take tot).length = tot := length_take_of_le (by omega)
    have hnat : (UInt32.ofNat tot).toNat = tot := by
      simp only [UInt32.toNat_ofNat']
      omega
    have hsize := hholds'.length
    rw [length_overwrite hoff, htot] at hsize
    refine ⟨tot, s', hw, hgood, hholes, hle, hshort, hsize.symm, hfiles, ?_⟩
    rw [hholds'.readi sb (by rw [length_overwrite hoff]; omega) (by omega), hnat]
    have hback := take_drop_overwrite hoff (src.take tot)
    rw [htot] at hback
    rw [hback]

def sampleFile : Store := (ialloc sampleSb sampleState.store 2).2

theorem sampleFile_good : Good sampleSb (inUse sampleSb sampleState.store) sampleFile :=
  ((Kept.of_wellFormed sampleState_wellFormed).good.ialloc 2).1

theorem sampleFile_noHoles : NoHoles sampleSb sampleFile := by
  have hsize : ∀ j < 16, (dinode sampleSb sampleFile j).size = 0 := by decide +kernel
  exact fun j hj _ => .of_size_zero (hsize j hj)

/-- Three bytes are written to the empty file and read back. -/
theorem readi_writei_sample : files sampleSb sampleFile 1 = some [] ∧ ∃ tot s',
    writei sampleSb sampleFile 1 (dinode sampleSb sampleFile 1) 0 3 [7, 8, 9] =
      .ok (some tot, dinode sampleSb s' 1, s') ∧
    files sampleSb s' = update (files sampleSb sampleFile) 1
      (some (overwrite [] 0 ([7, 8, 9].take tot))) := by
  have hfile : files sampleSb sampleFile 1 = some [] := by decide +kernel
  obtain ⟨-, hwrite⟩ := readi_writei_byte_array sampleFile_good sampleFile_noHoles hfile 0 3
  obtain ⟨-, hok⟩ := hwrite [7, 8, 9] rfl
  obtain ⟨tot, s', hw, -, -, -, -, -, hfiles, -⟩ := hok (by decide) (by decide)
  exact ⟨hfile, tot, s', hw, hfiles⟩

end EafitOs.FileSystem
