import EafitOs.FileSystem.Contents

/-!
# Writing to a file in transactions

`filewrite` splits a write into pieces that fit a transaction of the log, and each piece is a
`writei` of its own. If one `writei` of all the bytes would write them all then so do the pieces,
since a piece adds only blocks that the one `writei` adds too.
-/

namespace EafitOs.FileSystem

open Foundation Disk Function List Option

/-- The fields of an open file that `filewrite` reads, for an inode file. -/
structure InodeFile where
  writable : Bool
  ip : Nat
  off : UInt32

/-- Bytes that one transaction of `filewrite` writes (`max`). -/
def filewriteMax : Nat := (10 - 1 - 1 - 2) / 2 * bsize

/-- The loop of `filewrite`, where `i` bytes are written and `src` has the bytes that can be
read at `addr`. The answers are `i`, `f->off` and the state. -/
def filewriteLoop (sb : Superblock) (ip n : Nat) (src : List UInt8) : Nat → State → UInt32 → Nat →
    Except String (Nat × UInt32 × State)
  | 0, st, off, i => .ok (i, off, st)
  | fuel + 1, st, off, i =>
    if i < n then do
      let n1 := min (n - i) filewriteMax
      let d ← ilock sb st ip
      let (r, d, s) ← writei sb st.store ip d off (UInt32.ofNat n1) (src.drop i)
      let off := match r with
        | some r => off + UInt32.ofNat r
        | none => off
      if r = some n1 then filewriteLoop sb ip n src fuel (st.put ip (some d) s) off (i + n1)
      else .ok (i, off, st.put ip (some d) s)
    else .ok (i, off, st)

def filewrite (sb : Superblock) (st : State) (f : InodeFile) (n : Nat) (src : List UInt8) :
    Except String (Int × InodeFile × State) :=
  if f.writable = false then .ok (-1, f, st)
  else do
    let (i, off, st) ← filewriteLoop sb f.ip n src n st f.off 0
    .ok (if i = n then n else -1, { f with off := off }, st)

def writeOnce (sb : Superblock) (st : State) (f : InodeFile) (n : Nat) (src : List UInt8) :
    Except String (Option Nat × Dinode × Store) := do
  let d ← ilock sb st f.ip
  writei sb st.store f.ip d f.off (UInt32.ofNat n) src

variable {sb : Superblock} {start start' : Set Nat} {s s' s₁ : Store} {i : Nat}

def Filled (sb : Superblock) (s : Store) (x : Slot) : Prop := held sb s (dinode sb s) x ≠ none

theorem NoHoles.filled (hh : NoHoles sb s) (hi : i < sb.ninodes) (hlive : (dinode sb s i).type ≠ 0)
    {bn : Nat} (hbn : bn * bsize < (dinode sb s i).size.toNat) {x : Slot} (hx : Serves i bn x) :
    Filled sb s x := by
  have hcomplete := hh i hi hlive
  rcases hx with hx | ⟨rfl, hbig⟩
  · rw [Filled, ← blockOf_eq_held hi hlive hx, hcomplete.blockOf hbn]
    simp
  · have hind := hcomplete.indirect (Nat.lt_of_le_of_lt (Nat.mul_le_mul_right _ hbig) hbn)
    rw [Filled, held, if_pos ⟨hi, hlive⟩, ptr_of_ne hind]
    simp

theorem Good.writei_filled (h : Good sb start s) (hi : i < sb.ninodes)
    (hlive : (dinode sb s i).type ≠ 0) {off n : UInt32} (hin : ¬Rejected (dinode sb s i) off n)
    {src : List UInt8} (hsrc : n.toNat ≤ src.length) {E : String → Prop} :
    Ends (writei sb s i (dinode sb s i) off n src) (fun r => ∀ x,
      (Filled sb s x → Filled sb r.2.2 x) ∧ (Filled sb r.2.2 x → Filled sb s x ∨
        ∃ bn, bn * bsize < off.toNat + n.toNat ∧ Serves i bn x)) E := by
  refine ((h.mid hi rfl hlive).writei_written hin src).imp ?_
  rintro _ ⟨tot, t, d', last, size, hw, -, rfl⟩ x
  obtain ⟨rfl, -⟩ := hw.not_stuck hsrc
  have hheld := hw.mid.sound.held_iupdate hi hw.mid.inodes { d' with size := size }
    (held_update rfl rfl)
  have hold := hw.writes.slots x
  have htouch := hw.touched x
  simp only [update_eq_self] at hold htouch
  simp only [Filled, hheld]
  constructor
  · intro hx
    rcases hold with heq | ⟨hnone, -⟩
    · rwa [heq]
    · exact absurd hnone hx
  · intro hx
    rcases htouch with heq | hserve
    · exact Or.inl (by rwa [heq] at hx)
    · exact Or.inr hserve

theorem Superblock.finite_dataBlocks (sb : Superblock) : sb.dataBlocks.Finite :=
  (Set.finite_lt_nat sb.size).subset fun _ hb => hb.2

theorem Good.exists_block_of_full (h : Good sb start s) (h₁ : Good sb start' s₁)
    (hfull : Full sb s) (hsub : ∀ x, Filled sb s x → Filled sb s₁ x) (hh₁ : NoHoles sb s₁)
    (hi : i < sb.ninodes) (hlive : (dinode sb s i).type ≠ 0) (hlive₁ : (dinode sb s₁ i).type ≠ 0)
    {k : Nat} (hk : k < (dinode sb s₁ i).size.toNat) : byteOf s (dinode sb s i) k ≠ none := by
  have hbn : k / bsize * bsize < (dinode sb s₁ i).size.toNat :=
    Nat.lt_of_le_of_lt (Nat.div_mul_le_self k bsize) hk
  obtain ⟨x, hx⟩ := Names.exists_of_lt i
    (Nat.lt_of_mul_lt_mul_right (hbn.trans_le (hh₁ i hi hlive₁).size_le))
  have hfilled : Filled sb s x :=
    h.owns.filled_of_full sb.finite_dataBlocks h₁.owns (fun b hb => ⟨hb, hfull b hb.2⟩)
      (fun b hb => hb.1) hsub (hh₁.filled hi hlive₁ hbn (Or.inl hx))
  rw [Filled, ← blockOf_eq_held hi hlive hx] at hfilled
  rw [byteOf]
  simpa using hfilled

theorem Kept.ilock_live {st : State} (h : Kept sb start st) (hi : i < sb.ninodes)
    (hlive : (dinode sb st.store i).type ≠ 0) :
    FileSystem.ilock sb st i = .ok (dinode sb st.store i) := by
  rw [FileSystem.ilock]
  split
  · rename_i d hd
    rw [(h.cache i hi d hd).1]
  · rw [if_neg hlive]

/-- Where `filewrite` stands between two pieces: the first `i` bytes are in the file, and
each block in use is one that `s₁` has, which one `writei` of all the bytes leaves. -/
structure Progress (sb : Superblock) (start : Set Nat) (st₀ : State) (s₁ : Store) (ip : Nat)
    (xs : List UInt8) (off : Nat) (src : List UInt8) (i : Nat) (st : State) : Prop where
  kept : Kept sb start st
  noHoles : NoHoles sb st.store
  files : files sb st.store = update (files sb st₀.store) ip
    (some (overwrite xs off (src.take i)))
  filled : ∀ x, Filled sb st.store x → Filled sb s₁ x
  inodes : ∀ j < sb.ninodes, j ≠ ip → dinode sb st.store j = dinode sb st₀.store j

namespace Progress

variable {st₀ st : State} {ip off n : Nat} {xs src : List UInt8}

section

variable (h : Progress sb start st₀ s₁ ip xs off src i st)
include h

theorem contents : ip < sb.ninodes ∧ (dinode sb st.store ip).type ≠ 0 ∧
    FileSystem.contents st.store (dinode sb st.store ip) = overwrite xs off (src.take i) := by
  have hself := congrFun h.files ip
  rw [update_self] at hself
  exact files_eq_some.mp hself

theorem size (hoff : off ≤ xs.length) (hi : i ≤ src.length) :
    (dinode sb st.store ip).size.toNat = max xs.length (off + i) := by
  have hlen : (FileSystem.contents st.store (dinode sb st.store ip)).length =
      (dinode sb st.store ip).size.toNat := length_span _ _ _
  rw [← hlen, h.contents.2.2, length_overwrite hoff, length_take_of_le hi]

theorem chunk (h₁ : Good sb start' s₁) (hh₁ : NoHoles sb s₁) (hlive₁ : (dinode sb s₁ ip).type ≠ 0)
    (hsize₁ : off + n ≤ (dinode sb s₁ ip).size.toNat) (hoff : off ≤ xs.length)
    (hsrc : n ≤ src.length) (hmax : off + n ≤ maxfile * bsize) {m : Nat} (hm : i + m ≤ n)
    {o : UInt32} (ho : o.toNat = off + i) :
    ilock sb st ip = .ok (dinode sb st.store ip) ∧
    ∃ s', writei sb st.store ip (dinode sb st.store ip) o (UInt32.ofNat m) (src.drop i) =
        .ok (some m, dinode sb s' ip, s') ∧
      Progress sb start st₀ s₁ ip xs off src (i + m) (st.put ip (some (dinode sb s' ip)) s') := by
  have hsmall : maxfile * bsize < 2 ^ 32 := by decide
  obtain ⟨hip, hlive, hxs⟩ := h.contents
  have hm32 : (UInt32.ofNat m).toNat = m := by
    simp only [UInt32.toNat_ofNat']
    omega
  have hin : ¬Rejected (dinode sb st.store ip) o (UInt32.ofNat m) := by
    rw [Rejected, hm32, ho, h.size hoff (by omega)]
    omega
  have hlen : (UInt32.ofNat m).toNat ≤ (src.drop i).length := by
    rw [hm32, length_drop]
    omega
  have hself := congrFun h.files ip
  rw [update_self] at hself
  obtain ⟨tot, s', hw, hgood, hholes, htype, hle, hshort, hfiles⟩ :=
    h.kept.good.writei_files h.noHoles hself hin hlen
  rw [hm32] at hle hshort
  rw [ho] at hshort hfiles
  have hlive' : (dinode sb s' ip).type ≠ 0 := htype ▸ hlive
  have hnew : ∀ x, Filled sb s' x → Filled sb s₁ x := by
    intro x hx
    have hspec := (h.kept.good.writei_filled hip hlive hin hlen (E := fun _ => False)).of_eq_ok hw
    rcases (hspec x).2 hx with hx | ⟨bn, hbn, hserve⟩
    · exact h.filled x hx
    · rw [ho, hm32] at hbn
      exact hh₁.filled hip hlive₁ (by omega) hserve
  obtain rfl : tot = m := by
    rcases Nat.eq_or_lt_of_le hle with rfl | hlt
    · rfl
    · obtain ⟨hfull, hnone⟩ := hshort hlt
      exact absurd hnone (hgood.exists_block_of_full h₁ hfull hnew hh₁ hip hlive' hlive₁ (by omega))
  have hother : ∀ j < sb.ninodes, j ≠ ip → dinode sb s' j = dinode sb st.store j := by
    intro j hj hji
    have hspec := ((h.kept.good.mid hip rfl hlive).writei o (UInt32.ofNat tot) (src.drop i)
      (fun j _ => by rw [update_eq_self]) h.kept.good (E := fun _ => False)).of_eq_ok hw
    rw [hspec.2.2 j hj, update_of_ne hji]
  refine ⟨h.kept.ilock_live hip hlive, s', hw, h.kept.put hgood hother ?_, hholes, ?_, hnew,
    fun j hj hji => ?_⟩
  · intro e he
    obtain rfl := some.inj he
    exact ⟨rfl, hlive'⟩
  · have hlast : (src.take i).length = i := length_take_of_le (by omega)
    have hjoin := overwrite_overwrite hoff (src.take i) ((src.drop i).take tot)
    rw [hlast] at hjoin
    simp only [State.put]
    rw [hfiles, h.files, update_idem, hjoin, ← take_add]
  · simp only [State.put]
    rw [hother j hj hji, h.inodes j hj hji]

end

theorem loop (h₁ : Good sb start' s₁) (hh₁ : NoHoles sb s₁)
    (hlive₁ : (dinode sb s₁ ip).type ≠ 0) (hsize₁ : off + n ≤ (dinode sb s₁ ip).size.toNat)
    (hoff : off ≤ xs.length) (hsrc : n ≤ src.length) (hmax : off + n ≤ maxfile * bsize) :
    ∀ {fuel i : Nat} {st : State} {o : UInt32}, Progress sb start st₀ s₁ ip xs off src i st →
      i ≤ n → n - i ≤ fuel → o.toNat = off + i →
      ∃ st' o', filewriteLoop sb ip n src fuel st o i = .ok (n, o', st') ∧
        o'.toNat = off + n ∧ Progress sb start st₀ s₁ ip xs off src n st' := by
  have hsmall : maxfile * bsize < 2 ^ 32 := by decide
  have hpos : 0 < filewriteMax := by decide
  intro fuel
  induction fuel with
  | zero =>
    intro i st o h hi hfuel ho
    obtain rfl : i = n := by omega
    exact ⟨st, o, rfl, ho, h⟩
  | succ fuel ih =>
    intro i st o h hi hfuel ho
    rw [filewriteLoop]
    by_cases hlt : i < n
    · obtain ⟨hlock, s', hw, hnext⟩ := h.chunk h₁ hh₁ hlive₁ hsize₁ hoff hsrc hmax
        (m := min (n - i) filewriteMax) (by omega) ho
      have ho' : (o + UInt32.ofNat (min (n - i) filewriteMax)).toNat =
          off + (i + min (n - i) filewriteMax) := by
        simp only [UInt32.toNat_add, UInt32.toNat_ofNat', ho]
        omega
      obtain ⟨st', o', hrest, hend⟩ := ih hnext (by omega) (by omega) ho'
      refine ⟨st', o', ?_, hend⟩
      rw [if_pos hlt, ← hrest]
      simp only [hlock, ok_bind, hw, if_true]
    · obtain rfl : i = n := by omega
      rw [if_neg hlt]
      exact ⟨st, o, rfl, ho, h⟩

end Progress

theorem Kept.writeOnce {st : State} {f : InodeFile} {n : Nat} {src : List UInt8} {d₁ : Dinode}
    (h : Kept sb start st) (hip : f.ip < sb.ninodes)
    (hone : FileSystem.writeOnce sb st f n src = .ok (some n, d₁, s₁)) :
    (dinode sb st.store f.ip).type ≠ 0 ∧
    ¬Rejected (dinode sb st.store f.ip) f.off (UInt32.ofNat n) ∧ n ≤ src.length ∧
    writei sb st.store f.ip (dinode sb st.store f.ip) f.off (UInt32.ofNat n) src =
      .ok (some n, d₁, s₁) := by
  rw [FileSystem.writeOnce] at hone
  cases hlock : FileSystem.ilock sb st f.ip with
  | error e =>
    rw [hlock] at hone
    cases hone
  | ok d =>
    rw [hlock, ok_bind] at hone
    obtain ⟨rfl, hlive⟩ := (h.ilock hip).of_eq_ok hlock
    have hin : ¬Rejected (dinode sb st.store f.ip) f.off (UInt32.ofNat n) := by
      intro hrej
      rw [writei_rejected hrej] at hone
      cases hone
    obtain ⟨tot, t, d', last, size, hw, -, heq⟩ :=
      ((h.good.mid hip rfl hlive).writei_written hin src (E := fun _ => False)).of_eq_ok hone
    obtain rfl := some.inj (Prod.mk.inj heq).1
    exact ⟨hlive, hin, hw.le_length, hone⟩

/-- A write in pieces is one write: if one `writei` writes all the bytes then so does
`filewrite`, with the same bytes and size of the file, and no other file changed. -/
theorem filewrite_eq_writei {st : State} {f : InodeFile} {n : Nat} {src : List UInt8} {d₁ : Dinode}
    (h : Kept sb start st) (hh : NoHoles sb st.store) (hip : f.ip < sb.ninodes)
    (hwritable : f.writable = true) (hn : n < 2 ^ 31)
    (hone : writeOnce sb st f n src = .ok (some n, d₁, s₁)) :
    ∃ st', filewrite sb st f n src = .ok (n, { f with off := f.off + UInt32.ofNat n }, st') ∧
      files sb st'.store = files sb s₁ ∧
      (dinode sb st'.store f.ip).size = (dinode sb s₁ f.ip).size ∧
      (∀ j, j ≠ f.ip → files sb st'.store j = files sb st.store j) ∧
      ∀ j < sb.ninodes, j ≠ f.ip → dinode sb st'.store j = dinode sb st.store j := by
  have hn32 : (UInt32.ofNat n).toNat = n := by
    simp only [UInt32.toNat_ofNat']
    omega
  obtain ⟨hlive, hin, hsrc, hw⟩ := h.writeOnce hip hone
  have hf : files sb st.store f.ip = some (contents st.store (dinode sb st.store f.ip)) :=
    files_eq_some.mpr ⟨hip, hlive, rfl⟩
  have hlen : (contents st.store (dinode sb st.store f.ip)).length =
      (dinode sb st.store f.ip).size.toNat := length_span _ _ _
  obtain ⟨tot, t, ht, hgood, hholes, htype, -, -, hfiles⟩ :=
    h.good.writei_files hh hf hin (by rwa [hn32])
  have hfilled := (h.good.writei_filled hip hlive hin (by rwa [hn32])
    (E := fun _ => False)).of_eq_ok hw
  rw [hw] at ht
  simp only [Except.ok.injEq, Prod.mk.injEq, some.injEq] at ht
  obtain ⟨rfl, -, rfl⟩ := ht
  simp only [Rejected, not_or, hn32] at hin
  have hoff : f.off.toNat ≤ (contents st.store (dinode sb st.store f.ip)).length := by omega
  have hlive₁ : (dinode sb s₁ f.ip).type ≠ 0 := htype ▸ hlive
  have hself := congrFun hfiles f.ip
  rw [update_self] at hself
  have hlen₁ : (contents s₁ (dinode sb s₁ f.ip)).length = (dinode sb s₁ f.ip).size.toNat :=
    length_span _ _ _
  have hsize₁ : (dinode sb s₁ f.ip).size.toNat =
      max (dinode sb st.store f.ip).size.toNat (f.off.toNat + n) := by
    rw [← hlen₁, (files_eq_some.mp hself).2.2, length_overwrite hoff,
      length_take_of_le hsrc, hlen]
  have hstart : Progress sb start st s₁ f.ip (contents st.store (dinode sb st.store f.ip))
      f.off.toNat src 0 st := by
    refine ⟨h, hh, ?_, fun x => (hfilled x).1, fun _ _ _ => rfl⟩
    rw [take_zero, overwrite, append_nil, length_nil, Nat.add_zero,
      take_append_drop, ← hf, update_eq_self]
  obtain ⟨st', o, hloop, ho, hend⟩ := Progress.loop hgood hholes hlive₁ (by omega) hoff hsrc
    (by omega) hstart (Nat.zero_le n) (Nat.sub_le n 0) rfl
  have hoff' : o = f.off + UInt32.ofNat n := by
    apply UInt32.toNat_inj.mp
    rw [ho, UInt32.toNat_add, hn32, Nat.mod_eq_of_lt (by omega)]
  refine ⟨st', ?_, by rw [hend.files, hfiles], ?_, fun j hj => ?_, hend.inodes⟩
  · rw [filewrite, if_neg (by simp [hwritable]), hloop, ok_bind, hoff']
    simp only [if_true]
  · apply UInt32.toNat_inj.mp
    rw [hend.size hoff hsrc, hsize₁, hlen]
  · rw [hend.files, update_of_ne hj]

def sampleFileState : State := { store := sampleFile, icache := fun _ => none, panic := none }

/-- A write of more than one piece to the empty file. -/
theorem filewrite_eq_writei_sample :
    ∃ d₁ s₁ st', writeOnce sampleSb sampleFileState ⟨true, 1, 0⟩ 3073 (List.replicate 3073 7) =
        .ok (some 3073, d₁, s₁) ∧
      filewrite sampleSb sampleFileState ⟨true, 1, 0⟩ 3073 (List.replicate 3073 7) =
        .ok (3073, ⟨true, 1, 3073⟩, st') ∧ files sampleSb st'.store = files sampleSb s₁ := by
  obtain ⟨⟨d₁, s₁⟩, hr⟩ : ∃ r, writeOnce sampleSb sampleFileState ⟨true, 1, 0⟩ 3073
      (List.replicate 3073 7) = .ok (some 3073, r) := by decide +kernel
  have hkept : Kept sampleSb (inUse sampleSb sampleState.store) sampleFileState :=
    ⟨sampleFile_good, fun _ _ _ hd => by cases hd⟩
  obtain ⟨st', hw, hfiles, -⟩ := filewrite_eq_writei hkept sampleFile_noHoles (by decide) rfl
    (by decide) hr
  exact ⟨d₁, s₁, st', hr, hw, hfiles⟩

end EafitOs.FileSystem
