import EafitOs.FileSystem.Contents

/-!
# Files without holes

No operation on inodes leaves a block below the size of a file missing, also where a write is cut
short. So a read finds every block it asks for.
-/

namespace EafitOs.FileSystem

open Foundation Disk Function Option

structure OfBlocks (P : Store → Dinode → Prop) : Prop where
  congr : ∀ {s s' d}, (∀ bn, blockOf s' d bn = blockOf s d bn) → P s d → P s' d
  empty : ∀ {s d}, d.size = 0 → (∀ k, d.addrs k = 0) → P s d

def Each (P : Store → Dinode → Prop) (sb : Superblock) (s : Store) : Prop :=
  ∀ j < sb.ninodes, (dinode sb s j).type ≠ 0 → P s (dinode sb s j)

def Dense (s : Store) (d : Dinode) : Prop :=
  ∀ bn m, m ≤ bn → blockOf s d m = none → blockOf s d bn = none

theorem blockOf_empty {s : Store} {d : Dinode} (h : ∀ k, d.addrs k = 0) (bn : Nat) :
    blockOf s d bn = none := by
  rw [blockOf, h, h, ptr_zero, bind_none]
  split
  · rfl
  · split <;> rfl

theorem Complete.ofBlocks : OfBlocks Complete where
  congr h hc := .of_blockOf hc.size_le fun bn hbn => ⟨_, (h bn).trans (hc.blockOf hbn)⟩
  empty hsize _ := .of_size_zero hsize

theorem Dense.ofBlocks : OfBlocks Dense where
  congr h hd := fun bn m hle hm => (h bn).trans (hd bn m hle ((h m).symm.trans hm))
  empty _ hzero := fun bn _ _ _ => blockOf_empty hzero bn

section Operations

variable {sb : Superblock} {start : Set Nat} {s s' : Store} {P : Store → Dinode → Prop}

theorem Each.of_indirect (hP : OfBlocks P) (hh : Each P sb s)
    (hind : ∀ j b, held sb s (dinode sb s) (.addr j indirect) = some b → s'.bread b = s.bread b)
    (hino : ∀ j < sb.ninodes, dinode sb s' j = dinode sb s j ∨
      (dinode sb s' j).size = 0 ∧ (∀ k, (dinode sb s' j).addrs k = 0) ∨
      (dinode sb s' j).type = 0) : Each P sb s' := by
  intro j hj hlive
  rcases hino j hj with hsame | ⟨hsize, hzero⟩ | hfree
  · rw [hsame] at hlive ⊢
    refine hP.congr (blockOf_congr fun a ha => hind j a ?_) (hh j hj hlive)
    rw [held, if_pos ⟨hj, hlive⟩, ha]
  · exact hP.empty hsize hzero
  · exact absurd hfree hlive

theorem Good.each (h : Good sb start s) (hP : OfBlocks P) (hh : Each P sb s)
    (hread : ∀ b, sb.nmeta ≤ b → s'.bread b = s.bread b)
    (hino : ∀ j < sb.ninodes, dinode sb s' j = dinode sb s j ∨
      (dinode sb s' j).size = 0 ∧ (∀ k, (dinode sb s' j).addrs k = 0) ∨
      (dinode sb s' j).type = 0) : Each P sb s' :=
  hh.of_indirect hP (fun _ b hb => hread b (h.mem hb).1) hino

variable {i : Nat} {E : String → Prop} {base : Nat → Dinode} {last : Store} {d d' : Dinode}
  {off left n : Nat} {src : List UInt8}

theorem Written.writes_stuck (h : Written sb start base i s d off left src n s' d' last)
    (hstuck : Stuck s' d' (off + n) (left - n) (src.drop n) last) :
    Writes sb base i s d off src last d' := by
  obtain ⟨b, hb, hlt, hlast⟩ := hstuck
  have hmod : (off + n) % bsize < bsize := Nat.mod_lt _ (by decide)
  have hchunk : Writes sb base i s' d' (off + (src.take n).length) (src.drop n) last d' := by
    rw [List.length_take_of_le h.le_length]
    exact h.mid.writes_chunk hb (by omega) (by rw [hlast, Store.fill_bread])
  have hall := h.writes.trans hchunk
  rwa [List.take_append_drop] at hall

theorem Written.writes_last (h : Written sb start base i s d off left src n s' d' last) :
    ∃ bs, n ≤ bs.length ∧ Writes sb base i s d off bs last d' := by
  rcases h.ends with ⟨rfl, -⟩ | ⟨hstuck, -⟩
  · exact ⟨src.take n, (List.length_take_of_le h.le_length).ge, h.writes⟩
  · exact ⟨src, h.le_length, h.writes_stuck hstuck⟩

theorem Good.noHoles_writei (h : Good sb start s) (hh : NoHoles sb s) (hi : i < sb.ninodes)
    (hlive : (dinode sb s i).type ≠ 0) (off n : UInt32) (src : List UInt8) :
    Ends (writei sb s i (dinode sb s i) off n src) (fun r => NoHoles sb r.2.2) E := by
  by_cases hin : Rejected (dinode sb s i) off n
  · rw [writei_rejected hin]
    exact .ok hh
  · refine ((h.mid hi rfl hlive).writei_written hin src).imp ?_
    rintro _ ⟨tot, t, d', last, size, hw, hsize, rfl⟩
    have hoff : off.toNat ≤ (dinode sb s i).size.toNat := by
      simp only [Rejected, not_or] at hin
      omega
    obtain ⟨bs, hlen, hwrites⟩ := hw.writes_last
    exact (Good.files_iupdate hh hw.mid_last hlive hwrites hoff (by omega)).2.2.2.1

theorem Written.blockOf_keep (h : Written sb start base i s d off left src n s' d' last)
    (hmid : Mid sb start base i s d) {bn b : Nat} (hb : blockOf s d bn = some b) :
    blockOf s' d' bn = some b := by
  obtain ⟨x, hx, hxb⟩ := hmid.blockOf_eq_some.mp hb
  exact h.mid.blockOf_eq_some.mpr ⟨x, hx, h.writes.names x b hxb⟩

theorem Written.blockOf_last (h : Written sb start base i s d off left src n s' d' last)
    (bn : Nat) : blockOf last d' bn = blockOf s' d' bn := by
  rcases h.ends with ⟨rfl, -⟩ | ⟨⟨b, hb, -, rfl⟩, -⟩
  · rfl
  · refine blockOf_congr (fun a ha => ?_) bn
    rw [Store.fill_bread, update_of_ne]
    rintro rfl
    exact (h.mid.data_of_blockOf hb).2 i ((h.mid.addr _).trans ha)

theorem Good.dense_writei (h : Good sb start s) (hh : NoHoles sb s) (hd : Each Dense sb s)
    (hi : i < sb.ninodes) (hlive : (dinode sb s i).type ≠ 0) (off n : UInt32) (src : List UInt8) :
    Ends (writei sb s i (dinode sb s i) off n src) (fun r => Each Dense sb r.2.2) E := by
  by_cases hin : Rejected (dinode sb s i) off n
  · rw [writei_rejected hin]
    exact .ok hd
  have hmid := h.mid hi rfl hlive
  refine ((hmid.writei_written hin src).and (h.noHoles_writei hh hi hlive off n src)).imp ?_
  rintro _ ⟨⟨tot, t, d', last, size, hw, hsize, rfl⟩, hholes⟩ j hj hlivej
  dsimp only at hholes hlivej ⊢
  have hlast := hw.mid_last
  obtain ⟨-, hino⟩ := hlast.sound.iupdate hi hlast.inodes { d' with size } (held_update rfl rfl)
  by_cases hji : j = i
  · subst hji
    have hfull := hholes j hj hlivej
    rw [hino j hj, update_self] at hfull ⊢
    have hblock (bn : Nat) : blockOf (iupdate sb last j { d' with size }) { d' with size } bn =
        blockOf t d' bn :=
      (blockOf_congr (fun a ha => iupdate_data hi _
        (hlast.sound.mem ((hlast.addr _).trans ha)).1) bn).trans (hw.blockOf_last bn)
    intro bn m hle hm
    by_cases hlt : (off.toNat + tot) / bsize < bn
    · rw [hblock] at hm ⊢
      rcases hw.added bn hlt with hnone | hsame
      · exact hnone
      · cases hold : blockOf s (dinode sb s j) m with
        | none => exact hsame.trans (hd j hj hlive bn m hle hold)
        | some c => cases (hw.blockOf_keep hmid hold).symm.trans hm
    · -- below the end of the write every block is there, so that it is the same block
      have hpast : ¬m * bsize < size.toNat := fun hlt => by
        cases (hfull.blockOf hlt).symm.trans hm
      have heq : m = bn := by
        simp only [bsize] at hlt hpast
        omega
      exact heq ▸ hm
  · obtain ⟨bs, -, hwrites⟩ := hw.writes_last
    have hold : (dinode sb s j).type ≠ 0 := by rwa [hino j hj, update_of_ne hji] at hlivej
    have hblock (bn : Nat) : blockOf (iupdate sb last i { d' with size })
        (dinode sb (iupdate sb last i { d' with size }) j) bn = blockOf s (dinode sb s j) bn := by
      refine Option.ext fun b => ?_
      rw [blockOf_eq_some hj hlivej, blockOf_eq_some hj hold,
        hlast.sound.held_iupdate hi hlast.inodes { d' with size } (held_update rfl rfl)]
      refine exists_congr fun x => and_congr_right fun hx => ?_
      rw [(hwrites.slots x).resolve_right fun hnew => hji (hx.inum.symm.trans hnew.2),
        update_eq_self]
    intro bn m hle hm
    rw [hblock] at hm ⊢
    exact hd j hj hold bn m hle hm

end Operations

namespace Kept

variable {sb : Superblock} {start : Set Nat} {st : State} {P : Store → Dinode → Prop}

section

variable (h : Kept sb start st) (hP : OfBlocks P) (hh : Each P sb st.store)
  (hwrite : ∀ i < sb.ninodes, (dinode sb st.store i).type ≠ 0 → ∀ off n src,
    Ends (writei sb st.store i (dinode sb st.store i) off n src) (fun r => Each P sb r.2.2)
      fun _ => True)
include h hP hh hwrite

theorem each_run {op : Op} (hop : ∀ i ∈ op.inum, i < sb.ninodes) :
    Ends (st.run sb op) (fun st' => Each P sb st'.store) fun _ => True := by
  cases op with
  | ialloc type =>
    obtain ⟨-, -, hino, hread⟩ := h.good.ialloc type
    refine .ok (h.good.each hP hh hread fun j hj => ?_)
    exact (hino j hj).imp_right fun hfresh => Or.inl (by rw [hfresh]; exact ⟨rfl, fun _ => rfl⟩)
  | writei i off n src =>
    refine (h.ilock (hop i rfl)).any.bind fun d hd => ?_
    obtain ⟨rfl, hlive⟩ := hd
    exact (hwrite i (hop i rfl) hlive off n src).bind fun r hr => .ok hr
  | itrunc i =>
    refine (h.ilock (hop i rfl)).any.bind fun d hd => ?_
    refine (h.good.mid (hop i rfl) hd.1 hd.2).itrunc.bind fun r hr => .ok ?_
    obtain ⟨-, hino, -, hsize, hzero, hread⟩ := hr
    refine h.good.each hP hh hread fun j hj => ?_
    simp only [State.put]
    by_cases hji : j = i
    · rw [hji, hino i (hop i rfl), update_self]
      exact Or.inr (Or.inl ⟨hsize, hzero⟩)
    · rw [hino j hj, update_of_ne hji]
      exact Or.inl rfl
  | iput i =>
    refine (h.ilock (hop i rfl)).any.bind fun d hd => ?_
    refine (h.good.mid (hop i rfl) hd.1 hd.2).iputFree.bind fun s hs => .ok ?_
    obtain ⟨-, hino, hfree, hread⟩ := hs
    refine h.good.each hP hh hread fun j hj => ?_
    by_cases hji : j = i
    · exact Or.inr (Or.inr (hji ▸ hfree))
    · exact Or.inl (hino j hj hji)
  | forget i => exact .ok hh
  | evict b =>
    -- Inode and indirect blocks have no changes that recycling could lose.
    have hclean : ∀ c, (c < sb.nmeta ∨ ∃ i,
        held sb st.store (dinode sb st.store) (.addr i indirect) = some c) →
        (st.store.evict b).bread c = st.store.bread c := by
      intro c hc
      apply Store.evict_bread
      rintro rfl
      exact h.good.clean c hc
    refine .ok (hh.of_indirect hP (fun j c hj => hclean c (Or.inr ⟨j, hj⟩)) fun j hj => Or.inl ?_)
    simp only [dinode, hclean _ (Or.inl (sb.iblock_lt_nmeta hj))]
  | commit b =>
    refine .ok (hh.of_indirect hP (fun j c _ => ?_) fun j _ => Or.inl ?_)
    · simp only [Store.logWrite_bread]
    · simp only [dinode, Store.logWrite_bread]

theorem each_step {op : Op} {st' : State} (hs : st.step sb op = some st') :
    Each P sb st'.store := by
  obtain ⟨hop, ⟨t, hr, rfl⟩ | ⟨e, -, rfl⟩⟩ := State.step_cases hs
  · have hnew := (h.each_run hP hh hwrite hop).of_eq_ok hr
    exact hnew
  · exact hh

end

end Kept

theorem Kept.noHoles_step {sb : Superblock} {start : Set Nat} {st st' : State} {op : Op}
    (h : Kept sb start st) (hh : NoHoles sb st.store) (hs : st.step sb op = some st') :
    NoHoles sb st'.store :=
  h.each_step Complete.ofBlocks hh (fun _ hi hlive => h.good.noHoles_writei hh hi hlive) hs

/-- No run leaves a gap in the blocks of a file. -/
theorem dense_run {sb : Superblock} {st₀ st : State} {ops : List Op} (h₀ : WellFormed sb st₀)
    (hh : NoHoles sb st₀.store) (hd : Each Dense sb st₀.store)
    (run : Run (fun st op st' => st.step sb op = some st') st₀ ops st) :
    Each Dense sb st.store := by
  refine (run.invariant
    (fun st => Kept sb (inUse sb st₀.store) st ∧ NoHoles sb st.store ∧ Each Dense sb st.store)
    ⟨.of_wellFormed h₀, hh, hd⟩ fun _ _ _ h hs =>
      ⟨(h.1.step hs).1, h.1.noHoles_step h.2.1 hs, ?_⟩).2.2
  exact h.1.each_step Dense.ofBlocks h.2.2
    (fun _ hi hlive => h.1.good.dense_writei h.2.1 h.2.2 hi hlive) hs

/-- Over every run from a well-formed image without holes, the blocks below the size of
every allocated inode are there, also after writes that were cut short. A read of a locked
inode then copies the bytes of the file whatever the allocator would do: it never calls it. -/
theorem no_holes {sb : Superblock} {st₀ st : State} {ops : List Op} (h₀ : WellFormed sb st₀)
    (hh : NoHoles sb st₀.store)
    (run : Run (fun st op st' => st.step sb op = some st') st₀ ops st) :
    NoHoles sb st.store ∧
    ∀ i < sb.ninodes, ∀ d, ilock sb st i = .ok d →
      ∀ (alloc : Store → Except String (UInt32 × Store)) (room : Nat) (off n : UInt32),
        readiUsing alloc room st.store d off n =
          .ok (if d.size < off ∨ 2 ^ 32 ≤ off.toNat + n.toNat then some []
            else if min n.toNat (d.size.toNat - off.toNat) ≤ room then
              some (((contents st.store d).drop off.toNat).take n.toNat)
            else none, d, st.store) := by
  obtain ⟨hkept, hholes⟩ := run.invariant
    (fun st => Kept sb (inUse sb st₀.store) st ∧ NoHoles sb st.store)
    ⟨Kept.of_wellFormed h₀, hh⟩ fun _ _ _ h hs => ⟨(h.1.step hs).1, h.1.noHoles_step h.2 hs⟩
  refine ⟨hholes, fun i hi d hd alloc room off n => ?_⟩
  obtain ⟨rfl, hlive⟩ := (hkept.ilock hi).of_eq_ok hd
  rw [readiUsing_complete (hholes i hi hlive)]
  split
  · rfl
  · rename_i hin
    rw [not_or, UInt32.not_lt, UInt32.le_iff_toNat_le] at hin
    rw [contents_slice hin.1]

theorem sampleState_noHoles : NoHoles sampleSb sampleState.store := by
  have htype : ∀ j < 16, (dinode sampleSb sampleState.store j).type = 0 := by decide +kernel
  exact fun j hj hlive => absurd (htype j hj) hlive

/-- A write is cut short by its source after the block has been allocated, and a second
one fills two bytes. A read outside a transaction finds them. -/
theorem no_holes_sample : ∃ st d, exec (State.step sampleSb) sampleState
      [.ialloc 2, .writei 1 0 3 [7, 8], .writei 1 0 2 [5, 6]] = some st ∧
    ilock sampleSb st 1 = .ok d ∧ NoHoles sampleSb st.store ∧
    readiUsing (ballocOutside sampleSb) 2 st.store d 0 8 = .ok (some [5, 6], d, st.store) := by
  have hfacts : ∃ st ∈ exec (State.step sampleSb) sampleState
      [.ialloc 2, .writei 1 0 3 [7, 8], .writei 1 0 2 [5, 6]],
      ∃ d, ilock sampleSb st 1 = .ok d ∧ d.size = 2 ∧ contents st.store d = [5, 6] := by
    decide +kernel
  obtain ⟨st, hst, d, hd, hsize, hbytes⟩ := hfacts
  obtain ⟨hholes, hread⟩ := no_holes sampleState_wellFormed sampleState_noHoles (Run.of_exec hst)
  refine ⟨st, d, hst, hd, hholes, ?_⟩
  rw [hread 1 (by decide) d hd, hsize, hbytes]
  rfl

end EafitOs.FileSystem
