import EafitOs.FileSystem.NoHoles

/-!
# A write whose source copy fails

`writei` copies straight into the buffer of a block and logs it afterwards. Where the copy
fails within a block, the buffer keeps the bytes that came before and is not logged.
-/

namespace EafitOs.FileSystem

open Foundation Disk Function List Option

def Store.recycled (s : Store) : Store := { s with cached := fun _ => none }

/-- A call that reports `tot` bytes written at `off` has changed only these, as seen
through the buffers and after they have been recycled. A buffer it changed has been passed
to `log_write`, by the write itself or when the block was allocated. -/
structure ChangesOnly (sb : Superblock) (s : Store) (i off tot : Nat) (s' : Store) : Prop where
  cache : ∀ k, k < off ∨ off + tot ≤ k →
    (contents s' (dinode sb s' i))[k]? = (contents s (dinode sb s i))[k]?
  disk : ∀ k, k < off ∨ off + tot ≤ k →
    (contents s'.recycled (dinode sb s'.recycled i))[k]? = (contents s (dinode sb s i))[k]?
  logged : ∀ b, s'.bread b ≠ s.bread b →
    s'.cached b = none ∨ Event.alloc b ∈ s'.events.drop s.events.length

theorem Store.fill_cached (s : Store) (b : Nat) (d : Block) :
    (s.fill b d).cached = update s.cached b (some d) := rfl

theorem Store.write_logged (s : Store) (b : Nat) (d : Block) :
    (s.write b d).logged = update s.logged b d := by
  simp [write, logWrite, fill, bread]

theorem contents_congr {s s' : Store} (h : s'.bread = s.bread) (d : Dinode) :
    contents s' d = contents s d := by
  have hbyte : byteAt s' d = byteAt s d := by
    funext k
    simp only [byteAt, blockAt, h]
  rw [contents, contents, hbyte]

theorem dinode_congr {sb : Superblock} {s s' : Store} (h : s'.bread = s.bread) (i : Nat) :
    dinode sb s' i = dinode sb s i := by
  rw [dinode, dinode, h]

theorem getElem?_overwrite_outside {xs ys : List UInt8} {off k : Nat} (hoff : off ≤ xs.length)
    (hk : k < off ∨ off + ys.length ≤ k) : (overwrite xs off ys)[k]? = xs[k]? := by
  rw [getElem?_overwrite hoff, splice_outside (by rwa [length_map])]

section FailedWrite

variable {sb : Superblock} {start : Set Nat} {base : Nat → Dinode} {i : Nat} {s t last : Store}
  {d d' : Dinode} {off left tot : Nat} {src : List UInt8}

theorem Written.recycled_bread (h : Written sb start base i s d off left src tot t d' last)
    (hclean : ∀ b, s.cached b = none) (e : Dinode) :
    (iupdate sb last i e).recycled.bread = (iupdate sb t i e).bread := by
  have htclean : t.logged = t.bread := by
    funext b
    have hnone : t.cached b = none := by
      rcases h.logs.synced b with hnone | ⟨hsame, -⟩
      · exact hnone
      · rw [hsame, hclean]
    rw [Store.bread, hnone, getD_none]
  have hlast : last.logged = t.logged ∧
      last.bread (sb.iblock i) = t.bread (sb.iblock i) := by
    rcases h.ends with ⟨rfl, -⟩ | ⟨⟨b, hb, -, rfl⟩, -⟩
    · exact ⟨rfl, rfl⟩
    · have hlow := (h.mid.data_of_blockOf hb).1
      have hmeta := sb.iblock_lt_nmeta h.mid.lt
      exact ⟨rfl, by rw [Store.fill_bread, update_of_ne (by omega)]⟩
  have hread : (iupdate sb last i e).recycled.bread = (iupdate sb last i e).logged := rfl
  rw [hread, iupdate, iupdate, Store.write_logged, Store.write_bread, hlast.1, hlast.2, htclean]

theorem Written.stuck_start (h : Written sb start base i s d off left src tot t d' last)
    (hstuck : Stuck t d' (off + tot) (left - tot) (src.drop tot) last)
    (hbound : tot = 0 ∨ (off + tot) % bsize = 0) :
    max off ((off + src.length) / bsize * bsize) = off + tot ∧
      (off + src.length) / bsize = (off + tot) / bsize := by
  obtain ⟨b, -, hshort, -⟩ := hstuck
  have hle := h.le_length
  rw [length_drop] at hshort
  simp only [bsize] at hshort hbound ⊢
  omega

theorem agrees_outside {size : UInt32} {bs : List UInt8} (hh : NoHoles sb s)
    (hmid : Mid sb start (dinode sb s) i t d') (hlive : (dinode sb s i).type ≠ 0)
    (hw : Writes sb (dinode sb s) i s (dinode sb s i) off bs t d')
    (hoff : off ≤ (dinode sb s i).size.toNat)
    (hsize : size.toNat = max (dinode sb s i).size.toNat (off + tot)) (htot : tot ≤ bs.length)
    (hsame : ∀ k, off + tot ≤ k → k < off + bs.length → k < (dinode sb s i).size.toNat →
      bs[k - off]? = (contents s (dinode sb s i))[k]?)
    {k : Nat} (hk : k < off ∨ off + tot ≤ k) :
    (contents (iupdate sb t i { d' with size := size })
      (dinode sb (iupdate sb t i { d' with size := size }) i))[k]? =
        (contents s (dinode sb s i))[k]? := by
  have hlen : (contents s (dinode sb s i)).length = (dinode sb s i).size.toNat := length_span _ _ _
  have hoff' : off ≤ (contents s (dinode sb s i)).length := by
    rw [hlen]
    exact hoff
  have hfits : size.toNat ≤ max (dinode sb s i).size.toNat (off + bs.length) := by omega
  obtain ⟨-, -, -, -, hfiles⟩ := Good.files_iupdate hh hmid hlive hw hoff hfits
  have hself := congrFun hfiles i
  rw [update_self] at hself
  rw [(files_eq_some.mp hself).2.2, List.getElem?_take]
  split
  · by_cases hin : off + tot ≤ k ∧ k < off + bs.length
    · have hlt : k - off < bs.length := by omega
      rw [← hsame k hin.1 hin.2 (by omega), getElem?_overwrite hoff', splice, if_pos (by omega),
        List.getElem?_map, List.getElem?_eq_getElem hlt, map_some, getD_some]
    · exact getElem?_overwrite_outside hoff' (by omega)
  · exact (List.getElem?_eq_none (by omega)).symm

/-- The bytes of the source in the block where the copy fails are in the file already. -/
def TailMatches (s : Store) (d : Dinode) (off : Nat) (src : List UInt8) : Prop :=
  ∀ k v, max off ((off + src.length) / bsize * bsize) ≤ k → k < off + src.length →
    byteOf s d k = some v → src[k - off]? = some v

theorem overlay_eq_self {b : Block} {o : Nat} {bs : List UInt8}
    (h : ∀ p : Fin bsize, o ≤ p.val → p.val < o + bs.length → bs[p.val - o]? = some (b p)) :
    overlay b o bs = b := by
  funext p
  rw [overlay]
  split
  · rename_i hin
    rw [getD_eq_getElem?_getD, h p hin.1 hin.2, getD_some]
  · rfl

theorem Written.stuck_same (h : Written sb start base i s d off left src tot t d' last)
    (hmid : Mid sb start base i s d)
    (hstuck : Stuck t d' (off + tot) (left - tot) (src.drop tot) last)
    (hbound : tot = 0 ∨ (off + tot) % bsize = 0) (hmatch : TailMatches s d off src) {b : Nat}
    (hb : blockOf s d ((off + tot) / bsize) = some b) : last.bread b = s.bread b := by
  obtain ⟨hstart, hend⟩ := h.stuck_start hstuck hbound
  obtain ⟨c, hc, hshort, rfl⟩ := hstuck
  obtain rfl : c = b := some.inj (hc.symm.trans (h.blockOf_keep hmid hb))
  have hle := h.le_length
  -- The bytes of the block at the place of `p`.
  have hbyte : ∀ p : Fin bsize, byteOf s d ((off + tot) / bsize * bsize + p) = some (s.bread c p) ∧
      t.bread c p = s.bread c p := by
    intro p
    have hp := p.isLt
    have hdiv : ((off + tot) / bsize * bsize + p) / bsize = (off + tot) / bsize := by
      simp only [bsize] at hp ⊢
      omega
    have hfin : Fin.ofNat bsize ((off + tot) / bsize * bsize + p) = p := by
      apply Fin.ext
      simp only [Fin.ofNat, bsize] at hp ⊢
      omega
    have hold : byteOf s d ((off + tot) / bsize * bsize + p) = some (s.bread c p) := by
      rw [byteOf, hdiv, hb, map_some, hfin]
    refine ⟨hold, ?_⟩
    have hnew := h.writes.bytes ((off + tot) / bsize * bsize + p) (s.bread c p) (by
      rw [splice_outside, hold]
      rw [length_map, length_take_of_le hle]
      simp only [bsize] at hbound ⊢
      omega)
    rw [byteOf, hdiv, hc, map_some, hfin] at hnew
    exact some.inj hnew
  have hblock : t.bread c = s.bread c := funext fun p => (hbyte p).2
  rw [Store.fill_bread, update_self, hblock]
  apply overlay_eq_self
  intro p hlow hhigh
  rw [length_drop] at hhigh
  have hmod : (off + tot) / bsize * bsize + (off + tot) % bsize = off + tot := Nat.div_add_mod' _ _
  rw [List.getElem?_drop, ← hmatch _ _ (by omega) (by omega) (hbyte p).1]
  congr 1
  omega

/-- A write that stops early changes only what it reports, if the bytes of the source in
the block where the copy fails are in the file already. -/
theorem Good.changesOnly (h : Good sb start s) (hh : NoHoles sb s)
    (hclean : ∀ b, s.cached b = none) (hi : i < sb.ninodes) (hlive : (dinode sb s i).type ≠ 0)
    (hw : Written sb start (dinode sb s) i s (dinode sb s i) off left src tot t d' last)
    (hoff : off ≤ (dinode sb s i).size.toNat) {size : UInt32}
    (hsize : size.toNat = max (dinode sb s i).size.toNat (off + tot))
    (hmatch : left ≤ src.length ∨ TailMatches s (dinode sb s i) off src) :
    ChangesOnly sb s i off tot (iupdate sb last i { d' with size := size }) := by
  have hmid := h.mid hi rfl hlive
  have hle := hw.le_length
  have htake : (src.take tot).length = tot := length_take_of_le hle
  have hlogged : ∀ k, k < off ∨ off + tot ≤ k → _ := fun k hk =>
    agrees_outside hh hw.mid hlive hw.writes hoff hsize htake.ge (fun k _ _ _ => by omega) hk
  have htclean : ∀ b, t.cached b = none := by
    intro b
    rcases hw.logs.synced b with hnone | ⟨hsame, -⟩
    · exact hnone
    · rw [hsame, hclean]
  have hcached : ∀ b, last.cached b = none →
      (iupdate sb last i { d' with size := size }).cached b = none := by
    intro b hb
    rw [iupdate, Store.write_cached]
    by_cases hbi : b = sb.iblock i
    · rw [hbi, update_self]
    · rw [update_of_ne hbi, hb]
  have hdisk : ∀ k, k < off ∨ off + tot ≤ k →
      (contents (iupdate sb last i { d' with size := size }).recycled
        (dinode sb (iupdate sb last i { d' with size := size }).recycled i))[k]? =
          (contents s (dinode sb s i))[k]? := by
    intro k hk
    have hread := hw.recycled_bread hclean { d' with size := size }
    rw [dinode_congr hread, contents_congr hread]
    exact hlogged k hk
  rcases hw.ends with ⟨rfl, -⟩ | ⟨hstuck, hbound⟩
  · exact ⟨hlogged, hdisk, fun b _ => Or.inl (hcached b (htclean b))⟩
  · obtain ⟨hstart, hend⟩ := hw.stuck_start hstuck hbound
    have hmatch : TailMatches s (dinode sb s i) off src := by
      refine hmatch.resolve_left fun hlong => ?_
      obtain ⟨b, -, hshort, -⟩ := hstuck
      rw [length_drop] at hshort
      omega
    have hholds := Holds.of_complete (hh i hi hlive)
    refine ⟨fun k hk => agrees_outside hh hw.mid_last hlive (hw.writes_stuck hstuck) hoff hsize hle
      (fun k hlow hhigh hlt => ?_) hk, hdisk, fun b hchanged => ?_⟩
    · have hget := List.getElem?_eq_getElem (l := contents s (dinode sb s i)) (i := k)
        (by rw [hholds.length]; exact hlt)
      rw [hget]
      exact hmatch k _ (by omega) hhigh (hholds.byte k _ hget)
    · obtain ⟨c, hc, -, hfill⟩ := id hstuck
      by_cases hbc : b = c
      · subst hbc
        have hdata := iupdate_data (s := last) hi { d' with size := size }
          (hw.mid.data_of_blockOf hc).1
        cases hold : blockOf s (dinode sb s i) ((off + tot) / bsize) with
        | some b' =>
          obtain rfl : b' = b := some.inj ((hw.blockOf_keep hmid hold).symm.trans hc)
          exact absurd (hdata.trans (hw.stuck_same hmid hstuck hbound hmatch hold)) hchanged
        | none =>
          obtain ⟨x, hx, hxb⟩ := hw.mid.blockOf_eq_some.mp hc
          obtain ⟨es, hes, -, hnew⟩ := hw.logs.events
          right
          have hevents : (iupdate sb last i { d' with size := size }).events = s.events ++ es := by
            rw [hfill]
            exact hes
          rw [hevents, drop_left]
          exact hnew x b ((hmid.blockOf_eq_held hx).symm.trans hold) hxb
      · refine Or.inl (hcached b ?_)
        rw [hfill, Store.fill_cached, update_of_ne hbc, htclean]

/-- Where the bytes copied before the failure are not those in the file, a buffer has been
changed and not logged. -/
theorem Good.not_changesOnly (h : Good sb start s) (hd : Dense s (dinode sb s i))
    (hi : i < sb.ninodes) (hlive : (dinode sb s i).type ≠ 0)
    (hw : Written sb start (dinode sb s) i s (dinode sb s i) off left src tot t d' last)
    (hshort : src.length < left) {k : Nat} {v : UInt8}
    (hlow : max off ((off + src.length) / bsize * bsize) ≤ k) (hhigh : k < off + src.length)
    (hbyte : byteOf s (dinode sb s i) k = some v) (hne : src[k - off]? ≠ some v) (e : Dinode) :
    ¬ChangesOnly sb s i off tot (iupdate sb last i e) := by
  intro honly
  have hmid := h.mid hi rfl hlive
  have hle := hw.le_length
  obtain ⟨b, hb, rfl⟩ := map_eq_some_iff.mp hbyte
  have hdiv : k / bsize = (off + src.length) / bsize := by
    simp only [bsize] at hlow ⊢
    omega
  have hkeep := hw.blockOf_keep hmid hb
  rcases hw.ends with ⟨-, hstop⟩ | ⟨hstuck, hbound⟩
  · -- The loop cannot have run out of blocks before: they were all there.
    obtain ⟨-, hnone⟩ := hstop.resolve_left (by omega)
    have hmiss : blockOf s (dinode sb s i) ((off + tot) / bsize) = none := by
      cases hold : blockOf s (dinode sb s i) ((off + tot) / bsize) with
      | none => rfl
      | some c =>
        rw [hw.blockOf_keep hmid hold] at hnone
        cases hnone
    have hlate : (off + tot) / bsize ≤ k / bsize := by
      rw [hdiv]
      exact Nat.div_le_div_right (by omega)
    rw [hd _ _ hlate hmiss] at hb
    cases hb
  · obtain ⟨hstart, hend⟩ := hw.stuck_start hstuck hbound
    obtain ⟨c, hc, -, hfill⟩ := hstuck
    rw [hdiv, hend, hc] at hkeep
    obtain rfl := some.inj hkeep
    obtain ⟨x, hx, hxb⟩ := hmid.blockOf_eq_some.mp hb
    obtain ⟨es, hes, hold, -⟩ := hw.logs.events
    have hmeta := (hw.mid.data_of_blockOf hc).1
    have hiblock := sb.iblock_lt_nmeta hi
    have hmod : (Fin.ofNat bsize k).val = (off + tot) % bsize + (k - off - tot) := by
      have hval : (Fin.ofNat bsize k).val = k % bsize := rfl
      rw [hval]
      simp only [bsize] at hdiv hend ⊢
      omega
    have hchanged : (iupdate sb last i e).bread c ≠ s.bread c := by
      intro heq
      have hp := congrFun heq (Fin.ofNat bsize k)
      rw [iupdate_data hi e hmeta, hfill, Store.fill_bread, update_self, overlay, hmod,
        if_pos (by rw [length_drop]; omega), Nat.add_sub_cancel_left,
        getD_eq_getElem?_getD, List.getElem?_drop] at hp
      have hidx : tot + (k - off - tot) = k - off := by omega
      have hlt : k - off < src.length := by omega
      rw [hidx, List.getElem?_eq_getElem hlt, getD_some] at hp
      exact hne (by rw [List.getElem?_eq_getElem hlt, hp])
    rcases honly.logged c hchanged with hnone | halloc
    · rw [iupdate, Store.write_cached, update_of_ne (by omega), hfill,
        Store.fill_cached, update_self] at hnone
      cases hnone
    · have hevents : (iupdate sb last i e).events = s.events ++ es := by
        rw [hfill]
        exact hes
      rw [hevents, drop_left] at halloc
      exact hold x c hxb halloc

end FailedWrite

/-- A write from a source of which a first part can be read changes only what it reports
exactly if it is refused, if the source can be read as far as it goes, or if the bytes of
the source in the block where the copy fails are in the file already. -/
theorem failed_write_reports_iff {sb : Superblock} {start : Set Nat} {s : Store} {i : Nat}
    (h : Good sb start s) (hh : NoHoles sb s) (hd : Dense s (dinode sb s i))
    (hclean : ∀ b, s.cached b = none) (hi : i < sb.ninodes) (hlive : (dinode sb s i).type ≠ 0)
    (off n : UInt32) (src : List UInt8) :
    (∀ tot d' s', writei sb s i (dinode sb s i) off n src = .ok (some tot, d', s') →
      tot < n.toNat → ChangesOnly sb s i off.toNat tot s') ↔
    Rejected (dinode sb s i) off n ∨ n.toNat ≤ src.length ∨
      TailMatches s (dinode sb s i) off.toNat src := by
  have hmid := h.mid hi rfl hlive
  constructor
  · intro honly
    by_contra hno
    simp only [not_or, not_le] at hno
    obtain ⟨hin, hshort, htail⟩ := hno
    obtain ⟨_, hr, tot, t, d', last, size, hw, -, rfl⟩ := (hmid.writei_written hin src).exists_ok
    simp only [TailMatches, not_forall] at htail
    obtain ⟨k, v, hlow, hhigh, hbyte, hne⟩ := htail
    have hle := hw.le_length
    exact h.not_changesOnly hd hi hlive hw hshort hlow hhigh hbyte hne _
      (honly tot _ _ hr (by omega))
  · intro hcond tot d' s' hr _
    by_cases hin : Rejected (dinode sb s i) off n
    · rw [writei_rejected hin] at hr
      cases hr
    · obtain ⟨tot', t, d'', last, size, hw, hsize, heq⟩ :=
        (hmid.writei_written (E := fun _ => True) hin src).of_eq_ok hr
      obtain ⟨htot, hrest⟩ := Prod.mk.inj heq
      obtain ⟨-, rfl⟩ := Prod.mk.inj hrest
      obtain rfl := some.inj htot
      have hoff : off.toNat ≤ (dinode sb s i).size.toNat := by
        simp only [Rejected, not_or] at hin
        omega
      exact h.changesOnly hh hclean hi hlive hw hoff hsize (hcond.resolve_left hin)

theorem sampleFile_empty : (dinode sampleSb sampleFile 1).type ≠ 0 ∧
    (dinode sampleSb sampleFile 1).size = 0 ∧ ∀ k, (dinode sampleSb sampleFile 1).addrs k = 0 := by
  decide +kernel

theorem sampleFile_cached (b : Nat) : sampleFile.cached b = none := by
  rw [sampleFile, ialloc]
  split
  · rfl
  · rename_i i _
    rw [iupdate, Store.write_cached]
    by_cases hb : b = sampleSb.iblock i
    · rw [hb, update_self]
    · exact update_of_ne hb _ _

/-- Two bytes are to be written to an empty file and one can be read. The block is new, and
no byte of it is below the size. -/
theorem failed_write_sample : TailMatches sampleFile (dinode sampleSb sampleFile 1) 0 [7] ∧
    ∀ tot d' s',
      writei sampleSb sampleFile 1 (dinode sampleSb sampleFile 1) 0 2 [7] = .ok (some tot, d', s') →
      tot < 2 → ChangesOnly sampleSb sampleFile 1 0 tot s' := by
  obtain ⟨hlive, hsize, hzero⟩ := sampleFile_empty
  have htail : TailMatches sampleFile (dinode sampleSb sampleFile 1) 0 [7] := by
    intro k v _ _ hk
    rw [byteOf, blockOf_empty hzero, map_none] at hk
    cases hk
  exact ⟨htail, (failed_write_reports_iff sampleFile_good sampleFile_noHoles
    (Dense.ofBlocks.empty hsize hzero) sampleFile_cached (by decide) hlive 0 2 [7]).mpr
    (Or.inr (Or.inr htail))⟩

/-- Two bytes of a file are to be overwritten and one can be read. The call reports that
nothing was written; a read through the buffer sees the new byte, and the old one is back
once the buffer has been recycled. -/
theorem failed_write_unreported : ∃ st d' s',
    exec (State.step sampleSb) sampleState [.ialloc 2, .writei 1 0 2 [1, 2]] = some st ∧
    writei sampleSb st.store 1 (dinode sampleSb st.store 1) 0 2 [7] = .ok (some 0, d', s') ∧
    contents st.store (dinode sampleSb st.store 1) = [1, 2] ∧
    contents s' d' = [7, 2] ∧ contents s'.recycled d' = [1, 2] := by
  have hfacts : ∃ st ∈ exec (State.step sampleSb) sampleState [.ialloc 2, .writei 1 0 2 [1, 2]],
      ∃ r, writei sampleSb st.store 1 (dinode sampleSb st.store 1) 0 2 [7] = .ok (some 0, r) ∧
        contents st.store (dinode sampleSb st.store 1) = [1, 2] ∧
        contents r.2 r.1 = [7, 2] ∧ contents r.2.recycled r.1 = [1, 2] := by
    decide +kernel
  obtain ⟨st, hst, ⟨d', s'⟩, hfacts⟩ := hfacts
  exact ⟨st, d', s', hst, hfacts⟩

end EafitOs.FileSystem
