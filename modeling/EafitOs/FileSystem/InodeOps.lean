import EafitOs.FileSystem.Writing

/-!
# Block ownership under inode operations

Writing, truncating, allocating and freeing inodes keep the blocks owned as the bitmap
says, also where a write stops early. The only panic left is locking a free inode.
-/

namespace EafitOs.FileSystem

open Foundation Disk Function List

theorem Sound.bfree {sb : Superblock} {start : Set Nat} {s : Store} {val : Slot → Option Nat}
    (h : Sound sb start s val) {x : Slot} {b : Nat} (hx : val x = some b) {E : String → Prop} :
    Ends (bfree sb s b) (fun s' => Sound sb start s' (update val x none) ∧
      (∀ c, sb.nmeta ≤ c → s'.bread c = s.bread c) ∧
      ∀ j < sb.ninodes, s'.bread (sb.iblock j) = s.bread (sb.iblock j)) E := by
  refine (h.free hx).imp fun s' hs' => ⟨hs'.1, fun c hc => hs'.2 c ?_, fun j hj => hs'.2 _ ?_⟩
  · have := sb.bblock_lt (h.mem hx).2.1
    omega
  · have := sb.iblock_lt hj
    have := sb.bmapstart_le b
    omega

namespace Mid

variable {sb : Superblock} {start : Set Nat} {base : Nat → Dinode} {i : Nat} {s : Store}
  {d : Dinode} {E : String → Prop}

theorem truncAddr (h : Mid sb start base i s d) (k : Fin ndirect) :
    Ends (truncAddr sb (d, s) k) (fun r => Mid sb start base i r.2 r.1 ∧
      r.1.addrs = update d.addrs k.castSucc 0 ∧
      ∀ c, sb.nmeta ≤ c → r.2.bread c = s.bread c) E := by
  simp only [FileSystem.truncAddr]
  split
  · rename_i hne
    have hx : held sb s (update base i d) (.addr i k.castSucc) =
        some (d.addrs k.castSucc).toNat := (h.addr _).trans (ptr_of_ne hne)
    refine (h.sound.bfree hx).bind fun s' hs' => ?_
    obtain ⟨hsound, hdata, hino⟩ := hs'
    refine .ok ⟨⟨h.lt, h.live, ?_, h.inodes_congr hino⟩, rfl, hdata⟩
    have hheld : held sb s' (update base i d) = held sb s (update base i d) :=
      held_congr (fun _ _ => rfl) fun j b hj => hdata b (h.sound.mem hj).1
    rw [held_setAddr h.lt h.live, hheld, ptr_zero]
    · exact hsound
    · intro hk
      have := congrArg Fin.val hk
      have := k.isLt
      simp only [indirect, Fin.val_castSucc, Fin.val_last] at *
      omega
  · rename_i hzero
    have hzero : d.addrs k.castSucc = 0 := by simpa using hzero
    exact .ok ⟨h, by rw [← hzero, update_eq_self], fun _ _ => rfl⟩

theorem truncAddrs (h : Mid sb start base i s d) :
    Ends ((List.finRange ndirect).foldlM (FileSystem.truncAddr sb) (d, s)) (fun r =>
      Mid sb start base i r.2 r.1 ∧ (∀ k : Fin ndirect, r.1.addrs k.castSucc = 0) ∧
      ∀ c, sb.nmeta ≤ c → r.2.bread c = s.bread c) E := by
  have hloop := Ends.foldlM_visited (E := E)
    (fun ys (r : Dinode × Store) => Mid sb start base i r.2 r.1 ∧
      (∀ k ∈ ys, r.1.addrs k.castSucc = 0) ∧ ∀ c, sb.nmeta ≤ c → r.2.bread c = s.bread c)
    (nodup_finRange ndirect) (f := FileSystem.truncAddr sb) (a := (d, s))
    ⟨h, by simp, fun _ _ => rfl⟩ ?_
  · exact hloop.imp fun r hr => ⟨hr.1, fun k => hr.2.1 k (mem_finRange k), hr.2.2⟩
  · rintro ys k - - ⟨d', s'⟩ ⟨hmid, hys, hdata⟩
    refine (hmid.truncAddr k).imp fun r hr => ⟨hr.1, fun m hm => ?_,
      fun c hc => (hr.2.2 c hc).trans (hdata c hc)⟩
    rw [hr.2.1]
    rcases mem_append.mp hm with hm | hm
    · by_cases hmk : m.castSucc = k.castSucc
      · rw [hmk, update_self]
      · rw [update_of_ne hmk]
        exact hys m hm
    · obtain rfl : m = k := by simpa using hm
      rw [update_self]

/-- The slots while the entries in `ys` have been given back but are still in the
indirect block. -/
def dropEntries (val : Slot → Option Nat) (i : Nat) (ys : List (Fin nindirect)) :
    Slot → Option Nat :=
  fun x => if x ∈ ys.map (Slot.entry i) then none else val x

theorem dropEntries_append (val : Slot → Option Nat) (i : Nat) (ys : List (Fin nindirect))
    (m : Fin nindirect) : dropEntries val i (ys ++ [m]) =
      update (dropEntries val i ys) (.entry i m) none := by
  funext x
  by_cases hx : x = .entry i m
  · simp [hx, dropEntries]
  · simp [dropEntries, hx]

theorem truncEntries (h : Mid sb start base i s d) (hind : d.addrs indirect ≠ 0) :
    Ends ((List.finRange nindirect).foldlM
        (truncEntry sb (s.bread (d.addrs indirect).toNat)) s) (fun s' =>
      Sound sb start s' (dropEntries (held sb s (update base i d)) i
        (List.finRange nindirect)) ∧
      (∀ c, sb.nmeta ≤ c → s'.bread c = s.bread c) ∧
      ∀ j < sb.ninodes, s'.bread (sb.iblock j) = s.bread (sb.iblock j)) E := by
  refine Ends.foldlM_visited (fun ys s' =>
    Sound sb start s' (dropEntries (held sb s (update base i d)) i ys) ∧
    (∀ c, sb.nmeta ≤ c → s'.bread c = s.bread c) ∧
    ∀ j < sb.ninodes, s'.bread (sb.iblock j) = s.bread (sb.iblock j))
    (nodup_finRange nindirect) ⟨?_, by simp, by simp⟩ ?_
  · exact h.sound.congr fun x => by simp [dropEntries]
  · rintro ys m - hm s' ⟨hsound, hdata, hino⟩
    have hval : dropEntries (held sb s (update base i d)) i ys (.entry i m) =
        ptr (entry (s.bread (d.addrs indirect).toNat) m) := by
      have hnot : Slot.entry i m ∉ ys.map (Slot.entry i) := by simpa using hm
      rw [dropEntries, if_neg hnot, held_entry h.lt h.live, ptr_of_ne hind, Option.bind_some]
    simp only [truncEntry]
    split
    · rename_i hne
      rw [ptr_of_ne hne] at hval
      refine (hsound.bfree hval).imp fun s'' hs'' => ?_
      rw [dropEntries_append]
      exact ⟨hs''.1, fun c hc => (hs''.2.1 c hc).trans (hdata c hc),
        fun j hj => (hs''.2.2 j hj).trans (hino j hj)⟩
    · rename_i hzero
      have hzero : entry (s.bread (d.addrs indirect).toNat) m = 0 := by simpa using hzero
      rw [hzero, ptr_zero] at hval
      refine .ok ⟨?_, hdata, hino⟩
      rw [dropEntries_append, ← hval, update_eq_self]
      exact hsound

theorem truncIndirect (h : Mid sb start base i s d) :
    Ends (truncIndirect sb (d, s)) (fun r => Mid sb start base i r.2 r.1 ∧
      r.1.addrs = update d.addrs indirect 0 ∧
      ∀ c, sb.nmeta ≤ c → r.2.bread c = s.bread c) E := by
  simp only [FileSystem.truncIndirect]
  split
  · rename_i hne
    have haddr : dropEntries (held sb s (update base i d)) i (List.finRange nindirect)
        (.addr i indirect) = some (d.addrs indirect).toNat := by
      rw [dropEntries, if_neg (by simp), h.addr, ptr_of_ne hne]
    refine (h.truncEntries hne).bind fun s₁ hs₁ => ?_
    obtain ⟨hsound₁, hdata₁, hino₁⟩ := hs₁
    refine (hsound₁.bfree haddr).bind fun s₂ hs₂ => ?_
    obtain ⟨hsound₂, hdata₂, hino₂⟩ := hs₂
    refine .ok ⟨⟨h.lt, h.live, ?_, h.inodes_congr fun j hj => (hino₂ j hj).trans (hino₁ j hj)⟩, rfl,
      fun c hc => (hdata₂ c hc).trans (hdata₁ c hc)⟩
    refine hsound₂.congr fun x => ?_
    -- With the indirect pointer gone the entries that were given back no longer count.
    have hheld : ∀ y, held sb s₂ (update base i d) y =
        held sb s (update base i d) y := by
      refine congrFun (held_congr (fun _ _ => rfl) fun j b hj => ?_)
      have hb := (h.sound.mem hj).1
      exact (hdata₂ b hb).trans (hdata₁ b hb)
    have hlive : (d.setAddr indirect 0).type ≠ 0 := h.live
    cases x with
    | addr j k =>
      by_cases hx : Slot.addr j k = .addr i indirect
      · obtain ⟨rfl, rfl⟩ := Slot.addr.inj hx
        rw [held_addr h.lt hlive]
        simp [Dinode.setAddr]
      · rw [update_of_ne hx, dropEntries, if_neg (by simp), ← hheld]
        by_cases hj : j = i
        · subst hj
          have hk : k ≠ indirect := fun hk => hx (by rw [hk])
          rw [held_addr h.lt hlive, held_addr h.lt h.live]
          simp [Dinode.setAddr, hk]
        · simp only [held, update_of_ne hj]
    | entry j m =>
      rw [update_of_ne (by simp), dropEntries]
      by_cases hj : j = i
      · subst hj
        rw [if_pos (mem_map.mpr ⟨m, mem_finRange m, rfl⟩), held_entry h.lt hlive]
        simp [Dinode.setAddr]
      · rw [if_neg (by simp [Ne.symm hj]), ← hheld]
        simp only [held, update_of_ne hj]
  · rename_i hzero
    have hzero : d.addrs indirect = 0 := by simpa using hzero
    exact .ok ⟨h, by rw [← hzero, update_eq_self], fun _ _ => rfl⟩

theorem truncated (h : Mid sb start base i s d) :
    Ends ((List.finRange ndirect).foldlM (FileSystem.truncAddr sb) (d, s) >>=
        FileSystem.truncIndirect sb) (fun r =>
      Mid sb start base i r.2 r.1 ∧ (∀ k, r.1.addrs k = 0) ∧
      ∀ c, sb.nmeta ≤ c → r.2.bread c = s.bread c) E := by
  refine h.truncAddrs.bind ?_
  rintro ⟨d', s'⟩ ⟨hmid, hdir, hdata⟩
  refine hmid.truncIndirect.imp fun r hr => ⟨hr.1, fun k => ?_,
    fun c hc => (hr.2.2 c hc).trans (hdata c hc)⟩
  rw [hr.2.1]
  by_cases hk : k = indirect
  · rw [hk, update_self]
  · rw [update_of_ne hk]
    have hlt : k.val < ndirect := by
      have := k.isLt
      have hne : k.val ≠ ndirect := fun heq => hk (Fin.ext heq)
      omega
    exact hdir ⟨k, hlt⟩

end Mid

def Good (sb : Superblock) (start : Set Nat) (s : Store) : Prop :=
  Sound sb start s (held sb s (dinode sb s))

section Finish

variable {sb : Superblock} {start : Set Nat} {base : Nat → Dinode} {i : Nat} {s : Store}
  {d d' : Dinode} {E : String → Prop}

theorem held_update (htype : d'.type = d.type) (haddrs : d'.addrs = d.addrs) :
    held sb s (update base i d') = held sb s (update base i d) := by
  funext x
  cases x with
  | addr j k =>
    by_cases hj : j = i
    · subst hj
      simp only [held, update_self, htype, haddrs]
    · simp only [held, update_of_ne hj]
  | entry j m =>
    by_cases hj : j = i
    · subst hj
      simp only [held, update_self, htype, haddrs]
    · simp only [held, update_of_ne hj]

theorem held_update_empty (h : ∀ k, d.addrs k = 0)
    (h' : d'.type = 0 ∨ ∀ k, d'.addrs k = 0) :
    held sb s (update base i d') = held sb s (update base i d) := by
  funext x
  cases x with
  | addr j k =>
    by_cases hj : j = i
    · subst hj
      rcases h' with h' | h' <;> simp [held, h, h']
    · simp only [held, update_of_ne hj]
  | entry j m =>
    by_cases hj : j = i
    · subst hj
      rcases h' with h' | h' <;> simp [held, h, h']
    · simp only [held, update_of_ne hj]

theorem Good.mid (h : Good sb start s) (hi : i < sb.ninodes) (hd : d = dinode sb s i)
    (hlive : d.type ≠ 0) : Mid sb start (dinode sb s) i s d := by
  refine ⟨hi, hlive, ?_, fun _ _ => rfl⟩
  rw [hd, update_eq_self]
  exact h

theorem iupdate_data (hi : i < sb.ninodes) (d : Dinode) {c : Nat} (hc : sb.nmeta ≤ c) :
    (iupdate sb s i d).bread c = s.bread c := by
  have := sb.iblock_lt_nmeta hi
  rw [iupdate, Store.write_bread, update_of_ne (by omega)]

theorem marked_iupdate (hi : i < sb.ninodes) (d : Dinode) (b : Nat) :
    marked sb (iupdate sb s i d) b = marked sb s b := by
  have := sb.iblock_lt hi
  have := sb.bmapstart_le b
  apply marked_congr
  rw [iupdate, Store.write_bread, update_of_ne (by omega)]

theorem dinode_iupdate_base (hino : ∀ j < sb.ninodes, dinode sb s j = base j) (d' : Dinode)
    {j : Nat}
    (hj : j < sb.ninodes) : dinode sb (iupdate sb s i d') j = update base i d' j := by
  rw [dinode_iupdate]
  by_cases hji : j = i
  · rw [hji, update_self, update_self]
  · rw [update_of_ne hji, update_of_ne hji, hino j hj]

section

variable (h : Sound sb start s (held sb s (update base i d))) (hi : i < sb.ninodes)
  (hino : ∀ j < sb.ninodes, dinode sb s j = base j) (d' : Dinode)
  (hd : held sb s (update base i d') = held sb s (update base i d))
include h hi hino hd

theorem Sound.held_iupdate :
    held sb (iupdate sb s i d') (dinode sb (iupdate sb s i d')) =
      held sb s (update base i d) := by
  rw [← hd]
  refine held_congr (fun j hj => dinode_iupdate_base hino d' hj) fun j b hj => ?_
  rw [hd] at hj
  exact iupdate_data hi d' (h.mem hj).1

theorem Sound.iupdate :
    Good sb start (iupdate sb s i d') ∧
      ∀ j < sb.ninodes, dinode sb (iupdate sb s i d') j = update base i d' j := by
  refine ⟨?_, fun j hj => dinode_iupdate_base hino d' hj⟩
  rw [Good, h.held_iupdate hi hino d' hd]
  apply h.write
  intro c _
  have := sb.iblock_lt hi
  have := sb.bmapstart_le c
  omega

end

theorem Mid.itrunc (h : Mid sb start base i s d) :
    Ends (itrunc sb s i d) (fun r => Good sb start r.2 ∧
      (∀ j < sb.ninodes, dinode sb r.2 j = update base i r.1 j) ∧
      r.1.type ≠ 0 ∧ r.1.size = 0 ∧ (∀ k, r.1.addrs k = 0) ∧
      ∀ c, sb.nmeta ≤ c → r.2.bread c = s.bread c) E := by
  have hassoc : FileSystem.itrunc sb s i d =
      ((List.finRange ndirect).foldlM (FileSystem.truncAddr sb) (d, s) >>=
        FileSystem.truncIndirect sb) >>= fun r =>
          .ok ({ r.1 with size := 0 }, FileSystem.iupdate sb r.2 i { r.1 with size := 0 }) := by
    rw [bind_assoc]
    rfl
  rw [hassoc]
  refine h.truncated.bind fun r hr => .ok ?_
  obtain ⟨hmid, hzero, hdata⟩ := hr
  obtain ⟨hgood, hino⟩ := hmid.sound.iupdate hmid.lt hmid.inodes { r.1 with size := 0 }
    (held_update rfl rfl)
  exact ⟨hgood, hino, hmid.live, rfl, hzero,
    fun c hc => (iupdate_data hmid.lt _ hc).trans (hdata c hc)⟩

theorem Mid.iputFree (h : Mid sb start base i s d) :
    Ends (iputFree sb s i d) (fun s' => Good sb start s' ∧
      (∀ j < sb.ninodes, j ≠ i → dinode sb s' j = base j) ∧ (dinode sb s' i).type = 0 ∧
      ∀ c, sb.nmeta ≤ c → s'.bread c = s.bread c) E := by
  refine h.itrunc.bind fun r hr => .ok ?_
  obtain ⟨hgood, hino, hlive, -, hzero, hdata⟩ := hr
  have hi : r.1 = dinode sb r.2 i := by rw [hino i h.lt, update_self]
  have hmid := hgood.mid h.lt hi hlive
  obtain ⟨hgood', hino'⟩ := hmid.sound.iupdate hmid.lt hmid.inodes { r.1 with type := 0 }
    (held_update_empty hzero (Or.inl rfl))
  refine ⟨hgood', fun j hj hne => ?_, ?_, fun c hc => (iupdate_data h.lt _ hc).trans (hdata c hc)⟩
  · rw [hino' j hj, update_of_ne hne, hino j hj, update_of_ne hne]
  · rw [hino' i h.lt, update_self]

theorem Mid.writei (h : Mid sb start base i s d) (off n : UInt32) (src : List UInt8)
    (hbase : ∀ j < sb.ninodes, update base i d j = base j) (hg : Good sb start s) :
    Ends (writei sb s i d off n src) (fun r => Good sb start r.2.2 ∧ r.2.1.type ≠ 0 ∧
      ∀ j < sb.ninodes, dinode sb r.2.2 j = update base i r.2.1 j) E := by
  by_cases hin : Rejected d off n
  · rw [writei_rejected hin]
    exact .ok ⟨hg, h.live, fun j hj => (h.inodes j hj).trans (hbase j hj).symm⟩
  · refine (h.writei_written hin src).imp ?_
    rintro _ ⟨tot, t, d', last, size, hw, -, rfl⟩
    have hmid := hw.mid_last
    obtain ⟨hgood, hino⟩ := hmid.sound.iupdate hmid.lt hmid.inodes { d' with size := size }
      (held_update rfl rfl)
    exact ⟨hgood, hmid.live, hino⟩

theorem Good.ialloc (h : Good sb start s) (type : UInt16) :
    Good sb start (ialloc sb s type).2 ∧
      (∀ j < sb.ninodes, (dinode sb s j).type ≠ 0 →
        dinode sb (ialloc sb s type).2 j = dinode sb s j) ∧
      (∀ j < sb.ninodes, dinode sb (ialloc sb s type).2 j = dinode sb s j ∨
        dinode sb (ialloc sb s type).2 j = .fresh type) ∧
      ∀ c, sb.nmeta ≤ c → (ialloc sb s type).2.bread c = s.bread c := by
  simp only [FileSystem.ialloc]
  split
  · exact ⟨h, fun _ _ _ => rfl, fun _ _ => Or.inl rfl, fun _ _ => rfl⟩
  · rename_i i hfind
    have htype : (dinode sb s i).type = 0 := by simpa using List.find?_some hfind
    have hi : i < sb.ninodes := by
      have := mem_range'_1.mp (mem_of_find?_eq_some hfind)
      omega
    have hempty : held sb s (update (dinode sb s) i (.fresh type)) =
        held sb s (dinode sb s) := by
      have hfree : held sb s (update (dinode sb s) i (dinode sb s i)) =
          held sb s (update (dinode sb s) i (.fresh type)) :=
        held_update_empty (fun _ => rfl) (Or.inl htype)
      rw [← hfree, update_eq_self]
    have hstart : Sound sb start s (held sb s (update (dinode sb s) i (.fresh type))) := by
      rw [hempty]
      exact h
    obtain ⟨hgood, hino⟩ := hstart.iupdate hi (fun _ _ => rfl) (.fresh type) rfl
    refine ⟨hgood, fun j hj hne => ?_, fun j hj => ?_, fun c hc => iupdate_data hi _ hc⟩
    · have hji : j ≠ i := fun heq => hne (heq ▸ htype)
      rw [hino j hj, update_of_ne hji]
    · rw [hino j hj]
      by_cases hji : j = i
      · exact Or.inr (by rw [hji, update_self])
      · exact Or.inl (update_of_ne hji _ _)

end Finish

end EafitOs.FileSystem
