import EafitOs.FileSystem.FailedWrite
import EafitOs.FileSystem.Transaction

/-!
# Reclaiming orphaned inodes at boot

After recovery `fsinit` scans the inodes and frees those that are allocated without a link,
each in a transaction of its own through the inode table. A crash between two transactions
leaves an image from which the next boot reaches the same disk. A transaction that needs more
blocks than the log has stops the machine, at this and at every later boot.
-/

namespace EafitOs.FileSystem

open Foundation Disk Function List

/-- `NINODE`, the entries of the inode table. -/
def ninode : Nat := 50

/-- The file system with the reference counts of the inode table. -/
structure Table where
  st : State
  ref : Nat → Nat

def Table.inUse (sb : Superblock) (t : Table) : Nat :=
  (List.range sb.ninodes).countP fun i => 0 < t.ref i

def iget (sb : Superblock) (t : Table) (i : Nat) : Except String Table :=
  if 0 < t.ref i then .ok { t with ref := update t.ref i (t.ref i + 1) }
  else if ninode ≤ t.inUse sb then .error "iget: no inodes"
  else .ok ⟨t.st.put i none t.st.store, update t.ref i 1⟩

def iput (sb : Superblock) (t : Table) (i : Nat) : Except String Table :=
  match t.st.icache i with
  | none => .ok { t with ref := update t.ref i (t.ref i - 1) }
  | some d =>
    if t.ref i = 1 ∧ d.nlink = 0 then do
      let op ← Txn.iputFree sb ⟨t.st.store, []⟩ i d
      .ok ⟨t.st.put i none op.store, update t.ref i (t.ref i - 1)⟩
    else .ok { t with ref := update t.ref i (t.ref i - 1) }

/-- The inode numbers `ireclaim` visits. -/
def inums (sb : Superblock) : List Nat := List.range' 1 (sb.ninodes - 1)

def Orphan (sb : Superblock) (s : Store) (i : Nat) : Prop :=
  0 < i ∧ i < sb.ninodes ∧ (dinode sb s i).type ≠ 0 ∧ (dinode sb s i).nlink = 0

/-- The bitmap blocks over the blocks of the inode leave two places in the log header: one for
the block of the inode, and one that the last `log_write` must find empty. -/
def FitsLog (sb : Superblock) (s : Store) (i : Nat) : Prop :=
  ∃ B : Finset Nat, B.card + 2 ≤ RedoLog.logBlocks ∧
    ∀ x b, x.inum = i → held sb s (dinode sb s) x = some b → sb.bblock b ∈ B

def reclaimOne (sb : Superblock) (s : Store) (i : Nat) : Except String Store :=
  if (dinode sb s i).type ≠ 0 ∧ (dinode sb s i).nlink = 0 then
    (Txn.iputFree sb ⟨s, []⟩ i (dinode sb s i)).map Txn.store
  else .ok s

def idle (s : Store) : Table := ⟨⟨s, fun _ => none, none⟩, fun _ => 0⟩

def holding (s : Store) (i : Nat) (d : Option Dinode) : Table :=
  ⟨⟨s, update (fun _ => none) i d, none⟩, update (fun _ => 0) i 1⟩

section Round

variable (sb : Superblock) (s : Store) (i : Nat)

end Round

def Clean (s : Store) : Prop := ∀ b, s.cached b = none

namespace Clean

variable {sb : Superblock} {s : Store} {E : String → Prop}

theorem recycled (h : Clean s) : s.recycled = s := by
  rw [Store.recycled, ← funext h]

theorem write (h : Clean s) (b : Nat) (d : Block) : Clean (s.write b d) := by
  intro c
  rw [Store.write_cached]
  by_cases hcb : c = b
  · rw [hcb, update_self]
  · rw [update_of_ne hcb, h c]

theorem bfree (h : Clean s) (b : Nat) : Ends (bfree sb s b) Clean fun _ => True := by
  simp only [FileSystem.bfree]
  split
  · exact .ok (h.write _ _)
  · exact .error trivial

theorem truncAddr {d : Dinode} (h : Clean s) (k : Fin ndirect) :
    Ends (truncAddr sb (d, s) k) (fun r => Clean r.2) fun _ => True := by
  rw [FileSystem.truncAddr]
  split
  · exact (h.bfree _).bind fun s' hs' => .ok hs'
  · exact .ok h

theorem truncIndirect {d : Dinode} (h : Clean s) :
    Ends (truncIndirect sb (d, s)) (fun r => Clean r.2) fun _ => True := by
  rw [FileSystem.truncIndirect]
  split
  · have hloop : Ends ((List.finRange nindirect).foldlM
        (truncEntry sb (s.bread (d.addrs indirect).toNat)) s) Clean fun _ => True := by
      refine Ends.foldlM Clean h fun m _ s' hs' => ?_
      rw [truncEntry]
      split
      · exact hs'.bfree _
      · exact .ok hs'
    exact hloop.bind fun s₁ hs₁ => (hs₁.bfree _).bind fun s₂ hs₂ => .ok hs₂
  · exact .ok h

theorem iputFree (h : Clean s) (i : Nat) (d : Dinode) :
    Ends (iputFree sb s i d) Clean fun _ => True := by
  have htrunc : Ends (itrunc sb s i d) (fun r => Clean r.2) fun _ => True := by
    refine Ends.bind (Ends.foldlM (fun r : Dinode × Store => Clean r.2) h
      fun k _ r hr => hr.truncAddr k) fun r hr => ?_
    exact (Clean.truncIndirect hr).bind fun r' hr' => .ok (hr'.write _ _)
  exact htrunc.bind fun r hr => .ok (hr.write _ _)

end Clean

structure Reclaimed (sb : Superblock) (start : Set Nat) (s : Store) (is : List Nat) (s' : Store) :
    Prop where
  good : Good sb start s'
  clean : Clean s'
  freed : ∀ i ∈ is, Orphan sb s i → (dinode sb s' i).type = 0
  others : ∀ j < sb.ninodes, ¬(j ∈ is ∧ Orphan sb s j) → dinode sb s' j = dinode sb s j
  data : ∀ b, sb.nmeta ≤ b → s'.bread b = s.bread b

section Scan

variable {sb : Superblock} {start : Set Nat} {s s' : Store} {is : List Nat} {i : Nat}

theorem mem_inums : i ∈ inums sb ↔ 0 < i ∧ i < sb.ninodes := by
  rw [inums, mem_range'_1]
  omega

theorem Reclaimed.held_eq (h : Reclaimed sb start s is s') (hs : Good sb start s) {x : Slot}
    (hsame : x.inum < sb.ninodes → dinode sb s' x.inum = dinode sb s x.inum) :
    held sb s' (dinode sb s') x = held sb s (dinode sb s) x := by
  cases x with
  | addr j k =>
    change j < sb.ninodes → dinode sb s' j = dinode sb s j at hsame
    simp only [FileSystem.held]
    by_cases hlt : j < sb.ninodes
    · rw [hsame hlt]
    · rw [if_neg fun hlive => hlt hlive.1, if_neg fun hlive => hlt hlive.1]
  | entry j m =>
    change j < sb.ninodes → dinode sb s' j = dinode sb s j at hsame
    simp only [FileSystem.held]
    by_cases hlive : j < sb.ninodes ∧ (dinode sb s j).type ≠ 0
    · rw [hsame hlive.1, if_pos hlive, if_pos hlive]
      refine Option.bind_congr fun b hb => ?_
      have hslot : FileSystem.held sb s (dinode sb s) (.addr j indirect) = some b := by
        simp only [FileSystem.held]
        rw [if_pos hlive, hb]
      rw [h.data b (hs.mem hslot).1]
    · rw [if_neg hlive, if_neg]
      rintro ⟨hlt, htype⟩
      rw [hsame hlt] at htype
      exact hlive ⟨hlt, htype⟩

/-- The transaction of an orphan that fits the log frees it as `iputFree` does. -/
theorem Good.freeTxn (h : Good sb start s) (hi : i < sb.ninodes) (hlive : (dinode sb s i).type ≠ 0)
    (hfits : FitsLog sb s i) :
    Alike (fun t s' => t.store = s') (Txn.iputFree sb ⟨s, []⟩ i (dinode sb s i))
      (iputFree sb s i (dinode sb s i)) := by
  obtain ⟨B, hcard, hB⟩ := hfits
  have haddr : ∀ k, (dinode sb s i).addrs k ≠ 0 →
      held sb s (dinode sb s) (.addr i k) = some ((dinode sb s i).addrs k).toNat := fun k hk => by
    simp only [FileSystem.held]
    rw [if_pos ⟨hi, hlive⟩, ptr_of_ne hk]
  have hmeta : ∀ {x b}, x.inum = i → held sb s (dinode sb s) x = some b →
      sb.bblock b ∈ insert (sb.iblock i) (B.filter (· < sb.nmeta)) := fun hx hb =>
    Finset.mem_insert_of_mem (Finset.mem_filter.mpr ⟨hB _ _ hx hb, sb.bblock_lt (h.mem hb).2.1⟩)
  refine Txn.iputFree_alike (B := insert (sb.iblock i) (B.filter (· < sb.nmeta))) ?_
    (Finset.mem_insert_self ..) (fun k hk => hmeta rfl (haddr k hk)) fun hind =>
      ⟨?_, fun m hm => ?_⟩
  · have hinsert := Finset.card_insert_le (sb.iblock i) (B.filter (· < sb.nmeta))
    have hfilter := Finset.card_filter_le B (· < sb.nmeta)
    omega
  · have hdata := (h.mem (haddr _ hind)).1
    have hino := sb.iblock_lt_nmeta hi
    rw [Finset.mem_insert, Finset.mem_filter]
    omega
  · refine hmeta (x := .entry i m) rfl ?_
    simp only [FileSystem.held]
    rw [if_pos ⟨hi, hlive⟩, ptr_of_ne hind, Option.bind_some, ptr_of_ne hm]

theorem Reclaimed.fits (h : Reclaimed sb start s is s') (hs : Good sb start s)
    (hfits : ∀ i, Orphan sb s i → FitsLog sb s i) (ho : Orphan sb s' i) : FitsLog sb s' i := by
  obtain ⟨hpos, hlt, hlive, hlink⟩ := ho
  have hkeep : ¬(i ∈ is ∧ Orphan sb s i) := fun hmem => hlive (h.freed i hmem.1 hmem.2)
  have hsame := h.others i hlt hkeep
  obtain ⟨B, hcard, hB⟩ := hfits i ⟨hpos, hlt, hsame ▸ hlive, hsame ▸ hlink⟩
  refine ⟨B, hcard, fun x b hx hb => hB x b hx ?_⟩
  rw [← hb]
  exact (h.held_eq hs fun _ => hx ▸ hsame).symm

theorem Reclaimed.round (h : Reclaimed sb start s is s') (hi : i ∈ inums sb) (hnew : i ∉ is)
    (hs : Good sb start s) (hfits : ∀ i, Orphan sb s i → FitsLog sb s i) :
    Ends (reclaimOne sb s' i) (Reclaimed sb start s (is ++ [i])) fun _ => False := by
  obtain ⟨hpos, hlt⟩ := mem_inums.mp hi
  have hsame : dinode sb s' i = dinode sb s i := h.others i hlt fun hmem => hnew hmem.1
  rw [reclaimOne]
  split
  · rename_i horphan
    have hfree := (h.good.mid hlt rfl horphan.1).iputFree (E := fun _ => False)
    obtain ⟨u, hrun, ⟨hgood, hother, hzero, hdata⟩, hclean⟩ :=
      (hfree.and (h.clean.iputFree i _)).exists_ok
    have htxn := h.good.freeTxn hlt horphan.1 (h.fits hs hfits ⟨hpos, hlt, horphan⟩)
    rw [hrun] at htxn
    obtain ⟨t, ht, rfl⟩ := htxn.exists_ok
    rw [ht]
    refine .ok ?_
    refine ⟨hgood, hclean, fun j hj hjo => ?_, fun j hj hjo => ?_,
      fun b hb => (hdata b hb).trans (h.data b hb)⟩
    · by_cases hji : j = i
      · rw [hji, hzero]
      · rw [hother j hjo.2.1 hji]
        refine h.freed j ?_ hjo
        simpa [hji] using hj
    · have hji : j ≠ i := by
        rintro rfl
        rw [hsame] at horphan
        exact hjo ⟨by simp, hpos, hlt, horphan⟩
      rw [hother j hj hji]
      exact h.others j hj fun hmem => hjo ⟨by simp [hmem.1], hmem.2⟩
  · rename_i hkeep
    rw [hsame] at hkeep
    refine .ok ⟨h.good, h.clean, fun j hj hjo => ?_, fun j hj hjo => ?_, h.data⟩
    · refine h.freed j ?_ hjo
      rcases mem_append.mp hj with hmem | hmem
      · exact hmem
      · obtain rfl := mem_singleton.mp hmem
        exact absurd hjo.2.2 hkeep
    · exact h.others j hj fun hmem => hjo ⟨mem_append_left _ hmem.1, hmem.2⟩

theorem Good.scan (h : Good sb start s) (hclean : Clean s)
    (hfits : ∀ i, Orphan sb s i → FitsLog sb s i) (hsub : ∀ i ∈ is, i ∈ inums sb)
    (hnodup : is.Nodup) :
    Ends (is.foldlM (reclaimOne sb) s) (Reclaimed sb start s is) fun _ => False := by
  refine Ends.foldlM_visited (Reclaimed sb start s) hnodup
    ⟨h, hclean, by simp, fun _ _ _ => rfl, fun _ _ => rfl⟩ ?_
  exact fun ys i hi hnew s' hs' => hs'.round (hsub i hi) hnew h hfits

theorem Reclaimed.again (h : Reclaimed sb start s is s') (hsub : ∀ i ∈ is, i ∈ inums sb) :
    is.foldlM (reclaimOne sb) s' = .ok s' := by
  have hskip : ∀ i ∈ is, reclaimOne sb s' i = .ok s' := by
    intro i hi
    obtain ⟨hpos, hlt⟩ := mem_inums.mp (hsub i hi)
    rw [reclaimOne, if_neg]
    rintro ⟨hlive, hlink⟩
    by_cases horphan : Orphan sb s i
    · exact hlive (h.freed i hi horphan)
    · rw [h.others i hlt fun hmem => horphan hmem.2] at hlive hlink
      exact horphan ⟨hpos, hlt, hlive, hlink⟩
  clear h hsub
  induction is with
  | nil => rfl
  | cons i is ih =>
    rw [foldlM_cons, hskip i mem_cons_self, ok_bind]
    exact ih fun j hj => hskip j (mem_cons_of_mem i hj)

theorem Reclaimed.held (h : Reclaimed sb start s (inums sb) s') (hs : Good sb start s) (x : Slot) :
    (Orphan sb s x.inum → held sb s' (dinode sb s') x = none) ∧
      (¬Orphan sb s x.inum → held sb s' (dinode sb s') x = held sb s (dinode sb s) x) := by
  refine ⟨fun ho => ?_, fun ho => h.held_eq hs fun hlt => h.others _ hlt fun hmem => ho hmem.2⟩
  have hgone := h.freed _ (mem_inums.mpr ⟨ho.1, ho.2.1⟩) ho
  cases x with
  | addr j k => exact if_neg fun hlive => hlive.2 hgone
  | entry j m => exact if_neg fun hlive => hlive.2 hgone

theorem Reclaimed.marked_iff (h : Reclaimed sb start s (inums sb) s') (hs : Good sb start s)
    {b : Nat} (hb : b < sb.size) : marked sb s' b = true ↔ marked sb s b = true ∧
      ∀ x : Slot, Orphan sb s x.inum → FileSystem.held sb s (dinode sb s) x ≠ some b := by
  by_cases hmeta : b < sb.nmeta
  · refine iff_of_true (h.good.reserved b hmeta) ⟨hs.reserved b hmeta, fun x _ hx => ?_⟩
    have hdata := (hs.mem hx).1
    omega
  · have hblock : b ∈ sb.dataBlocks := ⟨not_lt.mp hmeta, hb⟩
    constructor
    · intro hmarked
      obtain ⟨y, hy⟩ := h.good.owns.held ⟨hblock, hmarked⟩
      have hyo : ¬Orphan sb s y.inum := by
        intro hyo
        rw [(h.held hs y).1 hyo] at hy
        cases hy
      rw [(h.held hs y).2 hyo] at hy
      refine ⟨(hs.owns.mem hy).2, fun x hxo hx => ?_⟩
      exact hyo (hs.owns.inj hx hy ▸ hxo)
    · rintro ⟨hmarked, hnot⟩
      obtain ⟨y, hy⟩ := hs.owns.held ⟨hblock, hmarked⟩
      have hyo : ¬Orphan sb s y.inum := fun hyo => hnot y hyo hy
      rw [← (h.held hs y).2 hyo] at hy
      exact (h.good.owns.mem hy).2

section

variable (h : Good sb start s) (hclean : Clean s) (hfits : ∀ i, Orphan sb s i → FitsLog sb s i)
include h hclean hfits

end

end Scan

section Spread

variable {n : Nat}

end Spread

end EafitOs.FileSystem
