import EafitOs.Disk.BufferCache
import EafitOs.FileSystem.BlockOwnership
import EafitOs.Foundation.Alike
import EafitOs.RedoLog.Model

/-!
# The transaction that frees an inode

A block that goes through `log_write` takes a place in the log header, which has `LOGBLOCKS` of
them, and its buffer, one of `NBUF`, is pinned until the commit. Freeing an inode needs places
for the bitmap blocks over its blocks and for its own block. With room for them the transaction
does what it would do without the limits.
-/

namespace EafitOs.FileSystem

open Foundation Disk Function List RedoLog

/-- The blocks as a transaction has changed them, with the block numbers in the log header. -/
structure Txn where
  store : Store
  lh : List Nat

namespace Txn

/-- `bget` while the buffers of `held` and the pinned ones are in use. -/
def bget (t : Txn) (held : List Nat) (b : Nat) : Except String Unit :=
  if b ∉ held ∪ t.lh ∧ nbuf ≤ (held ∪ t.lh).length then .error "bget: no buffers" else .ok ()

/-- `log_write` of a block whose buffer now is as in `s`. -/
def logWrite (t : Txn) (b : Nat) (s : Store) : Except String Txn :=
  if logBlocks ≤ t.lh.length then .error "too big a transaction"
  else .ok ⟨s, if b ∈ t.lh then t.lh else t.lh ++ [b]⟩

def bfree (sb : Superblock) (held : List Nat) (t : Txn) (b : Nat) : Except String Txn := do
  t.bget held (sb.bblock b)
  let s ← FileSystem.bfree sb t.store b
  t.logWrite (sb.bblock b) s

def iupdate (sb : Superblock) (t : Txn) (i : Nat) (d : Dinode) : Except String Txn := do
  t.bget [] (sb.iblock i)
  t.logWrite (sb.iblock i) (FileSystem.iupdate sb t.store i d)

def truncAddr (sb : Superblock) (r : Dinode × Txn) (i : Fin ndirect) :
    Except String (Dinode × Txn) :=
  if r.1.addrs i.castSucc ≠ 0 then do
    let t ← r.2.bfree sb [] (r.1.addrs i.castSucc).toNat
    .ok (r.1.setAddr i.castSucc 0, t)
  else .ok r

/-- The loop over the entries of the indirect block `a` holds its buffer. -/
def truncEntry (sb : Superblock) (a : Nat) (data : Block) (t : Txn) (j : Fin nindirect) :
    Except String Txn :=
  if entry data j ≠ 0 then t.bfree sb [a] (entry data j).toNat else .ok t

def truncIndirect (sb : Superblock) (r : Dinode × Txn) : Except String (Dinode × Txn) :=
  if r.1.addrs indirect ≠ 0 then do
    let a := (r.1.addrs indirect).toNat
    r.2.bget [] a
    let t ← (List.finRange nindirect).foldlM (truncEntry sb a (r.2.store.bread a)) r.2
    let t ← t.bfree sb [] a
    .ok (r.1.setAddr indirect 0, t)
  else .ok r

def itrunc (sb : Superblock) (t : Txn) (i : Nat) (d : Dinode) : Except String (Dinode × Txn) := do
  let r ← (List.finRange ndirect).foldlM (truncAddr sb) (d, t)
  let (d, t) ← truncIndirect sb r
  let d := { d with size := 0 }
  let t ← t.iupdate sb i d
  .ok (d, t)

def iputFree (sb : Superblock) (t : Txn) (i : Nat) (d : Dinode) : Except String Txn := do
  let (d, t) ← t.itrunc sb i d
  t.iupdate sb i { d with type := 0 }

/-- The transaction has logged blocks of `B` only, and is at `s`, where other blocks are as in
`s₀`. -/
structure Within (B : Finset Nat) (s₀ : Store) (t : Txn) (s : Store) : Prop where
  store : t.store = s
  nodup : t.lh.Nodup
  sub : ∀ b ∈ t.lh, b ∈ B
  other : ∀ c, c ∉ B → s.bread c = s₀.bread c

namespace Within

variable {sb : Superblock} {B : Finset Nat} {s₀ s : Store} {t : Txn} {b : Nat} {held : List Nat}

section

variable (h : Within B s₀ t s)
include h

theorem length_le : t.lh.length ≤ B.card := by
  rw [← toFinset_card_of_nodup h.nodup]
  exact Finset.card_le_card fun b hb => h.sub b (mem_toFinset.mp hb)

theorem length_lt (hb : b ∈ B) (hnew : b ∉ t.lh) : t.lh.length < B.card := by
  rw [← toFinset_card_of_nodup h.nodup]
  refine Finset.card_lt_card ⟨fun c hc => h.sub c (mem_toFinset.mp hc), fun hsub => ?_⟩
  exact hnew (mem_toFinset.mp (hsub hb))

section

variable (hB : B.card < logBlocks)
include hB

theorem bget (hheld : held.length ≤ 1) (hb : held = [] ∨ b ∈ B) : t.bget held b = .ok () := by
  rw [Txn.bget, if_neg]
  rintro ⟨hnew, hfull⟩
  have hle := h.length_le
  have hunion : (held ∪ t.lh).length ≤ held.length + t.lh.length := by
    rw [← length_append]
    exact (union_sublist_append ..).length_le
  have hsizes : logBlocks = 30 ∧ nbuf = 30 := ⟨rfl, rfl⟩
  obtain rfl | hb := hb
  · simp only [length_nil] at hunion
    omega
  · have hlt := h.length_lt hb fun hmem => hnew (mem_union_right _ hmem)
    omega

theorem logWrite {s' : Store} (hb : b ∈ B) (hs' : ∀ c, c ≠ b → s'.bread c = s.bread c) :
    Alike (Within B s₀) (t.logWrite b s') (.ok s') := by
  have hle := h.length_le
  rw [Txn.logWrite, if_neg (by omega)]
  refine .ok ⟨rfl, ?_, fun c hc => ?_, fun c hc => ?_⟩
  · simp only
    split
    · exact h.nodup
    · rename_i hnew
      rw [← concat_eq_append]
      exact h.nodup.concat hnew
  · simp only at hc
    split at hc
    · exact h.sub c hc
    · obtain hc | hc := mem_append.mp hc
      · exact h.sub c hc
      · rw [mem_singleton.mp hc]
        exact hb
  · rw [hs' c fun heq => hc (heq ▸ hb)]
    exact h.other c hc

theorem bfree (hheld : held.length ≤ 1) (hb : sb.bblock b ∈ B) :
    Alike (Within B s₀) (t.bfree sb held b) (FileSystem.bfree sb s b) := by
  rw [Txn.bfree, h.bget hB hheld (.inr hb), ok_bind, h.store]
  simp only [FileSystem.bfree]
  split
  · refine h.logWrite hB hb fun c hc => ?_
    simp [hc]
  · exact .error _

theorem iupdate {i : Nat} (hi : sb.iblock i ∈ B) (d : Dinode) :
    Alike (Within B s₀) (t.iupdate sb i d) (.ok (FileSystem.iupdate sb s i d)) := by
  rw [Txn.iupdate, h.bget hB (by simp) (.inl rfl), ok_bind, h.store]
  refine h.logWrite hB hi fun c hc => ?_
  simp [FileSystem.iupdate, hc]

end

end

end Within

/-- What the loop over the direct blocks keeps: the inode is the same on both sides, its pointers
are to blocks under `B`, and its indirect pointer is `a`. -/
structure Trims (sb : Superblock) (B : Finset Nat) (s₀ : Store) (a : UInt32) (r : Dinode × Txn)
    (r' : Dinode × Store) : Prop where
  inode : r.1 = r'.1
  within : Within B s₀ r.2 r'.2
  under : ∀ k, r'.1.addrs k ≠ 0 → sb.bblock (r'.1.addrs k).toNat ∈ B
  last : r'.1.addrs indirect = a

section Free

variable {sb : Superblock} {B : Finset Nat} {s₀ s : Store} {i : Nat} {d : Dinode} {a : UInt32}
  {r : Dinode × Txn} {r' : Dinode × Store}

theorem Trims.truncAddr (h : Trims sb B s₀ a r r') (hB : B.card < logBlocks) (k : Fin ndirect) :
    Alike (Trims sb B s₀ a) (Txn.truncAddr sb r k) (FileSystem.truncAddr sb r' k) := by
  rw [Txn.truncAddr, FileSystem.truncAddr, h.inode]
  split
  · rename_i hset
    refine (h.within.bfree hB (by simp) (h.under _ hset)).bind fun t s hts =>
      .ok ⟨rfl, hts, fun m hm => ?_, ?_⟩
    · by_cases hmk : m = k.castSucc
      · simp [Dinode.setAddr, hmk] at hm
      · simp only [Dinode.setAddr, ne_eq, hmk, not_false_eq_true, update_of_ne] at hm ⊢
        exact h.under m hm
    · have hne : indirect ≠ k.castSucc := (Fin.castSucc_lt_last k).ne'
      simp only [Dinode.setAddr, ne_eq, hne, not_false_eq_true, update_of_ne]
      exact h.last
  · exact .ok h

theorem Trims.truncIndirect (h : Trims sb B s₀ a r r') (hB : B.card < logBlocks)
    (hdata : a ≠ 0 → a.toNat ∉ B ∧
      ∀ m : Fin nindirect, entry (s₀.bread a.toNat) m ≠ 0 →
        sb.bblock (entry (s₀.bread a.toNat) m).toNat ∈ B) :
    Alike (fun r r' => r.1 = r'.1 ∧ Within B s₀ r.2 r'.2) (Txn.truncIndirect sb r)
      (FileSystem.truncIndirect sb r') := by
  rw [Txn.truncIndirect, FileSystem.truncIndirect, h.inode]
  split
  · rename_i hset
    have hunder := h.under _ hset
    rw [h.last] at hset hunder ⊢
    obtain ⟨hout, hentries⟩ := hdata hset
    have hread : r.2.store.bread a.toNat = s₀.bread a.toNat := by
      rw [h.within.store, h.within.other _ hout]
    have hread' : r'.2.bread a.toNat = s₀.bread a.toNat := h.within.other _ hout
    simp only [h.within.bget hB (by simp) (.inl rfl), ok_bind, hread, hread']
    refine Alike.bind (R := Within B s₀) (Alike.foldlM h.within fun m _ t s hts => ?_)
      fun t s hts => (hts.bfree hB (by simp) hunder).bind fun t s hts => .ok ⟨rfl, hts⟩
    rw [Txn.truncEntry, FileSystem.truncEntry]
    split
    · exact hts.bfree hB (by simp) (hentries m ‹_›)
    · exact .ok hts
  · exact .ok ⟨h.inode, h.within⟩

/-- With room in the log for the bitmap blocks over the blocks of the inode and for its own
block, the transaction is not limited. -/
theorem iputFree_alike (hB : B.card < logBlocks) (hi : sb.iblock i ∈ B)
    (hunder : ∀ k, d.addrs k ≠ 0 → sb.bblock (d.addrs k).toNat ∈ B)
    (hdata : d.addrs indirect ≠ 0 → (d.addrs indirect).toNat ∉ B ∧
      ∀ m : Fin nindirect, entry (s.bread (d.addrs indirect).toNat) m ≠ 0 →
        sb.bblock (entry (s.bread (d.addrs indirect).toNat) m).toNat ∈ B) :
    Alike (fun t s' => t.store = s') (Txn.iputFree sb ⟨s, []⟩ i d)
      (FileSystem.iputFree sb s i d) := by
  have hstart : Trims sb B s (d.addrs indirect) (d, ⟨s, []⟩) (d, s) :=
    ⟨rfl, ⟨rfl, nodup_nil, nofun, fun _ _ => rfl⟩, hunder, rfl⟩
  have htrunc : Alike (fun r r' => r.1 = r'.1 ∧ Within B s r.2 r'.2) (Txn.itrunc sb ⟨s, []⟩ i d)
      (FileSystem.itrunc sb s i d) := by
    refine (Alike.foldlM hstart fun k _ r r' h => h.truncAddr hB k).bind fun r r' h =>
      (h.truncIndirect hB hdata).bind fun r r' h => ?_
    obtain ⟨heq, hw⟩ := h
    simp only [heq]
    exact (hw.iupdate hB hi _).bind fun t s' hts => .ok ⟨rfl, hts⟩
  refine htrunc.bind fun r r' h => ?_
  simp only [h.1]
  exact (h.2.iupdate hB hi _).imp fun t s' hts => hts.store

end Free

end Txn

end EafitOs.FileSystem
