import EafitOs.FileSystem.MkfsImage

/-!
# The image that `mkfs` leaves

The kernel can rely on the image if the inodes were enough, the root directory does not
end at the end of a block before its size is rounded up, and no name hides another.
-/

namespace EafitOs.FileSystem.Mkfs

open Foundation Disk Directory Appending Function List Option

namespace Image

/-- The block that `bmap` finds for an index of a file. -/
def block (m : Image) (i n : Nat) : Option Nat :=
  if n < maxfile then held sb m.store m.inode (slot i n) else none

def contents (m : Image) (i : Nat) : List UInt8 :=
  (range (m.inode i).size.toNat).map fun off =>
    ((m.block i (off / bsize)).map fun b => m.sector b (Fin.ofNat bsize off)).getD 0

end Image

/-- A `struct dirent` in memory, with the name up to the first zero. -/
def direntOf (bs : List UInt8) : Dirent :=
  ⟨(bs.getD 0 0).toNat + 256 * (bs.getD 1 0).toNat, (bs.drop 2).takeWhile (· ≠ 0), 0⟩

/-- The first `k` entries of a directory with the given bytes. -/
def entriesOf : Nat → List UInt8 → List Dirent
  | 0, _ => []
  | k + 1, bs => direntOf (bs.take 16) :: entriesOf k (bs.drop 16)

/-- The inode number that `dirlookup` finds for a name in the root directory. -/
def Image.lookup (m : Image) (name : Name) : Option Nat :=
  let bs := m.contents rootino
  (findEntry name (entriesOf (bs.length / 16) bs) 0).map fun e => e.2.inum

structure WellMade (m : Image) (inputs : List Input) : Prop where
  super : ∀ f ∈ superFields, getLE (m.sector 1) f.off f.len = f.val
  blocks : ∀ x b, held sb m.store m.inode x = some b → sb.nmeta ≤ b ∧ b < sb.size
  once : ∀ x y b, held sb m.store m.inode x = some b → held sb m.store m.inode y = some b → x = y
  bitmap : ∀ b < bpb, marked sb m.store b ↔
    b < sb.nmeta ∨ ∃ x, held sb m.store m.inode x = some b
  mapped : ∀ i < sb.ninodes, (m.inode i).type ≠ 0 →
    ∀ n, n * bsize < (m.inode i).size.toNat → (m.block i n).isSome
  inums : ∀ i, 1 ≤ i → i < m.freeinode →
    i < sb.ninodes ∧ sb.inodestart ≤ sb.iblock i ∧ sb.iblock i < sb.bmapstart
  names : ∀ x ∈ inputs, ∃ i, m.lookup x.shortname = some i ∧ m.contents i = x.bytes

def rootEntries (inputs : List Input) : List (Nat × Name) :=
  (rootino, dot) :: (rootino, dotdot) :: inputs.mapIdx fun k x => (k + 2, x.shortname)

def rootData (inputs : List Input) : List UInt8 :=
  (rootEntries inputs).flatMap fun e => dirent e.1 e.2

def rootBytes (inputs : List Input) : List UInt8 :=
  rootData inputs ++ replicate
    (((rootData inputs).length / bsize + 1) * bsize - (rootData inputs).length) 0

/-- What the first entry of the root directory with a name stands for. -/
def firstNamed (inputs : List Input) (name : Name) : Option (List UInt8) :=
  (((dot, rootBytes inputs) :: (dotdot, rootBytes inputs) ::
    inputs.map fun x => (x.shortname, x.bytes)).find? fun e => e.1 = name).map Prod.snd

/-- There are inodes for all inputs, the root directory ends inside a block, and the first
entry with the name of an input has the bytes of the input. -/
structure Suitable (inputs : List Input) : Prop where
  inodes : inputs.length + 1 < ninodes
  root : (inputs.length + 2) % (bsize / 16) ≠ 0
  named : ∀ x ∈ inputs, firstNamed inputs x.shortname = some x.bytes

/-- The contents of the inodes before the root directory is rounded up. -/
def contentOf (inputs : List Input) (i : Nat) : List UInt8 :=
  if i = rootino then rootData inputs
  else if i < 2 then []
  else ((inputs[i - 2]?).map Input.bytes).getD []

theorem length_dirent (inum : Nat) {name : Name} (h : name.length ≤ dirsiz) :
    (dirent inum name).length = 16 := by
  simp only [dirent, length_append, length_cons, length_nil, length_replicate]
  simp only [dirsiz] at h ⊢
  omega

def Input.Named (x : Input) : Prop := x.shortname.length ≤ dirsiz

theorem length_rootData {inputs : List Input} (h : ∀ x ∈ inputs, x.Named) :
    (rootData inputs).length = 16 * (inputs.length + 2) := by
  have hall : ∀ e ∈ rootEntries inputs, (dirent e.1 e.2).length = 16 := by
    intro e he
    simp only [rootEntries, mem_cons, mem_mapIdx] at he
    obtain rfl | rfl | ⟨k, hk, rfl⟩ := he
    · rfl
    · rfl
    · exact length_dirent _ (h _ (getElem_mem hk))
  rw [rootData, length_flatMap, map_congr_left hall, map_const',
    sum_replicate_nat]
  simp only [rootEntries, length_cons, length_mapIdx]
  omega

theorem contentOf_root (inputs : List Input) : contentOf inputs rootino = rootData inputs :=
    if_pos rfl

theorem contentOf_file {inputs : List Input} {k : Nat} (hk : k < inputs.length) :
    contentOf inputs (k + 2) = inputs[k].bytes := by
  simp [contentOf, rootino, hk]

theorem rootEntries_append (inputs : List Input) (x : Input) :
    rootEntries (inputs ++ [x]) = rootEntries inputs ++ [(inputs.length + 2, x.shortname)] := by
  simp [rootEntries, mapIdx_append]

theorem contentOf_append (inputs : List Input) (x : Input) : contentOf (inputs ++ [x]) =
    update (update (contentOf inputs) rootino
      (contentOf inputs rootino ++ dirent (inputs.length + 2) x.shortname))
      (inputs.length + 2) x.bytes := by
  funext i
  by_cases hlast : i = inputs.length + 2
  · rw [hlast, update_self, contentOf_file (by simp)]
    simp
  · rw [update_of_ne hlast]
    by_cases hroot : i = rootino
    · rw [hroot, update_self, contentOf_root, contentOf_root, rootData, rootEntries_append,
        flatMap_append]
      simp [rootData]
    · rw [update_of_ne hroot, contentOf, contentOf, if_neg hroot, if_neg hroot]
      split
      · rfl
      · rename_i hge
        congr 2
        by_cases hlt : i - 2 < inputs.length
        · rw [List.getElem?_append_left hlt]
        · rw [List.getElem?_eq_none (by simp; omega), List.getElem?_eq_none (by omega)]

theorem clear_sectors (k : Nat) (hk : k ≤ fssize) :
    (range k).foldl (fun m i => Image.wsect m i fun _ => 0) ⟨fun _ _ => 0, 0, 1, nmeta⟩ =
      ⟨fun _ _ => 0, k, 1, nmeta⟩ := by
  induction k with
  | zero => rfl
  | succ k ih =>
    rw [range_succ, foldl_append, ih (by omega)]
    simp [Image.wsect, seek_of_lt (show k ≤ fssize by omega)]

theorem blank_eq : blank = ⟨update (fun _ _ => 0) 1 (setFields (fun _ => 0) 0 superFields),
    fssize, 1, nmeta⟩ := by
  rw [blank, clear_sectors fssize (Nat.le_refl _)]
  rfl

theorem made_blank : Made blank fun _ => [] := by
  have hsector : blank.sector =
      update (fun _ => (fun _ => 0 : Block)) 1 (setFields (fun _ => 0) 0 superFields) := by
    rw [blank_eq]
  have htype : ∀ i < ninodes, (blank.inode i).type = 0 := by
    intro i hi
    have hne : sb.iblock i ≠ 1 := by
      have : sb.inodestart ≤ sb.iblock i := Nat.le_add_left _ _
      have : 1 < sb.inodestart := by decide
      omega
    have hzero : blank.store.bread (sb.iblock i) = fun _ => 0 := by
      rw [Image.bread_store, hsector, update_of_ne hne]
    rw [Image.inode, dinode, hzero]
    simp [Dinode.get, getLE, getByte]
  have hheld : ∀ x, held sb blank.store blank.inode x = none := by
    intro x
    cases x with
    | addr i k => exact if_neg fun h => h.2 (htype i h.1)
    | entry i k => exact if_neg fun h => h.2 (htype i h.1)
  have hblock : blank.freeblock = nmeta := by rw [blank_eq]
  have hino : blank.freeinode = 1 := by rw [blank_eq]
  refine ⟨⟨by rw [blank_eq], by rw [hino]; decide, by rw [hblock]; decide, ?_, ?_, ?_⟩, ?_, ?_⟩
  · rw [hsector, update_self]
  · intro i hi
    rw [htype i hi, hino]
    simp only [ne_eq, not_true_eq_false, false_iff]
    omega
  · rw [hblock]
    refine ⟨Nat.le_refl _, ⟨?_, ?_, ?_⟩, ?_, ?_, ?_, ?_⟩
    · intro x y b hx
      rw [hheld] at hx
      cases hx
    · intro x b hx
      rw [hheld] at hx
      cases hx
    · rintro b ⟨hlow, hhigh⟩
      omega
    · intro b hlow _
      have hne : b ≠ 1 := by
        have : 1 < nmeta := by decide
        omega
      rw [hsector, update_of_ne hne]
    · intro i n _
      simp [hheld, blocksFor, bsize]
    · intro i n _ b hb
      rw [hheld] at hb
      cases hb
    · intro i
      simp [blocksFor, bsize]
  · intro i hlow hhigh
    omega
  · intro i _
    rfl

section Counting

variable {m m' : Image}

theorem winode_freeinode {inum : Nat} {d : Dinode} (h : m.winode inum d = some m') :
    m'.freeinode = m.freeinode := by
  obtain ⟨buf, -, heq⟩ := bind_eq_some_iff.mp h
  obtain rfl := some.inj heq
  rfl

theorem fillAddr_freeinode (m : Image) (d : Dinode) (k : Fin (ndirect + 1)) :
    (m.fillAddr d k).2.freeinode = m.freeinode := by
  rw [Image.fillAddr]
  split <;> rfl

theorem fillEntry_freeinode {a k : Nat} {x : UInt32} (h : m.fillEntry a k = some (x, m')) :
    m'.freeinode = m.freeinode := by
  obtain ⟨ind, -, heq⟩ := bind_eq_some_iff.mp h
  split at heq
  · obtain ⟨-, rfl⟩ := Prod.mk.inj (some.inj heq)
    rfl
  · obtain ⟨-, rfl⟩ := Prod.mk.inj (some.inj heq)
    rfl

theorem blockFor_freeinode {d d' : Dinode} {n : Nat} {x : UInt32}
    (h : m.blockFor d n = some (x, d', m')) : m'.freeinode = m.freeinode := by
  rw [Image.blockFor] at h
  split at h
  · obtain ⟨-, hrest⟩ := Prod.mk.inj (some.inj h)
    obtain ⟨-, rfl⟩ := Prod.mk.inj hrest
    exact fillAddr_freeinode m d _
  · obtain ⟨⟨y, m₁⟩, hentry, heq⟩ := bind_eq_some_iff.mp h
    obtain ⟨-, hrest⟩ := Prod.mk.inj (some.inj heq)
    obtain ⟨-, rfl⟩ := Prod.mk.inj hrest
    exact (fillEntry_freeinode hentry).trans (fillAddr_freeinode m d _)

theorem iappendLoop_freeinode {fuel off off' : Nat} {d d' : Dinode} {p : List UInt8}
    (h : Image.iappendLoop fuel m d off p = some (off', d', m')) : m'.freeinode = m.freeinode := by
  induction fuel generalizing m d off p with
  | zero =>
    obtain ⟨-, hrest⟩ := Prod.mk.inj (some.inj h)
    obtain ⟨-, rfl⟩ := Prod.mk.inj hrest
    rfl
  | succ fuel ih =>
    rw [Image.iappendLoop] at h
    split at h
    · obtain ⟨-, hrest⟩ := Prod.mk.inj (some.inj h)
      obtain ⟨-, rfl⟩ := Prod.mk.inj hrest
      rfl
    · split at h
      · cases h
      · obtain ⟨⟨x, d₁, m₁⟩, hblock, hrest⟩ := bind_eq_some_iff.mp h
        obtain ⟨buf, -, hrest⟩ := bind_eq_some_iff.mp hrest
        exact (ih hrest).trans (blockFor_freeinode hblock : m₁.freeinode = m.freeinode)

theorem iappend_freeinode {inum : Nat} {p : List UInt8} (h : m.iappend inum p = some m') :
    m'.freeinode = m.freeinode := by
  obtain ⟨din, -, hrest⟩ := bind_eq_some_iff.mp h
  obtain ⟨⟨off, d, m₁⟩, hloop, hw⟩ := bind_eq_some_iff.mp hrest
  exact (winode_freeinode hw).trans (iappendLoop_freeinode hloop)

theorem ialloc_freeinode {type : UInt16} {inum : Nat} (h : m.ialloc type = some (inum, m')) :
    inum = m.freeinode ∧ m'.freeinode = m.freeinode + 1 := by
  obtain ⟨m₁, hw, heq⟩ := bind_eq_some_iff.mp h
  obtain ⟨rfl, rfl⟩ := Prod.mk.inj (some.inj heq)
  exact ⟨rfl, winode_freeinode hw⟩

theorem appendChunks_freeinode {inum : Nat} {chunks : List Chunk}
    (h : chunks.foldlM (fun m c => Image.iappend m inum c.bytes) m = some m') :
    m'.freeinode = m.freeinode := by
  induction chunks generalizing m with
  | nil =>
    obtain rfl := some.inj h
    rfl
  | cons c chunks ih =>
    obtain ⟨m₁, happend, hrest⟩ := bind_eq_some_iff.mp h
    exact (ih hrest).trans (iappend_freeinode happend)

theorem addFile_some {x : Input} (h : addFile m x = some m') :
    x.Named ∧ ∃ chunks inum m₁ m₂, x.chunks = some chunks ∧ m.ialloc typeFile = some (inum, m₁) ∧
      m₁.iappend rootino (dirent inum x.shortname) = some m₂ ∧
      chunks.foldlM (fun m c => Image.iappend m inum c.bytes) m₂ = some m' := by
  rw [addFile] at h
  split at h
  · cases h
  · obtain ⟨chunks, hchunks, hrest⟩ := bind_eq_some_iff.mp h
    split at hrest
    · cases hrest
    · rename_i hname
      obtain ⟨⟨inum, m₁⟩, halloc, hrest⟩ := bind_eq_some_iff.mp hrest
      obtain ⟨m₂, happend, hfold⟩ := bind_eq_some_iff.mp hrest
      exact ⟨Nat.not_lt.mp hname, chunks, inum, m₁, m₂, hchunks, halloc, happend, hfold⟩

theorem addFiles_freeinode {inputs : List Input} (h : inputs.foldlM addFile m = some m') :
    m'.freeinode = m.freeinode + inputs.length ∧ ∀ x ∈ inputs, x.Named := by
  induction inputs generalizing m with
  | nil =>
    obtain rfl := some.inj h
    exact ⟨rfl, by simp⟩
  | cons x inputs ih =>
    obtain ⟨m₁, hadd, hrest⟩ := bind_eq_some_iff.mp h
    obtain ⟨hname, chunks, inum, m₂, m₃, -, halloc, happend, hfold⟩ := addFile_some hadd
    have hino : m₁.freeinode = m.freeinode + 1 := by
      rw [appendChunks_freeinode hfold, iappend_freeinode happend, (ialloc_freeinode halloc).2]
    obtain ⟨hrest, hnames⟩ := ih hrest
    refine ⟨by rw [hrest, hino, length_cons]; omega, ?_⟩
    exact forall_mem_cons.mpr ⟨hname, hnames⟩

theorem mkfs_some {inputs : List Input} {m : Image} (h : mkfs inputs = some m) :
    ∃ m₀ m₁ m₂ m₃, blank.ialloc typeDir = some (rootino, m₀) ∧
      m₀.iappend rootino (dirent rootino dot) = some m₁ ∧
      m₁.iappend rootino (dirent rootino dotdot) = some m₂ ∧
      inputs.foldlM addFile m₂ = some m₃ ∧ finish m₃ rootino = some m := by
  rw [mkfs, bind_eq_bind] at h
  obtain ⟨⟨i, m₀⟩, halloc, hrest⟩ := bind_eq_some_iff.mp h
  simp only at hrest
  split at hrest
  · cases hrest
  · rename_i hroot
    obtain rfl := not_not.mp hroot
    obtain ⟨m₁, hdot, hrest⟩ := bind_eq_some_iff.mp hrest
    obtain ⟨m₂, hdotdot, hrest⟩ := bind_eq_some_iff.mp hrest
    obtain ⟨m₃, hfold, hfinish⟩ := bind_eq_some_iff.mp hrest
    exact ⟨m₀, m₁, m₂, m₃, halloc, hdot, hdotdot, hfold, hfinish⟩

theorem finish_freeinode {i : Nat} (h : finish m i = some m') : m'.freeinode = m.freeinode := by
  obtain ⟨d, -, hrest⟩ := bind_eq_some_iff.mp h
  obtain ⟨m₁, hw, hrest⟩ := bind_eq_some_iff.mp hrest
  rw [Image.balloc] at hrest
  split at hrest
  · obtain rfl := some.inj hrest
    exact (winode_freeinode hw : m₁.freeinode = m.freeinode)
  · cases hrest

theorem mkfs_freeinode {inputs : List Input} {m : Image} (h : mkfs inputs = some m) :
    m.freeinode = inputs.length + 2 ∧ ∀ x ∈ inputs, x.Named := by
  obtain ⟨m₀, m₁, m₂, m₃, halloc, hdot, hdotdot, hfold, hfinish⟩ := mkfs_some h
  have hblank : blank.freeinode = 1 := by rw [blank_eq]
  have hino : m₂.freeinode = 2 := by
    rw [iappend_freeinode hdotdot, iappend_freeinode hdot, (ialloc_freeinode halloc).2, hblank]
  obtain ⟨hcount, hnames⟩ := addFiles_freeinode hfold
  exact ⟨by rw [finish_freeinode hfinish, hcount, hino]; omega, hnames⟩

end Counting

namespace Made

variable {m m' : Image} {content : Nat → List UInt8}

theorem appendChunks (h : Made m content) {i : Nat} (hi : 1 ≤ i ∧ i < m.freeinode)
    {chunks : List Chunk}
    (hrun : chunks.foldlM (fun m c => Image.iappend m i c.bytes) m = some m') :
    Made m' (update content i (content i ++ chunks.flatMap Chunk.bytes)) := by
  induction chunks generalizing m content with
  | nil =>
    obtain rfl := some.inj hrun
    rwa [flatMap_nil, append_nil, update_eq_self]
  | cons c chunks ih =>
    obtain ⟨m₁, happend, hrest⟩ := bind_eq_some_iff.mp hrun
    obtain ⟨hmade, hino⟩ := h.iappend hi happend
    have hfinal := ih hmade (by rw [hino]; exact hi) hrest
    rwa [update_idem, update_self, append_assoc] at hfinal

theorem addFile {done : List Input} {x : Input} (h : Made m (contentOf done))
    (hino : m.freeinode = done.length + 2) (hroom : done.length + 2 < ninodes)
    (hrun : addFile m x = some m') : Made m' (contentOf (done ++ [x])) := by
  obtain ⟨-, chunks, inum, m₁, m₂, hchunks, halloc, happend, hfold⟩ := addFile_some hrun
  obtain ⟨m₁', halloc', hmade₁, hino₁, -⟩ := h.ialloc typeFile (by omega) (by omega) (by decide)
  obtain ⟨rfl, rfl⟩ := Prod.mk.inj (some.inj (halloc'.symm.trans halloc))
  obtain ⟨hmade₂, hino₂⟩ := hmade₁.iappend (i := rootino) ⟨by decide, by simp only [rootino]; omega⟩
    happend
  have hmade₃ := hmade₂.appendChunks (i := m.freeinode) ⟨by omega, by omega⟩ hfold
  have hne : m.freeinode ≠ rootino := by
    simp only [rootino]
    omega
  have hbytes : x.bytes = chunks.flatMap Chunk.bytes := by rw [Input.bytes, hchunks, getD_some]
  rw [update_of_ne hne, h.unborn _ (Nat.le_refl _), nil_append, ← hbytes, hino,
    ← contentOf_append] at hmade₃
  exact hmade₃

theorem addFiles {done inputs : List Input} (h : Made m (contentOf done))
    (hino : m.freeinode = done.length + 2) (hroom : done.length + inputs.length + 1 < ninodes)
    (hrun : inputs.foldlM Mkfs.addFile m = some m') : Made m' (contentOf (done ++ inputs)) := by
  induction inputs generalizing m done with
  | nil =>
    obtain rfl := some.inj hrun
    rwa [append_nil]
  | cons x inputs ih =>
    obtain ⟨m₁, hadd, hrest⟩ := bind_eq_some_iff.mp hrun
    rw [length_cons] at hroom
    have hmade := h.addFile hino (by omega) hadd
    have hsingle : [x].foldlM Mkfs.addFile m = some m₁ := by
      rw [foldlM_cons, hadd]
      rfl
    have hino₁ := (addFiles_freeinode hsingle).1
    have hlen : (done ++ [x]).length = done.length + 1 := by simp
    have hfinal := ih hmade (by rw [hino₁, hino, hlen]; rfl) (by omega) hrest
    rwa [append_assoc] at hfinal

end Made

theorem getBit_foldl_setBit {k b : Nat} (hk : k ≤ bpb) (hb : b < bpb) :
    getBit ((range k).foldl setBit fun _ => 0) b = decide (b < k) := by
  induction k with
  | zero => simp [getBit, getByte]
  | succ k ih =>
    rw [range_succ, foldl_append, foldl_cons, foldl_nil,
      getBit_setBit _ (by omega) hb, ih (by omega), ← Bool.decide_or]
    exact decide_eq_decide.mpr (by omega)

structure Finished (m m' : Image) : Prop where
  freeinode : m'.freeinode = m.freeinode
  held : held sb m'.store m'.inode = held sb m.store m.inode
  inode : ∀ i < ninodes, m'.inode i = update m.inode rootino { m.inode rootino with
    size := UInt32.ofNat (((m.inode rootino).size.toNat / bsize + 1) * bsize) } i
  super : m'.sector 1 = m.sector 1
  sector : ∀ b, nmeta ≤ b → m'.sector b = m.sector b
  bitmap : m'.sector sb.bmapstart = (range m.freeblock).foldl setBit fun _ => 0

namespace Made

variable {m m' : Image} {content : Nat → List UInt8}

theorem finish (h : Made m content) : ∃ m', finish m rootino = some m' ∧ Finished m m' := by
  have hroot : rootino < ninodes := by decide
  obtain ⟨m₁, hw, hwrote⟩ := winode_some h.built.length hroot { m.inode rootino with
    size := UInt32.ofNat (((m.inode rootino).size.toNat / bsize + 1) * bsize) }
  have hused : m₁.freeblock < bpb := by
    rw [hwrote.freeblock]
    exact Nat.lt_of_le_of_lt h.built.blocks_le (by decide)
  have hseek : seek sb.bmapstart = sb.bmapstart := seek_of_lt (by decide)
  obtain ⟨m', hm'⟩ : ∃ m', m' = m₁.wsect sb.bmapstart
    ((range m₁.freeblock).foldl setBit fun _ => 0) := ⟨_, rfl⟩
  have hsector : m'.sector = update m₁.sector sb.bmapstart
      ((range m₁.freeblock).foldl setBit fun _ => 0) := by
    rw [hm', Image.wsect, hseek]
  have hother : ∀ b, b ≠ sb.bmapstart → b ≠ sb.iblock rootino → m'.sector b = m.sector b := by
    intro b hmap hino
    rw [hsector, update_of_ne hmap, hwrote.sector b hino]
  have hinode : ∀ i < ninodes, m'.inode i = m₁.inode i := by
    intro i hi
    have hlt := sb.iblock_lt hi
    rw [Image.inode, Image.inode, dinode, dinode, Image.bread_store, Image.bread_store, hsector,
      update_of_ne (Nat.ne_of_lt hlt)]
  have hhigh : ∀ b, nmeta ≤ b → m'.sector b = m.sector b := by
    intro b hb
    have hmap : sb.bmapstart < nmeta := by decide
    have hino := iblock_lt hroot
    exact hother b (by omega) (by omega)
  refine ⟨m', ?_, ?_, ?_, ?_, hother 1 (by decide) (by decide), hhigh, ?_⟩
  · rw [Mkfs.finish, rinode_eq h.built.length hroot]
    simp only [bind_eq_bind, bind_some, hw, Image.balloc, if_pos hused, hm']
  · rw [hm']
    exact hwrote.freeinode
  · have hheld : FileSystem.held sb m.store m₁.inode = FileSystem.held sb m.store m.inode := by
      have hupdate : FileSystem.held sb m.store (update m.inode rootino { m.inode rootino with
          size := UInt32.ofNat (((m.inode rootino).size.toNat / bsize + 1) * bsize) }) =
          FileSystem.held sb m.store (update m.inode rootino (m.inode rootino)) :=
        held_update rfl rfl
      rw [hwrote.inode, hupdate, update_eq_self]
    rw [← hheld]
    refine held_congr hinode fun i b hb => hhigh b ?_
    rw [hheld] at hb
    exact (h.built.filled.owns.mem hb).1
  · intro i hi
    rw [hinode i hi, hwrote.inode]
  · rw [hsector, update_self, hwrote.freeblock]

end Made

theorem map_getD_range (l : List UInt8) {s : Nat} (h : l.length ≤ s) :
    ((range s).map fun off => l.getD off 0) = l ++ replicate (s - l.length) 0 := by
  refine ext_getElem (by simp [h]) fun k hk _ => ?_
  simp only [getElem_map, getElem_range]
  by_cases hlt : k < l.length
  · rw [getElem_append_left hlt, getD_eq_getElem _ _ hlt]
  · rw [getElem_append_right (by omega), getElem_replicate,
      getD_eq_default _ _ (by omega)]

namespace Finished

variable {m m' : Image} {content : Nat → List UInt8} {i : Nat}

theorem block_eq (hf : Finished m m') (n : Nat) : m'.block i n = m.block i n := by
  rw [Image.block, Image.block, hf.held]

theorem block_isSome (h : Made m content) (hf : Finished m m') (n : Nat) :
    (m'.block i n).isSome ↔ n < blocksFor (content i).length := by
  rw [hf.block_eq, Image.block]
  split
  · rename_i hmax
    rw [isSome_iff_exists]
    exact h.built.filled.mapped i n hmax
  · rename_i hmax
    have := (h.built.filled.fits i).2
    simp only [isSome_none, Bool.false_eq_true, false_iff]
    omega

theorem contents_eq (h : Made m content) (hf : Finished m m') {s : Nat}
    (hsize : (m'.inode i).size.toNat = s) (hle : (content i).length ≤ s)
    (hblocks : s ≤ blocksFor (content i).length * bsize) :
    m'.contents i = content i ++ replicate (s - (content i).length) 0 := by
  rw [← map_getD_range _ hle, Image.contents, hsize]
  refine map_congr_left fun off hoff => ?_
  have hlt : off / bsize < blocksFor (content i).length := by
    rw [Nat.div_lt_iff_lt_mul (by decide)]
    exact Nat.lt_of_lt_of_le (mem_range.mp hoff) hblocks
  obtain ⟨b, hb⟩ := isSome_iff_exists.mp ((hf.block_isSome h (off / bsize)).mpr hlt)
  have hmax := Nat.lt_of_lt_of_le hlt (h.built.filled.fits i).2
  have hheld : FileSystem.held sb m.store m.inode (slot i (off / bsize)) = some b := by
    rwa [hf.block_eq, Image.block, if_pos hmax] at hb
  have hlow := (h.built.filled.owns.mem hheld).1
  have hbyte := h.built.filled.bytes i _ hmax b hheld (Fin.ofNat bsize off)
  rw [hb, map_some, getD_some, hf.sector b hlow, hbyte]
  congr 1
  exact Nat.div_add_mod' off bsize

end Finished

theorem direntOf_dirent {inum : Nat} {name : Name} (hinum : inum < 2 ^ 16) (hname : 0 ∉ name) :
    direntOf (dirent inum name) = ⟨inum, name, 0⟩ := by
  have hnumber : (UInt8.ofNat inum).toNat + 256 * (UInt8.ofNat (inum / 256)).toNat = inum := by
    simp only [UInt8.toNat_ofNat']
    omega
  have hkeep : ∀ c ∈ name, decide (c ≠ 0) = true := by
    intro c hc
    exact decide_eq_true fun hzero => hname (hzero ▸ hc)
  have hzeros : ∀ k, (replicate k (0 : UInt8)).takeWhile (fun c => decide (c ≠ 0)) = [] := by
    intro k
    cases k <;> simp [replicate_succ]
  have htake : (name ++ replicate (dirsiz - name.length) 0).takeWhile
      (fun c => decide (c ≠ 0)) = name := by
    rw [takeWhile_append_of_pos hkeep, hzeros, append_nil]
  rw [direntOf, dirent, Dirent.mk.injEq]
  exact ⟨hnumber, htake, rfl⟩

theorem entriesOf_append {es : List (Nat × Name)} (k : Nat) (rest : List UInt8)
    (h : ∀ e ∈ es, e.1 < 2 ^ 16 ∧ e.2.length ≤ dirsiz ∧ 0 ∉ e.2) :
    entriesOf (es.length + k) ((es.flatMap fun e => dirent e.1 e.2) ++ rest) =
      (es.map fun e => ⟨e.1, e.2, 0⟩) ++ entriesOf k rest := by
  induction es with
  | nil => simp
  | cons e es ih =>
    obtain ⟨⟨hinum, hlen, hname⟩, hrest⟩ := forall_mem_cons.mp h
    have hsixteen := length_dirent e.1 hlen
    rw [length_cons, Nat.add_right_comm, entriesOf, flatMap_cons, append_assoc,
      take_left' hsixteen, drop_left' hsixteen, direntOf_dirent hinum hname, ih hrest,
      map_cons, cons_append]

theorem entriesOf_zeros (k j : Nat) : ∀ e ∈ entriesOf k (replicate j 0), e.inum = 0 := by
  induction k generalizing j with
  | zero => simp [entriesOf]
  | succ k ih =>
    have hzero : ∀ n i, (replicate n (0 : UInt8)).getD i 0 = 0 := by
      intro n i
      rw [getD_eq_getElem?_getD, List.getElem?_replicate]
      split <;> rfl
    intro e he
    rw [entriesOf, take_replicate, drop_replicate] at he
    obtain rfl | he := mem_cons.mp he
    · simp only [direntOf, hzero]
      rfl
    · exact ih _ e he

theorem findEntry_contents {es zs : List Dirent} {ns : List (Name × List UInt8)}
    {c : Nat → List UInt8} (name : Name) (hz : ∀ e ∈ zs, e.inum = 0)
    (h : List.Forall₂ (fun e n => e.inum ≠ 0 ∧ e.name = n.1 ∧ c e.inum = n.2) es ns) (k : Nat) :
    (findEntry name (es ++ zs) k).map (fun e => c e.2.inum) =
      (ns.find? fun n => n.1 = name).map Prod.snd := by
  induction h generalizing k with
  | nil =>
    rw [nil_append, find?_nil, map_none, map_eq_none_iff]
    induction zs generalizing k with
    | nil => rfl
    | cons z zs ih =>
      obtain ⟨hz, hrest⟩ := forall_mem_cons.mp hz
      rw [findEntry, if_neg fun hfound => hfound.1 hz]
      exact ih hrest _
  | @cons e n es ns hen _ ih =>
    obtain ⟨hinum, hname, hc⟩ := hen
    rw [cons_append, findEntry, find?_cons]
    by_cases heq : e.name = name
    · rw [if_pos ⟨hinum, heq⟩, decide_eq_true (hname ▸ heq)]
      simp only [map_some, hc]
    · rw [if_neg fun hfound => heq hfound.2, decide_eq_false (hname ▸ heq)]
      exact ih _

theorem Input.shortname_noNul (x : Input) : 0 ∉ x.shortname := by
  have hbase : ∀ c ∈ x.base, c ∈ x.path := by
    intro c hc
    rw [Input.base] at hc
    split at hc
    · exact mem_of_mem_drop hc
    · exact hc
  intro hzero
  rw [Input.shortname] at hzero
  split at hzero
  · exact x.noNul (hbase 0 (mem_of_mem_tail hzero))
  · exact x.noNul (hbase 0 hzero)

structure Input.Small (x : Input) : Prop where
  plain : Input.slash ∉ x.base
  named : x.Named
  opened : ∃ chunks, x.chunks = some chunks ∧ chunks.length ≤ 1

namespace Made

variable {m : Image} {content : Nat → List UInt8}

theorem appendEntry (h : Made m content) {k : Nat} (inum : Nat) (name : Name)
    (hi : rootino < m.freeinode)
    (hlen : (content rootino).length = 16 * k) (hk : k < ninodes) (hname : name.length ≤ dirsiz)
    (hroom : m.freeblock + 2 ≤ fssize) :
    ∃ m', m.iappend rootino (dirent inum name) = some m' ∧ m'.freeblock ≤ m.freeblock + 2 := by
  have hsixteen := length_dirent inum hname
  refine h.iappend_some ⟨by decide, hi⟩ ?_ ?_ ?_ hroom
  · rw [← length_pos_iff, hsixteen]
    decide
  · rw [hlen]
    simp only [maxfile, ndirect, nindirect, ninodes, bsize] at hk ⊢
    omega
  · rw [hsixteen, hlen]
    simp only [bsize]
    omega

theorem appendChunk (h : Made m content) {i : Nat} (hi : 1 ≤ i ∧ i < m.freeinode)
    (hempty : content i = []) {chunks : List Chunk} (hone : chunks.length ≤ 1)
    (hroom : m.freeblock + 2 ≤ fssize) :
    ∃ m', chunks.foldlM (fun m c => Image.iappend m i c.bytes) m = some m' ∧
      m'.freeblock ≤ m.freeblock + 2 := by
  match chunks, hone with
  | [], _ => exact ⟨m, rfl, Nat.le_add_right _ _⟩
  | [c], _ =>
    obtain ⟨m', happend, hblock⟩ := h.iappend_some hi (p := c.bytes) c.nonempty
      (by rw [hempty]; decide) (by rw [hempty]; simpa using c.le) hroom
    refine ⟨m', ?_, hblock⟩
    rw [foldlM_cons, happend]
    rfl

theorem addSmall {done : List Input} {x : Input} (h : Made m (contentOf done))
    (hino : m.freeinode = done.length + 2) (hroom : done.length + 2 < ninodes)
    (hnamed : ∀ y ∈ done, y.Named) (hx : x.Small) (hblock : m.freeblock + 4 ≤ fssize) :
    ∃ m', Mkfs.addFile m x = some m' ∧ m'.freeblock ≤ m.freeblock + 4 := by
  obtain ⟨chunks, hchunks, hone⟩ := hx.opened
  obtain ⟨m₁, halloc, hmade₁, hino₁, hblock₁⟩ :=
    h.ialloc typeFile (by omega) (by omega) (by decide)
  have hlive : rootino < m₁.freeinode := by
    simp only [rootino]
    omega
  obtain ⟨m₂, hentry, hblock₂⟩ := hmade₁.appendEntry m.freeinode x.shortname hlive
    (by rw [contentOf_root, length_rootData hnamed]) hroom hx.named (by omega)
  obtain ⟨hmade₂, hino₂⟩ := hmade₁.iappend ⟨by decide, hlive⟩ hentry
  have hne : m.freeinode ≠ rootino := by
    simp only [rootino]
    omega
  obtain ⟨m₃, hfold, hblock₃⟩ := hmade₂.appendChunk (i := m.freeinode) ⟨by omega, by omega⟩
    (by rw [update_of_ne hne]; exact h.unborn _ (Nat.le_refl _)) hone (by omega)
  refine ⟨m₃, ?_, by omega⟩
  rw [Mkfs.addFile, if_neg hx.plain, hchunks]
  simp only [bind_eq_bind, bind_some, if_neg (Nat.not_lt.mpr hx.named), halloc, hentry,
    hfold]

theorem addSmalls {done inputs : List Input} (h : Made m (contentOf done))
    (hino : m.freeinode = done.length + 2) (hroom : done.length + inputs.length + 1 < ninodes)
    (hnamed : ∀ y ∈ done, y.Named) (hsmall : ∀ x ∈ inputs, x.Small)
    (hblock : m.freeblock + 4 * inputs.length ≤ fssize) :
    ∃ m', inputs.foldlM Mkfs.addFile m = some m' := by
  induction inputs generalizing m done with
  | nil => exact ⟨m, rfl⟩
  | cons x inputs ih =>
    obtain ⟨hx, hsmall⟩ := forall_mem_cons.mp hsmall
    rw [length_cons] at hroom hblock
    obtain ⟨m₁, hadd, hblock₁⟩ := h.addSmall hino (by omega) hnamed hx (by omega)
    have hsingle : [x].foldlM Mkfs.addFile m = some m₁ := by
      rw [foldlM_cons, hadd]
      rfl
    have hino₁ := (addFiles_freeinode hsingle).1
    have hlen : (done ++ [x]).length = done.length + 1 := by simp
    obtain ⟨m', hfold⟩ := ih (h.addFile hino (by omega) hadd) (by rw [hino₁, hino, hlen]; rfl)
      (by omega) (by simpa [or_imp, forall_and] using ⟨hnamed, hx.named⟩) hsmall (by omega)
    exact ⟨m', by rw [foldlM_cons, hadd]; exact hfold⟩

end Made

theorem made_start : ∃ m₀ m₁ m₂, blank.ialloc typeDir = some (rootino, m₀) ∧
    m₀.iappend rootino (dirent rootino dot) = some m₁ ∧
    m₁.iappend rootino (dirent rootino dotdot) = some m₂ ∧ Made m₂ (contentOf []) ∧
    m₂.freeinode = 2 ∧ m₂.freeblock ≤ nmeta + 4 := by
  have hblank : blank.freeinode = 1 := by rw [blank_eq]
  have hnmeta : blank.freeblock = nmeta := by rw [blank_eq]
  have hlarge : nmeta + 4 ≤ fssize := by decide
  have hone : blank.freeinode < ninodes := by
    rw [hblank]
    decide
  obtain ⟨m₀, halloc, hmade₀, hino₀, hblock₀⟩ :=
    made_blank.ialloc typeDir hone (Nat.le_of_eq hblank.symm) (by decide)
  have hlive₀ : rootino < m₀.freeinode := by
    rw [hino₀, hblank]
    decide
  obtain ⟨m₁, hdot, hblock₁⟩ := hmade₀.appendEntry (k := 0) rootino dot hlive₀ rfl
    (by decide) (by decide) (by omega)
  obtain ⟨hmade₁, hino₁⟩ := hmade₀.iappend ⟨by decide, hlive₀⟩ hdot
  have hlive₁ : rootino < m₁.freeinode := hino₁ ▸ hlive₀
  obtain ⟨m₂, hdotdot, hblock₂⟩ := hmade₁.appendEntry (k := 1) rootino dotdot hlive₁
    (by rw [update_self]; rfl) (by decide) (by decide) (by omega)
  obtain ⟨hmade₂, hino₂⟩ := hmade₁.iappend ⟨by decide, hlive₁⟩ hdotdot
  rw [update_idem, update_self] at hmade₂
  have hcontent : update (fun _ => []) rootino
      ([] ++ dirent rootino dot ++ dirent rootino dotdot) = contentOf [] := by
    funext i
    by_cases hi : i = rootino
    · rw [hi, update_self]
      rfl
    · rw [update_of_ne hi, contentOf, if_neg hi]
      split <;> rfl
  rw [hcontent] at hmade₂
  refine ⟨m₀, m₁, m₂, ?_, hdot, hdotdot, hmade₂, by rw [hino₂, hino₁, hino₀, hblank], by omega⟩
  rw [halloc, hblank]
  rfl

theorem mkfs_small {inputs : List Input} (hroom : inputs.length + 1 < ninodes)
    (hsmall : ∀ x ∈ inputs, x.Small) : ∃ m, mkfs inputs = some m := by
  obtain ⟨m₀, m₁, m₂, halloc, hdot, hdotdot, hmade, hino, hblock⟩ := made_start
  have hlarge : nmeta + 4 + 4 * ninodes ≤ fssize := by decide
  obtain ⟨m₃, hfold⟩ := hmade.addSmalls hino (by simpa using hroom) (by simp) hsmall (by omega)
  have hmade₃ := hmade.addFiles hino (by simpa using hroom) hfold
  obtain ⟨m, hfinish, -⟩ := hmade₃.finish
  refine ⟨m, ?_⟩
  rw [mkfs, halloc]
  simp only [bind_eq_bind, bind_some, ne_eq, not_true_eq_false, if_false, hdot, hdotdot,
    hfold, hfinish]

structure Result (inputs : List Input) (m m' : Image) : Prop where
  made : Made m (contentOf inputs)
  finished : Finished m m'
  freeinode : m.freeinode = inputs.length + 2
  inodes : inputs.length + 1 < ninodes
  named : ∀ x ∈ inputs, x.Named

theorem mkfs_result {inputs : List Input} {m' : Image} (h : mkfs inputs = some m')
    (hroom : inputs.length + 1 < ninodes) : ∃ m, Result inputs m m' := by
  obtain ⟨m₀, m₁, m₂, m₃, halloc, hdot, hdotdot, hfold, hfinish⟩ := mkfs_some h
  obtain ⟨n₀, n₁, n₂, halloc', hdot', hdotdot', hmade₂, hino, -⟩ := made_start
  obtain ⟨-, rfl⟩ := Prod.mk.inj (some.inj (halloc'.symm.trans halloc))
  obtain rfl := some.inj (hdot'.symm.trans hdot)
  obtain rfl := some.inj (hdotdot'.symm.trans hdotdot)
  have hmade₃ := hmade₂.addFiles hino (by simpa using hroom) hfold
  obtain ⟨hcount, hnames⟩ := addFiles_freeinode hfold
  obtain ⟨m'', hfinish', hfinished⟩ := hmade₃.finish
  obtain rfl := some.inj (hfinish'.symm.trans hfinish)
  exact ⟨m₃, by simpa using hmade₃, hfinished, by rw [hcount, hino]; omega, hroom, hnames⟩

namespace Result

variable {inputs : List Input} {m m' : Image}

section

variable (h : Result inputs m m')
include h

theorem root_size :
    (m'.inode rootino).size.toNat = ((rootData inputs).length / bsize + 1) * bsize := by
  have hino := h.freeinode
  have hsize := h.made.sizes rootino (by decide) (by simp only [rootino]; omega)
  have hlen := length_rootData h.named
  have hroom := h.inodes
  rw [h.finished.inode rootino (by decide), update_self, hsize, contentOf_root]
  simp only [UInt32.toNat_ofNat', ninodes, bsize] at hlen hroom ⊢
  omega

theorem file_size {k : Nat} (hk : k < inputs.length) :
    (m'.inode (k + 2)).size.toNat = (contentOf inputs (k + 2)).length := by
  have hino := h.freeinode
  have hroom := h.inodes
  rw [h.finished.inode (k + 2) (by omega), update_of_ne (by simp [rootino])]
  exact h.made.sizes (k + 2) (by omega) (by omega)

theorem file_contents {k : Nat} (hk : k < inputs.length) :
    m'.contents (k + 2) = inputs[k].bytes := by
  have hle : (contentOf inputs (k + 2)).length ≤
      blocksFor (contentOf inputs (k + 2)).length * bsize := (h.made.built.filled.fits (k + 2)).1
  rw [Finished.contents_eq h.made h.finished (h.file_size hk) (Nat.le_refl _) hle, Nat.sub_self,
    replicate_zero, append_nil, contentOf_file hk]

theorem blocksFor_root (hround : (inputs.length + 2) % (bsize / 16) ≠ 0) :
    blocksFor (rootData inputs).length = (rootData inputs).length / bsize + 1 := by
  have hlen := length_rootData h.named
  simp only [blocksFor, bsize] at hround ⊢
  omega

theorem root_contents (hround : (inputs.length + 2) % (bsize / 16) ≠ 0) :
    m'.contents rootino = rootBytes inputs := by
  have hblocks := h.blocksFor_root hround
  have hle : (rootData inputs).length ≤ ((rootData inputs).length / bsize + 1) * bsize := by
    simp only [bsize]
    omega
  have hcontents := Finished.contents_eq h.made h.finished h.root_size
  simp only [contentOf_root, hblocks] at hcontents
  exact hcontents hle (Nat.le_refl _)

theorem rootEntries_fit :
    ∀ e ∈ rootEntries inputs, e.1 < 2 ^ 16 ∧ e.2.length ≤ dirsiz ∧ 0 ∉ e.2 := by
  have hroom := h.inodes
  intro e he
  simp only [rootEntries, mem_cons, mem_mapIdx] at he
  obtain rfl | rfl | ⟨k, hk, rfl⟩ := he
  · decide
  · decide
  · refine ⟨?_, h.named _ (getElem_mem hk), Input.shortname_noNul _⟩
    simp only [ninodes] at hroom ⊢
    omega

theorem lookup_contents (hround : (inputs.length + 2) % (bsize / 16) ≠ 0) (name : Name) :
    (m'.lookup name).map m'.contents = firstNamed inputs name := by
  have hroot := h.root_contents hround
  have hlen := length_rootData h.named
  obtain ⟨k, hk⟩ : ∃ k, (rootBytes inputs).length / 16 = (rootEntries inputs).length + k := by
    refine ⟨(rootBytes inputs).length / 16 - (rootEntries inputs).length, ?_⟩
    simp only [rootBytes, rootEntries, length_append, length_replicate, length_cons,
      length_mapIdx, bsize]
    omega
  have hentries : entriesOf ((rootEntries inputs).length + k) (rootBytes inputs) = _ :=
    entriesOf_append k _ h.rootEntries_fit
  have hall : List.Forall₂ (fun e n => e.inum ≠ 0 ∧ e.name = n.1 ∧ m'.contents e.inum = n.2)
      ((rootEntries inputs).map fun e => (⟨e.1, e.2, 0⟩ : Dirent))
      ((dot, rootBytes inputs) :: (dotdot, rootBytes inputs) ::
        inputs.map fun x => (x.shortname, x.bytes)) := by
    refine .cons ⟨by decide, rfl, hroot⟩ (.cons ⟨by decide, rfl, hroot⟩ ?_)
    rw [forall₂_iff_get]
    refine ⟨by simp, fun j hj _ => ?_⟩
    have hj' : j < inputs.length := by simpa using hj
    simp only [get_eq_getElem, getElem_map, getElem_mapIdx]
    exact ⟨by omega, trivial, h.file_contents hj'⟩
  rw [Image.lookup, Option.map_map, hroot]
  simp only [hk, hentries]
  exact findEntry_contents name (entriesOf_zeros k _) hall 0

theorem marked_iff {b : Nat} (hb : b < bpb) :
    marked sb m'.store b ↔ b < nmeta ∨ ∃ x, held sb m'.store m'.inode x = some b := by
  have hblock : sb.bblock b = sb.bmapstart := by
    rw [Superblock.bblock, Nat.div_eq_of_lt hb, Nat.zero_add]
  have hused : m.freeblock ≤ bpb := h.made.built.blocks_le.trans (by decide)
  rw [marked, hblock, Image.bread_store, h.finished.bitmap, Nat.mod_eq_of_lt hb,
    getBit_foldl_setBit hused hb, h.finished.held, decide_eq_true_iff]
  have hlow := h.made.built.filled.low
  constructor
  · intro hlt
    by_cases hmeta : b < nmeta
    · exact .inl hmeta
    · exact .inr (h.made.built.filled.owns.held ⟨Nat.not_lt.mp hmeta, hlt⟩)
  · rintro (hmeta | ⟨x, hx⟩)
    · omega
    · exact (h.made.built.filled.owns.mem hx).2

theorem inums {i : Nat} (hhigh : i < m'.freeinode) :
    i < sb.ninodes ∧ sb.inodestart ≤ sb.iblock i ∧ sb.iblock i < sb.bmapstart := by
  rw [h.finished.freeinode] at hhigh
  have hlt := Nat.lt_of_lt_of_le hhigh h.made.built.inodes_le
  exact ⟨hlt, Nat.le_add_left _ _, sb.iblock_lt hlt⟩

theorem super : ∀ f ∈ superFields, getLE (m'.sector 1) f.off f.len = f.val := by
  intro f hf
  have horder : InOrder 0 32 superFields := by
    simp [superFields, InOrder]
  have hread : getLE (setFields (fun _ => 0 : Block) 0 superFields) (0 + f.off) f.len =
      f.val % 256 ^ f.len := getLE_setFields _ horder (by decide) hf
  rw [Nat.zero_add] at hread
  rw [h.finished.super, h.made.built.super, hread]
  revert f
  decide

theorem mapped (hround : (inputs.length + 2) % (bsize / 16) ≠ 0) {i : Nat}
    (hi : i < ninodes) (htype : (m'.inode i).type ≠ 0) {n : Nat}
    (hn : n * bsize < (m'.inode i).size.toNat) : (m'.block i n).isSome := by
  rw [h.finished.block_isSome h.made]
  have hlive : 1 ≤ i ∧ i < m.freeinode := by
    rw [← h.made.built.types i hi]
    rw [h.finished.inode i hi] at htype
    by_cases heq : i = rootino
    · rw [heq, update_self] at htype
      rwa [heq]
    · rwa [update_of_ne heq] at htype
  by_cases heq : i = rootino
  · subst heq
    rw [h.root_size] at hn
    rw [contentOf_root, h.blocksFor_root hround]
    exact Nat.lt_of_mul_lt_mul_right hn
  · rw [h.finished.inode i hi, update_of_ne heq, h.made.sizes i hlive.1 hlive.2] at hn
    simp only [blocksFor, bsize] at hn ⊢
    omega

theorem root_unmapped (hround : (inputs.length + 2) % (bsize / 16) = 0) :
    (rootData inputs).length / bsize * bsize < (m'.inode rootino).size.toNat ∧
      m'.block rootino ((rootData inputs).length / bsize) = none := by
  have hlen := length_rootData h.named
  constructor
  · rw [h.root_size]
    simp only [bsize]
    omega
  · rw [← not_isSome_iff_eq_none, h.finished.block_isSome h.made, contentOf_root]
    simp only [blocksFor, bsize] at hround ⊢
    omega

theorem root_type : (m'.inode rootino).type ≠ 0 := by
  have hino := h.freeinode
  rw [h.finished.inode rootino (by decide), update_self]
  exact (h.made.built.types rootino (by decide)).mpr ⟨by decide, by simp only [rootino]; omega⟩

end

end Result

/-- The kernel can rely on the image exactly for suitable inputs. -/
theorem mkfs_wellMade_iff {inputs : List Input} {m : Image} (hrun : mkfs inputs = some m) :
    WellMade m inputs ↔ Suitable inputs := by
  constructor
  · intro h
    have hroom : inputs.length + 1 < ninodes := by
      have hino := (mkfs_freeinode hrun).1
      exact (h.inums (inputs.length + 1) (by omega) (by omega)).1
    obtain ⟨m₀, hresult⟩ := mkfs_result hrun hroom
    have hround : (inputs.length + 2) % (bsize / 16) ≠ 0 := by
      intro hzero
      obtain ⟨hsize, hnone⟩ := hresult.root_unmapped hzero
      have hsome := h.mapped rootino (by decide) hresult.root_type _ hsize
      rw [hnone] at hsome
      cases hsome
    refine ⟨hroom, hround, fun x hx => ?_⟩
    obtain ⟨i, hlookup, hbytes⟩ := h.names x hx
    rw [← hresult.lookup_contents hround, hlookup, map_some, hbytes]
  · intro h
    obtain ⟨m₀, hresult⟩ := mkfs_result hrun h.inodes
    refine ⟨hresult.super, ?_, ?_, fun b hb => hresult.marked_iff hb,
      fun i hi htype n hn => hresult.mapped h.root hi htype hn,
      fun i _ hhigh => hresult.inums hhigh, ?_⟩
    · intro x b hx
      rw [hresult.finished.held] at hx
      have hb := hresult.made.built.filled.owns.mem hx
      exact ⟨hb.1, Nat.lt_of_lt_of_le hb.2 hresult.made.built.blocks_le⟩
    · intro x y b hx hy
      rw [hresult.finished.held] at hx hy
      exact hresult.made.built.filled.owns.inj hx hy
    · intro x hx
      have hfound := hresult.lookup_contents h.root x.shortname
      rw [h.named x hx] at hfound
      exact map_eq_some_iff.mp hfound

def oneInput : Input := ⟨[117, 115, 101, 114, 47, 95, 99, 97, 116], by decide,
  some [⟨[1, 2, 3], by decide, by decide⟩]⟩

theorem mkfs_wellMade_oneInput : ∃ m, mkfs [oneInput] = some m ∧ WellMade m [oneInput] ∧
    ∃ i, m.lookup [99, 97, 116] = some i ∧ m.contents i = [1, 2, 3] := by
  have hnamed : oneInput.shortname.length ≤ dirsiz := by decide
  have hsmall : oneInput.Small := ⟨by decide, hnamed, _, rfl, by decide⟩
  have hall : ∀ x ∈ [oneInput], x.Small := by simpa using hsmall
  obtain ⟨m, hrun⟩ := mkfs_small (by decide) hall
  have hsuitable : Suitable [oneInput] := ⟨by decide, by decide, by decide +kernel⟩
  have hmade := (mkfs_wellMade_iff hrun).mpr hsuitable
  exact ⟨m, hrun, hmade, hmade.names oneInput mem_cons_self⟩

def manyInputs : List Input :=
  (finRange 62).map fun k : Fin 62 =>
    ⟨[97, UInt8.ofNat (k.val + 128)], by revert k; decide, some []⟩

/-- With the sixty-two entries the root directory fills its block, and its size is rounded
up by a block it does not have. -/
theorem root_directory_without_block : ∃ m, mkfs manyInputs = some m ∧
    (m.inode rootino).size.toNat = 2 * bsize ∧ m.block rootino 1 = none ∧
    ¬WellMade m manyInputs := by
  have hlength : manyInputs.length = 62 := by simp [manyInputs]
  have hsmall : ∀ x ∈ manyInputs, x.Small := by
    intro x hx
    obtain ⟨k, -, rfl⟩ := mem_map.mp hx
    have hplain : ∀ k : Fin 62, Input.slash ∉ Input.base
        ⟨[97, UInt8.ofNat (k.val + 128)], by revert k; decide, some []⟩ := by decide
    have hnamed : ∀ k : Fin 62, (Input.shortname
        ⟨[97, UInt8.ofNat (k.val + 128)], by revert k; decide, some []⟩).length ≤ dirsiz := by
      decide
    exact ⟨hplain k, hnamed k, [], rfl, by decide⟩
  have hroom : manyInputs.length + 1 < ninodes := by
    rw [hlength]
    decide
  obtain ⟨m, hrun⟩ := mkfs_small hroom hsmall
  obtain ⟨m₀, hresult⟩ := mkfs_result hrun hroom
  have hround : (manyInputs.length + 2) % (bsize / 16) = 0 := by
    rw [hlength]
    decide
  have hlen : (rootData manyInputs).length = bsize := by
    rw [length_rootData hresult.named, hlength]
    rfl
  obtain ⟨hsize, hnone⟩ := hresult.root_unmapped hround
  rw [hlen, Nat.div_self (by decide)] at hsize hnone
  refine ⟨m, hrun, by rw [hresult.root_size, hlen]; rfl, hnone, fun hmade => ?_⟩
  have hsome := hmade.mapped rootino (by decide) hresult.root_type 1 hsize
  rw [hnone] at hsome
  cases hsome

end EafitOs.FileSystem.Mkfs
