import EafitOs.Disk.Buffer
import EafitOs.Foundation.Ownership

/-!
# Disk blocks and the free bitmap

What the file-system code sees of a block is its buffer. A change that goes through
`log_write` stays; a change made to a buffer without it is lost when the buffer is
recycled, and kept when the block is logged later in the same transaction.
-/

namespace EafitOs.FileSystem

open Foundation Disk Function

def ndirect : Nat := 12

instance neZeroAddrs : NeZero (ndirect + 1) := ⟨by decide⟩

def nindirect : Nat := bsize / 4

def maxfile : Nat := ndirect + nindirect

def ipb : Nat := bsize / 64

def bpb : Nat := bsize * 8

/-- The fields of the super block that the kernel uses after `fsinit`, with the order
of the areas on the disk: inodes, bitmap, data. -/
structure Superblock where
  size : Nat
  nblocks : Nat
  ninodes : Nat
  inodestart : Nat
  bmapstart : Nat
  size_lt : size < 2 ^ 31
  inodes_lt : inodestart + ninodes / ipb < bmapstart
  bitmap_lt : bmapstart + size / bpb < size - nblocks

namespace Superblock

def nmeta (sb : Superblock) : Nat := sb.size - sb.nblocks

def iblock (sb : Superblock) (i : Nat) : Nat := i / ipb + sb.inodestart

def bblock (sb : Superblock) (b : Nat) : Nat := b / bpb + sb.bmapstart

def dataBlocks (sb : Superblock) : Set Nat := { b | sb.nmeta ≤ b ∧ b < sb.size }

end Superblock

/-- The blocks as they are on disk or in the log, the buffers that were changed
without being logged, and what the allocator has done so far. -/
structure Store where
  logged : Nat → Block
  cached : Nat → Option Block
  events : List (Event Nat)

namespace Store

/-- The data of the buffer `bread` returns. -/
def bread (s : Store) (b : Nat) : Block := (s.cached b).getD (s.logged b)

def fill (s : Store) (b : Nat) (d : Block) : Store :=
  { s with cached := update s.cached b (some d) }

def logWrite (s : Store) (b : Nat) : Store :=
  { s with
    logged := update s.logged b (s.bread b)
    cached := update s.cached b none }

def write (s : Store) (b : Nat) (d : Block) : Store := (s.fill b d).logWrite b

def evict (s : Store) (b : Nat) : Store := { s with cached := update s.cached b none }

def record (s : Store) (e : Event Nat) : Store := { s with events := s.events ++ [e] }

end Store

/-- `bp->data[bi/8] & (1 << (bi % 8))`. -/
def getBit (d : Block) (bi : Nat) : Bool := (getByte d (bi / 8)).testBit (bi % 8)

/-- `bp->data[bi/8] |= 1 << (bi % 8)`. -/
def setBit (d : Block) (bi : Nat) : Block :=
  setByte d (bi / 8) (getByte d (bi / 8) ||| 2 ^ (bi % 8))

/-- `bp->data[bi/8] &= ~(1 << (bi % 8))`. -/
def clearBit (d : Block) (bi : Nat) : Block :=
  setByte d (bi / 8) (getByte d (bi / 8) &&& (255 ^^^ 2 ^ (bi % 8)))

def marked (sb : Superblock) (s : Store) (b : Nat) : Bool :=
  getBit (s.bread (sb.bblock b)) (b % bpb)

/-- The inner loop of `balloc`: a free bit of the bitmap block for `b`. -/
def freeBit (sb : Superblock) (d : Block) (b : Nat) : Option Nat :=
  (List.range (min bpb (sb.size - b))).find? fun bi => !getBit d bi

/-- The loops of `balloc`, giving `b` and `bi`. -/
def findFree (sb : Superblock) (s : Store) : Option (Nat × Nat) :=
  (List.range ((sb.size + (bpb - 1)) / bpb)).findSome? fun n =>
    (freeBit sb (s.bread (sb.bblock (n * bpb))) (n * bpb)).map fun bi => (n * bpb, bi)

/-- `balloc`: 0 if there is no free block. -/
def balloc (sb : Superblock) (s : Store) : UInt32 × Store :=
  match findFree sb s with
  | none => (0, s)
  | some (b, bi) =>
    let s := s.write (sb.bblock b) (setBit (s.bread (sb.bblock b)) bi)
    let s := s.write (b + bi) fun _ => 0
    (UInt32.ofNat (b + bi), s.record (.alloc (b + bi)))

def bfree (sb : Superblock) (s : Store) (b : Nat) : Except String Store :=
  let d := s.bread (sb.bblock b)
  if getBit d (b % bpb) then
    .ok ((s.write (sb.bblock b) (clearBit d (b % bpb))).record (.free b))
  else .error "freeing free block"

/-- `struct dinode`; the in-memory inode has the same fields. -/
structure Dinode where
  type : UInt16
  major : UInt16
  minor : UInt16
  nlink : UInt16
  size : UInt32
  addrs : Fin (ndirect + 1) → UInt32

/-- The index of the indirect block in `addrs`. -/
def indirect : Fin (ndirect + 1) := Fin.last ndirect

namespace Dinode

def setAddr (d : Dinode) (i : Fin (ndirect + 1)) (a : UInt32) : Dinode :=
  { d with addrs := update d.addrs i a }

/-- The inode `ialloc` leaves, all zero but for its type. -/
def fresh (type : UInt16) : Dinode := ⟨type, 0, 0, 0, 0, fun _ => 0⟩

def fields (d : Dinode) : List Field :=
  [⟨0, 2, d.type.toNat⟩, ⟨2, 2, d.major.toNat⟩, ⟨4, 2, d.minor.toNat⟩, ⟨6, 2, d.nlink.toNat⟩,
    ⟨8, 4, d.size.toNat⟩] ++
  (List.finRange (ndirect + 1)).map fun i => ⟨12 + 4 * i, 4, (d.addrs i).toNat⟩

def get (b : Block) (i : Nat) : Dinode where
  type := UInt16.ofNat (getLE b (64 * i) 2)
  major := UInt16.ofNat (getLE b (64 * i + 2) 2)
  minor := UInt16.ofNat (getLE b (64 * i + 4) 2)
  nlink := UInt16.ofNat (getLE b (64 * i + 6) 2)
  size := UInt32.ofNat (getLE b (64 * i + 8) 4)
  addrs := fun k => UInt32.ofNat (getLE b (64 * i + (12 + 4 * k)) 4)

def put (b : Block) (i : Nat) (d : Dinode) : Block := setFields b (64 * i) d.fields

end Dinode

def dinode (sb : Superblock) (s : Store) (i : Nat) : Dinode :=
  Dinode.get (s.bread (sb.iblock i)) (i % ipb)

def iupdate (sb : Superblock) (s : Store) (i : Nat) (d : Dinode) : Store :=
  s.write (sb.iblock i) (Dinode.put (s.bread (sb.iblock i)) (i % ipb) d)

/-- `ialloc`: `none` if there is no free inode. -/
def ialloc (sb : Superblock) (s : Store) (type : UInt16) : Option Nat × Store :=
  match (List.range' 1 (sb.ninodes - 1)).find? fun i => (dinode sb s i).type = 0 with
  | none => (none, s)
  | some i => (some i, iupdate sb s i (.fresh type))

def entry (d : Block) (k : Nat) : UInt32 := UInt32.ofNat (getLE d (4 * k) 4)

/-- The last part of `bmap`: the entry of the indirect block `a`. -/
def bmapEntry (sb : Superblock) (s : Store) (a : UInt32) (k : Nat) : UInt32 × Store :=
  let addr := entry (s.bread a.toNat) k
  if addr ≠ 0 then (addr, s)
  else
    let (addr, s) := balloc sb s
    if addr ≠ 0 then (addr, s.write a.toNat (setLE (s.bread a.toNat) (4 * k) 4 addr.toNat))
    else (addr, s)

/-- The first two cases of `bmap`: a pointer of the inode, allocated if it is not set. -/
def bmapAddr (sb : Superblock) (s : Store) (d : Dinode) (i : Fin (ndirect + 1)) :
    UInt32 × Dinode × Store :=
  if d.addrs i ≠ 0 then (d.addrs i, d, s)
  else
    let (addr, s) := balloc sb s
    if addr = 0 then (0, d, s) else (addr, d.setAddr i addr, s)

/-- `bmap`: 0 if there is no block to be had. -/
def bmap (sb : Superblock) (s : Store) (d : Dinode) (bn : Nat) :
    Except String (UInt32 × Dinode × Store) :=
  if h : bn < ndirect then .ok (bmapAddr sb s d ⟨bn, by omega⟩)
  else if bn - ndirect < nindirect then
    let (a, d, s) := bmapAddr sb s d indirect
    if a = 0 then .ok (0, d, s)
    else
      let (addr, s) := bmapEntry sb s a (bn - ndirect)
      .ok (addr, d, s)
  else .error "bmap: out of range"

/-- One iteration of the first loop of `itrunc`. -/
def truncAddr (sb : Superblock) (r : Dinode × Store) (i : Fin ndirect) :
    Except String (Dinode × Store) :=
  if r.1.addrs i.castSucc ≠ 0 then do
    let s ← bfree sb r.2 (r.1.addrs i.castSucc).toNat
    .ok (r.1.setAddr i.castSucc 0, s)
  else .ok r

/-- One iteration of the second loop of `itrunc`, over the entries of the block `a`. -/
def truncEntry (sb : Superblock) (a : Block) (s : Store) (j : Fin nindirect) :
    Except String Store :=
  if entry a j ≠ 0 then bfree sb s (entry a j).toNat else .ok s

/-- The part of `itrunc` for the indirect block. -/
def truncIndirect (sb : Superblock) (r : Dinode × Store) : Except String (Dinode × Store) :=
  if r.1.addrs indirect ≠ 0 then do
    let a := (r.1.addrs indirect).toNat
    let s ← (List.finRange nindirect).foldlM (truncEntry sb (r.2.bread a)) r.2
    let s ← bfree sb s a
    .ok (r.1.setAddr indirect 0, s)
  else .ok r

def itrunc (sb : Superblock) (s : Store) (i : Nat) (d : Dinode) :
    Except String (Dinode × Store) := do
  let r ← (List.finRange ndirect).foldlM (truncAddr sb) (d, s)
  let (d, s) ← truncIndirect sb r
  let d := { d with size := 0 }
  .ok (d, iupdate sb s i d)

def iputFree (sb : Superblock) (s : Store) (i : Nat) (d : Dinode) : Except String Store := do
  let (d, s) ← itrunc sb s i d
  .ok (iupdate sb s i { d with type := 0 })

def overlay (d : Block) (off : Nat) (bs : List UInt8) : Block :=
  fun i => if off ≤ i.val ∧ i.val < off + bs.length then bs.getD (i.val - off) 0 else d i

/-- The loop of `writei`, where the source copy can deliver the bytes `src`. A copy that
fails has changed the buffer up to where it failed. Gives the offset reached. -/
def writeiLoop (sb : Superblock) : Nat → Store → Dinode → Nat → Nat → List UInt8 →
    Except String (Nat × Dinode × Store)
  | 0, s, d, off, _, _ => .ok (off, d, s)
  | fuel + 1, s, d, off, left, src =>
    if left = 0 then .ok (off, d, s)
    else do
      let (addr, d, s) ← bmap sb s d (off / bsize)
      if addr = 0 then .ok (off, d, s)
      else
        let m := min left (bsize - off % bsize)
        let data := overlay (s.bread addr.toNat) (off % bsize) (src.take m)
        if src.length < m then .ok (off, d, s.fill addr.toNat data)
        else writeiLoop sb fuel (s.write addr.toNat data) d (off + m) (left - m) (src.drop m)

/-- `writei`: the number of bytes written, or `none` for -1. -/
def writei (sb : Superblock) (s : Store) (i : Nat) (d : Dinode) (off n : UInt32)
    (src : List UInt8) : Except String (Option Nat × Dinode × Store) :=
  if d.size < off ∨ 2 ^ 32 ≤ off.toNat + n.toNat then .ok (none, d, s)
  else if maxfile * bsize < off.toNat + n.toNat then .ok (none, d, s)
  else do
    let (stop, d, s) ← writeiLoop sb n.toNat s d off.toNat n.toNat src
    let d := if d.size.toNat < stop then { d with size := UInt32.ofNat stop } else d
    .ok (some (stop - off.toNat), d, iupdate sb s i d)

structure State where
  store : Store
  icache : Nat → Option Dinode
  panic : Option String

/-- `ilock`: the in-memory inode, read from disk if it is not valid. -/
def ilock (sb : Superblock) (st : State) (i : Nat) : Except String Dinode :=
  match st.icache i with
  | some d => .ok d
  | none =>
    let d := dinode sb st.store i
    if d.type = 0 then .error "ilock: no type" else .ok d

/-- Operations on inodes, and what the buffer and inode caches do between them. -/
inductive Op
  | ialloc (type : UInt16)
  | writei (i : Nat) (off n : UInt32) (src : List UInt8)
  | itrunc (i : Nat)
  | iput (i : Nat)
  /-- The last reference to an inode that stays goes away. -/
  | forget (i : Nat)
  | evict (b : Nat)
  /-- A transaction commits the buffer of a block it has logged. -/
  | commit (b : Nat)

namespace State

/-- The state after an operation on inode `i`. -/
def put (st : State) (i : Nat) (d : Option Dinode) (s : Store) : State :=
  { st with store := s, icache := update st.icache i d }

def run (sb : Superblock) (st : State) : Op → Except String State
  | .ialloc type => .ok { st with store := (FileSystem.ialloc sb st.store type).2 }
  | .writei i off n src => do
    let d ← ilock sb st i
    let (_, d, s) ← FileSystem.writei sb st.store i d off n src
    .ok (st.put i (some d) s)
  | .itrunc i => do
    let d ← ilock sb st i
    let (d, s) ← FileSystem.itrunc sb st.store i d
    .ok (st.put i (some d) s)
  | .iput i => do
    let d ← ilock sb st i
    let s ← iputFree sb st.store i d
    .ok (st.put i none s)
  | .forget i => .ok (st.put i none st.store)
  | .evict b => .ok { st with store := st.store.evict b }
  | .commit b => .ok { st with store := st.store.logWrite b }

end State

def Op.inum : Op → Option Nat
  | .writei i .. | .itrunc i | .iput i | .forget i => some i
  | _ => none

def State.step (sb : Superblock) (st : State) (op : Op) : Option State :=
  if st.panic.isSome ∨ ∃ i ∈ op.inum, sb.ninodes ≤ i then none
  else
    match st.run sb op with
    | .ok st' => some { st' with panic := none }
    | .error e => some { st with panic := some e }

end EafitOs.FileSystem
