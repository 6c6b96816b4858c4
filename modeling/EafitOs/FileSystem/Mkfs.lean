import EafitOs.Directory.Inodes
import EafitOs.FileSystem.BlockOwnership

/-!
# Building the first image

`mkfs` writes an image of `FSSIZE` blocks with a root directory and one file for every
input. It hands out inodes and blocks by counting up, and keeps neither counter within
its area: what stops it is reading past the end of the image file.
-/

namespace EafitOs.FileSystem.Mkfs

open Foundation Disk

def fssize : Nat := 2000

def ninodes : Nat := 200

/-- The log header followed by `LOGBLOCKS` data blocks. -/
def nlog : Nat := 30 + 1

def nbitmap : Nat := fssize / bpb + 1

def ninodeblocks : Nat := ninodes / ipb + 1

def nmeta : Nat := 2 + nlog + ninodeblocks + nbitmap

def sb : Superblock where
  size := fssize
  nblocks := fssize - nmeta
  ninodes := ninodes
  inodestart := 2 + nlog
  bmapstart := 2 + nlog + ninodeblocks
  size_lt := by decide
  inodes_lt := by decide
  bitmap_lt := by decide

/-- The layout of `struct superblock` with the values `mkfs` gives its fields. -/
def superFields : List Field :=
  [⟨0, 4, 0x10203040⟩, ⟨4, 4, sb.size⟩, ⟨8, 4, sb.nblocks⟩, ⟨12, 4, sb.ninodes⟩, ⟨16, 4, nlog⟩,
    ⟨20, 4, 2⟩, ⟨24, 4, sb.inodestart⟩, ⟨28, 4, sb.bmapstart⟩]

def typeDir : UInt16 := 1

def typeFile : UInt16 := 2

structure Image where
  sector : Nat → Block
  length : Nat
  freeinode : Nat
  freeblock : Nat

/-- The block of the file that `lseek` goes to for a sector: the product `sec * BSIZE` is
computed in 32 bits. -/
def seek (sec : Nat) : Nat := sec * bsize % 2 ^ 32 / bsize

namespace Image

def wsect (m : Image) (sec : Nat) (buf : Block) : Image :=
  { m with
    sector := Function.update m.sector (seek sec) buf
    length := max m.length (seek sec + 1) }

/-- `rsect`: the program ends when the read comes back short. -/
def rsect (m : Image) (sec : Nat) : Option Block :=
  if seek sec < m.length then some (m.sector (seek sec)) else none

def winode (m : Image) (inum : Nat) (d : Dinode) : Option Image := do
  let buf ← m.rsect (sb.iblock inum)
  some (m.wsect (sb.iblock inum) (Dinode.put buf (inum % ipb) d))

def rinode (m : Image) (inum : Nat) : Option Dinode := do
  let buf ← m.rsect (sb.iblock inum)
  some (Dinode.get buf (inum % ipb))

def ialloc (m : Image) (type : UInt16) : Option (Nat × Image) := do
  let inum := m.freeinode
  let m ← { m with freeinode := inum + 1 }.winode inum { Dinode.fresh type with nlink := 1 }
  some (inum, m)

def fillAddr (m : Image) (din : Dinode) (k : Fin (ndirect + 1)) : Dinode × Image :=
  if din.addrs k = 0 then
    (din.setAddr k (UInt32.ofNat m.freeblock), { m with freeblock := m.freeblock + 1 })
  else (din, m)

/-- Give an entry of the indirect block `a` a block if it has none. -/
def fillEntry (m : Image) (a k : Nat) : Option (UInt32 × Image) := do
  let ind ← m.rsect a
  if entry ind k = 0 then
    let ind := setLE ind (4 * k) 4 (UInt32.ofNat m.freeblock).toNat
    some (entry ind k, { m with freeblock := m.freeblock + 1 }.wsect a ind)
  else some (entry ind k, m)

/-- The part of `iappend` that finds the block `x` for the index `fbn`. -/
def blockFor (m : Image) (din : Dinode) (fbn : Nat) : Option (UInt32 × Dinode × Image) :=
  if h : fbn < ndirect then
    let k : Fin (ndirect + 1) := ⟨fbn, Nat.lt_succ_of_lt h⟩
    let (din, m) := m.fillAddr din k
    some (din.addrs k, din, m)
  else do
    let (din, m) := m.fillAddr din indirect
    let (x, m) ← m.fillEntry (din.addrs indirect).toNat (fbn - ndirect)
    some (x, din, m)

/-- The loop of `iappend`. A round takes at least one byte, so the number of bytes is
enough as fuel. -/
def iappendLoop : Nat → Image → Dinode → Nat → List UInt8 → Option (Nat × Dinode × Image)
  | 0, m, din, off, _ => some (off, din, m)
  | fuel + 1, m, din, off, p =>
    if p = [] then some (off, din, m)
    else if maxfile ≤ off / bsize then none
    else do
      let (x, din, m) ← m.blockFor din (off / bsize)
      let n1 := min p.length ((off / bsize + 1) * bsize - off)
      let buf ← m.rsect x.toNat
      let buf := overlay buf (off - off / bsize * bsize) (p.take n1)
      iappendLoop fuel (m.wsect x.toNat buf) din (off + n1) (p.drop n1)

@[simp] theorem iappendLoop_nil (fuel : Nat) (m : Image) (din : Dinode) (off : Nat) :
    iappendLoop fuel m din off [] = some (off, din, m) := by
  cases fuel <;> rfl

def iappend (m : Image) (inum : Nat) (p : List UInt8) : Option Image := do
  let din ← m.rinode inum
  let (off, din, m) ← iappendLoop p.length m din din.size.toNat p
  m.winode inum { din with size := UInt32.ofNat off }

def balloc (m : Image) (used : Nat) : Option Image :=
  if used < bpb then some (m.wsect sb.bmapstart ((List.range used).foldl setBit fun _ => 0))
  else none

end Image

/-- The bytes of a `struct dirent` for a name of at most `DIRSIZ` bytes. -/
def dirent (inum : Nat) (name : Directory.Name) : List UInt8 :=
  [UInt8.ofNat inum, UInt8.ofNat (inum / 256)] ++ name ++
    List.replicate (Directory.dirsiz - name.length) 0

/-- What one `read` into the buffer delivers. -/
structure Chunk where
  bytes : List UInt8
  nonempty : bytes ≠ []
  le : bytes.length ≤ bsize

/-- An argument of `mkfs` and, if the file can be opened, what reading it delivers. -/
structure Input where
  path : List UInt8
  noNul : 0 ∉ path
  chunks : Option (List Chunk)

namespace Input

def userDir : List UInt8 := [117, 115, 101, 114, 47]

def slash : UInt8 := 47

def underscore : UInt8 := 95

/-- The argument without a leading `user/`. -/
def base (x : Input) : List UInt8 :=
  if x.path.take 5 = userDir then x.path.drop 5 else x.path

def shortname (x : Input) : Directory.Name :=
  if x.base.head? = some underscore then x.base.tail else x.base

def bytes (x : Input) : List UInt8 := (x.chunks.getD []).flatMap Chunk.bytes

end Input

def addFile (m : Image) (x : Input) : Option Image :=
  if Input.slash ∈ x.base then none
  else do
    let chunks ← x.chunks
    if Directory.dirsiz < x.shortname.length then none
    else do
      let (inum, m) ← m.ialloc typeFile
      let m ← m.iappend Directory.rootino (dirent inum x.shortname)
      chunks.foldlM (fun m c => m.iappend inum c.bytes) m

/-- The image after the loop that clears it and the super block is written. -/
def blank : Image :=
  let m : Image := ⟨fun _ _ => 0, 0, 1, nmeta⟩
  let m := (List.range fssize).foldl (fun m i => m.wsect i fun _ => 0) m
  m.wsect 1 (setFields (fun _ => 0) 0 superFields)

/-- The end of `main`: the size of the root directory is rounded up and the bitmap is
written. -/
def finish (m : Image) (rootino : Nat) : Option Image := do
  let din ← m.rinode rootino
  let m ← m.winode rootino
    { din with size := UInt32.ofNat ((din.size.toNat / bsize + 1) * bsize) }
  m.balloc m.freeblock

/-- `main`; `none` if it does not exit with status 0. -/
def mkfs (inputs : List Input) : Option Image := do
  let (rootino, m) ← blank.ialloc typeDir
  if rootino ≠ Directory.rootino then none
  else do
    let m ← m.iappend rootino (dirent rootino Directory.dot)
    let m ← m.iappend rootino (dirent rootino Directory.dotdot)
    let m ← inputs.foldlM addFile m
    finish m rootino

end EafitOs.FileSystem.Mkfs
