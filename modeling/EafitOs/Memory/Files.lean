import Mathlib.Algebra.Group.Int.Defs
import Mathlib.Algebra.Group.Nat.Defs
import Mathlib.Data.List.Basic
import Mathlib.Logic.Function.Basic

/-!
# Open files and file contents

The part of the file system that memory mappings use: the open-file table with its reference
counts, and each inode as its bytes. A write may find no block for a part of the file past its
end.
-/

namespace EafitOs.Memory

def bsize : Nat := 1024

def maxfile : Nat := 12 + 256

inductive FileType
  | none
  | pipe
  | inode
  | device
  deriving DecidableEq

structure File where
  type : FileType
  ref : Nat
  readable : Bool
  writable : Bool
  /-- Kept from an earlier use of the entry when the type is `pipe`. -/
  ip : Option Nat

structure Inode where
  type : Nat
  nlink : Nat
  ref : Nat
  size : Nat
  data : Nat → UInt8

/-- A byte written to a file by `writei`. -/
structure Written where
  inum : Nat
  off : Nat
  byte : UInt8
  deriving DecidableEq

/-- Open files, inodes, the blocks the disk can provide to each coming `writei`, and
the bytes that `writei` has written so far. -/
structure Fs where
  ftable : Nat → File
  inode : Nat → Inode
  room : Nat → Nat
  nwrites : Nat
  written : List Written

namespace Fs

def setInode (fs : Fs) (i : Nat) (ino : Inode) : Fs :=
  { fs with inode := Function.update fs.inode i ino }

def setFile (fs : Fs) (f : Nat) (file : File) : Fs :=
  { fs with ftable := Function.update fs.ftable f file }

/-- `ilock`, giving the inode the pointer leads to. -/
def ilock (fs : Fs) (ip : Option Nat) : Except String Nat :=
  match ip with
  | none => .error "ilock"
  | some i =>
    if (fs.inode i).ref < 1 then .error "ilock"
    else if (fs.inode i).type = 0 then .error "ilock: no type"
    else .ok i

/-- The bytes `readi` copies for `uint` arguments `off` and `n`. -/
def readi (fs : Fs) (i off n : Nat) : List UInt8 :=
  let ino := fs.inode i
  if ino.size < off ∨ 2 ^ 32 ≤ off + n then []
  else (List.range (min n (ino.size - off))).map fun j => ino.data (off + j)

/-- The bytes of a `writei` that reach the file when the source copy can deliver
`src`: it stops at the first block that is neither part of the file nor to be had. -/
def writeLen (fs : Fs) (i off n : Nat) (src : List UInt8) : Nat :=
  let blocks := max (fs.room fs.nwrites) (((fs.inode i).size + (bsize - 1)) / bsize)
  min (min n src.length) (blocks * bsize - off)

/-- `writei` of `n` bytes at `off`, where the source copy delivers `src`. -/
def writei (fs : Fs) (i off n : Nat) (src : List UInt8) : Fs :=
  let ino := fs.inode i
  if ino.size < off ∨ 2 ^ 32 ≤ off + n ∨ maxfile * bsize < off + n then fs
  else
    let tot := writeLen fs i off n src
    { fs.setInode i { ino with
        size := max ino.size (off + tot)
        data := fun j => if off ≤ j ∧ j < off + tot then src.getD (j - off) 0 else ino.data j } with
      nwrites := fs.nwrites + 1
      written := fs.written ++ (List.range tot).map fun j => ⟨i, off + j, src.getD j 0⟩ }

def filedup (fs : Fs) (f : Nat) : Except String Fs :=
  let file := fs.ftable f
  if file.ref < 1 then .error "filedup" else .ok (fs.setFile f { file with ref := file.ref + 1 })

/-- `iput`: the last reference to an unlinked inode frees it. -/
def iput (fs : Fs) (i : Nat) : Fs :=
  let ino := fs.inode i
  if ino.ref = 1 ∧ ino.nlink = 0 then
    fs.setInode i { ino with type := 0, ref := 0, size := 0, data := fun _ => 0 }
  else fs.setInode i { ino with ref := ino.ref - 1 }

def idup (fs : Fs) (i : Nat) : Fs :=
  fs.setInode i { fs.inode i with ref := (fs.inode i).ref + 1 }

/-- `fileclose`. The buffer of a pipe is not modelled. -/
def fileclose (fs : Fs) (f : Nat) : Except String Fs :=
  let file := fs.ftable f
  if file.ref < 1 then .error "fileclose"
  else if 1 < file.ref then .ok (fs.setFile f { file with ref := file.ref - 1 })
  else
    let fs := fs.setFile f { file with ref := 0, type := .none }
    match file.type, file.ip with
    | .inode, some i => .ok (fs.iput i)
    | .device, some i => .ok (fs.iput i)
    | _, _ => .ok fs

end Fs

end EafitOs.Memory
