import EafitOs.Disk.Buffer

/-!
# The redo log

The on-disk log is a header block at `start` followed by `logBlocks` data
blocks. The loops of `write_log` and `install_trans` are folds of one body, so
that a concurrent commit can take the same bodies one at a time.
-/

namespace EafitOs.RedoLog

open Foundation Disk Machine

/-- Blocks one file-system operation may write (`MAXOPBLOCKS`). -/
def maxOpBlocks : Nat := 10

/-- Data blocks of the on-disk log (`LOGBLOCKS`). -/
def logBlocks : Nat := maxOpBlocks * 3

/-- The first `n` entries of `struct logheader`. The entries past `n` are never read. -/
structure LogHeader where
  block : List Nat
  bound : block.length ≤ logBlocks
  /-- Block numbers are 32-bit. -/
  fits : ∀ b ∈ block, b < 2 ^ 32

namespace LogHeader

def n (lh : LogHeader) : Nat := lh.block.length

def empty : LogHeader := ⟨[], by simp, by simp⟩

end LogHeader

/-- The in-memory log, without the spin lock and the device number. -/
structure Log where
  start : Nat
  outstanding : Int
  committing : Bool
  lh : LogHeader

def inLog (start b : Nat) : Prop := start ≤ b ∧ b ≤ start + logBlocks

instance (start b : Nat) : Decidable (inLog start b) := inferInstanceAs (Decidable (_ ∧ _))

/-- Store `block[i]` in the header block, for the entries from `i` on. -/
def putBlocks (hb : Block) (i : Nat) : List Nat → Block
  | [] => hb
  | b :: rest => putBlocks (setLE hb (4 + 4 * i) 4 b) (i + 1) rest

/-- The header block after `hb->n = n` and the copy of the `n` block numbers. -/
def encodeHead (hb : Block) (lh : LogHeader) : Block :=
  putBlocks (setLE hb 0 4 lh.n) 0 lh.block

/-- The signed 32-bit `n` field of a header block. -/
def headN (hb : Block) : Int :=
  if getLE hb 0 4 < 2 ^ 31 then getLE hb 0 4 else (getLE hb 0 4 : Int) - 2 ^ 32

/-- The first `n` block numbers of a header block. -/
def headBlocks (hb : Block) (n : Nat) : List Nat :=
  (List.range n).map fun i => getLE hb (4 + 4 * i) 4

theorem headBlocks_fits (hb : Block) (n : Nat) : ∀ b ∈ headBlocks hb n, b < 2 ^ 32 := by
  intro b hmem
  obtain ⟨i, _, rfl⟩ := List.mem_map.mp hmem
  exact (getLE_lt hb (4 + 4 * i) 4).trans_eq (by norm_num)

/-- The header read from a header block. A count above `logBlocks` would make
`read_head` store past the end of `log.lh.block`, so it has no result. -/
def decodeHead (hb : Block) : Option LogHeader :=
  if h : (headN hb).toNat ≤ logBlocks then
    some ⟨headBlocks hb (headN hb).toNat, by simpa [headBlocks] using h, headBlocks_fits hb _⟩
  else none

def readHead (lg : Log) (m : Machine) : Option (Log × Machine) :=
  let (hb, m) := m.bread lg.start
  (decodeHead hb).map fun lh => ({ lg with lh }, m.brelse lg.start)

def writeHead (lg : Log) (m : Machine) : Machine :=
  let (hb, m) := m.bread lg.start
  ((m.fill lg.start (encodeHead hb lg.lh)).bwrite lg.start).brelse lg.start

/-- One iteration of `write_log`: copy a modified block from the cache to its log block. -/
def writeLogAt (lg : Log) (m : Machine) (tail : Nat) : Machine :=
  let home := lg.lh.block.getD tail 0
  let (_, m) := m.bread (lg.start + tail + 1)
  let (data, m) := m.bread home
  (((m.fill (lg.start + tail + 1) data).bwrite (lg.start + tail + 1)).brelse home).brelse
    (lg.start + tail + 1)

def writeLog (lg : Log) (m : Machine) : Machine :=
  (List.range lg.lh.n).foldl (writeLogAt lg) m

/-- One iteration of `install_trans`: copy a log block to its home location. -/
def installTransAt (lg : Log) (recovering : Bool) (m : Machine) (tail : Nat) : Machine :=
  let home := lg.lh.block.getD tail 0
  let (data, m) := m.bread (lg.start + tail + 1)
  let (_, m) := m.bread home
  let m := (m.fill home data).bwrite home
  let m := if recovering then m else m.bunpin home
  (m.brelse (lg.start + tail + 1)).brelse home

def installTrans (lg : Log) (recovering : Bool) (m : Machine) : Machine :=
  (List.range lg.lh.n).foldl (installTransAt lg recovering) m

def recoverFromLog (lg : Log) (m : Machine) : Option (Log × Machine) :=
  (readHead lg m).map fun (lg, m) =>
    let m := installTrans lg true m
    let lg := { lg with lh := LogHeader.empty }
    (lg, writeHead lg m)

def commit (lg : Log) (m : Machine) : Log × Machine :=
  if lg.lh.n > 0 then
    let m := writeLog lg m
    let m := writeHead lg m
    let m := installTrans lg false m
    let lg := { lg with lh := LogHeader.empty }
    (lg, writeHead lg m)
  else (lg, m)

/-- The log set up by `initlog` before it recovers. -/
def initlog (start : Nat) : Log :=
  { start, outstanding := 0, committing := false, lh := LogHeader.empty }

end EafitOs.RedoLog
