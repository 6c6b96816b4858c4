import EafitOs.Foundation.Panics
import EafitOs.Foundation.RingBuffer
import EafitOs.Foundation.Runs

/-!
# The virtio disk driver

The driver describes a request to the device by a chain of three descriptors and puts the head of
the chain into the ring `avail`. The device takes heads out of `avail`, works on them in any
order, and puts each into the ring `used`, where the interrupt handler finds it. A step is a
stretch of code under `vdisk_lock`, or one action of the device.
-/

namespace EafitOs.Disk

open Foundation Function

/-- `NUM`, the number of descriptors and of the entries of each ring. -/
abbrev num : Nat := 8

/-- The range of the `uint16` counters of the rings. -/
abbrev counterRange : Nat := 2 ^ 16

inductive Addr (B : Type)
  | null
  | ops (i : Nat)
  | data (b : B)
  | status (i : Nat)

def descNext : UInt16 := 1

def descWrite : UInt16 := 2

structure Desc (B : Type) where
  addr : Addr B
  len : Nat
  flags : UInt16
  next : Nat

structure Info (B : Type) where
  b : Option B
  status : UInt8

structure BlkReq where
  type : UInt32
  reserved : UInt32
  sector : UInt64

/-- The struct `disk`. The ring `avail` ends at `avail->idx` and begins where the device
has got to; the ring `used` ends at `used->idx` and begins at `used_idx`. -/
structure Virtio (B : Type) where
  desc : Nat → Desc B
  avail : RingBuffer Nat
  used : RingBuffer Nat
  free : Nat → Bool
  info : Nat → Info B
  ops : Nat → BlkReq

namespace Virtio

variable {B : Type}

def allocDesc (d : Virtio B) : Option (Nat × Virtio B) :=
  ((List.range num).find? d.free).map fun i => (i, { d with free := update d.free i false })

def freeDesc (d : Virtio B) (i : Nat) : Except String (Virtio B) :=
  if num ≤ i then .error "free_desc 1"
  else if d.free i then .error "free_desc 2"
  else
    .ok { d with
      desc := update d.desc i ⟨.null, 0, 0, 0⟩
      free := update d.free i true }

/-- `free_chain`, with a bound on the descriptors of the chain. -/
def freeChain : Nat → Virtio B → Nat → Except String (Virtio B)
  | 0, d, _ => .ok d
  | k + 1, d, i => do
    let e := d.desc i
    let d ← d.freeDesc i
    if e.flags &&& descNext ≠ 0 then freeChain k d e.next else .ok d

/-- The loop of `alloc3_desc` with `n` rounds to go and the indices found so far. -/
def allocLoop : Nat → List Nat → Virtio B → Except String (Option (List Nat) × Virtio B)
  | 0, idx, d => .ok (some idx, d)
  | n + 1, idx, d =>
    match d.allocDesc with
    | some (i, d) => allocLoop n (idx ++ [i]) d
    | none => do
      let d ← idx.foldlM freeDesc d
      .ok (none, d)

def alloc3Desc (d : Virtio B) : Except String (Option (List Nat) × Virtio B) := allocLoop 3 [] d

/-- The part of `virtio_disk_rw` that formats the descriptors and tells the device. -/
def submit (d : Virtio B) (blockno : UInt32) (b : B) (write : Bool) (i₀ i₁ i₂ : Nat) : Virtio B :=
  let flags : UInt16 := (if write then 0 else descWrite) ||| descNext
  { d with
    ops := update d.ops i₀ ⟨if write then 1 else 0, 0, (blockno * 2).toUInt64⟩
    desc := update (update (update d.desc
      i₀ ⟨.ops i₀, 16, descNext, i₁⟩)
      i₁ ⟨.data b, 1024, flags, i₂⟩)
      i₂ ⟨.status i₀, 1, descWrite, 0⟩
    info := update d.info i₀ ⟨some b, 0xff⟩
    avail := d.avail.push num counterRange i₀ }

end Virtio

/-- Where a process is: outside of `virtio_disk_rw`, in the loop for three descriptors, or
in the loop that waits for its buffer. -/
inductive Caller (B : Type)
  | idle
  | allocating (b : B) (write : Bool)
  | waiting (b : B) (i₀ i₁ i₂ : Nat)

namespace Caller

variable {B : Type}

def buffer : Caller B → Option B
  | .idle => none
  | .allocating b _ | .waiting b _ _ _ => some b

def chain : Caller B → List Nat
  | .waiting _ i₀ i₁ i₂ => [i₀, i₁, i₂]
  | _ => []

end Caller

structure DiskState (P B : Type) where
  disk : Virtio B
  /-- `b->disk`. -/
  busy : B → Bool
  /-- The process that has the sleep lock of the buffer. -/
  holder : B → Option P
  caller : P → Caller B
  /-- The heads the device works on. -/
  pending : List Nat

inductive DiskAct (P B : Type)
  | acquiresleep (p : P) (b : B)
  | releasesleep (p : P) (b : B)
  /-- A process enters `virtio_disk_rw`. -/
  | rw (p : P) (b : B) (write : Bool)
  /-- It tries to get three descriptors. -/
  | alloc (p : P)
  /-- It finds that its request is done. -/
  | finish (p : P)
  /-- One round of `virtio_disk_intr`. -/
  | intr
  /-- The device takes a head out of `avail`. -/
  | fetch
  /-- The device writes the status and puts the head into `used`. -/
  | complete (i : Nat)

namespace DiskState

variable {P B : Type} [DecidableEq P] [DecidableEq B]

def setCaller (s : DiskState P B) (p : P) (c : Caller B) : DiskState P B :=
  { s with caller := update s.caller p c }

/-- The device follows the chain to the byte for the status. -/
def writeStatus (d : Virtio B) (i : Nat) : Virtio B :=
  match (d.desc (d.desc (d.desc i).next).next).addr with
  | .status j => { d with info := update d.info j { d.info j with status := 0 } }
  | _ => d

/-- A step of a process or of the device; `.error` is a panic of the kernel. -/
def step (blockno : B → UInt32) (s : DiskState P B) :
    DiskAct P B → Option (Except String (DiskState P B))
  | .acquiresleep p b =>
    match s.caller p, s.holder b with
    | .idle, none => some (.ok { s with holder := update s.holder b (some p) })
    | _, _ => none
  | .releasesleep p b =>
    match s.caller p with
    | .idle =>
      if s.holder b = some p then
        some (.ok { s with holder := update s.holder b none })
      else none
    | _ => none
  | .rw p b write =>
    match s.caller p with
    | .idle =>
      if s.holder b = some p then some (.ok (s.setCaller p (.allocating b write))) else none
    | _ => none
  | .alloc p =>
    match s.caller p with
    | .allocating b write =>
      some (s.disk.alloc3Desc >>= fun
        | (some [i₀, i₁, i₂], d) =>
          .ok ({ s with
            disk := d.submit (blockno b) b write i₀ i₁ i₂
            busy := update s.busy b true }.setCaller p (.waiting b i₀ i₁ i₂))
        | (_, d) => .ok { s with disk := d })
    | _ => none
  | .finish p =>
    match s.caller p with
    | .waiting b i₀ _ _ =>
      if s.busy b then none
      else
        let d := { s.disk with
          info := update s.disk.info i₀ { s.disk.info i₀ with b := none } }
        some (d.freeChain (num + 1) i₀ >>= fun d => .ok ({ s with disk := d }.setCaller p .idle))
    | _ => none
  | .intr =>
    let d := s.disk
    if d.used.head = d.used.tail then none
    else
      let id := d.used.cell (d.used.head % num)
      if (d.info id).status ≠ 0 then some (.error "virtio_disk_intr status")
      else
        match (d.info id).b with
        | none => some (.error "kerneltrap")
        | some b =>
          some (.ok { s with
            disk := { d with used := d.used.pop counterRange }
            busy := update s.busy b false })
  | .fetch =>
    let d := s.disk
    if d.avail.head = d.avail.tail then none
    else
      some (.ok { s with
        disk := { d with avail := d.avail.pop counterRange }
        pending := s.pending ++ [d.avail.cell (d.avail.head % num)] })
  | .complete i =>
    if i ∈ s.pending then
      let d := writeStatus s.disk i
      some (.ok { s with
        disk := { d with used := d.used.push num counterRange i }
        pending := s.pending.erase i })
    else none

end DiskState

/-- The driver after `virtio_disk_init`, where both counters of the rings may have any
value. -/
def freshDisk (P B : Type) (k j : UInt16) : DiskState P B where
  disk :=
    { desc := fun _ => ⟨.null, 0, 0, 0⟩
      avail := ⟨fun _ => 0, k.toNat, k.toNat⟩
      used := ⟨fun _ => 0, j.toNat, j.toNat⟩
      free := fun i => decide (i < num)
      info := fun _ => ⟨none, 0⟩
      ops := fun _ => ⟨0, 0, 0⟩ }
  busy _ := false
  holder _ := none
  caller _ := .idle
  pending := []

end EafitOs.Disk
