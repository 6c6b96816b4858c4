import EafitOs.Memory.Exec

/-!
# Processes

The process table over one physical memory and one set of files. A step is one
system call, one user access or one access of the kernel to user memory, by one
process; an access that faults is a step of its own and the program tries again.
-/

namespace EafitOs.Memory

open Function

inductive Slot
  | unused
  | live (p : Proc)
  | zombie (p : Proc) (xstate : UInt32)

inductive Call
  | mmap (length : UInt64) (prot flags : UInt32) (fd : Int32) (offset : UInt64)
  | munmap (addr length : UInt64)
  | sbrk (n t : Int32)
  | mapzero (size : Int32)
  | mapRo (va : UInt64)
  | exec (path : String) (argv : List (List UInt8))
  | load (va : UInt64)
  | store (va : UInt64) (b : UInt8)
  /-- A system call reads or writes user memory. -/
  | copyin (va len : UInt64)
  | copyout (va : UInt64) (bs : List UInt8)
  | copyinstr (va max : UInt64)

/-- The result of a call: a number, where `none` is -1 or a page fault. -/
def Ctx.run (c : Ctx) (namei : String → Option Nat) : Call → Except String (Option Nat × Ctx)
  | .mmap length prot flags fd offset =>
    sysMmap c length.toNat prot flags fd.toInt offset.toNat
  | .munmap addr length => do
    let (ok, c) ← sysMunmap c addr.toNat length.toNat
    .ok (if ok then some 0 else none, c)
  | .sbrk n t => sysSbrk c n.toInt t.toInt
  | .mapzero size => .ok (sysMapzero c size.toInt)
  | .mapRo va => do
    let (ok, c) ← sysMapRo c va.toNat
    .ok (if ok then some 0 else none, c)
  | .exec path argv => kexec c (namei path) argv
  | .load va =>
    match loadByte c.vm va.toNat with
    | some b => .ok (some b.toNat, c)
    | none => do
      let c ← usertrap c va.toNat
      .ok (none, c)
  | .store va b =>
    match storeByte c.vm va.toNat b with
    | some v => .ok (some 0, c.setVm v)
    | none => do
      let c ← usertrap c va.toNat
      .ok (none, c)
  | .copyin va len => do
    let (ok, _, v) ← copyin c.vm c.proc.sz va.toNat len.toNat
    .ok (if ok then some 0 else none, c.setVm v)
  | .copyout va bs => do
    let (ok, v) ← copyout c.vm c.proc.sz va.toNat bs
    .ok (if ok then some 0 else none, c.setVm v)
  | .copyinstr va max => do
    let (ok, _, v) ← copyinstr c.vm c.proc.sz va.toNat max.toNat
    .ok (if ok then some 0 else none, c.setVm v)

structure Kernel where
  mem : Mem
  fs : Fs
  slot : Fin nproc → Slot
  initproc : Fin nproc
  namei : String → Option Nat
  panic : Option String

namespace Kernel

def ctx (k : Kernel) (p : Proc) : Ctx := ⟨k.mem, k.fs, p⟩

def put (k : Kernel) (i : Fin nproc) (c : Ctx) : Kernel :=
  { k with mem := c.mem, fs := c.fs, slot := update k.slot i (.live c.proc) }

/-- `reparent`: the children of a dying process go to `initproc`. -/
def reparent (k : Kernel) (i : Fin nproc) : Fin nproc → Slot := fun j =>
  match k.slot j with
  | .unused => .unused
  | .live p => .live (if p.parent = some i then { p with parent := some k.initproc } else p)
  | .zombie p x => .zombie (if p.parent = some i then { p with parent := some k.initproc } else p) x

/-- `kexit` of the process in slot `i`. -/
def exit (k : Kernel) (i : Fin nproc) (c : Ctx) (status : UInt32) : Except String Kernel :=
  if i = k.initproc then .error "init exiting"
  else do
    let c ← kexit c
    .ok { k with
      mem := c.mem
      fs := c.fs
      slot := update (k.reparent i) i (.zombie c.proc status) }

/-- A call by the process in slot `i`. A killed process exits on its way back. -/
def call (k : Kernel) (i : Fin nproc) (p : Proc) (a : Call) : Except String Kernel := do
  let (_, c) ← (k.ctx p).run k.namei a
  if c.proc.killed then k.exit i c 0xFFFFFFFF else .ok (k.put i c)

def freeproc (m : Mem) (tf : Frame) (pt : Option PageTable) (sz : Nat) : Except String Mem := do
  let m ← m.kfree tf
  match pt with
  | none => .ok m
  | some pt => procFreepagetable ⟨m, pt⟩ sz

/-- Take a reference for each used mapping and each descriptor of a new process. -/
def dupFiles (fs : Fs) (p : Proc) : Except String Fs := do
  let fs ← (List.finRange maxvma).foldlM (fun fs i =>
    if (p.vmas i).used then fs.filedup (p.vmas i).file else .ok fs) fs
  let fs ← (List.finRange nofile).foldlM (fun fs fd =>
    match p.ofile fd with
    | none => .ok fs
    | some f => fs.filedup f) fs
  match p.cwd with
  | none => .ok fs
  | some i => .ok (fs.idup i)

/-- `kfork` by the process `p` in slot `i`. -/
def fork (k : Kernel) (i : Fin nproc) (p : Proc) : Except String Kernel :=
  match firstIdx fun j => match k.slot j with
      | .unused => true
      | _ => false with
  | none => .ok k
  | some j =>
    match k.mem.kalloc with
    | none => .ok k
    | some (tf, m) => do
      let (v, m) ← procPagetable m tf
      match v with
      | none =>
        let m ← freeproc m tf none 0
        .ok { k with mem := m }
      | some v =>
        let (ok, v) ← uvmcopy p.pt v p.sz
        if ok then
          let fs ← dupFiles k.fs p
          let child := { p with pt := v.pt, tf := tf, parent := some i, killed := false }
          .ok { k with mem := v.mem, fs := fs, slot := update k.slot j (.live child) }
        else
          let m ← freeproc v.mem tf (some v.pt) 0
          .ok { k with mem := m }

/-- A zombie child of the process in slot `i`. -/
def zombieChild (k : Kernel) (i j : Fin nproc) : Bool :=
  match k.slot j with
  | .zombie p _ => p.parent == some i
  | _ => false

def xstateBytes (x : UInt32) : List UInt8 := (List.range 4).map fun n => (x.toNat / 256 ^ n).toUInt8

/-- Hand the exit status of a child to the address `kwait` was given, if any. -/
def giveStatus (c : Ctx) (addr : Nat) (xstate : UInt32) : Except String (Bool × Vm) :=
  if addr = 0 then .ok (true, c.vm) else copyout c.vm c.proc.sz addr (xstateBytes xstate)

/-- `kwait` by the process `p` in slot `i`, where nothing changes while it sleeps. -/
def wait (k : Kernel) (i : Fin nproc) (p : Proc) (addr : Nat) : Except String Kernel :=
  match firstIdx (k.zombieChild i) with
  | none => .ok k
  | some j =>
    match k.slot j with
    | .zombie q xstate => do
      let (ok, v) ← giveStatus (k.ctx p) addr xstate
      let k := k.put i ((k.ctx p).setVm v)
      if ok then
        let m ← freeproc k.mem q.tf (some q.pt) q.sz
        .ok { k with mem := m, slot := update k.slot j .unused }
      else .ok k
    | _ => .ok k

end Kernel

inductive Act
  | call (i : Fin nproc) (a : Call)
  | fork (i : Fin nproc)
  | exit (i : Fin nproc) (status : UInt32)
  | wait (i : Fin nproc) (addr : UInt64)

def Act.who : Act → Fin nproc
  | .call i _ | .fork i | .exit i _ | .wait i _ => i

/-- User mode is entered and left through these two pages. -/
def Proc.canRun (p : Proc) : Bool := decide (vpn trampoline ∈ p.pt.leaf ∧ vpn trapframe ∈ p.pt.leaf)

namespace Kernel

/-- A panic stops the machine; nothing else touches `panic`. -/
def settle (k : Kernel) : Except String Kernel → Kernel
  | .ok k' => { k' with panic := k.panic }
  | .error e => { k with panic := some e }

def act (k : Kernel) (p : Proc) : Act → Except String Kernel
  | .call i a => k.call i p a
  | .fork i => k.fork i p
  | .exit i status => k.exit i (k.ctx p) status
  | .wait i addr => k.wait i p addr.toNat

def step (k : Kernel) (a : Act) : Option Kernel :=
  if k.panic.isSome then none
  else
    match k.slot a.who with
    | .live p => if p.canRun then some (k.settle (k.act p a)) else none
    | _ => none

end Kernel

def KStep (k : Kernel) (a : Act) (k' : Kernel) : Prop := k.step a = some k'

def Kernel.proc? (k : Kernel) (i : Fin nproc) : Option Proc :=
  match k.slot i with
  | .live p => some p
  | _ => none

def samplePt (f : Frame) : PageTable :=
  ((((PageTable.empty f).addMid (trampoline / 2 ^ 30) (f + 1)).addLow (trampoline / 2 ^ 21)
    (f + 2)).setLeaf (vpn trampoline) ⟨0x80007, ⟨true, false, true, false⟩⟩).setLeaf (vpn trapframe)
    ⟨f + 3, ⟨true, true, false, false⟩⟩

def sampleProc (f : Frame) (parent : Option (Fin nproc)) : Proc where
  sz := 4096
  pt := samplePt f
  tf := f + 3
  vmas := fun _ => ⟨false, 0, 0, 0, 0, 0, 0⟩
  vregions := fun _ => ⟨false, 0, 0⟩
  ofile := fun fd => if fd = 3 then some 0 else none
  cwd := none
  parent := parent
  killed := false

def sampleKernel : Kernel where
  mem :=
    { free := (List.range 16).map (0x80200 + ·)
      page := fun _ => memset 0
      kend := 0x80100
      text := 0x80007
      text_lt := by decide }
  fs :=
    { ftable := fun _ => ⟨.inode, 2, true, true, some 1⟩
      inode := fun _ => ⟨2, 1, 1, 5000, fun j => j.toUInt8⟩
      room := fun _ => 0
      nwrites := 0
      written := [] }
  slot := fun i =>
    if i = 0 then .live (sampleProc 0x80110 none)
    else if i = 1 then .live (sampleProc 0x80120 (some 0))
    else .unused
  initproc := 0
  namei := fun _ => none
  panic := none

end EafitOs.Memory
