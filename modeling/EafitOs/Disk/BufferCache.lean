import EafitOs.Disk.Buffer
import EafitOs.Foundation.LinkedRing
import EafitOs.Foundation.Runs
import EafitOs.Foundation.Tally

/-!
# The buffer cache

The buffers are linked in a circle in the order in which they were last given back.
`bget` looks for a block along `next` and takes the least recently released buffer that
nobody uses along `prev`. Calls of `bread` run side by side: the state has one entry for
each of them, and a step is a stretch of code under the lock of the cache or under the
lock of a buffer.
-/

namespace EafitOs.Disk

open Foundation Function List Option

abbrev nbuf : Nat := 30

/-- The struct `buf`, where `locked` is its sleep lock. -/
structure Buf where
  valid : Bool
  dev : UInt32
  blockno : UInt32
  locked : Bool
  refcnt : Nat
  data : Block

def Buf.block (b : Buf) : UInt32 × UInt32 := (b.dev, b.blockno)

/-- The buffer in the hands of its holder, where `d` is the block on the disk. -/
def Buf.fetch (b : Buf) (d : Block) : Buf :=
  { b with locked := true, valid := true, data := if b.valid then b.data else d }

/-- The struct `bcache`; its head is `none` in the links. -/
structure Bcache where
  buf : Fin nbuf → Buf
  links : Links (Fin nbuf)

def binit : Bcache where
  buf _ := ⟨false, 0, 0, false, 0, fun _ => 0⟩
  links := (List.finRange nbuf).foldl Links.push .empty

namespace Bcache

def setBuf (c : Bcache) (b : Fin nbuf) (v : Buf) : Bcache :=
  { c with buf := update c.buf b v }

/-- The part of `bget` under the lock of the cache. -/
def bget (c : Bcache) (dev blockno : UInt32) : Except String (Fin nbuf × Bcache) :=
  let cached b := decide ((c.buf b).block = (dev, blockno))
  match Links.scan c.links.next cached (nbuf + 1) (c.links.next none) with
  | some b => .ok (b, c.setBuf b { c.buf b with refcnt := (c.buf b).refcnt + 1 })
  | none =>
    let unused b := decide ((c.buf b).refcnt = 0)
    match Links.scan c.links.prev unused (nbuf + 1) (c.links.prev none) with
    | some b => .ok (b, c.setBuf b { c.buf b with dev, blockno, valid := false, refcnt := 1 })
    | none => .error "bget: no buffers"

/-- The part of `brelse` under the lock of the cache. -/
def brelse (c : Bcache) (b : Fin nbuf) : Bcache :=
  let c := c.setBuf b { c.buf b with refcnt := (c.buf b).refcnt - 1 }
  if (c.buf b).refcnt = 0 then { c with links := (c.links.unlink b).push b } else c

def bpin (c : Bcache) (b : Fin nbuf) : Bcache :=
  c.setBuf b { c.buf b with refcnt := (c.buf b).refcnt + 1 }

def bunpin (c : Bcache) (b : Fin nbuf) : Bcache :=
  c.setBuf b { c.buf b with refcnt := (c.buf b).refcnt - 1 }

end Bcache

/-- Where a call of `bread` and the `brelse` that goes with it are: `bget` has found a buffer
whose lock is awaited, the caller has the buffer, or it has given the lock back. -/
inductive Request
  | idle
  | waiting (b : Fin nbuf)
  | holding (b : Fin nbuf)
  | releasing (b : Fin nbuf)
  deriving DecidableEq

def Request.buffer : Request → Option (Fin nbuf)
  | .idle => none
  | .waiting b | .holding b | .releasing b => some b

structure CacheState (P : Type) where
  cache : Bcache
  disk : UInt32 × UInt32 → Block
  request : P → Request
  /-- The calls of `bpin` without their `bunpin`. -/
  pins : Fin nbuf → Nat
  /-- When the last `brelse` of the buffer that left nobody using it was. -/
  released : Fin nbuf → Option Nat
  clock : Nat
  /-- What the last holder has left in the buffer of a block that is cached. -/
  left : UInt32 × UInt32 → Option Block

inductive CacheAct (P : Type)
  /-- `bread` calls `bget`. -/
  | bget (p : P) (dev blockno : UInt32)
  /-- It gets the lock and, unless the buffer is valid, the contents from the disk. -/
  | bread (p : P)
  /-- The holder changes the contents. -/
  | store (p : P) (d : Block)
  | bwrite (p : P)
  | releasesleep (p : P)
  | brelse (p : P)
  | bpin (b : Fin nbuf)
  | bunpin (b : Fin nbuf)

namespace CacheState

variable {P : Type} [DecidableEq P]

def setRequest (s : CacheState P) (p : P) (r : Request) : CacheState P :=
  { s with request := update s.request p r }

def setBuf (s : CacheState P) (b : Fin nbuf) (v : Buf) : CacheState P :=
  { s with cache := s.cache.setBuf b v }

/-- What is left of the contents when `bget` has chosen the buffer `b` for a block. -/
def forget (s : CacheState P) (b : Fin nbuf) (block : UInt32 × UInt32) :
    UInt32 × UInt32 → Option Block :=
  if (s.cache.buf b).block = block then s.left
  else update s.left (s.cache.buf b).block none

def step (s : CacheState P) : CacheAct P → Option (CacheState P)
  | .bget p dev blockno =>
    if s.request p ≠ .idle ∨ dev = 0 then none
    else
      match s.cache.bget dev blockno with
      | .error _ => none
      | .ok (b, cache) =>
        some ({ s with cache, left := s.forget b (dev, blockno) }.setRequest p (.waiting b))
  | .bread p =>
    match s.request p with
    | .waiting b =>
      let v := s.cache.buf b
      if v.locked then none
      else some ((s.setBuf b (v.fetch (s.disk v.block))).setRequest p (.holding b))
    | _ => none
  | .store p d =>
    match s.request p with
    | .holding b => some (s.setBuf b { s.cache.buf b with data := d })
    | _ => none
  | .bwrite p =>
    match s.request p with
    | .holding b =>
      let v := s.cache.buf b
      some { s with disk := update s.disk v.block v.data }
    | _ => none
  | .releasesleep p =>
    match s.request p with
    | .holding b =>
      let v := s.cache.buf b
      some ({ s.setBuf b { v with locked := false } with
        left := update s.left v.block (some v.data) }.setRequest p (.releasing b))
    | _ => none
  | .brelse p =>
    match s.request p with
    | .releasing b =>
      let s' := { s with cache := s.cache.brelse b, clock := s.clock + 1 }.setRequest p .idle
      if (s'.cache.buf b).refcnt = 0 then
        some { s' with released := update s.released b (some s.clock) }
      else some s'
    | _ => none
  | .bpin b =>
    some { s with
      cache := s.cache.bpin b
      pins := update s.pins b (s.pins b + 1) }
  | .bunpin b =>
    if s.pins b = 0 then none
    else
      some { s with
        cache := s.cache.bunpin b
        pins := update s.pins b (s.pins b - 1) }

/-- The buffer was released before the other one. Buffers that never were come first, in
the order of the table. -/
def Older (s : CacheState P) (b b' : Fin nbuf) : Prop :=
  match s.released b, s.released b' with
  | none, none => b < b'
  | none, some _ => True
  | some _, none => False
  | some t, some t' => t < t'

end CacheState

def freshCache (P : Type) (disk : UInt32 × UInt32 → Block) : CacheState P where
  cache := binit
  disk := disk
  request _ := .idle
  pins _ := 0
  released _ := none
  clock := 0
  left _ := none

namespace Bcache

variable {c c' : Bcache} {xs : List (Fin nbuf)} {b : Fin nbuf} {dev blockno : UInt32}

theorem bget_cases (hring : c.links.Ring xs) (hall : ∀ b, b ∈ xs)
    (h : c.bget dev blockno = .ok (b, c')) :
    ((c.buf b).block = (dev, blockno) ∧
      c' = c.setBuf b { c.buf b with refcnt := (c.buf b).refcnt + 1 }) ∨
    ((∀ b, (c.buf b).block ≠ (dev, blockno)) ∧
      xs.reverse.find? (fun b => decide ((c.buf b).refcnt = 0)) = some b ∧
      c' = c.setBuf b { c.buf b with dev, blockno, valid := false, refcnt := 1 }) := by
  have hlength : xs.length < nbuf + 1 := by
    have hcard := hring.nodup.length_le_card
    rw [Fintype.card_fin] at hcard
    omega
  rw [bget] at h
  simp only [hring.seg.scan_next hlength, hring.seg.scan_prev hlength] at h
  split at h
  · rename_i b₀ hfind
    obtain ⟨rfl, rfl⟩ := Prod.mk.inj (Except.ok.inj h)
    exact .inl ⟨by simpa using List.find?_some hfind, rfl⟩
  · rename_i hnone
    have hmiss : ∀ b, (c.buf b).block ≠ (dev, blockno) := fun b =>
      of_decide_eq_false (Bool.eq_false_iff.mpr (List.find?_eq_none.mp hnone b (hall b)))
    split at h
    · rename_i b₀ hfind
      obtain ⟨rfl, rfl⟩ := Prod.mk.inj (Except.ok.inj h)
      exact .inr ⟨hmiss, hfind, rfl⟩
    · cases h

@[grind =] theorem setBuf_buf (c : Bcache) (b b' : Fin nbuf) (v : Buf) :
    (c.setBuf b v).buf b' = if b' = b then v else c.buf b' :=
  update_apply ..

@[grind =] theorem brelse_buf (c : Bcache) (b b' : Fin nbuf) : (c.brelse b).buf b' =
    if b' = b then { c.buf b with refcnt := (c.buf b).refcnt - 1 } else c.buf b' := by
  simp only [brelse]
  split <;> exact setBuf_buf ..

theorem brelse_links : (c.brelse b).links =
    if (c.buf b).refcnt - 1 = 0 then (c.links.unlink b).push b else c.links := by
  simp only [brelse, setBuf, update_self]
  split <;> rfl

end Bcache

def Request.uses (b : Fin nbuf) (r : Request) : Nat := if r.buffer = some b then 1 else 0

theorem Request.uses_some {b : Fin nbuf} {r : Request} (h : r.buffer = some b) : r.uses b = 1 :=
  if_pos h

theorem Request.uses_none {r : Request} (h : r.buffer = none) (b : Fin nbuf) : r.uses b = 0 :=
  if_neg (by simp [h])

namespace CacheState

variable {P : Type}

structure Listed (s : CacheState P) : Prop where
  ring : ∃ xs, s.cache.links.Ring xs ∧ (∀ b, b ∈ xs) ∧ xs.Pairwise fun x y => s.Older y x
  clock : ∀ b t, s.released b = some t → t < s.clock

structure Named (s : CacheState P) : Prop where
  unique : ∀ b b', (s.cache.buf b).block.1 ≠ 0 →
    (s.cache.buf b).block = (s.cache.buf b').block → b = b'
  used : ∀ p b, (s.request p).buffer = some b → (s.cache.buf b).block.1 ≠ 0

structure Locked (s : CacheState P) : Prop where
  locked : ∀ p b, s.request p = .holding b →
    (s.cache.buf b).locked = true ∧ (s.cache.buf b).valid = true
  exclusive : ∀ p q b, s.request p = .holding b → s.request q = .holding b → p = q

/-- A buffer that is not locked has the contents that its last holder left. -/
structure Coherent (s : CacheState P) : Prop where
  kept : ∀ b, (s.cache.buf b).block.1 ≠ 0 → (s.cache.buf b).locked = false →
    s.left (s.cache.buf b).block =
      if (s.cache.buf b).valid then some (s.cache.buf b).data else none
  gone : ∀ k : UInt32 × UInt32, k.1 ≠ 0 → (∀ b, (s.cache.buf b).block ≠ k) → s.left k = none

def Counted [Fintype P] (s : CacheState P) : Prop :=
  ∀ b, (s.cache.buf b).refcnt = tally Finset.univ (Request.uses b) s.request + s.pins b

structure Valid [Fintype P] (s : CacheState P) : Prop where
  listed : s.Listed
  named : s.Named
  locks : s.Locked
  coherent : s.Coherent
  counted : s.Counted

structure Writes (s s' : CacheState P) (b : Fin nbuf) (v : Buf) : Prop where
  self : s'.cache.buf b = v
  other : ∀ b', b' ≠ b → s'.cache.buf b' = s.cache.buf b'

structure Moves (s s' : CacheState P) (p : P) (r : Request) (b : Fin nbuf) (v : Buf) : Prop
    extends Writes s s' b v where
  request : s'.request p = r
  requests : ∀ q, q ≠ p → s'.request q = s.request q
  pins : s'.pins = s.pins

section Frames

variable {s s' : CacheState P} {p : P} {r : Request} {b : Fin nbuf} {v : Buf}

theorem Writes.block (hm : Writes s s' b v) (hv : v.block = (s.cache.buf b).block)
    (b' : Fin nbuf) : (s'.cache.buf b').block = (s.cache.buf b').block := by
  by_cases heq : b' = b
  · rw [heq, hm.self, hv]
  · rw [hm.other b' heq]

theorem Named.of_block (h : s.Named)
    (hblock : ∀ b, (s'.cache.buf b).block = (s.cache.buf b).block)
    (huse : ∀ p b, (s'.request p).buffer = some b → (s.cache.buf b).block.1 ≠ 0) : s'.Named := by
  refine ⟨fun b b' hdev heq => ?_, fun p b hp => ?_⟩
  · rw [hblock] at hdev heq
    rw [hblock] at heq
    exact h.unique b b' hdev heq
  · rw [hblock]
    exact huse p b hp

theorem Named.moves (h : s.Named) (hm : Moves s s' p r b v)
    (hv : v.block = (s.cache.buf b).block) (hr : r.buffer = some b ∨ r.buffer = none)
    (hdev : (s.cache.buf b).block.1 ≠ 0) : s'.Named := by
  refine h.of_block (hm.block hv) fun q b' hq => ?_
  by_cases heq : q = p
  · rw [heq, hm.request] at hq
    obtain hr | hr := hr
    · rw [hr] at hq
      exact some.inj hq ▸ hdev
    · rw [hr] at hq
      cases hq
  · rw [hm.requests q heq] at hq
    exact h.used q b' hq

theorem Locked.writes (h : s.Locked) (hw : Writes s s' b v) (hrequest : s'.request = s.request)
    (hlocked : v.locked = (s.cache.buf b).locked) (hvalid : v.valid = (s.cache.buf b).valid) :
    s'.Locked := by
  refine ⟨fun q b' hq => ?_, hrequest ▸ h.exclusive⟩
  rw [hrequest] at hq
  by_cases heq : b' = b
  · rw [heq, hw.self, hlocked, hvalid]
    exact h.locked q b (heq ▸ hq)
  · rw [hw.other b' heq]
    exact h.locked q b' hq

theorem Locked.moves (h : s.Locked) (hm : Moves s s' p r b v) (hr : ∀ b', r ≠ .holding b')
    (hv : ∀ q, q ≠ p → s.request q = .holding b → v.locked = true ∧ v.valid = true) :
    s'.Locked := by
  have hhold : ∀ q b', s'.request q = .holding b' → q ≠ p ∧ s.request q = .holding b' := by
    intro q b' hq
    by_cases heq : q = p
    · rw [heq, hm.request] at hq
      exact absurd hq (hr b')
    · exact ⟨heq, hm.requests q heq ▸ hq⟩
  refine ⟨fun q b' hq => ?_, fun q q' b' hq hq' =>
    h.exclusive q q' b' (hhold q b' hq).2 (hhold q' b' hq').2⟩
  obtain ⟨hne, hold⟩ := hhold q b' hq
  by_cases heq : b' = b
  · rw [heq, hm.self]
    exact hv q hne (heq ▸ hold)
  · rw [hm.other b' heq]
    exact h.locked q b' hold

theorem Locked.take (h : s.Locked) (hm : Moves s s' p (.holding b) b v)
    (hfree : (s.cache.buf b).locked = false) (hv : v.locked = true ∧ v.valid = true) :
    s'.Locked := by
  have hhold : ∀ q b', s'.request q = .holding b' →
      q = p ∧ b' = b ∨ b' ≠ b ∧ s.request q = .holding b' := by
    intro q b' hq
    by_cases heq : q = p
    · rw [heq, hm.request] at hq
      exact .inl ⟨heq, (Request.holding.inj hq).symm⟩
    · rw [hm.requests q heq] at hq
      refine .inr ⟨fun heqb => ?_, hq⟩
      rw [← heqb, (h.locked q b' hq).1] at hfree
      cases hfree
  refine ⟨fun q b' hq => ?_, fun q q' b' hq hq' => ?_⟩
  · obtain ⟨-, rfl⟩ | ⟨hne, hold⟩ := hhold q b' hq
    · rw [hm.self]
      exact hv
    · rw [hm.other b' hne]
      exact h.locked q b' hold
  · obtain ⟨rfl, rfl⟩ | ⟨hne, hold⟩ := hhold q b' hq
    · obtain ⟨rfl, -⟩ | ⟨hne, -⟩ := hhold q' b' hq'
      · rfl
      · exact absurd rfl hne
    · obtain ⟨-, rfl⟩ | ⟨-, hold'⟩ := hhold q' b' hq'
      · exact absurd rfl hne
      · exact h.exclusive q q' b' hold hold'

theorem Coherent.writes (h : s.Coherent) (hm : Writes s s' b v)
    (hv : v.block = (s.cache.buf b).block) (hleft : s'.left = s.left)
    (hkept : v.locked = false →
      (s.cache.buf b).locked = false ∧ v.valid = (s.cache.buf b).valid ∧
        v.data = (s.cache.buf b).data) : s'.Coherent := by
  refine ⟨fun b' hdev hlocked => ?_, fun k hk hnone => ?_⟩
  · by_cases heq : b' = b
    · rw [heq, hm.self] at hlocked hdev ⊢
      rw [hv] at hdev
      obtain ⟨hlocked', hvalid, hdata⟩ := hkept hlocked
      rw [hleft, hv, hvalid, hdata]
      exact h.kept b hdev hlocked'
    · rw [hm.other b' heq] at hlocked hdev ⊢
      rw [hleft]
      exact h.kept b' hdev hlocked
  · rw [hleft]
    exact h.gone k hk fun b' => hm.block hv b' ▸ hnone b'

variable [DecidableEq P] [Fintype P]

omit [DecidableEq P] in
theorem Counted.writes (h : s.Counted) (hw : Writes s s' b v) (hrequest : s'.request = s.request)
    (hpins : v.refcnt + s.pins b = (s.cache.buf b).refcnt + s'.pins b)
    (hother : ∀ b', b' ≠ b → s'.pins b' = s.pins b') : s'.Counted := by
  intro b'
  have hcount := h b'
  rw [hrequest]
  by_cases heq : b' = b
  · rw [heq] at hcount ⊢
    rw [hw.self]
    omega
  · rw [hw.other b' heq, hother b' heq]
    exact hcount

theorem Counted.moves (h : s.Counted) (hm : Moves s s' p r b v)
    (hold : (s.request p).buffer = some b ∨ (s.request p).buffer = none)
    (hr : r.buffer = some b ∨ r.buffer = none)
    (hv : v.refcnt + (s.request p).uses b = (s.cache.buf b).refcnt + r.uses b) : s'.Counted := by
  intro b'
  have hrequest : s'.request = update s.request p r := by
    funext q
    by_cases heq : q = p
    · rw [heq, hm.request, update_self]
    · rw [hm.requests q heq, update_of_ne heq]
  have htally : tally Finset.univ (Request.uses b') (update s.request p r) +
      (s.request p).uses b' = tally Finset.univ (Request.uses b') s.request + r.uses b' :=
    tally_update (Finset.mem_univ p)
  have hcount := h b'
  rw [hrequest, hm.pins]
  by_cases heq : b' = b
  · rw [heq] at hcount htally ⊢
    rw [hm.self]
    omega
  · have hzero : ∀ q : Request, q.buffer = some b ∨ q.buffer = none → q.uses b' = 0 := by
      rintro q (hq | hq) <;> simp [Request.uses, hq, Ne.symm heq]
    rw [hzero _ hold, hzero _ hr] at htally
    rw [hm.other b' heq]
    omega

end Frames

variable [DecidableEq P] [Fintype P] {s s' : CacheState P} {p : P} {b : Fin nbuf}

omit [DecidableEq P] in
theorem Valid.refcnt_pos (h : s.Valid) (hp : (s.request p).buffer = some b) :
    0 < (s.cache.buf b).refcnt := by
  have hpos : 0 < tally Finset.univ (Request.uses b) s.request :=
    tally_pos.mpr ⟨p, Finset.mem_univ p, by simp [Request.uses, hp]⟩
  rw [h.counted b]
  exact Nat.add_pos_left hpos _

omit [DecidableEq P] [Fintype P] in
theorem writes_setBuf (s : CacheState P) (b : Fin nbuf) (v : Buf) : Writes s (s.setBuf b v) b v :=
  ⟨(Bcache.setBuf_buf s.cache b b v).trans (if_pos rfl),
    fun b' hne => (Bcache.setBuf_buf s.cache b b' v).trans (if_neg hne)⟩

omit [Fintype P] in
theorem moves_setBuf (s : CacheState P) (p : P) (r : Request) (b : Fin nbuf) (v : Buf) :
    Moves s ((s.setBuf b v).setRequest p r) p r b v :=
  ⟨⟨(writes_setBuf s b v).self, (writes_setBuf s b v).other⟩, update_self ..,
    fun _ hne => update_of_ne hne .., rfl⟩

omit [DecidableEq P] in
theorem Valid.setRefcnt (h : s.Valid) {k m : Nat}
    (hk : k + s.pins b = (s.cache.buf b).refcnt + m) :
    Valid { s with
      cache := s.cache.setBuf b { s.cache.buf b with refcnt := k }
      pins := update s.pins b m } := by
  have hw := writes_setBuf s b { s.cache.buf b with refcnt := k }
  refine ⟨⟨h.listed.ring, h.listed.clock⟩, h.named.of_block (hw.block rfl) h.named.used,
    h.locks.writes ⟨hw.self, hw.other⟩ rfl rfl rfl, h.coherent.writes ⟨hw.self, hw.other⟩ rfl rfl
    fun hlocked => ⟨hlocked, rfl, rfl⟩, h.counted.writes ⟨hw.self, hw.other⟩ rfl ?_ ?_⟩
  · simpa only [update_self] using hk
  · exact fun b' hne => update_of_ne hne ..

theorem Valid.bpin (h : s.Valid) (hs : s.step (.bpin b) = some s') : s'.Valid := by
  obtain rfl := some.inj hs
  exact h.setRefcnt (by omega)

theorem Valid.bunpin (h : s.Valid) (hs : s.step (.bunpin b) = some s') : s'.Valid := by
  simp only [step] at hs
  split at hs
  · cases hs
  · obtain rfl := some.inj hs
    have hcount := h.counted b
    exact h.setRefcnt (by omega)

omit [Fintype P] in
theorem bread_cases (hs : s.step (.bread p) = some s') :
    ∃ b, s.request p = .waiting b ∧ (s.cache.buf b).locked = false ∧
      s' = (s.setBuf b ((s.cache.buf b).fetch (s.disk (s.cache.buf b).block))).setRequest p
        (.holding b) := by
  simp only [step] at hs
  split at hs
  · rename_i b hp
    split at hs
    · cases hs
    · rename_i hlocked
      exact ⟨b, hp, Bool.eq_false_iff.mpr hlocked, (some.inj hs).symm⟩
  · cases hs

theorem Valid.bread (h : s.Valid) (hs : s.step (.bread p) = some s') : s'.Valid := by
  obtain ⟨b, hp, hfree, rfl⟩ := bread_cases hs
  have hm := moves_setBuf s p (.holding b) b ((s.cache.buf b).fetch (s.disk (s.cache.buf b).block))
  have hbuffer : (s.request p).buffer = some b := by rw [hp]; rfl
  refine ⟨⟨h.listed.ring, h.listed.clock⟩, h.named.moves hm rfl (.inl rfl)
    (h.named.used p b hbuffer), h.locks.take hm hfree ⟨rfl, rfl⟩,
    h.coherent.writes hm.toWrites rfl rfl nofun, h.counted.moves hm (.inl hbuffer) (.inl rfl) ?_⟩
  rw [hp]
  rfl

omit [DecidableEq P] [Fintype P] in
theorem holder_cases {next : Fin nbuf → Option (CacheState P)}
    (hs : (match s.request p with
      | .holding b => next b
      | _ => none) = some s') : ∃ b, s.request p = .holding b ∧ next b = some s' := by
  split at hs
  · exact ⟨_, ‹_›, hs⟩
  · cases hs

theorem Valid.store {d : Block} (h : s.Valid) (hs : s.step (.store p d) = some s') : s'.Valid := by
  obtain ⟨b, hp, hs⟩ := holder_cases hs
  obtain rfl := some.inj hs
  have hw := writes_setBuf s b { s.cache.buf b with data := d }
  have hlocked := (h.locks.locked p b hp).1
  refine ⟨⟨h.listed.ring, h.listed.clock⟩, h.named.of_block (hw.block rfl) h.named.used,
    h.locks.writes hw rfl rfl rfl, h.coherent.writes hw rfl rfl fun hfree => ?_,
    h.counted.writes hw rfl rfl fun _ _ => rfl⟩
  rw [show ({ s.cache.buf b with data := d } : Buf).locked = true from hlocked] at hfree
  cases hfree

theorem Valid.bwrite (h : s.Valid) (hs : s.step (.bwrite p) = some s') : s'.Valid := by
  obtain ⟨b, -, hs⟩ := holder_cases hs
  obtain rfl := some.inj hs
  exact ⟨⟨h.listed.ring, h.listed.clock⟩, ⟨h.named.unique, h.named.used⟩,
    ⟨h.locks.locked, h.locks.exclusive⟩, ⟨h.coherent.kept, h.coherent.gone⟩, h.counted⟩

theorem Valid.releasesleep (h : s.Valid) (hs : s.step (.releasesleep p) = some s') : s'.Valid := by
  obtain ⟨b, hp, hs⟩ := holder_cases hs
  obtain rfl := some.inj hs
  obtain ⟨-, hvalid⟩ := h.locks.locked p b hp
  have hbuffer : (s.request p).buffer = some b := by rw [hp]; rfl
  have hdev := h.named.used p b hbuffer
  have hm := moves_setBuf s p (.releasing b) b { s.cache.buf b with locked := false }
  have hm' : Moves s ({ s.setBuf b { s.cache.buf b with locked := false } with
      left := update s.left (s.cache.buf b).block
        (some (s.cache.buf b).data) }.setRequest p (.releasing b)) p (.releasing b) b
      { s.cache.buf b with locked := false } :=
    ⟨⟨hm.self, hm.other⟩, hm.request, hm.requests, hm.pins⟩
  refine ⟨⟨h.listed.ring, h.listed.clock⟩, h.named.moves hm' rfl (.inl rfl) hdev,
    h.locks.moves hm' nofun fun q hne hq => absurd (h.locks.exclusive q p b hq hp) hne, ⟨?_, ?_⟩,
    h.counted.moves hm' (.inl hbuffer) (.inl rfl) ?_⟩
  · intro b' hdev' hlocked'
    by_cases heq : b' = b
    · rw [heq, hm'.self]
      exact (update_self ..).trans (if_pos hvalid).symm
    · rw [hm'.other b' heq] at hdev' hlocked' ⊢
      refine (update_of_ne (fun hblock => ?_) ..).trans (h.coherent.kept b' hdev' hlocked')
      exact heq (h.named.unique b' b hdev' hblock)
  · intro k hk hnone
    have hblock := hm'.toWrites.block rfl
    refine (update_of_ne (fun hk' => ?_) ..).trans
      (h.coherent.gone k hk fun b' => hblock b' ▸ hnone b')
    exact (hblock b ▸ hnone b) hk'.symm
  · rw [hp]
    rfl

omit [DecidableEq P] [Fintype P] in
theorem Listed.release (h : s.Listed) (b : Fin nbuf)
    (hlinks : s'.cache.links = (s.cache.links.unlink b).push b)
    (hreleased : s'.released = update s.released b (some s.clock))
    (hclock : s'.clock = s.clock + 1) : s'.Listed := by
  obtain ⟨xs, hring, hall, hsorted⟩ := h.ring
  refine ⟨⟨b :: xs.erase b, hlinks ▸ hring.moveToFront (hall b), fun b' => ?_, ?_⟩, ?_⟩
  · by_cases heq : b' = b
    · exact heq ▸ mem_cons_self
    · exact mem_cons_of_mem b ((mem_erase_of_ne heq).mpr (hall b'))
  · refine pairwise_cons.mpr ⟨fun y hy => ?_, ?_⟩
    · have hne : y ≠ b := ((hring.nodup.mem_erase_iff).mp hy).1
      simp only [Older, hreleased, update_self, update_of_ne hne]
      cases hy' : s.released y with
      | none => trivial
      | some t => exact h.clock y t hy'
    · refine (hsorted.sublist erase_sublist).imp_of_mem fun {x y} hx hy hxy => ?_
      have hxb : x ≠ b := ((hring.nodup.mem_erase_iff).mp hx).1
      have hyb : y ≠ b := ((hring.nodup.mem_erase_iff).mp hy).1
      simpa only [Older, hreleased, update_of_ne hxb, update_of_ne hyb] using hxy
  · intro b' t ht
    rw [hclock]
    by_cases heq : b' = b
    · rw [heq, hreleased, update_self] at ht
      rw [← some.inj ht]
      exact Nat.lt_succ_self _
    · rw [hreleased, update_of_ne heq] at ht
      exact Nat.lt_succ_of_lt (h.clock b' t ht)

omit [Fintype P] in
theorem brelse_cases (hs : s.step (.brelse p) = some s') :
    ∃ b, s.request p = .releasing b ∧ s'.left = s.left ∧
      Moves s s' p .idle b { s.cache.buf b with refcnt := (s.cache.buf b).refcnt - 1 } ∧
      s'.cache.links = (s.cache.brelse b).links ∧ s'.clock = s.clock + 1 ∧
      s'.released = if (s.cache.buf b).refcnt - 1 = 0 then
        update s.released b (some s.clock) else s.released := by
  simp only [step] at hs
  split at hs
  · rename_i b hp
    have hself : (s.cache.brelse b).buf b =
        { s.cache.buf b with refcnt := (s.cache.buf b).refcnt - 1 } :=
      (Bcache.brelse_buf s.cache b b).trans (if_pos rfl)
    have hother : ∀ b', b' ≠ b → (s.cache.brelse b).buf b' = s.cache.buf b' :=
      fun b' hne => (Bcache.brelse_buf s.cache b b').trans (if_neg hne)
    have hrefcnt : ((s.cache.brelse b).buf b).refcnt = (s.cache.buf b).refcnt - 1 := by rw [hself]
    split at hs <;> rename_i hzero <;> obtain rfl := some.inj hs <;>
      refine ⟨b, hp, rfl, ⟨⟨hself, hother⟩, update_self .., fun _ hne => update_of_ne hne .., rfl⟩,
        rfl, rfl, ?_⟩
    · exact (if_pos (hrefcnt ▸ hzero)).symm
    · exact (if_neg (hrefcnt ▸ hzero)).symm
  · cases hs

theorem Valid.brelse (h : s.Valid) (hs : s.step (.brelse p) = some s') : s'.Valid := by
  obtain ⟨b, hp, hleft, hm, hlinks, hclock, hreleased⟩ := brelse_cases hs
  have hbuffer : (s.request p).buffer = some b := by rw [hp]; rfl
  have hpos := h.refcnt_pos hbuffer
  refine ⟨?_, h.named.moves hm rfl (.inr rfl) (h.named.used p b hbuffer),
    h.locks.moves hm nofun fun q _ hq => h.locks.locked q b hq,
    h.coherent.writes hm.toWrites rfl hleft fun hlocked => ⟨hlocked, rfl, rfl⟩,
    h.counted.moves hm (.inl hbuffer) (.inr rfl) ?_⟩
  · rw [Bcache.brelse_links] at hlinks
    by_cases hzero : (s.cache.buf b).refcnt - 1 = 0
    · rw [if_pos hzero] at hlinks hreleased
      exact h.listed.release b hlinks hreleased hclock
    · rw [if_neg hzero] at hlinks hreleased
      obtain ⟨xs, hring, hall, hsorted⟩ := h.listed.ring
      refine ⟨⟨xs, hlinks ▸ hring, hall, ?_⟩, fun b' t ht => ?_⟩
      · simpa only [Older, hreleased] using hsorted
      · rw [hreleased] at ht
        rw [hclock]
        exact Nat.lt_succ_of_lt (h.listed.clock b' t ht)
  · rw [Request.uses_some hbuffer, Request.uses_none rfl]
    exact Nat.sub_add_cancel hpos

omit [Fintype P] in
theorem bget_cases {dev blockno : UInt32} (h : s.Listed)
    (hs : s.step (.bget p dev blockno) = some s') :
    dev ≠ 0 ∧ s.request p = .idle ∧ s'.cache.links = s.cache.links ∧ s'.released = s.released ∧
    s'.clock = s.clock ∧ ∃ b,
      (((s.cache.buf b).block = (dev, blockno) ∧ s'.left = s.left ∧
        Moves s s' p (.waiting b) b { s.cache.buf b with refcnt := (s.cache.buf b).refcnt + 1 }) ∨
      ((∀ b, (s.cache.buf b).block ≠ (dev, blockno)) ∧ (s.cache.buf b).refcnt = 0 ∧
        (∀ b', (s.cache.buf b').refcnt = 0 → b' ≠ b → s.Older b b') ∧
        s'.left = update s.left (s.cache.buf b).block none ∧
        Moves s s' p (.waiting b) b
          { s.cache.buf b with dev, blockno, valid := false, refcnt := 1 })) := by
  simp only [step] at hs
  split at hs
  · cases hs
  · rename_i hguard
    obtain ⟨hidle, hdev⟩ := not_or.mp hguard
    split at hs
    · cases hs
    · rename_i b cache hbget
      obtain rfl := some.inj hs
      obtain ⟨xs, hring, hall, hsorted⟩ := h.ring
      have hmoves : ∀ v, cache = s.cache.setBuf b v → Moves s
          ({ s with cache, left := s.forget b (dev, blockno) }.setRequest p (.waiting b)) p
          (.waiting b) b v := by
        rintro v rfl
        have hm := moves_setBuf s p (.waiting b) b v
        exact ⟨⟨hm.self, hm.other⟩, hm.request, hm.requests, hm.pins⟩
      obtain ⟨hblock, hcache⟩ | ⟨hmiss, hfind, hcache⟩ := Bcache.bget_cases hring hall hbget
      · refine ⟨hdev, not_not.mp hidle, by rw [hcache]; rfl, rfl, rfl, b, .inl ⟨hblock, ?_,
          hmoves _ hcache⟩⟩
        exact if_pos hblock
      · have hzero : (s.cache.buf b).refcnt = 0 := by simpa using List.find?_some hfind
        refine ⟨hdev, not_not.mp hidle, by rw [hcache]; rfl, rfl, rfl, b,
          .inr ⟨hmiss, hzero, ?_, ?_,
          hmoves _ hcache⟩⟩
        · intro b' hb' hne
          exact Links.find_reverse_of_pairwise (R := fun x y => s.Older y x) hsorted hfind (hall b')
            (by simpa using hb') hne
        · exact if_neg (hmiss b)

theorem Valid.bget {dev blockno : UInt32} (h : s.Valid)
    (hs : s.step (.bget p dev blockno) = some s') : s'.Valid := by
  obtain ⟨hdev, hidle, hlinks, hreleased, hclock, b, hcase⟩ := bget_cases h.listed hs
  have hlisted : s'.Listed := by
    obtain ⟨xs, hring, hall, hsorted⟩ := h.listed.ring
    refine ⟨⟨xs, hlinks ▸ hring, hall, ?_⟩, ?_⟩
    · simpa only [Older, hreleased] using hsorted
    · rw [hreleased, hclock]
      exact h.listed.clock
  have hbuffer : (s.request p).buffer = none := by rw [hidle]; rfl
  obtain ⟨hblock, hleft, hm⟩ | ⟨hmiss, hzero, -, hleft, hm⟩ := hcase
  · have hdev' : (s.cache.buf b).block.1 ≠ 0 := hblock ▸ hdev
    refine ⟨hlisted, h.named.moves hm rfl (.inl rfl) hdev',
      h.locks.moves hm nofun fun q _ hq => h.locks.locked q b hq,
      h.coherent.writes hm.toWrites rfl hleft fun hlocked => ⟨hlocked, rfl, rfl⟩,
      h.counted.moves hm (.inr hbuffer) (.inl rfl) ?_⟩
    rw [Request.uses_none hbuffer, Request.uses_some rfl]
  · have hnobody : ∀ q, (s.request q).buffer ≠ some b := fun q hq =>
      absurd (h.refcnt_pos hq) (by omega)
    refine ⟨hlisted, ⟨?_, ?_⟩, h.locks.moves hm nofun fun q _ hq => absurd (by rw [hq]; rfl)
      (hnobody q),
      ⟨?_, ?_⟩, h.counted.moves hm (.inr hbuffer) (.inl rfl) ?_⟩
    · intro b₁ b₂ hdev₁ heq
      by_cases h₁ : b₁ = b
      · by_cases h₂ : b₂ = b
        · rw [h₁, h₂]
        · rw [h₁, hm.self, hm.other b₂ h₂] at heq
          exact absurd heq.symm (hmiss b₂)
      · rw [hm.other b₁ h₁] at hdev₁ heq
        by_cases h₂ : b₂ = b
        · rw [h₂, hm.self] at heq
          exact absurd heq (hmiss b₁)
        · rw [hm.other b₂ h₂] at heq
          exact h.named.unique b₁ b₂ hdev₁ heq
    · intro q b₁ hq
      by_cases hqp : q = p
      · rw [hqp, hm.request] at hq
        rw [← some.inj hq, hm.self]
        exact hdev
      · rw [hm.requests q hqp] at hq
        rw [hm.other b₁ fun heq => hnobody q (heq ▸ hq)]
        exact h.named.used q b₁ hq
    · intro b₁ hdev₁ hlocked
      rw [hleft]
      by_cases h₁ : b₁ = b
      · rw [h₁, hm.self]
        exact (update_of_ne (hmiss b).symm ..).trans (h.coherent.gone _ hdev hmiss)
      · rw [hm.other b₁ h₁] at hdev₁ hlocked ⊢
        have hne : (s.cache.buf b₁).block ≠ (s.cache.buf b).block :=
          fun heq => h₁ (h.named.unique b₁ b hdev₁ heq)
        exact (update_of_ne hne ..).trans (h.coherent.kept b₁ hdev₁ hlocked)
    · intro k hk hnone
      rw [hleft]
      by_cases hkb : k = (s.cache.buf b).block
      · rw [hkb, update_self]
      · rw [update_of_ne hkb]
        refine h.coherent.gone k hk fun b₁ => ?_
        by_cases h₁ : b₁ = b
        · exact h₁ ▸ Ne.symm hkb
        · exact hm.other b₁ h₁ ▸ hnone b₁
    · rw [Request.uses_none hbuffer, Request.uses_some rfl, hzero]

/-- The steps that write the contents of a buffer: its first holder reads it from the disk,
and a holder stores to it. -/
def WritesData (s : CacheState P) (b : Fin nbuf) : CacheAct P → Prop
  | .bread p => s.request p = .waiting b ∧ (s.cache.buf b).valid = false
  | .store p _ => s.request p = .holding b
  | _ => False

omit [DecidableEq P] [Fintype P] in
theorem Writes.data {b₀ : Fin nbuf} {v : Buf} (hw : Writes s s' b₀ v)
    (hblock : b = b₀ → v.block = (s.cache.buf b₀).block)
    (hdata : b = b₀ → v.data = (s.cache.buf b₀).data) :
    (s'.cache.buf b).block = (s.cache.buf b).block ∧
      (s'.cache.buf b).data = (s.cache.buf b).data := by
  by_cases heq : b = b₀
  · rw [heq, hw.self]
    exact ⟨hblock heq, hdata heq⟩
  · rw [hw.other b heq]
    exact ⟨rfl, rfl⟩

theorem Valid.kept {a : CacheAct P} (h : s.Valid) (hs : s.step a = some s')
    (hpos : 0 < (s.cache.buf b).refcnt) :
    (s'.cache.buf b).block = (s.cache.buf b).block ∧
      ((s'.cache.buf b).data = (s.cache.buf b).data ∨ s.WritesData b a) := by
  have hsame : ∀ {b₀ v}, Writes s s' b₀ v → v.block = (s.cache.buf b₀).block →
      v.data = (s.cache.buf b₀).data → (s'.cache.buf b).block = (s.cache.buf b).block ∧
        ((s'.cache.buf b).data = (s.cache.buf b).data ∨ s.WritesData b a) :=
    fun hw hblock hdata => (hw.data (fun _ => hblock) fun _ => hdata).imp_right .inl
  cases a with
  | bget p dev blockno =>
    obtain ⟨-, -, -, -, -, b₀, ⟨-, -, hm⟩ | ⟨-, hzero, -, -, hm⟩⟩ := bget_cases h.listed hs
    · exact hsame hm.toWrites rfl rfl
    · have hne : b ≠ b₀ := fun heq => absurd (heq ▸ hpos) (by omega)
      rw [hm.other b hne]
      exact ⟨rfl, .inl rfl⟩
  | bread p =>
    obtain ⟨b₀, hp, -, rfl⟩ := bread_cases hs
    have hm := moves_setBuf s p (.holding b₀) b₀
      ((s.cache.buf b₀).fetch (s.disk (s.cache.buf b₀).block))
    cases hvalid : (s.cache.buf b₀).valid with
    | true => exact hsame hm.toWrites rfl (by rw [Buf.fetch, hvalid]; rfl)
    | false =>
      by_cases heq : b = b₀
      · exact ⟨hm.toWrites.block rfl b, .inr ⟨heq ▸ hp, heq ▸ hvalid⟩⟩
      · rw [hm.other b heq]
        exact ⟨rfl, .inl rfl⟩
  | store p d =>
    obtain ⟨b₀, hp, hs⟩ := holder_cases hs
    obtain rfl := some.inj hs
    have hw := writes_setBuf s b₀ { s.cache.buf b₀ with data := d }
    by_cases heq : b = b₀
    · exact ⟨hw.block rfl b, .inr (heq ▸ hp)⟩
    · rw [hw.other b heq]
      exact ⟨rfl, .inl rfl⟩
  | bwrite p =>
    obtain ⟨b₀, -, hs⟩ := holder_cases hs
    obtain rfl := some.inj hs
    exact ⟨rfl, .inl rfl⟩
  | releasesleep p =>
    obtain ⟨b₀, -, hs⟩ := holder_cases hs
    obtain rfl := some.inj hs
    have hw := writes_setBuf s b₀ { s.cache.buf b₀ with locked := false }
    exact hsame ⟨hw.self, hw.other⟩ rfl rfl
  | brelse p =>
    obtain ⟨b₀, -, -, hm, -⟩ := brelse_cases hs
    exact hsame hm.toWrites rfl rfl
  | bpin b₀ =>
    obtain rfl := some.inj hs
    have hw := writes_setBuf s b₀ { s.cache.buf b₀ with refcnt := (s.cache.buf b₀).refcnt + 1 }
    exact hsame ⟨hw.self, hw.other⟩ rfl rfl
  | bunpin b₀ =>
    simp only [CacheState.step] at hs
    split at hs
    · cases hs
    · obtain rfl := some.inj hs
      have hw := writes_setBuf s b₀ { s.cache.buf b₀ with refcnt := (s.cache.buf b₀).refcnt - 1 }
      exact hsame ⟨hw.self, hw.other⟩ rfl rfl

theorem Valid.step {a : CacheAct P} (h : s.Valid) (hs : s.step a = some s') : s'.Valid := by
  cases a with
  | bget p dev blockno => exact h.bget hs
  | bread p => exact h.bread hs
  | store p d => exact h.store hs
  | bwrite p => exact h.bwrite hs
  | releasesleep p => exact h.releasesleep hs
  | brelse p => exact h.brelse hs
  | bpin b => exact h.bpin hs
  | bunpin b => exact h.bunpin hs

end CacheState

theorem binit_ring : binit.links.Ring (List.finRange nbuf).reverse := by
  have hfold : ∀ (xs ys : List (Fin nbuf)) (l : Links (Fin nbuf)), l.Ring ys →
      (xs.reverse ++ ys).Nodup → (xs.foldl Links.push l).Ring (xs.reverse ++ ys) := by
    intro xs
    induction xs with
    | nil => exact fun ys l hring _ => hring
    | cons x xs ih =>
      intro ys l hring hnodup
      rw [reverse_cons, append_assoc, singleton_append] at hnodup ⊢
      have hx : x ∉ ys := (nodup_cons.mp (nodup_append.mp hnodup).2.1).1
      exact ih (x :: ys) (l.push x) (hring.push hx) hnodup
  have h := hfold (List.finRange nbuf) [] .empty Links.ring_empty
    (by simpa using nodup_finRange nbuf)
  rwa [append_nil] at h

theorem freshCache_valid (P : Type) [Fintype P] (disk : UInt32 × UInt32 → Block) :
    (freshCache P disk).Valid := by
  refine ⟨⟨⟨_, binit_ring, fun b => by simp, ?_⟩, nofun⟩, ⟨fun _ _ hdev => absurd rfl hdev, nofun⟩,
    ⟨nofun, nofun⟩, ⟨fun _ hdev => absurd rfl hdev, fun _ _ _ => rfl⟩, fun b => ?_⟩
  · rw [pairwise_reverse]
    exact pairwise_lt_finRange nbuf
  · exact (tally_eq_zero.mpr fun _ _ => rfl).symm

structure Represents {P : Type} [DecidableEq P] (s : CacheState P) : Prop where
  /-- One circle through the head and every buffer, once each. -/
  ring : ∃ xs, s.cache.links.Ring xs ∧ ∀ b, b ∈ xs
  unique : ∀ b b', (s.cache.buf b).dev ≠ 0 →
    (s.cache.buf b).block = (s.cache.buf b').block → b = b'
  /-- Buffers that are waited for, held, or pinned are in use, and in use they stay. -/
  requested : ∀ p b, (s.request p).buffer = some b → 0 < (s.cache.buf b).refcnt
  pinned : ∀ b, 0 < s.pins b → 0 < (s.cache.buf b).refcnt
  kept : ∀ a s', s.step a = some s' → ∀ b, 0 < (s.cache.buf b).refcnt →
    (s'.cache.buf b).block = (s.cache.buf b).block ∧
      ((s'.cache.buf b).data = (s.cache.buf b).data ∨ s.WritesData b a)
  hit : ∀ p dev blockno s' b, s.step (.bget p dev blockno) = some s' →
    (s.cache.buf b).block = (dev, blockno) → s'.request p = .waiting b
  /-- A miss takes the unused buffer that was released first. -/
  miss : ∀ p dev blockno s', s.step (.bget p dev blockno) = some s' →
    (∀ b, (s.cache.buf b).block ≠ (dev, blockno)) →
      ∃ b, s'.request p = .waiting b ∧ (s.cache.buf b).refcnt = 0 ∧
        ∀ b', (s.cache.buf b').refcnt = 0 → b' ≠ b → s.Older b b'
  /-- `bread` returns what the last holder left, or the block on the disk. -/
  contents : ∀ p s', s.step (.bread p) = some s' →
    ∃ b, s.request p = .waiting b ∧ s'.request p = .holding b ∧ (s'.cache.buf b).data =
      (s.left (s.cache.buf b).block).getD (s.disk (s.cache.buf b).block)

/-- Every run of the cache from `binit` keeps its promises. -/
theorem cache_represents {P : Type} [DecidableEq P] [Fintype P]
    {disk : UInt32 × UInt32 → Block} {acts : List (CacheAct P)} {s : CacheState P}
    (run : Run (fun s a s' => s.step a = some s') (freshCache P disk) acts s) : Represents s := by
  have h : s.Valid := run.invariant CacheState.Valid (freshCache_valid P disk)
    fun _ _ _ hv hs => hv.step hs
  refine ⟨?_, h.named.unique, fun p b => h.refcnt_pos, fun b hpins => ?_,
    fun a s' hs b => h.kept hs, fun p dev blockno s' b hs hblock => ?_,
    fun p dev blockno s' hs hmiss => ?_, fun p s' hs => ?_⟩
  · obtain ⟨xs, hring, hall, -⟩ := h.listed.ring
    exact ⟨xs, hring, hall⟩
  · rw [h.counted b]
    exact Nat.add_pos_right _ hpins
  · obtain ⟨hdev, -, -, -, -, b', hcase⟩ := CacheState.bget_cases h.listed hs
    obtain ⟨hblock', -, hm⟩ | ⟨hmiss, -⟩ := hcase
    · have hdev' : (s.cache.buf b).block.1 ≠ 0 := hblock ▸ hdev
      rw [h.named.unique b b' hdev' (hblock.trans hblock'.symm), hm.request]
    · exact absurd hblock (hmiss b)
  · obtain ⟨-, -, -, -, -, b, hcase⟩ := CacheState.bget_cases h.listed hs
    obtain ⟨hblock, -⟩ | ⟨-, hzero, holdest, -, hm⟩ := hcase
    · exact absurd hblock (hmiss b)
    · exact ⟨b, hm.request, hzero, holdest⟩
  · obtain ⟨b, hp, hfree, rfl⟩ := CacheState.bread_cases hs
    have hm := CacheState.moves_setBuf s p (.holding b) b
      ((s.cache.buf b).fetch (s.disk (s.cache.buf b).block))
    refine ⟨b, hp, hm.request, ?_⟩
    rw [hm.self, h.coherent.kept b (h.named.used p b (by rw [hp]; rfl)) hfree, Buf.fetch]
    cases (s.cache.buf b).valid <;> rfl

def rereadActs : List (CacheAct Unit) :=
  [.bget () 1 5, .bread (), .store () fun _ => 7, .bpin 0, .releasesleep (), .brelse (),
    .bget () 1 5]

theorem cache_represents_rereadActs : ∃ s,
    Run (fun s a s' => CacheState.step s a = some s') (freshCache Unit fun _ _ => 0) rereadActs s ∧
      s.request () = .waiting 0 ∧ (s.left (1, 5)).isSome ∧ (s.cache.buf 0).refcnt = 2 ∧
      Represents s := by
  refine Run.exists_exec (p := fun s => s.request () = .waiting 0 ∧ (s.left (1, 5)).isSome ∧
    (s.cache.buf 0).refcnt = 2) (by decide +kernel) ?_
  rintro s run ⟨hrequest, hleft, hrefcnt⟩
  exact ⟨hrequest, hleft, hrefcnt, cache_represents run⟩

def unpinActs : List (CacheAct Unit) :=
  [.bget () 1 5, .bread (), .bpin 0, .releasesleep (), .brelse (), .bunpin 0]

/-- `bunpin` leaves a buffer where it is, so that the next miss takes the buffer that has just
been used, though buffer 1 carries no block yet. -/
theorem miss_takes_used_buffer : ∃ s s',
    Run (fun s a s' => CacheState.step s a = some s') (freshCache Unit fun _ _ => 0) unpinActs s ∧
      s.step (.bget () 1 6) = some s' ∧ s'.request () = .waiting 0 ∧
      (s.cache.buf 0).block = (1, 5) ∧ (s.cache.buf 1).block = (0, 0) ∧
      (s.cache.buf 1).refcnt = 0 := by
  have hfacts : ∃ s ∈ exec CacheState.step (freshCache Unit fun _ _ => 0) unpinActs,
      ∃ s' ∈ s.step (.bget () 1 6), s'.request () = .waiting 0 ∧
        (s.cache.buf 0).block = (1, 5) ∧ (s.cache.buf 1).block = (0, 0) ∧
        (s.cache.buf 1).refcnt = 0 := by
    decide +kernel
  obtain ⟨s, hs, s', hs', hfacts⟩ := hfacts
  exact ⟨s, s', Run.of_exec hs, hs', hfacts⟩

end EafitOs.Disk
