import EafitOs.Foundation.WriteTrace
import EafitOs.Foundation.ByteLayout

/-!
# Disk blocks behind the buffer cache

The machine is the disk, the cached buffers with their reference counts, and
the list of block writes issued so far. A buffer whose count is zero may be
recycled before any lookup; which ones are is left to an oracle, so a result
about the machine holds for every replacement order of the LRU list.
-/

namespace EafitOs.Disk

open Foundation Function

def bsize : Nat := 1024

instance : NeZero bsize := ⟨by decide⟩

abbrev Block := Fin bsize → UInt8

structure Machine where
  disk : Nat → Block
  /-- Contents of the buffer holding a block, if one does. -/
  buf : Nat → Option Block
  refcnt : Nat → Nat
  /-- Every `bwrite` so far, oldest first. -/
  trace : List (Nat × Block)
  /-- `recycled t b`: by lookup `t` the buffer of `b` was taken for another block. -/
  recycled : Nat → Nat → Bool
  lookups : Nat

namespace Machine

def view (m : Machine) (b : Nat) : Block := (m.buf b).getD (m.disk b)

/-- The buffers recycled before a lookup lose their contents. Held and pinned
buffers have a positive count and stay. -/
def recycle (m : Machine) : Machine :=
  { m with
    buf := fun b => if m.refcnt b = 0 ∧ m.recycled m.lookups b then none else m.buf b
    lookups := m.lookups + 1 }

/-- `bget` then, on a miss, a read from the disk. The buffer is returned held. -/
def bread (m : Machine) (b : Nat) : Block × Machine :=
  let r := m.recycle
  (r.view b,
    { r with
      buf := update r.buf b (some (r.view b))
      refcnt := update r.refcnt b (r.refcnt b + 1) })

/-- The holder of a buffer stores new data in it (`memmove` into `b->data`). -/
def fill (m : Machine) (b : Nat) (data : Block) : Machine :=
  { m with buf := update m.buf b (some data) }

def bwrite (m : Machine) (b : Nat) : Machine :=
  { m with
    disk := update m.disk b (m.view b)
    trace := m.trace ++ [(b, m.view b)] }

def brelse (m : Machine) (b : Nat) : Machine :=
  { m with refcnt := update m.refcnt b (m.refcnt b - 1) }

def bpin (m : Machine) (b : Nat) : Machine :=
  { m with refcnt := update m.refcnt b (m.refcnt b + 1) }

/-- Give back the reference taken by `bpin`. -/
def bunpin (m : Machine) (b : Nat) : Machine := m.brelse b

def boot (disk : Nat → Block) (recycled : Nat → Nat → Bool) : Machine :=
  { disk, recycled, buf := fun _ => none, refcnt := fun _ => 0, trace := [], lookups := 0 }

/-- An unreferenced buffer agrees with the disk, so recycling it loses nothing. -/
def Coherent (m : Machine) : Prop := ∀ b, m.refcnt b = 0 → m.view b = m.disk b

theorem boot_coherent (disk : Nat → Block) (recycled : Nat → Nat → Bool) :
    (boot disk recycled).Coherent := by
  intro b _
  rfl

theorem recycle_view {m : Machine} (hc : m.Coherent) : m.recycle.view = m.view := by
  funext b
  by_cases h : m.refcnt b = 0 ∧ m.recycled m.lookups b
  · have hd : (m.buf b).getD (m.disk b) = m.disk b := hc b h.1
    simp [view, recycle, h, hd]
  · simp [view, recycle, h]

@[simp] theorem fill_view (m : Machine) (b : Nat) (data : Block) :
    (m.fill b data).view = update m.view b data := by
  funext x
  by_cases hx : x = b
  · subst hx
    simp [view, fill]
  · simp [view, fill, hx]

theorem bread_data {m : Machine} (hc : m.Coherent) (b : Nat) : (m.bread b).1 = m.view b := by
  simp [bread, recycle_view hc]

theorem bread_view {m : Machine} (hc : m.Coherent) (b : Nat) : (m.bread b).2.view = m.view := by
  have h : (m.bread b).2.view = (m.recycle.fill b (m.recycle.view b)).view := rfl
  rw [h, fill_view, recycle_view hc, update_eq_self]

@[simp] theorem fill_refcnt (m : Machine) (b : Nat) (data : Block) :
    (m.fill b data).refcnt = m.refcnt := rfl

@[simp] theorem bwrite_refcnt (m : Machine) (b : Nat) : (m.bwrite b).refcnt = m.refcnt := rfl

theorem brelse_refcnt (m : Machine) (b x : Nat) :
    (m.brelse b).refcnt x = m.refcnt x - [b].count x := by
  by_cases hx : x = b
  · subst hx
    simp [brelse]
  · simp [brelse, hx, Ne.symm hx]

/-- `m'` differs from `m` only in the buffers cached and in holding the listed
blocks, each as often as it is listed. -/
structure Holding (m m' : Machine) (held : List Nat) : Prop where
  disk : m'.disk = m.disk
  view : m'.view = m.view
  trace : m'.trace = m.trace
  refcnt : ∀ x, m'.refcnt x = m.refcnt x + held.count x

theorem Holding.coherent {m m' : Machine} {held : List Nat} (h : Holding m m' held)
    (hc : m.Coherent) : m'.Coherent := by
  intro b hb
  have hr := h.refcnt b
  rw [h.view, h.disk]
  exact hc b (by omega)

theorem Holding.refl (m : Machine) : Holding m m [] := ⟨rfl, rfl, rfl, by simp⟩

theorem Holding.bread {m m' : Machine} {held : List Nat} (h : Holding m m' held)
    (hc : m.Coherent) (b : Nat) : Holding m (m'.bread b).2 (b :: held) where
  disk := h.disk
  view := (bread_view (h.coherent hc) b).trans h.view
  trace := h.trace
  refcnt := by
    intro x
    have hr := h.refcnt x
    by_cases hx : x = b
    · subst hx
      simp [Machine.bread, recycle]
      omega
    · simp [Machine.bread, recycle, hx, Ne.symm hx, hr]

/-- `m'` is `m` after the writes `ws` went through the cache to the disk. The
reference counts are those of `m`, less one for each unpinned block. -/
structure WroteThrough (m m' : Machine) (ws : List (Nat × Block)) (unpinned : List Nat) :
    Prop where
  disk : m'.disk = applyWrites m.disk ws
  view : m'.view = applyWrites m.view ws
  trace : m'.trace = m.trace ++ ws
  refcnt : ∀ x, m'.refcnt x = m.refcnt x - unpinned.count x
  coherent : m'.Coherent

theorem WroteThrough.refl {m : Machine} (hc : m.Coherent) : WroteThrough m m [] [] :=
  ⟨rfl, rfl, by simp, by simp, hc⟩

theorem WroteThrough.trans {m m' m'' : Machine} {ws vs : List (Nat × Block)} {us us' : List Nat}
    (h : WroteThrough m m' ws us) (h' : WroteThrough m' m'' vs us') :
    WroteThrough m m'' (ws ++ vs) (us ++ us') where
  disk := by rw [h'.disk, h.disk, applyWrites_append]
  view := by rw [h'.view, h.view, applyWrites_append]
  trace := by rw [h'.trace, h.trace, List.append_assoc]
  refcnt := by
    intro x
    rw [h'.refcnt, h.refcnt, List.count_append]
    omega
  coherent := h'.coherent

theorem Holding.wroteThrough {m m₁ m₂ : Machine} {held unpinned : List Nat} {b : Nat}
    {data : Block} (h : Holding m m₁ held) (hc : m.Coherent)
    (hdisk : m₂.disk = ((m₁.fill b data).bwrite b).disk)
    (hbuf : m₂.buf = ((m₁.fill b data).bwrite b).buf)
    (htrace : m₂.trace = ((m₁.fill b data).bwrite b).trace)
    (hcnt : ∀ x, m₂.refcnt x = m.refcnt x - unpinned.count x)
    (hunpin : ∀ x ∈ unpinned, x = b) : WroteThrough m m₂ [(b, data)] unpinned := by
  have hv : (m₁.fill b data).view b = data := by simp
  have hd : m₂.disk = update m.disk b data := by
    rw [hdisk, bwrite, hv]
    exact congrArg (update · b data) h.disk
  have hview : m₂.view = update m.view b data := by
    funext x
    rw [Machine.view, hbuf, hd]
    by_cases hx : x = b
    · subst hx
      simp [bwrite, fill]
    · have hx' := congrFun h.view x
      rw [Machine.view, h.disk] at hx'
      simpa [bwrite, fill, hx] using hx'
  refine ⟨hd, hview, ?_, hcnt, ?_⟩
  · rw [htrace, bwrite, hv]
    exact congrArg (· ++ [(b, data)]) h.trace
  · intro x hx
    rw [hview, hd]
    by_cases hxb : x = b
    · subst hxb
      simp
    · have hnot : unpinned.count x = 0 :=
        List.count_eq_zero.mpr (fun hmem => hxb (hunpin x hmem))
      have hr := hcnt x
      rw [update_of_ne hxb, update_of_ne hxb]
      exact hc x (by omega)

end Machine

end EafitOs.Disk
