import EafitOs.Memory.KernelView
import EafitOs.Memory.Placement
import EafitOs.Memory.Release

/-!
# User accesses to a mapped region

The hardware repeats a load or store after each fault that `usertrap` has handled. `mmap_fault`
does not look whether the page is there already: a fault on a resident page ends in `mappages:
remap`.
-/

namespace EafitOs.Memory

open Foundation Function List Option AList Except

/-- Every free page is one that `kfree` would accept. -/
def Mem.Sound (m : Mem) : Prop := ∀ f ∈ m.free, m.kend ≤ f ∧ f < phystop

structure Mem.Taken (n : Nat) (m m' : Mem) : Prop where
  kend : m'.kend = m.kend
  free : m'.free ⊆ m.free
  length : m.free.length ≤ m'.free.length + n

namespace Mem.Taken

variable {m m' m'' : Mem} {n k : Nat}

theorem refl (m : Mem) : m.Taken n m :=
  ⟨rfl, List.Subset.refl _, Nat.le_add_right _ _⟩

theorem trans (h : m.Taken n m') (h' : m'.Taken k m'') : m.Taken (n + k) m'' := by
  refine ⟨h'.kend.trans h.kend, List.Subset.trans h'.free h.free, ?_⟩
  have hlength := h.length
  have hlength' := h'.length
  omega

theorem sound (h : m.Taken n m') (hm : m.Sound) : m'.Sound := by
  intro f hf
  rw [h.kend]
  exact hm f (h.free hf)

theorem kalloc {f : Frame} (h : m.kalloc = some (f, m')) : m.Taken 1 m' := by
  have hfree := kalloc_free h
  refine ⟨?_, ?_, ?_⟩
  · simp only [Mem.kalloc] at h
    split at h
    · cases h
    · obtain ⟨-, rfl⟩ := Prod.mk.inj (some.inj h)
      rfl
  · rw [hfree]
    exact subset_cons_self f m'.free
  · rw [hfree, length_cons]

end Mem.Taken

theorem kalloc_of_pos {m : Mem} (h : 0 < m.free.length) : ∃ r, m.kalloc = some r := by
  obtain ⟨f, rest, hfree⟩ := exists_cons_of_length_pos h
  exact ⟨_, by rw [Mem.kalloc, hfree]⟩

section Walk

variable {v : Vm} {va : Nat}

theorem walkMid_taken {w : Vm} (h : walkMid v va = some w) : v.mem.Taken 1 w.mem := by
  simp only [walkMid] at h
  split at h
  · obtain rfl := some.inj h
    exact .refl _
  · obtain ⟨⟨f, m⟩, hm, rfl⟩ := map_eq_some_iff.mp h
    exact .kalloc hm

theorem walkLow_taken {w : Vm} (h : walkLow v va = some w) : v.mem.Taken 1 w.mem := by
  simp only [walkLow] at h
  split at h
  · obtain rfl := some.inj h
    exact .refl _
  · obtain ⟨⟨f, m⟩, hm, rfl⟩ := map_eq_some_iff.mp h
    exact .kalloc hm

theorem walkMid_of_pos (va : Nat) (h : 0 < v.mem.free.length) : ∃ w, walkMid v va = some w := by
  obtain ⟨r, hr⟩ := kalloc_of_pos h
  simp only [walkMid, hr]
  split <;> exact ⟨_, rfl⟩

theorem walkLow_of_pos (va : Nat) (h : 0 < v.mem.free.length) : ∃ w, walkLow v va = some w := by
  obtain ⟨r, hr⟩ := kalloc_of_pos h
  simp only [walkLow, hr]
  split <;> exact ⟨_, rfl⟩

theorem walkAlloc_taken (hva : va < maxva) : ∃ r, walkAlloc v va = .ok r ∧
    v.mem.Taken 2 r.2.mem ∧ (2 ≤ v.mem.free.length → r.1 = true) := by
  rw [walkAlloc, if_neg (Nat.not_le_of_lt hva)]
  cases hmid : walkMid v va with
  | none =>
    refine ⟨_, rfl, .refl _, fun h => ?_⟩
    obtain ⟨w, hw⟩ := walkMid_of_pos va (Nat.lt_of_lt_of_le Nat.two_pos h)
    rw [hmid] at hw
    cases hw
  | some w =>
    have htaken := walkMid_taken hmid
    simp only
    cases hlow : walkLow w va with
    | none =>
      have htwo : v.mem.Taken (1 + 1) w.mem := htaken.trans (.refl _)
      refine ⟨_, rfl, htwo, fun h => ?_⟩
      have hlength := htaken.length
      obtain ⟨w', hw'⟩ := walkLow_of_pos (v := w) va (by omega)
      rw [hlow] at hw'
      cases hw'
    | some w' => exact ⟨_, rfl, htaken.trans (walkLow_taken hlow), fun _ => rfl⟩

end Walk

structure Fills (v : Vm) (va : Nat) (perm : Perm) (r : Option Frame × Vm) : Prop where
  sound : r.2.mem.Sound
  mapped : ∀ f, r.1 = some f → r.2.pt.leaf = v.pt.leaf.insert (vpn va) ⟨f, perm⟩
  unmapped : r.1 = none → r.2.pt.leaf = v.pt.leaf
  enough : 3 ≤ v.mem.free.length → r.1.isSome ∧ v.mem.free.length ≤ r.2.mem.free.length + 3

theorem mapFilled_missing {v : Vm} {va : Nat} (d : Page) (perm : Perm) (hva : va % pgsize = 0)
    (hmax : va < maxva) (hsound : v.mem.Sound) (hmissing : vpn va ∉ v.pt.leaf) :
    ∃ r, mapFilled v va d perm = .ok r ∧ Fills v va perm r := by
  rw [mapFilled]
  cases hk : v.mem.kalloc with
  | none =>
    refine ⟨_, rfl, hsound, ?_, fun _ => rfl, fun h => ?_⟩
    · rintro _ ⟨⟩
    · obtain ⟨r, hr⟩ := kalloc_of_pos (Nat.lt_of_lt_of_le (by decide) h)
      rw [hk] at hr
      cases hr
  | some r =>
    obtain ⟨f, m⟩ := r
    have htaken : v.mem.Taken 1 (m.setPage f d) :=
      ⟨(Mem.Taken.kalloc hk).kend, (Mem.Taken.kalloc hk).free, (Mem.Taken.kalloc hk).length⟩
    obtain ⟨⟨ok, w⟩, hw, htaken', hok⟩ :=
      walkAlloc_taken (v := ⟨m.setPage f d, v.pt⟩) hmax
    obtain ⟨hleaf, -, hlow⟩ := (walkAlloc_leaf ⟨m.setPage f d, v.pt⟩ va).of_eq_ok hw
    have hall := htaken.trans htaken'
    have hsound' : w.mem.Sound := hall.sound hsound
    simp only [mappages_one _ hva, hw, ok_bind]
    cases ok with
    | false =>
      have hkend : w.mem.kend = v.mem.kend := hall.kend
      have hf : w.mem.kend ≤ f ∧ f < phystop := by
        rw [hkend]
        exact hsound f (by rw [kalloc_free hk]; exact mem_cons_self)
      have hvalid : ¬(f < w.mem.kend ∨ phystop ≤ f) :=
        not_or.mpr ⟨Nat.not_lt.mpr hf.1, Nat.not_le.mpr hf.2⟩
      simp only [Bool.not_false, if_true, ok_bind, Bool.false_eq_true, if_false, Mem.kfree,
        if_neg hvalid]
      refine ⟨_, rfl, ?_, ?_, fun _ => hleaf, fun h => ?_⟩
      · intro g hg
        obtain rfl | hg := mem_cons.mp hg
        · exact hf
        · exact hsound' g hg
      · rintro _ ⟨⟩
      · have hlength : v.mem.free.length ≤ (m.setPage f d).free.length + 1 := htaken.length
        have htwo : 2 ≤ (m.setPage f d).free.length := by omega
        exact absurd (hok htwo) Bool.false_ne_true
    | true =>
      have hnot : vpn va ∉ w.pt.leaf := hleaf ▸ hmissing
      simp only [Bool.not_true, Bool.false_eq_true, if_false, if_neg hnot, ok_bind, if_true]
      refine ⟨_, rfl, hsound', ?_, ?_, fun _ => ⟨rfl, hall.length⟩⟩
      · rintro _ ⟨⟩
        rw [PageTable.setLeaf_leaf _ _ _ (vpn_div va ▸ hlow rfl), hleaf]
      · rintro ⟨⟩

theorem mapFilled_resident {v : Vm} {va : Nat} (d : Page) (perm : Perm) (hva : va % pgsize = 0)
    (hmax : va < maxva) (hfree : 0 < v.mem.free.length) (hpage : vpn va ∈ v.pt.leaf) :
    mapFilled v va d perm = .error "mappages: remap" := by
  obtain ⟨⟨f, m⟩, hk⟩ := kalloc_of_pos hfree
  have hlow : va / 2 ^ 21 ∈ v.pt.low := vpn_div va ▸ v.pt.leaf_low _ hpage
  have hmid : va / 2 ^ 30 ∈ v.pt.mid := by
    have hdiv : va / 2 ^ 21 / 512 = va / 2 ^ 30 := by omega
    exact hdiv ▸ v.pt.low_mid _ hlow
  have hwalk : walkAlloc ⟨m.setPage f d, v.pt⟩ va = .ok (true, ⟨m.setPage f d, v.pt⟩) := by
    simp only [walkAlloc, if_neg (Nat.not_le_of_lt hmax), walkMid, if_pos hmid, walkLow,
      if_pos hlow]
  simp only [mapFilled, hk, mappages_one _ hva, hwalk, ok_bind, Bool.not_true, Bool.false_eq_true,
    if_false, if_pos hpage]
  rfl

inductive Touch
  | load (va : UInt64)
  | store (va : UInt64) (b : UInt8)

namespace Touch

def va : Touch → Nat
  | .load va | .store va _ => va.toNat

def call : Touch → Call
  | .load va => .load va
  | .store va b => .store va b

end Touch

/-- The access ends with success or with the process killed, after any number of faults
that were handled. It does not if a fault panics, or if the faults go on forever. -/
inductive Settles (namei : String → Option Nat) (t : Touch) : Ctx → Option Nat → Ctx → Prop
  | done {c c' n} (hrun : c.run namei t.call = .ok (some n, c')) : Settles namei t c (some n) c'
  | killed {c c'} (hrun : c.run namei t.call = .ok (none, c')) (hkilled : c'.proc.killed = true) :
      Settles namei t c none c'
  | again {c c₁ r c'} (hrun : c.run namei t.call = .ok (none, c₁))
      (halive : c₁.proc.killed = false) (hrest : Settles namei t c₁ r c') : Settles namei t c r c'

def TouchStep (namei : String → Option Nat) (v : Vma) (c : Ctx) (t : Touch) (c' : Ctx) : Prop :=
  c.proc.killed = false ∧ v.covers t.va = true ∧ ∃ r, Settles namei t c r c'

/-- All accesses to the region go well, one after the other: each succeeds or ends with
the process killed, and a store to a resident page of a region without `PROT_WRITE` does
nothing but kill. -/
def Tolerates (namei : String → Option Nat) (v : Vma) (c : Ctx) : Prop :=
  ∀ ts c', Run (TouchStep namei v) c ts c' → c'.proc.killed = false →
    (∀ t, v.covers t.va = true → ∃ r c'', Settles namei t c' r c'') ∧
    (v.protWrite = false → ∀ va b, v.covers va.toNat = true → vpn va.toNat ∈ c'.proc.pt.leaf →
      Settles namei (.store va b) c' none c'.setKilled)

def Perm.readWrite (p : Perm) : Bool := p.u && p.r && p.w

/-- The page at `a` is, or becomes with the first fault, a page the user may read and
write: it is resident with these permissions, or a `mapzero` region covers `a`, or the
first mapping that covers `a` is readable and writable and has a file to read from. -/
def Ready (c : Ctx) (a : Nat) : Prop :=
  match c.proc.pt.leaf.lookup (vpn a) with
  | some e => e.perm.readWrite = true
  | none => (∃ j, (c.proc.vregions j).covers a = true) ∨
      ∃ i ip, (firstIdx fun i => (c.proc.vmas i).covers a) = some i ∧
        (c.proc.vmas i).protRead = true ∧ (c.proc.vmas i).protWrite = true ∧
        c.fs.ilock (c.fs.ftable (c.proc.vmas i).file).ip = .ok ip

def TouchSafe (c : Ctx) (v : Vma) : Prop :=
  ∀ a, v.covers a = true → v.protWrite = true ∧ Ready c a

section

variable {namei : String → Option Nat} {c c' c'' : Ctx} {t : Touch} {r r' : Option Nat} {a : Nat}

theorem Settles.unique (h : Settles namei t c r c') (h' : Settles namei t c r' c'') :
    r' = r ∧ c'' = c' := by
  induction h with
  | done hrun =>
    cases h' with
    | done hrun' => grind
    | killed hrun' _ => grind
    | again hrun' _ _ => grind
  | killed hrun hkilled =>
    cases h' with
    | done hrun' => grind
    | killed hrun' _ => grind
    | again hrun' halive _ => grind
  | again hrun halive _ ih =>
    cases h' with
    | done hrun' => grind
    | killed hrun' hkilled => grind
    | again hrun' _ hrest =>
      rw [hrun] at hrun'
      obtain ⟨-, rfl⟩ := Prod.mk.inj (ok.inj hrun')
      exact ih hrest

theorem not_settles_of_panic {e : String} (hrun : c.run namei t.call = .error e) :
    ¬Settles namei t c r c' := by
  rintro (hrun' | ⟨hrun', -⟩ | ⟨hrun', -, -⟩) <;> simp [hrun] at hrun'

theorem not_settles_of_spin (hrun : c.run namei t.call = .ok (none, c))
    (halive : c.proc.killed = false) : ¬Settles namei t c r c' := by
  intro h
  induction h with
  | done hrun' => simp [hrun] at hrun'
  | killed hrun' hkilled =>
    rw [hrun] at hrun'
    obtain ⟨-, rfl⟩ := Prod.mk.inj (ok.inj hrun')
    simp [halive] at hkilled
  | again hrun' _ _ ih =>
    rw [hrun] at hrun'
    obtain ⟨-, rfl⟩ := Prod.mk.inj (ok.inj hrun')
    exact ih hrun halive

theorem readWrite_iff {p : Perm} :
    p.readWrite = true ↔ p.u = true ∧ p.r = true ∧ p.w = true := by
  simp [Perm.readWrite, and_assoc]

theorem run_resident (namei : String → Option Nat) (hmax : t.va < maxva) {e : Pte}
    (he : c.proc.pt.leaf.lookup (vpn t.va) = some e) (hperm : e.perm.readWrite = true) :
    ∃ n c', c.run namei t.call = .ok (some n, c') ∧ c'.proc = c.proc ∧ c'.fs = c.fs ∧
      c.mem.Taken 0 c'.mem := by
  obtain ⟨hu, hr, hw⟩ := readWrite_iff.mp hperm
  have hload : loadPte c.vm.pt t.va = some e := by
    rw [loadPte, if_neg (Nat.not_le_of_lt hmax), show c.vm.pt.leaf.lookup (vpn t.va) =
      some e from he]
    simp [hu, hr]
  cases t with
  | load va =>
    refine ⟨(c.mem.page e.frame (pageOffset va.toNat)).toNat, c, ?_, rfl, rfl, .refl _⟩
    simp only [Touch.call, Ctx.run, loadByte, show loadPte c.vm.pt va.toNat = some e from hload]
    rfl
  | store va b =>
    have hstore : storePte c.vm.pt va.toNat = some e := by
      rw [storePte, show loadPte c.vm.pt va.toNat = some e from hload]
      simp [hw]
    refine ⟨0, { c with mem := c.mem.setPage e.frame (update (c.mem.page e.frame)
      (pageOffset va.toNat) b) }, ?_, rfl, rfl, rfl, List.Subset.refl _, Nat.le_refl _⟩
    simp only [Touch.call, Ctx.run, storeByte, hstore]
    rfl

theorem run_store_fault {va : UInt64} {b : UInt8}
    (hpage : ∀ e, c.proc.pt.leaf.lookup (vpn va.toNat) = some e → e.perm.readWrite = false) :
    c.run namei (.store va b) = usertrap c va.toNat >>= fun c => .ok (none, c) := by
  have hstore : storePte c.vm.pt va.toNat = none := by
    rw [storePte, loadPte]
    split
    · rfl
    · cases he : c.vm.pt.leaf.lookup (vpn va.toNat) with
      | none => rfl
      | some e =>
        have hperm := hpage e he
        simp only [Perm.readWrite, Bool.and_eq_false_iff] at hperm
        grind
  simp only [Ctx.run, storeByte, hstore]
  rfl

theorem run_missing (hpage : vpn t.va ∉ c.proc.pt.leaf) :
    c.run namei t.call = usertrap c t.va >>= fun c => .ok (none, c) := by
  have hlookup : c.proc.pt.leaf.lookup (vpn t.va) = none := lookup_eq_none.mpr hpage
  cases t with
  | load va =>
    have hload : loadPte c.vm.pt va.toNat = none := by
      rw [loadPte, show c.vm.pt.leaf.lookup (vpn va.toNat) = none from hlookup]
      split <;> rfl
    simp only [Touch.call, Ctx.run, loadByte, hload]
    rfl
  | store va b =>
    refine run_store_fault fun e he => ?_
    have hnone := hlookup.symm.trans he
    cases hnone

/-- What `usertrap` does with a fault on a missing page that is ready: it maps the page or
kills the process. It has the memory if three pages are free. -/
structure Served (c : Ctx) (a : Nat) (c' : Ctx) : Prop where
  fs : c'.fs = c.fs
  regions : SameRegions c.proc c'.proc
  sound : c'.mem.Sound
  page : c'.proc.killed = false →
    ∃ e, e.perm.readWrite = true ∧ c'.proc.pt.leaf = c.proc.pt.leaf.insert (vpn a) e
  killed : c'.proc.killed = true → c'.proc.pt.leaf = c.proc.pt.leaf
  enough : 3 ≤ c.mem.free.length →
    c'.proc.killed = false ∧ c.mem.free.length ≤ c'.mem.free.length + 3

theorem pgrounddown_lt (hmax : a < maxva) : pgrounddown a < maxva :=
  Nat.lt_of_le_of_lt (Nat.div_mul_le_self a pgsize) hmax

theorem fills_page (d : Page) (perm : Perm) (hmissing : vpn a ∉ c.proc.pt.leaf) (hmax : a < maxva)
    (hsound : c.mem.Sound) :
    ∃ r, mapFilled c.vm (pgrounddown a) d perm = .ok r ∧ Fills c.vm a perm r := by
  obtain ⟨r, hr, hfills⟩ := mapFilled_missing (v := c.vm) d perm (pgrounddown_mod a)
    (pgrounddown_lt hmax) hsound (by rwa [vpn_pgrounddown])
  refine ⟨r, hr, hfills.sound, ?_, hfills.unmapped, hfills.enough⟩
  rw [← vpn_pgrounddown a]
  exact hfills.mapped

theorem Fills.served {perm : Perm} {f : Frame} {w : Vm} (h : Fills c.vm a perm (some f, w))
    (hperm : perm.readWrite = true) (halive : c.proc.killed = false) : Served c a (c.setVm w) :=
  ⟨rfl, setVm_sameRegions c w, h.sound, fun _ => ⟨⟨f, perm⟩, hperm, h.mapped f rfl⟩,
    fun hkilled => absurd (halive.symm.trans hkilled) Bool.false_ne_true,
    fun henough => ⟨halive, (h.enough henough).2⟩⟩

theorem Fills.killed {perm : Perm} {w : Vm} (h : Fills c.vm a perm (none, w)) :
    Served c a (c.setVm w).setKilled :=
  ⟨rfl, ⟨rfl, rfl, rfl⟩, h.sound, nofun, fun _ => h.unmapped rfl,
    fun henough => absurd (h.enough henough).1 Bool.false_ne_true⟩

section

variable (halive : c.proc.killed = false) (hmissing : vpn a ∉ c.proc.pt.leaf) (hmax : a < maxva)
  (hsz : a < c.proc.sz) (hsound : c.mem.Sound)
include halive hmissing hmax hsz hsound

theorem heap_served :
    ∃ c', (heapFault c a >>= fun r => if r.1 || r.2.proc.killed then .ok r.2 else badFault r.2 a) =
      .ok c' ∧ Served c a c' := by
  obtain ⟨⟨f, w⟩, hr, hfills⟩ := fills_page (memset 0) .heap hmissing hmax hsound
  have hmapped : ismapped c.vm.pt (pgrounddown a) = .ok false :=
    ismapped_missing hmissing (pgrounddown_lt hmax)
  have hheap : heapFault c a = .ok (f.isSome, c.setVm w) := by
    simp only [heapFault, vmfault, if_neg (Nat.not_le_of_lt hsz), hmapped, ok_bind,
      Bool.false_eq_true, if_false, hr]
  rw [hheap, ok_bind]
  cases f with
  | some f => exact ⟨_, rfl, hfills.served rfl halive⟩
  | none =>
    refine ⟨_, ?_, hfills.killed⟩
    have hmissing' : vpn a ∉ (c.setVm w).proc.pt.leaf := by
      rw [show (c.setVm w).proc.pt.leaf = c.proc.pt.leaf from hfills.unmapped rfl]
      exact hmissing
    have halive' : (c.setVm w).proc.killed = false := halive
    simp [halive', badFault, ismapped_missing hmissing' (pgrounddown_lt hmax), bind, Except.bind]

theorem usertrap_served (hready : Ready c a) : ∃ c', usertrap c a = .ok c' ∧ Served c a c' := by
  have hmapped := ismapped_missing hmissing (pgrounddown_lt hmax)
  rw [Ready, lookup_eq_none.mpr hmissing] at hready
  cases hj : firstIdx fun j => (c.proc.vregions j).covers a with
  | some j =>
    obtain ⟨⟨f, w⟩, hr, hfills⟩ := fills_page (memset 0x41) .heap hmissing hmax hsound
    cases f with
    | some f =>
      refine ⟨_, ?_, hfills.served rfl halive⟩
      simp [usertrap, vregionFault, hj, hmapped, hr, orElse, bind, Except.bind]
    | none =>
      refine ⟨_, ?_, hfills.killed⟩
      simp [usertrap, vregionFault, hj, hmapped, hr, orElse, Ctx.setKilled, bind, Except.bind]
  | none =>
    obtain ⟨j, hcovers⟩ | ⟨i, ip, hi, hread, hwrite, hip⟩ := hready
    · exact absurd hcovers (by simp [firstIdx_none.mp hj j])
    have htrap : usertrap c a = mmapFault c a >>= fun r =>
        orElse r (fun c => heapFault c a) >>= fun r =>
          if r.1 || r.2.proc.killed then .ok r.2 else badFault r.2 a := by
      simp only [usertrap, vregionFault_none hj, ok_bind, orElse, halive, Bool.or_self,
        Bool.false_eq_true, if_false]
    have hperm : (c.proc.vmas i).perm.readWrite = true := readWrite_iff.mpr ⟨rfl, hread, hwrite⟩
    rw [htrap]
    cases hk : c.mem.kalloc with
    | none =>
      have hfault : mmapFault c a = .ok (false, c) := by simp only [mmapFault, hi, hk]
      obtain ⟨c', hc', hserved⟩ := heap_served halive hmissing hmax hsz hsound
      refine ⟨c', ?_, hserved⟩
      simp only [hfault, ok_bind, orElse, halive, Bool.or_self, Bool.false_eq_true, if_false]
      exact hc'
    | some _ =>
      obtain ⟨⟨f, w⟩, hr, hfills⟩ := fills_page ((c.proc.vmas i).fill c.fs ip (pgrounddown a))
        (c.proc.vmas i).perm hmissing hmax hsound
      have hfault : mmapFault c a = .ok (f.isSome, c.setVm w) := by
        simp only [mmapFault, hi, hk, hip, ok_bind, hr]
      cases f with
      | some f =>
        refine ⟨_, ?_, hfills.served hperm halive⟩
        simp [hfault, ok_bind, orElse]
      | none =>
        have hleaf : (c.setVm w).proc.pt.leaf = c.proc.pt.leaf := hfills.unmapped rfl
        obtain ⟨c', hc', hserved⟩ := heap_served (c := c.setVm w) halive (by rwa [hleaf]) hmax
          hsz hfills.sound
        refine ⟨c', ?_, ⟨hserved.fs, (setVm_sameRegions c w).trans hserved.regions,
          hserved.sound, ?_, ?_, ?_⟩⟩
        · have halive' : (c.setVm w).proc.killed = false := halive
          simp only [hfault, ok_bind, orElse, halive', isSome_none, Bool.or_self,
            Bool.false_eq_true, if_false]
          exact hc'
        · rw [← hleaf]
          exact hserved.page
        · rw [← hleaf]
          exact hserved.killed
        · exact fun henough => absurd (hfills.enough henough).1 Bool.false_ne_true

end

section Mapping

variable {i : Fin maxvma} {ip : Nat} (hpos : 0 < c.mem.free.length)
  (hj : firstIdx (fun j => (c.proc.vregions j).covers a) = none) (halive : c.proc.killed = false)
  (hi : firstIdx (fun i => (c.proc.vmas i).covers a) = some i)
  (hip : c.fs.ilock (c.fs.ftable (c.proc.vmas i).file).ip = .ok ip)

include hpos hj halive hi hip

theorem usertrap_mapped {f : Frame} {w : Vm} (hr : mapFilled c.vm (pgrounddown a)
      ((c.proc.vmas i).fill c.fs ip (pgrounddown a)) (c.proc.vmas i).perm = .ok (some f, w)) :
    usertrap c a = .ok (c.setVm w) := by
  obtain ⟨r, hk⟩ := kalloc_of_pos hpos
  simp [usertrap, vregionFault_none hj, mmapFault, hi, hk, hip, hr, orElse, halive, bind,
    Except.bind]

theorem usertrap_remap (hmax : a < maxva) (hpage : vpn a ∈ c.proc.pt.leaf) :
    usertrap c a = .error "mappages: remap" := by
  obtain ⟨r, hk⟩ := kalloc_of_pos hpos
  have hremap := mapFilled_resident (v := c.vm) ((c.proc.vmas i).fill c.fs ip (pgrounddown a))
    (c.proc.vmas i).perm (pgrounddown_mod a) (pgrounddown_lt hmax) hpos
    (by rwa [vpn_pgrounddown])
  simp [usertrap, vregionFault_none hj, mmapFault, hi, hk, hip, hremap, orElse, halive, bind,
    Except.bind]

end Mapping

structure Prepared (v : Vma) (c : Ctx) : Prop where
  sound : c.mem.Sound
  ready : ∀ a, v.covers a = true → Ready c a
  below : ∀ a, v.covers a = true → a < c.proc.sz ∧ a < maxva

variable {v : Vma}

theorem Ready.of_insert {e : Pte} {b : Nat} (h : Ready c b) (hfs : c'.fs = c.fs)
    (hregions : SameRegions c.proc c'.proc) (hperm : e.perm.readWrite = true)
    (hleaf : c'.proc.pt.leaf = c.proc.pt.leaf.insert (vpn a) e) : Ready c' b := by
  rw [Ready, hleaf]
  by_cases heq : vpn b = vpn a
  · rw [heq, lookup_insert]
    exact hperm
  · rw [lookup_insert_ne heq]
    simp only [hfs, hregions.vmas, hregions.vregions]
    exact h

theorem Prepared.settles (namei : String → Option Nat) (h : Prepared v c)
    (halive : c.proc.killed = false) (hcovers : v.covers t.va = true) :
    ∃ r c', Settles namei t c r c' ∧ (c'.proc.killed = false → Prepared v c') ∧
      (3 ≤ c.mem.free.length → c'.proc.killed = false ∧ r.isSome ∧
        ∃ e, c'.proc.pt.leaf.lookup (vpn t.va) = some e ∧ e.perm.readWrite = true) := by
  obtain ⟨hsz, hmax⟩ := h.below _ hcovers
  have hready := h.ready _ hcovers
  cases he : c.proc.pt.leaf.lookup (vpn t.va) with
  | some e =>
    rw [Ready, he] at hready
    obtain ⟨n, c', hrun, hproc, hfs, htaken⟩ := run_resident namei hmax he hready
    refine ⟨some n, c', .done hrun, fun _ => ⟨htaken.sound h.sound, fun b hb => ?_, ?_⟩, fun _ =>
      ?_⟩
    · have hb' := h.ready b hb
      rw [Ready] at hb' ⊢
      rw [hproc, hfs]
      exact hb'
    · rw [hproc]
      exact h.below
    · rw [hproc]
      exact ⟨halive, rfl, e, he, hready⟩
  | none =>
    have hmissing : vpn t.va ∉ c.proc.pt.leaf := lookup_eq_none.mp he
    obtain ⟨c₁, htrap, hserved⟩ := usertrap_served halive hmissing hmax hsz h.sound hready
    have hrun : c.run namei t.call = .ok (none, c₁) := by rw [run_missing hmissing, htrap, ok_bind]
    cases hkilled : c₁.proc.killed with
    | true =>
      refine ⟨none, c₁, .killed hrun hkilled, fun hfalse => ?_, fun henough => ?_⟩
      · rw [hkilled] at hfalse
        cases hfalse
      · have hfalse := (hserved.enough henough).1
        rw [hkilled] at hfalse
        cases hfalse
    | false =>
      obtain ⟨e, hperm, hleaf⟩ := hserved.page hkilled
      have he₁ : c₁.proc.pt.leaf.lookup (vpn t.va) = some e := by
        rw [hleaf, lookup_insert]
      obtain ⟨n, c', hrun', hproc, hfs, htaken⟩ := run_resident namei hmax he₁ hperm
      refine ⟨some n, c', .again hrun hkilled (.done hrun'),
        fun _ => ⟨htaken.sound hserved.sound, fun b hb => ?_, ?_⟩, fun _ => ?_⟩
      · have hb' := (h.ready b hb).of_insert hserved.fs hserved.regions hperm hleaf
        rw [Ready] at hb' ⊢
        rw [hproc, hfs]
        exact hb'
      · rw [hproc, hserved.regions.sz]
        exact h.below
      · rw [hproc]
        exact ⟨hkilled, rfl, e, he₁, hperm⟩

theorem tolerates_of_touchSafe (hsafe : TouchSafe c v) (hsound : c.mem.Sound)
    (hbelow : ∀ a, v.covers a = true → a < c.proc.sz ∧ a < maxva) : Tolerates namei v c := by
  intro ts c' run halive
  have hprepared : c'.proc.killed = false → Prepared v c' := by
    refine run.invariant (fun c => c.proc.killed = false → Prepared v c)
      (fun _ => ⟨hsound, fun a ha => (hsafe a ha).2, hbelow⟩) ?_
    rintro s t s' hs ⟨halive, hcovers, r, hsettles⟩
    obtain ⟨r', s'', hsettles', hnext, -⟩ := (hs halive).settles namei halive hcovers
    obtain ⟨-, rfl⟩ := hsettles'.unique hsettles
    exact hnext
  refine ⟨fun t hcovers => ?_, fun hwrite va b hcovers _ => ?_⟩
  · obtain ⟨r, c'', hsettles, -⟩ := (hprepared halive).settles namei halive hcovers
    exact ⟨r, c'', hsettles⟩
  · rw [(hsafe _ hcovers).1] at hwrite
    cases hwrite

/-- With memory to spare, a store ends only if the page is ready. -/
theorem ready_of_settles {va : UInt64} {b : UInt8} (hv : ∃ i, c.proc.vmas i = v)
    (hcovers : v.covers va.toNat = true) (halive : c.proc.killed = false)
    (hmax : va.toNat < maxva) (hsound : c.mem.Sound) (henough : 4 ≤ c.mem.free.length)
    (hsettles : Settles namei (.store va b) c r c') : Ready c va.toNat := by
  have hpos : 0 < c.mem.free.length := by omega
  rw [Ready]
  cases hj : firstIdx fun j => (c.proc.vregions j).covers va.toNat with
  | some j =>
    cases he : c.proc.pt.leaf.lookup (vpn va.toNat) with
    | none => exact .inl ⟨j, firstIdx_some hj⟩
    | some e =>
      by_contra hperm
      have hmapped : ismapped c.proc.pt (pgrounddown va.toNat) = .ok true := by
        rw [ismapped, PageTable.walk, if_neg (Nat.not_le_of_lt (pgrounddown_lt hmax)),
          vpn_pgrounddown, he]
        rfl
      have htrap : usertrap c va.toNat = .ok c := by
        simp [usertrap, vregionFault, hj, hmapped, orElse, bind, Except.bind]
      refine not_settles_of_spin ?_ halive hsettles
      rw [Touch.call, run_store_fault fun e' he' => ?_, htrap]
      · rfl
      · obtain rfl := some.inj (he.symm.trans he')
        exact Bool.eq_false_iff.mpr hperm
  | none =>
    obtain ⟨i₀, rfl⟩ := hv
    obtain ⟨i, hi⟩ : ∃ i, (firstIdx fun i => (c.proc.vmas i).covers va.toNat) = some i := by
      cases hfind : firstIdx fun i => (c.proc.vmas i).covers va.toNat with
      | none => exact absurd hcovers (by simp [firstIdx_none.mp hfind i₀])
      | some i => exact ⟨i, rfl⟩
    by_contra hnot
    have hfault : ∀ e, c.proc.pt.leaf.lookup (vpn va.toNat) = some e →
        e.perm.readWrite = false := by
      intro e he
      rw [he] at hnot
      exact Bool.eq_false_iff.mpr hnot
    have hrun : c.run namei (Touch.store va b).call =
        usertrap c va.toNat >>= fun c => .ok (none, c) := run_store_fault hfault
    cases hip : c.fs.ilock (c.fs.ftable (c.proc.vmas i).file).ip with
    | error e =>
      rw [usertrap_vma_panic (isSome_iff_exists.mpr (kalloc_of_pos hpos)) hj halive hi hip]
        at hrun
      exact not_settles_of_panic hrun hsettles
    | ok ip =>
      by_cases hpage : vpn va.toNat ∈ c.proc.pt.leaf
      · rw [usertrap_remap hpos hj halive hi hip hmax hpage] at hrun
        exact not_settles_of_panic hrun hsettles
      · -- The page is mapped with a protection that lets the store fault once more.
        obtain ⟨⟨f, w⟩, hr, hfills⟩ := fills_page
          ((c.proc.vmas i).fill c.fs ip (pgrounddown va.toNat)) (c.proc.vmas i).perm hpage hmax
          hsound
        obtain ⟨hsome, hlength⟩ := hfills.enough (Nat.le_of_succ_le henough)
        obtain ⟨f, rfl⟩ := isSome_iff_exists.mp hsome
        rw [usertrap_mapped hpos hj halive hi hip hr, ok_bind] at hrun
        rw [lookup_eq_none.mpr hpage] at hnot
        have hleaf : (c.setVm w).proc.pt.leaf.lookup (vpn va.toNat) =
            some ⟨f, (c.proc.vmas i).perm⟩ := by
          rw [show (c.setVm w).proc.pt.leaf = _ from hfills.mapped f rfl, lookup_insert]
        have hrun' : (c.setVm w).run namei (Touch.store va b).call =
            usertrap (c.setVm w) va.toNat >>= fun c => .ok (none, c) := by
          refine run_store_fault fun e he => ?_
          obtain rfl := some.inj (hleaf.symm.trans he)
          refine Bool.eq_false_iff.mpr fun hperm => hnot (.inr ⟨i, ip, hi, ?_⟩)
          obtain ⟨-, hread, hwrite⟩ := readWrite_iff.mp hperm
          exact ⟨hread, hwrite, hip⟩
        have hpos' : 0 < (c.setVm w).mem.free.length := by
          have hlength' : c.mem.free.length ≤ (c.setVm w).mem.free.length + 3 := hlength
          omega
        rw [usertrap_remap (c := c.setVm w) hpos' hj halive hi hip hmax
          (lookup_isSome.mp (isSome_of_eq_some hleaf))] at hrun'
        cases hsettles with
        | done hrun'' => simp [hrun] at hrun''
        | killed hrun'' hkilled =>
          rw [hrun] at hrun''
          obtain ⟨-, rfl⟩ := Prod.mk.inj (ok.inj hrun'')
          exact Bool.false_ne_true (halive.symm.trans hkilled)
        | again hrun'' _ hrest =>
          rw [hrun] at hrun''
          obtain ⟨-, rfl⟩ := Prod.mk.inj (ok.inj hrun'')
          exact not_settles_of_panic hrun' hrest

theorem toNat_of_lt_maxva (hmax : a < maxva) : a.toUInt64.toNat = a := by
  have hlt : maxva < 2 ^ 64 := by decide
  exact Nat.mod_eq_of_lt (Nat.lt_trans hmax hlt)

theorem touchSafe_of_tolerates (hv : ∃ i, c.proc.vmas i = v) (halive : c.proc.killed = false)
    (hsound : c.mem.Sound) (henough : 4 ≤ c.mem.free.length)
    (hbelow : ∀ a, v.covers a = true → a < c.proc.sz ∧ a < maxva)
    (h : Tolerates namei v c) : TouchSafe c v := by
  have hready : ∀ a, v.covers a = true → Ready c a := by
    intro a ha
    have hmax := (hbelow a ha).2
    have htoNat := toNat_of_lt_maxva hmax
    rw [← htoNat] at ha hmax
    rw [← htoNat]
    obtain ⟨r, c', hsettles⟩ := (h [] c .nil halive).1 (.store a.toUInt64 0) ha
    exact ready_of_settles hv ha halive hmax hsound henough hsettles
  intro a ha
  refine ⟨?_, hready a ha⟩
  have ha' : v.covers (Touch.store a.toUInt64 0).va = true := by
    rw [← toNat_of_lt_maxva (hbelow a ha).2] at ha
    exact ha
  -- After one store the page is resident, and the next store succeeds.
  have hprepared : Prepared v c := ⟨hsound, hready, hbelow⟩
  obtain ⟨r, c', hsettles, hnext, hrich⟩ := hprepared.settles namei halive ha'
  obtain ⟨halive', -, e, he, hperm⟩ := hrich (Nat.le_of_succ_le henough)
  obtain ⟨n, c'', hrun, -⟩ := run_resident namei ((hnext halive').below _ ha').2 he hperm
  by_contra hwrite
  have hkill := (h _ c' (Run.nil.snoc ⟨halive, ha', r, hsettles⟩) halive').2
    (Bool.eq_false_iff.mpr hwrite) a.toUInt64 0 ha'
    (lookup_isSome.mp (isSome_of_eq_some he))
  exact nomatch (hkill.unique (.done hrun)).1

theorem sysMmap_region {length : Nat} {prot flags : UInt32} {fd : Int} {offset va : Nat}
    {i : Fin maxvma} (hmmap : sysMmap c length prot flags fd offset = .ok (some va, c'))
    (hold : (c.proc.vmas i).used = false) (hnew : (c'.proc.vmas i).used = true) :
    c'.proc.killed = c.proc.killed ∧
      ∀ a, (c'.proc.vmas i).covers a = true → a < c'.proc.sz ∧ a < maxva := by
  obtain hsame | ⟨i', f, -, -, htop, -, hproc⟩ :=
    (sysMmap_regions c length prot flags fd offset).of_eq_ok hmmap
  · obtain rfl : c' = c := hsame
    rw [hold] at hnew
    cases hnew
  · change c'.proc = _ at hproc
    obtain rfl : i = i' := by
      by_contra hne
      rw [hproc] at hnew
      simp only [update_of_ne hne, hold] at hnew
      cases hnew
    rw [hproc]
    refine ⟨rfl, fun a ha => ?_⟩
    simp only [update_self, Vma.covers_iff] at ha ⊢
    have hmax : trapframe < maxva := by decide
    omega

theorem sampleKernel_sound : sampleKernel.mem.Sound := by
  have h : ∀ f ∈ sampleKernel.mem.free, sampleKernel.mem.kend ≤ f ∧ f < phystop := by
    decide +kernel
  exact h

theorem sampleKernel_enough : 4 ≤ sampleKernel.mem.free.length := by
  decide +kernel

/-- All accesses to a region that `sys_mmap` has returned go well, whatever memory there
is, exactly if the region has `PROT_WRITE` and its pages are ready when it returns. -/
theorem mmap_accesses_iff (namei : String → Option Nat) {length : Nat} {prot flags : UInt32}
    {fd : Int} {offset va : Nat} {i : Fin maxvma} (halive : c.proc.killed = false)
    (hmmap : sysMmap c length prot flags fd offset = .ok (some va, c'))
    (hold : (c.proc.vmas i).used = false) (hnew : (c'.proc.vmas i).used = true) :
    (∀ m : Mem, m.Sound → Tolerates namei (c'.proc.vmas i) { c' with mem := m }) ↔
      TouchSafe c' (c'.proc.vmas i) := by
  obtain ⟨hkilled, hbelow⟩ := sysMmap_region hmmap hold hnew
  constructor
  · intro h
    have hsound : sampleKernel.mem.Sound := sampleKernel_sound
    exact touchSafe_of_tolerates (c := { c' with mem := sampleKernel.mem }) ⟨i, rfl⟩
      (hkilled.trans halive) hsound sampleKernel_enough hbelow (h _ hsound)
  · intro hsafe m hsound
    exact tolerates_of_touchSafe (c := { c' with mem := m }) hsafe hsound hbelow

end

def sampleMapped (prot : UInt32) : Ctx :=
  { sampleCtx with
    fs := sampleCtx.fs.setFile 0 ⟨.inode, 3, true, true, some 1⟩ }.setSz 8192
    |>.setVma 0 ⟨true, 4096, 4096, prot, 1, 0, 0⟩

theorem sysMmap_sampleMapped (prot : UInt32) :
    sysMmap sampleCtx 4096 prot 1 3 0 = .ok (some 4096, sampleMapped prot) := by
  have haccepts : Accepts sampleCtx 4096 prot 1 3 0 0 :=
    ⟨by decide, ⟨3, rfl, rfl⟩, by simp [sampleCtx, sampleKernel, Kernel.ctx], rfl⟩
  have hsz : pgroundup sampleCtx.proc.sz = 4096 := by decide
  have hlength : pgroundup 4096 = 4096 := by decide
  rw [sysMmap_of_accepts haccepts, hsz, hlength, if_neg (by decide), Fs.filedup, if_neg (by decide)]
  rfl

/-- A file is mapped for reading and writing and all accesses to it go well. -/
theorem mmap_accesses_readWrite :
    sysMmap sampleCtx 4096 3 1 3 0 = .ok (some 4096, sampleMapped 3) ∧
    ∀ m : Mem, m.Sound →
      Tolerates sampleKernel.namei ((sampleMapped 3).proc.vmas 0) { sampleMapped 3 with mem :=
        m } := by
  refine ⟨sysMmap_sampleMapped 3, (mmap_accesses_iff _ rfl (sysMmap_sampleMapped 3) rfl rfl).mpr ?_⟩
  intro a ha
  obtain ⟨-, hle, hlt⟩ := Vma.covers_iff.mp ha
  have hle' : 4096 ≤ a := hle
  have hlt' : a < 8192 := hlt
  have hpage : vpn a = 1 := by
    simp only [vpn, pgsize]
    omega
  have hfirst : (firstIdx fun i => ((sampleMapped 3).proc.vmas i).covers a) = some 0 := by
    refine firstIdx_eq_of_unique ha fun k hk => ?_
    by_contra hne
    rw [sampleMapped, Ctx.setVma] at hk
    simp [update_of_ne hne] at hk
    cases hk
  refine ⟨by decide, ?_⟩
  rw [Ready, hpage]
  exact .inr ⟨0, 1, hfirst, by decide, by decide, rfl⟩

/-- In a region that is mapped for reading only, a store to a page that has been loaded
panics. -/
theorem store_to_resident_page_panics : ∃ c₁ c₂,
    sysMmap sampleCtx 4096 1 1 3 0 = .ok (some 4096, sampleMapped 1) ∧
    (sampleMapped 1).run sampleKernel.namei (.load 4096) = .ok (none, c₁) ∧
    c₁.run sampleKernel.namei (.load 4096) = .ok (some 0, c₂) ∧
    c₂.run sampleKernel.namei (.store 4096 7) = .error "mappages: remap" ∧
    ¬Tolerates sampleKernel.namei ((sampleMapped 1).proc.vmas 0) (sampleMapped 1) := by
  have hfacts : ∃ c₁, (sampleMapped 1).run sampleKernel.namei (.load 4096) = .ok (none, c₁) ∧
      c₁.proc.killed = false ∧ ∃ c₂, c₁.run sampleKernel.namei (.load 4096) = .ok (some 0, c₂) ∧
        c₂.proc.killed = false ∧
        c₂.run sampleKernel.namei (.store 4096 7) = .error "mappages: remap" := by
    decide +kernel
  obtain ⟨c₁, hload, halive₁, c₂, hload', halive₂, hpanic⟩ := hfacts
  refine ⟨c₁, c₂, sysMmap_sampleMapped 1, hload, hload', hpanic, fun h => ?_⟩
  have hsettles : Settles sampleKernel.namei (.load 4096) (sampleMapped 1) (some 0) c₂ :=
    .again hload halive₁ (.done hload')
  obtain ⟨r, c, hend⟩ := (h _ c₂ (Run.nil.snoc ⟨rfl, by decide, some 0, hsettles⟩) halive₂).1
    (.store 4096 7) (by decide)
  exact not_settles_of_panic hpanic hend

end EafitOs.Memory
