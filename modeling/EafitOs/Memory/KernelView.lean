import EafitOs.Memory.Entries
import EafitOs.Memory.Regions

/-!
# The page the kernel installs and the page the user would get

`copyin`, `copyout` and `copyinstr` fill a missing page with `vmfault`, which knows
neither the mappings nor the `mapzero` regions that `usertrap` looks at first. The
two agree only where those regions play no part.
-/

namespace EafitOs.Memory

open Foundation List Option Except

def Vm.pageAt (v : Vm) (va : Nat) : Option (Page × Perm) :=
  (v.pt.leaf.lookup (vpn va)).map fun e => (v.mem.page e.frame, e.perm)

theorem pageAt_pgrounddown (v : Vm) (va : Nat) : v.pageAt (pgrounddown va) = v.pageAt va := by
  rw [Vm.pageAt, vpn_pgrounddown, Vm.pageAt]

@[simp] theorem setVm_vm (c : Ctx) (v : Vm) : (c.setVm v).vm = v := rfl

/-- Write a page that `kalloc` has handed out. -/
def Vm.setPage (v : Vm) (f : Frame) (d : Page) : Vm := { v with mem := v.mem.setPage f d }

theorem kalloc_setPage {m : Mem} {f : Frame} (hf : f ∉ m.free) (d : Page) :
    (m.setPage f d).kalloc = m.kalloc.map fun r => (r.1, r.2.setPage f d) := by
  obtain ⟨free, page, kend, text, htext⟩ := m
  cases free with
  | nil => rfl
  | cons g rest =>
    have hne : g ≠ f := fun h => hf (by simp [h])
    simp only [Mem.kalloc, Mem.setPage, map_some, Function.update_comm hne]

theorem kalloc_free {m m' : Mem} {f : Frame} (h : m.kalloc = some (f, m')) :
    m.free = f :: m'.free := by
  simp only [Mem.kalloc] at h
  split at h
  · cases h
  · rename_i heq
    obtain ⟨rfl, rfl⟩ := Prod.mk.inj (some.inj h)
    exact heq

theorem walkMid_setPage {v : Vm} {f : Frame} (hf : f ∉ v.mem.free) (d : Page) (va : Nat) :
    walkMid (v.setPage f d) va = (walkMid v va).map fun w => w.setPage f d := by
  simp only [walkMid, Vm.setPage, kalloc_setPage hf]
  split
  · rfl
  · rw [Option.map_map, Option.map_map]
    rfl

theorem walkLow_setPage {v : Vm} {f : Frame} (hf : f ∉ v.mem.free) (d : Page) (va : Nat) :
    walkLow (v.setPage f d) va = (walkLow v va).map fun w => w.setPage f d := by
  simp only [walkLow, Vm.setPage, kalloc_setPage hf]
  split
  · rfl
  · rw [Option.map_map, Option.map_map]
    rfl

theorem walkMid_free {v w : Vm} {va : Nat} (h : walkMid v va = some w) :
    ∀ f, f ∉ v.mem.free → f ∉ w.mem.free := by
  intro f hf
  simp only [walkMid] at h
  split at h
  · exact some.inj h ▸ hf
  · obtain ⟨⟨g, m⟩, hm, rfl⟩ := map_eq_some_iff.mp h
    rw [kalloc_free hm] at hf
    exact fun hmem => hf (mem_cons_of_mem g hmem)

theorem walkAlloc_setPage {v : Vm} {f : Frame} (hf : f ∉ v.mem.free) (d : Page) (va : Nat) :
    walkAlloc (v.setPage f d) va = (walkAlloc v va).map fun r => (r.1, r.2.setPage f d) := by
  simp only [walkAlloc, walkMid_setPage hf]
  split
  · rfl
  · cases hmid : walkMid v va with
    | none => rfl
    | some w =>
      simp only [map_some, walkLow_setPage (walkMid_free hmid f hf)]
      cases walkLow w va <;> rfl

theorem mappages_one (v : Vm) {va : Nat} (hva : va % pgsize = 0) (f : Frame) (perm : Perm) :
    mappages v va pgsize f perm = walkAlloc v va >>= fun r =>
      if !r.1 then .ok (false, r.2)
      else if vpn va ∈ r.2.pt.leaf then .error "mappages: remap"
      else .ok (true, { r.2 with pt := r.2.pt.setLeaf (vpn va) ⟨f, perm⟩ }) := by
  have hsize : pgsize % pgsize = 0 := by decide
  have hpos : pgsize ≠ 0 := by decide
  have hone : pgsize / pgsize = 1 := by decide
  simp only [mappages, hva, hsize, hpos, hone, ne_eq, not_true_eq_false, if_false, mapLoop]

theorem mapFilled_any {v v' : Vm} {va : Nat} {d : Page} {perm : Perm} {f : Frame}
    (hfree : v.mem.free.Nodup) (hva : va % pgsize = 0)
    (h : mapFilled v va d perm = .ok (some f, v')) (d' : Page) (perm' : Perm) :
    ∃ w, mapFilled v va d' perm' = .ok (some f, w) ∧ w.pageAt va = some (d', perm') := by
  simp only [mapFilled] at h ⊢
  cases hk : v.mem.kalloc with
  | none => simp [hk] at h
  | some r =>
    obtain ⟨g, m⟩ := r
    have hg : g ∉ m.free := by
      rw [kalloc_free hk] at hfree
      exact (nodup_cons.mp hfree).1
    -- Walking to the entry is the same walk, whatever the fresh page holds.
    have hwalk : ∀ d, walkAlloc ⟨m.setPage g d, v.pt⟩ va =
        (walkAlloc ⟨m, v.pt⟩ va).map fun r => (r.1, r.2.setPage g d) :=
      fun d => walkAlloc_setPage (v := ⟨m, v.pt⟩) hg d va
    have hspec := walkAlloc_leaf ⟨m, v.pt⟩ va
    simp only [hk, mappages_one _ hva, hwalk] at h ⊢
    cases hw : walkAlloc ⟨m, v.pt⟩ va with
    | error e => simp [hw, Except.map, bind, Except.bind] at h
    | ok r =>
      obtain ⟨ok, w⟩ := r
      obtain ⟨hleaf, _, hlow⟩ := hspec.of_eq_ok hw
      simp only [hw, Except.map, bind, Except.bind, Vm.setPage] at h ⊢
      cases ok with
      | false =>
        simp only [Bool.not_false, if_true, Bool.false_eq_true, if_false] at h
        split at h <;> simp at h
      | true =>
        simp only [Bool.not_true, Bool.false_eq_true, if_false] at h ⊢
        by_cases hold : vpn va ∈ w.pt.leaf
        · simp only [if_pos hold] at h
          cases h
        · simp only [if_neg hold, if_true, ok.injEq, Prod.mk.injEq,
            some.injEq] at h ⊢
          refine ⟨_, ⟨h.1, rfl⟩, ?_⟩
          simp only [Vm.pageAt, PageTable.setLeaf_leaf _ _ _ (vpn_div va ▸ hlow rfl),
            AList.lookup_insert, map_some, Mem.setPage, Function.update_self]

theorem mapFilled_pageAt {v v' : Vm} {va : Nat} {d : Page} {perm : Perm} {f : Frame}
    (hfree : v.mem.free.Nodup) (h : mapFilled v (pgrounddown va) d perm = .ok (some f, v')) :
    v'.pageAt va = some (d, perm) := by
  obtain ⟨w, hw, hat⟩ := mapFilled_any hfree (pgrounddown_mod va) h d perm
  obtain rfl : v' = w := by simpa [h] using hw
  rwa [pageAt_pgrounddown] at hat

theorem kalloc_of_mapFilled {v v' : Vm} {va : Nat} {d : Page} {perm : Perm} {f : Frame}
    (h : mapFilled v va d perm = .ok (some f, v')) : v.mem.kalloc.isSome := by
  cases hk : v.mem.kalloc with
  | none => simp [mapFilled, hk] at h
  | some r => rfl

theorem ilock_ok {fs : Fs} {ip : Option Nat} {i : Nat} :
    fs.ilock ip = .ok i ↔ ip = some i ∧ 1 ≤ (fs.inode i).ref ∧ (fs.inode i).type ≠ 0 := by
  cases ip with
  | none => simp [Fs.ilock]
  | some n =>
    simp only [Fs.ilock, some.injEq]
    split
    · constructor
      · intro h
        cases h
      · rintro ⟨rfl, href, _⟩
        omega
    · split
      · constructor
        · intro h
          cases h
        · rintro ⟨rfl, _, htype⟩
          contradiction
      · constructor
        · intro h
          obtain rfl := ok.inj h
          exact ⟨rfl, by omega, ‹_›⟩
        · rintro ⟨rfl, _⟩
          rfl

/-- The page a fault in the region would load at `pg` is a page of the heap: the
region is readable and writable and no more, and the file has only zeros there. -/
def Vma.LikeHeap (v : Vma) (fs : Fs) (pg : Nat) : Prop :=
  v.protRead = true ∧ v.protWrite = true ∧ v.protExec = false ∧
    ∃ i, (fs.ftable v.file).ip = some i ∧ 1 ≤ (fs.inode i).ref ∧ (fs.inode i).type ≠ 0 ∧
      ∀ j < pgsize, v.fileOff pg + j < (fs.inode i).size → v.fileOff pg + pgsize < 2 ^ 32 →
        (fs.inode i).data (v.fileOff pg + j) = 0

theorem readi_getD (fs : Fs) (i off n j : Nat) : (fs.readi i off n).getD j 0 =
    if off + j < (fs.inode i).size ∧ off + n < 2 ^ 32 ∧ j < n then (fs.inode i).data (off + j)
    else 0 := by
  simp only [Fs.readi]
  split
  · rw [if_neg (by omega)]
    rfl
  · rw [getD_eq_getElem?_getD, List.getElem?_map]
    by_cases hj : j < min n ((fs.inode i).size - off)
    · rw [List.getElem?_range hj, if_pos (by omega)]
      rfl
    · rw [if_neg (by omega), List.getElem?_eq_none (by rw [length_range]; omega)]
      rfl

theorem fill_apply (v : Vma) (fs : Fs) (i pg : Nat) (j : Fin pgsize) : v.fill fs i pg j =
    if v.fileOff pg + j < (fs.inode i).size ∧ v.fileOff pg + pgsize < 2 ^ 32 ∧ j.val < pgsize
    then (fs.inode i).data (v.fileOff pg + j) else 0 := by
  rw [← readi_getD]
  simp only [Vma.fill, Page.overlay, memset, Nat.zero_le, true_and, Nat.zero_add, Nat.sub_zero]
  split
  · rfl
  · rw [getD_eq_getElem?_getD, List.getElem?_eq_none (by omega)]
    rfl

theorem fill_eq_zero {v : Vma} {fs : Fs} {i pg : Nat} : v.fill fs i pg = memset 0 ↔
    ∀ j < pgsize, v.fileOff pg + j < (fs.inode i).size → v.fileOff pg + pgsize < 2 ^ 32 →
      (fs.inode i).data (v.fileOff pg + j) = 0 := by
  constructor
  · intro h j hj hsize hoff
    have hbyte := fill_apply v fs i pg ⟨j, hj⟩
    rw [h, if_pos ⟨hsize, hoff, hj⟩] at hbyte
    exact hbyte.symm
  · intro h
    funext j
    rw [fill_apply]
    split
    · exact h j j.isLt (by omega) (by omega)
    · rfl

theorem perm_eq_heap {v : Vma} :
    v.perm = .heap ↔ v.protRead = true ∧ v.protWrite = true ∧ v.protExec = false := by
  simp [Vma.perm, Perm.heap]

theorem firstIdx_none {n : Nat} {test : Fin n → Bool} :
    firstIdx test = none ↔ ∀ i, test i = false := by
  simp [firstIdx, List.find?_eq_none]

section Faults

/-! A page of the process is missing and could be filled. -/

variable {c : Ctx} {va : Nat} {f : Frame} {v : Vm}

theorem ismapped_missing {pt : PageTable} (hpage : vpn va ∉ pt.leaf)
    (hmax : pgrounddown va < maxva) : ismapped pt (pgrounddown va) = .ok false := by
  rw [ismapped, PageTable.walk, if_neg (by omega), vpn_pgrounddown,
    AList.lookup_eq_none.mpr hpage]
  rfl

theorem usertrap_vregion (hfree : c.mem.free.Nodup) (hpage : vpn va ∉ c.proc.pt.leaf)
    (hmax : pgrounddown va < maxva)
    (hmap : mapFilled c.vm (pgrounddown va) (memset 0) .heap = .ok (some f, v)) {j : Fin nvreg}
    (hj : firstIdx (fun j => (c.proc.vregions j).covers va) = some j) :
    ∃ c', usertrap c va = .ok c' ∧ c'.vm.pageAt va = some (memset 0x41, .heap) := by
  obtain ⟨w, hw, hat⟩ := mapFilled_any hfree (pgrounddown_mod va) hmap (memset 0x41) .heap
  rw [pageAt_pgrounddown] at hat
  refine ⟨c.setVm w, ?_, hat⟩
  simp [usertrap, vregionFault, hj, ismapped_missing hpage hmax, hw, orElse, bind, Except.bind]

theorem vregionFault_none (hj : firstIdx (fun j => (c.proc.vregions j).covers va) = none) :
    vregionFault c va = .ok (false, c) := by
  simp [vregionFault, hj]

theorem usertrap_vma (hfree : c.mem.free.Nodup)
    (hmap : mapFilled c.vm (pgrounddown va) (memset 0) .heap = .ok (some f, v))
    (hj : firstIdx (fun j => (c.proc.vregions j).covers va) = none)
    (halive : c.proc.killed = false) {i : Fin maxvma}
    (hi : firstIdx (fun i => (c.proc.vmas i).covers va) = some i) {ip : Nat}
    (hip : c.fs.ilock (c.fs.ftable (c.proc.vmas i).file).ip = .ok ip) :
    ∃ c', usertrap c va = .ok c' ∧ c'.vm.pageAt va =
      some ((c.proc.vmas i).fill c.fs ip (pgrounddown va), (c.proc.vmas i).perm) := by
  obtain ⟨w, hw, hat⟩ := mapFilled_any hfree (pgrounddown_mod va) hmap
    ((c.proc.vmas i).fill c.fs ip (pgrounddown va)) (c.proc.vmas i).perm
  rw [pageAt_pgrounddown] at hat
  refine ⟨c.setVm w, ?_, hat⟩
  obtain ⟨r, hr⟩ : ∃ r, c.mem.kalloc = some r :=
    isSome_iff_exists.mp (kalloc_of_mapFilled hmap)
  simp [usertrap, vregionFault_none hj, mmapFault, hi, hr, hip, hw, orElse, halive, bind,
    Except.bind]

theorem usertrap_vma_panic (hmem : c.mem.kalloc.isSome)
    (hj : firstIdx (fun j => (c.proc.vregions j).covers va) = none)
    (halive : c.proc.killed = false) {i : Fin maxvma}
    (hi : firstIdx (fun i => (c.proc.vmas i).covers va) = some i) {e : String}
    (hip : c.fs.ilock (c.fs.ftable (c.proc.vmas i).file).ip = .error e) :
    usertrap c va = .error e := by
  obtain ⟨r, hr⟩ := isSome_iff_exists.mp hmem
  simp [usertrap, vregionFault_none hj, mmapFault, hi, hr, hip, orElse, halive, bind, Except.bind]

theorem usertrap_heap (hpage : vpn va ∉ c.proc.pt.leaf) (hmax : pgrounddown va < maxva)
    (hmap : mapFilled c.vm (pgrounddown va) (memset 0) .heap = .ok (some f, v))
    (hj : firstIdx (fun j => (c.proc.vregions j).covers va) = none)
    (hi : firstIdx (fun i => (c.proc.vmas i).covers va) = none)
    (halive : c.proc.killed = false) :
    usertrap c va = .ok (if va < c.proc.sz then c.setVm v else c.setKilled) := by
  have hmissing := ismapped_missing hpage hmax
  have hmissing' : ismapped c.vm.pt (pgrounddown va) = .ok false := hmissing
  by_cases hsz : va < c.proc.sz
  · have hle : ¬c.proc.sz ≤ va := by omega
    simp [usertrap, vregionFault_none hj, mmapFault, hi, heapFault, vmfault, hmissing', hmap,
      orElse,
      halive, hsz, hle, bind, Except.bind]
  · have hle : c.proc.sz ≤ va := by omega
    have hvm : c.setVm c.vm = c := rfl
    simp [usertrap, vregionFault_none hj, mmapFault, hi, heapFault, vmfault, badFault, hmissing,
      orElse, halive, hsz, hle, hvm, bind, Except.bind]

theorem usertrap_killed (hj : firstIdx (fun j => (c.proc.vregions j).covers va) = none)
    (hkilled : c.proc.killed = true) : usertrap c va = .ok c := by
  simp [usertrap, vregionFault_none hj, orElse, hkilled, bind, Except.bind]

theorem userFrame_missing (hpage : vpn va ∉ c.proc.pt.leaf)
    (h : userFrame c.vm c.proc.sz (pgrounddown va) = .ok (some f, v)) :
    pgrounddown va < maxva ∧
      mapFilled c.vm (pgrounddown va) (memset 0) .heap = .ok (some f, v) := by
  have haddr : c.vm.pt.walkaddr (pgrounddown va) = none := by
    simp only [PageTable.walkaddr]
    split
    · rfl
    · rw [vpn_pgrounddown, show c.vm.pt.leaf.lookup (vpn va) = none from
        AList.lookup_eq_none.mpr hpage]
  have hidem : pgrounddown (pgrounddown va) = pgrounddown va := by
    simp only [pgrounddown, pgsize]
    omega
  simp only [userFrame, haddr, vmfault, hidem] at h
  split at h
  · simp at h
  · by_cases hmax : pgrounddown va < maxva
    · refine ⟨hmax, ?_⟩
      have hmissing : ismapped c.vm.pt (pgrounddown va) = .ok false := ismapped_missing hpage hmax
      simpa [hmissing, bind, Except.bind] using h
    · simp [ismapped, PageTable.walk, Nat.le_of_not_lt hmax, Except.map, bind, Except.bind] at h

end Faults

/-- The page a user access to a missing page gets: 0x41 bytes in a `mapzero` region,
file contents with the protection of the mapping, zeros in the heap. -/
def trapPage (c : Ctx) (va : Nat) : Except String (Option (Page × Perm)) :=
  match firstIdx fun j => (c.proc.vregions j).covers va with
  | some _ => .ok (some (memset 0x41, .heap))
  | none =>
    if c.proc.killed then .ok none
    else
      match firstIdx fun i => (c.proc.vmas i).covers va with
      | some i => (c.fs.ilock (c.fs.ftable (c.proc.vmas i).file).ip).map fun ip =>
        some ((c.proc.vmas i).fill c.fs ip (pgrounddown va), (c.proc.vmas i).perm)
      | none => .ok (if va < c.proc.sz then some (memset 0, .heap) else none)

theorem usertrap_page {c : Ctx} {va : Nat} {f : Frame} {v : Vm} (hfree : c.mem.free.Nodup)
    (hpage : vpn va ∉ c.proc.pt.leaf) (hmax : pgrounddown va < maxva)
    (hmap : mapFilled c.vm (pgrounddown va) (memset 0) .heap = .ok (some f, v)) :
    (usertrap c va).map (fun c' => c'.vm.pageAt va) = trapPage c va := by
  have hmissing : c.vm.pageAt va = none := by
    rw [Vm.pageAt, show c.vm.pt.leaf.lookup (vpn va) = none from AList.lookup_eq_none.mpr hpage]
    rfl
  simp only [trapPage]
  cases hj : firstIdx fun j => (c.proc.vregions j).covers va with
  | some j =>
    obtain ⟨c', hc', hat⟩ := usertrap_vregion hfree hpage hmax hmap hj
    simp only [hc', Except.map, hat]
  | none =>
    cases halive : c.proc.killed with
    | true => simp only [usertrap_killed hj halive, Except.map, hmissing, if_true]
    | false =>
      simp only [Bool.false_eq_true, if_false]
      cases hi : firstIdx fun i => (c.proc.vmas i).covers va with
      | some i =>
        cases hip : c.fs.ilock (c.fs.ftable (c.proc.vmas i).file).ip with
        | error e =>
          simp only [usertrap_vma_panic (kalloc_of_mapFilled hmap) hj halive hi hip, hip,
            Except.map]
        | ok ip =>
          obtain ⟨c', hc', hat⟩ := usertrap_vma hfree hmap hj halive hi hip
          simp only [hc', hip, Except.map, hat]
      | none =>
        have hat : v.pageAt va = some (memset 0, .heap) := mapFilled_pageAt hfree hmap
        rw [usertrap_heap hpage hmax hmap hj hi halive]
        simp only [Except.map]
        split
        · rw [setVm_vm, hat]
        · exact congrArg ok hmissing

/-- The regions of the process play no part in a fault at the address: no `mapzero`
region covers it, and the first mapping that does, if any, is like the heap. -/
structure PlainAt (c : Ctx) (va : Nat) : Prop where
  vregions : ∀ j, (c.proc.vregions j).covers va = false
  alive : c.proc.killed = false
  vmas : match firstIdx fun i => (c.proc.vmas i).covers va with
    | none => va < c.proc.sz
    | some i => (c.proc.vmas i).LikeHeap c.fs (pgrounddown va)

theorem likeHeap_iff {v : Vma} {fs : Fs} {pg : Nat} :
    (fs.ilock (fs.ftable v.file).ip).map (fun i => some (v.fill fs i pg, v.perm)) =
      .ok (some (memset 0, .heap)) ↔ v.LikeHeap fs pg := by
  constructor
  · intro h
    cases hip : fs.ilock (fs.ftable v.file).ip with
    | error e => simp [hip, Except.map] at h
    | ok i =>
      obtain ⟨hfill, hperm⟩ : v.fill fs i pg = memset 0 ∧ v.perm = .heap := by
        simpa [hip, Except.map] using h
      obtain ⟨hr, hw, hx⟩ := perm_eq_heap.mp hperm
      obtain ⟨hsome, href, htype⟩ := ilock_ok.mp hip
      exact ⟨hr, hw, hx, i, hsome, href, htype, fill_eq_zero.mp hfill⟩
  · rintro ⟨hr, hw, hx, i, hsome, href, htype, hbytes⟩
    rw [ilock_ok.mpr ⟨hsome, href, htype⟩, Except.map, fill_eq_zero.mpr hbytes,
      perm_eq_heap.mpr ⟨hr, hw, hx⟩]

theorem trapPage_heap {c : Ctx} {va : Nat} :
    trapPage c va = .ok (some (memset 0, .heap)) ↔ PlainAt c va := by
  have hfill : memset 0x41 ≠ memset 0 := fun h =>
    absurd (congrFun h ⟨0, by decide⟩) (by decide)
  simp only [trapPage]
  cases hj : firstIdx fun j => (c.proc.vregions j).covers va with
  | some j =>
    constructor
    · intro h
      exact absurd (by simpa using h) hfill
    · intro h
      exact absurd (firstIdx_some hj) (by simp [h.vregions j])
  | none =>
    have hvr := firstIdx_none.mp hj
    cases halive : c.proc.killed with
    | true =>
      constructor
      · intro h
        simp at h
      · intro h
        simp [h.alive] at halive
    | false =>
      simp only [Bool.false_eq_true, if_false]
      cases hi : firstIdx fun i => (c.proc.vmas i).covers va with
      | some i =>
        simp only [likeHeap_iff]
        constructor
        · intro h
          exact ⟨hvr, halive, by simpa only [hi] using h⟩
        · intro h
          simpa only [hi] using h.vmas
      | none =>
        constructor
        · intro h
          exact ⟨hvr, halive, by simpa only [hi] using by_contra fun hsz => by simp [hsz] at h⟩
        · intro h
          have hsz : va < c.proc.sz := by simpa only [hi] using h.vmas
          rw [if_pos hsz]

/-- The page `copyin`, `copyout` and `copyinstr` install at an address is the one
`usertrap` would install exactly where the regions play no part. -/
theorem kernel_view_iff {c : Ctx} {va : Nat} {f : Frame} {v : Vm} (hfree : c.mem.free.Nodup)
    (hpage : vpn va ∉ c.proc.pt.leaf)
    (hkernel : userFrame c.vm c.proc.sz (pgrounddown va) = .ok (some f, v)) :
    (∃ c', usertrap c va = .ok c' ∧ c'.vm.pageAt va = v.pageAt va) ↔ PlainAt c va := by
  obtain ⟨hmax, hmap⟩ := userFrame_missing hpage hkernel
  rw [mapFilled_pageAt hfree hmap, ← trapPage_heap, ← usertrap_page hfree hpage hmax hmap]
  constructor
  · rintro ⟨c', hc', hat⟩
    rw [hc', Except.map, hat]
  · intro h
    cases hc' : usertrap c va with
    | error e => simp [hc', Except.map] at h
    | ok c' => exact ⟨c', rfl, by simpa [hc', Except.map] using h⟩

/-- The lazy heap page of the sample process. -/
theorem kernel_view_heap : ∃ f v,
    userFrame (sampleKernel.ctx (sampleProc 0x80120 none)).vm 4096 0 = .ok (some f, v) ∧
    ∃ c', usertrap (sampleKernel.ctx (sampleProc 0x80120 none)) 0 = .ok c' ∧
      c'.vm.pageAt 0 = v.pageAt 0 := by
  obtain ⟨v, hkernel⟩ : ∃ v, userFrame (sampleKernel.ctx (sampleProc 0x80120 none)).vm 4096 0 =
      .ok (some 0x80200, v) := by decide +kernel
  have hplain : PlainAt (sampleKernel.ctx (sampleProc 0x80120 none)) 0 :=
    ⟨fun _ => rfl, rfl, show 0 < 4096 by decide⟩
  exact ⟨_, v, hkernel, (kernel_view_iff (by decide) (by decide) hkernel).mpr hplain⟩

/-- A mapped page of a file that is not yet touched. Its byte 1 is 1 in the file and for
the user, and 0 in what `write` takes from the mapping. -/
theorem copyin_untouched_mapping : ∃ k p f v c',
    KStep sampleKernel (.call 1 (.mmap 4096 3 1 3 0)) k ∧ k.slot 1 = .live p ∧
    vpn 4096 ∉ p.pt.leaf ∧ userFrame (k.ctx p).vm p.sz 4096 = .ok (some f, v) ∧
    usertrap (k.ctx p) 4096 = .ok c' ∧ c'.vm.pageAt 4096 ≠ v.pageAt 4096 ∧
    ((copyin (k.ctx p).vm p.sz 4096 2).toOption.map fun r => r.2.1) = some [0, 0] ∧
    ((k.fs.ftable (p.vmas 0).file).ip.map fun i => k.fs.readi i 0 2) = some [0, 1] := by
  have hfacts : ∃ k ∈ sampleKernel.step (.call 1 (.mmap 4096 3 1 3 0)), ∃ p ∈ k.proc? 1,
      vpn 4096 ∉ p.pt.leaf ∧ ∃ v, userFrame (k.ctx p).vm p.sz 4096 = .ok (some 0x80200, v) ∧
      ∃ c', usertrap (k.ctx p) 4096 = .ok c' ∧
        ((c'.vm.pageAt 4096).map fun x => x.1 (pageOffset 4097)) ≠
          ((v.pageAt 4096).map fun x => x.1 (pageOffset 4097)) ∧
        ((copyin (k.ctx p).vm p.sz 4096 2).toOption.map fun r => r.2.1) = some [0, 0] ∧
        ((k.fs.ftable (p.vmas 0).file).ip.map fun i => k.fs.readi i 0 2) = some [0, 1] := by
    decide +kernel
  obtain ⟨k, hk, p, hp, hpage, v, hv, c', hc', hne, hbytes⟩ := hfacts
  exact ⟨k, p, _, v, c', hk, slot_of_proc? hp, hpage, hv, hc', fun heq => hne (by rw [heq]),
    hbytes⟩

end EafitOs.Memory
