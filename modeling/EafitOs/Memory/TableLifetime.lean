import EafitOs.Memory.Accesses
import EafitOs.Memory.Accounts

/-!
# The life of a page table

A table that `proc_pagetable` makes is grown, shrunk and filled by `uvmalloc`,
`uvmdealloc`, `uvmcopy` and `uvmunmap`. When all that is left lies below the size,
`proc_freepagetable` gives every page back that the table has taken.
-/

namespace EafitOs.Memory

open Foundation List Option AList

section Free

variable {m m' m'' : Mem} {f : Frame}

structure Frees (s : Multiset Frame) (m m' : Mem) : Prop where
  free : (m'.free : Multiset Frame) = m.free + s
  kend : m'.kend = m.kend
  text : m'.text = m.text

/-- The pages in `s` were put on the free list, and the others are as they were. -/
structure Returns (s : Multiset Frame) (m m' : Mem) : Prop extends Frees s m m' where
  page : ∀ g, g ∉ s → m'.page g = m.page g

theorem Returns.none (m : Mem) : Returns 0 m m :=
  ⟨⟨(add_zero _).symm, rfl, rfl⟩, fun _ _ => rfl⟩

theorem Returns.trans {s t : Multiset Frame} (h : Returns s m m') (h' : Returns t m' m'') :
    Returns (s + t) m m'' := by
  refine ⟨⟨by rw [h'.free, h.free, add_assoc], h'.kend.trans h.kend, h'.text.trans h.text⟩,
    fun g hg => ?_⟩
  rw [Multiset.mem_add, not_or] at hg
  exact (h'.page g hg.2).trans (h.page g hg.1)

theorem kfree_returns (m : Mem) (f : Frame) :
    Ends (m.kfree f) (Returns {f} m) fun _ => ¬m.Valid f := by
  rw [Mem.kfree]
  split
  · rename_i hinvalid
    exact .error fun h => hinvalid.elim (Nat.not_lt.mpr h.1) (Nat.not_le.mpr h.2)
  · refine .ok ⟨⟨?_, rfl, rfl⟩, fun g hg => ?_⟩
    · rw [← Multiset.cons_coe, ← Multiset.singleton_add, add_comm]
    · exact Function.update_of_ne (fun heq => hg (Multiset.mem_singleton.mpr heq)) _ _

theorem foldlM_returns (loop : Mem → Nat → Except String Mem) {g : Nat → Multiset Frame}
    {E : String → Prop} (m₀ : Mem) (n : Nat) (hstep : ∀ k < n, ∀ m : Mem, m.kend = m₀.kend →
      Ends (loop m k) (Returns (g k) m) E) :
    Ends ((List.range n).foldlM loop m₀) (Returns (∑ k ∈ Finset.range n, g k) m₀) E := by
  induction n with
  | zero => exact .ok (.none m₀)
  | succ n ih =>
    rw [range_succ, foldlM_append]
    refine (ih fun k hk => hstep k (by omega)).bind fun m hm => ?_
    rw [foldlM_cons]
    refine (hstep n (Nat.lt_succ_self n) m hm.kend).bind fun m' hm' => ?_
    rw [Finset.sum_range_succ]
    exact .ok (hm.trans hm')

variable {pt : PageTable}

structure PageTable.Freeable (pt : PageTable) (m : Mem) : Prop where
  leaf : ∀ i, i ∉ pt.leaf
  tables : ∀ f ∈ pt.tables, m.Valid f

namespace PageTable.Freeable

theorem of_kend (h : pt.Freeable m) (heq : m'.kend = m.kend) : pt.Freeable m' :=
  ⟨h.leaf, fun f hf => (h.tables f hf).of_kend heq⟩

theorem mid (h : pt.Freeable m) {i : Nat} (hf : pt.mid.lookup i = some f) : m.Valid f :=
  h.tables f (Multiset.mem_cons_of_mem (Multiset.mem_add.mpr (Or.inl (mem_values_of_lookup hf))))

theorem low (h : pt.Freeable m) {i : Nat} (hf : pt.low.lookup i = some f) : m.Valid f :=
  h.tables f (Multiset.mem_cons_of_mem (Multiset.mem_add.mpr (Or.inr (mem_values_of_lookup hf))))

end PageTable.Freeable

theorem freeLow_returns (pt : PageTable) (m : Mem) (i : Nat) :
    Ends (freeLow pt m i) (Returns (pt.low.lookup i).toList m) fun _ => ¬pt.Freeable m := by
  rw [freeLow]
  generalize List.range 512 = entries
  cases hf : pt.low.lookup i with
  | none => exact .ok (.none m)
  | some f =>
    -- the scan for leaves changes nothing
    refine (Ends.foldlM (fun m' => m' = m) rfl fun k _ m' hm' => ?_).bind fun m' hm' => ?_
    · cases he : pt.leaf.lookup (i * 512 + k) with
      | none => exact .ok hm'
      | some e =>
        have hthere : i * 512 + k ∈ pt.leaf := lookup_isSome.mp (by rw [he]; rfl)
        simp only
        split <;> exact .error fun h => h.leaf _ hthere
    · rw [hm']
      exact (kfree_returns m f).mono (fun _ => id) fun _ hinvalid h => hinvalid (h.low hf)

theorem freeMid_returns (pt : PageTable) (m : Mem) (i : Nat) :
    Ends (freeMid pt m i) (Returns ((pt.mid.lookup i).toList +
      holdings 512 fun k => pt.low.lookup (i * 512 + k)) m) fun _ => ¬pt.Freeable m := by
  rw [freeMid]
  cases hf : pt.mid.lookup i with
  | none =>
    -- without a table there are no tables under it
    have hnone : ∀ k < 512, pt.low.lookup (i * 512 + k) = none := by
      intro k hk
      refine lookup_eq_none.mpr fun hmem => ?_
      have hmid := pt.low_mid _ hmem
      have hdiv : (i * 512 + k) / 512 = i := by omega
      rw [hdiv, ← lookup_isSome, hf] at hmid
      cases hmid
    have hempty : (holdings 512 fun k => pt.low.lookup (i * 512 + k)) = 0 := by
      rw [holdings]
      exact Finset.sum_eq_zero fun k hk => by rw [hnone k (Finset.mem_range.mp hk)]; rfl
    rw [hempty]
    exact .ok (.none m)
  | some f =>
    have hloop := foldlM_returns (fun m k => freeLow pt m (i * 512 + k))
      (E := fun _ => ¬pt.Freeable m) m 512 fun k _ m' hm' =>
        (freeLow_returns pt m' (i * 512 + k)).mono (fun _ => id) fun _ hnot h =>
          hnot (h.of_kend hm')
    refine hloop.bind fun m' hm' => ?_
    refine (kfree_returns m' f).mono (fun m'' hm'' => ?_) fun _ hinvalid h =>
      hinvalid ((h.mid hf).of_kend hm'.kend)
    have hall := hm'.trans hm''
    rw [holdings]
    rw [add_comm] at hall
    exact hall

theorem freewalk_returns {v : Vm} (hkeys : ∀ i ∈ v.pt.mid, i < 512) :
    Ends (freewalk v) (Returns v.pt.tables v.mem) fun _ => ¬v.pt.Freeable v.mem := by
  unfold freewalk
  have hloop := foldlM_returns (freeMid v.pt) (E := fun _ => ¬v.pt.Freeable v.mem) v.mem 512
    fun k _ m' hm' => (freeMid_returns v.pt m' k).mono (fun _ => id) fun _ hnot h =>
      hnot (h.of_kend hm')
  refine hloop.bind fun m hm => ?_
  refine (kfree_returns m v.pt.root).mono (fun m' hm' => ?_) fun _ hinvalid h =>
    hinvalid ((h.tables _ (Multiset.mem_cons_self _ _)).of_kend hm.kend)
  have hlow : ∀ i ∈ v.pt.low, i < 512 * 512 := by
    intro i hi
    have := hkeys _ (v.pt.low_mid i hi)
    omega
  have htables : v.pt.tables = (∑ k ∈ Finset.range 512, ((v.pt.mid.lookup k).toList +
      holdings 512 fun j => v.pt.low.lookup (k * 512 + j))) + {v.pt.root} := by
    have hmul := holdings_mul 512 512 fun i => v.pt.low.lookup i
    rw [Finset.sum_add_distrib, hmul, PageTable.tables, values_eq_holdings _ hkeys,
      values_eq_holdings _ hlow, ← Multiset.singleton_add, add_comm]
    simp only [holdings]
  rw [htables]
  exact hm.trans hm'

end Free

section Works

variable {v v' v'' : Vm} {a : Nat}

structure Works (v v' : Vm) : Prop where
  moves : Moves v v'
  kernel : ∀ i e, v.pt.leaf.lookup i = some e → e.frame < v.mem.kend →
    v'.pt.leaf.lookup i = some e

theorem Works.refl (v : Vm) : Works v v := ⟨.refl v, fun _ _ he _ => he⟩

theorem Works.trans (h : Works v v') (h' : Works v' v'') : Works v v'' :=
  ⟨h.moves.trans h'.moves, fun i e he hlt =>
    h'.kernel i e (h.kernel i e he hlt) (h.moves.kend ▸ hlt)⟩

theorem Filled.works {va : Nat} {d : Page} {perm : Perm} {r : Option Frame × Vm}
    (h : Filled v va d perm r) : Works v r.2 := by
  refine ⟨h.moves, fun i e he hlt => ?_⟩
  cases hr : r.1 with
  | none => rw [(h.failed hr).1, he]
  | some f =>
    obtain ⟨-, hnot, -, hleaf, -⟩ := h.mapped f hr
    have hne : i ≠ vpn va := by
      rintro rfl
      exact hnot (lookup_isSome.mp (by rw [he]; rfl))
    rw [hleaf, lookup_insert_ne hne, he]

theorem Drops.works {as : List Nat} (h : Drops v as v') : Works v v' := by
  refine ⟨h.moves, fun i e he hlt => ?_⟩
  have hnot : i ∉ as.map vpn := fun hi => absurd hlt (Nat.not_lt.mpr (h.freed i hi e he).1)
  rw [h.leaf, if_neg hnot, he]

theorem uvmdealloc_works (hv : v.Owned) (oldsz newsz : Nat) :
    Ends (uvmdealloc v oldsz newsz) (fun r => Works v r.2) fun _ => True :=
  (uvmdealloc_spec hv oldsz newsz).imp fun r hr => by
    obtain ⟨-, as, hdrops, -⟩ := hr
    exact hdrops.works

theorem allocLoop_works (perm : Perm) (oldsz : Nat) (as : List Nat) : ∀ {v : Vm}, v.Owned →
    (∀ a ∈ as, a % pgsize = 0) →
    Ends (allocLoop perm oldsz as v) (fun r => Works v r.2) fun _ => True := by
  induction as with
  | nil => exact fun _ _ => .ok (.refl _)
  | cons a rest ih =>
    intro v hv hal
    rw [allocLoop_cons]
    refine (mapFilled_spec hv (hal a mem_cons_self) _ _).bind fun r hr => ?_
    have hv' := hr.moves.owned hv
    split
    · exact (ih hv' fun b hb => hal b (mem_cons_of_mem a hb)).imp fun r' hr' =>
        hr.works.trans hr'
    · exact (uvmdealloc_works hv' a oldsz).bind fun s hs => .ok (hr.works.trans hs)

theorem pages_aligned {va stop : Nat} (hva : va % pgsize = 0) : ∀ a ∈ pages va stop,
    a % pgsize = 0 := by
  intro a ha
  obtain ⟨i, -, rfl⟩ := mem_map.mp ha
  simp only [pgsize] at hva ⊢
  omega

theorem uvmalloc_works (hv : v.Owned) (oldsz newsz : Nat) (w x : Bool) :
    Ends (uvmalloc v oldsz newsz w x) (fun r => Works v r.2) fun _ => True := by
  rw [uvmalloc]
  split
  · exact .ok (.refl v)
  · exact (allocLoop_works _ _ _ hv (pages_aligned (pgroundup_mod oldsz))).bind fun r hr => .ok hr

theorem copyPte_works {e : Pte} (hv : v.Owned) (ha : a % pgsize = 0) :
    Ends (copyPte v a e) (fun r => Works v r.2) fun _ => True := by
  obtain ⟨d, -, heq⟩ := copyPte_fills v a e
  rw [heq]
  exact (mapFilled_spec hv ha d e.perm).bind fun r hr => .ok hr.works

theorem copyLoop_works (old : PageTable) (as : List Nat) : ∀ {v : Vm}, v.Owned →
    (∀ a ∈ as, a % pgsize = 0) →
    Ends (copyLoop old as v) (fun r => Works v r.2) fun _ => True := by
  induction as with
  | nil => exact fun _ _ => .ok (.refl _)
  | cons a rest ih =>
    intro v hv hal
    have hpage : Ends (copyPage old v a) (fun r => Works v r.2) fun _ => True := by
      rw [copyPage]
      split
      · exact .error trivial
      · cases old.leaf.lookup (vpn a) with
        | none => exact .ok (.refl v)
        | some e => exact copyPte_works hv (hal a mem_cons_self)
    rw [copyLoop]
    refine hpage.bind fun r hr => ?_
    obtain ⟨ok, v₁⟩ := r
    have hworks : Works v v₁ := hr
    have hv₁ := hworks.moves.owned hv
    cases ok with
    | true =>
      exact (ih hv₁ fun b hb => hal b (mem_cons_of_mem a hb)).imp fun r' hr' =>
        hworks.trans hr'
    | false =>
      exact (uvmunmap_spec hv₁ 0 (a / pgsize)).bind fun v₂ h₂ =>
        .ok (hworks.trans h₂.2.works)

inductive Change
  | alloc (oldsz newsz : Nat) (w x : Bool)
  | dealloc (oldsz newsz : Nat)
  | copy (old : PageTable) (sz : Nat)
  | unmap (va npages : Nat)

def Change.run (v : Vm) : Change → Except String Vm
  | .alloc oldsz newsz w x => (uvmalloc v oldsz newsz w x).map Prod.snd
  | .dealloc oldsz newsz => (uvmdealloc v oldsz newsz).map Prod.snd
  | .copy old sz => (uvmcopy old v sz).map Prod.snd
  | .unmap va npages => uvmunmap v va npages true

theorem Change.run_works (hv : v.Owned) (c : Change) :
    Ends (c.run v) (Works v) fun _ => True := by
  cases c with
  | alloc oldsz newsz w x => exact (uvmalloc_works hv oldsz newsz w x).map fun _ => id
  | dealloc oldsz newsz => exact (uvmdealloc_works hv oldsz newsz).map fun _ => id
  | copy old sz => exact (copyLoop_works old _ hv (pages_aligned rfl)).map fun _ => id
  | unmap va npages => exact (uvmunmap_spec hv va npages).imp fun v' hv' => hv'.2.works

theorem changes_work (cs : List Change) : ∀ {v : Vm}, v.Owned →
    Ends (cs.foldlM Change.run v) (Works v) fun _ => True := by
  induction cs with
  | nil => exact fun _ => .ok (.refl _)
  | cons c rest ih =>
    intro v hv
    rw [foldlM_cons]
    refine (c.run_works hv).bind fun v₁ h₁ => ?_
    exact (ih (h₁.moves.owned hv)).imp fun v₂ h₂ => h₁.trans h₂

end Works

section Lifetime

variable {v v' : Vm} {m : Mem} {tf : Frame} {sz : Nat}

theorem eraseLeaf_missing {pt : PageTable} {i : Nat} (h : i ∉ pt.leaf) : pt.eraseLeaf i = pt := by
  have hleaf : pt.leaf.erase i = pt.leaf := ext (kerase_of_notMem_keys h)
  cases pt
  simp only [PageTable.eraseLeaf, PageTable.mk.injEq, true_and] at hleaf ⊢
  exact hleaf

theorem pages_one {va : Nat} (hmax : va < maxva) :
    pages va ((va + 1 * pgsize) % 2 ^ 64) = [va] := by
  have hlen : ((va + 1 * pgsize) % 2 ^ 64 - va + (pgsize - 1)) / pgsize = 1 := by
    simp only [maxva, pgsize] at hmax ⊢
    omega
  rw [pages_eq, hlen, range_map_succ]
  rfl

theorem uvmunmap_keeps (v : Vm) {va : Nat} (hva : va % pgsize = 0) (hmax : va < maxva) :
    uvmunmap v va 1 false = .ok ⟨v.mem, v.pt.eraseLeaf (vpn va)⟩ := by
  rw [uvmunmap, if_neg (by omega), pages_one hmax, foldlM_cons, unmapPage, PageTable.walk,
    if_neg (by omega), ok_bind]
  cases he : v.pt.leaf.lookup (vpn va) with
  | none =>
    rw [eraseLeaf_missing (lookup_eq_none.mp he)]
    rfl
  | some e => rfl

def PageTable.userPart (pt : PageTable) : PageTable :=
  (pt.eraseLeaf (vpn trampoline)).eraseLeaf (vpn trapframe)

theorem mem_userPart {pt : PageTable} {i : Nat} :
    i ∈ pt.userPart.leaf ↔ i ≠ vpn trapframe ∧ i ≠ vpn trampoline ∧ i ∈ pt.leaf := by
  rw [← mem_erase, ← mem_erase]
  rfl

theorem procFreepagetable_eq (v : Vm) (sz : Nat) :
    procFreepagetable v sz = uvmfree ⟨v.mem, v.pt.userPart⟩ sz := by
  rw [procFreepagetable, uvmunmap_keeps v (by decide) (by decide), ok_bind,
    uvmunmap_keeps _ (by decide) (by decide), ok_bind]
  rfl

theorem frames_eraseLeaf {i : Nat} {e : Pte} (he : v.pt.leaf.lookup i = some e) :
    v.frames = e.frame ::ₘ (Vm.mk v.mem (v.pt.eraseLeaf i)).frames := by
  have htables : (v.pt.eraseLeaf i).tables = v.pt.tables := rfl
  simp only [Vm.frames, htables, mapped_erase he, Multiset.add_cons]

theorem frames_userPart {e e' : Pte} (he : v.pt.leaf.lookup (vpn trampoline) = some e)
    (he' : v.pt.leaf.lookup (vpn trapframe) = some e') :
    v.frames = e.frame ::ₘ e'.frame ::ₘ (Vm.mk v.mem v.pt.userPart).frames := by
  have hlookup : (v.pt.eraseLeaf (vpn trampoline)).leaf.lookup (vpn trapframe) = some e' := by
    rw [← he']
    exact lookup_erase_ne (by decide)
  rw [frames_eraseLeaf he, frames_eraseLeaf (v := ⟨v.mem, v.pt.eraseLeaf (vpn trampoline)⟩) hlookup]
  rfl

def Vm.Backed (v : Vm) : Prop := ∀ f ∈ v.frames, v.mem.Valid f

structure Regained (s : Multiset Frame) (m m' : Mem) : Prop where
  free : (m'.free : Multiset Frame) = s
  page : ∀ g, g ∉ s → m'.page g = m.page g
  kend : m'.kend = m.kend
  text : m'.text = m.text

theorem unmapUser_unmaps (v : Vm) (hsz : sz ≤ trapframe) :
    Ends (unmapUser v sz) (fun v' => ∃ as, Unmaps v as v' ∧ ∀ i, i ∈ as.map vpn ↔ i < npg sz)
      fun _ => ¬∀ i e, i < npg sz → v.pt.leaf.lookup i = some e → v.mem.Valid e.frame := by
  have hround := pgroundup_of_le hsz
  have hmul := npg_mul sz
  rw [unmapUser]
  split
  · have hstop : (0 + pgroundup sz / pgsize * pgsize) % 2 ^ 64 = pgroundup sz := by
      simp only [npg, trapframe, trampoline, maxva, pgsize] at hround hmul ⊢
      omega
    have hmem : ∀ i, i ∈ (pages 0 (pgroundup sz)).map vpn ↔ i < npg sz := by
      intro i
      rw [mem_pages rfl]
      simp only [vpn, pgsize] at hmul ⊢
      omega
    have hmax : ∀ a ∈ pages 0 (pgroundup sz), a < maxva := by
      intro a ha
      obtain ⟨i, hi, rfl⟩ := mem_map.mp ha
      rw [mem_range] at hi
      simp only [trapframe, trampoline, maxva, pgsize] at hround hi ⊢
      omega
    rw [uvmunmap, if_neg (by decide), hstop]
    refine (unmapPages_unmaps _ v).mono (fun v' hv' => ⟨_, hv', hmem⟩) fun _ hnot hvalid =>
      hnot fun a ha => ⟨hmax a ha, fun e he => hvalid _ e ?_ he⟩
    exact (hmem _).mp (mem_map_of_mem ha)
  · rename_i hzero
    obtain rfl : sz = 0 := by omega
    have hnpg : npg 0 = 0 := by decide
    refine .ok ⟨[], .refl v, fun i => ?_⟩
    rw [map_nil, hnpg]
    exact iff_of_false not_mem_nil (Nat.not_lt_zero i)

theorem uvmfree_regains (hv : v.Owned) (hback : v.Backed) (hsz : sz ≤ trapframe)
    (hbelow : ∀ i ∈ v.pt.leaf, i < npg sz) :
    Ends (uvmfree v sz) (Regained v.frames v.mem) fun _ => False := by
  have hunmap : Ends (unmapUser v sz) (fun v' => Moves v v' ∧ ∀ i, i ∉ v'.pt.leaf)
      fun _ => False := by
    refine (unmapUser_unmaps v hsz).mono (fun v' hv' => ?_) fun _ hnot =>
      hnot fun i e _ he => hback _ (mem_frames_of_lookup he)
    obtain ⟨as, hunmaps, hmem⟩ := hv'
    refine ⟨hunmaps.moves, fun i hi => ?_⟩
    have hsome := lookup_isSome.mpr hi
    rw [hunmaps.leaf] at hsome
    split at hsome
    · cases hsome
    · rename_i hnot
      exact hnot ((hmem i).mpr (hbelow i (lookup_isSome.mp hsome)))
  rw [uvmfree]
  refine hunmap.bind fun v' hv' => ?_
  obtain ⟨hmoves, hempty⟩ := hv'
  have hmapped : v'.pt.mapped = 0 := by
    refine Multiset.eq_zero_of_forall_notMem fun f hf => ?_
    obtain ⟨i, e, he, -⟩ := exists_of_mem_mapped hf
    exact hempty i (lookup_isSome.mp (by rw [he]; rfl))
  have htables : ∀ f ∈ v'.pt.tables, v'.mem.Valid f := by
    intro f hf
    refine (hback f ?_).of_kend hmoves.kend
    rw [← hmoves.frames]
    exact Multiset.mem_add.mpr (Or.inl (Multiset.mem_add.mpr (Or.inr hf)))
  refine (freewalk_returns (hmoves.keys hv.keys)).mono (fun m hm => ⟨?_, fun g hg => ?_,
    hm.kend.trans hmoves.kend, hm.text.trans hmoves.text⟩) fun _ hnot => hnot ⟨hempty, htables⟩
  · rw [hm.free, ← hmoves.frames, Vm.frames, hmapped, add_zero]
  · refine (hm.page g fun hmem => hg ?_).trans (hmoves.outside g hg)
    rw [← hmoves.frames]
    exact Multiset.mem_add.mpr (Or.inl (Multiset.mem_add.mpr (Or.inr hmem)))

theorem freeLow_empty (pt : PageTable) (m : Mem) (i : Nat) :
    Ends (freeLow pt m i) (fun _ => i ∈ pt.low → ∀ k < 512, i * 512 + k ∉ pt.leaf)
      fun _ => True := by
  rw [freeLow]
  cases hf : pt.low.lookup i with
  | none => exact .ok fun hi => absurd hi (lookup_eq_none.mp hf)
  | some f =>
    refine (Ends.foldlM_each (P := fun k => i * 512 + k ∉ pt.leaf) fun k _ m' => ?_).bind
      fun m' hscan => ?_
    · cases he : pt.leaf.lookup (i * 512 + k) with
      | none => exact .ok (lookup_eq_none.mp he)
      | some e =>
        simp only
        split <;> exact .error trivial
    · exact (Ends.trivial _).imp fun _ _ _ k hk => hscan k (mem_range.mpr hk)

theorem freeMid_empty (pt : PageTable) (m : Mem) (i : Nat) :
    Ends (freeMid pt m i) (fun _ => i ∈ pt.mid → ∀ k < 512, i * 512 + k ∈ pt.low →
      ∀ j < 512, (i * 512 + k) * 512 + j ∉ pt.leaf) fun _ => True := by
  rw [freeMid]
  cases hf : pt.mid.lookup i with
  | none => exact .ok fun hi => absurd hi (lookup_eq_none.mp hf)
  | some f =>
    refine (Ends.foldlM_each fun k _ m' => freeLow_empty pt m' (i * 512 + k)).bind
      fun m' hscan => ?_
    exact (Ends.trivial _).imp fun _ _ _ k hk => hscan k (mem_range.mpr hk)

theorem freewalk_empty {v : Vm} (hkeys : ∀ i ∈ v.pt.mid, i < 512) :
    Ends (freewalk v) (fun _ => ∀ i, i ∉ v.pt.leaf) fun _ => True := by
  unfold freewalk
  refine (Ends.foldlM_each fun k _ m' => freeMid_empty v.pt m' k).bind fun m' hscan => ?_
  refine (Ends.trivial _).imp fun _ _ i hi => ?_
  have hlow := v.pt.leaf_low i hi
  have hmid := v.pt.low_mid _ hlow
  have hpos : 0 < 512 := by decide
  refine hscan _ (mem_range.mpr (hkeys _ hmid)) hmid (i / 512 % 512) (Nat.mod_lt _ hpos) ?_
    (i % 512) (Nat.mod_lt _ hpos) ?_
  · rw [Nat.div_add_mod']
    exact hlow
  · rw [Nat.div_add_mod', Nat.div_add_mod']
    exact hi

theorem uvmfree_below (hkeys : ∀ i ∈ v.pt.mid, i < 512) (hsz : sz ≤ trapframe) :
    Ends (uvmfree v sz) (fun _ => ∀ i ∈ v.pt.leaf, i < npg sz) fun _ => True := by
  rw [uvmfree]
  refine (unmapUser_unmaps v hsz).any.bind fun v' hv' => ?_
  obtain ⟨as, hunmaps, hmem⟩ := hv'
  refine (freewalk_empty (hunmaps.moves.keys hkeys)).imp fun _ hempty i hi => ?_
  by_contra hnot
  refine hempty i (lookup_isSome.mp ?_)
  rw [hunmaps.leaf, if_neg fun h => hnot ((hmem i).mp h)]
  exact lookup_isSome.mpr hi

theorem uvmfree_le (hv : v.Owned) (sz : Nat) :
    Ends (uvmfree v sz) (fun m => (m.free : Multiset Frame) ≤ v.frames) fun _ => True := by
  have hunmap : Ends (unmapUser v sz) (Moves v) fun _ => True := by
    rw [unmapUser]
    split
    · exact (uvmunmap_spec hv _ _).imp fun v' hv' => hv'.2.moves
    · exact .ok (.refl v)
  rw [uvmfree]
  refine hunmap.bind fun v' hmoves => ?_
  refine (freewalk_returns (hmoves.keys hv.keys)).any.imp fun m hm => ?_
  rw [hm.free, ← hmoves.frames, Vm.frames]
  exact Multiset.le_add_right _ _

structure Lent (v : Vm) (va : Nat) (f : Frame) (perm : Perm) (v' : Vm) : Prop where
  frames : v'.frames = f ::ₘ v.frames
  leaf : v'.pt.leaf = v.pt.leaf.insert (vpn va) ⟨f, perm⟩
  keys : (∀ i ∈ v.pt.mid, i < 512) → ∀ i ∈ v'.pt.mid, i < 512
  kend : v'.mem.kend = v.mem.kend
  text : v'.mem.text = v.mem.text

structure Takes (m : Mem) (v : Vm) : Prop where
  keys : ∀ i ∈ v.pt.mid, i < 512
  kend : v.mem.kend = m.kend
  text : v.mem.text = m.text
  free : ∀ f ∈ v.mem.free, f ∈ m.free
  page : ∀ g, g ∉ m.free → v.mem.page g = m.page g

namespace Takes

theorem step (h : Takes m v) (hmoves : Moves v v') (hfree : ∀ f ∈ v'.mem.free, f ∈ v.mem.free)
    (hpage : ∀ g, g ∉ m.free → v'.mem.page g = v.mem.page g) : Takes m v' where
  keys := hmoves.keys h.keys
  kend := hmoves.kend.trans h.kend
  text := hmoves.text.trans h.text
  free f hf := h.free f (hfree f hf)
  page g hg := (hpage g hg).trans (h.page g hg)

theorem walks (h : Takes m v) (hwalk : Walks v v') : Takes m v' :=
  h.step hwalk.moves hwalk.free fun g hg => hwalk.page g fun hmem => hg (h.free g hmem)

theorem regained (h : Takes m v) (hframes : v.frames = m.free) {m' : Mem}
    (hm' : Regained v.frames v.mem m') : Regained m.free m m' where
  free := hm'.free.trans hframes
  page g hg := (hm'.page g (hframes ▸ hg)).trans (h.page g hg)
  kend := hm'.kend.trans h.kend
  text := hm'.text.trans h.text

end Takes

theorem mappages_lent {va : Nat} (hva : va % pgsize = 0) (hmax : va < maxva)
    (hnot : vpn va ∉ v.pt.leaf) (htakes : Takes m v) (f : Frame) (perm : Perm) :
    Ends (mappages v va pgsize f perm) (fun r =>
      (if r.1 then Lent v va f perm r.2 else Walks v r.2) ∧ Takes m r.2) fun _ => False := by
  obtain ⟨⟨ok, w⟩, hw, -⟩ := walkAlloc_taken (v := v) hmax
  obtain ⟨hleaf, -, hlow⟩ := (walkAlloc_leaf v va).of_eq_ok hw
  have hwalk : Walks v w := (walkAlloc_walks v va).of_eq_ok hw
  have htakes' := htakes.walks hwalk
  rw [mappages_one _ hva, hw, ok_bind]
  cases ok with
  | false => exact .ok ⟨hwalk, htakes'⟩
  | true =>
    have hnot' : vpn va ∉ w.pt.leaf := hleaf ▸ hnot
    have hlow' : vpn va / 512 ∈ w.pt.low := vpn_div va ▸ hlow rfl
    obtain ⟨hmapped, htables, hmid⟩ := mapped_insert (e := ⟨f, perm⟩) hlow' hnot'
    simp only [Bool.not_true, Bool.false_eq_true, if_false, if_neg hnot']
    refine .ok ⟨⟨?_, ?_, fun hkeys => ?_, hwalk.moves.kend, hwalk.moves.text⟩,
      ⟨?_, htakes'.kend, htakes'.text, htakes'.free, htakes'.page⟩⟩
    · rw [← hwalk.moves.frames]
      simp only [Vm.frames, hmapped, htables, Multiset.add_cons]
    · rw [PageTable.setLeaf_leaf _ _ _ hlow', hleaf]
    · rw [hmid]
      exact hwalk.moves.keys hkeys
    · rw [hmid]
      exact htakes'.keys

/-- The allocator's free pages are distinct pages that `kfree` accepts, and so is `f`, which
is in use. -/
structure Mem.InUse (m : Mem) (f : Frame) : Prop where
  sound : m.Sound
  nodup : m.free.Nodup
  valid : m.Valid f
  taken : f ∉ m.free

/-- What `proc_pagetable` builds: the table owns what it took from the free list, and the
trampoline and the trapframe are mapped. -/
structure Built (m : Mem) (tf : Frame) (v : Vm) : Prop where
  frames : v.frames = tf ::ₘ m.text ::ₘ (m.free : Multiset Frame)
  keys : ∀ i ∈ v.pt.mid, i < 512
  kend : v.mem.kend = m.kend
  trampoline : v.pt.leaf.lookup (vpn trampoline) = some ⟨m.text, true, false, true, false⟩

/-- The entries of a table that `proc_pagetable` has built. -/
def specialLeaves (text tf : Frame) : AList fun _ : Nat => Pte :=
  ((∅ : AList fun _ : Nat => Pte).insert (vpn trampoline) ⟨text, true, false, true, false⟩).insert
    (vpn trapframe) ⟨tf, true, true, false, false⟩

structure Builds (m : Mem) (tf : Frame) (v : Vm) : Prop extends Takes m v where
  frames : v.frames = tf ::ₘ m.text ::ₘ (m.free : Multiset Frame)
  leaf : v.pt.leaf = specialLeaves m.text tf

theorem Builds.built (h : Builds m tf v) : Built m tf v := by
  refine ⟨h.frames, h.keys, h.kend, ?_⟩
  rw [h.leaf, specialLeaves, lookup_insert_ne (by decide), lookup_insert]

theorem Mem.Sound.text_notMem (h : m.Sound) : m.text ∉ m.free := fun hf =>
  Nat.not_le.mpr m.text_lt (h _ hf).1

theorem uvmfree_empty (h : m.Sound) (hn : m.free.Nodup) (hframes : v.frames = m.free)
    (htakes : Takes m v) (hleaf : ∀ i, i ∉ v.pt.leaf) :
    Ends (uvmfree v 0) (Regained m.free m) fun _ => False := by
  have hback : v.Backed := by
    intro f hf
    rw [hframes, Multiset.mem_coe] at hf
    exact Mem.Valid.of_kend (h f hf) htakes.kend
  have hown : v.Owned := by
    refine ⟨fun f => ?_, htakes.keys⟩
    rw [hframes]
    exact Multiset.nodup_iff_count_le_one.mp (Multiset.coe_nodup.mpr hn) f
  exact (uvmfree_regains hown hback (Nat.zero_le _) fun i hi => absurd hi (hleaf i)).imp
    fun m' hm' => htakes.regained hframes hm'

theorem mapTrapframe_builds (h : m.InUse tf) (htakes : Takes m v)
    (hframes : v.frames = m.text ::ₘ (m.free : Multiset Frame))
    (hleaf : v.pt.leaf = (∅ : AList fun _ : Nat => Pte).insert (vpn trampoline)
      ⟨m.text, true, false, true, false⟩) :
    Ends (mapTrapframe v tf) (fun r => (∃ v', r.1 = some v' ∧ Builds m tf v') ∨
      r.1 = none ∧ Regained m.free m r.2) fun _ => False := by
  have hne : vpn trampoline ≠ vpn trapframe := by decide
  have hnot : vpn trapframe ∉ v.pt.leaf := by
    rw [hleaf, mem_insert]
    exact fun hmem => hmem.elim (fun heq => hne heq.symm) (notMem_empty _)
  rw [mapTrapframe]
  refine (mappages_lent (by decide) (by decide) hnot htakes tf _).bind fun r hr => ?_
  obtain ⟨ok, w⟩ := r
  obtain ⟨hr, htakes'⟩ := hr
  cases ok with
  | true =>
    have hlent : Lent v trapframe tf ⟨true, true, false, false⟩ w := hr
    refine .ok (Or.inl ⟨w, rfl, htakes', ?_, ?_⟩)
    · rw [hlent.frames, hframes]
    · rw [hlent.leaf, hleaf, specialLeaves]
  | false =>
    have hwalk : Walks v w := hr
    have he : w.pt.leaf.lookup (vpn trampoline) = some ⟨m.text, true, false, true, false⟩ := by
      rw [hwalk.leaf, hleaf, lookup_insert]
    have hw : (Vm.mk w.mem (w.pt.eraseLeaf (vpn trampoline))).frames = m.free :=
      (Multiset.cons_inj_right m.text).mp
        ((frames_eraseLeaf he).symm.trans (hwalk.moves.frames.trans hframes))
    simp only [Bool.false_eq_true, if_false,
      uvmunmap_keeps w (show trampoline % pgsize = 0 by decide)
      (by decide), ok_bind]
    refine (uvmfree_empty h.sound h.nodup hw ⟨htakes'.keys, htakes'.kend, htakes'.text,
      htakes'.free, htakes'.page⟩ fun i hi => ?_).bind fun m' hm' => .ok (Or.inr ⟨rfl, hm'⟩)
    have hi' : i ∈ w.pt.leaf.erase (vpn trampoline) := hi
    rw [hwalk.leaf, hleaf, mem_erase, mem_insert] at hi'
    exact hi'.2.elim hi'.1 (notMem_empty _)

theorem procPagetable_builds (h : m.InUse tf) :
    Ends (procPagetable m tf) (fun r => (∃ v, r.1 = some v ∧ Builds m tf v) ∨
      r.1 = none ∧ Regained m.free m r.2) fun _ => False := by
  rw [procPagetable, uvmcreate]
  cases hk : m.kalloc with
  | none => exact .ok (Or.inr ⟨rfl, rfl, fun _ _ => rfl, rfl, rfl⟩)
  | some fm =>
    obtain ⟨f, m₁⟩ := fm
    obtain ⟨hpage, hkend, htext⟩ := kalloc_page hk
    have hfree := kalloc_free hk
    have hframes : (Vm.mk m₁ (PageTable.empty f)).frames = m.free := by
      simp only [Vm.frames, PageTable.tables, PageTable.mapped, PageTable.empty, values_empty,
        Multiset.map_zero, add_zero, hfree]
      rw [add_comm, Multiset.cons_add, zero_add, Multiset.cons_coe]
    have hnot : vpn trampoline ∉ (PageTable.empty f).leaf := notMem_empty _
    have htakes : Takes m ⟨m₁, PageTable.empty f⟩ := by
      refine ⟨fun i hi => absurd hi (notMem_empty _), hkend, htext, fun g hg => ?_,
        fun g hg => ?_⟩
      · rw [hfree]
        exact mem_cons_of_mem f hg
      · rw [hfree, mem_cons, not_or] at hg
        exact (congrFun hpage g).trans (Function.update_of_ne hg.1 _ _)
    simp only [map_some]
    refine (mappages_lent (by decide) (by decide) hnot htakes _ _).bind fun r hr => ?_
    obtain ⟨ok, w⟩ := r
    obtain ⟨hr, htakes'⟩ := hr
    cases ok with
    | true =>
      have hlent : Lent ⟨m₁, PageTable.empty f⟩ trampoline m₁.text ⟨true, false, true, false⟩ w :=
        hr
      refine mapTrapframe_builds h htakes' ?_ ?_
      · rw [hlent.frames, hframes, htext]
      · rw [hlent.leaf, htext]
        rfl
    | false =>
      have hwalk : Walks ⟨m₁, PageTable.empty f⟩ w := hr
      refine (uvmfree_empty h.sound h.nodup (hwalk.moves.frames.trans hframes) htakes'
        fun i hi => ?_).bind fun m' hm' => .ok (Or.inr ⟨rfl, hm'⟩)
      rw [hwalk.leaf] at hi
      exact notMem_empty _ hi

/-- Every entry but those of the trampoline and the trapframe lies below the size. -/
def PageTable.UserBelow (pt : PageTable) (tf : Frame) (sz : Nat) : Prop :=
  ∀ i e, pt.leaf.lookup i = some e →
    i < npg sz ∨ i = vpn trampoline ∨ i = vpn trapframe ∧ e.frame = tf

theorem userBelow_iff {pt : PageTable} : (∀ s ∈ pt.leaf.entries,
    s.1 < npg sz ∨ s.1 = vpn trampoline ∨ s.1 = vpn trapframe ∧ s.2.frame = tf) ↔
      pt.UserBelow tf sz :=
  ⟨fun h i e he => h ⟨i, e⟩ (mem_lookup_iff.mp he),
    fun h s hs => h s.1 s.2 (mem_lookup_iff.mpr hs)⟩

instance (pt : PageTable) : Decidable (pt.UserBelow tf sz) := decidable_of_iff _ userBelow_iff

theorem userPart_frames (hbuilt : Built m tf v) (hworks : Works v v') (hsz : sz ≤ trapframe)
    (hbelow : v'.pt.UserBelow tf sz) :
    let w : Vm := ⟨v'.mem, v'.pt.userPart⟩
    w.frames = m.free ∨ vpn trapframe ∉ v'.pt.leaf ∧ w.frames =
      tf ::ₘ (m.free : Multiset Frame) := by
  have hne : vpn trapframe ≠ vpn trampoline := by decide
  have htramp := hworks.kernel _ _ hbuilt.trampoline (hbuilt.kend ▸ m.text_lt)
  have hall := (frames_eraseLeaf htramp).symm.trans (hworks.moves.frames.trans hbuilt.frames)
  rw [Multiset.cons_swap, Multiset.cons_inj_right] at hall
  cases he : v'.pt.leaf.lookup (vpn trapframe) with
  | none =>
    have hnot : vpn trapframe ∉ v'.pt.leaf := lookup_eq_none.mp he
    have hnot' : vpn trapframe ∉ (v'.pt.eraseLeaf (vpn trampoline)).leaf := fun hmem =>
      hnot (mem_erase.mp hmem).2
    refine Or.inr ⟨hnot, ?_⟩
    rw [PageTable.userPart, eraseLeaf_missing hnot']
    exact hall
  | some e =>
    have hframe : e.frame = tf := by
      rcases hbelow _ _ he with hlt | heq | ⟨-, heq⟩
      · exact absurd hlt (special_not_lt hsz (Or.inr rfl))
      · exact absurd heq hne
      · exact heq
    have hpart := (frames_userPart htramp he).symm.trans (hworks.moves.frames.trans hbuilt.frames)
    rw [hframe, Multiset.cons_swap, Multiset.cons_inj_right, Multiset.cons_inj_right] at hpart
    exact Or.inl hpart

theorem Mem.InUse.nodup_cons (h : m.InUse tf) :
    (tf ::ₘ m.text ::ₘ (m.free : Multiset Frame)).Nodup := by
  have hne : tf ≠ m.text := fun heq => Nat.not_le.mpr m.text_lt (heq ▸ h.valid.1)
  simp only [Multiset.nodup_cons, Multiset.mem_cons, Multiset.mem_coe, Multiset.coe_nodup]
  exact ⟨fun hmem => hmem.elim hne h.taken, h.sound.text_notMem, h.nodup⟩

theorem Built.owned (hbuilt : Built m tf v) (h : m.InUse tf) : v.Owned := by
  refine ⟨fun f => ?_, hbuilt.keys⟩
  rw [hbuilt.frames]
  exact Multiset.nodup_iff_count_le_one.mp h.nodup_cons f

theorem Built.userPart_owned (hbuilt : Built m tf v) (h : m.InUse tf) (hworks : Works v v')
    (hle : (Vm.mk v'.mem v'.pt.userPart).frames ≤ tf ::ₘ (m.free : Multiset Frame)) :
    (Vm.mk v'.mem v'.pt.userPart).Owned ∧ (Vm.mk v'.mem v'.pt.userPart).Backed := by
  have hv' := hworks.moves.owned (hbuilt.owned h)
  have hkend := hworks.moves.kend.trans hbuilt.kend
  refine ⟨hv'.of_le ?_ rfl, fun f hf => ?_⟩
  · rw [hworks.moves.frames, hbuilt.frames, Multiset.cons_swap]
    exact hle.trans (Multiset.le_cons_self _ _)
  · rcases Multiset.mem_cons.mp (Multiset.mem_of_le hle hf) with rfl | hfree
    · exact h.valid.of_kend hkend
    · exact Mem.Valid.of_kend (h.sound f (Multiset.mem_coe.mp hfree)) hkend

/-- The pages of an address space over its life. Either `proc_pagetable` fails and the free
pages are those that were free before; or, whatever is allocated, freed and copied in the
table it builds, `proc_freepagetable` gives back the pages of the table and every user page
once, and neither the trampoline nor a trapframe that is mapped. -/
theorem address_space_returns_pages (h : m.InUse tf) :
    ∃ r, procPagetable m tf = .ok r ∧
      (r.1 = none → r.2.free.Perm m.free) ∧
      ∀ v, r.1 = some v → ∀ (cs : List Change) (v' : Vm), cs.foldlM Change.run v = .ok v' →
        ∀ sz ≤ trapframe, v'.pt.UserBelow tf sz → ∃ m', procFreepagetable v' sz = .ok m' ∧
          (m'.free : Multiset Frame) = v'.mem.free + v'.pt.tables + v'.pt.userPart.mapped ∧
          m'.free.Nodup ∧ m.text ∉ m'.free ∧ (vpn trapframe ∈ v'.pt.leaf → tf ∉ m'.free) ∧
          ∀ f, f ∈ tf :: m'.free ↔ f ∈ tf :: m.free := by
  obtain ⟨r, hr, hspec⟩ := (procPagetable_builds h).exists_ok
  refine ⟨r, hr, fun hnone => ?_, fun v hv cs v' hcs sz hsz hbelow => ?_⟩
  · rcases hspec with ⟨v, hsome, -⟩ | ⟨-, hback⟩
    · rw [hnone] at hsome
      cases hsome
    · exact Multiset.coe_eq_coe.mp hback.free
  · obtain ⟨v₀, hv₀, hbuilds⟩ | ⟨hnone, -⟩ := hspec
    swap
    · rw [hnone] at hv
      cases hv
    have hbuilt := hbuilds.built
    obtain rfl : v₀ = v := some.inj (hv₀.symm.trans hv)
    have hown₀ := hbuilt.owned h
    have hworks : Works v₀ v' := (changes_work cs hown₀).of_eq_ok hcs
    have hframes := userPart_frames hbuilt hworks hsz hbelow
    obtain ⟨hown, hback⟩ := hbuilt.userPart_owned h hworks (hframes.elim
      (fun heq => heq ▸ Multiset.le_cons_self _ _) fun heq => heq.2.le)
    have hfrees : ∀ i ∈ v'.pt.userPart.leaf, i < npg sz := by
      intro i hi
      obtain ⟨htf, htramp, hi⟩ := mem_userPart.mp hi
      obtain ⟨e, he⟩ := isSome_iff_exists.mp (lookup_isSome.mpr hi)
      rcases hbelow i e he with hlt | heq | ⟨heq, -⟩
      · exact hlt
      · exact absurd heq htramp
      · exact absurd heq htf
    obtain ⟨m', hm', hfree, -⟩ := (uvmfree_regains hown hback hsz hfrees).exists_ok
    have hmem : ∀ f, f ∈ m'.free ↔ f ∈ (Vm.mk v'.mem v'.pt.userPart).frames := fun f => by
      rw [← hfree, Multiset.mem_coe]
    refine ⟨m', procFreepagetable_eq v' sz ▸ hm', hfree, ?_, fun hf => ?_, fun htf hf => ?_,
      fun f => ?_⟩
    · exact Multiset.coe_nodup.mp (hfree ▸ hown.nodup)
    · have hvalid := (hback _ ((hmem _).mp hf)).1
      rw [hworks.moves.kend, hbuilt.kend] at hvalid
      exact Nat.not_le.mpr m.text_lt hvalid
    · rcases hframes with heq | ⟨hgone, -⟩
      · exact h.taken (Multiset.mem_coe.mp (heq ▸ (hmem tf).mp hf))
      · exact hgone htf
    · rw [mem_cons, mem_cons, hmem]
      rcases hframes with heq | ⟨-, heq⟩
      · rw [heq, Multiset.mem_coe]
      · rw [heq, Multiset.mem_cons, Multiset.mem_coe, or_self_left]

/-- A table that grows by two pages, gives one up and is freed. -/
theorem address_space_returns_pages_sample : ∃ v m v' m',
    procPagetable sampleKernel.mem 0x80123 = .ok (some v, m) ∧
    [Change.alloc 0 8192 true false, .dealloc 8192 4096].foldlM Change.run v = .ok v' ∧
    v'.pt.UserBelow 0x80123 4096 ∧ procFreepagetable v' 4096 = .ok m' ∧ m'.free.Nodup ∧
    ∀ f, f ∈ 0x80123 :: m'.free ↔ f ∈ 0x80123 :: sampleKernel.mem.free := by
  have hin : sampleKernel.mem.InUse 0x80123 :=
    ⟨sampleKernel_sound, by decide +kernel, ⟨by decide, by decide⟩, by decide +kernel⟩
  have hrun : ∃ r, procPagetable sampleKernel.mem 0x80123 = .ok r ∧ ∃ v ∈ r.1,
      ∃ v', [Change.alloc 0 8192 true false, .dealloc 8192 4096].foldlM Change.run v = .ok v' ∧
        v'.pt.UserBelow 0x80123 4096 := by
    decide +kernel
  obtain ⟨⟨_, m⟩, hr, v, rfl, v', hv', hbelow⟩ := hrun
  obtain ⟨_, hr', -, hfrees⟩ := address_space_returns_pages hin
  obtain rfl := Except.ok.inj (hr.symm.trans hr')
  obtain ⟨m', hm', -, hnodup, -, -, hmem⟩ := hfrees v rfl _ v' hv' 4096 (by decide) hbelow
  exact ⟨v, m, v', m', hr, hv', hbelow, hm', hnodup, hmem⟩

end Lifetime

end EafitOs.Memory
