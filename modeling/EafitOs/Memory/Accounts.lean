import EafitOs.Foundation.Holdings
import EafitOs.Memory.Confined
import EafitOs.Memory.KernelView

/-!
# The frames of an address space

The frames of an address space are the free frames, the pages of its table and the pages it maps.
The functions that allocate and free pages only move frames between these, so that a frame that
was in one place before is in one place afterwards.
-/

namespace EafitOs.Memory

open Foundation Function List AList

namespace PageTable

def tables (pt : PageTable) : Multiset Frame := pt.root ::ₘ (values pt.mid + values pt.low)

def mapped (pt : PageTable) : Multiset Frame := (values pt.leaf).map Pte.frame

end PageTable

namespace Vm

def frames (v : Vm) : Multiset Frame := (v.mem.free : Multiset Frame) + v.pt.tables + v.pt.mapped

/-- The finite map an address space stands for: contents and permissions by page number. -/
def space (v : Vm) (i : Nat) : Option (Page × Perm) :=
  (v.pt.leaf.lookup i).map fun e => (v.mem.page e.frame, e.perm)

/-- Every frame is in one place, and the root has an entry for every table. -/
structure Owned (v : Vm) : Prop where
  once : ∀ f, v.frames.count f ≤ 1
  keys : ∀ i ∈ v.pt.mid, i < 512

end Vm

structure Moves (v v' : Vm) : Prop where
  frames : v'.frames = v.frames
  outside : ∀ f, f ∉ v.frames → v'.mem.page f = v.mem.page f
  keys : (∀ i ∈ v.pt.mid, i < 512) → ∀ i ∈ v'.pt.mid, i < 512
  kend : v'.mem.kend = v.mem.kend
  text : v'.mem.text = v.mem.text

namespace Moves

variable {v v' v'' : Vm}

theorem refl (v : Vm) : Moves v v := ⟨rfl, fun _ _ => rfl, id, rfl, rfl⟩

theorem trans (h : Moves v v') (h' : Moves v' v'') : Moves v v'' :=
  ⟨h'.frames.trans h.frames,
    fun f hf => (h'.outside f (h.frames ▸ hf)).trans (h.outside f hf),
    h'.keys ∘ h.keys, h'.kend.trans h.kend, h'.text.trans h.text⟩

theorem owned (h : Moves v v') (hv : v.Owned) : v'.Owned :=
  ⟨h.frames ▸ hv.once, h.keys hv.keys⟩

end Moves

section Owned

variable {v v' : Vm} {i j : Nat} {e e' : Pte}

theorem mem_frames_of_free {f : Frame} (h : f ∈ v.mem.free) : f ∈ v.frames :=
  Multiset.mem_add.mpr (Or.inl (Multiset.mem_add.mpr (Or.inl (Multiset.mem_coe.mpr h))))

theorem mem_mapped {pt : PageTable} (h : pt.leaf.lookup i = some e) : e.frame ∈ pt.mapped :=
  Multiset.mem_map_of_mem _ (mem_values_of_lookup h)

theorem exists_of_mem_mapped {pt : PageTable} {f : Frame} (h : f ∈ pt.mapped) :
    ∃ i e, pt.leaf.lookup i = some e ∧ e.frame = f := by
  obtain ⟨e, he, hf⟩ := Multiset.mem_map.mp h
  obtain ⟨i, hi⟩ := mem_values.mp he
  exact ⟨i, e, hi, hf⟩

theorem mem_frames_of_lookup (h : v.pt.leaf.lookup i = some e) : e.frame ∈ v.frames :=
  Multiset.mem_add.mpr (Or.inr (mem_mapped h))

namespace Vm.Owned

theorem nodup (hv : v.Owned) : v.frames.Nodup := Multiset.nodup_iff_count_le_one.mpr hv.once

theorem of_le (hv : v.Owned) (hle : v'.frames ≤ v.frames) (hmid : v'.pt.mid = v.pt.mid) :
    v'.Owned :=
  ⟨fun f => (Multiset.count_le_of_le f hle).trans (hv.once f), by rw [hmid]; exact hv.keys⟩

theorem not_free (hv : v.Owned) (h : v.pt.leaf.lookup i = some e) : e.frame ∉ v.mem.free := by
  intro hfree
  have hdis := (Multiset.nodup_add.mp hv.nodup).2.2
  exact Multiset.disjoint_left.mp hdis
    (Multiset.mem_add.mpr (Or.inl (Multiset.mem_coe.mpr hfree))) (mem_mapped h)

theorem inj (hv : v.Owned) (h : v.pt.leaf.lookup i = some e)
    (h' : v.pt.leaf.lookup j = some e') (heq : e.frame = e'.frame) : i = j :=
  key_unique (Multiset.nodup_add.mp hv.nodup).2.1 h h' heq

theorem free_nodup (hv : v.Owned) : v.mem.free.Nodup :=
  Multiset.coe_nodup.mp (Multiset.nodup_add.mp (Multiset.nodup_add.mp hv.nodup).1).1

theorem space_eq (hv : v.Owned) (hleaf : v'.pt.leaf = v.pt.leaf)
    (hpage : ∀ f, f ∉ v.mem.free → v'.mem.page f = v.mem.page f) : v'.space = v.space := by
  funext i
  rw [Vm.space, Vm.space, hleaf]
  cases h : v.pt.leaf.lookup i with
  | none => rfl
  | some e => rw [Option.map_some, Option.map_some, hpage _ (hv.not_free h)]

end Vm.Owned

end Owned

section Walk

variable {v v' : Vm} {va : Nat} {m m' : Mem} {f : Frame}

theorem kalloc_page (h : m.kalloc = some (f, m')) :
    m'.page = update m.page f (memset 5) ∧ m'.kend = m.kend ∧ m'.text = m.text := by
  rw [Mem.kalloc] at h
  split at h
  · cases h
  · obtain ⟨rfl, rfl⟩ := Prod.mk.inj (Option.some.inj h)
    exact ⟨rfl, rfl, rfl⟩

structure Walks (v v' : Vm) : Prop where
  moves : Moves v v'
  leaf : v'.pt.leaf = v.pt.leaf
  page : ∀ f, f ∉ v.mem.free → v'.mem.page f = v.mem.page f
  free : ∀ f, f ∈ v'.mem.free → f ∈ v.mem.free

theorem Walks.refl (v : Vm) : Walks v v := ⟨.refl v, rfl, fun _ _ => rfl, fun _ => id⟩

theorem Walks.trans {v'' : Vm} (h : Walks v v') (h' : Walks v' v'') : Walks v v'' :=
  ⟨h.moves.trans h'.moves, h'.leaf.trans h.leaf,
    fun f hf => (h'.page f fun hmem => hf (h.free f hmem)).trans (h.page f hf),
    fun f hf => h.free f (h'.free f hf)⟩

theorem walks_of_kalloc (hk : v.mem.kalloc = some (f, m)) {pt : PageTable}
    (hleaf : pt.leaf = v.pt.leaf) (htables : pt.tables = f ::ₘ v.pt.tables)
    (hkeys : (∀ i ∈ v.pt.mid, i < 512) → ∀ i ∈ pt.mid, i < 512) : Walks v ⟨m, pt⟩ := by
  obtain ⟨hpage, hkend, htext⟩ := kalloc_page hk
  have hfree := kalloc_free hk
  have hmem : f ∈ v.mem.free := by
    rw [hfree]
    exact mem_cons_self
  refine ⟨⟨?_, fun g hg => ?_, hkeys, hkend, htext⟩, hleaf, fun g hg => ?_, ?_⟩
  · simp only [Vm.frames, htables, PageTable.mapped, hleaf, hfree, ← Multiset.cons_coe,
      Multiset.cons_add, Multiset.add_cons]
  · have hne : g ≠ f := fun h => hg (h ▸ mem_frames_of_free hmem)
    exact (congrFun hpage g).trans (update_of_ne hne _ _)
  · have hne : g ≠ f := fun h => hg (h ▸ hmem)
    rw [hpage, update_of_ne hne]
  · intro g hg
    rw [hfree]
    exact mem_cons_of_mem f hg

theorem walkMid_walks (hva : va < maxva) (h : walkMid v va = some v') : Walks v v' := by
  rw [walkMid] at h
  split at h
  · obtain rfl := Option.some.inj h
    exact .refl v
  · rename_i hmid
    obtain ⟨⟨f, m⟩, hk, rfl⟩ := Option.map_eq_some_iff.mp h
    refine walks_of_kalloc hk rfl ?_ fun hkeys i hi => ?_
    · simp only [PageTable.tables, PageTable.addMid, values_insert hmid, Multiset.cons_add]
      exact Multiset.cons_swap _ _ _
    · rcases (mem_insert _).mp hi with rfl | hi
      · rw [maxva] at hva
        omega
      · exact hkeys i hi

theorem walkLow_walks (hmid : va / 2 ^ 30 ∈ v.pt.mid) (h : walkLow v va = some v') :
    Walks v v' := by
  rw [walkLow] at h
  split at h
  · obtain rfl := Option.some.inj h
    exact .refl v
  · rename_i hlow
    obtain ⟨⟨f, m⟩, hk, rfl⟩ := Option.map_eq_some_iff.mp h
    have hdiv : va / 2 ^ 21 / 512 = va / 2 ^ 30 := by omega
    refine walks_of_kalloc hk (PageTable.addLow_leaf _ _ _) ?_ ?_
    · simp only [PageTable.tables, PageTable.addLow, dif_pos (hdiv ▸ hmid), values_insert hlow,
        Multiset.add_cons]
      exact Multiset.cons_swap _ _ _
    · rw [PageTable.addLow, dif_pos (hdiv ▸ hmid)]
      exact id

theorem walkAlloc_walks (v : Vm) (va : Nat) :
    Ends (walkAlloc v va) (fun r => Walks v r.2) fun _ => True := by
  rw [walkAlloc]
  split
  · exact .error trivial
  · rename_i hva
    have hlt : va < maxva := by omega
    split
    · exact .ok (.refl v)
    · rename_i v₁ h₁
      have hw₁ := walkMid_walks hlt h₁
      split
      · exact .ok hw₁
      · rename_i v₂ h₂
        exact .ok (hw₁.trans (walkLow_walks (walkMid_leaf h₁).2 h₂))

theorem kalloc_suffix (h : m.kalloc = some (f, m')) : m'.free <:+ m.free := by
  rw [kalloc_free h]
  exact suffix_cons f m'.free

theorem walkAlloc_suffix (v : Vm) (va : Nat) :
    Ends (walkAlloc v va) (fun r => r.2.mem.free <:+ v.mem.free) fun _ => True := by
  have hmid : ∀ {v₁}, walkMid v va = some v₁ → v₁.mem.free <:+ v.mem.free := by
    intro v₁ h
    rw [walkMid] at h
    split at h
    · exact Option.some.inj h ▸ suffix_rfl
    · obtain ⟨⟨f, m⟩, hk, rfl⟩ := Option.map_eq_some_iff.mp h
      exact kalloc_suffix hk
  have hlow : ∀ {v₁ v₂}, walkLow v₁ va = some v₂ → v₂.mem.free <:+ v₁.mem.free := by
    intro v₁ v₂ h
    rw [walkLow] at h
    split at h
    · exact Option.some.inj h ▸ suffix_rfl
    · obtain ⟨⟨f, m⟩, hk, rfl⟩ := Option.map_eq_some_iff.mp h
      exact kalloc_suffix hk
  rw [walkAlloc]
  split
  · exact .error trivial
  · split
    · exact .ok suffix_rfl
    · rename_i v₁ h₁
      split
      · exact .ok (hmid h₁)
      · rename_i v₂ h₂
        exact .ok ((hlow h₂).trans (hmid h₁))

end Walk

section Map

variable {v v' w : Vm} {va : Nat} {m m' : Mem} {f : Frame} {d : Page} {perm : Perm}

theorem kfree_eq (h : m.kfree f = .ok m') :
    m'.free = f :: m.free ∧ m'.page = update m.page f (memset 1) ∧
      m'.kend = m.kend ∧ m'.text = m.text := by
  rw [Mem.kfree] at h
  split at h
  · cases h
  · obtain rfl := Except.ok.inj h
    exact ⟨rfl, rfl, rfl, rfl⟩

def Mem.Valid (m : Mem) (f : Frame) : Prop := m.kend ≤ f ∧ f < phystop

instance : Decidable (m.Valid f) := inferInstanceAs (Decidable (_ ∧ _))

theorem Mem.Valid.of_kend (h : m.Valid f) (heq : m'.kend = m.kend) : m'.Valid f := by
  rw [Mem.Valid, heq]
  exact h

theorem kfree_of_valid (h : m.Valid f) :
    m.kfree f = .ok { m with free := f :: m.free, page := update m.page f (memset 1) } :=
  if_neg (not_or.mpr ⟨Nat.not_lt.mpr h.1, Nat.not_le.mpr h.2⟩)

theorem kfree_valid (h : m.kfree f = .ok m') : m.kend ≤ f ∧ f < phystop := by
  rw [Mem.kfree] at h
  split at h
  · cases h
  · rename_i hvalid
    exact ⟨Nat.not_lt.mp fun hlt => hvalid (Or.inl hlt), Nat.not_le.mp fun hle =>
      hvalid (Or.inr hle)⟩

/-- The address space without a frame that was just taken off the free list and filled. -/
def Vm.fetched (v : Vm) (m : Mem) (f : Frame) (d : Page) : Vm := ⟨m.setPage f d, v.pt⟩

structure Fetched (v : Vm) (f : Frame) (d : Page) (w : Vm) : Prop where
  frames : v.frames = f ::ₘ w.frames
  pt : w.pt = v.pt
  kend : w.mem.kend = v.mem.kend
  text : w.mem.text = v.mem.text
  free : v.mem.free = f :: w.mem.free
  page : w.mem.page f = d
  other : ∀ g, g ≠ f → w.mem.page g = v.mem.page g

theorem fetched_of_kalloc (hk : v.mem.kalloc = some (f, m)) (d : Page) :
    Fetched v f d (v.fetched m f d) := by
  obtain ⟨hpage, hkend, htext⟩ := kalloc_page hk
  have hfree := kalloc_free hk
  refine ⟨?_, rfl, hkend, htext, hfree, ?_, fun g hg => ?_⟩
  · simp only [Vm.frames, Vm.fetched, Mem.setPage, hfree, ← Multiset.cons_coe, Multiset.cons_add]
  · simp only [Vm.fetched, Mem.setPage, update_self]
  · simp only [Vm.fetched, Mem.setPage, hpage, update_of_ne hg]

namespace Fetched

theorem mem_free (h : Fetched v f d w) : f ∈ v.mem.free := by
  rw [h.free]
  exact mem_cons_self

theorem mem_of (h : Fetched v f d w) {g : Frame} (hg : g ∈ w.mem.free) : g ∈ v.mem.free := by
  rw [h.free]
  exact mem_cons_of_mem f hg

theorem outside (h : Fetched v f d w) (hwalk : Walks w v') (g : Frame) (hg : g ∉ v.frames) :
    v'.mem.page g = v.mem.page g := by
  rw [h.frames, Multiset.mem_cons, not_or] at hg
  rw [hwalk.moves.outside g hg.2, h.other g hg.1]

end Fetched

/-- What `mapFilled` leaves, whoever else uses its frame: the page is mapped to a frame that
was free, or there was no memory for it and nothing is mapped. -/
structure Places (v : Vm) (va : Nat) (d : Page) (perm : Perm) (r : Option Frame × Vm) : Prop where
  moves : Moves v r.2
  free : (r.2.mem.free : Multiset Frame) ≤ v.mem.free
  other : ∀ g, g ∉ v.mem.free → r.2.mem.page g = v.mem.page g
  mapped : ∀ f, r.1 = some f → vpn va ∉ v.pt.leaf ∧ va < maxva ∧
    r.2.pt.leaf = v.pt.leaf.insert (vpn va) ⟨f, perm⟩ ∧
    f ::ₘ (r.2.mem.free : Multiset Frame) ≤ v.mem.free ∧
    (v.mem.free.Nodup → r.2.mem.page f = d)
  failed : r.1 = none → r.2.pt.leaf = v.pt.leaf

theorem mapped_insert {pt : PageTable} {i : Nat} {e : Pte} (hlow : i / 512 ∈ pt.low)
    (h : i ∉ pt.leaf) : (pt.setLeaf i e).mapped = e.frame ::ₘ pt.mapped ∧
      (pt.setLeaf i e).tables = pt.tables ∧ (pt.setLeaf i e).mid = pt.mid := by
  refine ⟨?_, ?_, ?_⟩
  · rw [PageTable.mapped, PageTable.setLeaf_leaf _ _ _ hlow, values_insert h, Multiset.map_cons]
    rfl
  · simp only [PageTable.tables, PageTable.setLeaf, dif_pos hlow]
  · simp only [PageTable.setLeaf, dif_pos hlow]

theorem Fetched.maps (h : Fetched v f d w) (hwalk : Walks w v')
    (hsuffix : v'.mem.free <:+ w.mem.free) (hlow : vpn va / 512 ∈ v'.pt.low) (hmax : va < maxva)
    (hnot : vpn va ∉ v'.pt.leaf) :
    Places v va d perm (some f, { v' with pt := v'.pt.setLeaf (vpn va) ⟨f, perm⟩ }) := by
  obtain ⟨hmapped, htables, hmid⟩ := mapped_insert (e := ⟨f, perm⟩) hlow hnot
  have hleaf : v'.pt.leaf = v.pt.leaf := hwalk.leaf.trans (congrArg PageTable.leaf h.pt)
  have hout : ∀ g, g ∉ v.frames → v'.mem.page g = v.mem.page g := h.outside hwalk
  have hle : f ::ₘ (v'.mem.free : Multiset Frame) ≤ v.mem.free := by
    rw [h.free, Multiset.cons_coe, Multiset.coe_le]
    exact (hsuffix.sublist.cons_cons f).subperm
  refine ⟨⟨?_, hout, fun hkeys => ?_, hwalk.moves.kend.trans h.kend,
    hwalk.moves.text.trans h.text⟩, (Multiset.le_cons_self _ f).trans hle, fun g hg => ?_,
    fun g hg => ?_, fun hg => by cases hg⟩
  · rw [h.frames, ← hwalk.moves.frames]
    simp only [Vm.frames, hmapped, htables, Multiset.add_cons]
  · rw [hmid]
    exact hwalk.moves.keys (by rw [h.pt]; exact hkeys)
  · have hgf : g ≠ f := fun hgf => hg (hgf ▸ h.mem_free)
    have hgw : g ∉ w.mem.free := fun hmem => hg (h.mem_of hmem)
    exact (hwalk.page g hgw).trans (h.other g hgf)
  · obtain rfl := Option.some.inj hg
    have hset := PageTable.setLeaf_leaf v'.pt (vpn va) ⟨f, perm⟩ hlow
    refine ⟨hleaf ▸ hnot, hmax, by rw [hset, hleaf], hle, fun hnodup => ?_⟩
    rw [h.free] at hnodup
    exact (hwalk.page f (nodup_cons.mp hnodup).1).trans h.page

theorem Fetched.gives_back (h : Fetched v f d w) (hwalk : Walks w v')
    (hsuffix : v'.mem.free <:+ w.mem.free) (hfree : v'.mem.kfree f = .ok m) :
    Places v va d perm (none, ⟨m, v'.pt⟩) := by
  obtain ⟨hlist, hpage, hkend, htext⟩ := kfree_eq hfree
  have hleaf : v'.pt.leaf = v.pt.leaf := hwalk.leaf.trans (congrArg PageTable.leaf h.pt)
  refine ⟨⟨?_, fun g hg => ?_, fun hkeys => hwalk.moves.keys (by rw [h.pt]; exact hkeys),
    hkend.trans (hwalk.moves.kend.trans h.kend), htext.trans (hwalk.moves.text.trans h.text)⟩,
    ?_, fun g hg => ?_, fun g hg => (by cases hg), fun _ => hleaf⟩
  · rw [h.frames, ← hwalk.moves.frames]
    simp only [Vm.frames, hlist, ← Multiset.cons_coe, Multiset.cons_add]
  · have hgf : g ≠ f := fun hgf => hg (hgf ▸ mem_frames_of_free h.mem_free)
    rw [← h.outside hwalk g hg]
    exact (congrFun hpage g).trans (update_of_ne hgf _ _)
  · simp only [hlist, h.free, Multiset.coe_le]
    exact (hsuffix.sublist.cons_cons f).subperm
  · have hgf : g ≠ f := fun hgf => hg (hgf ▸ h.mem_free)
    have hgw : g ∉ w.mem.free := fun hmem => hg (h.mem_of hmem)
    show m.page g = v.mem.page g
    rw [hpage, update_of_ne hgf, hwalk.page g hgw, h.other g hgf]

theorem Fetched.mappages (h : Fetched v f d w) (hva : va % pgsize = 0) (perm : Perm) :
    Ends (mappages w va pgsize f perm) (fun r =>
      if r.1 then Places v va d perm (some f, r.2)
      else Walks w r.2 ∧ r.2.mem.free <:+ w.mem.free) fun _ => True := by
  rw [mappages_one _ hva]
  refine ((walkAlloc_leaf w va).mono (fun _ => id) (fun _ _ => trivial) |>.and
    ((walkAlloc_walks w va).and (walkAlloc_suffix w va))).bind fun r hr => ?_
  obtain ⟨ok, v'⟩ := r
  obtain ⟨⟨-, hmax, hlow⟩, hwalk, hsuffix⟩ := hr
  cases ok with
  | false => exact .ok ⟨hwalk, hsuffix⟩
  | true =>
    simp only [Bool.not_true, Bool.false_eq_true, if_false]
    split
    · exact .error trivial
    · rename_i hnot
      exact .ok (h.maps hwalk hsuffix (vpn_div va ▸ hlow rfl) hmax hnot)

theorem mapFilled_places (v : Vm) (hva : va % pgsize = 0) (d : Page) (perm : Perm) :
    Ends (mapFilled v va d perm) (Places v va d perm) fun _ => True := by
  rw [mapFilled]
  cases hk : v.mem.kalloc with
  | none => exact .ok ⟨.refl v, le_rfl, fun _ _ => rfl, fun f hf => (by cases hf), fun _ => rfl⟩
  | some r =>
    obtain ⟨f, m⟩ := r
    have hfetched := fetched_of_kalloc hk d
    refine (hfetched.mappages hva perm).bind fun r hr => ?_
    obtain ⟨ok, v'⟩ := r
    cases ok with
    | true => exact .ok hr
    | false =>
      refine Ends.bind (Q := fun m' => v'.mem.kfree f = .ok m') ⟨id, fun _ => trivial⟩
        fun m' hm' => ?_
      exact .ok (hfetched.gives_back hr.1 hr.2 hm')

/-- What `mapFilled` leaves: the page is mapped to a frame that was free, or there was
no memory for it and nothing is mapped. -/
structure Filled (v : Vm) (va : Nat) (d : Page) (perm : Perm) (r : Option Frame × Vm) : Prop where
  moves : Moves v r.2
  free : ∀ f ∈ r.2.mem.free, f ∈ v.mem.free
  mapped : ∀ f, r.1 = some f → f ∈ v.mem.free ∧ vpn va ∉ v.pt.leaf ∧ va < maxva ∧
    r.2.pt.leaf = v.pt.leaf.insert (vpn va) ⟨f, perm⟩ ∧
    r.2.space = update v.space (vpn va) (some (d, perm))
  failed : r.1 = none → r.2.pt.leaf = v.pt.leaf ∧ r.2.space = v.space

theorem Places.filled {r : Option Frame × Vm} (h : Places v va d perm r) (hv : v.Owned) :
    Filled v va d perm r := by
  have hsame : ∀ e : Pte, ∀ i, v.pt.leaf.lookup i = some e → r.2.mem.page e.frame =
      v.mem.page e.frame := fun e i he => h.other _ (hv.not_free he)
  refine ⟨h.moves, fun f hf => Multiset.mem_of_le h.free hf, fun f hf => ?_, fun hnone => ?_⟩
  · obtain ⟨hnot, hmax, hleaf, hle, hpage⟩ := h.mapped f hf
    refine ⟨Multiset.mem_of_le hle (Multiset.mem_cons_self f _), hnot, hmax, hleaf, ?_⟩
    funext i
    simp only [Vm.space, hleaf]
    by_cases hi : i = vpn va
    · subst hi
      rw [lookup_insert, update_self, Option.map_some, hpage hv.free_nodup]
    · rw [lookup_insert_ne hi, update_of_ne hi, Vm.space]
      exact Option.map_congr fun e he => by rw [hsame e i he]
  · have hleaf := h.failed hnone
    exact ⟨hleaf, hv.space_eq hleaf h.other⟩

theorem mapFilled_spec (hv : v.Owned) (hva : va % pgsize = 0) (d : Page) (perm : Perm) :
    Ends (mapFilled v va d perm) (Filled v va d perm) fun _ => True :=
  (mapFilled_places v hva d perm).imp fun _ h => h.filled hv

/-- A page is copied as a page is filled, with what `kalloc` left in the old frame. -/
theorem copyPte_fills (v : Vm) (a : Nat) (e : Pte) :
    ∃ d, (e.frame ∉ v.mem.free → d = v.mem.page e.frame) ∧ copyPte v a e =
      mapFilled v a d e.perm >>= fun r => .ok (r.1.isSome, r.2) := by
  rw [copyPte]
  cases hk : v.mem.kalloc with
  | none => exact ⟨_, fun _ => rfl, by rw [mapFilled, hk]; rfl⟩
  | some r =>
    obtain ⟨f, m⟩ := r
    refine ⟨m.page e.frame, fun h => ?_, ?_⟩
    · have hne : e.frame ≠ f := by
        rintro heq
        exact h (by rw [kalloc_free hk, heq]; exact mem_cons_self)
      rw [(kalloc_page hk).1, Function.update_of_ne hne]
    · simp only [mapFilled, hk, LawfulMonad.bind_assoc]
      refine bind_congr fun r => ?_
      obtain ⟨ok, v'⟩ := r
      cases ok with
      | true => rfl
      | false =>
        simp only [Bool.false_eq_true, if_false, LawfulMonad.bind_assoc]
        rfl

end Map

section Unmap

variable {v v' : Vm} {a : Nat}

theorem mapped_erase {pt : PageTable} {i : Nat} {e : Pte} (h : pt.leaf.lookup i = some e) :
    pt.mapped = e.frame ::ₘ (pt.eraseLeaf i).mapped := by
  rw [PageTable.mapped, values_erase h, Multiset.map_cons, PageTable.mapped,
    PageTable.eraseLeaf_leaf]

structure Clears (v : Vm) (as : List Nat) (v' : Vm) : Prop where
  moves : Moves v v'
  freed : ∀ i ∈ as.map vpn, ∀ e, v.pt.leaf.lookup i = some e →
    v.mem.kend ≤ e.frame ∧ e.frame < phystop
  leaf : ∀ i, v'.pt.leaf.lookup i = if i ∈ as.map vpn then none else v.pt.leaf.lookup i
  free : ∀ f ∈ v'.mem.free, f ∈ v.mem.free ∨
    ∃ i ∈ as.map vpn, ∃ e, v.pt.leaf.lookup i = some e ∧ e.frame = f

theorem Clears.refl (v : Vm) : Clears v [] v :=
  ⟨.refl v, fun _ hi => absurd hi not_mem_nil, fun _ => rfl, fun _ => Or.inl⟩

theorem Clears.append {as bs : List Nat} {v'' : Vm} (h : Clears v as v') (h' : Clears v' bs v'') :
    Clears v (as ++ bs) v'' := by
  refine ⟨h.moves.trans h'.moves, fun i hi e he => ?_, fun i => ?_, fun f hf => ?_⟩
  · by_cases ha : i ∈ as.map vpn
    · exact h.freed i ha e he
    · rw [map_append, mem_append] at hi
      rw [← h.moves.kend]
      exact h'.freed i (hi.resolve_left ha) e (by rw [h.leaf, if_neg ha, he])
  · simp only [h'.leaf, h.leaf, map_append, mem_append]
    by_cases ha : i ∈ as.map vpn <;> by_cases hb : i ∈ bs.map vpn <;> simp [ha, hb]
  · simp only [map_append, mem_append]
    rcases h'.free f hf with hf | ⟨i, hi, e, he, rfl⟩
    · rcases h.free f hf with hf | ⟨i, hi, he⟩
      · exact Or.inl hf
      · exact Or.inr ⟨i, Or.inl hi, he⟩
    · rw [h.leaf] at he
      split at he
      · cases he
      · exact Or.inr ⟨i, Or.inr hi, e, he, rfl⟩

def Vm.Unmappable (v : Vm) (a : Nat) : Prop :=
  a < maxva ∧ ∀ e, v.pt.leaf.lookup (vpn a) = some e → v.mem.Valid e.frame

theorem Clears.unmappable {as : List Nat} {b : Nat} (h : Clears v as v') (hb : v.Unmappable b) :
    v'.Unmappable b := by
  refine ⟨hb.1, fun e he => ?_⟩
  rw [h.leaf] at he
  split at he
  · cases he
  · exact (hb.2 e he).of_kend h.moves.kend

structure Drops (v : Vm) (as : List Nat) (v' : Vm) : Prop extends Clears v as v' where
  space : ∀ i, v'.space i = if i ∈ as.map vpn then none else v.space i

namespace Drops

variable {as bs : List Nat} {v'' : Vm}

theorem refl (v : Vm) : Drops v [] v :=
  { Clears.refl v with space := fun _ => rfl }

theorem append (h : Drops v as v') (h' : Drops v' bs v'') : Drops v (as ++ bs) v'' := by
  refine { h.toClears.append h'.toClears with space := fun i => ?_ }
  simp only [h'.space, h.space, map_append, mem_append]
  by_cases ha : i ∈ as.map vpn <;> by_cases hb : i ∈ bs.map vpn <;> simp [ha, hb]

end Drops

structure Unmaps (v : Vm) (as : List Nat) (v' : Vm) : Prop extends Clears v as v' where
  page : ∀ f, (∀ i ∈ as.map vpn, ∀ e, v.pt.leaf.lookup i = some e → e.frame ≠ f) →
    v'.mem.page f = v.mem.page f

theorem Unmaps.refl (v : Vm) : Unmaps v [] v := { Clears.refl v with page := fun _ _ => rfl }

theorem unmaps_erase {e : Pte} {m : Mem} (he : v.pt.leaf.lookup (vpn a) = some e)
    (hm : v.mem.kfree e.frame = .ok m) : Unmaps v [a] ⟨m, v.pt.eraseLeaf (vpn a)⟩ := by
  obtain ⟨hfree, hpage, hkend, htext⟩ := kfree_eq hm
  have hmem : ∀ i, i ∈ [a].map vpn ↔ i = vpn a := fun i => by
    simp only [map_cons, map_nil, mem_singleton]
  refine ⟨⟨⟨?_, fun g hg => ?_, id, hkend, htext⟩, fun i hi e' he' => ?_, fun i => ?_,
    fun g hg => ?_⟩, fun g hg => ?_⟩
  · have htables : (v.pt.eraseLeaf (vpn a)).tables = v.pt.tables := rfl
    simp only [Vm.frames, hfree, htables, mapped_erase he, ← Multiset.cons_coe,
      Multiset.cons_add, Multiset.add_cons]
  · have hne : g ≠ e.frame := fun h => hg (h ▸ mem_frames_of_lookup he)
    exact (congrFun hpage g).trans (update_of_ne hne _ _)
  · obtain rfl := (hmem i).mp hi
    obtain rfl : e = e' := Option.some.inj (he.symm.trans he')
    exact kfree_valid hm
  · simp only [PageTable.lookup_eraseLeaf, hmem]
  · rcases mem_cons.mp (hfree ▸ hg) with rfl | hg
    · exact Or.inr ⟨vpn a, (hmem _).mpr rfl, e, he, rfl⟩
    · exact Or.inl hg
  · have hne : g ≠ e.frame := (hg _ ((hmem _).mpr rfl) e he).symm
    exact (congrFun hpage g).trans (update_of_ne hne _ _)

theorem unmaps_missing (h : v.pt.leaf.lookup (vpn a) = none) : Unmaps v [a] v := by
  have hmem : ∀ i, i ∈ [a].map vpn ↔ i = vpn a := fun i => by
    simp only [map_cons, map_nil, mem_singleton]
  refine ⟨⟨.refl v, fun i hi e he => ?_, fun i => ?_, fun _ => Or.inl⟩, fun _ _ => rfl⟩
  · obtain rfl := (hmem i).mp hi
    rw [h] at he
    cases he
  · simp only [hmem]
    split
    · rename_i hi
      rw [hi, h]
    · rfl

theorem Unmaps.append {as bs : List Nat} {v'' : Vm} (h : Unmaps v as v') (h' : Unmaps v' bs v'') :
    Unmaps v (as ++ bs) v'' := by
  refine { h.toClears.append h'.toClears with page := fun f hf => ?_ }
  rw [h'.page f fun i hi e he => ?_, h.page f fun i hi e he => ?_]
  · exact hf i (by rw [map_append]; exact mem_append_left _ hi) e he
  · rw [h.leaf] at he
    split at he
    · cases he
    · exact hf i (by rw [map_append]; exact mem_append_right _ hi) e he

theorem Unmaps.drops {as : List Nat} (h : Unmaps v as v') (hv : v.Owned) : Drops v as v' := by
  refine { h.toClears with space := fun i => ?_ }
  simp only [Vm.space, h.leaf]
  split
  · rfl
  · rename_i hi
    refine Option.map_congr fun e he => ?_
    rw [h.page e.frame fun j hj e' he' heq => hi (hv.inj he' he heq ▸ hj)]

theorem drops_missing (hv : v.Owned) (h : v.pt.leaf.lookup (vpn a) = none) : Drops v [a] v :=
  (unmaps_missing h).drops hv

theorem unmapPage_unmaps (v : Vm) (a : Nat) :
    Ends (unmapPage true v a) (Unmaps v [a]) fun _ => ¬v.Unmappable a := by
  rw [unmapPage, PageTable.walk]
  split
  · rename_i hmax
    exact .error fun h => Nat.not_le.mpr h.1 hmax
  · rename_i hmax
    rw [ok_bind]
    cases he : v.pt.leaf.lookup (vpn a) with
    | none => exact .ok (unmaps_missing he)
    | some e =>
      refine Ends.bind (Q := fun m => v.mem.kfree e.frame = .ok m) ⟨id, fun herr h => ?_⟩
        fun m hm => .ok (unmaps_erase he hm)
      rw [freeIf, if_pos rfl, kfree_of_valid (h.2 e he)] at herr
      cases herr

theorem unmapPages_unmaps (as : List Nat) : ∀ v : Vm,
    Ends (as.foldlM (unmapPage true) v) (Unmaps v as) fun _ => ¬∀ a ∈ as, v.Unmappable a := by
  induction as with
  | nil => exact fun _ => .ok (.refl _)
  | cons a rest ih =>
    intro v
    rw [foldlM_cons]
    refine ((unmapPage_unmaps v a).mono (fun _ => id) fun _ hnot h =>
      hnot (h a mem_cons_self)).bind fun v₁ h₁ => ?_
    refine (ih v₁).mono (fun v₂ h₂ => h₁.append h₂) fun _ hnot h => ?_
    exact hnot fun b hb => h₁.unmappable (h b (mem_cons_of_mem a hb))

theorem unmapPages_spec (as : List Nat) {v : Vm} (hv : v.Owned) :
    Ends (as.foldlM (unmapPage true) v) (Drops v as) fun _ => ¬∀ a ∈ as, v.Unmappable a :=
  (unmapPages_unmaps as v).imp fun _ h => h.drops hv

theorem uvmunmap_unmaps (v : Vm) {va : Nat} (hva : va % pgsize = 0) (npages : Nat) :
    Ends (uvmunmap v va npages true) (Unmaps v (pages va ((va + npages * pgsize) % 2 ^ 64)))
      fun _ => ¬∀ a ∈ pages va ((va + npages * pgsize) % 2 ^ 64), v.Unmappable a := by
  rw [uvmunmap, if_neg (by omega)]
  exact unmapPages_unmaps _ v

theorem uvmunmap_spec (hv : v.Owned) (va npages : Nat) :
    Ends (uvmunmap v va npages true) (fun v' => va % pgsize = 0 ∧
      Drops v (pages va ((va + npages * pgsize) % 2 ^ 64)) v') fun _ => True := by
  rw [uvmunmap]
  split
  · exact .error trivial
  · exact (unmapPages_spec _ hv).any.imp fun v' h => ⟨by omega, h⟩

theorem pgroundup_of_le_maxva {x : Nat} (h : x ≤ maxva) :
    x ≤ pgroundup x ∧ pgroundup x ≤ maxva := by
  simp only [pgroundup, maxva, pgsize] at h ⊢
  omega

theorem uvmdealloc_unmaps (v : Vm) (oldsz newsz : Nat) :
    Ends (uvmdealloc v oldsz newsz) (fun r => r.1 = min oldsz newsz ∧ ∃ as, Unmaps v as r.2 ∧
      (oldsz ≤ maxva ∨ oldsz ≤ newsz → ∀ i, i ∈ as.map vpn ↔
        newsz < oldsz ∧ npg newsz ≤ i ∧ i < npg oldsz)) fun _ =>
      ¬(oldsz ≤ maxva ∧ ∀ i e, npg newsz ≤ i → i < npg oldsz → v.pt.leaf.lookup i = some e →
        v.mem.Valid e.frame) := by
  rw [uvmdealloc]
  split
  · rename_i hle
    refine .ok ⟨(Nat.min_eq_left hle).symm, [], .refl v, fun _ i => ?_⟩
    simp only [map_nil, not_mem_nil, false_iff]
    omega
  · rename_i hlt
    have hmin : newsz = min oldsz newsz := (Nat.min_eq_right (by omega)).symm
    split
    · have hmem : oldsz ≤ maxva → ∀ i, i ∈ (pages (pgroundup newsz) ((pgroundup newsz +
          throughInt ((pgroundup oldsz - pgroundup newsz) / pgsize) * pgsize) % 2 ^ 64)).map vpn ↔
          newsz < oldsz ∧ npg newsz ≤ i ∧ i < npg oldsz := by
        intro htop i
        obtain ⟨-, hround⟩ := pgroundup_of_le_maxva htop
        have hmul := npg_mul oldsz
        have hmul' := npg_mul newsz
        rw [throughInt_npg hround, mem_pages (pgroundup_mod newsz)]
        have hvpn : vpn (pgroundup newsz) = npg newsz := rfl
        rw [hvpn]
        simp only [maxva, pgsize] at hround hmul hmul' ⊢
        omega
      refine ((uvmunmap_unmaps v (pgroundup_mod newsz) _).mono (fun _ => id) fun _ hnot h =>
        hnot fun a ha => ?_).bind fun v' h =>
          .ok ⟨hmin, _, h, fun htop => hmem (htop.resolve_right (by omega))⟩
      obtain ⟨-, hlow, hhigh⟩ := (hmem h.1 (vpn a)).mp (mem_map_of_mem ha)
      refine ⟨?_, fun e => h.2 _ e hlow hhigh⟩
      obtain ⟨-, hround⟩ := pgroundup_of_le_maxva h.1
      have hmul := npg_mul oldsz
      simp only [vpn, maxva, pgsize] at hround hmul hhigh ⊢
      omega
    · rename_i hpg
      refine .ok ⟨hmin, [], .refl v, fun _ i => ?_⟩
      have hmul := npg_mul oldsz
      have hmul' := npg_mul newsz
      simp only [map_nil, not_mem_nil, false_iff]
      simp only [pgsize] at hmul hmul'
      omega

theorem uvmdealloc_spec (hv : v.Owned) (oldsz newsz : Nat) :
    Ends (uvmdealloc v oldsz newsz) (fun r => r.1 = min oldsz newsz ∧ ∃ as, Drops v as r.2 ∧
      (oldsz ≤ maxva ∨ oldsz ≤ newsz → ∀ i, i ∈ as.map vpn ↔
        newsz < oldsz ∧ npg newsz ≤ i ∧ i < npg oldsz)) fun _ => True := by
  refine (uvmdealloc_unmaps v oldsz newsz).any.imp fun r hr => ?_
  obtain ⟨hsize, as, hunmaps, has⟩ := hr
  exact ⟨hsize, as, hunmaps.drops hv, has⟩

end Unmap

section Alloc

variable {v : Vm}

theorem allocLoop_cons (perm : Perm) (oldsz a : Nat) (rest : List Nat) (v : Vm) :
    allocLoop perm oldsz (a :: rest) v = mapFilled v a (memset 0) perm >>= fun r =>
      if r.1.isSome then allocLoop perm oldsz rest r.2
      else uvmdealloc r.2 a oldsz >>= fun s => .ok (false, s.2) := by
  rw [allocLoop, mapFilled]
  cases hk : v.mem.kalloc with
  | none => rfl
  | some r =>
    obtain ⟨f, m⟩ := r
    simp only [bind_assoc]
    refine bind_congr fun r => ?_
    obtain ⟨ok, v'⟩ := r
    cases ok with
    | true => rfl
    | false =>
      simp only [Bool.false_eq_true, if_false, bind_assoc]
      rfl

theorem space_none {i : Nat} (h : i ∉ v.pt.leaf) : v.space i = none := by
  rw [Vm.space, lookup_eq_none.mpr h]
  rfl

end Alloc

end EafitOs.Memory
