import EafitOs.Foundation.Alike
import EafitOs.Memory.CallEffects

/-!
# Address spaces that a program cannot tell apart

Two address spaces show the same pages with the same contents, in frames that may differ, and
have tables for the same addresses. With as many free pages the kernel serves both alike: what
a program asks for, both get or neither does.
-/

namespace EafitOs.Memory

open Foundation Function Option

section Tables

variable {v w : Vm} {va : Nat} {d : Page} {perm : Perm}

/-- Tables for the same addresses, and as many free pages. -/
structure SameTables (v w : Vm) : Prop where
  mid : ∀ i, i ∈ v.pt.mid ↔ i ∈ w.pt.mid
  low : ∀ i, i ∈ v.pt.low ↔ i ∈ w.pt.low
  free : v.mem.free.length = w.mem.free.length

theorem kalloc_rel {m m' : Mem} (h : m.free.length = m'.free.length) :
    Option.Rel (fun r s => r.2.free.length = s.2.free.length) m.kalloc m'.kalloc := by
  rw [Mem.kalloc, Mem.kalloc]
  cases hm : m.free <;> cases hm' : m'.free <;> rw [hm, hm'] at h
  · exact .none
  · cases h
  · cases h
  · exact .some (Nat.succ.inj h)

/-- A table that both have, or that both take a page for. -/
theorem SameTables.table (h : SameTables v w) {P Q : Prop} [Decidable P] [Decidable Q]
    (hPQ : P ↔ Q) {a b : Frame → PageTable}
    (hnew : ∀ f g, (∀ i, i ∈ (a f).mid ↔ i ∈ (b g).mid) ∧ ∀ i, i ∈ (a f).low ↔ i ∈ (b g).low) :
    Option.Rel SameTables (if P then some v else v.mem.kalloc.map fun r => ⟨r.2, a r.1⟩)
      (if Q then some w else w.mem.kalloc.map fun r => ⟨r.2, b r.1⟩) := by
  by_cases hP : P
  · rw [if_pos hP, if_pos (hPQ.mp hP)]
    exact .some h
  · rw [if_neg hP, if_neg (mt hPQ.mpr hP)]
    have hrel := kalloc_rel h.free
    generalize v.mem.kalloc = x at hrel
    generalize w.mem.kalloc = y at hrel
    cases hrel with
    | none => exact .none
    | some hlen => exact .some ⟨(hnew _ _).1, (hnew _ _).2, hlen⟩

theorem mem_addLow {pt : PageTable} {i j : Nat} {f : Frame} :
    i ∈ (pt.addLow j f).low ↔ j / 512 ∈ pt.mid ∧ i = j ∨ i ∈ pt.low := by
  rw [PageTable.addLow]
  split <;> simp_all [AList.mem_insert]

theorem addLow_mid {pt : PageTable} {j : Nat} {f : Frame} : (pt.addLow j f).mid = pt.mid := by
  rw [PageTable.addLow]
  split <;> rfl

theorem walkAlloc_alike (h : SameTables v w) (va : Nat) :
    Alike (fun r s => r.1 = s.1 ∧ SameTables r.2 s.2) (walkAlloc v va) (walkAlloc w va) := by
  have hmid : Option.Rel SameTables (walkMid v va) (walkMid w va) :=
    h.table (h.mid _) fun f g => ⟨fun i => by simp only [PageTable.addMid, AList.mem_insert, h.mid],
      h.low⟩
  rw [walkAlloc, walkAlloc]
  split
  · exact .error _
  · generalize walkMid v va = x at hmid
    generalize walkMid w va = y at hmid
    cases hmid with
    | none => exact .ok ⟨rfl, h⟩
    | @some v₁ w₁ h₁ =>
      have hlow : Option.Rel SameTables (walkLow v₁ va) (walkLow w₁ va) :=
        h₁.table (h₁.low _) fun f g => ⟨fun i => by rw [addLow_mid, addLow_mid, h₁.mid],
          fun i => by rw [mem_addLow, mem_addLow, h₁.mid, h₁.low]⟩
      simp only
      generalize walkLow v₁ va = x at hlow
      generalize walkLow w₁ va = y at hlow
      cases hlow with
      | none => exact .ok ⟨rfl, h₁⟩
      | some h₂ => exact .ok ⟨rfl, h₂⟩

theorem setLeaf_tables {pt : PageTable} {i : Nat} {e : Pte} :
    (pt.setLeaf i e).mid = pt.mid ∧ (pt.setLeaf i e).low = pt.low := by
  rw [PageTable.setLeaf]
  split <;> exact ⟨rfl, rfl⟩

theorem mappages_alike (h : SameTables v w) (hva : va % pgsize = 0)
    (hleaf : vpn va ∈ v.pt.leaf ↔ vpn va ∈ w.pt.leaf) (f g : Frame) :
    Alike (fun r s => r.1 = s.1 ∧ SameTables r.2 s.2) (mappages v va pgsize f perm)
      (mappages w va pgsize g perm) := by
  rw [mappages_one _ hva, mappages_one _ hva]
  refine ((walkAlloc_alike h va).and (walkAlloc_walks v va) (walkAlloc_walks w va)).bind
    fun r s hrs => ?_
  obtain ⟨⟨hok, hs⟩, hr, hw⟩ := hrs
  rw [hok]
  split
  · exact .ok ⟨rfl, hs⟩
  · simp only [hr.leaf, hw.leaf, hleaf]
    split
    · exact .error _
    · refine .ok ⟨rfl, fun i => ?_, fun i => ?_, hs.free⟩
      · rw [setLeaf_tables.1, setLeaf_tables.1, hs.mid]
      · rw [setLeaf_tables.2, setLeaf_tables.2, hs.low]

theorem mapFilled_tables (h : SameTables v w) (hv : v.mem.Sound) (hw : w.mem.Sound)
    (hva : va % pgsize = 0) (hleaf : vpn va ∈ v.pt.leaf ↔ vpn va ∈ w.pt.leaf) :
    Alike (fun r s => r.1.isSome = s.1.isSome ∧ SameTables r.2 s.2) (mapFilled v va d perm)
      (mapFilled w va d perm) := by
  rw [mapFilled, mapFilled]
  have hrel := kalloc_rel h.free
  cases hk : v.mem.kalloc <;> cases hk' : w.mem.kalloc <;> rw [hk, hk'] at hrel <;> cases hrel
  · exact .ok ⟨rfl, h⟩
  · rename_i r s hlen
    obtain ⟨f, m⟩ := r
    obtain ⟨g, m'⟩ := s
    have hf := fetched_of_kalloc hk d
    have hg := fetched_of_kalloc hk' d
    have hfetched : SameTables (v.fetched m f d) (w.fetched m' g d) := ⟨h.mid, h.low, hlen⟩
    refine ((mappages_alike hfetched hva hleaf f g).and (hf.mappages hva perm)
      (hg.mappages hva perm)).bind fun r s hrs => ?_
    obtain ⟨ok, v'⟩ := r
    obtain ⟨ok', w'⟩ := s
    obtain ⟨⟨rfl, hs⟩, hr, hr'⟩ := hrs
    cases ok with
    | true => exact .ok ⟨rfl, hs⟩
    | false =>
      have hvalid := Mem.Valid.of_kend (hv f hf.mem_free) (hr.1.moves.kend.trans hf.kend)
      have hvalid' := Mem.Valid.of_kend (hw g hg.mem_free) (hr'.1.moves.kend.trans hg.kend)
      simp only [Bool.false_eq_true, if_false, kfree_of_valid hvalid, kfree_of_valid hvalid',
        ok_bind]
      exact .ok ⟨rfl, hs.mid, hs.low, congrArg Nat.succ hs.free⟩

end Tables

section Spaces

variable {v w : Vm} {va i : Nat} {d : Page} {perm : Perm} {e e' : Pte}

/-- Two address spaces that the kernel serves alike: the same pages with the same contents, each
in a frame of its own that `kfree` takes from both or from neither. -/
structure Twins (v w : Vm) : Prop extends SameTables v w where
  left : v.Owned
  right : w.Owned
  space : v.space = w.space
  soundLeft : v.mem.Sound
  soundRight : w.mem.Sound
  valid : ∀ i e e', v.pt.leaf.lookup i = some e → w.pt.leaf.lookup i = some e' →
    (v.mem.Valid e.frame ↔ w.mem.Valid e'.frame)

namespace Twins

section

variable (h : Twins v w)
include h

theorem entry (i : Nat) : v.pt.leaf.lookup i = none ∧ w.pt.leaf.lookup i = none ∨
      ∃ e e', v.pt.leaf.lookup i = some e ∧ w.pt.leaf.lookup i = some e' ∧
        v.mem.page e.frame = w.mem.page e'.frame ∧ e.perm = e'.perm := by
  have hi := congrFun h.space i
  rw [Vm.space, Vm.space] at hi
  cases he : v.pt.leaf.lookup i with
  | none =>
    rw [he] at hi
    exact .inl ⟨rfl, map_eq_none_iff.mp hi.symm⟩
  | some e =>
    rw [he, map_some] at hi
    obtain ⟨e', he', heq⟩ := map_eq_some_iff.mp hi.symm
    exact .inr ⟨e, e', rfl, he', (Prod.mk.inj heq).1.symm, (Prod.mk.inj heq).2.symm⟩

theorem mem_leaf (i : Nat) : i ∈ v.pt.leaf ↔ i ∈ w.pt.leaf := by
  rw [← AList.lookup_isSome, ← AList.lookup_isSome]
  obtain ⟨hv, hw⟩ | ⟨e, e', hv, hw, -⟩ := h.entry i <;> simp [hv, hw]

theorem setPage (he : v.pt.leaf.lookup i = some e)
    (he' : w.pt.leaf.lookup i = some e') (hperm : e.perm = e'.perm) (d : Page) :
    Twins { v with mem := v.mem.setPage e.frame d } { w with mem := w.mem.setPage e'.frame d } where
  toSameTables := ⟨h.mid, h.low, h.free⟩
  left := (setPage_moves (mem_frames_of_lookup he) d).owned h.left
  right := (setPage_moves (mem_frames_of_lookup he') d).owned h.right
  space := by rw [setPage_space h.left he, setPage_space h.right he', h.space, hperm]
  soundLeft := h.soundLeft
  soundRight := h.soundRight
  valid := h.valid

theorem mapFilled (hva : va % pgsize = 0) :
    Alike (fun r s => r.1.isSome = s.1.isSome ∧ Twins r.2 s.2) (mapFilled v va d perm)
      (mapFilled w va d perm) := by
  refine ((mapFilled_tables h.toSameTables h.soundLeft h.soundRight hva (h.mem_leaf _)).and
    (mapFilled_spec h.left hva d perm) (mapFilled_spec h.right hva d perm)).imp fun r s hrs => ?_
  obtain ⟨⟨hsome, htables⟩, hr, hs⟩ := hrs
  have hvalid : ∀ {f g}, (v.mem.Valid f ↔ w.mem.Valid g) →
      (r.2.mem.Valid f ↔ s.2.mem.Valid g) := by
    intro f g
    rw [Mem.Valid, Mem.Valid, Mem.Valid, Mem.Valid, hr.moves.kend, hs.moves.kend]
    exact id
  have hsound : ∀ f ∈ r.2.mem.free, r.2.mem.Valid f := fun f hf =>
    Mem.Valid.of_kend (h.soundLeft f (hr.free f hf)) hr.moves.kend
  have hsound' : ∀ g ∈ s.2.mem.free, s.2.mem.Valid g := fun g hg =>
    Mem.Valid.of_kend (h.soundRight g (hs.free g hg)) hs.moves.kend
  refine ⟨hsome, htables, hr.moves.owned h.left, hs.moves.owned h.right, ?_, hsound, hsound',
    fun i e e' he he' => hvalid ?_⟩ <;> cases ho : r.1 <;> cases ho' : s.1 <;>
    rw [ho, ho'] at hsome <;> cases hsome
  · rw [(hr.failed ho).2, (hs.failed ho').2, h.space]
  · rw [(hr.mapped _ ho).2.2.2.2, (hs.mapped _ ho').2.2.2.2, h.space]
  · rw [(hr.failed ho).1] at he
    rw [(hs.failed ho').1] at he'
    exact h.valid i e e' he he'
  · obtain ⟨hf, -, -, hleaf, -⟩ := hr.mapped _ ho
    obtain ⟨hg, -, -, hleaf', -⟩ := hs.mapped _ ho'
    rw [hleaf] at he
    rw [hleaf'] at he'
    by_cases hi : i = vpn va
    · rw [hi, AList.lookup_insert] at he he'
      obtain rfl := some.inj he
      obtain rfl := some.inj he'
      exact iff_of_true (h.soundLeft _ hf) (h.soundRight _ hg)
    · rw [AList.lookup_insert_ne hi] at he he'
      exact h.valid i e e' he he'

theorem unmapPage (a : Nat) : Alike Twins (unmapPage true v a) (unmapPage true w a) := by
  rw [Memory.unmapPage, Memory.unmapPage, PageTable.walk, PageTable.walk]
  split
  · exact .error _
  · rw [ok_bind, ok_bind]
    obtain ⟨he, he'⟩ | ⟨e, e', he, he', -⟩ := h.entry (vpn a)
    · rw [he, he']
      exact .ok h
    · rw [he, he']
      have hvalid := h.valid _ e e' he he'
      simp only [unmapPte, freeIf, if_true]
      by_cases hv : v.mem.Valid e.frame
      · have hk := kfree_of_valid hv
        have hk' := kfree_of_valid (hvalid.mp hv)
        have hu := unmaps_erase he hk
        have hu' := unmaps_erase he' hk'
        rw [hk, hk', ok_bind, ok_bind]
        refine .ok ⟨⟨h.mid, h.low, congrArg Nat.succ h.free⟩, hu.moves.owned h.left,
          hu'.moves.owned h.right, ?_, List.forall_mem_cons.mpr ⟨hv, h.soundLeft⟩,
          List.forall_mem_cons.mpr ⟨hvalid.mp hv, h.soundRight⟩, fun i e₁ e₂ he₁ he₂ => ?_⟩
        · funext i
          rw [(hu.drops h.left).space, (hu'.drops h.right).space, h.space]
        · rw [hu.leaf, ite_none_left_eq_some] at he₁
          rw [hu'.leaf, ite_none_left_eq_some] at he₂
          exact h.valid i e₁ e₂ he₁.2 he₂.2
      · have hbad : ∀ {m : Mem} {f : Frame}, ¬m.Valid f → m.kfree f = .error "kfree" := fun h =>
          if_pos (by rwa [Mem.Valid, not_and_or, Nat.not_le, Nat.not_lt] at h)
        rw [hbad hv, hbad (mt hvalid.mpr hv)]
        exact .error _

theorem uvmunmap (va npages : Nat) :
    Alike Twins (uvmunmap v va npages true) (uvmunmap w va npages true) := by
  rw [Memory.uvmunmap, Memory.uvmunmap]
  split
  · exact .error _
  · exact .foldlM h fun a _ v w h => h.unmapPage a

theorem uvmdealloc (oldsz newsz : Nat) :
    Alike (fun r s => r.1 = s.1 ∧ Twins r.2 s.2) (uvmdealloc v oldsz newsz)
      (uvmdealloc w oldsz newsz) := by
  rw [Memory.uvmdealloc, Memory.uvmdealloc]
  split
  · exact .ok ⟨rfl, h⟩
  · split
    · exact (h.uvmunmap _ _).bind fun _ _ h => .ok ⟨rfl, h⟩
    · exact .ok ⟨rfl, h⟩

end

theorem allocLoop (oldsz : Nat) (as : List Nat) (has : ∀ a ∈ as, a % pgsize = 0) :
    ∀ {v w : Vm}, Twins v w → Alike (fun r s => r.1 = s.1 ∧ Twins r.2 s.2)
      (allocLoop perm oldsz as v) (allocLoop perm oldsz as w) := by
  induction as with
  | nil => exact fun h => .ok ⟨rfl, h⟩
  | cons a rest ih =>
    intro v w h
    rw [allocLoop_cons, allocLoop_cons]
    refine (h.mapFilled (has a List.mem_cons_self)).bind fun r s hrs => ?_
    rw [hrs.1]
    split
    · exact ih (fun b hb => has b (List.mem_cons_of_mem a hb)) hrs.2
    · exact (hrs.2.uvmdealloc _ _).bind fun _ _ h => .ok ⟨rfl, h.2⟩

section

variable (h : Twins v w)
include h

theorem uvmalloc (oldsz newsz : Nat) (wr ex : Bool) :
    Alike (fun r s => r.1 = s.1 ∧ Twins r.2 s.2) (uvmalloc v oldsz newsz wr ex)
      (uvmalloc w oldsz newsz wr ex) := by
  rw [Memory.uvmalloc, Memory.uvmalloc]
  split
  · exact .ok ⟨rfl, h⟩
  · refine (allocLoop _ _ (pages_aligned (pgroundup_mod oldsz)) h).bind fun r s hrs => ?_
    exact .ok ⟨by rw [hrs.1], hrs.2⟩

theorem ismapped (va : Nat) : ismapped v.pt va = ismapped w.pt va := by
  rw [Memory.ismapped, Memory.ismapped, PageTable.walk, PageTable.walk]
  split
  · rfl
  · obtain ⟨he, he'⟩ | ⟨e, e', he, he', -⟩ := h.entry (vpn va) <;> simp [he, he', Except.map]

theorem vmfault (sz va : Nat) :
    Alike (fun r s => r.1.isSome = s.1.isSome ∧ Twins r.2 s.2) (vmfault v sz va)
      (vmfault w sz va) := by
  rw [Memory.vmfault, Memory.vmfault, h.ismapped]
  split
  · exact .ok ⟨rfl, h⟩
  · refine (Alike.refl _).bind fun mapped _ heq => ?_
    rw [← heq]
    split
    · exact .ok ⟨rfl, h⟩
    · exact h.mapFilled (pgrounddown_mod va)

theorem loadPte (va : Nat) : loadPte v.pt va = none ∧ loadPte w.pt va = none ∨
      ∃ e e', loadPte v.pt va = some e ∧ loadPte w.pt va = some e' ∧
        v.pt.leaf.lookup (vpn va) = some e ∧ w.pt.leaf.lookup (vpn va) = some e' ∧
        v.mem.page e.frame = w.mem.page e'.frame ∧ e.perm = e'.perm := by
  rw [Memory.loadPte, Memory.loadPte]
  split
  · exact .inl ⟨rfl, rfl⟩
  · obtain ⟨he, he'⟩ | ⟨e, e', he, he', hpage, hperm⟩ := h.entry (vpn va) <;> rw [he, he']
    · exact .inl ⟨rfl, rfl⟩
    · rw [filter_some, filter_some, hperm]
      split
      · exact .inr ⟨e, e', rfl, rfl, rfl, rfl, hpage, hperm⟩
      · exact .inl ⟨rfl, rfl⟩

theorem loadByte (va : Nat) : loadByte v va = loadByte w va := by
  rw [Memory.loadByte, Memory.loadByte]
  obtain ⟨hl, hr⟩ | ⟨e, e', hl, hr, -, -, hpage, -⟩ := h.loadPte va <;> rw [hl, hr]
  · rfl
  · rw [map_some, map_some, hpage]

theorem storeByte (va : Nat) (b : UInt8) :
    Option.Rel Twins (storeByte v va b) (storeByte w va b) := by
  rw [Memory.storeByte, Memory.storeByte, storePte, storePte]
  obtain ⟨hl, hr⟩ | ⟨e, e', hl, hr, he, he', hpage, hperm⟩ := h.loadPte va <;> rw [hl, hr]
  · exact .none
  · rw [filter_some, filter_some, hperm]
    split
    · rw [map_some, map_some, hpage]
      exact .some (h.setPage he he' hperm _)
    · exact .none

end

end Twins

end Spaces

end EafitOs.Memory
