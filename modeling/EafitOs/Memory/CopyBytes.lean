import EafitOs.Foundation.Spans
import EafitOs.Memory.CallEffects

/-!
# The bytes `copyin`, `copyout` and `copyinstr` move

A process sees a sequence of bytes: those of its user pages, and zeros where a page below
its size has not been allocated yet. `copyout` splices the source into that sequence,
`copyin` and `copyinstr` read spans of it, and allocating a page on the way changes nothing.
-/

namespace EafitOs.Memory

open Foundation Function List Option AList

/-- The byte a process of size `sz` sees at an address, if the kernel lets it see one there. -/
def Vm.userByte (v : Vm) (sz a : Nat) : Option UInt8 :=
  if maxva ≤ a then none
  else
    match v.pt.leaf.lookup (vpn a) with
    | some e => if e.perm.u then some (v.mem.page e.frame (pageOffset a)) else none
    | none => if vpn a * pgsize < sz then some 0 else none

section Views

variable {v v' v'' : Vm} {sz a x : Nat} {e : Pte}

theorem userByte_of_lookup (hmax : a < maxva) (he : v.pt.leaf.lookup (vpn a) = some e)
    (hu : e.perm.u = true) : v.userByte sz a = some (v.mem.page e.frame (pageOffset a)) := by
  simp only [Vm.userByte, if_neg (Nat.not_le.mpr hmax), he, if_pos hu]

theorem userByte_missing (hmax : a < maxva) (he : vpn a ∉ v.pt.leaf) :
    v.userByte sz a = if vpn a * pgsize < sz then some 0 else none := by
  simp only [Vm.userByte, if_neg (Nat.not_le.mpr hmax), lookup_eq_none.mpr he]

/-- What a look at user memory leaves: pages that were there are as they were, and new ones
are zeroed pages of the heap. -/
structure SameBytes (sz : Nat) (v v' : Vm) : Prop where
  moves : Moves v v'
  free : ∀ f ∈ v'.mem.free, f ∈ v.mem.free
  kept : ∀ n e, v.pt.leaf.lookup n = some e →
    v'.pt.leaf.lookup n = some e ∧ v'.mem.page e.frame = v.mem.page e.frame
  new : ∀ n e, v'.pt.leaf.lookup n = some e → v.pt.leaf.lookup n = some e ∨
    n ∉ v.pt.leaf ∧ n * pgsize < sz ∧ e.perm = .heap ∧ v'.mem.page e.frame = memset 0

namespace SameBytes

theorem refl (sz : Nat) (v : Vm) : SameBytes sz v v :=
  ⟨.refl v, fun _ => id, fun _ _ he => ⟨he, rfl⟩, fun _ _ => Or.inl⟩

theorem missing (h : SameBytes sz v v') {n : Nat} (hn : n ∉ v'.pt.leaf) :
    n ∉ v.pt.leaf := by
  intro hmem
  obtain ⟨e, he⟩ := isSome_iff_exists.mp (lookup_isSome.mpr hmem)
  exact hn (lookup_isSome.mp (by rw [(h.kept n e he).1]; rfl))

theorem trans (h : SameBytes sz v v') (h' : SameBytes sz v' v'') : SameBytes sz v v'' := by
  refine ⟨h.moves.trans h'.moves, fun f hf => h.free f (h'.free f hf), fun n e he => ?_,
    fun n e he => ?_⟩
  · obtain ⟨he', hpage⟩ := h.kept n e he
    obtain ⟨he'', hpage'⟩ := h'.kept n e he'
    exact ⟨he'', hpage'.trans hpage⟩
  · rcases h'.new n e he with he' | ⟨hnot, hlt, hperm, hzero⟩
    · rcases h.new n e he' with hold | ⟨hnot, hlt, hperm, hzero⟩
      · exact Or.inl hold
      · exact Or.inr ⟨hnot, hlt, hperm, (h'.kept n e he').2.trans hzero⟩
    · exact Or.inr ⟨h.missing hnot, hlt, hperm, hzero⟩

theorem sound (h : SameBytes sz v v') (hsound : v.mem.Sound) : v'.mem.Sound := fun f hf =>
  Mem.Valid.of_kend (hsound f (h.free f hf)) h.moves.kend

theorem userByte (h : SameBytes sz v v') (a : Nat) : v'.userByte sz a = v.userByte sz a := by
  by_cases hmax : maxva ≤ a
  · rw [Vm.userByte, Vm.userByte, if_pos hmax, if_pos hmax]
  · cases he : v.pt.leaf.lookup (vpn a) with
    | some e =>
      obtain ⟨he', hpage⟩ := h.kept _ e he
      simp only [Vm.userByte, he, he', hpage]
    | none =>
      rw [userByte_missing (Nat.not_le.mp hmax) (lookup_eq_none.mp he)]
      cases he' : v'.pt.leaf.lookup (vpn a) with
      | none => rw [userByte_missing (Nat.not_le.mp hmax) (lookup_eq_none.mp he')]
      | some e =>
        rcases h.new _ e he' with hold | ⟨-, hlt, hperm, hzero⟩
        · rw [he] at hold
          cases hold
        · rw [userByte_of_lookup (Nat.not_le.mp hmax) he' (by rw [hperm]; rfl), hzero, if_pos hlt]
          rfl

end SameBytes

theorem Filled.sameBytes {n : Nat} {r : Option Frame × Vm}
    (h : Filled v (n * pgsize) (memset 0) .heap r) (hlt : n * pgsize < sz) :
    SameBytes sz v r.2 := by
  have hspace : ∀ (k : Nat) (e : Pte), r.2.pt.leaf.lookup k = some e →
      r.2.space k = some (r.2.mem.page e.frame, e.perm) := fun k e he => by
    rw [Vm.space, he, map_some]
  obtain ⟨o, w⟩ := r
  cases o with
  | none =>
    obtain ⟨hleaf, hsame⟩ := h.failed rfl
    have hleaf : w.pt.leaf = v.pt.leaf := hleaf
    refine ⟨h.moves, h.free, fun k e he => ?_, fun k e he => Or.inl (hleaf ▸ he)⟩
    have he' : w.pt.leaf.lookup k = some e := by rw [hleaf, he]
    have hpage := hspace k e he'
    rw [hsame, Vm.space, he, map_some] at hpage
    exact ⟨he', (Prod.mk.inj (some.inj hpage)).1.symm⟩
  | some f =>
    obtain ⟨-, hnot, -, hleaf, hsame⟩ := h.mapped f rfl
    rw [vpn_mul] at hnot hleaf hsame
    have hleaf : w.pt.leaf = v.pt.leaf.insert n ⟨f, .heap⟩ := hleaf
    refine ⟨h.moves, h.free, fun k e he => ?_, fun k e he => ?_⟩
    · have hne : k ≠ n := by
        rintro rfl
        exact hnot (lookup_isSome.mp (by rw [he]; rfl))
      have he' : w.pt.leaf.lookup k = some e := by rw [hleaf, lookup_insert_ne hne, he]
      have hpage := hspace k e he'
      rw [hsame, update_of_ne hne, Vm.space, he, map_some] at hpage
      exact ⟨he', (Prod.mk.inj (some.inj hpage)).1.symm⟩
    · by_cases hk : k = n
      · subst hk
        have hpage := hspace k e he
        rw [hsame, update_self] at hpage
        obtain ⟨hzero, hperm⟩ := Prod.mk.inj (some.inj hpage)
        exact Or.inr ⟨hnot, hlt, hperm.symm, hzero.symm⟩
      · have he : w.pt.leaf.lookup k = some e := he
        rw [hleaf, lookup_insert_ne hk] at he
        exact Or.inl he

end Views

section Pages

variable {v v' : Vm} {sz a : Nat}

/-- There is no memory left to map the page at an address. -/
def Vm.OutOfMemory (v : Vm) (a : Nat) : Prop := v.mem.free = [] ∨ v.Exhausted a

def Vm.Refuses (v : Vm) (sz a : Nat) (v' : Vm) : Prop :=
  v.userByte sz a = none ∨ vpn a ∉ v.pt.leaf ∧ v'.OutOfMemory (pgrounddown a)

structure Reaches (sz a : Nat) (v : Vm) (r : Option Frame × Vm) : Prop where
  same : SameBytes sz v r.2
  found : ∀ f, r.1 = some f → a < maxva ∧ ∃ e, r.2.pt.leaf.lookup (vpn a) = some e ∧
    e.frame = f ∧ e.perm.u = true
  refused : r.1 = none → v.Refuses sz a r.2

theorem lt_maxva_of_vpn (h : pgrounddown a < maxva) : a < maxva := by
  simp only [pgrounddown, maxva, pgsize] at h ⊢
  omega

theorem walkaddr_pgrounddown (pt : PageTable) (hmax : pgrounddown a < maxva) :
    pt.walkaddr (pgrounddown a) =
      (pt.leaf.lookup (vpn a)).bind fun e => if e.perm.u then some e.frame else none := by
  rw [PageTable.walkaddr, if_neg (Nat.not_le.mpr hmax), vpn_pgrounddown]
  cases pt.leaf.lookup (vpn a) <;> rfl

theorem vmfault_pgrounddown (v : Vm) (hmax : pgrounddown a < maxva) :
    vmfault v sz (pgrounddown a) = if vpn a ∈ v.pt.leaf ∨ sz ≤ pgrounddown a then .ok (none, v)
      else mapFilled v (pgrounddown a) (memset 0) .heap := by
  rw [vmfault, pgrounddown_of_aligned (pgrounddown_mod a)]
  by_cases hsz : sz ≤ pgrounddown a
  · rw [if_pos hsz, if_pos (Or.inr hsz)]
  · rw [if_neg hsz]
    by_cases hpage : vpn a ∈ v.pt.leaf
    · rw [if_pos (Or.inl hpage), ismapped, PageTable.walk, if_neg (Nat.not_le.mpr hmax),
        vpn_pgrounddown]
      obtain ⟨e, he⟩ := isSome_iff_exists.mp (lookup_isSome.mpr hpage)
      rw [he]
      rfl
    · rw [if_neg (not_or.mpr ⟨hpage, hsz⟩), ismapped_missing hpage hmax]
      rfl

theorem mapFilled_reaches (hv : v.Owned) (hsound : v.mem.Sound) (hmax : pgrounddown a < maxva)
    (hpage : vpn a ∉ v.pt.leaf) (hlt : pgrounddown a < sz) :
    Ends (mapFilled v (pgrounddown a) (memset 0) .heap) (Reaches sz a v) fun _ => False := by
  have hmissing : vpn (pgrounddown a) ∉ v.pt.leaf := (vpn_pgrounddown a).symm ▸ hpage
  obtain ⟨r, hr, -⟩ :=
    mapFilled_missing (memset 0) .heap (pgrounddown_mod a) hmax hsound hmissing
  have hfill := (mapFilled_spec hv (pgrounddown_mod a) (memset 0) .heap).of_eq_ok hr
  have hout := (mapFilled_exhausts (pgrounddown_mod a)).of_eq_ok hr
  rw [hr]
  refine .ok ⟨hfill.sameBytes hlt, fun f hf => ?_, fun h => Or.inr ?_⟩
  · obtain ⟨-, -, -, hleaf, -⟩ := hfill.mapped f hf
    refine ⟨lt_maxva_of_vpn hmax, ⟨f, .heap⟩, ?_, rfl, rfl⟩
    rw [hleaf, vpn_pgrounddown, lookup_insert]
  · rcases hout h with ⟨hfree, hr⟩ | hex
    · exact ⟨hpage, Or.inl (hr ▸ hfree)⟩
    · exact ⟨hpage, Or.inr hex⟩

theorem userFrame_reaches (hv : v.Owned) (hsound : v.mem.Sound) (hsz : sz ≤ maxva) (a : Nat) :
    Ends (userFrame v sz (pgrounddown a)) (Reaches sz a v) fun _ => False := by
  have hrefuse : v.userByte sz a = none → Reaches sz a v (none, v) := fun h =>
    ⟨.refl sz v, fun f hf => (by cases hf), fun _ => Or.inl h⟩
  rw [userFrame]
  by_cases hmax : pgrounddown a < maxva
  · rw [walkaddr_pgrounddown _ hmax, vmfault_pgrounddown _ hmax]
    cases he : v.pt.leaf.lookup (vpn a) with
    | some e =>
      have hpage : vpn a ∈ v.pt.leaf := lookup_isSome.mp (by rw [he]; rfl)
      simp only [bind_some, if_pos (Or.inl hpage : vpn a ∈ v.pt.leaf ∨ sz ≤ pgrounddown a)]
      by_cases hu : e.perm.u = true
      · rw [if_pos hu]
        refine .ok ⟨.refl sz v, fun f hf => ⟨lt_maxva_of_vpn hmax, e, he, some.inj hf, hu⟩,
          fun h => ?_⟩
        cases h
      · rw [if_neg hu]
        refine .ok (hrefuse ?_)
        simp only [Vm.userByte, he, if_neg hu, ite_self]
    | none =>
      have hpage : vpn a ∉ v.pt.leaf := lookup_eq_none.mp he
      simp only [bind_none, hpage, false_or]
      split
      · rename_i hle
        refine .ok (hrefuse ?_)
        rw [userByte_missing (lt_maxva_of_vpn hmax) hpage]
        exact if_neg (Nat.not_lt.mpr hle)
      · rename_i hlt
        exact mapFilled_reaches hv hsound hmax hpage (Nat.not_le.mp hlt)
  · have hbeyond : maxva ≤ pgrounddown a := Nat.not_lt.mp hmax
    have haddr : v.pt.walkaddr (pgrounddown a) = none := by
      rw [PageTable.walkaddr, if_pos hbeyond]
    rw [haddr, vmfault]
    simp only [if_pos (hsz.trans hbeyond)]
    refine .ok (hrefuse ?_)
    rw [Vm.userByte, if_pos (hbeyond.trans (Nat.div_mul_le_self a pgsize))]

theorem Vm.Refuses.of_sameBytes {w : Vm} (h : w.Refuses sz a v') (hsame : SameBytes sz v w) :
    v.Refuses sz a v' := by
  rcases h with hnone | ⟨hpage, hout⟩
  · exact Or.inl ((hsame.userByte a).symm.trans hnone)
  · exact Or.inr ⟨hsame.missing hpage, hout⟩

end Pages

section Chunks

variable {v : Vm} {sz a x n : Nat} {e : Pte}

theorem sub_pgrounddown (a : Nat) : a - pgrounddown a = a % pgsize := by
  simp only [pgrounddown, pgsize]
  omega

theorem vpn_of_chunk (hfit : a % pgsize + n ≤ pgsize) (hx : a ≤ x) (hlt : x < a + n) :
    vpn x = vpn a := by
  simp only [vpn, pgsize] at hfit ⊢
  omega

theorem next_chunk {len : Nat} (hmax : a < maxva) (hn : n = min (pgsize - a % pgsize) len)
    (hmore : len - n ≠ 0) : (pgrounddown a + pgsize) % 2 ^ 64 = a + n := by
  simp only [pgrounddown, maxva, pgsize] at hmax hn ⊢
  omega

theorem slice_eq_span (hmax : a < maxva) (he : v.pt.leaf.lookup (vpn a) = some e)
    (hu : e.perm.u = true) (hfit : a % pgsize + n ≤ pgsize) :
    ((v.mem.page e.frame).slice (a % pgsize) n).map some = span (v.userByte sz) a n := by
  refine ext_getElem? fun j => ?_
  rw [getElem?_span, List.getElem?_map, Page.slice, List.getElem?_take, List.getElem?_drop,
    List.getElem?_ofFn]
  split
  · rename_i hj
    have hpage : vpn (a + j) = vpn a := vpn_of_chunk hfit (by omega) (by omega)
    have hlt : a + j < maxva := by
      simp only [vpn, maxva, pgsize] at hmax hpage ⊢
      omega
    have hoff : a % pgsize + j = (a + j) % pgsize := by
      simp only [pgsize] at hfit ⊢
      omega
    rw [dif_pos (by omega), userByte_of_lookup hlt (by rw [hpage]; exact he) hu, map_some]
    refine congrArg (some ∘ some) (congrArg (v.mem.page e.frame) (Fin.ext ?_))
    exact hoff
  · rfl

end Chunks

section CopyIn

variable {sz : Nat}

end CopyIn

section CopyOut

variable {sz a : Nat} {v v' v'' : Vm} {bs cs : List UInt8}

/-- What storing `bs` at `a` leaves: the process sees them in place of what was there, on
pages that it may write, and no page that it may not write has changed. -/
structure Stores (sz a : Nat) (bs : List UInt8) (v v' : Vm) : Prop where
  moves : Moves v v'
  free : ∀ f ∈ v'.mem.free, f ∈ v.mem.free
  kept : ∀ n e, v.pt.leaf.lookup n = some e → v'.pt.leaf.lookup n = some e ∧
    (¬(e.perm.u = true ∧ e.perm.w = true) → v'.mem.page e.frame = v.mem.page e.frame)
  bytes : v'.userByte sz = splice (v.userByte sz) a (bs.map some)
  pages : ∀ x, a ≤ x → x < a + bs.length →
    ∃ e, v'.pt.leaf.lookup (vpn x) = some e ∧ e.perm.u = true ∧ e.perm.w = true

theorem SameBytes.stores (h : SameBytes sz v v') (a : Nat) : Stores sz a [] v v' where
  moves := h.moves
  free := h.free
  kept n e he := ⟨(h.kept n e he).1, fun _ => (h.kept n e he).2⟩
  bytes := by
    rw [map_nil, splice_nil]
    exact funext h.userByte
  pages x hx hlt := by
    rw [length_nil] at hlt
    omega

theorem Stores.append (h : Stores sz a bs v v') (h' : Stores sz (a + bs.length) cs v' v'') :
    Stores sz a (bs ++ cs) v v'' where
  moves := h.moves.trans h'.moves
  free f hf := h.free f (h'.free f hf)
  kept n e he := by
    obtain ⟨he', hpage⟩ := h.kept n e he
    obtain ⟨he'', hpage'⟩ := h'.kept n e he'
    exact ⟨he'', fun hperm => (hpage' hperm).trans (hpage hperm)⟩
  bytes := by
    rw [h'.bytes, h.bytes, map_append, ← splice_append, length_map]
  pages x hx hlt := by
    by_cases hin : x < a + bs.length
    · obtain ⟨e, he, hperm⟩ := h.pages x hx hin
      exact ⟨e, (h'.kept _ e he).1, hperm⟩
    · rw [length_append] at hlt
      exact h'.pages x (by omega) (by omega)

theorem Stores.of_nil {b : Nat} (h : Stores sz a [] v v') : Stores sz b [] v v' := by
  have hbytes := h.bytes
  rw [map_nil, splice_nil] at hbytes
  refine ⟨h.moves, h.free, h.kept, by rw [map_nil, splice_nil, hbytes], fun x hx hlt => ?_⟩
  rw [length_nil] at hlt
  omega

theorem stores_chunk {e : Pte} (hv : v.Owned) (hmax : a < maxva)
    (he : v.pt.leaf.lookup (vpn a) = some e) (hu : e.perm.u = true) (hw : e.perm.w = true)
    (hfit : a % pgsize + bs.length ≤ pgsize) :
    Stores sz a bs v
      { v with mem := v.mem.setPage e.frame ((v.mem.page e.frame).overlay (a % pgsize) bs) } := by
  have hother : ∀ (n : Nat) (e' : Pte), v.pt.leaf.lookup n = some e' → n ≠ vpn a →
      (v.mem.setPage e.frame ((v.mem.page e.frame).overlay (a % pgsize) bs)).page e'.frame =
        v.mem.page e'.frame := by
    intro n e' he' hne
    exact update_of_ne (fun heq => hne (hv.inj he' he heq)) _ _
  refine ⟨setPage_moves (mem_frames_of_lookup he) _, fun _ => id, fun n e' he' => ⟨he', ?_⟩, ?_,
    fun x hx hlt => ?_⟩
  · intro hperm
    refine hother n e' he' fun hn => hperm ?_
    obtain rfl : e = e' := some.inj (he.symm.trans (hn ▸ he'))
    exact ⟨hu, hw⟩
  · funext x
    by_cases hpage : vpn x = vpn a
    · have hlt : x < maxva := by
        simp only [vpn, maxva, pgsize] at hmax hpage ⊢
        omega
      have hx : v.pt.leaf.lookup (vpn x) = some e := by rw [hpage, he]
      have hbyte : ∀ d : Page, Vm.userByte ⟨v.mem.setPage e.frame d, v.pt⟩ sz x =
          some (d (pageOffset x)) := fun d => by
        rw [userByte_of_lookup (v := ⟨v.mem.setPage e.frame d, v.pt⟩) hlt hx hu]
        simp only [Mem.setPage, update_self]
      simp only [hbyte, Page.overlay]
      split
      · rename_i hin
        have hin' : a ≤ x ∧ x - a < bs.length ∧ x % pgsize - a % pgsize = x - a := by
          simp only [pageOffset, vpn, pgsize] at hin hpage ⊢
          omega
        have hget : (bs.map some)[x - a]? = some (some (bs.getD (x - a) 0)) := by
          rw [List.getElem?_map, List.getElem?_eq_getElem hin'.2.1, map_some,
            getD_eq_getElem?_getD, List.getElem?_eq_getElem hin'.2.1, getD_some]
        rw [splice_inside hin'.1 hget]
        exact congrArg (fun j => some (bs.getD j 0)) hin'.2.2
      · rename_i hout
        rw [splice_outside, userByte_of_lookup hlt hx hu]
        rw [length_map]
        simp only [pageOffset, vpn, pgsize] at hout hpage ⊢
        omega
    · have hout : x < a ∨ a + (bs.map some).length ≤ x := by
        rw [length_map]
        by_contra hin
        exact hpage (vpn_of_chunk hfit (by omega) (by omega))
      rw [splice_outside hout, Vm.userByte, Vm.userByte]
      split
      · rfl
      · cases hx : v.pt.leaf.lookup (vpn x) with
        | none => rfl
        | some e' => simp only [hother _ e' hx hpage]
  · refine ⟨e, ?_, hu, hw⟩
    rw [vpn_of_chunk hfit hx hlt]
    exact he

/-- By induction on the chunks. A copy that fails has stored those before. -/
theorem copyoutLoop_stores (hsz : sz ≤ maxva) (fuel : Nat) : ∀ {v : Vm} {a : Nat}
    (src : List UInt8), v.Owned → v.mem.Sound → src.length ≤ fuel →
    Ends (copyoutLoop sz fuel v a src) (fun r => ∃ k, Stores sz a (src.take k) v r.2 ∧
      (r.1 = true → src.length ≤ k)) fun _ => False := by
  induction fuel with
  | zero =>
    intro v a src _ _ hlen
    obtain rfl : src = [] := length_eq_zero_iff.mp (Nat.le_zero.mp hlen)
    exact .ok ⟨0, (SameBytes.refl sz v).stores a, fun _ => le_rfl⟩
  | succ fuel ih =>
    intro v a src hv hsound hlen
    rw [copyoutLoop]
    split
    · rename_i hnil
      subst hnil
      exact .ok ⟨0, (SameBytes.refl sz v).stores a, fun _ => le_rfl⟩
    · rename_i hne
      split
      · refine .ok ⟨0, ?_, fun h => by cases h⟩
        rw [take_zero]
        exact (SameBytes.refl sz v).stores a
      · refine (userFrame_reaches hv hsound hsz a).bind fun r hr => ?_
        obtain ⟨o, w⟩ := r
        have hfail : Stores sz a (src.take 0) v w := hr.same.stores a
        cases o with
        | none => exact .ok ⟨0, hfail, fun h => by cases h⟩
        | some f =>
          obtain ⟨hmax, e, he, rfl, hu⟩ := hr.found f rfl
          have he : w.pt.leaf.lookup (vpn a) = some e := he
          simp only
          split
          · rename_i hwrite
            have hw : e.perm.w = true := by
              rw [writablePte, vpn_pgrounddown, he] at hwrite
              exact hwrite
            have hmod : a % pgsize < pgsize := Nat.mod_lt _ (by decide)
            have hpos : 0 < src.length := length_pos_iff.mpr hne
            simp only [sub_pgrounddown]
            obtain ⟨n, hn⟩ : ∃ n, n = min (pgsize - a % pgsize) src.length := ⟨_, rfl⟩
            rw [← hn]
            have hlength : (src.take n).length = n := by
              rw [length_take]
              omega
            have hchunk : Stores sz a (src.take n) w _ := stores_chunk
              (hr.same.moves.owned hv) hmax he hu hw (by rw [hlength]; omega)
            have hstep : Stores sz a (src.take n) v _ := (hr.same.stores a).append hchunk
            refine (ih _ (hstep.moves.owned hv) (fun g hg => Mem.Valid.of_kend
              (hsound g (hstep.free g hg)) hstep.moves.kend) (by
                rw [length_drop]; omega)).imp fun s hs => ?_
            obtain ⟨k, hk, hall⟩ := hs
            refine ⟨n + k, ?_, fun hok => ?_⟩
            · rw [take_add]
              refine hstep.append ?_
              rw [hlength]
              rcases Nat.eq_zero_or_pos (src.length - n) with hzero | hmore
              · have hnil : (src.drop n).take k = [] := by
                  rw [drop_of_length_le (by omega), take_nil]
                rw [hnil] at hk ⊢
                exact hk.of_nil
              · rwa [next_chunk hmax hn (by omega)] at hk
            · have := hall hok
              rw [length_drop] at this
              omega
          · exact .ok ⟨0, hfail, fun h => by cases h⟩

end CopyOut

section Exact

variable {v : Vm} {sz : Nat}

theorem lt_maxva_of_userByte {x : Nat} (h : v.userByte sz x ≠ none) : x < maxva := by
  by_contra hle
  rw [Vm.userByte, if_pos (Nat.not_lt.mp hle)] at h
  exact h rfl

end Exact

section Strings

variable {sz : Nat}

/-- A string that ends with the byte at `a + i` begins at `a`. -/
def StringAt (g : Nat → Option UInt8) (a i : Nat) : Prop :=
  g (a + i) = some 0 ∧ ∀ j < i, ∃ b, g (a + j) = some b ∧ b ≠ 0

theorem takeWhile_nul {bs : List UInt8} (h : 0 ∈ bs) : ∃ i < bs.length,
    bs.takeWhile (· ≠ 0) ++ [0] = bs.take (i + 1) ∧ bs[i]? = some 0 ∧
      ∀ j < i, ∃ b, bs[j]? = some b ∧ b ≠ 0 := by
  induction bs with
  | nil => cases h
  | cons c rest ih =>
    by_cases hc : c = 0
    · subst hc
      exact ⟨0, by simp, by simp, rfl, fun j hj => by omega⟩
    · obtain ⟨i, hi, htake, hzero, hbefore⟩ := ih (mem_of_ne_of_mem (Ne.symm hc) h)
      refine ⟨i + 1, by simpa using hi, ?_, by simpa using hzero, fun j hj => ?_⟩
      · rw [takeWhile_cons_of_pos (by simpa using hc), cons_append, htake,
          take_succ_cons]
      · cases j with
        | zero => exact ⟨c, rfl, hc⟩
        | succ j => simpa using hbefore j (by omega)

structure CopiedStr (sz a max : Nat) (v : Vm) (acc : List UInt8) (r : Bool × List UInt8 × Vm) :
    Prop where
  same : SameBytes sz v r.2.2
  found : r.1 = true → ∃ i < max, StringAt (v.userByte sz) a i ∧
    r.2.1.map some = acc.map some ++ span (v.userByte sz) a (i + 1)
  failed : r.1 = false → ∃ k ≤ max, r.2.1.map some = acc.map some ++ span (v.userByte sz) a k ∧
    (∀ j < k, ∃ b, v.userByte sz (a + j) = some b ∧ b ≠ 0) ∧
    (k < max → v.Refuses sz (a + k) r.2.2)

/-- By induction on the chunks, none of which but the last has a NUL. -/
theorem copyinstrLoop_copies (hsz : sz ≤ maxva) (fuel : Nat) : ∀ {v : Vm} {a max : Nat}
    (acc : List UInt8), v.Owned → v.mem.Sound → max ≤ fuel →
    Ends (copyinstrLoop sz fuel v a max acc) (CopiedStr sz a max v acc) fun _ => False := by
  induction fuel with
  | zero =>
    intro v a max acc _ _ hmax
    obtain rfl : max = 0 := Nat.le_zero.mp hmax
    exact .ok ⟨.refl sz v, fun h => (by cases h), fun _ => ⟨0, le_rfl, by simp,
      fun j hj => by omega, fun h => by omega⟩⟩
  | succ fuel ih =>
    intro v a max acc hv hsound hfuel
    rw [copyinstrLoop]
    split
    · rename_i hzero
      subst hzero
      exact .ok ⟨.refl sz v, fun h => (by cases h), fun _ => ⟨0, le_rfl, by simp,
        fun j hj => by omega, fun h => by omega⟩⟩
    · rename_i hne
      refine (userFrame_reaches hv hsound hsz a).bind fun r hr => ?_
      obtain ⟨o, w⟩ := r
      cases o with
      | none =>
        exact .ok ⟨hr.same, fun h => (by cases h), fun _ => ⟨0, Nat.zero_le _, by simp,
          fun j hj => by omega, fun _ => hr.refused rfl⟩⟩
      | some f =>
        obtain ⟨hbelow, e, he, rfl, hu⟩ := hr.found f rfl
        have he : w.pt.leaf.lookup (vpn a) = some e := he
        have hmod : a % pgsize < pgsize := Nat.mod_lt _ (by decide)
        simp only [sub_pgrounddown]
        obtain ⟨n, hn⟩ : ∃ n, n = min (pgsize - a % pgsize) max := ⟨_, rfl⟩
        rw [← hn]
        have hsame : w.userByte sz = v.userByte sz := funext hr.same.userByte
        have hspan : ((w.mem.page e.frame).slice (a % pgsize) n).map some =
            span (v.userByte sz) a n := by
          rw [← hsame]
          exact slice_eq_span hbelow he hu (by omega)
        generalize (w.mem.page e.frame).slice (a % pgsize) n = bs at hspan
        have hlength : bs.length = n := by
          have heq := congrArg List.length hspan
          rwa [length_map, length_span] at heq
        have hget : ∀ j < n, v.userByte sz (a + j) = bs[j]? := by
          intro j hj
          have heq := getElem?_span (v.userByte sz) a n j
          rw [← hspan, if_pos hj, List.getElem?_map, List.getElem?_eq_getElem (by omega),
            map_some] at heq
          rw [List.getElem?_eq_getElem (by omega)]
          exact (some.inj heq).symm
        split
        · rename_i hnul
          obtain ⟨i, hi, htake, hzero, hbefore⟩ := takeWhile_nul hnul
          refine .ok ⟨hr.same, fun _ => ⟨i, by omega, ⟨(hget i (by omega)).trans hzero,
            fun j hj => ?_⟩, ?_⟩, fun h => by cases h⟩
          · rw [hget j (by omega)]
            exact hbefore j hj
          · rw [append_assoc, htake, map_append, map_take, hspan,
              take_span _ _ (by omega)]
        · rename_i hnul
          have hpart : ∀ j < n, ∃ b, v.userByte sz (a + j) = some b ∧ b ≠ 0 := by
            intro j hj
            have hj' : j < bs.length := by omega
            refine ⟨bs[j], (hget j hj).trans (List.getElem?_eq_getElem hj'), fun h => hnul ?_⟩
            exact h ▸ getElem_mem hj'
          refine (ih _ (hr.same.moves.owned hv) (hr.same.sound hsound) (by omega)).imp
            fun s hs => ⟨hr.same.trans hs.same, fun hok => ?_, fun hok => ?_⟩
          · obtain ⟨i, hi, ⟨hzero, hbefore⟩, hout⟩ := hs.found hok
            rw [next_chunk hbelow hn (by omega), hsame] at hzero hbefore hout
            refine ⟨n + i, by omega, ⟨by rwa [Nat.add_assoc] at hzero, fun j hj => ?_⟩, ?_⟩
            · by_cases hin : j < n
              · exact hpart j hin
              · have := hbefore (j - n) (by omega)
                rwa [Nat.add_assoc, Nat.add_sub_cancel' (by omega)] at this
            · have hsum : n + i + 1 = n + (i + 1) := by omega
              rw [hout, map_append, hspan, hsum, span_add _ a n, append_assoc]
          · obtain ⟨k, hk, hout, hbefore, hstop⟩ := hs.failed hok
            rcases Nat.eq_zero_or_pos (max - n) with hlast | hmore
            · obtain rfl : k = 0 := by omega
              refine ⟨n, by omega, ?_, hpart, fun h => by omega⟩
              rw [hout, map_append, hspan, span_zero, append_nil]
            · rw [next_chunk hbelow hn (by omega)] at hout hbefore hstop
              rw [hsame] at hout hbefore
              refine ⟨n + k, by omega, ?_, fun j hj => ?_, fun hlt => ?_⟩
              · rw [hout, map_append, hspan, span_add, append_assoc]
              · by_cases hin : j < n
                · exact hpart j hin
                · have := hbefore (j - n) (by omega)
                  rwa [Nat.add_assoc, Nat.add_sub_cancel' (by omega)] at this
              · have hrefuse := hstop (by omega)
                rw [Nat.add_assoc] at hrefuse
                exact hrefuse.of_sameBytes hr.same

variable {v : Vm}

/-- `copyinstr` returns for every address and every `max`. It returns 0 exactly if there is a
NUL within `max` bytes on pages that the process sees, unless memory ran out for one of
them; what it then has written is the string up to its first NUL. Otherwise it has written
at most `max` bytes. -/
theorem copyinstr_finds (hv : v.Owned) (hsound : v.mem.Sound) (hsz : sz ≤ maxva)
    (srcva : UInt64) (max : Nat) :
    ∃ ok dst v', copyinstr v sz srcva.toNat max = .ok (ok, dst, v') ∧
      ((ok = true ↔ ∃ i < max, v.userByte sz (srcva.toNat + i) = some 0 ∧
          ∀ j ≤ i, (v.userByte sz (srcva.toNat + j)).isSome) ∨
        ok = false ∧ ∃ k < max, vpn (srcva.toNat + k) ∉ v.pt.leaf ∧
          v'.OutOfMemory (pgrounddown (srcva.toNat + k))) ∧
      (ok = true → ∃ i < max, StringAt (v.userByte sz) srcva.toNat i ∧
        dst.map some = span (v.userByte sz) srcva.toNat (i + 1)) ∧
      dst.length ≤ max := by
  obtain ⟨⟨ok, dst, v'⟩, hcall, hspec⟩ :=
    (copyinstrLoop_copies (a := srcva.toNat) hsz max [] hv hsound le_rfl).exists_ok
  have hlength : ∀ k, dst.map some = span (v.userByte sz) srcva.toNat k → dst.length = k := by
    intro k hk
    have heq := congrArg List.length hk
    rwa [length_map, length_span] at heq
  cases ok with
  | true =>
    obtain ⟨i, hi, hstring, hdst⟩ := hspec.found rfl
    refine ⟨true, dst, v', hcall, Or.inl (iff_of_true rfl ⟨i, hi, hstring.1, fun j hj => ?_⟩),
      fun _ => ⟨i, hi, hstring, hdst⟩, (hlength _ hdst).trans_le hi⟩
    rcases Nat.lt_or_eq_of_le hj with hlt | rfl
    · obtain ⟨b, hb, -⟩ := hstring.2 j hlt
      rw [hb]
      rfl
    · rw [hstring.1]
      rfl
  | false =>
    obtain ⟨k, hk, hdst, hbefore, hstop⟩ := hspec.failed rfl
    refine ⟨false, dst, v', hcall, ?_, fun h => (by cases h), (hlength _ hdst).trans_le hk⟩
    by_cases hout : ∃ k < max, vpn (srcva.toNat + k) ∉ v.pt.leaf ∧
        v'.OutOfMemory (pgrounddown (srcva.toNat + k))
    · exact Or.inr ⟨rfl, hout⟩
    · refine Or.inl (iff_of_false Bool.false_ne_true ?_)
      rintro ⟨i, hi, hzero, hseen⟩
      by_cases hik : i < k
      · obtain ⟨b, hb, hne⟩ := hbefore i hik
        exact hne (some.inj (hb.symm.trans hzero))
      · rcases hstop (by omega) with hnone | hmem
        · have hsome := hseen k (by omega)
          rw [hnone] at hsome
          cases hsome
        · exact hout ⟨k, by omega, hmem⟩

/-- The string "hi" is copied out and comes back with its NUL. -/
theorem copyinstr_finds_copied : ∃ v v',
    copyout sampleCtx.vm 4096 8 [104, 105] = .ok (true, v) ∧
      copyinstr v 4096 (8 : UInt64).toNat 16 = .ok (true, [104, 105, 0], v') ∧
      ∃ i < 16, StringAt (v.userByte 4096) 8 i ∧
        span (v.userByte 4096) 8 (i + 1) = [some 104, some 105, some 0] := by
  have hrun : ∃ v, copyout sampleCtx.vm 4096 8 [104, 105] = .ok (true, v) ∧
      ∃ r, copyinstr v 4096 (8 : UInt64).toNat 16 = .ok (true, r) ∧ r.1 = [104, 105, 0] := by
    decide +kernel
  obtain ⟨v, hout, ⟨_, v'⟩, hin, rfl⟩ := hrun
  have hsz : 4096 ≤ maxva := by decide
  obtain ⟨k, hstores, -⟩ := (copyoutLoop_stores hsz 2 [104, 105] sampleCtx_owned
    sampleKernel_sound le_rfl).of_eq_ok hout
  have hsound : v.mem.Sound := fun f hf =>
    Mem.Valid.of_kend (sampleKernel_sound f (hstores.free f hf)) hstores.moves.kend
  obtain ⟨ok, dst, v'', hcall, -, hfound, -⟩ :=
    copyinstr_finds (hstores.moves.owned sampleCtx_owned) hsound hsz 8 16
  obtain ⟨rfl, rfl, rfl⟩ : true = ok ∧ [104, 105, 0] = dst ∧ v' = v'' := by
    simpa using hin.symm.trans hcall
  obtain ⟨i, hi, hstring, hdst⟩ := hfound rfl
  exact ⟨v, v', hout, hin, i, hi, hstring, hdst.symm⟩

end Strings

end EafitOs.Memory
