import EafitOs.Memory.CallEffects

/-!
# Growing and shrinking memory

`uvmalloc` maps zeroed pages one at a time and takes all of them back when memory runs out.
-/

namespace EafitOs.Memory

open Foundation Option Multiset

section Alloc

variable {v v' w : Vm} {perm : Perm} {i j : Nat}

structure Extends (perm : Perm) (i j : Nat) (v v' : Vm) : Prop where
  moves : Moves v v'
  free : (v'.mem.free : Multiset Frame) ≤ v.mem.free
  length : j - i + v'.mem.free.length ≤ v.mem.free.length
  other : ∀ g, g ∉ v.mem.free → v'.mem.page g = v.mem.page g
  leaf : ∀ k, ¬(i ≤ k ∧ k < j) → v'.pt.leaf.lookup k = v.pt.leaf.lookup k
  fresh : ∀ k, i ≤ k → k < j → ∃ f ∈ v.mem.free, f ∉ v'.mem.free ∧
    v'.pt.leaf.lookup k = some ⟨f, perm⟩ ∧ v'.mem.page f = memset 0
  inj : ∀ k l f, i ≤ k → k < j → i ≤ l → l < j → v'.pt.leaf.lookup k = some ⟨f, perm⟩ →
    v'.pt.leaf.lookup l = some ⟨f, perm⟩ → k = l

structure Restores (v v' : Vm) : Prop where
  moves : Moves v v'
  free : ∀ f ∈ v'.mem.free, f ∈ v.mem.free
  other : ∀ g, g ∉ v.mem.free → v'.mem.page g = v.mem.page g
  leaf : ∀ k, v'.pt.leaf.lookup k = v.pt.leaf.lookup k

theorem Extends.refl (perm : Perm) (i : Nat) (v : Vm) : Extends perm i i v v where
  moves := .refl v
  free := le_rfl
  length := by omega
  other _ _ := rfl
  leaf _ _ := rfl
  fresh k h h' := by omega
  inj k l f h h' := by omega

theorem length_of_cons_le {f : Frame} {as bs : List Frame}
    (h : f ::ₘ (as : Multiset Frame) ≤ bs) : as.length + 1 ≤ bs.length := by
  have hcard := card_le_card h
  rwa [card_cons, coe_card, coe_card] at hcard

theorem Extends.step (h : Extends perm i j v v') (hnodup : v.mem.free.Nodup) (hij : i ≤ j)
    {f : Frame} (hw : Places v' (j * pgsize) (memset 0) perm (some f, w)) :
    Extends perm i (j + 1) v w := by
  obtain ⟨hnot, -, hleaf, hle, hzero⟩ := hw.mapped f rfl
  rw [vpn_mul] at hleaf hnot
  have hnodup' : v'.mem.free.Nodup :=
    coe_nodup.mp (nodup_of_le h.free (coe_nodup.mpr hnodup))
  have hf : f ∈ v'.mem.free := mem_of_le hle (mem_cons_self f _)
  have hfw : f ∉ w.mem.free :=
    (nodup_cons.mp (nodup_of_le hle (coe_nodup.mpr hnodup'))).1
  have hold : ∀ k, k ≠ j → w.pt.leaf.lookup k = v'.pt.leaf.lookup k := fun k hk => by
    rw [hleaf, AList.lookup_insert_ne hk]
  have hnew : w.pt.leaf.lookup j = some ⟨f, perm⟩ := by rw [hleaf, AList.lookup_insert]
  have hused : ∀ k g, i ≤ k → k < j → v'.pt.leaf.lookup k = some ⟨g, perm⟩ → g ≠ f := by
    rintro k g hik hkj hk rfl
    obtain ⟨f', -, hnf, hk', -⟩ := h.fresh k hik hkj
    obtain rfl : f' = g := (Pte.mk.inj (some.inj (hk'.symm.trans hk))).1
    exact hnf hf
  refine ⟨h.moves.trans hw.moves, hw.free.trans h.free, ?_, fun g hg => ?_, fun k hk => ?_,
    fun k hik hkj => ?_, fun k l g hik hkj hil hlj hk hl => ?_⟩
  · have hlength := h.length
    have hless := length_of_cons_le hle
    simp only at hless
    omega
  · rw [hw.other g fun hmem => hg (mem_of_le h.free hmem), h.other g hg]
  · rw [hold k (by omega), h.leaf k (by omega)]
  · by_cases heq : k = j
    · subst heq
      exact ⟨f, mem_of_le h.free hf, hfw, hnew, hzero hnodup'⟩
    · obtain ⟨g, hg, hng, hk, hpage⟩ := h.fresh k hik (by omega)
      exact ⟨g, hg, fun hmem => hng (mem_of_le hw.free hmem), (hold k heq).trans hk,
        (hw.other g hng).trans hpage⟩
  · by_cases hkeq : k = j <;> by_cases hleq : l = j
    · rw [hkeq, hleq]
    · rw [hkeq, hnew] at hk
      rw [hold l hleq] at hl
      obtain rfl := (Pte.mk.inj (some.inj hk)).1
      exact absurd rfl (hused l f hil (by omega) hl)
    · rw [hleq, hnew] at hl
      rw [hold k hkeq] at hk
      obtain rfl := (Pte.mk.inj (some.inj hl)).1
      exact absurd rfl (hused k f hik (by omega) hk)
    · rw [hold k hkeq] at hk
      rw [hold l hleq] at hl
      exact h.inj k l g hik (by omega) hil (by omega) hk hl

theorem Extends.takeBack (h : Extends perm i j v v') (hsound : v.mem.Sound) (hij : i ≤ j)
    (hmax : j * pgsize ≤ maxva) (hmissing : ∀ k, i ≤ k → k < j → k ∉ v.pt.leaf)
    (hw : Places v' (j * pgsize) (memset 0) perm (none, w)) :
    Ends (uvmdealloc w (j * pgsize) (i * pgsize)) (fun r => Restores v r.2) fun _ => False := by
  have hleaf : w.pt.leaf = v'.pt.leaf := hw.failed rfl
  have hi : npg (i * pgsize) = i := by
    rw [npg_of_aligned (Nat.mul_mod_left _ _) ((Nat.mul_le_mul_right _ hij).trans hmax), vpn_mul]
  have hj : npg (j * pgsize) = j := by rw [npg_of_aligned (Nat.mul_mod_left _ _) hmax, vpn_mul]
  have hframe : ∀ k e, i ≤ k → k < j → w.pt.leaf.lookup k = some e → e.frame ∈ v.mem.free := by
    intro k e hik hkj he
    obtain ⟨f, hf, -, hk, -⟩ := h.fresh k hik hkj
    rw [hleaf, hk] at he
    obtain rfl := some.inj he
    exact hf
  refine (uvmdealloc_unmaps w (j * pgsize) (i * pgsize)).mono (fun r hr => ?_)
    fun _ hnot => hnot ⟨hmax, fun k e hik hkj he => ?_⟩
  · obtain ⟨-, as, hunmaps, hmem⟩ := hr
    have hmem : ∀ k, k ∈ as.map vpn ↔ i ≤ k ∧ k < j := by
      intro k
      rw [hmem (Or.inl hmax) k, hi, hj]
      refine ⟨fun h => h.2, fun h => ⟨?_, h⟩⟩
      simp only [pgsize]
      omega
    refine ⟨h.moves.trans (hw.moves.trans hunmaps.moves), fun f hf => ?_, fun g hg => ?_,
      fun k => ?_⟩
    · rcases hunmaps.free f hf with hf | ⟨k, hk, e, he, rfl⟩
      · exact mem_of_le (hw.free.trans h.free) hf
      · exact hframe k e ((hmem k).mp hk).1 ((hmem k).mp hk).2 he
    · rw [hunmaps.page g fun k hk e he heq => hg (heq ▸ hframe k e ((hmem k).mp hk).1
        ((hmem k).mp hk).2 he), hw.other g fun hmem => hg (mem_of_le h.free hmem),
        h.other g hg]
    · rw [hunmaps.leaf, hleaf]
      split
      · rename_i hk
        exact (AList.lookup_eq_none.mpr (hmissing k ((hmem k).mp hk).1 ((hmem k).mp hk).2)).symm
      · rename_i hk
        exact h.leaf k fun hin => hk ((hmem k).mpr hin)
  · rw [hi] at hik
    rw [hj] at hkj
    exact Mem.Valid.of_kend (hsound _ (hframe k e hik hkj he))
      (hw.moves.kend.trans h.moves.kend)

theorem mapFilled_ends {va : Nat} (hsound : v.mem.Sound) (hva : va % pgsize = 0)
    (hroom : 0 < v.mem.free.length → va < maxva ∧ vpn va ∉ v.pt.leaf) (d : Page) (perm : Perm) :
    Ends (mapFilled v va d perm) (Places v va d perm) fun _ => False := by
  have hok : ∃ r, mapFilled v va d perm = .ok r := by
    rcases Nat.eq_zero_or_pos v.mem.free.length with hzero | hpos
    · have hk : v.mem.kalloc = none := by
        rw [Mem.kalloc, List.length_eq_zero_iff.mp hzero]
      exact ⟨_, by rw [mapFilled, hk]⟩
    · obtain ⟨hmax, hmissing⟩ := hroom hpos
      obtain ⟨r, hr, -⟩ := mapFilled_missing d perm hva hmax hsound hmissing
      exact ⟨r, hr⟩
  obtain ⟨r, hr⟩ := hok
  have hplaces : Places v va d perm r := (mapFilled_places v hva d perm).of_eq_ok hr
  rw [hr]
  exact .ok hplaces

theorem allocLoop_extends (hsound : v.mem.Sound) (hnodup : v.mem.free.Nodup)
    (n : Nat) : ∀ {j : Nat} {v' : Vm}, i ≤ j → j * pgsize ≤ maxva →
      (∀ k, i ≤ k → k < j → k ∉ v.pt.leaf) →
      (∀ k, j ≤ k → k < j + n → k < j + v'.mem.free.length →
        k * pgsize < maxva ∧ k ∉ v.pt.leaf) →
      Extends perm i j v v' →
      Ends (allocLoop perm (i * pgsize) ((List.range n).map fun k => j * pgsize + k * pgsize) v')
        (fun r => if r.1 then Extends perm i (j + n) v r.2 else Restores v r.2)
        fun _ => False := by
  induction n with
  | zero => exact fun _ _ _ _ h => .ok h
  | succ n ih =>
    intro j v' hij hmax hmissing hroom h
    have hsound' : v'.mem.Sound := fun f hf =>
      Mem.Valid.of_kend (hsound f (mem_of_le h.free hf)) h.moves.kend
    have hpage : 0 < v'.mem.free.length → j * pgsize < maxva ∧
        vpn (j * pgsize) ∉ v'.pt.leaf := by
      intro hpos
      obtain ⟨hlt, hnot⟩ := hroom j le_rfl (by omega) (by omega)
      rw [vpn_mul]
      refine ⟨hlt, fun hmem => hnot ?_⟩
      rw [← AList.lookup_isSome] at hmem ⊢
      rwa [h.leaf j (by omega)] at hmem
    rw [range_map_succ, allocLoop_cons]
    refine (mapFilled_ends hsound' (Nat.mul_mod_left _ _) hpage (memset 0) perm).bind fun r hr => ?_
    obtain ⟨f, w⟩ := r
    cases f with
    | none =>
      exact (h.takeBack hsound hij hmax hmissing hr).bind fun s hs => .ok hs
    | some f =>
      obtain ⟨-, hlt, -, hle, -⟩ := hr.mapped f rfl
      have hlength : w.mem.free.length + 1 ≤ v'.mem.free.length := length_of_cons_le hle
      have hnext : j * pgsize + pgsize = (j + 1) * pgsize := (Nat.succ_mul j pgsize).symm
      rw [hnext]
      refine (ih (by omega) ?_ (fun k hik hkj => ?_) (fun k hjk hkn hkf => ?_)
        (h.step hnodup hij hr)).imp fun r hr => ?_
      · simp only [maxva, pgsize] at hlt ⊢
        omega
      · by_cases hk : k = j
        · exact hk ▸ (hroom j le_rfl (by omega) (by omega)).2
        · exact hmissing k hik (by omega)
      · exact hroom k (by omega) (by omega) (by omega)
      · rwa [Nat.add_right_comm, Nat.add_assoc] at hr

theorem uvmalloc_extends {oldsz newsz : Nat} (wr ex : Bool) (hsound : v.mem.Sound)
    (hnodup : v.mem.free.Nodup) (hle : oldsz ≤ newsz) (hmax : oldsz ≤ trapframe)
    (hroom : ∀ k, npg oldsz ≤ k → k * pgsize < newsz → k < npg oldsz + v.mem.free.length →
      k * pgsize < maxva ∧ k ∉ v.pt.leaf) :
    Ends (uvmalloc v oldsz newsz wr ex) (fun r =>
      r.1 = newsz ∧ newsz ≤ maxva ∧
        Extends ⟨true, wr, ex, true⟩ (npg oldsz) (npg newsz) v r.2 ∨
      r.1 = 0 ∧ Restores v r.2) fun _ => False := by
  obtain ⟨hlow, hhigh, hnear⟩ := pgroundup_of_le hmax
  have hmul := npg_mul oldsz
  obtain ⟨n, hn⟩ : ∃ n, n = (newsz - pgroundup oldsz + (pgsize - 1)) / pgsize := ⟨_, rfl⟩
  have hpage : ∀ k, npg oldsz ≤ k → k < npg oldsz + n → k * pgsize < newsz := by
    intro k h h'
    simp only [pgsize] at hmul hn ⊢
    omega
  have hstart : npg oldsz * pgsize ≤ maxva := by
    rw [hmul]
    simp only [trapframe, trampoline] at hhigh
    omega
  rw [uvmalloc, if_neg (by omega), pages_eq, ← hn, ← hmul]
  refine (allocLoop_extends hsound hnodup n le_rfl hstart (fun k h h' => by omega)
    (fun k h h' => hroom k h (hpage k h h')) (.refl _ _ v)).bind fun r hr => ?_
  obtain ⟨ok, w⟩ := r
  cases ok with
  | false => exact .ok (Or.inr ⟨rfl, hr⟩)
  | true =>
    have hext : Extends ⟨true, wr, ex, true⟩ (npg oldsz) (npg oldsz + n) v w := hr
    -- as many pages as were mapped had been free, so that none of them lies beyond the space
    have hbelow : newsz ≤ maxva := by
      rcases Nat.eq_zero_or_pos n with hzero | hpos
      · simp only [trapframe, trampoline, pgsize] at *
        omega
      · have hlength := hext.length
        have hlast := (hroom (npg oldsz + n - 1) (by omega) (hpage _ (by omega) (by omega))
          (by omega)).1
        simp only [maxva, pgsize] at *
        omega
    have hend : npg oldsz + n = npg newsz := by
      simp only [npg, pgroundup, maxva, pgsize] at *
      omega
    rw [hend] at hext
    exact .ok (Or.inl ⟨rfl, hbelow, hext⟩)

theorem Restores.taken (h : Restores v v') :
    (v'.mem.free : Multiset Frame) + v'.pt.tables = v.mem.free + v.pt.tables := by
  have hmapped : v'.pt.mapped = v.pt.mapped := by
    rw [PageTable.mapped, values_congr h.leaf, PageTable.mapped]
  have hframes := h.moves.frames
  rw [Vm.frames, Vm.frames, hmapped] at hframes
  exact add_right_cancel hframes

end Alloc

section Lookups

variable {pt pt' : PageTable} {va : Nat}

theorem walk_eq_none : pt.walk va = .ok none ↔ va < maxva ∧ vpn va ∉ pt.leaf := by
  rw [PageTable.walk, ← AList.lookup_eq_none]
  split
  · rename_i hmax
    exact ⟨fun h => (by cases h), fun h => absurd h.1 (Nat.not_lt.mpr hmax)⟩
  · rename_i hmax
    exact ⟨fun h => ⟨by omega, Except.ok.inj h⟩, fun h => congrArg Except.ok h.2⟩

theorem walk_of_lookup {o : Option Pte} (hmax : va < maxva) (h : pt.leaf.lookup (vpn va) = o) :
    pt.walk va = .ok o := by
  rw [PageTable.walk, if_neg (by omega), h]

theorem lookup_of_walk {o : Option Pte} (h : pt.walk va = .ok o) :
    pt.leaf.lookup (vpn va) = o := by
  rw [PageTable.walk] at h
  split at h
  · cases h
  · exact Except.ok.inj h

theorem walk_congr (h : pt'.leaf.lookup (vpn va) = pt.leaf.lookup (vpn va)) :
    pt'.walk va = pt.walk va := by
  rw [PageTable.walk, PageTable.walk, h]

end Lookups

/-- Every page of `[lo, hi)` is mapped to a zeroed frame of its own that was free before, and
the other lookups are as they were. -/
structure FreshPages (lo hi : Nat) (perm : Perm) (v v' : Vm) : Prop where
  mapped : ∀ va, lo ≤ va → va < hi → ∃ f ∈ v.mem.free,
    v'.pt.walk va = .ok (some ⟨f, perm⟩) ∧ v'.mem.page f = memset 0
  distinct : ∀ va va' f, lo ≤ va → va < hi → lo ≤ va' → va' < hi →
    v'.pt.walk va = .ok (some ⟨f, perm⟩) → v'.pt.walk va' = .ok (some ⟨f, perm⟩) → vpn va = vpn va'
  other : ∀ va, va < lo ∨ hi ≤ va → v'.pt.walk va = v.pt.walk va

theorem Extends.freshPages {perm : Perm} {oldsz newsz : Nat} {v v' : Vm}
    (h : Extends perm (npg oldsz) (npg newsz) v v') (hmax : newsz ≤ maxva) :
    FreshPages (pgroundup oldsz) (pgroundup newsz) perm v v' := by
  have hold := npg_mul oldsz
  have hnew := npg_mul newsz
  have hround := (pgroundup_of_le_maxva hmax).2
  have hpage : ∀ va, pgroundup oldsz ≤ va → va < pgroundup newsz →
      npg oldsz ≤ vpn va ∧ vpn va < npg newsz := by
    intro va hlo hhi
    simp only [vpn, pgsize] at hold hnew ⊢
    omega
  refine ⟨fun va hlo hhi => ?_, fun va va' f hlo hhi hlo' hhi' hva hva' => ?_, fun va hva => ?_⟩
  · obtain ⟨f, hf, -, hlookup, hzero⟩ := h.fresh _ (hpage va hlo hhi).1 (hpage va hlo hhi).2
    exact ⟨f, hf, walk_of_lookup (by omega) hlookup, hzero⟩
  · exact h.inj _ _ f (hpage va hlo hhi).1 (hpage va hlo hhi).2 (hpage va' hlo' hhi').1
      (hpage va' hlo' hhi').2 (lookup_of_walk hva) (lookup_of_walk hva')
  · refine walk_congr (h.leaf _ fun hin => ?_)
    simp only [vpn, pgsize] at hold hnew hin
    omega

section Size

variable {m : Mem} {c : Ctx}

def Unmapped (pt : PageTable) (oldsz newsz : Nat) : Prop :=
  ∀ va, pgroundup oldsz ≤ va → va < pgroundup newsz → pt.walk va = .ok none

theorem uvmalloc_ends {v : Vm} {oldsz newsz : Nat} (wr ex : Bool) (hsound : v.mem.Sound)
    (hnodup : v.mem.free.Nodup) (hle : oldsz ≤ newsz) (hmax : newsz ≤ trapframe)
    (hmissing : Unmapped v.pt oldsz newsz) :
    Ends (uvmalloc v oldsz newsz wr ex) (fun r =>
      r.1 = newsz ∧ FreshPages (pgroundup oldsz) (pgroundup newsz) ⟨true, wr, ex, true⟩ v r.2 ∨
      r.1 = 0 ∧ Restores v r.2) fun _ => False := by
  have hmul := npg_mul oldsz
  obtain ⟨hge, -, -⟩ := pgroundup_of_le hmax
  refine (uvmalloc_extends wr ex hsound hnodup hle (hle.trans hmax) fun k hk hlt _ => ?_).imp
    fun r hr => hr.imp (fun h => ⟨h.1, h.2.2.freshPages h.2.1⟩) id
  have hwalk : v.pt.walk (k * pgsize) = .ok none := by
    refine hmissing _ ?_ (by omega)
    rw [← hmul]
    exact Nat.mul_le_mul_right _ hk
  have hnone := walk_eq_none.mp hwalk
  rwa [vpn_mul] at hnone

/-- What `growproc(n)` leaves: -1 with the size and every lookup as before, or 0 with the new
size, which a decrease below zero does not change, and nothing mapped above it. -/
def Resizes (c : Ctx) (n : Int) (ok : Bool) (c' : Ctx) : Prop :=
  ok = false ∧ c'.proc.sz = c.proc.sz ∧ (∀ va, c'.proc.pt.walk va = c.proc.pt.walk va) ∨
  ok = true ∧ (c'.proc.sz : Int) = (if n < -(c.proc.sz : Int) then (c.proc.sz : Int)
      else c.proc.sz + n) ∧
    ∀ va, pgroundup c'.proc.sz ≤ va → va < c.proc.sz → c'.proc.pt.walk va = .ok none

theorem addInt_of_nonneg {a : Nat} {n : Int} (h : 0 ≤ a + n) (hlt : a + n < 2 ^ 64) :
    (addInt a n : Int) = a + n := by
  rw [addInt, Int.emod_eq_of_lt h hlt, Int.toNat_of_nonneg h]

theorem growproc_grows (hsound : c.mem.Sound) (hnodup : c.mem.free.Nodup)
    (hsz : c.proc.sz ≤ trapframe) {n : Int} (hn : 0 < n) (hint : n < 2 ^ 31)
    (hroom : c.proc.sz + n ≤ trapframe → Unmapped c.proc.pt c.proc.sz (c.proc.sz + n).toNat) :
    Ends (growproc c n) (fun r => Resizes c n r.1 r.2) fun _ => False := by
  have hsum : (addInt c.proc.sz n : Int) = c.proc.sz + n := by
    refine addInt_of_nonneg (by omega) ?_
    simp only [trapframe, trampoline, maxva, pgsize] at hsz
    omega
  rw [growproc]
  simp only [if_pos hn]
  split
  · exact .ok (Or.inl ⟨rfl, rfl, fun _ => rfl⟩)
  · rename_i hle
    have hnat : (c.proc.sz + n).toNat = addInt c.proc.sz n := by omega
    have hmissing : Unmapped c.vm.pt c.proc.sz (addInt c.proc.sz n) := by
      rw [← hnat]
      exact hroom (by omega)
    refine (uvmalloc_ends true false (v := c.vm) hsound hnodup (by omega) (by omega) hmissing).bind
      fun r hr => ?_
    obtain ⟨sz', w⟩ := r
    rcases hr with ⟨rfl, -⟩ | ⟨rfl, hback⟩
    · have hne : addInt c.proc.sz n ≠ 0 := by omega
      simp only [if_neg hne]
      refine .ok (Or.inr ⟨rfl, ?_, fun va hlo hhi => ?_⟩)
      · rw [if_neg (by omega)]
        exact hsum
      · have hlo : pgroundup (addInt c.proc.sz n) ≤ va := hlo
        have hge := (pgroundup_of_le (Nat.not_lt.mp hle)).1
        omega
    · simp only [if_pos]
      exact .ok (Or.inl ⟨rfl, rfl, fun va => walk_congr (hback.leaf _)⟩)

theorem growproc_shrinks (hsz : c.proc.sz ≤ trapframe) {n : Int} (hn : n < 0) (hint : -2 ^ 31 ≤ n)
    (hvalid : ∀ va e, va < c.proc.sz → c.proc.pt.walk va = .ok (some e) → c.mem.Valid e.frame) :
    Ends (growproc c n) (fun r => Resizes c n r.1 r.2) fun _ => False := by
  have htop : c.proc.sz ≤ maxva := by
    simp only [trapframe, trampoline] at hsz
    omega
  have hmul := npg_mul c.proc.sz
  obtain ⟨hge, -, hnear⟩ := pgroundup_of_le hsz
  rw [growproc]
  simp only [if_neg (show ¬0 < n by omega), if_pos hn]
  refine ((uvmdealloc_unmaps c.vm c.proc.sz (addInt c.proc.sz n)).mono (fun _ => id)
    fun _ hnot => hnot ⟨htop, fun k e _ hk he => ?_⟩).bind fun r hr => ?_
  · have hlt : k * pgsize < c.proc.sz := by
      simp only [pgsize] at hmul hnear ⊢
      omega
    refine hvalid (k * pgsize) e hlt (walk_of_lookup (by omega) ?_)
    rw [vpn_mul]
    exact he
  · obtain ⟨sz', w⟩ := r
    obtain ⟨hsize, as, hunmaps, hmem⟩ := hr
    have hmem := hmem (Or.inl htop)
    have hsize : sz' = min c.proc.sz (addInt c.proc.sz n) := hsize
    by_cases hbelow : n < -(c.proc.sz : Int)
    · -- the sum wraps, so that nothing is unmapped
      have hwrap : c.proc.sz < addInt c.proc.sz n := by
        simp only [addInt, trapframe, trampoline, maxva, pgsize] at hsz ⊢
        omega
      obtain rfl : sz' = c.proc.sz := hsize.trans (Nat.min_eq_left hwrap.le)
      refine .ok (Or.inr ⟨rfl, ?_, fun va hlo hhi => ?_⟩)
      · rw [if_pos hbelow]
        rfl
      · have hlo : pgroundup c.proc.sz ≤ va := hlo
        omega
    · have hsum : (addInt c.proc.sz n : Int) = c.proc.sz + n := by
        refine addInt_of_nonneg (by omega) ?_
        simp only [maxva] at htop
        omega
      obtain rfl : sz' = addInt c.proc.sz n := hsize.trans (Nat.min_eq_right (by omega))
      refine .ok (Or.inr ⟨rfl, ?_, fun va hlo hhi => ?_⟩)
      · rw [if_neg hbelow]
        exact hsum
      · have hlo : pgroundup (addInt c.proc.sz n) ≤ va := hlo
        refine walk_of_lookup (by omega) ?_
        have hpage : vpn va ∈ as.map vpn := by
          rw [hmem]
          have hmul' := npg_mul (addInt c.proc.sz n)
          simp only [vpn, pgsize] at hmul hmul' ⊢
          omega
        exact (hunmaps.leaf _).trans (if_pos hpage)

/-- Growing memory is all or nothing. At whichever allocation memory runs out, `uvmalloc`
maps a zeroed page of its own everywhere up to the new size, or it returns 0 with every
lookup as before and nothing but pages of the table taken; and `growproc` of every `int`
changes the size or leaves it, and what is mapped, as it was. -/
theorem growth_all_or_nothing (hsound : m.Sound) (hnodup : m.free.Nodup) :
    (∀ (pt : PageTable) (oldsz newsz : Nat) (wr ex : Bool), oldsz ≤ newsz → newsz ≤ trapframe →
      Unmapped pt oldsz newsz →
      ∃ sz v, uvmalloc ⟨m, pt⟩ oldsz newsz wr ex = .ok (sz, v) ∧
        (sz = newsz ∧
            FreshPages (pgroundup oldsz) (pgroundup newsz) ⟨true, wr, ex, true⟩ ⟨m, pt⟩ v ∨
          sz = 0 ∧ (∀ va, v.pt.walk va = pt.walk va) ∧
            (v.mem.free : Multiset Frame) + v.pt.tables = m.free + pt.tables)) ∧
    ∀ (c : Ctx) (n : Int32), c.mem = m → c.proc.sz ≤ trapframe →
      (c.proc.sz + n.toInt ≤ trapframe →
        Unmapped c.proc.pt c.proc.sz (c.proc.sz + n.toInt).toNat) →
      (∀ va e, va < c.proc.sz → c.proc.pt.walk va = .ok (some e) → m.Valid e.frame) →
      ∃ ok c', growproc c n.toInt = .ok (ok, c') ∧ Resizes c n.toInt ok c' := by
  constructor
  · intro pt oldsz newsz wr ex hle hmax hmissing
    obtain ⟨⟨sz, v⟩, hcall, hr⟩ :=
      (uvmalloc_ends (v := ⟨m, pt⟩) wr ex hsound hnodup hle hmax hmissing).exists_ok
    refine ⟨sz, v, hcall, hr.imp id fun h => ⟨h.1, fun va => walk_congr (h.2.leaf _), h.2.taken⟩⟩
  · rintro c n rfl hsz hroom hvalid
    have hends : Ends (growproc c n.toInt) (fun r => Resizes c n.toInt r.1 r.2)
        fun _ => False := by
      rcases lt_trichotomy n.toInt 0 with hneg | hzero | hpos
      · exact growproc_shrinks hsz hneg n.le_toInt hvalid
      · have hcall : growproc c n.toInt = .ok (true, c) := by
          rw [hzero]
          rfl
        rw [hcall]
        refine .ok (Or.inr ⟨rfl, ?_, fun va hlo hhi => ?_⟩)
        · rw [if_neg (by omega), hzero, add_zero]
        · have hlo : pgroundup c.proc.sz ≤ va := hlo
          have hge := (pgroundup_of_le hsz).1
          omega
      · exact growproc_grows hsound hnodup hsz hpos n.toInt_lt hroom
    obtain ⟨⟨ok, c'⟩, hcall, hr⟩ := hends.exists_ok
    exact ⟨ok, c', hcall, hr⟩

theorem sampleCtx_unmapped : Unmapped sampleCtx.proc.pt 4096 8192 := by
  intro va hlo hhi
  have hlo : 4096 ≤ va := hlo
  have hhi : va < 8192 := hhi
  have hpage : vpn va = 1 := by
    simp only [vpn, pgsize]
    omega
  refine walk_of_lookup (by simp only [maxva]; omega) ?_
  rw [hpage]
  decide +kernel

/-- A process of one page asks for a second. -/
theorem growth_all_or_nothing_sample :
    (∃ sz v, uvmalloc sampleCtx.vm 4096 8192 true false = .ok (sz, v) ∧
      (sz = 8192 ∧ FreshPages 4096 8192 .heap sampleCtx.vm v ∨
        sz = 0 ∧ (∀ va, v.pt.walk va = sampleCtx.proc.pt.walk va) ∧
          (v.mem.free : Multiset Frame) + v.pt.tables =
            sampleCtx.mem.free + sampleCtx.proc.pt.tables)) ∧
    ∃ ok c', growproc sampleCtx 4096 = .ok (ok, c') ∧ Resizes sampleCtx 4096 ok c' := by
  obtain ⟨halloc, hgrow⟩ := growth_all_or_nothing (m := sampleCtx.mem) sampleKernel_sound
    (show sampleKernel.mem.free.Nodup by decide +kernel)
  refine ⟨halloc _ 4096 8192 true false (by decide) (by decide) sampleCtx_unmapped,
    hgrow sampleCtx 4096 rfl (by decide) (fun _ => sampleCtx_unmapped) fun va e hva he => ?_⟩
  have hpage : vpn va = 0 := by
    have hva : va < 4096 := hva
    simp only [vpn, pgsize]
    omega
  have hnone : sampleCtx.proc.pt.leaf.lookup 0 = none := by decide +kernel
  have hlookup := lookup_of_walk he
  rw [hpage, hnone] at hlookup
  cases hlookup

end Size

end EafitOs.Memory
