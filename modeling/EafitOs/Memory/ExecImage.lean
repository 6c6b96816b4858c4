import EafitOs.Memory.CopyBytes
import EafitOs.Memory.Growing

/-!
# The image that `kexec` builds

Whatever the program headers ask for, the table under construction has all pages below `sz` and no
other page, and it owns exactly what was taken from the free list.
-/

namespace EafitOs.Memory

open Foundation List

section Image

variable {m : Mem} {tf : Frame} {sz : Nat} {v v' : Vm}

theorem length_free_le (h : m.Sound) (hn : m.free.Nodup) : m.free.length ≤ phystop := by
  have hsub : m.free ⊆ List.range phystop := fun f hf => mem_range.mpr (h f hf).2
  have hle := (hn.subperm hsub).length_le
  rwa [length_range] at hle

theorem Confined.userPart {pt : PageTable} {n : Nat} (h : Confined pt n) :
    ∀ i ∈ pt.userPart.leaf, i < n := by
  intro i hi
  obtain ⟨htf, htramp, hi⟩ := mem_userPart.mp hi
  exact ((h i hi).resolve_left htramp).resolve_left htf

/-- A table of size `sz` that was made from the free pages of `m`: it maps the trampoline,
the trapframe and nothing above the size. -/
structure Image (m : Mem) (tf : Frame) (sz : Nat) (v : Vm) : Prop extends Takes m v where
  frames : v.frames = tf ::ₘ m.text ::ₘ (m.free : Multiset Frame)
  trampolinePage : v.pt.leaf.lookup (vpn trampoline) = some ⟨m.text, true, false, true, false⟩
  trapframePage : v.pt.leaf.lookup (vpn trapframe) = some ⟨tf, true, true, false, false⟩
  top : sz ≤ trapframe
  below : Confined v.pt (npg sz)
  length : npg sz + v.mem.free.length ≤ m.free.length

namespace Image

section

variable (hi : Image m tf sz v) (h : m.InUse tf)
include hi h

theorem owned : v.Owned := by
  refine ⟨fun f => ?_, hi.keys⟩
  rw [hi.frames]
  exact Multiset.nodup_iff_count_le_one.mp h.nodup_cons f

theorem sound : v.mem.Sound := fun f hf =>
  Mem.Valid.of_kend (h.sound f (hi.free f hf)) hi.kend

theorem npg_le : npg sz ≤ phystop := by
  have hlength := hi.length
  have hpool := length_free_le h.sound h.nodup
  omega

theorem user_frame {i : Nat} {e : Pte} (hlt : i < npg sz)
    (he : v.pt.leaf.lookup i = some e) : e.frame ∈ m.free := by
  have hmem := mem_frames_of_lookup he
  rw [hi.frames, Multiset.mem_cons, Multiset.mem_cons, Multiset.mem_coe] at hmem
  rcases hmem with htf | htext | hfree
  · have heq := (hi.owned h).inj he hi.trapframePage htf
    exact absurd hlt (special_not_lt hi.top (Or.inr heq))
  · have heq := (hi.owned h).inj he hi.trampolinePage htext
    exact absurd hlt (special_not_lt hi.top (Or.inl heq))
  · exact hfree

theorem step (hmoves : Moves v v') (hfree : ∀ f ∈ v'.mem.free, f ∈ v.mem.free)
    (hpage : ∀ g, g ∉ m.free → v'.mem.page g = v.mem.page g)
    (hspecial : ∀ i, i = vpn trampoline ∨ i = vpn trapframe →
      v'.pt.leaf.lookup i = v.pt.leaf.lookup i) (hbelow : Confined v'.pt (npg sz)) :
    Image m tf sz v' where
  toTakes := hi.toTakes.step hmoves hfree hpage
  frames := hmoves.frames.trans hi.frames
  trampolinePage := (hspecial _ (Or.inl rfl)).trans hi.trampolinePage
  trapframePage := (hspecial _ (Or.inr rfl)).trans hi.trapframePage
  top := hi.top
  below := hbelow
  length := by
    have hle := ((hmoves.owned (hi.owned h)).free_nodup.subperm hfree).length_le
    have hlength := hi.length
    omega

theorem setPage {i : Nat} {e : Pte} (hlt : i < npg sz)
    (he : v.pt.leaf.lookup i = some e) (d : Page) :
    Image m tf sz ⟨v.mem.setPage e.frame d, v.pt⟩ := by
  refine hi.step h (setPage_moves (mem_frames_of_lookup he) d) (fun _ => id) (fun g hg => ?_)
    (fun _ _ => rfl) hi.below
  have hne : g ≠ e.frame := fun heq => hg (heq ▸ hi.user_frame h hlt he)
  exact Function.update_of_ne hne _ _

theorem free_regains : Ends (procFreepagetable v sz) (Regained m.free m) fun _ => False := by
  have hframes : (Vm.mk v.mem v.pt.userPart).frames = m.free := by
    have hall := (frames_userPart hi.trampolinePage hi.trapframePage).symm.trans hi.frames
    rw [Multiset.cons_swap, Multiset.cons_inj_right, Multiset.cons_inj_right] at hall
    exact hall
  have htakes : Takes m ⟨v.mem, v.pt.userPart⟩ := ⟨hi.keys, hi.kend, hi.text, hi.free, hi.page⟩
  have hback : (Vm.mk v.mem v.pt.userPart).Backed := by
    intro f hf
    rw [hframes, Multiset.mem_coe] at hf
    exact Mem.Valid.of_kend (h.sound f hf) hi.kend
  have hown : (Vm.mk v.mem v.pt.userPart).Owned := by
    refine ⟨fun f => ?_, hi.keys⟩
    rw [hframes]
    exact Multiset.nodup_iff_count_le_one.mp (Multiset.coe_nodup.mpr h.nodup) f
  rw [procFreepagetable_eq]
  exact (uvmfree_regains hown hback hi.top hi.below.userPart).imp fun m' hm' =>
    htakes.regained hframes hm'

end

end Image

structure Loaded (m : Mem) (tf : Frame) (sz : Nat) (v : Vm) : Prop extends Image m tf sz v where
  pages : ∀ i < npg sz, ∃ e, v.pt.leaf.lookup i = some e ∧ e.perm.u = true

theorem Builds.loaded (h : m.InUse tf) (hb : Builds m tf v) : Loaded m tf 0 v := by
  have hnpg : npg 0 = 0 := by decide
  refine ⟨⟨hb.toTakes, hb.frames, hb.built.trampoline, ?_, Nat.zero_le _, fun i hi => ?_, ?_⟩,
    fun i hi => by omega⟩
  · rw [hb.leaf, specialLeaves, AList.lookup_insert]
  · rw [hb.leaf, specialLeaves, AList.mem_insert, AList.mem_insert] at hi
    rcases hi with hi | hi | hi
    · exact Or.inr (Or.inl hi)
    · exact Or.inl hi
    · exact absurd hi (AList.notMem_empty _)
  · have hle := ((hb.built.owned h).free_nodup.subperm hb.free).length_le
    omega

namespace Loaded

section

variable (hi : Loaded m tf sz v)
include hi

theorem setPage (h : m.InUse tf) {i : Nat} {e : Pte} (hlt : i < npg sz)
    (he : v.pt.leaf.lookup i = some e) (d : Page) :
    Loaded m tf sz ⟨v.mem.setPage e.frame d, v.pt⟩ :=
  ⟨hi.toImage.setPage h hlt he d, hi.pages⟩

theorem restores (h : m.InUse tf) (hback : Restores v v') : Loaded m tf sz v' := by
  refine ⟨hi.toImage.step h hback.moves hback.free
    (fun g hg => hback.other g fun hmem => hg (hi.free g hmem)) (fun i _ => hback.leaf i)
    (fun i hmem => ?_), fun i hlt => ?_⟩
  · rw [← AList.lookup_isSome, hback.leaf, AList.lookup_isSome] at hmem
    exact hi.below i hmem
  · rw [hback.leaf]
    exact hi.pages i hlt

theorem extends_to (h : m.InUse tf) {newsz : Nat} {wr ex : Bool}
    (hle : sz ≤ newsz) (hmax : newsz ≤ maxva)
    (hext : Extends ⟨true, wr, ex, true⟩ (npg sz) (npg newsz) v v') : Loaded m tf newsz v' := by
  have hlength := hi.length
  have hlength' := hext.length
  have hpool := length_free_le h.sound h.nodup
  have htop : newsz ≤ trapframe := by
    have hmul := npg_mul newsz
    have hge := (pgroundup_of_le_maxva hmax).1
    have hold := hi.npg_le h
    simp only [phystop, trapframe, trampoline, maxva, pgsize] at *
    omega
  have hmono : npg sz ≤ npg newsz := Nat.div_le_div_right (pgroundup_mono hle htop)
  have hspecial : ∀ i, i = vpn trampoline ∨ i = vpn trapframe →
      v'.pt.leaf.lookup i = v.pt.leaf.lookup i := fun i heq =>
    hext.leaf i fun hin => special_not_lt htop heq hin.2
  refine ⟨⟨hi.toTakes.step hext.moves (fun f hf => Multiset.mem_of_le hext.free hf)
    (fun g hg => hext.other g fun hmem => hg (hi.free g hmem)), hext.moves.frames.trans hi.frames,
    (hspecial _ (Or.inl rfl)).trans hi.trampolinePage,
    (hspecial _ (Or.inr rfl)).trans hi.trapframePage, htop, fun i hmem => ?_, by omega⟩,
    fun i hlt => ?_⟩
  · by_cases hin : npg sz ≤ i ∧ i < npg newsz
    · exact Or.inr (Or.inr hin.2)
    · rw [← AList.lookup_isSome, hext.leaf i hin, AList.lookup_isSome] at hmem
      have hold := hi.below i hmem
      omega
  · by_cases hin : npg sz ≤ i
    · obtain ⟨f, -, -, he, -⟩ := hext.fresh i hin hlt
      exact ⟨_, he, rfl⟩
    · rw [hext.leaf i fun h => hin h.1]
      exact hi.pages i (Nat.not_le.mp hin)

theorem alloc (h : m.InUse tf) (newsz : Nat) (wr ex : Bool) :
    Ends (uvmalloc v sz newsz wr ex) (fun r => r.1 = max sz newsz ∧ Loaded m tf r.1 r.2 ∨
      r.1 = 0 ∧ Loaded m tf sz r.2) fun _ => False := by
  rcases Nat.lt_or_ge newsz sz with hlt | hle
  · rw [uvmalloc, if_pos hlt]
    exact .ok (Or.inl ⟨(Nat.max_eq_left hlt.le).symm, hi⟩)
  · have hlength := hi.length
    have hpool := length_free_le h.sound h.nodup
    refine (uvmalloc_extends wr ex (hi.sound h) (hi.owned h).free_nodup hle hi.top
      fun k hk hlt hfree => ?_).imp fun r hr => ?_
    · have hsmall : k < phystop := by omega
      refine ⟨?_, fun hmem => ?_⟩
      · simp only [phystop, maxva, pgsize] at hsmall ⊢
        omega
      · have hbelow := hi.below k hmem
        simp only [phystop, vpn, trapframe, trampoline, maxva, pgsize] at hsmall hbelow
        omega
    · rcases hr with ⟨hsz, hmax, hext⟩ | ⟨hzero, hback⟩
      · refine Or.inl ⟨hsz.trans (Nat.max_eq_right hle).symm, ?_⟩
        rw [hsz]
        exact hi.extends_to h hle hmax hext
      · exact Or.inr ⟨hzero, hi.restores h hback⟩

theorem walkaddr {a : Nat} (hlt : a < sz) :
    ∃ e, v.pt.leaf.lookup (vpn a) = some e ∧ v.pt.walkaddr (a % 2 ^ 64) = some e.frame := by
  have htop := hi.top
  obtain ⟨e, he, hu⟩ := hi.pages _ (vpn_lt_npg hlt hi.top)
  have hmod : a % 2 ^ 64 = a := by
    simp only [trapframe, trampoline, maxva, pgsize] at htop
    omega
  have hmax : ¬maxva ≤ a := by
    simp only [trapframe, trampoline] at htop
    omega
  refine ⟨e, he, ?_⟩
  rw [hmod, PageTable.walkaddr, if_neg hmax, he]
  exact if_pos hu

end

end Loaded

variable (fs : Fs) (ip : Nat)

theorem loadsegLoop_loaded (h : m.InUse tf) {va offset n : Nat} (hfit : va + n ≤ sz)
    (hn : n + pgsize ≤ 2 ^ 32) (fuel : Nat) : ∀ {i : Nat} {v : Vm}, Loaded m tf sz v →
      (n - i + (pgsize - 1)) / pgsize < fuel →
      Ends (loadsegLoop fs ip va offset n fuel i v) (fun r => Loaded m tf sz r.2)
        fun _ => False := by
  induction fuel with
  | zero => exact fun _ hfuel => absurd hfuel (Nat.not_lt_zero _)
  | succ fuel ih =>
    intro i v hi hfuel
    rw [loadsegLoop]
    split
    · exact .ok hi
    · rename_i hle
      have hlt : va + i < sz := by omega
      obtain ⟨e, he, haddr⟩ := hi.walkaddr hlt
      have hset := hi.setPage h (vpn_lt_npg hlt hi.top) he
      have hmod : (i + pgsize) % 2 ^ 32 = i + pgsize := Nat.mod_eq_of_lt (by omega)
      simp only [haddr, hmod]
      generalize (if n - i < pgsize then n - i else pgsize) = len
      split
      · exact .ok (hset _)
      · refine ih (hset _) ?_
        simp only [pgsize] at hfuel hle ⊢
        omega

theorem loadseg_loaded (h : m.InUse tf) (hi : Loaded m tf sz v) {va offset n : Nat}
    (hfit : va + n ≤ sz) :
    Ends (loadseg fs v va ip offset n) (fun r => Loaded m tf sz r.2) fun _ => False := by
  have hpages := hi.npg_le h
  have hmul := npg_mul sz
  have hround := (pgroundup_of_le hi.top).1
  have hmod := Nat.mod_le n (2 ^ 32)
  refine loadsegLoop_loaded fs ip h (by omega) ?_ _ hi ?_
  all_goals
    simp only [phystop, pgsize] at *
    omega

theorem loadHeader_loaded (h : m.InUse tf) (hi : Loaded m tf sz v) (off : Nat) :
    Ends (loadHeader fs ip off sz v) (fun r => Loaded m tf r.2.1 r.2.2) fun _ => False := by
  simp only [loadHeader]
  split
  · exact .ok hi
  · split
    · exact .ok hi
    · split
      · exact .ok hi
      · rename_i hfile
        split
        · exact .ok hi
        · split
          · exact .ok hi
          · refine (hi.alloc h _ _ _).bind fun r hr => ?_
            obtain ⟨sz1, v₁⟩ := r
            rcases hr with ⟨hsz, hi₁⟩ | ⟨rfl, hi₁⟩
            · have hsz : sz1 = max sz _ := hsz
              by_cases hzero : sz1 = 0
              · have hsame : sz = 0 := by omega
                simp only [if_pos hzero]
                subst hsame
                exact .ok (hzero ▸ hi₁)
              · simp only [if_neg hzero]
                refine (loadseg_loaded fs ip h hi₁ ?_).bind fun r hr => .ok hr
                show _ ≤ sz1
                omega
            · exact .ok hi₁

theorem loadLoop_loaded (h : m.InUse tf) (n : Nat) : ∀ (off : Nat) {sz : Nat} {v : Vm},
    Loaded m tf sz v → Ends (loadLoop fs ip n off sz v) (fun r => Loaded m tf r.2.1 r.2.2) fun _ =>
      False := by
  induction n with
  | zero => exact fun _ _ _ hi => .ok hi
  | succ n ih =>
    intro off sz v hi
    rw [loadLoop]
    refine (loadHeader_loaded fs ip h hi off).bind fun r hr => ?_
    obtain ⟨ok, sz₁, v₁⟩ := r
    cases ok with
    | true => exact ih _ hr
    | false => exact .ok hr

end Image

end EafitOs.Memory
