import EafitOs.Memory.ExecCall
import EafitOs.Memory.ExecImage
import EafitOs.Memory.Teardown

/-!
# The argument stack

`kexec` pushes the argument strings from the top of the new image down, each at a multiple of 16,
and below them the array of pointers to them. A string for which there is no room makes it fail.
-/

namespace EafitOs.Memory

open Foundation List Option

section Copies

variable {m : Mem} {tf : Frame} {sz psz : Nat} {v v' : Vm}

theorem copyoutLoop_size (fuel : Nat) : ∀ {v : Vm} {a : Nat} {src : List UInt8},
    (∀ x, a ≤ x → x < a + src.length → x < maxva → vpn x ∈ v.pt.leaf) →
    copyoutLoop psz fuel v a src = copyoutLoop 0 fuel v a src := by
  induction fuel with
  | zero => exact fun _ => rfl
  | succ fuel ih =>
    intro v a src hpages
    rw [copyoutLoop, copyoutLoop]
    split
    · rfl
    · rename_i hne
      split
      · rfl
      · rename_i hbeyond
        have hmax : pgrounddown a < maxva := Nat.not_le.mp hbeyond
        have hlt := lt_maxva_of_vpn hmax
        have hpos : 0 < src.length := length_pos_iff.mpr hne
        have hpage : vpn a ∈ v.pt.leaf := hpages a le_rfl (by omega) hlt
        have hframe : userFrame v psz (pgrounddown a) = userFrame v 0 (pgrounddown a) := by
          rw [userFrame, userFrame, vmfault_pgrounddown v hmax, vmfault_pgrounddown v hmax,
            if_pos (Or.inl hpage), if_pos (Or.inl hpage)]
        have hsame : ∀ r, userFrame v 0 (pgrounddown a) = .ok r → r.2 = v := by
          intro r hr
          rw [userFrame, vmfault_pgrounddown v hmax, if_pos (Or.inl hpage)] at hr
          split at hr <;> exact congrArg Prod.snd (Except.ok.inj hr).symm
        simp only [hframe]
        cases hr : userFrame v 0 (pgrounddown a) with
        | error e => rfl
        | ok r =>
          obtain ⟨o, w⟩ := r
          obtain rfl : w = v := hsame _ hr
          simp only [ok_bind]
          cases o with
          | none => rfl
          | some f =>
            simp only
            split
            · refine ih fun x hx hxlt hxmax => ?_
              rw [length_drop, sub_pgrounddown] at hxlt
              obtain ⟨n, hn⟩ : ∃ n, n = min (pgsize - a % pgsize) src.length := ⟨_, rfl⟩
              rw [← hn] at hxlt
              by_cases hmore : src.length - n = 0
              · omega
              · rw [next_chunk hlt hn hmore] at hx hxlt
                exact hpages x (by omega) (by omega) hxmax
            · rfl

theorem setLeaf_moves {i : Nat} {e e' : Pte} (he : v.pt.leaf.lookup i = some e)
    (hframe : e'.frame = e.frame) : Moves v ⟨v.mem, v.pt.setLeaf i e'⟩ := by
  have hlow : i / 512 ∈ v.pt.low := v.pt.leaf_low i (AList.lookup_isSome.mp (by rw [he]; rfl))
  have htables : (v.pt.setLeaf i e').tables = v.pt.tables := by
    simp only [PageTable.tables, PageTable.setLeaf, dif_pos hlow]
  have hmid : (v.pt.setLeaf i e').mid = v.pt.mid := by
    simp only [PageTable.setLeaf, dif_pos hlow]
  have hmapped : (v.pt.setLeaf i e').mapped = v.pt.mapped := by
    rw [PageTable.mapped, PageTable.mapped, PageTable.setLeaf_leaf _ _ _ hlow, values_replace,
      values_erase he, Multiset.map_cons, Multiset.map_cons, hframe]
  refine ⟨?_, fun _ _ => rfl, fun hkeys => ?_, rfl, rfl⟩
  · rw [Vm.frames, Vm.frames, htables, hmapped]
  · rw [hmid]
    exact hkeys

/-- The pages up to `n` are mapped to the frames they were mapped to, with the same contents. -/
def Keeps (n : Nat) (v v' : Vm) : Prop :=
  ∀ i e, i ≤ n → v.pt.leaf.lookup i = some e →
    ∃ e', v'.pt.leaf.lookup i = some e' ∧ e'.frame = e.frame ∧
      v'.mem.page e.frame = v.mem.page e.frame

theorem Keeps.refl (n : Nat) (v : Vm) : Keeps n v v := fun _ e _ he => ⟨e, he, rfl, rfl⟩

theorem Keeps.trans {n : Nat} {v'' : Vm} (h : Keeps n v v') (h' : Keeps n v' v'') :
    Keeps n v v'' := by
  intro i e hi he
  obtain ⟨e₁, he₁, hframe₁, hpage₁⟩ := h i e hi he
  obtain ⟨e₂, he₂, hframe₂, hpage₂⟩ := h' i e₁ hi he₁
  exact ⟨e₂, he₂, hframe₂.trans hframe₁, hframe₁ ▸ hpage₂.trans (hframe₁ ▸ hpage₁)⟩

theorem Stores.keeps {a n : Nat} {bs : List UInt8} (h : Stores 0 a bs v v')
    (hmax : (n + 1) * pgsize ≤ maxva) (ha : (n + 1) * pgsize ≤ a) : Keeps n v v' := by
  intro i e hin he
  obtain ⟨he', hsame⟩ := h.kept i e he
  refine ⟨e, he', rfl, ?_⟩
  by_cases hu : e.perm.u = true
  · funext o
    have hbyte : ∀ w : Vm, w.pt.leaf.lookup i = some e →
        w.userByte 0 (i * pgsize + o.val) = some (w.mem.page e.frame o) := by
      intro w hw
      have hlt := o.isLt
      have hpage : vpn (i * pgsize + o.val) = i := by
        simp only [vpn, pgsize] at hlt ⊢
        omega
      have hoff : pageOffset (i * pgsize + o.val) = o := by
        refine Fin.ext ?_
        simp only [pageOffset, pgsize] at hlt ⊢
        omega
      have hend : i * pgsize + o.val < maxva := by
        have hle : (i + 1) * pgsize ≤ maxva := (Nat.mul_le_mul_right _ (by omega)).trans hmax
        rw [Nat.succ_mul] at hle
        omega
      rw [userByte_of_lookup hend (by rw [hpage]; exact hw) hu, hoff]
    have hold := hbyte v he
    have hnew := hbyte v' he'
    have hbelow : i * pgsize + o.val < a := by
      have hle : (i + 1) * pgsize ≤ a := (Nat.mul_le_mul_right _ (by omega)).trans ha
      rw [Nat.succ_mul] at hle
      have hlt := o.isLt
      omega
    rw [h.bytes, splice_outside (Or.inl hbelow), hold] at hnew
    exact (some.inj hnew).symm
  · exact hsame fun hperm => hu hperm.1

theorem Image.copyout (hi : Image m tf sz v) (h : m.InUse tf) (a : Nat) (bs : List UInt8) :
    Ends (copyout v 0 a bs) (fun r => Image m tf sz r.2 ∧
      ∃ k, Stores 0 a (bs.take k) v r.2 ∧ (r.1 = true → bs.length ≤ k)) fun _ => False := by
  refine ((copyoutLoop_stores (Nat.zero_le _) bs.length bs (hi.owned h) (hi.sound h) le_rfl).and
    (copyout_new hi.below a bs).any).imp fun r hr => ?_
  obtain ⟨⟨k, hstores, hall⟩, hbelow⟩ := hr
  refine ⟨hi.step h hstores.moves hstores.free (fun g hg => ?_) (fun i heq => ?_) hbelow, k,
    hstores,
    hall⟩
  · by_cases hmem : g ∈ v.frames
    · rw [hi.frames, Multiset.mem_cons, Multiset.mem_cons, Multiset.mem_coe] at hmem
      rcases hmem with rfl | rfl | hmem
      · exact (hstores.kept _ _ hi.trapframePage).2 (by simp)
      · exact (hstores.kept _ _ hi.trampolinePage).2 (by simp)
      · exact absurd hmem hg
    · exact hstores.moves.outside g hmem
  · rcases heq with rfl | rfl
    · rw [(hstores.kept _ _ hi.trampolinePage).1, hi.trampolinePage]
    · rw [(hstores.kept _ _ hi.trapframePage).1, hi.trapframePage]

end Copies

section Strings

variable {g : Nat → Option UInt8} {top sp a : Nat} {args : List (List UInt8)} {ustack : List Nat}

structure Pushed (g : Nat → Option UInt8) (top : Nat) (args : List (List UInt8))
    (ustack : List Nat) (sp : Nat) : Prop where
  aligned : sp % 16 = 0
  le : sp ≤ top
  strings : List.Forall₂ (fun arg a => sp ≤ a ∧ a + (arg.length + 1) ≤ top ∧ a % 16 = 0 ∧
    span g a (arg.length + 1) = (arg ++ [0]).map some) args ustack
  order : (args.zip ustack).Pairwise fun s t => t.2 + (t.1.length + 1) ≤ s.2

theorem Pushed.string (h : Pushed g top args ustack sp) {arg : List UInt8}
    (hmem : (arg, a) ∈ args.zip ustack) : sp ≤ a ∧ a + (arg.length + 1) ≤ top :=
  have hall := (forall₂_iff_zip.mp h.strings).2 hmem
  ⟨hall.1, hall.2.1⟩

theorem Pushed.below (h : Pushed g top args ustack sp) {xs : List (Option UInt8)}
    (hle : a + xs.length ≤ sp) : Pushed (splice g a xs) top args ustack sp := by
  refine ⟨h.aligned, h.le, h.strings.imp fun arg b hb => ?_, h.order⟩
  obtain ⟨hsp, htop, hal, hbytes⟩ := hb
  refine ⟨hsp, htop, hal, ?_⟩
  rw [← hbytes]
  exact span_congr fun x hx _ => splice_outside (Or.inr (by omega))

theorem Pushed.push (h : Pushed g top args ustack sp) {arg : List UInt8} (hal : a % 16 = 0)
    (hle : a + (arg.length + 1) ≤ sp) :
    Pushed (splice g a ((arg ++ [0]).map some)) top (args ++ [arg]) (ustack ++ [a]) a := by
  have hlength : ((arg ++ [0]).map some).length = arg.length + 1 := by
    rw [length_map, length_append, length_singleton]
  have hold : Pushed (splice g a ((arg ++ [0]).map some)) top args ustack sp :=
    h.below (by rw [hlength]; exact hle)
  have htop := h.le
  refine ⟨hal, by omega, ?_, ?_⟩
  · refine rel_append (hold.strings.imp fun s b hb => ⟨by omega, hb.2⟩) ?_
    refine .cons ⟨le_rfl, by omega, hal, ?_⟩ .nil
    rw [← hlength]
    exact span_splice g a _
  · rw [zip_append h.strings.length_eq, pairwise_append]
    refine ⟨h.order, pairwise_singleton _ _, fun s hs t ht => ?_⟩
    obtain rfl : t = (arg, a) := mem_singleton.mp ht
    obtain ⟨arg', b⟩ := s
    exact hle.trans (h.string hs).1

/-- The address and the length of the pointer array and of every string. -/
def argRegions (argv : List (List UInt8)) (ustack : List Nat) (sp : Nat) : List (Nat × Nat) :=
  (sp, 8 * (argv.length + 1)) :: (argv.zip ustack).map fun s => (s.2, s.1.length + 1)

/-- The stack that a program starts with: the array of pointers at `sp`, which ends with a
null pointer, and the strings it points to. -/
structure ArgStack (g : Nat → Option UInt8) (stackbase top : Nat) (argv : List (List UInt8))
    (sp : Nat) (ustack : List Nat) : Prop where
  pointers : span g sp (8 * (argv.length + 1)) = ((ustack ++ [0]).flatMap le64).map some
  strings : List.Forall₂ (fun arg a => span g a (arg.length + 1) = (arg ++ [0]).map some)
    argv ustack
  aligned : ∀ a ∈ sp :: ustack, a % 16 = 0
  disjoint : (argRegions argv ustack sp).Pairwise fun r s =>
    r.1 + r.2 ≤ s.1 ∨ s.1 + s.2 ≤ r.1
  inside : ∀ r ∈ argRegions argv ustack sp, stackbase ≤ r.1 ∧ r.1 + r.2 ≤ top

theorem span_eq_of_some {g' : Nat → Option UInt8} {n : Nat} {bs : List UInt8}
    (hg : ∀ a b, g a = some b → g' a = some b) (h : span g a n = bs.map some) :
    span g' a n = bs.map some := by
  rw [← h]
  refine span_congr fun x hx hlt => ?_
  have hget := getElem?_span g a n (x - a)
  rw [h, if_pos (by omega), Nat.add_sub_cancel' hx, List.getElem?_map] at hget
  obtain ⟨b, -, hb⟩ := map_eq_some_iff.mp hget
  rw [hg x b hb.symm, ← hb]

theorem ArgStack.mono {g' : Nat → Option UInt8} {stackbase : Nat}
    (h : ArgStack g stackbase top args sp ustack) (hg : ∀ a b, g a = some b → g' a = some b) :
    ArgStack g' stackbase top args sp ustack where
  pointers := span_eq_of_some hg h.pointers
  strings := h.strings.imp fun _ _ hs => span_eq_of_some hg hs
  aligned := h.aligned
  disjoint := h.disjoint
  inside := h.inside

theorem length_flatMap_le64 (ws : List Nat) : (ws.flatMap le64).length = 8 * ws.length := by
  induction ws with
  | nil => rfl
  | cons w rest ih =>
    rw [flatMap_cons, length_append, ih, length_cons, le64, length_map,
      length_range]
    omega

theorem Pushed.argStack (h : Pushed g top args ustack sp) {stackbase : Nat} (hal : a % 16 = 0)
    (hbase : stackbase ≤ a) (hle : a + 8 * (args.length + 1) ≤ sp) :
    ArgStack (splice g a (((ustack ++ [0]).flatMap le64).map some)) stackbase top args a
      ustack := by
  have hlength : (((ustack ++ [0]).flatMap le64).map some).length = 8 * (args.length + 1) := by
    rw [length_map, length_flatMap_le64, length_append, length_singleton,
      h.strings.length_eq]
  have hkept := h.below (hlength ▸ hle)
  have htop := h.le
  refine ⟨?_, hkept.strings.imp fun arg b hb => hb.2.2.2, fun b hb => ?_, ?_, fun r hr => ?_⟩
  · rw [← hlength]
    exact span_splice g a _
  · rcases mem_cons.mp hb with rfl | hb
    · exact hal
    · obtain ⟨k, hk, rfl⟩ := mem_iff_getElem.mp hb
      have hk' : k < args.length := h.strings.length_eq ▸ hk
      exact (h.strings.get hk' hk).2.2.1
  · rw [argRegions, pairwise_cons]
    constructor
    · rintro r hr
      obtain ⟨⟨arg, b⟩, hmem, rfl⟩ := mem_map.mp hr
      exact Or.inl (hle.trans (h.string hmem).1)
    · rw [pairwise_map]
      exact h.order.imp Or.inr
  · rcases mem_cons.mp hr with rfl | hr
    · exact ⟨hbase, by omega⟩
    · obtain ⟨⟨arg, b⟩, hmem, rfl⟩ := mem_map.mp hr
      obtain ⟨hsp, hend⟩ := h.string hmem
      exact ⟨by show stackbase ≤ b; omega, hend⟩

end Strings

section Stack

variable {m : Mem} {tf : Frame} {n psz : Nat} {v v' : Vm}

structure Stacked (m : Mem) (tf : Frame) (n : Nat) (v : Vm) : Prop
    extends Image m tf ((n + 2) * pgsize) v where
  guard : ∃ e, v.pt.leaf.lookup n = some e ∧ e.perm.u = false
  stack : n + 1 ∈ v.pt.leaf

theorem npg_mul_pgsize {k : Nat} (h : k * pgsize ≤ trapframe) : npg (k * pgsize) = k := by
  rw [npg_of_aligned (Nat.mul_mod_left _ _) (h.trans (by decide)), vpn_mul]

theorem Loaded.clear (hi : Loaded m tf ((n + 2) * pgsize) v) (h : m.InUse tf) :
    Ends (uvmclear v (n * pgsize)) (fun v' => Stacked m tf n v' ∧ Keeps n v v') fun _ => False := by
  have htop := hi.top
  have hnpg := npg_mul_pgsize htop
  have hlt : n < npg ((n + 2) * pgsize) := by omega
  have hmax : ¬maxva ≤ n * pgsize := by
    simp only [trapframe, trampoline, maxva, pgsize] at htop ⊢
    omega
  obtain ⟨e, he, -⟩ := hi.pages n hlt
  obtain ⟨e', he', -⟩ := hi.pages (n + 1) (by omega)
  have hmem : n ∈ v.pt.leaf := AList.lookup_isSome.mp (by rw [he]; rfl)
  have hlow : n / 512 ∈ v.pt.low := v.pt.leaf_low n hmem
  have hclear : uvmclear v (n * pgsize) =
      .ok ⟨v.mem, v.pt.setLeaf n ⟨e.frame, { e.perm with u := false }⟩⟩ := by
    rw [uvmclear, if_neg hmax, vpn_mul, he]
  rw [hclear]
  have hleaf := PageTable.setLeaf_leaf v.pt n ⟨e.frame, { e.perm with u := false }⟩ hlow
  have hother : ∀ i, i ≠ n → AList.lookup i (v.pt.setLeaf n _).leaf = v.pt.leaf.lookup i :=
    fun i hne => (congrArg (AList.lookup i) hleaf).trans (AList.lookup_insert_ne hne)
  have hset := (congrArg (AList.lookup n) hleaf).trans (AList.lookup_insert _)
  refine .ok ⟨⟨hi.toImage.step h (setLeaf_moves he rfl) (fun _ => id) (fun _ _ => rfl)
    (fun i heq => hother i fun hin => special_not_lt htop heq (hin ▸ hlt))
    (setLeaf_confined hi.below hmem), ⟨_, hset, rfl⟩, ?_⟩, fun i e₁ _ he₁ => ?_⟩
  · rw [← AList.lookup_isSome, hother _ (Nat.succ_ne_self n), he']
    rfl
  · by_cases heq : i = n
    · subst heq
      obtain rfl : e = e₁ := some.inj (he.symm.trans he₁)
      exact ⟨_, hset, rfl, rfl⟩
    · exact ⟨e₁, (hother i heq).trans he₁, rfl, rfl⟩

theorem Stacked.mem_leaf (hs : Stacked m tf n v) {x : Nat} (hlow : (n + 1) * pgsize ≤ x)
    (hhigh : x < (n + 2) * pgsize) : vpn x ∈ v.pt.leaf := by
  have heq : vpn x = n + 1 := by
    simp only [vpn, pgsize] at hlow hhigh ⊢
    omega
  rw [heq]
  exact hs.stack

theorem Stacked.copyout (hs : Stacked m tf n v) (h : m.InUse tf) {a : Nat} {bs : List UInt8}
    (hin : (n + 1) * pgsize ≤ a ∧ a + bs.length ≤ (n + 2) * pgsize ∨ maxva ≤ a) :
    Ends (copyout v psz a bs) (fun r => Stacked m tf n r.2 ∧ Keeps n v r.2 ∧
      (r.1 = true → r.2.userByte 0 = splice (v.userByte 0) a (bs.map some))) fun _ => False := by
  have hmax : (n + 1) * pgsize ≤ maxva :=
    (Nat.mul_le_mul_right _ (Nat.le_succ _)).trans (hs.top.trans (by decide))
  have hsize : Memory.copyout v psz a bs = Memory.copyout v 0 a bs := by
    refine copyoutLoop_size bs.length fun x hx hlt hmax => ?_
    rcases hin with ⟨hlow, hhigh⟩ | hbeyond
    · exact hs.mem_leaf (by omega) (by omega)
    · omega
  rw [hsize]
  refine (hs.toImage.copyout h a bs).imp fun r hr => ?_
  obtain ⟨hi, k, hstores, hall⟩ := hr
  obtain ⟨e, he, hu⟩ := hs.guard
  obtain ⟨e', he'⟩ := isSome_iff_exists.mp (AList.lookup_isSome.mpr hs.stack)
  refine ⟨⟨hi, ⟨e, (hstores.kept n e he).1, hu⟩, AList.lookup_isSome.mp ?_⟩,
    hstores.keeps hmax ?_, fun hok => ?_⟩
  · rw [(hstores.kept _ e' he').1]
    rfl
  · exact hin.elim (fun h => h.1) fun h => hmax.trans h
  · rw [hstores.bytes, take_of_length_le (hall hok)]

theorem sub64_cases {sp k : Nat} (hsp : sp ≤ trapframe) (hk : k ≤ 2 ^ 63) :
    sub64 sp k - sub64 sp k % 16 + k ≤ sp ∨ maxva ≤ sub64 sp k - sub64 sp k % 16 := by
  simp only [sub64, trapframe, trampoline, maxva, pgsize] at hsp ⊢
  omega

theorem align_mod (x : Nat) : (x - x % 16) % 16 = 0 := by omega

theorem pushArgs_pushes (h : m.InUse tf) (args : List (List UInt8)) :
    ∀ {done : List (List UInt8)} {sp : Nat} {ustack : List Nat} {v : Vm}, Stacked m tf n v →
      Pushed (v.userByte 0) ((n + 2) * pgsize) done ustack sp → (n + 1) * pgsize ≤ sp →
      (∀ arg ∈ args, arg.length < 2 ^ 63) →
      Ends (pushArgs psz ((n + 1) * pgsize) args sp ustack v) (fun r =>
        Stacked m tf n r.2.2.2 ∧ Keeps n v r.2.2.2 ∧ (r.1 = true → (n + 1) * pgsize ≤ r.2.1 ∧
          Pushed (r.2.2.2.userByte 0) ((n + 2) * pgsize) (done ++ args) r.2.2.1 r.2.1))
        fun _ => False := by
  induction args with
  | nil =>
    intro done sp ustack v hs hpushed hsp _
    rw [append_nil]
    exact .ok ⟨hs, .refl n v, fun _ => ⟨hsp, hpushed⟩⟩
  | cons arg rest ih =>
    intro done sp ustack v hs hpushed hsp hargs
    have hlength : (arg ++ [0]).length = arg.length + 1 := by
      rw [length_append, length_singleton]
    have harg := hargs arg mem_cons_self
    have hfail : ∀ (sp' : Nat) (v' : Vm), Stacked m tf n v' → Keeps n v v' →
        Ends (.ok (false, sp', ustack, v')) (fun r : Bool × Nat × List Nat × Vm =>
          Stacked m tf n r.2.2.2 ∧ Keeps n v r.2.2.2 ∧ (r.1 = true → (n + 1) * pgsize ≤ r.2.1 ∧
            Pushed (r.2.2.2.userByte 0) ((n + 2) * pgsize) (done ++ arg :: rest) r.2.2.1 r.2.1))
          fun _ => False := fun sp' v' hs' hkeeps => .ok ⟨hs', hkeeps, fun hok => by cases hok⟩
    have hcases := sub64_cases (hpushed.le.trans hs.top) (show arg.length + 1 ≤ 2 ^ 63 by omega)
    have hal := align_mod (sub64 sp (arg.length + 1))
    simp only [pushArgs]
    generalize sub64 sp (arg.length + 1) - sub64 sp (arg.length + 1) % 16 = sp' at hcases hal
    split
    · exact hfail _ v hs (.refl n v)
    · split
      · exact hfail _ v hs (.refl n v)
      · rename_i hbase
        have htop := hpushed.le
        have hin : (n + 1) * pgsize ≤ sp' ∧ sp' + (arg ++ [0]).length ≤ (n + 2) * pgsize ∨
            maxva ≤ sp' := by
          rw [hlength]
          exact hcases.imp (fun hle => ⟨by omega, by omega⟩) id
        refine (hs.copyout h hin).bind fun r hr => ?_
        · obtain ⟨ok, v'⟩ := r
          obtain ⟨hs', hkeeps, hbytes⟩ := hr
          cases ok with
          | false => exact hfail _ v' hs' hkeeps
          | true =>
            have hbytes : v'.userByte 0 = _ := hbytes rfl
            have hle : sp' + (arg.length + 1) ≤ sp := by
              refine hcases.resolve_right fun hbeyond => ?_
              have hget : v'.userByte 0 sp' = some ((arg ++ [0]).headD 0) := by
                rw [hbytes]
                cases arg <;> exact splice_inside le_rfl (by rw [Nat.sub_self]; rfl)
              exact absurd (lt_maxva_of_userByte (by rw [hget]; exact some_ne_none _))
                (Nat.not_lt.mpr hbeyond)
            have hpushed' := hpushed.push hal hle
            rw [← hbytes] at hpushed'
            have hrest := ih hs' hpushed' (Nat.not_lt.mp hbase) fun s hs =>
              hargs s (mem_cons_of_mem arg hs)
            rw [append_assoc, singleton_append] at hrest
            exact hrest.imp fun r hr => ⟨hr.1, hkeeps.trans hr.2.1, hr.2.2⟩

/-- The stack of the new image, or a failure with an image that can be freed. -/
theorem buildStack_pushes (psz : Nat) (h : m.InUse tf) (hi : Loaded m tf ((n + 2) * pgsize) v)
    {argv : List (List UInt8)} (hargs : ∀ arg ∈ argv, arg.length < 2 ^ 63) :
    Ends (buildStack psz argv ((n + 2) * pgsize) v) (fun r => Stacked m tf n r.2 ∧ Keeps n v r.2 ∧
      ∀ sp, r.1 = some sp → ∃ ustack, ArgStack (r.2.userByte 0) ((n + 1) * pgsize)
        ((n + 2) * pgsize) argv sp ustack) fun _ => maxarg ≤ argv.length := by
  have hguard : (n + 2) * pgsize - (userstack + 1) * pgsize = n * pgsize := by
    simp only [userstack, pgsize]
    omega
  have hbase : (n + 2) * pgsize - userstack * pgsize = (n + 1) * pgsize := by
    simp only [userstack, pgsize]
    omega
  rw [buildStack, hguard]
  refine ((hi.clear h).mono (fun _ => id) fun _ hno => hno.elim).bind fun v₁ hv₁ => ?_
  obtain ⟨hs₁, hkeeps₁⟩ := hv₁
  simp only [hbase]
  have hempty : Pushed (v₁.userByte 0) ((n + 2) * pgsize) [] [] ((n + 2) * pgsize) := by
    refine ⟨?_, le_rfl, .nil, .nil⟩
    simp only [pgsize]
    omega
  have hstart : (n + 1) * pgsize ≤ (n + 2) * pgsize := Nat.mul_le_mul_right _ (Nat.le_succ _)
  refine ((pushArgs_pushes h argv hs₁ hempty hstart hargs).mono (fun _ => id) fun _ hno =>
    hno.elim).bind fun r hr => ?_
  obtain ⟨ok, sp, ustack, v₂⟩ := r
  obtain ⟨hs₂, hkeeps₂, hpushed⟩ := hr
  have hkept₂ : Keeps n v v₂ := hkeeps₁.trans hkeeps₂
  cases ok with
  | false => exact .ok ⟨hs₂, hkept₂, fun sp' h' => by cases h'⟩
  | true =>
    obtain ⟨hsp, hpushed⟩ := hpushed rfl
    have hsp : (n + 1) * pgsize ≤ sp := hsp
    have hpushed : Pushed (v₂.userByte 0) ((n + 2) * pgsize) argv ustack sp := hpushed
    have hcount := hpushed.strings.length_eq
    have htop := hpushed.le
    simp only [Bool.not_true, Bool.false_eq_true, if_false]
    by_cases hfew : maxarg ≤ ustack.length
    · rw [if_pos hfew]
      exact .error (hcount ▸ hfew)
    rw [if_neg hfew]
    have hsmall : (argv.length + 1) * 8 ≤ 256 := by
      simp only [maxarg] at hfew
      omega
    have hle : sub64 sp ((argv.length + 1) * 8) - sub64 sp ((argv.length + 1) * 8) % 16 +
        8 * (argv.length + 1) ≤ sp := by
      have hlast := hs₂.top
      simp only [sub64, trapframe, trampoline, maxva, pgsize] at hsp htop hlast ⊢
      omega
    have hal := align_mod (sub64 sp ((argv.length + 1) * 8))
    generalize sub64 sp ((argv.length + 1) * 8) - sub64 sp ((argv.length + 1) * 8) % 16 = sp'
      at hle hal
    split
    · exact .ok ⟨hs₂, hkept₂, fun sp' h' => by cases h'⟩
    · rename_i hlow
      have hfit : sp' + ((ustack ++ [0]).flatMap le64).length ≤ (n + 2) * pgsize := by
        rw [length_flatMap_le64, length_append, length_singleton, ← hcount]
        omega
      refine ((hs₂.copyout h (Or.inl ⟨Nat.not_lt.mp hlow, hfit⟩)).mono (fun _ => id) fun _ hno =>
        hno.elim).bind fun r hr => ?_
      · obtain ⟨ok, v₃⟩ := r
        obtain ⟨hs₃, hkeeps₃, hbytes⟩ := hr
        have hkept₃ : Keeps n v v₃ := hkept₂.trans hkeeps₃
        cases ok with
        | false => exact .ok ⟨hs₃, hkept₃, fun sp' h' => by cases h'⟩
        | true =>
          refine .ok ⟨hs₃, hkept₃, fun sp'' h' => ?_⟩
          obtain rfl : sp' = sp'' := some.inj h'
          have hbytes : v₃.userByte 0 = _ := hbytes rfl
          refine ⟨ustack, ?_⟩
          show ArgStack (v₃.userByte 0) _ _ _ _ _
          rw [hbytes]
          exact hpushed.argStack hal (Nat.not_lt.mp hlow) hle

/-- An image that `kexec` commits to: its last pages are the guard and the stack, with the
arguments at `sp`. -/
structure ReadyImage (m : Mem) (tf : Frame) (argv : List (List UInt8)) (n sp : Nat) (v : Vm) : Prop
    extends Stacked m tf n v where
  arguments : ∃ ustack, ArgStack (v.userByte 0) ((n + 1) * pgsize) ((n + 2) * pgsize) argv sp ustack

theorem Loaded.growStack {sz : Nat} (hi : Loaded m tf sz v) (psz : Nat) (h : m.InUse tf)
    {argv : List (List UInt8)} (hargs : ∀ arg ∈ argv, arg.length < 2 ^ 63) :
    Ends (growStack psz argv sz v) (fun r => Image m tf r.2.1 r.2.2 ∧ ∀ sp, r.1 = some sp →
      r.2.1 = (npg sz + 2) * pgsize ∧ ReadyImage m tf argv (npg sz) sp r.2.2)
      fun _ => maxarg ≤ argv.length := by
  have hround := pgroundup_of_le hi.top
  have hmul := npg_mul sz
  have hsame : npg (pgroundup sz) = npg sz := by
    rw [← hmul]
    exact npg_mul_pgsize (hmul ▸ hround.2.1)
  have hi' : Loaded m tf (pgroundup sz) v :=
    ⟨⟨hi.toTakes, hi.frames, hi.trampolinePage, hi.trapframePage, hround.2.1, hsame.symm ▸ hi.below,
      hsame.symm ▸ hi.length⟩, hsame.symm ▸ hi.pages⟩
  have hnew : (pgroundup sz + (userstack + 1) * pgsize) % 2 ^ 64 = (npg sz + 2) * pgsize := by
    have htop := hround.2.1
    simp only [userstack, trapframe, trampoline, maxva, pgsize] at htop hmul ⊢
    omega
  have hne : (npg sz + 2) * pgsize ≠ 0 := by
    simp only [pgsize]
    omega
  rw [Memory.growStack]
  simp only [hnew]
  refine ((hi'.alloc h _ true false).mono (fun _ => id) fun _ => False.elim).bind fun r hr => ?_
  obtain ⟨sz1, v₁⟩ := r
  rcases hr with ⟨hsz, hi₁⟩ | ⟨hzero, hi₁⟩
  · obtain rfl : sz1 = (npg sz + 2) * pgsize := by
      have hmax : sz1 = max (pgroundup sz) ((npg sz + 2) * pgsize) := hsz
      simp only [pgsize] at hmul hmax ⊢
      omega
    simp only [if_neg hne]
    refine (buildStack_pushes psz h hi₁ hargs).bind fun r hr => ?_
    exact .ok ⟨hr.1.toImage, fun sp hsp => ⟨rfl, hr.1, hr.2.2 sp hsp⟩⟩
  · obtain rfl : sz1 = 0 := hzero
    exact .ok ⟨hi₁.toImage, fun _ hsp => (by cases hsp)⟩

end Stack

end EafitOs.Memory
