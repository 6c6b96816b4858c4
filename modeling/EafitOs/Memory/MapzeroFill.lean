import EafitOs.Memory.CallEffects

/-!
# The bytes of a `mapzero` region

Where all regions and the size of a process begin and end on page boundaries, the page a fault
fills does not depend on the address of the fault, and a run of loads and stores shows every byte
as it was promised until it is stored to.
-/

namespace EafitOs.Memory

open Foundation Function Option

structure Idle (c c' : Ctx) : Prop where
  space : c'.vm.space = c.vm.space
  regions : SameRegions c.proc c'.proc
  fs : c'.fs = c.fs
  killed : c.proc.killed = true → c'.proc.killed = true
  owned : c'.vm.Owned
  sound : c'.mem.Sound

inductive AccessStep (namei : String → Option Nat) (c : Ctx) : Access → Ctx → Prop
  | touch {t : Touch} {r : Option Nat} {c' : Ctx} (hrun : c.run namei t.call = .ok (r, c')) :
      AccessStep namei c (.touch t r) c'
  | other {c' : Ctx} (h : Idle c c') : AccessStep namei c (.other c'.fs) c'

structure Proc.PageAligned (p : Proc) : Prop where
  sz : p.sz % pgsize = 0
  vmas : ∀ i, (p.vmas i).used = true → (p.vmas i).addr % pgsize = 0 ∧ (p.vmas i).length % pgsize = 0
  vregions : ∀ j, (p.vregions j).used = true →
    (p.vregions j).start % pgsize = 0 ∧ (p.vregions j).size % pgsize = 0

def Base (c : Ctx) (n : Nat) (x : Page × Perm) : Prop :=
  c.vm.space n = some x ∨ c.vm.space n = none ∧ trapPage c (n * pgsize) = .ok (some x)

structure Shows (c : Ctx) (ls : List Access) (c' : Ctx) : Prop where
  owned : c'.vm.Owned
  sound : c'.mem.Sound
  regions : SameRegions c.proc c'.proc
  fs : c'.fs = c.fs
  killed : c.proc.killed = true → c'.proc.killed = true
  page : ∀ n d perm, c'.vm.space n = some (d, perm) → ∃ d₀, Base c n (d₀, perm) ∧
    ∀ j : Fin pgsize, ¬Stored ls (n * pgsize + j) → d j = d₀ j
  gone : ∀ n x, c.vm.space n = some x → c'.vm.space n = none →
    c'.proc.killed = true ∧ c.proc.noVregion (n * pgsize)

section Aligned

variable {c c' c'' : Ctx} {a b n : Nat} {namei : String → Option Nat} {ls : List Access}

theorem Proc.PageAligned.vma_covers {p : Proc} (h : p.PageAligned) (hab : vpn a = vpn b)
    (i : Fin maxvma) : (p.vmas i).covers a = (p.vmas i).covers b := by
  cases hused : (p.vmas i).used with
  | false => simp only [Vma.covers, hused, Bool.false_and]
  | true =>
    obtain ⟨haddr, hlen⟩ := h.vmas i hused
    rw [Bool.eq_iff_iff, Vma.covers_iff, Vma.covers_iff]
    refine and_congr_right fun _ => ?_
    simp only [vpn, pgsize] at haddr hlen hab
    omega

theorem Proc.PageAligned.vregion_covers {p : Proc} (h : p.PageAligned) (hab : vpn a = vpn b)
    (j : Fin nvreg) : (p.vregions j).covers a = (p.vregions j).covers b := by
  cases hused : (p.vregions j).used with
  | false => simp only [Vregion.covers, hused, Bool.false_and]
  | true =>
    obtain ⟨hstart, hsize⟩ := h.vregions j hused
    rw [Bool.eq_iff_iff, Vregion.covers_iff, Vregion.covers_iff]
    refine and_congr_right fun _ => ?_
    simp only [vpn, pgsize] at hstart hsize hab
    omega

theorem Proc.PageAligned.trapPage_eq (h : c.proc.PageAligned) (hab : vpn a = vpn b) :
    trapPage c a = trapPage c b := by
  have hround : pgrounddown a = pgrounddown b := congrArg (· * pgsize) hab
  have hsz : (a < c.proc.sz) = (b < c.proc.sz) := by
    have haligned := h.sz
    simp only [vpn, pgsize] at hab haligned
    exact propext (by omega)
  simp only [trapPage, h.vregion_covers hab, h.vma_covers hab, hround, hsz]

theorem trapPage_later (hregions : SameRegions c.proc c'.proc) (hfs : c'.fs = c.fs)
    (hkilled : c.proc.killed = true → c'.proc.killed = true) {x : Page × Perm}
    (h : trapPage c' a = .ok (some x)) : trapPage c a = .ok (some x) := by
  simp only [trapPage, hregions.vregions, hregions.vmas, hregions.sz, hfs] at h ⊢
  split
  · rename_i hj
    simpa only [hj] using h
  · rename_i hj
    simp only [hj] at h
    cases hdead : c.proc.killed with
    | true =>
      rw [hkilled hdead] at h
      cases h
    | false =>
      cases hdead' : c'.proc.killed with
      | true =>
        rw [hdead'] at h
        cases h
      | false => simpa only [hdead', Bool.false_eq_true, if_false] using h

theorem trapPage_dead (hdead : c.proc.killed = true) (hregion : c.proc.noVregion a) :
    trapPage c a = .ok none := by
  simp only [trapPage, firstIdx_none.mpr hregion, hdead, if_true]

theorem Trap.sound {va : Nat} (h : Trap c va c') (hv : c.vm.Owned) (hsound : c.mem.Sound) :
    c'.mem.Sound := by
  have hkend : c'.mem.kend = c.mem.kend := (h.moves hv).kend
  intro f hf
  rw [hkend]
  cases h with
  | served _ _ hfill => exact hsound f (hfill.free f hf)
  | starved _ _ _ _ hfree => exact hsound f (hfree f hf)
  | ignored => exact hsound f hf
  | dropped _ hmax _ _ _ hunmap =>
    have hdrops := (uvmunmap_one hv hmax).of_eq_ok hunmap
    rcases hdrops.free f hf with hold | ⟨i, hi, e, he, rfl⟩
    · exact hsound f hold
    · exact hdrops.freed i hi e he

theorem Trap.same {va : Nat} (h : Trap c va c') : SameRegions c.proc c'.proc ∧ c'.fs = c.fs ∧
    (c.proc.killed = true → c'.proc.killed = true) := by
  refine ⟨h.sameRegions, ?_⟩
  cases h with
  | served => exact ⟨rfl, id⟩
  | starved => exact ⟨rfl, fun _ => rfl⟩
  | ignored => exact ⟨rfl, id⟩
  | dropped => exact ⟨rfl, fun _ => rfl⟩

theorem Shows.refl (hv : c.vm.Owned) (hsound : c.mem.Sound) : Shows c [] c :=
  ⟨hv, hsound, .refl _, rfl, id, fun _ d _ h => ⟨d, Or.inl h, fun _ _ => rfl⟩, fun _ x h hnone =>
    absurd (h.symm.trans hnone) (some_ne_none x)⟩

theorem Shows.hit (h : Shows c ls c') {t : Touch} {d : Page} {perm : Perm} {r : Option Nat × Ctx}
    (hr : Hit c' t d perm r) : Shows c (ls ++ [.touch t r.1]) r.2 := by
  have hctx := hr.ctx
  have hproc : r.2.proc = c'.proc := by rw [hctx]
  refine ⟨hr.moves.owned h.owned, fun f hf => ?_, ?_, ?_, ?_, fun n e perm' hn => ?_,
    fun n x hx hn => ?_⟩
  · have hkend : r.2.mem.kend = c'.mem.kend := hr.moves.kend
    rw [hkend]
    exact h.sound f (hr.free ▸ hf)
  · rw [hproc]
    exact h.regions
  · rw [hctx]
    exact h.fs
  · rw [hproc]
    exact h.killed
  · rw [hr.space] at hn
    by_cases hpage : n = vpn t.va
    · subst hpage
      rw [update_self] at hn
      obtain ⟨rfl, rfl⟩ := Prod.mk.inj (some.inj hn)
      obtain ⟨d₀, hbase, hbytes⟩ := h.page _ _ _ hr.page
      refine ⟨d₀, hbase, fun j hj => ?_⟩
      rw [← hbytes j fun hold => hj (hold.append _)]
      cases t with
      | load va => rfl
      | store va b =>
        refine update_of_ne (fun heq => hj ?_) _ _
        refine ⟨va, b, 0, List.mem_append_right _ ?_, ?_⟩
        · rw [hr.value]
          exact List.mem_singleton.mpr rfl
        · rw [heq]
          exact (Nat.div_add_mod' va.toNat pgsize).symm
    · rw [update_of_ne hpage] at hn
      obtain ⟨d₀, hbase, hbytes⟩ := h.page n e perm' hn
      exact ⟨d₀, hbase, fun j hj => hbytes j fun hold => hj (hold.append _)⟩
  · rw [hr.space] at hn
    by_cases hpage : n = vpn t.va
    · rw [hpage, update_self] at hn
      cases hn
    · rw [update_of_ne hpage] at hn
      rw [hproc]
      exact h.gone n x hx hn

theorem Shows.trap (h : Shows c ls c') (haligned : c.proc.PageAligned) {va : Nat}
    (htrap : Trap c' va c'') (l : Access) : Shows c (ls ++ [l]) c'' := by
  obtain ⟨hregions, hfs, hkilled⟩ := htrap.same
  have hold : ∀ {n d perm}, c'.vm.space n = some (d, perm) → ∃ d₀, Base c n (d₀, perm) ∧
      ∀ j : Fin pgsize, ¬Stored (ls ++ [l]) (n * pgsize + j) → d j = d₀ j := by
    intro n d perm hn
    obtain ⟨d₀, hbase, hbytes⟩ := h.page n d perm hn
    exact ⟨d₀, hbase, fun j hj => hbytes j fun hs => hj (hs.append l)⟩
  have hgone : ∀ {n x}, c.vm.space n = some x → c'.vm.space n = none →
      c''.proc.killed = true ∧ c.proc.noVregion (n * pgsize) := fun hx hn =>
    ⟨hkilled (h.gone _ _ hx hn).1, (h.gone _ _ hx hn).2⟩
  have hnoVregion : c'.proc.noVregion va ↔ c.proc.noVregion (vpn va * pgsize) := by
    have hcovers : ∀ j, (c'.proc.vregions j).covers va =
        (c.proc.vregions j).covers (vpn va * pgsize) := fun j => by
      rw [h.regions.vregions]
      exact haligned.vregion_covers (vpn_mul _).symm j
    exact forall_congr' fun j => by rw [hcovers j]
  refine ⟨(htrap.moves h.owned).owned h.owned, htrap.sound h.owned h.sound,
    h.regions.trans hregions, hfs.trans h.fs, fun hdead => hkilled (h.killed hdead), ?_, ?_⟩
  · intro n d perm hn
    rcases htrap.space h.owned with ⟨hnone, d', perm', hserved, hspace, -⟩ | hspace | ⟨hspace, -⟩
    · rw [hspace] at hn
      by_cases hpage : n = vpn va
      · subst hpage
        rw [update_self] at hn
        obtain ⟨rfl, rfl⟩ := Prod.mk.inj (some.inj hn)
        refine ⟨d', ?_, fun _ _ => rfl⟩
        have hserved₀ := trapPage_later h.regions h.fs h.killed hserved
        rw [haligned.trapPage_eq (vpn_mul _).symm] at hserved₀
        cases hfirst : c.vm.space (vpn va) with
        | none => exact Or.inr ⟨hfirst, hserved₀⟩
        | some x =>
          -- the page was there and has been given up: no fault is served there any more
          obtain ⟨hdead, hregion⟩ := h.gone _ x hfirst hnone
          rw [trapPage_dead hdead (hnoVregion.mpr hregion)] at hserved
          cases hserved
      · rw [update_of_ne hpage] at hn
        exact hold hn
    · exact hold (hspace ▸ hn)
    · rw [hspace] at hn
      by_cases hpage : n = vpn va
      · rw [hpage, update_self] at hn
        cases hn
      · rw [update_of_ne hpage] at hn
        exact hold hn
  · intro n x hx hn
    rcases htrap.space h.owned with ⟨-, d', perm', -, hspace, -⟩ | hspace | ⟨hspace, hregion, hdead⟩
    · rw [hspace] at hn
      by_cases hpage : n = vpn va
      · rw [hpage, update_self] at hn
        cases hn
      · rw [update_of_ne hpage] at hn
        exact hgone hx hn
    · exact hgone hx (hspace ▸ hn)
    · by_cases hpage : n = vpn va
      · subst hpage
        exact ⟨hdead, hnoVregion.mp hregion⟩
      · rw [hspace, update_of_ne hpage] at hn
        exact hgone hx hn

theorem Shows.idle (h : Shows c ls c') (hidle : Idle c' c'') :
    Shows c (ls ++ [.other c''.fs]) c'' where
  owned := hidle.owned
  sound := hidle.sound
  regions := h.regions.trans hidle.regions
  fs := hidle.fs.trans h.fs
  killed hdead := hidle.killed (h.killed hdead)
  page n d perm hn := by
    obtain ⟨d₀, hbase, hbytes⟩ := h.page n d perm (hidle.space ▸ hn)
    exact ⟨d₀, hbase, fun j hj => hbytes j fun hs => hj (hs.append _)⟩
  gone n x hx hn := by
    obtain ⟨hdead, hregion⟩ := h.gone n x hx (hidle.space ▸ hn)
    exact ⟨hidle.killed hdead, hregion⟩

theorem Shows.run (hv : c.vm.Owned) (hsound : c.mem.Sound) (haligned : c.proc.PageAligned)
    (run : Run (AccessStep namei) c ls c') : Shows c ls c' := by
  induction run with
  | nil => exact .refl hv hsound
  | snoc _ hstep ih =>
    cases hstep with
    | @touch t r c'' hrun =>
      rcases (touch_cases namei ih.owned t).of_eq_ok hrun with ⟨d, perm, hhit⟩ | ⟨-, htrap⟩
      · exact ih.hit hhit
      · exact ih.trap haligned htrap _
    | other hidle => exact ih.idle hidle

end Aligned

section Region

variable {c c₁ c' : Ctx} {s : Nat} {size : Int32} {namei : String → Option Nat} {ls : List Access}

def Previous (c : Ctx) (a n : Nat) : Prop :=
  ∃ d perm, (c.vm.space (vpn a) = some (d, perm) ∨
    c.vm.space (vpn a) = none ∧ trapPage c a = .ok (some (d, perm))) ∧ n = (d (pageOffset a)).toNat

def LoadsAs (namei : String → Option Nat) (c : Ctx) (va : UInt64) (n : Nat) : Prop :=
  ∃ r c', c.run namei (.load va) = .ok (r, c') ∧ match r with
    | some n' => n' = n
    | none => c'.proc.killed = true ∨ c'.run namei (.load va) = .ok (some n, c')

/-- After a run of loads and stores from `c₁` on: the bytes of the region read 0x41, and the
bytes below it read what they did or 0, unless they were stored to. -/
def MapzeroFills (namei : String → Option Nat) (c : Ctx) (s len : Nat) (c₁ : Ctx) : Prop :=
  ∀ ls c', Run (AccessStep namei) c₁ ls c' → ∀ va : UInt64, ¬Stored ls va.toNat →
    (s ≤ va.toNat → va.toNat < s + len → LoadsAs namei c' va 0x41) ∧
    (va.toNat < s → ∀ n c'', c'.run namei (.load va) = .ok (some n, c'') →
      Previous c va.toNat n ∨ n = 0)

/-- The process has only whole pages and none of them is in the region already. -/
structure MapzeroSafe (c : Ctx) (len : Nat) : Prop where
  aligned : c.proc.PageAligned
  fresh : ∀ n ∈ c.proc.pt.leaf, ¬Overlaps c.proc.sz len n

structure Mapzeroed (c : Ctx) (size : Int32) (c₁ : Ctx) : Prop where
  vm : c₁.vm = c.vm
  fs : c₁.fs = c.fs
  killed : c₁.proc.killed = c.proc.killed
  vmas : c₁.proc.vmas = c.proc.vmas
  grows : c.proc.sz + size.toInt.toNat ≤ c₁.proc.sz
  top : c₁.proc.sz ≤ trapframe
  whole : ∃ k, c₁.proc.sz = c.proc.sz + k * pgsize
  region : ∃ i, (c.proc.vregions i).used = false ∧ c₁.proc.vregions = update c.proc.vregions i
    ⟨true, c.proc.sz, c₁.proc.sz - c.proc.sz⟩

theorem mapzero_pages {sz : Nat} {n : Int} (hpos : 0 < n) (hlt : n < 2 ^ 31)
    (hle : sz ≤ addInt sz (pgroundupInt n)) (htop : addInt sz (pgroundupInt n) ≤ trapframe) :
    ∃ k : Nat, pgroundupInt n = (k * pgsize : Nat) ∧ n ≤ (k * pgsize : Nat) := by
  have hround : (n + 4095).bmod (2 ^ 32) = n + 4095 ∨ (n + 4095).bmod (2 ^ 32) = n +
    4095 - 2 ^ 32 := by
    rw [Int.bmod_def]
    omega
  simp only [pgroundupInt, addInt, trapframe, trampoline, maxva, pgsize] at hle htop ⊢
  rcases hround with heq | heq
  · rw [heq]
    exact ⟨((n + 4095) / 4096).toNat, by omega, by omega⟩
  · rw [heq] at hle htop
    omega

theorem mapzeroed_of_run (hrun : c.run namei (.mapzero size) = .ok (some s, c₁)) :
    s = c.proc.sz ∧ Mapzeroed c size c₁ := by
  have hrun : sysMapzero c size.toInt = (some s, c₁) := Except.ok.inj hrun
  rcases sysMapzero_cases c size.toInt with heq | ⟨i, hpos, hfree, hle, htop, heq⟩
  · rw [heq] at hrun
    cases hrun
  · rw [heq] at hrun
    obtain ⟨hs, rfl⟩ := Prod.mk.inj hrun
    have hlt : size.toInt < 2 ^ 31 := size.toInt_lt
    obtain ⟨k, hk, hsize⟩ := mapzero_pages hpos hlt hle htop
    have hbound := (pgroundupInt_bounds size.toInt).2
    rw [hk] at hle htop hbound
    have hend : addInt c.proc.sz (k * pgsize : Nat) = c.proc.sz + k * pgsize := by
      simp only [addInt, trapframe, trampoline, maxva, pgsize] at hle htop hbound ⊢
      omega
    have hzero : addInt 0 (k * pgsize : Nat) = k * pgsize := by
      simp only [addInt, pgsize] at hbound ⊢
      omega
    simp only [hk, hend, hzero] at htop ⊢
    refine ⟨some.inj hs.symm, rfl, rfl, rfl, rfl, ?_, htop, ⟨k, rfl⟩, i, hfree, ?_⟩
    · show c.proc.sz + size.toInt.toNat ≤ c.proc.sz + k * pgsize
      simp only [pgsize] at hsize ⊢
      omega
    · simp only [Nat.add_sub_cancel_left]

namespace Mapzeroed

section

variable (h : Mapzeroed c size c₁)
include h

theorem aligned (haligned : c.proc.PageAligned) : c₁.proc.PageAligned := by
  obtain ⟨k, hk⟩ := h.whole
  obtain ⟨i, -, hregion⟩ := h.region
  have hsz := haligned.sz
  refine ⟨?_, ?_, fun j hj => ?_⟩
  · simp only [hk, pgsize] at hsz ⊢
    omega
  · rw [h.vmas]
    exact haligned.vmas
  · rw [hregion] at hj ⊢
    by_cases hji : j = i
    · rw [hji, update_self]
      simp only [hk, pgsize] at hsz ⊢
      omega
    · rw [update_of_ne hji] at hj ⊢
      exact haligned.vregions j hj

theorem covered {a : Nat} (hle : c.proc.sz ≤ a) (hlt : a < c₁.proc.sz) : ¬c₁.proc.noVregion a := by
  obtain ⟨i, -, hregion⟩ := h.region
  have hcover : (c₁.proc.vregions i).covers a = true := by
    have htop := h.top
    rw [hregion, update_self, Vregion.covers_iff]
    simp only [trapframe, trampoline, maxva, pgsize] at htop ⊢
    exact ⟨trivial, hle, by omega⟩
  exact fun hnone => Bool.false_ne_true ((hnone i).symm.trans hcover)

theorem trapPage_region {a : Nat} (hle : c.proc.sz ≤ a)
    (hlt : a < c₁.proc.sz) : trapPage c₁ a = .ok (some (memset 0x41, .heap)) := by
  cases hj : firstIdx fun j => (c₁.proc.vregions j).covers a with
  | none => exact absurd (firstIdx_none.mp hj) (h.covered hle hlt)
  | some j => simp only [trapPage, hj]

theorem trapPage_below {a : Nat} (ha : a < c.proc.sz) : trapPage c₁ a = trapPage c a := by
  obtain ⟨i, hfree, hregion⟩ := h.region
  have hcovers : ∀ j, (c₁.proc.vregions j).covers a = (c.proc.vregions j).covers a := by
    intro j
    rw [hregion]
    by_cases hji : j = i
    · rw [hji, update_self]
      simp only [Vregion.covers, hfree, Nat.not_le.mpr ha, decide_false, Bool.and_false,
        Bool.false_and]
    · rw [update_of_ne hji]
  have hsz : a < c₁.proc.sz := ha.trans_le ((Nat.le_add_right _ _).trans h.grows)
  simp only [trapPage, hcovers, h.vmas, h.fs, h.killed, if_pos ha, if_pos hsz]

end

end Mapzeroed

theorem run_load_page {va : UInt64} {d : Page} {perm : Perm} (hmax : va.toNat < maxva)
    (hpage : c.vm.space (vpn va.toNat) = some (d, perm)) (hperm : (perm.u && perm.r) = true) :
    c.run namei (.load va) = .ok (some (d (pageOffset va.toNat)).toNat, c) := by
  obtain ⟨e, he, heq⟩ := map_eq_some_iff.mp hpage
  obtain ⟨rfl, rfl⟩ := Prod.mk.inj heq
  simp only [Ctx.run, loadByte, loadPte_some.mpr ⟨hmax, he, hperm⟩, map_some]

theorem usertrap_region {a : Nat} (hv : c.vm.Owned) (hsound : c.mem.Sound) (hmax : a < maxva)
    (hpage : vpn a ∉ c.proc.pt.leaf) (hcover : ¬c.proc.noVregion a) :
    ∃ c', usertrap c a = .ok c' ∧ (c'.proc.killed = true ∨
      c'.vm.space (vpn a) = some (memset 0x41, .heap)) := by
  cases hj : firstIdx fun j => (c.proc.vregions j).covers a with
  | none => exact absurd (firstIdx_none.mp hj) hcover
  | some j =>
    obtain ⟨⟨o, w⟩, hr, -⟩ := fills_page (memset 0x41) .heap hpage hmax hsound
    have htrap : usertrap c a = .ok (if o.isSome then c.setVm w else (c.setVm w).setKilled) := by
      cases o <;> simp [usertrap, vregionFault, hj, ismapped_missing hpage (pgrounddown_lt hmax),
        hr, orElse, Ctx.setKilled, bind, Except.bind]
    refine ⟨_, htrap, ?_⟩
    cases o with
    | none => exact Or.inl rfl
    | some f =>
      obtain ⟨-, -, -, -, hspace⟩ :=
        ((mapFilled_spec hv (pgrounddown_mod a) _ _).of_eq_ok hr).mapped f rfl
      refine Or.inr ?_
      rw [vpn_pgrounddown] at hspace
      exact (congrFun hspace _).trans (update_self _ _ _)

section Loads

variable (h₁ : Mapzeroed c size c₁) (haligned : c₁.proc.PageAligned) (hshows : Shows c₁ ls c')
  {va : UInt64} (hstored : ¬Stored ls va.toNat)
include h₁ haligned hshows hstored

theorem loads_region (hle : c.proc.sz ≤ va.toNat) (hend : va.toNat < c₁.proc.sz)
    (hfresh : c₁.vm.space (vpn va.toNat) = none) : LoadsAs namei c' va 0x41 := by
  have hmax : va.toNat < maxva := by
    have htop := h₁.top
    simp only [trapframe, trampoline, maxva, pgsize] at htop ⊢
    omega
  cases hpage : c'.vm.space (vpn va.toNat) with
  | some x =>
    obtain ⟨d, perm⟩ := x
    obtain ⟨d₀, hbase, hbytes⟩ := hshows.page _ d perm hpage
    have hserved : trapPage c₁ va.toNat = .ok (some (d₀, perm)) := by
      rw [haligned.trapPage_eq (vpn_mul (vpn va.toNat)).symm]
      refine (hbase.resolve_left fun hthere => ?_).2
      rw [hfresh] at hthere
      cases hthere
    rw [h₁.trapPage_region hle hend] at hserved
    obtain ⟨rfl, rfl⟩ := Prod.mk.inj (some.inj (Except.ok.inj hserved))
    refine ⟨_, c', run_load_page hmax hpage rfl, ?_⟩
    rw [hbytes _ (by rwa [vpn_add_pageOffset])]
    rfl
  | none =>
    have hmissing : vpn va.toNat ∉ c'.proc.pt.leaf :=
      AList.lookup_eq_none.mp (map_eq_none_iff.mp hpage)
    have hcover : ¬c'.proc.noVregion va.toNat := by
      rw [Proc.noVregion, hshows.regions.vregions]
      exact h₁.covered hle hend
    obtain ⟨c'', htrap, hcase⟩ := usertrap_region hshows.owned hshows.sound hmax hmissing hcover
    refine ⟨none, c'', ?_, hcase.imp id fun hspace => run_load_page hmax hspace rfl⟩
    rw [show Call.load va = (Touch.load va).call from rfl, run_missing hmissing,
      show usertrap c' (Touch.load va).va = .ok c'' from htrap]
    rfl

theorem loads_below (hlt : va.toNat < c.proc.sz) {n : Nat} {c'' : Ctx}
    (hload : c'.run namei (.load va) = .ok (some n, c'')) : Previous c va.toNat n := by
  rcases (touch_cases namei hshows.owned (.load va)).of_eq_ok hload with
    ⟨d, perm, hhit⟩ | ⟨hnone, -⟩
  · have hpage : c'.vm.space (vpn va.toNat) = some (d, perm) := hhit.page
    obtain ⟨d₀, hbase, hbytes⟩ := hshows.page _ d perm hpage
    refine ⟨d₀, perm, ?_, ?_⟩
    · rw [← h₁.vm, ← h₁.trapPage_below hlt, haligned.trapPage_eq (vpn_mul (vpn va.toNat)).symm]
      exact hbase
    · rw [← hbytes _ (by rwa [vpn_add_pageOffset])]
      exact some.inj hhit.value
  · cases hnone

end Loads

/-- Where the size and the regions of the process are whole pages, `sys_mapzero` gives a region
that reads 0x41 and leaves the bytes below it alone. -/
theorem mapzero_fills (hv : c.vm.Owned) (hsound : c.mem.Sound)
    (hrun : c.run namei (.mapzero size) = .ok (some s, c₁))
    (hsafe : MapzeroSafe c size.toInt.toNat) :
    MapzeroFills namei c s size.toInt.toNat c₁ := by
  obtain ⟨rfl, h₁⟩ := mapzeroed_of_run hrun
  have haligned := h₁.aligned hsafe.aligned
  have hmem : c₁.mem = c.mem := congrArg Vm.mem h₁.vm
  intro ls c' run va hstored
  have hshows := Shows.run (h₁.vm ▸ hv) (hmem ▸ hsound) haligned run
  refine ⟨fun hle hlt => ?_, fun hlt n c'' hload => ?_⟩
  · refine loads_region h₁ haligned hshows hstored hle (hlt.trans_le h₁.grows) ?_
    rw [h₁.vm]
    refine space_none fun hmem => hsafe.fresh _ hmem ?_
    simp only [Overlaps, vpn, pgsize]
    omega
  · exact Or.inl (loads_below h₁ haligned hshows hstored hlt hload)

end Region

/-- A process of one page that reserves another. -/
theorem mapzero_fills_first : ∃ c₁, sampleCtx.run sampleKernel.namei (.mapzero 100) =
    .ok (some 4096, c₁) ∧ MapzeroFills sampleKernel.namei sampleCtx 4096 100 c₁ := by
  have hrun : sampleCtx.run sampleKernel.namei (.mapzero 100) =
      .ok (some 4096, (sysMapzero sampleCtx 100).2) := rfl
  have hsafe : MapzeroSafe sampleCtx 100 := by
    refine ⟨⟨rfl, fun i hi => ?_, fun j hj => ?_⟩, fun n hn hover => ?_⟩
    · cases hi
    · cases hj
    · have hpages : ∀ n ∈ sampleCtx.proc.pt.leaf.keys, n = vpn trampoline ∨ n = vpn trapframe := by
        decide +kernel
      have hover : 0 < 100 ∧ 4096 < (n + 1) * 4096 ∧ n * 4096 < 4096 + 100 := hover
      rcases hpages n (AList.mem_keys.mp hn) with rfl | rfl
      · simp only [vpn, trampoline, maxva, pgsize] at hover
        omega
      · simp only [vpn, trapframe, trampoline, maxva, pgsize] at hover
        omega
  exact ⟨_, hrun, mapzero_fills sampleCtx_owned sampleKernel_sound hrun hsafe⟩

/-- Where `p->sz` is inside a page, the first access to that page decides: below the region
it leaves zeros in the region, in the region it leaves 0x41 below it. -/
theorem mapzero_shares_page : ∃ c₁ c₂ c₃ c₄ c₅,
    (sampleCtx.setSz 5000).run sampleKernel.namei (.mapzero 100) = .ok (some 5000, c₁) ∧
    c₁.run sampleKernel.namei (.load 4999) = .ok (none, c₂) ∧
    c₂.run sampleKernel.namei (.load 5000) = .ok (some 0, c₃) ∧
    c₁.run sampleKernel.namei (.load 5000) = .ok (none, c₄) ∧
    c₄.run sampleKernel.namei (.load 4999) = .ok (some 0x41, c₅) := by
  simp only [exists_and_left]
  decide +kernel

end EafitOs.Memory
