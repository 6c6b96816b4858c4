import EafitOs.Memory.Unmapping

/-!
# What the calls do to an address space

Every call of a process but `exec` moves frames between the free list, the tables and the pages of
the process.
-/

namespace EafitOs.Memory

open Foundation Function Option

def Overlaps (va len n : Nat) : Prop :=
  0 < len ∧ va < (n + 1) * pgsize ∧ n * pgsize < va + len

section Copies

variable {v v' v'' : Vm} {sz : Nat}

theorem setPage_moves {f : Frame} (hf : f ∈ v.frames) (d : Page) :
    Moves v { v with mem := v.mem.setPage f d } := by
  refine ⟨rfl, fun g hg => ?_, id, rfl, rfl⟩
  have hne : g ≠ f := fun heq => hg (heq ▸ hf)
  exact update_of_ne hne _ _

end Copies

section Size

variable {c : Ctx}

theorem sysMapzero_cases (c : Ctx) (size : Int) : sysMapzero c size = (none, c) ∨
    ∃ i, 0 < size ∧ (c.proc.vregions i).used = false ∧
      c.proc.sz ≤ addInt c.proc.sz (pgroundupInt size) ∧
      addInt c.proc.sz (pgroundupInt size) ≤ trapframe ∧
      sysMapzero c size = (some c.proc.sz, { c with proc := { c.proc with
        sz := addInt c.proc.sz (pgroundupInt size)
        vregions := update c.proc.vregions i
          ⟨true, c.proc.sz, addInt 0 (pgroundupInt size)⟩ } }) := by
  simp only [sysMapzero]
  split
  · exact Or.inl rfl
  · rename_i hpos
    split
    · exact Or.inl rfl
    · rename_i i hi
      split
      · exact Or.inl rfl
      · rename_i hle
        split
        · exact Or.inl rfl
        · rename_i htop
          refine Or.inr ⟨i, Int.not_le.mp hpos, ?_, Nat.not_lt.mp hle, Nat.not_lt.mp htop, rfl⟩
          simpa using firstIdx_some hi

end Size

section Touches

variable {c c' : Ctx} {va : Nat}

theorem Trap.moves (h : Trap c va c') (hv : c.vm.Owned) : Moves c.vm c'.vm := by
  cases h with
  | served _ _ hfill => exact hfill.moves
  | starved _ hmoves => exact hmoves
  | ignored => exact .refl _
  | dropped _ _ _ _ _ hunmap => exact ((uvmunmap_spec hv _ _).of_eq_ok hunmap).2.moves

theorem Trap.sameRegions (h : Trap c va c') : SameRegions c.proc c'.proc := by
  cases h with
  | served => exact ⟨rfl, rfl, rfl⟩
  | starved => exact ⟨rfl, rfl, rfl⟩
  | ignored => exact .refl _
  | dropped => exact ⟨rfl, rfl, rfl⟩

theorem setPage_space {v : Vm} (hv : v.Owned) {n : Nat} {e : Pte}
    (he : v.pt.leaf.lookup n = some e) (d : Page) :
    Vm.space { v with mem := v.mem.setPage e.frame d } =
      update v.space n (some (d, e.perm)) := by
  funext k
  by_cases hk : k = n
  · subst hk
    simp only [Vm.space, he, Mem.setPage, update_self, map_some]
  · rw [update_of_ne hk, Vm.space, Vm.space]
    cases hk' : v.pt.leaf.lookup k with
    | none => rfl
    | some e' =>
      have hne : e'.frame ≠ e.frame := fun heq => hk (hv.inj hk' he heq)
      simp only [map_some, Mem.setPage, update_of_ne hne]

namespace Touch

def write : Touch → Page → Page
  | .load _, d => d
  | .store va b, d => update d (pageOffset va.toNat) b

def value : Touch → Page → Nat
  | .load va, d => (d (pageOffset va.toNat)).toNat
  | .store _ _, _ => 0

/-- What the access needs of the permissions of the page. -/
def allowed : Touch → Perm → Bool
  | .load _, perm => perm.u && perm.r
  | .store _ _, perm => perm.u && perm.r && perm.w

end Touch

structure Hit (c : Ctx) (t : Touch) (d : Page) (perm : Perm) (r : Option Nat × Ctx) : Prop where
  below : t.va < maxva
  page : c.vm.space (vpn t.va) = some (d, perm)
  allowed : t.allowed perm = true
  value : r.1 = some (t.value d)
  space : r.2.vm.space = update c.vm.space (vpn t.va) (some (t.write d, perm))
  moves : Moves c.vm r.2.vm
  ctx : r.2 = { c with mem := r.2.mem }
  free : r.2.mem.free = c.mem.free

theorem loadPte_some {pt : PageTable} {e : Pte} : loadPte pt va = some e ↔
    va < maxva ∧ pt.leaf.lookup (vpn va) = some e ∧ (e.perm.u && e.perm.r) = true := by
  rw [loadPte]
  split
  · rename_i hmax
    refine ⟨fun h => ?_, fun h => absurd h.1 (Nat.not_lt.mpr hmax)⟩
    cases h
  · rename_i hmax
    rw [filter_eq_some_iff]
    exact ⟨fun h => ⟨Nat.not_le.mp hmax, h⟩, fun h => h.2⟩

theorem touch_cases (namei : String → Option Nat) (hv : c.vm.Owned) (t : Touch) :
    Ends (c.run namei t.call) (fun r => (∃ d perm, Hit c t d perm r) ∨
      r.1 = none ∧ Trap c t.va r.2) fun _ => True := by
  have htrap : Ends (usertrap c t.va >>= fun c' => .ok (none, c')) (fun r : Option Nat × Ctx =>
      r.1 = none ∧ Trap c t.va r.2) fun _ => True :=
    (usertrap_cases hv t.va).bind fun c' hc' => .ok ⟨rfl, hc'⟩
  have hspace : ∀ {n : Nat} {e : Pte}, c.proc.pt.leaf.lookup n = some e →
      c.vm.space n = some (c.mem.page e.frame, e.perm) := by
    intro n e he
    rw [Vm.space, show c.vm.pt.leaf.lookup n = some e from he]
    rfl
  cases t with
  | load va =>
    simp only [Touch.call, Ctx.run]
    split
    · rename_i b hb
      obtain ⟨e, he, rfl⟩ := map_eq_some_iff.mp hb
      obtain ⟨hmax, he, hperm⟩ := loadPte_some.mp he
      refine .ok (Or.inl ⟨_, _, hmax, hspace he, hperm, rfl, ?_, .refl _, rfl, rfl⟩)
      exact (update_eq_self_iff.mpr (hspace he).symm).symm
    · exact htrap.imp fun r hr => Or.inr hr
  | store va b =>
    simp only [Touch.call, Ctx.run]
    split
    · rename_i v hb
      obtain ⟨e, he, rfl⟩ := map_eq_some_iff.mp hb
      obtain ⟨he, hwrite⟩ := filter_eq_some_iff.mp he
      obtain ⟨hmax, he, hperm⟩ := loadPte_some.mp he
      refine .ok (Or.inl ⟨c.mem.page e.frame, e.perm, hmax, hspace he, ?_, rfl,
        setPage_space hv he _, setPage_moves (mem_frames_of_lookup he) _, rfl, rfl⟩)
      simp only [Touch.allowed, hperm, hwrite, Bool.and_true]
    · exact htrap.imp fun r hr => Or.inr hr

theorem Trap.space (h : Trap c va c') (hv : c.vm.Owned) :
    (c.vm.space (vpn va) = none ∧ ∃ d perm, trapPage c va = .ok (some (d, perm)) ∧
      c'.vm.space = update c.vm.space (vpn va) (some (d, perm)) ∧
      c'.proc.killed = c.proc.killed) ∨
    c'.vm.space = c.vm.space ∨
    c'.vm.space = update c.vm.space (vpn va) none ∧ c.proc.noVregion va ∧
      c'.proc.killed = true := by
  cases h with
  | @served d perm f w hpage htrap hfill =>
    obtain ⟨-, -, -, -, hspace⟩ := hfill.mapped f rfl
    rw [vpn_pgrounddown] at hspace
    exact Or.inl ⟨space_none hpage, d, perm, htrap, hspace, rfl⟩
  | starved _ _ _ hspace => exact Or.inr (Or.inl hspace)
  | ignored => exact Or.inr (Or.inl rfl)
  | @dropped w _ hmax hregion _ _ hunmap =>
    refine Or.inr (Or.inr ⟨funext fun n => ?_, hregion, rfl⟩)
    have hspace := ((uvmunmap_one hv hmax).of_eq_ok hunmap).space n
    rw [List.map_singleton, vpn_pgrounddown] at hspace
    simp only [List.mem_singleton] at hspace
    rw [update_apply]
    exact hspace

/-- A load or a store with its result, or a moment in which something else happens and
leaves these files. -/
inductive Access
  | touch (t : Touch) (r : Option Nat)
  | other (fs : Fs)

def Stored (ls : List Access) (a : Nat) : Prop :=
  ∃ va b n, Access.touch (.store va b) (some n) ∈ ls ∧ va.toNat = a

theorem Stored.append {ls : List Access} {a : Nat} (h : Stored ls a) (l : Access) :
    Stored (ls ++ [l]) a := by
  obtain ⟨va, b, n, hmem, ha⟩ := h
  exact ⟨va, b, n, List.mem_append_left _ hmem, ha⟩

theorem vpn_mul (n : Nat) : vpn (n * pgsize) = n := Nat.mul_div_cancel n (by decide)

theorem vpn_add_pageOffset (a : Nat) : vpn a * pgsize + (pageOffset a).val = a :=
  Nat.div_add_mod' a pgsize

end Touches

end EafitOs.Memory
