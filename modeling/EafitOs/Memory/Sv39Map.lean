import EafitOs.Memory.Entries
import EafitOs.Memory.Sv39

/-!
# The page table as a finite map

The table in memory stands for a map from pages to entries. `walk` may add tables but leaves the
map alone, `mappages` adds a run of pages to it and `uvmunmap` removes one.
-/

namespace EafitOs.Memory.Sv39

open Foundation Function List Option

section Entries

variable {f pte : Nat}

theorem readPte_setPage (m : Mem) (f : Frame) (d : Page) : readPte (m.setPage f d) =
    update (readPte m) f fun i => getLE d (8 * i) 8 := by
  funext g i
  by_cases hg : g = f
  · subst hg
    simp [readPte, Mem.setPage]
  · simp [readPte, Mem.setPage, update_of_ne hg]

theorem pte_fits (i : Fin 512) : 8 * i.val + 8 ≤ pgsize := by
  have hi := i.isLt
  rw [pgsize]
  omega

theorem bytes_of_word : 256 ^ 8 = 2 ^ 64 := by norm_num

theorem readPte_writePte (m : Mem) (f : Frame) (i : Fin 512) (pte : Nat) :
    readPte (writePte m f i pte) = setWord (readPte m) f i (pte % 2 ^ 64) := by
  rw [writePte, readPte_setPage, setWord]
  refine congrArg (update (readPte m) f) ?_
  funext j
  by_cases hij : j = i
  · subst hij
    rw [update_self, getLE_setLE (m.page f) pte (pte_fits j), bytes_of_word]
  · have hne : j.val ≠ i.val := fun h => hij (Fin.ext h)
    have hdis : 8 * j.val + 8 ≤ 8 * i.val ∨ 8 * i.val + 8 ≤ 8 * j.val := by omega
    rw [update_of_ne hij,
      getLE_setLE_of_disjoint (m.page f) pte (pte_fits i) (pte_fits j) hdis]
    rfl

theorem getLE_memset_zero (off len : Nat) : getLE (memset 0) off len = 0 := by
  induction len generalizing off with
  | zero => rfl
  | succ len ih =>
    rw [getLE, ih]
    rfl

theorem child_of_even (h : pte % 2 = 0) : child pte = none := by
  rw [child, pteV, Nat.and_one_is_mod, h]
  rfl

theorem child_of_odd (h : pte % 2 = 1) : child pte = some (pte / 1024 % 2 ^ 52) := by
  have hpage : pte2pa pte / pgsize = pte / 1024 % 2 ^ 52 := by
    rw [pte2pa, Nat.shiftRight_eq_div_pow, Nat.shiftLeft_eq, pgsize]
    omega
  rw [child, pteV, Nat.and_one_is_mod, h, if_pos (by decide), hpage]

theorem valid_iff : pte &&& pteV ≠ 0 ↔ (child pte).isSome := by
  rw [child]
  split <;> simp_all

theorem pa2pte_or (hf : f < 2 ^ 52) {flags : Nat} (hflags : flags < 1024) :
    (pa2pte (f * pgsize) ||| flags) % 2 ^ 64 = 1024 * f + flags := by
  have hpa : pa2pte (f * pgsize) = 2 ^ 10 * f := by
    rw [pa2pte, Nat.shiftRight_eq_div_pow, Nat.shiftLeft_eq, pgsize]
    omega
  rw [hpa, ← Nat.two_pow_add_eq_or_of_lt hflags]
  omega

theorem child_pa2pte (hf : f < 2 ^ 52) :
    child ((pa2pte (f * pgsize) ||| pteV) % 2 ^ 64) = some f := by
  have hpage : (1024 * f + 1) / 1024 % 2 ^ 52 = f := by omega
  rw [pa2pte_or hf (by decide), pteV, child_of_odd (by omega), hpage]

theorem entry_pa2pte (hf : f < 2 ^ 52) (perm : Flags) :
    entry ((pa2pte (f * pgsize) ||| perm ||| pteV) % 2 ^ 64) = some ⟨f, perm ||| pteV⟩ := by
  have hlt : perm.val ||| pteV < 1024 := Nat.or_lt_two_pow (n := 10) perm.isLt (by decide)
  have hodd : (perm.val ||| pteV) % 2 = 1 := Nat.or_mod_two_eq_one.mpr (Or.inr rfl)
  rw [Nat.or_assoc]
  generalize perm.val ||| pteV = flags at hlt hodd ⊢
  have hpage : (1024 * f + flags) / 1024 % 2 ^ 52 = f := by omega
  have hflags : (1024 * f + flags) % 2 ^ 10 = flags := by omega
  rw [pa2pte_or hf hlt, entry, child_of_odd (by omega), hpage, map_some,
    pteFlags, Nat.and_two_pow_sub_one_eq_mod _ 10, hflags]

theorem entry_isSome : (entry pte).isSome ↔ pte &&& pteV ≠ 0 := by
  rw [entry, isSome_map, valid_iff]

end Entries

/-- The indices `walk` uses from a level down to level 1. -/
def steps (va : Nat) : Nat → List (Fin 512)
  | 0 => []
  | level + 1 => px (level + 1) va :: steps va level

theorem steps_length (va n : Nat) : (steps va n).length = n := by
  induction n with
  | zero => rfl
  | succ n ih => rw [steps, length_cons, ih]

theorem px_val (level va : Nat) : (px level va).val = va / 2 ^ (12 + 9 * level) % 512 := by
  rw [px, Fin.val_ofNat, Nat.shiftRight_eq_div_pow]

theorem indices_inj {va va' : Nat} (hva : va < maxva) (hva' : va' < maxva) :
    (steps va' 2 = steps va 2 ∧ px 0 va' = px 0 va) ↔ vpn va' = vpn va := by
  simp only [steps, List.cons.injEq, and_true, Fin.ext_iff, px_val, vpn, pgsize]
  rw [maxva] at hva hva'
  constructor
  · rintro ⟨⟨h2, h1⟩, h0⟩
    simp only [Nat.reduceMul, Nat.reduceAdd, Nat.reducePow] at h0 h1 h2
    omega
  · intro h
    simp only [Nat.reduceMul, Nat.reduceAdd, Nat.reducePow]
    omega

def WellFormed (m : Mem) (root : Frame) : Prop := IsTree child (readPte m) root 2

def IsTable (m : Mem) (root f : Frame) : Prop := IsNode child (readPte m) root 2 f

/-- The allocator returns pages outside the table, each of them once. -/
structure AllocatesOutside (m : Mem) (root : Frame) : Prop where
  nodup : m.free.Nodup
  outside : ∀ f ∈ m.free, ¬IsTable m root f
  physical : ∀ f ∈ m.free, f < 2 ^ 52

def entryAt (m : Mem) (root : Frame) (path : List (Fin 512)) (i : Fin 512) : Option Entry :=
  (wordAt child (readPte m) root path i).bind entry

structure Extends (root : Frame) (m m' : Mem) : Prop where
  wellFormed : WellFormed m' root
  allocates : AllocatesOutside m' root
  same : ∀ path i, path.length = 2 → entryAt m' root path i = entryAt m root path i

section Walk

variable {m m' m'' : Mem} {root f g : Frame} {p : List (Fin 512)} {i : Fin 512} {va : Nat}

theorem Extends.refl (hwf : WellFormed m root) (ha : AllocatesOutside m root) :
    Extends root m m :=
  ⟨hwf, ha, fun _ _ _ => rfl⟩

theorem Extends.trans (h : Extends root m m') (h' : Extends root m' m'') : Extends root m m'' :=
  ⟨h'.wellFormed, h'.allocates, fun path i hp => (h'.same path i hp).trans (h.same path i hp)⟩

theorem walkLevels_false (va n : Nat) (f : Frame) (m : Mem) :
    walkLevels va false n f m = (descend child (readPte m) f (steps va n), m) := by
  induction n generalizing f with
  | zero => rfl
  | succ n ih =>
    rw [walkLevels, steps, descend]
    cases hc : child (readPte m f (px (n + 1) va)) with
    | none => rfl
    | some g => exact ih g

theorem lookup_eq (m : Mem) (root : Frame) (va : Nat) :
    lookup m root va = entryAt m root (steps va 2) (px 0 va) := by
  rw [lookup, walkLevels_false, entryAt, wordAt]
  cases descend child (readPte m) root (steps va 2) <;> rfl

theorem Extends.lookup (h : Extends root m m') (va : Nat) :
    Sv39.lookup m' root va = Sv39.lookup m root va := by
  rw [lookup_eq, lookup_eq, h.same _ _ (steps_length va 2)]

theorem extends_newTable (hwf : WellFormed m root) (ha : AllocatesOutside m root)
    (hp : p.length < 2) (hf : descend child (readPte m) root p = some f)
    (hempty : child (readPte m f i) = none) (hg : m.kalloc = some (g, m')) :
    let m'' := writePte (m'.setPage g (memset 0)) f i (pa2pte (g * pgsize) ||| pteV)
    Extends root m m'' ∧ descend child (readPte m'') root (p ++ [i]) = some g := by
  intro m''
  obtain ⟨hfree, hpages⟩ : m.free = g :: m'.free ∧
      m'.page = update m.page g (memset 5) := by
    rw [Mem.kalloc] at hg
    split at hg
    · cases hg
    · rename_i h
      obtain ⟨rfl, rfl⟩ := Prod.mk.inj (some.inj hg)
      exact ⟨h, rfl⟩
  have hnodup : g ∉ m'.free ∧ m'.free.Nodup := by
    have := ha.nodup
    rw [hfree] at this
    exact nodup_cons.mp this
  have hgfree : g ∈ m.free := by
    rw [hfree]
    exact mem_cons_self
  have hread : readPte m'' = link (readPte m) f i ((pa2pte (g * pgsize) ||| pteV) % 2 ^ 64) g
      fun _ => 0 := by
    have hjunk : readPte m' = update (readPte m) g fun i => getLE (memset 5) (8 * i) 8 := by
      rw [← readPte_setPage]
      funext a b
      rw [readPte, readPte, hpages, Mem.setPage]
    rw [readPte_writePte, readPte_setPage, hjunk, update_idem, link]
    simp only [getLE_memset_zero]
  have hlink : Linkable child (readPte m) root 2 p f i
      ((pa2pte (g * pgsize) ||| pteV) % 2 ^ 64) g fun _ => 0 :=
    ⟨hwf, hp, hf, hempty, ha.outside g hgfree, child_pa2pte (ha.physical g hgfree),
      fun _ => child_of_even rfl⟩
  have hfree'' : m''.free = m'.free := rfl
  refine ⟨⟨?_, ⟨?_, ?_, ?_⟩, ?_⟩, ?_⟩
  · rw [WellFormed, hread]
    exact hlink.isTree
  · exact hnodup.2
  · intro a hmem htable
    rw [IsTable, hread] at htable
    rw [hfree''] at hmem
    rcases hlink.isNode htable with rfl | hold
    · exact hnodup.1 hmem
    · exact ha.outside a (by rw [hfree]; exact mem_cons_of_mem _ hmem) hold
  · intro a hmem
    exact ha.physical a (by rw [hfree]; exact mem_cons_of_mem _ hmem)
  · intro path j hpath
    rw [entryAt, entryAt, hread, hlink.wordAt_link hpath]
    split
    · rename_i heq
      simp only [heq, wordAt, descend_snoc, hf, bind_some, hempty, map_none]
      rfl
    · rfl
  · rw [hread, hlink.descend_link (by rw [length_append, length_singleton]; omega),
      if_pos rfl]

theorem walkLevels_spec (alloc : Bool) (va n : Nat) : ∀ {f : Frame} {m : Mem}
    {p : List (Fin 512)}, WellFormed m root → AllocatesOutside m root → p.length + n = 2 →
    descend child (readPte m) root p = some f →
    Extends root m (walkLevels va alloc n f m).2 ∧
      ∀ g, (walkLevels va alloc n f m).1 = some g →
        descend child (readPte (walkLevels va alloc n f m).2) root (p ++ steps va n) = some g := by
  induction n with
  | zero =>
    intro f m p hwf ha _ hf
    refine ⟨.refl hwf ha, fun g hg => ?_⟩
    obtain rfl := some.inj hg
    rw [steps, append_nil]
    exact hf
  | succ n ih =>
    intro f m p hwf ha hp hf
    have happend : p ++ steps va (n + 1) = (p ++ [px (n + 1) va]) ++ steps va n := by
      rw [steps, append_assoc, singleton_append]
    have hlength : (p ++ [px (n + 1) va]).length + n = 2 := by
      rw [length_append, length_singleton]
      omega
    rw [walkLevels, happend]
    cases hc : child (readPte m f (px (n + 1) va)) with
    | some g =>
      apply ih hwf ha hlength
      rw [descend_snoc, hf, bind_some, hc]
    | none =>
      simp only
      split
      · exact ⟨.refl hwf ha, fun g hg => by cases hg⟩
      · cases hk : m.kalloc with
        | none => exact ⟨.refl hwf ha, fun g hg => by cases hg⟩
        | some r =>
          obtain ⟨g, m'⟩ := r
          obtain ⟨hext, hat⟩ := extends_newTable hwf ha (by omega) hf hc hk
          obtain ⟨hext', hat'⟩ := ih hext.wellFormed hext.allocates hlength hat
          exact ⟨hext.trans hext', hat'⟩

structure Walked (m : Mem) (root : Frame) (va : Nat) (slot : Option (Frame × Fin 512))
    (m' : Mem) : Prop where
  below : va < maxva
  grows : Extends root m m'
  at_slot : ∀ f i, slot = some (f, i) →
    descend child (readPte m') root (steps va 2) = some f ∧ i = px 0 va

theorem walk_spec (hwf : WellFormed m root) (ha : AllocatesOutside m root) (va : Nat)
    (alloc : Bool) :
    Ends (walk m root va alloc) (fun r => Walked m root va r.1 r.2) fun _ => True := by
  rw [walk]
  split
  · exact .error trivial
  · rename_i hva
    obtain ⟨hext, hat⟩ := walkLevels_spec alloc va 2 (p := []) hwf ha rfl rfl
    refine .ok ⟨by omega, hext, fun f i hslot => ?_⟩
    obtain ⟨g, hg, heq⟩ := map_eq_some_iff.mp hslot
    obtain ⟨rfl, rfl⟩ := Prod.mk.inj heq
    exact ⟨hat g hg, rfl⟩

end Walk

section Write

variable {m : Mem} {root f : Frame} {va : Nat}

/-- The map with the page of `va` set to an entry, or removed. -/
def withPage (t : Nat → Option Entry) (va : Nat) (e : Option Entry) : Nat → Option Entry :=
  fun va' => if vpn va' = vpn va then e else t va'

structure Wrote (m : Mem) (root : Frame) (va : Nat) (e : Option Entry) (m' : Mem) : Prop where
  wellFormed : WellFormed m' root
  tables : ∀ g, IsTable m' root g ↔ IsTable m root g
  map : ∀ va' < maxva, lookup m' root va' = withPage (lookup m root) va e va'

theorem wrote_writePte (hwf : WellFormed m root) (hva : va < maxva)
    (hf : descend child (readPte m) root (steps va 2) = some f) (pte : Nat) :
    Wrote m root va (entry (pte % 2 ^ 64)) (writePte m f (px 0 va) pte) := by
  refine ⟨?_, fun g => ?_, fun va' hva' => ?_⟩
  · rw [WellFormed, readPte_writePte]
    exact hwf.setLeaf (steps_length va 2) hf
  · rw [IsTable, readPte_writePte]
    exact hwf.isNode_setLeaf (steps_length va 2) hf
  · rw [lookup_eq, entryAt, readPte_writePte,
      hwf.wordAt_setLeaf (steps_length va 2) hf (steps_length va' 2).le, withPage]
    by_cases hpage : vpn va' = vpn va
    · rw [if_pos ((indices_inj hva hva').mpr hpage), if_pos hpage]
      rfl
    · rw [if_neg (fun h => hpage ((indices_inj hva hva').mp h)), if_neg hpage, lookup_eq]
      rfl

end Write

/-- The map with `n` pages from `va` on led to the frames from `pa` on. -/
def withRun (t : Nat → Option Entry) (va n : Nat) (pa : Frame) (perm : Flags) :
    Nat → Option Entry := fun va' =>
  if vpn va ≤ vpn va' ∧ vpn va' < vpn va + n then
    some ⟨pa + (vpn va' - vpn va), perm ||| pteV⟩
  else t va'

theorem withRun_zero (t : Nat → Option Entry) (va : Nat) (pa : Frame) (perm : Flags) :
    withRun t va 0 pa perm = t := by
  funext va'
  rw [withRun, if_neg (by omega)]

theorem vpn_add (va : Nat) : vpn (va + pgsize) = vpn va + 1 := by
  simp only [vpn, pgsize]
  omega

theorem withRun_succ (t : Nat → Option Entry) (va n : Nat) (pa : Frame) (perm : Flags) :
    withRun (withPage t va (some ⟨pa, perm ||| pteV⟩)) (va + pgsize) n (pa + 1) perm =
      withRun t va (n + 1) pa perm := by
  funext va'
  simp only [withRun, withPage, vpn_add]
  by_cases hfirst : vpn va' = vpn va
  · rw [if_neg (by omega), if_pos hfirst, if_pos (by omega), hfirst, Nat.sub_self]
    rfl
  · by_cases hrest : vpn va + 1 ≤ vpn va' ∧ vpn va' < vpn va + 1 + n
    · have hsub : pa + 1 + (vpn va' - (vpn va + 1)) = pa + (vpn va' - vpn va) := by
        obtain ⟨h1, -⟩ := hrest
        rw [Nat.add_assoc]
        congr 1
        omega
      rw [if_pos hrest, if_pos (by omega), hsub]
    · rw [if_neg hrest, if_neg hfirst, if_neg (by omega)]

/-- What a run of `mappages` over `n` pages leaves: it maps a part of the pages, and all
of them when it returns 0. -/
structure Mapped (m : Mem) (root : Frame) (va n : Nat) (pa : Frame) (perm : Flags)
    (r : Bool × Mem) : Prop where
  wellFormed : WellFormed r.2 root
  allocates : AllocatesOutside r.2 root
  map : ∃ k, (if r.1 then k = n else k < n) ∧
    ∀ va' < maxva, lookup r.2 root va' = withRun (lookup m root) va k pa perm va'

theorem AllocatesOutside.of_tables {m m' : Mem} {root : Frame} (h : AllocatesOutside m root)
    (hfree : m'.free = m.free) (htables : ∀ g, IsTable m' root g ↔ IsTable m root g) :
    AllocatesOutside m' root := by
  constructor <;> rw [hfree]
  · exact h.nodup
  · exact fun f hf ht => h.outside f hf ((htables f).mp ht)
  · exact h.physical

theorem mapLoop_spec (root : Frame) (perm : Flags) (n : Nat) : ∀ {a : Nat} {pa : Frame} {m : Mem},
    WellFormed m root → AllocatesOutside m root → pa + n ≤ 2 ^ 52 →
    Ends (mapLoop root perm n a pa m) (Mapped m root a n pa perm) fun _ => True := by
  induction n with
  | zero =>
    intro a pa m hwf ha _
    exact .ok ⟨hwf, ha, 0, rfl, fun va' _ => by rw [withRun_zero]⟩
  | succ n ih =>
    intro a pa m hwf ha hpa
    rw [mapLoop]
    refine (walk_spec hwf ha a true).bind fun r hr => ?_
    obtain ⟨slot, m₁⟩ := r
    obtain ⟨hbelow, hext, hslot⟩ := hr
    cases slot with
    | none =>
      refine .ok ⟨hext.wellFormed, hext.allocates, 0, Nat.succ_pos n, fun va' _ => ?_⟩
      rw [withRun_zero]
      exact hext.lookup va'
    | some s =>
      obtain ⟨f, i⟩ := s
      obtain ⟨hf, rfl⟩ := hslot f i rfl
      simp only
      split
      · exact .error trivial
      · have hnext : (a + pgsize) % 2 ^ 64 = a + pgsize := by
          rw [maxva] at hbelow
          rw [pgsize]
          omega
        have hphys : pa < 2 ^ 52 := Nat.lt_of_lt_of_le (Nat.lt_add_of_pos_right (Nat.succ_pos n))
          hpa
        have hw := wrote_writePte hext.wellFormed hbelow hf
          (pa2pte (pa * pgsize) ||| perm ||| pteV)
        rw [entry_pa2pte hphys] at hw
        rw [hnext]
        refine (ih hw.wellFormed (hext.allocates.of_tables rfl hw.tables) (by
          rw [Nat.add_assoc, Nat.add_comm 1 n]; exact hpa)).imp fun r hr => ?_
        obtain ⟨k, hk, hmap⟩ := hr.map
        refine ⟨hr.wellFormed, hr.allocates, k + 1, ?_, fun va' hva' => ?_⟩
        · split at hk
          · rename_i hok
            rw [if_pos hok, hk]
          · rename_i hok
            rw [if_neg hok]
            omega
        · rw [hmap va' hva', ← withRun_succ]
          rw [withRun, withRun]
          split
          · rfl
          · rw [hw.map va' hva', withPage, withPage]
            split
            · rfl
            · exact hext.lookup va'

theorem mappages_spec {m : Mem} {root : Frame} (hwf : WellFormed m root)
    (ha : AllocatesOutside m root) {va size : Nat} {pa : Frame} (perm : Flags)
    (hpa : pa + size / pgsize ≤ 2 ^ 52) :
    Ends (mappages m root va size pa perm) (fun r => va % pgsize = 0 ∧
      Mapped m root va (size / pgsize) pa perm r) fun _ => True := by
  rw [mappages]
  split
  · exact .error trivial
  · rename_i hva
    split
    · exact .error trivial
    · split
      · exact .error trivial
      · exact (mapLoop_spec root perm _ hwf ha hpa).imp fun r hr => ⟨by omega, hr⟩

section Unmap

variable {m m' : Mem} {root : Frame}

def FreesOutside (m : Mem) (root : Frame) (doFree : Bool) (va : Nat) : Prop :=
  doFree = true → va < maxva → ∀ e, lookup m root va = some e → ¬IsTable m root e.frame

theorem unmapPage_spec {doFree : Bool} {a : Nat} (hwf : WellFormed m root)
    (hfree : FreesOutside m root doFree a) :
    Ends (unmapPage root doFree m a) (fun m' => a < maxva ∧ Wrote m root a none m')
      fun _ => True := by
  rw [unmapPage, walk]
  split
  · exact .error trivial
  · rename_i hva
    have hva' : a < maxva := by omega
    have hsame : lookup m root a = none → Wrote m root a none m := by
      intro hnone
      refine ⟨hwf, fun _ => Iff.rfl, fun va' hlt => ?_⟩
      rw [withPage]
      split
      · rename_i hpage
        obtain ⟨hsteps, hidx⟩ := (indices_inj hva' hlt).mpr hpage
        rw [lookup_eq, hsteps, hidx, ← lookup_eq, hnone]
      · rfl
    simp only [walkLevels_false]
    cases hd : descend child (readPte m) root (steps a 2) with
    | none =>
      refine .ok ⟨hva', hsame ?_⟩
      rw [lookup_eq, entryAt, wordAt, hd]
      rfl
    | some f =>
      have hlookup : lookup m root a = entry (readPte m f (px 0 a)) := by
        rw [lookup_eq, entryAt, wordAt, hd]
        rfl
      simp only [map_some, ok_bind]
      by_cases hvalid : readPte m f (px 0 a) &&& pteV = 0
      · rw [if_pos hvalid]
        refine .ok ⟨hva', hsame ?_⟩
        rw [hlookup, ← not_isSome_iff_eq_none, entry_isSome]
        exact not_not_intro hvalid
      · rw [if_neg hvalid]
        obtain ⟨e, he⟩ := isSome_iff_exists.mp (entry_isSome.mpr hvalid)
        have hframe : e.frame = pte2pa (readPte m f (px 0 a)) / pgsize := by
          rw [entry, child, if_pos hvalid] at he
          rw [← some.inj he]
        rw [← hframe]
        -- the page goes back to the allocator before the entry is cleared
        refine Ends.bind (Q := fun m' => WellFormed m' root ∧ (∀ g, IsTable m' root g ↔
          IsTable m root g) ∧ descend child (readPte m') root (steps a 2) = some f ∧
          ∀ va', lookup m' root va' = lookup m root va') ?_ fun m' hm' => ?_
        · rw [freeIf]
          split
          · rename_i hdo
            have hout := hfree hdo hva' e (hlookup.trans he)
            rw [Mem.kfree]
            split
            · exact .error trivial
            · have hread := readPte_setPage m e.frame (memset 1)
              refine .ok ⟨?_, fun g => ?_, ?_, fun va' => ?_⟩
              · exact (congrArg (IsTree child · root 2) hread).mpr (hwf.update hout)
              · exact (congrArg (IsNode child · root 2 g) hread).to_iff.trans (isNode_update hout)
              · exact (congrArg (descend child · root (steps a 2)) hread).trans
                  ((descend_update hout (steps_length a 2).le).trans hd)
              · rw [lookup_eq, lookup_eq, entryAt, entryAt]
                refine congrArg (Option.bind · entry) ?_
                exact (congrArg (wordAt child · root (steps va' 2) (px 0 va')) hread).trans
                  (wordAt_update hout (steps_length va' 2).le)
          · exact .ok ⟨hwf, fun _ => Iff.rfl, hd, fun _ => rfl⟩
        · obtain ⟨hwf', htables, hd', hmap⟩ := hm'
          have hw := wrote_writePte hwf' hva' hd' 0
          refine .ok ⟨hva', hw.wellFormed, fun g => (hw.tables g).trans (htables g),
            fun va' hlt => ?_⟩
          rw [hw.map va' hlt, withPage, withPage, hmap va']
          rfl

def withoutPages (t : Nat → Option Entry) (as : List Nat) : Nat → Option Entry := fun va' =>
  if vpn va' ∈ as.map vpn then none else t va'

structure Unmapped (m : Mem) (root : Frame) (as : List Nat) (m' : Mem) : Prop where
  wellFormed : WellFormed m' root
  tables : ∀ g, IsTable m' root g ↔ IsTable m root g
  map : ∀ va' < maxva, lookup m' root va' = withoutPages (lookup m root) as va'

theorem unmapPages_spec (root : Frame) (doFree : Bool) (as : List Nat) : ∀ {m : Mem},
    WellFormed m root → (∀ a ∈ as, FreesOutside m root doFree a) →
    Ends (as.foldlM (unmapPage root doFree) m) (Unmapped m root as) fun _ => True := by
  induction as with
  | nil =>
    intro m hwf _
    exact .ok ⟨hwf, fun _ => Iff.rfl, fun _ _ => rfl⟩
  | cons a rest ih =>
    intro m hwf hfree
    rw [foldlM_cons]
    refine (unmapPage_spec hwf (hfree a mem_cons_self)).bind fun m₁ hm₁ => ?_
    obtain ⟨-, hw⟩ := hm₁
    have hfree₁ : ∀ b ∈ rest, FreesOutside m₁ root doFree b := by
      intro b hb hdo hlt e he
      rw [hw.map b hlt, withPage] at he
      split at he
      · cases he
      · rw [hw.tables]
        exact hfree b (mem_cons_of_mem a hb) hdo hlt e he
    refine (ih hw.wellFormed hfree₁).imp fun m₂ hm₂ => ?_
    refine ⟨hm₂.wellFormed, fun g => (hm₂.tables g).trans (hw.tables g), fun va' hlt => ?_⟩
    rw [hm₂.map va' hlt, withoutPages, withoutPages, map_cons]
    by_cases hrest : vpn va' ∈ rest.map vpn
    · rw [if_pos hrest, if_pos (mem_cons_of_mem _ hrest)]
    · rw [if_neg hrest, hw.map va' hlt, withPage]
      by_cases ha : vpn va' = vpn a
      · rw [if_pos ha, if_pos (ha ▸ mem_cons_self)]
      · rw [if_neg ha, if_neg fun h => (mem_cons.mp h).elim ha hrest]

theorem uvmunmap_spec {va npages : Nat} {doFree : Bool} (hwf : WellFormed m root)
    (hfree : ∀ a ∈ pages va ((va + npages * pgsize) % 2 ^ 64), FreesOutside m root doFree a) :
    Ends (uvmunmap m root va npages doFree) (fun m' => va % pgsize = 0 ∧
      Unmapped m root (pages va ((va + npages * pgsize) % 2 ^ 64)) m') fun _ => True := by
  rw [uvmunmap]
  split
  · exact .error trivial
  · exact (unmapPages_spec root doFree _ hwf hfree).imp fun m' hm' => ⟨by omega, hm'⟩

end Unmap

theorem vpn_range {va va' n : Nat} (hva : va % pgsize = 0) (hva' : va' % pgsize = 0) :
    (vpn va ≤ vpn va' ∧ vpn va' < vpn va + n) ↔ (va ≤ va' ∧ va' < va + n * pgsize) := by
  simp only [vpn, pgsize] at hva hva' ⊢
  omega

theorem vpn_sub {va va' : Nat} (hva : va % pgsize = 0) (hva' : va' % pgsize = 0) :
    vpn va' - vpn va = (va' - va) / pgsize := by
  simp only [vpn, pgsize] at hva hva' ⊢
  omega

/-- The three-level table refines the finite map `lookup`, for every allocator that
returns pages outside the table. A page of the table that an entry of level 0 leads to
as well must not be freed. -/
theorem pagetable_refines_map {m : Mem} {root : Frame} (hwf : WellFormed m root)
    (ha : AllocatesOutside m root) :
    (∀ va alloc slot m', walk m root va alloc = .ok (slot, m') →
      WellFormed m' root ∧ (alloc = false → m' = m) ∧
      ∀ va', lookup m' root va' = lookup m root va') ∧
    (∀ va k pa perm ok m', pa + k ≤ 2 ^ 52 →
      mappages m root va (k * pgsize) pa perm = .ok (ok, m') →
      WellFormed m' root ∧
      (ok = true → ∀ va', va' % pgsize = 0 → va' < maxva →
        lookup m' root va' =
          if va ≤ va' ∧ va' < va + k * pgsize then
            some ⟨pa + (va' - va) / pgsize, perm ||| pteV⟩
          else lookup m root va') ∧
      (ok = false → k = 1 → ∀ va' < maxva, lookup m' root va' = lookup m root va')) ∧
    ∀ va n doFree m', (doFree = true → ∀ va', va' < maxva → va ≤ va' →
        va' < (va + n * pgsize) % 2 ^ 64 → ∀ e, lookup m root va' = some e →
        ¬IsTable m root e.frame) →
      uvmunmap m root va n doFree = .ok m' →
      WellFormed m' root ∧ ∀ va', va' % pgsize = 0 → va' < maxva →
        lookup m' root va' =
          if va ≤ va' ∧ va' < (va + n * pgsize) % 2 ^ 64 then none else lookup m root va' := by
  refine ⟨fun va alloc slot m' hrun => ?_, fun va k pa perm ok m' hpa hrun => ?_,
    fun va n doFree m' hout hrun => ?_⟩
  · have hw := (walk_spec hwf ha va alloc).of_eq_ok hrun
    refine ⟨hw.grows.wellFormed, fun halloc => ?_, hw.grows.lookup⟩
    subst halloc
    rw [walk] at hrun
    split at hrun
    · cases hrun
    · simp only [walkLevels_false] at hrun
      exact (Prod.mk.inj (Except.ok.inj hrun)).2.symm
  · have hdiv : k * pgsize / pgsize = k := Nat.mul_div_cancel k (by decide)
    obtain ⟨hva, hmapped⟩ := (mappages_spec hwf ha perm (by rw [hdiv]; exact hpa)).of_eq_ok hrun
    rw [hdiv] at hmapped
    obtain ⟨j, hj, hmap⟩ := hmapped.map
    refine ⟨hmapped.wellFormed, fun hok va' hva' hlt => ?_, fun hfail hone va' hlt => ?_⟩
    · obtain rfl : j = k := by rwa [if_pos hok] at hj
      simp only [hmap va' hlt, withRun, vpn_range hva hva', vpn_sub hva hva']
    · obtain rfl : j = 0 := by
        rw [if_neg (by simp only [hfail]; decide)] at hj
        omega
      rw [hmap va' hlt, withRun_zero]
  · have hfree : ∀ a ∈ pages va ((va + n * pgsize) % 2 ^ 64), FreesOutside m root doFree a := by
      intro a hmem hdo hlt e he
      obtain ⟨i, hi, rfl⟩ := mem_map.mp hmem
      rw [mem_range] at hi
      refine hout hdo _ hlt (Nat.le_add_right _ _) ?_ e he
      simp only [pgsize] at hi ⊢
      omega
    obtain ⟨hva, hun⟩ := (uvmunmap_spec hwf hfree).of_eq_ok hrun
    refine ⟨hun.wellFormed, fun va' hva' hlt => ?_⟩
    have hrange : vpn va' ∈ (pages va ((va + n * pgsize) % 2 ^ 64)).map vpn ↔
        va ≤ va' ∧ va' < (va + n * pgsize) % 2 ^ 64 := by
      rw [mem_pages hva]
      simp only [vpn, pgsize] at hva hva' ⊢
      omega
    simp only [hun.map va' hlt, withoutPages, hrange]

theorem blankMem_text_lt : 0x80007 < 0x80100 := by decide

/-- Physical memory with an empty table in frame `0x80110` and sixteen free pages. -/
def blankMem : Mem where
  free := (List.range 16).map (0x80200 + ·)
  page := fun _ => memset 0
  kend := 0x80100
  text := 0x80007
  text_lt := blankMem_text_lt

theorem blankMem_descend {p : List (Fin 512)} {f : Frame}
    (h : descend child (readPte blankMem) 0x80110 p = some f) : p = [] ∧ f = 0x80110 := by
  cases p with
  | nil => exact ⟨rfl, (some.inj h).symm⟩
  | cons i p =>
    have hread : readPte blankMem 0x80110 i = 0 := getLE_memset_zero _ _
    rw [descend, hread, child_of_even rfl] at h
    cases h

theorem blankMem_wellFormed : WellFormed blankMem 0x80110 := by
  intro p q f _ _ hp hq
  rw [(blankMem_descend hp).1, (blankMem_descend hq).1]

theorem blankMem_allocatesOutside : AllocatesOutside blankMem 0x80110 where
  nodup := by decide
  outside f hf := by
    rintro ⟨p, -, hp⟩
    obtain ⟨-, rfl⟩ := blankMem_descend hp
    revert hf
    decide
  physical := by decide

/-- A page mapped into an empty table is found there, and nothing else is. -/
theorem pagetable_refines_map_blank : ∃ m',
    mappages blankMem 0x80110 0x1000 (1 * pgsize) 0x80300 22 = .ok (true, m') ∧
    lookup m' 0x80110 0x1000 = some ⟨0x80300, 23⟩ ∧
    lookup m' 0x80110 0x2000 = lookup blankMem 0x80110 0x2000 := by
  obtain ⟨m', hok⟩ : ∃ m', mappages blankMem 0x80110 0x1000 (1 * pgsize) 0x80300 22 =
      .ok (true, m') := by decide +kernel
  obtain ⟨-, hmap, -⟩ := pagetable_refines_map blankMem_wellFormed blankMem_allocatesOutside
  obtain ⟨-, hinside, -⟩ := hmap 0x1000 1 0x80300 22 true m' (by decide) hok
  exact ⟨m', hok, hinside rfl 0x1000 (by decide) (by decide),
    hinside rfl 0x2000 (by decide) (by decide)⟩

end EafitOs.Memory.Sv39
