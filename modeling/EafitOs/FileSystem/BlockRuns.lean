import EafitOs.FileSystem.InodeOps

/-!
# Block ownership over whole runs

Every sequence of inode operations, with buffers and in-memory inodes recycled in
between, starts from a well-formed image and keeps it well formed.
-/

namespace EafitOs.FileSystem

open Foundation Disk Function Option

/-- The blocks are owned as the inodes on disk say, and in-memory inodes agree with them. -/
structure Kept (sb : Superblock) (start : Set Nat) (st : State) : Prop where
  good : Good sb start st.store
  cache : ∀ i < sb.ninodes, ∀ d, st.icache i = some d → d = dinode sb st.store i ∧ d.type ≠ 0

/-- An image as `mkfs` builds it, with nothing in memory yet: metadata blocks are
marked, and a data block is marked exactly if one pointer names it. -/
structure WellFormed (sb : Superblock) (st : State) : Prop where
  reserved : ∀ b < sb.nmeta, marked sb st.store b
  owned : ∀ b ∈ sb.dataBlocks,
    marked sb st.store b ↔ ∃! x, held sb st.store (dinode sb st.store) x = some b
  inside : ∀ x b, held sb st.store (dinode sb st.store) x = some b →
    b ∈ sb.dataBlocks ∧ marked sb st.store b
  cached : ∀ b, st.store.cached b = none
  icache : ∀ i, st.icache i = none
  events : st.store.events = []
  panic : st.panic = none

theorem State.step_cases {sb : Superblock} {st st' : State} {op : Op}
    (hs : st.step sb op = some st') : (∀ i ∈ op.inum, i < sb.ninodes) ∧
      ((∃ t, st.run sb op = .ok t ∧ st' = { t with panic := none }) ∨
        ∃ e, st.run sb op = .error e ∧ st' = { st with panic := some e }) := by
  rw [State.step] at hs
  split at hs
  · cases hs
  · rename_i hgo
    refine ⟨fun i hi => ?_, ?_⟩
    · by_contra hlt
      exact hgo (Or.inr ⟨i, hi, by omega⟩)
    · split at hs
      · exact Or.inl ⟨_, ‹_›, (Option.some.inj hs).symm⟩
      · exact Or.inr ⟨_, ‹_›, (Option.some.inj hs).symm⟩

namespace Kept

variable {sb : Superblock} {start : Set Nat} {st : State}

theorem of_wellFormed (h : WellFormed sb st) : Kept sb (inUse sb st.store) st := by
  refine ⟨⟨h.reserved, ⟨?_, h.inside _ _, ?_⟩, ?_, fun b _ => h.cached b⟩, ?_⟩
  · intro x y b hx hy
    have hb := h.inside x b hx
    exact ((h.owned b hb.1).mp hb.2).unique hx hy
  · intro b hb
    exact ((h.owned b hb.1).mp hb.2).exists
  · rw [h.events]
    exact .nil
  · intro i _ d hd
    rw [h.icache i] at hd
    cases hd

section

variable (h : Kept sb start st)
include h

theorem ilock {i : Nat} (hi : i < sb.ninodes) :
    Ends (ilock sb st i) (fun d => d = dinode sb st.store i ∧ d.type ≠ 0)
      (· = "ilock: no type") := by
  simp only [FileSystem.ilock]
  split
  · rename_i d hd
    exact .ok (h.cache i hi d hd)
  · split
    · exact .error rfl
    · exact .ok ⟨rfl, ‹_›⟩

theorem put {i : Nat} {s : Store} {d : Option Dinode}
    (hg : Good sb start s) (hother : ∀ j < sb.ninodes, j ≠ i → dinode sb s j = dinode sb st.store j)
    (hd : ∀ e, d = some e → e = dinode sb s i ∧ e.type ≠ 0) : Kept sb start (st.put i d s) := by
  refine ⟨hg, fun j hj e he => ?_⟩
  simp only [State.put] at he ⊢
  by_cases hji : j = i
  · subst hji
    rw [update_self] at he
    exact hd e he
  · rw [update_of_ne hji] at he
    rw [hother j hj hji]
    exact h.cache j hj e he

theorem of_bread {s : Store}
    (hread : ∀ b, (b < sb.nmeta ∨ ∃ i, held sb st.store (dinode sb st.store) (.addr i indirect) =
      some b) → s.bread b = st.store.bread b)
    (hev : s.events = st.store.events)
    (hcl : ∀ b, st.store.cached b = none → s.cached b = none) :
    Kept sb start { st with store := s } := by
  have hino : ∀ j < sb.ninodes, dinode sb s j = dinode sb st.store j := by
    intro j hj
    rw [dinode, dinode, hread _ (Or.inl (sb.iblock_lt_nmeta hj))]
  have hheld : held sb s (dinode sb s) = held sb st.store (dinode sb st.store) :=
    held_congr hino fun j b hj => hread b (Or.inr ⟨j, hj⟩)
  refine ⟨?_, fun i hi d hd => ?_⟩
  · rw [Good, hheld]
    apply h.good.of_bitmap _ hev fun b _ => hcl b
    intro b hb
    exact hread _ (Or.inl (sb.bblock_lt hb))
  · rw [hino i hi]
    exact h.cache i hi d hd

theorem evict (b : Nat) : Kept sb start { st with store := st.store.evict b } := by
  apply h.of_bread
  · intro c hc
    apply Store.evict_bread
    rintro rfl
    exact h.good.clean c hc
  · rfl
  · intro c hc
    by_cases hcb : c = b
    · simp [Store.evict, hcb]
    · simpa [Store.evict, hcb] using hc

theorem commit (b : Nat) : Kept sb start { st with store := st.store.logWrite b } := by
  apply h.of_bread
  · intro c _
    rw [Store.logWrite_bread]
  · rfl
  · intro c hc
    by_cases hcb : c = b
    · simp [Store.logWrite, hcb]
    · simpa [Store.logWrite, hcb] using hc

theorem run {op : Op} (hop : ∀ i ∈ op.inum, i < sb.ninodes) :
    Ends (st.run sb op) (Kept sb start) (· = "ilock: no type") := by
  cases op with
  | ialloc type =>
    obtain ⟨hgood, hino, -⟩ := h.good.ialloc type
    refine .ok ⟨hgood, fun i hi d hd => ?_⟩
    obtain ⟨rfl, hlive⟩ := h.cache i hi d hd
    exact ⟨(hino i hi hlive).symm, hlive⟩
  | writei i off n src =>
    have hi := hop i rfl
    refine (h.ilock hi).bind fun d hd => ?_
    have hmid := h.good.mid hi hd.1 hd.2
    have hbase : ∀ j < sb.ninodes,
        update (dinode sb st.store) i d j = dinode sb st.store j := by
      intro j _
      rw [hd.1, update_eq_self]
    refine (hmid.writei off n src hbase h.good).bind fun r hr => .ok ?_
    obtain ⟨hgood, hlive, hino⟩ := hr
    refine h.put hgood (fun j hj hji => ?_) fun e he => ?_
    · rw [hino j hj, update_of_ne hji]
    · obtain rfl := some.inj he
      rw [hino i hi, update_self]
      exact ⟨rfl, hlive⟩
  | itrunc i =>
    have hi := hop i rfl
    refine (h.ilock hi).bind fun d hd => ?_
    refine (h.good.mid hi hd.1 hd.2).itrunc.bind fun r hr => .ok ?_
    obtain ⟨hgood, hino, hlive, _⟩ := hr
    refine h.put hgood (fun j hj hji => ?_) fun e he => ?_
    · rw [hino j hj, update_of_ne hji]
    · obtain rfl := some.inj he
      rw [hino i hi, update_self]
      exact ⟨rfl, hlive⟩
  | iput i =>
    have hi := hop i rfl
    refine (h.ilock hi).bind fun d hd => ?_
    refine (h.good.mid hi hd.1 hd.2).iputFree.bind fun s hs => .ok ?_
    exact h.put hs.1 hs.2.1 nofun
  | forget i => exact .ok (h.put h.good (fun _ _ _ => rfl) nofun)
  | evict b => exact .ok (h.evict b)
  | commit b => exact .ok (h.commit b)

theorem step {op : Op} {st' : State} (hs : st.step sb op = some st') :
    Kept sb start st' ∧ ∀ e, st'.panic = some e → e = "ilock: no type" := by
  obtain ⟨hop, ⟨st'', hr, rfl⟩ | ⟨e, hr, rfl⟩⟩ := State.step_cases hs
  · have hk := (h.run hop).of_eq_ok hr
    exact ⟨⟨hk.good, hk.cache⟩, nofun⟩
  · refine ⟨⟨h.good, h.cache⟩, fun e' he' => ?_⟩
    obtain rfl : e = e' := by simpa using he'
    exact (h.run hop).of_eq_error hr

end

end Kept

/-- Over every run from a well-formed image, a data block is marked exactly if one pointer
of one allocated inode names it, pointers name only data blocks, blocks are handed out
only while they are free data blocks, and no free block is freed. -/
theorem block_ownership {sb : Superblock} {st₀ st : State} {ops : List Op}
    (h₀ : WellFormed sb st₀) (run : Run (fun st op st' => st.step sb op = some st') st₀ ops st) :
    (∀ b ∈ sb.dataBlocks,
      marked sb st.store b ↔ ∃! x, held sb st.store (dinode sb st.store) x = some b) ∧
    (∀ x b, held sb st.store (dinode sb st.store) x = some b →
      b ∈ sb.dataBlocks ∧ marked sb st.store b) ∧
    Ledger sb.dataBlocks (inUse sb st₀.store) st.store.events (inUse sb st.store) ∧
    (∀ a s', balloc sb st.store = (a, s') → a ≠ 0 → a.toNat ∈ sb.dataBlocks ∧
      ∀ x, held sb st.store (dinode sb st.store) x ≠ some a.toNat) ∧
    st.panic ≠ some "freeing free block" := by
  obtain ⟨hkept, hpanic⟩ := run.invariant
    (fun st => Kept sb (inUse sb st₀.store) st ∧ ∀ e, st.panic = some e → e = "ilock: no type")
    ⟨Kept.of_wellFormed h₀, by simp [h₀.panic]⟩ fun _ _ _ h hs => h.1.step hs
  have hgood := hkept.good
  refine ⟨fun b hb => ?_, fun x b hx => hgood.owns.mem hx, hgood.ledger, ?_, fun hp => ?_⟩
  · rw [← hgood.owns.mem_iff]
    exact ⟨fun hm => ⟨hb, hm⟩, fun hm => hm.2⟩
  · intro a s' heq ha
    rcases balloc_cases sb st.store with ⟨hnone, -⟩ | ⟨c, hc, hfree, hsome⟩
    · rw [hnone] at heq
      exact absurd (Prod.mk.inj heq).1.symm ha
    · rw [hsome] at heq
      obtain rfl := (Prod.mk.inj heq).1
      rw [Mid.ofNat_toNat hc]
      obtain ⟨hdata, hnot⟩ := hgood.fresh hc hfree
      exact ⟨hdata, fun x hx => hnot (hgood.owns.mem hx)⟩
  · exact absurd (hpanic _ hp) (by decide)

def sampleSb : Superblock where
  size := 60
  nblocks := 55
  ninodes := 16
  inodestart := 2
  bmapstart := 4
  size_lt := by decide
  inodes_lt := by decide
  bitmap_lt := by decide

def sampleState : State where
  store :=
    { logged := fun b i => if b = 4 ∧ i = 0 then 0x1F else 0
      cached := fun _ => none
      events := [] }
  icache := fun _ => none
  panic := none

theorem sampleState_held (x : Slot) :
    held sampleSb sampleState.store (dinode sampleSb sampleState.store) x = none := by
  have htype : ∀ i < 16, (dinode sampleSb sampleState.store i).type = 0 := by decide +kernel
  cases x with
  | addr i k => exact if_neg fun h => h.2 (htype i h.1)
  | entry i k => exact if_neg fun h => h.2 (htype i h.1)

theorem sampleState_wellFormed : WellFormed sampleSb sampleState := by
  have hmarked : ∀ b < 60, marked sampleSb sampleState.store b = decide (b < 5) := by decide +kernel
  refine ⟨?_, ?_, ?_, fun _ => rfl, fun _ => rfl, rfl, rfl⟩
  · intro b hb
    have hb : b < 5 := hb
    rw [hmarked b (by omega)]
    exact decide_eq_true hb
  · rintro b ⟨hlow, hhigh⟩
    have hlow : 5 ≤ b := hlow
    rw [hmarked b hhigh, decide_eq_false (by omega)]
    simp [sampleState_held, ExistsUnique]
  · intro x b hx
    rw [sampleState_held] at hx
    cases hx

/-- Allocating an inode and writing three bytes takes the first data block. -/
theorem block_ownership_write : ∃ st,
    exec (State.step sampleSb) sampleState [.ialloc 2, .writei 1 0 3 [7, 8, 9]] = some st ∧
    held sampleSb st.store (dinode sampleSb st.store) (.addr 1 0) = some 5 ∧
    st.panic ≠ some "freeing free block" ∧ (∀ b ∈ sampleSb.dataBlocks, marked sampleSb st.store b ↔
      ∃! x, held sampleSb st.store (dinode sampleSb st.store) x = some b) := by
  have hfacts : ∃ st ∈ exec (State.step sampleSb) sampleState [.ialloc 2, .writei 1 0 3 [7, 8, 9]],
      held sampleSb st.store (dinode sampleSb st.store) (.addr 1 0) = some 5 := by
    decide +kernel
  obtain ⟨st, hst, hheld⟩ := hfacts
  have hown := block_ownership sampleState_wellFormed (Run.of_exec hst)
  exact ⟨st, hst, hheld, hown.2.2.2.2, hown.1⟩

end EafitOs.FileSystem
