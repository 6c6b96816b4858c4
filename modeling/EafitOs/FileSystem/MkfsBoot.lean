import EafitOs.FileSystem.MkfsRead
import EafitOs.FileSystem.NoHoles

/-!
# The kernel on the image that `mkfs` leaves

What the kernel needs of a disk to keep its blocks apart, it gets from `mkfs`: whatever the
inputs were, and whatever the kernel then does with its inodes.
-/

namespace EafitOs.FileSystem.Mkfs

open Foundation Disk Function Option

variable {inputs : List Input} {m₀ m : Image}

/-- The kernel after it has booted from the image. -/
def Image.boot (m : Image) : State := ⟨m.store, fun _ => none, none⟩

namespace Result

theorem wellFormed (h : Result inputs m₀ m) : WellFormed sb m.boot := by
  have howns := h.made.built.filled.owns
  have hsize : sb.size ≤ bpb := by decide
  have hinside : ∀ x b, held sb m.store m.inode x = some b → sb.nmeta ≤ b ∧ b < sb.size := by
    intro x b hx
    rw [h.finished.held] at hx
    exact ⟨(howns.mem hx).1, (howns.mem hx).2.trans_le h.made.built.blocks_le⟩
  have hmarked : ∀ b < sb.size, marked sb m.store b ↔
      b < sb.nmeta ∨ ∃ x, held sb m.store m.inode x = some b :=
    fun b hb => h.marked_iff (hb.trans_le hsize)
  refine ⟨fun b hb => ?_, fun b hb => ?_, fun x b hx => ?_, fun _ => rfl, fun _ => rfl, rfl, rfl⟩
  · exact (hmarked b (hb.trans (by decide))).mpr (.inl hb)
  · refine (hmarked b hb.2).trans ⟨?_, fun hx => .inr hx.exists⟩
    rintro (hlow | ⟨x, hx⟩)
    · exact absurd hlow (Nat.not_lt.mpr hb.1)
    · refine ⟨x, hx, fun y hy => howns.inj (b := b) ?_ ?_⟩
      · rwa [← h.finished.held]
      · rwa [← h.finished.held]
  · exact ⟨hinside x b hx, (hmarked b (hinside x b hx).2).mpr (.inr ⟨x, hx⟩)⟩

theorem noHoles (h : Result inputs m₀ m) (hround : (inputs.length + 2) % (bsize / 16) ≠ 0) :
    NoHoles sb m.store := by
  intro i hi htype
  have hblock : ∀ n, n * bsize < (m.inode i).size.toNat →
      n < maxfile ∧ ∃ b, held sb m.store m.inode (slot i n) = some b := by
    intro n hn
    have hsome := h.mapped hround hi htype hn
    rw [Image.block] at hsome
    split at hsome
    · exact ⟨‹_›, isSome_iff_exists.mp hsome⟩
    · cases hsome
  refine ⟨?_, fun n hn => ?_, fun hn => ?_⟩
  · by_contra hlt
    exact Nat.lt_irrefl _ (hblock maxfile (Nat.not_le.mp hlt)).1
  · obtain ⟨hmax, b, hb⟩ := hblock n hn
    exact (blockAt_of_held hmax hb).1
  · obtain ⟨hmax, b, hb⟩ := hblock ndirect hn
    exact (blockAt_of_held hmax hb).2.2 (Nat.lt_irrefl _)

end Result

/-- Whatever the kernel does with the inodes of an image of `mkfs`, a data block stays marked
exactly if one pointer names it, and no free block is freed. Unless the root directory ended at
the end of a block, no file gets a hole. -/
theorem mkfs_image_owned (hrun : mkfs inputs = some m) (hroom : inputs.length + 1 < ninodes)
    {ops : List Op} {st : State}
    (run : Run (fun st op st' => st.step sb op = some st') m.boot ops st) :
    (∀ b ∈ sb.dataBlocks,
      marked sb st.store b ↔ ∃! x, held sb st.store (dinode sb st.store) x = some b) ∧
    (∀ e, st.panic = some e → e = "ilock: no type") ∧
    ((inputs.length + 2) % (bsize / 16) ≠ 0 → NoHoles sb st.store) := by
  obtain ⟨m₀, h⟩ := mkfs_result hrun hroom
  obtain ⟨hkept, hpanic, hholes⟩ := run.invariant
    (fun st => Kept sb (inUse sb m.store) st ∧ (∀ e, st.panic = some e → e = "ilock: no type") ∧
      ((inputs.length + 2) % (bsize / 16) ≠ 0 → NoHoles sb st.store))
    ⟨.of_wellFormed h.wellFormed, by simp [Image.boot], h.noHoles⟩ fun _ _ _ h hs =>
      ⟨(h.1.step hs).1, (h.1.step hs).2, fun hround => h.1.noHoles_step (h.2.2 hround) hs⟩
  refine ⟨fun b hb => ?_, hpanic, hholes⟩
  rw [← hkept.good.owns.mem_iff]
  exact ⟨fun hm => ⟨hb, hm⟩, fun hm => hm.2⟩

theorem mkfs_image_owned_oneInput : ∃ m st, mkfs [oneInput] = some m ∧
    Run (fun st op st' => st.step sb op = some st') m.boot [.ialloc 2, .evict 46] st ∧
    NoHoles sb st.store := by
  have hnamed : oneInput.shortname.length ≤ Directory.dirsiz := by decide
  have hsmall : oneInput.Small := ⟨by decide, hnamed, _, rfl, by decide⟩
  have hall : ∀ x ∈ [oneInput], x.Small := by simpa using hsmall
  obtain ⟨m, hrun⟩ := mkfs_small (by decide) hall
  obtain ⟨st, hst⟩ : ∃ st, exec (State.step sb) m.boot [.ialloc 2, .evict 46] = some st :=
    ⟨_, rfl⟩
  have howned := mkfs_image_owned hrun (by decide) (.of_exec hst)
  exact ⟨m, st, hrun, .of_exec hst, howned.2.2 (by decide)⟩

end EafitOs.FileSystem.Mkfs
