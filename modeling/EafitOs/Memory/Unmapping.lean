import EafitOs.Memory.FaultCases
import EafitOs.Memory.TableLifetime

/-!
# Releasing the pages of a mapping

`sys_munmap` and `kexit` walk over a range of pages, write the resident ones back where the
mapping asks for it, and unmap them. What such a loop does to memory is `Drops`, and what it
does to the files is a list of bytes written.
-/

namespace EafitOs.Memory

open Foundation Function List

namespace Fs

variable {fs fs' fs'' : Fs} {ws ws' : List Written}

structure Logs (fs : Fs) (ws : List Written) (fs' : Fs) : Prop where
  written : fs'.written = fs.written ++ ws
  ftable : fs'.ftable = fs.ftable
  type : ∀ i, (fs'.inode i).type = (fs.inode i).type
  ref : ∀ i, (fs'.inode i).ref = (fs.inode i).ref
  nlink : ∀ i, (fs'.inode i).nlink = (fs.inode i).nlink
  data : ∀ i x, (fs'.inode i).data x = (fs.inode i).data x ∨
    ∃ w ∈ ws, w.inum = i ∧ w.off = x ∧ (fs'.inode i).data x = w.byte
  size : ∀ i, (fs.inode i).size ≤ (fs'.inode i).size ∧
    ((fs'.inode i).size = (fs.inode i).size ∨
      ∃ w ∈ ws, w.inum = i ∧ (fs'.inode i).size = w.off + 1)

namespace Logs

theorem refl (fs : Fs) : Logs fs [] fs :=
  ⟨(append_nil _).symm, rfl, fun _ => rfl, fun _ => rfl, fun _ => rfl, fun _ _ => Or.inl rfl,
    fun _ => ⟨le_rfl, Or.inl rfl⟩⟩

theorem trans (h : Logs fs ws fs') (h' : Logs fs' ws' fs'') : Logs fs (ws ++ ws') fs'' where
  written := by rw [h'.written, h.written, append_assoc]
  ftable := h'.ftable.trans h.ftable
  type i := (h'.type i).trans (h.type i)
  ref i := (h'.ref i).trans (h.ref i)
  nlink i := (h'.nlink i).trans (h.nlink i)
  data i x := by
    rcases h'.data i x with heq' | ⟨w, hw, hi, hoff, hbyte⟩
    · rcases h.data i x with heq | ⟨w, hw, hi, hoff, hbyte⟩
      · exact Or.inl (heq'.trans heq)
      · exact Or.inr ⟨w, mem_append_left _ hw, hi, hoff, heq'.trans hbyte⟩
    · exact Or.inr ⟨w, mem_append_right _ hw, hi, hoff, hbyte⟩
  size i := by
    refine ⟨(h.size i).1.trans (h'.size i).1, ?_⟩
    rcases (h'.size i).2 with heq' | ⟨w, hw, hi, hsize⟩
    · rcases (h.size i).2 with heq | ⟨w, hw, hi, hsize⟩
      · exact Or.inl (heq'.trans heq)
      · exact Or.inr ⟨w, mem_append_left _ hw, hi, heq'.trans hsize⟩
    · exact Or.inr ⟨w, mem_append_right _ hw, hi, hsize⟩

theorem ilock (h : Logs fs ws fs') (ip : Option Nat) : fs'.ilock ip = fs.ilock ip := by
  cases ip with
  | none => rfl
  | some i => rw [Fs.ilock, Fs.ilock, h.ref, h.type]

end Logs

theorem writei_logs (fs : Fs) (i off n : Nat) (src : List UInt8) :
    ∃ ws, Logs fs ws (fs.writei i off n src) ∧ ∀ w ∈ ws,
      ∃ j < n, j < src.length ∧ w = ⟨i, off + j, src.getD j 0⟩ := by
  rw [writei]
  split
  · exact ⟨[], .refl fs, fun w hw => absurd hw not_mem_nil⟩
  · rename_i hok
    obtain ⟨hoff, -⟩ := not_or.mp hok
    obtain ⟨tot, htot⟩ : ∃ tot, tot = writeLen fs i off n src := ⟨_, rfl⟩
    have hle : tot ≤ n ∧ tot ≤ src.length := by
      rw [htot, writeLen]
      omega
    simp only [← htot]
    refine ⟨(List.range tot).map fun j => ⟨i, off + j, src.getD j 0⟩, ⟨rfl, rfl, fun k => ?_,
      fun k => ?_, fun k => ?_, fun k x => ?_, fun k => ?_⟩, fun w hw => ?_⟩
    · by_cases hk : k = i
      · simp [setInode, hk]
      · simp [setInode, hk]
    · by_cases hk : k = i
      · simp [setInode, hk]
      · simp [setInode, hk]
    · by_cases hk : k = i
      · simp [setInode, hk]
      · simp [setInode, hk]
    · by_cases hk : k = i
      · subst hk
        simp only [setInode, update_self]
        by_cases hrange : off ≤ x ∧ x < off + tot
        · refine Or.inr ⟨⟨k, off + (x - off), src.getD (x - off) 0⟩, ?_, rfl, ?_, if_pos hrange⟩
          · exact mem_map.mpr ⟨x - off, mem_range.mpr (by omega), rfl⟩
          · simp only
            omega
        · exact Or.inl (if_neg hrange)
      · simp [setInode, hk]
    · by_cases hk : k = i
      · subst hk
        simp only [setInode, update_self]
        refine ⟨by omega, ?_⟩
        by_cases hgrow : (fs.inode k).size < off + tot
        · refine Or.inr ⟨⟨k, off + (tot - 1), src.getD (tot - 1) 0⟩, ?_, rfl, by simp only; omega⟩
          exact mem_map.mpr ⟨tot - 1, mem_range.mpr (by omega), rfl⟩
        · exact Or.inl (by omega)
      · simp [setInode, hk]
    · obtain ⟨j, hj, rfl⟩ := mem_map.mp hw
      have hj := mem_range.mp hj
      exact ⟨j, by omega, by omega, rfl⟩

end Fs

section Release

variable {v : Vma} {c c₁ c' : Ctx} {a : Nat} {as bs : List Nat}

def Vma.FromPage (v : Vma) (c : Ctx) (as : List Nat) (w : Written) : Prop :=
  ∃ a ∈ as, ∃ d perm ip, c.vm.space (vpn a) = some (d, perm) ∧
    (c.fs.ftable v.file).ip = some ip ∧ ∃ j : Fin pgsize, w = ⟨ip, v.fileOff a + j, d j⟩

structure Released (v : Vma) (c : Ctx) (as : List Nat) (c' : Ctx) : Prop where
  drops : Drops c.vm as c'.vm
  below : ∀ a ∈ as, a < maxva
  proc : c'.proc = { c.proc with pt := c'.proc.pt }
  locks : v.writesBack = true → ∀ a ∈ as, vpn a ∈ c.proc.pt.leaf →
    ∃ ip, c.fs.ilock (c.fs.ftable v.file).ip = .ok ip
  logs : ∃ ws, c.fs.Logs ws c'.fs ∧ ∀ w ∈ ws, v.writesBack = true ∧ v.FromPage c as w

structure Releasable (v : Vma) (c : Ctx) (a : Nat) : Prop where
  aligned : a % pgsize = 0
  unmappable : c.vm.Unmappable a
  locks : v.writesBack = true → vpn a ∈ c.proc.pt.leaf →
    ∃ ip, c.fs.ilock (c.fs.ftable v.file).ip = .ok ip

theorem slice_getD (d : Page) {j : Nat} (hj : j < pgsize) :
    (d.slice 0 pgsize).getD j 0 = d ⟨j, hj⟩ := by
  have hlength : (List.ofFn d).length = pgsize := length_ofFn
  rw [Page.slice, drop_zero, take_of_length_le hlength.le,
    getD_eq_getElem?_getD, List.getElem?_ofFn, dif_pos hj]
  rfl

theorem writeBackIf_spec {e : Pte} (he : c.proc.pt.leaf.lookup (vpn a) = some e) :
    Ends (writeBackIf c v a e) (fun c₁ => c₁.mem = c.mem ∧ c₁.proc = c.proc ∧
      (v.writesBack = true → ∃ ip, c.fs.ilock (c.fs.ftable v.file).ip = .ok ip) ∧
      ∃ ws, c.fs.Logs ws c₁.fs ∧ ∀ w ∈ ws, v.writesBack = true ∧ v.FromPage c [a] w)
      fun _ => ¬(v.writesBack = true → ∃ ip, c.fs.ilock (c.fs.ftable v.file).ip = .ok ip) := by
  rw [writeBackIf]
  split
  · rename_i hback
    rw [writeBack]
    cases hip : c.fs.ilock (c.fs.ftable v.file).ip with
    | error e =>
      refine .error fun h => ?_
      obtain ⟨ip, hok⟩ := h hback
      cases hok
    | ok ip =>
      obtain ⟨ws, hlogs, hws⟩ := c.fs.writei_logs ip (v.fileOff a) pgsize
        (if e.perm.u then (c.mem.page e.frame).slice 0 pgsize else [])
      refine .ok ⟨rfl, rfl, fun _ => ⟨ip, rfl⟩, ws, hlogs, fun w hw => ⟨hback, ?_⟩⟩
      obtain ⟨j, hj, hlt, rfl⟩ := hws w hw
      split at hlt
      · rename_i hu
        refine ⟨a, mem_cons_self, c.mem.page e.frame, e.perm, ip, ?_,
          (ilock_ok.mp hip).1, ⟨j, hj⟩, ?_⟩
        · rw [Vm.space, show c.vm.pt.leaf.lookup (vpn a) = some e from he]
          rfl
        · rw [if_pos hu, slice_getD _ hj]
      · cases hlt
  · rename_i hback
    exact .ok ⟨rfl, rfl, fun h => absurd h hback, [], .refl _, fun w hw =>
      absurd hw not_mem_nil⟩

theorem uvmunmap_one {v : Vm} (hv : v.Owned) (hmax : a < maxva) :
    Ends (uvmunmap v a 1 true) (Drops v [a]) fun _ => ¬(a % pgsize = 0 ∧ v.Unmappable a) := by
  rw [uvmunmap]
  split
  · rename_i hunaligned
    exact .error fun h => hunaligned h.1
  · rw [pages_one hmax]
    refine (unmapPages_spec [a] hv).mono (fun _ => id) fun _ hnot h => hnot fun b hb => ?_
    rw [mem_singleton.mp hb]
    exact h.2

theorem releasePage_spec (hv : c.vm.Owned) (v : Vma) (a : Nat) :
    Ends (releasePage v c a) (Released v c [a]) fun _ => ¬Releasable v c a := by
  rw [releasePage, PageTable.walk]
  split
  · rename_i hmax
    exact .error fun h => Nat.not_le.mpr h.unmappable.1 hmax
  · rename_i hmax
    have hbelow : ∀ b ∈ [a], b < maxva := fun b hb => by
      rw [mem_singleton.mp hb]
      omega
    rw [ok_bind]
    cases he : c.proc.pt.leaf.lookup (vpn a) with
    | none =>
      refine .ok ⟨drops_missing hv he, hbelow, rfl, fun _ b hb hpage => ?_, [], .refl _, fun w hw =>
        absurd hw not_mem_nil⟩
      rw [mem_singleton.mp hb] at hpage
      exact absurd hpage (AList.lookup_eq_none.mp he)
    | some e =>
      have hpage : vpn a ∈ c.proc.pt.leaf := AList.lookup_isSome.mp (by rw [he]; rfl)
      rw [releasePte]
      refine ((writeBackIf_spec he).mono (fun _ => id) fun _ hnot h =>
        hnot fun hback => h.locks hback hpage).bind fun c₁ h₁ => ?_
      obtain ⟨hmem, hproc, hlocks, ws, hlogs, hws⟩ := h₁
      have hvm : c₁.vm = c.vm := by rw [Ctx.vm, Ctx.vm, hmem, hproc]
      rw [hvm]
      refine ((uvmunmap_one hv (by omega)).mono (fun _ => id) fun _ hnot h =>
        hnot ⟨h.aligned, h.unmappable⟩).bind fun w hw => .ok ?_
      refine ⟨hw, hbelow, ?_, fun hback _ _ _ => hlocks hback, ws, hlogs, hws⟩
      simp only [Ctx.setVm, hproc]

namespace Released

theorem refl (v : Vma) (c : Ctx) : Released v c [] c :=
  ⟨.refl _, fun _ h => absurd h not_mem_nil, rfl, fun _ _ h => absurd h not_mem_nil,
    [], .refl _, fun _ h => absurd h not_mem_nil⟩

section

variable (h : Released v c as c₁)
include h

theorem ilock : c₁.fs.ilock (c₁.fs.ftable v.file).ip = c.fs.ilock (c.fs.ftable v.file).ip := by
  obtain ⟨ws, hlogs, -⟩ := h.logs
  rw [hlogs.ilock, hlogs.ftable]

theorem space {n : Nat} {x : Page × Perm}
    (hx : c₁.vm.space n = some x) : c.vm.space n = some x := by
  rw [h.drops.space] at hx
  split at hx
  · cases hx
  · exact hx

theorem fromPage {w : Written} (hw : v.FromPage c₁ bs w) : v.FromPage c (as ++ bs) w := by
  obtain ⟨a, ha, d, perm, ip, hspace, hip, hbyte⟩ := hw
  obtain ⟨ws, hlogs, -⟩ := h.logs
  exact ⟨a, mem_append_right _ ha, d, perm, ip, h.space hspace, hlogs.ftable ▸ hip, hbyte⟩

theorem append (h' : Released v c₁ bs c') : Released v c (as ++ bs) c' := by
  refine ⟨h.drops.append h'.drops, fun a ha => ?_, ?_, fun hback a ha hpage => ?_, ?_⟩
  · exact (mem_append.mp ha).elim (h.below a) (h'.below a)
  · rw [h'.proc, h.proc]
  · by_cases hdrop : vpn a ∈ as.map vpn
    · obtain ⟨b, hb, heq⟩ := mem_map.mp hdrop
      exact h.locks hback b hb (heq ▸ hpage)
    · have hmem : a ∈ bs := (mem_append.mp ha).resolve_left fun hin =>
        hdrop (mem_map_of_mem hin)
      have hpage' : vpn a ∈ c₁.proc.pt.leaf := by
        rw [← AList.lookup_isSome] at hpage ⊢
        rw [show c₁.proc.pt.leaf.lookup (vpn a) = c.proc.pt.leaf.lookup (vpn a) from
          (h.drops.leaf _).trans (if_neg hdrop)]
        exact hpage
      rw [← h.ilock]
      exact h'.locks hback a hmem hpage'
  · obtain ⟨ws, hlogs, hws⟩ := h.logs
    obtain ⟨ws', hlogs', hws'⟩ := h'.logs
    refine ⟨ws ++ ws', hlogs.trans hlogs', fun w hw => ?_⟩
    rcases mem_append.mp hw with hw | hw
    · obtain ⟨hback, a, ha, hbyte⟩ := hws w hw
      exact ⟨hback, a, mem_append_left _ ha, hbyte⟩
    · exact ⟨(hws' w hw).1, h.fromPage (hws' w hw).2⟩

theorem releasable (ha : Releasable v c a) : Releasable v c₁ a := by
  refine ⟨ha.aligned, h.drops.toClears.unmappable ha.unmappable, fun hback hpage => ?_⟩
  rw [h.ilock]
  refine ha.locks hback ?_
  rw [← AList.lookup_isSome] at hpage ⊢
  rw [show c₁.proc.pt.leaf.lookup (vpn a) = _ from h.drops.leaf _] at hpage
  split at hpage
  · cases hpage
  · exact hpage

end

end Released

theorem releasePages_spec (v : Vma) (as : List Nat) : ∀ {c : Ctx}, c.vm.Owned →
    Ends (as.foldlM (releasePage v) c) (Released v c as) fun _ => ¬∀ a ∈ as, Releasable v c a := by
  induction as with
  | nil => exact fun _ => .ok (.refl _ _)
  | cons a rest ih =>
    intro c hv
    rw [foldlM_cons]
    refine ((releasePage_spec hv v a).mono (fun _ => id) fun _ hnot h =>
      hnot (h a mem_cons_self)).bind fun c₁ h₁ => ?_
    refine (ih (h₁.drops.moves.owned hv)).mono (fun c₂ h₂ => h₁.append h₂) fun _ hnot h => ?_
    exact hnot fun b hb => h₁.releasable (h b (mem_cons_of_mem a hb))

theorem releaseVma_spec (c : Ctx) (i : Fin maxvma) : Ends (releaseVma c i) (fun c' =>
    1 ≤ (c.fs.ftable (c.proc.vmas i).file).ref ∧ c'.mem = c.mem ∧ c'.proc = c.proc.release i ∧
      c'.fs.written = c.fs.written)
    fun _ => ¬1 ≤ (c.fs.ftable (c.proc.vmas i).file).ref := by
  rw [releaseVma, Fs.fileclose]
  split
  · rename_i href
    exact .error (Nat.not_le.mpr href)
  · rename_i href
    have hiput : ∀ (fs : Fs) (k : Nat), (fs.iput k).written = fs.written := by
      intro fs k
      rw [Fs.iput]
      split <;> rfl
    split
    · exact .ok ⟨Nat.not_lt.mp href, rfl, rfl, rfl⟩
    · simp only
      split
      · exact .ok ⟨Nat.not_lt.mp href, rfl, rfl, hiput _ _⟩
      · exact .ok ⟨Nat.not_lt.mp href, rfl, rfl, hiput _ _⟩
      · exact .ok ⟨Nat.not_lt.mp href, rfl, rfl, rfl⟩

end Release

/-- The frames of the process have one owner and can be freed but for the trampoline, which
is mapped where it belongs, as is the trapframe; the regions lie below them. -/
structure Ctx.Healthy (c : Ctx) : Prop where
  owned : c.vm.Owned
  backed : ∀ f ∈ c.vm.frames, f = c.mem.text ∨ c.mem.Valid f
  mapsTrampoline : ∃ e, c.proc.pt.leaf.lookup (vpn trampoline) = some e ∧ e.frame = c.mem.text
  mapsTrapframe : ∃ e, c.proc.pt.leaf.lookup (vpn trapframe) = some e ∧ e.frame = c.proc.tf
  top : c.proc.sz ≤ trapframe
  vmas : ∀ i, (c.proc.vmas i).used = true →
    ((c.proc.vmas i).addr + (c.proc.vmas i).length) % 2 ^ 64 ≤ trapframe

namespace Ctx.Healthy

variable {c : Ctx} {n : Nat} {e : Pte}

theorem valid (h : c.Healthy) (he : c.proc.pt.leaf.lookup n = some e)
    (hn : n ≠ vpn trampoline) : c.mem.Valid e.frame := by
  obtain ⟨e', he', htext⟩ := h.mapsTrampoline
  refine (h.backed _ (mem_frames_of_lookup he)).resolve_left fun heq => hn ?_
  exact h.owned.inj he he' (heq.trans htext.symm)

theorem sound (h : c.Healthy) : c.mem.Sound := by
  intro f hf
  obtain ⟨e, he, htext⟩ := h.mapsTrampoline
  refine (h.backed f (mem_frames_of_free hf)).resolve_left fun heq => ?_
  exact h.owned.not_free he (htext ▸ heq ▸ hf)

theorem vpn_lt (h : c.Healthy) {i : Fin maxvma} {a : Nat} (ha : (c.proc.vmas i).covers a = true) :
    vpn a < vpn trapframe := by
  obtain ⟨hused, -, hlt⟩ := Vma.covers_iff.mp ha
  have htop := h.vmas i hused
  have hlt' : a < trapframe := Nat.lt_of_lt_of_le hlt htop
  simp only [vpn, trapframe, trampoline, maxva, pgsize] at hlt' ⊢
  omega

end Ctx.Healthy

section Munmap

variable {c c' : Ctx} {addr length : Nat} {i : Fin maxvma}

/-- The pages the loop of `sys_munmap` visits. -/
abbrev munmapPages (addr length : Nat) : List Nat :=
  pages (pgrounddown addr) (pgroundup ((addr + length) % 2 ^ 64))

def Named (addr length n : Nat) : Prop :=
  pgrounddown addr ≤ n * pgsize ∧ n * pgsize < addr + length

structure Vma.ShowsAs (w v : Vma) (n : Nat) : Prop where
  covers : w.covers (n * pgsize) = true
  file : w.file = v.file
  offset : w.offset + (n * pgsize - w.addr) = v.offset + (n * pgsize - v.addr)
  prot : w.prot = v.prot
  flags : w.flags = v.flags

/-- `sys_munmap` has touched what it was asked to: every page outside the named part of the
mapping `v` is as it was, what is left of the mapping is still mapped, and the bytes written
are bytes of its pages. -/
structure MunmapTouches (v : Vma) (addr length : Nat) (c c' : Ctx) : Prop where
  outside : ∀ n, ¬(Named addr length n ∧ v.covers (n * pgsize) = true) →
    c'.proc.pt.leaf.lookup n = c.proc.pt.leaf.lookup n ∧ c'.vm.space n = c.vm.space n
  left : ∀ n, v.covers (n * pgsize) = true → ¬Named addr length n →
    ∃ k, (c'.proc.vmas k).ShowsAs v n
  bytes : ∃ ws, c'.fs.written = c.fs.written ++ ws ∧ ∀ w ∈ ws, ∃ n d perm ip,
    v.covers (n * pgsize) = true ∧ c.vm.space n = some (d, perm) ∧
      (c.fs.ftable v.file).ip = some ip ∧ ∃ j : Fin pgsize, w =
        ⟨ip, v.fileOff (n * pgsize) + j, d j⟩

/-- `sys_munmap` returns, and where it returns 0 it has touched what it was asked to. -/
def MunmapKeeps (c : Ctx) (addr length : Nat) : Prop :=
  ∃ ok c', sysMunmap c addr length = .ok (ok, c') ∧ (ok = true → ∀ i,
    firstIdx (fun i => (c.proc.vmas i).covers addr) = some i →
      MunmapTouches (c.proc.vmas i) addr length c c')

/-- The states and arguments for which `sys_munmap` does no harm: for the mapping it finds,
the loop stays below `MAXVA`, the resident pages in its range are pages of the mapping, and
what is outside the range is covered by another mapping as well; there is a file to write
the pages to, and the reference to the file that is closed is there. -/
structure MunmapSafe (c : Ctx) (addr length : Nat) (i : Fin maxvma) : Prop where
  below : ∀ a ∈ munmapPages addr length, a < maxva
  inside : ∀ a ∈ munmapPages addr length, vpn a ∈ c.proc.pt.leaf →
    (c.proc.vmas i).covers a = true
  left : ∀ n, (c.proc.vmas i).covers (n * pgsize) = true → ¬Named addr length n →
    ∃ k, k ≠ i ∧ (c.proc.vmas k).ShowsAs (c.proc.vmas i) n
  locks : (c.proc.vmas i).writesBack = true → ∀ a ∈ munmapPages addr length,
    vpn a ∈ c.proc.pt.leaf → ∃ ip, c.fs.ilock (c.fs.ftable (c.proc.vmas i).file).ip = .ok ip
  ref : 1 ≤ (c.fs.ftable (c.proc.vmas i).file).ref

theorem named_of_mem {n : Nat} (h : n ∈ (munmapPages addr length).map vpn) :
    Named addr length n := by
  rw [mem_pages (pgrounddown_mod addr), vpn_pgrounddown] at h
  simp only [Named, vpn, pgrounddown, pgroundup, pgsize] at h ⊢
  omega

theorem mul_vpn_of_mem {a : Nat} (h : a ∈ munmapPages addr length) : vpn a * pgsize = a := by
  have haligned := pages_aligned (pgrounddown_mod addr) a h
  simp only [vpn, pgsize] at haligned ⊢
  omega

theorem mem_pages_lt {va stop a : Nat} (ha : a ∈ pages va stop) : a < stop := by
  obtain ⟨k, hk, rfl⟩ := mem_map.mp ha
  have hk := mem_range.mp hk
  simp only [pgsize] at hk ⊢
  omega

section WholePages

variable {v : Vma} (haddr : v.addr % pgsize = 0) (hlen : v.length % pgsize = 0)
include haddr hlen

theorem covers_page {a : Nat} :
    v.covers (vpn a * pgsize) = true ↔ v.covers a = true := by
  rw [Vma.covers_iff, Vma.covers_iff]
  refine and_congr_right fun _ => ?_
  simp only [vpn, pgsize] at haddr hlen ⊢
  omega

theorem munmapPages_lt {a : Nat}
    (ha : a ∈ munmapPages v.addr v.length) : a < (v.addr + v.length) % 2 ^ 64 := by
  have hlt := mem_pages_lt ha
  simp only [pgroundup, pgsize] at haddr hlen hlt
  omega

end WholePages

theorem sysMunmap_spec (hv : c.vm.Owned)
    (hi : firstIdx (fun i => (c.proc.vmas i).covers addr) = some i) (length : Nat) :
    Ends (sysMunmap c addr length) (fun r => r.1 = true ∧ ∃ c₁,
      Released (c.proc.vmas i) c (munmapPages addr length) c₁ ∧
      1 ≤ (c.fs.ftable (c.proc.vmas i).file).ref ∧ r.2.vm = c₁.vm ∧
      r.2.proc = c₁.proc.release i ∧ r.2.fs.written = c₁.fs.written)
      fun _ => ¬((∀ a ∈ munmapPages addr length, Releasable (c.proc.vmas i) c a) ∧
        1 ≤ (c.fs.ftable (c.proc.vmas i).file).ref) := by
  rw [sysMunmap, hi]
  refine ((releasePages_spec (c.proc.vmas i) _ hv).mono (fun _ => id) fun _ hnot h =>
    hnot h.1).bind fun c₁ h₁ => ?_
  obtain ⟨ws, hlogs, -⟩ := h₁.logs
  have hvma : c₁.proc.vmas = c.proc.vmas := by rw [h₁.proc]
  have hspec := releaseVma_spec c₁ i
  rw [hvma, hlogs.ftable] at hspec
  refine (hspec.mono (fun _ => id) fun _ hnot h => hnot h.2).bind fun c₂ h₂ => ?_
  obtain ⟨href, hmem, hproc, hwritten⟩ := h₂
  refine .ok ⟨rfl, c₁, h₁, href, ?_, hproc, hwritten⟩
  simp only [Ctx.vm, hmem, hproc, Proc.release]

theorem release_showsAs {p : Proc} {v : Vma} {n : Nat} {k : Fin maxvma} :
    ((p.release i).vmas k).ShowsAs v n ↔ k ≠ i ∧ (p.vmas k).ShowsAs v n := by
  by_cases hk : k = i
  · subst hk
    refine ⟨fun h => ?_, fun h => absurd rfl h.1⟩
    have hused := (Vma.covers_iff.mp h.covers).1
    simp [Proc.release] at hused
  · have hvma : (p.release i).vmas k = p.vmas k := update_of_ne hk _ _
    rw [hvma]
    exact ⟨fun h => ⟨hk, h⟩, fun h => h.2⟩

theorem munmapSafe_of_keeps (hv : c.vm.Owned) (hkeeps : MunmapKeeps c addr length)
    (hi : firstIdx (fun i => (c.proc.vmas i).covers addr) = some i) :
      MunmapSafe c addr length i := by
  obtain ⟨ok, c', hcall, htouch⟩ := hkeeps
  obtain ⟨hok, c₁, h₁, href, hvm, hproc, -⟩ := (sysMunmap_spec hv hi length).of_eq_ok hcall
  have htouch := htouch hok i hi
  refine ⟨h₁.below, fun a ha hpage => ?_, fun n hn hnot => ?_, h₁.locks, href⟩
  · by_contra hcover
    obtain ⟨hleaf, -⟩ := htouch.outside (vpn a) fun h => hcover (mul_vpn_of_mem ha ▸ h.2)
    have hdropped : c'.vm.pt.leaf.lookup (vpn a) = none := by
      have hvm' : c'.vm = c₁.vm := hvm
      rw [hvm', h₁.drops.leaf, if_pos (mem_map_of_mem ha)]
    rw [← AList.lookup_isSome, ← hleaf, show c'.proc.pt.leaf.lookup (vpn a) = none from hdropped]
      at hpage
    cases hpage
  · obtain ⟨k, hk⟩ := htouch.left n hn hnot
    have hproc' : c'.proc = c₁.proc.release i := hproc
    rw [hproc', release_showsAs, h₁.proc] at hk
    exact ⟨k, hk⟩

theorem munmapTouches_of_safe (h : MunmapSafe c addr length i) {c₁ : Ctx}
    (h₁ : Released (c.proc.vmas i) c (munmapPages addr length) c₁) (hvm : c'.vm = c₁.vm)
    (hproc : c'.proc = c₁.proc.release i) (hwritten : c'.fs.written = c₁.fs.written) :
    MunmapTouches (c.proc.vmas i) addr length c c' := by
  refine ⟨fun n hn => ?_, fun n hn hnot => ?_, ?_⟩
  · have hleaf : c'.proc.pt.leaf.lookup n = _ := (congrArg (·.pt.leaf.lookup n) hvm).trans
      (h₁.drops.leaf n)
    rw [hleaf, hvm, h₁.drops.space]
    by_cases hmem : n ∈ (munmapPages addr length).map vpn
    · -- a page the loop visits and that is not in the named part is not there
      have hmissing : c.proc.pt.leaf.lookup n = none := by
        refine AList.lookup_eq_none.mpr fun hpage => hn ⟨named_of_mem hmem, ?_⟩
        obtain ⟨a, ha, rfl⟩ := mem_map.mp hmem
        rw [mul_vpn_of_mem ha]
        exact h.inside a ha hpage
      rw [if_pos hmem, if_pos hmem, Vm.space]
      rw [show c.vm.pt.leaf.lookup n = none from hmissing, hmissing]
      exact ⟨rfl, rfl⟩
    · rw [if_neg hmem, if_neg hmem]
      exact ⟨rfl, rfl⟩
  · obtain ⟨k, hk⟩ := h.left n hn hnot
    refine ⟨k, ?_⟩
    rw [hproc, release_showsAs, h₁.proc]
    exact hk
  · obtain ⟨ws, hlogs, hws⟩ := h₁.logs
    refine ⟨ws, hwritten.trans hlogs.written, fun w hw => ?_⟩
    obtain ⟨-, a, ha, d, perm, ip, hspace, hip, j, hj⟩ := hws w hw
    have hpage : vpn a ∈ c.proc.pt.leaf := by
      by_contra hnot
      rw [Vm.space, show c.vm.pt.leaf.lookup (vpn a) = none from AList.lookup_eq_none.mpr hnot]
        at hspace
      cases hspace
    have hmul := mul_vpn_of_mem ha
    exact ⟨vpn a, d, perm, ip, hmul.symm ▸ h.inside a ha hpage, hspace, hip, j, hmul.symm ▸ hj⟩

/-- `sys_munmap` touches only what it was asked to exactly where its arguments do not reach
beyond the mapping and do not leave a part of it out. -/
theorem munmap_touches_iff (h : c.Healthy) (addr length : Nat) : MunmapKeeps c addr length ↔
    ∀ i, firstIdx (fun i => (c.proc.vmas i).covers addr) = some i → MunmapSafe c addr length i := by
  constructor
  · exact fun hkeeps i hi => munmapSafe_of_keeps h.owned hkeeps hi
  · intro hsafe
    cases hi : firstIdx fun i => (c.proc.vmas i).covers addr with
    | none =>
      have hcall : sysMunmap c addr length = .ok (false, c) := by rw [sysMunmap, hi]
      exact ⟨false, c, hcall, fun hfalse => by cases hfalse⟩
    | some i =>
      have hsafe := hsafe i hi
      have hreleasable : ∀ a ∈ munmapPages addr length, Releasable (c.proc.vmas i) c a := by
        refine fun a ha => ⟨pages_aligned (pgrounddown_mod addr) a ha, ⟨hsafe.below a ha,
          fun e he => ?_⟩, fun hback => hsafe.locks hback a ha⟩
        have hpage : vpn a ∈ c.proc.pt.leaf := AList.lookup_isSome.mp
          (by rw [show c.proc.pt.leaf.lookup (vpn a) = some e from he]; rfl)
        have hlt := h.vpn_lt (hsafe.inside a ha hpage)
        exact h.valid he fun heq => absurd hlt (by rw [heq]; decide)
      obtain ⟨⟨ok, c'⟩, hcall, rfl, c₁, h₁, -, hvm, hproc, hwritten⟩ :=
        ((sysMunmap_spec h.owned hi length).mono (fun _ => id) fun _ hnot =>
          hnot ⟨hreleasable, hsafe.ref⟩).exists_ok
      refine ⟨true, c', hcall, fun _ k hk => ?_⟩
      obtain rfl : i = k := Option.some.inj (hi.symm.trans hk)
      exact munmapTouches_of_safe hsafe h₁ hvm hproc hwritten

end Munmap

def sampleRegion (n : Nat) : Ctx :=
  { sampleCtx with fs := sampleCtx.fs.setFile 0 ⟨.inode, 3, true, true, some 1⟩ }.setSz
    (4096 + n * pgsize) |>.setVma 0 ⟨true, 4096, n * pgsize, 3, 1, 0, 0⟩

theorem sampleRegion_vmas {n : Nat} {k : Fin maxvma}
    (hk : ((sampleRegion n).proc.vmas k).used = true) : k = 0 := by
  by_contra hne
  simp [sampleRegion, Ctx.setVma, update_of_ne hne, Ctx.setSz, sampleCtx, Kernel.ctx,
    sampleProc] at hk

theorem sampleRegion_healthy {n : Nat} (hn : 4096 + n * pgsize ≤ trapframe) :
    (sampleRegion n).Healthy where
  owned := sampleCtx_owned
  backed := show ∀ f ∈ sampleCtx.vm.frames, f = sampleCtx.mem.text ∨ sampleCtx.mem.Valid f by
    decide +kernel
  mapsTrampoline := ⟨_, rfl, rfl⟩
  mapsTrapframe := ⟨_, rfl, rfl⟩
  top := hn
  vmas := by
    intro k hk
    obtain rfl := sampleRegion_vmas hk
    exact (Nat.mod_le _ _).trans hn

theorem sampleRegion_first {n : Nat} (hn : 0 < n) (hmax : 4096 + n * pgsize < 2 ^ 64) :
    firstIdx (fun i => ((sampleRegion n).proc.vmas i).covers 4096) = some 0 := by
  refine firstIdx_eq_of_unique (Vma.covers_iff.mpr ⟨rfl, le_rfl, ?_⟩) fun k hk =>
    sampleRegion_vmas (Vma.covers_iff.mp hk).1
  have hend : (4096 + n * pgsize) % 2 ^ 64 = 4096 + n * pgsize := Nat.mod_eq_of_lt hmax
  have hpos : 0 < n * pgsize := Nat.mul_pos hn (by decide)
  have hlt : 4096 < (4096 + n * pgsize) % 2 ^ 64 := by omega
  exact hlt

/-- A mapping of one page, which a page fault has made resident, is unmapped as a whole. -/
theorem munmap_touches_whole : ∃ c, usertrap (sampleRegion 1) 4096 = .ok c ∧
    1 ∈ c.proc.pt.leaf ∧ c.Healthy ∧ MunmapKeeps c 4096 4096 := by
  have hrun : ∃ c, usertrap (sampleRegion 1) 4096 = .ok c ∧ (1 ∈ c.proc.pt.leaf ∧
      c.vm.frames.Nodup ∧ (∀ i ∈ c.vm.pt.mid, i < 512) ∧
      (∀ f ∈ c.vm.frames, f = c.mem.text ∨ c.mem.Valid f)) ∧
      ((c.proc.pt.leaf.lookup (vpn trampoline)).map (·.frame) = some c.mem.text ∧
        (c.proc.pt.leaf.lookup (vpn trapframe)).map (·.frame) = some c.proc.tf) ∧
      c.fs.ilock (c.fs.ftable 0).ip = .ok 1 ∧ 1 ≤ (c.fs.ftable 0).ref := by
    decide +kernel
  obtain ⟨c, hc, ⟨hpage, hnodup, hkeys, hbacked⟩, ⟨htramp, htf⟩, hlock, href⟩ := hrun
  obtain ⟨hsz, hvmas, -⟩ := (usertrap_sameRegions (sampleRegion 1) 4096).of_eq_ok hc
  have hhealthy : c.Healthy := by
    refine ⟨⟨Multiset.nodup_iff_count_le_one.mp hnodup, hkeys⟩, hbacked,
      Option.map_eq_some_iff.mp htramp, Option.map_eq_some_iff.mp htf, ?_, fun i hi => ?_⟩
    · rw [hsz]
      decide
    · rw [hvmas] at hi ⊢
      exact (sampleRegion_healthy (n := 1) (by decide)).vmas i hi
  refine ⟨c, hc, hpage, hhealthy, (munmap_touches_iff hhealthy 4096 4096).mpr ?_⟩
  intro i hi
  rw [hvmas] at hi
  obtain rfl : 0 = i := Option.some.inj ((sampleRegion_first (by decide) (by decide)).symm.trans hi)
  have hpages : munmapPages 4096 4096 = [4096] := by decide +kernel
  constructor
  case below =>
    rw [hpages]
    decide
  case inside =>
    intro a ha _
    rw [hpages, mem_singleton] at ha
    rw [hvmas, ha]
    decide
  case left =>
    intro n hn hnot
    rw [hvmas] at hn
    obtain ⟨-, hle, hlt⟩ := Vma.covers_iff.mp hn
    have hle' : 4096 ≤ n * pgsize := hle
    have hlt' : n * pgsize < 8192 := hlt
    exact absurd (show Named 4096 4096 n from ⟨hle', hlt'⟩) hnot
  case locks =>
    intro _ _ _ _
    rw [hvmas]
    exact ⟨1, hlock⟩
  case ref =>
    rw [hvmas]
    exact href

/-- A call that names the first of two pages gives up the mapping of both; a call with a
large length runs into addresses `walk` does not know. -/
theorem munmap_reaches_beyond : ¬MunmapKeeps (sampleRegion 2) 4096 4096 ∧
    ¬MunmapKeeps (sampleRegion 1) 4096 (2 ^ 38) := by
  constructor
  · intro hkeeps
    have hsafe := munmapSafe_of_keeps (sampleRegion_healthy (by decide)).owned hkeeps
      (sampleRegion_first (by decide) (by decide))
    obtain ⟨k, hne, hk⟩ := hsafe.left 2 (by decide) (by
      rintro ⟨-, hlt⟩
      exact absurd hlt (by decide))
    exact hne (sampleRegion_vmas (Vma.covers_iff.mp hk.covers).1)
  · intro hkeeps
    have hsafe := munmapSafe_of_keeps (sampleRegion_healthy (by decide)).owned hkeeps
      (sampleRegion_first (by decide) (by decide))
    have hmem : vpn maxva ∈ (munmapPages 4096 (2 ^ 38)).map vpn :=
      (mem_pages (pgrounddown_mod 4096)).mpr ⟨by decide, by decide⟩
    obtain ⟨a, ha, heq⟩ := mem_map.mp hmem
    have hlt := hsafe.below a ha
    simp only [vpn, maxva, pgsize] at heq hlt
    omega

end EafitOs.Memory
