import EafitOs.Memory.CallEffects
import EafitOs.Memory.PageContents

/-!
# Writing a mapping back

`sys_munmap` and `kexit` write every resident page of a shared mapping to the file, whether
it was stored to or not. The file changes only where the process has stored bytes if the
resident pages lie inside the file and the file has not changed under them.
-/

namespace EafitOs.Memory

open Foundation Function Option

namespace Fs

variable {fs fs' fs'' : Fs}

/-- The open files lead where they did, and files that have a name keep their contents. -/
structure Keeps (fs fs' : Fs) : Prop where
  ip : ∀ f, (fs'.ftable f).ip = (fs.ftable f).ip
  file : ∀ i, 0 < (fs.inode i).nlink → (fs'.inode i).nlink = (fs.inode i).nlink ∧
    (fs'.inode i).size = (fs.inode i).size ∧ (fs'.inode i).data = (fs.inode i).data

theorem Keeps.trans (h : Keeps fs fs') (h' : Keeps fs' fs'') : Keeps fs fs'' := by
  refine ⟨fun f => (h'.ip f).trans (h.ip f), fun i hi => ?_⟩
  obtain ⟨hlink, hsize, hdata⟩ := h.file i hi
  obtain ⟨hlink', hsize', hdata'⟩ := h'.file i (hlink ▸ hi)
  exact ⟨hlink'.trans hlink, hsize'.trans hsize, hdata'.trans hdata⟩

theorem iput_keeps (fs : Fs) (k : Nat) : Keeps fs (fs.iput k) := by
  rw [iput]
  split
  · rename_i hlast
    refine ⟨fun _ => rfl, fun i hi => ?_⟩
    have hne : i ≠ k := fun heq => hi.ne' (heq ▸ hlast.2)
    simp [setInode, update_of_ne hne]
  · refine ⟨fun _ => rfl, fun i _ => ?_⟩
    by_cases hik : i = k
    · simp [setInode, hik]
    · simp [setInode, update_of_ne hik]

theorem setFile_keeps {f : Nat} {file : File} (hip : file.ip = (fs.ftable f).ip) :
    Keeps fs (fs.setFile f file) := by
  refine ⟨fun g => ?_, fun _ _ => ⟨rfl, rfl, rfl⟩⟩
  by_cases hg : g = f
  · simp [setFile, hg, hip]
  · simp [setFile, update_of_ne hg]

theorem fileclose_keeps (fs : Fs) (f : Nat) : Ends (fs.fileclose f) (Keeps fs) fun _ => True := by
  rw [fileclose]
  split
  · exact .error trivial
  · split
    · exact .ok (setFile_keeps rfl)
    · have hset : Keeps fs (fs.setFile f { fs.ftable f with ref := 0, type := .none }) :=
        setFile_keeps rfl
      simp only
      split
      · exact .ok (hset.trans (iput_keeps _ _))
      · exact .ok (hset.trans (iput_keeps _ _))
      · exact .ok hset

end Fs

/-- Where in the file the mapping shows the byte at `a`. -/
def Vma.place (v : Vma) (a : Nat) : Nat := v.fileOff (pgrounddown a) + (pageOffset a).val

structure Proc.Alone (p : Proc) (i : Fin maxvma) : Prop where
  addr : (p.vmas i).addr % pgsize = 0
  length : (p.vmas i).length % pgsize = 0
  sole : ∀ a, (p.vmas i).covers a = true → p.Sole i a

theorem Proc.Alone.of_regions {p q : Proc} {i : Fin maxvma} (h : p.Alone i) (hq : SameRegions p q) :
    q.Alone i where
  addr := hq.vmas ▸ h.addr
  length := hq.vmas ▸ h.length
  sole a ha := by
    rw [hq.vmas] at ha
    obtain ⟨hcovers, honly, hnone⟩ := h.sole a ha
    refine ⟨?_, ?_, ?_⟩
    · rwa [hq.vmas]
    · rwa [hq.vmas]
    · rwa [Proc.noVregion, hq.vregions]

/-- The resident pages of mapping `i` lie in the file and show it but for the bytes that were
stored. -/
structure Clean (i : Fin maxvma) (ip : Nat) (ls : List Access) (c : Ctx) : Prop where
  owned : c.vm.Owned
  alone : c.proc.Alone i
  file : (c.fs.ftable (c.proc.vmas i).file).ip = some ip
  small : (c.fs.inode ip).size ≤ maxfile * bsize
  page : ∀ a d perm, (c.proc.vmas i).covers a = true → c.vm.space (vpn a) = some (d, perm) →
    (c.proc.vmas i).place a < (c.fs.inode ip).size ∧
      (¬Stored ls a → d (pageOffset a) = (c.fs.inode ip).data ((c.proc.vmas i).place a))

structure Aside (c c' : Ctx) : Prop where
  space : c'.vm.space = c.vm.space
  regions : SameRegions c.proc c'.proc
  owned : c'.vm.Owned

/-- Loads and stores of the process, and whatever others do to the files. -/
inductive MappedStep (namei : String → Option Nat) (c : Ctx) : Access → Ctx → Prop
  | touch {t : Touch} {r : Option Nat} {c' : Ctx} (hrun : c.run namei t.call = .ok (r, c')) :
      MappedStep namei c (.touch t r) c'
  | other {c' : Ctx} (h : Aside c c') : MappedStep namei c (.other c'.fs) c'

/-- The mapping is accessed only on pages that the file fills, and nobody changes the file
under a resident page or cuts it off there. -/
def Harmless (i : Fin maxvma) (ip : Nat) (c : Ctx) : Access → Prop
  | .touch t _ => (c.proc.vmas i).covers t.va = true →
      (c.proc.vmas i).fileOff (pgrounddown t.va) + pgsize ≤ (c.fs.inode ip).size
  | .other fs => (fs.ftable (c.proc.vmas i).file).ip = some ip ∧
      (fs.inode ip).size ≤ maxfile * bsize ∧
      ∀ a x, (c.proc.vmas i).covers a = true → c.vm.space (vpn a) = some x →
        (c.proc.vmas i).place a < (fs.inode ip).size ∧
        (fs.inode ip).data ((c.proc.vmas i).place a) =
          (c.fs.inode ip).data ((c.proc.vmas i).place a)

section Run

variable {i : Fin maxvma} {ip : Nat} {ls : List Access} {c c' c'' : Ctx}
  {namei : String → Option Nat}

theorem Clean.hit (h : Clean i ip ls c) {t : Touch} {d : Page} {perm : Perm} {r : Option Nat × Ctx}
    (hr : Hit c t d perm r) : Clean i ip (ls ++ [.touch t r.1]) r.2 := by
  have hproc : r.2.proc = c.proc := by rw [hr.ctx]
  have hfs : r.2.fs = c.fs := by rw [hr.ctx]
  refine ⟨hr.moves.owned h.owned, hproc ▸ h.alone, ?_, ?_, fun a e perm' ha he => ?_⟩
  · rw [hproc, hfs]
    exact h.file
  · rw [hfs]
    exact h.small
  · rw [hproc] at ha ⊢
    rw [hr.space] at he
    rw [hfs]
    by_cases hpage : vpn a = vpn t.va
    · rw [hpage, update_self] at he
      obtain ⟨rfl, rfl⟩ := Prod.mk.inj (some.inj he)
      obtain ⟨hin, hbyte⟩ := h.page a d perm ha (hpage ▸ hr.page)
      refine ⟨hin, fun hs => ?_⟩
      rw [← hbyte fun hold => hs (hold.append _)]
      cases t with
      | load va => rfl
      | store va b =>
        refine update_of_ne (fun heq => hs ?_) _ _
        refine ⟨va, b, 0, List.mem_append_right _ ?_, ?_⟩
        · rw [hr.value]
          exact List.mem_singleton.mpr rfl
        · rw [← vpn_add_pageOffset va.toNat, ← vpn_add_pageOffset a, heq]
          exact congrArg (· * pgsize + _) hpage.symm
    · rw [update_of_ne hpage] at he
      obtain ⟨hin, hbyte⟩ := h.page a e perm' ha he
      exact ⟨hin, fun hs => hbyte fun hold => hs (hold.append _)⟩

theorem Clean.fill (h : Clean i ip ls c) {a va : Nat} (hpage : vpn a = vpn va)
    (hinside : (c.proc.vmas i).fileOff (pgrounddown va) + pgsize ≤ (c.fs.inode ip).size) :
    (c.proc.vmas i).place a < (c.fs.inode ip).size ∧
      (c.proc.vmas i).fill c.fs ip (pgrounddown va) (pageOffset a) =
        (c.fs.inode ip).data ((c.proc.vmas i).place a) := by
  have hround : pgrounddown a = pgrounddown va := congrArg (· * pgsize) hpage
  have hoff := (pageOffset a).isLt
  have hsmall := h.small
  rw [Vma.place, hround, fill_apply]
  generalize (c.proc.vmas i).fileOff (pgrounddown va) = off at hinside ⊢
  simp only [maxfile, bsize, pgsize] at hoff hsmall hinside
  exact ⟨by omega, if_pos ⟨by omega, by simp only [pgsize]; omega, hoff⟩⟩

theorem Clean.trap (h : Clean i ip ls c) {va : Nat} (hinside : (c.proc.vmas i).covers va = true →
      (c.proc.vmas i).fileOff (pgrounddown va) + pgsize ≤ (c.fs.inode ip).size)
    (htrap : Trap c va c') (l : Access) : Clean i ip (ls ++ [l]) c' := by
  have hregions := htrap.sameRegions
  have hfs : c'.fs = c.fs := by cases htrap <;> rfl
  have hold : ∀ a d perm, (c.proc.vmas i).covers a = true → c.vm.space (vpn a) = some (d, perm) →
      (c.proc.vmas i).place a < (c.fs.inode ip).size ∧ (¬Stored (ls ++ [l]) a →
        d (pageOffset a) = (c.fs.inode ip).data ((c.proc.vmas i).place a)) := by
    intro a d perm ha hd
    obtain ⟨hin, hbyte⟩ := h.page a d perm ha hd
    exact ⟨hin, fun hs => hbyte fun hbefore => hs (hbefore.append l)⟩
  refine ⟨(htrap.moves h.owned).owned h.owned, h.alone.of_regions hregions, ?_, ?_,
    fun a d perm ha hd => ?_⟩
  · rw [hregions.vmas, hfs]
    exact h.file
  · rw [hfs]
    exact h.small
  · rw [hregions.vmas] at ha ⊢
    rw [hfs]
    rcases htrap.space h.owned with ⟨-, d', perm', hserved, hspace, -⟩ | hspace | ⟨hspace, -⟩
    · rw [hspace] at hd
      by_cases hpage : vpn a = vpn va
      · rw [hpage, update_self] at hd
        obtain ⟨rfl, rfl⟩ := Prod.mk.inj (some.inj hd)
        have hcover : (c.proc.vmas i).covers va = true :=
          (covers_page h.alone.addr h.alone.length).mp
            (hpage ▸ (covers_page h.alone.addr h.alone.length).mpr ha)
        obtain ⟨rfl, -⟩ := (h.alone.sole va hcover).trapPage h.file hserved
        obtain ⟨hin, hbyte⟩ := h.fill hpage (hinside hcover)
        exact ⟨hin, fun _ => hbyte⟩
      · rw [update_of_ne hpage] at hd
        exact hold a d perm ha hd
    · exact hold a d perm ha (hspace ▸ hd)
    · rw [hspace] at hd
      by_cases hpage : vpn a = vpn va
      · rw [hpage, update_self] at hd
        cases hd
      · rw [update_of_ne hpage] at hd
        exact hold a d perm ha hd

theorem Clean.aside (h : Clean i ip ls c) (hc' : Aside c c')
    (hfs : Harmless i ip c (.other c'.fs)) :
    Clean i ip (ls ++ [.other c'.fs]) c' := by
  have hregions := hc'.regions
  obtain ⟨hfile, hsmall, hbytes⟩ := hfs
  refine ⟨hc'.owned, h.alone.of_regions hregions, ?_, hsmall, fun a d perm ha hd => ?_⟩
  · rw [hregions.vmas]
    exact hfile
  · rw [hregions.vmas] at ha ⊢
    rw [hc'.space] at hd
    obtain ⟨hin, hsame⟩ := hbytes a _ ha hd
    refine ⟨hin, fun hs => ?_⟩
    rw [hsame]
    exact (h.page a d perm ha hd).2 fun hold => hs (hold.append _)

theorem Clean.run (h : Clean i ip [] c)
    (run : Run (guarded (Harmless i ip) (MappedStep namei)) c ls c') : Clean i ip ls c' := by
  induction run with
  | nil => exact h
  | snoc _ hstep ih =>
    obtain ⟨hgood, hstep⟩ := hstep
    cases hstep with
    | @touch t r c'' hrun =>
      rcases (touch_cases namei ih.owned t).of_eq_ok hrun with ⟨d, perm, hhit⟩ | ⟨-, htrap⟩
      · exact ih.hit hhit
      · exact ih.trap hgood htrap _
    | other hc' => exact ih.aside hc' hgood

end Run

section Changes

variable {i k : Fin maxvma} {ip : Nat} {ls : List Access} {c c' c'' : Ctx} {v : Vma}
  {namei : String → Option Nat} {fs fs' fs₀ : Fs} {ws : List Written}

/-- The file has its size, and differs only where a stored byte of the mapping has its place. -/
structure ChangesOnly (v : Vma) (ip : Nat) (ls : List Access) (fs fs' : Fs) : Prop where
  size : (fs'.inode ip).size = (fs.inode ip).size
  data : ∀ x, (fs'.inode ip).data x ≠ (fs.inode ip).data x →
    ∃ a, v.covers a = true ∧ Stored ls a ∧ x = v.place a

def Allowed (v : Vma) (ip : Nat) (ls : List Access) (fs : Fs) (w : Written) : Prop :=
  w.inum = ip → w.off < (fs.inode ip).size ∧ (w.byte = (fs.inode ip).data w.off ∨
    ∃ a, v.covers a = true ∧ Stored ls a ∧ w.off = v.place a)

theorem ChangesOnly.refl (v : Vma) (ip : Nat) (ls : List Access) (fs : Fs) :
    ChangesOnly v ip ls fs fs :=
  ⟨rfl, fun _ h => absurd rfl h⟩

theorem ChangesOnly.logs (h : ChangesOnly v ip ls fs₀ fs) (hlogs : fs.Logs ws fs')
    (hws : ∀ w ∈ ws, Allowed v ip ls fs₀ w) : ChangesOnly v ip ls fs₀ fs' := by
  refine ⟨?_, fun x hx => ?_⟩
  · obtain ⟨hle, heq | ⟨w, hw, hi, heq⟩⟩ := hlogs.size ip
    · exact heq.trans h.size
    · have hlt := (hws w hw hi).1
      have hsize := h.size
      omega
  · rcases hlogs.data ip x with heq | ⟨w, hw, hi, rfl, hbyte⟩
    · exact h.data x (heq ▸ hx)
    · refine ((hws w hw hi).2.resolve_left fun hold => hx ?_)
      rw [hbyte, hold]

theorem ChangesOnly.keeps (h : ChangesOnly v ip ls fs₀ fs) (hkeeps : fs.Keeps fs')
    (hlink : 0 < (fs.inode ip).nlink) : ChangesOnly v ip ls fs₀ fs' := by
  obtain ⟨-, hsize, hdata⟩ := hkeeps.file ip hlink
  refine ⟨hsize.trans h.size, fun x hx => h.data x ?_⟩
  rwa [hdata] at hx

theorem Clean.allowed (h : Clean i ip ls c) {as : List Nat} {w : Written}
    (has : ∀ a ∈ as, a % pgsize = 0 ∧ (c.proc.vmas i).covers a = true)
    (hspace : ∀ n x, c'.vm.space n = some x → c.vm.space n = some x)
    (hip : (c'.fs.ftable (c.proc.vmas i).file).ip = (c.fs.ftable (c.proc.vmas i).file).ip)
    (hw : (c.proc.vmas i).FromPage c' as w) : Allowed (c.proc.vmas i) ip ls c.fs w := by
  obtain ⟨b, hb, d, perm, ip', hpage, hip', j, rfl⟩ := hw
  obtain rfl : ip = ip' := by
    rw [hip, h.file] at hip'
    exact some.inj hip'
  obtain ⟨haligned, hcover⟩ := has b hb
  -- the byte at offset `j` of the page
  obtain ⟨a, ha⟩ : ∃ a, a = b + j.val := ⟨_, rfl⟩
  have hj := j.isLt
  have hvpn : vpn a = vpn b := by
    simp only [vpn, pgsize] at haligned hj ⊢
    omega
  have hoff : pageOffset a = j := by
    refine Fin.ext ?_
    simp only [pageOffset, pgsize] at haligned hj ⊢
    omega
  have hround : pgrounddown a = b := by
    simp only [pgrounddown, pgsize] at haligned hj ⊢
    omega
  have hplace : (c.proc.vmas i).place a = (c.proc.vmas i).fileOff b + j := by
    rw [Vma.place, hround, hoff]
  have hcover' : (c.proc.vmas i).covers a = true :=
    (covers_page h.alone.addr h.alone.length).mp
      (hvpn ▸ (covers_page h.alone.addr h.alone.length).mpr hcover)
  obtain ⟨hin, hbyte⟩ := h.page a d perm hcover' (hvpn ▸ hspace _ _ hpage)
  refine fun _ => ⟨hplace ▸ hin, ?_⟩
  by_cases hs : Stored ls a
  · exact Or.inr ⟨a, hcover', hs, hplace.symm⟩
  · have hbyte := hbyte hs
    rw [hoff, hplace] at hbyte
    exact Or.inl hbyte

/-- The state while the process exits: pages have gone, files have been closed, and the file
has changed only where it may. -/
structure Exiting (i : Fin maxvma) (ip : Nat) (ls : List Access) (c c' : Ctx) : Prop where
  owned : c'.vm.Owned
  space : ∀ n x, c'.vm.space n = some x → c.vm.space n = some x
  vmas : ∀ k, (c'.proc.vmas k).used = true → c'.proc.vmas k = c.proc.vmas k
  files : ∀ f, (c'.fs.ftable f).ip = (c.fs.ftable f).ip
  link : 0 < (c'.fs.inode ip).nlink
  changes : ChangesOnly (c.proc.vmas i) ip ls c.fs c'.fs

theorem Exiting.released (h : Exiting i ip ls c c') {as : List Nat}
    (hc'' : Released (c.proc.vmas k) c' as c'') (hws : ∀ w, (c.proc.vmas k).writesBack = true →
      (c.proc.vmas k).FromPage c' as w → Allowed (c.proc.vmas i) ip ls c.fs w) :
    Exiting i ip ls c c'' := by
  obtain ⟨ws, hlogs, hfrom⟩ := hc''.logs
  have hvmas : c''.proc.vmas = c'.proc.vmas := by rw [hc''.proc]
  refine ⟨hc''.drops.moves.owned h.owned, fun n x hx => h.space n x (hc''.space hx), ?_, fun f =>
    ?_,
    ?_, h.changes.logs hlogs fun w hw => hws w (hfrom w hw).1 (hfrom w hw).2⟩
  · rw [hvmas]
    exact h.vmas
  · rw [hlogs.ftable]
    exact h.files f
  · rw [hlogs.nlink]
    exact h.link

theorem Exiting.closed (h : Exiting i ip ls c c') (hvm : c''.vm = c'.vm)
    (hvmas : ∀ k, (c''.proc.vmas k).used = true → c''.proc.vmas k = c'.proc.vmas k)
    (hfs : c'.fs.Keeps c''.fs) : Exiting i ip ls c c'' where
  owned := hvm ▸ h.owned
  space n x hx := h.space n x (hvm ▸ hx)
  vmas k hk := by
    have heq := hvmas k hk
    rw [heq] at hk ⊢
    exact h.vmas k hk
  files f := (hfs.ip f).trans (h.files f)
  link := by
    rw [(hfs.file ip h.link).1]
    exact h.link
  changes := h.changes.keeps hfs h.link

theorem releaseVma_keeps (c : Ctx) (k : Fin maxvma) : Ends (releaseVma c k) (fun c' =>
    c.fs.Keeps c'.fs ∧ c'.mem = c.mem ∧ c'.proc = c.proc.release k) fun _ => True := by
  rw [releaseVma]
  exact (c.fs.fileclose_keeps _).bind fun fs hfs => .ok ⟨hfs, rfl, rfl⟩

theorem Exiting.releaseVma (h : Exiting i ip ls c c') (k : Fin maxvma) :
    Ends (releaseVma c' k) (Exiting i ip ls c) fun _ => True := by
  refine (releaseVma_keeps c' k).imp fun c'' hc'' => ?_
  obtain ⟨hfs, hmem, hproc⟩ := hc''
  refine h.closed ?_ (fun l hl => ?_) hfs
  · rw [Ctx.vm, Ctx.vm, hmem, hproc]
    rfl
  · rw [hproc] at hl ⊢
    by_cases hlk : l = k
    · simp [Proc.release, hlk] at hl
    · exact update_of_ne hlk _ _

def OnlyWriter (i : Fin maxvma) (ip : Nat) (c : Ctx) : Prop :=
  ∀ k, k ≠ i → (c.proc.vmas k).writesBack = true →
    (c.fs.ftable (c.proc.vmas k).file).ip ≠ some ip

theorem le_of_mem_pages {va stop a : Nat} (ha : a ∈ pages va stop) : va ≤ a := by
  obtain ⟨n, -, rfl⟩ := List.mem_map.mp ha
  exact Nat.le_add_right _ _

theorem Exiting.exitVma (h : Exiting i ip ls c c') (hclean : Clean i ip ls c)
    (honly : OnlyWriter i ip c) (k : Fin maxvma) :
    Ends (exitVma c' k) (Exiting i ip ls c) fun _ => True := by
  rw [Memory.exitVma]
  split
  · exact .ok h
  · rename_i hused
    have hused : (c'.proc.vmas k).used = true := by simpa using hused
    have hvma := h.vmas k hused
    rw [hvma] at hused ⊢
    refine (releasePages_spec (c.proc.vmas k) _ h.owned).any.bind fun c₁ h₁ => ?_
    refine (h.released h₁ fun w hback hw => ?_).releaseVma k
    by_cases hk : k = i
    · subst hk
      refine hclean.allowed (fun a ha => ⟨pages_aligned hclean.alone.addr a ha, ?_⟩) h.space
        (h.files _) hw
      exact Vma.covers_iff.mpr ⟨hused, le_of_mem_pages ha, mem_pages_lt ha⟩
    · obtain ⟨a, -, d, perm, ip', -, hip', j, rfl⟩ := hw
      rw [h.files] at hip'
      exact fun hinum => absurd (hinum ▸ hip') (honly k hk hback)

theorem Clean.exiting (h : Clean i ip ls c) (hlink : 0 < (c.fs.inode ip).nlink) :
    Exiting i ip ls c c :=
  ⟨h.owned, fun _ _ => id, fun _ _ => rfl, fun _ => rfl, hlink, .refl _ _ _ _⟩

theorem Exiting.kexit (hclean : Clean i ip ls c) (hlink : 0 < (c.fs.inode ip).nlink)
    (honly : OnlyWriter i ip c) : Ends (kexit c) (Exiting i ip ls c) fun _ => True := by
  rw [Memory.kexit]
  refine (Ends.foldlM (Exiting i ip ls c) (hclean.exiting hlink) fun k _ _ h =>
    h.exitVma hclean honly k).bind fun c₁ h₁ => ?_
  refine (Ends.foldlM (Exiting i ip ls c) h₁ fun fd _ c₂ h₂ => ?_).bind fun c₂ h₂ => ?_
  · rw [exitFile]
    split
    · exact .ok h₂
    · exact (c₂.fs.fileclose_keeps _).bind fun fs hfs => .ok (h₂.closed rfl (fun _ _ => rfl) hfs)
  · split
    · exact .ok h₂
    · exact .ok (h₂.closed rfl (fun _ _ => rfl) (c₂.fs.iput_keeps _))

theorem Exiting.munmap (hclean : Clean i ip ls c) (hlink : 0 < (c.fs.inode ip).nlink)
    (hcover : (c.proc.vmas i).covers (c.proc.vmas i).addr = true) :
    Ends (sysMunmap c (c.proc.vmas i).addr (c.proc.vmas i).length)
      (fun r => Exiting i ip ls c r.2) fun _ => True := by
  rw [sysMunmap, (hclean.alone.sole _ hcover).firstIdx]
  refine (releasePages_spec (c.proc.vmas i) _ hclean.owned).any.bind fun c₁ h₁ => ?_
  have hstart := hclean.exiting hlink
  refine ((hstart.released h₁ fun w _ hw => ?_).releaseVma i).bind fun c₂ h₂ => .ok h₂
  refine hclean.allowed (fun a ha => ?_) (fun _ _ => id) rfl hw
  refine ⟨pages_aligned (pgrounddown_mod _) a ha, Vma.covers_iff.mpr
    ⟨(Vma.covers_iff.mp hcover).1, ?_, munmapPages_lt hclean.alone.addr hclean.alone.length ha⟩⟩
  rw [← pgrounddown_of_aligned hclean.alone.addr]
  exact le_of_mem_pages ha

/-- After loads and stores on pages that the file fills, while nobody changes the file under
the resident pages, unmapping the mapping or exiting changes the file only where the process
has stored bytes. -/
theorem writeBack_changes (hclean : Clean i ip [] c)
    (run : Run (guarded (Harmless i ip) (MappedStep namei)) c ls c')
    (hlink : 0 < (c'.fs.inode ip).nlink)
    (hcover : (c'.proc.vmas i).covers (c'.proc.vmas i).addr = true) :
    Ends (sysMunmap c' (c'.proc.vmas i).addr (c'.proc.vmas i).length)
        (fun r => ChangesOnly (c'.proc.vmas i) ip ls c'.fs r.2.fs) (fun _ => True) ∧
      (OnlyWriter i ip c' → Ends (kexit c')
        (fun c'' => ChangesOnly (c'.proc.vmas i) ip ls c'.fs c''.fs) fun _ => True) := by
  have hclean' := hclean.run run
  refine ⟨(Exiting.munmap hclean' hlink hcover).imp fun _ h => h.changes, fun honly => ?_⟩
  exact (Exiting.kexit hclean' hlink honly).imp fun _ h => h.changes

end Changes

theorem sampleRegion_clean : Clean 0 1 [] (sampleRegion 1) where
  owned := sampleCtx_owned
  alone := ⟨by decide, by decide, fun _ ha => ⟨ha, fun _ hk => sampleRegion_vmas
    (Vma.covers_iff.mp hk).1, fun _ => rfl⟩⟩
  file := rfl
  small := by decide
  page a d perm ha hd := by
    have hmissing : vpn 4096 ∉ sampleCtx.proc.pt.leaf := by decide +kernel
    have hpage : vpn a = vpn 4096 := by
      obtain ⟨-, hle, hlt⟩ := Vma.covers_iff.mp ha
      have hle' : 4096 ≤ a := hle
      have hlt' : a < 8192 := hlt
      simp only [vpn, pgsize]
      omega
    have hnone : (sampleRegion 1).vm.space (vpn a) = none := hpage ▸ space_none hmissing
    rw [hnone] at hd
    cases hd

/-- A store to the first page of the file, after the fault that loads it. -/
theorem writeBack_changes_first : ∃ c', Run (guarded (Harmless 0 1) (MappedStep sampleKernel.namei))
      (sampleRegion 1) [.touch (.store 4096 7) none, .touch (.store 4096 7) (some 0)] c' ∧
    Ends (sysMunmap c' (c'.proc.vmas 0).addr (c'.proc.vmas 0).length)
      (fun r => ChangesOnly (c'.proc.vmas 0) 1
        [.touch (.store 4096 7) none, .touch (.store 4096 7) (some 0)] c'.fs r.2.fs)
      fun _ => True := by
  have hrun : ∃ c₁, (sampleRegion 1).run sampleKernel.namei (.store 4096 7) = .ok (none, c₁) ∧
      ∃ c₂, c₁.run sampleKernel.namei (.store 4096 7) = .ok (some 0, c₂) ∧
        4096 ≤ (c₁.fs.inode 1).size ∧ (c₁.proc.vmas 0).fileOff 4096 = 0 ∧
        0 < (c₂.fs.inode 1).nlink ∧ (c₂.proc.vmas 0).covers (c₂.proc.vmas 0).addr = true := by
    decide +kernel
  obtain ⟨c₁, h₁, c₂, h₂, hsize, hoff, hlink, hcover⟩ := hrun
  have hrun : Run (guarded (Harmless 0 1) (MappedStep sampleKernel.namei)) (sampleRegion 1)
      [.touch (.store 4096 7) none, .touch (.store 4096 7) (some 0)] c₂ := by
    refine .cons ⟨fun _ => ?_, .touch h₁⟩ (.cons ⟨fun _ => ?_, .touch h₂⟩ .nil)
    · decide
    · have hoff' : (c₁.proc.vmas 0).fileOff (pgrounddown (Touch.store 4096 7).va) = 0 := hoff
      rw [hoff', Nat.zero_add]
      exact hsize
  exact ⟨c₂, hrun, (writeBack_changes sampleRegion_clean hrun hlink hcover).1⟩

/-- A process that has only read the second page of a file of 5000 bytes makes the file longer
when it unmaps it; one that has read the first page undoes what was written to the file in the
meantime. -/
theorem writeBack_of_read_page :
    (∃ c₁ c₂, (sampleRegion 2).run sampleKernel.namei (.load 8192) = .ok (none, c₁) ∧
      sysMunmap c₁ 4096 8192 = .ok (true, c₂) ∧ (c₁.fs.inode 1).size = 5000 ∧
      (c₂.fs.inode 1).size = 5120) ∧
    ∃ c₁ c₂, (sampleRegion 1).run sampleKernel.namei (.load 4096) = .ok (none, c₁) ∧
      sysMunmap { c₁ with fs := c₁.fs.writei 1 0 1 [7] } 4096 4096 = .ok (true, c₂) ∧
      ((c₁.fs.writei 1 0 1 [7]).inode 1).data 0 = 7 ∧ (c₂.fs.inode 1).data 0 = 0 := by
  simp only [exists_and_left]
  decide +kernel

end EafitOs.Memory
