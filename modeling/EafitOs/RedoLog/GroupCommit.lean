import EafitOs.RedoLog.Control

/-!
# The header and the cache between steps

Outside a commit the header lists exactly the blocks logged since the last header write, and the
cache holds their last contents.
-/

namespace EafitOs.RedoLog

open Foundation Disk Machine Function List Option

variable {P : Type} [DecidableEq P]

def lastData (us : List Update) (b : Nat) : Option Block :=
  ((us.filter fun u => u.block = b).getLast?).map Update.data

theorem lastData_concat (us : List Update) (u : Update) (b : Nat) :
    lastData (us ++ [u]) b = if u.block = b then some u.data else lastData us b := by
  by_cases h : u.block = b
  · simp [lastData, filter_append, h]
  · simp [lastData, filter_append, h]

/-- The header lists exactly the blocks of the pending updates, and the cache
holds the last data logged for each block that nobody is changing. -/
structure Logged (s : Sys P) : Prop where
  blocks : ∀ b, b ∈ s.log.lh.block ↔ ∃ u ∈ s.pending, u.block = b
  data : ∀ b ∈ s.log.lh.block, s.holder b = none →
    lastData s.pending b = some (s.mach.view b)
  pinned : ∀ b ∈ s.log.lh.block, 1 ≤ s.mach.refcnt b ∧
    (s.holder b ≠ none → 2 ≤ s.mach.refcnt b)

def AtPlace (s : Sys P) : Pc → Prop
  | .writeLog tail =>
    Logged s ∧ headN (s.mach.disk s.log.start) = 0 ∧
      ∀ i, i < tail → i < s.log.lh.n →
        s.mach.disk (s.log.start + i + 1) = s.mach.view (home s.log i) ∧
        s.mach.view (s.log.start + i + 1) = s.mach.view (home s.log i)
  | .install _ =>
    s.pending = [] ∧ ∀ i, i < s.log.lh.n →
      s.mach.view (s.log.start + i + 1) = s.mach.view (home s.log i)
  | .erase => s.pending = [] ∧ s.log.lh.block = []
  | .release =>
    s.pending = [] ∧ s.log.lh.block = [] ∧ headN (s.mach.disk s.log.start) = 0
  | _ => True

structure DataInv (s : Sys P) : Prop where
  coherent : s.mach.Coherent
  nodup : s.log.lh.block.Nodup
  homes : HomesOutside s.log
  free : s.log.committing = false →
    Logged s ∧ headN (s.mach.disk s.log.start) = 0 ∧
      (s.log.outstanding = 0 → s.log.lh.block = [])
  places : ∀ p, AtPlace s (s.pc p)
  locks : ∀ b p, s.holder b = some p → ∃ op u, u.toNat = b ∧ s.pc p = .modified op u
  held : ∀ p op b, s.pc p = .modified op b →
    s.holder b.toNat = some p ∧ 1 ≤ s.mach.refcnt b.toNat ∧ ¬inLog s.log.start b.toNat

omit [DecidableEq P] in
theorem atPlace_of_not_commits (s : Sys P) {x : Pc} (hx : x.commits = false) : AtPlace s x := by
  cases x <;> simp_all [Pc.commits, AtPlace]

omit [DecidableEq P] in
theorem Logged.pending_eq_nil {s : Sys P} (h : Logged s) (hb : s.log.lh.block = []) :
    s.pending = [] := by
  apply eq_nil_iff_forall_not_mem.mpr
  intro u hu
  have hmem := (h.blocks u.block).mpr ⟨u, hu, rfl⟩
  simp [hb] at hmem

omit [DecidableEq P] in
theorem Logged.of_empty {s : Sys P} (hb : s.log.lh.block = []) (hp : s.pending = []) :
    Logged s := by
  constructor <;> simp [hb, hp]

omit [DecidableEq P] in
theorem Logged.of_view {s s' : Sys P} (h : Logged s) (ho : HomesOutside s.log)
    (hlh : s'.log.lh = s.log.lh) (hpend : s'.pending = s.pending) (hholder : s'.holder = s.holder)
    (hview : ∀ b, ¬inLog s.log.start b → s'.mach.view b = s.mach.view b)
    (hcnt : s'.mach.refcnt = s.mach.refcnt) : Logged s' := by
  constructor
  · rw [hlh, hpend]
    exact h.blocks
  · intro b hb hnone
    rw [hlh] at hb
    rw [hholder] at hnone
    rw [hpend, hview b (ho b hb)]
    exact h.data b hb hnone
  · rw [hlh, hholder, hcnt]
    exact h.pinned

namespace DataInv

variable {s : Sys P}

theorem beginOp (h : DataInv s) (hc : Control s) {p : P} (hp : s.pc p = .idle) :
    DataInv (RedoLog.beginOp s p) := by
  simp only [RedoLog.beginOp]
  split
  · exact h
  · split
    · exact h
    · rename_i hcom _
      have hcom' : s.log.committing = false := by simpa using hcom
      obtain ⟨hlog, hhead, _⟩ := h.free hcom'
      obtain ⟨l, _, _, hlen⟩ := hc.ops
      refine ⟨h.coherent, h.nodup, h.homes, fun _ => ⟨⟨hlog.blocks, hlog.data, hlog.pinned⟩,
        hhead, ?_⟩, ?_, ?_, ?_⟩
      · intro h0
        have : (s.log.outstanding + 1 : Int) = 0 := h0
        omega
      · intro q
        apply atPlace_of_not_commits
        by_cases hq : q = p
        · subst hq
          simp [Pc.commits]
        · simpa [hq] using hc.idle hcom' q
      · intro b q hb
        obtain ⟨op, u, hu, hpc⟩ := h.locks b q hb
        have hq : q ≠ p := by
          intro heq
          rw [heq, hp] at hpc
          cases hpc
        exact ⟨op, u, hu, by simp [hq, hpc]⟩
      · intro q op b hq
        have hqp : q ≠ p := by
          intro heq
          simp [heq] at hq
        exact h.held q op b (by simpa [hqp] using hq)

theorem modify (h : DataInv s) (hc : Control s) {p : P} {op : Nat} (hp : s.pc p = .inOp op)
    {b : UInt32} (hfree : s.holder b.toNat = none) (hout : ¬inLog s.log.start b.toNat)
    (data : Block) : DataInv (RedoLog.modify s p op b data) := by
  have hop : (s.pc p).op = some op := by simp [hp, Pc.op]
  have hcom := hc.not_committing hop
  obtain ⟨hlog, hhead, hzero⟩ := h.free hcom
  have hold := (Holding.refl s.mach).bread h.coherent b.toNat
  have hview : (RedoLog.modify s p op b data).mach.view =
      update s.mach.view b.toNat data := by
    simp [RedoLog.modify, hold.view]
  have hcnt : ∀ x, (RedoLog.modify s p op b data).mach.refcnt x =
      s.mach.refcnt x + [b.toNat].count x := hold.refcnt
  have hdisk : (RedoLog.modify s p op b data).mach.disk = s.mach.disk := hold.disk
  have hself : [b.toNat].count b.toNat = 1 := by simp
  have hnotp : ∀ q, q ≠ p → (RedoLog.modify s p op b data).pc q = s.pc q := by
    intro q hq
    simp [RedoLog.modify, hq]
  refine ⟨?_, h.nodup, h.homes, fun _ => ⟨⟨hlog.blocks, ?_, ?_⟩, ?_, hzero⟩, ?_, ?_, ?_⟩
  · intro x hx
    have hx' := hcnt x
    have hxb : x ≠ b.toNat := by
      intro heq
      rw [heq, hself] at hx'
      rw [heq] at hx
      omega
    rw [hview, hdisk, update_of_ne hxb]
    exact h.coherent x (by omega)
  · intro x hx hnone
    have hxb : x ≠ b.toNat := by
      intro heq
      simp [RedoLog.modify, heq] at hnone
    rw [hview, update_of_ne hxb]
    exact hlog.data x hx (by simpa [RedoLog.modify, hxb] using hnone)
  · intro x hx
    have hpin := hlog.pinned x hx
    rw [hcnt x]
    by_cases hxb : x = b.toNat
    · subst hxb
      rw [hself]
      omega
    · refine ⟨by omega, fun hne => ?_⟩
      have := hpin.2 (by simpa [RedoLog.modify, hxb] using hne)
      omega
  · rw [hdisk]
    exact hhead
  · intro q
    apply atPlace_of_not_commits
    by_cases hq : q = p
    · subst hq
      simp [RedoLog.modify, Pc.commits]
    · rw [hnotp q hq]
      exact hc.idle hcom q
  · intro x q hx
    by_cases hxb : x = b.toNat
    · subst hxb
      have hqp : p = q := by simpa [RedoLog.modify] using hx
      subst hqp
      exact ⟨op, b, rfl, by simp [RedoLog.modify]⟩
    · obtain ⟨op', u, hu, hpc⟩ := h.locks x q (by simpa [RedoLog.modify, hxb] using hx)
      have hq : q ≠ p := by
        intro heq
        rw [heq, hp] at hpc
        cases hpc
      exact ⟨op', u, hu, by rw [hnotp q hq, hpc]⟩
  · intro q op' c hq
    by_cases hqp : q = p
    · subst hqp
      have heq : op = op' ∧ b = c := by simpa [RedoLog.modify] using hq
      obtain ⟨rfl, rfl⟩ := heq
      refine ⟨by simp [RedoLog.modify], ?_, hout⟩
      rw [hcnt, hself]
      omega
    · rw [hnotp q hqp] at hq
      obtain ⟨hq1, hq2, hq3⟩ := h.held q op' c hq
      have hcb : c.toNat ≠ b.toNat := by
        intro heq
        rw [heq, hfree] at hq1
        cases hq1
      refine ⟨by simpa [RedoLog.modify, hcb] using hq1, ?_, hq3⟩
      rw [hcnt]
      omega

theorem mem_addBlock (lh : LogHeader) (b : UInt32) (hn : lh.n < logBlocks) (x : Nat) :
    x ∈ (addBlock lh b hn).block ↔ x ∈ lh.block ∨ x = b.toNat := by
  by_cases hb : b.toNat ∈ lh.block
  · simp only [addBlock, if_pos hb]
    constructor
    · exact Or.inl
    · rintro (hx | rfl)
      · exact hx
      · exact hb
  · simp [addBlock, hb]

theorem addBlock_nodup {lh : LogHeader} (h : lh.block.Nodup) (b : UInt32)
    (hn : lh.n < logBlocks) : (addBlock lh b hn).block.Nodup := by
  by_cases hb : b.toNat ∈ lh.block
  · simpa [addBlock, hb] using h
  · simp only [addBlock, if_neg hb]
    refine nodup_append.mpr ⟨h, by simp, ?_⟩
    intro x hx y hy heq
    rw [mem_singleton.mp hy] at heq
    exact hb (heq ▸ hx)

theorem pinNew_brelse_view (lh : LogHeader) (m : Machine) (b : Nat) :
    ((pinNew lh m b).brelse b).view = m.view := by
  by_cases hb : b ∈ lh.block <;> simp only [pinNew, hb, if_true, if_false] <;> rfl

theorem pinNew_brelse_disk (lh : LogHeader) (m : Machine) (b : Nat) :
    ((pinNew lh m b).brelse b).disk = m.disk := by
  by_cases hb : b ∈ lh.block <;> simp only [pinNew, hb, if_true, if_false] <;> rfl

theorem pinNew_brelse_refcnt_of_ne (lh : LogHeader) (m : Machine) {b x : Nat} (hx : x ≠ b) :
    ((pinNew lh m b).brelse b).refcnt x = m.refcnt x := by
  by_cases hb : b ∈ lh.block <;> simp [pinNew, hb, brelse, bpin, hx]

theorem pinNew_brelse_refcnt_self (lh : LogHeader) (m : Machine) (b : Nat) :
    ((pinNew lh m b).brelse b).refcnt b =
      if b ∈ lh.block then m.refcnt b - 1 else m.refcnt b := by
  by_cases hb : b ∈ lh.block <;> simp [pinNew, hb, brelse, bpin]

theorem logWrite (h : DataInv s) (hc : Control s) {p : P} {op : Nat} {b : UInt32}
    (hp : s.pc p = .modified op b) : DataInv (RedoLog.logWrite s p op b) := by
  have hop : (s.pc p).op = some op := by simp [hp, Pc.op]
  have hcom := hc.not_committing hop
  have hpos := hc.outstanding_pos hop
  obtain ⟨hlog, hhead, hzero⟩ := h.free hcom
  obtain ⟨hhold, hcntb, hout⟩ := h.held p op b hp
  simp only [RedoLog.logWrite]
  split
  · rename_i hn
    rw [if_neg (by omega)]
    have hview := pinNew_brelse_view s.log.lh s.mach b.toNat
    have hdisk := pinNew_brelse_disk s.log.lh s.mach b.toNat
    have hother := fun x hx => pinNew_brelse_refcnt_of_ne s.log.lh s.mach (b := b.toNat) (x := x) hx
    have hself : 1 ≤ ((pinNew s.log.lh s.mach b.toNat).brelse b.toNat).refcnt b.toNat := by
      rw [pinNew_brelse_refcnt_self]
      split
      · rename_i hb
        have := (hlog.pinned _ hb).2 (by simp [hhold])
        omega
      · exact hcntb
    refine ⟨?_, addBlock_nodup h.nodup b hn, ?_, fun _ => ⟨⟨?_, ?_, ?_⟩, ?_, ?_⟩, ?_, ?_, ?_⟩
    · intro x hx
      have hxb : x ≠ b.toNat := by
        intro heq
        rw [heq] at hx
        exact absurd hx (by simp only; omega)
      rw [hview, hdisk]
      exact h.coherent x (by rw [← hother x hxb]; exact hx)
    · intro x hx
      rcases (mem_addBlock _ _ hn x).mp hx with hx | rfl
      · exact h.homes x hx
      · exact hout
    · intro x
      rw [mem_addBlock, hlog.blocks x]
      constructor
      · rintro (⟨u, hu, rfl⟩ | rfl)
        · exact ⟨u, by simp [hu], rfl⟩
        · exact ⟨⟨op, b.toNat, s.mach.view b.toNat⟩, by simp, rfl⟩
      · rintro ⟨u, hu, rfl⟩
        rcases mem_append.mp hu with hu | hu
        · exact Or.inl ⟨u, hu, rfl⟩
        · rw [mem_singleton.mp hu]
          exact Or.inr rfl
    · intro x hx hnone
      rw [hview, lastData_concat]
      by_cases hxb : x = b.toNat
      · subst hxb
        simp
      · rw [if_neg (Ne.symm hxb)]
        rcases (mem_addBlock _ _ hn x).mp hx with hx | hx
        · exact hlog.data x hx (by simpa [hxb] using hnone)
        · exact absurd hx hxb
    · intro x hx
      by_cases hxb : x = b.toNat
      · subst hxb
        exact ⟨hself, by simp⟩
      · rcases (mem_addBlock _ _ hn x).mp hx with hx | hx
        · have hpin := hlog.pinned x hx
          simp only [hother x hxb]
          exact ⟨hpin.1, fun hne => hpin.2 (by simpa [hxb] using hne)⟩
        · exact absurd hx hxb
    · simp only [hdisk]
      exact hhead
    · intro h0
      simp only at h0
      omega
    · intro q
      apply atPlace_of_not_commits
      by_cases hq : q = p
      · subst hq
        simp [Pc.commits]
      · simpa [hq] using hc.idle hcom q
    · intro x q hx
      have hxb : x ≠ b.toNat := by
        intro heq
        simp [heq] at hx
      obtain ⟨op', u, hu, hpc⟩ := h.locks x q (by simpa [hxb] using hx)
      have hq : q ≠ p := by
        intro heq
        rw [heq, hp] at hpc
        obtain ⟨_, rfl⟩ := Pc.modified.inj hpc
        exact hxb hu.symm
      exact ⟨op', u, hu, by simp [hq, hpc]⟩
    · intro q op' c hq
      have hqp : q ≠ p := by
        intro heq
        simp [heq] at hq
      obtain ⟨hq1, hq2, hq3⟩ := h.held q op' c (by simpa [hqp] using hq)
      have hcb : c.toNat ≠ b.toNat := by
        intro heq
        rw [heq, hhold] at hq1
        exact hqp (some.inj hq1).symm
      refine ⟨by simpa [hcb] using hq1, ?_, hq3⟩
      simp only [hother _ hcb]
      exact hq2
  · refine ⟨h.coherent, h.nodup, h.homes, fun _ => ⟨⟨hlog.blocks, hlog.data, hlog.pinned⟩,
      hhead, hzero⟩, ?_, h.locks, h.held⟩
    intro q
    exact atPlace_of_not_commits _ (hc.idle hcom q)

theorem endOp (h : DataInv s) (hc : Control s) {p : P} {op : Nat} (hp : s.pc p = .inOp op) :
    DataInv (RedoLog.endOp s p op) := by
  have hop : (s.pc p).op = some op := by simp [hp, Pc.op]
  have hcom := hc.not_committing hop
  obtain ⟨hlog, hhead, _⟩ := h.free hcom
  have hlocks : ∀ x : Pc, ∀ b q, s.holder b = some q →
      ∃ op u, u.toNat = b ∧ update s.pc p x q = .modified op u := by
    intro x b q hb
    obtain ⟨op', u, hu, hpc⟩ := h.locks b q hb
    have hq : q ≠ p := by
      intro heq
      rw [heq, hp] at hpc
      cases hpc
    exact ⟨op', u, hu, by simp [hq, hpc]⟩
  have hheld : ∀ x : Pc, (∀ op' b, x ≠ .modified op' b) → ∀ q op' b,
      update s.pc p x q = .modified op' b → s.pc q = .modified op' b := by
    intro x hx q op' b hq
    by_cases hqp : q = p
    · subst hqp
      exact absurd (by simpa using hq) (hx op' b)
    · simpa [hqp] using hq
  simp only [RedoLog.endOp, hcom, Bool.false_eq_true, if_false]
  split
  · refine ⟨h.coherent, h.nodup, h.homes, fun hf => by simp at hf, ?_, ?_, ?_⟩
    · intro q
      by_cases hq : q = p
      · subst hq
        by_cases hn : s.log.lh.n > 0
        · simp only [if_pos hn, update_self]
          exact ⟨⟨hlog.blocks, hlog.data, hlog.pinned⟩, hhead, fun i hi => absurd hi (by omega)⟩
        · have hnil : s.log.lh.block = [] :=
            length_eq_zero_iff.mp (by simpa [LogHeader.n] using hn)
          simp only [if_neg hn, update_self]
          exact ⟨hlog.pending_eq_nil hnil, hnil, hhead⟩
      · apply atPlace_of_not_commits
        simpa [hq] using hc.idle hcom q
    · intro b q hb
      exact hlocks _ b q hb
    · intro q op' b hq
      refine h.held q op' b (hheld _ ?_ q op' b hq)
      intro op'' b'
      split <;> simp
  · rename_i hne
    refine ⟨h.coherent, h.nodup, h.homes, fun _ => ⟨⟨hlog.blocks, hlog.data, hlog.pinned⟩,
      hhead, fun h0 => absurd h0 hne⟩, ?_, ?_, ?_⟩
    · intro q
      apply atPlace_of_not_commits
      by_cases hq : q = p
      · subst hq
        simp [Pc.commits]
      · simpa [hq] using hc.idle hcom q
    · intro b q hb
      exact hlocks _ b q hb
    · intro q op' b hq
      exact h.held q op' b (hheld _ (by simp) q op' b hq)

omit [DecidableEq P] in
theorem holder_eq_none (h : DataInv s) (hc : Control s) (hcom : s.log.committing = true)
    (b : Nat) : s.holder b = none := by
  cases hb : s.holder b with
  | none => rfl
  | some p =>
    obtain ⟨op, u, _, hpc⟩ := h.locks b p hb
    have := hc.op_eq_none hcom p
    simp [hpc, Pc.op] at this

theorem of_commit {s' : Sys P} (h : DataInv s) (hc : Control s) (hc' : Control s')
    (hcom : s.log.committing = true) (hcom' : s'.log.committing = true) {p : P} {x : Pc}
    (hp : (s.pc p).commits) (hpc : s'.pc = update s.pc p x)
    (hholder : s'.holder = s.holder) (hcoh : s'.mach.Coherent) (hnd : s'.log.lh.block.Nodup)
    (hho : HomesOutside s'.log) (hat : AtPlace s' x) : DataInv s' := by
  have hnone : ∀ b, s'.holder b = none := by
    intro b
    rw [hholder]
    exact h.holder_eq_none hc hcom b
  refine ⟨hcoh, hnd, hho, fun hf => by simp [hcom'] at hf, ?_, ?_, ?_⟩
  · intro q
    rw [hpc]
    by_cases hq : q = p
    · subst hq
      simpa using hat
    · apply atPlace_of_not_commits
      have hne : ¬(s.pc q).commits := fun hcq => hq (hc.one q p hcq hp)
      simpa [hq] using hne
  · intro b q hb
    simp [hnone b] at hb
  · intro q op b hq
    have := hc'.op_eq_none hcom' q
    simp [hq, Pc.op] at this

omit [DecidableEq P] in
theorem at_commit (h : DataInv s) (hc : Control s) {p : P} {x : Pc} (hp : s.pc p = x)
    (hx : x.commits) : (s.pc p).commits ∧ s.log.committing = true ∧ AtPlace s x := by
  subst hp
  exact ⟨hx, hc.committing_of_commits hx, h.places p⟩

theorem slot_ne_home {lg : Log} (ho : HomesOutside lg) {i j : Nat} (hi : i < lg.lh.n)
    (hj : j < lg.lh.n) : home lg j ≠ lg.start + i + 1 := by
  intro heq
  exact ho _ (home_mem hj) (heq ▸ inLog_slot hi)

theorem start_ne_home {lg : Log} (ho : HomesOutside lg) {j : Nat} (hj : j < lg.lh.n) :
    home lg j ≠ lg.start := by
  intro heq
  exact ho _ (home_mem hj) (heq ▸ inLog_start lg)

theorem writeLogStep (h : DataInv s) (hc : Control s) {p : P} {tail : Nat}
    (hp : s.pc p = .writeLog tail) : DataInv (RedoLog.writeLogStep s p tail) := by
  obtain ⟨hpc, hcom, hlog, hhead, hslots⟩ := h.at_commit hc hp rfl
  have hcs : Control (RedoLog.writeLogStep s p tail) := hc.commitStep (p := p) (by
    simp [RedoLog.commitStep, hp])
  simp only [RedoLog.writeLogStep] at hcs ⊢
  split
  · rename_i htail
    rw [if_pos htail] at hcs
    have hw := writeLogAt_wroteThrough s.log h.coherent tail
    have hcnt : (writeLogAt s.log s.mach tail).refcnt = s.mach.refcnt := by
      funext x
      simpa using hw.refcnt x
    have hview : ∀ b, b ≠ s.log.start + tail + 1 →
        (writeLogAt s.log s.mach tail).view b = s.mach.view b := by
      intro b hb
      rw [hw.view]
      simp [hb]
    have hdisk : ∀ b, b ≠ s.log.start + tail + 1 →
        (writeLogAt s.log s.mach tail).disk b = s.mach.disk b := by
      intro b hb
      rw [hw.disk]
      simp [hb]
    refine h.of_commit hc hcs hcom hcom hpc (x := .writeLog (tail + 1)) rfl rfl hw.coherent
      h.nodup h.homes ⟨?_, ?_, ?_⟩
    · refine hlog.of_view h.homes rfl rfl rfl (fun b hb => hview b ?_) hcnt
      exact fun heq => hb (heq ▸ inLog_slot htail)
    · show headN ((writeLogAt s.log s.mach tail).disk s.log.start) = 0
      rw [hdisk _ (by omega)]
      exact hhead
    · intro i hi hin
      show (writeLogAt s.log s.mach tail).disk (s.log.start + i + 1) =
          (writeLogAt s.log s.mach tail).view (home s.log i) ∧
        (writeLogAt s.log s.mach tail).view (s.log.start + i + 1) =
          (writeLogAt s.log s.mach tail).view (home s.log i)
      rw [hview (home s.log i) (slot_ne_home h.homes htail hin)]
      by_cases hit : i = tail
      · subst hit
        rw [hw.disk, hw.view]
        simp
      · rw [hdisk _ (by omega), hview _ (by omega)]
        exact hslots i (by omega) hin
  · rename_i htail
    rw [if_neg htail] at hcs
    have hw := writeHead_wroteThrough s.log h.coherent
    have hview : ∀ b, b ≠ s.log.start → (writeHead s.log s.mach).view b = s.mach.view b := by
      intro b hb
      rw [hw.view]
      simp [hb]
    refine h.of_commit hc hcs hcom hcom hpc (x := .install 0) rfl rfl hw.coherent h.nodup
      h.homes ⟨rfl, ?_⟩
    intro i hin
    show (writeHead s.log s.mach).view (s.log.start + i + 1) =
      (writeHead s.log s.mach).view (home s.log i)
    have hi : i < s.log.lh.n := hin
    rw [hview _ (by omega), hview _ (start_ne_home h.homes hi)]
    exact (hslots i (by omega) hi).2

omit [DecidableEq P] in
theorem installTransAt_view (h : DataInv s) {tail : Nat}
    (hslots : ∀ i, i < s.log.lh.n →
      s.mach.view (s.log.start + i + 1) = s.mach.view (home s.log i))
    (htail : tail < s.log.lh.n) :
    (installTransAt s.log false s.mach tail).view = s.mach.view := by
  rw [(installTransAt_wroteThrough s.log false h.coherent tail).view, applyWrites_cons,
    applyWrites_nil, hslots tail htail, update_eq_self]

theorem installStep (h : DataInv s) (hc : Control s) {p : P} {tail : Nat}
    (hp : s.pc p = .install tail) : DataInv (RedoLog.installStep s p tail) := by
  obtain ⟨hpc, hcom, hpend, hslots⟩ := h.at_commit hc hp rfl
  have hcs : Control (RedoLog.installStep s p tail) := hc.commitStep (p := p) (by
    simp [RedoLog.commitStep, hp])
  simp only [RedoLog.installStep] at hcs ⊢
  split
  · rename_i htail
    rw [if_pos htail] at hcs
    have hw := installTransAt_wroteThrough s.log false h.coherent tail
    refine h.of_commit hc hcs hcom hcom hpc (x := .install (tail + 1)) rfl rfl hw.coherent
      h.nodup h.homes ⟨hpend, ?_⟩
    intro i hin
    show (installTransAt s.log false s.mach tail).view (s.log.start + i + 1) =
      (installTransAt s.log false s.mach tail).view (home s.log i)
    rw [h.installTransAt_view hslots htail]
    exact hslots i hin
  · rename_i htail
    rw [if_neg htail] at hcs
    exact h.of_commit hc hcs hcom hcom hpc (x := .erase) rfl rfl h.coherent
      (by simp [LogHeader.empty]) (by intro b hb; simp [LogHeader.empty] at hb) ⟨hpend, rfl⟩

theorem eraseStep (h : DataInv s) (hc : Control s) {p : P} (hp : s.pc p = .erase) :
    DataInv { s with
      mach := writeHead s.log s.mach
      pc := update s.pc p .release } := by
  obtain ⟨hpc, hcom, hpend, hnil⟩ := h.at_commit hc hp rfl
  have hcs : Control { s with
      mach := writeHead s.log s.mach
      pc := update s.pc p .release } :=
    hc.commitStep (p := p) (by simp [RedoLog.commitStep, hp])
  have hw := writeHead_wroteThrough s.log h.coherent
  refine h.of_commit hc hcs hcom hcom hpc (x := .release) rfl rfl hw.coherent h.nodup h.homes
    ⟨hpend, hnil, ?_⟩
  show headN ((writeHead s.log s.mach).disk s.log.start) = 0
  rw [hw.disk, applyWrites_cons, applyWrites_nil, update_self, headN_encodeHead]
  simp [LogHeader.n, hnil]

theorem releaseStep (h : DataInv s) (hc : Control s) {p : P} (hp : s.pc p = .release) :
    DataInv { s with
      log := { s.log with committing := false }
      pc := update s.pc p .idle } := by
  obtain ⟨hpc, hcom, hpend, hnil, hhead⟩ := h.at_commit hc hp rfl
  refine ⟨h.coherent, h.nodup, h.homes, fun _ => ⟨Logged.of_empty hnil hpend, hhead,
    fun _ => hnil⟩, ?_, ?_, ?_⟩
  · intro q
    apply atPlace_of_not_commits
    by_cases hq : q = p
    · subst hq
      simp [Pc.commits]
    · have hne : ¬(s.pc q).commits := fun hcq => hq (hc.one q p hcq hpc)
      simpa [hq] using hne
  · intro b q hb
    rw [h.holder_eq_none hc hcom b] at hb
    cases hb
  · intro q op b hq
    have hqp : q ≠ p := by
      intro heq
      simp [heq] at hq
    have hnone := hc.op_eq_none hcom q
    have hmod : s.pc q = .modified op b := by simpa [hqp] using hq
    simp [hmod, Pc.op] at hnone

theorem commitStep (h : DataInv s) (hc : Control s) {s' : Sys P} {p : P}
    (hs : RedoLog.commitStep s p = some s') : DataInv s' := by
  simp only [RedoLog.commitStep] at hs
  split at hs
  · rename_i tail hp
    exact some.inj hs ▸ h.writeLogStep hc hp
  · rename_i tail hp
    exact some.inj hs ▸ h.installStep hc hp
  · rename_i hp
    exact some.inj hs ▸ h.eraseStep hc hp
  · rename_i hp
    exact some.inj hs ▸ h.releaseStep hc hp
  · cases hs

theorem step (h : DataInv s) (hc : Control s) {a : Act P} {s' : Sys P} (hs : Step s a s') :
    DataInv s' := by
  obtain ⟨_, ⟨p, _, hp, rfl⟩ | ⟨p, b, data, op, _, hp, hfree, hout, rfl⟩ | ⟨p, op, b, _, hp, rfl⟩ |
    ⟨p, op, _, hp, rfl⟩ | ⟨p, _, hcs⟩⟩ := step_cases hs
  · exact h.beginOp hc hp
  · exact h.modify hc hp hfree hout data
  · exact h.logWrite hc hp
  · exact h.endOp hc hp
  · exact h.commitStep hc hcs

end DataInv

end EafitOs.RedoLog
