import EafitOs.RedoLog.Concurrent

/-!
# Who is in the log

`outstanding` and `committing` as functions of the places of the processes: the
first counts the processes inside an operation, the second is set exactly while
one process commits.
-/

namespace EafitOs.RedoLog

open Foundation Disk Machine Function Option

variable {P : Type} [DecidableEq P]

structure Control (s : Sys P) : Prop where
  ops : ∃ l : List P, l.Nodup ∧ (∀ p, p ∈ l ↔ (s.pc p).op.isSome) ∧ s.log.outstanding = l.length
  one : ∀ p q, (s.pc p).commits → (s.pc q).commits → p = q
  idle : s.log.committing = false → ∀ p, (s.pc p).commits = false
  quiet : s.log.committing = true → s.log.outstanding = 0 ∧ ∃ p, (s.pc p).commits
  panic : s.panic = none ∨ s.panic = some "too big a transaction"

namespace Control

variable {s : Sys P}

omit [DecidableEq P] in
theorem committing_of_commits (h : Control s) {p : P} (hp : (s.pc p).commits) :
    s.log.committing = true := by
  by_contra hc
  have hf := h.idle (Bool.eq_false_iff.mpr hc) p
  simp [hp] at hf

omit [DecidableEq P] in
theorem outstanding_pos (h : Control s) {p : P} {op : Nat} (hp : (s.pc p).op = some op) :
    1 ≤ s.log.outstanding := by
  obtain ⟨l, _, hmem, hlen⟩ := h.ops
  have hpl : p ∈ l := (hmem p).mpr (by simp [hp])
  have := List.length_pos_of_mem hpl
  omega

omit [DecidableEq P] in
theorem op_eq_none (h : Control s) (hc : s.log.committing = true) (p : P) :
    (s.pc p).op = none := by
  cases hop : (s.pc p).op with
  | none => rfl
  | some op =>
    have h1 := h.outstanding_pos hop
    have h0 := (h.quiet hc).1
    omega

omit [DecidableEq P] in
theorem not_committing (h : Control s) {p : P} {op : Nat} (hp : (s.pc p).op = some op) :
    s.log.committing = false := by
  by_contra hc
  have := h.op_eq_none (by simpa using hc) p
  simp [hp] at this

theorem ops_update {s' : Sys P} (h : Control s) {p : P} {x : Pc}
    (hpc : s'.pc = update s.pc p x) (hop : x.op.isSome = (s.pc p).op.isSome)
    (hout : s'.log.outstanding = s.log.outstanding) :
    ∃ l : List P, l.Nodup ∧ (∀ q, q ∈ l ↔ (s'.pc q).op.isSome) ∧
      s'.log.outstanding = l.length := by
  obtain ⟨l, hnd, hmem, hlen⟩ := h.ops
  refine ⟨l, hnd, ?_, hout.trans hlen⟩
  intro q
  rw [hmem q, hpc]
  by_cases hq : q = p
  · subst hq
    simp [hop]
  · simp [hq]

theorem not_commits (h : Control s) (hcom : s.log.committing = false) {p : P} {x : Pc}
    (hx : x.commits = false) (q : P) : (update s.pc p x q).commits = false := by
  by_cases hq : q = p
  · subst hq
    simpa using hx
  · simpa [hq] using h.idle hcom q

omit [DecidableEq P] in
theorem of_idle (hops : ∃ l : List P, l.Nodup ∧ (∀ p, p ∈ l ↔ (s.pc p).op.isSome) ∧
      s.log.outstanding = l.length) (hnone : ∀ q, (s.pc q).commits = false)
    (hcom : s.log.committing = false)
    (hpanic : s.panic = none ∨ s.panic = some "too big a transaction") : Control s where
  ops := hops
  one q r hq := by simp [hnone q] at hq
  idle _ := hnone
  quiet hc := by simp [hcom] at hc
  panic := hpanic

theorem beginOp (h : Control s) {p : P} (hp : s.pc p = .idle) :
    Control (RedoLog.beginOp s p) := by
  simp only [RedoLog.beginOp]
  split
  · exact h
  · split
    · exact h
    · rename_i hc _
      have hcom : s.log.committing = false := by simpa using hc
      obtain ⟨l, hnd, hmem, hlen⟩ := h.ops
      have hpl : p ∉ l := by
        rw [hmem p, hp]
        simp [Pc.op]
      refine of_idle ⟨p :: l, List.nodup_cons.mpr ⟨hpl, hnd⟩, fun q => ?_, by simp [hlen]⟩
        (h.not_commits hcom rfl) hcom h.panic
      by_cases hq : q = p
      · subst hq
        simp [Pc.op]
      · simp [hq, hmem q]

theorem modify (h : Control s) {p : P} {op : Nat} (hp : s.pc p = .inOp op) (b : UInt32)
    (data : Block) : Control (RedoLog.modify s p op b data) := by
  have hop : (s.pc p).op = some op := by simp [hp, Pc.op]
  have hcom := h.not_committing hop
  exact of_idle (h.ops_update rfl (by simp [hp, Pc.op]) rfl) (h.not_commits hcom rfl) hcom h.panic

theorem logWrite (h : Control s) {p : P} {op : Nat} {b : UInt32} (hp : s.pc p = .modified op b) :
    Control (RedoLog.logWrite s p op b) := by
  have hop : (s.pc p).op = some op := by simp [hp, Pc.op]
  have hcom := h.not_committing hop
  have hout := h.outstanding_pos hop
  simp only [RedoLog.logWrite]
  split
  · rw [if_neg (by omega)]
    exact of_idle (h.ops_update rfl (by simp [hp, Pc.op]) rfl) (h.not_commits hcom rfl) hcom h.panic
  · exact ⟨h.ops, h.one, h.idle, h.quiet, Or.inr rfl⟩

theorem endOp (h : Control s) {p : P} {op : Nat} (hp : s.pc p = .inOp op) :
    Control (RedoLog.endOp s p op) := by
  have hop : (s.pc p).op = some op := by simp [hp, Pc.op]
  have hcom := h.not_committing hop
  obtain ⟨l, hnd, hmem, hlen⟩ := h.ops
  have hpl : p ∈ l := (hmem p).mpr (by simp [hop])
  have hpos := List.length_pos_of_mem hpl
  have hlen' : s.log.outstanding - 1 = ((l.erase p).length : Int) := by
    rw [List.length_erase_of_mem hpl]
    omega
  -- Whatever place `p` moves to, the others in an operation are `l.erase p`.
  have hops : ∀ x : Pc, x.op = none → ∀ q, q ∈ l.erase p ↔
      (update s.pc p x q).op.isSome := by
    intro x hx q
    rw [hnd.mem_erase_iff, hmem q]
    by_cases hq : q = p
    · subst hq
      simp [hx]
    · simp [hq]
  simp only [RedoLog.endOp, hcom, Bool.false_eq_true, if_false]
  split
  · rename_i hzero
    have hx : (if s.log.lh.n > 0 then Pc.writeLog 0 else Pc.release).op = none ∧
        (if s.log.lh.n > 0 then Pc.writeLog 0 else Pc.release).commits = true := by
      split <;> exact ⟨rfl, rfl⟩
    generalize (if s.log.lh.n > 0 then Pc.writeLog 0 else Pc.release) = x at hx ⊢
    have honly : ∀ q, (update s.pc p x q).commits → q = p := by
      intro q hq
      by_contra hne
      have := h.idle hcom q
      simp [hne, this] at hq
    refine ⟨⟨l.erase p, hnd.erase p, hops x hx.1, hlen'⟩, ?_, ?_, ?_, h.panic⟩
    · intro q r hq hr
      rw [honly q hq, honly r hr]
    · intro hc
      simp at hc
    · intro _
      exact ⟨hzero, p, by simp [hx.2]⟩
  · exact of_idle ⟨l.erase p, hnd.erase p, hops .idle rfl, hlen'⟩ (h.not_commits hcom rfl) rfl
      h.panic

theorem commit_stay {s' : Sys P} (h : Control s) {p : P} {x : Pc} (hp : (s.pc p).commits)
    (hx : x.commits) (hpc : s'.pc = update s.pc p x)
    (hout : s'.log.outstanding = s.log.outstanding)
    (hcom : s'.log.committing = s.log.committing) (hpanic : s'.panic = s.panic) : Control s' := by
  have hop : ∀ y : Pc, y.commits → y.op = none := by
    intro y hy
    cases y <;> simp_all [Pc.commits, Pc.op]
  have hsame : ∀ q, (s'.pc q).commits = (s.pc q).commits := by
    intro q
    rw [hpc]
    by_cases hq : q = p
    · subst hq
      simp [hx, hp]
    · simp [hq]
  refine ⟨h.ops_update hpc (by rw [hop x hx, hop _ hp]) hout, ?_, ?_, ?_, hpanic ▸ h.panic⟩
  · intro q r hq hr
    exact h.one q r (hsame q ▸ hq) (hsame r ▸ hr)
  · intro hc q
    rw [hsame]
    exact h.idle (hcom ▸ hc) q
  · intro hc
    obtain ⟨h0, q, hq⟩ := h.quiet (hcom ▸ hc)
    exact ⟨hout ▸ h0, q, (hsame q).symm ▸ hq⟩

theorem commit_leave {s' : Sys P} (h : Control s) {p : P} (hp : (s.pc p).commits)
    (hpc : s'.pc = update s.pc p .idle)
    (hout : s'.log.outstanding = s.log.outstanding)
    (hcom : s'.log.committing = false) (hpanic : s'.panic = s.panic) : Control s' := by
  have hnone : (s.pc p).op = none := h.op_eq_none (h.committing_of_commits hp) p
  have hcommits : ∀ q, (s'.pc q).commits = false := by
    intro q
    rw [hpc]
    by_cases hq : q = p
    · subst hq
      simp [Pc.commits]
    · have hne : ¬(s.pc q).commits := fun hc => hq (h.one q p hc hp)
      simpa [hq] using hne
  exact of_idle (h.ops_update hpc (by rw [hnone]; rfl) hout) hcommits hcom (hpanic ▸ h.panic)

theorem commitStep (h : Control s) {s' : Sys P} {p : P} (hs : RedoLog.commitStep s p = some s') :
    Control s' := by
  simp only [RedoLog.commitStep] at hs
  split at hs
  · rename_i tail hp
    obtain rfl := some.inj hs
    have hc : (s.pc p).commits := by simp [hp, Pc.commits]
    simp only [writeLogStep]
    split <;> exact h.commit_stay hc (by rfl) rfl rfl rfl rfl
  · rename_i tail hp
    obtain rfl := some.inj hs
    have hc : (s.pc p).commits := by simp [hp, Pc.commits]
    simp only [installStep]
    split <;> exact h.commit_stay hc (by rfl) rfl rfl rfl rfl
  · rename_i hp
    obtain rfl := some.inj hs
    exact h.commit_stay (p := p) (by simp [hp, Pc.commits]) (by rfl) rfl rfl rfl rfl
  · rename_i hp
    obtain rfl := some.inj hs
    exact h.commit_leave (p := p) (by simp [hp, Pc.commits]) rfl rfl rfl rfl
  · cases hs

theorem step (h : Control s) {a : Act P} {s' : Sys P} (hs : Step s a s') : Control s' := by
  obtain ⟨_, ⟨p, _, hp, rfl⟩ | ⟨p, b, data, op, _, hp, _, _, rfl⟩ | ⟨p, op, b, _, hp, rfl⟩ |
    ⟨p, op, _, hp, rfl⟩ | ⟨p, _, hc⟩⟩ := step_cases hs
  · exact h.beginOp hp
  · exact h.modify hp b data
  · exact h.logWrite hp
  · exact h.endOp hp
  · exact h.commitStep hc

end Control

end EafitOs.RedoLog
