import EafitOs.RedoLog.GroupCommit

/-!
# Isolation of group commit

The history of a run says which operations the logged updates belong to. A header
write commits all pending updates at once, and only while no operation is
outstanding, so a transaction holds whole operations and no operation is split.
-/

namespace EafitOs.RedoLog

open Foundation Disk Machine Function List Option

variable {P : Type} [DecidableEq P]

/-- The calls of `log_write` of one operation, in order. -/
def ofOp (us : List Update) (op : Nat) : List Update := us.filter fun u => u.op = op

theorem ofOp_append (us vs : List Update) (op : Nat) :
    ofOp (us ++ vs) op = ofOp us op ++ ofOp vs op := by
  simp [ofOp]

theorem ofOp_eq_nil {us : List Update} {op : Nat} (h : ∀ u ∈ us, u.op ≠ op) :
    ofOp us op = [] := by
  simpa [ofOp, filter_eq_nil_iff] using h

/-- The committed blocks are exactly the updated blocks, each once and with the
data logged last. -/
structure Txn.Exact (T : Txn) : Prop where
  nodup : (T.blocks.map Prod.fst).Nodup
  data : ∀ b d, (b, d) ∈ T.blocks ↔ lastData T.updates b = some d

structure History (s : Sys P) : Prop where
  active : ∀ p op, (s.pc p).op = some op → op < s.nextOp ∧ op ∉ s.ended
  distinct : ∀ p q op, (s.pc p).op = some op → (s.pc q).op = some op → p = q
  ended : ∀ op ∈ s.ended, op < s.nextOp
  pending : ∀ u ∈ s.pending, u.op ∈ s.ended ∨ ∃ p, (s.pc p).op = some u.op
  order : s.all = s.txns.flatMap Txn.updates ++ s.pending
  complete : ∀ T ∈ s.txns, ∀ u ∈ T.updates, u.op ∈ s.ended
  apart : ∀ T ∈ s.txns, ∀ u ∈ T.updates, ∀ v ∈ s.pending, u.op ≠ v.op
  whole : ∀ T ∈ s.txns, ∀ u ∈ T.updates, ofOp s.all u.op = ofOp T.updates u.op
  exact : ∀ T ∈ s.txns, T.Exact

namespace History

variable {s : Sys P}

omit [DecidableEq P] in
theorem of_same {s' : Sys P} (h : History s) (hop : ∀ p, (s'.pc p).op = (s.pc p).op)
    (hnext : s'.nextOp = s.nextOp) (hended : s'.ended = s.ended) (hall : s'.all = s.all)
    (hpend : s'.pending = s.pending) (htxns : s'.txns = s.txns) : History s' := by
  constructor
  · simpa only [hop, hnext, hended] using h.active
  · simpa only [hop] using h.distinct
  · simpa only [hnext, hended] using h.ended
  · simpa only [hop, hended, hpend] using h.pending
  · rw [hall, htxns, hpend]
    exact h.order
  · simpa only [hended, htxns] using h.complete
  · simpa only [hpend, htxns] using h.apart
  · simpa only [hall, htxns] using h.whole
  · simpa only [htxns] using h.exact

omit [DecidableEq P] in
theorem not_committed (h : History s) {p : P} {op : Nat} (hp : (s.pc p).op = some op) {T : Txn}
    (hT : T ∈ s.txns) {u : Update} (hu : u ∈ T.updates) : u.op ≠ op := by
  intro heq
  exact (h.active p op hp).2 (heq ▸ h.complete T hT u hu)

theorem op_update {p : P} {x : Pc} (hx : x.op = (s.pc p).op) (q : P) :
    (update s.pc p x q).op = (s.pc q).op := by
  by_cases hq : q = p
  · subst hq
    simp [hx]
  · simp [hq]

theorem beginOp (h : History s) {p : P} (hp : s.pc p = .idle) :
    History (RedoLog.beginOp s p) := by
  simp only [RedoLog.beginOp]
  split
  · exact h
  · split
    · exact h
    · have hself : (update s.pc p (.inOp s.nextOp) p).op = some s.nextOp := by
        simp [Pc.op]
      have hother : ∀ q, q ≠ p →
          (update s.pc p (.inOp s.nextOp) q).op = (s.pc q).op := by
        intro q hq
        simp [hq]
      -- The new operation has a number above every earlier one.
      have hold : ∀ q op, (s.pc q).op = some op → op ≠ s.nextOp := by
        intro q op hq heq
        have := (h.active q op hq).1
        omega
      refine ⟨?_, ?_, ?_, ?_, h.order, h.complete, h.apart, h.whole, h.exact⟩
      · intro q op hq
        show op < s.nextOp + 1 ∧ op ∉ s.ended
        by_cases hqp : q = p
        · subst hqp
          have hop : s.nextOp = op := some.inj (hself.symm.trans hq)
          refine ⟨by omega, ?_⟩
          intro hmem
          have := h.ended op hmem
          omega
        · have hact := h.active q op ((hother q hqp).symm.trans hq)
          exact ⟨by omega, hact.2⟩
      · intro q r op hq hr
        by_cases hqp : q = p <;> by_cases hrp : r = p
        · rw [hqp, hrp]
        · subst hqp
          have hop : s.nextOp = op := some.inj (hself.symm.trans hq)
          exact absurd hop.symm (hold r op ((hother r hrp).symm.trans hr))
        · subst hrp
          have hop : s.nextOp = op := some.inj (hself.symm.trans hr)
          exact absurd hop.symm (hold q op ((hother q hqp).symm.trans hq))
        · exact h.distinct q r op ((hother q hqp).symm.trans hq) ((hother r hrp).symm.trans hr)
      · intro op hop
        exact Nat.lt_succ_of_lt (h.ended op hop)
      · intro u hu
        rcases h.pending u hu with he | ⟨q, hq⟩
        · exact Or.inl he
        · refine Or.inr ⟨q, ?_⟩
          have hqp : q ≠ p := by
            intro heq
            simp [heq, hp, Pc.op] at hq
          exact (hother q hqp).trans hq

theorem logWrite (h : History s) (hc : Control s) {p : P} {op : Nat} {b : UInt32}
    (hp : s.pc p = .modified op b) : History (RedoLog.logWrite s p op b) := by
  have hop : (s.pc p).op = some op := by simp [hp, Pc.op]
  have hout := hc.outstanding_pos hop
  simp only [RedoLog.logWrite]
  split
  · rw [if_neg (by omega)]
    have hsame : ∀ q, (update s.pc p (.inOp op) q).op = (s.pc q).op :=
      op_update (by simp [hp, Pc.op])
    constructor
    · simpa only [hsame] using h.active
    · simpa only [hsame] using h.distinct
    · exact h.ended
    · intro u hu
      simp only [hsame]
      rcases mem_append.mp hu with hu | hu
      · exact h.pending u hu
      · rw [mem_singleton.mp hu]
        exact Or.inr ⟨p, hop⟩
    · simp [h.order]
    · exact h.complete
    · intro T hT u hu v hv
      rcases mem_append.mp hv with hv | hv
      · exact h.apart T hT u hu v hv
      · rw [mem_singleton.mp hv]
        exact h.not_committed hop hT hu
    · intro T hT u hu
      have hne := h.not_committed hop hT hu
      have hnil : ofOp [⟨op, b.toNat, s.mach.view b.toNat⟩] u.op = [] := by
        simpa [ofOp] using hne.symm
      rw [ofOp_append, h.whole T hT u hu, hnil, append_nil]
    · exact h.exact
  · exact h.of_same (fun _ => rfl) rfl rfl rfl rfl rfl

theorem endOp (h : History s) (hc : Control s) {p : P} {op : Nat} (hp : s.pc p = .inOp op) :
    History (RedoLog.endOp s p op) := by
  have hop : (s.pc p).op = some op := by simp [hp, Pc.op]
  have hcom := hc.not_committing hop
  -- Both branches move `p` out of its operation and record that it has ended.
  have hleave : ∀ (x : Pc) (lg : Log), x.op = none → History { s with
      log := lg
      pc := update s.pc p x
      ended := op :: s.ended } := by
    intro x lg hx
    have hgone : ∀ q o, (update s.pc p x q).op = some o → q ≠ p ∧ (s.pc q).op = some o := by
      intro q o hq
      by_cases hqp : q = p
      · subst hqp
        simp [hx] at hq
      · exact ⟨hqp, by simpa [hqp] using hq⟩
    refine ⟨?_, ?_, ?_, ?_, h.order, ?_, h.apart, h.whole, h.exact⟩
    · intro q o hq
      obtain ⟨hqp, hqo⟩ := hgone q o hq
      have hact := h.active q o hqo
      refine ⟨hact.1, ?_⟩
      intro hmem
      rcases mem_cons.mp hmem with heq | hmem
      · exact hqp (h.distinct q p op (heq ▸ hqo) hop)
      · exact hact.2 hmem
    · intro q r o hq hr
      exact h.distinct q r o (hgone q o hq).2 (hgone r o hr).2
    · intro o ho
      rcases mem_cons.mp ho with heq | ho
      · exact heq ▸ (h.active p op hop).1
      · exact h.ended o ho
    · intro u hu
      rcases h.pending u hu with he | ⟨q, hq⟩
      · exact Or.inl (mem_cons_of_mem _ he)
      · by_cases hqp : q = p
        · subst hqp
          have : u.op = op := some.inj (hq.symm.trans hop)
          exact Or.inl (this ▸ mem_cons_self)
        · exact Or.inr ⟨q, by simpa [hqp] using hq⟩
    · intro T hT u hu
      exact mem_cons_of_mem _ (h.complete T hT u hu)
  simp only [RedoLog.endOp, hcom, Bool.false_eq_true, if_false]
  split
  · exact hleave _ _ (by split <;> rfl)
  · exact hleave _ _ rfl

end History

omit [DecidableEq P] in
theorem nextTxn_exact {s : Sys P} (hd : DataInv s) (hc : Control s) {p : P} {tail : Nat}
    (hp : s.pc p = .writeLog tail) (htail : ¬tail < s.log.lh.n) : (nextTxn s).Exact := by
  have hcom := hc.committing_of_commits (p := p) (by simp [hp, Pc.commits])
  have hat := hd.places p
  rw [hp] at hat
  obtain ⟨hlog, _, hslots⟩ := hat
  have hlast : ∀ b ∈ s.log.lh.block, lastData s.pending b = some (s.mach.view b) :=
    fun b hb => hlog.data b hb (hd.holder_eq_none hc hcom b)
  have hfst : (nextTxn s).blocks.map Prod.fst = s.log.lh.block := by
    apply ext_getElem
    · simp [nextTxn, LogHeader.n]
    · intro i _ hi
      simp [nextTxn, home, getD_eq_getElem?_getD, List.getElem?_eq_getElem hi]
  refine ⟨hfst.symm ▸ hd.nodup, ?_⟩
  intro b d
  constructor
  · intro hmem
    obtain ⟨i, hi, heq⟩ := mem_map.mp hmem
    have hi' : i < s.log.lh.n := mem_range.mp hi
    obtain ⟨rfl, rfl⟩ := Prod.mk.inj heq
    rw [(hslots i (by omega) hi').1]
    exact hlast _ (home_mem hi')
  · intro hdata
    have hb : b ∈ s.log.lh.block := by
      rw [hlog.blocks]
      obtain ⟨u, hu, _⟩ := map_eq_some_iff.mp hdata
      have hmem := mem_filter.mp (mem_of_getLast? hu)
      exact ⟨u, hmem.1, by simpa using hmem.2⟩
    obtain ⟨i, hi, rfl⟩ := mem_iff_getElem.mp hb
    have hhome : home s.log i = s.log.lh.block[i] := by
      simp [home, getD_eq_getElem?_getD, List.getElem?_eq_getElem hi]
    have hview : s.mach.view s.log.lh.block[i] = d :=
      some.inj ((hlast _ hb).symm.trans hdata)
    refine mem_map.mpr ⟨i, mem_range.mpr hi, ?_⟩
    rw [(hslots i (by have : i < s.log.lh.n := hi; omega) hi).1, hhome, hview]

namespace History

variable {s : Sys P}

theorem headerWrite (h : History s) (hd : DataInv s) (hc : Control s) {p : P} {tail : Nat}
    (hp : s.pc p = .writeLog tail) (htail : ¬tail < s.log.lh.n) (m : Machine) :
    History { s with
      mach := m
      pc := update s.pc p (.install 0)
      pending := []
      txns := s.txns ++ [nextTxn s] } := by
  have hcom := hc.committing_of_commits (p := p) (by simp [hp, Pc.commits])
  have hsame : ∀ q, (update s.pc p (.install 0) q).op = (s.pc q).op :=
    op_update (by simp [hp, Pc.op])
  have hnew : ∀ T ∈ s.txns ++ [nextTxn s], T ∈ s.txns ∨ T = nextTxn s := by
    intro T hT
    simpa using mem_append.mp hT
  constructor
  · simpa only [hsame] using h.active
  · simpa only [hsame] using h.distinct
  · exact h.ended
  · intro u hu
    cases hu
  · simp [h.order, nextTxn]
  · intro T hT u hu
    rcases hnew T hT with hT | rfl
    · exact h.complete T hT u hu
    · rcases h.pending u hu with he | ⟨q, hq⟩
      · exact he
      · simp [hc.op_eq_none hcom q] at hq
  · intro T hT u hu v hv
    cases hv
  · intro T hT u hu
    rcases hnew T hT with hT | rfl
    · exact h.whole T hT u hu
    · have hnil : ofOp (s.txns.flatMap Txn.updates) u.op = [] := by
        apply ofOp_eq_nil
        intro v hv
        obtain ⟨T, hT, hvT⟩ := mem_flatMap.mp hv
        exact h.apart T hT v hvT u hu
      show ofOp s.all u.op = ofOp s.pending u.op
      rw [h.order, ofOp_append, hnil, nil_append]
  · intro T hT
    rcases hnew T hT with hT | rfl
    · exact h.exact T hT
    · exact nextTxn_exact hd hc hp htail

theorem commitStep (h : History s) (hd : DataInv s) (hc : Control s) {s' : Sys P} {p : P}
    (hs : RedoLog.commitStep s p = some s') : History s' := by
  simp only [RedoLog.commitStep] at hs
  split at hs
  · rename_i tail hp
    obtain rfl := some.inj hs
    simp only [writeLogStep]
    split
    · exact h.of_same (op_update (by simp [hp, Pc.op])) rfl rfl rfl rfl rfl
    · exact h.headerWrite hd hc hp ‹_› _
  · rename_i tail hp
    obtain rfl := some.inj hs
    simp only [installStep]
    split <;> exact h.of_same (op_update (by simp [hp, Pc.op])) rfl rfl rfl rfl rfl
  · rename_i hp
    obtain rfl := some.inj hs
    exact h.of_same (op_update (by simp [hp, Pc.op])) rfl rfl rfl rfl rfl
  · rename_i hp
    obtain rfl := some.inj hs
    exact h.of_same (op_update (by simp [hp, Pc.op])) rfl rfl rfl rfl rfl
  · cases hs

theorem step (h : History s) (hd : DataInv s) (hc : Control s) {a : Act P} {s' : Sys P}
    (hs : Step s a s') : History s' := by
  obtain ⟨_, ⟨p, _, hp, rfl⟩ | ⟨p, b, data, op, _, hp, _, _, rfl⟩ | ⟨p, op, b, _, hp, rfl⟩ |
    ⟨p, op, _, hp, rfl⟩ | ⟨p, _, hcs⟩⟩ := step_cases hs
  · exact h.beginOp hp
  · exact h.of_same (op_update (by simp [hp, Pc.op])) rfl rfl rfl rfl rfl
  · exact h.logWrite hc hp
  · exact h.endOp hc hp
  · exact h.commitStep hd hc hcs

end History

structure Invariant (s : Sys P) : Prop where
  control : Control s
  data : DataInv s
  history : History s

theorem Invariant.step {s s' : Sys P} {a : Act P} (h : Invariant s) (hs : Step s a s') :
    Invariant s' :=
  ⟨h.control.step hs, h.data.step h.control hs, h.history.step h.data h.control hs⟩

omit [DecidableEq P] in
theorem Invariant.initSys {start : Nat} {m : Machine} (hm : m.Coherent)
    (hhead : headN (m.disk start) = 0) : Invariant (initSys P start m) := by
  have hlh : (initlog start).lh.block = [] := rfl
  refine ⟨⟨⟨[], by simp, by simp [RedoLog.initSys, Pc.op], rfl⟩, ?_, ?_, ?_, Or.inl rfl⟩,
    ⟨hm, ?_, ?_, ?_, fun _ => trivial, ?_, ?_⟩, ?_⟩
  · intro p q hp
    simp [RedoLog.initSys, Pc.commits] at hp
  · intro _ p
    rfl
  · intro hc
    simp [RedoLog.initSys, initlog] at hc
  · simp [RedoLog.initSys, hlh]
  · intro b hb
    simp [RedoLog.initSys, hlh] at hb
  · intro _
    exact ⟨Logged.of_empty hlh rfl, hhead, fun _ => hlh⟩
  · intro b p hb
    cases hb
  · intro p op b hp
    cases hp
  · constructor <;> simp [RedoLog.initSys, Pc.op]

theorem step_txns {s s' : Sys P} {a : Act P} (hc : Control s) (hs : Step s a s') :
    (s'.txns = s.txns ∧ s.pending <+: s'.pending) ∨
      (s.log.committing = true ∧ s.log.outstanding = 0 ∧ s'.pending = [] ∧
        s'.txns = s.txns ++ [nextTxn s]) := by
  obtain ⟨_, ⟨p, _, hp, rfl⟩ | ⟨p, b, data, op, _, hp, _, _, rfl⟩ | ⟨p, op, b, _, hp, rfl⟩ |
    ⟨p, op, _, hp, rfl⟩ | ⟨p, _, hcs⟩⟩ := step_cases hs
  · left
    simp only [beginOp]
    split
    · exact ⟨rfl, prefix_refl _⟩
    · split <;> exact ⟨rfl, prefix_refl _⟩
  · exact Or.inl ⟨rfl, prefix_refl _⟩
  · left
    simp only [logWrite]
    split
    · split
      · exact ⟨rfl, prefix_refl _⟩
      · exact ⟨rfl, prefix_append _ _⟩
    · exact ⟨rfl, prefix_refl _⟩
  · left
    simp only [endOp]
    split
    · exact ⟨rfl, prefix_refl _⟩
    · split <;> exact ⟨rfl, prefix_refl _⟩
  · simp only [commitStep] at hcs
    split at hcs
    · rename_i tail hp
      obtain rfl := some.inj hcs
      simp only [writeLogStep]
      split
      · exact Or.inl ⟨rfl, prefix_refl _⟩
      · have hcom := hc.committing_of_commits (p := p) (by simp [hp, Pc.commits])
        exact Or.inr ⟨hcom, (hc.quiet hcom).1, rfl, rfl⟩
    · obtain rfl := some.inj hcs
      left
      simp only [installStep]
      split <;> exact ⟨rfl, prefix_refl _⟩
    · obtain rfl := some.inj hcs
      exact Or.inl ⟨rfl, prefix_refl _⟩
    · obtain rfl := some.inj hcs
      exact Or.inl ⟨rfl, prefix_refl _⟩
    · cases hcs

theorem step_of_committing {s s' : Sys P} {a : Act P} (h : Invariant s)
    (hcom : s.log.committing = true) (hs : Step s a s') :
    s' = s ∨ ∃ p, a = .commit p ∧ (s'.log.lh = s.log.lh ∨ s'.log.lh = LogHeader.empty) ∧
      ∀ b ∈ s.log.lh.block, s'.mach.view b = s.mach.view b := by
  have hnone := h.control.op_eq_none hcom
  have hhead : ∀ b ∈ s.log.lh.block, (writeHead s.log s.mach).view b = s.mach.view b := by
    intro b hb
    have hne : b ≠ s.log.start := fun heq => h.data.homes b hb (heq ▸ inLog_start s.log)
    rw [(writeHead_wroteThrough s.log h.data.coherent).view]
    simp [hne]
  obtain ⟨_, ⟨p, _, _, rfl⟩ | ⟨p, b, data, op, _, hp, _, _, rfl⟩ | ⟨p, op, b, _, hp, rfl⟩ |
    ⟨p, op, _, hp, rfl⟩ | ⟨p, rfl, hcs⟩⟩ := step_cases hs
  · left
    simp [beginOp, hcom]
  · have := hnone p
    simp [hp, Pc.op] at this
  · have := hnone p
    simp [hp, Pc.op] at this
  · have := hnone p
    simp [hp, Pc.op] at this
  · refine Or.inr ⟨p, rfl, ?_⟩
    simp only [commitStep] at hcs
    split at hcs
    · obtain rfl := some.inj hcs
      simp only [writeLogStep]
      split
      · rename_i htail
        refine ⟨Or.inl rfl, ?_⟩
        intro b hb
        have hne : b ≠ _ := fun heq => h.data.homes b hb (heq ▸ inLog_slot htail)
        simp [(writeLogAt_wroteThrough s.log h.data.coherent _).view, hne]
      · exact ⟨Or.inl rfl, hhead⟩
    · rename_i tail hp
      obtain rfl := some.inj hcs
      have hat := h.data.places p
      rw [hp] at hat
      simp only [installStep]
      split
      · rename_i htail
        exact ⟨Or.inl rfl, fun b _ => by rw [h.data.installTransAt_view hat.2 htail]⟩
      · exact ⟨Or.inr rfl, fun _ _ => rfl⟩
    · obtain rfl := some.inj hcs
      exact ⟨Or.inl rfl, hhead⟩
    · obtain rfl := some.inj hcs
      exact ⟨Or.inl rfl, fun _ _ => rfl⟩
    · cases hcs

theorem run_txns {s t : Sys P} {ls : List (Act P)} (h : Invariant s) (run : Run Step s ls t) :
    (t.txns = s.txns ∧ s.pending <+: t.pending) ∨
      ∃ T rest, t.txns = s.txns ++ T :: rest ∧ s.pending <+: T.updates := by
  induction run with
  | nil => exact Or.inl ⟨rfl, prefix_refl _⟩
  | @snoc _ t _ _ run hs ih =>
    have hinv := run.invariant Invariant h fun _ _ _ => Invariant.step
    rcases step_txns hinv.control hs with ⟨htx, hpre⟩ | ⟨_, _, _, htx⟩
    · rcases ih with ⟨htx', hpre'⟩ | ⟨T, rest, hT, hpre'⟩
      · exact Or.inl ⟨htx.trans htx', hpre'.trans hpre⟩
      · exact Or.inr ⟨T, rest, htx.trans hT, hpre'⟩
    · rcases ih with ⟨htx', hpre'⟩ | ⟨T, rest, hT, hpre'⟩
      · exact Or.inr ⟨nextTxn t, [], by rw [htx, htx'], hpre'⟩
      · exact Or.inr ⟨T, rest ++ [nextTxn t], by simp [htx, hT], hpre'⟩

structure Isolated (s : Sys P) : Prop where
  quiet : s.log.committing = true → s.log.outstanding = 0 ∧ ∀ p, (s.pc p).op = none
  frozen : s.log.committing = true → ∀ a s', Step s a s' →
    s' = s ∨ ∃ p, a = .commit p ∧ (s'.log.lh = s.log.lh ∨ s'.log.lh = LogHeader.empty) ∧
      ∀ b ∈ s.log.lh.block, s'.mach.view b = s.mach.view b
  /-- A transaction holds all calls of `log_write` of its operations, all of them ended. -/
  complete : ∀ T ∈ s.txns, T.Exact ∧ ∀ u ∈ T.updates,
    u.op ∈ s.ended ∧ ofOp s.all u.op = ofOp T.updates u.op
  order : s.all = s.txns.flatMap Txn.updates ++ s.pending
  /-- A transaction is committed only at `outstanding = 0`, with everything pending. -/
  atZero : ∀ a s', Step s a s' → s'.txns = s.txns ∨
    (s.log.committing = true ∧ s.log.outstanding = 0 ∧ s'.txns = s.txns ++ [nextTxn s])
  /-- What is pending goes into the next transaction, whichever run follows. -/
  carried : ∀ ls t, Run Step s ls t → (t.txns = s.txns ∧ s.pending <+: t.pending) ∨
    ∃ T rest, t.txns = s.txns ++ T :: rest ∧ s.pending <+: T.updates
  /-- Nothing is pending once `committing` is cleared again. -/
  drained : s.log.committing = false → s.log.outstanding = 0 → s.pending = []
  nodup : s.log.lh.block.Nodup
  noPanic : s.panic ≠ some "log.committing" ∧ s.panic ≠ some "log_write outside of trans"

/-- Group commit isolates operations, for every interleaving of any number of processes. -/
theorem group_commit_isolated {start : Nat} {m : Machine} (hm : m.Coherent)
    (hhead : headN (m.disk start) = 0) {ls : List (Act P)} {s : Sys P}
    (run : Run Step (initSys P start m) ls s) : Isolated s := by
  have h : Invariant s := run.invariant Invariant (Invariant.initSys hm hhead) fun _ _ _ =>
    Invariant.step
  refine ⟨fun hcom => ⟨(h.control.quiet hcom).1, h.control.op_eq_none hcom⟩,
    fun hcom a s' hs => step_of_committing h hcom hs,
    fun T hT => ⟨h.history.exact T hT, fun u hu =>
      ⟨h.history.complete T hT u hu, h.history.whole T hT u hu⟩⟩,
    h.history.order, ?_, fun ls t hrun => run_txns h hrun, ?_, h.data.nodup, ?_⟩
  · intro a s' hs
    rcases step_txns h.control hs with ⟨htx, _⟩ | ⟨hcom, hout, _, htx⟩
    · exact Or.inl htx
    · exact Or.inr ⟨hcom, hout, htx⟩
  · intro hcom hout
    obtain ⟨hlog, _, hempty⟩ := h.data.free hcom
    exact hlog.pending_eq_nil (hempty hout)
  · rcases h.control.panic with hp | hp <;> simp [hp]

/-- Two operations that overlap and log the same block, up to the end of their commit. -/
def overlap : List (Act Bool) :=
  [.beginOp false, .beginOp true, .modify false 50 fun _ => 7, .logWrite false, .endOp false,
    .modify true 50 fun _ => 9, .logWrite true, .endOp true, .commit true, .commit true,
    .commit true, .commit true, .commit true, .commit true]

/-- The two operations are committed together. -/
theorem group_commit_isolated_overlap : ∃ s,
    exec step (initSys Bool 2 (boot (fun _ _ => 0) fun _ _ => false)) overlap = some s ∧
      s.txns.length = 1 ∧ s.ended = [1, 0] ∧ s.log.committing = false ∧ Isolated s := by
  have hfacts : ∃ s ∈ exec step (initSys Bool 2 (boot (fun _ _ => 0) fun _ _ => false)) overlap,
      s.txns.length = 1 ∧ s.ended = [1, 0] ∧ s.log.committing = false := by
    decide +kernel
  obtain ⟨s, hs, hlen, hended, hcom⟩ := hfacts
  exact ⟨s, hs, hlen, hended, hcom, group_commit_isolated (boot_coherent _ _) (by decide +kernel)
    (Run.of_exec hs)⟩

end EafitOs.RedoLog
