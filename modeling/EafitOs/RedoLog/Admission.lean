import EafitOs.RedoLog.Isolation
import Mathlib.Algebra.Order.BigOperators.Group.Finset
import Mathlib.Algebra.Group.Action.Defs

/-!
# Admission control

`begin_op` reserves `MAXOPBLOCKS` blocks of the log for each operation. What the operations have
not used of their reservations is still free in the log, so the log is full only when every
operation has used up its own. `log_write` looks at the space before it looks for a block that is
already logged.
-/

namespace EafitOs.RedoLog

open Foundation Disk Machine Function List Option Finset

variable {P : Type} [DecidableEq P]

/-- The distinct blocks an operation has passed to `log_write`. -/
def passed (s : Sys P) (op : Nat) : Finset Nat :=
  ((ofOp s.all op).map Update.block).toFinset

/-- The operation and the block of a `log_write`. -/
def passing (s : Sys P) : Act P → Option (Nat × UInt32)
  | .logWrite p =>
    match s.pc p with
    | .modified op b => some (op, b)
    | _ => none
  | _ => none

/-- No operation passes more than `MAXOPBLOCKS` distinct blocks to `log_write`. -/
def Bounded (s : Sys P) (a : Act P) : Prop :=
  ∀ x ∈ passing s a, (insert x.2.toNat (passed s x.1)).card ≤ maxOpBlocks

/-- An operation that has passed `MAXOPBLOCKS` distinct blocks calls `log_write` no more. -/
def Frugal (s : Sys P) (a : Act P) : Prop :=
  ∀ x ∈ passing s a, (passed s x.1).card < maxOpBlocks

instance (s : Sys P) (a : Act P) : Decidable (Bounded s a) :=
  inferInstanceAs (Decidable (∀ x ∈ passing s a, _))

instance (s : Sys P) (a : Act P) : Decidable (Frugal s a) :=
  inferInstanceAs (Decidable (∀ x ∈ passing s a, _))

/-- The part of its reservation that a process has not used. -/
def left (s : Sys P) (p : P) : Nat :=
  match (s.pc p).op with
  | none => 0
  | some op => maxOpBlocks - (passed s op).card

def Reserved (s : Sys P) : Prop :=
  ∀ t : Finset P, s.log.lh.n + ∑ p ∈ t, left s p ≤ logBlocks

omit [DecidableEq P] in
theorem passed_congr {s s' : Sys P} (hall : s'.all = s.all) (op : Nat) :
    passed s' op = passed s op := by
  rw [passed, passed, hall]

omit [DecidableEq P] in
theorem left_congr {s s' : Sys P} {p : P} (hall : s'.all = s.all)
    (hop : (s'.pc p).op = (s.pc p).op) : left s' p = left s p := by
  simp only [left, hop, passed_congr hall]

omit [DecidableEq P] in
theorem left_le (s : Sys P) (p : P) : left s p ≤ maxOpBlocks := by
  rw [left]
  split
  · exact Nat.zero_le _
  · exact Nat.sub_le _ _

omit [DecidableEq P] in
theorem left_of_op {s : Sys P} {p : P} {op : Nat} (hop : (s.pc p).op = some op) :
    left s p = maxOpBlocks - (passed s op).card := by
  rw [left, hop]

omit [DecidableEq P] in
theorem left_of_none {s : Sys P} {p : P} (hop : (s.pc p).op = none) : left s p = 0 := by
  rw [left, hop]

namespace Reserved

variable {s s' : Sys P}

omit [DecidableEq P] in
theorem of_quiet (hop : ∀ p, (s.pc p).op = none) : Reserved s := by
  intro t
  rw [sum_eq_zero fun p _ => left_of_none (hop p)]
  exact s.log.lh.bound

omit [DecidableEq P] in
theorem of_le (h : Reserved s) (hn : s'.log.lh.n ≤ s.log.lh.n)
    (hleft : ∀ p, left s' p ≤ left s p) : Reserved s' := by
  intro t
  have hsum : ∑ p ∈ t, left s' p ≤ ∑ p ∈ t, left s p :=
    sum_le_sum fun p _ => hleft p
  have ht := h t
  omega

theorem beginOp (h : Reserved s) (hc : Control s) {p : P} :
    Reserved (RedoLog.beginOp s p) := by
  rw [RedoLog.beginOp]
  split
  · exact h
  · split
    · exact h
    · rename_i hroom
      obtain ⟨l, hnodup, hmem, hlen⟩ := hc.ops
      intro t
      obtain ⟨s', hs'⟩ : ∃ s', s' = { s with
        log := { s.log with outstanding := s.log.outstanding + 1 }
        pc := update s.pc p (.inOp s.nextOp)
        nextOp := s.nextOp + 1 } := ⟨_, rfl⟩
      rw [← hs']
      have hn : s'.log.lh.n = s.log.lh.n := by rw [hs']
      -- only the new process and those already inside have a reservation
      have hinside : ∀ q ∈ t, left s' q ≠ 0 → q ∈ insert p l.toFinset := by
        intro q _ hq
        by_contra hnot
        rw [mem_insert, not_or, List.mem_toFinset, hmem q] at hnot
        refine hq (left_of_none ?_)
        rw [hs']
        simp only [update_of_ne hnot.1]
        exact not_isSome_iff_eq_none.mp hnot.2
      have hcard : (t.filter (· ∈ insert p l.toFinset)).card ≤ l.length + 1 := by
        have hsub : t.filter (· ∈ insert p l.toFinset) ⊆ insert p l.toFinset :=
          fun q hq => (mem_filter.mp hq).2
        have hle := card_le_card hsub
        have hinsert := card_insert_le p l.toFinset
        have hlist := toFinset_card_le l
        omega
      have hsum := sum_le_card_nsmul (t.filter (· ∈ insert p l.toFinset)) (left s')
        maxOpBlocks fun q _ => left_le s' q
      rw [sum_filter_of_ne hinside, smul_eq_mul] at hsum
      simp only [maxOpBlocks, logBlocks] at hroom hsum ⊢
      omega

omit [DecidableEq P] in
theorem mem_header (hinv : Invariant s) {p : P} {op b : Nat} (hop : (s.pc p).op = some op)
    (hb : b ∈ passed s op) : b ∈ s.log.lh.block := by
  rw [passed, List.mem_toFinset, List.mem_map] at hb
  obtain ⟨u, hu, hblock⟩ := hb
  obtain ⟨hall, huop⟩ := List.mem_filter.mp hu
  rw [hinv.history.order, mem_append, mem_flatMap] at hall
  obtain ⟨T, hT, huT⟩ | hpending := hall
  · exact absurd (of_decide_eq_true huop) (hinv.history.not_committed hop hT huT)
  · have hcom := hinv.control.not_committing hop
    exact ((hinv.data.free hcom).1.blocks b).mpr ⟨u, hpending, hblock⟩

/-- A block that the operation has logged before takes no space, and another uses up a
part of its reservation. -/
theorem logWrite (h : Reserved s) (hinv : Invariant s) {p : P} {op : Nat} {b : UInt32}
    (hp : s.pc p = .modified op b) (hcard : (passed s op).card < maxOpBlocks) :
    Reserved (RedoLog.logWrite s p op b) := by
  have hop : (s.pc p).op = some op := by
    rw [hp]
    rfl
  rw [RedoLog.logWrite]
  split
  · rename_i hroom
    split
    · exact h
    · obtain ⟨s', hs'⟩ : ∃ s', s' = { s with
        log := { s.log with lh := addBlock s.log.lh b hroom }
        mach := (pinNew s.log.lh s.mach b.toNat).brelse b.toNat
        pc := update s.pc p (.inOp op)
        holder := update s.holder b.toNat none
        all := s.all ++ [Update.mk op b.toNat (s.mach.view b.toNat)]
        pending := s.pending ++ [Update.mk op b.toNat (s.mach.view b.toNat)] } := ⟨_, rfl⟩
      simp only
      rw [← hs']
      have hpassed : ∀ op', passed s' op' =
          if op' = op then insert b.toNat (passed s op) else passed s op' := by
        intro op'
        by_cases heq : op' = op
        · subst heq
          simp [hs', passed, ofOp, filter_append]
        · simp [hs', passed, ofOp, filter_append, heq, Ne.symm heq]
      have hself : left s' p = maxOpBlocks - (insert b.toNat (passed s op)).card := by
        have hop' : (s'.pc p).op = some op := by
          rw [hs']
          simp [Pc.op]
        rw [left_of_op hop', hpassed, if_pos rfl]
      have hother : ∀ q, q ≠ p → left s' q = left s q := by
        intro q hq
        have hpc : (s'.pc q).op = (s.pc q).op := by
          rw [hs']
          simp only [update_of_ne hq]
        rw [left, left, hpc]
        cases hqop : (s.pc q).op with
        | none => rfl
        | some op' =>
          have hne : op' ≠ op := by
            rintro rfl
            exact hq (hinv.history.distinct q p op' hqop hop)
          simp only [hpassed, if_neg hne]
      have hstep : s'.log.lh.n + left s' p ≤ s.log.lh.n + left s p := by
        rw [hself, left_of_op hop]
        by_cases hmem : b.toNat ∈ passed s op
        · have hn : s'.log.lh.n = s.log.lh.n := by
            rw [hs']
            simp only [addBlock, if_pos (mem_header hinv hop hmem)]
          rw [insert_eq_of_mem hmem, hn]
        · have hn : s'.log.lh.n ≤ s.log.lh.n + 1 := by
            rw [hs']
            simp only [addBlock]
            split
            · exact Nat.le_succ _
            · simp [LogHeader.n]
          rw [card_insert_of_notMem hmem]
          omega
      intro t
      have hsub : ∑ q ∈ t, left s' q ≤ ∑ q ∈ insert p t, left s' q :=
        sum_le_sum_of_subset (subset_insert p t)
      have hsplit := add_sum_erase (insert p t) (left s') (mem_insert_self p t)
      have hsplit₀ := add_sum_erase (insert p t) (left s) (mem_insert_self p t)
      have hrest : ∑ q ∈ (insert p t).erase p, left s' q = ∑ q ∈ (insert p t).erase p, left s q :=
        sum_congr rfl fun q hq => hother q (ne_of_mem_erase hq)
      have ht := h (insert p t)
      omega
  · exact h

omit [DecidableEq P] in
theorem lt_logBlocks (h : Reserved s) {p : P} {op : Nat} (hop : (s.pc p).op = some op)
    (hcard : (passed s op).card < maxOpBlocks) : s.log.lh.n < logBlocks := by
  have hroom := h {p}
  rw [Finset.sum_singleton, left_of_op hop] at hroom
  omega

theorem endOp (h : Reserved s) {p : P} {op : Nat} : Reserved (RedoLog.endOp s p op) := by
  have hpc : ∀ {s' : Sys P} {x : Pc}, s'.pc = update s.pc p x → x.op = none →
      s'.all = s.all → s'.log.lh = s.log.lh → Reserved s' := by
    intro s' x hpc hx hall hlh
    refine h.of_le (le_of_eq (by rw [hlh])) fun q => ?_
    by_cases hq : q = p
    · have hnone : (s'.pc q).op = none := by
        rw [hpc, hq, update_self, hx]
      rw [left_of_none hnone]
      exact Nat.zero_le _
    · refine le_of_eq (left_congr hall ?_)
      rw [hpc, update_of_ne hq]
  rw [RedoLog.endOp]
  simp only
  split
  · exact h
  · split
    · refine hpc rfl ?_ rfl rfl
      split <;> rfl
    · exact hpc rfl rfl rfl rfl

theorem commitStep (hc : Control s) {p : P} (hs : RedoLog.commitStep s p = some s') :
    Reserved s' := by
  have hquiet : ∀ {u : Sys P} {x : Pc}, (s.pc p).commits = true →
      u.pc = update s.pc p x → x.op = none → Reserved u := by
    intro u x hcommits hpc hx
    refine of_quiet fun q => ?_
    have hnone := hc.op_eq_none (hc.committing_of_commits hcommits)
    rw [hpc, History.op_update (hx.trans (hnone p).symm)]
    exact hnone q
  simp only [RedoLog.commitStep] at hs
  split at hs
  · rename_i tail hp
    obtain rfl := some.inj hs
    rw [writeLogStep]
    split <;> exact hquiet (by rw [hp]; rfl) rfl rfl
  · rename_i tail hp
    obtain rfl := some.inj hs
    rw [installStep]
    split <;> exact hquiet (by rw [hp]; rfl) rfl rfl
  · rename_i hp
    obtain rfl := some.inj hs
    exact hquiet (by rw [hp]; rfl) rfl rfl
  · rename_i hp
    obtain rfl := some.inj hs
    exact hquiet (by rw [hp]; rfl) rfl rfl
  · cases hs

theorem step (h : Reserved s) (hinv : Invariant s) {a : Act P} (hfrugal : Frugal s a)
    (hs : Step s a s') : Reserved s' := by
  obtain ⟨_, ⟨p, _, hp, rfl⟩ | ⟨p, b, data, op, _, hp, _, _, rfl⟩ | ⟨p, op, b, rfl, hp, rfl⟩ |
    ⟨p, op, _, hp, rfl⟩ | ⟨p, _, hc⟩⟩ := step_cases hs
  · exact h.beginOp hinv.control
  · refine h.of_le le_rfl fun q => le_of_eq (left_congr rfl ?_)
    exact History.op_update (by rw [hp]; rfl) q
  · refine h.logWrite hinv hp (hfrugal (op, b) ?_)
    simp [passing, hp]
  · exact h.endOp
  · exact commitStep hinv.control hc

end Reserved

theorem panic_eq_none {s s' : Sys P} {a : Act P} (hinv : Invariant s) (hres : Reserved s)
    (hfrugal : Frugal s a) (hs : Step s a s') : s'.panic = none := by
  obtain ⟨hnone, ⟨p, _, hp, rfl⟩ | ⟨p, b, data, op, _, hp, _, _, rfl⟩ | ⟨p, op, b, rfl, hp, rfl⟩ |
    ⟨p, op, _, hp, rfl⟩ | ⟨p, _, hc⟩⟩ := step_cases hs
  · rw [beginOp]
    split
    · exact hnone
    · split
      · exact hnone
      · exact hnone
  · exact hnone
  · have hop : (s.pc p).op = some op := by
      rw [hp]
      rfl
    have hroom := hres.lt_logBlocks hop (hfrugal (op, b) (by simp [passing, hp]))
    have hout := hinv.control.outstanding_pos hop
    rw [logWrite, dif_pos hroom, if_neg (by omega)]
    exact hnone
  · have hcom := hinv.control.not_committing (p := p) (by rw [hp]; rfl)
    rw [endOp]
    simp only [hcom, Bool.false_eq_true, if_false]
    split
    · exact hnone
    · exact hnone
  · simp only [commitStep] at hc
    split at hc
    · obtain rfl := some.inj hc
      rw [writeLogStep]
      split <;> exact hnone
    · obtain rfl := some.inj hc
      rw [installStep]
      split <;> exact hnone
    · obtain rfl := some.inj hc
      exact hnone
    · obtain rfl := some.inj hc
      exact hnone
    · cases hc

/-- The log never overflows if no operation calls `log_write` again after it has passed
`MAXOPBLOCKS` distinct blocks, whatever the interleaving. -/
theorem log_never_overflows {start : Nat} {m : Machine} (hm : m.Coherent)
    (hhead : headN (m.disk start) = 0) {ls : List (Act P)} {s : Sys P}
    (run : Run (guarded Frugal Step) (initSys P start m) ls s) :
    s.log.lh.n ≤ logBlocks ∧ s.panic ≠ some "too big a transaction" := by
  have hall : Invariant s ∧ Reserved s ∧ s.panic = none := by
    refine run.invariant (fun s => Invariant s ∧ Reserved s ∧ s.panic = none)
      ⟨Invariant.initSys hm hhead, Reserved.of_quiet fun _ => rfl, rfl⟩ ?_
    rintro s a s' ⟨hinv, hres, _⟩ ⟨hfrugal, hs⟩
    exact ⟨hinv.step hs, hres.step hinv hfrugal hs, panic_eq_none hinv hres hfrugal hs⟩
  refine ⟨s.log.lh.bound, ?_⟩
  rw [hall.2.2]
  exact nofun

def fillLog : List (Act (Fin 3)) :=
  [.beginOp 0, .beginOp 1, .beginOp 2] ++ (List.finRange 3).flatMap fun p =>
    (List.range 10).flatMap fun i =>
      [.modify p (100 + 10 * p.val + i).toUInt32 fun _ => 0, .logWrite p]

theorem fillLog_runs : ((exec (checked Frugal step)
    (initSys (Fin 3) 2 (boot (fun _ _ => 0) fun _ _ => false)) fillLog).map
      fun s => s.log.lh.n) = some 30 := by
  decide +kernel

/-- Three operations that use up their reservations fill the log exactly. -/
theorem log_never_overflows_fillLog : ∃ s : Sys (Fin 3), s.log.lh.n = 30 ∧
    s.log.lh.n ≤ logBlocks ∧ s.panic ≠ some "too big a transaction" := by
  obtain ⟨s, hs, hn⟩ := map_eq_some_iff.mp fillLog_runs
  exact ⟨s, hn, log_never_overflows (boot_coherent _ _) (by decide +kernel) (Run.of_checked hs)⟩

/-- An operation that logs a block of its own once more finds the log full. -/
theorem relogging_panics : ((exec (checked Bounded step)
    (initSys (Fin 3) 2 (boot (fun _ _ => 0) fun _ _ => false))
      (fillLog ++ [.modify 0 100 fun _ => 1, .logWrite 0])).map fun s => s.panic) =
        some (some "too big a transaction") := by
  decide +kernel

end EafitOs.RedoLog
