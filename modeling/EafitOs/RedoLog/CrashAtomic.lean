import EafitOs.RedoLog.Commit

/-!
# Crash atomicity of a commit

A power cut keeps a prefix of the writes issued so far and loses the cache. The disk is then in
one of three stages: the header is still empty and every home is old, the header commits the
transaction and the log holds every new block, or the header is empty again and every home is new.
-/

namespace EafitOs.RedoLog

open Foundation Disk Machine Function List

/-- The disk when only the first `k` writes issued between `m` and `m'` got there. -/
def cutDisk (m m' : Machine) (k : Nat) : Nat → Block :=
  applyWrites m.disk ((m'.trace.drop m.trace.length).take k)

theorem WroteThrough.cutDisk {m m' : Machine} {ws : List (Nat × Block)} {us : List Nat}
    (h : WroteThrough m m' ws us) (k : Nat) :
    cutDisk m m' k = applyWrites m.disk (ws.take k) := by
  rw [RedoLog.cutDisk, h.trace, drop_left]

/-- A boot whose recovery is cut after `k` of its writes. -/
structure CutBoot where
  k : Nat
  recycled : Nat → Nat → Bool

def recoverCut (start : Nat) (d : Nat → Block) (c : CutBoot) : Option (Nat → Block) :=
  (recoverFromLog (initlog start) (boot d c.recycled)).map fun r =>
    cutDisk (boot d c.recycled) r.2 c.k

def recoverDisk (start : Nat) (d : Nat → Block) (recycled : Nat → Nat → Bool) :
    Option (Nat → Block) :=
  (recoverFromLog (initlog start) (boot d recycled)).map fun r => r.2.disk

def SameOutside (start : Nat) (d d' : Nat → Block) : Prop := ∀ b, ¬inLog start b → d b = d' b

/-- The disk the transaction is meant to produce: cached contents at its home blocks. -/
def transaction (lg : Log) (m : Machine) : Nat → Block :=
  fun b => if b ∈ lg.lh.block then m.view b else m.disk b

structure Idle (start : Nat) (d' d : Nat → Block) : Prop where
  head : headN (d start) = 0
  same : SameOutside start d d'

structure Committed (lg : Log) (pre post d : Nat → Block) : Prop where
  head : decodeHead (d lg.start) = some lg.lh
  slots : ∀ i, i < lg.lh.n → d (lg.start + i + 1) = post (home lg i)
  homes : ∀ b ∈ lg.lh.block, d b = pre b ∨ d b = post b
  rest : ∀ b, ¬inLog lg.start b → b ∉ lg.lh.block → d b = pre b

section Stages

variable {lg : Log} {pre post d : Nat → Block}

theorem Committed.install (h : Committed lg pre post d) (ho : HomesOutside lg) {i : Nat}
    (hi : i < lg.lh.n) :
    Committed lg pre post (update d (home lg i) (post (home lg i))) := by
  have hin : ∀ {b}, inLog lg.start b → b ≠ home lg i := by
    intro b hb heq
    exact ho _ (home_mem hi) (heq ▸ hb)
  constructor
  · rw [update_of_ne (hin (inLog_start lg))]
    exact h.head
  · intro j hj
    rw [update_of_ne (hin (inLog_slot hj))]
    exact h.slots j hj
  · intro b hb
    by_cases hbi : b = home lg i
    · subst hbi
      simp
    · rw [update_of_ne hbi]
      exact h.homes b hb
  · intro b hb hnot
    have hne : b ≠ home lg i := fun heq => hnot (heq ▸ home_mem hi)
    rw [update_of_ne hne]
    exact h.rest b hb hnot

/-- The home writes of a committed transaction, in the order of the header. -/
def homeWrites (lg : Log) (post : Nat → Block) (k : Nat) : List (Nat × Block) :=
  (List.range k).map fun i => (home lg i, post (home lg i))

theorem homeWrites_succ (lg : Log) (post : Nat → Block) (k : Nat) :
    homeWrites lg post (k + 1) = homeWrites lg post k ++ [(home lg k, post (home lg k))] := by
  simp [homeWrites, range_succ]

theorem Committed.installed (h : Committed lg pre post d) (ho : HomesOutside lg) {k : Nat}
    (hk : k ≤ lg.lh.n) : Committed lg pre post (applyWrites d (homeWrites lg post k)) := by
  induction k with
  | zero => exact h
  | succ k ih =>
    rw [homeWrites_succ, applyWrites_concat]
    exact (ih (by omega)).install ho (by omega)

theorem applyWrites_homeWrites_home (d post : Nat → Block) {i k : Nat} (hi : i < k) :
    applyWrites d (homeWrites lg post k) (home lg i) = post (home lg i) := by
  induction k with
  | zero => omega
  | succ k ih =>
    rw [homeWrites_succ, applyWrites_concat]
    by_cases heq : home lg i = home lg k
    · simp [heq]
    · rw [update_of_ne heq]
      have hik : i ≠ k := fun h => heq (by rw [h])
      exact ih (by omega)

theorem exists_home {b : Nat} (hb : b ∈ lg.lh.block) : ∃ i, i < lg.lh.n ∧ home lg i = b := by
  obtain ⟨i, hi, rfl⟩ := getElem_of_mem hb
  refine ⟨i, hi, ?_⟩
  simp [home, getD_eq_getElem?_getD, List.getElem?_eq_getElem hi]

theorem Committed.erase (h : Committed lg pre post d) (ho : HomesOutside lg)
    (hpost : ∀ b, b ∉ lg.lh.block → post b = pre b) (hb : Block) :
    Idle lg.start post (update (applyWrites d (homeWrites lg post lg.lh.n))
      lg.start (encodeHead hb LogHeader.empty)) := by
  have hdone := h.installed ho (Nat.le_refl lg.lh.n)
  constructor
  · rw [update_self, headN_encodeHead]
    rfl
  · intro b hout
    have hne : b ≠ lg.start := fun heq => hout (heq ▸ inLog_start lg)
    rw [update_of_ne hne]
    by_cases hmem : b ∈ lg.lh.block
    · obtain ⟨i, hi, rfl⟩ := exists_home hmem
      exact applyWrites_homeWrites_home d post hi
    · rw [hdone.rest b hout hmem, hpost b hmem]

theorem Idle.erase {start : Nat} {d' : Nat → Block} (h : Idle start d' d) (hb : Block) :
    Idle start d' (update d start (encodeHead hb LogHeader.empty)) := by
  constructor
  · rw [update_self, headN_encodeHead]
    rfl
  · intro b hout
    have hne : b ≠ start := by
      intro heq
      exact hout ⟨heq.ge, by omega⟩
    rw [update_of_ne hne]
    exact h.same b hout

def NewStage (lg : Log) (pre post d : Nat → Block) : Prop :=
  Committed lg pre post d ∨ Idle lg.start post d

end Stages

theorem take_append_singleton {α : Type*} (ws : List α) (w : α) (k : Nat) :
    (ws ++ [w]).take k = ws.take k ∨ (ws ++ [w]).take k = ws ++ [w] := by
  by_cases hk : k ≤ ws.length
  · exact Or.inl (take_append_of_le_length hk)
  · exact Or.inr (take_of_length_le (by simp; omega))

theorem homeWrites_take (lg : Log) (post : Nat → Block) (k : Nat) :
    ∃ j, j ≤ lg.lh.n ∧ (homeWrites lg post lg.lh.n).take k = homeWrites lg post j := by
  refine ⟨min k lg.lh.n, Nat.min_le_right _ _, ?_⟩
  simp [homeWrites, ← map_take, take_range]

theorem Idle.recover {start : Nat} {d' d : Nat → Block} (h : Idle start d' d)
    (recycled : Nat → Nat → Bool) :
    ∃ r, recoverFromLog (initlog start) (boot d recycled) = some r ∧
      Idle start d' r.2.disk ∧ ∀ k, Idle start d' (cutDisk (boot d recycled) r.2 k) := by
  have hd : decodeHead ((boot d recycled).view (initlog start).start) = some LogHeader.empty :=
    decodeHead_of_headN_eq_zero h.head
  obtain ⟨m', heq, hw⟩ := recoverFromLog_eq (boot_coherent d recycled) hd
    (by intro b hb; simp [LogHeader.empty] at hb)
  refine ⟨_, heq, ?_, ?_⟩
  · rw [hw.disk]
    exact h.erase _
  · intro k
    rw [WroteThrough.cutDisk hw]
    rcases take_append_singleton ([] : List (Nat × Block)) (eraseWrite (initlog start) d) k with
      hk | hk
    · have htake : (recoverWrites (initlog start) d).take k = [] := hk.trans take_nil
      exact htake ▸ h
    · have htake : (recoverWrites (initlog start) d).take k = [eraseWrite (initlog start) d] := hk
      exact htake ▸ h.erase _

theorem Committed.recover {lg : Log} {pre post d : Nat → Block} (h : Committed lg pre post d)
    (ho : HomesOutside lg) (hpost : ∀ b, b ∉ lg.lh.block → post b = pre b)
    (recycled : Nat → Nat → Bool) :
    ∃ r, recoverFromLog (initlog lg.start) (boot d recycled) = some r ∧
      Idle lg.start post r.2.disk ∧
      ∀ k, NewStage lg pre post (cutDisk (boot d recycled) r.2 k) := by
  obtain ⟨m', heq, hw⟩ := @recoverFromLog_eq (initlog lg.start) _ (boot_coherent d recycled) _
    h.head ho
  have hws : recoverWrites { initlog lg.start with lh := lg.lh } (boot d recycled).view =
      homeWrites lg post lg.lh.n ++ [eraseWrite lg d] := by
    have hinst : installWrites lg d lg.lh.n = homeWrites lg post lg.lh.n := by
      apply map_congr_left
      intro i hi
      rw [h.slots i (mem_range.mp hi)]
    exact congrArg (· ++ [eraseWrite lg d]) hinst
  rw [hws] at hw
  have hfinish : Idle lg.start post
      (applyWrites d (homeWrites lg post lg.lh.n ++ [eraseWrite lg d])) := by
    rw [applyWrites_concat]
    exact h.erase ho hpost _
  refine ⟨_, heq, ?_, ?_⟩
  · rw [hw.disk]
    exact hfinish
  · intro k
    rw [WroteThrough.cutDisk hw]
    rcases take_append_singleton (homeWrites lg post lg.lh.n) (eraseWrite lg d) k with hk | hk
    · obtain ⟨j, hj, hjk⟩ := homeWrites_take lg post k
      rw [hk, hjk]
      exact Or.inl (h.installed ho hj)
    · rw [hk]
      exact Or.inr hfinish

section Boots

variable {lg : Log} {pre post : Nat → Block}

theorem foldlM_recoverCut {start : Nat} {P : (Nat → Block) → Prop}
    (hstep : ∀ d c, P d → ∃ d', recoverCut start d c = some d' ∧ P d') (cuts : List CutBoot)
    {d : Nat → Block} (hd : P d) :
    ∃ d', cuts.foldlM (recoverCut start) d = some d' ∧ P d' := by
  induction cuts generalizing d with
  | nil => exact ⟨d, rfl, hd⟩
  | cons c rest ih =>
    obtain ⟨d₁, h₁, hd₁⟩ := hstep d c hd
    obtain ⟨d₂, h₂, hd₂⟩ := ih hd₁
    exact ⟨d₂, by simp [foldlM_cons, h₁, h₂], hd₂⟩

theorem Idle.recoverCut {start : Nat} {d' d : Nat → Block} (h : Idle start d' d) (c : CutBoot) :
    ∃ d₁, recoverCut start d c = some d₁ ∧ Idle start d' d₁ := by
  obtain ⟨r, hr, _, hcut⟩ := h.recover c.recycled
  exact ⟨_, by rw [RedoLog.recoverCut, hr]; rfl, hcut c.k⟩

theorem NewStage.recoverCut {d : Nat → Block} (h : NewStage lg pre post d) (ho : HomesOutside lg)
    (hpost : ∀ b, b ∉ lg.lh.block → post b = pre b) (c : CutBoot) :
    ∃ d₁, recoverCut lg.start d c = some d₁ ∧ NewStage lg pre post d₁ := by
  rcases h with h | h
  · obtain ⟨r, hr, _, hcut⟩ := h.recover ho hpost c.recycled
    exact ⟨_, by rw [RedoLog.recoverCut, hr]; rfl, hcut c.k⟩
  · obtain ⟨d₁, hd₁, hidle⟩ := h.recoverCut c
    exact ⟨d₁, hd₁, Or.inr hidle⟩

theorem Idle.recoverDisk {start : Nat} {d' d : Nat → Block} (h : Idle start d' d)
    (recycled : Nat → Nat → Bool) :
    ∃ d₁, recoverDisk start d recycled = some d₁ ∧ Idle start d' d₁ := by
  obtain ⟨r, hr, hdone, _⟩ := h.recover recycled
  exact ⟨_, by rw [RedoLog.recoverDisk, hr]; rfl, hdone⟩

theorem NewStage.recoverDisk {d : Nat → Block} (h : NewStage lg pre post d) (ho : HomesOutside lg)
    (hpost : ∀ b, b ∉ lg.lh.block → post b = pre b) (recycled : Nat → Nat → Bool) :
    ∃ d₁, recoverDisk lg.start d recycled = some d₁ ∧ Idle lg.start post d₁ := by
  rcases h with h | h
  · obtain ⟨r, hr, hdone, _⟩ := h.recover ho hpost recycled
    exact ⟨_, by rw [RedoLog.recoverDisk, hr]; rfl, hdone⟩
  · exact h.recoverDisk recycled

end Boots

section Commit

variable {lg : Log} {m : Machine}

theorem commitWrites_eq (lg : Log) (m : Machine) :
    commitWrites lg m.view = logWrites lg m.view lg.lh.n ++ headWrite lg m.view ::
      (homeWrites lg (transaction lg m) lg.lh.n ++
        [eraseWrite lg (update m.view lg.start (headWrite lg m.view).2)]) := by
  have hhome : homeWrites lg (transaction lg m) lg.lh.n =
      (List.range lg.lh.n).map fun i => (home lg i, m.view (home lg i)) := by
    apply map_congr_left
    intro i hi
    simp [transaction, home_mem (mem_range.mp hi)]
  simp [commitWrites, hhome]

theorem idle_of_cut_log (hidle : headN (m.disk lg.start) = 0) (k : Nat) :
    Idle lg.start m.disk (applyWrites m.disk ((logWrites lg m.view lg.lh.n).take k)) := by
  have hslot : ∀ w ∈ (logWrites lg m.view lg.lh.n).take k,
      w.1 ≠ lg.start ∧ inLog lg.start w.1 := by
    intro w hw
    obtain ⟨i, hi, rfl⟩ := mem_map.mp (mem_of_mem_take hw)
    exact ⟨by show lg.start + i + 1 ≠ lg.start; omega, inLog_slot (mem_range.mp hi)⟩
  constructor
  · rw [applyWrites_of_forall_ne _ _ _ (fun w hw => (hslot w hw).1)]
    exact hidle
  · intro b hb
    exact applyWrites_of_forall_ne _ _ _ (fun w hw heq => hb (heq ▸ (hslot w hw).2))

theorem committed_of_head (ho : HomesOutside lg) :
    Committed lg m.disk (transaction lg m)
      (applyWrites m.disk (logWrites lg m.view lg.lh.n ++ [headWrite lg m.view])) := by
  rw [applyWrites_concat]
  have hout : ∀ b, ¬inLog lg.start b →
      update (applyWrites m.disk (logWrites lg m.view lg.lh.n))
        (headWrite lg m.view).1 (headWrite lg m.view).2 b = m.disk b := by
    intro b hb
    have hne : b ≠ (headWrite lg m.view).1 := fun heq => hb (heq ▸ inLog_start lg)
    rw [update_of_ne hne, applyWrites_logWrites_of_not_inLog _ _ (Nat.le_refl _) hb]
  constructor
  · simp [headWrite, decodeHead_encodeHead]
  · intro i hi
    have hne : lg.start + i + 1 ≠ (headWrite lg m.view).1 := by
      show lg.start + i + 1 ≠ lg.start
      omega
    rw [update_of_ne hne, applyWrites_logWrites_slot _ _ hi]
    simp [transaction, home_mem hi]
  · intro b hb
    exact Or.inl (hout b (ho b hb))
  · intro b hb _
    exact hout b hb

theorem newStage_of_cut (ho : HomesOutside lg) (k : Nat) :
    NewStage lg m.disk (transaction lg m)
      (applyWrites m.disk ((commitWrites lg m.view).take (lg.lh.n + 1 + k))) := by
  have hpost : ∀ b, b ∉ lg.lh.block → transaction lg m b = m.disk b := by
    intro b hb
    simp [transaction, hb]
  have hcom := committed_of_head (m := m) ho
  have hlen : (logWrites lg m.view lg.lh.n ++ [headWrite lg m.view]).length = lg.lh.n + 1 := by
    simp [logWrites]
  rw [commitWrites_eq, append_cons, ← hlen, take_length_add_append, applyWrites_append]
  rcases take_append_singleton (homeWrites lg (transaction lg m) lg.lh.n)
    (eraseWrite lg (update m.view lg.start (headWrite lg m.view).2)) k with hk | hk
  · obtain ⟨j, hj, hjk⟩ := homeWrites_take lg (transaction lg m) k
    rw [hk, hjk]
    exact Or.inl (hcom.installed ho hj)
  · rw [hk, applyWrites_concat]
    exact Or.inr (hcom.erase ho hpost _)

theorem commit_cut (hc : m.Coherent) (hidle : headN (m.disk lg.start) = 0)
    (ho : HomesOutside lg) (k : Nat) :
    (k ≤ lg.lh.n → Idle lg.start m.disk (cutDisk m (commit lg m).2 k)) ∧
      (lg.lh.n < k →
        NewStage lg m.disk (transaction lg m) (cutDisk m (commit lg m).2 k)) := by
  by_cases hn : 0 < lg.lh.n
  · have hw := commit_wroteThrough ho hc hn
    rw [WroteThrough.cutDisk hw]
    constructor
    · intro hk
      have htake : (commitWrites lg m.view).take k = (logWrites lg m.view lg.lh.n).take k := by
        rw [commitWrites_eq, take_append_of_le_length (by simpa [logWrites] using hk)]
      rw [htake]
      exact idle_of_cut_log hidle k
    · intro hk
      obtain ⟨j, rfl⟩ : ∃ j, k = lg.lh.n + 1 + j := ⟨k - (lg.lh.n + 1), by omega⟩
      exact newStage_of_cut ho j
  · -- An empty transaction issues no write at all.
    have hnil : lg.lh.block = [] := length_eq_zero_iff.mp (by simpa [LogHeader.n] using hn)
    have htrace : cutDisk m (commit lg m).2 k = m.disk := by simp [cutDisk, commit, hn]
    have hpost : transaction lg m = m.disk := by
      funext b
      simp [transaction, hnil]
    rw [htrace, hpost]
    have hold : Idle lg.start m.disk m.disk := ⟨hidle, fun _ _ => rfl⟩
    exact ⟨fun _ => hold, fun _ => Or.inr hold⟩

/-- Cut a commit after any number of writes, then cut any number of recoveries,
then let one finish. The log is empty again and every block outside it is the
old one, or every block outside it is the new one. It is the new one if the cut
commit got past its write number `n`, which is the first header write. -/
theorem commit_crash_atomic (lg : Log) (m : Machine) (hc : m.Coherent)
    (hidle : headN (m.disk lg.start) = 0) (ho : HomesOutside lg) (k : Nat)
    (cuts : List CutBoot) (recycled : Nat → Nat → Bool) :
    ∃ d₁ d₂, cuts.foldlM (recoverCut lg.start) (cutDisk m (commit lg m).2 k) = some d₁ ∧
      recoverDisk lg.start d₁ recycled = some d₂ ∧ headN (d₂ lg.start) = 0 ∧
      (SameOutside lg.start d₂ m.disk ∨ SameOutside lg.start d₂ (transaction lg m)) ∧
      (lg.lh.n < k → SameOutside lg.start d₂ (transaction lg m)) := by
  have hpost : ∀ b, b ∉ lg.lh.block → transaction lg m b = m.disk b := by
    intro b hb
    simp [transaction, hb]
  have hcut := commit_cut hc hidle ho k
  by_cases hk : k ≤ lg.lh.n
  · obtain ⟨d₁, h₁, hd₁⟩ := foldlM_recoverCut
      (fun d c (hd : Idle lg.start m.disk d) => hd.recoverCut c) cuts (hcut.1 hk)
    obtain ⟨d₂, h₂, hd₂⟩ := hd₁.recoverDisk recycled
    exact ⟨d₁, d₂, h₁, h₂, hd₂.head, Or.inl hd₂.same, fun h => absurd hk (by omega)⟩
  · obtain ⟨d₁, h₁, hd₁⟩ := foldlM_recoverCut
      (fun d c hd => NewStage.recoverCut hd ho hpost c) cuts (hcut.2 (by omega))
    obtain ⟨d₂, h₂, hd₂⟩ := hd₁.recoverDisk ho hpost recycled
    exact ⟨d₁, d₂, h₁, h₂, hd₂.head, Or.inr hd₂.same, fun _ => hd₂.same⟩

/-- A transaction that has logged block 50 alone, filled with sevens. -/
def oneBlockLog : Log where
  start := 2
  outstanding := 0
  committing := true
  lh := ⟨[50], by decide, by decide⟩

@[inherit_doc oneBlockLog]
def oneBlockMachine : Machine :=
  ((boot (fun _ _ => 0) fun _ _ => false).bread 50).2.fill 50 fun _ => 7

/-- A commit cut right after its header write and a recovery cut before its first
write still leave the sevens on the disk. -/
theorem commit_crash_atomic_one_block : ∃ d₁ d₂,
    [(⟨0, fun _ _ => false⟩ : CutBoot)].foldlM (recoverCut 2)
      (cutDisk oneBlockMachine (commit oneBlockLog oneBlockMachine).2 2) = some d₁ ∧
    recoverDisk 2 d₁ (fun _ _ => false) = some d₂ ∧ headN (d₂ 2) = 0 ∧ d₂ 50 = fun _ => 7 := by
  have hold := (Holding.refl _).bread (boot_coherent (fun _ _ => 0) fun _ _ => false) 50
  have hc : oneBlockMachine.Coherent := by
    intro b hb
    have hb' : b ≠ 50 := by
      rintro rfl
      simp [oneBlockMachine, hold.refcnt] at hb
    rw [show oneBlockMachine.disk = fun _ _ => 0 from hold.disk]
    simp [oneBlockMachine, hold.view, hb']
    rfl
  obtain ⟨d₁, d₂, h₁, h₂, hhead, _, hnew⟩ := commit_crash_atomic oneBlockLog oneBlockMachine hc
    (by decide +kernel) (by decide) 2 [⟨0, fun _ _ => false⟩] fun _ _ => false
  refine ⟨d₁, d₂, h₁, h₂, hhead, ?_⟩
  rw [hnew (by decide) 50 (by decide)]
  simp [transaction, oneBlockLog, oneBlockMachine]

end Commit

end EafitOs.RedoLog
