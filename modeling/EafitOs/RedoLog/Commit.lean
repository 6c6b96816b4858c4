import EafitOs.RedoLog.Model

/-!
# Writes issued by commit and recovery

Each body writes one block through the cache, so a whole loop is known by the
list of its writes. The lists are computed from the cache contents before the
loop, which needs the home blocks to lie outside the log area.
-/

namespace EafitOs.RedoLog

open Foundation Disk Machine Function List

theorem getLE_putBlocks_of_le (hb : Block) (bs : List Nat) {i o : Nat}
    (ho : o + 4 ≤ 4 + 4 * i) (hfit : 4 + 4 * (i + bs.length) ≤ bsize) :
    getLE (putBlocks hb i bs) o 4 = getLE hb o 4 := by
  induction bs generalizing hb i with
  | nil => rfl
  | cons b rest ih =>
    simp only [length_cons] at hfit
    rw [putBlocks, ih (setLE hb (4 + 4 * i) 4 b) (by omega) (by omega)]
    exact getLE_setLE_of_disjoint hb b (by omega) (by omega) (by omega)

theorem getLE_putBlocks (hb : Block) (bs : List Nat) {i j : Nat} (hj : j < bs.length)
    (hfit : 4 + 4 * (i + bs.length) ≤ bsize) :
    getLE (putBlocks hb i bs) (4 + 4 * (i + j)) 4 = bs[j] % 2 ^ 32 := by
  induction bs generalizing hb i j with
  | nil => simp at hj
  | cons b rest ih =>
    simp only [length_cons] at hfit hj
    rw [putBlocks]
    cases j with
    | zero =>
      rw [getLE_putBlocks_of_le _ _ (by omega) (by omega), Nat.add_zero,
        getLE_setLE hb b (by omega)]
      norm_num
    | succ j =>
      have h := ih (setLE hb (4 + 4 * i) 4 b) (i := i + 1) (j := j) (by omega) (by omega)
      rw [show i + (j + 1) = i + 1 + j by omega, h]
      rfl

theorem headN_encodeHead (hb : Block) (lh : LogHeader) : headN (encodeHead hb lh) = lh.n := by
  have hbound : lh.block.length ≤ 30 := lh.bound
  have hsize : bsize = 1024 := rfl
  have hget : getLE (encodeHead hb lh) 0 4 = lh.n := by
    rw [encodeHead, getLE_putBlocks_of_le _ _ (by omega) (by omega),
      getLE_setLE hb lh.n (by omega)]
    exact Nat.mod_eq_of_lt (by simp only [LogHeader.n]; omega)
  rw [headN, hget, if_pos (by simp only [LogHeader.n]; omega)]

theorem decodeHead_encodeHead (hb : Block) (lh : LogHeader) :
    decodeHead (encodeHead hb lh) = some lh := by
  have hbound : lh.block.length ≤ 30 := lh.bound
  have hsize : bsize = 1024 := rfl
  have hn : (headN (encodeHead hb lh)).toNat = lh.n := by rw [headN_encodeHead]; simp
  have hblocks : headBlocks (encodeHead hb lh) lh.n = lh.block := by
    apply ext_getElem
    · simp [headBlocks, LogHeader.n]
    · intro j hj hj'
      have hget := getLE_putBlocks (setLE hb 0 4 lh.n) lh.block (i := 0) hj' (by omega)
      rw [Nat.zero_add, Nat.mod_eq_of_lt (lh.fits _ (getElem_mem hj'))] at hget
      simpa [headBlocks, encodeHead] using hget
  simp only [decodeHead, hn, hblocks]
  exact dif_pos lh.bound

theorem decodeHead_of_headN_eq_zero {hb : Block} (h : headN hb = 0) :
    decodeHead hb = some LogHeader.empty := by
  have hn : (headN hb).toNat = 0 := by simp [h]
  simp only [decodeHead, hn]
  rfl

def home (lg : Log) (i : Nat) : Nat := lg.lh.block.getD i 0

theorem writeHead_wroteThrough (lg : Log) {m : Machine} (hc : m.Coherent) :
    WroteThrough m (writeHead lg m) [(lg.start, encodeHead (m.view lg.start) lg.lh)] [] := by
  have h := (Holding.refl m).bread hc lg.start
  rw [← bread_data hc lg.start]
  refine h.wroteThrough hc rfl rfl rfl ?_ (by simp)
  intro x
  simp only [writeHead, brelse_refcnt, bwrite_refcnt, fill_refcnt, h.refcnt, count_nil]
  omega

theorem writeLogAt_wroteThrough (lg : Log) {m : Machine} (hc : m.Coherent) (tail : Nat) :
    WroteThrough m (writeLogAt lg m tail)
      [(lg.start + tail + 1, m.view (home lg tail))] [] := by
  have h₁ := (Holding.refl m).bread hc (lg.start + tail + 1)
  have h₂ := h₁.bread hc (home lg tail)
  have hdata : ((m.bread (lg.start + tail + 1)).2.bread (home lg tail)).1 =
      m.view (home lg tail) := by
    rw [bread_data (h₁.coherent hc), h₁.view]
  rw [← hdata]
  refine h₂.wroteThrough hc rfl rfl rfl ?_ (by simp)
  intro x
  simp only [writeLogAt, brelse_refcnt, bwrite_refcnt, fill_refcnt, ← home.eq_def, h₂.refcnt,
    count_cons, count_nil]
  omega

theorem installTransAt_wroteThrough (lg : Log) (recovering : Bool) {m : Machine}
    (hc : m.Coherent) (tail : Nat) :
    WroteThrough m (installTransAt lg recovering m tail)
      [(home lg tail, m.view (lg.start + tail + 1))]
      (if recovering then [] else [home lg tail]) := by
  have h₁ := (Holding.refl m).bread hc (lg.start + tail + 1)
  have h₂ := h₁.bread hc (home lg tail)
  rw [← bread_data hc (lg.start + tail + 1)]
  cases recovering with
  | true =>
    refine h₂.wroteThrough hc rfl rfl rfl ?_ (by simp)
    intro x
    simp only [installTransAt, if_true, brelse_refcnt, bwrite_refcnt, fill_refcnt,
      ← home.eq_def, h₂.refcnt, count_cons, count_nil]
    omega
  | false =>
    refine h₂.wroteThrough hc rfl rfl rfl ?_ (by simp)
    intro x
    simp only [installTransAt, Bool.false_eq_true, if_false, bunpin, brelse_refcnt,
      bwrite_refcnt, fill_refcnt, ← home.eq_def, h₂.refcnt, count_cons, count_nil]
    omega

def HomesOutside (lg : Log) : Prop := ∀ b ∈ lg.lh.block, ¬inLog lg.start b

instance (lg : Log) : Decidable (HomesOutside lg) :=
  inferInstanceAs (Decidable (∀ b ∈ lg.lh.block, ¬inLog lg.start b))

theorem home_mem {lg : Log} {i : Nat} (hi : i < lg.lh.n) : home lg i ∈ lg.lh.block := by
  have hi' : i < lg.lh.block.length := hi
  simp [home, getD_eq_getElem?_getD, List.getElem?_eq_getElem hi']

theorem inLog_slot {lg : Log} {i : Nat} (hi : i < lg.lh.n) : inLog lg.start (lg.start + i + 1) := by
  have hi' : i < lg.lh.block.length := hi
  have hbound := lg.lh.bound
  constructor <;> omega

/-- The writes of the first `k` iterations of `write_log`, given the cache before it. -/
def logWrites (lg : Log) (v : Nat → Block) (k : Nat) : List (Nat × Block) :=
  (List.range k).map fun i => (lg.start + i + 1, v (home lg i))

/-- The writes of the first `k` iterations of `install_trans`, given the cache before it. -/
def installWrites (lg : Log) (v : Nat → Block) (k : Nat) : List (Nat × Block) :=
  (List.range k).map fun i => (home lg i, v (lg.start + i + 1))

theorem logWrites_succ (lg : Log) (v : Nat → Block) (k : Nat) :
    logWrites lg v (k + 1) = logWrites lg v k ++ [(lg.start + k + 1, v (home lg k))] := by
  simp [logWrites, range_succ]

theorem installWrites_succ (lg : Log) (v : Nat → Block) (k : Nat) :
    installWrites lg v (k + 1) = installWrites lg v k ++ [(home lg k, v (lg.start + k + 1))] := by
  simp [installWrites, range_succ]

theorem applyWrites_logWrites_of_not_inLog {lg : Log} (d v : Nat → Block) {k b : Nat}
    (hk : k ≤ lg.lh.n) (hb : ¬inLog lg.start b) :
    applyWrites d (logWrites lg v k) b = d b := by
  apply applyWrites_of_forall_ne
  intro w hw heq
  obtain ⟨i, hi, rfl⟩ := mem_map.mp hw
  exact hb (heq ▸ inLog_slot (lt_of_lt_of_le (mem_range.mp hi) hk))

theorem applyWrites_installWrites_of_inLog {lg : Log} (ho : HomesOutside lg) (d v : Nat → Block)
    {k b : Nat} (hk : k ≤ lg.lh.n) (hb : inLog lg.start b) :
    applyWrites d (installWrites lg v k) b = d b := by
  apply applyWrites_of_forall_ne
  intro w hw heq
  obtain ⟨i, hi, rfl⟩ := mem_map.mp hw
  have hhome : home lg i = b := heq
  exact ho _ (home_mem (lt_of_lt_of_le (mem_range.mp hi) hk)) (hhome ▸ hb)

theorem writeLog_wroteThrough {lg : Log} (ho : HomesOutside lg) {m : Machine} (hc : m.Coherent)
    {k : Nat} (hk : k ≤ lg.lh.n) :
    WroteThrough m ((List.range k).foldl (writeLogAt lg) m) (logWrites lg m.view k) [] := by
  induction k with
  | zero => exact WroteThrough.refl hc
  | succ k ih =>
    have hprev := ih (by omega)
    have hbody := writeLogAt_wroteThrough lg hprev.coherent k
    have hhome : ¬inLog lg.start (home lg k) := ho _ (home_mem (by omega))
    rw [hprev.view, applyWrites_logWrites_of_not_inLog _ _ (by omega) hhome] at hbody
    rw [range_succ, foldl_append, foldl_cons, foldl_nil, logWrites_succ]
    simpa using hprev.trans hbody

theorem installTrans_wroteThrough {lg : Log} (ho : HomesOutside lg) (recovering : Bool)
    {m : Machine} (hc : m.Coherent) {k : Nat} (hk : k ≤ lg.lh.n) :
    WroteThrough m ((List.range k).foldl (installTransAt lg recovering) m)
      (installWrites lg m.view k)
      (if recovering then [] else (List.range k).map (home lg)) := by
  induction k with
  | zero => cases recovering <;> exact WroteThrough.refl hc
  | succ k ih =>
    have hprev := ih (by omega)
    have hbody := installTransAt_wroteThrough lg recovering hprev.coherent k
    rw [hprev.view, applyWrites_installWrites_of_inLog ho _ _ (by omega)
      (inLog_slot (by omega))] at hbody
    rw [range_succ, foldl_append, foldl_cons, foldl_nil, installWrites_succ]
    cases recovering <;> simpa using hprev.trans hbody

def headWrite (lg : Log) (v : Nat → Block) : Nat × Block :=
  (lg.start, encodeHead (v lg.start) lg.lh)

/-- The header block written with `n = 0`. -/
def eraseWrite (lg : Log) (v : Nat → Block) : Nat × Block :=
  (lg.start, encodeHead (v lg.start) LogHeader.empty)

/-- All writes of a commit: the log, the header, the homes, the erased header. -/
def commitWrites (lg : Log) (v : Nat → Block) : List (Nat × Block) :=
  logWrites lg v lg.lh.n ++ [headWrite lg v] ++
    (List.range lg.lh.n).map (fun i => (home lg i, v (home lg i))) ++
    [eraseWrite lg (update v lg.start (headWrite lg v).2)]

/-- All writes of a recovery that reads `lg.lh` from the on-disk header. -/
def recoverWrites (lg : Log) (v : Nat → Block) : List (Nat × Block) :=
  installWrites lg v lg.lh.n ++ [eraseWrite lg v]

theorem inLog_start (lg : Log) : inLog lg.start lg.start := by
  constructor <;> omega

theorem applyWrites_logWrites_slot {lg : Log} (d v : Nat → Block) {i k : Nat} (hi : i < k) :
    applyWrites d (logWrites lg v k) (lg.start + i + 1) = v (home lg i) := by
  induction k with
  | zero => omega
  | succ k ih =>
    rw [logWrites_succ, applyWrites_concat]
    by_cases hik : i = k
    · subst hik
      simp
    · rw [update_of_ne (by omega), ih (by omega)]

theorem commit_wroteThrough {lg : Log} (ho : HomesOutside lg) {m : Machine} (hc : m.Coherent)
    (hn : 0 < lg.lh.n) :
    WroteThrough m (commit lg m).2 (commitWrites lg m.view)
      ((List.range lg.lh.n).map (home lg)) := by
  have hlog := writeLog_wroteThrough ho hc (Nat.le_refl lg.lh.n)
  have hhead := writeHead_wroteThrough lg hlog.coherent
  have hstart : applyWrites m.view (logWrites lg m.view lg.lh.n) lg.start = m.view lg.start := by
    apply applyWrites_of_forall_ne
    intro w hw
    obtain ⟨i, _, rfl⟩ := mem_map.mp hw
    show lg.start + i + 1 ≠ lg.start
    omega
  rw [hlog.view, hstart] at hhead
  have hwritten := hlog.trans hhead
  have hinst := installTrans_wroteThrough ho false hwritten.coherent (Nat.le_refl lg.lh.n)
  -- Every log slot still holds the cached contents of its home block.
  have hslots : installWrites lg (writeHead lg (writeLog lg m)).view lg.lh.n =
      (List.range lg.lh.n).map (fun i => (home lg i, m.view (home lg i))) := by
    apply map_congr_left
    intro i hi
    have hview : (writeHead lg (writeLog lg m)).view =
        applyWrites m.view (logWrites lg m.view lg.lh.n ++ [headWrite lg m.view]) := hwritten.view
    rw [hview, applyWrites_concat, headWrite, update_of_ne (by omega),
      applyWrites_logWrites_slot m.view m.view (mem_range.mp hi)]
  have hdone := hwritten.trans hinst
  have herase := writeHead_wroteThrough { lg with lh := LogHeader.empty } hdone.coherent
  have hview : (installTrans lg false (writeHead lg (writeLog lg m))).view lg.start =
      (headWrite lg m.view).2 := by
    have h := congrFun hinst.view lg.start
    rw [applyWrites_installWrites_of_inLog ho _ _ (Nat.le_refl _) (inLog_start lg),
      hwritten.view, applyWrites_concat] at h
    simpa [installTrans, writeLog, headWrite] using h
  have hall := hdone.trans herase
  have hres : (commit lg m).2 = writeHead { lg with lh := LogHeader.empty }
      (installTrans lg false (writeHead lg (writeLog lg m))) := by
    simp [commit, hn]
  have hws : commitWrites lg m.view =
      logWrites lg m.view lg.lh.n ++ [(lg.start, encodeHead (m.view lg.start) lg.lh)] ++
        installWrites lg (writeHead lg (writeLog lg m)).view lg.lh.n ++
        [(lg.start, encodeHead ((installTrans lg false
          (writeHead lg (writeLog lg m))).view lg.start) LogHeader.empty)] := by
    rw [hslots, hview]
    simp [commitWrites, headWrite, eraseWrite]
  rw [hres, hws]
  simpa [installTrans, writeLog] using hall

theorem readHead_eq {lg : Log} {m : Machine} (hc : m.Coherent) {lh : LogHeader}
    (hd : decodeHead (m.view lg.start) = some lh) :
    ∃ m', readHead lg m = some ({ lg with lh }, m') ∧ WroteThrough m m' [] [] := by
  have h := (Holding.refl m).bread hc lg.start
  refine ⟨(m.bread lg.start).2.brelse lg.start, ?_, ?_⟩
  · simp [readHead, bread_data hc, hd]
  · have hcnt : ∀ x, ((m.bread lg.start).2.brelse lg.start).refcnt x = m.refcnt x := by
      intro x
      rw [brelse_refcnt, h.refcnt]
      omega
    refine ⟨h.disk, h.view, by simpa [brelse] using h.trace, by simpa using hcnt, ?_⟩
    intro x hx
    have hv : ((m.bread lg.start).2.brelse lg.start).view x = m.view x := congrFun h.view x
    rw [hv, hc x (by rw [← hcnt x, hx])]
    exact (congrFun h.disk x).symm

theorem recoverFromLog_eq {lg : Log} {m : Machine} (hc : m.Coherent) {lh : LogHeader}
    (hd : decodeHead (m.view lg.start) = some lh) (ho : HomesOutside { lg with lh }) :
    ∃ m', recoverFromLog lg m = some ({ lg with lh := LogHeader.empty }, m') ∧
      WroteThrough m m' (recoverWrites { lg with lh } m.view) [] := by
  obtain ⟨m₁, hread, hw₁⟩ := readHead_eq hc hd
  have hinst := installTrans_wroteThrough ho true hw₁.coherent (Nat.le_refl lh.n)
  have hboth := hw₁.trans hinst
  have herase := writeHead_wroteThrough { lg with lh := LogHeader.empty } hboth.coherent
  have hstart : (installTrans { lg with lh } true m₁).view lg.start = m.view lg.start := by
    have h := congrFun hinst.view lg.start
    rw [applyWrites_installWrites_of_inLog ho _ _ (Nat.le_refl _)
      (inLog_start { lg with lh }), hw₁.view] at h
    exact h
  refine ⟨_, by rw [recoverFromLog, hread]; rfl, ?_⟩
  have hall := hboth.trans herase
  have hv : m₁.view = m.view := hw₁.view
  rw [hv] at hall
  have hws : recoverWrites { lg with lh } m.view =
      [] ++ installWrites { lg with lh } m.view lh.n ++
        [(lg.start, encodeHead ((installTrans { lg with lh } true m₁).view lg.start)
          LogHeader.empty)] := by
    rw [hstart]
    rfl
  rw [hws]
  exact hall

end EafitOs.RedoLog
