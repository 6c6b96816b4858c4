import EafitOs.Files.Calls
import EafitOs.Foundation.Tally
import Mathlib.Algebra.Order.Group.Multiset
import Mathlib.Tactic.Abel

/-!
# Balanced inode code

Every function of the inode layer gives back what it takes: references, locks and
operations are tokens, and the specification of a function says which tokens it needs
and which it leaves, on every way out.
-/

namespace EafitOs.Files

open Foundation Function
open Directory (InodeType Path Name skipelem ninode)

/-- A reference to an entry, the lock of an entry, or an operation that has begun. -/
inductive Token
  | ref (e : Entry)
  | lock (e : Entry)
  | op
  deriving DecidableEq

def ref (e : Entry) : Multiset Token := {.ref e}

def lock (e : Entry) : Multiset Token := {.lock e}

def op : Multiset Token := {.op}

def refTo : Option Entry → Multiset Token
  | none => 0
  | some e => ref e

structure Own (base : Entry → Nat) (h : Multiset Token) (t : Table) : Prop where
  refs : ∀ e, (t.inode e).ref = base e + h.count (.ref e)
  locks : ∀ e, t.locked.count e = h.count (.lock e)
  ops : t.begun = t.ended + h.count .op
  stray : t.stray = false
  unique : ∀ e e', 0 < (t.inode e).ref → 0 < (t.inode e').ref →
    (t.inode e).dev = (t.inode e').dev → (t.inode e).inum = (t.inode e').inum → e = e'

def Safe (e : String) : Prop :=
  e ≠ "filedup" ∧ e ≠ "fileclose"

section Specs

variable {base : Entry → Nat} {h : Multiset Token} {t : Table} {e : Entry}

@[simp] theorem count_ref_ref (e e' : Entry) :
    (ref e').count (.ref e) = if e = e' then 1 else 0 := by
  simp [ref, Multiset.count_singleton]

@[simp] theorem count_ref_lock (e e' : Entry) : (lock e').count (.ref e) = 0 := by
  simp [lock]

@[simp] theorem count_ref_op (e : Entry) : op.count (.ref e) = 0 := by
  simp [op]

@[simp] theorem count_lock_ref (e e' : Entry) : (ref e').count (.lock e) = 0 := by
  simp [ref]

@[simp] theorem count_lock_lock (e e' : Entry) :
    (lock e').count (.lock e) = if e = e' then 1 else 0 := by
  simp [lock, Multiset.count_singleton]

@[simp] theorem count_lock_op (e : Entry) : op.count (.lock e) = 0 := by
  simp [op]

@[simp] theorem count_op_ref (e : Entry) : (ref e).count .op = 0 := by
  simp [ref]

@[simp] theorem count_op_lock (e : Entry) : (lock e).count .op = 0 := by
  simp [lock]

@[simp] theorem count_op_op : op.count .op = 1 := by
  simp [op]

theorem ask_uses : Uses (Own base) Safe 0 ask fun _ => 0 :=
  fun _ _ hs => .ok ⟨hs.refs, hs.locks, hs.ops, hs.stray, hs.unique⟩

theorem beginOp_uses : Uses (Own base) Safe 0 beginOp fun _ => op := by
  intro h t hs
  refine .ok ⟨fun e => ?_, fun e => ?_, ?_, hs.stray, hs.unique⟩
  · simpa using hs.refs e
  · simpa using hs.locks e
  · have hops := hs.ops
    simp at hops ⊢
    omega

theorem endOp_uses : Uses (Own base) Safe op endOp fun _ => 0 := by
  intro h t hs
  refine .ok ⟨fun e => ?_, fun e => ?_, ?_, hs.stray, hs.unique⟩
  · simpa using hs.refs e
  · simpa using hs.locks e
  · have hops := hs.ops
    simp at hops ⊢
    omega

theorem Own.setRef {h' : Multiset Token} {n : Inode} (hs : Own base h t)
    (href : ∀ k, (update t.inode e n k).ref = base k + h'.count (.ref k))
    (hlock : ∀ k, h'.count (.lock k) = h.count (.lock k)) (hop : h'.count .op = h.count .op)
    (hunique : ∀ k, k ≠ e → 0 < n.ref → 0 < (t.inode k).ref → n.dev = (t.inode k).dev →
      n.inum ≠ (t.inode k).inum) :
    Own base h' { t with inode := update t.inode e n } := by
  refine ⟨href, fun k => ?_, ?_, hs.stray, fun k k' hk hk' hdev hinum => ?_⟩
  · rw [hlock]
    exact hs.locks k
  · rw [hop]
    exact hs.ops
  · by_cases hke : k = e
    · by_cases hke' : k' = e
      · rw [hke, hke']
      · subst hke
        simp only [update_self, update_of_ne hke'] at hk hk' hdev hinum
        exact absurd hinum (hunique k' hke' hk hk' hdev)
    · by_cases hke' : k' = e
      · subst hke'
        simp only [update_self, update_of_ne hke] at hk hk' hdev hinum
        exact absurd hinum.symm (hunique k hke hk' hk hdev.symm)
      · simp only [update_of_ne hke, update_of_ne hke'] at hk hk' hdev hinum
        exact hs.unique k k' hk hk' hdev hinum

theorem Own.setInode {n : Inode} (hs : Own base h t) (href : n.ref = (t.inode e).ref)
    (hdev : n.dev = (t.inode e).dev) (hinum : n.inum = (t.inode e).inum) :
    Own base h { t with inode := update t.inode e n } := by
  refine hs.setRef (fun k => ?_) (fun _ => rfl) rfl fun k hk hn hpos hd hi => ?_
  · rw [← hs.refs k]
    by_cases hke : k = e
    · rw [hke, update_self, href]
    · rw [update_of_ne hke]
  · exact hk (hs.unique k e hpos (href ▸ hn) (hd.symm.trans hdev) (hi.symm.trans hinum))

theorem Own.dup (hs : Own base h t) (hpos : 0 < (t.inode e).ref) :
    Own base (h + ref e) { t with
      inode := update t.inode e { t.inode e with ref := (t.inode e).ref + 1 } } := by
  refine hs.setRef (fun k => ?_) (by simp) (by simp) fun k hk _ hkpos hd hi => ?_
  · have href := hs.refs k
    by_cases hke : k = e
    · subst hke
      simp
      omega
    · simp [hke, href]
  · exact hk (hs.unique k e hkpos hpos hd.symm hi.symm)

theorem iget_uses (dev inum : Nat) : Uses (Own base) Safe 0 (iget dev inum) ref := by
  intro h t hs
  rw [add_zero] at hs
  rw [iget, get_bind]
  cases hfind : findInode t dev inum with
  | some e =>
    have hpos : 0 < (t.inode e).ref := by
      have hmatch := List.find?_some hfind
      simp only [Bool.decide_and, Bool.and_eq_true, decide_eq_true_eq] at hmatch
      exact hmatch.1
    exact .ok (hs.dup hpos)
  | none =>
    simp only
    cases hempty : findEmpty t with
    | none => exact .error ⟨by decide, by decide⟩
    | some e =>
      have hzero : (t.inode e).ref = 0 := by simpa using List.find?_some hempty
      refine .ok (hs.setRef (fun k => ?_) (by simp) (by simp) fun k hk _ hkpos hd hi => ?_)
      · have href := hs.refs k
        by_cases hke : k = e
        · subst hke
          simp
          omega
        · simp [hke, href]
      · have hnot := List.find?_eq_none.mp hfind k (List.mem_finRange k)
        simp only [Bool.decide_and, Bool.and_eq_true, decide_eq_true_eq] at hnot
        exact hnot ⟨hkpos, hd.symm, hi.symm⟩

theorem idup_uses : Uses (Own base) Safe (ref e) (idup e) fun _ => ref e + ref e := by
  intro h t hs
  have href := hs.refs e
  simp only [Multiset.count_add, count_ref_ref, if_true] at href
  have hdup := hs.dup (e := e) (by omega)
  rw [add_assoc] at hdup
  exact .ok hdup

/-- The update leaves references and the number of the inode alone. -/
def Keeps (f : Inode → Inode) : Prop :=
  ∀ n, (f n).ref = n.ref ∧ (f n).dev = n.dev ∧ (f n).inum = n.inum

theorem setInode_uses {f : Inode → Inode} (hf : Keeps f) :
    Uses (Own base) Safe 0 (setInode e f) fun _ => 0 :=
  fun _ _ hs => .ok (hs.setInode (hf _).1 (hf _).2.1 (hf _).2.2)

theorem addLink_uses (k : Int) : Uses (Own base) Safe 0 (addLink e k) fun _ => 0 :=
  setInode_uses fun _ => ⟨rfl, rfl, rfl⟩

theorem iload_uses : Uses (Own base) Safe 0 (iload e) fun _ => 0 := by
  refine .read fun t => .ite (fun _ => .pure rfl) fun _ => ?_
  refine ask_uses.bind fun a => (setInode_uses ?_).bind fun _ => ?_
  · exact fun _ => ⟨rfl, rfl, rfl⟩
  · exact .ite (fun _ => .throw ⟨by decide, by decide⟩) fun _ => .pure rfl

theorem ilock_uses : Uses (Own base) Safe 0 (ilock e) fun _ => lock e := by
  intro h t hs
  rw [ilock, get_bind]
  split
  · exact .error ⟨by decide, by decide⟩
  · split
    · exact .error ⟨by decide, by decide⟩
    · have hlocked : Own base (h + lock e) { t with locked := e :: t.locked } := by
        refine ⟨fun k => ?_, fun k => ?_, ?_, hs.stray, hs.unique⟩
        · simpa using hs.refs k
        · have hk := hs.locks k
          simp only [add_zero] at hk
          by_cases hke : k = e
          · subst hke
            simp [hk]
          · simp [hke, List.count_cons_of_ne (Ne.symm hke), hk]
        · simpa using hs.ops
      have hload := iload_uses (e := e) (h + lock e) _ ((add_zero (h + lock e)).symm ▸ hlocked)
      simp only [add_zero] at hload
      exact hload

theorem iunlock_uses : Uses (Own base) Safe (lock e) (iunlock e) fun _ => 0 := by
  intro h t hs
  rw [iunlock, get_bind]
  split
  · exact .error ⟨by decide, by decide⟩
  · refine .ok ⟨fun k => ?_, fun k => ?_, ?_, hs.stray, hs.unique⟩
    · simpa using hs.refs k
    · have hk := hs.locks k
      by_cases hke : k = e
      · subst hke
        simp at hk ⊢
        omega
      · simp [hke] at hk
        simp [List.count_erase_of_ne hke, hk]
    · simpa using hs.ops

theorem iput_uses : Uses (Own base) Safe (ref e + op) (iput e) fun _ => op := by
  intro h t hs
  have hops := hs.ops
  have hbegun : decide (t.begun ≤ t.ended) = false := by
    simp at hops ⊢
    omega
  have hstray : (t.stray || decide (t.begun ≤ t.ended)) = false := by
    rw [hs.stray, hbegun]
    rfl
  have hput : ∀ n : Inode, n.ref = (t.inode e).ref - 1 → n.dev = (t.inode e).dev →
      n.inum = (t.inode e).inum → Own base (h + op) { t with
        stray := t.stray || decide (t.begun ≤ t.ended)
        inode := update t.inode e n } := by
    intro n href hdev hinum
    have hset : Own base (h + op) { t with inode := update t.inode e n } :=
      hs.setRef (fun k => ?_) (by simp) (by simp)
      fun k hk hn hkpos hd hi => ?_
    · exact ⟨hset.refs, hset.locks, hset.ops, hstray, hset.unique⟩
    · have hk := hs.refs k
      by_cases hke : k = e
      · subst hke
        simp at hk ⊢
        omega
      · simp [hke] at hk
        simp [hke, hk]
    · exact hk (hs.unique k e hkpos (by omega) (hd.symm.trans hdev) (hi.symm.trans hinum))
  rw [iput, get_bind]
  simp only
  split
  · split
    · exact .error ⟨by decide, by decide⟩
    · exact .ok (hput _ rfl rfl rfl)
  · exact .ok (hput _ rfl rfl rfl)

theorem iunlockput_uses :
    Uses (Own base) Safe (lock e + (ref e + op)) (iunlockput e) fun _ => op :=
  iunlock_uses.step (k := ref e + op) (add_comm _ _) fun _ =>
    iput_uses.last (k := 0) (by abel) fun _ => zero_add _

theorem dirlookup_uses (name : Name) : Uses (Own base) Safe 0 (dirlookup e name) refTo := by
  refine .read fun t => .ite (fun _ => .throw ⟨by decide, by decide⟩) fun _ => ?_
  refine ask_uses.bind fun a => .ite (fun _ => .pure rfl) fun _ => ?_
  exact (iget_uses _ _).bind fun e => .pure rfl

theorem dirlink_uses (name : Name) (inum : Nat) :
    Uses (Own base) Safe op (dirlink e name inum) fun _ => op := by
  refine (dirlookup_uses name).step (k := op) (by abel) fun found => ?_
  cases found with
  | none => exact ask_uses.step (k := op) (by rfl) fun _ => .pure (by abel)
  | some e => exact iput_uses.step (k := 0) (by simp only [refTo]; abel) fun _ => .pure (by abel)

theorem ialloc_uses (dev : Nat) (type : InodeType) :
    Uses (Own base) Safe 0 (ialloc dev type) refTo := by
  refine ask_uses.bind fun a => .ite (fun _ => .pure rfl) fun _ => ?_
  exact (iget_uses _ _).bind fun e => .pure rfl

theorem namexLoop_uses (parent : Bool) (fuel : Nat) (ip : Entry) (path : Path) (name : Name) :
    Uses (Own base) Safe (ref ip + op) (namexLoop parent fuel ip path name)
      fun r => refTo (r.map (·.1)) + op := by
  induction fuel generalizing ip path name with
  | zero => exact iput_uses.bind fun _ => .pure (by simp [refTo])
  | succ fuel ih =>
    rw [namexLoop]
    cases skipelem path with
    | none =>
      refine .ite (fun _ => ?_) fun _ => .pure rfl
      exact iput_uses.bind fun _ => .pure (by simp [refTo])
    | some elem =>
      obtain ⟨name', rest⟩ := elem
      have hgone : Uses (Own base) Safe (ref ip + op + lock ip)
          (iunlockput ip >>= fun _ => Pure.pure none)
          fun r : Option (Entry × Name) => refTo (r.map (·.1)) + op :=
        iunlockput_uses.step (k := 0) (by abel) fun _ => .pure (by simp [refTo])
      refine ilock_uses.step (k := ref ip + op) (by abel) fun _ => .read fun t => ?_
      refine .ite (fun _ => hgone) fun _ => .ite (fun _ => ?_) fun _ => ?_
      · exact iunlock_uses.step (k := ref ip + op) rfl fun _ => .pure (by simp [refTo])
      · refine (dirlookup_uses name').step (k := ref ip + op + lock ip) (by abel)
          fun next => ?_
        cases next with
        | none => exact (add_zero (ref ip + op + lock ip)).symm ▸ hgone
        | some next =>
          refine iunlockput_uses.step (k := ref next) (by simp only [refTo]; abel)
            fun _ => ?_
          exact ih next rest name'

section

variable (cwd : Entry) (path : Path)
include cwd path

theorem enter_uses :
    Uses (Own base) Safe (ref cwd) (enter cwd path) fun ip => ref cwd + ref ip := by
  refine .ite (fun _ => ?_) fun _ => ?_
  · exact (iget_uses _ _).last (k := ref cwd) (add_zero _).symm fun _ => rfl
  · exact idup_uses.bind fun _ => .pure rfl

theorem namex_uses (parent : Bool) : Uses (Own base) Safe (ref cwd + op) (namex cwd path parent)
      fun r => ref cwd + refTo (r.map (·.1)) + op := by
  refine (enter_uses cwd path).step (k := op) (by abel) fun ip => ?_
  exact (namexLoop_uses parent _ ip path []).last (k := ref cwd) (by abel)
    fun _ => (add_assoc ..).symm

theorem namei_uses :
    Uses (Own base) Safe (ref cwd + op) (namei cwd path) fun r => ref cwd + refTo r + op :=
  (namex_uses cwd path false).bind fun _ => .pure rfl

theorem nameiparent_uses : Uses (Own base) Safe (ref cwd + op) (nameiparent cwd path)
      fun r => ref cwd + refTo (r.map (·.1)) + op :=
  namex_uses cwd path true

end

def lockedTo : Option Entry → Multiset Token
  | none => 0
  | some e => ref e + lock e

theorem lock_beside_ref (k : Multiset Token) (e : Entry) :
    k + ref e + op + lock e = k + (ref e + lock e) + op := by
  abel

theorem add_refTo_none (k l : Multiset Token) : k + refTo none + l = k + l := by
  rw [refTo, add_zero]

theorem add_lockedTo_none (k l : Multiset Token) : k + lockedTo none + l = k + l := by
  rw [lockedTo, add_zero]

theorem createFail_uses (dp ip : Entry) :
    Uses (Own base) Safe (ref dp + lock dp + (ref ip + lock ip) + op) (createFail dp ip)
      fun r => lockedTo r + op := by
  refine (setInode_uses ?_).step (add_zero _).symm fun _ => ?_
  · exact fun _ => ⟨rfl, rfl, rfl⟩
  refine iunlockput_uses.step (k := ref dp + lock dp) (by abel) fun _ => ?_
  exact iunlockput_uses.step (k := 0) (by abel) fun _ => .pure (by simp [lockedTo])

theorem createName_uses (dp ip : Entry) (name : Name) (type : InodeType) :
    Uses (Own base) Safe (ref dp + lock dp + (ref ip + lock ip) + op)
      (createName dp ip name type) fun r => lockedTo r + op := by
  refine .read fun t => ?_
  refine (dirlink_uses name _).step (k := ref dp + lock dp + (ref ip + lock ip)) rfl
    fun ok => .ite (fun _ => createFail_uses dp ip) fun _ => ?_
  have hdone : Uses (Own base) Safe (ref dp + lock dp + (ref ip + lock ip) + op)
      (iunlockput dp >>= fun _ => Pure.pure (some ip)) fun r => lockedTo r + op :=
    iunlockput_uses.step (k := ref ip + lock ip) (by abel) fun _ => .pure rfl
  refine .ite (fun _ => ?_) fun _ => hdone
  exact (addLink_uses 1).step (k := ref dp + lock dp + (ref ip + lock ip) + op) (by abel)
    fun _ => (add_zero (ref dp + lock dp + (ref ip + lock ip) + op)).symm ▸ hdone

theorem createDots_uses (dp ip : Entry) :
    Uses (Own base) Safe op (createDots dp ip) fun _ => op := by
  refine .read fun t => (dirlink_uses _ _).bind fun ok => ?_
  exact .ite (fun _ => .pure rfl) fun _ => dirlink_uses _ _

theorem createInode_uses (dp ip : Entry) (name : Name) (type : InodeType) (major : Int) :
    Uses (Own base) Safe (ref dp + lock dp + ref ip + op) (createInode dp ip name type major)
      fun r => lockedTo r + op := by
  refine ilock_uses.step (k := ref dp + lock dp + ref ip + op) (by abel) fun _ => ?_
  have htokens : ref dp + lock dp + ref ip + op + lock ip =
      ref dp + lock dp + (ref ip + lock ip) + op := by
    abel
  rw [htokens]
  refine (setInode_uses ?_).step (add_zero _).symm fun _ => ?_
  · exact fun _ => ⟨rfl, rfl, rfl⟩
  rw [add_zero]
  refine .ite (fun _ => ?_) fun _ => createName_uses dp ip name type
  refine (createDots_uses dp ip).step (k := ref dp + lock dp + (ref ip + lock ip)) rfl
    fun ok => ?_
  exact .ite (fun _ => createFail_uses dp ip) fun _ => createName_uses dp ip name type

theorem createFound_uses (dp ip : Entry) (type : InodeType) :
    Uses (Own base) Safe (ref dp + lock dp + ref ip + op) (createFound dp ip type)
      fun r => lockedTo r + op := by
  refine iunlockput_uses.step (k := ref ip) (by abel) fun _ => ?_
  refine ilock_uses.step (k := ref ip + op) (by abel) fun _ => .read fun t => ?_
  refine .ite (fun _ => .pure ?_) fun _ => ?_
  · simp only [lockedTo]
    abel
  · exact iunlockput_uses.step (k := 0) (by abel) fun _ => .pure (by simp [lockedTo])

theorem create_uses (cwd : Entry) (path : Path) (type : InodeType) (major : Int) :
    Uses (Own base) Safe (ref cwd + op) (create cwd path type major)
      fun r => ref cwd + lockedTo r + op := by
  refine (nameiparent_uses cwd path).bind fun r => ?_
  cases r with
  | none => exact .pure (by simp [refTo, lockedTo])
  | some res =>
    obtain ⟨dp, name⟩ := res
    refine ilock_uses.step (k := ref cwd + ref dp + op) (by simp [refTo]) fun _ => ?_
    refine (dirlookup_uses name).step (k := ref cwd + ref dp + op + lock dp) (by abel)
      fun found => ?_
    cases found with
    | some ip =>
      exact (createFound_uses dp ip type).last (k := ref cwd) (by simp only [refTo]; abel)
        fun _ => (add_assoc ..).symm
    | none =>
      refine .read fun t => ?_
      refine (ialloc_uses _ type).step (k := ref cwd + ref dp + op + lock dp)
        (by simp only [refTo]) fun new => ?_
      cases new with
      | none =>
        exact iunlockput_uses.step (k := ref cwd) (by simp only [refTo]; abel)
          fun _ => .pure (by simp [lockedTo])
      | some ip =>
        exact (createInode_uses dp ip name type major).last (k := ref cwd)
          (by simp only [refTo]; abel) fun _ => (add_assoc ..).symm

theorem linkBad_uses (ip : Entry) : Uses (Own base) Safe (ref ip + op) (linkBad ip) fun _ => 0 := by
  refine ilock_uses.step (k := ref ip + op) (by abel) fun _ => ?_
  refine (addLink_uses (-1)).step (k := ref ip + op + lock ip) (by abel) fun _ => ?_
  refine iunlockput_uses.step (k := 0) (by abel) fun _ => ?_
  exact endOp_uses.step (k := 0) (by abel) fun _ => .pure rfl

theorem linkName_uses (cwd ip : Entry) (new : Path) :
    Uses (Own base) Safe (ref cwd + ref ip + op) (linkName cwd ip new) fun _ => ref cwd := by
  have hbad : Uses (Own base) Safe (ref cwd + ref ip + op) (linkBad ip) fun _ => ref cwd :=
    (linkBad_uses ip).last (k := ref cwd) (by abel) fun _ => add_zero _
  refine (nameiparent_uses cwd new).step (k := ref ip) (by abel) fun r => ?_
  cases r with
  | none =>
    have htokens : ref ip + (ref cwd + refTo none + op) = ref cwd + ref ip + op := by
      simp only [refTo]
      abel
    exact htokens.symm ▸ hbad
  | some res =>
    obtain ⟨dp, name⟩ := res
    have hback : Uses (Own base) Safe (ref cwd + ref ip + ref dp + lock dp + op)
        (iunlockput dp >>= fun _ => linkBad ip) fun _ => ref cwd :=
      iunlockput_uses.step (k := ref cwd + ref ip) (by abel) fun _ => hbad
    refine ilock_uses.step (k := ref cwd + ref ip + ref dp + op)
      (by simp only [refTo, Option.map_some]; abel) fun _ => .read fun t => ?_
    have htokens : ref cwd + ref ip + ref dp + op + lock dp =
        ref cwd + ref ip + ref dp + lock dp + op := by
      abel
    rw [htokens]
    refine .ite (fun _ => hback) fun _ => ?_
    refine (dirlink_uses name _).step (k := ref cwd + ref ip + ref dp + lock dp) rfl
      fun ok => .ite (fun _ => hback) fun _ => ?_
    refine iunlockput_uses.step (k := ref cwd + ref ip) (by abel) fun _ => ?_
    refine iput_uses.step (k := ref cwd) (by abel) fun _ => ?_
    exact endOp_uses.step (k := ref cwd) (by abel) fun _ => .pure (by abel)

theorem giveUp_uses {α : Type} (cwd : Entry) (a : α) :
    Uses (Own base) Safe (ref cwd + op) (endOp >>= fun _ => Pure.pure a) fun _ => ref cwd :=
  endOp_uses.step (k := ref cwd) rfl fun _ => .pure (by abel)

theorem putBack_uses {α : Type} (cwd ip : Entry) (a : α) :
    Uses (Own base) Safe (ref cwd + (ref ip + lock ip) + op)
      (iunlockput ip >>= fun _ => endOp >>= fun _ => Pure.pure a) fun _ => ref cwd :=
  iunlockput_uses.step (k := ref cwd) (by abel) fun _ => giveUp_uses cwd a

theorem sysLink_uses (cwd : Entry) (old new : Option Path) :
    Uses (Own base) Safe (ref cwd) (sysLink cwd old new) fun _ => ref cwd := by
  cases old with
  | none => exact .pure rfl
  | some old =>
    cases new with
    | none => exact .pure rfl
    | some new =>
      refine beginOp_uses.step (k := ref cwd) (by abel) fun _ => ?_
      refine (namei_uses cwd old).bind fun r => ?_
      cases r with
      | none =>
        exact (add_refTo_none (ref cwd) op).symm ▸ giveUp_uses cwd (-1)
      | some ip =>
        refine ilock_uses.step (k := ref cwd + ref ip + op) (by simp [refTo])
          fun _ => .read fun t => ?_
        rw [lock_beside_ref]
        refine .ite (fun _ => putBack_uses cwd ip (-1)) fun _ => ?_
        refine (addLink_uses 1).step (k := ref cwd + (ref ip + lock ip) + op) (by abel)
          fun _ => ?_
        refine iunlock_uses.step (k := ref cwd + ref ip + op) (by abel) fun _ => ?_
        exact (linkName_uses cwd ip new).last (k := 0) (by abel) fun _ => zero_add _

theorem unlinkParent_uses (dp ip : Entry) :
    Uses (Own base) Safe 0 (unlinkParent dp ip) fun _ => 0 :=
  .read fun _ => .ite (fun _ => addLink_uses (-1)) fun _ => .pure rfl

theorem unlinkEntry_uses (cwd dp ip : Entry) :
    Uses (Own base) Safe (ref cwd + (ref dp + lock dp) + (ref ip + lock ip) + op)
      (unlinkEntry dp ip) fun _ => ref cwd := by
  refine ask_uses.step (k := ref cwd + (ref dp + lock dp) + (ref ip + lock ip) + op) (by abel)
    fun a => .ite (fun _ => .throw ⟨by decide, by decide⟩) fun _ => ?_
  refine (unlinkParent_uses dp ip).step
    (k := ref cwd + (ref dp + lock dp) + (ref ip + lock ip) + op) (by abel) fun _ => ?_
  refine iunlockput_uses.step (k := ref cwd + (ref ip + lock ip)) (by abel) fun _ => ?_
  refine (addLink_uses (-1)).step (k := ref cwd + (ref ip + lock ip) + op) (by abel) fun _ => ?_
  rw [add_zero]
  exact putBack_uses cwd ip 0

theorem sysUnlink_uses (cwd : Entry) (path : Option Path) :
    Uses (Own base) Safe (ref cwd) (sysUnlink cwd path) fun _ => ref cwd := by
  cases path with
  | none => exact .pure rfl
  | some path =>
    refine beginOp_uses.step (k := ref cwd) (by abel) fun _ => ?_
    refine (nameiparent_uses cwd path).bind fun r => ?_
    cases r with
    | none =>
      exact (add_refTo_none (ref cwd) op).symm ▸ giveUp_uses cwd (-1)
    | some res =>
      obtain ⟨dp, name⟩ := res
      refine ilock_uses.step (k := ref cwd + ref dp + op) (by simp [refTo]) fun _ => ?_
      rw [lock_beside_ref]
      have hbad : Uses (Own base) Safe (ref cwd + (ref dp + lock dp) + op) (unlinkBad dp)
          fun _ => ref cwd := putBack_uses cwd dp (-1)
      refine .ite (fun _ => hbad) fun _ => ?_
      refine (dirlookup_uses name).step (k := ref cwd + (ref dp + lock dp) + op) (by abel)
        fun found => ?_
      cases found with
      | none => exact (add_zero (ref cwd + (ref dp + lock dp) + op)).symm ▸ hbad
      | some ip =>
        refine ilock_uses.step (k := ref cwd + (ref dp + lock dp) + ref ip + op)
          (by simp only [refTo]; abel) fun _ => .read fun t => ?_
        refine .ite (fun _ => .throw ⟨by decide, by decide⟩) fun _ => ?_
        refine ask_uses.step
          (k := ref cwd + (ref dp + lock dp) + (ref ip + lock ip) + op) (by abel)
          fun empty => .ite (fun _ => ?_) fun _ => ?_
        · refine iunlockput_uses.step (k := ref cwd + (ref dp + lock dp)) (by abel)
            fun _ => hbad
        · exact (unlinkEntry_uses cwd dp ip).last (k := 0) (by abel) fun _ => zero_add _

theorem sysMake_uses (cwd : Entry) (path : Option Path) (type : InodeType) (major : Int) :
    Uses (Own base) Safe (ref cwd) (sysMake cwd path type major) fun _ => ref cwd := by
  refine beginOp_uses.step (k := ref cwd) (by abel) fun _ => ?_
  cases path with
  | none => exact giveUp_uses cwd (-1)
  | some path =>
    refine (create_uses cwd path type major).bind fun r => ?_
    cases r with
    | none =>
      exact (add_lockedTo_none (ref cwd) op).symm ▸ giveUp_uses cwd (-1)
    | some ip => exact putBack_uses cwd ip 0

theorem kexec_uses (cwd : Entry) (path : Option Path) :
    Uses (Own base) Safe (ref cwd) (kexec cwd path) fun _ => ref cwd := by
  cases path with
  | none => exact .pure rfl
  | some path =>
    refine beginOp_uses.step (k := ref cwd) (by abel) fun _ => ?_
    refine (namei_uses cwd path).bind fun r => ?_
    cases r with
    | none =>
      exact (add_refTo_none (ref cwd) op).symm ▸ giveUp_uses cwd (-1)
    | some ip =>
      refine ilock_uses.step (k := ref cwd + ref ip + op) (by simp [refTo]) fun _ => ?_
      refine ask_uses.step (k := ref cwd + (ref ip + lock ip) + op) (by abel)
        fun image => ?_
      rw [add_zero]
      refine .ite (fun _ => putBack_uses cwd ip (-1)) fun _ => ?_
      refine iunlockput_uses.step (k := ref cwd) (by abel) fun _ => ?_
      refine endOp_uses.step (k := ref cwd) rfl fun _ => ?_
      refine ask_uses.step (k := ref cwd) (by abel) fun stack => ?_
      exact .ite (fun _ => .pure (by abel)) fun _ => .pure (by abel)

/-- An opened inode: locked, in an operation that goes on. -/
def openedTo : Option Entry → Multiset Token
  | none => 0
  | some e => ref e + lock e + op

theorem openInode_uses (path : Path) (omode : Nat) (cwd : Entry) :
    Uses (Own base) Safe (ref cwd) (openInode path omode cwd)
      fun r => ref cwd + openedTo r := by
  have hnone : ∀ {α : Type} (a : α) (d : α → Multiset Token), d a = 0 →
      Uses (Own base) Safe (ref cwd + op) (endOp >>= fun _ => Pure.pure a)
        fun r => ref cwd + d r :=
    fun a d hd => endOp_uses.step (k := ref cwd) rfl fun _ => .pure (by rw [hd])
  refine beginOp_uses.step (k := ref cwd) (by abel) fun _ => .ite (fun _ => ?_) fun _ => ?_
  · refine (create_uses cwd path .file 0).bind fun r => ?_
    cases r with
    | none =>
      exact (add_lockedTo_none (ref cwd) op).symm ▸ hnone none openedTo rfl
    | some ip => exact .pure (by simp only [lockedTo, openedTo]; abel)
  · refine (namei_uses cwd path).bind fun r => ?_
    cases r with
    | none =>
      exact (add_refTo_none (ref cwd) op).symm ▸ hnone none openedTo rfl
    | some ip =>
      refine ilock_uses.step (k := ref cwd + ref ip + op) (by simp [refTo])
        fun _ => .read fun t => .ite (fun _ => ?_) fun _ => .pure ?_
      · exact iunlockput_uses.step (k := ref cwd) (by abel) fun _ => hnone none openedTo rfl
      · simp only [openedTo]
        abel

theorem openBad_uses (ip : Entry) :
    Uses (Own base) Safe (ref ip + lock ip + op) (openBad ip) fun _ => 0 :=
  iunlockput_uses.step (k := 0) (by abel) fun _ =>
    endOp_uses.step (k := 0) (by abel) fun _ => .pure rfl

theorem openDone_uses (ip : Entry) :
    Uses (Own base) Safe (lock ip + op) (openDone ip) fun _ => 0 :=
  iunlock_uses.step (k := op) (by abel) fun _ =>
    endOp_uses.last (k := 0) (by abel) fun _ => zero_add _

theorem fileread_uses (f : File) : Uses (Own base) Safe 0 (fileread f) fun _ => 0 := by
  have hask : Uses (Own base) Safe 0 (ask >>= fun a => (Pure.pure a.inum : Fs Int)) fun _ => 0 :=
    ask_uses.bind fun _ => .pure rfl
  refine .ite (fun _ => .pure rfl) fun _ => ?_
  split
  · refine ilock_uses.bind fun _ => ask_uses.step (add_zero _).symm fun a => ?_
    exact iunlock_uses.step (k := 0) (by abel) fun _ => .pure rfl
  · exact .throw ⟨by decide, by decide⟩
  · exact .throw ⟨by decide, by decide⟩
  · exact hask

theorem filewriteLoop_uses (e : Entry) (k : Nat) :
    Uses (Own base) Safe 0 (filewriteLoop e k) fun _ => 0 := by
  induction k with
  | zero => exact .pure rfl
  | succ k ih =>
    refine beginOp_uses.bind fun _ => ilock_uses.step (add_zero _).symm fun _ => ?_
    refine ask_uses.step (add_zero _).symm fun a => ?_
    refine iunlock_uses.step (k := op) (by abel) fun _ => ?_
    refine endOp_uses.step (k := 0) (by abel) fun _ => ?_
    exact .ite (fun _ => .pure rfl) fun _ => ih

theorem filewrite_uses (f : File) (n : Int) :
    Uses (Own base) Safe 0 (filewrite f n) fun _ => 0 := by
  refine .ite (fun _ => .pure rfl) fun _ => ?_
  split
  · exact (filewriteLoop_uses _ _).bind fun _ => .pure rfl
  · exact .throw ⟨by decide, by decide⟩
  · exact .throw ⟨by decide, by decide⟩
  · exact ask_uses.bind fun _ => .pure rfl

theorem chdirInode_uses (path : Option Path) (cwd : Entry) :
    Uses (Own base) Safe (ref cwd) (chdirInode path cwd) fun r => ref (r.getD cwd) := by
  refine beginOp_uses.step (k := ref cwd) (by abel) fun _ => ?_
  have hnone : Uses (Own base) Safe (ref cwd + op) (endOp >>= fun _ => Pure.pure none)
      fun r : Option Entry => ref (r.getD cwd) :=
    endOp_uses.step (k := ref cwd) rfl fun _ => .pure (add_zero _)
  cases path with
  | none => exact hnone
  | some path =>
    refine (namei_uses cwd path).bind fun r => ?_
    cases r with
    | none =>
      exact (add_refTo_none (ref cwd) op).symm ▸ hnone
    | some ip =>
      refine ilock_uses.step (k := ref cwd + ref ip + op) (by simp [refTo])
        fun _ => .read fun t => .ite (fun _ => ?_) fun _ => ?_
      · exact iunlockput_uses.step (k := ref cwd) (by abel) fun _ => hnone
      · refine iunlock_uses.step (k := ref cwd + ref ip + op) rfl fun _ => ?_
        refine iput_uses.step (k := ref ip) (by abel) fun _ => ?_
        exact endOp_uses.step (k := ref ip) rfl fun _ => .pure (add_zero _)

theorem putInode_uses (ip : Option Entry) :
    Uses (Own base) Safe (refTo ip) (putInode ip) fun _ => 0 := by
  refine beginOp_uses.step (add_zero _).symm fun _ => ?_
  cases ip with
  | none => exact .throw ⟨by decide, by decide⟩
  | some e => exact iput_uses.bind fun _ => endOp_uses

theorem releasePage_uses (back : Bool) (ip : Option Entry) (va : Nat) :
    Uses (Own base) Safe 0 (releasePage back ip va) fun _ => 0 := by
  refine .ite (fun _ => .throw ⟨by decide, by decide⟩) fun _ => ?_
  refine ask_uses.bind fun a => .ite (fun _ => ?_) fun _ => .pure rfl
  refine beginOp_uses.bind fun _ => ?_
  cases ip with
  | none => exact .throw ⟨by decide, by decide⟩
  | some e =>
    refine ilock_uses.step (add_zero _).symm fun _ => ask_uses.step (add_zero _).symm fun _ => ?_
    refine iunlock_uses.step (k := op) (by abel) fun _ => ?_
    exact endOp_uses.last (k := 0) (by abel) fun _ => zero_add _

theorem releasePages_uses (back : Bool) (ip : Option Entry) (vas : List Nat) :
    Uses (Own base) Safe 0 (releasePages back ip vas) fun _ => 0 := by
  induction vas with
  | nil => exact .pure rfl
  | cons va vas ih => exact (releasePage_uses back ip va).bind fun _ => ih

end Specs

end EafitOs.Files
