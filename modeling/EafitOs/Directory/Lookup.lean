import EafitOs.Directory.References
import Mathlib.Data.List.TakeWhile

/-!
# Path lookup

What `namex` finds is what following the elements of the path from directory to
directory finds; it leaves every inode as it was and keeps one reference to its result.
-/

namespace EafitOs.Directory

open Foundation List Option

def elements : Nat → Path → List Name
  | 0, _ => []
  | fuel + 1, path =>
    match skipelem path with
    | none => []
    | some (name, rest) => name :: elements fuel rest

def Path.elements (path : Path) : List Name :=
  Directory.elements (path.length + 1) path

def follow (T : Nat → Inode) : Nat → List Name → Option Nat
  | d, [] => some d
  | d, name :: names =>
    if (T d).type = .dir then
      (findEntry name (T d).entries 0).bind fun ke => follow T ke.2.inum names
    else none

theorem elements_nil (fuel : Nat) : elements fuel [] = [] := by
  cases fuel <;> rfl

theorem skipelem_length {path rest : Path} {name : Name} (h : skipelem path = some (name, rest)) :
    rest.length < path.length := by
  rw [skipelem] at h
  split at h
  · cases h
  · rename_i p hne
    obtain ⟨-, rfl⟩ := Prod.mk.inj (some.inj h)
    cases hp : path.dropWhile (· = slash) with
    | nil => exact absurd hp hne
    | cons c cs =>
      have hc : c ≠ slash := by
        have hhead := List.head?_dropWhile_not (fun c => decide (c = slash)) path
        rw [hp] at hhead
        simpa using hhead
      calc
        (((c :: cs).dropWhile (· ≠ slash)).dropWhile (· = slash)).length
            ≤ ((c :: cs).dropWhile (· ≠ slash)).length := length_dropWhile_le _ _
        _ = (cs.dropWhile (· ≠ slash)).length := by
            rw [dropWhile_cons_of_pos (by simpa using hc)]
        _ ≤ cs.length := length_dropWhile_le _ _
        _ < (path.dropWhile (· = slash)).length := by
            rw [hp]
            exact Nat.lt_succ_self _
        _ ≤ path.length := length_dropWhile_le _ _

theorem findEntry_some {name : Name} {es : List Dirent} {k j : Nat} {e : Dirent}
    (h : findEntry name es k = some (j, e)) :
    ∃ i, j = k + i ∧ es[i]? = some e ∧ e.inum ≠ 0 ∧ e.name = name := by
  induction es generalizing k with
  | nil => cases h
  | cons u es ih =>
    rw [findEntry] at h
    split at h
    · rename_i hu
      obtain ⟨rfl, rfl⟩ := Prod.mk.inj (some.inj h)
      exact ⟨0, rfl, rfl, hu⟩
    · obtain ⟨i, rfl, hi⟩ := ih h
      exact ⟨i + 1, by omega, hi⟩

theorem findEntry_none {name : Name} {es : List Dirent} {k : Nat}
    (h : findEntry name es k = none) : ∀ e ∈ es, e.inum ≠ 0 → e.name ≠ name := by
  induction es generalizing k with
  | nil => simp
  | cons u es ih =>
    rw [findEntry] at h
    split at h
    · cases h
    · rename_i hu
      intro e he hinum hname
      obtain rfl | he := mem_cons.mp he
      · exact hu ⟨hinum, hname⟩
      · exact ih h e he hinum hname

theorem follow_append {T : Nat → Inode} {d : Nat} {names : List Name} {name : Name} {ip : Nat}
    (h : follow T d names = some ip) :
    follow T d (names ++ [name]) = follow T ip [name] := by
  induction names generalizing d with
  | nil =>
    obtain rfl := some.inj h
    rfl
  | cons n names ih =>
    rw [follow] at h
    split at h
    · rename_i hdir
      obtain ⟨ke, hke, hrest⟩ := bind_eq_some_iff.mp h
      rw [cons_append, follow, if_pos hdir, hke]
      exact ih hrest
    · cases h

section Specs

variable {strict : Prop} {s : State} {held : List Nat}

theorem Counted.dirlookup (h : Counted held s) (dp : Nat) (name : Name) :
    Ends (dirlookup s dp name) (fun r => Touches s r.2 ∧
      (∀ k, 0 < s.ref k → r.2.valid k = s.valid k) ∧
      match r.1 with
      | none => Counted held r.2 ∧ findEntry name (s.inode dp).entries 0 = none
      | some (ip, k) => Counted (ip :: held) r.2 ∧
          ∃ e, findEntry name (s.inode dp).entries 0 = some (k, e) ∧ e.inum = ip)
      (Avoids strict) := by
  rw [Directory.dirlookup]
  split
  · exact .error ⟨by decide, fun _ => by decide⟩
  · split
    · rename_i hnone
      exact .ok ⟨.rfl, fun _ _ => rfl, h, hnone⟩
    · rename_i k e hsome
      exact h.iget.bind fun s' hs' => .ok ⟨hs'.1, hs'.2.2, hs'.2.1, e, hsome, rfl⟩

def Closed (T : Nat → Inode) : Prop :=
  ∀ d, (T d).type = .dir → ∀ e ∈ (T d).entries, e.inum ≠ 0 → (T e.inum).type ≠ .free

theorem Tree.closed {T : Nat → Inode} (h : Tree strict T) (hs : strict) : Closed T :=
  fun d hd e he hinum => (h.points d hd (.inl hs) e he hinum).1

/-- What a lookup from inode `d` may return. -/
def Finds (T : Nat → Inode) (d : Nat) (names : List Name) :
    Bool → Option (Nat × Name) → Prop
  | _, none => True
  | false, some (ip, _) => follow T d names = some ip
  | true, some (ip, name) => (T ip).type = .dir ∧
      ∃ init, names = init ++ [name] ∧ follow T d init = some ip

theorem Finds.cons {T : Nat → Inode} {d k : Nat} {name : Name} {names : List Name} {e : Dirent}
    {parent : Bool} {r : Option (Nat × Name)} (hdir : (T d).type = .dir)
    (hfind : findEntry name (T d).entries 0 = some (k, e)) (h : Finds T e.inum names parent r) :
    Finds T d (name :: names) parent r := by
  cases r with
  | none => cases parent <;> trivial
  | some res =>
    obtain ⟨ip, last⟩ := res
    cases parent with
    | false =>
      change follow T d (name :: names) = some ip
      rw [follow, if_pos hdir, hfind]
      exact h
    | true =>
      obtain ⟨htype, init, rfl, hinit⟩ := h
      refine ⟨htype, name :: init, rfl, ?_⟩
      rw [follow, if_pos hdir, hfind]
      exact hinit

def withResult (held : List Nat) : Option (Nat × Name) → List Nat
  | none => held
  | some (ip, _) => ip :: held

/-- The loop of `namex` puts back the inodes on its way, which stay allocated without its
reference. -/
theorem Counted.namexLoop {parent : Bool} {fuel ip : Nat} {path : Path} {name : Name}
    (h : Counted (ip :: held) s) (hstays : ∀ i, Stays held s i)
    (hclosed : strict → Closed s.inode) (hip : strict → (s.inode ip).type ≠ .free) :
    Ends (namexLoop parent fuel s ip path name) (fun r => Touches s r.2 ∧
      Counted (withResult held r.1) r.2 ∧ Finds s.inode ip (elements fuel path) parent r.1)
      (Avoids strict) := by
  induction fuel generalizing s ip path name with
  | zero =>
    obtain ⟨ht, hc⟩ := h.iput (hstays ip)
    exact .ok ⟨ht, hc, by cases parent <;> trivial⟩
  | succ fuel ih =>
    rw [Directory.namexLoop, elements]
    cases hskip : skipelem path with
    | none =>
      cases parent with
      | true =>
        obtain ⟨ht, hc⟩ := h.iput (hstays ip)
        exact .ok ⟨ht, hc, trivial⟩
      | false => exact .ok ⟨.rfl, h, rfl⟩
    | some elem =>
      obtain ⟨name', rest⟩ := elem
      refine (h.ilock hip).bind fun s₁ hs₁ => ?_
      obtain ⟨ht₁, hc₁, _⟩ := hs₁
      simp only
      split
      · obtain ⟨ht, hc⟩ := hc₁.iput (ht₁.stays (hstays ip))
        exact .ok ⟨ht₁.trans ht, hc, by cases parent <;> trivial⟩
      · rename_i hdir
        rw [not_ne_iff, ht₁.inode] at hdir
        split
        · rename_i hlast
          obtain ⟨hparent, rfl⟩ := hlast
          subst hparent
          rw [elements_nil]
          exact .ok ⟨ht₁, hc₁, hdir, [], rfl, rfl⟩
        · refine (hc₁.dirlookup ip name').bind fun r hr => ?_
          obtain ⟨found, s₂⟩ := r
          obtain ⟨ht₂, -, hr⟩ := hr
          have ht := ht₁.trans ht₂
          cases found with
          | none =>
            obtain ⟨ht₃, hc₃⟩ := hr.1.iput (ht.stays (hstays ip))
            exact .ok ⟨ht.trans ht₃, hc₃, by cases parent <;> trivial⟩
          | some res =>
            obtain ⟨ip', k⟩ := res
            obtain ⟨hc₂, e, hfind, rfl⟩ := hr
            rw [ht₁.inode] at hfind
            obtain ⟨ht₃, hc₃⟩ := (hc₂.perm (.swap ..)).iput (ht.stays (hstays ip)).weaken
            have ht' := ht.trans ht₃
            have hnext : strict → (s.inode e.inum).type ≠ .free := by
              intro hs
              obtain ⟨i, -, hi, hinum, -⟩ := findEntry_some hfind
              exact hclosed hs ip hdir e (mem_of_getElem? hi) hinum
            refine (ih hc₃ (fun i => ht'.stays (hstays i)) (ht'.inode ▸ hclosed)
              (ht'.inode ▸ hnext)).imp fun r hr => ?_
            refine ⟨ht'.trans hr.1, hr.2.1, ?_⟩
            have hfinds := hr.2.2
            rw [ht'.inode] at hfinds
            exact hfinds.cons hdir hfind

theorem Counted.enter {cwd : Nat} (h : Counted held s) (hcwd : 0 < s.users cwd) (path : Path) :
    Ends (enter s cwd path) (fun s' => Touches s s' ∧ Counted (start cwd path :: held) s')
      (Avoids strict) := by
  rw [Directory.enter, start]
  split
  · exact h.iget.imp fun s' hs' => ⟨hs'.1, hs'.2.1⟩
  · have hcount := h.count cwd
    exact .ok (h.idup (by omega))

/-- What `namex` needs of a state: exact references, inodes that stay while it drops its
own references, and a current directory in use. -/
structure Walkable (strict : Prop) (held : List Nat) (s : State) (cwd : Nat) : Prop where
  counted : Counted held s
  stays : ∀ i, Stays held s i
  closed : strict → Closed s.inode
  root : strict → (s.inode rootino).type ≠ .free
  cwd : 0 < s.users cwd

theorem Walkable.start_allocated {cwd : Nat} (h : Walkable strict held s cwd) (path : Path)
    (hs : strict) : (s.inode (start cwd path)).type ≠ .free := by
  rw [start]
  split
  · exact h.root hs
  · exact h.counted.used cwd h.cwd

theorem Walkable.namex {cwd : Nat} {path : Path} {parent : Bool}
    (h : Walkable strict held s cwd) :
    Ends (namex s cwd path parent) (fun r => Touches s r.2 ∧
      Counted (withResult held r.1) r.2 ∧
      Finds s.inode (start cwd path) path.elements parent r.1) (Avoids strict) := by
  refine (h.counted.enter h.cwd path).bind fun s' hs' => ?_
  obtain ⟨ht, hc⟩ := hs'
  refine (hc.namexLoop (fun i => ht.stays (h.stays i)) (ht.inode ▸ h.closed)
    (ht.inode ▸ h.start_allocated path)).imp fun r hr => ⟨ht.trans hr.1, hr.2.1, ?_⟩
  rw [← ht.inode]
  exact hr.2.2

theorem Closed.follow {T : Nat → Inode} {d i : Nat} {names : List Name} (h : Closed T)
    (hd : (T d).type ≠ .free) (hi : follow T d names = some i) : (T i).type ≠ .free := by
  induction names generalizing d with
  | nil =>
    obtain rfl := some.inj hi
    exact hd
  | cons name names ih =>
    rw [Directory.follow] at hi
    split at hi
    · rename_i hdir
      obtain ⟨⟨k, e⟩, hfind, hrest⟩ := bind_eq_some_iff.mp hi
      obtain ⟨j, -, hj, hinum, -⟩ := findEntry_some hfind
      exact ih (h d hdir e (mem_of_getElem? hj) hinum) hrest
    · cases hi

theorem Walkable.namei {cwd : Nat} {path : Path} (h : Walkable strict held s cwd) :
    Ends (namei s cwd path) (fun r => Touches s r.2 ∧ Counted (r.1.toList ++ held) r.2 ∧
      ∀ ip ∈ r.1, follow s.inode (start cwd path) path.elements = some ip ∧
        (strict → (s.inode ip).type ≠ .free)) (Avoids strict) := by
  refine h.namex.bind fun r hr => ?_
  obtain ⟨found, s₁⟩ := r
  obtain ⟨ht, hc, hfinds⟩ := hr
  cases found with
  | none => exact .ok ⟨ht, hc, by rintro ip ⟨⟩⟩
  | some res =>
    obtain ⟨ip, name⟩ := res
    refine .ok ⟨ht, hc, ?_⟩
    rintro j ⟨⟩
    exact ⟨hfinds, fun hs => (h.closed hs).follow (h.start_allocated path hs) hfinds⟩

end Specs

end EafitOs.Directory
