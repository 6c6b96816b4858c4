import EafitOs.FileSystem.MkfsResult
import EafitOs.FileSystem.Reading

/-!
# What the kernel reads of the first image

`mkfs` and the kernel each know the layout of a file: `iappend` gives blocks to it by counting up,
`readi` finds them through `bmap`.
-/

namespace EafitOs.FileSystem.Mkfs

open Foundation Disk Function Appending List Option

variable {m m' : Image} {base inode : Nat → Dinode} {content : Nat → List UInt8} {i n b : Nat}
  {s : Store} {d d' : Dinode} {shape : Nat → Nat} {p : List UInt8}

theorem blockAt_of_held (hn : n < maxfile) (hheld : held sb s inode (slot i n) = some b) :
    blockAt s (inode i) n ≠ 0 ∧ (blockAt s (inode i) n).toNat = b ∧
      (¬n < ndirect → (inode i).addrs indirect ≠ 0) := by
  by_cases hdirect : n < ndirect
  · have hfin : Fin.ofNat (ndirect + 1) n = ⟨n, Nat.lt_succ_of_lt hdirect⟩ :=
      Fin.ext (Nat.mod_eq_of_lt (Nat.lt_succ_of_lt hdirect))
    rw [slot_direct hdirect, held] at hheld
    split at hheld
    · obtain ⟨hne, hb⟩ := ptr_eq_some.mp hheld
      rw [blockAt, if_pos hdirect, hfin]
      exact ⟨hne, hb, fun h => absurd hdirect h⟩
    · cases hheld
  · have hval : (Fin.ofNat nindirect (n - ndirect)).val = n - ndirect :=
      Nat.mod_eq_of_lt (by simp only [maxfile] at hn; omega)
    rw [slot_entry hdirect, held] at hheld
    split at hheld
    · obtain ⟨a, ha, hentry⟩ := bind_eq_some_iff.mp hheld
      obtain ⟨hind, rfl⟩ := ptr_eq_some.mp ha
      rw [hval] at hentry
      obtain ⟨hne, hb⟩ := ptr_eq_some.mp hentry
      rw [blockAt, if_neg hdirect]
      exact ⟨hne, hb, fun _ => hind⟩
    · cases hheld

namespace Made

theorem block (h : Made m content) (hn : n * bsize < (content i).length) :
    n < maxfile ∧ ∃ b, held sb m.store m.inode (slot i n) = some b := by
  have hlt : n < blocksFor (content i).length := by
    rw [blocksFor]
    simp only [bsize] at hn ⊢
    omega
  have hmax := Nat.lt_of_lt_of_le hlt (h.built.filled.fits i).2
  exact ⟨hmax, (h.built.filled.mapped i n hmax).mpr hlt⟩

theorem complete (h : Made m content) (hi : 1 ≤ i ∧ i < m.freeinode) :
    Complete m.store (m.inode i) := by
  have hsize := h.sizes i hi.1 hi.2
  obtain ⟨hlen, hshape⟩ := h.built.filled.fits i
  refine ⟨?_, fun bn hbn => ?_, fun hind => ?_⟩
  · rw [hsize]
    exact hlen.trans (Nat.mul_le_mul_right bsize hshape)
  · rw [hsize] at hbn
    obtain ⟨hmax, b, hb⟩ := h.block hbn
    exact (blockAt_of_held hmax hb).1
  · rw [hsize] at hind
    obtain ⟨hmax, b, hb⟩ := h.block hind
    exact (blockAt_of_held hmax hb).2.2 (Nat.lt_irrefl _)

theorem byteAt (h : Made m content) {off : Nat} (hoff : off < (content i).length) :
    byteAt m.store (m.inode i) off = (content i).getD off 0 := by
  obtain ⟨hmax, b, hb⟩ :=
    h.block (Nat.lt_of_le_of_lt (Nat.div_mul_le_self off bsize) hoff)
  rw [FileSystem.byteAt, (blockAt_of_held hmax hb).2.1, Image.bread_store,
    h.built.filled.bytes i _ hmax b hb]
  exact congrArg ((content i).getD · 0) (Nat.div_add_mod' off bsize)

theorem readi (h : Made m content) (hi : 1 ≤ i ∧ i < m.freeinode) :
    readi sb m.store (m.inode i) 0 (m.inode i).size = .ok (content i, m.inode i, m.store) := by
  have hsize := h.sizes i hi.1 hi.2
  have hin : ¬((m.inode i).size < 0 ∨ 2 ^ 32 ≤ (0 : UInt32).toNat + (m.inode i).size.toNat) := by
    rw [not_or]
    refine ⟨UInt32.not_lt.mpr (UInt32.zero_le), ?_⟩
    have := (m.inode i).size.toNat_lt
    simp only [UInt32.toNat_zero]
    omega
  have hbytes : (List.range (content i).length).map
      (fun j => FileSystem.byteAt m.store (m.inode i) (0 + j)) = content i := by
    refine ext_getElem (by simp) fun k hk hk' => ?_
    rw [getElem_map, getElem_range, Nat.zero_add, h.byteAt hk',
      getD_eq_getElem _ _ hk']
  rw [readi_complete (h.complete hi), if_neg hin, hsize]
  simp only [UInt32.toNat_zero, Nat.sub_zero, Nat.min_self, hbytes]

end Made

def appends (m : Image) (calls : List (Nat × List UInt8)) : Option Image :=
  calls.foldlM (fun m c => m.iappend c.1 c.2) m

def appendedTo (calls : List (Nat × List UInt8)) (i : Nat) : List UInt8 :=
  (calls.filter fun c => c.1 = i).flatMap Prod.snd

def roomFor (p : List UInt8) : Nat := 2 * (p.length / bsize + 2)

theorem update_appendedTo (content : Nat → List UInt8) (c : Nat × List UInt8)
    (calls : List (Nat × List UInt8)) (i : Nat) :
    update content c.1 (content c.1 ++ c.2) i ++ appendedTo calls i =
      content i ++ appendedTo (c :: calls) i := by
  rw [appendedTo, appendedTo, filter_cons]
  by_cases hi : c.1 = i
  · subst i
    simp
  · simp [hi, update_of_ne (Ne.symm hi)]

theorem Made.appends (h : Made m content) {calls : List (Nat × List UInt8)}
    (hlive : ∀ c ∈ calls, 1 ≤ c.1 ∧ c.1 < m.freeinode) (hrun : appends m calls = some m') :
    Made m' (fun i => content i ++ appendedTo calls i) ∧ m'.freeinode = m.freeinode := by
  induction calls generalizing m content with
  | nil =>
    obtain rfl := some.inj hrun
    simpa [appendedTo] using h
  | cons c calls ih =>
    obtain ⟨m₁, hcall, hrest⟩ := bind_eq_some_iff.mp hrun
    obtain ⟨hmade, hino⟩ := h.iappend (hlive c mem_cons_self) hcall
    obtain ⟨hfinal, hino'⟩ := ih hmade
      (fun c' hc' => hino.symm ▸ hlive c' (mem_cons_of_mem c hc')) hrest
    simp only [update_appendedTo] at hfinal
    exact ⟨hfinal, hino'.trans hino⟩

/-- A round moves to the next block, so the rounds are counted by blocks. -/
theorem Appending.loop_enough {fuel : Nat} (h : Appending m base i d shape content)
    (hshape : shape i = blocksFor (content i).length) (hfuel : p.length ≤ fuel)
    (hmax : (content i).length + p.length ≤ maxfile * bsize)
    (hroom : m.freeblock + 2 * (blocksFor ((content i).length + p.length) -
      (content i).length / bsize) ≤ fssize) :
    ∃ off d' m', Image.iappendLoop fuel m d (content i).length p = some (off, d', m') ∧
      m'.freeblock ≤ m.freeblock + 2 * (blocksFor ((content i).length + p.length) -
        (content i).length / bsize) := by
  induction fuel generalizing m d content shape p with
  | zero =>
    exact ⟨_, _, _, rfl, Nat.le_add_right _ _⟩
  | succ fuel ih =>
    rw [Image.iappendLoop]
    by_cases hp : p = []
    · rw [if_pos hp]
      exact ⟨_, _, _, rfl, Nat.le_add_right _ _⟩
    · rw [if_neg hp]
      have hpos : 0 < p.length := length_pos_iff.mpr hp
      obtain ⟨n, hn⟩ : ∃ n, n = (content i).length / bsize := ⟨_, rfl⟩
      obtain ⟨n₁, hn₁⟩ : ∃ n₁, n₁ = min p.length ((n + 1) * bsize - (content i).length) :=
        ⟨_, rfl⟩
      have hlow : (content i).length < (n + 1) * bsize ∧ n * bsize ≤ (content i).length := by
        simp only [bsize] at hn ⊢
        omega
      have hnmax : n < maxfile := by
        by_contra hge
        have := Nat.mul_le_mul_right bsize (Nat.not_lt.mp hge)
        omega
      have htake : (p.take n₁).length = n₁ := by
        rw [length_take]
        omega
      have htake' : p.take n₁ ≠ [] := by
        rw [← length_pos_iff, htake]
        omega
      have hdrop : (p.drop n₁).length = p.length - n₁ := length_drop
      have hblocks : n + 1 ≤ blocksFor ((content i).length + p.length) := by
        rw [blocksFor]
        simp only [bsize] at hlow ⊢
        omega
      rw [← hn] at hroom ⊢
      rw [if_neg (Nat.not_le.mpr hnmax), ← hn₁]
      obtain ⟨x, d₁, m₁, heq, hread, happ, -, hfree⟩ | hends :=
        h.round hshape hn hnmax htake' (by omega)
      · simp only [heq, hread, bind_eq_bind, bind_some]
        have hlen : (update content i (content i ++ p.take n₁) i).length =
            (content i).length + n₁ := by
          rw [update_self, length_append, htake]
        rw [htake] at happ
        have hsum : (content i).length + n₁ + (p.length - n₁) = (content i).length + p.length := by
          omega
        -- after the round the next block begins, or no byte is left
        have hnext : p.length = n₁ ∨ ((content i).length + n₁) / bsize = n + 1 := by
          simp only [bsize] at hn₁ hlow ⊢
          omega
        rcases hnext with hall | hblock
        · have hnil : p.drop n₁ = [] := drop_eq_nil_of_le (Nat.le_of_eq hall)
          rw [hnil, Image.iappendLoop_nil]
          refine ⟨_, _, _, rfl, ?_⟩
          change m₁.freeblock ≤ _
          omega
        · have hrest : (p.drop n₁).length ≤ fuel := by omega
          have hstep := ih happ (by rw [update_self, hlen]) hrest
            (by rw [hlen, hdrop, hsum]; exact hmax)
            (by
              rw [hlen, hdrop, hsum, hblock]
              change m₁.freeblock + _ ≤ _
              omega)
          rw [hlen, hdrop, hsum, hblock] at hstep
          obtain ⟨off, d', m', hrun, hle⟩ := hstep
          refine ⟨off, d', m', hrun, hle.trans ?_⟩
          change m₁.freeblock + _ ≤ _
          omega
      · exact absurd hends.full (by omega)

theorem Made.iappend_enough (h : Made m content) (hi : 1 ≤ i ∧ i < m.freeinode)
    (hmax : (content i).length + p.length ≤ maxfile * bsize)
    (hroom : m.freeblock + roomFor p ≤ fssize) :
    ∃ m', m.iappend i p = some m' ∧ m'.freeblock ≤ m.freeblock + roomFor p := by
  have hlt := Nat.lt_of_lt_of_le hi.2 h.built.inodes_le
  have hblocks : 2 * (blocksFor ((content i).length + p.length) - (content i).length / bsize) ≤
      roomFor p := by
    rw [roomFor, blocksFor]
    simp only [bsize]
    omega
  obtain ⟨off, d, m₁, hloop, hfree⟩ :=
    (h.appending hi).loop_enough rfl (Nat.le_refl _) hmax (by omega)
  obtain ⟨rfl, hino, happ⟩ := (h.appending hi).loop rfl (Nat.le_refl _) hloop
  obtain ⟨m₂, hw, -, -, hblock⟩ := h.appended happ hino
  refine ⟨m₂, ?_, by omega⟩
  rw [Image.iappend, rinode_eq h.built.length hlt]
  simp only [bind_eq_bind, bind_some, h.sizes i hi.1 hi.2, hloop, hw]

theorem Made.appends_enough (h : Made m content) {calls : List (Nat × List UInt8)}
    (hlive : ∀ c ∈ calls, 1 ≤ c.1 ∧ c.1 < m.freeinode)
    (hmax : ∀ i, (content i).length + (appendedTo calls i).length ≤ maxfile * bsize)
    (hroom : m.freeblock + (calls.map fun c => roomFor c.2).sum ≤ fssize) :
    ∃ m', Mkfs.appends m calls = some m' := by
  induction calls generalizing m content with
  | nil => exact ⟨m, rfl⟩
  | cons c calls ih =>
    rw [map_cons, sum_cons] at hroom
    have hfits : (content c.1).length + c.2.length ≤ maxfile * bsize := by
      have := hmax c.1
      simp only [appendedTo, filter_cons, decide_true, if_true, flatMap_cons,
        length_append] at this
      omega
    obtain ⟨m₁, hcall, hfree⟩ :=
      h.iappend_enough (hlive c mem_cons_self) hfits (by omega)
    obtain ⟨hmade, hino⟩ := h.iappend (hlive c mem_cons_self) hcall
    obtain ⟨m', hrest⟩ := ih hmade
      (fun c' hc' => hino.symm ▸ hlive c' (mem_cons_of_mem c hc'))
      (fun i => by
        have := hmax i
        rwa [← length_append, ← update_appendedTo, length_append] at this)
      (by omega)
    exact ⟨m', bind_eq_some_iff.mpr ⟨m₁, hcall, hrest⟩⟩

/-- The kernel reads of every inode the bytes appended to it, and the calls fail only for want
of room. -/
theorem kernel_reads_appended (m : Image) (content : Nat → List UInt8) (h : Made m content)
    (calls : List (Nat × List UInt8)) (hlive : ∀ c ∈ calls, 1 ≤ c.1 ∧ c.1 < m.freeinode) :
    (∀ m', appends m calls = some m' → ∀ i, 1 ≤ i → i < m.freeinode →
      readi sb m'.store (m'.inode i) 0 (m'.inode i).size =
        .ok (content i ++ appendedTo calls i, m'.inode i, m'.store)) ∧
    ((∀ i, (content i).length + (appendedTo calls i).length ≤ maxfile * bsize) →
      m.freeblock + (calls.map fun c => roomFor c.2).sum ≤ fssize →
      ∃ m', appends m calls = some m') := by
  refine ⟨fun m' hrun i hlow hhigh => ?_, h.appends_enough hlive⟩
  obtain ⟨hmade, hino⟩ := h.appends hlive hrun
  exact hmade.readi ⟨hlow, hino.symm ▸ hhigh⟩

/-- Two files that are appended to in turn. -/
theorem kernel_reads_appended_two : ∃ (m m' : Image) (content : Nat → List UInt8),
    Made m content ∧ appends m [(1, [7]), (2, [8]), (1, [9])] = some m' ∧
      readi sb m'.store (m'.inode 1) 0 (m'.inode 1).size =
        .ok (content 1 ++ [7, 9], m'.inode 1, m'.store) := by
  obtain ⟨m₁, -, hmade₁, hino₁, hfree₁⟩ :=
    made_blank.ialloc typeDir (by rw [blank_eq]; decide) (by rw [blank_eq]) (by decide)
  obtain ⟨m₂, -, hmade₂, hino₂, hfree₂⟩ :=
    hmade₁.ialloc typeFile (by rw [hino₁, blank_eq]; decide) (by rw [hino₁, blank_eq]; decide)
      (by decide)
  have hlive : ∀ c ∈ [(1, [(7 : UInt8)]), (2, [8]), (1, [9])], 1 ≤ c.1 ∧ c.1 < m₂.freeinode := by
    rw [hino₂, hino₁, blank_eq]
    decide
  obtain ⟨hread, henough⟩ := kernel_reads_appended m₂ _ hmade₂ _ hlive
  have hsmall : ∀ i, (appendedTo [(1, [7]), (2, [8]), (1, [9])] i).length ≤ 3 := by
    intro i
    by_cases h1 : 1 = i
    · subst i
      decide
    · by_cases h2 : 2 = i
      · subst i
        decide
      · simp [appendedTo, h1, h2]
  obtain ⟨m', hrun⟩ := henough
    (fun i => by rw [length_nil, Nat.zero_add]; exact (hsmall i).trans (by decide))
    (by rw [hfree₂, hfree₁, blank_eq]; decide)
  exact ⟨m₂, m', _, hmade₂, hrun, hread m' hrun 1 (Nat.le_refl 1) (hlive _ mem_cons_self).2⟩

end EafitOs.FileSystem.Mkfs
