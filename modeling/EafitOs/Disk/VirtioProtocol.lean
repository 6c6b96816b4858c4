import EafitOs.Disk.Virtio
import Mathlib.Data.Finset.Card
import Mathlib.Data.Finset.Range

/-!
# Descriptor chains of the virtio disk

Every request that a process has submitted and not yet released owns three descriptors,
linked into a chain. Its head is in `avail`, with the device, or in `used` as long as the
buffer is marked as owned by the disk, and in one of them only.
-/

namespace EafitOs.Disk

open Foundation Function List Option

namespace Virtio

variable {B : Type} {d d' : Virtio B} {i : Nat}

theorem allocDesc_some (h : d.allocDesc = some (i, d')) :
    i < num ∧ d.free i = true ∧ d' = { d with free := update d.free i false } := by
  obtain ⟨j, hfind, heq⟩ := map_eq_some_iff.mp h
  obtain ⟨rfl, rfl⟩ := Prod.mk.inj heq
  exact ⟨mem_range.mp (mem_of_find?_eq_some hfind), List.find?_some hfind, rfl⟩

theorem freeDesc_ok (hlt : i < num) (htaken : d.free i = false) :
    d.freeDesc i = .ok { d with
      desc := update d.desc i ⟨.null, 0, 0, 0⟩
      free := update d.free i true } := by
  rw [freeDesc, if_neg (Nat.not_le_of_lt hlt), htaken]
  rfl

theorem free_restored (hfree : d.free i = true) :
    update (update d.free i false) i true = d.free := by
  rw [update_idem, ← hfree, update_eq_self]

theorem free_restored_two {j : Nat} (hi : d.free i = true) (hj : d.free j = true) (hne : j ≠ i) :
    update (update (update (update d.free i false) j false)
      i true) j true = d.free := by
  rw [update_comm hne.symm, update_idem, update_comm hne,
    update_idem]
  nth_rewrite 1 [← hi]
  rw [update_eq_self, ← hj, update_eq_self]

theorem free_of_update {j : Nat} (h : update d.free i false j = true) :
    j ≠ i ∧ d.free j = true := by
  by_cases heq : j = i
  · rw [heq, update_self] at h
    cases h
  · rw [update_of_ne heq] at h
    exact ⟨heq, h⟩

/-- The two ways `alloc3_desc` ends. When it fails, only descriptors that are free have been
written. -/
inductive Alloc3 (d : Virtio B) : Option (List Nat) × Virtio B → Prop
  | found {i₀ i₁ i₂} (hlt : ∀ i ∈ [i₀, i₁, i₂], i < num) (hnodup : [i₀, i₁, i₂].Nodup)
      (hfree : ∀ i ∈ [i₀, i₁, i₂], d.free i = true) :
      Alloc3 d (some [i₀, i₁, i₂], { d with
        free := update (update (update d.free i₀ false) i₁ false) i₂ false })
  | failed {desc} (hdesc : ∀ i, d.free i = false → desc i = d.desc i) :
      Alloc3 d (none, { d with desc := desc })

theorem alloc3Desc_spec (d : Virtio B) : ∃ r, d.alloc3Desc = .ok r ∧ Alloc3 d r := by
  have hkept : ∀ {i j}, d.free i = true → d.free j = false → j ≠ i := by
    rintro i j hi hj rfl
    rw [hi] at hj
    cases hj
  rw [alloc3Desc, allocLoop]
  cases h₀ : d.allocDesc with
  | none => exact ⟨_, rfl, .failed fun _ _ => rfl⟩
  | some r =>
    obtain ⟨i₀, d₀⟩ := r
    obtain ⟨hlt₀, hfree₀, rfl⟩ := allocDesc_some h₀
    simp only [allocLoop, nil_append, singleton_append]
    cases h₁ : allocDesc { d with free := update d.free i₀ false } with
    | none =>
      have hback := freeDesc_ok (d := { d with free := update d.free i₀ false }) hlt₀
        (update_self ..)
      simp only [free_restored hfree₀] at hback
      refine ⟨_, by simp only [foldlM_cons, foldlM_nil, hback]; rfl,
        .failed fun i hi => update_of_ne (hkept hfree₀ hi) ..⟩
    | some r =>
      obtain ⟨i₁, d₁⟩ := r
      obtain ⟨hlt₁, hfree₁, rfl⟩ := allocDesc_some h₁
      obtain ⟨hne₁, hfree₁⟩ := free_of_update hfree₁
      simp only
      cases h₂ : allocDesc { d with
          free := update (update d.free i₀ false) i₁ false } with
      | none =>
        have htaken₀ : update (update d.free i₀ false) i₁ false i₀ = false := by
          rw [update_of_ne hne₁.symm, update_self]
        have hback₀ := freeDesc_ok (d := { d with
          free := update (update d.free i₀ false) i₁ false }) hlt₀ htaken₀
        have hback₁ := freeDesc_ok (i := i₁) (d := { d with
          desc := update d.desc i₀ ⟨.null, 0, 0, 0⟩
          free := update (update (update d.free i₀ false) i₁ false)
            i₀ true }) hlt₁ (by
              simp only [update_of_ne hne₁, update_self])
        simp only [free_restored_two hfree₀ hfree₁ hne₁] at hback₁
        refine ⟨_, by simp only [foldlM_cons, foldlM_nil, hback₀, ok_bind, hback₁]; rfl,
          .failed fun i hi => ?_⟩
        rw [update_of_ne (hkept hfree₁ hi), update_of_ne (hkept hfree₀ hi)]
      | some r =>
        obtain ⟨i₂, d₂⟩ := r
        obtain ⟨hlt₂, hfree₂, rfl⟩ := allocDesc_some h₂
        obtain ⟨hne₂₁, hfree₂⟩ := free_of_update (d := { d with
          free := update d.free i₀ false }) hfree₂
        obtain ⟨hne₂₀, hfree₂⟩ := free_of_update hfree₂
        refine ⟨_, rfl, .found ?_ ?_ ?_⟩
        · simp [hlt₀, hlt₁, hlt₂]
        · simp [hne₁.symm, hne₂₀.symm, hne₂₁.symm]
        · simp [hfree₀, hfree₁, hfree₂]

structure Linked (d : Virtio B) (i₀ i₁ i₂ : Nat) : Prop where
  lt : ∀ i ∈ [i₀, i₁, i₂], i < num
  nodup : [i₀, i₁, i₂].Nodup
  taken : ∀ i ∈ [i₀, i₁, i₂], d.free i = false
  first : (d.desc i₀).flags &&& descNext ≠ 0 ∧ (d.desc i₀).next = i₁
  second : (d.desc i₁).flags &&& descNext ≠ 0 ∧ (d.desc i₁).next = i₂
  last : (d.desc i₂).flags &&& descNext = 0

structure Chain (d : Virtio B) (b : B) (i₀ i₁ i₂ : Nat) : Prop extends d.Linked i₀ i₁ i₂ where
  data : (d.desc i₁).addr = .data b
  status : (d.desc i₂).addr = .status i₀
  info : (d.info i₀).b = some b

variable {b : B} {i₀ i₁ i₂ : Nat}

theorem Chain.congr (h : d.Chain b i₀ i₁ i₂) (hfree : ∀ i ∈ [i₀, i₁, i₂], d'.free i = d.free i)
    (hdesc : ∀ i ∈ [i₀, i₁, i₂], d'.desc i = d.desc i) (hinfo : (d'.info i₀).b = (d.info i₀).b) :
    d'.Chain b i₀ i₁ i₂ := by
  have hdesc₀ := hdesc i₀ (by simp)
  have hdesc₁ := hdesc i₁ (by simp)
  have hdesc₂ := hdesc i₂ (by simp)
  exact ⟨⟨h.lt, h.nodup, fun i hi => (hfree i hi).trans (h.taken i hi), hdesc₀ ▸ h.first,
    hdesc₁ ▸ h.second, hdesc₂ ▸ h.last⟩, hdesc₁ ▸ h.data, hdesc₂ ▸ h.status, hinfo.trans h.info⟩

theorem submit_chain (blockno : UInt32) (write : Bool) (hlt : ∀ i ∈ [i₀, i₁, i₂], i < num)
    (hnodup : [i₀, i₁, i₂].Nodup) (htaken : ∀ i ∈ [i₀, i₁, i₂], d.free i = false) :
    (d.submit blockno b write i₀ i₁ i₂).Chain b i₀ i₁ i₂ := by
  obtain ⟨h₀₁, h₀₂, h₁₂⟩ : i₀ ≠ i₁ ∧ i₀ ≠ i₂ ∧ i₁ ≠ i₂ := by simpa [and_assoc] using hnodup
  refine ⟨⟨hlt, hnodup, htaken, ?_, ?_, ?_⟩, ?_, ?_, ?_⟩
  · simp [submit, update_of_ne h₀₁, update_of_ne h₀₂, descNext]
  · simp only [submit, update_of_ne h₁₂, update_self, and_true]
    cases write <;> decide
  · simp only [submit, update_self]
    decide
  · simp [submit, update_of_ne h₁₂]
  · simp [submit]
  · simp [submit]

theorem submit_desc {blockno : UInt32} {write : Bool} (hi : i ∉ [i₀, i₁, i₂]) :
    (d.submit blockno b write i₀ i₁ i₂).desc i = d.desc i := by
  obtain ⟨h₀, h₁, h₂⟩ : i ≠ i₀ ∧ i ≠ i₁ ∧ i ≠ i₂ := by simpa using hi
  simp only [submit, update_of_ne h₀, update_of_ne h₁, update_of_ne h₂]

/-- The descriptor `i` after `free_desc`. -/
def freed (d : Virtio B) (i : Nat) : Virtio B :=
  { d with
    desc := update d.desc i ⟨.null, 0, 0, 0⟩
    free := update d.free i true }

theorem freeChain_next {k : Nat} (hlt : i < num) (htaken : d.free i = false)
    (hnext : (d.desc i).flags &&& descNext ≠ 0) :
    freeChain (k + 1) d i = freeChain k (d.freed i) (d.desc i).next := by
  rw [freeChain, freeDesc_ok hlt htaken, ok_bind, if_pos hnext]
  rfl

theorem freeChain_last {k : Nat} (hlt : i < num) (htaken : d.free i = false)
    (hlast : (d.desc i).flags &&& descNext = 0) : freeChain (k + 1) d i = .ok (d.freed i) := by
  rw [freeChain, freeDesc_ok hlt htaken, ok_bind, if_neg (not_not.mpr hlast)]
  rfl

theorem Linked.freeChain (h : d.Linked i₀ i₁ i₂) (k : Nat) :
    freeChain (k + 3) d i₀ = .ok (((d.freed i₀).freed i₁).freed i₂) := by
  obtain ⟨h₀₁, h₀₂, h₁₂⟩ : i₀ ≠ i₁ ∧ i₀ ≠ i₂ ∧ i₁ ≠ i₂ := by simpa [and_assoc] using h.nodup
  have hdesc₁ : (d.freed i₀).desc i₁ = d.desc i₁ := update_of_ne h₀₁.symm ..
  have hdesc₂ : ((d.freed i₀).freed i₁).desc i₂ = d.desc i₂ :=
    (update_of_ne h₁₂.symm ..).trans (update_of_ne h₀₂.symm ..)
  have hfree₁ : (d.freed i₀).free i₁ = false :=
    (update_of_ne h₀₁.symm ..).trans (h.taken i₁ (by simp))
  have hfree₂ : ((d.freed i₀).freed i₁).free i₂ = false :=
    ((update_of_ne h₁₂.symm ..).trans (update_of_ne h₀₂.symm ..)).trans
      (h.taken i₂ (by simp))
  rw [freeChain_next (h.lt i₀ (by simp)) (h.taken i₀ (by simp)) h.first.1, h.first.2,
    freeChain_next (h.lt i₁ (by simp)) hfree₁ (by rw [hdesc₁]; exact h.second.1), hdesc₁,
    h.second.2, freeChain_last (h.lt i₂ (by simp)) hfree₂ (by rw [hdesc₂]; exact h.last)]

theorem freed_other (hi : i ∉ [i₀, i₁, i₂]) :
    (((d.freed i₀).freed i₁).freed i₂).desc i = d.desc i ∧
      (((d.freed i₀).freed i₁).freed i₂).free i = d.free i := by
  obtain ⟨h₀, h₁, h₂⟩ : i ≠ i₀ ∧ i ≠ i₁ ∧ i ≠ i₂ := by simpa using hi
  simp only [freed, update_of_ne h₀, update_of_ne h₁, update_of_ne h₂,
    and_self]

theorem freed_self (hi : i ∈ [i₀, i₁, i₂]) :
    (((d.freed i₀).freed i₁).freed i₂).free i = true := by
  simp only [freed, update_apply]
  simp only [mem_cons, not_mem_nil, or_false] at hi
  obtain rfl | rfl | rfl := hi <;> simp

end Virtio

namespace DiskState

variable {P B : Type}

/-- The heads of the requests that are in `avail`, with the device, or in `used`. -/
def heads (s : DiskState P B) : List Nat :=
  s.disk.avail.contents num counterRange ++ s.pending ++ s.disk.used.contents num counterRange

structure Valid (s : DiskState P B) : Prop where
  chains : ∀ p b i₀ i₁ i₂, s.caller p = .waiting b i₀ i₁ i₂ → s.disk.Chain b i₀ i₁ i₂
  apart : ∀ p q, p ≠ q → ∀ i ∈ (s.caller p).chain, i ∉ (s.caller q).chain
  owned : ∀ i < num, s.disk.free i = false → ∃ p, i ∈ (s.caller p).chain
  holders : ∀ p b, (s.caller p).buffer = some b → s.holder b = some p
  avail : RingBuffer.Valid num counterRange s.disk.avail
  used : RingBuffer.Valid num counterRange s.disk.used
  nodup : s.heads.Nodup
  inFlight : ∀ h, h ∈ s.heads ↔ ∃ p b i₁ i₂, s.caller p = .waiting b h i₁ i₂ ∧ s.busy b = true
  status : ∀ h ∈ s.disk.used.contents num counterRange, (s.disk.info h).status = 0

variable {s s' : DiskState P B} {p q : P} {b : B} {i i₀ i₁ i₂ : Nat}

section

variable (h : s.Valid)
include h

theorem Valid.holder_unique (hp : (s.caller p).buffer = some b)
    (hq : (s.caller q).buffer = some b) : p = q :=
  some.inj ((h.holders p b hp).symm.trans (h.holders q b hq))

theorem Valid.taken (hi : i ∈ (s.caller p).chain) : i < num ∧ s.disk.free i = false := by
  cases hc : s.caller p with
  | idle => rw [hc] at hi; cases hi
  | allocating => rw [hc] at hi; cases hi
  | waiting b i₀ i₁ i₂ =>
    rw [hc] at hi
    exact ⟨(h.chains p b i₀ i₁ i₂ hc).lt i hi, (h.chains p b i₀ i₁ i₂ hc).taken i hi⟩

theorem Valid.head_owner (hi : i ∈ s.heads) : ∃ p, i ∈ (s.caller p).chain := by
  obtain ⟨p, b, i₁, i₂, hp, -⟩ := (h.inFlight i).mp hi
  exact ⟨p, by rw [hp]; exact mem_cons_self⟩

theorem Valid.length_heads_lt {l : List Nat} (hsub : l.Sublist s.heads)
    (hi : i < num) (hnot : i ∉ l) : l.length < num := by
  have hsubset : l.toFinset ⊆ (Finset.range num).erase i := by
    intro j hj
    have hj' := mem_toFinset.mp hj
    obtain ⟨q, hq⟩ := h.head_owner (hsub.subset hj')
    exact Finset.mem_erase.mpr ⟨fun heq => hnot (heq ▸ hj'), Finset.mem_range.mpr (h.taken hq).1⟩
  have hcard := Finset.card_le_card hsubset
  rw [toFinset_card_of_nodup (h.nodup.sublist hsub),
    Finset.card_erase_of_mem (Finset.mem_range.mpr hi), Finset.card_range] at hcard
  omega

theorem Valid.caller_eq (hp : i ∈ (s.caller p).chain) (hq : i ∈ (s.caller q).chain) : p = q := by
  by_contra hne
  exact h.apart p q hne i hp hq

theorem Valid.request (hhead : i ∈ s.heads) :
    ∃ p b i₁ i₂, s.caller p = .waiting b i i₁ i₂ ∧ s.busy b = true ∧ s.disk.Chain b i i₁ i₂ := by
  obtain ⟨p, b, i₁, i₂, hp, hbusy⟩ := (h.inFlight i).mp hhead
  exact ⟨p, b, i₁, i₂, hp, hbusy, h.chains p b i i₁ i₂ hp⟩

theorem Valid.frame (hdisk : ∃ desc, s'.disk = { s.disk with desc := desc } ∧
      ∀ i, s.disk.free i = false → desc i = s.disk.desc i)
    (hbusy : s'.busy = s.busy) (hpending : s'.pending = s.pending)
    (hwaiting : ∀ p b i₀ i₁ i₂,
      s'.caller p = .waiting b i₀ i₁ i₂ ↔ s.caller p = .waiting b i₀ i₁ i₂)
    (hholders : ∀ p b, (s'.caller p).buffer = some b → s'.holder b = some p) : s'.Valid := by
  obtain ⟨desc, hdisk, hdesc⟩ := hdisk
  have hchain : ∀ p, (s'.caller p).chain = (s.caller p).chain := by
    intro p
    cases hc : s.caller p with
    | waiting b i₀ i₁ i₂ => rw [(hwaiting p b i₀ i₁ i₂).mpr hc]
    | _ =>
      cases hc' : s'.caller p with
      | waiting b i₀ i₁ i₂ =>
        rw [(hwaiting p b i₀ i₁ i₂).mp hc'] at hc
        cases hc
      | _ => rfl
  have hheads : s'.heads = s.heads := by rw [heads, heads, hdisk, hpending]
  refine ⟨fun p b i₀ i₁ i₂ hp => ?_, ?_, ?_, hholders, ?_, ?_, ?_, fun j => ?_, ?_⟩
  · have hold := h.chains p b i₀ i₁ i₂ ((hwaiting p b i₀ i₁ i₂).mp hp)
    rw [hdisk]
    exact hold.congr (fun _ _ => rfl) (fun i hi => hdesc i (hold.taken i hi)) rfl
  · simpa only [hchain] using h.apart
  · simpa only [hchain, hdisk] using h.owned
  · simpa only [hdisk] using h.avail
  · simpa only [hdisk] using h.used
  · simpa only [hheads] using h.nodup
  · simpa only [hheads, hwaiting, hbusy] using h.inFlight j
  · simpa only [hdisk] using h.status

theorem Valid.alloc [DecidableEq P] [DecidableEq B] {write : Bool}
    {blockno : UInt32} (hp : s.caller p = .allocating b write)
    (hlt : ∀ i ∈ [i₀, i₁, i₂], i < num) (hnodup : [i₀, i₁, i₂].Nodup)
    (hfree : ∀ i ∈ [i₀, i₁, i₂], s.disk.free i = true)
    (hdisk : s'.disk = Virtio.submit { s.disk with
      free := update (update (update s.disk.free i₀ false) i₁ false) i₂ false }
        blockno b write i₀ i₁ i₂)
    (hbusy : s'.busy = update s.busy b true) (hholder : s'.holder = s.holder)
    (hcaller : s'.caller = update s.caller p (.waiting b i₀ i₁ i₂))
    (hpending : s'.pending = s.pending) : s'.Valid := by
  -- the descriptors were free, so no request has one of them
  have hfresh : ∀ q, ∀ i ∈ (s.caller q).chain, i ∉ [i₀, i₁, i₂] := by
    intro q i hi hmem
    have htaken := (h.taken hi).2
    rw [hfree i hmem] at htaken
    cases htaken
  have hnew : ∀ i ∈ [i₀, i₁, i₂], update (update
      (update s.disk.free i₀ false) i₁ false) i₂ false i = false := by
    intro i hi
    simp only [mem_cons, not_mem_nil, or_false] at hi
    simp only [update_apply]
    obtain rfl | rfl | rfl := hi <;> simp
  have hold : ∀ i ∉ [i₀, i₁, i₂], update (update
      (update s.disk.free i₀ false) i₁ false) i₂ false i = s.disk.free i := by
    intro i hi
    obtain ⟨h₀, h₁, h₂⟩ : i ≠ i₀ ∧ i ≠ i₁ ∧ i ≠ i₂ := by simpa using hi
    simp only [update_of_ne h₀, update_of_ne h₁, update_of_ne h₂]
  have hhead : i₀ ∉ s.heads := by
    intro hmem
    obtain ⟨q, hq⟩ := h.head_owner hmem
    exact hfresh q i₀ hq mem_cons_self
  have hroom : s.disk.avail.count counterRange < num := by
    rw [← @RingBuffer.length_contents _ num]
    refine h.length_heads_lt ?_ (hlt i₀ mem_cons_self) fun hmem => hhead ?_
    · exact (sublist_append_left ..).trans (sublist_append_left ..)
    · exact mem_append_left _ (mem_append_left _ hmem)
  obtain ⟨havail, hcontents⟩ := h.avail.push (by decide) (by decide) hroom i₀
  have hother : ∀ q b', (s.caller q).buffer = some b' → q ≠ p → b' ≠ b := by
    rintro q b' hq hne rfl
    exact hne (h.holder_unique hq (by rw [hp]; rfl))
  have hself : s'.caller p = .waiting b i₀ i₁ i₂ := by rw [hcaller, update_self]
  have hne : ∀ q, q ≠ p → s'.caller q = s.caller q := by
    intro q hq
    rw [hcaller, update_of_ne hq]
  have hheads : s'.heads.Perm (i₀ :: s.heads) := by
    have heq : s'.heads = s.disk.avail.contents num counterRange ++ [i₀] ++ s.pending ++
        s.disk.used.contents num counterRange := by
      rw [← hcontents, heads, hdisk, hpending]
      rfl
    rw [heq, heads, append_assoc, append_assoc, append_assoc, singleton_append]
    exact perm_middle
  refine ⟨fun q b' j₀ j₁ j₂ hq => ?_, ?_, fun i hi htaken => ?_, ?_, ?_, ?_, ?_, fun j => ?_, ?_⟩
  · rw [hdisk]
    by_cases heq : q = p
    · rw [heq, hself] at hq
      cases hq
      exact Virtio.submit_chain blockno write hlt hnodup hnew
    · rw [hne q heq] at hq
      have hchain := h.chains q b' j₀ j₁ j₂ hq
      have hapart : ∀ i ∈ [j₀, j₁, j₂], i ∉ [i₀, i₁, i₂] := fun i hi =>
        hfresh q i (by rw [hq]; exact hi)
      refine hchain.congr (fun i hi => hold i (hapart i hi))
        (fun i hi => Virtio.submit_desc (hapart i hi)) ?_
      have hj₀ : j₀ ≠ i₀ := fun heq => hapart j₀ mem_cons_self (heq ▸ mem_cons_self)
      exact congrArg Info.b (update_of_ne hj₀ ..)
  · intro q q' hqq i hi hi'
    by_cases hq : q = p
    · rw [hq, hself] at hi
      rw [hne q' fun heq => hqq (hq.trans heq.symm)] at hi'
      exact hfresh q' i hi' hi
    · rw [hne q hq] at hi
      by_cases hq' : q' = p
      · rw [hq', hself] at hi'
        exact hfresh q i hi hi'
      · rw [hne q' hq'] at hi'
        exact h.apart q q' hqq i hi hi'
  · by_cases hmem : i ∈ [i₀, i₁, i₂]
    · exact ⟨p, by rw [hself]; exact hmem⟩
    · rw [hdisk] at htaken
      obtain ⟨q, hq⟩ := h.owned i hi ((hold i hmem).symm.trans htaken)
      have hqp : q ≠ p := by
        rintro rfl
        rw [hp] at hq
        cases hq
      exact ⟨q, by rw [hne q hqp]; exact hq⟩
  · intro q b' hq
    rw [hholder]
    by_cases heq : q = p
    · rw [heq, hself] at hq
      rw [heq]
      exact h.holders p b' (by rw [hp]; exact hq)
    · rw [hne q heq] at hq
      exact h.holders q b' hq
  · rw [hdisk]
    exact havail
  · rw [hdisk]
    exact h.used
  · exact hheads.nodup_iff.mpr (nodup_cons.mpr ⟨hhead, h.nodup⟩)
  · rw [hheads.mem_iff, mem_cons]
    constructor
    · rintro (rfl | hmem)
      · exact ⟨p, b, i₁, i₂, hself, by rw [hbusy, update_self]⟩
      · obtain ⟨q, b', j₁, j₂, hq, hbusy', -⟩ := h.request hmem
        have hqp : q ≠ p := by
          rintro rfl
          rw [hp] at hq
          cases hq
        refine ⟨q, b', j₁, j₂, by rw [hne q hqp]; exact hq, ?_⟩
        rw [hbusy, update_of_ne (hother q b' (by rw [hq]; rfl) hqp)]
        exact hbusy'
    · rintro ⟨q, b', j₁, j₂, hq, hbusy'⟩
      by_cases heq : q = p
      · rw [heq, hself] at hq
        cases hq
        exact .inl rfl
      · rw [hne q heq] at hq
        rw [hbusy, update_of_ne (hother q b' (by rw [hq]; rfl) heq)] at hbusy'
        exact .inr ((h.inFlight j).mpr ⟨q, b', j₁, j₂, hq, hbusy'⟩)
  · intro j hj
    rw [hdisk] at hj ⊢
    have hj₀ : j ≠ i₀ := by
      rintro rfl
      exact hhead (mem_append_right _ hj)
    exact (congrArg Info.status (update_of_ne hj₀ ..)).trans (h.status j hj)

theorem Valid.finish [DecidableEq P] (hp : s.caller p = .waiting b i₀ i₁ i₂)
    (hidle : s.busy b = false)
    (hdisk : s'.disk = ((Virtio.freed { s.disk with
      info := update s.disk.info i₀ { s.disk.info i₀ with b := none } } i₀).freed i₁).freed i₂)
    (hbusy : s'.busy = s.busy) (hholder : s'.holder = s.holder)
    (hcaller : s'.caller = update s.caller p .idle) (hpending : s'.pending = s.pending) :
    s'.Valid := by
  have hself : s'.caller p = .idle := by rw [hcaller, update_self]
  have hne : ∀ q, q ≠ p → s'.caller q = s.caller q := by
    intro q hq
    rw [hcaller, update_of_ne hq]
  have hother : ∀ q i, i ∈ (s.caller q).chain → q ≠ p → i ∉ [i₀, i₁, i₂] := by
    intro q i hi hqp hmem
    exact hqp (h.caller_eq hi (by rw [hp]; exact hmem))
  have hwaits : ∀ q, ∀ {c : Caller B}, s'.caller q = c → c ≠ .idle → q ≠ p := by
    rintro q c hq hc rfl
    exact hc (hq.symm.trans hself)
  have hheads : s'.heads = s.heads := by
    rw [heads, heads, hdisk, hpending]
    rfl
  refine ⟨fun q b' j₀ j₁ j₂ hq => ?_, ?_, fun i hi htaken => ?_, ?_, ?_, ?_, ?_, fun j => ?_, ?_⟩
  · have hqp := hwaits q hq (by simp)
    rw [hne q hqp] at hq
    have hapart : ∀ i ∈ [j₀, j₁, j₂], i ∉ [i₀, i₁, i₂] := fun i hi =>
      hother q i (by rw [hq]; exact hi) hqp
    rw [hdisk]
    refine (h.chains q b' j₀ j₁ j₂ hq).congr (fun i hi => (Virtio.freed_other (hapart i hi)).2)
      (fun i hi => (Virtio.freed_other (hapart i hi)).1) ?_
    have hj₀ : j₀ ≠ i₀ := fun heq => hapart j₀ mem_cons_self (heq ▸ mem_cons_self)
    exact congrArg Info.b (update_of_ne hj₀ ..)
  · have hsub : ∀ q, ∀ i ∈ (s'.caller q).chain, i ∈ (s.caller q).chain := by
      intro q i hi
      by_cases heq : q = p
      · rw [heq, hself] at hi
        cases hi
      · rwa [hne q heq] at hi
    exact fun q q' hqq i hi hi' => h.apart q q' hqq i (hsub q i hi) (hsub q' i hi')
  · rw [hdisk] at htaken
    have hmem : i ∉ [i₀, i₁, i₂] := by
      intro hmem
      rw [Virtio.freed_self hmem] at htaken
      cases htaken
    obtain ⟨q, hq⟩ := h.owned i hi ((Virtio.freed_other hmem).2.symm.trans htaken)
    have hqp : q ≠ p := by
      rintro rfl
      exact hmem (by rw [hp] at hq; exact hq)
    exact ⟨q, by rw [hne q hqp]; exact hq⟩
  · intro q b' hq
    have hqp : q ≠ p := by
      rintro rfl
      rw [hself] at hq
      cases hq
    rw [hholder]
    exact h.holders q b' (by rw [← hne q hqp]; exact hq)
  · rw [hdisk]
    exact h.avail
  · rw [hdisk]
    exact h.used
  · rw [hheads]
    exact h.nodup
  · rw [hheads, h.inFlight, hbusy]
    constructor
    · rintro ⟨q, b', j₁, j₂, hq, hbusy'⟩
      have hqp : q ≠ p := by
        rintro rfl
        rw [hp] at hq
        cases hq
        rw [hidle] at hbusy'
        cases hbusy'
      exact ⟨q, b', j₁, j₂, (hne q hqp).trans hq, hbusy'⟩
    · rintro ⟨q, b', j₁, j₂, hq, hbusy'⟩
      exact ⟨q, b', j₁, j₂, (hne q (hwaits q hq (by simp))).symm.trans hq, hbusy'⟩
  · intro j hj
    rw [hdisk] at hj ⊢
    refine Eq.trans ?_ (h.status j hj)
    change (update s.disk.info i₀ { s.disk.info i₀ with b := none } j).status = _
    by_cases hj₀ : j = i₀
    · rw [hj₀, update_self]
    · rw [update_of_ne hj₀]

theorem Valid.shift (hdesc : s'.disk.desc = s.disk.desc)
    (hfree : s'.disk.free = s.disk.free) (hinfo : ∀ i, (s'.disk.info i).b = (s.disk.info i).b)
    (hbusy : s'.busy = s.busy) (hholder : s'.holder = s.holder) (hcaller : s'.caller = s.caller)
    (havail : RingBuffer.Valid num counterRange s'.disk.avail)
    (hused : RingBuffer.Valid num counterRange s'.disk.used) (hheads : s'.heads.Perm s.heads)
    (hstatus : ∀ j ∈ s'.disk.used.contents num counterRange, (s'.disk.info j).status = 0) :
    s'.Valid where
  chains p b i₀ i₁ i₂ hp := by
    rw [hcaller] at hp
    exact (h.chains p b i₀ i₁ i₂ hp).congr (fun _ _ => by rw [hfree]) (fun _ _ => by rw [hdesc])
      (hinfo i₀)
  apart := by rw [hcaller]; exact h.apart
  owned := by rw [hcaller, hfree]; exact h.owned
  holders := by rw [hcaller, hholder]; exact h.holders
  avail := havail
  used := hused
  nodup := hheads.nodup_iff.mpr h.nodup
  inFlight j := by rw [hheads.mem_iff, h.inFlight, hcaller, hbusy]
  status := hstatus

theorem Valid.fetch (hne : s.disk.avail.head ≠ s.disk.avail.tail)
    (hdisk : s'.disk = { s.disk with avail := s.disk.avail.pop counterRange })
    (hbusy : s'.busy = s.busy) (hholder : s'.holder = s.holder) (hcaller : s'.caller = s.caller)
    (hpending : s'.pending = s.pending ++ [s.disk.avail.cell (s.disk.avail.head % num)]) :
    s'.Valid := by
  obtain ⟨havail, hcontents⟩ := h.avail.pop (by decide) (by decide)
    fun hzero => hne (h.avail.isEmpty_iff.mpr hzero)
  refine h.shift (by rw [hdisk]) (by rw [hdisk]) (fun _ => by rw [hdisk]) hbusy hholder hcaller
    (by rw [hdisk]; exact havail) (by rw [hdisk]; exact h.used) ?_ (by rw [hdisk]; exact h.status)
  rw [heads, heads, hdisk, hpending, hcontents, ← append_assoc, cons_append,
    cons_append, append_assoc _ [_], singleton_append]
  exact perm_middle

end

theorem writeStatus_chain {d : Virtio B} (h : d.Chain b i₀ i₁ i₂) :
    writeStatus d i₀ =
      { d with info := update d.info i₀ { d.info i₀ with status := 0 } } := by
  rw [writeStatus, h.first.2, h.second.2, h.status]

theorem Valid.complete (h : s.Valid) (hmem : i ∈ s.pending)
    (hdisk : s'.disk = { writeStatus s.disk i with
      used := (writeStatus s.disk i).used.push num counterRange i })
    (hbusy : s'.busy = s.busy) (hholder : s'.holder = s.holder) (hcaller : s'.caller = s.caller)
    (hpending : s'.pending = s.pending.erase i) : s'.Valid := by
  have hhead : i ∈ s.heads := mem_append_left _ (mem_append_right _ hmem)
  obtain ⟨p, b, i₁, i₂, hp, -, hchain⟩ := h.request hhead
  rw [writeStatus_chain hchain] at hdisk
  have hnot : i ∉ s.disk.used.contents num counterRange := fun hused =>
    (disjoint_of_nodup_append h.nodup) (mem_append_right _ hmem) hused
  have hroom : s.disk.used.count counterRange < num := by
    rw [← @RingBuffer.length_contents _ num]
    exact h.length_heads_lt (sublist_append_right ..) (hchain.lt i mem_cons_self) hnot
  obtain ⟨hused, hcontents⟩ := h.used.push (by decide) (by decide) hroom i
  have hinfo : ∀ j, (s'.disk.info j).b = (s.disk.info j).b := by
    intro j
    rw [hdisk]
    change (update s.disk.info i { s.disk.info i with status := 0 } j).b = _
    by_cases hj : j = i
    · rw [hj, update_self]
    · rw [update_of_ne hj]
  refine h.shift (by rw [hdisk]) (by rw [hdisk]) hinfo hbusy hholder hcaller
    (by rw [hdisk]; exact h.avail) (by rw [hdisk]; exact hused) ?_ ?_
  · rw [heads, heads, hdisk, hpending, hcontents, append_assoc, append_assoc]
    refine List.Perm.append_left _ ?_
    have hlast : (s.disk.used.contents num counterRange ++ [i]).Perm
        (i :: s.disk.used.contents num counterRange) := perm_append_comm
    have herase := (perm_cons_erase hmem).symm.append_right
      (s.disk.used.contents num counterRange)
    exact (hlast.append_left _).trans (perm_middle.trans herase)
  · intro j hj
    rw [hdisk] at hj ⊢
    change (update s.disk.info i { s.disk.info i with status := 0 } j).status = 0
    by_cases heq : j = i
    · rw [heq, update_self]
    · rw [update_of_ne heq]
      rw [hcontents, mem_append, mem_singleton, or_iff_left heq] at hj
      exact h.status j hj

theorem Valid.completion (h : s.Valid) (hne : s.disk.used.head ≠ s.disk.used.tail) :
    ∃ p b i₁ i₂, s.caller p = .waiting b (s.disk.used.cell (s.disk.used.head % num)) i₁ i₂ ∧
      s.busy b = true ∧ (s.disk.info (s.disk.used.cell (s.disk.used.head % num))).status = 0 ∧
      (s.disk.info (s.disk.used.cell (s.disk.used.head % num))).b = some b := by
  obtain ⟨-, hcontents⟩ := h.used.pop (by decide) (by decide)
    fun hzero => hne (h.used.isEmpty_iff.mpr hzero)
  have hmem : s.disk.used.cell (s.disk.used.head % num) ∈ s.disk.used.contents num
    counterRange := by
    rw [hcontents]
    exact mem_cons_self
  obtain ⟨p, b, i₁, i₂, hp, hbusy, hchain⟩ := h.request (mem_append_right _ hmem)
  exact ⟨p, b, i₁, i₂, hp, hbusy, h.status _ hmem, hchain.info⟩

theorem Valid.intr [DecidableEq B] (h : s.Valid) (hne : s.disk.used.head ≠ s.disk.used.tail)
    (hp : s.caller p = .waiting b (s.disk.used.cell (s.disk.used.head % num)) i₁ i₂)
    (hdisk : s'.disk = { s.disk with used := s.disk.used.pop counterRange })
    (hbusy : s'.busy = update s.busy b false) (hholder : s'.holder = s.holder)
    (hcaller : s'.caller = s.caller) (hpending : s'.pending = s.pending) : s'.Valid := by
  obtain ⟨hused, hcontents⟩ := h.used.pop (by decide) (by decide)
    fun hzero => hne (h.used.isEmpty_iff.mpr hzero)
  have hheads : s.heads.Perm (s.disk.used.cell (s.disk.used.head % num) :: s'.heads) := by
    rw [heads, heads, hdisk, hpending, hcontents]
    exact perm_middle
  have hnodup := nodup_cons.mp (hheads.nodup_iff.mp h.nodup)
  refine ⟨?_, ?_, ?_, ?_, ?_, ?_, hnodup.2, fun j => ?_, ?_⟩
  · rw [hcaller, hdisk]
    exact fun q b' j₀ j₁ j₂ hq =>
      (h.chains q b' j₀ j₁ j₂ hq).congr (fun _ _ => rfl) (fun _ _ => rfl) rfl
  · rw [hcaller]
    exact h.apart
  · rw [hcaller, hdisk]
    exact h.owned
  · rw [hcaller, hholder]
    exact h.holders
  · rw [hdisk]
    exact h.avail
  · rw [hdisk]
    exact hused
  · rw [hcaller, hbusy]
    constructor
    · intro hj
      obtain ⟨q, b', j₁, j₂, hq, hbusy', -⟩ := h.request (hheads.mem_iff.mpr (mem_cons_of_mem _ hj))
      have hb : b' ≠ b := by
        rintro rfl
        have hqp := h.holder_unique (p := p) (q := q) (by rw [hp]; rfl) (by rw [hq]; rfl)
        rw [← hqp, hp] at hq
        cases hq
        exact hnodup.1 hj
      exact ⟨q, b', j₁, j₂, hq, by rw [update_of_ne hb]; exact hbusy'⟩
    · rintro ⟨q, b', j₁, j₂, hq, hbusy'⟩
      have hb : b' ≠ b := by
        rintro rfl
        rw [update_self] at hbusy'
        cases hbusy'
      rw [update_of_ne hb] at hbusy'
      have hmem := hheads.mem_iff.mp ((h.inFlight j).mpr ⟨q, b', j₁, j₂, hq, hbusy'⟩)
      refine (mem_cons.mp hmem).resolve_left ?_
      rintro rfl
      have hqp := h.caller_eq (p := p) (q := q) (by rw [hp]; exact mem_cons_self)
        (by rw [hq]; exact mem_cons_self)
      rw [← hqp, hp] at hq
      cases hq
      exact hb rfl
  · intro j hj
    rw [hdisk] at hj ⊢
    exact h.status j (by rw [hcontents]; exact mem_cons_of_mem _ hj)

theorem valid_freshDisk (k j : UInt16) : (freshDisk P B k j).Valid := by
  have hempty : ∀ k : UInt16, RingBuffer.count counterRange
      (⟨fun _ => 0, k.toNat, k.toNat⟩ : RingBuffer Nat) = 0 := fun k => by
    rw [RingBuffer.count, Nat.add_sub_cancel_left, Nat.mod_self]
  have hring : ∀ k : UInt16, RingBuffer.Valid num counterRange
      (⟨fun _ => 0, k.toNat, k.toNat⟩ : RingBuffer Nat) := fun k =>
    ⟨k.toNat_lt, k.toNat_lt, by rw [hempty k]; exact Nat.zero_le _⟩
  have hnone : ∀ k : UInt16, RingBuffer.contents num counterRange
      (⟨fun _ => 0, k.toNat, k.toNat⟩ : RingBuffer Nat) = [] := fun k => by
    rw [RingBuffer.contents, hempty k]
    rfl
  have hheads : (freshDisk P B k j).heads = [] := by
    simp only [heads, freshDisk, hnone, append_nil]
  refine ⟨?_, ?_, fun i hi htaken => ?_, ?_, hring k, hring j, ?_, fun h => ?_, fun h hmem => ?_⟩
  · rintro _ _ _ _ _ ⟨⟩
  · rintro _ _ _ _ ⟨⟩
  · rw [show (freshDisk P B k j).disk.free i = true from decide_eq_true hi] at htaken
    cases htaken
  · rintro _ _ ⟨⟩
  · rw [hheads]
    exact nodup_nil
  · rw [hheads]
    refine ⟨fun hmem => absurd hmem not_mem_nil, ?_⟩
    rintro ⟨p, b, i₁, i₂, hp, -⟩
    cases hp
  · rw [show (freshDisk P B k j).disk.used.contents num counterRange = [] from hnone j] at hmem
    cases hmem

variable [DecidableEq P] [DecidableEq B] {blockno : B → UInt32}

/-- No step from such a state panics, and every step leads to one. -/
theorem Valid.step (h : s.Valid) {a : DiskAct P B} {r : Except String (DiskState P B)}
    (hstep : s.step blockno a = some r) : ∃ s', r = .ok s' ∧ s'.Valid := by
  cases a with
  | acquiresleep p b =>
    simp only [DiskState.step] at hstep
    split at hstep <;> cases hstep
    rename_i hidle hfree
    refine ⟨_, rfl, h.frame ⟨_, rfl, fun _ _ => rfl⟩ rfl rfl (fun _ _ _ _ _ => .rfl) ?_⟩
    intro q b' hq
    have hb : b' ≠ b := by
      rintro rfl
      rw [h.holders q b' hq] at hfree
      cases hfree
    exact (update_of_ne hb ..).trans (h.holders q b' hq)
  | releasesleep p b =>
    simp only [DiskState.step] at hstep
    split at hstep <;> try cases hstep
    rename_i hidle
    split at hstep <;> cases hstep
    rename_i hheld
    refine ⟨_, rfl, h.frame ⟨_, rfl, fun _ _ => rfl⟩ rfl rfl (fun _ _ _ _ _ => .rfl) ?_⟩
    intro q b' hq
    have hb : b' ≠ b := by
      rintro rfl
      have hqp : q = p := some.inj ((h.holders q b' hq).symm.trans hheld)
      rw [hqp, hidle] at hq
      cases hq
    exact (update_of_ne hb ..).trans (h.holders q b' hq)
  | rw p b write =>
    simp only [DiskState.step] at hstep
    split at hstep <;> try cases hstep
    rename_i hidle
    split at hstep <;> cases hstep
    rename_i hheld
    refine ⟨_, rfl, h.frame ⟨_, rfl, fun _ _ => rfl⟩ rfl rfl (fun q _ _ _ _ => ?_) fun q b' hq =>
      ?_⟩
    · simp only [setCaller]
      by_cases heq : q = p
      · simp [heq, hidle]
      · rw [update_of_ne heq]
    · simp only [setCaller] at hq ⊢
      by_cases heq : q = p
      · rw [heq, update_self] at hq
        cases hq
        rw [heq]
        exact hheld
      · rw [update_of_ne heq] at hq
        exact h.holders q b' hq
  | alloc p =>
    simp only [DiskState.step] at hstep
    split at hstep <;> cases hstep
    rename_i b write hp
    obtain ⟨r, hr, hspec⟩ := s.disk.alloc3Desc_spec
    rw [hr, ok_bind]
    cases hspec with
    | found hlt hnodup hfree =>
      exact ⟨_, rfl, h.alloc hp hlt hnodup hfree rfl rfl rfl rfl rfl⟩
    | failed hdesc =>
      exact ⟨_, rfl, h.frame ⟨_, rfl, hdesc⟩ rfl rfl (fun _ _ _ _ _ => .rfl) h.holders⟩
  | finish p =>
    simp only [DiskState.step] at hstep
    split at hstep <;> try cases hstep
    rename_i b i₀ i₁ i₂ hp
    split at hstep <;> cases hstep
    rename_i hidle
    have hlinked : Virtio.Linked { s.disk with
        info := update s.disk.info i₀ { s.disk.info i₀ with b := none } } i₀ i₁ i₂ :=
      { (h.chains p b i₀ i₁ i₂ hp).toLinked with }
    rw [hlinked.freeChain 6, ok_bind]
    exact ⟨_, rfl, h.finish hp (by simpa using hidle) rfl rfl rfl rfl rfl⟩
  | intr =>
    simp only [DiskState.step] at hstep
    split at hstep <;> try cases hstep
    rename_i hne
    obtain ⟨p, b, i₁, i₂, hp, -, hstatus, hb⟩ := h.completion hne
    rw [if_neg (not_not.mpr hstatus), hb] at hstep
    cases hstep
    exact ⟨_, rfl, h.intr hne hp rfl rfl rfl rfl rfl⟩
  | fetch =>
    simp only [DiskState.step] at hstep
    split at hstep <;> cases hstep
    rename_i hne
    exact ⟨_, rfl, h.fetch hne rfl rfl rfl rfl rfl⟩
  | complete i =>
    simp only [DiskState.step] at hstep
    split at hstep <;> cases hstep
    rename_i hmem
    exact ⟨_, rfl, h.complete hmem rfl rfl rfl rfl rfl⟩

/-- The descriptor protocol: the descriptors in use are the chains of the requests that are
not released, apart from each other; the interrupt handler clears the mark of the buffer of
the request it finds; nothing panics. -/
structure Protocol (blockno : B → UInt32) (s : DiskState P B) : Prop where
  taken : ∀ i < num, s.disk.free i = false ↔ ∃ p, i ∈ (s.caller p).chain
  apart : ∀ p q, p ≠ q → ∀ i ∈ (s.caller p).chain, i ∉ (s.caller q).chain
  chains : ∀ p b i₀ i₁ i₂, s.caller p = .waiting b i₀ i₁ i₂ → s.disk.Chain b i₀ i₁ i₂
  completion : ∀ s', s.step blockno .intr = some (.ok s') → ∃ p b i₁ i₂,
    s.caller p = .waiting b (s.disk.used.cell (s.disk.used.head % num)) i₁ i₂ ∧
      s.busy b = true ∧ s'.busy = update s.busy b false
  noPanic : ∀ a e, s.step blockno a ≠ some (.error e)
  allocFails : ∀ d, s.disk.alloc3Desc = .ok (none, d) → d.free = s.disk.free

theorem Valid.protocol (h : s.Valid) : s.Protocol blockno where
  taken i hi := ⟨h.owned i hi, fun ⟨_, hp⟩ => (h.taken hp).2⟩
  apart := h.apart
  chains := h.chains
  completion s' hstep := by
    simp only [DiskState.step] at hstep
    split at hstep <;> try cases hstep
    rename_i hne
    obtain ⟨p, b, i₁, i₂, hp, hbusy, hstatus, hb⟩ := h.completion hne
    rw [if_neg (not_not.mpr hstatus), hb] at hstep
    cases hstep
    exact ⟨p, b, i₁, i₂, hp, hbusy, rfl⟩
  noPanic a e hstep := by
    obtain ⟨s', hs', -⟩ := h.step hstep
    cases hs'
  allocFails d hd := by
    obtain ⟨r, hr, hspec⟩ := s.disk.alloc3Desc_spec
    rw [hd] at hr
    cases hr
    cases hspec
    rfl

end DiskState

/-- Every state that processes, interrupts and the device reach in any order keeps the
protocol, wherever the counters of the rings start. -/
theorem virtio_protocol {P B : Type} [DecidableEq P] [DecidableEq B] (blockno : B → UInt32)
    (k j : UInt16) {acts : List (DiskAct P B)} {s : DiskState P B}
    (run : Run (fun s a s' => s.step blockno a = some (.ok s')) (freshDisk P B k j) acts s) :
    s.Protocol blockno := by
  refine DiskState.Valid.protocol (run.invariant DiskState.Valid (DiskState.valid_freshDisk k j) ?_)
  intro s a s' h hstep
  obtain ⟨t, ht, hvalid⟩ := h.step hstep
  cases ht
  exact hvalid

/-- Two processes have a request each; the device completes the second one first. The
counters of both rings wrap. -/
def wrapActs : List (DiskAct Bool Bool) :=
  [.acquiresleep false false, .rw false false false, .alloc false,
    .acquiresleep true true, .rw true true true, .alloc true,
    .fetch, .fetch, .complete 3, .intr]

theorem virtio_protocol_wrapActs : ∃ s : DiskState Bool Bool,
    Run (fun s a s' => s.step (fun _ => 7) a = some (.ok s')) (freshDisk Bool Bool 65535 65535)
      wrapActs s ∧
    s.disk.avail.tail = 1 ∧ s.disk.used.head = 0 ∧ s.busy false = true ∧ s.busy true = false ∧
      s.Protocol fun _ => 7 := by
  have hrun : ∃ s ∈ exec (fun s a => (s.step (fun _ => 7) a).bind Except.toOption)
      (freshDisk Bool Bool 65535 65535) wrapActs, s.disk.avail.tail = 1 ∧
        s.disk.used.head = 0 ∧ s.busy false = true ∧ s.busy true = false := by
    decide +kernel
  obtain ⟨s, hexec, havail, hused, hbusy, hdone⟩ := hrun
  have run : Run (fun s a s' => s.step (fun _ => 7) a = some (.ok s'))
      (freshDisk Bool Bool 65535 65535) wrapActs s := by
    refine (Run.of_exec hexec).mono fun s a s' hstep => ?_
    obtain ⟨_ | t, hr, hok⟩ := bind_eq_some_iff.mp hstep
    · cases hok
    · rw [hr, some.inj hok]
  exact ⟨s, run, havail, hused, hbusy, hdone, virtio_protocol _ _ _ run⟩

end EafitOs.Disk
