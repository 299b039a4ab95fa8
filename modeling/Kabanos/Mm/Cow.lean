/-
  Copy-on-write faults: `hal_vmm_handle_cow`.

  The handler does not look whether it got a frame for its copy.  Without one it copies to
  physical address `0` and maps the page there.
-/
import Kabanos.Mm.CopyTo
import Kabanos.Mm.KernelHalf

namespace Kabanos

/-- Page `v` of `p` is mapped copy-on-write. -/
def CowPage (m : Mm) (p v : ℕ) : Prop := entry m p v ≠ 0 ∧ isCow (entry m p v) = true

/-- The handler copies the page: with its own reference it counts more than one. -/
def NeedsFrame (m : Mm) (p v : ℕ) : Prop :=
  pageOf (entry m p v) / 4096 < m.pmm.totalFrames ∧
    1 < (m.pmm.frameRefcounts (pageOf (entry m p v) / 4096) + 1) % 2 ^ 16

/-- Some frame is free. -/
def Pmm.HasFree (s : Pmm) : Prop := ∃ a, s.IsFrame a ∧ ¬ s.Held a

/-- **A fault at `addr` is handled well**: a handler that needs a frame and finds none reports
    it and changes neither the mapping nor any byte, and no user page is mapped to frame `0`. -/
structure CowHandled (m : Mm) (V : Finset ℕ) (p addr : ℕ) : Prop where
  reported : NeedsFrame m p (addr / 4096) → ¬ m.pmm.HasFree → (halVmmHandleCow m p addr).2 = false
  maps : NeedsFrame m p (addr / 4096) → ¬ m.pmm.HasFree → ∀ va < 2 ^ 32,
    halVmVirtToPhys (halVmmHandleCow m p addr).1 p va = halVmVirtToPhys m p va
  mem : NeedsFrame m p (addr / 4096) → ¬ m.pmm.HasFree → (halVmmHandleCow m p addr).1.mem = m.mem
  nonzero : ∀ q ∈ V, ∀ v < userPages, entry (halVmmHandleCow m p addr).1 q v ≠ 0 →
    pageOf (entry (halVmmHandleCow m p addr).1 q v) ≠ 0

/-! ## Bits -/

section
variable {w b : ℕ}

theorem pageOf_or_flags (w : ℕ) (hb : b < 4096) : pageOf (w ||| b) = pageOf w := by
  have hl : w % 4096 ||| b < 4096 := Nat.or_lt_two_pow (n := 12) (Nat.mod_lt _ (by norm_num)) hb
  have e : w ||| b = pageOf w ||| (w % 4096 ||| b) := by
    rw [← Nat.or_assoc, ← pageOf_split]
  rw [e, pageOf_or (pageOf_aligned _) hl]

section
variable (hw : w < 2 ^ 32)
include hw

theorem pageOf_and (hb : b >>> 12 = 2 ^ 20 - 1) : pageOf (w &&& b) = pageOf w := by
  have e : (w &&& b) / 4096 = w / 4096 := by
    have h1 : (w &&& b) / 4096 = (w &&& b) >>> 12 := by rw [Nat.shiftRight_eq_div_pow]
    have h2 : w / 4096 = w >>> 12 := by rw [Nat.shiftRight_eq_div_pow]
    rw [h1, Nat.shiftRight_and_distrib, hb, Nat.and_two_pow_sub_one_eq_mod, ← h2]
    exact Nat.mod_eq_of_lt (by omega)
  rw [pageOf, e, pageOf]

theorem pageOf_clearCow : pageOf (clearCow w) = pageOf w :=
  pageOf_and hw rfl

theorem pageOf_clearReadWrite : pageOf (clearReadWrite w) = pageOf w :=
  pageOf_and hw rfl

theorem clearCow_lt : clearCow w < 2 ^ 32 :=
  Nat.and_le_left.trans_lt hw

theorem clearReadWrite_lt : clearReadWrite w < 2 ^ 32 :=
  Nat.and_le_left.trans_lt hw

theorem or_flags_lt (hb : b < 4096) : w ||| b < 2 ^ 32 :=
  Nat.or_lt_two_pow hw (by omega)

end

theorem pageOf_cut (h : cut w ≠ 0) : pageOf (cut w) = pageOf w := by
  unfold cut at h ⊢
  split_ifs at h ⊢
  · rfl
  · exact absurd rfl h

end

section
variable {m m' : Mm} {k : ℕ} {V : Finset ℕ} {p q v u f w addr : ℕ}

/-! ## The entry of one user page -/

theorem entry_ne_zero (h : entry m p v ≠ 0) : isPresent (word m p (v / 1024)) ∧
      entry m p v = word m (pageOf (word m p (v / 1024))) (v % 1024) := by
  unfold entry at h ⊢
  split_ifs at h ⊢ with hpr
  · refine ⟨hpr, ?_⟩
    unfold cut at h ⊢
    split_ifs at h ⊢
    · rfl
    · exact absurd rfl h
  · exact absurd rfl h

theorem getPtePtr_eq (h : entry m p (addr / 4096) ≠ 0) : getPtePtr m p addr =
      some (pageOf (word m p (addr / 4096 / 1024)), addr / 4096 % 1024) := by
  have hi : getPdIndex addr = addr / 4096 / 1024 := by
    rw [getPdIndex]; omega
  simp only [getPtePtr, hi, (entry_ne_zero h).1, getPtIndex]
  rfl

theorem Dirs.set_user_entry (h : Dirs m k V) (hp : p ∈ V) (hv : v < userPages)
    (hpr : isPresent (word m p (v / 1024))) (hw : w < 2 ^ 32)
    (hm : m' = setWord m (pageOf (word m p (v / 1024))) (v % 1024) w) :
    Dirs m' k V ∧ (∀ q ∈ dirsOf k V, ∀ i < 1024, word m' q i = word m q i) ∧
      ∀ q ∈ dirsOf k V, ∀ u < 2 ^ 20, entry m' q u =
        if u = v ∧ q = p then cut w else entry m q u := by
  have hv' : v < 2 ^ 20 := by have := userPages_lt hv; omega
  obtain ⟨h1, h2, h3⟩ := h.set_entry (mem_dirsOf hp) hv' hpr hw hm
  refine ⟨h1, h2, fun q hq u hu => ?_⟩
  rw [h3 q hq u hu]
  simp only [procHome_user hv]

/-- **New flags for a user page**, on the same frame. -/
theorem Spaces.set_flags (h : Spaces m k V) (hp : p ∈ V) (hv : v < userPages)
    (he : entry m p v ≠ 0) (hw : w < 2 ^ 32) (hf : pageOf w = pageOf (entry m p v))
    (hm : m' = setWord m (pageOf (word m p (v / 1024))) (v % 1024) w) :
    Spaces m' k V ∧ (∀ q ∈ dirsOf k V, ∀ i < 1024, word m' q i = word m q i) ∧
      ∀ q ∈ dirsOf k V, ∀ u < 2 ^ 20, entry m' q u =
        if u = v ∧ q = p then cut w else entry m q u := by
  obtain ⟨h1, h2, h3⟩ := h.toDirs.set_user_entry hp hv (entry_ne_zero he).1 hw hm
  refine ⟨⟨h1, fun q hq u hu hne => ?_⟩, h2, h3⟩
  have hu' : u < 2 ^ 20 := by have := userPages_lt hu; omega
  rw [h3 q (mem_dirsOf hq) u hu'] at hne ⊢
  rw [IsTable.congr h2, show m'.pmm = m.pmm by rw [hm]; rfl]
  split_ifs at hne ⊢ with hc
  · rw [pageOf_cut hne, hf]
    exact h.data p hp v hv he
  · exact h.data q hq u hu hne

theorem Spaces.frame_ne_zero (h : Spaces m k V) (hp : p ∈ V) (hv : v < userPages)
    (he : entry m p v ≠ 0) : pageOf (entry m p v) ≠ 0 :=
  (h.data p hp v hv he).1.isFrame.ne_zero

/-! ## The handler -/

/-- The entry `i` of table `t` is `w`, and then no longer copy-on-write. -/
def setOwned (m : Mm) (t i w : ℕ) : Mm :=
  setWord (setWord m t i w) t i (clearCow (word (setWord m t i w) t i))

/-- The page gets the copy of its frame in frame `f`. -/
def copiedTo (m : Mm) (t i old f : ℕ) : Mm :=
  setOwned (physCopy m f old) t i (f ||| (word (physCopy m f old) t i &&& 0xFFF) ||| 0x2)

theorem refcountGet_inc (s : Pmm) (a : ℕ) : 1 < pmmFrameRefcountGet (pmmFrameRefcountInc s a) a ↔
      a / 4096 < s.totalFrames ∧ 1 < (s.frameRefcounts (a / 4096) + 1) % 2 ^ 16 := by
  unfold pmmFrameRefcountGet pmmFrameRefcountInc
  by_cases h : a / 4096 < s.totalFrames
  · simp [h]
  · simp [h]

theorem handleCow_copies (hc : CowPage m p (addr / 4096)) (hn : NeedsFrame m p (addr / 4096)) :
    ∃ s f, pmmFrameAlloc (pmmFrameRefcountInc m.pmm (pageOf (entry m p (addr / 4096)))) = (s, f) ∧
      (halVmmHandleCow m p addr).2 ∧
      (halVmmHandleCow m p addr).1.mem =
        (copiedTo { m with pmm := s } (pageOf (word m p (addr / 4096 / 1024))) (addr / 4096 % 1024)
          (pageOf (entry m p (addr / 4096))) f).mem := by
  obtain ⟨-, he⟩ := entry_ne_zero hc.1
  have hcow := hc.2
  have hget := (refcountGet_inc m.pmm _).2 hn
  rw [he] at hcow hget
  refine ⟨_, _, rfl, ?_, ?_⟩
  · rw [halVmmHandleCow, getPtePtr_eq hc.1]
    simp only [hcow, Bool.not_true, Bool.false_eq_true, if_false, hget, if_true]
  · rw [halVmmHandleCow, getPtePtr_eq hc.1]
    simp only [hcow, Bool.not_true, Bool.false_eq_true, if_false, hget, if_true, he]
    rfl

theorem handleCow_keeps (hc : CowPage m p (addr / 4096)) (hn : ¬ NeedsFrame m p (addr / 4096)) :
    (halVmmHandleCow m p addr).1.mem =
      (setOwned m (pageOf (word m p (addr / 4096 / 1024))) (addr / 4096 % 1024)
        (entry m p (addr / 4096) ||| 0x2)).mem := by
  obtain ⟨-, he⟩ := entry_ne_zero hc.1
  have hcow := hc.2
  have hget := mt (refcountGet_inc m.pmm _).1 hn
  rw [he] at hcow hget
  rw [halVmmHandleCow, getPtePtr_eq hc.1]
  simp only [hcow, Bool.not_true, Bool.false_eq_true, if_false, hget, he]
  rfl

theorem Dirs.set_owned (h : Dirs m k V) (hp : p ∈ V) (hv : v < userPages)
    (hpr : isPresent (word m p (v / 1024))) (hw : w < 2 ^ 32) (hq : q ∈ dirsOf k V)
    (hu : u < 2 ^ 20) :
    entry (setOwned m (pageOf (word m p (v / 1024))) (v % 1024) w) q u =
      if u = v ∧ q = p then cut (clearCow w) else entry m q u := by
  have hj : v % 1024 < 1024 := Nat.mod_lt _ (by norm_num)
  have hi : v / 1024 < 1024 := by have := userPages_lt hv; omega
  obtain ⟨h1, h2, h3⟩ := h.set_user_entry hp hv hpr hw rfl
  have hpd := h2 p (mem_dirsOf hp) _ hi
  have hw' : word (setWord m (pageOf (word m p (v / 1024))) (v % 1024) w)
      (pageOf (word m p (v / 1024))) (v % 1024) = w := by
    rw [word_setWord (pageOf_aligned _) (pageOf_aligned _) hj hj hw, if_pos ⟨rfl, rfl⟩]
  obtain ⟨-, -, h6⟩ := h1.set_user_entry hp hv (by rw [hpd]; exact hpr) (clearCow_lt hw) rfl
  have h7 := h6 q hq u hu
  rw [hpd, h3 q hq u hu] at h7
  rw [setOwned, hw', h7]
  split_ifs <;> rfl

/-- **A copy in a free frame**: the page is mapped to it, and no other entry changes. -/
theorem Dirs.copied_to (h : Dirs m k V) (hp : p ∈ V) (hv : v < userPages)
    (hpr : isPresent (word m p (v / 1024)))
    (hf : ¬ IsTable m (dirsOf k V) (procHome k) f) (ha : f % 4096 = 0) (hlt : f < 2 ^ 32) (old : ℕ)
    (hq : q ∈ dirsOf k V) (hu : u < 2 ^ 20) :
    ∃ w, pageOf w = f ∧ entry (copiedTo m (pageOf (word m p (v / 1024))) (v % 1024) old f) q u =
      if u = v ∧ q = p then cut w else entry m q u := by
  have hi : v / 1024 < 1024 := by have := userPages_lt hv; omega
  have hpmm : (physCopy m f old).pmm = m.pmm := rfl
  have hm := h.data_write hf ha hpmm fun a hn => by
    simp only [physCopy, memcpy]
    rw [if_neg hn]
  have hpd := hm.pde p (mem_dirsOf hp) _ hi
  have hfl : ∀ x, (x &&& 0xFFF ||| 0x2) < 4096 := fun x =>
    Nat.or_lt_two_pow (n := 12) (Nat.and_lt_two_pow _ (by norm_num)) (by norm_num)
  have hw : ∀ x, f ||| (x &&& 0xFFF) ||| 0x2 < 2 ^ 32 := fun x => by
    rw [Nat.or_assoc]; exact page_or_lt ha hlt (hfl x)
  have hs := hm.dirs.set_owned hp hv (by rw [hpd]; exact hpr)
    (hw (word (physCopy m f old) (pageOf (word m p (v / 1024))) (v % 1024))) hq hu
  rw [hpd, hm.entry q hq u hu] at hs
  refine ⟨_, ?_, hs⟩
  rw [pageOf_clearCow (hw _), Nat.or_assoc, pageOf_or ha (hfl _)]

theorem refcountInc_held (s : Pmm) (a b : ℕ) : (pmmFrameRefcountInc s a).Held b ↔ s.Held b :=
  Pmm.held_congr (refcountInc_same s a).1 (refcountInc_same s a).2

/-- **Copy-on-write faults.**  A fault at a copy-on-write page is handled well just when a frame
    is free if the handler needs one. -/
theorem handle_cow_iff (h : Spaces m k V) (hp : p ∈ V) (hv : addr / 4096 < userPages)
    (hc : CowPage m p (addr / 4096)) :
    CowHandled m V p addr ↔ (NeedsFrame m p (addr / 4096) → m.pmm.HasFree) := by
  have hpr := (entry_ne_zero hc.1).1
  constructor
  · intro hh hn
    by_contra hno
    obtain ⟨s, f, -, ht, -⟩ := handleCow_copies hc hn
    rw [hh.reported hn hno] at ht
    cases ht
  intro hfree
  refine ⟨fun hn hno => absurd (hfree hn) hno, fun hn hno => absurd (hfree hn) hno,
    fun hn hno => absurd (hfree hn) hno, fun q hq u hu hne => ?_⟩
  have hu' : u < 2 ^ 20 := by have := userPages_lt hu; omega
  have hq' : q ∈ dirsOf k V := mem_dirsOf hq
  by_cases hn : NeedsFrame m p (addr / 4096)
  · obtain ⟨s, f, ha, -, hmem⟩ := handleCow_copies hc hn
    rw [entry_of_mem hmem] at hne ⊢
    rcases Pmm.alloc_spec (pmmFrameRefcountInc m.pmm (pageOf (entry m p (addr / 4096)))) with
      ⟨-, hall⟩ | ⟨s', f', hs', ht⟩
    · obtain ⟨a, h1, h2⟩ := hfree hn
      exact absurd ((refcountInc_held ..).1 (hall a ((refcountInc_same ..).1.isFrame.2 h1))) h2
    · obtain ⟨rfl, rfl⟩ := Prod.mk.inj (ha.symm.trans hs')
      have hfr : (pmmFrameRefcountInc m.pmm (pageOf (entry m p (addr / 4096)))).Framed :=
        (refcountInc_same ..).1.framed h.tables.framed
      have hd : Dirs { m with pmm := s } k V :=
        h.toDirs.pmm ((refcountInc_same ..).1.trans ht.same) fun t htab =>
          (ht.held t).2 (.inl ((refcountInc_held ..).2 (h.tables.isTable_held htab)))
      have hplain : ¬ IsTable { m with pmm := s } (dirsOf k V) (procHome k) f := fun htab =>
        ht.fresh ((refcountInc_held ..).2 (h.tables.isTable_held htab))
      obtain ⟨w, hw, he⟩ := hd.copied_to hp hv hpr hplain (ht.frame.aligned hfr) (ht.frame.lt hfr)
        (pageOf (entry m p (addr / 4096))) hq' hu'
      have he' : entry { m with pmm := s } q u = entry m q u := rfl
      have hpd : ∀ x, word { m with pmm := s } p x = word m p x := fun _ => rfl
      rw [hpd, he'] at he
      rw [he] at hne ⊢
      split_ifs at hne ⊢
      · rw [pageOf_cut hne, hw]
        exact ht.frame.ne_zero
      · exact h.frame_ne_zero hq hu hne
  · rw [entry_of_mem (handleCow_keeps hc hn)] at hne ⊢
    have hlt := or_flags_lt (entry_lt m p (addr / 4096)) (b := 0x2) (by norm_num)
    rw [h.toDirs.set_owned hp hv hpr hlt hq' hu'] at hne ⊢
    split_ifs at hne ⊢
    · rw [pageOf_cut hne, pageOf_clearCow hlt, pageOf_or_flags _ (by norm_num)]
      exact h.frame_ne_zero hp hv hc.1
    · exact h.frame_ne_zero hq hu hne

/-! ## Sharing a page -/

theorem Spaces.pmm_held (h : Spaces m k V) {s : Pmm} (hs : SameMemory m.pmm s)
    (hheld : ∀ a, m.pmm.Held a → s.Held a) : Spaces { m with pmm := s } k V :=
  ⟨h.toDirs.pmm hs fun _ ht => hheld _ (h.tables.isTable_held ht),
    fun p hp v hv he => ⟨hheld _ (h.data p hp v hv he).1, (h.data p hp v hv he).2⟩⟩

/-- **One entry of `hal_vmm_set_cow`** -/
theorem Spaces.setCowEntry (h : Spaces m k V) (hp : p ∈ V) (hv : v < userPages)
    (he : entry m p v ≠ 0) :
    Spaces (setCowEntry m (pageOf (word m p (v / 1024))) (v % 1024)) k V := by
  have hj : v % 1024 < 1024 := Nat.mod_lt _ (by norm_num)
  have hi : v / 1024 < 1024 := by have := userPages_lt hv; omega
  have hv' : v < 2 ^ 20 := by have := userPages_lt hv; omega
  obtain ⟨hpr, hw⟩ := entry_ne_zero he
  have hent := isPresent_entry he
  have hcount : ∀ {m : Mm} (a : ℕ), Spaces m k V →
      Spaces { m with pmm := pmmFrameRefcountInc m.pmm a } k V := fun a h =>
    h.pmm_held (refcountInc_same _ a).1 fun b hb => (refcountInc_held _ a b).2 hb
  unfold Kabanos.setCowEntry
  rw [← hw, hent]
  simp only [Bool.not_true, Bool.false_eq_true, if_false]
  by_cases hrw : isReadWrite (entry m p v)
  · simp only [hrw, if_true]
    apply hcount
    have hlt := or_flags_lt (entry_lt m p v) (b := 0x200) (by norm_num)
    obtain ⟨h1, h2, h3⟩ := h.set_flags hp hv he hlt (pageOf_or_flags _ (by norm_num)) rfl
    have hpd := h2 p (mem_dirsOf hp) _ hi
    have hpres : isPresent (entry m p v ||| 0x200) := by
      rw [isPresent, Nat.testBit_or]
      exact Bool.or_eq_true_iff.2 (.inl hent)
    have he1 := h3 p (mem_dirsOf hp) v hv'
    rw [if_pos ⟨rfl, rfl⟩, cut_of_isPresent hpres] at he1
    have hne1 := ne_zero_of_isPresent hpres
    rw [← he1] at hne1
    rw [word_setWord (pageOf_aligned _) (pageOf_aligned _) hj hj hlt, if_pos ⟨rfl, rfl⟩]
    obtain ⟨h4, -, -⟩ := h1.set_flags hp hv hne1 (clearReadWrite_lt hlt)
      (by rw [pageOf_clearReadWrite hlt, he1]) rfl
    rw [hpd] at h4
    exact h4
  · simp only [hrw, Bool.false_eq_true, if_false]
    exact hcount _ h

/-- A page of process `0x102000` that has been shared by `hal_vmm_set_cow`. -/
def demoShared : Mm :=
  setCowEntry (vaAllocPage 0x102000 7 (vmspaceCreate (bootMm 0 0xAA) 0x1000).1 0x8048000).1
    0x104000 72

/-- The same machine with all frames in use. -/
def demoFull : Mm :=
  { demoShared with pmm := { demoShared.pmm with bitmap := fun _ => 0xFF, usedFrames := 512 } }

theorem demoShared_spaces : Spaces demoShared 0x1000 {0x102000} := by
  have h0 : Spaces (bootMm 0 0xAA) 0x1000 ∅ :=
    ⟨bootMm_dirs (by norm_num) (by norm_num) _, fun _ h => by simp at h⟩
  have hc : (vmspaceCreate (bootMm 0 0xAA) 0x1000).2.map Vmspace.arch = some 0x102000 := by
    decide +kernel
  have h1 := h0.created (h0.toDirs.created hc)
  have hp : (0x102000 : ℕ) ∈ (insert 0x102000 ∅ : Finset ℕ) := by decide
  have hok : (vaAllocPage 0x102000 7 (vmspaceCreate (bootMm 0 0xAA) 0x1000).1
      (32840 * 4096)).2 := by decide +kernel
  have h2 : Spaces (vaAllocPage 0x102000 7 (vmspaceCreate (bootMm 0 0xAA) 0x1000).1
      (32840 * 4096)).1 0x1000 (insert 0x102000 ∅) := by
    rcases h1.toDirs.alloc_page hp (v := 32840) (by norm_num) 7 with ⟨m', e, -⟩ |
      ⟨m', f, e, hg, hd, he⟩
    · rw [e] at hok
      cases hok
    · rw [e]
      exact h1.give hg hd (pageOf_makePte (hg.frame.aligned h1.tables.framed)) he
  have ht : pageOf (word (vaAllocPage 0x102000 7 (vmspaceCreate (bootMm 0 0xAA) 0x1000).1
      (32840 * 4096)).1 0x102000 (32840 / 1024)) = 0x104000 := by decide +kernel
  have hne : entry (vaAllocPage 0x102000 7 (vmspaceCreate (bootMm 0 0xAA) 0x1000).1
      (32840 * 4096)).1 0x102000 32840 ≠ 0 := by decide +kernel
  have h3 := h2.setCowEntry hp (by rw [userPages]; norm_num) hne
  rw [ht] at h3
  exact h3

/-- A fault while a frame is free. -/
theorem handle_cow_shared : NeedsFrame demoShared 0x102000 0x8048 ∧
    CowHandled demoShared {0x102000} 0x102000 0x8048123 := by
  refine ⟨?_, (handle_cow_iff demoShared_spaces (by decide) (by decide) ?_).2 fun _ => ?_⟩
  · constructor <;> decide +kernel
  · constructor <;> decide +kernel
  · refine ⟨0x105000, ⟨0x105, by decide, by decide +kernel, by decide +kernel⟩, ?_⟩
    rintro ⟨f, -, -, he, hb⟩
    have hf : f = 0x105 := by
      have e : demoShared.pmm.memoryRange.start = 0 := by decide +kernel
      rw [frameToAlignedAddr, e] at he
      omega
    subst hf
    revert hb
    decide +kernel

/-- A fault when all frames are in use: the handler reports success, frame `0` is overwritten with
    the page, and the page is mapped there. -/
theorem handle_cow_without_frame :
    CowPage demoFull 0x102000 0x8048 ∧ NeedsFrame demoFull 0x102000 0x8048 ∧
    (∀ f < demoFull.pmm.totalFrames, bitmapIsSet demoFull.pmm.bitmap f = true) ∧
    halVmVirtToPhys demoFull 0x102000 0x8048123 = 0x103123 ∧ demoFull.mem 0x123 = 0 ∧
    (halVmmHandleCow demoFull 0x102000 0x8048123).2 = true ∧
    halVmVirtToPhys (halVmmHandleCow demoFull 0x102000 0x8048123).1 0x102000 0x8048123 = 0x123 ∧
    pageOf (entry (halVmmHandleCow demoFull 0x102000 0x8048123).1 0x102000 0x8048) = 0 ∧
    (halVmmHandleCow demoFull 0x102000 0x8048123).1.mem 0x123 = 0xAA := by
  refine ⟨⟨?_, ?_⟩, ⟨?_, ?_⟩, ?_, ?_, ?_, ?_, ?_, ?_, ?_⟩ <;> decide +kernel

end

end Kabanos
