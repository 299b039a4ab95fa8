/-
  Reference counts of frames.

  `pmm_frame_refcount_inc` counts frames from address `0` on, and `pmm_frame_free` from the start of
  the memory range; the counts have 16 bits.
-/
import Kabanos.Mm.Held

namespace Kabanos

open Function (update update_eq_self update_idem update_of_ne update_self)

/-- `n` calls of `pmm_frame_refcount_inc` -/
def refcountIncs (s : Pmm) (a n : ℕ) : Pmm := (fun s => pmmFrameRefcountInc s a)^[n] s

/-- `n` calls of `pmm_frame_free` -/
def frameFrees (s : Pmm) (a n : ℕ) : Pmm := (fun s => pmmFrameFree s a)^[n] s

/-- All frames but the one at `a` have the state and the reference count that they had. -/
def SameElse (a : ℕ) (s s' : Pmm) : Prop :=
  ∀ f < s.totalFrames, frameToAlignedAddr s f ≠ a →
    bitmapIsSet s'.bitmap f = bitmapIsSet s.bitmap f ∧ s'.frameRefcounts f = s.frameRefcounts f

/-- **A frame with `n` more references** is freed by the last of `n + 1` calls, and no call changes
    another frame. -/
structure ReleasedLast (s : Pmm) (a n : ℕ) : Prop where
  incs : ∀ j ≤ n, SameElse a s (refcountIncs s a j)
  frees : ∀ j ≤ n + 1, SameElse a s (frameFrees (refcountIncs s a n) a j)
  held : ∀ j ≤ n, (frameFrees (refcountIncs s a n) a j).Held a
  freed : ¬ (frameFrees (refcountIncs s a n) a (n + 1)).Held a

/-- The count of frame `f` is `c`. -/
def Pmm.withCount (s : Pmm) (f c : ℕ) : Pmm :=
  { s with frameRefcounts := update s.frameRefcounts f c }

section
variable {s s' : Pmm} {a f c n : ℕ}

theorem refcountIncs_succ (s : Pmm) (a n : ℕ) :
    refcountIncs s a (n + 1) = pmmFrameRefcountInc (refcountIncs s a n) a :=
  Function.iterate_succ_apply' ..

theorem frameFrees_succ (s : Pmm) (a n : ℕ) :
    frameFrees s a (n + 1) = pmmFrameFree (frameFrees s a n) a :=
  Function.iterate_succ_apply' ..

theorem Pmm.withCount_same (s : Pmm) (f c : ℕ) : SameMemory s (s.withCount f c) := ⟨rfl, rfl⟩

theorem Pmm.withCount_self (s : Pmm) (f : ℕ) : s.withCount f (s.frameRefcounts f) = s := by
  rw [Pmm.withCount, update_eq_self]

theorem Pmm.withCount_else (s : Pmm) (f c : ℕ) :
    SameElse (frameToAlignedAddr s f) s (s.withCount f c) := by
  intro g _ hne
  refine ⟨rfl, update_of_ne ?_ ..⟩
  rintro rfl
  exact hne rfl

theorem Pmm.dropped_else (s : Pmm) (f : ℕ) : SameElse (frameToAlignedAddr s f) s (s.dropped f) := by
  intro g _ hne
  have hg : g ≠ f := by
    rintro rfl
    exact hne rfl
  exact ⟨isSet_clear_ne _ hg.symm, update_of_ne hg ..⟩

theorem Pmm.dropped_not_held (s : Pmm) (f : ℕ) : ¬ (s.dropped f).Held (frameToAlignedAddr s f) := by
  rintro ⟨g, -, -, e, hb⟩
  obtain rfl : f = g := frameToAlignedAddr_inj (s := s) e
  rw [Pmm.dropped, isSet_clear_self] at hb
  cases hb

section
variable (hs : s.Framed) (h1 : 1 ≤ f) (h2 : f < s.totalFrames)
  (hb : bitmapIsSet s.bitmap f = true)
include hs h1 h2 hb

theorem frameFrees_lt (c : ℕ) : ∀ j < max c 1,
    frameFrees (s.withCount f c) (frameToAlignedAddr s f) j = s.withCount f (c - j) := by
  intro j
  induction j with
  | zero => exact fun _ => rfl
  | succ j ih =>
    intro hj
    rw [frameFrees_succ, ih (by omega),
      show frameToAlignedAddr s f = frameToAlignedAddr (s.withCount f (c - j)) f from rfl,
      frameFree_eq (s := s.withCount f (c - j)) ((s.withCount_same f _).framed hs) h1 h2]
    have hcount : (s.withCount f (c - j)).frameRefcounts f = c - j := update_self ..
    unfold markFrameFree
    rw [show bitmapIsSet (s.withCount f (c - j)).bitmap f = true from hb, hcount]
    simp only [Bool.not_true, Bool.false_eq_true, if_false]
    rw [if_neg (by omega)]
    simp only [Pmm.withCount, update_idem]
    rw [Nat.sub_sub]

theorem frameFrees_last (c : ℕ) :
    frameFrees (s.withCount f c) (frameToAlignedAddr s f) (max c 1) = s.dropped f := by
  obtain ⟨d, hd⟩ : ∃ d, max c 1 = d + 1 := ⟨max c 1 - 1, by omega⟩
  rw [hd, frameFrees_succ, frameFrees_lt hs h1 h2 hb c d (by omega),
    show frameToAlignedAddr s f = frameToAlignedAddr (s.withCount f (c - d)) f from rfl,
    frameFree_eq (s := s.withCount f (c - d)) ((s.withCount_same f _).framed hs) h1 h2,
    markFrameFree_last (s := s.withCount f (c - d)) hb]
  · simp only [Pmm.dropped, Pmm.withCount, update_idem]
  · simp only [Pmm.withCount, update_self]
    omega

theorem frameFrees_held (c : ℕ) :
    (∀ j < max c 1, (frameFrees (s.withCount f c) (frameToAlignedAddr s f) j).Held
      (frameToAlignedAddr s f)) ∧
    ¬ (frameFrees (s.withCount f c) (frameToAlignedAddr s f) (max c 1)).Held
      (frameToAlignedAddr s f) := by
  constructor
  · intro j hj
    rw [frameFrees_lt hs h1 h2 hb c j hj]
    exact ⟨f, h1, h2, rfl, hb⟩
  · rw [frameFrees_last hs h1 h2 hb]
    exact s.dropped_not_held f

end

theorem refcountIncs_eq (h0 : s.memoryRange.start = 0) (h2 : f < s.totalFrames) (hc : c < 2 ^ 16) :
    ∀ n, refcountIncs (s.withCount f c) (frameToAlignedAddr s f) n =
      s.withCount f ((c + n) % 2 ^ 16) := by
  have hidx : frameToAlignedAddr s f / 4096 = f := by
    rw [frameToAlignedAddr, h0, zero_add, Nat.mul_div_cancel _ (by norm_num)]
  intro n
  induction n with
  | zero => rw [Nat.add_zero, Nat.mod_eq_of_lt hc]; rfl
  | succ n ih =>
    rw [refcountIncs_succ, ih, pmmFrameRefcountInc]
    simp only [hidx]
    rw [if_pos (show f < (s.withCount f ((c + n) % 2 ^ 16)).totalFrames from h2)]
    simp only [Pmm.withCount, update_self, update_idem]
    congr 2
    omega

section
variable (hs : s.Framed) (h1 : 1 ≤ f) (h2 : f < s.totalFrames)
  (hb : bitmapIsSet s.bitmap f = true) (hone : s.frameRefcounts f = 1)
include hs h1 h2 hb hone

theorem released_of_start (h0 : s.memoryRange.start = 0) (hn : n < 65535) :
    ReleasedLast s (frameToAlignedAddr s f) n := by
  have hinc : ∀ j ≤ n, refcountIncs s (frameToAlignedAddr s f) j = s.withCount f (j + 1) := by
    intro j hj
    have h := refcountIncs_eq (c := 1) h0 h2 (by norm_num) j
    rw [← hone, s.withCount_self, hone, Nat.mod_eq_of_lt (by omega), Nat.add_comm] at h
    exact h
  have hmax : max (n + 1) 1 = n + 1 := by omega
  obtain ⟨hheld, hfree⟩ := frameFrees_held hs h1 h2 hb (n + 1)
  rw [hmax] at hheld hfree
  constructor
  · intro j hj
    rw [hinc j hj]
    exact s.withCount_else f _
  · intro j hj
    rw [hinc n le_rfl]
    rcases Nat.lt_or_eq_of_le hj with hj | rfl
    · rw [frameFrees_lt hs h1 h2 hb _ j (by omega)]
      exact s.withCount_else f _
    · have h := frameFrees_last hs h1 h2 hb (n + 1)
      rw [hmax] at h
      rw [h]
      exact s.dropped_else f
  · intro j hj
    rw [hinc n le_rfl]
    exact hheld j (by omega)
  · rw [hinc n le_rfl]
    exact hfree

theorem not_released_overflow (h0 : s.memoryRange.start = 0) (hn : 65535 ≤ n) :
    ¬ ReleasedLast s (frameToAlignedAddr s f) n := by
  intro h
  have hinc := refcountIncs_eq (c := 1) h0 h2 (by norm_num) n
  rw [← hone, s.withCount_self, hone] at hinc
  have hheld := h.held (max ((1 + n) % 2 ^ 16) 1) (by omega)
  rw [hinc] at hheld
  exact (frameFrees_held hs h1 h2 hb _).2 hheld

theorem not_released_start (h0 : s.memoryRange.start ≠ 0) (hn : n ≠ 0) :
    ¬ ReleasedLast s (frameToAlignedAddr s f) n := by
  intro h
  have hal := hs.aligned
  have hidx : frameToAlignedAddr s f / 4096 = s.memoryRange.start / 4096 + f := by
    rw [frameToAlignedAddr]
    omega
  by_cases hlt : s.memoryRange.start / 4096 + f < s.totalFrames
  · have hne : frameToAlignedAddr s (s.memoryRange.start / 4096 + f) ≠ frameToAlignedAddr s f := by
      intro e
      have := frameToAlignedAddr_inj e
      omega
    have h' := (h.incs 1 (by omega) _ hlt hne).2
    rw [refcountIncs_succ, refcountIncs, Function.iterate_zero_apply, pmmFrameRefcountInc] at h'
    simp only [hidx] at h'
    rw [if_pos hlt] at h'
    simp only [update_self] at h'
    omega
  · have hinc : ∀ j, refcountIncs s (frameToAlignedAddr s f) j = s := by
      intro j
      induction j with
      | zero => rfl
      | succ j ih =>
        rw [refcountIncs_succ, ih, pmmFrameRefcountInc]
        simp only [hidx]
        exact if_neg hlt
    have hheld := h.held 1 (by omega)
    have hfree := (frameFrees_held hs h1 h2 hb 1).2
    rw [← hone, s.withCount_self, hone] at hfree
    rw [hinc] at hheld
    exact hfree hheld

theorem released_zero : ReleasedLast s (frameToAlignedAddr s f) 0 := by
  have hheld := frameFrees_held hs h1 h2 hb 1
  have hlast := frameFrees_last hs h1 h2 hb 1
  rw [← hone, s.withCount_self, hone] at hheld hlast
  have hrefl : SameElse (frameToAlignedAddr s f) s s := fun _ _ _ => ⟨rfl, rfl⟩
  constructor
  · intro j hj
    obtain rfl := Nat.le_zero.1 hj
    exact hrefl
  · intro j hj
    rcases Nat.le_one_iff_eq_zero_or_eq_one.1 hj with rfl | rfl
    · exact hrefl
    · exact hlast ▸ s.dropped_else f
  · intro j hj
    exact hheld.1 j (by omega)
  · exact hheld.2

/-- **References to a frame that has one.** -/
theorem released_iff : ReleasedLast s (frameToAlignedAddr s f) n ↔
    n = 0 ∨ s.memoryRange.start = 0 ∧ n < 65535 := by
  constructor
  · intro h
    by_contra hc
    rw [not_or, not_and_or, not_lt] at hc
    obtain ⟨hn, h0 | hn'⟩ := hc
    · exact not_released_start hs h1 h2 hb hone h0 hn h
    · by_cases h0 : s.memoryRange.start = 0
      · exact not_released_overflow hs h1 h2 hb hone h0 hn' h
      · exact not_released_start hs h1 h2 hb hone h0 hn h
  · rintro (rfl | ⟨h0, hn⟩)
    · exact released_zero hs h1 h2 hb hone
    · exact released_of_start hs h1 h2 hb hone h0 hn

end

end

/-! ## Histories -/

theorem foldl_sameMemory {α : Type*} {f : Pmm → α → Pmm} (h : ∀ s x, SameMemory s (f s x))
    (l : List α) (s : Pmm) : SameMemory s (l.foldl f s) := by
  induction l generalizing s with
  | nil => exact .refl s
  | cons x l ih => exact (h s x).trans (ih (f s x))

theorem markRangeFree_same (s : Pmm) (r : Range) : SameMemory s (pmmMarkRangeFree s r) := by
  unfold pmmMarkRangeFree
  simp only
  split_ifs
  · exact .refl s
  · exact foldl_sameMemory releaseFrame_same _ s

theorem markRangeUsed_same (s : Pmm) (r : Range) : SameMemory s (pmmMarkRangeUsed s r) := by
  unfold pmmMarkRangeUsed
  simp only
  split_ifs
  · exact .refl s
  · exact foldl_sameMemory markFrameUsed_same _ s

theorem init_framed (s0 : Pmm) {total : Range} (usable critical : List Range)
    (h1 : total.start % 4096 = 0) (h2 : total.stop % 4096 = 0) (h3 : total.start ≤ total.stop)
    (h4 : total.stop < 2 ^ 32) :
    (pmmInit s0 total usable critical).Framed ∧
      (pmmInit s0 total usable critical).memoryRange = total := by
  set n := sub32 total.stop total.start / 4096 with hn
  set s : Pmm := { s0 with
    memoryRange := total
    totalFrames := n
    bitmap := memset s0.bitmap 0 0xFF ((n + 7) / 8)
    usedFrames := n } with hs
  have hframed : s.Framed := by
    refine ⟨h1, ?_, by change total.stop ≤ _; omega⟩
    change total.stop = total.start + n * 4096
    rw [hn, sub32]
    omega
  have h := (foldl_sameMemory markRangeFree_same usable s).trans
    (foldl_sameMemory markRangeUsed_same critical _)
  exact ⟨h.framed hframed, h.memoryRange⟩

/-- What holds along every history: the frames that were handed out have one reference. -/
structure PmmRun.Single (total : Range) (r : PmmRun) : Prop where
  framed : r.pmm.Framed
  range : r.pmm.memoryRange = total
  live : ∀ a ∈ r.live, ∃ f, 1 ≤ f ∧ f < r.pmm.totalFrames ∧ a = frameToAlignedAddr r.pmm f ∧
    bitmapIsSet r.pmm.bitmap f = true ∧ r.pmm.frameRefcounts f = 1

section
variable {total : Range} {r : PmmRun}

theorem PmmRun.Single.alloc (h : r.Single total) : (PmmCall.run .alloc r).Single total := by
  simp only [PmmCall.run]
  rcases frameAlloc_cases r.pmm with ⟨e, -⟩ | ⟨f, h1, h2, h3, e⟩
  · rw [e, if_pos rfl]
    exact h
  rw [e, if_neg (frameToAlignedAddr_ne_zero h1)]
  refine ⟨(r.pmm.taken_same f).framed h.framed, h.range, fun a ha => ?_⟩
  rcases Finset.mem_insert.1 ha with rfl | ha
  · exact ⟨f, h1, h2, rfl, isSet_set_self .., update_self ..⟩
  obtain ⟨g, hg1, hg2, rfl, hb, hc⟩ := h.live a ha
  have hne : g ≠ f := by
    rintro rfl
    rw [h3] at hb
    cases hb
  exact ⟨g, hg1, hg2, rfl, (isSet_set_ne _ hne.symm).trans hb,
    (update_of_ne hne ..).trans hc⟩

theorem markFrameFree_else (s : Pmm) {f g : ℕ} (hne : g ≠ f) :
    bitmapIsSet (markFrameFree s f).bitmap g = bitmapIsSet s.bitmap g ∧
      (markFrameFree s f).frameRefcounts g = s.frameRefcounts g := by
  refine ⟨(markFrameFree_keeps s f).2 g hne, ?_⟩
  unfold markFrameFree
  split_ifs
  · rfl
  · simp only
    split_ifs
    · exact update_of_ne hne ..
    · exact update_of_ne hne ..

theorem PmmRun.Single.free (h : r.Single total) (a : ℕ) :
    (PmmCall.run (.free a) r).Single total := by
  simp only [PmmCall.run]
  rcases frameFree_cases h.framed a with e | ⟨f, rfl, e⟩
  · rw [e]
    exact ⟨h.framed, h.range, fun b hb => h.live b (Finset.mem_of_mem_erase hb)⟩
  rw [e]
  have hm := (markFrameFree_keeps r.pmm f).1
  refine ⟨hm.framed h.framed, hm.memoryRange.trans h.range, fun b hb => ?_⟩
  obtain ⟨hne, hb⟩ := Finset.mem_erase.1 hb
  obtain ⟨g, hg1, hg2, rfl, hset, hc⟩ := h.live b hb
  have hgf : g ≠ f := by
    rintro rfl
    exact hne rfl
  obtain ⟨e1, e2⟩ := markFrameFree_else r.pmm hgf
  exact ⟨g, hg1, hm.totalFrames ▸ hg2, (hm.addr g).symm, e1.trans hset, e2.trans hc⟩

theorem PmmRun.Single.run (h : r.Single total) (c : PmmCall) : (c.run r).Single total := by
  cases c with
  | alloc => exact h.alloc
  | free a => exact h.free a

/-- **Reference-counted release**: after any history of allocations and frees, a frame that is
    handed out can be shared `n` times and is freed with its last reference, just when `n` is `0`
    or the memory range starts at address `0` and the count does not overflow. -/
theorem refcounted_release_iff {s₀ : Pmm} {usable critical : List Range} {a n : ℕ}
    (h1 : total.start % 4096 = 0) (h2 : total.stop % 4096 = 0) (h3 : total.start ≤ total.stop)
    (h4 : total.stop < 2 ^ 32)
    (hr : Runs PmmCall.run (fun _ _ => True) ⟨pmmInit s₀ total usable critical, ∅, ∅⟩ r)
    (ha : a ∈ r.live) : ReleasedLast r.pmm a n ↔ n = 0 ∨ total.start = 0 ∧ n < 65535 := by
  obtain ⟨hf, hrange⟩ := init_framed s₀ usable critical h1 h2 h3 h4
  have h : r.Single total := Runs.invariant (I := PmmRun.Single total)
    (fun _ c h _ => h.run c) hr ⟨hf, hrange, by simp⟩
  obtain ⟨f, hf1, hf2, rfl, hb, hc⟩ := h.live a ha
  rw [← h.range]
  exact released_iff h.framed hf1 hf2 hb hc

end

/-- Memory from address `start` on: eight frames, all usable. -/
def smallPmm (start : ℕ) : Pmm :=
  pmmInit ⟨fun _ => 0, 0, 0, ⟨0, 0⟩, fun _ => 0⟩ ⟨start, start + 0x8000⟩
    [⟨start, start + 0x8000⟩] []

/-- A frame with two more references goes with the third call. -/
theorem refcounted_release_two : ReleasedLast (pmmFrameAlloc (smallPmm 0)).1 0x1000 2 := by
  have hr : Runs PmmCall.run (fun _ _ => True) ⟨smallPmm 0, ∅, ∅⟩
      (PmmCall.run .alloc ⟨smallPmm 0, ∅, ∅⟩) := .single ⟨.alloc, trivial, rfl⟩
  have e : (pmmFrameAlloc (smallPmm 0)).2 = 0x1000 := by decide +kernel
  have hlive : 0x1000 ∈ (PmmCall.run .alloc ⟨smallPmm 0, ∅, ∅⟩).live := by
    simp only [PmmCall.run, e]
    decide
  have h := (refcounted_release_iff (n := 2) (by decide) (by decide) (by decide) (by decide) hr
    hlive).2 (.inr ⟨rfl, by norm_num⟩)
  simp only [PmmCall.run, e] at h
  exact h

/-- Memory that starts at `0x200000`: the reference is counted nowhere, and the first call frees the
    frame.  In memory that starts at `0x1000`, it is counted for another frame. -/
theorem refcount_of_other_frame : (pmmFrameAlloc (smallPmm 0x200000)).2 = 0x201000 ∧
    ¬ (pmmFrameFree (pmmFrameRefcountInc (pmmFrameAlloc (smallPmm 0x200000)).1 0x201000)
      0x201000).Held 0x201000 ∧
    (pmmFrameAlloc (smallPmm 0x1000)).2 = 0x2000 ∧
    (pmmFrameAlloc (smallPmm 0x1000)).1.frameRefcounts 2 = 0 ∧
    (pmmFrameRefcountInc (pmmFrameAlloc (smallPmm 0x1000)).1 0x2000).frameRefcounts 2 = 1 := by
  refine ⟨by decide +kernel, ?_, by decide +kernel, by decide +kernel, by decide +kernel⟩
  rintro ⟨f, -, hlt, e, hb⟩
  have ht : (pmmFrameFree (pmmFrameRefcountInc (pmmFrameAlloc (smallPmm 0x200000)).1 0x201000)
      0x201000).totalFrames = 8 := by decide +kernel
  have hst : (pmmFrameFree (pmmFrameRefcountInc (pmmFrameAlloc (smallPmm 0x200000)).1 0x201000)
      0x201000).memoryRange.start = 0x200000 := by decide +kernel
  rw [frameToAlignedAddr, hst] at e
  obtain rfl : f = 1 := by omega
  exact absurd hb (by decide +kernel)

end Kabanos
