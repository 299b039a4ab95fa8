/-
  The frame allocator by address: which frames are held, and with how many references.
-/
import Kabanos.Mm.Frames

namespace Kabanos

/-- A frame other than the first one. -/
def Pmm.IsFrame (s : Pmm) (a : ℕ) : Prop :=
  ∃ f, 1 ≤ f ∧ f < s.totalFrames ∧ a = frameToAlignedAddr s f

/-- A frame that is in use. -/
def Pmm.Held (s : Pmm) (a : ℕ) : Prop :=
  ∃ f, 1 ≤ f ∧ f < s.totalFrames ∧ a = frameToAlignedAddr s f ∧ bitmapIsSet s.bitmap f = true

/-- The reference count of the frame at `a`. -/
def Pmm.refs (s : Pmm) (a : ℕ) : ℕ := s.frameRefcounts (alignedAddrToFrame s a)

section
variable {s s' : Pmm} {a b f : ℕ}

theorem alignedAddrToFrame_addr (s : Pmm) (f : ℕ) :
    alignedAddrToFrame s (frameToAlignedAddr s f) = f := by
  simp only [alignedAddrToFrame, frameToAlignedAddr]; omega

theorem Pmm.refs_addr (s : Pmm) (f : ℕ) : s.refs (frameToAlignedAddr s f) = s.frameRefcounts f := by
  rw [Pmm.refs, alignedAddrToFrame_addr]

theorem Pmm.Held.isFrame (h : s.Held a) : s.IsFrame a := by
  obtain ⟨f, h1, h2, h3, -⟩ := h
  exact ⟨f, h1, h2, h3⟩

theorem Pmm.held_addr (h1 : 1 ≤ f) (h2 : f < s.totalFrames) :
    s.Held (frameToAlignedAddr s f) ↔ bitmapIsSet s.bitmap f := by
  constructor
  · rintro ⟨g, -, -, e, hs⟩
    rwa [frameToAlignedAddr_inj e]
  · exact fun hs => ⟨f, h1, h2, rfl, hs⟩

theorem Pmm.IsFrame.ne_zero (h : s.IsFrame a) : a ≠ 0 := by
  obtain ⟨f, h1, -, rfl⟩ := h
  exact frameToAlignedAddr_ne_zero h1

theorem Pmm.IsFrame.aligned (h : s.IsFrame a) (hs : s.Framed) : a % 4096 = 0 := by
  obtain ⟨f, -, -, rfl⟩ := h
  have := hs.aligned
  simp only [frameToAlignedAddr]; omega

theorem Pmm.IsFrame.lt (h : s.IsFrame a) (hs : s.Framed) : a < 2 ^ 32 := by
  obtain ⟨f, -, h2, rfl⟩ := h
  obtain ⟨-, h3, h4⟩ := hs
  simp only [frameToAlignedAddr]; omega

theorem SameMemory.isFrame (h : SameMemory s s') : s'.IsFrame a ↔ s.IsFrame a := by
  simp only [Pmm.IsFrame, h.addr, h.totalFrames]

theorem Pmm.held_congr (h : SameMemory s s') (hb : s'.bitmap = s.bitmap) :
    s'.Held a ↔ s.Held a := by
  simp only [Pmm.Held, h.addr, h.totalFrames, hb]

/-! ## Allocating -/

structure Taken (s s' : Pmm) (a : ℕ) : Prop where
  same : SameMemory s s'
  frame : s.IsFrame a
  fresh : ¬ s.Held a
  held : ∀ b, s'.Held b ↔ s.Held b ∨ b = a
  one : s'.refs a = 1
  refs : ∀ b, s.IsFrame b → b ≠ a → s'.refs b = s.refs b
  ok : s.Ok → s'.Ok
  used : s'.usedFrames = s.usedFrames + 1

/-- **`pmm_frame_alloc` takes a free frame**, if there is one. -/
theorem Pmm.alloc_spec (s : Pmm) : (pmmFrameAlloc s = (s, 0) ∧ ∀ a, s.IsFrame a → s.Held a) ∨
      ∃ s' a, pmmFrameAlloc s = (s', a) ∧ Taken s s' a := by
  rcases frameAlloc_cases s with ⟨e, hall⟩ | ⟨f, h1, h2, h3, e⟩
  · refine .inl ⟨e, ?_⟩
    rintro a ⟨f, h1, h2, rfl⟩
    exact ⟨f, h1, h2, rfl, hall f h1 h2⟩
  · refine .inr ⟨_, _, e, ⟨s.taken_same f, ⟨f, h1, h2, rfl⟩, ?_, fun b => ?_, ?_, ?_,
      fun h => h.take h2 h3 _, rfl⟩⟩
    · rw [held_addr h1 h2, h3]; exact Bool.false_ne_true
    · constructor
      · rintro ⟨g, g1, g2, rfl, g3⟩
        rw [Pmm.taken, isSet_set, Bool.or_eq_true, decide_eq_true_eq] at g3
        rcases g3 with rfl | g3
        · exact .inr rfl
        · exact .inl ⟨g, g1, g2, rfl, g3⟩
      · rintro (⟨g, g1, g2, rfl, g3⟩ | rfl)
        · exact ⟨g, g1, g2, rfl, by rw [Pmm.taken, isSet_set, g3, Bool.or_true]⟩
        · exact ⟨f, h1, h2, rfl, isSet_set_self ..⟩
    · exact (Pmm.refs_addr (s.taken f) f).trans (Function.update_self ..)
    · rintro b ⟨g, -, -, rfl⟩ hne
      have hg : g ≠ f := by rintro rfl; exact hne rfl
      exact (Pmm.refs_addr (s.taken f) g).trans
        ((Function.update_of_ne hg ..).trans (Pmm.refs_addr s g).symm)

/-! ## Freeing -/

/-- One reference to frame `a` is dropped. -/
structure Dropped (s s' : Pmm) (a : ℕ) : Prop where
  same : SameMemory s s'
  held : ∀ b, s'.Held b ↔ s.Held b ∧ (b = a → 1 < s.refs a)
  refs : ∀ b, s.IsFrame b → b ≠ a → s'.refs b = s.refs b
  ok : s.Ok → s'.Ok

/-- **`pmm_frame_free` drops one reference**, and the frame with the last one. -/
theorem Pmm.free_spec (hs : s.Framed) (ha : s.Held a) : Dropped s (pmmFrameFree s a) a := by
  obtain ⟨f, h1, h2, rfl, h3⟩ := ha
  rw [frameFree_eq hs h1 h2]
  have hne : ∀ g, frameToAlignedAddr s g ≠ frameToAlignedAddr s f → g ≠ f := fun g hg e =>
    hg (by rw [e])
  by_cases hc : s.frameRefcounts f ≤ 1
  · rw [markFrameFree_last h3 hc]
    refine ⟨s.dropped_same f, fun b => ?_, ?_,
      fun h => h.drop h2 (Nat.one_le_iff_ne_zero.1 h1) h3 _⟩
    · constructor
      · rintro ⟨g, g1, g2, rfl, g3⟩
        have hgf : f ≠ g := by
          rintro rfl
          rw [Pmm.dropped, isSet_clear_self] at g3; cases g3
        rw [Pmm.dropped, isSet_clear_ne _ hgf] at g3
        exact ⟨⟨g, g1, g2, rfl, g3⟩, fun e => absurd (frameToAlignedAddr_inj (s := s) e).symm hgf⟩
      · rintro ⟨⟨g, g1, g2, rfl, g3⟩, hlast⟩
        refine ⟨g, g1, g2, rfl, ?_⟩
        rw [Pmm.dropped, isSet_clear_ne]
        · exact g3
        · rintro rfl
          have := hlast rfl
          rw [Pmm.refs_addr] at this
          omega
    · rintro b ⟨g, -, -, rfl⟩ hb
      rw [Pmm.refs_addr]
      exact (Pmm.refs_addr (s.dropped f) g).trans (Function.update_of_ne (hne g hb) ..)
  · set t : Pmm := { s with
      frameRefcounts := Function.update s.frameRefcounts f (s.frameRefcounts f - 1) } with ht
    have e : markFrameFree s f = t := by
      have : s.frameRefcounts f - 1 ≠ 0 := by omega
      simp only [markFrameFree, h3, this, Bool.not_true, Bool.false_eq_true, if_false]
      rfl
    have hm : SameMemory s t := ⟨rfl, rfl⟩
    rw [e]
    refine ⟨hm, fun b => ?_, ?_, fun h => ⟨h.count, h.zero⟩⟩
    · rw [Pmm.held_congr hm rfl, Pmm.refs_addr]
      exact ⟨fun h => ⟨h, fun _ => by omega⟩, And.left⟩
    · rintro b ⟨g, -, -, rfl⟩ hb
      rw [Pmm.refs_addr]
      exact (Pmm.refs_addr t g).trans (Function.update_of_ne (hne g hb) ..)

theorem frameFree_cases (hs : s.Framed) (a : ℕ) : pmmFrameFree s a = s ∨
      ∃ f, a = frameToAlignedAddr s f ∧ pmmFrameFree s a = markFrameFree s f := by
  unfold pmmFrameFree
  by_cases h1 : a = 0 ∨ a % 4096 ≠ 0
  · exact .inl (if_pos h1)
  rw [if_neg h1]
  by_cases h2 : (!inRange a s.memoryRange)
  · exact .inl (if_pos h2)
  rw [if_neg h2]
  by_cases h3 : s.totalFrames ≤ alignedAddrToFrame s a
  · exact .inl (if_pos h3)
  refine .inr ⟨alignedAddrToFrame s a, ?_, if_neg h3⟩
  have h4 := hs.aligned
  simp only [inRange, Bool.not_eq_true', Bool.not_eq_false, Bool.and_eq_true,
    decide_eq_true_eq] at h2
  simp only [frameToAlignedAddr, alignedAddrToFrame]
  omega

theorem markFrameFree_keeps (s : Pmm) (f : ℕ) : SameMemory s (markFrameFree s f) ∧
    ∀ g, g ≠ f → bitmapIsSet (markFrameFree s f).bitmap g = bitmapIsSet s.bitmap g := by
  unfold markFrameFree
  by_cases h1 : (!bitmapIsSet s.bitmap f)
  · rw [if_pos h1]
    exact ⟨.refl s, fun _ _ => rfl⟩
  rw [if_neg h1]
  by_cases h2 : s.frameRefcounts f - 1 = 0
  · simp only [if_pos h2]
    exact ⟨⟨rfl, rfl⟩, fun g hg => isSet_clear_ne _ (Ne.symm hg)⟩
  · simp only [if_neg h2]
    exact ⟨⟨rfl, rfl⟩, fun _ _ => trivial⟩

/-- **Freeing any address keeps the other frames.** -/
theorem Pmm.free_keeps (hs : s.Framed) (a : ℕ) : SameMemory s (pmmFrameFree s a) ∧
    ∀ b, s.Held b → b ≠ a → (pmmFrameFree s a).Held b := by
  rcases frameFree_cases hs a with e | ⟨f, rfl, e⟩ <;> rw [e]
  · exact ⟨.refl s, fun _ hb _ => hb⟩
  obtain ⟨h1, h2⟩ := markFrameFree_keeps s f
  refine ⟨h1, ?_⟩
  rintro b ⟨g, g1, g2, rfl, g3⟩ hne
  have hg : g ≠ f := fun e => hne (by rw [e])
  exact ⟨g, g1, by rw [h1.totalFrames]; exact g2, (h1.addr g).symm, by rw [h2 g hg]; exact g3⟩

end

end Kabanos
