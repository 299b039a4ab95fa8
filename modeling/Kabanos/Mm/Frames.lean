/-
  What the frame allocator guarantees: the counter agrees with the bitmap, and only
  frames of the usable ranges, away from the critical ones, are handed out.
-/
import Kabanos.Lib.Runs
import Kabanos.Mm.Pmm

namespace Kabanos

variable {a : ℕ} {r : Range} {usable critical : List Range}

def Pmm.used (s : Pmm) : Finset ℕ :=
  (Finset.range s.totalFrames).filter fun f => bitmapIsSet s.bitmap f = true

/-- The counter agrees with the bitmap, and frame `0` is not free. -/
structure Pmm.Ok (s : Pmm) : Prop where
  count : s.usedFrames = s.used.card
  zero : 0 < s.totalFrames → bitmapIsSet s.bitmap 0 = true

/-- Two states manage the same memory. -/
structure SameMemory (s s' : Pmm) : Prop where
  totalFrames : s'.totalFrames = s.totalFrames
  memoryRange : s'.memoryRange = s.memoryRange

section
variable {s s' s'' : Pmm} {f g : ℕ}

theorem SameMemory.refl (s : Pmm) : SameMemory s s := ⟨rfl, rfl⟩

theorem SameMemory.trans (h : SameMemory s s') (h' : SameMemory s' s'') : SameMemory s s'' :=
  ⟨h'.totalFrames.trans h.totalFrames, h'.memoryRange.trans h.memoryRange⟩

theorem SameMemory.addr (h : SameMemory s s') (f : ℕ) :
    frameToAlignedAddr s' f = frameToAlignedAddr s f := by
  simp only [frameToAlignedAddr, h.memoryRange]

theorem Pmm.mem_used : f ∈ s.used ↔ f < s.totalFrames ∧ bitmapIsSet s.bitmap f := by
  simp [Pmm.used]

/-! ## Setting and clearing bits -/

theorem Pmm.Ok.take (h : s.Ok) (hf : f < s.totalFrames) (hc : bitmapIsSet s.bitmap f = false)
    (r : ℕ → ℕ) : Pmm.Ok { s with
      bitmap := bitmapSet s.bitmap f, usedFrames := s.usedFrames + 1, frameRefcounts := r } where
  count := by
    set t : Pmm := { s with
      bitmap := bitmapSet s.bitmap f, usedFrames := s.usedFrames + 1, frameRefcounts := r }
    have e : t.used = insert f s.used := by
      ext g
      simp only [t, Pmm.mem_used, Finset.mem_insert, isSet_set, Bool.or_eq_true, decide_eq_true_eq]
      constructor
      · rintro ⟨h1, h2 | h2⟩
        · exact .inl h2.symm
        · exact .inr ⟨h1, h2⟩
      · rintro (rfl | ⟨h1, h2⟩)
        · exact ⟨hf, .inl rfl⟩
        · exact ⟨h1, .inr h2⟩
    have hn : f ∉ s.used := fun hm => by
      rw [(Pmm.mem_used.1 hm).2] at hc; cases hc
    rw [e, Finset.card_insert_of_notMem hn, ← h.count]
  zero := fun h0 => by
    rw [isSet_set, h.zero h0, Bool.or_true]

theorem Pmm.Ok.drop (h : s.Ok) (hf : f < s.totalFrames) (h0 : f ≠ 0)
    (hc : bitmapIsSet s.bitmap f) (r : ℕ → ℕ) : Pmm.Ok { s with
      bitmap := bitmapClear s.bitmap f, usedFrames := s.usedFrames - 1, frameRefcounts := r } where
  count := by
    set t : Pmm := { s with
      bitmap := bitmapClear s.bitmap f, usedFrames := s.usedFrames - 1, frameRefcounts := r }
    have e : t.used = s.used.erase f := by
      ext g
      simp only [t, Pmm.mem_used, Finset.mem_erase, isSet_clear, Bool.and_eq_true,
        Bool.not_eq_true', decide_eq_false_iff_not]
      constructor
      · rintro ⟨h1, h2, h3⟩
        exact ⟨Ne.symm h2, h1, h3⟩
      · rintro ⟨h1, h2, h3⟩
        exact ⟨h2, Ne.symm h1, h3⟩
    rw [e, Finset.card_erase_of_mem (Pmm.mem_used.2 ⟨hf, hc⟩), ← h.count]
  zero := fun ht => by
    rw [isSet_clear_ne _ h0]
    exact h.zero ht

theorem markFrameUsed_same (s : Pmm) (f : ℕ) : SameMemory s (markFrameUsed s f) := by
  unfold markFrameUsed
  split_ifs
  · exact ⟨rfl, rfl⟩
  · exact .refl s

theorem markFrameUsed_isSet (s : Pmm) (f g : ℕ) :
    bitmapIsSet (markFrameUsed s f).bitmap g = (decide (f = g) || bitmapIsSet s.bitmap g) := by
  unfold markFrameUsed
  split_ifs with h
  · exact isSet_set ..
  · by_cases e : f = g
    · subst e; simpa using h
    · simp [e]

theorem Pmm.Ok.markFrameUsed (h : s.Ok) (hf : f < s.totalFrames) : (markFrameUsed s f).Ok := by
  unfold Kabanos.markFrameUsed
  split_ifs with hc
  · exact h.take hf (by simpa using hc) _
  · exact h

theorem releaseFrame_same (s : Pmm) (f : ℕ) : SameMemory s (releaseFrame s f) := by
  unfold releaseFrame
  split_ifs
  · exact .refl s
  · exact ⟨rfl, rfl⟩
  · exact .refl s

theorem releaseFrame_isSet (s : Pmm) (f g : ℕ) :
    bitmapIsSet (releaseFrame s f).bitmap g =
      (!decide (f = g ∧ f ≠ 0) && bitmapIsSet s.bitmap g) := by
  unfold releaseFrame
  split_ifs with h0 h
  · simp [h0]
  · simp [isSet_clear, h0]
  · by_cases e : f = g
    · subst e; simp [Bool.eq_false_iff.2 h]
    · simp [e]

theorem Pmm.Ok.releaseFrame (h : s.Ok) (hf : f < s.totalFrames) : (releaseFrame s f).Ok := by
  unfold Kabanos.releaseFrame
  split_ifs with h0 hc
  · exact h
  · exact h.drop hf h0 hc _
  · exact h

/-! ## Ranges -/

theorem foldl_markFrameUsed (l : List ℕ) : ∀ {s : Pmm}, s.Ok → (∀ f ∈ l, f < s.totalFrames) →
    (l.foldl markFrameUsed s).Ok ∧ SameMemory s (l.foldl markFrameUsed s) ∧
      ∀ g, bitmapIsSet (l.foldl markFrameUsed s).bitmap g ↔
        bitmapIsSet s.bitmap g ∨ g ∈ l := by
  induction l with
  | nil => exact fun h _ => ⟨h, .refl _, by simp⟩
  | cons f l ih =>
    intro s h hl
    have hs := markFrameUsed_same s f
    obtain ⟨h1, h2, h3⟩ := ih (h.markFrameUsed (hl f (by simp)))
      fun g hg => by rw [hs.totalFrames]; exact hl g (by simp [hg])
    refine ⟨h1, hs.trans h2, fun g => ?_⟩
    rw [List.foldl_cons, h3, markFrameUsed_isSet]
    simp only [Bool.or_eq_true, decide_eq_true_eq, List.mem_cons, eq_comm (a := f)]
    tauto

theorem foldl_releaseFrame (l : List ℕ) : ∀ {s : Pmm}, s.Ok → (∀ f ∈ l, f < s.totalFrames) →
    (l.foldl releaseFrame s).Ok ∧ SameMemory s (l.foldl releaseFrame s) ∧
      ∀ g, bitmapIsSet (l.foldl releaseFrame s).bitmap g ↔
        bitmapIsSet s.bitmap g ∧ ¬ (g ∈ l ∧ g ≠ 0) := by
  induction l with
  | nil => exact fun h _ => ⟨h, .refl _, by simp⟩
  | cons f l ih =>
    intro s h hl
    have hs := releaseFrame_same s f
    obtain ⟨h1, h2, h3⟩ := ih (h.releaseFrame (hl f (by simp)))
      fun g hg => by rw [hs.totalFrames]; exact hl g (by simp [hg])
    refine ⟨h1, hs.trans h2, fun g => ?_⟩
    rw [List.foldl_cons, h3, releaseFrame_isSet]
    simp only [Bool.and_eq_true, Bool.not_eq_true', decide_eq_false_iff_not, List.mem_cons]
    by_cases e : f = g
    · subst e; tauto
    · have : ¬ g = f := fun h => e h.symm
      tauto

/-- Frame `f` of `s` lies in the range. -/
def Pmm.Inside (s : Pmm) (f : ℕ) (r : Range) : Prop :=
  r.start ≤ frameToAlignedAddr s f ∧ frameToAlignedAddr s f + 4096 ≤ r.stop

/-- Frame `f` of `s` and the range overlap. -/
def Pmm.Meets (s : Pmm) (f : ℕ) (r : Range) : Prop :=
  r.start < frameToAlignedAddr s f + 4096 ∧ frameToAlignedAddr s f < r.stop

/-- The memory range consists of the frames. -/
structure Pmm.Framed (s : Pmm) : Prop where
  aligned : s.memoryRange.start % 4096 = 0
  stop : s.memoryRange.stop = s.memoryRange.start + s.totalFrames * 4096
  max : s.memoryRange.stop ≤ 0xFFFFF000

theorem SameMemory.framed (h : SameMemory s s') (hs : s.Framed) : s'.Framed := by
  refine ⟨?_, ?_, ?_⟩ <;> rw [h.memoryRange]
  · exact hs.aligned
  · rw [h.totalFrames]; exact hs.stop
  · exact hs.max

theorem alignUp_eq (h : a ≤ 0xFFFFF000) : alignUp a = (a + 4095) / 4096 * 4096 := by
  rw [alignUp, alignDown, show a + 4096 - 1 = a + 4095 by omega, Nat.mod_eq_of_lt (by omega)]

theorem sub32_mul {u : ℕ} (h : a ≤ u) (hu : u * 4096 < 2 ^ 32) :
    sub32 (u * 4096) (a * 4096) / 4096 = u - a := by
  have e : u * 4096 + 2 ^ 32 - a * 4096 = (u - a) * 4096 + 2 ^ 32 := by omega
  rw [sub32, e]
  omega

/-- **`pmm_mark_range_free`** frees the frames that lie in the range, but not frame `0`. -/
theorem markRangeFree_spec (h : s.Ok) (hs : s.Framed)
    (h1 : s.memoryRange.start ≤ r.start) (h2 : r.start ≤ s.memoryRange.stop)
    (h3 : r.stop ≤ s.memoryRange.stop) :
    (pmmMarkRangeFree s r).Ok ∧ SameMemory s (pmmMarkRangeFree s r) ∧
      ∀ g < s.totalFrames, bitmapIsSet (pmmMarkRangeFree s r).bitmap g ↔
        bitmapIsSet s.bitmap g ∧ ¬ (s.Inside g r ∧ g ≠ 0) := by
  obtain ⟨ha, hb, hc⟩ := hs
  obtain ⟨a, ea⟩ : ∃ a, s.memoryRange.start = a * 4096 :=
    ⟨s.memoryRange.start / 4096, by omega⟩
  have eu := alignUp_eq (a := r.start) (by omega)
  have hau : a ≤ (r.start + 4095) / 4096 := by omega
  have hin : ∀ g, s.Inside g r ↔ (r.start + 4095) / 4096 ≤ a + g ∧ a + g < r.stop / 4096 :=
    fun g => by
    simp only [Pmm.Inside, frameToAlignedAddr, ea]
    omega
  by_cases hle : alignDown r.stop ≤ alignUp r.start
  · rw [show pmmMarkRangeFree s r = s from if_pos hle]
    refine ⟨h, .refl s, fun g _ => ⟨fun hg => ⟨hg, fun hi => ?_⟩, fun hg => hg.1⟩⟩
    rw [eu, alignDown] at hle
    have := (hin g).1 hi.1
    omega
  · set l := List.range' (sub32 (alignUp r.start) s.memoryRange.start / 4096)
      (min (sub32 (alignDown r.stop) s.memoryRange.start / 4096) s.totalFrames -
        sub32 (alignUp r.start) s.memoryRange.start / 4096) with hl
    rw [show pmmMarkRangeFree s r = l.foldl releaseFrame s from if_neg hle]
    rw [eu, alignDown, ea] at hl
    rw [eu, alignDown] at hle
    rw [sub32_mul hau (by omega), sub32_mul (by omega) (by omega)] at hl
    obtain ⟨k1, k2, k3⟩ := foldl_releaseFrame l h fun f hf => by
      rw [hl, List.mem_range'_1] at hf; omega
    refine ⟨k1, k2, fun g hg => ?_⟩
    rw [k3, hl, List.mem_range'_1, hin]
    refine and_congr_right fun _ => not_congr (and_congr_left fun _ => ?_)
    omega

/-- **`pmm_mark_range_used`** takes every frame that meets the range. -/
theorem markRangeUsed_spec (h : s.Ok) (hs : s.Framed) (hr : r.stop ≤ 0xFFFFF000) :
    (pmmMarkRangeUsed s r).Ok ∧ SameMemory s (pmmMarkRangeUsed s r) ∧
      ∀ g < s.totalFrames, bitmapIsSet (pmmMarkRangeUsed s r).bitmap g ↔
        bitmapIsSet s.bitmap g ∨ s.Meets g r := by
  obtain ⟨ha, hb, hc⟩ := hs
  obtain ⟨a, ea⟩ : ∃ a, s.memoryRange.start = a * 4096 :=
    ⟨s.memoryRange.start / 4096, by omega⟩
  set c := rangeClamp (rangeAlignOutward r) s.memoryRange with hcl
  have e1 : c.start = max (r.start / 4096) a * 4096 := by
    have : c.start = max (r.start / 4096 * 4096) s.memoryRange.start := rfl
    omega
  have e2 : c.stop = min ((r.stop + 4095) / 4096) (a + s.totalFrames) * 4096 := by
    have : c.stop = min (alignUp r.stop) s.memoryRange.stop := rfl
    rw [alignUp_eq hr] at this
    omega
  have hin : ∀ g < s.totalFrames, s.Meets g r ↔
      max (r.start / 4096) a ≤ a + g ∧
        a + g < min ((r.stop + 4095) / 4096) (a + s.totalFrames) := by
    intro g hg
    simp only [Pmm.Meets, frameToAlignedAddr, ea]
    omega
  generalize max (r.start / 4096) a = u at e1 hin
  generalize min ((r.stop + 4095) / 4096) (a + s.totalFrames) = v at e2 hin
  by_cases hle : c.stop ≤ c.start
  · rw [show pmmMarkRangeUsed s r = s from if_pos hle]
    refine ⟨h, .refl s, fun g hg => ⟨.inl, fun hg' => hg'.resolve_right fun hi => ?_⟩⟩
    have := (hin g hg).1 hi
    omega
  · set l := List.range' (alignedAddrToFrame s c.start)
      (min (alignedAddrToFrame s c.stop) s.totalFrames - alignedAddrToFrame s c.start) with hl
    rw [show pmmMarkRangeUsed s r = l.foldl markFrameUsed s from if_neg hle]
    have f1 : alignedAddrToFrame s c.start = u - a := by
      rw [alignedAddrToFrame, e1, ea, ← Nat.sub_mul, Nat.mul_div_cancel _ (by norm_num)]
    have f2 : alignedAddrToFrame s c.stop = v - a := by
      rw [alignedAddrToFrame, e2, ea, ← Nat.sub_mul, Nat.mul_div_cancel _ (by norm_num)]
    rw [f1, f2] at hl
    obtain ⟨k1, k2, k3⟩ := foldl_markFrameUsed l h fun f hf => by
      rw [hl, List.mem_range'_1] at hf; omega
    refine ⟨k1, k2, fun g hg => ?_⟩
    rw [k3, hl, List.mem_range'_1, hin g hg]
    refine or_congr_right ?_
    omega

/-! ## `pmm_init` -/

/-- The arguments of `pmm_init`: a page-aligned range of memory, usable ranges inside it,
    and critical ranges anywhere. -/
structure Layout (total : Range) (usable critical : List Range) : Prop where
  start : total.start % 4096 = 0
  stop : total.stop % 4096 = 0
  le : total.start ≤ total.stop
  max : total.stop ≤ 0xFFFFF000
  usable : ∀ u ∈ usable, total.start ≤ u.start ∧ u.start ≤ total.stop ∧ u.stop ≤ total.stop
  critical : ∀ c ∈ critical, c.stop ≤ 0xFFFFF000

/-- Frame `f` may be handed out: it is not the first one, lies in a usable range and meets
    no critical one. -/
structure Pmm.Fair (s : Pmm) (usable critical : List Range) (f : ℕ) : Prop where
  ne_zero : f ≠ 0
  usable : ∃ u ∈ usable, s.Inside f u
  critical : ∀ c ∈ critical, ¬ s.Meets f c

theorem SameMemory.inside (h : SameMemory s s') : s'.Inside f r ↔ s.Inside f r := by
  simp only [Pmm.Inside, h.addr]

theorem SameMemory.meets (h : SameMemory s s') : s'.Meets f r ↔ s.Meets f r := by
  simp only [Pmm.Meets, h.addr]

theorem SameMemory.fair (h : SameMemory s s')
    (hf : s.Fair usable critical f) : s'.Fair usable critical f := by
  obtain ⟨h1, ⟨u, h2, h3⟩, h4⟩ := hf
  exact ⟨h1, ⟨u, h2, h.inside.2 h3⟩, fun c hc hm => h4 c hc (h.meets.1 hm)⟩

theorem foldl_markRangeFree (l : List Range) : ∀ {s : Pmm}, s.Ok → s.Framed →
    (∀ u ∈ l, s.memoryRange.start ≤ u.start ∧ u.start ≤ s.memoryRange.stop ∧
      u.stop ≤ s.memoryRange.stop) →
    (l.foldl pmmMarkRangeFree s).Ok ∧ SameMemory s (l.foldl pmmMarkRangeFree s) ∧
      ∀ g < s.totalFrames, bitmapIsSet (l.foldl pmmMarkRangeFree s).bitmap g = false →
        bitmapIsSet s.bitmap g = false ∨ g ≠ 0 ∧ ∃ u ∈ l, s.Inside g u := by
  induction l with
  | nil => exact fun h _ _ => ⟨h, .refl _, fun _ _ => .inl⟩
  | cons r l ih =>
    intro s h hs hl
    obtain ⟨h1, h2, h3⟩ := hl r (by simp)
    obtain ⟨k1, k2, k3⟩ := markRangeFree_spec h hs h1 h2 h3
    obtain ⟨j1, j2, j3⟩ := ih k1 (k2.framed hs) fun u hu => by
      rw [k2.memoryRange]; exact hl u (by simp [hu])
    refine ⟨j1, k2.trans j2, fun g hg hc => ?_⟩
    rcases j3 g (by rwa [k2.totalFrames]) hc with hc | ⟨h0, u, hu, hi⟩
    · by_cases hb : bitmapIsSet s.bitmap g
      · have := (k3 g hg).not.1 (by rw [hc]; exact Bool.false_ne_true)
        obtain ⟨hi, h0⟩ := not_not.1 fun hn => this ⟨hb, hn⟩
        exact .inr ⟨h0, r, by simp, hi⟩
      · exact .inl (Bool.eq_false_iff.2 hb)
    · exact .inr ⟨h0, u, by simp [hu], k2.inside.1 hi⟩

theorem foldl_markRangeUsed (l : List Range) : ∀ {s : Pmm}, s.Ok → s.Framed →
    (∀ c ∈ l, c.stop ≤ 0xFFFFF000) →
    (l.foldl pmmMarkRangeUsed s).Ok ∧ SameMemory s (l.foldl pmmMarkRangeUsed s) ∧
      ∀ g < s.totalFrames, bitmapIsSet (l.foldl pmmMarkRangeUsed s).bitmap g = false →
        bitmapIsSet s.bitmap g = false ∧ ∀ c ∈ l, ¬ s.Meets g c := by
  induction l with
  | nil => exact fun h _ _ => ⟨h, .refl _, fun _ _ hc => ⟨hc, by simp⟩⟩
  | cons r l ih =>
    intro s h hs hl
    obtain ⟨k1, k2, k3⟩ := markRangeUsed_spec h hs (hl r (by simp))
    obtain ⟨j1, j2, j3⟩ := ih k1 (k2.framed hs) fun c hc => hl c (by simp [hc])
    refine ⟨j1, k2.trans j2, fun g hg hc => ?_⟩
    obtain ⟨h1, h2⟩ := j3 g (by rwa [k2.totalFrames]) hc
    have := (k3 g hg).not.1 (by rw [h1]; exact Bool.false_ne_true)
    obtain ⟨h3, h4⟩ := not_or.1 this
    refine ⟨Bool.eq_false_iff.2 h3, fun c hc => ?_⟩
    rcases List.mem_cons.1 hc with rfl | hc
    · exact h4
    · exact fun hm => h2 c hc (k2.meets.2 hm)

/-- **After `pmm_init`** a free frame lies in a usable range and meets no critical one. -/
theorem init_spec {total : Range} (h : Layout total usable critical) (s0 : Pmm) :
    (pmmInit s0 total usable critical).Ok ∧ (pmmInit s0 total usable critical).Framed ∧
      (pmmInit s0 total usable critical).memoryRange = total ∧
      ∀ f < (pmmInit s0 total usable critical).totalFrames,
        bitmapIsSet (pmmInit s0 total usable critical).bitmap f = false →
          (pmmInit s0 total usable critical).Fair usable critical f := by
  set n := sub32 total.stop total.start / 4096 with hn
  set s : Pmm := { s0 with
    memoryRange := total
    totalFrames := n
    bitmap := memset s0.bitmap 0 0xFF ((n + 7) / 8)
    usedFrames := n } with hs
  have hfull : ∀ g < n, bitmapIsSet s.bitmap g := fun g hg => by
    have hb : s.bitmap (g / 8) = 0xFF := by
      simp only [hs, memset]
      rw [if_pos (by omega)]
    have := isSet_of_full hb (Nat.mod_lt g (by norm_num))
    rwa [Nat.div_add_mod'] at this
  have hok : s.Ok := by
    refine ⟨?_, fun h0 => hfull 0 h0⟩
    have : s.used = Finset.range n := Finset.filter_true_of_mem fun g hg =>
      hfull g (Finset.mem_range.1 hg)
    rw [this, Finset.card_range]
  have hframed : s.Framed := by
    obtain ⟨h1, h2, h3, h4, -, -⟩ := h
    refine ⟨h1, ?_, h4⟩
    change total.stop = total.start + n * 4096
    rw [hn, sub32]; omega
  obtain ⟨k1, k2, k3⟩ := foldl_markRangeFree usable hok hframed h.usable
  obtain ⟨j1, j2, j3⟩ := foldl_markRangeUsed critical k1 (k2.framed hframed) h.critical
  refine ⟨j1, j2.framed (k2.framed hframed), j2.memoryRange.trans k2.memoryRange,
    fun f hf hc => ?_⟩
  have hf' : f < n := hf.trans_eq (j2.totalFrames.trans k2.totalFrames)
  obtain ⟨h1, h2⟩ := j3 f (by rw [k2.totalFrames]; exact hf') hc
  rcases k3 f hf' h1 with h3 | ⟨h3, u, h4, h5⟩
  · rw [hfull f hf'] at h3; cases h3
  · exact j2.fair ⟨h3, ⟨u, h4, k2.inside.2 h5⟩, h2⟩

/-! ## Allocating and freeing -/

/-- Frame `f` is taken, with one reference. -/
def Pmm.taken (s : Pmm) (f : ℕ) : Pmm := { s with
  bitmap := bitmapSet s.bitmap f
  usedFrames := s.usedFrames + 1
  frameRefcounts := Function.update s.frameRefcounts f 1 }

theorem Pmm.taken_same (s : Pmm) (f : ℕ) : SameMemory s (s.taken f) := ⟨rfl, rfl⟩

/-- **`pmm_frame_alloc`** takes the first free frame behind frame `0`. -/
theorem frameAlloc_cases (s : Pmm) :
    (pmmFrameAlloc s = (s, 0) ∧ ∀ f, 1 ≤ f → f < s.totalFrames → bitmapIsSet s.bitmap f) ∨
      ∃ f, 1 ≤ f ∧ f < s.totalFrames ∧ bitmapIsSet s.bitmap f = false ∧
        pmmFrameAlloc s = (s.taken f, frameToAlignedAddr s f) := by
  unfold pmmFrameAlloc
  cases h : (List.range' 1 (s.totalFrames - 1)).find? fun f => !bitmapIsSet s.bitmap f with
  | none =>
    refine .inl ⟨rfl, fun f h1 h2 => ?_⟩
    have := List.find?_eq_none.1 h f (by rw [List.mem_range'_1]; omega)
    simpa using this
  | some f =>
    have hm := List.mem_of_find?_eq_some h
    have hc : bitmapIsSet s.bitmap f = false := by simpa using List.find?_some h
    rw [List.mem_range'_1] at hm
    refine .inr ⟨f, hm.1, by omega, hc, ?_⟩
    simp only [markFrameUsed, hc, Bool.not_false, if_true]
    rfl

theorem frameToAlignedAddr_inj (h : frameToAlignedAddr s f = frameToAlignedAddr s g) : f = g := by
  unfold frameToAlignedAddr at h; omega

theorem frameToAlignedAddr_ne_zero (hf : 1 ≤ f) : frameToAlignedAddr s f ≠ 0 := by
  unfold frameToAlignedAddr; omega

theorem frameFree_eq (hs : s.Framed) (h1 : 1 ≤ f) (h2 : f < s.totalFrames) :
    pmmFrameFree s (frameToAlignedAddr s f) = markFrameFree s f := by
  obtain ⟨ha, hb, -⟩ := hs
  have e : alignedAddrToFrame s (frameToAlignedAddr s f) = f := by
    simp only [alignedAddrToFrame, frameToAlignedAddr]; omega
  have hin : inRange (frameToAlignedAddr s f) s.memoryRange := by
    rw [inRange, Bool.and_eq_true, decide_eq_true_eq, decide_eq_true_eq, frameToAlignedAddr, hb]
    omega
  have h0 : ¬ (frameToAlignedAddr s f = 0 ∨ frameToAlignedAddr s f % 4096 ≠ 0) := by
    simp only [frameToAlignedAddr]; omega
  simp only [pmmFrameFree, if_neg h0, hin, e, Bool.not_true, Bool.false_eq_true, if_false,
    if_neg (not_le.2 h2)]

/-- Frame `f` is given back with its last reference. -/
def Pmm.dropped (s : Pmm) (f : ℕ) : Pmm := { s with
  bitmap := bitmapClear s.bitmap f
  usedFrames := s.usedFrames - 1
  frameRefcounts := Function.update s.frameRefcounts f 0 }

theorem Pmm.dropped_same (s : Pmm) (f : ℕ) : SameMemory s (s.dropped f) := ⟨rfl, rfl⟩

theorem markFrameFree_last (hb : bitmapIsSet s.bitmap f) (hr : s.frameRefcounts f ≤ 1) :
    markFrameFree s f = s.dropped f := by
  have e : s.frameRefcounts f - 1 = 0 := by omega
  simp only [markFrameFree, hb, e, Bool.not_true, Bool.false_eq_true, if_false, if_true]
  rfl

theorem markFrameFree_clear (hb : bitmapIsSet s.bitmap f = false) : markFrameFree s f = s := by
  simp [markFrameFree, hb]

/-! ## Counting -/

theorem Pmm.Ok.freeCount_pos (h : s.Ok) :
    0 < frameGetFreeCount s ↔ ∃ f, 1 ≤ f ∧ f < s.totalFrames ∧ bitmapIsSet s.bitmap f = false := by
  have hsub : s.used ⊆ Finset.range s.totalFrames := Finset.filter_subset ..
  rw [frameGetFreeCount, h.count, Nat.sub_pos_iff_lt]
  constructor
  · intro hlt
    have : s.used ≠ Finset.range s.totalFrames := fun e => by
      rw [e, Finset.card_range] at hlt; exact lt_irrefl _ hlt
    obtain ⟨f, hf, hn⟩ := Finset.exists_of_ssubset (hsub.ssubset_of_ne this)
    have hf' := Finset.mem_range.1 hf
    have hc : bitmapIsSet s.bitmap f = false := Bool.eq_false_iff.2 fun hb =>
      hn (Pmm.mem_used.2 ⟨hf', hb⟩)
    refine ⟨f, Nat.one_le_iff_ne_zero.2 ?_, hf', hc⟩
    rintro rfl
    rw [h.zero hf'] at hc; cases hc
  · rintro ⟨f, -, hf, hc⟩
    have hn : f ∉ s.used := fun hm => by rw [(Pmm.mem_used.1 hm).2] at hc; cases hc
    have := Finset.card_lt_card (Finset.ssubset_iff_subset_ne.2 ⟨hsub, fun e =>
      hn (e ▸ Finset.mem_range.2 hf)⟩)
    rwa [Finset.card_range] at this

theorem Pmm.Ok.frameAlloc (h : s.Ok) : (pmmFrameAlloc s).1.Ok := by
  rcases frameAlloc_cases s with ⟨e, -⟩ | ⟨f, -, h2, h3, e⟩
  · rw [e]; exact h
  · rw [e]; exact h.take h2 h3 _

theorem Pmm.Ok.alloc_count (h : s.Ok) : ((pmmFrameAlloc s).2 ≠ 0 ↔ 0 < frameGetFreeCount s) ∧
      frameGetFreeCount (pmmFrameAlloc s).1 = frameGetFreeCount s - 1 := by
  rw [h.freeCount_pos]
  rcases frameAlloc_cases s with ⟨e, hall⟩ | ⟨f, h1, h2, h3, e⟩ <;> rw [e]
  · have hno : ¬ ∃ f, 1 ≤ f ∧ f < s.totalFrames ∧ bitmapIsSet s.bitmap f = false := by
      rintro ⟨f, h1, h2, h3⟩
      rw [hall f h1 h2] at h3; cases h3
    have := h.freeCount_pos.not.2 hno
    refine ⟨iff_of_false (by simp) hno, ?_⟩
    show frameGetFreeCount s = _
    omega
  · refine ⟨iff_of_true (frameToAlignedAddr_ne_zero h1) ⟨f, h1, h2, h3⟩, ?_⟩
    simp only [frameGetFreeCount, Pmm.taken]
    omega

/-- **Exactly as many allocations succeed as the counter says.** -/
theorem Pmm.Ok.allocs (h : s.Ok) (i : ℕ) :
    (pmmFrameAlloc ((fun s => (pmmFrameAlloc s).1)^[i] s)).2 ≠ 0 ↔ i < frameGetFreeCount s := by
  induction i generalizing s with
  | zero => exact h.alloc_count.1
  | succ i ih =>
    rw [Function.iterate_succ_apply, ih h.frameAlloc, h.alloc_count.2]
    omega

/-! ## Histories of allocations and frees -/

/-- The allocator with the addresses it ever returned and those allocated now. -/
structure PmmRun where
  pmm : Pmm
  given : Finset ℕ
  live : Finset ℕ

inductive PmmCall
  | alloc
  | free (addr : ℕ)

def PmmCall.run : PmmCall → PmmRun → PmmRun
  | .alloc, s =>
    let (pmm, addr) := pmmFrameAlloc s.pmm
    if addr = 0 then ⟨pmm, s.given, s.live⟩ else ⟨pmm, insert addr s.given, insert addr s.live⟩
  | .free addr, s => ⟨pmmFrameFree s.pmm addr, s.given, s.live.erase addr⟩

/-- Only addresses that were returned are freed, any number of times. -/
def PmmCall.Ok (s : PmmRun) : PmmCall → Prop
  | .alloc => True
  | .free addr => addr ∈ s.given

variable {total : Range} {usable critical : List Range} {r : PmmRun}

/-- What holds along every history. -/
structure PmmRun.Inv (total : Range) (usable critical : List Range) (r : PmmRun) : Prop where
  ok : r.pmm.Ok
  framed : r.pmm.Framed
  range : r.pmm.memoryRange = total
  fair : ∀ f < r.pmm.totalFrames, bitmapIsSet r.pmm.bitmap f = false →
    r.pmm.Fair usable critical f
  given : ∀ a ∈ r.given, ∃ f < r.pmm.totalFrames, a = frameToAlignedAddr r.pmm f ∧
    r.pmm.Fair usable critical f ∧
      (bitmapIsSet r.pmm.bitmap f = true → r.pmm.frameRefcounts f = 1)
  live : ∀ a ∈ r.live, ∃ f, a = frameToAlignedAddr r.pmm f ∧ bitmapIsSet r.pmm.bitmap f = true

theorem PmmRun.Inv.alloc (h : r.Inv total usable critical) :
    (PmmCall.run .alloc r).Inv total usable critical := by
  simp only [PmmCall.run]
  rcases frameAlloc_cases r.pmm with ⟨e, -⟩ | ⟨f, h1, h2, h3, e⟩ <;> rw [e]
  · rw [if_pos rfl]; exact h
  have hm := r.pmm.taken_same f
  rw [if_neg (frameToAlignedAddr_ne_zero h1)]
  refine ⟨h.ok.take h2 h3 _, hm.framed h.framed, h.range, fun g hg hc => ?_, fun a ha => ?_,
    fun a ha => ?_⟩
  · refine hm.fair (h.fair g hg ?_)
    rw [Pmm.taken, isSet_set, Bool.or_eq_false_iff] at hc
    exact hc.2
  · rcases Finset.mem_insert.1 ha with rfl | ha
    · exact ⟨f, h2, rfl, hm.fair (h.fair f h2 h3), fun _ => Function.update_self ..⟩
    obtain ⟨g, hg, rfl, hf, hr⟩ := h.given a ha
    refine ⟨g, hg, rfl, hm.fair hf, fun hs => ?_⟩
    by_cases hfg : g = f
    · subst hfg; exact Function.update_self ..
    · rw [Pmm.taken, isSet_set_ne _ (Ne.symm hfg)] at hs
      exact (Function.update_of_ne hfg ..).trans (hr hs)
  · rcases Finset.mem_insert.1 ha with rfl | ha
    · exact ⟨f, rfl, isSet_set_self ..⟩
    obtain ⟨g, rfl, hs⟩ := h.live a ha
    exact ⟨g, rfl, by rw [Pmm.taken, isSet_set, hs, Bool.or_true]⟩

theorem PmmRun.Inv.free (h : r.Inv total usable critical) (ha : a ∈ r.given) :
    (PmmCall.run (.free a) r).Inv total usable critical := by
  obtain ⟨f, hf, rfl, hfair, hr⟩ := h.given a ha
  have h1 := Nat.one_le_iff_ne_zero.2 hfair.ne_zero
  simp only [PmmCall.run]
  rw [frameFree_eq h.framed h1 hf]
  cases hs : bitmapIsSet r.pmm.bitmap f with
  | false =>
    rw [markFrameFree_clear hs]
    exact ⟨h.ok, h.framed, h.range, h.fair, h.given,
      fun b hb => h.live b (Finset.mem_of_mem_erase hb)⟩
  | true =>
    rw [markFrameFree_last hs (hr hs).le]
    have hm := r.pmm.dropped_same f
    refine ⟨h.ok.drop hf hfair.ne_zero hs _, hm.framed h.framed, h.range, fun g hg hc => ?_,
      fun b hb => ?_, fun b hb => ?_⟩
    · by_cases hfg : g = f
      · subst hfg; exact hm.fair hfair
      · rw [Pmm.dropped, isSet_clear_ne _ (Ne.symm hfg)] at hc
        exact hm.fair (h.fair g hg hc)
    · obtain ⟨g, hg, rfl, hgf, hgr⟩ := h.given b hb
      refine ⟨g, hg, rfl, hm.fair hgf, fun hgs => ?_⟩
      by_cases hfg : g = f
      · subst hfg
        rw [Pmm.dropped, isSet_clear_self] at hgs; cases hgs
      · rw [Pmm.dropped, isSet_clear_ne _ (Ne.symm hfg)] at hgs
        exact (Function.update_of_ne hfg ..).trans (hgr hgs)
    · obtain ⟨hne, hb⟩ := Finset.mem_erase.1 hb
      obtain ⟨g, rfl, hgs⟩ := h.live b hb
      refine ⟨g, rfl, ?_⟩
      rw [Pmm.dropped, isSet_clear_ne _ (by rintro rfl; exact hne rfl)]
      exact hgs

theorem PmmRun.Inv.run (h : r.Inv total usable critical) {c : PmmCall} (hc : c.Ok r) :
    (c.run r).Inv total usable critical := by
  cases c with
  | alloc => exact h.alloc
  | free a => exact h.free hc

/-- A run starts from what `pmm_init` set up. -/
def pmmStart (s₀ : Pmm) (total : Range) (usable critical : List Range) : PmmRun :=
  ⟨pmmInit s₀ total usable critical, ∅, ∅⟩

theorem pmmStart_inv (h : Layout total usable critical) (s0 : Pmm) :
    (pmmStart s0 total usable critical).Inv total usable critical := by
  obtain ⟨h1, h2, h3, h4⟩ := init_spec h s0
  exact ⟨h1, h2, h3, h4, by simp [pmmStart], by simp [pmmStart]⟩

/-- **Safety and exactness of the frame allocator**, after every history of allocations and
    frees: an address that is returned is that of a whole usable frame that is free, and the
    counter says how many allocations in a row succeed. -/
theorem frame_allocator_safe_and_exact (h : Layout total usable critical) (s₀ : Pmm)
    (hr : Runs PmmCall.run PmmCall.Ok (pmmStart s₀ total usable critical) r) :
    (∀ a, (pmmFrameAlloc r.pmm).2 = a → a ≠ 0 →
      a % 4096 = 0 ∧ a ≠ total.start ∧ (∃ u ∈ usable, u.start ≤ a ∧ a + 4096 ≤ u.stop) ∧
        (∀ c ∈ critical, ¬ (c.start < a + 4096 ∧ a < c.stop)) ∧ a ∉ r.live) ∧
      ∀ i, (pmmFrameAlloc ((fun s => (pmmFrameAlloc s).1)^[i] r.pmm)).2 ≠ 0 ↔
        i < frameGetFreeCount r.pmm := by
  have hI : r.Inv total usable critical :=
    Runs.invariant (fun s c hs hc => hs.run hc) hr (pmmStart_inv h s₀)
  refine ⟨fun a ha h0 => ?_, hI.ok.allocs⟩
  rcases frameAlloc_cases r.pmm with ⟨e, -⟩ | ⟨f, h1, h2, h3, e⟩ <;> rw [e] at ha
  · exact absurd ha.symm h0
  subst ha
  obtain ⟨-, hu, hc⟩ := hI.fair f h2 h3
  have hal := hI.framed.aligned
  rw [← hI.range]
  refine ⟨?_, ?_, hu, hc, fun hl => ?_⟩
  · simp only [frameToAlignedAddr]; omega
  · simp only [frameToAlignedAddr]; omega
  · obtain ⟨g, hg, hs⟩ := hI.live _ hl
    rw [← frameToAlignedAddr_inj hg, h3] at hs
    cases hs

/-- The static variables of `pmm.c` at boot. -/
def Pmm.boot : Pmm := ⟨fun _ => 0, 0, 0, ⟨0, 0⟩, fun _ => 0⟩

/-- Sixteen frames from 1 MB on, with a hole in the usable memory and a kernel in it. -/
def demoPmm : PmmRun :=
  pmmStart .boot ⟨0x100000, 0x110000⟩ [⟨0x100000, 0x108800⟩, ⟨0x10A000, 0x110000⟩]
    [⟨0x101000, 0x103123⟩]

theorem demoPmm_layout : Layout ⟨0x100000, 0x110000⟩ [⟨0x100000, 0x108800⟩, ⟨0x10A000, 0x110000⟩]
      [⟨0x101000, 0x103123⟩] :=
  ⟨by decide, by decide, by decide, by decide, by decide, by decide⟩

/-- After two allocations and a double free the first frame behind the kernel is handed
    out again. -/
theorem frame_allocator_reuses_freed_frame :
    ∃ r, Runs PmmCall.run PmmCall.Ok demoPmm r ∧ (pmmFrameAlloc r.pmm).2 = 0x104000 ∧
      0x104000 ∉ r.live ∧ 0x105000 ∈ r.live ∧ frameGetFreeCount r.pmm = 9 ∧
      (pmmFrameAlloc ((fun s => (pmmFrameAlloc s).1)^[8] r.pmm)).2 ≠ 0 ∧
      (pmmFrameAlloc ((fun s => (pmmFrameAlloc s).1)^[9] r.pmm)).2 = 0 := by
  have hr : Runs PmmCall.run PmmCall.Ok demoPmm
      (PmmCall.run (.free 0x104000) (PmmCall.run (.free 0x104000)
        (PmmCall.run .alloc (PmmCall.run .alloc demoPmm)))) :=
    (((Relation.ReflTransGen.refl.tail ⟨.alloc, trivial, rfl⟩).tail ⟨.alloc, trivial, rfl⟩).tail
      ⟨.free 0x104000, by change _ ∈ _; decide +kernel, rfl⟩).tail
      ⟨.free 0x104000, by change _ ∈ _; decide +kernel, rfl⟩
  obtain ⟨h1, h2⟩ := frame_allocator_safe_and_exact demoPmm_layout .boot hr
  have e : (pmmFrameAlloc (PmmCall.run (.free 0x104000) (PmmCall.run (.free 0x104000)
      (PmmCall.run .alloc (PmmCall.run .alloc demoPmm)))).pmm).2 = 0x104000 := by decide +kernel
  have e9 : frameGetFreeCount (PmmCall.run (.free 0x104000) (PmmCall.run (.free 0x104000)
      (PmmCall.run .alloc (PmmCall.run .alloc demoPmm)))).pmm = 9 := by decide +kernel
  refine ⟨_, hr, e, (h1 _ e (by decide)).2.2.2.2, by decide +kernel, e9, (h2 8).2 (by omega),
    not_not.1 fun hn => ?_⟩
  have := (h2 9).1 hn
  omega

end

end Kabanos
