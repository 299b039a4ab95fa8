/-
  Boot modules and the frame allocator: whether `pmm_frame_alloc` can hand out a frame of a
  boot module, after `pmm_init` with the ranges of `get_used_memory_ranges`.

  A range that ends in the last page of the address space is not marked at all, since its end
  is aligned to zero.
-/
import Kabanos.Boot.UsedRanges

namespace Kabanos

/-- The end of a range can be aligned. -/
def Range.Alignable (r : Range) : Prop := r.stop ≤ 0xFFFFF000

instance (r : Range) : Decidable r.Alignable := inferInstanceAs (Decidable (r.stop ≤ 0xFFFFF000))

/-- The range meets the frame of the byte at `a`. -/
def Range.MeetsFrameOf (r : Range) (a : ℕ) : Prop :=
  r.start < alignDown a + 4096 ∧ alignDown a < r.stop

/-- No frame with a byte of one of the modules is handed out, after any history of
    allocations and frees in any memory. -/
def KeepsOff (ranges : List Range) (mods : List BootModule) : Prop :=
  ∀ pmm₀ total usable, Layout total usable [] →
    ∀ r, Runs PmmCall.run PmmCall.Ok (pmmStart pmm₀ total usable ranges) r →
      (pmmFrameAlloc r.pmm).2 ≠ 0 →
      ∀ m ∈ mods, ∀ a, m.Has a →
        ¬ ((pmmFrameAlloc r.pmm).2 ≤ a ∧ a < (pmmFrameAlloc r.pmm).2 + 4096)

/-- **The boot modules are protected**: the ranges contain them, and the allocator keeps off
    them. -/
def Protects (ranges : List Range) (mods : List BootModule) : Prop :=
  (∀ m ∈ mods, ∀ a, m.Has a → ∃ r ∈ ranges, r.Has a) ∧ KeepsOff ranges mods

section
variable {s s₀ : Pmm} {total r : Range} {usable ranges : List Range} {mods : List BootModule}
  {f a : ℕ}

/-! ## Marking -/

theorem markRangeUsed_unalignable (h : ¬ r.Alignable) (hlt : r.stop < 2 ^ 32) :
    pmmMarkRangeUsed s r = s := by
  have hz : alignUp r.stop = 0 := by
    rw [Range.Alignable] at h
    rw [alignUp, alignDown]
    omega
  have hle : (rangeClamp (rangeAlignOutward r) s.memoryRange).stop
      ≤ (rangeClamp (rangeAlignOutward r) s.memoryRange).start := by
    simp only [rangeClamp, rangeAlignOutward, hz]
    omega
  exact if_pos hle

theorem foldl_markRangeUsed_filter (h : ∀ r ∈ ranges, r.stop < 2 ^ 32) :
    ranges.foldl pmmMarkRangeUsed s
      = (ranges.filter fun r => decide r.Alignable).foldl pmmMarkRangeUsed s := by
  induction ranges generalizing s with
  | nil => rfl
  | cons r ranges ih =>
    have hr := ih (s := pmmMarkRangeUsed s r) fun q hq => h q (List.mem_cons_of_mem r hq)
    rw [List.foldl_cons, hr]
    by_cases ha : r.Alignable
    · rw [List.filter_cons_of_pos (by simpa using ha), List.foldl_cons]
    · rw [List.filter_cons_of_neg (by simpa using ha),
        markRangeUsed_unalignable ha (h r List.mem_cons_self)]

theorem pmmInit_filter (h : ∀ r ∈ ranges, r.stop < 2 ^ 32) : pmmInit s₀ total usable ranges
      = pmmInit s₀ total usable (ranges.filter fun r => decide r.Alignable) :=
  foldl_markRangeUsed_filter h

theorem foldl_markRangeUsed_clear (h : s.Ok) (hs : s.Framed) (hr : ∀ r ∈ ranges, r.Alignable)
    (hf : f < s.totalFrames) (hc : bitmapIsSet s.bitmap f = false)
    (hm : ∀ r ∈ ranges, ¬ s.Meets f r) :
    bitmapIsSet (ranges.foldl pmmMarkRangeUsed s).bitmap f = false ∧
      SameMemory s (ranges.foldl pmmMarkRangeUsed s) := by
  induction ranges generalizing s with
  | nil => exact ⟨hc, .refl s⟩
  | cons r ranges ih =>
    obtain ⟨k1, k2, k3⟩ := markRangeUsed_spec h hs (hr r List.mem_cons_self)
    have hc' : bitmapIsSet (pmmMarkRangeUsed s r).bitmap f = false := by
      refine Bool.eq_false_iff.2 fun hset => ?_
      rcases (k3 f hf).1 hset with h1 | h1
      · rw [hc] at h1
        cases h1
      · exact hm r List.mem_cons_self h1
    obtain ⟨j1, j2⟩ := ih k1 (k2.framed hs) (fun q hq => hr q (List.mem_cons_of_mem r hq))
      (by rwa [k2.totalFrames]) hc'
      fun q hq hmq => hm q (List.mem_cons_of_mem r hq) (k2.meets.1 hmq)
    exact ⟨j1, k2.trans j2⟩

/-! ## Which frames are handed out -/

theorem pmmInit_singleton (s₀ : Pmm) (total u : Range) (ranges : List Range) :
    pmmInit s₀ total [u] ranges
      = ranges.foldl pmmMarkRangeUsed (pmmMarkRangeFree (pmmInit s₀ total [] []) u) := rfl

theorem alloc_second_frame {F : ℕ} (hF : F % 4096 = 0) (h1 : 4096 ≤ F) (h2 : F + 4096 ≤ 0xFFFFF000)
    (hr : ∀ r ∈ ranges, r.Alignable) (hm : ∀ r ∈ ranges, ¬ (r.start < F + 4096 ∧ F < r.stop)) :
    Layout ⟨F - 4096, F + 4096⟩ [⟨F - 4096, F + 4096⟩] [] ∧
      (pmmFrameAlloc (pmmInit .boot ⟨F - 4096, F + 4096⟩ [⟨F - 4096, F + 4096⟩] ranges)).2 = F := by
  have hl : Layout ⟨F - 4096, F + 4096⟩ [] [] :=
    ⟨by simp only; omega, by simp only; omega, by simp only; omega, h2,
      fun u hu => absurd hu List.not_mem_nil, fun c hc => absurd hc List.not_mem_nil⟩
  refine ⟨⟨hl.start, hl.stop, hl.le, hl.max, fun u hu => ?_, hl.critical⟩, ?_⟩
  · rw [List.mem_singleton.1 hu]
    exact ⟨le_rfl, hl.le, le_rfl⟩
  obtain ⟨hok, hframed, hrange, hfair⟩ := init_spec hl Pmm.boot
  generalize hs : pmmInit .boot ⟨F - 4096, F + 4096⟩ [] [] = s at hok hframed hrange hfair
  have htwo : s.totalFrames = 2 := by
    have := hframed.stop
    rw [hrange] at this
    simp only at this
    omega
  have hin : s.Inside 1 ⟨F - 4096, F + 4096⟩ := by
    simp only [Pmm.Inside, frameToAlignedAddr, hrange]
    omega
  obtain ⟨k1, k2, k3⟩ := markRangeFree_spec (r := ⟨F - 4096, F + 4096⟩) hok hframed
    (by rw [hrange]) (by rw [hrange]; simp only; omega) (by rw [hrange])
  have hclear : bitmapIsSet (pmmMarkRangeFree s ⟨F - 4096, F + 4096⟩).bitmap 1 = false :=
    Bool.eq_false_iff.2 fun h => ((k3 1 (by omega)).1 h).2 ⟨hin, by decide⟩
  obtain ⟨j1, j2⟩ := foldl_markRangeUsed_clear k1 (k2.framed hframed) hr
    (by rw [k2.totalFrames]; omega) hclear fun r hrm hmeets => by
      have hm' := k2.meets.1 hmeets
      simp only [Pmm.Meets, frameToAlignedAddr, hrange] at hm'
      exact hm r hrm ⟨by omega, by omega⟩
  have he : pmmInit .boot ⟨F - 4096, F + 4096⟩ [⟨F - 4096, F + 4096⟩] ranges
      = ranges.foldl pmmMarkRangeUsed (pmmMarkRangeFree s ⟨F - 4096, F + 4096⟩) := by
    rw [← hs]
    exact pmmInit_singleton ..
  rw [he]
  have hsame := k2.trans j2
  rcases frameAlloc_cases (ranges.foldl pmmMarkRangeUsed
    (pmmMarkRangeFree s ⟨F - 4096, F + 4096⟩)) with ⟨-, hall⟩ | ⟨g, hg1, hg2, -, e⟩
  · rw [hall 1 le_rfl (by rw [hsame.totalFrames]; omega)] at j1
    cases j1
  · rw [hsame.totalFrames, htwo] at hg2
    obtain rfl : g = 1 := by omega
    rw [e]
    show frameToAlignedAddr _ 1 = F
    rw [hsame.addr, frameToAlignedAddr, hrange]
    simp only
    omega

/-- **The allocator keeps off the modules** iff each frame of theirs that it could hand out
    meets a range whose end can be aligned. -/
theorem keepsOff_iff (hlt : ∀ r ∈ ranges, r.stop < 2 ^ 32) :
    KeepsOff ranges mods ↔ ∀ m ∈ mods, ∀ a, m.Has a → 4096 ≤ a → a < 0xFFFFF000 →
      ∃ r ∈ ranges, r.Alignable ∧ r.MeetsFrameOf a := by
  constructor
  · intro h m hm a ha h1 h2
    by_contra hno
    push Not at hno
    have hF : alignDown a ≤ a ∧ a < alignDown a + 4096 := by
      rw [alignDown]
      omega
    have hal : ∀ r ∈ ranges.filter fun r => decide r.Alignable, r.Alignable :=
      fun r hr => of_decide_eq_true (List.mem_filter.1 hr).2
    obtain ⟨hl, he⟩ := alloc_second_frame (F := alignDown a) (by rw [alignDown]; omega)
      (by rw [alignDown]; omega) (by rw [alignDown]; omega) hal
      fun r hr => hno r (List.mem_filter.1 hr).1 (hal r hr)
    rw [← pmmInit_filter hlt] at he
    have hk := h .boot _ _ hl _ .refl
    simp only [pmmStart, he] at hk
    exact hk (by omega) m hm a ha hF
  · intro h pmm0 total usable hl r hr hne m hm a ha hin
    have hl' : Layout total usable (ranges.filter fun r => decide r.Alignable) :=
      ⟨hl.start, hl.stop, hl.le, hl.max, hl.usable,
        fun c hc => of_decide_eq_true (List.mem_filter.1 hc).2⟩
    have hI : r.Inv total usable (ranges.filter fun r => decide r.Alignable) := by
      refine Runs.invariant (fun s c hs hc => hs.run hc) hr ?_
      have := pmmStart_inv hl' pmm0
      rwa [pmmStart, ← pmmInit_filter hlt, ← pmmStart] at this
    rcases frameAlloc_cases r.pmm with ⟨e, -⟩ | ⟨f, h1, h2, h3, e⟩ <;> rw [e] at hne hin
    · exact hne rfl
    obtain ⟨-, ⟨u, hu, hi⟩, hc⟩ := hI.fair f h2 h3
    have hal := hI.framed.aligned
    have hmax := (hl.usable u hu).2.2
    have hmax' := hl.max
    have hframe : alignDown a = frameToAlignedAddr r.pmm f := by
      simp only [frameToAlignedAddr] at hin ⊢
      rw [alignDown]
      omega
    simp only [Pmm.Inside] at hi
    obtain ⟨q, hq, hqa, hqm⟩ := h m hm a ha
      (by simp only [frameToAlignedAddr] at hin; omega) (by omega)
    refine hc q (List.mem_filter.2 ⟨hq, by simpa using hqa⟩) ?_
    rw [Range.MeetsFrameOf, hframe] at hqm
    exact hqm

end

/-! ## The modules of a block -/

/-- Every byte of every module lies in a range that is listed, that of the kernel or one that is
    read from the last descriptor on, and its frame meets such a range whose end can be
    aligned. -/
def Covered (e : Early) (kernel : Range) (ts : List BootTag) : Prop :=
  ∀ pre m post, ts = pre ++ .module m :: post → modulesOf post = [] →
    ∀ m' ∈ modulesOf ts, ∀ a, m'.Has a →
      (∃ r, Listed e kernel pre m post r ∧ r.Has a) ∧
        (4096 ≤ a → a < 0xFFFFF000 →
          ∃ r, Listed e kernel pre m post r ∧ r.Alignable ∧ r.MeetsFrameOf a)

/-- The descriptor of the last module finds room in the early allocator. -/
def LastHasRoom (ts : List BootTag) : Prop :=
  ∀ pre m post, ts = pre ++ .module m :: post → modulesOf post = [] →
    pre.foldl BootTag.bump 28 + 32 < earlyAllocSize

section
variable {e : Early} {regions : ℕ → MemoryRegion} {mbi : Buf} {ts pre post : List BootTag}
  {s : BootState} {kernel r : Range} {m : BootModule}

theorem modulesOf_split (pre : List BootTag) (m : BootModule) (post : List BootTag) :
    modulesOf (pre ++ .module m :: post) = modulesOf pre ++ m :: modulesOf post := by
  simp [modulesOf, BootTag.module?]

theorem exists_last_module (h : modulesOf ts ≠ []) :
    ∃ pre m post, ts = pre ++ .module m :: post ∧ modulesOf post = [] := by
  induction ts with
  | nil => exact absurd rfl h
  | cons t ts ih =>
    by_cases hts : modulesOf ts = []
    · cases t with
      | module m => exact ⟨[], m, ts, rfl, hts⟩
      | cmdline c => exact absurd hts h
      | mmap rs => exact absurd hts h
      | other => exact absurd hts h
    · obtain ⟨pre, m, post, rfl, hno⟩ := ih hts
      exact ⟨t :: pre, m, post, rfl, hno⟩

theorem foldl_bump_le (idx : ℕ) (ts : List BootTag) :
    ts.foldl BootTag.bump idx ≤ idx + allocated ts := by
  induction ts generalizing idx with
  | nil => exact le_rfl
  | cons t ts ih =>
    have ht : t.bump idx ≤ idx + t.bytes := by
      have hb (idx len : ℕ) : bump idx len ≤ idx + len := by
        rw [bump]
        split_ifs <;> omega
      cases t with
      | cmdline c => exact hb _ _
      | module m =>
        have h1 := hb idx 32
        have h2 := hb (bump idx 32) (m.path.length + 1)
        simp only [BootTag.bump, BootTag.bytes]
        omega
      | mmap rs => exact le_rfl
      | other => exact le_rfl
    have h := ih (t.bump idx)
    rw [List.foldl_cons, allocated_cons]
    omega

/-- There is room for the last descriptor if all copies fit. -/
theorem lastHasRoom_of_fits (h : 28 + allocated ts < earlyAllocSize) : LastHasRoom ts := by
  rintro pre m post rfl -
  have hle := foldl_bump_le 28 pre
  have ha : allocated (pre ++ .module m :: post)
      = allocated pre + (32 + (m.path.length + 1) + allocated post) := by
    rw [allocated, List.map_append, List.sum_append, ← allocated, ← allocated, allocated_cons]
    rfl
  omega

theorem Listed.stop_lt (h : Listed e kernel pre m post r) (hk : kernel.stop < 2 ^ 32) :
    r.stop < 2 ^ 32 := by
  cases h with
  | entry i => exact Nat.mod_lt _ (by decide)
  | kernel => exact hk

/-- The parser returns iff the block is a list of tags, whatever finds room. -/
theorem parseMultiboot2Early_returns_iff (hidx : e.idx = 0) :
    (∃ s, Yields (parseMultiboot2Early e regions mbi) s) ↔ ∃ ts, TagWalk mbi 8 ts := by
  have h28 : e.idx + 28 < earlyAllocSize := by
    rw [hidx]
    decide
  constructor
  · rintro ⟨s, n, hn⟩
    have hp := hn n le_rfl
    rw [parseMultiboot2Early_eq h28] at hp
    exact of_parseTags hp
  · rintro ⟨ts, hw⟩
    exact ⟨_, yields_parseMultiboot2Early h28 regions hw⟩

/-- A block with an empty command line, some modules and an empty memory map. -/
def demoBlock (ms : List BootModule) : Buf := multiboot2Build (fun _ => 0) ⟨[], by simp⟩ ms []

def demoTags (ms : List BootModule) : List BootTag :=
  .cmdline ⟨[], by simp⟩ :: (ms.map .module ++ [.mmap []])

theorem demoEarly_fits : demoEarly.idx + 28 < earlyAllocSize := by decide

theorem demoBlock_walk {ms : List BootModule} (hfit : 1 + modulesSize ms < earlyAllocSize) :
    TagWalk (demoBlock ms) 8 (demoTags ms) :=
  walk_built _ (by simp only [CStr.length, List.length_nil]; omega) (by decide)

theorem demoPath_ne_zero : ∀ c ∈ ([98, 99] : List UInt8), c ≠ 0 := by simp

/-- A module of 0x500 bytes at 3 MB. -/
def demoModule : BootModule := ⟨0x300000, 0x500, ⟨[98, 99], demoPath_ne_zero⟩⟩

end

end Kabanos
