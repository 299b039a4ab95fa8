/-
  The layout arithmetic of `myfs_format`, for every number of sectors.

  The size of a region is `(n + MYFS_BLOCK_BYTES - 1) / MYFS_BLOCK_BYTES` with a macro that is
  not in parentheses, which is sixteen times too large.  On a small device the metadata then has
  more blocks than the block bitmap has bits; on a large one the size of the inode table wraps
  around.
-/
import Kabanos.Myfs.Format

namespace Kabanos

/-! ## What the layout should be -/

/-- The bits that `myfs_bitmap_alloc` and `myfs_inode_alloc` set in a superblock are bits of its
    bitmaps. -/
def AllocsInside (sb : MyfsSuperBlock) : Prop :=
  (∀ n, findFirstEmptyBit sb.blockBitmap ((sb.onDisk.totalBlocks + 7) / 8)
    sb.onDisk.dataBlocksStart = some n → n / 8 < (sb.onDisk.totalBlocks + 7) / 8) ∧
  ∀ n, findFirstEmptyBit sb.inodeBitmap ((sb.onDisk.totalInodes + 7) / 8) 0 = some n →
    n / 8 < (sb.onDisk.totalInodes + 7) / 8

/-- **The calls of `bitmap_set` in `myfs_format` stay inside the bitmaps**: those of its own loop,
    and those that allocations make in a superblock with this layout, whatever its bitmaps hold. -/
def SetsInside (k : Kmem) (dev : BlkDev) (maxSectors : ℕ) : Prop :=
  ∀ tmp, formatBitmaps k dev maxSectors = some tmp →
    (∀ i < tmp.onDisk.dataBlocksStart, i / 8 < (tmp.onDisk.totalBlocks + 7) / 8) ∧
      ∀ sb, sb.onDisk = tmp.onDisk → AllocsInside sb

/-- The superblock, the two bitmaps, the inode table and the data area, each with its first
    block and the one behind its last block. -/
def MyfsDiskSuperBlock.regions (d : MyfsDiskSuperBlock) : List (ℕ × ℕ) :=
  [(0, 1), (d.blockBitmapStart, d.inodeBitmapStart), (d.inodeBitmapStart, d.inodeTableStart),
    (d.inodeTableStart, d.dataBlocksStart), (d.dataBlocksStart, d.totalBlocks)]

/-- **A sound layout**: the regions are disjoint and in order, and large enough. -/
structure LayoutOk (d : MyfsDiskSuperBlock) : Prop where
  order : d.regions.Pairwise fun r s => r.2 ≤ s.1
  blockBitmap : (d.totalBlocks + 7) / 8 ≤ (d.inodeBitmapStart - d.blockBitmapStart) * 2048
  inodeBitmap : (d.totalInodes + 7) / 8 ≤ (d.inodeTableStart - d.inodeBitmapStart) * 2048
  inodeTable : d.totalInodes * inodeSize ≤ (d.dataBlocksStart - d.inodeTableStart) * 2048
  data : d.dataBlocksStart < d.totalBlocks

/-- The numbers of sectors for which the size of the inode table wraps around to a region that
    is too small. -/
def wrapRanges : List (ℕ × ℕ) :=
  [(613566480, 654470960), (1227133232, 1308942128), (1840699984, 1963413360),
    (2454266736, 2617884528), (3067833504, 3272355776), (3681400256, 3926826944),
    (4294967008, 4294967296)]

/-- No formatted device, or one that is large enough for its metadata, and on which the inode
    table has room. -/
def FormatRange (maxSectors : ℕ) : Prop :=
  maxSectors < 16 ∨ 248 ≤ maxSectors ∧ ∀ r ∈ wrapRanges, ¬ (r.1 ≤ maxSectors ∧ maxSectors < r.2)

instance (maxSectors : ℕ) : Decidable (FormatRange maxSectors) :=
  inferInstanceAs (Decidable (_ ∨ _))

section
variable {k : Kmem} {dev : BlkDev} {m : ℕ}

theorem allocsInside (sb : MyfsSuperBlock) : AllocsInside sb := by
  constructor
  · intro n hn
    have := (findFirstEmptyBit_some hn).2.1
    omega
  · intro n hn
    have := (findFirstEmptyBit_some hn).2.1
    omega

/-! ## The arithmetic -/

theorem macroBlocks_ge {n : ℕ} (h : n + 2048 ≤ 2 ^ 32) : n * 16 + 24576 ≤ macroBlocks n * 2048 := by
  unfold macroBlocks
  rw [Nat.mod_eq_of_lt (by omega)]
  omega

theorem formatLayout_starts (m : ℕ) : (formatLayout m).blockBitmapStart = 1 ∧
    (formatLayout m).inodeBitmapStart = 1 + macroBlocks (m / 4) ∧
    (formatLayout m).inodeTableStart = (formatLayout m).inodeBitmapStart + macroBlocks (m / 4 / 4) ∧
    (formatLayout m).dataBlocksStart =
      (formatLayout m).inodeTableStart + macroBlocks (m / 4 / 4 * inodeSize) := ⟨rfl, rfl, rfl, rfl⟩

theorem layout_dataStart (m : ℕ) : (formatLayout m).dataBlocksStart =
    1 + macroBlocks (m / 4) + macroBlocks (m / 4 / 4) + macroBlocks (m / 4 / 4 * inodeSize) := rfl

theorem layout_small (h1 : 16 ≤ m) (h2 : m < 228) :
    8 * ((m / 4 + 7) / 8) < (formatLayout m).dataBlocksStart := by
  have hall : ∀ b < 57, 4 ≤ b → 8 * ((b + 7) / 8) <
      1 + macroBlocks b + macroBlocks (b / 4) + macroBlocks (b / 4 * inodeSize) := by decide
  exact hall (m / 4) (by omega) (by omega)

theorem layout_padding (h1 : 228 ≤ m) (h2 : m < 248) : m / 4 ≤ (formatLayout m).dataBlocksStart ∧
      (formatLayout m).dataBlocksStart < 8 * ((m / 4 + 7) / 8) := by
  have hall : ∀ b < 62, 57 ≤ b →
      b ≤ 1 + macroBlocks b + macroBlocks (b / 4) + macroBlocks (b / 4 * inodeSize) ∧
      1 + macroBlocks b + macroBlocks (b / 4) + macroBlocks (b / 4 * inodeSize) <
        8 * ((b + 7) / 8) := by decide
  exact hall (m / 4) (by omega) (by omega)

theorem macroBlocks_le (n : ℕ) : 128 * macroBlocks n ≤ n + 2047 := by
  have hmod := Nat.mod_le (n + 512 * 4 - 1) (2 ^ 32)
  unfold macroBlocks
  omega

theorem layout_data (h1 : 248 ≤ m) : (formatLayout m).dataBlocksStart < m / 4 := by
  rcases Nat.lt_or_ge (m / 4) 64 with hs | hs
  · have hall : ∀ b < 64, 62 ≤ b →
        1 + macroBlocks b + macroBlocks (b / 4) + macroBlocks (b / 4 * inodeSize) < b := by decide
    exact hall (m / 4) hs (by omega)
  · have hB := macroBlocks_le (m / 4)
    have hI := macroBlocks_le (m / 4 / 4)
    have hT := macroBlocks_le (m / 4 / 4 * inodeSize)
    rw [layout_dataStart]
    simp only [inodeSize] at hT ⊢
    omega

/-- The inode table of `i` inodes has room for them. -/
def TableRoom (i : ℕ) : Prop := i * inodeSize ≤ macroBlocks (i * inodeSize) * 2048

instance (i : ℕ) : Decidable (TableRoom i) := inferInstanceAs (Decidable (_ ≤ _))

theorem tableRoom_near : ∀ r ∈ wrapRanges, ∀ j < 16,
    (TableRoom (r.2 / 16 + j - 8) ∨ 2 ^ 28 ≤ r.2 / 16 + j - 8 ↔ 8 ≤ j) := by decide

/-- **The inode table has room** unless its size has wrapped around. -/
theorem tableRoom_iff {i : ℕ} (hi : i < 2 ^ 28) :
    TableRoom i ↔ ∀ r ∈ wrapRanges, ¬ (r.1 / 16 ≤ i ∧ i < r.2 / 16) := by
  by_cases hnear : ∃ r ∈ wrapRanges, r.2 / 16 ≤ i + 8 ∧ i < r.2 / 16 + 8
  · obtain ⟨r, hr, h1, h2⟩ := hnear
    have h := tableRoom_near r hr (i + 8 - r.2 / 16) (by omega)
    have e : r.2 / 16 + (i + 8 - r.2 / 16) - 8 = i := by omega
    rw [e, or_iff_left (not_le.2 hi)] at h
    rw [h]
    revert h1 h2
    fin_cases hr <;> simp only [wrapRanges, List.forall_mem_cons, List.not_mem_nil, false_implies,
      implies_true, and_true] <;> omega
  · simp only [wrapRanges, List.exists_mem_cons_iff, List.not_mem_nil, false_and, exists_false,
      or_false, not_or] at hnear
    simp only [wrapRanges, List.forall_mem_cons, List.not_mem_nil, false_implies, implies_true,
      and_true, TableRoom, macroBlocks, inodeSize]
    obtain ⟨q, hq⟩ : ∃ q, q = (i * 112 + 512 * 4 - 1) / 2 ^ 32 := ⟨_, rfl⟩
    have hlt : q < 8 := by omega
    interval_cases q <;> omega

theorem tableRoom_sectors (hm : m < 2 ^ 32) :
    TableRoom (m / 4 / 4) ↔ ∀ r ∈ wrapRanges, ¬ (r.1 ≤ m ∧ m < r.2) := by
  rw [tableRoom_iff (by omega)]
  refine forall₂_congr fun r hr => not_congr ?_
  fin_cases hr <;> simp only <;> omega

theorem layoutOk_iff (h1 : 248 ≤ m) (hm : m < 2 ^ 32) :
    LayoutOk (formatLayout m) ↔ ∀ r ∈ wrapRanges, ¬ (r.1 ≤ m ∧ m < r.2) := by
  have hdata := layout_data h1
  have hB := macroBlocks_ge (n := m / 4) (by omega)
  have hI := macroBlocks_ge (n := m / 4 / 4) (by omega)
  obtain ⟨f1, f2, f3, f4⟩ := formatLayout_starts m
  have hsize : (formatLayout m).dataBlocksStart - (formatLayout m).inodeTableStart =
    macroBlocks (m / 4 / 4 * inodeSize) := by omega
  rw [← tableRoom_sectors hm, TableRoom, ← hsize]
  refine ⟨fun h => h.inodeTable, fun h => ⟨?_, ?_, ?_, h, hdata⟩⟩
  · simp only [MyfsDiskSuperBlock.regions, List.pairwise_cons, List.forall_mem_cons,
      List.not_mem_nil, false_implies, implies_true, List.Pairwise.nil, and_true]
    omega
  · have e : (m / 4 + 7) / 8 ≤ ((formatLayout m).inodeBitmapStart - 1) * 2048 := by omega
    exact e
  · have e : (m / 4 / 4 + 7) / 8 ≤
      ((formatLayout m).inodeTableStart - (formatLayout m).inodeBitmapStart) * 2048 := by omega
    exact e

/-! ## What `myfs_format` returns -/

theorem formatBitmaps_small (h : m < 16) : formatBitmaps k dev m = none := by
  have h0 : ((formatLayout m).totalInodes + 7) / 8 = 0 := by
    have e : (formatLayout m).totalInodes = m / 4 / 4 := rfl
    omega
  simp only [formatBitmaps, h0, kmalloc, if_true, Bool.false_and, Bool.false_eq_true, if_false]

theorem bitmap_bytes_of_range (h1 : 16 ≤ m) (hm : m < 2 ^ 32) :
    (m / 4 / 4 + 7) / 8 ≠ 0 ∧ (m / 4 / 4 + 7) / 8 ≤ 2 ^ 27 ∧
      (m / 4 + 7) / 8 ≠ 0 ∧ (m / 4 + 7) / 8 ≤ 2 ^ 27 := by omega

theorem format_returns (hk : ∀ j, k.mem j) (h1 : 16 ≤ m) (hm : m < 2 ^ 32)
    (hlt : (formatLayout m).dataBlocksStart < 8 * (((formatLayout m).totalBlocks + 7) / 8)) :
    ∃ r, myfsFormat k dev m = some r := by
  have hn := bitmap_bytes_of_range h1 hm
  have hready : formatBitmaps k dev m = some (formatReady k dev m) := formatBitmaps_ready hk hn
  have h0 : (formatLayout m).dataBlocksStart ≠ 0 := by
    rw [layout_dataStart]
    omega
  have hblock : bitmapIsSet (formatReady k dev m).blockBitmap
      (formatLayout m).dataBlocksStart = false :=
    (formatReady_block hlt).trans (decide_eq_false (lt_irrefl _))
  have hinodes : 0 < 8 * ((m / 4 / 4 + 7) / 8) := by omega
  have halloc := @inodeAlloc_first (formatReady k dev m) rfl hinodes (formatReady_inode (by omega))
    h0 hlt hblock (hk 2) sIfdir
  obtain ⟨sb, hsb⟩ : ∃ sb, myfsInodeAlloc (formatReady k dev m) sIfdir =
      (sb, some (formatReady k dev m).brk) := ⟨_, Prod.ext rfl halloc⟩
  simp only [myfsFormat, hready, formatRoot, hsb]
  exact ⟨_, rfl⟩

end

/-- A kernel with memory, whose fresh buffers are full of ones. -/
def onesMem : Kmem where
  heap := fun _ => MyfsInode.zero
  brk := 0
  mem := fun _ => true
  entryMem := fun _ => true
  uninit := fun _ => 255

/-- **The layout arithmetic of `myfs_format`** is sound, for every kernel and device, iff the
    number of sectors is in range. -/
theorem format_layout_iff {m : ℕ} (hm : m < 2 ^ 32) : (∀ k dev, SetsInside k dev m ∧
      ∀ r, myfsFormat k dev m = some r → LayoutOk (formatLayout m)) ↔ FormatRange m := by
  constructor
  · intro h
    by_contra hrange
    obtain ⟨h1, hwrap⟩ := not_or.1 hrange
    have h16 : 16 ≤ m := not_lt.1 h1
    have hk : ∀ j, onesMem.mem j = true := fun _ => rfl
    obtain ⟨hsets, hlayout⟩ := h onesMem ⟨0, fun _ => 0⟩
    rcases Nat.lt_or_ge m 228 with hs | hs
    · have hin := (hsets _ (formatBitmaps_ready hk (bitmap_bytes_of_range h16 hm))).1
      have hout := layout_small h16 hs
      have hbit : 8 * ((m / 4 + 7) / 8) / 8 < (m / 4 + 7) / 8 := hin _ hout
      omega
    · rcases Nat.lt_or_ge m 248 with hp | hp
      · obtain ⟨hge, hlt⟩ := layout_padding hs hp
        obtain ⟨r, hr⟩ : ∃ r, myfsFormat onesMem ⟨0, fun _ => 0⟩ m = some r :=
          format_returns hk h16 hm hlt
        have hdata : (formatLayout m).dataBlocksStart < m / 4 := (hlayout r hr).data
        omega
      · have hdata := layout_data hp
        have hlt : (formatLayout m).dataBlocksStart < 8 * ((m / 4 + 7) / 8) := by omega
        obtain ⟨r, hr⟩ : ∃ r, myfsFormat onesMem ⟨0, fun _ => 0⟩ m = some r :=
          format_returns hk h16 hm hlt
        exact hwrap ⟨hp, (layoutOk_iff hp hm).1 (hlayout r hr)⟩
  · rintro (hsmall | ⟨h1, hwrap⟩) k dev
    · have hnone : formatBitmaps k dev m = none := formatBitmaps_small hsmall
      refine ⟨fun tmp htmp => ?_, fun r hr => ?_⟩
      · rw [hnone] at htmp
        cases htmp
      · simp only [myfsFormat, hnone] at hr
        cases hr
    · refine ⟨fun tmp htmp => ⟨fun i hi => ?_, fun sb _ => allocsInside sb⟩, fun r _ =>
        (layoutOk_iff h1 hm).2 hwrap⟩
      have hdata := layout_data h1
      rw [formatBitmaps_onDisk htmp] at hi ⊢
      have hi' : i < m / 4 := hi.trans hdata
      change i / 8 < (m / 4 + 7) / 8
      omega

/-- A device of one megabyte has a sound layout. -/
theorem format_layout_2048 : FormatRange 2048 ∧ SetsInside onesMem ⟨2048, fun _ => 0⟩ 2048 ∧
      ∀ r, myfsFormat onesMem ⟨2048, fun _ => 0⟩ 2048 = some r → LayoutOk (formatLayout 2048) :=
  ⟨by decide, (format_layout_iff (m := 2048) (by norm_num)).2 (by decide) _ _⟩

/-- On a device of 16 sectors `myfs_format` marks 49 blocks of metadata in a bitmap of one byte.
    On one of 613566480 sectors the inode table has no blocks at all. -/
theorem format_marks_outside : (∃ tmp, formatBitmaps onesMem ⟨16, fun _ => 0⟩ 16 = some tmp ∧
      tmp.onDisk.dataBlocksStart = 49 ∧ (tmp.onDisk.totalBlocks + 7) / 8 = 1) ∧
    ¬ SetsInside onesMem ⟨16, fun _ => 0⟩ 16 ∧
    (formatLayout 613566480).totalInodes = 38347905 ∧
      (formatLayout 613566480).inodeTableStart = (formatLayout 613566480).dataBlocksStart := by
  have hready : formatBitmaps onesMem ⟨16, fun _ => 0⟩ 16 =
      some (formatReady onesMem ⟨16, fun _ => 0⟩ 16) :=
    formatBitmaps_ready (fun _ => rfl) (by norm_num)
  refine ⟨⟨_, hready, rfl, rfl⟩, fun h => ?_, by decide, by decide⟩
  have hbit : 8 / 8 < (4 + 7) / 8 := (h _ hready).1 8 (by decide)
  exact absurd hbit (by norm_num)

end Kabanos
