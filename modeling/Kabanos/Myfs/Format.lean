/-
  `myfs_format`: the layout of a new file system, its bitmaps and its root directory.
-/
import Kabanos.Myfs.Node

namespace Kabanos

/-! ## The code -/

def myfsMagic : ℕ := 0x20250928

/-- `(n + MYFS_BLOCK_BYTES - 1) / MYFS_BLOCK_BYTES` as the compiler sees it: the
    macro is `SECTOR_BYTES *MYFS_BLOCK_SECTORS` without parentheses, so the division
    is by 512 and the product by 4 comes after it. -/
def macroBlocks (n : ℕ) : ℕ := (n + 512 * 4 - 1) % 2 ^ 32 / 512 * 4

/-- The superblock `myfs_format` computes for a device of `maxSectors` sectors. -/
def formatLayout (maxSectors : ℕ) : MyfsDiskSuperBlock :=
  let totalBlocks := maxSectors / 4
  let totalInodes := totalBlocks / 4
  let blockBitmapStart := 1
  let inodeBitmapStart := blockBitmapStart + macroBlocks totalBlocks
  let inodeTableStart := inodeBitmapStart + macroBlocks totalInodes
  let dataBlocksStart := inodeTableStart + macroBlocks (totalInodes * inodeSize)
  { magic := myfsMagic, totalInodes := totalInodes, totalBlocks := totalBlocks,
    freeInodes := 0, freeBlocks := 0, blockSectors := 4, fileInitialBlocks := 1,
    inodeBitmapStart := inodeBitmapStart, blockBitmapStart := blockBitmapStart,
    inodeTableStart := inodeTableStart, dataBlocksStart := dataBlocksStart, rootInode := 0 }

/-- The stack memory `disk_write_block(&tmp, 0, &on_disk)` writes: the record and
    what lies behind it. -/
def superBlockBuf (uninit : Buf) (d : MyfsDiskSuperBlock) : Buf :=
  memcpy uninit 0 (wordsBuf d.words) 0 48

/-- Mark the blocks `0, ..., n - 1` as used. -/
def markMetadata (bitmap : Buf) : ℕ → Buf
  | 0 => bitmap
  | i + 1 => bitmapSet (markMetadata bitmap i) i

/-- The temporary superblock of `myfs_format`, before its bitmaps are set up. -/
def formatTmp (k : Kmem) (dev : BlkDev) (d : MyfsDiskSuperBlock) : MyfsSuperBlock :=
  { k with
    onDisk := d, dev := dev, blockBytes := 512 * 4, blockBitmap := k.uninit,
    inodeBitmap := k.uninit, inodeHashTable := fun _ => [] }

/-- The superblock of `myfs_format` with its bitmaps set up; `none` without
    memory for them. -/
def formatBitmaps (k : Kmem) (dev : BlkDev) (maxSectors : ℕ) : Option MyfsSuperBlock :=
  let d := formatLayout maxSectors
  let tmp := formatTmp k dev d
  let tmp := diskWriteBlock tmp 0 (superBlockBuf tmp.uninit d)
  let inodeBitmapBytes := (d.totalInodes + 7) / 8
  let blockBitmapBytes := (d.totalBlocks + 7) / 8
  match kmalloc tmp inodeBitmapBytes with
  | (tmp, ok₁) =>
    match kmalloc tmp blockBitmapBytes with
    | (tmp, ok₂) =>
      if ok₁ && ok₂ then
        some { tmp with
          inodeBitmap := memset tmp.inodeBitmap 0 0 inodeBitmapBytes
          blockBitmap := markMetadata (memset tmp.blockBitmap 0 0 blockBitmapBytes)
            d.dataBlocksStart }
      else none

/-- The name `.` -/
def dot : Name := [0x2E]
/-- The name `..` -/
def dotdot : Name := [0x2E, 0x2E]

/-- The root directory `myfs_format` creates in the superblock `tmp`. -/
def formatRoot (tmp : MyfsSuperBlock) : Option MyfsSuperBlock :=
  match myfsInodeAlloc tmp sIfdir with
  | (_, none) => none
  | (tmp, some root) =>
    let tmp := (myfsDirAddEntry tmp (some root) dot (tmp.heap root).iIno).1
    let tmp := (myfsDirAddEntry tmp (some root) dotdot (tmp.heap root).iIno).1
    some (myfsIput tmp root)

/-- Write both bitmaps to their places on the device. -/
def writeBitmaps (sb : MyfsSuperBlock) : MyfsSuperBlock :=
  let sb := diskWriteBitmap sb sb.onDisk.blockBitmapStart sb.blockBitmap
    ((sb.onDisk.totalBlocks + 7) / 8)
  diskWriteBitmap sb sb.onDisk.inodeBitmapStart sb.inodeBitmap ((sb.onDisk.totalInodes + 7) / 8)

/-- `myfs_format`: the device and the kernel memory afterwards; `none` is the
    result `-1`. -/
def myfsFormat (k : Kmem) (dev : BlkDev) (maxSectors : ℕ) : Option (Kmem × BlkDev) :=
  match formatBitmaps k dev maxSectors with
  | none => none
  | some tmp =>
    match formatRoot tmp with
    | none => none
    | some tmp =>
      let tmp := writeBitmaps tmp
      some (tmp.toKmem, tmp.dev)

section
variable {sb : MyfsSuperBlock} {k : Kmem} {dev : BlkDev} {m : ℕ}

/-! ## The bitmaps of `myfs_format` -/

theorem isSet_markMetadata (bitmap : Buf) (n b : ℕ) :
    bitmapIsSet (markMetadata bitmap n) b = (decide (b < n) || bitmapIsSet bitmap b) := by
  induction n with
  | zero => simp [markMetadata]
  | succ n ih =>
    rw [markMetadata, isSet_set, ih]
    by_cases h : n = b
    · simp [h]
    · have : b < n + 1 ↔ b < n := by omega
      simp [h, this]

theorem isSet_memset_zero (bitmap : Buf) {n b : ℕ} (h : b < 8 * n) :
    bitmapIsSet (memset bitmap 0 0 n) b = false := by
  simp only [bitmapIsSet, memset]
  rw [if_pos (by omega)]
  simp

theorem kmalloc_ok {size : ℕ} (hm : ∀ j, sb.mem j) (h0 : size ≠ 0) (hs : size ≤ 2 ^ 27) :
    kmalloc sb size = ({ sb with mem := fun k => sb.mem (k + 1) }, true) := by
  rw [kmalloc, if_neg h0, if_neg (by omega), hm 0]

/-- The superblock of `myfs_format` once it has its bitmaps. -/
def formatReady (k : Kmem) (dev : BlkDev) (maxSectors : ℕ) : MyfsSuperBlock :=
  let d := formatLayout maxSectors
  let tmp := diskWriteBlock (formatTmp k dev d) 0 (superBlockBuf k.uninit d)
  { tmp with
    mem := fun j => k.mem (j + 2)
    inodeBitmap := memset tmp.inodeBitmap 0 0 ((d.totalInodes + 7) / 8)
    blockBitmap := markMetadata (memset tmp.blockBitmap 0 0 ((d.totalBlocks + 7) / 8))
      d.dataBlocksStart }

theorem formatBitmaps_ready (hk : ∀ j, k.mem j)
    (hn : (m / 4 / 4 + 7) / 8 ≠ 0 ∧ (m / 4 / 4 + 7) / 8 ≤ 2 ^ 27 ∧
      (m / 4 + 7) / 8 ≠ 0 ∧ (m / 4 + 7) / 8 ≤ 2 ^ 27) :
    formatBitmaps k dev m = some (formatReady k dev m) := by
  obtain ⟨n1, n2, n3, n4⟩ := hn
  simp only [formatBitmaps, formatReady]
  set B := diskWriteBlock (formatTmp k dev (formatLayout m)) 0
    (superBlockBuf (formatTmp k dev (formatLayout m)).uninit (formatLayout m)) with hB
  have hBm : ∀ j, B.mem j := hk
  set C : MyfsSuperBlock := { B with mem := fun k => B.mem (k + 1) } with hC
  have hCm : ∀ j, C.mem j := fun j => hBm (j + 1)
  have e1 : kmalloc B (((formatLayout m).totalInodes + 7) / 8) = (C, true) := kmalloc_ok hBm n1 n2
  have e2 : kmalloc C (((formatLayout m).totalBlocks + 7) / 8) = _ := kmalloc_ok hCm n3 n4
  simp only [e1, e2, Bool.and_self, if_true]
  rfl

theorem kmalloc_onDisk (sb : MyfsSuperBlock) (size : ℕ) :
    (kmalloc sb size).1.onDisk = sb.onDisk := by
  unfold kmalloc
  split_ifs <;> rfl

theorem formatBitmaps_onDisk (h : formatBitmaps k dev m = some sb) :
    sb.onDisk = formatLayout m := by
  simp only [formatBitmaps] at h
  split_ifs at h
  cases h
  exact (kmalloc_onDisk ..).trans (kmalloc_onDisk ..)

theorem formatReady_inode (h : 0 < (m / 4 / 4 + 7) / 8) :
    bitmapIsSet (formatReady k dev m).inodeBitmap 0 = false :=
  isSet_memset_zero _ (by change 0 < 8 * ((m / 4 / 4 + 7) / 8); omega)

theorem formatReady_block {b : ℕ} (hb : b < 8 * (((formatLayout m).totalBlocks + 7) / 8)) :
    bitmapIsSet (formatReady k dev m).blockBitmap b =
      decide (b < (formatLayout m).dataBlocksStart) := by
  change bitmapIsSet (markMetadata _ _) b = _
  rw [isSet_markMetadata, isSet_memset_zero _ hb, Bool.or_false]

/-! ## The first inode -/

theorem writeBitmapLoop_dev (A : ℕ) (buf : Buf) (n : ℕ) (sb : MyfsSuperBlock) :
    writeBitmapLoop A buf n sb = { sb with dev := (writeBitmapLoop A buf n sb).dev } := by
  induction n with
  | zero => rfl
  | succ n ih =>
    simp only [writeBitmapLoop]
    rw [ih]
    rfl

theorem flushInodeBitmap_dev (sb : MyfsSuperBlock) (i : ℕ) :
    flushInodeBitmap sb i = { sb with dev := (flushInodeBitmap sb i).dev } := by
  simp only [flushInodeBitmap, diskWriteBitmap]
  rw [writeBitmapLoop_dev]
  split_ifs <;> rfl

theorem blocksAlloc_first {n : MyfsInode} (hn : n.blockCount = 0)
    (h0 : sb.onDisk.dataBlocksStart ≠ 0)
    (hlt : sb.onDisk.dataBlocksStart < 8 * ((sb.onDisk.totalBlocks + 7) / 8))
    (hb : bitmapIsSet sb.blockBitmap sb.onDisk.dataBlocksStart = false) :
    ∃ n', myfsBlocksAlloc sb n 1 = ({ sb with
      blockBitmap := bitmapSet sb.blockBitmap sb.onDisk.dataBlocksStart }, n', 0) := by
  have ha : myfsBitmapAlloc sb = ({ sb with
      blockBitmap := bitmapSet sb.blockBitmap sb.onDisk.dataBlocksStart },
        sb.onDisk.dataBlocksStart) := by
    rw [myfsBitmapAlloc, findFirstEmptyBit_start hlt hb]
  simp only [myfsBlocksAlloc, hn]
  change ∃ n', blocksAllocLoop 1 sb n 0 = _
  simp only [blocksAllocLoop, ha, if_neg h0, myfsMapBlockToInode, Nat.zero_lt_succ, dif_pos, ne_eq,
    not_true_eq_false, if_false]
  exact ⟨_, rfl⟩

/-- **`myfs_inode_alloc` in an empty file system** succeeds: it takes inode `0` and the first data
    block. -/
theorem inodeAlloc_first (h1 : sb.onDisk.fileInitialBlocks = 1)
    (hI : 0 < 8 * ((sb.onDisk.totalInodes + 7) / 8)) (hi : bitmapIsSet sb.inodeBitmap 0 = false)
    (h0 : sb.onDisk.dataBlocksStart ≠ 0)
    (hlt : sb.onDisk.dataBlocksStart < 8 * ((sb.onDisk.totalBlocks + 7) / 8))
    (hb : bitmapIsSet sb.blockBitmap sb.onDisk.dataBlocksStart = false) (hm : sb.mem 0)
    (mode : ℕ) : (myfsInodeAlloc sb mode).2 = some sb.brk := by
  have hfind : findFirstEmptyBit sb.inodeBitmap ((sb.onDisk.totalInodes + 7) / 8) 0 = some 0 :=
    findFirstEmptyBit_start hI hi
  obtain ⟨d, hd⟩ : ∃ d, flushInodeBitmap { sb with inodeBitmap := bitmapSet sb.inodeBitmap 0 } 0 =
      { sb with inodeBitmap := bitmapSet sb.inodeBitmap 0, dev := d } :=
    ⟨_, flushInodeBitmap_dev ..⟩
  have hk : kmalloc { sb with inodeBitmap := bitmapSet sb.inodeBitmap 0, dev := d } inodeSize =
      ({ sb with inodeBitmap := bitmapSet sb.inodeBitmap 0, dev := d,
                 mem := fun k => sb.mem (k + 1) }, true) := by
    rw [← hm]
    rfl
  obtain ⟨n', hn'⟩ := @blocksAlloc_first { sb with
    inodeBitmap := bitmapSet sb.inodeBitmap 0, dev := d, mem := fun k => sb.mem (k + 1) }
    (newInode 0 mode) rfl h0 hlt hb
  simp only [myfsInodeAlloc, hfind, hd, hk, h1, hn', lt_irrefl, if_false]

end

end Kabanos
