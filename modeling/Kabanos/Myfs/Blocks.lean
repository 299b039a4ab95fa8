/-
  The block map of an inode: direct, single- and double-indirect pointers, and
  the allocation of data and table blocks.

  The functions take the inode record by value and return the updated record; the
  callers store it back through the pointer.
-/
import Kabanos.Myfs.Disk

namespace Kabanos

/-- `sb->block_bytes / sizeof(uint32_t)` -/
def ptrsPerBlock (sb : MyfsSuperBlock) : ℕ := sb.blockBytes / 4

def readPtrFromBlock (sb : MyfsSuperBlock) (blockLba slot : ℕ) : ℕ :=
  getU32 (diskReadBlock sb blockLba sb.uninit) (4 * slot)

def writePtrToBlock (sb : MyfsSuperBlock) (blockLba slot ptr : ℕ) : MyfsSuperBlock :=
  diskWriteBlock sb blockLba (putU32 (diskReadBlock sb blockLba sb.uninit) (4 * slot) ptr)

/-- `myfs_block_lba_get`: the block of a file-relative index, `0` if there is
    none. -/
def myfsBlockLbaGet (sb : MyfsSuperBlock) (inode : MyfsInode) (logicalBlockIdx : ℕ) : ℕ :=
  let ptrs := ptrsPerBlock sb
  if h : logicalBlockIdx < 10 then inode.blockPtrs ⟨logicalBlockIdx, h⟩
  else
    let relativeIdx := logicalBlockIdx - 10
    if relativeIdx < ptrs then
      if inode.singleIndirectPtr = 0 then 0
      else readPtrFromBlock sb inode.singleIndirectPtr relativeIdx
    else
      let relativeIdx := relativeIdx - ptrs
      if relativeIdx < ptrs * ptrs % 2 ^ 32 then
        if inode.doubleIndirectPtr = 0 then 0
        else
          let subTablePtr := readPtrFromBlock sb inode.doubleIndirectPtr (relativeIdx / ptrs)
          if subTablePtr = 0 then 0 else readPtrFromBlock sb subTablePtr (relativeIdx % ptrs)
      else 0

/-- `myfs_bitmap_alloc`: a fresh data block, `0` if the disk is full. -/
def myfsBitmapAlloc (sb : MyfsSuperBlock) : MyfsSuperBlock × ℕ :=
  match findFirstEmptyBit sb.blockBitmap ((sb.onDisk.totalBlocks + 7) / 8)
      sb.onDisk.dataBlocksStart with
  | none => (sb, 0)
  | some n => ({ sb with blockBitmap := bitmapSet sb.blockBitmap n }, n)

/-- `myfs_bitmap_alloc_zeroed`: a fresh block, zeroed on disk. -/
def myfsBitmapAllocZeroed (sb : MyfsSuperBlock) : MyfsSuperBlock × ℕ :=
  match myfsBitmapAlloc sb with
  | (sb, lba) =>
    if lba = 0 then (sb, 0)
    else (diskWriteBlock sb lba (memset sb.uninit 0 0 sb.blockBytes), lba)

/-- `bitmap_clear(sb->block_bitmap, num)` -/
def clearBlock (sb : MyfsSuperBlock) (num : ℕ) : MyfsSuperBlock :=
  { sb with blockBitmap := bitmapClear sb.blockBitmap num }

/-- Case 2 of `myfs_map_block_to_inode`: the single-indirect table. -/
def mapSingle (sb : MyfsSuperBlock) (inode : MyfsInode) (relIdx physLba : ℕ) :
    MyfsSuperBlock × MyfsInode × ℤ :=
  if inode.singleIndirectPtr = 0 then
    match myfsBitmapAllocZeroed sb with
    | (sb, t) =>
      if t = 0 then (sb, inode, -1)
      else (writePtrToBlock sb t relIdx physLba, { inode with singleIndirectPtr := t }, 0)
  else (writePtrToBlock sb inode.singleIndirectPtr relIdx physLba, inode, 0)

/-- The end of case 3 of `myfs_map_block_to_inode`: get or create the sub-table
    and store the pointer in it. -/
def mapSub (sb : MyfsSuperBlock) (inode : MyfsInode) (masterIdx subIdx physLba : ℕ) :
    MyfsSuperBlock × MyfsInode × ℤ :=
  let subTableLba := readPtrFromBlock sb inode.doubleIndirectPtr masterIdx
  if subTableLba = 0 then
    match myfsBitmapAllocZeroed sb with
    | (sb, t) =>
      if t = 0 then (sb, inode, -1)
      else
        let sb := writePtrToBlock sb inode.doubleIndirectPtr masterIdx t
        (writePtrToBlock sb t subIdx physLba, inode, 0)
  else (writePtrToBlock sb subTableLba subIdx physLba, inode, 0)

/-- Case 3 of `myfs_map_block_to_inode`: the double-indirect table. -/
def mapDouble (sb : MyfsSuperBlock) (inode : MyfsInode) (masterIdx subIdx physLba : ℕ) :
    MyfsSuperBlock × MyfsInode × ℤ :=
  if inode.doubleIndirectPtr = 0 then
    match myfsBitmapAllocZeroed sb with
    | (sb, t) =>
      if t = 0 then (sb, inode, -1)
      else mapSub sb { inode with doubleIndirectPtr := t } masterIdx subIdx physLba
  else mapSub sb inode masterIdx subIdx physLba

def myfsMapBlockToInode (sb : MyfsSuperBlock) (inode : MyfsInode) (logicalIdx physLba : ℕ) :
    MyfsSuperBlock × MyfsInode × ℤ :=
  let ptrs := ptrsPerBlock sb
  if h : logicalIdx < 10 then
    (sb, { inode with blockPtrs := Function.update inode.blockPtrs ⟨logicalIdx, h⟩ physLba }, 0)
  else
    let relIdx := logicalIdx - 10
    if relIdx < ptrs then mapSingle sb inode relIdx physLba
    else
      let relIdx := relIdx - ptrs
      if relIdx < ptrs * ptrs % 2 ^ 32 then
        mapDouble sb inode (relIdx / ptrs) (relIdx % ptrs) physLba
      else (sb, inode, -1)

/-- The loop of `myfs_blocks_alloc`, from index `i` on. -/
def blocksAllocLoop : ℕ → MyfsSuperBlock → MyfsInode → ℕ → MyfsSuperBlock × MyfsInode × ℤ
  | 0, sb, inode, _ => (sb, { inode with dirty := 1 }, 0)
  | k + 1, sb, inode, i =>
    match myfsBitmapAlloc sb with
    | (sb, phys) =>
      if phys = 0 then (sb, inode, -1)
      else
        match myfsMapBlockToInode sb inode i phys with
        | (sb, inode, r) =>
          if r ≠ 0 then (clearBlock sb phys, inode, -1)
          else blocksAllocLoop k sb { inode with blockCount := inode.blockCount + 1 } (i + 1)

/-- `myfs_blocks_alloc`: append `count` fresh blocks. -/
def myfsBlocksAlloc (sb : MyfsSuperBlock) (inode : MyfsInode) (count : ℕ) :
    MyfsSuperBlock × MyfsInode × ℤ :=
  let newTotal := (inode.blockCount + count) % 2 ^ 32
  blocksAllocLoop (newTotal - inode.blockCount) sb inode inode.blockCount

end Kabanos
