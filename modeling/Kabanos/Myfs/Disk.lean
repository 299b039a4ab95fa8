/-
  MyFS on its block device: the records of `myfs.h`, block I/O, the spanning
  copies and the bitmap transfers of `myfs.c`.

  Numbers are natural numbers; 32-bit wrap-around is written out where the
  source can reach it.  A buffer on the stack that has not been written yet
  holds `uninit`, and a refused device access leaves the buffer as it was: the
  source ignores the return codes of the driver.
-/
import Kabanos.Lib.Bitmap

namespace Kabanos

/-! ## The block device -/

/-- A block device (`blkdev_t`): its capacity in sectors of 512 bytes and its
    contents by byte address. -/
structure BlkDev where
  sectors : ℕ
  data : Buf

/-- `read_sectors`: an access beyond the last sector is refused. -/
def BlkDev.readSectors (dev : BlkDev) (lba count : ℕ) (buf : Buf) : Buf :=
  if lba + count ≤ dev.sectors then memcpy buf 0 dev.data (lba * 512) (count * 512) else buf

def BlkDev.writeSectors (dev : BlkDev) (lba count : ℕ) (buf : Buf) : BlkDev :=
  if lba + count ≤ dev.sectors then
    { dev with data := memcpy dev.data (lba * 512) buf 0 (count * 512) }
  else dev

/-! ## The records of `myfs.h` -/

/-- `MyfsInode`: the on-disk record, also used in memory. -/
structure MyfsInode where
  iIno : ℕ
  blockPtrs : Fin 10 → ℕ
  singleIndirectPtr : ℕ
  doubleIndirectPtr : ℕ
  blockCount : ℕ
  size : ℕ
  mode : ℕ
  refCount : ℕ
  linksCount : ℕ
  uid : ℕ
  gid : ℕ
  permissions : ℕ
  atime : ℕ
  mtime : ℕ
  ctime : ℕ
  dirty : ℕ
  deriving DecidableEq

/-- An inode object of zeros. -/
def MyfsInode.zero : MyfsInode :=
  { iIno := 0, blockPtrs := fun _ => 0, singleIndirectPtr := 0, doubleIndirectPtr := 0,
    blockCount := 0, size := 0, mode := 0, refCount := 0, linksCount := 0, uid := 0, gid := 0,
    permissions := 0, atime := 0, mtime := 0, ctime := 0, dirty := 0 }

/-- The inode with another reference count. -/
def MyfsInode.withRefs (n : MyfsInode) (refCount : ℕ) : MyfsInode := { n with refCount := refCount }

/-- `sizeof(MyfsInode)` -/
abbrev inodeSize : ℕ := 112

/-- The 28 words of the packed inode record. -/
def MyfsInode.words (n : MyfsInode) : ℕ → ℕ
  | 0 => n.iIno
  | 1 => n.blockPtrs 0
  | 2 => n.blockPtrs 1
  | 3 => n.blockPtrs 2
  | 4 => n.blockPtrs 3
  | 5 => n.blockPtrs 4
  | 6 => n.blockPtrs 5
  | 7 => n.blockPtrs 6
  | 8 => n.blockPtrs 7
  | 9 => n.blockPtrs 8
  | 10 => n.blockPtrs 9
  | 11 => n.singleIndirectPtr
  | 12 => n.doubleIndirectPtr
  | 13 => n.blockCount
  | 14 => n.size
  | 15 => n.mode
  | 16 => n.refCount
  | 17 => n.linksCount
  | 18 => n.uid
  | 19 => n.gid
  | 20 => n.permissions
  | 21 => n.atime
  | 22 => n.atime / 2 ^ 32
  | 23 => n.mtime
  | 24 => n.mtime / 2 ^ 32
  | 25 => n.ctime
  | 26 => n.ctime / 2 ^ 32
  | 27 => n.dirty
  | _ => 0

/-- The bytes of an inode record. -/
def MyfsInode.encode (n : MyfsInode) : Buf := wordsBuf n.words

/-- The inode record held by a buffer. -/
def MyfsInode.decode (b : Buf) : MyfsInode where
  iIno := getU32 b (4 * 0)
  blockPtrs := fun k => getU32 b (4 * (k.val + 1))
  singleIndirectPtr := getU32 b (4 * 11)
  doubleIndirectPtr := getU32 b (4 * 12)
  blockCount := getU32 b (4 * 13)
  size := getU32 b (4 * 14)
  mode := getU32 b (4 * 15)
  refCount := getU32 b (4 * 16)
  linksCount := getU32 b (4 * 17)
  uid := getU32 b (4 * 18)
  gid := getU32 b (4 * 19)
  permissions := getU32 b (4 * 20)
  atime := getU32 b (4 * 21) + 2 ^ 32 * getU32 b (4 * 22)
  mtime := getU32 b (4 * 23) + 2 ^ 32 * getU32 b (4 * 24)
  ctime := getU32 b (4 * 25) + 2 ^ 32 * getU32 b (4 * 26)
  dirty := getU32 b (4 * 27)

/-- `MyfsDiskSuperBlock` -/
structure MyfsDiskSuperBlock where
  magic : ℕ
  totalInodes : ℕ
  totalBlocks : ℕ
  freeInodes : ℕ
  freeBlocks : ℕ
  blockSectors : ℕ
  fileInitialBlocks : ℕ
  inodeBitmapStart : ℕ
  blockBitmapStart : ℕ
  inodeTableStart : ℕ
  dataBlocksStart : ℕ
  rootInode : ℕ

/-- The 12 words of the superblock record. -/
def MyfsDiskSuperBlock.words (d : MyfsDiskSuperBlock) : ℕ → ℕ
  | 0 => d.magic
  | 1 => d.totalInodes
  | 2 => d.totalBlocks
  | 3 => d.freeInodes
  | 4 => d.freeBlocks
  | 5 => d.blockSectors
  | 6 => d.fileInitialBlocks
  | 7 => d.inodeBitmapStart
  | 8 => d.blockBitmapStart
  | 9 => d.inodeTableStart
  | 10 => d.dataBlocksStart
  | 11 => d.rootInode
  | _ => 0

/-! ## The mounted file system -/

/-- An address of an inode object in the kernel heap. -/
abbrev Ptr := ℕ

/-- The part of the kernel MyFS allocates from: the inode objects, the next
    fresh address, whether the coming calls of `kmalloc` succeed (`entryMem` for
    the entries of the inode cache, `mem` for everything else) and the contents of
    fresh buffers.  A freed object keeps its last value. -/
structure Kmem where
  heap : Ptr → MyfsInode
  brk : Ptr
  mem : ℕ → Bool
  entryMem : ℕ → Bool
  uninit : Buf

/-- `MyfsSuperBlock`.  A bucket of `inodeHashTable` is its chain of cached
    inodes. -/
structure MyfsSuperBlock extends Kmem where
  onDisk : MyfsDiskSuperBlock
  dev : BlkDev
  blockBytes : ℕ
  blockBitmap : Buf
  inodeBitmap : Buf
  inodeHashTable : ℕ → List Ptr

/-- `kmalloc(size)`: whether it returns memory.  A large allocation takes whole pages,
    with a header of 16 bytes, and the heap has 65536 pages. -/
def kmalloc (sb : MyfsSuperBlock) (size : ℕ) : MyfsSuperBlock × Bool :=
  if size = 0 then (sb, false)
  else if 2048 < size ∧ 65536 < (size + 16 + 4096 - 1) % 2 ^ 32 / 4096 then (sb, false)
  else ({ sb with mem := fun k => sb.mem (k + 1) }, sb.mem 0)

/-- `kmalloc(sizeof(InodeHashEntry))` -/
def kmallocEntry (sb : MyfsSuperBlock) : MyfsSuperBlock × Bool :=
  ({ sb with entryMem := fun k => sb.entryMem (k + 1) }, sb.entryMem 0)

/-- Store through an inode pointer. -/
def MyfsSuperBlock.setInode (sb : MyfsSuperBlock) (p : Ptr) (n : MyfsInode) : MyfsSuperBlock :=
  { sb with heap := Function.update sb.heap p n }

/-! ## Block I/O -/

def diskReadBlock (sb : MyfsSuperBlock) (blockLba : ℕ) (buf : Buf) : Buf :=
  sb.dev.readSectors (blockLba * sb.onDisk.blockSectors % 2 ^ 32) sb.onDisk.blockSectors buf

def diskWriteBlock (sb : MyfsSuperBlock) (blockLba : ℕ) (buf : Buf) : MyfsSuperBlock :=
  { sb with dev :=
      sb.dev.writeSectors (blockLba * sb.onDisk.blockSectors % 2 ^ 32) sb.onDisk.blockSectors buf }

/-- The loop of `disk_read_bitmap` over the first `n` full blocks. -/
def readBitmapLoop (sb : MyfsSuperBlock) (blockAddr : ℕ) : ℕ → Buf → Buf
  | 0, buf => buf
  | i + 1, buf =>
    let buf := readBitmapLoop sb blockAddr i buf
    memcpy buf (i * sb.blockBytes)
      (diskReadBlock sb (blockAddr + i) fun j => buf (i * sb.blockBytes + j)) 0 sb.blockBytes

def diskReadBitmap (sb : MyfsSuperBlock) (blockAddr : ℕ) (buffer : Buf) (bytesToRead : ℕ) : Buf :=
  let fullBlocks := bytesToRead / sb.blockBytes
  let remainder := bytesToRead % sb.blockBytes
  let buf := readBitmapLoop sb blockAddr fullBlocks buffer
  if 0 < remainder then
    let tmp := diskReadBlock sb (blockAddr + fullBlocks) sb.uninit
    memcpy buf (fullBlocks * sb.blockBytes) tmp 0 remainder
  else buf

/-- The loop of `disk_write_bitmap` over the first `n` full blocks. -/
def writeBitmapLoop (blockAddr : ℕ) (buf : Buf) : ℕ → MyfsSuperBlock → MyfsSuperBlock
  | 0, sb => sb
  | i + 1, sb =>
    let sb := writeBitmapLoop blockAddr buf i sb
    diskWriteBlock sb (blockAddr + i) fun j => buf (i * sb.blockBytes + j)

def diskWriteBitmap (sb : MyfsSuperBlock) (blockAddr : ℕ) (buffer : Buf) (bufferBytes : ℕ) :
    MyfsSuperBlock :=
  let fullBlocks := bufferBytes / sb.blockBytes
  let remainder := bufferBytes % sb.blockBytes
  let sb := writeBitmapLoop blockAddr buffer fullBlocks sb
  if 0 < remainder then
    let tmp := memset sb.uninit 0 0 sb.blockBytes
    let tmp := memcpy tmp 0 buffer (fullBlocks * sb.blockBytes) remainder
    diskWriteBlock sb (blockAddr + fullBlocks) tmp
  else sb

/-- The loop of `disk_rw_spanning`; every round moves at least one byte, so
    `dataSize` rounds are enough. -/
def rwSpanningLoop (isWrite : Bool) :
    ℕ → MyfsSuperBlock → Buf → (ptr remaining curBlock offset : ℕ) → MyfsSuperBlock × Buf
  | 0, sb, data, _, _, _, _ => (sb, data)
  | fuel + 1, sb, data, ptr, remaining, curBlock, offset =>
    if remaining = 0 then (sb, data)
    else
      let chunk := min (sb.blockBytes - offset) remaining
      if isWrite then
        -- read-modify-write when not writing a full block
        let blockBuf :=
          if offset ≠ 0 ∨ remaining < sb.blockBytes then diskReadBlock sb curBlock sb.uninit
          else sb.uninit
        let blockBuf := memcpy blockBuf offset data ptr chunk
        rwSpanningLoop isWrite fuel (diskWriteBlock sb curBlock blockBuf) data
          (ptr + chunk) (remaining - chunk) (curBlock + 1) 0
      else
        let blockBuf := diskReadBlock sb curBlock sb.uninit
        rwSpanningLoop isWrite fuel sb (memcpy data ptr blockBuf offset chunk)
          (ptr + chunk) (remaining - chunk) (curBlock + 1) 0

def diskRwSpanning (sb : MyfsSuperBlock) (startBlock offsetInFirstBlock : ℕ) (data : Buf)
    (dataSize : ℕ) (isWrite : Bool) : MyfsSuperBlock × Buf :=
  rwSpanningLoop isWrite dataSize sb data 0 dataSize startBlock offsetInFirstBlock

end Kabanos
