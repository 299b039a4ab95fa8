/-
  Contents and allocation of inodes: `myfs_node_write`, `myfs_node_read`, `myfs_inode_alloc`; and
  directories, which are arrays of 36-byte entries in the contents of an inode.
-/
import Kabanos.Myfs.Blocks
import Kabanos.Myfs.Inode

namespace Kabanos

/-- `S_IFMT` and the file types of `ksys/stat.h`. -/
def sIfmt : ℕ := 0xF000
def sIfreg : ℕ := 0x8000
def sIfdir : ℕ := 0x4000
def sIflnk : ℕ := 0xA000

def sIsdir (m : ℕ) : Bool := m &&& sIfmt == sIfdir

def sIsreg (m : ℕ) : Bool := m &&& sIfmt == sIfreg

def sIslnk (m : ℕ) : Bool := m &&& sIfmt == sIflnk

/-! ## Writing -/

/-- The result of the copy loop of `myfs_node_write`: the state, the advanced
    offset, the bytes written, and whether the loop ran to its end. -/
structure WriteRes where
  sb : MyfsSuperBlock
  offset : ℕ
  bytesWritten : ℕ
  ok : Bool

/-- The copy loop of `myfs_node_write`; every round writes at least one byte. -/
def nodeWriteLoop (inode : MyfsInode) (inp : Buf) (count : ℕ) :
    ℕ → MyfsSuperBlock → Buf → (offset bytesWritten : ℕ) → WriteRes
  | 0, sb, _, offset, bytesWritten => ⟨sb, offset, bytesWritten, true⟩
  | fuel + 1, sb, blockBuf, offset, bytesWritten =>
    if bytesWritten < count then
      let blockIdx := offset / sb.blockBytes
      let blockOffset := offset % sb.blockBytes
      let toWrite := min (sb.blockBytes - blockOffset) (count - bytesWritten)
      let blockLba := myfsBlockLbaGet sb inode blockIdx
      if blockLba = 0 then ⟨sb, offset, bytesWritten, false⟩
      else
        let blockBuf := if toWrite < sb.blockBytes then diskReadBlock sb blockLba blockBuf
          else blockBuf
        let blockBuf := memcpy blockBuf blockOffset inp bytesWritten toWrite
        nodeWriteLoop inode inp count fuel (diskWriteBlock sb blockLba blockBuf) blockBuf
          ((offset + toWrite) % 2 ^ 32) (bytesWritten + toWrite)
    else ⟨sb, offset, bytesWritten, true⟩

/-- The end of `myfs_node_write`, from the copy loop on. -/
def nodeWriteTail (sb : MyfsSuperBlock) (p : Ptr) (offset : ℕ) (buf : Buf) (count : ℕ) :
    MyfsSuperBlock × ℤ :=
  let inode := sb.heap p
  let r := nodeWriteLoop inode buf count count sb sb.uninit offset 0
  if r.ok then
    let inode := if inode.size < r.offset then { inode with size := r.offset } else inode
    let sb := r.sb.setInode p { inode with dirty := 1 }
    ((myfsDiskInodeWrite sb inode.iIno).1, r.bytesWritten)
  else (r.sb, -1)

/-- The blocks `myfs_node_write` wants the file to have. -/
def targetBlocks (sb : MyfsSuperBlock) (offset count : ℕ) : ℕ :=
  (offset + count + sb.blockBytes - 1) % 2 ^ 32 / sb.blockBytes

def myfsNodeWrite (sb : MyfsSuperBlock) (p : Ptr) (offset : ℕ) (buf : Buf) (count : ℕ) :
    MyfsSuperBlock × ℤ :=
  if count = 0 then (sb, 0)
  else
    let target := targetBlocks sb offset count
    if (sb.heap p).blockCount < target then
      match myfsBlocksAlloc sb (sb.heap p) (target - (sb.heap p).blockCount) with
      | (sb, inode, r) =>
        let sb := sb.setInode p inode
        if r < 0 then (sb, -1) else nodeWriteTail sb p offset buf count
    else nodeWriteTail sb p offset buf count

/-! ## Reading -/

/-- The copy loop of `myfs_node_read`; every round reads at least one byte. -/
def nodeReadLoop (sb : MyfsSuperBlock) (inode : MyfsInode) (count : ℕ) :
    ℕ → (out tempBlock : Buf) → (offset totalRead : ℕ) → Buf × ℕ
  | 0, out, _, _, totalRead => (out, totalRead)
  | fuel + 1, out, tempBlock, offset, totalRead =>
    if totalRead < count then
      let logicalBlock := offset / sb.blockBytes
      let internalOffset := offset % sb.blockBytes
      let chunkSize := min (sb.blockBytes - internalOffset) (count - totalRead)
      let physicalLba := myfsBlockLbaGet sb inode logicalBlock
      if physicalLba = 0 then
        -- a hole reads as zeros
        nodeReadLoop sb inode count fuel (memset out totalRead 0 chunkSize) tempBlock
          ((offset + chunkSize) % 2 ^ 32) (totalRead + chunkSize)
      else
        let tempBlock := diskReadBlock sb physicalLba tempBlock
        nodeReadLoop sb inode count fuel
          (memcpy out totalRead tempBlock internalOffset chunkSize) tempBlock
          ((offset + chunkSize) % 2 ^ 32) (totalRead + chunkSize)
    else (out, totalRead)

/-- `myfs_node_read`: the filled buffer and the number of bytes read. -/
def myfsNodeRead (sb : MyfsSuperBlock) (inode : MyfsInode) (offset : ℕ) (buf : Buf)
    (count : ℕ) : Buf × ℕ :=
  if inode.size ≤ offset then (buf, 0)
  else
    let count := if inode.size < (offset + count) % 2 ^ 32 then inode.size - offset else count
    nodeReadLoop sb inode count count buf sb.uninit offset 0

/-! ## Allocating -/

/-- `myfs_inode_alloc` flushes the block of the inode bitmap that holds bit
    `inodeNum`. -/
def flushInodeBitmap (sb : MyfsSuperBlock) (inodeNum : ℕ) : MyfsSuperBlock :=
  let bitmapBlockIdx := inodeNum / (sb.blockBytes * 8)
  let bitmapSizeBytes := (sb.onDisk.totalInodes + 7) / 8
  let bytesToWrite := min (bitmapSizeBytes - bitmapBlockIdx * sb.blockBytes) sb.blockBytes
  diskWriteBitmap sb (sb.onDisk.inodeBitmapStart + bitmapBlockIdx)
    (fun j => sb.inodeBitmap (bitmapBlockIdx * sb.blockBytes + j)) bytesToWrite

/-- The block count `myfs_inode_alloc` records for a new inode. -/
def initialBlockCount (sb : MyfsSuperBlock) (mode : ℕ) : ℕ :=
  if sIsreg mode then sb.onDisk.fileInitialBlocks
  else if sIsdir mode then 1
  else if sIslnk mode then 0
  else 1

/-- The object `myfs_inode_alloc` starts from. -/
def newInode (inodeNum mode : ℕ) : MyfsInode :=
  { MyfsInode.zero with iIno := inodeNum, mode := mode }

/-- The fields `myfs_inode_alloc` sets once the inode has its blocks; the clock stands
    at `0`. -/
def initInode (sb : MyfsSuperBlock) (mode : ℕ) (inode : MyfsInode) : MyfsInode :=
  { inode with
    blockCount := initialBlockCount sb mode, refCount := 1, linksCount := 1,
    permissions := if sIsdir mode then 0o755 else 0o644, dirty := 1,
    atime := 0, mtime := 0, ctime := 0 }

/-- `myfs_inode_alloc`; `none` is the result `-1`. -/
def myfsInodeAlloc (sb : MyfsSuperBlock) (mode : ℕ) : MyfsSuperBlock × Option Ptr :=
  match findFirstEmptyBit sb.inodeBitmap ((sb.onDisk.totalInodes + 7) / 8) 0 with
  | none => (sb, none)
  | some inodeNum =>
    let sb := { sb with inodeBitmap := bitmapSet sb.inodeBitmap inodeNum }
    let sb := flushInodeBitmap sb inodeNum
    match kmalloc sb inodeSize with
    | (sb, false) =>
      ({ sb with inodeBitmap := bitmapClear sb.inodeBitmap inodeNum }, none)
    | (sb, true) =>
      match myfsBlocksAlloc sb (newInode inodeNum mode) sb.onDisk.fileInitialBlocks with
      | (sb, inode, r) =>
        if r < 0 then ({ sb with inodeBitmap := bitmapClear sb.inodeBitmap inodeNum }, none)
        else
          let p := sb.brk
          let sb := { sb.setInode p (initInode sb mode inode) with brk := sb.brk + 1 }
          let sb := myfsInodeCacheAdd sb p
          ((myfsDiskInodeWrite sb inodeNum).1, some p)

/-! ## Directories -/

/-- A C string, without its terminating zero. -/
abbrev Name := List UInt8

/-- `sizeof(MyfsDirEntry)`: a name of 32 bytes and a 32-bit inode number. -/
abbrev entrySize : ℕ := 36

/-- The `MyfsDirEntry` that `myfs_dir_add_entry` builds: `strncpy` cuts the name
    to 31 bytes and pads it with zeros. -/
def encodeEntry (name : Name) (inodeNum : ℕ) : Buf := fun k =>
  if k < 31 then name.getD k 0
  else if k < 32 then 0
  else UInt8.ofNat (inodeNum / 256 ^ (k - 32))

/-- `entries[i].inode_num` -/
def entryIno (entries : Buf) (i : ℕ) : ℕ := getU32 entries (entrySize * i + 32)

/-- `myfs_entry_idx_find`; `none` is the result `-1`. -/
def myfsEntryIdxFind (entries : Buf) (entriesCount : ℕ) (name : Name) : Option ℕ :=
  (List.range entriesCount).find? fun i => strEq entries (entrySize * i) name

/-- The entries of a directory, read into a fresh buffer; `none` without memory
    or when the byte count does not fit a signed integer. -/
def readEntries (sb : MyfsSuperBlock) (p : Ptr) : MyfsSuperBlock × Option Buf :=
  match kmalloc sb (sb.heap p).size with
  | (sb, false) => (sb, none)
  | (sb, true) =>
    let r := myfsNodeRead sb (sb.heap p) 0 sb.uninit (sb.heap p).size
    (sb, if r.2 < 2 ^ 31 then some r.1 else none)

/-- `myfs_lookup`; `none` is the result `-1`. -/
def myfsLookup (sb : MyfsSuperBlock) (dirInode : Option Ptr) (name : Name) :
    MyfsSuperBlock × Option ℕ :=
  match dirInode with
  | none => (sb, none)
  | some p =>
    if !sIsdir (sb.heap p).mode then (sb, none)
    else if (sb.heap p).size = 0 then (sb, none)
    else
      match readEntries sb p with
      | (sb, none) => (sb, none)
      | (sb, some entries) =>
        match myfsEntryIdxFind entries ((sb.heap p).size / entrySize) name with
        | none => (sb, none)
        | some idx => (sb, some (entryIno entries idx))

def myfsDirAddEntry (sb : MyfsSuperBlock) (dirInode : Option Ptr) (name : Name)
    (inodeNum : ℕ) : MyfsSuperBlock × ℤ :=
  match dirInode with
  | none => (sb, -1)
  | some p =>
    if !sIsdir (sb.heap p).mode then (sb, -1)
    else
      match myfsLookup sb (some p) name with
      | (sb, some _) => (sb, -1)
      | (sb, none) => myfsNodeWrite sb p (sb.heap p).size (encodeEntry name inodeNum) entrySize

end Kabanos
