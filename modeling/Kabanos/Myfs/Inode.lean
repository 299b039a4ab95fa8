/-
  The inode cache: a chained hash table of inode objects, with the inode table on disk behind it.
-/
import Kabanos.Myfs.Disk

namespace Kabanos

def inodeHash (ino : ℕ) : ℕ := ino % 256

def myfsCacheFind (sb : MyfsSuperBlock) (ino : ℕ) : Option Ptr :=
  (sb.inodeHashTable (inodeHash ino)).find? fun p => (sb.heap p).iIno = ino

/-- `myfs_inode_cache_add`: without memory for the entry, the inode stays outside the cache. -/
def myfsInodeCacheAdd (sb : MyfsSuperBlock) (p : Ptr) : MyfsSuperBlock :=
  let hash := inodeHash (sb.heap p).iIno
  match kmallocEntry sb with
  | (sb, ok) =>
    if ok then
      let chain := p :: sb.inodeHashTable hash
      { sb with inodeHashTable := Function.update sb.inodeHashTable hash chain }
    else sb

/-- `myfs_inode_cache_remove`: drop and free the first entry with that number. -/
def myfsInodeCacheRemove (sb : MyfsSuperBlock) (ino : ℕ) : MyfsSuperBlock :=
  let hash := inodeHash ino
  let chain := (sb.inodeHashTable hash).eraseP fun p => (sb.heap p).iIno = ino
  { sb with inodeHashTable := Function.update sb.inodeHashTable hash chain }

/-! ## Inode records on disk -/

/-- The block and the offset in it where the record of inode `ino` starts.  The number is an `int`
    in `myfs_disk_inode_read` and a `uint32_t` in `myfs_disk_inode_write`; both are extended to 64
    bits before the product is taken. -/
def inodePos (sb : MyfsSuperBlock) (ino : ℤ) : ℕ × ℕ :=
  let inodeOffsetBytes := (ino * inodeSize % 2 ^ 64).toNat
  ((sb.onDisk.inodeTableStart + inodeOffsetBytes / sb.blockBytes) % 2 ^ 32,
    inodeOffsetBytes % sb.blockBytes)

/-- `myfs_disk_inode_read`: a new object with the record of `ino`. -/
def myfsDiskInodeRead (sb : MyfsSuperBlock) (ino : ℤ) : MyfsSuperBlock × Option Ptr :=
  match kmalloc sb inodeSize with
  | (sb, false) => (sb, none)
  | (sb, true) =>
    let pos := inodePos sb ino
    let data := (diskRwSpanning sb pos.1 pos.2 sb.uninit inodeSize false).2
    let p := sb.brk
    ({ sb.setInode p (MyfsInode.decode data) with brk := sb.brk + 1 }, some p)

/-- `myfs_iget`; `myfs_disk_inode_read` gets the number as an `int`. -/
def myfsIget (sb : MyfsSuperBlock) (ino : ℕ) : MyfsSuperBlock × Option Ptr :=
  if !bitmapIsSet sb.inodeBitmap ino then (sb, none)
  else
    match myfsCacheFind sb ino with
    | some p =>
      (sb.setInode p ((sb.heap p).withRefs (((sb.heap p).refCount + 1) % 2 ^ 32)), some p)
    | none =>
      match myfsDiskInodeRead sb (Int.bmod ino (2 ^ 32)) with
      | (sb, none) => (sb, none)
      | (sb, some p) =>
        let sb := sb.setInode p { sb.heap p with refCount := 1, dirty := 1 }
        (myfsInodeCacheAdd sb p, some p)

/-- `myfs_iput`, with the call of `myfs_disk_inode_write` as a parameter: the two functions call
    each other. -/
def iputWith (write : MyfsSuperBlock → ℕ → MyfsSuperBlock) (sb : MyfsSuperBlock) (p : Ptr) :
    MyfsSuperBlock :=
  let refCount := ((sb.heap p).refCount + (2 ^ 32 - 1)) % 2 ^ 32
  let sb := sb.setInode p ((sb.heap p).withRefs refCount)
  if refCount = 0 then
    let sb := if (sb.heap p).dirty ≠ 0 then write sb (sb.heap p).iIno else sb
    myfsInodeCacheRemove sb (sb.heap p).iIno
  else sb

/-- `myfs_disk_inode_write`.  Both calls of `myfs_iput` are made on a clean inode, where
    `myfs_iput` does not write. -/
def myfsDiskInodeWrite (sb : MyfsSuperBlock) (ino : ℕ) : MyfsSuperBlock × ℤ :=
  match myfsIget sb ino with
  | (sb, none) => (sb, -1)
  | (sb, some p) =>
    if (sb.heap p).dirty = 0 then (iputWith (fun sb _ => sb) sb p, 0)
    else
      let pos := inodePos sb (sb.heap p).iIno
      let sb := (diskRwSpanning sb pos.1 pos.2 (sb.heap p).encode inodeSize true).1
      let sb := sb.setInode p { sb.heap p with dirty := 0 }
      (iputWith (fun sb _ => sb) sb p, 0)

/-- `myfs_iput`.  After the write-back the source reads `i_ino` from the object that the inner
    `myfs_iput` has just freed. -/
def myfsIput (sb : MyfsSuperBlock) (p : Ptr) : MyfsSuperBlock :=
  iputWith (fun sb ino => (myfsDiskInodeWrite sb ino).1) sb p

end Kabanos
