/-
  The FAT driver of the boot loader: `fat.c`, with `memcmp` of `memory.c`.

  A `FatVolume` is what `fat_initialize` leaves behind for good: the boot sector and the table in
  memory, and the partition, whose sectors need not all be readable.  An open file holds one
  sector of its contents.
-/
import Kabanos.Lib.Bytes

namespace Kabanos

/-! ## The volume -/

/-- The partition and the fields of the boot sector that are read later; `fat` is `g_fat`. -/
structure FatVolume where
  sector : ℕ → Option Buf
  sectorsPerCluster : ℕ
  dataSectionLba : ℕ
  fat : Buf

/-- `partition_read_sectors(disk, lba, 1, buffer)`; a sector that cannot be read leaves the buffer
    alone. -/
def partitionReadSector (v : FatVolume) (lba : ℕ) (buffer : Buf) : Buf × Bool :=
  match v.sector lba with
  | none => (buffer, false)
  | some b => (memcpy buffer 0 b 0 512, true)

def fatClusterToLba (v : FatVolume) (cluster : ℕ) : ℕ :=
  (v.dataSectionLba + (cluster + 2 ^ 32 - 2) * v.sectorsPerCluster) % 2 ^ 32

/-- The 12-bit entry of a cluster in the table. -/
def fatNextCluster (v : FatVolume) (currentCluster : ℕ) : ℕ :=
  let fatIndex := currentCluster * 3 % 2 ^ 32 / 2
  let word := getU16 v.fat fatIndex
  if currentCluster % 2 = 0 then word % 2 ^ 12 else word / 2 ^ 4

/-! ## Files -/

/-- `fat_file` -/
structure FatFile where
  handle : ℤ
  isDirectory : Bool
  position : ℕ
  size : ℕ

def rootDirectoryHandle : ℤ := -1

/-- `fat_fileData` -/
structure FatFileData where
  buffer : Buf
  file : FatFile
  opened : Bool
  firstCluster : ℕ
  currentCluster : ℕ
  currentSectorInCluster : ℕ

/-- The lines of `fat_read` that step to the next sector of a file that is not the root
    directory. -/
def fatNextSector (v : FatVolume) (fd : FatFileData) : FatFileData :=
  if v.sectorsPerCluster ≤ (fd.currentSectorInCluster + 1) % 2 ^ 32 then
    { fd with
      currentSectorInCluster := 0
      currentCluster := fatNextCluster v fd.currentCluster }
  else { fd with currentSectorInCluster := (fd.currentSectorInCluster + 1) % 2 ^ 32 }

/-- A sector is read into the buffer of the file. -/
def fatLoadSector (v : FatVolume) (fd : FatFileData) (lba : ℕ) : FatFileData × Bool :=
  let (buffer, ok) := partitionReadSector v lba fd.buffer
  ({ fd with buffer := buffer }, ok)

/-- The lines of `fat_read` after the last byte of the buffer has been taken; without success the
    loop is left. -/
def fatAdvance (v : FatVolume) (fd : FatFileData) : FatFileData × Bool :=
  if fd.file.handle = rootDirectoryHandle then
    let fd := { fd with currentCluster := (fd.currentCluster + 1) % 2 ^ 32 }
    fatLoadSector v fd fd.currentCluster
  else
    let fd := fatNextSector v fd
    if 0xFF8 ≤ fd.currentCluster then
      ({ fd with file := { fd.file with size := fd.file.position } }, false)
    else fatLoadSector v fd
      ((fatClusterToLba v fd.currentCluster + fd.currentSectorInCluster) % 2 ^ 32)

/-- The line `fd->public.position += take`. -/
def FatFileData.skip (fd : FatFileData) (take : ℕ) : FatFileData :=
  { fd with file := { fd.file with position := (fd.file.position + take) % 2 ^ 32 } }

/-- The loop of `fat_read`, which takes a byte at least in each round; `out` is what it has
    copied. -/
def fatReadLoop (v : FatVolume) : ℕ → FatFileData → ℕ → List UInt8 → FatFileData × List UInt8
  | 0, fd, _, out => (fd, out)
  | n + 1, fd, byteCount, out =>
    if byteCount = 0 then (fd, out)
    else
      let offset := fd.file.position % 512
      let leftInBuffer := 512 - offset
      let take := min byteCount leftInBuffer
      let out := out ++ (List.range take).map fun i => fd.buffer (offset + i)
      let fd := fd.skip take
      if leftInBuffer = take then
        let (fd, ok) := fatAdvance v fd
        if ok then fatReadLoop v n fd (byteCount - take) out else (fd, out)
      else fatReadLoop v n fd (byteCount - take) out

/-- `fat_read`: the file afterwards, and the bytes. -/
def fatRead (v : FatVolume) (fd : FatFileData) (byteCount : ℕ) : FatFileData × List UInt8 :=
  let byteCount := if !fd.file.isDirectory || fd.file.size ≠ 0 then
      min byteCount ((fd.file.size + 2 ^ 32 - fd.file.position) % 2 ^ 32)
    else byteCount
  fatReadLoop v byteCount fd byteCount []

/-- `MAX_FILE_HANDLES` -/
def maxFileHandles : ℕ := 10

/-- `FAT_Data`, with the volume. -/
structure FatData where
  volume : FatVolume
  rootDirectory : FatFileData
  openedFiles : ℕ → FatFileData

/-- The file of a handle. -/
def FatData.fileData (d : FatData) (handle : ℤ) : FatFileData :=
  if handle = rootDirectoryHandle then d.rootDirectory else d.openedFiles handle.toNat

def FatData.setFileData (d : FatData) (handle : ℤ) (fd : FatFileData) : FatData :=
  if handle = rootDirectoryHandle then { d with rootDirectory := fd }
  else { d with openedFiles := Function.update d.openedFiles handle.toNat fd }

/-- `fat_read` of the file with a handle -/
def FatData.read (d : FatData) (handle : ℤ) (byteCount : ℕ) : FatData × List UInt8 :=
  let (fd, out) := fatRead d.volume (d.fileData handle) byteCount
  (d.setFileData handle fd, out)

/-! ## Directories -/

/-- The 32 bytes of a `fat_dirent`. -/
abbrev FatDirent := List UInt8

/-- The fields `attributes`, `first_cluster_high`, `first_cluster_low` and `size`. -/
def FatDirent.attributes (e : FatDirent) : UInt8 := e.getD 11 0
def FatDirent.firstClusterHigh (e : FatDirent) : ℕ := getU16 (fun i => e.getD i 0) 20
def FatDirent.firstClusterLow (e : FatDirent) : ℕ := getU16 (fun i => e.getD i 0) 26
def FatDirent.size (e : FatDirent) : ℕ := getU32 (fun i => e.getD i 0) 28

/-- The first cluster, as `fat_open_entry` puts it together. -/
def FatDirent.firstCluster (e : FatDirent) : ℕ :=
  (e.firstClusterLow + e.firstClusterHigh * 2 ^ 16) % 2 ^ 32

/-- The file that `fat_open_entry` sets up in a free place. -/
def fatNewFile (fd : FatFileData) (handle : ℕ) (e : FatDirent) : FatFileData :=
  { fd with
    file := ⟨handle, e.attributes &&& 0x10 ≠ 0, 0, e.size⟩
    firstCluster := e.firstCluster
    currentCluster := e.firstCluster
    currentSectorInCluster := 0 }

/-- `fat_open_entry`; `none` is the result `NULL`. -/
def fatOpenEntry (d : FatData) (entry : FatDirent) : FatData × Option ℤ :=
  match (List.range maxFileHandles).find? fun i => !(d.openedFiles i).opened with
  | none => (d, none)
  | some handle =>
    let fd := fatNewFile (d.openedFiles handle) handle entry
    let (fd, ok) := fatLoadSector d.volume fd (fatClusterToLba d.volume fd.currentCluster)
    if ok then (d.setFileData handle { fd with opened := true }, some handle)
    else (d.setFileData handle fd, none)

/-- `fat_read_entry`: the entry, if all of it could be read. -/
def fatReadEntry (v : FatVolume) (fd : FatFileData) : FatFileData × Option FatDirent :=
  let (fd, out) := fatRead v fd 32
  (fd, if out.length = 32 then some out else none)

/-- `repe cmpsb` from index `i` on: the count that is left. -/
def repeCmpsb (p1 p2 : Buf) : (i count : ℕ) → ℕ
  | _, 0 => 0
  | i, count + 1 => if p1 i = p2 i then repeCmpsb p1 p2 (i + 1) count else count

/-- `memcmp` of the boot loader; `p1[-1]` and `p2[-1]` are the bytes that were compared last. -/
def memcmp (p1 p2 : Buf) (num : ℕ) : ℤ :=
  let count := repeCmpsb p1 p2 0 num
  if count = 0 then 0
  else if p1 (num - count - 1) < p2 (num - count - 1) then -1
  else 1

def toupper (chr : UInt8) : UInt8 :=
  if 0x61 ≤ chr ∧ chr ≤ 0x7A then chr - 0x61 + 0x41 else chr

/-- The characters `s` in upper case, from index `off` on. -/
def copyUpper (dst : Buf) (off : ℕ) (s : List UInt8) : Buf := fun i =>
  if off ≤ i ∧ i < off + s.length then toupper (s.getD (i - off) 0) else dst i

/-- The array `fat_name` of `fat_find_file`, for a name without its terminating zero. -/
def fatName (name : List UInt8) : Buf :=
  let blank : Buf := fun i => if i < 11 then 0x20 else 0
  match name.findIdx? (· == 0x2E) with
  | none => copyUpper blank 0 ((name.take 11).take 8)
  | some ext =>
    let base := copyUpper blank 0 ((name.take ext).take 8)
    if ext ≠ 11 then copyUpper base 8 ((name.drop (ext + 1)).take 3) else base

/-- `fat_find_file`, with a bound on the rounds: the directory afterwards, and the entry. -/
def fatFindFile (v : FatVolume) (name : List UInt8) :
    ℕ → FatFileData → Option (FatFileData × Option FatDirent)
  | 0, _ => none
  | n + 1, fd =>
    match fatReadEntry v fd with
    | (fd, none) => some (fd, none)
    | (fd, some entry) =>
      if memcmp (fatName name) (fun i => entry.getD i 0) 11 = 0 then some (fd, some entry)
      else fatFindFile v name n fd

end Kabanos
