/-
  The boot information: `multiboot2_build` of the boot loader, which writes the block, and
  `parse_multiboot2_early` of the kernel, which reads it.

  Offsets in the block count from its first byte.  The memory of the kernel is a buffer over
  its addresses, in which the early allocator owns the `EARLYALLOC_SIZE` bytes from `base` on;
  a descriptor `module_t` is the bytes that the kernel stores there, while the only
  `KernelBootInfo` is a record.  When the early allocator is full it returns the null pointer,
  which the parser does not check: the boot page table maps page 0 for writing, so what finds
  no room is written from address 0 on.  `none` is a loop that has not ended.
-/
import Kabanos.Lib.Strings
import Kabanos.Mm.Pmm

namespace Kabanos

/-! ## The block -/

/-- A boot module: `modules_start[i]`, `modules_size[i]` and `modules_paths[i]` -/
structure BootModule where
  start : UInt32
  size : UInt32
  path : CStr

structure MemoryRegion where
  start : UInt64
  size : UInt64
  type : UInt32

/-- `MB2_ALIGN` on a 32-bit size -/
def mb2Align (x : ℕ) : ℕ := (x + 7) % 2 ^ 32 / 8 * 8

/-- The block that is being written: `buffer` and `curr_tag` -/
structure BlockWriter where
  buffer : Buf
  currTag : ℕ

/-- The command line tag. -/
def writeCmdlineTag (w : BlockWriter) (cmdline : CStr) : BlockWriter :=
  let b := putU32 w.buffer w.currTag 1
  let b := putU32 b (w.currTag + 4) (8 + cmdline.length + 1)
  let b := strcpy b (w.currTag + 8) cmdline
  ⟨b, w.currTag + mb2Align (getU32 b (w.currTag + 4))⟩

def writeModuleTag (w : BlockWriter) (m : BootModule) : BlockWriter :=
  let b := putU32 w.buffer w.currTag 3
  let b := putU32 b (w.currTag + 8) m.start.toNat
  let b := putU32 b (w.currTag + 12) (m.start.toNat + m.size.toNat)
  let b := strcpy b (w.currTag + 16) m.path
  let b := putU32 b (w.currTag + 4) (16 + m.path.length + 1)
  ⟨b, w.currTag + mb2Align (getU32 b (w.currTag + 4))⟩

/-- One `mb2_mmap_entry_t`. -/
def writeMmapEntry (b : Buf) (entry : ℕ) (r : MemoryRegion) : Buf :=
  putU32 (putU32 (putU64 (putU64 b entry r.start.toNat) (entry + 8) r.size.toNat) (entry + 16)
    r.type.toNat) (entry + 20) 0

/-- The loop over the regions. -/
def writeMmapEntries (b : Buf) (entry : ℕ) : List MemoryRegion → Buf
  | [] => b
  | r :: rs => writeMmapEntries (writeMmapEntry b entry r) (entry + 24) rs

/-- The memory map tag. -/
def writeMmapTag (w : BlockWriter) (regions : List MemoryRegion) : BlockWriter :=
  let b := putU32 w.buffer w.currTag 6
  let b := putU32 b (w.currTag + 8) 24
  let b := putU32 b (w.currTag + 12) 0
  let b := writeMmapEntries b (w.currTag + 16) regions
  let b := putU32 b (w.currTag + 4) (16 + 24 * regions.length)
  ⟨b, w.currTag + mb2Align (getU32 b (w.currTag + 4))⟩

def writeEndTag (w : BlockWriter) : BlockWriter :=
  let b := putU32 w.buffer w.currTag 0
  let b := putU32 b (w.currTag + 4) 8
  ⟨b, w.currTag + mb2Align (getU32 b (w.currTag + 4))⟩

def multiboot2Build (buffer : Buf) (cmdline : CStr) (modules : List BootModule)
    (memmap : List MemoryRegion) : Buf :=
  let w := writeCmdlineTag ⟨buffer, 8⟩ cmdline
  let w := modules.foldl writeModuleTag w
  let w := writeEndTag (writeMmapTag w memmap)
  putU32 w.buffer 0 w.currTag

/-! ## The early allocator -/

def earlyAllocSize : ℕ := 5 * 1024

/-- `BOOT_PARAMS_PHYSICAL_ADDR`, where the block stands -/
def bootParamsPhysicalAddr : ℕ := 0x7A000

/-- The memory of the kernel and the static variables of `early_alloc`: `base` is the address
    of `buf`, which lies above the block, as all of the kernel does. -/
structure Early where
  mem : Buf
  base : ℕ
  idx : ℕ
  block_le : bootParamsPhysicalAddr ≤ base
  base_le : base + earlyAllocSize ≤ 2 ^ 32
  idx_lt : idx < earlyAllocSize

/-- `early_alloc`: the null pointer if there is no room.  The sum does not wrap, since no string
    is longer than the memory without `buf`. -/
def earlyAlloc (e : Early) (len : ℕ) : ℕ × Early :=
  if h : e.idx + len < earlyAllocSize then
    (e.base + e.idx, { e with idx := e.idx + len, idx_lt := h })
  else (0, e)

/-- A write to the memory of the kernel. -/
def Early.store (e : Early) (mem : Buf) : Early := { e with mem := mem }

/-! ## The parser -/

/-- `KernelBootInfo`, with room for the regions of the memory map. -/
structure KernelBootInfo where
  cmdline : ℕ
  modules : ℕ
  moduleCount : ℕ
  regionCount : ℕ
  regions : ℕ → MemoryRegion
  initrdStart : ℕ
  initrdSize : ℕ

def maxMemoryRegions : ℕ := 256

/-- What the parser has allocated and set. -/
structure BootState where
  early : Early
  kbi : KernelBootInfo

/-- `align_up(num, 8)` -/
def alignUp8 (num : ℕ) : ℕ := (num + 8 - 1) % 2 ^ 32 / 8 * 8

/-- `case MB2_TAG_CMDLINE` -/
def parseCmdlineTag (n : ℕ) (mbi : Buf) (tag : ℕ) (s : BootState) : Option BootState := do
  let len := (← strlen n mbi (tag + 8)) + 1
  let (cmdline, e) := earlyAlloc s.early len
  return ⟨e.store (memcpy e.mem cmdline mbi (tag + 8) len), { s.kbi with cmdline := cmdline }⟩

/-- `case MB2_TAG_MODULE` -/
def parseModuleTag (n : ℕ) (mbi : Buf) (tag : ℕ) (s : BootState) : Option BootState := do
  let (mod, e) := earlyAlloc s.early 32
  let mem := memset e.mem mod 0 32
  let mem := putU32 mem (mod + 16) (getU32 mbi (tag + 8))
  let mem := putU32 mem (mod + 20) (sub32 (getU32 mbi (tag + 12)) (getU32 mbi (tag + 8)))
  let len := (← strlen n mbi (tag + 16)) + 1
  let (cmdline, e) := earlyAlloc (e.store mem) len
  let mem := memcpy e.mem cmdline mbi (tag + 16) len
  let mem := putU32 mem mod cmdline
  let mem := putU32 mem (mod + 28) s.kbi.modules
  return ⟨e.store mem, { s.kbi with modules := mod, moduleCount := s.kbi.moduleCount + 1 }⟩

/-- An entry of the memory map is added while there is room. -/
def addRegion (kbi : KernelBootInfo) (r : MemoryRegion) : KernelBootInfo :=
  if kbi.regionCount < maxMemoryRegions then
    { kbi with
      regions := Function.update kbi.regions kbi.regionCount r
      regionCount := kbi.regionCount + 1 }
  else kbi

/-- The region that an entry describes. -/
def readMmapEntry (mbi : Buf) (entry : ℕ) : MemoryRegion where
  start := UInt64.ofNat (getU64 mbi entry)
  size := UInt64.ofNat (getU64 mbi (entry + 8))
  type := UInt32.ofNat (getU32 mbi (entry + 16))

/-- `case MB2_TAG_MMAP` -/
def parseMmapTag (n : ℕ) (mbi : Buf) (tag : ℕ) (kbi : KernelBootInfo) : Option KernelBootInfo :=
  (loop (fun (p : ℕ × KernelBootInfo) =>
    if p.1 < tag + getU32 mbi (tag + 4) then
      some (p.1 + getU32 mbi (tag + 8), addRegion p.2 (readMmapEntry mbi p.1))
    else none) n (tag + 16, kbi)).map Prod.snd

/-- The loop over the tags. -/
def parseTags (mbi : Buf) : ℕ → ℕ → BootState → Option BootState
  | 0, _, _ => none
  | n + 1, tag, s =>
    if tag < getU32 mbi 0 then
      let next := tag + alignUp8 (getU32 mbi (tag + 4))
      match getU32 mbi tag with
      | 0 => some s
      | 1 => (parseCmdlineTag n mbi tag s).bind (parseTags mbi n next)
      | 3 => (parseModuleTag n mbi tag s).bind (parseTags mbi n next)
      | 6 =>
        (parseMmapTag n mbi tag s.kbi).bind fun kbi => parseTags mbi n next { s with kbi := kbi }
      | _ => parseTags mbi n next s
    else some s

/-- The `KernelBootInfo` at an address, with storage for the regions. -/
def loadKbi (mem : Buf) (p : ℕ) (regions : ℕ → MemoryRegion) : KernelBootInfo where
  cmdline := getU32 mem p
  modules := getU32 mem (p + 4)
  moduleCount := getU32 mem (p + 8)
  regionCount := getU32 mem (p + 12)
  regions := regions
  initrdStart := getU32 mem (p + 20)
  initrdSize := getU32 mem (p + 24)

def parseMultiboot2Early (e : Early) (regions : ℕ → MemoryRegion) (mbi : Buf) (n : ℕ) :
    Option BootState :=
  let (p, e) := earlyAlloc e 28
  parseTags mbi n 8 ⟨e, { loadKbi e.mem p regions with moduleCount := 0 }⟩

end Kabanos
