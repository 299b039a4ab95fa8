/-
  The ELF loader: `elf32.c`.

  An image is a byte buffer with a size; what the buffer holds behind the size is what
  happens to be in memory there.

  `load_segment` asks `kmalloc` for the descriptor of the segment.  The objects of the kernel
  heap are values here, but the page that `kmalloc` may take for a new slab is a frame that it
  maps in the kernel half.
-/
import Kabanos.Mm.Vmspace

namespace Kabanos

/-- The fields of `elf32_header_t` that the loader reads. -/
structure ElfHeader where
  magic : Bool
  wordsize : ℕ
  endianness : ℕ
  type : ℕ
  instructionSet : ℕ
  programEntryPos : ℕ
  phdrTablePos : ℕ
  shdrTablePos : ℕ
  phdrTableEntrySize : ℕ
  phdrTableEntryCount : ℕ
  shdrTableEntryCount : ℕ
  sectionNamesIndex : ℕ

/-- The header at the start of an image; `magic` says whether it begins with `ELF_MAGIC`. -/
def elfHeader (image : Buf) : ElfHeader where
  magic := image 0 = 0x7F ∧ image 1 = 0x45 ∧ image 2 = 0x4C ∧ image 3 = 0x46
  wordsize := (image 4).toNat
  endianness := (image 5).toNat
  type := getU16 image 16
  instructionSet := getU16 image 18
  programEntryPos := getU32 image 24
  phdrTablePos := getU32 image 28
  shdrTablePos := getU32 image 32
  phdrTableEntrySize := getU16 image 42
  phdrTableEntryCount := getU16 image 44
  shdrTableEntryCount := getU16 image 48
  sectionNamesIndex := getU16 image 50

/-- `sizeof(elf32_header_t)` -/
def elfHeaderSize : ℕ := 52

/-- The fields of `elf32_prog_hdr` that the loader reads. -/
structure ProgHdr where
  type : ℕ
  off : ℕ
  vaddr : ℕ
  fileSize : ℕ
  memSize : ℕ
  flags : ℕ

/-- The program header at offset `pos`. -/
def progHdr (image : Buf) (pos : ℕ) : ProgHdr where
  type := getU32 image pos
  off := getU32 image (pos + 4)
  vaddr := getU32 image (pos + 8)
  fileSize := getU32 image (pos + 16)
  memSize := getU32 image (pos + 20)
  flags := getU32 image (pos + 24)

/-- Program header `i` of an image. -/
def phdr (image : Buf) (i : ℕ) : ProgHdr :=
  progHdr image ((elfHeader image).phdrTablePos + i * (elfHeader image).phdrTableEntrySize)

/-! ## The kernel heap -/

def kernelHeapStart : ℕ := 0xE0000000

/-- What `kmalloc` does for a small object: it fails, it finds a slab with room for the object, or
    it makes a slab, which then holds `contents`, on page `i` of the heap. -/
inductive Kmalloc
  | fails
  | slab
  | page (i : Fin 65536) (contents : Buf)

/-- `heap_page_alloc`, where page `i` of the heap is the free one: its address. -/
def heapPageAlloc (kernel : ℕ) (m : Mm) (i : Fin 65536) : Mm × Option ℕ :=
  let va := kernelHeapStart + i * 4096
  match vaAllocPage kernel 0x2 m va with
  | (m, false) => (m, none)
  | (m, true) => (m, some va)

/-- The effect of `kmalloc`, and whether it does not return `NULL`; `kernel` is the page directory
    of the kernel. -/
def Kmalloc.run (kernel : ℕ) (m : Mm) : Kmalloc → Mm × Bool
  | .fails => (m, false)
  | .slab => (m, true)
  | .page i contents =>
    match heapPageAlloc kernel m i with
    | (m, none) => (m, false)
    | (m, some va) =>
      ({ m with mem := memcpy m.mem (halVmVirtToPhys m kernel va) contents 0 4096 }, true)

/-! ## One segment -/

/-- The first page of a segment, `pages_start` -/
def pagesStart (vaStart : ℕ) : ℕ := alignDown vaStart

/-- The end of the pages of a segment, `pages_end` -/
def pagesEnd (vaStart memSize : ℕ) : ℕ := alignUp ((vaStart + memSize) % 2 ^ 32)

/-- One page of the copy loop of `load_segment`. -/
def loadPage (vm vaStart : ℕ) (fileData : Buf) (fileSize : ℕ) (m : Mm) (pageVa : ℕ) : Mm :=
  let phys := halVmVirtToPhys m vm pageVa
  let m := { m with mem := memset m.mem phys 0 4096 }
  let intersectStart := max pageVa vaStart
  let intersectEnd := min ((pageVa + 4096) % 2 ^ 32) ((vaStart + fileSize) % 2 ^ 32)
  if intersectStart < intersectEnd then
    let destOffset := intersectStart - pageVa
    let srcOffset := intersectStart - vaStart
    let bytesToCopy := intersectEnd - intersectStart
    { m with mem := memcpy m.mem (phys + destOffset) fileData srcOffset bytesToCopy }
  else m

/-- The copy loop of `load_segment` over `n` pages. -/
def loadPages (vm vaStart : ℕ) (fileData : Buf) (fileSize : ℕ) (m : Mm) (start n : ℕ) : Mm :=
  (List.range n).foldl
    (fun m i => loadPage vm vaStart fileData fileSize m (start + i * 4096)) m

def segmentFlags (flags : ℕ) : ℕ := 0x1 ||| 0x4 ||| (if flags.testBit 1 then 0x2 else 0)

def loadSegment (kernel : ℕ) (kmalloc : Kmalloc) (m : Mm) (vm : Vmspace) (vaStart memSize : ℕ)
    (fileData : Buf) (fileSize flags : ℕ) : Mm × Vmspace × Bool :=
  let start := pagesStart vaStart
  let stop := pagesEnd vaStart memSize
  let (m, ok) := kmalloc.run kernel m
  match vmaCreate ok vaStart memSize (flags ||| vmaUser) with
  | none => (m, vm, false)
  | some vma =>
    let r := vaAllocRegion m vm.arch start (sub32 stop start) (segmentFlags flags)
    if !r.2 then (r.1, vmspaceAddVma vm vma, false)
    else (loadPages vm.arch vaStart fileData fileSize r.1 start ((stop - start) / 4096),
      vmspaceAddVma vm vma, true)

/-! ## The image -/

/-- `ph->type != ELF_PROGRAM_TYPE_LOAD || ph->mem_size == 0` is false. -/
def ProgHdr.isLoad (ph : ProgHdr) : Bool := ph.type = 1 ∧ ph.memSize ≠ 0

/-- The body of the segment loop of `elf32_load`: whether to go on. -/
def loadPhdr (kernel : ℕ) (kmalloc : ℕ → Kmalloc) (image : Buf) (elfSize : ℕ) (m : Mm)
    (vm : Vmspace) (i : ℕ) : Mm × Vmspace × Bool :=
  let ph := phdr image i
  if !ph.isLoad then (m, vm, true)
  else if elfSize < ph.off ∨ elfSize < (ph.off + ph.fileSize) % 2 ^ 32 then (m, vm, false)
  else
    let flags := 0x4 ||| (if ph.flags.testBit 1 then 0x2 else 0)
    loadSegment kernel (kmalloc i) m vm ph.vaddr ph.memSize (fun j => image (ph.off + j))
      ph.fileSize flags

/-- The segment loop of `elf32_load` over the program headers `l`. -/
def loadPhdrs (kernel : ℕ) (kmalloc : ℕ → Kmalloc) (image : Buf) (elfSize : ℕ) :
    List ℕ → Mm → Vmspace → Mm × Vmspace × Bool
  | [], m, vm => (m, vm, true)
  | i :: l, m, vm =>
    let r := loadPhdr kernel kmalloc image elfSize m vm i
    if r.2.2 then loadPhdrs kernel kmalloc image elfSize l r.1 r.2.1 else r

/-- Whether the header is that of an executable for this machine. -/
def ElfHeader.valid (hdr : ElfHeader) : Bool :=
  hdr.magic ∧ hdr.wordsize = 1 ∧ hdr.endianness = 1 ∧ hdr.type = 2 ∧ hdr.instructionSet = 3

/-- `strcmp(name, ".text") == 0` for the string at `off` -/
def isTextName (image : Buf) (off : ℕ) : Bool :=
  image off = 0x2E ∧ image (off + 1) = 0x74 ∧ image (off + 2) = 0x65 ∧ image (off + 3) = 0x78 ∧
    image (off + 4) = 0x74 ∧ image (off + 5) = 0

/-- The address of the `.text` section, `0` if there is none: what `elf32_load` stores in
    `*text_base`. -/
def elfTextBase (image : Buf) : ℕ :=
  let hdr := elfHeader image
  let shdr := fun i => hdr.shdrTablePos + 40 * i
  let strtab := getU32 image (shdr hdr.sectionNamesIndex + 16)
  match (List.range hdr.shdrTableEntryCount).find? fun i =>
    isTextName image (strtab + getU32 image (shdr i)) with
  | some i => getU32 image (shdr i + 12)
  | none => 0

/-- `elf32_load`: the entry point and the base of `.text`, `none` for `-1`. -/
def elf32Load (kernel : ℕ) (kmalloc : ℕ → Kmalloc) (m : Mm) (vm : Vmspace) (image : Buf)
    (elfSize : ℕ) : Mm × Vmspace × Option (ℕ × ℕ) :=
  let hdr := elfHeader image
  if elfSize < elfHeaderSize then (m, vm, none)
  else if !hdr.valid then (m, vm, none)
  else
    let phdrSize := hdr.phdrTableEntryCount * hdr.phdrTableEntrySize
    if elfSize < hdr.phdrTablePos ∨ elfSize < (hdr.phdrTablePos + phdrSize) % 2 ^ 32 then
      (m, vm, none)
    else
      let r := loadPhdrs kernel kmalloc image elfSize (List.range hdr.phdrTableEntryCount) m vm
      if r.2.2 then (r.1, r.2.1, some (hdr.programEntryPos, elfTextBase image))
      else (r.1, r.2.1, none)

end Kabanos
