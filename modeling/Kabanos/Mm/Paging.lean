/-
  Two-level paging: `arch/i686/hal_vmm.c`.

  Physical memory is one byte buffer, and a page directory or page table is a frame of
  1024 little-endian words in it.  The kernel reaches a frame through the mapping of all
  of physical memory at `KERNEL_BASE`, so a pointer `phys + KERNEL_BASE` is the physical
  address `phys` here; that is what the code does as long as nobody changes this direct map
  (`InDirectMap`).  An `arch_vm_t` is the physical address of its page directory.
-/
import Kabanos.Mm.Pmm

namespace Kabanos

/-- Physical memory and its allocator. -/
structure Mm where
  pmm : Pmm
  mem : Buf

/-- `t[i]` for the table in frame `t` -/
def word (m : Mm) (t i : ℕ) : ℕ := getU32 m.mem (t + 4 * i)

/-- `t[i] = w` -/
def setWord (m : Mm) (t i w : ℕ) : Mm := { m with mem := putU32 m.mem (t + 4 * i) w }

def kernelBase : ℕ := 0xC0000000

/-- The address belongs to the direct map of the physical memory. -/
def InDirectMap (m : Mm) (va : ℕ) : Prop :=
  kernelBase + m.pmm.memoryRange.start ≤ va ∧ va < kernelBase + m.pmm.memoryRange.stop

def kernelPdStart : ℕ := 768

/-- `w & ARCH_PD_PT_PRESENT` -/
def isPresent (w : ℕ) : Bool := w.testBit 0

/-- `w & ARCH_PD_PT_READWRITE` -/
def isReadWrite (w : ℕ) : Bool := w.testBit 1

/-- `w & ARCH_PD_PT_USER` -/
def isUser (w : ℕ) : Bool := w.testBit 2

/-- `w & PT_COW` -/
def isCow (w : ℕ) : Bool := w.testBit 9

/-- `w & ~0xFFF` -/
def pageOf (w : ℕ) : ℕ := w / 4096 * 4096

def getPdIndex (va : ℕ) : ℕ := va / 2 ^ 22

def getPtIndex (va : ℕ) : ℕ := va / 4096 % 1024

def publicFlagsToArchFlags (flags : ℕ) : ℕ :=
  (if flags.testBit 0 then 0x1 else 0) ||| (if flags.testBit 1 then 0x2 else 0) |||
    (if flags.testBit 2 then 0x4 else 0)

def halVmVirtToPhys (m : Mm) (vm va : ℕ) : ℕ :=
  let pde := word m vm (getPdIndex va)
  if !isPresent pde then 0
  else
    let pte := word m (pageOf pde) (getPtIndex va)
    if !isPresent pte then 0 else pageOf pte + va % 4096

/-! ## Page tables -/

def allocatePageTable (m : Mm) : Mm × ℕ :=
  let (pmm, ptPhys) := pmmFrameAlloc m.pmm
  if ptPhys = 0 then ({ m with pmm := pmm }, 0)
  else (⟨pmm, memset m.mem ptPhys 0 4096⟩, ptPhys)

/-- `get_or_create_page_table`; no caller reads the flag `created`. -/
def getOrCreatePageTable (m : Mm) (pd pdIndex archFlags : ℕ) : Mm × ℕ :=
  if isPresent (word m pd pdIndex) then (m, pageOf (word m pd pdIndex))
  else
    let (m, ptPhys) := allocatePageTable m
    if ptPhys = 0 then (m, 0)
    else (setWord m pd pdIndex (ptPhys ||| 0x1 ||| 0x2 ||| (archFlags &&& 0x4)), ptPhys)

/-- The entry that maps the page at `pa`. -/
def makePte (pa archFlags : ℕ) : ℕ := pa ||| (archFlags &&& 0xFFF) ||| 0x1

def fillPageTableEntries (m : Mm) (pt startIndex count paBase archFlags : ℕ) : Mm :=
  (List.range count).foldl (fun m i =>
    setWord m pt (startIndex + i) (makePte ((paBase + i * 4096) % 2 ^ 32) archFlags)) m

def mapPageTableRange (m : Mm) (pd pdIndex ptIndex pageCount pa archFlags : ℕ) : Mm × Bool :=
  let (m, ptPhys) := getOrCreatePageTable m pd pdIndex archFlags
  if ptPhys = 0 then (m, false)
  else (fillPageTableEntries m ptPhys ptIndex pageCount pa archFlags, true)

def clearPageTableEntries (m : Mm) (pt startIndex count : ℕ) : Mm :=
  (List.range count).foldl (fun m i =>
    if isPresent (word m pt (startIndex + i)) then setWord m pt (startIndex + i) 0 else m) m

/-- `unmap_page_table_range`; a whole table goes back to the allocator. -/
def unmapPageTableRange (m : Mm) (pd pdIndex ptIndex pageCount : ℕ) : Mm :=
  if !isPresent (word m pd pdIndex) then m
  else
    let ptPhys := pageOf (word m pd pdIndex)
    let m := clearPageTableEntries m ptPhys ptIndex pageCount
    if ptIndex = 0 ∧ pageCount = 1024 then
      setWord { m with pmm := pmmFrameFree m.pmm ptPhys } pd pdIndex 0
    else m

/-! ## Ranges -/

/-- The loop of `hal_vm_map_range` with `n` pages to go: a chunk ends where its page table
    does. -/
def mapLoop (m : Mm) (vm va pa n archFlags : ℕ) : Mm × Bool :=
  if _ : n = 0 then (m, true)
  else
    let pageCount := min (1024 - getPtIndex va) n
    match mapPageTableRange m vm (getPdIndex va) (getPtIndex va) pageCount pa archFlags with
    | (m, false) => (m, false)
    | (m, true) =>
      mapLoop m vm (va + pageCount * 4096) ((pa + pageCount * 4096) % 2 ^ 32) (n - pageCount)
        archFlags
termination_by n
decreasing_by
  have : getPtIndex va < 1024 := Nat.mod_lt _ (by norm_num)
  omega

/-- `hal_vm_map_range`, on page-aligned arguments. -/
def halVmMapRange (m : Mm) (vm paStart vaStart size publicFlags : ℕ) : Mm × Bool :=
  if size = 0 then (m, true)
  else
    let vaEnd := (vaStart + size) % 2 ^ 32
    mapLoop m vm vaStart paStart ((vaEnd - vaStart) / 4096) (publicFlagsToArchFlags publicFlags)

/-- The loop of `hal_vm_unmap_range`. -/
def unmapLoop (m : Mm) (vm va n : ℕ) : Mm :=
  if _ : n = 0 then m
  else
    let pageCount := min (1024 - getPtIndex va) n
    unmapLoop (unmapPageTableRange m vm (getPdIndex va) (getPtIndex va) pageCount) vm
      (va + pageCount * 4096) (n - pageCount)
termination_by n
decreasing_by
  have : getPtIndex va < 1024 := Nat.mod_lt _ (by norm_num)
  omega

/-- `hal_vm_unmap_range`, on page-aligned arguments; it always returns `true`. -/
def halVmUnmapRange (m : Mm) (vm vaStart size : ℕ) : Mm :=
  if size = 0 then m
  else
    let vaEnd := (vaStart + size) % 2 ^ 32
    unmapLoop m vm vaStart ((vaEnd - vaStart) / 4096)

def halVmMap (m : Mm) (vm va pa publicFlags : ℕ) : Mm × Bool :=
  halVmMapRange m vm pa va 4096 publicFlags

def halVmUnmap (m : Mm) (vm va : ℕ) : Mm := halVmUnmapRange m vm va 4096

/-! ## Page directories -/

/-- `hal_vm_empty_arch_vm_create`: the new directory, `0` if there is no memory. -/
def halVmEmptyArchVmCreate (m : Mm) : Mm × ℕ := allocatePageTable m

/-- `hal_vm_prealloc_kernel_tables`; the flag says whether it did not panic. -/
def halVmPreallocKernelTables (m : Mm) (vm : ℕ) : Mm × Bool :=
  (List.range' kernelPdStart (1024 - kernelPdStart)).foldl (fun r pdIndex =>
    if r.2 then
      let (m, ptPhys) := getOrCreatePageTable r.1 vm pdIndex 0
      (m, ptPhys ≠ 0)
    else r) (m, true)

/-- `get_pte_ptr`: the table and the index in it. -/
def getPtePtr (m : Mm) (vm va : ℕ) : Option (ℕ × ℕ) :=
  let pde := word m vm (getPdIndex va)
  if !isPresent pde then none else some (pageOf pde, getPtIndex va)

def physCopy (m : Mm) (dst src : ℕ) : Mm := { m with mem := memcpy m.mem dst m.mem src 4096 }

/-- `w & ~PT_COW` -/
def clearCow (w : ℕ) : ℕ := w &&& 0xFFFFFDFF

/-- `w & ~ARCH_PD_PT_READWRITE` -/
def clearReadWrite (w : ℕ) : ℕ := w &&& 0xFFFFFFFD

def halVmmHandleCow (m : Mm) (vm addr : ℕ) : Mm × Bool :=
  match getPtePtr m vm addr with
  | none => (m, false)
  | some (pt, i) =>
    if !isCow (word m pt i) then (m, false)
    else
      let oldPhys := pageOf (word m pt i)
      let m := { m with pmm := pmmFrameRefcountInc m.pmm oldPhys }
      if 1 < pmmFrameRefcountGet m.pmm oldPhys then
        let (pmm, newPhys) := pmmFrameAlloc m.pmm
        let m := physCopy { m with pmm := pmm } newPhys oldPhys
        let m := setWord m pt i (newPhys ||| (word m pt i &&& 0xFFF) ||| 0x2)
        let m := setWord m pt i (clearCow (word m pt i))
        ({ m with pmm := pmmFrameFree m.pmm oldPhys }, true)
      else
        let m := setWord m pt i (word m pt i ||| 0x2)
        (setWord m pt i (clearCow (word m pt i)), true)

def halVmArchDestroy (m : Mm) (vm : ℕ) : Mm :=
  let m := (List.range kernelPdStart).foldl (fun m i =>
    if isPresent (word m vm i) then
      { m with pmm := pmmFrameFree m.pmm (pageOf (word m vm i)) }
    else m) m
  { m with pmm := pmmFrameFree m.pmm vm }

/-- One entry of `hal_vmm_set_cow`: share the page, and make it read-only if it is
    writable. -/
def setCowEntry (m : Mm) (pt j : ℕ) : Mm :=
  if !isPresent (word m pt j) then m
  else
    let m :=
      if isReadWrite (word m pt j) then
        let m := setWord m pt j (word m pt j ||| 0x200)
        setWord m pt j (clearReadWrite (word m pt j))
      else m
    { m with pmm := pmmFrameRefcountInc m.pmm (pageOf (word m pt j)) }

def halVmmSetCow (m : Mm) (vm : ℕ) : Mm :=
  (List.range kernelPdStart).foldl (fun m i =>
    if !isPresent (word m vm i) then m
    else
      let pt := pageOf (word m vm i)
      (List.range 1024).foldl (fun m j => setCowEntry m pt j) m) m

def halVmArchCloneMapping (m : Mm) (dst src : ℕ) : Mm :=
  { m with mem := memcpy m.mem dst m.mem src 4096 }

/-- One page table of `hal_vm_arch_clone`; the frame for the copy is not checked. -/
def cloneTable (m : Mm) (dst src i : ℕ) : Mm :=
  if isPresent (word m src i) then
    let (pmm, newPt) := pmmFrameAlloc m.pmm
    let m := physCopy { m with pmm := pmm } newPt (pageOf (word m src i))
    setWord m dst i (newPt ||| (word m src i &&& 0xFFF))
  else m

def halVmArchClone (m : Mm) (dst src : ℕ) : Mm :=
  let m := halVmmSetCow m src
  let m := (List.range kernelPdStart).foldl (fun m i => cloneTable m dst src i) m
  let off := 4 * kernelPdStart
  { m with mem := memcpy m.mem (dst + off) m.mem (src + off) ((1024 - kernelPdStart) * 4) }

end Kabanos
