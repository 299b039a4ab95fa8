/-
  Address spaces: `va_allocation.c`, `vmspace.c`, `page_fault_handler.c`, `sys_sbrk.c` and
  `uaccess.c`.

  The small structures of an address space come from the kernel heap.  Where the code
  handles a failure of `kmalloc`, its outcome is an argument; the other allocations
  succeed.
-/
import Kabanos.Mm.Paging

namespace Kabanos

def kmappingBase : ℕ := 0xF0001000

/-! ## `va_allocation.c` -/

/-- One page of `va_alloc_region`. -/
def vaAllocPage (vm flags : ℕ) (m : Mm) (curr : ℕ) : Mm × Bool :=
  let (pmm, phys) := pmmFrameAlloc m.pmm
  if phys = 0 then ({ m with pmm := pmm }, false)
  else
    match halVmMap { m with pmm := pmm } vm curr phys flags with
    | (m, false) => ({ m with pmm := pmmFrameFree m.pmm phys }, false)
    | (m, true) => (m, true)

/-- The loop of `va_alloc_region` with `n` pages to go, and the page at which it fails. -/
def vaAllocLoop (vm flags : ℕ) : ℕ → ℕ → Mm → Mm × Option ℕ
  | 0, _, m => (m, none)
  | n + 1, curr, m =>
    match vaAllocPage vm flags m curr with
    | (m, false) => (m, some curr)
    | (m, true) => vaAllocLoop vm flags n (curr + 4096) m

/-- One page of the clean-up of `va_alloc_region`. -/
def vaCleanPage (vm : ℕ) (m : Mm) (clean : ℕ) : Mm :=
  let p := halVmVirtToPhys m vm clean
  let m := if p ≠ 0 then { m with pmm := pmmFrameFree m.pmm p } else m
  halVmUnmap m vm clean

/-- The clean-up of `va_alloc_region`: `n` pages from `start` on. -/
def vaClean (m : Mm) (vm start n : ℕ) : Mm :=
  (List.range n).foldl (fun m i => vaCleanPage vm m (start + i * 4096)) m

@[irreducible] def vaAllocRegion (m : Mm) (vm virtStart size flags : ℕ) : Mm × Bool :=
  let start := alignDown virtStart
  let stop := alignUp ((virtStart + size) % 2 ^ 32)
  match vaAllocLoop vm flags ((stop - start) / 4096) start m with
  | (m, none) => (m, true)
  | (m, some curr) => (vaClean m vm start ((curr - start) / 4096), false)

/-! ## `vmspace.c` -/

structure Vma where
  range : Range
  flags : ℕ

structure Vmspace where
  arch : ℕ
  vmaList : List Vma

/-- `VMA_READ`, `VMA_WRITE`, `VMA_USER`, `VMA_STACK` and `VMA_HEAP` -/
def vmaRead : ℕ := 0x1
def vmaWrite : ℕ := 0x2
def vmaUser : ℕ := 0x8
def vmaStack : ℕ := 0x10
def vmaHeap : ℕ := 0x80

/-- The vma that `vma_create` fills in. -/
def vmaOf (vaStart memSize flags : ℕ) : Vma := ⟨⟨vaStart, (vaStart + memSize) % 2 ^ 32⟩, flags⟩

def vmaCreate (kmalloc : Bool) (vaStart memSize flags : ℕ) : Option Vma :=
  if kmalloc then some (vmaOf vaStart memSize flags) else none

def vmspaceAddVma (vm : Vmspace) (vma : Vma) : Vmspace := { vm with vmaList := vma :: vm.vmaList }

/-- `vmspace_create`; `kernel` is the page directory of the kernel. -/
def vmspaceCreate (m : Mm) (kernel : ℕ) : Mm × Option Vmspace :=
  let (m, pd) := halVmEmptyArchVmCreate m
  if pd = 0 then (m, none) else (halVmArchCloneMapping m pd kernel, some ⟨pd, []⟩)

/-- `vmspace_clone`; the code goes on with a null pointer where this returns `none`. -/
def vmspaceClone (m : Mm) (kernel : ℕ) (original : Vmspace) : Mm × Option Vmspace :=
  match vmspaceCreate m kernel with
  | (m, none) => (m, none)
  | (m, some clone) =>
    let vmaList := original.vmaList.map fun vma =>
      vmaOf vma.range.start (sub32 vma.range.stop vma.range.start) vma.flags
    (halVmArchClone m clone.arch original.arch, some ⟨clone.arch, vmaList⟩)

def vmspaceDestroy (m : Mm) (kernel : ℕ) (vm : Vmspace) : Mm :=
  if vm.arch = kernel then m else halVmArchDestroy m vm.arch

def vmspaceFindVma (vm : Vmspace) (addr : ℕ) : Option Vma :=
  vm.vmaList.find? fun vma => vma.range.start ≤ addr && addr < vma.range.stop

/-- `PAGE_PRESENT | PAGE_READWRITE | PAGE_USER` -/
def userPageFlags : ℕ := 0x7

def vmspaceMapStack (kmalloc : Bool) (m : Mm) (vm : Vmspace) (stackTop size : ℕ) :
    Mm × Vmspace × Bool :=
  let stackStart := sub32 stackTop size
  match vmaCreate kmalloc stackStart size (vmaRead ||| vmaWrite ||| vmaUser ||| vmaStack) with
  | none => (m, vm, false)
  | some vma =>
    let r := vaAllocRegion m vm.arch stackStart size userPageFlags
    (r.1, vmspaceAddVma vm vma, r.2)

def vmspaceMapHeap (kmalloc : Bool) (m : Mm) (vm : Vmspace) (heapStart initialSize : ℕ) :
    Mm × Vmspace × Bool :=
  match vmaCreate kmalloc heapStart initialSize (vmaRead ||| vmaWrite ||| vmaUser ||| vmaHeap) with
  | none => (m, vm, false)
  | some vma =>
    let r := vaAllocRegion m vm.arch heapStart initialSize userPageFlags
    (r.1, vmspaceAddVma vm vma, r.2)

/-- `curr->flags & VMA_HEAP` -/
def Vma.isHeap (vma : Vma) : Bool := vma.flags.testBit 7

/-- Set the end of the first heap vma. -/
def setHeapEnd (stop : ℕ) : List Vma → List Vma
  | [] => []
  | vma :: l =>
    if vma.isHeap then { vma with range := ⟨vma.range.start, stop⟩ } :: l
    else vma :: setHeapEnd stop l

def vmspaceExtendHeap (m : Mm) (vm : Vmspace) (oldBrk newBrk : ℕ) : Mm × Vmspace × Bool :=
  if newBrk ≤ oldBrk then (m, vm, true)
  else if !vm.vmaList.any Vma.isHeap then (m, vm, false)
  else
    match vaAllocRegion m vm.arch oldBrk (newBrk - oldBrk) userPageFlags with
    | (m, false) => (m, vm, false)
    | (m, true) => (m, { vm with vmaList := setHeapEnd newBrk vm.vmaList }, true)

/-- The address space and the break of a `process_t`. -/
structure Proc where
  vmspace : Vmspace
  brk : ℕ

/-- `sys_sbrk`: the old break, `none` for `(uintptr_t)-1`. -/
def sysSbrk (m : Mm) (proc : Proc) (increment : ℤ) : Mm × Proc × Option ℕ :=
  let oldBrk := proc.brk
  if increment = 0 then (m, proc, some oldBrk)
  else
    let newBrk := ((oldBrk + increment) % 2 ^ 32).toNat
    let oldBrkAligned := alignUp oldBrk
    let newBrkAligned := alignUp newBrk
    if oldBrkAligned < newBrkAligned then
      match vmspaceExtendHeap m proc.vmspace oldBrkAligned newBrkAligned with
      | (m, vm, false) => (m, { proc with vmspace := vm }, none)
      | (m, vm, true) => (m, ⟨vm, newBrk⟩, some oldBrk)
    else (m, { proc with brk := newBrk }, some oldBrk)

/-! ## Copies into another address space -/

/-- The loop of `vmspace_copy_to`: `src k` is the byte at `src_vaddr + k`.  The page of the
    destination is mapped at `KMAPPING_BASE` of the current address space, and the bytes are
    written through that window.  The result says whether all pages were mapped. -/
def copyToLoop (curr dstVm : ℕ) (src : Buf) (m : Mm) (dst done remaining : ℕ) : Mm × Bool :=
  if _ : remaining = 0 then (m, true)
  else
    let offset := dst % 4096
    let toCopy := min (4096 - offset) remaining
    let dstPhys := halVmVirtToPhys m dstVm (alignDown dst)
    if dstPhys = 0 then (m, false)
    else
      let m := (halVmMap m curr kmappingBase dstPhys 0x2).1
      let window := halVmVirtToPhys m curr kmappingBase
      let m := { m with mem := memcpy m.mem (window + offset) src done toCopy }
      let m := halVmUnmap m curr kmappingBase
      copyToLoop curr dstVm src m ((dst + toCopy) % 2 ^ 32) (done + toCopy) (remaining - toCopy)
termination_by remaining
decreasing_by
  have : dst % 4096 < 4096 := Nat.mod_lt _ (by norm_num)
  omega

/-- `vmspace_copy_to`; `false` is `-EFAULT`. -/
def vmspaceCopyTo (m : Mm) (curr dstVm dst : ℕ) (src : Buf) (size : ℕ) : Mm × Bool :=
  copyToLoop curr dstVm src m dst 0 size

/-! ## Page faults -/

/-- `pf_handle` for a fault at `addr`: whether it returns without a panic. -/
def pfHandle (m : Mm) (vm : Vmspace) (addr : ℕ) (write present : Bool) : Mm × Bool :=
  match vmspaceFindVma vm addr with
  | none => (m, false)
  | some vma =>
    if write && !vma.flags.testBit 1 then (m, false)
    else
      match halVmmHandleCow m vm.arch addr with
      | (m, true) => (m, true)
      | (m, false) =>
        if present then (m, false)
        else
          let pageFlags := (if vma.flags.testBit 0 then 0x1 else 0) |||
            (if vma.flags.testBit 1 then 0x2 else 0) ||| (if vma.flags.testBit 3 then 0x4 else 0)
          vaAllocRegion m vm.arch (alignDown addr) 4096 pageFlags

end Kabanos
