/-
  The user half of a new program: where `sys_exec.c` puts its stack, and the heap that it sets up.
-/
import Kabanos.Mm.Vmspace

namespace Kabanos

/-- `USER_STACK_TOP`, `USER_STACK_SIZE` and `USER_STACK_BOTTOM` -/
def userStackTop : ℕ := 0xBFFFF000
def userStackSize : ℕ := 0x10000
def userStackBottom : ℕ := userStackTop - userStackSize

/-- `USER_HEAP_START` and `USER_HEAP_INITIAL` -/
def userHeapStart : ℕ := 0x20000000
def userHeapInitial : ℕ := 0x1000

/-- The heap in `sys_execve`; nobody looks at the result of `vmspace_map_heap`. -/
def execHeap (kmalloc : Bool) (m : Mm) (vm : Vmspace) : Mm × Proc × Bool :=
  match vmspaceMapHeap kmalloc m vm userHeapStart userHeapInitial with
  | (m, vm, ok) => (m, ⟨vm, userHeapStart + userHeapInitial⟩, ok)

end Kabanos
