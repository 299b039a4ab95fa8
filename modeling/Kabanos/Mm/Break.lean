/-
  The break of a process over a sequence of `sys_sbrk` calls.

  A call that moves the break down leaves the pages above it mapped.  When the break moves up
  again they are given new frames.
-/
import Kabanos.Mm.Exec
import Kabanos.Mm.CopyTo

namespace Kabanos

/-- A process, and the highest page-aligned break it has had. -/
structure BreakRun where
  mm : Mm
  proc : Proc
  top : ℕ

/-- The page directory of the process. -/
def BreakRun.arch (s : BreakRun) : ℕ := s.proc.vmspace.arch

/-- A program with the heap that `sys_execve` set up. -/
def BreakRun.exec (kmalloc : Bool) (m : Mm) (vm : Vmspace) : BreakRun :=
  let r := execHeap kmalloc m vm
  ⟨r.1, r.2.1, userHeapStart + userHeapInitial⟩

/-- `sys_sbrk` of the process, or anything the rest of the system does to the machine. -/
inductive BreakCall
  | sbrk (increment : ℤ)
  | others (m : Mm)

def BreakCall.run : BreakCall → BreakRun → BreakRun
  | .sbrk increment, s =>
    let r := sysSbrk s.mm s.proc increment
    ⟨r.1, r.2.1, max s.top (alignUp r.2.1.brk)⟩
  | .others m, s => { s with mm := m }

/-- A page of the heap: it lies below the highest break. -/
def BreakRun.IsPage (s : BreakRun) (v : ℕ) : Prop := userHeapStart ≤ v * 4096 ∧ v * 4096 < s.top

/-- A successful call after which the break lies between the start of the heap and the stack. -/
structure BreakRun.Moves (s : BreakRun) (increment : ℤ) : Prop where
  some : (sysSbrk s.mm s.proc increment).2.2.isSome = true
  start : userHeapStart ≤ newBreak s.proc.brk increment
  stop : newBreak s.proc.brk increment ≤ userStackBottom

/-- The break does not reach another page, or it is at its highest page. -/
def BreakRun.AtTop (s : BreakRun) (increment : ℤ) : Prop :=
  alignUp (newBreak s.proc.brk increment) ≤ alignUp s.proc.brk ∨ alignUp s.proc.brk = s.top

/-- Calls move the break within its bounds and only extend the heap at its top.  The rest of the
    system keeps the address spaces in order and the pages of the heap mapped. -/
def BreakCall.Ok (k : ℕ) (s : BreakRun) : BreakCall → Prop
  | .sbrk increment => s.Moves increment ∧ s.AtTop increment
  | .others m => (∃ V, Spaces m k V ∧ s.arch ∈ V) ∧
      ∀ v, s.IsPage v → entry s.mm s.arch v ≠ 0 → entry m s.arch v ≠ 0

/-- **The heap from one state to a later one**: the pages below the break are mapped, and a page of
    the heap that was mapped has its frame still, and the bytes in it. -/
structure HeapKept (s s' : BreakRun) : Prop where
  mapped : ∀ v, userHeapStart ≤ v * 4096 → v * 4096 < s'.proc.brk → entry s'.mm s'.arch v ≠ 0
  frame : ∀ v, s.IsPage v → entry s.mm s.arch v ≠ 0 →
    pageOf (entry s'.mm s'.arch v) = pageOf (entry s.mm s.arch v)
  bytes : ∀ v, s.IsPage v → entry s.mm s.arch v ≠ 0 →
    SameFrame s.mm s'.mm (pageOf (entry s.mm s.arch v))

/-- What holds along a run. -/
structure BreakRun.Inv (k : ℕ) (s : BreakRun) : Prop where
  spaces : ∃ V, Spaces s.mm k V ∧ s.arch ∈ V
  start : userHeapStart ≤ s.proc.brk
  stop : s.proc.brk ≤ userStackBottom
  brk : alignUp s.proc.brk ≤ s.top
  aligned : s.top % 4096 = 0
  bound : s.top ≤ userStackBottom
  pages : ∀ v, s.IsPage v → entry s.mm s.arch v ≠ 0

section
variable {m : Mm} {k : ℕ} {V : Finset ℕ} {s s' : BreakRun} {increment : ℤ}

theorem sysSbrk_brk {proc : Proc} (hb : proc.brk < 2 ^ 32)
    (hs : (sysSbrk m proc increment).2.2.isSome) :
    (sysSbrk m proc increment).2.1.brk = newBreak proc.brk increment := by
  unfold sysSbrk at hs ⊢
  by_cases h0 : increment = 0
  · subst h0
    rw [if_pos rfl, newBreak]
    simp only
    omega
  rw [if_neg h0] at hs ⊢
  by_cases hlt : alignUp proc.brk < alignUp ((proc.brk + increment) % 2 ^ 32).toNat
  · simp only [if_pos hlt] at hs ⊢
    split at hs
    · cases hs
    · rfl
  · simp only [if_neg hlt]
    rfl

theorem alignUp_break {a : ℕ} (h : a ≤ userStackBottom) :
    a ≤ alignUp a ∧ alignUp a ≤ userStackBottom ∧ alignUp a % 4096 = 0 ∧ alignUp a < a + 4096 := by
  have e : userStackBottom = 0xBFFEF000 := rfl
  rw [e] at h ⊢
  rw [alignUp_eq (by omega)]
  omega

/-- **One call**: nothing happens to the machine, or the pages up to the new break are given. -/
theorem BreakRun.Inv.sbrk (h : s.Inv k) (hm : s.Moves increment) :
    (BreakCall.run (.sbrk increment) s).arch = s.arch ∧
    (BreakCall.run (.sbrk increment) s).proc.brk = newBreak s.proc.brk increment ∧
    (alignUp (newBreak s.proc.brk increment) ≤ alignUp s.proc.brk ∧
        (BreakCall.run (.sbrk increment) s).mm = s.mm ∨
      ∃ b n V, 0 < n ∧ b * 4096 = alignUp s.proc.brk ∧
        (b + n) * 4096 = alignUp (newBreak s.proc.brk increment) ∧ Spaces s.mm k V ∧ s.arch ∈ V ∧
        Backed (dirsOf k V) (procHome k) s.arch b s.mm n
          (BreakCall.run (.sbrk increment) s).mm) := by
  have hstack : userStackBottom = 0xBFFEF000 := rfl
  have hstop := h.stop
  have hbrk : (BreakCall.run (.sbrk increment) s).proc.brk = newBreak s.proc.brk increment :=
    sysSbrk_brk (by omega) hm.some
  obtain ⟨h1, h2⟩ := sysSbrk_spec (show sysSbrk s.mm s.proc increment = _ from rfl)
  refine ⟨h1, hbrk, ?_⟩
  rcases h2 with ⟨e, hle⟩ | ⟨hlt, e⟩
  · exact .inl ⟨hle hm.some, e⟩
  obtain ⟨V, hsp, hp⟩ := h.spaces
  obtain ⟨-, g2, g3, -⟩ := alignUp_break hm.stop
  obtain ⟨-, -, g7, -⟩ := alignUp_break hstop
  obtain ⟨b, hb⟩ : ∃ b, alignUp s.proc.brk = b * 4096 := ⟨alignUp s.proc.brk / 4096, by omega⟩
  obtain ⟨n, hn⟩ : ∃ n, alignUp (newBreak s.proc.brk increment) = (b + n) * 4096 :=
    ⟨(alignUp (newBreak s.proc.brk increment) - alignUp s.proc.brk) / 4096, by omega⟩
  have hsub : (b + n) * 4096 - b * 4096 = n * 4096 := by omega
  rw [hm.some, hb, hn, hsub] at e
  have ht := vaAllocRegion_true hsp.tables (mem_dirsOf hp) (fun i hi => hsp.toDirs.slot hp hi)
    (b := b) (n := n) (by omega) (by rw [← BreakRun.arch] at e; rw [e])
  rw [← BreakRun.arch] at e
  rw [e] at ht
  exact .inr ⟨b, n, V, by omega, hb.symm, hn.symm, hsp, hp, ht⟩

/-- **A call keeps the heap** just when it extends it at its top. -/
theorem BreakRun.Inv.kept_iff (h : s.Inv k) (hm : s.Moves increment) :
    HeapKept s (BreakCall.run (.sbrk increment) s) ↔ s.AtTop increment := by
  obtain ⟨harch, hbrk, hcase⟩ := h.sbrk hm
  obtain ⟨a1, -, -, -⟩ := alignUp_break hm.stop
  have hstack : userStackBottom = 0xBFFEF000 := rfl
  have hheap : userHeapStart = 0x20000000 := rfl
  have hbound := h.bound
  have htop := h.brk
  rcases hcase with ⟨hle, hmm⟩ | ⟨b, n, V, hn, hb, hbn, hsp, hp, hbk⟩
  · -- the machine is as before
    refine iff_of_true ⟨fun v h1 h2 => ?_, fun v _ _ => ?_, fun v _ _ => ?_⟩ (.inl hle)
    · rw [harch, hmm]
      rw [hbrk] at h2
      exact h.pages v ⟨h1, by omega⟩
    · rw [harch, hmm]
    · rw [hmm]; exact .refl _ _
  have hlim := h.aligned
  have hp' : s.arch ∈ dirsOf k V := mem_dirsOf hp
  have hold : ∀ v < 2 ^ 20, v < b → entry (BreakCall.run (.sbrk increment) s).mm s.arch v =
      entry s.mm s.arch v := fun v hv hvb => hbk.rest s.arch hp' v hv fun e => by omega
  obtain ⟨-, a2, -, -⟩ := alignUp_break hm.stop
  have huser : ∀ {v}, v * 4096 < userStackBottom → v < userPages := fun hv => by
    rw [userPages]; omega
  constructor
  · intro hk
    refine .inr (le_antisymm htop ?_)
    by_contra hlt
    -- the page at the old break is mapped, and gets another frame
    have hpg : s.IsPage b := ⟨by have := h.start; have := alignUp_break h.stop; omega, by omega⟩
    have hne := h.pages b hpg
    have hheld := (hsp.data s.arch hp b (huser (by omega)) hne).1
    have hfr := hbk.fresh 0 hn
    have he := hk.frame b hpg hne
    rw [Nat.add_zero, ← harch, he] at hfr
    exact hfr hheld
  · rintro (hle | hat)
    · omega
    have hbelow : ∀ v, s.IsPage v → v < b := fun v hv => by have := hv.2; omega
    refine ⟨fun v h1 h2 => ?_, fun v hv hne => ?_, fun v hv hne => ?_⟩
    · rw [hbrk] at h2
      rw [harch]
      by_cases hvb : v < b
      · rw [hold v (by omega) hvb]
        exact h.pages v ⟨h1, by omega⟩
      · obtain ⟨j, rfl⟩ := Nat.exists_eq_add_of_le (not_lt.1 hvb)
        exact hbk.mapped j (by omega)
    · have := hv.2
      rw [harch, hold v (by omega) (hbelow v hv)]
    · have := hv.2
      obtain ⟨h1, h2⟩ := hsp.data s.arch hp v (huser (by omega)) hne
      exact hbk.bytes _ h1 h2

theorem BreakRun.Inv.step (h : s.Inv k) {c : BreakCall} (hc : c.Ok k s) : (c.run s).Inv k := by
  cases c with
  | others m => exact ⟨hc.1, h.start, h.stop, h.brk, h.aligned, h.bound, fun v hv =>
      hc.2 v hv (h.pages v hv)⟩
  | sbrk increment =>
    obtain ⟨hm, hat⟩ := hc
    obtain ⟨harch, hbrk, hcase⟩ := h.sbrk hm
    obtain ⟨a1, a2, a3, -⟩ := alignUp_break hm.stop
    have htop : (BreakCall.run (.sbrk increment) s).top =
        max s.top (alignUp (newBreak s.proc.brk increment)) := by rw [← hbrk]; rfl
    have hbound := h.bound
    have haligned := h.aligned
    have hold := h.brk
    have hkept := (h.kept_iff hm).2 hat
    refine ⟨?_, hbrk ▸ hm.start, hbrk ▸ hm.stop, ?_, ?_, ?_, fun v hv => ?_⟩
    · rw [harch]
      rcases hcase with ⟨-, hmm⟩ | ⟨b, n, V, -, -, -, hsp, hp, hbk⟩
      · rw [hmm]; exact h.spaces
      · exact ⟨V, hbk.spaces hsp hp, hp⟩
    · rw [hbrk, htop]; exact le_max_right ..
    · rw [htop]; omega
    · rw [htop]; omega
    · obtain ⟨h1, h2⟩ := hv
      rw [htop] at h2
      rcases hcase with ⟨hle, hmm⟩ | ⟨b, n, V, hn, hb, hbn, hsp, hp, hbk⟩
      · rw [harch, hmm]
        exact h.pages v ⟨h1, by omega⟩
      rcases lt_or_ge v b with hvb | hvb
      · have hstack : userStackBottom = 0xBFFEF000 := rfl
        rw [harch, hbk.rest s.arch (mem_dirsOf hp) v (by omega) fun e => by omega]
        exact h.pages v ⟨h1, by omega⟩
      · obtain ⟨j, rfl⟩ := Nat.exists_eq_add_of_le hvb
        rw [harch]
        refine hbk.mapped j ?_
        rcases hat with hle | hat <;> omega

theorem BreakRun.exec_inv (h : Spaces m k V) {vm : Vmspace} (hp : vm.arch ∈ V) {kmalloc : Bool}
    (hok : (execHeap kmalloc m vm).2.2) : (BreakRun.exec kmalloc m vm).Inv k := by
  have harch : (BreakRun.exec kmalloc m vm).arch = vm.arch ∧
      vaAllocRegion m vm.arch userHeapStart userHeapInitial userPageFlags =
        ((BreakRun.exec kmalloc m vm).mm, true) := by
    unfold execHeap vmspaceMapHeap at hok
    cases kmalloc with
    | false => cases hok
    | true => exact ⟨rfl, Prod.ext rfl hok⟩
  obtain ⟨harch, e⟩ := harch
  have hok : (vaAllocRegion m vm.arch (0x20000 * 4096) (1 * 4096) userPageFlags).2 := by
    rw [show 0x20000 * 4096 = userHeapStart from rfl, show 1 * 4096 = userHeapInitial from rfl, e]
  have ht := vaAllocRegion_true h.tables (mem_dirsOf hp) (fun i hi => h.toDirs.slot hp hi)
    (by norm_num) hok
  rw [show 0x20000 * 4096 = userHeapStart from rfl,
    show 1 * 4096 = userHeapInitial from rfl, e] at ht
  have hbrk : (BreakRun.exec kmalloc m vm).proc.brk = userHeapStart + userHeapInitial := rfl
  have htop : (BreakRun.exec kmalloc m vm).top = userHeapStart + userHeapInitial := rfl
  refine ⟨⟨V, ht.spaces h hp, by rw [harch]; exact hp⟩, ?_, ?_, ?_, ?_, ?_, fun v hv => ?_⟩
  · rw [hbrk]; decide
  · rw [hbrk]; decide
  · rw [hbrk, htop]; decide
  · rw [htop]; decide
  · rw [htop]; decide
  · have h1 : 0x20000000 ≤ v * 4096 := hv.1
    have h2 : v * 4096 < 0x20001000 := hv.2
    have hv' : v = 0x20000 + 0 := by omega
    rw [harch, hv']
    exact ht.mapped 0 (by norm_num)

/-- **The break.**  Take a program whose heap was set up, and calls of `sys_sbrk` that extend its
    heap at its top only, whatever else happens in between.  Then a further call within the bounds
    leaves all pages below the break mapped and the pages of the heap as they were, just when it
    extends the heap at its top, too. -/
theorem sbrk_keeps_heap_iff (h : Spaces m k V) {vm : Vmspace} (hp : vm.arch ∈ V) {kmalloc : Bool}
    (hok : (execHeap kmalloc m vm).2.2 = true)
    (hr : Runs BreakCall.run (BreakCall.Ok k) (BreakRun.exec kmalloc m vm) s)
    (hm : s.Moves increment) :
    HeapKept s (BreakCall.run (.sbrk increment) s) ↔ s.AtTop increment := by
  have hinv : s.Inv k := hr.invariant (I := BreakRun.Inv k) (fun _ _ h hc => h.step hc)
    (BreakRun.exec_inv h hp hok)
  exact hinv.kept_iff hm

/-- A new program in a new address space. -/
def demoHeap : BreakRun := .exec true (vmspaceCreate (bootMm 0 0) 0x1000).1 ⟨0x102000, []⟩

def demoUp : BreakRun := BreakCall.run (.sbrk 4096) demoHeap

/-- The break goes up a page and then up by 5000 bytes. -/
theorem sbrk_keeps_grown_heap : HeapKept demoUp (BreakCall.run (.sbrk 5000) demoUp) := by
  have hc : (vmspaceCreate (bootMm 0 0) 0x1000).2.map Vmspace.arch = some 0x102000 := by
    decide +kernel
  have hsp := bootMm_closed.toSpaces.created (bootMm_closed.toDirs.created hc)
  have hp : (Vmspace.mk 0x102000 []).arch ∈ insert 0x102000 (∅ : Finset ℕ) :=
    Finset.mem_insert_self ..
  have hok : (execHeap true (vmspaceCreate (bootMm 0 0) 0x1000).1 ⟨0x102000, []⟩).2.2 = true := by
    decide +kernel
  have hr : Runs BreakCall.run (BreakCall.Ok 0x1000) demoHeap demoUp := by
    refine .single ⟨.sbrk 4096, ⟨⟨?_, ?_, ?_⟩, .inr ?_⟩, rfl⟩ <;> decide +kernel
  refine (sbrk_keeps_heap_iff hsp hp hok hr ⟨?_, ?_, ?_⟩).2 (.inr ?_) <;> decide +kernel

/-- The break goes up a page, down a page and up again. -/
def demoDown : BreakRun := BreakCall.run (.sbrk (-4096)) demoUp
def demoAgain : BreakRun := BreakCall.run (.sbrk 4096) demoDown

/-- The third call moves the page to another frame. -/
theorem sbrk_remaps_page :
    (demoHeap.proc.brk, demoUp.proc.brk, demoDown.proc.brk, demoAgain.proc.brk) =
      (0x20001000, 0x20002000, 0x20001000, 0x20002000) ∧
    (sysSbrk demoHeap.mm demoHeap.proc 4096).2.2 = some 0x20001000 ∧
    (sysSbrk demoUp.mm demoUp.proc (-4096)).2.2 = some 0x20002000 ∧
    (sysSbrk demoDown.mm demoDown.proc 4096).2.2 = some 0x20001000 ∧
    halVmVirtToPhys demoUp.mm demoUp.arch 0x20001000 = 0x105000 ∧
    halVmVirtToPhys demoDown.mm demoDown.arch 0x20001000 = 0x105000 ∧
    halVmVirtToPhys demoAgain.mm demoAgain.arch 0x20001000 = 0x106000 := by
  refine ⟨?_, ?_, ?_, ?_, ?_, ?_, ?_⟩ <;> decide +kernel

end

end Kabanos
