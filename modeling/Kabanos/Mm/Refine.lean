/-
  Page tables refine a finite map.

  Any number of address spaces is created, and ranges of the user half are mapped and
  unmapped in them in any order.  Next to the page tables we keep what they stand for:
  the physical page of each mapped page of each address space.
-/
import Kabanos.Mm.Map

namespace Kabanos

/-- The machine, the address spaces, and the physical page of each mapped page. -/
structure VmRun where
  mm : Mm
  vms : Finset ℕ
  pages : ℕ → ℕ → Option ℕ

/-- A call on the page tables. -/
inductive VmCall
  | create
  | map (vm pa va size flags : ℕ)
  | unmap (vm va size : ℕ)

/-- Page `v` lies in the range. -/
def Covers (va size v : ℕ) : Prop := va ≤ v * 4096 ∧ v * 4096 < va + size

instance (va size v : ℕ) : Decidable (Covers va size v) := instDecidableAnd

def VmCall.run : VmCall → VmRun → VmRun
  | .create, s =>
    let (mm, vm) := halVmEmptyArchVmCreate s.mm
    if vm = 0 then ⟨mm, s.vms, s.pages⟩
    else ⟨mm, insert vm s.vms, Function.update s.pages vm fun _ => none⟩
  | .map vm pa va size flags, s =>
    ⟨(halVmMapRange s.mm vm pa va size flags).1, s.vms, fun q v =>
      if q = vm ∧ Covers va size v then some ((pa + (v * 4096 - va)) % 2 ^ 32) else s.pages q v⟩
  | .unmap vm va size, s =>
    ⟨halVmUnmapRange s.mm vm va size, s.vms, fun q v =>
      if q = vm ∧ Covers va size v then none else s.pages q v⟩

/-- A page-aligned range of the user half. -/
structure UserRange (va size : ℕ) : Prop where
  start : va % 4096 = 0
  len : size % 4096 = 0
  le : va + size ≤ kernelBase

/-- Ranges are page-aligned and in the user half, and a map call succeeds. -/
def VmCall.Ok (s : VmRun) : VmCall → Prop
  | .create => True
  | .map vm pa va size flags => vm ∈ s.vms ∧ UserRange va size ∧ pa % 4096 = 0 ∧
      (halVmMapRange s.mm vm pa va size flags).2 = true
  | .unmap vm va size => vm ∈ s.vms ∧ UserRange va size

/-- The address space a call works on. -/
def VmCall.On (vm : ℕ) : VmCall → Prop
  | .create => False
  | .map vm' .. => vm = vm'
  | .unmap vm' .. => vm = vm'

/-- No slot is shared. -/
def ownHome (p _ : ℕ) : ℕ := p

/-- Entry `e` maps the physical page. -/
def Maps (e : ℕ) : Option ℕ → Prop
  | none => e = 0
  | some pa => e ≠ 0 ∧ pageOf e = pa

/-- The page tables stand for the map. -/
structure VmRun.Inv (s : VmRun) : Prop where
  tables : Tables s.mm s.vms ownHome
  pages : ∀ p ∈ s.vms, ∀ v < 2 ^ 20, Maps (entry s.mm p v) (s.pages p v)

section
variable {s : VmRun} {va size v : ℕ}

theorem sole_ownHome {D : Set ℕ} (p i : ℕ) : Sole D ownHome p i := ⟨rfl, fun _ _ => id⟩

theorem UserRange.pages (h : UserRange va size) : ∃ b n, va = b * 4096 ∧ size = n * 4096 ∧
    b + n ≤ 768 * 1024 ∧ ((va + size) % 2 ^ 32 - va) / 4096 = n := by
  obtain ⟨h1, h2, h3⟩ := h
  rw [kernelBase] at h3
  exact ⟨va / 4096, size / 4096, by omega, by omega, by omega, by omega⟩

theorem covers_pages (b n v : ℕ) : Covers (b * 4096) (n * 4096) v ↔ b ≤ v ∧ v < b + n := by
  unfold Covers; omega

theorem emptyArchVmCreate_cases (m : Mm) : halVmEmptyArchVmCreate m = (m, 0) ∨ ∃ pmm t,
      halVmEmptyArchVmCreate m = (⟨pmm, memset m.mem t 0 4096⟩, t) ∧ Taken m.pmm pmm t :=
  allocatePageTable_cases m

theorem VmRun.Inv.create (h : s.Inv) : (VmCall.run .create s).Inv := by
  simp only [VmCall.run]
  rcases emptyArchVmCreate_cases s.mm with e | ⟨pmm, t, e, ht⟩ <;> rw [e]
  · rw [if_pos rfl]; exact h
  have hz : ∀ i < 1024, word ⟨pmm, memset s.mm.mem t 0 4096⟩ t i = 0 := fun i hi =>
    getU32_zero fun a h1 h2 => if_pos (by omega)
  obtain ⟨h1, h2, h3⟩ := h.tables.add_dir ht (fun a ha => if_neg ha)
    (fun i hi _ => show isPresent (word ⟨pmm, memset s.mm.mem t 0 4096⟩ t i) = false by
      rw [hz i hi]; rfl) fun i _ hn => absurd rfl hn
  rw [if_neg ht.frame.ne_zero]
  refine ⟨by rw [Finset.coe_insert]; exact h1, fun p hp v hv => ?_⟩
  by_cases hpt : p = t
  · subst hpt
    simp only [Function.update_self]
    exact (h3 v hv).trans (if_pos rfl)
  · have hp' := (Finset.mem_insert.1 hp).resolve_left hpt
    simp only [Function.update_of_ne hpt, h2 p hp' v hv]
    exact h.pages p hp' v hv

theorem VmRun.Inv.mapRange (h : s.Inv) {vm pa flags : ℕ}
    (hc : VmCall.Ok s (.map vm pa va size flags)) :
    Tables (halVmMapRange s.mm vm pa va size flags).1 s.vms ownHome ∧
      ∀ q ∈ s.vms, ∀ v < 2 ^ 20, entry (halVmMapRange s.mm vm pa va size flags).1 q v =
        if q = vm ∧ Covers va size v then
          makePte ((pa + (v * 4096 - va)) % 2 ^ 32) (publicFlagsToArchFlags flags)
        else entry s.mm q v := by
  obtain ⟨hvm, hr, hpa, hok⟩ := hc
  obtain ⟨b, n, rfl, rfl, hbn, en⟩ := hr.pages
  by_cases h0 : n = 0
  · subst h0
    simp only [halVmMapRange, Nat.zero_mul, if_true]
    refine ⟨h.tables, fun q _ v _ => (if_neg fun e => ?_).symm⟩
    have := e.2
    unfold Covers at this; omega
  have hn : ¬ n * 4096 = 0 := by omega
  simp only [halVmMapRange, if_neg hn, en] at hok ⊢
  obtain ⟨m', r, e, k1, k3, k4⟩ := mapLoop_spec hvm (publicFlagsToArchFlags flags) n b pa s.mm
    h.tables hpa (by omega) fun v _ _ => .inl (sole_ownHome vm _)
  rw [e] at hok ⊢
  refine ⟨k1, fun q hq v hv => ?_⟩
  by_cases hcov : Covers (b * 4096) (n * 4096) v
  · obtain ⟨h1, h2⟩ := (covers_pages b n v).1 hcov
    have e2 : v * 4096 - b * 4096 = (v - b) * 4096 := by omega
    rw [k4 hok q hq v h1 h2]
    by_cases hq2 : q = vm
    · rw [if_pos (show ownHome q _ = ownHome vm _ from hq2), if_pos ⟨hq2, hcov⟩, e2]
    · rw [if_neg (show ¬ ownHome q _ = ownHome vm _ from hq2), if_neg fun e => hq2 e.1]
  · rw [k3 q hq v hv fun e => hcov ((covers_pages b n v).2 e), if_neg fun e => hcov e.2]

theorem VmRun.Inv.unmapRange (h : s.Inv) {vm : ℕ} (hc : VmCall.Ok s (.unmap vm va size)) :
    Tables (halVmUnmapRange s.mm vm va size) s.vms ownHome ∧
      ∀ q ∈ s.vms, ∀ v < 2 ^ 20, entry (halVmUnmapRange s.mm vm va size) q v =
        if q = vm ∧ Covers va size v then 0 else entry s.mm q v := by
  obtain ⟨hvm, hr⟩ := hc
  obtain ⟨b, n, rfl, rfl, hbn, en⟩ := hr.pages
  by_cases h0 : n = 0
  · subst h0
    simp only [halVmUnmapRange, Nat.zero_mul, if_true]
    refine ⟨h.tables, fun q _ v _ => (if_neg fun e => ?_).symm⟩
    have := e.2
    unfold Covers at this; omega
  have hn : ¬ n * 4096 = 0 := by omega
  simp only [halVmUnmapRange, if_neg hn, en]
  obtain ⟨k1, k2⟩ := unmapLoop_spec hvm n b s.mm h.tables (by omega) fun v _ _ => sole_ownHome vm _
  refine ⟨k1, fun q hq v hv => ?_⟩
  rw [k2 q hq v hv]
  by_cases hq2 : q = vm
  · by_cases hcov : Covers (b * 4096) (n * 4096) v
    · rw [if_pos ⟨(covers_pages b n v).1 hcov, hq2⟩, if_pos ⟨hq2, hcov⟩]
    · rw [if_neg fun e => hcov ((covers_pages b n v).2 e.1), if_neg fun e => hcov e.2]
  · rw [if_neg fun e => hq2 e.2, if_neg fun e => hq2 e.1]

theorem VmRun.Inv.run (h : s.Inv) {c : VmCall} (hc : c.Ok s) : (c.run s).Inv := by
  cases c with
  | create => exact h.create
  | map vm pa va size flags =>
    obtain ⟨h1, h2⟩ := h.mapRange hc
    refine ⟨h1, fun q hq v hv => ?_⟩
    simp only [VmCall.run, h2 q hq v hv]
    split_ifs with hcov
    · refine ⟨makePte_ne_zero _ _, pageOf_makePte ?_⟩
      have h3 := hc.2.1.start
      have h4 := hc.2.2.1
      omega
    · exact h.pages q hq v hv
  | unmap vm va size =>
    obtain ⟨h1, h2⟩ := h.unmapRange hc
    refine ⟨h1, fun q hq v hv => ?_⟩
    simp only [VmCall.run, h2 q hq v hv]
    split_ifs with hcov
    · rfl
    · exact h.pages q hq v hv

/-- What the map says about an address. -/
def translate (pages : ℕ → Option ℕ) (va : ℕ) : ℕ :=
  match pages (va / 4096) with
  | none => 0
  | some pa => pa + va % 4096

theorem VmRun.Inv.translate (h : s.Inv) {vm va : ℕ} (hvm : vm ∈ s.vms) (hva : va < 2 ^ 32) :
    halVmVirtToPhys s.mm vm va = Kabanos.translate (s.pages vm) va := by
  have := h.pages vm hvm (va / 4096) (by omega)
  rw [virtToPhys_eq, Kabanos.translate]
  cases e : s.pages vm (va / 4096) with
  | none =>
    rw [e] at this
    exact if_pos this
  | some pa =>
    rw [e] at this
    rw [if_neg this.1, this.2]

/-- **Page tables refine a finite map**, and no call on one address space changes the
    translations of another. -/
theorem page_tables_refine_map {m₀ : Mm} (h₀ : m₀.pmm.Framed)
    (hr : Runs VmCall.run VmCall.Ok ⟨m₀, ∅, fun _ _ => none⟩ s) :
    (∀ vm ∈ s.vms, ∀ va < 2 ^ 32, halVmVirtToPhys s.mm vm va = translate (s.pages vm) va) ∧
      ∀ c : VmCall, c.Ok s → ∀ vm ∈ s.vms, ¬ c.On vm → ∀ va < 2 ^ 32,
        halVmVirtToPhys (c.run s).mm vm va = halVmVirtToPhys s.mm vm va := by
  have hstart : VmRun.Inv ⟨m₀, ∅, fun _ _ => none⟩ := by
    refine ⟨⟨h₀, ?_, ?_, fun x hx => ?_, ?_, ?_, ?_⟩, ?_⟩ <;> simp at *
  have hI : s.Inv := Runs.invariant (fun s c hs hc => hs.run hc) hr hstart
  refine ⟨fun vm hvm va hva => hI.translate hvm hva, fun c hc vm hvm hon va hva => ?_⟩
  have hmem : vm ∈ (c.run s).vms ∧ (c.run s).pages vm = s.pages vm := by
    cases c with
    | create =>
      simp only [VmCall.run]
      rcases emptyArchVmCreate_cases s.mm with e | ⟨pmm, t, e, ht⟩ <;> rw [e]
      · rw [if_pos rfl]; exact ⟨hvm, rfl⟩
      · rw [if_neg ht.frame.ne_zero]
        have hne : vm ≠ t := fun e => ht.fresh (e ▸ hI.tables.dirs vm hvm)
        exact ⟨Finset.mem_insert_of_mem hvm, Function.update_of_ne hne ..⟩
    | map => exact ⟨hvm, funext fun v => if_neg fun e => hon e.1⟩
    | unmap => exact ⟨hvm, funext fun v => if_neg fun e => hon e.1⟩
  rw [(hI.run hc).translate hmem.1 hva, hmem.2, hI.translate hvm hva]

/-- Sixteen frames from address `0` on. -/
def demoFrames : Pmm := pmmInit .boot ⟨0, 0x10000⟩ [⟨0, 0x10000⟩] []

theorem demoFrames_framed : demoFrames.Framed := by
  have h : Layout ⟨0, 0x10000⟩ [⟨0, 0x10000⟩] [] :=
    ⟨by decide, by decide, by decide, by decide, by decide, by decide⟩
  exact (init_spec h .boot).2.1

/-- The frames hold old data. -/
def demoMm : Mm := ⟨demoFrames, fun _ => 0xFF⟩

theorem demoMm_framed : demoMm.pmm.Framed := by
  simp only [demoMm]
  exact demoFrames_framed

/-- Two address spaces; in the first one, two pages on both sides of a 4 MB boundary are
    mapped, and the whole chunk behind the boundary is unmapped again. -/
@[irreducible] def demoVms : VmRun :=
  VmCall.run (.unmap 0x1000 0x400000 0x400000) (VmCall.run (.map 0x2000 0x500000 0x3FF000 0x1000 3)
    (VmCall.run (.map 0x1000 0x200000 0x3FF000 0x2000 3) (VmCall.run .create
      (VmCall.run .create ⟨demoMm, ∅, fun _ _ => none⟩))))

theorem page_tables_refine_map_two_spaces : halVmVirtToPhys demoVms.mm 0x1000 0x3FF123 = 0x200123 ∧
      halVmVirtToPhys demoVms.mm 0x1000 0x400000 = 0 ∧
      halVmVirtToPhys demoVms.mm 0x2000 0x3FF000 = 0x500000 ∧
      halVmVirtToPhys (VmCall.run (.unmap 0x2000 0x3FF000 0x1000) demoVms).mm 0x1000 0x3FF123 =
        0x200123 := by
  have hr : Runs VmCall.run VmCall.Ok ⟨demoMm, ∅, fun _ _ => none⟩ demoVms :=
    ((((Relation.ReflTransGen.refl.tail ⟨.create, trivial, rfl⟩).tail ⟨.create, trivial, rfl⟩).tail
      ⟨.map 0x1000 0x200000 0x3FF000 0x2000 3, ⟨by decide +kernel,
        ⟨by decide, by decide, by decide⟩, by decide, by decide +kernel⟩, rfl⟩).tail
      ⟨.map 0x2000 0x500000 0x3FF000 0x1000 3, ⟨by decide +kernel,
        ⟨by decide, by decide, by decide⟩, by decide, by decide +kernel⟩, rfl⟩).tail
      ⟨.unmap 0x1000 0x400000 0x400000, ⟨by decide +kernel,
        ⟨by decide, by decide, by decide⟩⟩, by rw [demoVms]⟩
  obtain ⟨h1, h2⟩ := page_tables_refine_map demoMm_framed hr
  have hA : 0x1000 ∈ demoVms.vms := by decide +kernel
  have hB : 0x2000 ∈ demoVms.vms := by decide +kernel
  have e1 := h1 0x1000 hA 0x3FF123 (by decide)
  have e2 := h1 0x1000 hA 0x400000 (by decide)
  have e3 := h1 0x2000 hB 0x3FF000 (by decide)
  have e4 := h2 (.unmap 0x2000 0x3FF000 0x1000) ⟨hB, ⟨by decide, by decide, by decide⟩⟩ 0x1000 hA
    (show ¬ (0x1000 : ℕ) = 0x2000 by decide) 0x3FF123 (by decide)
  rw [e4, e1, e2, e3]
  decide +kernel

end

end Kabanos
