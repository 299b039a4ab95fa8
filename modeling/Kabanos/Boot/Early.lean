/-
  What the parser leaves in the memory of the early allocator: the descriptors of the modules
  as a linked list, each with its name behind it.
-/
import Kabanos.Boot.Tags

namespace Kabanos

/-- The modules of the list that begins at an address, all of it below `hi`. -/
inductive ModuleList (mem : Buf) (hi : ℕ) : ℕ → List BootModule → Prop
  | nil : ModuleList mem hi 0 []
  | cons {p name next m ms} : 0 < p → p + 32 ≤ hi → getU32 mem (p + 16) = m.start.toNat →
      getU32 mem (p + 20) = m.size.toNat → getU32 mem p = name → StrAt mem name m.path →
      name + m.path.length < hi → getU32 mem (p + 28) = next → ModuleList mem hi next ms →
      ModuleList mem hi p (m :: ms)

/-- A command line has been added. -/
structure BootState.CmdlineAdded (s : BootState) (c : CStr) (s' : BootState) : Prop where
  base : s'.early.base = s.early.base
  idx : s'.early.idx = s.early.idx + (c.length + 1)
  keeps : SameOutside (s.early.base + s.early.idx) (s.early.base + s'.early.idx)
    s.early.mem s'.early.mem
  text : StrAt s'.early.mem (s.early.base + s.early.idx) c
  kbi : s'.kbi = { s.kbi with cmdline := s.early.base + s.early.idx }

structure BootState.ModuleAdded (s : BootState) (m : BootModule) (s' : BootState) : Prop where
  base : s'.early.base = s.early.base
  idx : s'.early.idx = s.early.idx + 32 + (m.path.length + 1)
  keeps : SameOutside (s.early.base + s.early.idx) (s.early.base + s'.early.idx)
    s.early.mem s'.early.mem
  start : getU32 s'.early.mem (s.early.base + s.early.idx + 16) = m.start.toNat
  size : getU32 s'.early.mem (s.early.base + s.early.idx + 20) = m.size.toNat
  name : getU32 s'.early.mem (s.early.base + s.early.idx) = s.early.base + s.early.idx + 32
  text : StrAt s'.early.mem (s.early.base + s.early.idx + 32) m.path
  next : getU32 s'.early.mem (s.early.base + s.early.idx + 28) = s.kbi.modules % 2 ^ 32
  kbi : s'.kbi = { s.kbi with
    modules := s.early.base + s.early.idx
    moduleCount := s.kbi.moduleCount + 1 }

section
variable {s s' : BootState} {c : CStr} {m : BootModule} {ms : List BootModule} {e e' : Early}
  {mem mem' : Buf} {p hi hi' top len : ℕ} {rs : List MemoryRegion} {kbi : KernelBootInfo}

theorem earlyAlloc_eq (h : e.idx + len < earlyAllocSize) :
    earlyAlloc e len = (e.base + e.idx, { e with idx := e.idx + len, idx_lt := h }) :=
  dif_pos h

theorem earlyAlloc_null (h : ¬ e.idx + len < earlyAllocSize) : earlyAlloc e len = (0, e) :=
  dif_neg h

theorem BootState.addCmdline_spec (h : s.early.idx + (c.length + 1) < earlyAllocSize) :
    s.CmdlineAdded c (s.addCmdline c) := by
  rw [addCmdline, earlyAlloc_eq h]
  refine ⟨rfl, rfl, ?_, strAt_strcpy _ _ _, rfl⟩
  exact (keeps_strcpy _ _ _).mono le_rfl (Nat.add_assoc _ _ _).le

/-- The memory after a descriptor and its name have been written. -/
def writeDescriptor (mem : Buf) (mod name : ℕ) (m : BootModule) (next : ℕ) : Buf :=
  putU32 (putU32 (strcpy (putU32 (putU32 (memset mem mod 0 32) (mod + 16) m.start.toNat) (mod + 20)
    m.size.toNat) name m.path) mod name) (mod + 28) next

section
variable (mem : Buf) (p : ℕ) (m : BootModule) (next : ℕ)

theorem writeDescriptor_start :
    getU32 (writeDescriptor mem p (p + 32) m next) (p + 16) = m.start.toNat := by
  rw [writeDescriptor, getU32_putU32_ne _ _ (by omega), getU32_putU32_ne _ _ (by omega),
    (keeps_strcpy _ _ _).getU32 (by omega), getU32_putU32_ne _ _ (by omega),
    getU32_putU32 _ _ m.start.toNat_lt]

theorem writeDescriptor_size :
    getU32 (writeDescriptor mem p (p + 32) m next) (p + 20) = m.size.toNat := by
  rw [writeDescriptor, getU32_putU32_ne _ _ (by omega), getU32_putU32_ne _ _ (by omega),
    (keeps_strcpy _ _ _).getU32 (by omega), getU32_putU32 _ _ m.size.toNat_lt]

theorem writeDescriptor_text :
    StrAt (writeDescriptor mem p (p + 32) m next) (p + 32) m.path := by
  have h := (keeps_putU32 (strcpy (putU32 (putU32 (memset mem p 0 32) (p + 16) m.start.toNat)
    (p + 20) m.size.toNat) (p + 32) m.path) p (p + 32)).strAt (strAt_strcpy _ (p + 32) m.path)
    (Or.inr (by omega))
  exact (keeps_putU32 _ (p + 28) next).strAt h (Or.inr (by omega))

theorem keeps_writeDescriptor :
    SameOutside p (p + 32 + (m.path.length + 1)) mem (writeDescriptor mem p (p + 32) m next) := by
  have h1 := (keeps_memset mem p 0 32).mono (le_refl p) (by omega :
    p + 32 ≤ p + 32 + (m.path.length + 1))
  have h2 := h1.trans ((keeps_putU32 _ (p + 16) m.start.toNat).mono (by omega) (by omega))
  have h3 := h2.trans ((keeps_putU32 _ (p + 20) m.size.toNat).mono (by omega) (by omega))
  have h4 := h3.trans ((keeps_strcpy _ (p + 32) m.path).mono (by omega) le_rfl)
  have h5 := h4.trans ((keeps_putU32 _ p (p + 32)).mono le_rfl (by omega))
  exact h5.trans ((keeps_putU32 _ (p + 28) next).mono (by omega) (by omega))

end

theorem BootState.addModule_eq (h : s.early.idx + 32 + (m.path.length + 1) < earlyAllocSize) :
    s.addModule m = ⟨{ s.early with
      mem := writeDescriptor s.early.mem (s.early.base + s.early.idx)
        (s.early.base + s.early.idx + 32) m s.kbi.modules
      idx := s.early.idx + 32 + (m.path.length + 1), idx_lt := h },
      { s.kbi with
        modules := s.early.base + s.early.idx
        moduleCount := s.kbi.moduleCount + 1 }⟩ := by
  rw [addModule, earlyAlloc_eq (by omega)]
  dsimp only
  rw [earlyAlloc_eq (by exact h)]
  simp only [Early.store, writeDescriptor, Nat.add_assoc]

theorem BootState.addModule_spec (h : s.early.idx + 32 + (m.path.length + 1) < earlyAllocSize) :
    s.ModuleAdded m (s.addModule m) := by
  have hlt : s.early.base + s.early.idx + 32 < 2 ^ 32 := by
    have := s.early.base_le
    omega
  rw [addModule_eq h]
  refine ⟨rfl, rfl, ?_, writeDescriptor_start _ _ _ _, writeDescriptor_size _ _ _ _, ?_,
    writeDescriptor_text _ _ _ _, ?_, rfl⟩
  · exact (keeps_writeDescriptor _ _ _ _).mono le_rfl (by simp only; omega)
  · show getU32 (writeDescriptor _ _ _ _ _) _ = _
    rw [writeDescriptor, getU32_putU32_ne _ _ (by omega), getU32_putU32 _ _ hlt]
  · show getU32 (writeDescriptor _ _ _ _ _) _ = _
    rw [writeDescriptor, getU32_putU32_mod]

theorem ModuleList.keeps (h : ModuleList mem hi p ms) (hk : SameOutside hi top mem mem')
    (hle : hi ≤ hi') : ModuleList mem' hi' p ms := by
  induction h with
  | nil => exact .nil
  | cons h0 hp hs hz hn ht hl hx _ ih =>
    refine .cons h0 (hp.trans hle) ?_ ?_ ?_ (hk.strAt ht (Or.inl hl)) (hl.trans_le hle) ?_ ih
    · rw [hk.getU32 (by omega), hs]
    · rw [hk.getU32 (by omega), hz]
    · rw [hk.getU32 (by omega), hn]
    · rw [hk.getU32 (by omega), hx]

theorem ModuleList.lt (h : ModuleList mem hi p ms) (hhi : hi ≤ 2 ^ 32) : p < 2 ^ 32 := by
  cases h with
  | nil => decide
  | cons _ hp => omega

theorem ModuleList.added
    (h : ModuleList s.early.mem (s.early.base + s.early.idx) s.kbi.modules ms)
    (ha : s.ModuleAdded m s') :
    ModuleList s'.early.mem (s'.early.base + s'.early.idx) s'.kbi.modules (m :: ms) := by
  have h0 : 0 < s.early.base := Nat.lt_of_lt_of_le (by decide) s.early.block_le
  have h1 := s.early.base_le
  have h2 := s.early.idx_lt
  have hi := ha.idx
  have hp : s'.kbi.modules = s.early.base + s.early.idx := by rw [ha.kbi]
  rw [hp, ha.base]
  refine .cons (by omega) (by omega) ha.start ha.size ha.name ha.text (by omega) ha.next ?_
  rw [Nat.mod_eq_of_lt (h.lt (by omega))]
  exact h.keeps ha.keeps (by omega)

theorem ModuleList.cmdlineAdded
    (h : ModuleList s.early.mem (s.early.base + s.early.idx) s.kbi.modules ms)
    (ha : s.CmdlineAdded c s') :
    ModuleList s'.early.mem (s'.early.base + s'.early.idx) s'.kbi.modules ms := by
  have hi := ha.idx
  have hp : s'.kbi.modules = s.kbi.modules := by rw [ha.kbi]
  rw [hp, ha.base]
  exact h.keeps ha.keeps (by omega)

theorem foldl_addRegion_modules (rs : List MemoryRegion) (kbi : KernelBootInfo) :
    (rs.foldl addRegion kbi).modules = kbi.modules ∧
      (rs.foldl addRegion kbi).moduleCount = kbi.moduleCount ∧
      (rs.foldl addRegion kbi).cmdline = kbi.cmdline ∧
      (rs.foldl addRegion kbi).initrdStart = kbi.initrdStart := by
  induction rs generalizing kbi with
  | nil => exact ⟨rfl, rfl, rfl, rfl⟩
  | cons r rs ih =>
    rw [List.foldl_cons]
    obtain ⟨h1, h2, h3, h4⟩ := ih (addRegion kbi r)
    have h : (addRegion kbi r).modules = kbi.modules ∧
        (addRegion kbi r).moduleCount = kbi.moduleCount ∧
        (addRegion kbi r).cmdline = kbi.cmdline ∧
        (addRegion kbi r).initrdStart = kbi.initrdStart := by
      rw [addRegion]
      split_ifs <;> exact ⟨rfl, rfl, rfl, rfl⟩
    exact ⟨h1.trans h.1, h2.trans h.2.1, h3.trans h.2.2.1, h4.trans h.2.2.2⟩

end

end Kabanos
