/-
  The ranges that the kernel keeps from the frame allocator: `get_used_memory_ranges`.

  The descriptors of the boot modules form a linked list, the last parsed one first, but
  `get_used_memory_ranges` indexes them as an array.  So it sees the last module, and after it
  whatever stands behind the descriptor of the last module: the name of that module, the
  command lines that were parsed later, and memory that was not allocated.  A copy that found no
  room has been written to address 0, and without room for the last descriptor the array itself
  begins there.
-/
import Kabanos.Boot.RoundTrip
import Kabanos.Mm.Frames

namespace Kabanos

variable {e : Early} {regions : ℕ → MemoryRegion} {kernel r : Range}

/-! ## The model -/

def maxUsedRanges : ℕ := 64

def rangeListPush (list : List Range) (r : Range) : List Range :=
  if list.length < maxUsedRanges then list ++ [r] else list

/-- The range of the descriptor `modules[i]`. -/
def moduleRange (mem : Buf) (modules i : ℕ) : Range :=
  let m := modules + 32 * i
  ⟨getU32 mem (m + 16), (getU32 mem (m + 16) + getU32 mem (m + 20)) % 2 ^ 32⟩

def getUsedMemoryRanges (mem : Buf) (kbi : KernelBootInfo) (kernelPhysRange : Range) :
    List Range :=
  let list := if kbi.initrdStart ≠ 0 ∧ kbi.initrdSize ≠ 0 then
      rangeListPush [] ⟨kbi.initrdStart, (kbi.initrdStart + kbi.initrdSize) % 2 ^ 32⟩
    else []
  let list := (List.range kbi.moduleCount).foldl
    (fun list i => rangeListPush list (moduleRange mem kbi.modules i)) list
  rangeListPush list kernelPhysRange

/-! ## What it sees -/

/-- The byte at `a` lies in the range. -/
def Range.Has (r : Range) (a : ℕ) : Prop := r.start ≤ a ∧ a < r.stop

/-- The byte at `a` belongs to the module. -/
def BootModule.Has (m : BootModule) (a : ℕ) : Prop :=
  m.start.toNat ≤ a ∧ a < m.start.toNat + m.size.toNat

/-- The range of a module, with an end of 32 bits. -/
def BootModule.range (m : BootModule) : Range :=
  ⟨m.start.toNat, (m.start.toNat + m.size.toNat) % 2 ^ 32⟩

def BootTag.module? : BootTag → Option BootModule
  | .module m => some m
  | _ => none

def modulesOf (ts : List BootTag) : List BootModule := ts.filterMap BootTag.module?

/-- The bytes that the early allocator gives for a tag. -/
def BootTag.bytes : BootTag → ℕ
  | .cmdline c => c.length + 1
  | .module m => 32 + (m.path.length + 1)
  | _ => 0

def allocated (ts : List BootTag) : ℕ := (ts.map BootTag.bytes).sum

theorem allocated_cons (t : BootTag) (ts : List BootTag) :
    allocated (t :: ts) = t.bytes + allocated ts := by
  rw [allocated, List.map_cons, List.sum_cons, ← allocated]

/-- The index of the early allocator after an allocation. -/
def bump (idx len : ℕ) : ℕ := if idx + len < earlyAllocSize then idx + len else idx

/-- The index after the allocations for a tag. -/
def BootTag.bump (idx : ℕ) : BootTag → ℕ
  | .cmdline c => Kabanos.bump idx (c.length + 1)
  | .module m => Kabanos.bump (Kabanos.bump idx 32) (m.path.length + 1)
  | _ => idx

/-- The texts that are copied for a tag, each with the index before its copy. -/
def BootTag.copies (idx : ℕ) : BootTag → List (ℕ × CStr)
  | .cmdline c => [(idx, c)]
  | .module m => [(Kabanos.bump idx 32, m.path)]
  | _ => []

def copies (idx : ℕ) : List BootTag → List (ℕ × CStr)
  | [] => []
  | t :: ts => t.copies idx ++ copies (t.bump idx) ts

/-- There is room for the copy. -/
def hasRoom (copy : ℕ × CStr) : Bool := copy.1 + (copy.2.length + 1) < earlyAllocSize

/-- The copies that find room stand one behind the other. -/
def kept (cs : List (ℕ × CStr)) : List UInt8 := (cs.filter hasRoom).flatMap fun c => c.2.terminated

/-- The start and the size in the descriptor of a module. -/
def BootModule.describe (m : BootModule) (b : Buf) : Buf :=
  putU32 (putU32 b 16 m.start.toNat) 20 m.size.toNat

/-- The memory from the descriptor of the last module `m` on, which comes after the tags `pre`
    and before the tags `post`. -/
def fromLast (e : Early) (pre : List BootTag) (m : BootModule) (post : List BootTag) : Buf :=
  let idx := pre.foldl BootTag.bump 28
  -- the name is copied as a command line is
  m.describe fun j => (kept (copies (idx + 32) (.cmdline m.path :: post))).getD (j - 32)
    (e.mem (e.base + idx + j))

/-- The ranges that are listed: those that the memory from the last descriptor on gives when it
    is read as an array, one for each module, and that of the kernel, 64 at most. -/
inductive Listed (e : Early) (kernel : Range) (pre : List BootTag) (m : BootModule)
    (post : List BootTag) : Range → Prop
  | entry (i : ℕ) : i ≤ (modulesOf pre).length → i < maxUsedRanges →
      Listed e kernel pre m post (moduleRange (fromLast e pre m post) 0 i)
  | kernel : (modulesOf pre).length + 1 < maxUsedRanges → Listed e kernel pre m post kernel

/-! ## Texts in memory -/

section
variable {s s' : BootState} {ts pre post : List BootTag} {t : BootTag} {m : BootModule}
  {mem mem' b b' : Buf} {p a idx len : ℕ} {e' : Early} {c : CStr} {cs cs' : List (ℕ × CStr)}
theorem kept_append (cs cs' : List (ℕ × CStr)) : kept (cs ++ cs') = kept cs ++ kept cs' := by
  rw [kept, List.filter_append, List.flatMap_append, ← kept, ← kept]

theorem le_bump (idx len : ℕ) : idx ≤ bump idx len := by
  rw [bump]
  split_ifs <;> omega

/-- A text stands at an address. -/
def TextAt (mem : Buf) (p : ℕ) (text : List UInt8) : Prop :=
  ∀ j < text.length, ∀ x, mem (p + j) = text.getD j x

theorem TextAt.append {text text' : List UInt8} (h : TextAt mem p text)
    (h' : TextAt mem (p + text.length) text') : TextAt mem p (text ++ text') := by
  intro j hj x
  rw [List.length_append] at hj
  rcases Nat.lt_or_ge j text.length with hlt | hge
  · rw [List.getD_append _ _ _ _ hlt, h j hlt x]
  · rw [List.getD_append_right _ _ _ _ hge, ← h' (j - text.length) (by omega) x]
    congr 1
    omega

theorem TextAt.congr {text : List UInt8} (h : TextAt mem p text)
    (he : ∀ j < text.length, mem' (p + j) = mem (p + j)) : TextAt mem' p text :=
  fun j hj x => (he j hj).trans (h j hj x)

/-! ## One copy -/

/-- A text has been copied, behind what is allocated or, without room, to address 0. -/
structure Early.Copied (e : Early) (c : CStr) (e' : Early) : Prop where
  base : e'.base = e.base
  idx : e'.idx = bump e.idx (c.length + 1)
  high : ∀ a, e.base ≤ a → a < e.base + e.idx ∨ e.base + e'.idx ≤ a → e'.mem a = e.mem a
  length : e'.idx = e.idx + (kept [(e.idx, c)]).length
  text : TextAt e'.mem (e.base + e.idx) (kept [(e.idx, c)])

/-- `early_alloc` for a text, and the copy. -/
def Early.copy (e : Early) (c : CStr) : ℕ × Early :=
  let (p, e) := earlyAlloc e (c.length + 1)
  (p, e.store (strcpy e.mem p c))

theorem Early.copy_spec (hc : c.length + 1 ≤ bootParamsPhysicalAddr) : e.Copied c (e.copy c).2 := by
  have hb := e.block_le
  by_cases h : e.idx + (c.length + 1) < earlyAllocSize
  · have hroom : hasRoom (e.idx, c) = true := decide_eq_true h
    have hk : kept [(e.idx, c)] = c.terminated := by simp [kept, hroom]
    rw [copy, earlyAlloc_eq h]
    refine ⟨rfl, (if_pos h).symm, fun a h1 h2 => ?_, ?_, ?_⟩
    · exact keeps_strcpy _ _ _ a (h2.imp id fun h2 => (Nat.add_assoc _ _ _).le.trans h2)
    · rw [hk, c.length_terminated]
      rfl
    · rw [hk]
      intro j hj x
      rw [c.length_terminated] at hj
      exact (strcpy_add _ _ _ _).trans (by
        rw [c.getD_terminated (by omega), c.getD_terminated (by omega)])
  · have hroom : hasRoom (e.idx, c) = false := decide_eq_false h
    have hk : kept [(e.idx, c)] = [] := by simp [kept, hroom]
    rw [copy, earlyAlloc_null h]
    refine ⟨rfl, (if_neg h).symm, fun a h1 h2 => ?_, ?_, ?_⟩
    · exact keeps_strcpy _ _ _ a (Or.inr (by omega))
    · rw [hk]
      rfl
    · rw [hk]
      exact fun j hj => absurd hj (Nat.not_lt_zero j)

/-! ## One module -/

/-- The descriptor of a module has been written at `p`, and then its name: `e₁` is the memory
    between the two. -/
structure BootState.Described (s : BootState) (m : BootModule) (p : ℕ) (e₁ e₂ : Early)
    (s' : BootState) : Prop where
  place : p = if s.early.idx + 32 < earlyAllocSize then s.early.base + s.early.idx else 0
  base : e₁.base = s.early.base
  idx : e₁.idx = bump s.early.idx 32
  mem : e₁.mem = putU32 (putU32 (memset s.early.mem p 0 32) (p + 16) m.start.toNat) (p + 20)
    m.size.toNat
  copied : e₁.Copied m.path e₂
  base' : s'.early.base = e₂.base
  idx' : s'.early.idx = e₂.idx
  keeps : ∀ a, a < p ∨ p + 4 ≤ a ∧ a < p + 28 ∨ p + 32 ≤ a → s'.early.mem a = e₂.mem a
  kbi : s'.kbi = { s.kbi with modules := p, moduleCount := s.kbi.moduleCount + 1 }

theorem BootState.addModule_described (s : BootState)
    (hc : m.path.length + 1 ≤ bootParamsPhysicalAddr) :
    ∃ p e₁ e₂, s.Described m p e₁ e₂ (s.addModule m) := by
  obtain ⟨p, e1, ha⟩ : ∃ p e1, earlyAlloc s.early 32 = (p, e1) := ⟨_, _, rfl⟩
  have h1 : e1.base = s.early.base ∧ e1.mem = s.early.mem ∧ e1.idx = bump s.early.idx 32 ∧
      p = if s.early.idx + 32 < earlyAllocSize then s.early.base + s.early.idx else 0 := by
    rw [earlyAlloc] at ha
    rw [bump]
    split_ifs at ha ⊢ with h <;> cases ha <;> exact ⟨rfl, rfl, rfl, rfl⟩
  obtain ⟨hb, hm, hi, hp⟩ := h1
  refine ⟨p, e1.store (putU32 (putU32 (memset e1.mem p 0 32) (p + 16) m.start.toNat) (p + 20)
    m.size.toNat), _, hp, hb, hi, by rw [← hm]; rfl, Early.copy_spec hc, ?_, ?_, fun a h => ?_, ?_⟩
  all_goals rw [addModule, ha]
  · rfl
  · rfl
  · exact (keeps_putU32 _ _ _ a (by omega)).trans (keeps_putU32 _ _ _ a (by omega))

theorem BootState.Described.memset_eq {e₁ e₂ : Early} (h : s.Described m p e₁ e₂ s')
    (ha : a < p ∨ p + 32 ≤ a) : e₁.mem a = s.early.mem a := by
  rw [h.mem, keeps_putU32 _ _ _ a (by omega), keeps_putU32 _ _ _ a (by omega),
    keeps_memset _ _ _ _ a ha]

/-! ## All tags -/

/-- What the tags of a list leave behind. -/
structure BootState.Added (s : BootState) (ts : List BootTag) (s' : BootState) : Prop where
  base : s'.early.base = s.early.base
  idx : s'.early.idx = ts.foldl BootTag.bump s.early.idx
  le : s.early.idx ≤ s'.early.idx
  high : ∀ a, s.early.base ≤ a → a < s.early.base + s.early.idx ∨ s.early.base + s'.early.idx ≤ a →
    s'.early.mem a = s.early.mem a
  count : s'.kbi.moduleCount = s.kbi.moduleCount + (modulesOf ts).length
  initrd : s'.kbi.initrdStart = s.kbi.initrdStart

theorem BootState.Added.nil (s : BootState) : s.Added [] s :=
  ⟨rfl, rfl, le_rfl, fun _ _ _ => rfl, rfl, rfl⟩

theorem BootState.add_spec (s : BootState) (ht : t.bytes ≤ bootParamsPhysicalAddr) :
    s.Added [t] (s.add t) := by
  cases t with
  | cmdline c =>
    have h : s.early.Copied c (s.early.copy c).2 := Early.copy_spec ht
    refine ⟨h.base, h.idx, ?_, h.high, rfl, rfl⟩
    exact (le_bump _ _).trans_eq h.idx.symm
  | module m =>
    have hc : 32 + (m.path.length + 1) ≤ bootParamsPhysicalAddr := ht
    obtain ⟨p, e1, e2, h⟩ := s.addModule_described (m := m) (by omega)
    have hidx : (s.addModule m).early.idx = bump (bump s.early.idx 32) (m.path.length + 1) := by
      rw [h.idx', h.copied.idx, h.idx]
    have h1 := le_bump s.early.idx 32
    have h2 := le_bump (bump s.early.idx 32) (m.path.length + 1)
    have hbase := h.copied.base.trans h.base
    have hb : 32 < s.early.base := Nat.lt_of_lt_of_le (by decide) s.early.block_le
    -- the descriptor stands at address 0, or in what has been allocated for it
    have hp : p = 0 ∨ p = s.early.base + s.early.idx ∧ bump s.early.idx 32 = s.early.idx + 32 := by
      have := h.place
      rw [bump]
      split_ifs at this ⊢
      · exact Or.inr ⟨this, rfl⟩
      · exact Or.inl this
    refine ⟨h.base'.trans hbase, hidx, ?_, fun a ha ho => ?_, ?_, ?_⟩
    · exact (h1.trans h2).trans_eq hidx.symm
    · have hidx : (s.add (.module m)).early.idx = _ := hidx
      have hi2 : e2.idx = bump (bump s.early.idx 32) (m.path.length + 1) := by
        rw [h.copied.idx, h.idx]
      have hb1 := h.base
      have hi1 := h.idx
      refine (h.keeps a (by omega)).trans ?_
      rw [h.copied.high a (by omega) (by omega), h.memset_eq (by omega)]
    · show (s.addModule m).kbi.moduleCount = _
      rw [h.kbi]
      rfl
    · show (s.addModule m).kbi.initrdStart = _
      rw [h.kbi]
  | mmap rs =>
    obtain ⟨-, hc, -, hi⟩ := foldl_addRegion_modules rs s.kbi
    exact ⟨rfl, rfl, le_rfl, fun _ _ _ => rfl, hc, hi⟩
  | other => exact ⟨rfl, rfl, le_rfl, fun _ _ _ => rfl, rfl, rfl⟩

theorem BootState.Added.cons {s1 : BootState} (h : s.Added [t] s1) (h' : s1.Added ts s') :
    s.Added (t :: ts) s' := by
  have hm : modulesOf (t :: ts) = modulesOf [t] ++ modulesOf ts := by
    rw [modulesOf, ← List.singleton_append, List.filterMap_append]
    rfl
  have hidx : s1.early.idx = t.bump s.early.idx := h.idx
  have h1 := h.le
  have h2 := h'.le
  have hb := h.base
  refine ⟨h'.base.trans h.base, ?_, h1.trans h2, fun a ha ho => ?_, ?_,
    h'.initrd.trans h.initrd⟩
  · rw [h'.idx, hidx, List.foldl_cons]
  · rw [h'.high a (by omega) (by omega), h.high a ha (by omega)]
  · rw [h'.count, h.count, hm, List.length_append, Nat.add_assoc]

theorem BootState.foldl_add_spec (s : BootState) (ht : ∀ t ∈ ts, t.bytes ≤ bootParamsPhysicalAddr) :
    s.Added ts (ts.foldl BootState.add s) := by
  induction ts generalizing s with
  | nil => exact .nil s
  | cons t ts ih =>
    exact (s.add_spec (ht t List.mem_cons_self)).cons
      (ih (s.add t) fun t' h => ht t' (List.mem_cons_of_mem t h))

/-- The texts of tags that are no modules. -/
theorem BootState.foldl_add_texts (s : BootState)
    (ht : ∀ t ∈ ts, t.bytes ≤ bootParamsPhysicalAddr) (hno : modulesOf ts = []) :
    (ts.foldl BootState.add s).kbi.modules = s.kbi.modules ∧
      (ts.foldl BootState.add s).early.idx
        = s.early.idx + (kept (copies s.early.idx ts)).length ∧
      TextAt (ts.foldl BootState.add s).early.mem (s.early.base + s.early.idx)
        (kept (copies s.early.idx ts)) := by
  induction ts generalizing s with
  | nil => exact ⟨rfl, rfl, fun j hj => absurd hj (Nat.not_lt_zero j)⟩
  | cons t ts ih =>
    have hts : ∀ t ∈ ts, t.bytes ≤ bootParamsPhysicalAddr :=
      fun t' h => ht t' (List.mem_cons_of_mem t h)
    cases t with
    | cmdline c =>
      have h : s.early.Copied c (s.early.copy c).2 := Early.copy_spec (ht _ List.mem_cons_self)
      obtain ⟨hp, hlen, htext⟩ := ih (s.addCmdline c) hts hno
      have hrest := (s.addCmdline c).foldl_add_spec hts
      have hidx : (s.addCmdline c).early.idx = bump s.early.idx (c.length + 1) := h.idx
      have hbase : (s.addCmdline c).early.base = s.early.base := h.base
      have hcs : copies s.early.idx (.cmdline c :: ts)
          = [(s.early.idx, c)] ++ copies (s.addCmdline c).early.idx ts := by
        rw [hidx]
        rfl
      have hl : (s.addCmdline c).early.idx = s.early.idx + (kept [(s.early.idx, c)]).length :=
        h.length
      rw [hcs]
      refine ⟨hp, ?_, ?_⟩
      · rw [kept_append, List.length_append, ← Nat.add_assoc, ← hl]
        exact hlen
      · rw [kept_append]
        refine TextAt.append (h.text.congr fun j hj => ?_) ?_
        · exact hrest.high _ (by omega) (by omega)
        · rw [Nat.add_assoc, ← hl, ← hbase]
          exact htext
    | module m => simp [modulesOf, BootTag.module?] at hno
    | mmap rs =>
      obtain ⟨hp, hrest⟩ := ih (s.add (.mmap rs)) hts hno
      exact ⟨hp.trans (foldl_addRegion_modules rs s.kbi).1, hrest⟩
    | other => exact ih s hts hno

/-! ## From the descriptor of the last module on -/

theorem describe_congr (h : 16 ≤ a ∧ a < 24 ∨ b a = b' a) : m.describe b a = m.describe b' a := by
  simp only [BootModule.describe, putU32]
  split_ifs <;> first | rfl | (rcases h with h | h <;> [omega; exact h])

theorem describe_add (b : Buf) (p j : ℕ) (m : BootModule) :
    putU32 (putU32 b (p + 16) m.start.toNat) (p + 20) m.size.toNat (p + j)
      = m.describe (fun j => b (p + j)) j := by
  simp only [BootModule.describe, putU32, Nat.add_assoc, Nat.add_le_add_iff_left,
    Nat.add_lt_add_iff_left, Nat.add_sub_add_left]

/-- **The memory after parsing**, from the descriptor of the last module on, where
    `get_used_memory_ranges` reads it. -/
theorem parsed_last {h28 : e.idx + 28 < earlyAllocSize}
    (hidx : e.idx = 0) (hzero : ∀ j, e.base ≤ j → j < e.base + earlyAllocSize → e.mem j = 0)
    (hroom : pre.foldl BootTag.bump 28 + 32 < earlyAllocSize)
    (ht : ∀ t ∈ pre ++ .module m :: post, t.bytes ≤ bootParamsPhysicalAddr)
    (hs : (pre ++ .module m :: post).foldl BootState.add (startParse e h28 regions) = s)
    (hno : modulesOf post = []) :
    (∀ j, 16 ≤ j ∧ j < 24 ∨ 32 ≤ j →
        s.early.mem (s.kbi.modules + j) = fromLast e pre m post j) ∧
      s.kbi.moduleCount = (modulesOf pre).length + 1 ∧ s.kbi.initrdStart = 0 := by
  obtain ⟨s1, h₁⟩ : ∃ s, pre.foldl BootState.add (startParse e h28 regions) = s := ⟨_, rfl⟩
  rw [List.foldl_append, h₁, List.foldl_cons] at hs
  have htp : ∀ t ∈ post, t.bytes ≤ bootParamsPhysicalAddr := fun t h =>
    ht t (List.mem_append_right _ (List.mem_cons_of_mem _ h))
  have htm : 32 + (m.path.length + 1) ≤ bootParamsPhysicalAddr :=
    ht (.module m) (List.mem_append_right _ List.mem_cons_self)
  have a1 := (startParse e h28 regions).foldl_add_spec fun t h => ht t (List.mem_append_left _ h)
  rw [h₁] at a1
  have a2 := s1.add_spec (t := .module m) htm
  obtain ⟨p, e1, e2, hd⟩ := s1.addModule_described (m := m) (by omega)
  have a3 := (s1.add (.module m)).foldl_add_spec htp
  obtain ⟨hmod, hlen, htext⟩ := (s1.add (.module m)).foldl_add_texts htp hno
  rw [hs] at a3 hmod hlen htext
  have hkbi : (startParse e h28 regions).kbi = ⟨0, 0, 0, 0, regions, 0, 0⟩ := by
    simp only [startParse]
    rw [loadKbi_zero regions fun j h1 h2 => hzero j (by omega) (by omega)]
  have hk2 : (s1.add (.module m)).kbi = _ := hd.kbi
  refine ⟨fun j hin => ?_, ?_, ?_⟩
  rotate_left
  · have hc1 := a1.count
    rw [hkbi] at hc1
    rw [a3.count, hno, hk2]
    simp only [hc1, List.length_nil]
    omega
  · rw [a3.initrd, hk2]
    simp only [a1.initrd, hkbi]
  have hb1 : s1.early.base = e.base := a1.base
  have hi1 : s1.early.idx = pre.foldl BootTag.bump 28 := by
    rw [a1.idx]
    show pre.foldl BootTag.bump (e.idx + 28) = _
    rw [hidx]
  have hb2 : (s1.add (.module m)).early.base = e.base := a2.base.trans hb1
  have hi2 : (s1.add (.module m)).early.idx = e2.idx := hd.idx'
  have hblock := e.block_le
  have hpm : s.kbi.modules = p := by rw [hmod, hk2]
  have hkeeps : ∀ a, a < p ∨ p + 4 ≤ a ∧ a < p + 28 ∨ p + 32 ≤ a →
      (s1.add (.module m)).early.mem a = e2.mem a := hd.keeps
  rw [← hi1] at hroom
  have hat : p = s1.early.base + s1.early.idx := hd.place.trans (if_pos hroom)
  have hbe := hd.base
  have hid : e1.idx = s1.early.idx + 32 := hd.idx.trans (if_pos hroom)
  have hlen2 := hd.copied.length
  have hle3 := a3.le
  obtain ⟨later, hlater⟩ : ∃ cs, cs = copies (s1.early.idx + 32) (.cmdline m.path :: post) :=
    ⟨_, rfl⟩
  have hsplit : later = [(e1.idx, m.path)] ++ copies (s1.add (.module m)).early.idx post := by
    rw [hlater, hi2, hd.copied.idx, hid]
    rfl
  rw [hpm]
  simp only [fromLast, ← hi1, ← hlater]
  rcases hin with hin | hin
  · -- in the descriptor
    rw [a3.high _ (by omega) (by omega), hkeeps _ (by omega),
      hd.copied.high _ (by omega) (by omega), hd.mem, describe_add]
    exact describe_congr (Or.inl hin)
  · -- behind it, where the copies with room stand
    have hall : TextAt s.early.mem (p + 32) (kept later) := by
      rw [hsplit, kept_append]
      refine TextAt.append ?_ ?_
      · have h := hd.copied.text
        have hpe : e1.base + e1.idx = p + 32 := by omega
        rw [hpe] at h
        refine h.congr fun j hj => ?_
        rw [a3.high _ (by omega) (by omega), hkeeps _ (by omega)]
      · have hpe : p + 32 + (kept [(e1.idx, m.path)]).length
            = (s1.add (.module m)).early.base + (s1.add (.module m)).early.idx := by omega
        rw [hpe]
        exact htext
    have hfar (b : Buf) : m.describe b j = b j :=
      (keeps_putU32 _ _ _ j (by omega)).trans (keeps_putU32 _ _ _ j (by omega))
    rw [hfar]
    obtain ⟨k, rfl⟩ := Nat.exists_eq_add_of_le hin
    rw [Nat.add_sub_cancel_left, ← Nat.add_assoc]
    rcases Nat.lt_or_ge k (kept later).length with hk | hk
    · exact hall k hk _
    · have hk' := hk
      rw [hsplit, kept_append, List.length_append] at hk'
      rw [List.getD_eq_default _ _ hk, a3.high _ (by omega) (by omega), hkeeps _ (by omega),
        hd.copied.high _ (by omega) (by omega), hd.memset_eq (by omega),
        a1.high _ (by show e.base ≤ _; omega) (by show _ ∨ e.base + _ ≤ _; omega)]
      show e.mem _ = _
      congr 1
      omega

/-- With room for all copies, the list holds the modules of the tags. -/
theorem BootState.foldl_add_list {ms : List BootModule}
    (hfit : s.early.idx + allocated ts < earlyAllocSize)
    (h : ModuleList s.early.mem (s.early.base + s.early.idx) s.kbi.modules ms)
    (hs : ts.foldl BootState.add s = s') :
    ModuleList s'.early.mem (s'.early.base + s'.early.idx) s'.kbi.modules
      ((modulesOf ts).reverse ++ ms) := by
  induction ts generalizing s ms with
  | nil =>
    obtain rfl : s = s' := hs
    exact h
  | cons t ts ih =>
    rw [allocated_cons] at hfit
    cases t with
    | cmdline c =>
      have hfit : s.early.idx + (c.length + 1 + allocated ts) < earlyAllocSize := hfit
      have ha := addCmdline_spec (s := s) (c := c) (by omega)
      have hi := ha.idx
      exact ih (by omega) (h.cmdlineAdded ha) hs
    | module m =>
      have hfit : s.early.idx + (32 + (m.path.length + 1) + allocated ts) < earlyAllocSize := hfit
      have ha := addModule_spec (s := s) (m := m) (by omega)
      have hi := ha.idx
      have hm : (modulesOf (.module m :: ts)).reverse ++ ms
          = (modulesOf ts).reverse ++ m :: ms := by
        simp [modulesOf, BootTag.module?]
      rw [hm]
      exact ih (by omega) (h.added ha) hs
    | mmap rs =>
      have hfit : s.early.idx + (0 + allocated ts) < earlyAllocSize := hfit
      refine ih (s := s.add (.mmap rs)) (by rw [Nat.zero_add] at hfit; exact hfit) ?_ hs
      show ModuleList _ _ (rs.foldl addRegion s.kbi).modules _
      rw [(foldl_addRegion_modules rs s.kbi).1]
      exact h
    | other =>
      have hfit : s.early.idx + (0 + allocated ts) < earlyAllocSize := hfit
      exact ih (by omega) h hs

/-! ## The list of ranges -/

theorem foldl_rangeListPush {ι : Type*} (f : ι → Range) (L : List ι) {list : List Range}
    (h : list.length ≤ maxUsedRanges) :
    L.foldl (fun list i => rangeListPush list (f i)) list
      = list ++ (L.map f).take (maxUsedRanges - list.length) := by
  induction L generalizing list with
  | nil => simp
  | cons i L ih =>
    rw [List.foldl_cons, rangeListPush]
    split_ifs with hl
    · rw [ih (by rw [List.length_append, List.length_singleton]; omega)]
      obtain ⟨k, hk⟩ : ∃ k, maxUsedRanges - list.length = k + 1 :=
        ⟨maxUsedRanges - list.length - 1, by omega⟩
      have hk' : maxUsedRanges - (list ++ [f i]).length = k := by
        rw [List.length_append, List.length_singleton]
        omega
      rw [hk, hk', List.map_cons, List.take_succ_cons, List.append_assoc, List.singleton_append]
    · have h0 : maxUsedRanges - list.length = 0 := by omega
      rw [ih h, h0, List.take_zero, List.take_zero]

theorem mem_getUsedMemoryRanges {kbi : KernelBootInfo} (h0 : kbi.initrdStart = 0) :
    r ∈ getUsedMemoryRanges mem kbi kernel ↔
      (∃ i < kbi.moduleCount, i < maxUsedRanges ∧ moduleRange mem kbi.modules i = r) ∨
        kbi.moduleCount < maxUsedRanges ∧ r = kernel := by
  have he : getUsedMemoryRanges mem kbi kernel = rangeListPush
      (((List.range kbi.moduleCount).map (moduleRange mem kbi.modules)).take maxUsedRanges)
      kernel := by
    simp only [getUsedMemoryRanges, h0, ne_eq, not_true_eq_false, false_and, if_false]
    rw [foldl_rangeListPush _ _ (Nat.zero_le _)]
    rfl
  have hm : r ∈ ((List.range kbi.moduleCount).map (moduleRange mem kbi.modules)).take maxUsedRanges
      ↔ ∃ i < kbi.moduleCount, i < maxUsedRanges ∧ moduleRange mem kbi.modules i = r := by
    rw [← List.map_take, List.take_range, List.mem_map]
    simp only [List.mem_range, lt_min_iff, and_assoc]
    exact exists_congr fun i => ⟨fun h => ⟨h.2.1, h.1, h.2.2⟩, fun h => ⟨h.2.1, h.1, h.2.2⟩⟩
  have hlen : (((List.range kbi.moduleCount).map (moduleRange mem kbi.modules)).take
      maxUsedRanges).length < maxUsedRanges ↔ kbi.moduleCount < maxUsedRanges := by
    rw [List.length_take, List.length_map, List.length_range]
    omega
  rw [he, rangeListPush]
  split_ifs with hl
  · rw [List.mem_append, hm, List.mem_singleton]
    exact or_congr_right ⟨fun h => ⟨hlen.1 hl, h⟩, And.right⟩
  · rw [hm]
    exact ⟨Or.inl, fun h => h.resolve_right fun h => hl (hlen.2 h.1)⟩

theorem moduleRange_congr {view : Buf} (i : ℕ)
    (h : ∀ j, 16 ≤ j ∧ j < 24 ∨ 32 ≤ j → mem (p + j) = view j) :
    moduleRange mem p i = moduleRange view 0 i := by
  have hword (k : ℕ) (h1 : 16 ≤ k) (h2 : k + 4 ≤ 24) :
      getU32 mem (p + 32 * i + k) = getU32 view (0 + 32 * i + k) := by
    have hb (r : ℕ) (hr : r < 4) : mem (p + 32 * i + k + r) = view (0 + 32 * i + k + r) := by
      rw [Nat.zero_add, ← h _ (by omega)]
      congr 1
      omega
    have h0 := hb 0 (by decide)
    simp only [Nat.add_zero] at h0
    simp only [getU32, h0, hb 1 (by decide), hb 2 (by decide), hb 3 (by decide)]
  simp only [moduleRange]
  rw [hword 16 le_rfl (by decide), hword 20 (by decide) le_rfl]

/-- **What is listed** depends on the memory from the descriptor of the last module on and on
    the number of modules. -/
theorem mem_usedRanges_iff {h28 : e.idx + 28 < earlyAllocSize} (hidx : e.idx = 0)
    (hzero : ∀ j, e.base ≤ j → j < e.base + earlyAllocSize → e.mem j = 0)
    (hroom : pre.foldl BootTag.bump 28 + 32 < earlyAllocSize)
    (ht : ∀ t ∈ pre ++ .module m :: post, t.bytes ≤ bootParamsPhysicalAddr)
    (hs : (pre ++ .module m :: post).foldl BootState.add (startParse e h28 regions) = s)
    (hno : modulesOf post = []) :
    r ∈ getUsedMemoryRanges s.early.mem s.kbi kernel ↔ Listed e kernel pre m post r := by
  obtain ⟨hview, hcount, hinitrd⟩ := parsed_last hidx hzero hroom ht hs hno
  rw [mem_getUsedMemoryRanges hinitrd, hcount]
  constructor
  · rintro (⟨i, hi, hmax, rfl⟩ | ⟨hlt, rfl⟩)
    · rw [moduleRange_congr i hview]
      exact .entry i (by omega) hmax
    · exact .kernel hlt
  · rintro (⟨i, hi, hmax⟩ | hlt)
    · exact Or.inl ⟨i, by omega, hmax, moduleRange_congr i hview⟩
    · exact Or.inr ⟨hlt, rfl⟩

/-- The range of the last module is the first one that is listed. -/
theorem moduleRange_fromLast : moduleRange (fromLast e pre m post) 0 0 = m.range := by
  simp only [fromLast, moduleRange, BootModule.describe]
  rw [getU32_putU32_ne _ _ (by omega), getU32_putU32 _ _ m.start.toNat_lt,
    getU32_putU32 _ _ m.size.toNat_lt]
  rfl

end

end Kabanos
