/-
  What the boot loader writes is what the kernel reads.

  The block is written from the first tag to the last, so that the bytes of a tag are those of
  the finished block (`Extends`); both sides then agree on where the next tag is, since they
  align the same size in the same way.
-/
import Kabanos.Boot.Early

namespace Kabanos

/-! ## The block that is written -/

/-- The finished block has what has been written before `currTag`, its own size apart. -/
def Extends (B : Buf) (w : BlockWriter) : Prop := ∀ j, 4 ≤ j → j < w.currTag → B j = w.buffer j

section
variable {B b : Buf} {w : BlockWriter} {lo hi off size entry : ℕ} {c : CStr} {m : BootModule}
  {rs : List MemoryRegion} {ms : List BootModule} {ts : List BootTag}

theorem le_mb2Align (h : size + 7 < 2 ^ 32) : size ≤ mb2Align size := by
  rw [mb2Align, Nat.mod_eq_of_lt h]
  omega

section
variable (h : ∀ j, lo ≤ j → j < hi → B j = b j)
include h

theorem getU32_agree (h1 : lo ≤ off) (h2 : off + 4 ≤ hi) : getU32 B off = getU32 b off :=
  getU32_congr fun j hj hj' => h j (by omega) (by omega)

theorem getU64_agree (h1 : lo ≤ off) (h2 : off + 8 ≤ hi) : getU64 B off = getU64 b off := by
  rw [getU64, getU64, getU32_agree h h1 (by omega), getU32_agree h (by omega) (by omega)]

theorem strAt_agree (hs : StrAt b off c) (h1 : lo ≤ off) (h2 : off + c.length < hi) :
    StrAt B off c :=
  hs.congr fun i hi => h _ (by omega) (by omega)

end

/-- A tag of `size` bytes has been written at `currTag`. -/
structure TagWritten (B : Buf) (w w' : BlockWriter) (size : ℕ) : Prop where
  before : Extends B w
  bytes : ∀ j, w.currTag ≤ j → j < w.currTag + size → B j = w'.buffer j
  size : getU32 B (w.currTag + 4) = size
  next : w'.currTag = w.currTag + alignUp8 (getU32 B (w.currTag + 4))

theorem Extends.written {w' : BlockWriter} (h : Extends B w') (hw : 8 ≤ w.currTag)
    (h8 : 8 ≤ size) (hs : size + 7 < 2 ^ 32)
    (hk : SameOutside w.currTag (w.currTag + size) w.buffer w'.buffer)
    (hz : getU32 w'.buffer (w.currTag + 4) = size)
    (hn : w'.currTag = w.currTag + mb2Align (getU32 w'.buffer (w.currTag + 4))) :
    TagWritten B w w' size := by
  rw [hz] at hn
  have hle := le_mb2Align hs
  have hb : ∀ j, w.currTag ≤ j → j < w.currTag + size → B j = w'.buffer j :=
    fun j h1 h2 => h j (by omega) (by omega)
  have hB : getU32 B (w.currTag + 4) = size := by
    rw [getU32_agree hb (by omega) (by omega), hz]
  refine ⟨fun j h1 h2 => ?_, hb, hB, ?_⟩
  · rw [h j h1 (by omega), hk j (Or.inl h2)]
  · rw [hB]
    exact hn

theorem written_cmdline (hw : 8 ≤ w.currTag) (hs : 8 + c.length + 1 + 7 < 2 ^ 32)
    (h : Extends B (writeCmdlineTag w c)) :
    TagWritten B w (writeCmdlineTag w c) (8 + c.length + 1) ∧ TagAt B w.currTag (.cmdline c) := by
  have hz : getU32 (writeCmdlineTag w c).buffer (w.currTag + 4) = 8 + c.length + 1 := by
    simp only [writeCmdlineTag]
    rw [(keeps_strcpy _ _ _).getU32 (by omega), getU32_putU32 _ _ (by omega)]
  have hk : SameOutside w.currTag (w.currTag + (8 + c.length + 1)) w.buffer
      (writeCmdlineTag w c).buffer := by
    have h1 := (keeps_putU32 w.buffer w.currTag 1).mono (le_refl w.currTag) (by omega :
      w.currTag + 4 ≤ w.currTag + (8 + c.length + 1))
    have h2 := h1.trans ((keeps_putU32 _ (w.currTag + 4) (8 + c.length + 1)).mono (by omega)
      (by omega))
    exact h2.trans ((keeps_strcpy _ (w.currTag + 8) c).mono (by omega) (by omega))
  have ht := h.written hw (by omega) hs hk hz rfl
  refine ⟨ht, .cmdline ?_ (strAt_agree ht.bytes (strAt_strcpy _ _ _) (by omega) (by omega))⟩
  rw [getU32_agree ht.bytes le_rfl (by omega)]
  simp only [writeCmdlineTag]
  rw [(keeps_strcpy _ _ _).getU32 (by omega), getU32_putU32_ne _ _ (by omega),
    getU32_putU32 _ _ (by decide)]

theorem written_module (hw : 8 ≤ w.currTag) (hs : 16 + m.path.length + 1 + 7 < 2 ^ 32)
    (h : Extends B (writeModuleTag w m)) :
    TagWritten B w (writeModuleTag w m) (16 + m.path.length + 1) ∧
      TagAt B w.currTag (.module m) := by
  have hz : getU32 (writeModuleTag w m).buffer (w.currTag + 4) = 16 + m.path.length + 1 :=
    getU32_putU32 _ _ (by omega)
  have hk : SameOutside w.currTag (w.currTag + (16 + m.path.length + 1)) w.buffer
      (writeModuleTag w m).buffer := by
    have h1 := (keeps_putU32 w.buffer w.currTag 3).mono (le_refl w.currTag) (by omega :
      w.currTag + 4 ≤ w.currTag + (16 + m.path.length + 1))
    have h2 := h1.trans ((keeps_putU32 _ (w.currTag + 8) m.start.toNat).mono (by omega) (by omega))
    have h3 := h2.trans ((keeps_putU32 _ (w.currTag + 12) (m.start.toNat + m.size.toNat)).mono
      (by omega) (by omega))
    have h4 := h3.trans ((keeps_strcpy _ (w.currTag + 16) m.path).mono (by omega) (by omega))
    exact h4.trans ((keeps_putU32 _ (w.currTag + 4) (16 + m.path.length + 1)).mono (by omega)
      (by omega))
  have ht := h.written hw (by omega) hs hk hz rfl
  have hstart : getU32 B (w.currTag + 8) = m.start.toNat := by
    rw [getU32_agree ht.bytes (by omega) (by omega)]
    simp only [writeModuleTag]
    rw [getU32_putU32_ne _ _ (by omega), (keeps_strcpy _ _ _).getU32 (by omega),
      getU32_putU32_ne _ _ (by omega), getU32_putU32 _ _ m.start.toNat_lt]
  have hend : getU32 B (w.currTag + 12) = (m.start.toNat + m.size.toNat) % 2 ^ 32 := by
    rw [getU32_agree ht.bytes (by omega) (by omega)]
    simp only [writeModuleTag]
    rw [getU32_putU32_ne _ _ (by omega), (keeps_strcpy _ _ _).getU32 (by omega),
      getU32_putU32_mod]
  refine ⟨ht, .module ?_ hstart ?_ (strAt_agree ht.bytes ?_ (by omega) (by omega))⟩
  · rw [getU32_agree ht.bytes le_rfl (by omega)]
    simp only [writeModuleTag]
    rw [getU32_putU32_ne _ _ (by omega), (keeps_strcpy _ _ _).getU32 (by omega),
      getU32_putU32_ne _ _ (by omega), getU32_putU32_ne _ _ (by omega),
      getU32_putU32 _ _ (by decide)]
  · -- the end may have wrapped, and the difference wraps back
    rw [hend, hstart, sub32]
    have h1 := m.start.toNat_lt
    have h2 := m.size.toNat_lt
    omega
  · exact (keeps_putU32 _ _ _).strAt (strAt_strcpy _ _ _) (Or.inr (by omega))

theorem keeps_writeMmapEntry (b : Buf) (entry : ℕ) (r : MemoryRegion) :
    SameOutside entry (entry + 24) b (writeMmapEntry b entry r) := by
  have h1 := (keeps_putU64 b entry r.start.toNat).mono (le_refl entry) (by omega :
    entry + 8 ≤ entry + 24)
  have h2 := h1.trans ((keeps_putU64 _ (entry + 8) r.size.toNat).mono (by omega) (by omega))
  have h3 := h2.trans ((keeps_putU32 _ (entry + 16) r.type.toNat).mono (by omega) (by omega))
  exact h3.trans ((keeps_putU32 _ (entry + 20) 0).mono (by omega) (by omega))

theorem keeps_writeMmapEntries (b : Buf) (entry : ℕ) (rs : List MemoryRegion) :
    SameOutside entry (entry + 24 * rs.length) b (writeMmapEntries b entry rs) := by
  induction rs generalizing b entry with
  | nil => exact SameOutside.refl _ _ _
  | cons r rs ih =>
    rw [List.length_cons]
    exact ((keeps_writeMmapEntry b entry r).mono le_rfl (by omega)).trans
      ((ih (writeMmapEntry b entry r) (entry + 24)).mono (by omega) (by omega))

theorem readMmapEntry_agree {r : MemoryRegion}
    (h : ∀ j, entry ≤ j → j < entry + 24 → B j = writeMmapEntry b entry r j) :
    readMmapEntry B entry = r := by
  have h1 : getU64 B entry = r.start.toNat := by
    rw [getU64_agree h le_rfl (by omega), writeMmapEntry, (keeps_putU32 _ _ _).getU64 (by omega),
      (keeps_putU32 _ _ _).getU64 (by omega), (keeps_putU64 _ _ _).getU64 (by omega),
      getU64_putU64 _ _ r.start.toNat_lt]
  have h2 : getU64 B (entry + 8) = r.size.toNat := by
    rw [getU64_agree h (by omega) (by omega), writeMmapEntry,
      (keeps_putU32 _ _ _).getU64 (by omega), (keeps_putU32 _ _ _).getU64 (by omega),
      getU64_putU64 _ _ r.size.toNat_lt]
  have h3 : getU32 B (entry + 16) = r.type.toNat := by
    rw [getU32_agree h (by omega) (by omega), writeMmapEntry, getU32_putU32_ne _ _ (by omega),
      getU32_putU32 _ _ r.type.toNat_lt]
  simp only [readMmapEntry, h1, h2, h3, UInt64.ofNat_toNat, UInt32.ofNat_toNat]

theorem entryWalk_written (h : ∀ j, entry ≤ j → j < entry + 24 * rs.length →
    B j = writeMmapEntries b entry rs j) :
    EntryWalk B 24 (entry + 24 * rs.length) entry rs := by
  induction rs generalizing b entry with
  | nil => exact .done le_rfl
  | cons r rs ih =>
    have hr : readMmapEntry B entry = r := by
      refine readMmapEntry_agree (b := b) fun j h1 h2 => ?_
      rw [h j h1 (by rw [List.length_cons]; omega)]
      exact keeps_writeMmapEntries (writeMmapEntry b entry r) (entry + 24) rs j (Or.inl h2)
    have hrest : EntryWalk B 24 (entry + 24 + 24 * rs.length) (entry + 24) rs :=
      ih (b := writeMmapEntry b entry r) fun j h1 h2 =>
        h j (by omega) (by rw [List.length_cons]; omega)
    have hstop : entry + 24 * (r :: rs).length = entry + 24 + 24 * rs.length := by
      rw [List.length_cons]
      omega
    have hw : EntryWalk B 24 (entry + 24 + 24 * rs.length) entry (readMmapEntry B entry :: rs) :=
      .next (by omega) hrest
    rw [hr] at hw
    rwa [hstop]

theorem written_mmap (hw : 8 ≤ w.currTag) (hs : 16 + 24 * rs.length + 7 < 2 ^ 32)
    (h : Extends B (writeMmapTag w rs)) :
    TagWritten B w (writeMmapTag w rs) (16 + 24 * rs.length) ∧ TagAt B w.currTag (.mmap rs) := by
  have hz : getU32 (writeMmapTag w rs).buffer (w.currTag + 4) = 16 + 24 * rs.length :=
    getU32_putU32 _ _ (by omega)
  have hk : SameOutside w.currTag (w.currTag + (16 + 24 * rs.length)) w.buffer
      (writeMmapTag w rs).buffer := by
    have h1 := (keeps_putU32 w.buffer w.currTag 6).mono (le_refl w.currTag) (by omega :
      w.currTag + 4 ≤ w.currTag + (16 + 24 * rs.length))
    have h2 := h1.trans ((keeps_putU32 _ (w.currTag + 8) 24).mono (by omega) (by omega))
    have h3 := h2.trans ((keeps_putU32 _ (w.currTag + 12) 0).mono (by omega) (by omega))
    have h4 := h3.trans ((keeps_writeMmapEntries _ (w.currTag + 16) rs).mono (by omega) (by omega))
    exact h4.trans ((keeps_putU32 _ (w.currTag + 4) (16 + 24 * rs.length)).mono (by omega)
      (by omega))
  have ht := h.written hw (by omega) hs hk hz rfl
  refine ⟨ht, .mmap ?_ ?_⟩
  · rw [getU32_agree ht.bytes le_rfl (by omega)]
    simp only [writeMmapTag]
    rw [getU32_putU32_ne _ _ (by omega), (keeps_writeMmapEntries _ _ _).getU32 (by omega),
      getU32_putU32_ne _ _ (by omega), getU32_putU32_ne _ _ (by omega),
      getU32_putU32 _ _ (by decide)]
  · have hstep : getU32 B (w.currTag + 8) = 24 := by
      rw [getU32_agree ht.bytes (by omega) (by omega)]
      simp only [writeMmapTag]
      rw [getU32_putU32_ne _ _ (by omega), (keeps_writeMmapEntries _ _ _).getU32 (by omega),
        getU32_putU32_ne _ _ (by omega), getU32_putU32 _ _ (by decide)]
    rw [hstep, ht.size, ← Nat.add_assoc]
    refine entryWalk_written (b := putU32 (putU32 (putU32 w.buffer w.currTag 6) (w.currTag + 8) 24)
      (w.currTag + 12) 0) fun j h1 h2 => ?_
    rw [ht.bytes j (by omega) (by omega)]
    exact keeps_putU32 _ (w.currTag + 4) _ j (Or.inr (by omega))

theorem written_end (hw : 8 ≤ w.currTag) (h : Extends B (writeEndTag w)) :
    TagWritten B w (writeEndTag w) 8 ∧ getU32 B w.currTag = 0 := by
  have hk : SameOutside w.currTag (w.currTag + 8) w.buffer (writeEndTag w).buffer :=
    ((keeps_putU32 w.buffer w.currTag 0).mono le_rfl (by omega)).trans
      ((keeps_putU32 _ (w.currTag + 4) 8).mono (by omega) (by omega))
  have ht := h.written hw le_rfl (by decide) hk (getU32_putU32 _ _ (by decide)) rfl
  refine ⟨ht, ?_⟩
  rw [getU32_agree ht.bytes le_rfl (by omega)]
  simp only [writeEndTag]
  rw [getU32_putU32_ne _ _ (by omega), getU32_putU32 _ _ (by decide)]

/-- The bytes that the tags of the modules take. -/
def modulesSize (ms : List BootModule) : ℕ := (ms.map fun m => 32 + (m.path.length + 1)).sum

theorem modulesSize_cons (m : BootModule) (ms : List BootModule) :
    modulesSize (m :: ms) = 32 + (m.path.length + 1) + modulesSize ms := by
  rw [modulesSize, List.map_cons, List.sum_cons, ← modulesSize]

theorem mb2Align_le (size : ℕ) : mb2Align size ≤ size + 7 := by
  rw [mb2Align]
  omega

theorem writeModuleTag_currTag (hs : 16 + m.path.length + 1 + 7 < 2 ^ 32) :
    (writeModuleTag w m).currTag = w.currTag + mb2Align (16 + m.path.length + 1) := by
  have hz : getU32 (writeModuleTag w m).buffer (w.currTag + 4) = 16 + m.path.length + 1 :=
    getU32_putU32 _ _ (by omega)
  rw [← hz]
  rfl

theorem foldl_writeModuleTag_currTag (hs : modulesSize ms < earlyAllocSize) :
    w.currTag ≤ (ms.foldl writeModuleTag w).currTag ∧
      (ms.foldl writeModuleTag w).currTag ≤ w.currTag + modulesSize ms := by
  induction ms generalizing w with
  | nil => exact ⟨le_rfl, le_rfl⟩
  | cons m ms ih =>
    rw [modulesSize_cons] at hs ⊢
    simp only [earlyAllocSize] at hs ih
    rw [List.foldl_cons]
    obtain ⟨h1, h2⟩ := ih (w := writeModuleTag w m) (by omega)
    have h3 := writeModuleTag_currTag (w := w) (m := m) (by omega)
    have h4 := mb2Align_le (16 + m.path.length + 1)
    exact ⟨by omega, by omega⟩

theorem walk_modules (hw : 8 ≤ w.currTag) (hs : modulesSize ms < earlyAllocSize)
    (h : Extends B (ms.foldl writeModuleTag w))
    (hend : (ms.foldl writeModuleTag w).currTag < getU32 B 0)
    (ht : TagWalk B (ms.foldl writeModuleTag w).currTag ts) :
    Extends B w ∧ w.currTag < getU32 B 0 ∧ TagWalk B w.currTag (ms.map .module ++ ts) := by
  induction ms generalizing w with
  | nil => exact ⟨h, hend, ht⟩
  | cons m ms ih =>
    rw [modulesSize_cons] at hs
    simp only [earlyAllocSize] at hs ih
    rw [List.foldl_cons] at h hend ht
    have hnext := writeModuleTag_currTag (w := w) (m := m) (by omega)
    have hpos := le_mb2Align (by omega : 16 + m.path.length + 1 + 7 < 2 ^ 32)
    obtain ⟨hx, hlt, hwalk⟩ := ih (by omega) (by omega) h hend ht
    obtain ⟨hwr, htag⟩ := written_module hw (by omega) hx
    refine ⟨hwr.before, by omega, ?_⟩
    rw [List.map_cons, List.cons_append]
    refine .next (by omega) htag ?_
    rwa [← hwr.next]

/-- **The block that is written** is walked as the command line, the modules and the memory
    map. -/
theorem walk_built (buffer : Buf) (hc : c.length + 1 + modulesSize ms < earlyAllocSize)
    (hr : rs.length ≤ maxMemoryRegions) :
    TagWalk (multiboot2Build buffer c ms rs) 8 (.cmdline c :: (ms.map .module ++ [.mmap rs])) := by
  simp only [earlyAllocSize] at hc
  simp only [maxMemoryRegions] at hr
  have hms : modulesSize ms < earlyAllocSize := by
    simp only [earlyAllocSize]
    omega
  obtain ⟨w1, hw1⟩ : ∃ w, w = writeCmdlineTag ⟨buffer, 8⟩ c := ⟨_, rfl⟩
  obtain ⟨w2, hw2⟩ : ∃ w, w = ms.foldl writeModuleTag w1 := ⟨_, rfl⟩
  obtain ⟨w3, hw3⟩ : ∃ w, w = writeMmapTag w2 rs := ⟨_, rfl⟩
  obtain ⟨w4, hw4⟩ : ∃ w, w = writeEndTag w3 := ⟨_, rfl⟩
  have hB : multiboot2Build buffer c ms rs = putU32 w4.buffer 0 w4.currTag := by
    rw [hw4, hw3, hw2, hw1]
    rfl
  -- where the tags begin
  have c1 : w1.currTag = 8 + mb2Align (8 + c.length + 1) := by
    have hz : getU32 (writeCmdlineTag ⟨buffer, 8⟩ c).buffer (8 + 4) = 8 + c.length + 1 := by
      simp only [writeCmdlineTag]
      rw [(keeps_strcpy _ _ _).getU32 (by omega), getU32_putU32 _ _ (by omega)]
    rw [hw1, ← hz]
    rfl
  have c2 := foldl_writeModuleTag_currTag (w := w1) hms
  have c3 : w3.currTag = w2.currTag + mb2Align (16 + 24 * rs.length) := by
    have hz : getU32 (writeMmapTag w2 rs).buffer (w2.currTag + 4) = 16 + 24 * rs.length :=
      getU32_putU32 _ _ (by omega)
    rw [hw3, ← hz]
    rfl
  have c4 : w4.currTag = w3.currTag + mb2Align 8 := by
    have hz : getU32 (writeEndTag w3).buffer (w3.currTag + 4) = 8 := getU32_putU32 _ _ (by decide)
    rw [hw4, ← hz]
    rfl
  rw [← hw2] at c2
  have l1 := mb2Align_le (8 + c.length + 1)
  have l3 := mb2Align_le (16 + 24 * rs.length)
  have l4 : mb2Align 8 = 8 := by decide
  have p3 := le_mb2Align (by omega : 16 + 24 * rs.length + 7 < 2 ^ 32)
  rw [hB]
  have hsize : getU32 (putU32 w4.buffer 0 w4.currTag) 0 = w4.currTag := getU32_putU32 _ _ (by omega)
  have x4 : Extends (putU32 w4.buffer 0 w4.currTag) w4 :=
    fun j h1 _ => keeps_putU32 w4.buffer 0 w4.currTag j (Or.inr h1)
  generalize putU32 w4.buffer 0 w4.currTag = B at hsize x4 ⊢
  -- from the last tag to the first
  subst hw4
  obtain ⟨t3, e3⟩ := written_end (by omega) x4
  have walk3 : TagWalk B w3.currTag [] := .endTag (by omega) e3
  have x3 := t3.before
  subst hw3
  obtain ⟨t2, e2⟩ := written_mmap (by omega) (by omega) x3
  have walk2 : TagWalk B w2.currTag [.mmap rs] := .next (by omega) e2 (by rwa [← t2.next])
  have x2 := t2.before
  subst hw2
  obtain ⟨x1, e1, walk1⟩ := walk_modules (by omega) hms x2 (by omega) walk2
  subst hw1
  obtain ⟨t0, e0⟩ := written_cmdline (w := ⟨buffer, 8⟩) le_rfl (by omega) x1
  exact .next (by omega) e0 (by rw [← t0.next]; exact walk1)

/-! ## What the kernel makes of it -/

theorem foldl_add_modules {s s' : BootState} {ms ms0 : List BootModule}
    (hfit : s.early.idx + modulesSize ms < earlyAllocSize)
    (h : ModuleList s.early.mem (s.early.base + s.early.idx) s.kbi.modules ms0)
    (hs : (ms.map BootTag.module).foldl BootState.add s = s') :
    s'.early.base = s.early.base ∧ s'.early.idx = s.early.idx + modulesSize ms ∧
      SameOutside (s.early.base + s.early.idx) (s.early.base + s'.early.idx) s.early.mem
        s'.early.mem ∧
      ModuleList s'.early.mem (s'.early.base + s'.early.idx) s'.kbi.modules (ms.reverse ++ ms0) ∧
      s'.kbi.moduleCount = s.kbi.moduleCount + ms.length ∧ s'.kbi.cmdline = s.kbi.cmdline ∧
      s'.kbi.regionCount = s.kbi.regionCount := by
  induction ms generalizing s ms0 with
  | nil =>
    obtain rfl : s = s' := hs
    exact ⟨rfl, rfl, SameOutside.refl _ _ _, h, rfl, rfl, rfl⟩
  | cons m ms ih =>
    rw [modulesSize_cons] at hfit
    have ha := BootState.addModule_spec (s := s) (m := m) (by omega)
    have hi := ha.idx
    obtain ⟨hb, hidx, hk, hl, hc, hcmd, hreg⟩ := ih (by omega) (h.added ha) hs
    refine ⟨hb.trans ha.base, ?_, ?_, ?_, ?_, ?_, ?_⟩
    · rw [modulesSize_cons]
      omega
    · rw [ha.base] at hk
      exact (ha.keeps.mono le_rfl (by omega)).trans (hk.mono (by omega) le_rfl)
    · rw [List.reverse_cons, List.append_assoc]
      exact hl
    · rw [hc, ha.kbi, List.length_cons]
      exact (Nat.add_right_comm _ _ _).trans (Nat.add_assoc _ _ _)
    · rw [hcmd, ha.kbi]
    · rw [hreg, ha.kbi]

theorem foldl_addRegion_regions (kbi : KernelBootInfo)
    (h : kbi.regionCount + rs.length ≤ maxMemoryRegions) :
    (List.range (rs.foldl addRegion kbi).regionCount).map (rs.foldl addRegion kbi).regions
      = (List.range kbi.regionCount).map kbi.regions ++ rs := by
  induction rs generalizing kbi with
  | nil => exact (List.append_nil _).symm
  | cons r rs ih =>
    rw [List.length_cons] at h
    have hr : addRegion kbi r = { kbi with
        regions := Function.update kbi.regions kbi.regionCount r
        regionCount := kbi.regionCount + 1 } := if_pos (by omega)
    rw [List.foldl_cons, ih (addRegion kbi r) (by rw [hr]; simp only; omega), hr]
    simp only [List.range_succ, List.map_append, List.map_singleton, Function.update_self]
    rw [List.append_assoc, List.singleton_append]
    congr 1
    refine List.map_congr_left fun i hi => ?_
    rw [Function.update_of_ne (List.mem_range.1 hi).ne]

end

theorem loadKbi_zero {mem : Buf} {p : ℕ} (regions : ℕ → MemoryRegion)
    (h : ∀ j, p ≤ j → j < p + 28 → mem j = 0) :
    loadKbi mem p regions = ⟨0, 0, 0, 0, regions, 0, 0⟩ := by
  have hz (k : ℕ) (hk : k + 4 ≤ 28) : getU32 mem (p + k) = 0 :=
    getU32_zero fun j h1 h2 => h j (by omega) (by omega)
  simp only [loadKbi]
  rw [hz 4 (by decide), hz 8 (by decide), hz 12 (by decide), hz 20 (by decide), hz 24 (by decide)]
  have h0 := hz 0 (by decide)
  rw [Nat.add_zero] at h0
  rw [h0]

/-- The state in which the parser begins with the tags. -/
def startParse (e : Early) (h : e.idx + 28 < earlyAllocSize) (regions : ℕ → MemoryRegion) :
    BootState :=
  ⟨{ e with idx := e.idx + 28, idx_lt := h },
    { loadKbi e.mem (e.base + e.idx) regions with moduleCount := 0 }⟩

theorem parseMultiboot2Early_eq {e : Early} (h : e.idx + 28 < earlyAllocSize)
    (regions : ℕ → MemoryRegion) (mbi : Buf) (n : ℕ) :
    parseMultiboot2Early e regions mbi n = parseTags mbi n 8 (startParse e h regions) := by
  rw [parseMultiboot2Early, earlyAlloc_eq h]
  rfl

theorem yields_parseMultiboot2Early {e : Early} {mbi : Buf} {ts : List BootTag}
    (h : e.idx + 28 < earlyAllocSize) (regions : ℕ → MemoryRegion) (hw : TagWalk mbi 8 ts) :
    Yields (parseMultiboot2Early e regions mbi)
      (ts.foldl BootState.add (startParse e h regions)) := by
  rw [funext (parseMultiboot2Early_eq h regions mbi)]
  exact yields_parseTags hw _

/-- **Boot information round trip**: the parser returns on the block that the boot loader
    writes, with the command line, the modules in reverse order and the memory map. -/
theorem boot_info_round_trip (buffer : Buf) (e : Early) (regions : ℕ → MemoryRegion)
    (cmdline : CStr) (modules : List BootModule) (memmap : List MemoryRegion) (hidx : e.idx = 0)
    (hzero : ∀ j, e.base ≤ j → j < e.base + earlyAllocSize → e.mem j = 0)
    (hmap : memmap.length ≤ maxMemoryRegions)
    (hfit : 28 + (cmdline.length + 1) + (modules.map fun m => 32 + (m.path.length + 1)).sum
      < earlyAllocSize) :
    ∃ s, Yields (parseMultiboot2Early e regions (multiboot2Build buffer cmdline modules memmap)) s ∧
      StrAt s.early.mem s.kbi.cmdline cmdline ∧
      ModuleList s.early.mem (s.early.base + s.early.idx) s.kbi.modules modules.reverse ∧
      s.kbi.moduleCount = modules.length ∧
      (List.range s.kbi.regionCount).map s.kbi.regions = memmap := by
  rw [← modulesSize] at hfit
  have h28 : e.idx + 28 < earlyAllocSize := by omega
  have hstart : (startParse e h28 regions).kbi = ⟨0, 0, 0, 0, regions, 0, 0⟩ := by
    simp only [startParse]
    rw [loadKbi_zero regions fun j h1 h2 => hzero j (by omega) (by omega)]
  have hsi : (startParse e h28 regions).early.idx = 28 := by
    show e.idx + 28 = 28
    omega
  -- the command line
  obtain ⟨s1, h₁⟩ : ∃ s, (startParse e h28 regions).addCmdline cmdline = s := ⟨_, rfl⟩
  have a1 := BootState.addCmdline_spec (s := startParse e h28 regions) (c := cmdline) (by omega)
  rw [h₁] at a1
  have i1 := a1.idx
  have l1 : ModuleList s1.early.mem (s1.early.base + s1.early.idx) s1.kbi.modules [] := by
    refine ModuleList.cmdlineAdded ?_ a1
    rw [hstart]
    exact .nil
  -- the modules
  have hfit1 : s1.early.idx + modulesSize modules < earlyAllocSize := by omega
  obtain ⟨s2, h₂⟩ : ∃ s, (modules.map BootTag.module).foldl BootState.add s1 = s := ⟨_, rfl⟩
  obtain ⟨b2, i2, k2, l2, c2, p2, r2⟩ := foldl_add_modules hfit1 l1 h₂
  rw [a1.base] at k2
  have hcmd : s2.kbi.cmdline
      = (startParse e h28 regions).early.base + (startParse e h28 regions).early.idx := by
    rw [p2, a1.kbi]
  have ht : StrAt s2.early.mem s2.kbi.cmdline cmdline := by
    rw [hcmd]
    exact k2.strAt a1.text (by omega)
  -- the memory map
  obtain ⟨hm, hc, hp, -⟩ := foldl_addRegion_modules memmap s2.kbi
  refine ⟨{ s2 with kbi := memmap.foldl addRegion s2.kbi }, ?_, ?_, ?_, ?_, ?_⟩
  · have hfit0 : cmdline.length + 1 + modulesSize modules < earlyAllocSize := by omega
    have hy := yields_parseMultiboot2Early h28 regions (walk_built buffer hfit0 hmap)
    rw [List.foldl_cons, BootState.add, h₁, List.foldl_append, h₂] at hy
    exact hy
  · rw [← hp] at ht
    exact ht
  · rw [List.append_nil] at l2
    simp only [hm]
    exact l2
  · simp only [hc]
    rw [c2, a1.kbi, hstart, Nat.zero_add]
  · have hreg : s2.kbi.regionCount = 0 := by rw [r2, a1.kbi, hstart]
    have h := foldl_addRegion_regions s2.kbi (by rw [hreg, Nat.zero_add]; exact hmap)
    rw [hreg] at h
    exact h

/-- Two modules. -/
def demoModules : List BootModule :=
  [⟨0x200000, 0x3000, ⟨[97], by simp⟩⟩, ⟨0x300000, 0x500, ⟨[98, 99], by simp⟩⟩]

/-- Zeroed memory with the early allocator at 1 MB. -/
def demoEarly : Early := ⟨fun _ => 0, 0x100000, 0, by decide, by decide, by decide⟩

/-- A command line, two modules and a memory map of one region. -/
theorem boot_info_round_trip_demo :
    ∃ s, Yields (parseMultiboot2Early demoEarly (fun _ => ⟨0, 0, 0⟩) (multiboot2Build (fun _ => 0)
        ⟨[114, 111, 111, 116], by simp⟩ demoModules [⟨0x100000, 0x7F00000, 1⟩])) s ∧
      StrAt s.early.mem s.kbi.cmdline ⟨[114, 111, 111, 116], by simp⟩ ∧
      ModuleList s.early.mem (s.early.base + s.early.idx) s.kbi.modules demoModules.reverse ∧
      s.kbi.moduleCount = 2 ∧
      (List.range s.kbi.regionCount).map s.kbi.regions = [⟨0x100000, 0x7F00000, 1⟩] :=
  boot_info_round_trip _ demoEarly _ _ demoModules _ rfl (fun _ _ _ => rfl) (by decide) (by decide)

end Kabanos
