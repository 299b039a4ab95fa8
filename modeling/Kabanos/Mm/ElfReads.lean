/-
  What `elf32_load` reads of an image.

  A read is an offset from `elf_data` and a length; pointers wrap at `2 ^ 32`.  The loader checks
  the size of the image against the header, the program header table and the segments, but in
  arithmetic that wraps, and it does not check the section headers and their names.
-/
import Kabanos.Mm.UserHalf

namespace Kabanos

/-- The bytes of a read that lie in an image of `size` bytes: all of them. -/
def Within (size : ℕ) (r : ℕ × ℕ) : Prop := ∀ t < r.2, (r.1 + t) % 2 ^ 32 < size

/-! ## The reads -/

/-- How many bytes of the string at `off` are read by `strcmp` with the string `s`. -/
def strcmpReads (image : Buf) (off : ℕ) : List UInt8 → ℕ
  | [] => 1
  | c :: s => if image off = c then 1 + strcmpReads image (off + 1) s else 1

theorem strcmpReads_pos (image : Buf) (off : ℕ) (s : List UInt8) : 0 < strcmpReads image off s := by
  cases s with
  | nil => exact Nat.one_pos
  | cons c s => rw [strcmpReads]; split_ifs <;> omega

def textName : List UInt8 := [0x2E, 0x74, 0x65, 0x78, 0x74]

/-- The offset of section header `i`. -/
def shdrPos (image : Buf) (i : ℕ) : ℕ := (elfHeader image).shdrTablePos + 40 * i

/-- The offset of the string table of the section names. -/
def shstrtab (image : Buf) : ℕ :=
  getU32 image (shdrPos image (elfHeader image).sectionNamesIndex + 16)

/-- The offset of the name of section `i`. -/
def namePos (image : Buf) (i : ℕ) : ℕ := shstrtab image + getU32 image (shdrPos image i)

/-- The reads of the loop over the section headers `l`. -/
def namesReads (image : Buf) : List ℕ → List (ℕ × ℕ)
  | [] => []
  | i :: l =>
    (shdrPos image i, 4) :: (namePos image i, strcmpReads image (namePos image i) textName) ::
      if isTextName image (namePos image i) then [(shdrPos image i + 12, 4)] else namesReads image l

/-- The reads of the search for `.text`. -/
def sectionReads (image : Buf) : List (ℕ × ℕ) :=
  (shdrPos image (elfHeader image).sectionNamesIndex + 16, 4) ::
    namesReads image (List.range (elfHeader image).shdrTableEntryCount)

/-- The offset of program header `i`. -/
def phdrPos (image : Buf) (i : ℕ) : ℕ :=
  (elfHeader image).phdrTablePos + i * (elfHeader image).phdrTableEntrySize

/-- `ph->off > elf_size || ph->off + ph->file_size > elf_size` is false. -/
def ProgHdr.InBounds (ph : ProgHdr) (elfSize : ℕ) : Prop :=
  ph.off ≤ elfSize ∧ (ph.off + ph.fileSize) % 2 ^ 32 ≤ elfSize

/-- The reads of program header `i`, field by field. -/
def phdrReads (image : Buf) (elfSize i : ℕ) : List (ℕ × ℕ) :=
  let pos := phdrPos image i
  let ph := phdr image i
  (pos, 4) ::
    if ph.type ≠ 1 then []
    else (pos + 20, 4) ::
      if ph.memSize = 0 then []
      else (pos + 4, 4) ::
        if elfSize < ph.off then []
        else (pos + 16, 4) ::
          if elfSize < (ph.off + ph.fileSize) % 2 ^ 32 then [] else [(pos + 24, 4), (pos + 8, 4)]

/-- The read of one page of `load_segment`, for file data at offset `off`. -/
def pageReads (off vaStart fileSize pageVa : ℕ) : List (ℕ × ℕ) :=
  let intersectStart := max pageVa vaStart
  let intersectEnd := min ((pageVa + 4096) % 2 ^ 32) ((vaStart + fileSize) % 2 ^ 32)
  if intersectStart < intersectEnd then
    [(off + (intersectStart - vaStart), intersectEnd - intersectStart)]
  else []

/-- The reads of the copy loop of `load_segment`. -/
def segmentReads (ph : ProgHdr) : List (ℕ × ℕ) :=
  (List.range ((pagesEnd ph.vaddr ph.memSize - pagesStart ph.vaddr) / 4096)).flatMap fun j =>
    pageReads ph.off ph.vaddr ph.fileSize (pagesStart ph.vaddr + j * 4096)

/-- The reads of the segment loop over the program headers `l`. -/
def loadPhdrsReads (kernel : ℕ) (kmalloc : ℕ → Kmalloc) (image : Buf) (elfSize : ℕ) :
    List ℕ → Mm → Vmspace → List (ℕ × ℕ)
  | [], _, _ => []
  | i :: l, m, vm =>
    let r := loadPhdr kernel kmalloc image elfSize m vm i
    phdrReads image elfSize i ++
      if r.2.2 then
        (if (phdr image i).isLoad then segmentReads (phdr image i) else []) ++
          loadPhdrsReads kernel kmalloc image elfSize l r.1 r.2.1
      else []

/-- `hdr->phdr_table_pos > elf_size || hdr->phdr_table_pos + phdr_size > elf_size` is false. -/
def ElfHeader.TableInBounds (hdr : ElfHeader) (elfSize : ℕ) : Prop :=
  hdr.phdrTablePos ≤ elfSize ∧
    (hdr.phdrTablePos + hdr.phdrTableEntryCount * hdr.phdrTableEntrySize) % 2 ^ 32 ≤ elfSize

instance ElfHeader.decidableTableInBounds (hdr : ElfHeader) (elfSize : ℕ) :
    Decidable (hdr.TableInBounds elfSize) :=
  inferInstanceAs (Decidable (_ ∧ _))

/-- The reads of `elf32_load`; `textBase` says whether the caller asks for the base of `.text`. -/
def elf32Reads (textBase : Bool) (kernel : ℕ) (kmalloc : ℕ → Kmalloc) (m : Mm) (vm : Vmspace)
    (image : Buf) (elfSize : ℕ) : List (ℕ × ℕ) :=
  if elfSize < elfHeaderSize then []
  else (0, elfHeaderSize) ::
    if !(elfHeader image).valid then []
    else (if textBase then sectionReads image else []) ++
      if (elfHeader image).TableInBounds elfSize then
        loadPhdrsReads kernel kmalloc image elfSize
          (List.range (elfHeader image).phdrTableEntryCount) m vm
      else []

/-! ## The reads are all that the loader knows of the image -/

/-- Two images have the same bytes where a read is made. -/
def SameBytes (image image' : Buf) (r : ℕ × ℕ) : Prop :=
  ∀ t < r.2, image' (r.1 + t) = image (r.1 + t)

section
variable {image image' : Buf} {size off i kernel : ℕ} {kmalloc : ℕ → Kmalloc} {m : Mm}
  {vm : Vmspace}

theorem SameBytes.getU32 (h : SameBytes image image' (off, 4)) :
    getU32 image' off = Kabanos.getU32 image off :=
  getU32_congr fun j h1 h2 => by
    have e := h (j - off) (show j - off < 4 by omega)
    rwa [show (off, 4).1 + (j - off) = j from Nat.add_sub_cancel' h1] at e

theorem elfHeader_congr (h : SameBytes image image' (0, elfHeaderSize)) :
    elfHeader image' = elfHeader image := by
  have e : ∀ t < 52, image' t = image t := fun t ht => by
    have := h t ht
    rwa [Nat.zero_add] at this
  simp [elfHeader, getU16, Kabanos.getU32, e]

theorem isTextName_eq (image : Buf) (off : ℕ) :
    isTextName image off = strEq image off textName := by
  simp [isTextName, strEq, textName, Nat.add_assoc, Bool.decide_and, Bool.beq_eq_decide_eq]

theorem strEq_congr (s : List UInt8) : ∀ off,
    SameBytes image image' (off, strcmpReads image off s) →
      strEq image' off s = strEq image off s := by
  induction s with
  | nil =>
    intro off h
    have h0 := h 0 Nat.one_pos
    simp only [Nat.add_zero] at h0
    simp only [strEq, h0]
  | cons c s ih =>
    intro off h
    have h0 := h 0 (strcmpReads_pos ..)
    simp only [Nat.add_zero] at h0
    by_cases hc : image off = c
    · have hs : SameBytes image image' (off + 1, strcmpReads image (off + 1) s) := by
        intro t ht
        have := h (1 + t) (by simp only [strcmpReads, if_pos hc]; exact Nat.add_lt_add_left ht 1)
        rwa [show (off, strcmpReads image off (c :: s)).1 + (1 + t) = off + 1 + t from
          (Nat.add_assoc ..).symm] at this
      simp only [strEq, h0, ih (off + 1) hs]
    · simp only [strEq, h0, beq_eq_false_iff_ne.2 hc, Bool.false_and]

/-- The address of the first section among `l` that is called `.text`. -/
def textAmong (image : Buf) (l : List ℕ) : ℕ :=
  (l.find? fun i => isTextName image (namePos image i)).elim 0 fun i =>
    getU32 image (shdrPos image i + 12)

theorem elfTextBase_eq (image : Buf) :
    elfTextBase image = textAmong image (List.range (elfHeader image).shdrTableEntryCount) := by
  unfold elfTextBase textAmong namePos shstrtab shdrPos
  dsimp only
  cases (List.range (elfHeader image).shdrTableEntryCount).find? _ <;> rfl

theorem textAmong_congr (hpos : ∀ i, shdrPos image' i = shdrPos image i)
    (htab : shstrtab image' = shstrtab image) (l : List ℕ)
    (h : ∀ r ∈ namesReads image l, SameBytes image image' r) :
    textAmong image' l = textAmong image l := by
  induction l with
  | nil => rfl
  | cons i l ih =>
    rw [namesReads] at h
    simp only [List.forall_mem_cons] at h
    obtain ⟨h1, h2, h3⟩ := h
    have hname : namePos image' i = namePos image i := by
      rw [namePos, namePos, htab, hpos, h1.getU32]
    have his : isTextName image' (namePos image' i) = isTextName image (namePos image i) := by
      rw [hname, isTextName_eq, isTextName_eq, strEq_congr _ _ h2]
    unfold textAmong at ih ⊢
    by_cases ht : isTextName image (namePos image i)
    · rw [if_pos ht] at h3
      simp only [List.find?_cons, his, ht, Option.elim_some]
      rw [hpos, (h3 _ (List.mem_singleton_self _)).getU32]
    · rw [if_neg ht] at h3
      simp only [List.find?_cons, his, ht]
      exact ih h3

theorem elfTextBase_congr (hh : elfHeader image' = elfHeader image)
    (h : ∀ r ∈ sectionReads image, SameBytes image image' r) :
    elfTextBase image' = elfTextBase image := by
  rw [sectionReads] at h
  simp only [List.forall_mem_cons] at h
  have hpos : ∀ i, shdrPos image' i = shdrPos image i := fun i => by rw [shdrPos, shdrPos, hh]
  have htab : shstrtab image' = shstrtab image := by
    rw [shstrtab, shstrtab, hpos, hh, h.1.getU32]
  rw [elfTextBase_eq, elfTextBase_eq, hh]
  exact textAmong_congr hpos htab _ h.2

theorem loadPage_congr {vaStart fileSize pageVa dir : ℕ}
    (h : ∀ r ∈ pageReads off vaStart fileSize pageVa, SameBytes image image' r) (m : Mm) :
    loadPage dir vaStart (fun j => image' (off + j)) fileSize m pageVa =
      loadPage dir vaStart (fun j => image (off + j)) fileSize m pageVa := by
  unfold pageReads at h
  unfold loadPage
  dsimp only at h ⊢
  split_ifs at h ⊢ with hlt
  · have hr := h _ (List.mem_singleton_self _)
    congr 1
    refine memcpy_congr fun t ht => ?_
    have := hr t ht
    dsimp only at this ⊢
    rwa [Nat.add_assoc] at this
  · rfl

theorem loadPages_congr {vaStart fileSize start n dir : ℕ}
    (h : ∀ j < n, ∀ r ∈ pageReads off vaStart fileSize (start + j * 4096),
      SameBytes image image' r) (m : Mm) :
    loadPages dir vaStart (fun j => image' (off + j)) fileSize m start n =
      loadPages dir vaStart (fun j => image (off + j)) fileSize m start n :=
  List.foldl_ext _ _ _ fun m j hj => loadPage_congr (h j (List.mem_range.1 hj)) m

theorem loadSegment_congr {k : Kmalloc} {vaStart memSize fileSize flags : ℕ}
    (h : (loadSegment kernel k m vm vaStart memSize (fun j => image (off + j)) fileSize flags).2.2 →
      ∀ j < (pagesEnd vaStart memSize - pagesStart vaStart) / 4096,
        ∀ r ∈ pageReads off vaStart fileSize (pagesStart vaStart + j * 4096),
          SameBytes image image' r) :
    loadSegment kernel k m vm vaStart memSize (fun j => image' (off + j)) fileSize flags =
      loadSegment kernel k m vm vaStart memSize (fun j => image (off + j)) fileSize flags := by
  unfold loadSegment at h ⊢
  dsimp only at h ⊢
  cases hv : vmaCreate (k.run kernel m).2 vaStart memSize (flags ||| vmaUser) with
  | none => rfl
  | some vma =>
    rw [hv] at h
    dsimp only at h ⊢
    split_ifs at h ⊢ with hr
    · rfl
    · rw [loadPages_congr (h rfl)]

/-- The body of the segment loop. -/
theorem loadPhdr_congr (hh : elfHeader image' = elfHeader image)
    (h : ∀ r ∈ phdrReads image size i, SameBytes image image' r)
    (hd : (phdr image i).isLoad → (loadPhdr kernel kmalloc image size m vm i).2.2 →
      ∀ r ∈ segmentReads (phdr image i), SameBytes image image' r) :
    loadPhdr kernel kmalloc image' size m vm i = loadPhdr kernel kmalloc image size m vm i := by
  have hpos : phdr image' i = progHdr image' (phdrPos image i) := by rw [phdr, hh]; rfl
  -- a field that is read is the same in both images
  have hfield : ∀ k, (phdrPos image i + k, 4) ∈ phdrReads image size i →
      getU32 image' (phdrPos image i + k) = getU32 image (phdrPos image i + k) :=
    fun k hk => (h _ hk).getU32
  have htype : (phdr image' i).type = (phdr image i).type := by
    rw [hpos]
    exact hfield 0 List.mem_cons_self
  by_cases h1 : (phdr image i).type = 1
  swap
  · simp [loadPhdr, ProgHdr.isLoad, htype, h1]
  have hmem : (phdr image' i).memSize = (phdr image i).memSize := by
    rw [hpos]
    exact hfield 20 (by simp [phdrReads, h1])
  by_cases h2 : (phdr image i).memSize = 0
  · simp [loadPhdr, ProgHdr.isLoad, hmem, h2]
  have hoff : (phdr image' i).off = (phdr image i).off := by
    rw [hpos]
    exact hfield 4 (by simp [phdrReads, h1, h2])
  by_cases h3 : size < (phdr image i).off
  · simp [loadPhdr, ProgHdr.isLoad, htype, hmem, hoff, h1, h2, h3]
  have hfile : (phdr image' i).fileSize = (phdr image i).fileSize := by
    rw [hpos]
    exact hfield 16 (by simp [phdrReads, h1, h2, h3])
  by_cases h4 : size < ((phdr image i).off + (phdr image i).fileSize) % 2 ^ 32
  · simp [loadPhdr, ProgHdr.isLoad, htype, hmem, hoff, hfile, h1, h2, h4, -Nat.reducePow]
  have hflags : (phdr image' i).flags = (phdr image i).flags := by
    rw [hpos]
    exact hfield 24 (by simp [phdrReads, h1, h2, h3, h4, -Nat.reducePow])
  have hva : (phdr image' i).vaddr = (phdr image i).vaddr := by
    rw [hpos]
    exact hfield 8 (by simp [phdrReads, h1, h2, h3, h4, -Nat.reducePow])
  have hl : (phdr image i).isLoad := by simp [ProgHdr.isLoad, h1, h2]
  have hl' : (phdr image' i).isLoad := by simp [ProgHdr.isLoad, htype, hmem, h1, h2]
  have hb := not_or.2 ⟨h3, h4⟩
  unfold loadPhdr at hd ⊢
  simp only [hl, Bool.not_true, Bool.false_eq_true, if_false, if_neg hb, true_implies] at hd
  simp only [hl, hl', Bool.not_true, Bool.false_eq_true, if_false, hmem, hoff, hfile, hflags, hva,
    if_neg hb]
  exact loadSegment_congr fun hr j hj r hmem =>
    hd hr r (List.mem_flatMap.2 ⟨j, List.mem_range.2 hj, hmem⟩)

/-- The segment loop. -/
theorem loadPhdrs_congr (hh : elfHeader image' = elfHeader image) (l : List ℕ) : ∀ m vm,
    (∀ r ∈ loadPhdrsReads kernel kmalloc image size l m vm, SameBytes image image' r) →
      loadPhdrs kernel kmalloc image' size l m vm =
        loadPhdrs kernel kmalloc image size l m vm := by
  induction l with
  | nil => exact fun _ _ _ => rfl
  | cons i l ih =>
    intro m vm h
    rw [loadPhdrsReads] at h
    simp only [List.forall_mem_append] at h
    obtain ⟨hp, hrest⟩ := h
    have hone : loadPhdr kernel kmalloc image' size m vm i =
        loadPhdr kernel kmalloc image size m vm i := by
      refine loadPhdr_congr hh hp fun hl hr r hm => hrest r ?_
      rw [if_pos hr, if_pos hl]
      exact List.mem_append_left _ hm
    simp only [loadPhdrs, hone]
    by_cases hr : (loadPhdr kernel kmalloc image size m vm i).2.2
    · rw [if_pos hr, if_pos hr]
      refine ih _ _ fun r hm => hrest r ?_
      rw [if_pos hr]
      exact List.mem_append_right _ hm
    · rw [if_neg hr, if_neg hr]

/-- **The reads are complete**: an image with the same bytes where `elf32_load` reads gives the same
    machine, address space and result. -/
theorem elf32Load_congr
    (h : ∀ r ∈ elf32Reads true kernel kmalloc m vm image size, SameBytes image image' r) :
    elf32Load kernel kmalloc m vm image' size = elf32Load kernel kmalloc m vm image size := by
  unfold elf32Reads at h
  unfold elf32Load
  dsimp only
  by_cases h0 : size < elfHeaderSize
  · rw [if_pos h0, if_pos h0]
  rw [if_neg h0] at h ⊢
  rw [if_neg h0]
  simp only [List.forall_mem_cons] at h
  obtain ⟨hhdr, h⟩ := h
  have hh := elfHeader_congr hhdr
  rw [hh]
  by_cases hv : (!(elfHeader image).valid) = true
  · rw [if_pos hv, if_pos hv]
  rw [if_neg hv] at h ⊢
  rw [if_neg hv]
  simp only [if_true, List.forall_mem_append] at h
  have htext := elfTextBase_congr hh h.1
  by_cases ht : (elfHeader image).TableInBounds size
  · rw [if_pos ht] at h
    rw [loadPhdrs_congr hh _ m vm h.2, htext]
  · have hno : size < (elfHeader image).phdrTablePos ∨
        size < ((elfHeader image).phdrTablePos + (elfHeader image).phdrTableEntryCount *
          (elfHeader image).phdrTableEntrySize) % 2 ^ 32 := by
      simpa only [not_and_or, not_le] using not_and_or.1 ht
    rw [if_pos hno, if_pos hno]

end

/-! ## Where they have to lie -/

/-- `len` bytes at offset `off` fit in the image. -/
def FitsAt (size off len : ℕ) : Prop := off % 2 ^ 32 + len ≤ size

/-- The section headers up to `.text` and their names lie in the image, and so does the header of
    the string table. -/
def SectionsFit (image : Buf) (size : ℕ) : Prop :=
  FitsAt size (shdrPos image (elfHeader image).sectionNamesIndex + 16) 4 ∧
    ∀ i < (elfHeader image).shdrTableEntryCount,
      (∀ j < i, isTextName image (namePos image j) = false) →
        FitsAt size (shdrPos image i) 4 ∧
        FitsAt size (namePos image i) (strcmpReads image (namePos image i) textName) ∧
        (isTextName image (namePos image i) = true → FitsAt size (shdrPos image i + 12) 4)

/-- The fields of program header `i` that matter lie in the image. -/
def PhdrFits (image : Buf) (size i : ℕ) : Prop :=
  FitsAt size (phdrPos image i) 4 ∧ ((phdr image i).type = 1 →
    FitsAt size (phdrPos image i + 20) 4 ∧ ((phdr image i).memSize ≠ 0 →
      FitsAt size (phdrPos image i + 4) 4 ∧ ((phdr image i).off ≤ size →
        FitsAt size (phdrPos image i + 16) 4 ∧ ((phdr image i).InBounds size →
          FitsAt size (phdrPos image i + 24) 4 ∧ FitsAt size (phdrPos image i + 8) 4))))

/-- The part of the segment's data that its pages have room for lies in the image. -/
def ProgHdr.DataFits (ph : ProgHdr) (size : ℕ) : Prop :=
  ph.vaddr + ph.fileSize < 2 ^ 32 →
    ph.off + min ph.fileSize (pagesEnd ph.vaddr ph.memSize - ph.vaddr) ≤ size

/-- The machine and the address space when the loop is at program header `i`. -/
def elfState (kernel : ℕ) (kmalloc : ℕ → Kmalloc) (image : Buf) (elfSize : ℕ) (m : Mm)
    (vm : Vmspace) : ℕ → Mm × Vmspace
  | 0 => (m, vm)
  | i + 1 =>
    let s := elfState kernel kmalloc image elfSize m vm i
    let r := loadPhdr kernel kmalloc image elfSize s.1 s.2 i
    (r.1, r.2.1)

/-- The loop goes on behind program header `i`: it is no segment to load, or it is accepted and
    there is memory for it. -/
def elfPasses (kernel : ℕ) (kmalloc : ℕ → Kmalloc) (image : Buf) (elfSize : ℕ) (m : Mm)
    (vm : Vmspace) (i : ℕ) : Bool :=
  let s := elfState kernel kmalloc image elfSize m vm i
  (loadPhdr kernel kmalloc image elfSize s.1 s.2 i).2.2

/-- **An image that lies within its size**: what the loader looks at fits in the image. -/
def ElfFits (textBase : Bool) (kernel : ℕ) (kmalloc : ℕ → Kmalloc) (m : Mm) (vm : Vmspace)
    (image : Buf) (size : ℕ) : Prop :=
  elfHeaderSize ≤ size → (elfHeader image).valid = true →
    (textBase = true → SectionsFit image size) ∧
    ((elfHeader image).TableInBounds size → ∀ i < (elfHeader image).phdrTableEntryCount,
      (∀ j < i, elfPasses kernel kmalloc image size m vm j = true) →
        PhdrFits image size i ∧
        ((phdr image i).isLoad = true → elfPasses kernel kmalloc image size m vm i = true →
          (phdr image i).DataFits size))

section
variable {image image' : Buf} {size off len i kernel : ℕ} {kmalloc : ℕ → Kmalloc} {m : Mm}
  {vm : Vmspace}

theorem within_iff (hs : size < 2 ^ 32) (hl : 0 < len) :
    Within size (off, len) ↔ FitsAt size off len := by
  unfold Within FitsAt
  constructor
  · intro h
    by_contra hlt
    have h0 := h 0 hl
    -- the first byte behind the image
    have h1 := h (size - off % 2 ^ 32) (by omega)
    dsimp only at h0 h1
    omega
  · intro h t ht
    dsimp only at ht ⊢
    omega

/-! ## Sections -/

theorem namesReads_within (hs : size < 2 ^ 32) (n : ℕ) : ∀ s,
    (∀ r ∈ namesReads image (List.range' s n), Within size r) ↔
      ∀ i, s ≤ i → i < s + n → (∀ j, s ≤ j → j < i → isTextName image (namePos image j) = false) →
        FitsAt size (shdrPos image i) 4 ∧
        FitsAt size (namePos image i) (strcmpReads image (namePos image i) textName) ∧
        (isTextName image (namePos image i) → FitsAt size (shdrPos image i + 12) 4) := by
  induction n with
  | zero =>
    intro s
    refine iff_of_true (fun r hr => ?_) fun i h1 h2 => by omega
    cases hr
  | succ n ih =>
    intro s
    rw [List.range'_succ, namesReads]
    simp only [List.forall_mem_cons]
    rw [within_iff hs (by norm_num), within_iff hs (strcmpReads_pos ..)]
    by_cases ht : isTextName image (namePos image s)
    · rw [if_pos ht]
      simp only [List.forall_mem_cons, List.not_mem_nil, false_implies, implies_true, and_true]
      rw [within_iff hs (by norm_num)]
      constructor
      · rintro ⟨h1, h2, h3⟩ i hi _ hno
        rcases Nat.eq_or_lt_of_le hi with rfl | hlt
        · exact ⟨h1, h2, fun _ => h3⟩
        · rw [hno s le_rfl hlt] at ht
          cases ht
      · intro h
        obtain ⟨h1, h2, h3⟩ := h s le_rfl (by omega) fun j h1 h2 => by omega
        exact ⟨h1, h2, h3 ht⟩
    · rw [if_neg ht, ih (s + 1)]
      rw [Bool.not_eq_true] at ht
      constructor
      · rintro ⟨h1, h2, h3⟩ i hi hin hno
        rcases Nat.eq_or_lt_of_le hi with rfl | hlt
        · exact ⟨h1, h2, fun h => by rw [ht] at h; cases h⟩
        · exact h3 i hlt (by omega) fun j hj hji => hno j (by omega) hji
      · intro h
        obtain ⟨h1, h2, -⟩ := h s le_rfl (by omega) fun j h1 h2 => by omega
        refine ⟨h1, h2, fun i hi hin hno => h i (by omega) (by omega) fun j hj hji => ?_⟩
        rcases Nat.eq_or_lt_of_le hj with rfl | hlt
        · exact ht
        · exact hno j hlt hji

theorem sectionReads_within (hs : size < 2 ^ 32) :
    (∀ r ∈ sectionReads image, Within size r) ↔ SectionsFit image size := by
  rw [sectionReads, List.range_eq_range', SectionsFit]
  simp only [List.forall_mem_cons]
  rw [within_iff hs (by norm_num), namesReads_within hs]
  simp only [Nat.zero_le, true_implies, Nat.zero_add]

/-! ## Program headers -/

theorem phdrReads_within (hs : size < 2 ^ 32) :
    (∀ r ∈ phdrReads image size i, Within size r) ↔ PhdrFits image size i := by
  have hw : ∀ o, Within size (o, 4) ↔ FitsAt size o 4 := fun o => within_iff hs (by norm_num)
  have hnil : ∀ r ∈ ([] : List (ℕ × ℕ)), Within size r := fun r hr => by cases hr
  unfold phdrReads PhdrFits
  simp only [List.forall_mem_cons, hw]
  refine and_congr_right fun _ => ?_
  by_cases h1 : (phdr image i).type = 1
  swap
  · rw [if_pos h1]
    exact iff_of_true hnil fun h => absurd h h1
  rw [if_neg (not_not.2 h1)]
  simp only [List.forall_mem_cons, hw, h1, true_implies]
  refine and_congr_right fun _ => ?_
  by_cases h2 : (phdr image i).memSize = 0
  · rw [if_pos h2]
    exact iff_of_true hnil fun h => absurd h2 h
  rw [if_neg h2]
  simp only [List.forall_mem_cons, hw, h2, ne_eq, not_false_eq_true, true_implies]
  refine and_congr_right fun _ => ?_
  by_cases h3 : size < (phdr image i).off
  · rw [if_pos h3]
    exact iff_of_true hnil fun h => absurd h (not_le.2 h3)
  rw [if_neg h3]
  simp only [List.forall_mem_cons, hw, not_lt.1 h3, true_implies]
  refine and_congr_right fun _ => ?_
  by_cases h4 : size < ((phdr image i).off + (phdr image i).fileSize) % 2 ^ 32
  · rw [if_pos h4]
    exact iff_of_true hnil fun h => absurd h.2 (not_le.2 h4)
  rw [if_neg h4]
  have hb : (phdr image i).InBounds size := ⟨not_lt.1 h3, not_lt.1 h4⟩
  simp only [List.forall_mem_cons, hw, hb, true_implies, List.not_mem_nil, false_implies,
    implies_true, and_true]

/-! ## Segments -/

/-- The fields of a program header are 32-bit words. -/
structure ProgHdr.Words (ph : ProgHdr) : Prop where
  vaddr : ph.vaddr < 2 ^ 32
  fileSize : ph.fileSize < 2 ^ 32

theorem phdr_words (image : Buf) (i : ℕ) : (phdr image i).Words :=
  ⟨getU32_lt .., getU32_lt ..⟩

theorem segmentReads_within {ph : ProgHdr} (hs : size < 2 ^ 32) (hw : ph.Words)
    (hb : ph.InBounds size) :
    (∀ r ∈ segmentReads ph, Within size r) ↔ ph.DataFits size := by
  obtain ⟨hst, hlt⟩ := alignUp_aligned ((ph.vaddr + ph.memSize) % 2 ^ 32)
  have hfs := hw.fileSize
  have hva := hw.vaddr
  have hoff := hb.1
  unfold segmentReads ProgHdr.DataFits
  rw [pagesStart, alignDown, pagesEnd]
  generalize alignUp ((ph.vaddr + ph.memSize) % 2 ^ 32) = stop at hst hlt ⊢
  constructor
  · intro h hsum
    by_contra hno
    -- the page with the first byte behind the image
    obtain ⟨x, hx⟩ : ∃ x, ph.off + x = size := ⟨size - ph.off, by omega⟩
    obtain ⟨j, hj⟩ : ∃ j, j = (ph.vaddr + x - ph.vaddr / 4096 * 4096) / 4096 := ⟨_, rfl⟩
    have hpage : ph.vaddr / 4096 * 4096 + j * 4096 ≤ ph.vaddr + x ∧
        ph.vaddr + x < ph.vaddr / 4096 * 4096 + j * 4096 + 4096 := by omega
    obtain ⟨page, hp⟩ : ∃ page, ph.vaddr / 4096 * 4096 + j * 4096 = page := ⟨_, rfl⟩
    rw [hp] at hpage
    have hmod1 : (page + 4096) % 2 ^ 32 = page + 4096 := Nat.mod_eq_of_lt (by omega)
    have hmod2 : (ph.vaddr + ph.fileSize) % 2 ^ 32 = ph.vaddr + ph.fileSize := Nat.mod_eq_of_lt hsum
    have hlt' : max page ph.vaddr < min (page + 4096) (ph.vaddr + ph.fileSize) := by omega
    have hr := h (ph.off + (max page ph.vaddr - ph.vaddr),
        min (page + 4096) (ph.vaddr + ph.fileSize) - max page ph.vaddr) (by
      refine List.mem_flatMap.2 ⟨j, List.mem_range.2 (by omega), ?_⟩
      rw [hp, pageReads, hmod1, hmod2, if_pos hlt']
      exact List.mem_singleton_self _)
    have h1 := hr (ph.vaddr + x - max page ph.vaddr) (by dsimp only; omega)
    dsimp only at h1
    omega
  · intro h r hr t ht
    obtain ⟨j, hj, hr⟩ := List.mem_flatMap.1 hr
    have hjn := List.mem_range.1 hj
    obtain ⟨page, hp⟩ : ∃ page, ph.vaddr / 4096 * 4096 + j * 4096 = page := ⟨_, rfl⟩
    rw [hp] at hr
    have hmod1 : (page + 4096) % 2 ^ 32 = page + 4096 := Nat.mod_eq_of_lt (by omega)
    rw [pageReads, hmod1] at hr
    by_cases hlt' : max page ph.vaddr < min (page + 4096) ((ph.vaddr + ph.fileSize) % 2 ^ 32)
    · rw [if_pos hlt'] at hr
      obtain rfl := List.mem_singleton.1 hr
      have hsum : ph.vaddr + ph.fileSize < 2 ^ 32 := by omega
      have := h hsum
      rw [Nat.mod_eq_of_lt hsum] at hlt' ht
      dsimp only at ht ⊢
      omega
    · rw [if_neg hlt'] at hr
      cases hr

theorem loadPhdr_inBounds (hl : (phdr image i).isLoad)
    (hr : (loadPhdr kernel kmalloc image size m vm i).2.2) : (phdr image i).InBounds size := by
  unfold loadPhdr at hr
  by_cases hb : size < (phdr image i).off ∨
      size < ((phdr image i).off + (phdr image i).fileSize) % 2 ^ 32
  · simp only [hl, Bool.not_true, Bool.false_eq_true, if_false, if_pos hb] at hr
  · exact ⟨not_lt.1 fun h => hb (.inl h), not_lt.1 fun h => hb (.inr h)⟩

/-- **The segment loop**, from program header `s` on. -/
theorem loadPhdrsReads_within (kernel : ℕ) (kmalloc : ℕ → Kmalloc) (image : Buf) (m : Mm)
    (vm : Vmspace) (hs : size < 2 ^ 32) (n : ℕ) : ∀ s,
    (∀ r ∈ loadPhdrsReads kernel kmalloc image size (List.range' s n)
        (elfState kernel kmalloc image size m vm s).1 (elfState kernel kmalloc image size m vm s).2,
      Within size r) ↔
      ∀ i, s ≤ i → i < s + n →
        (∀ j, s ≤ j → j < i → elfPasses kernel kmalloc image size m vm j) →
          PhdrFits image size i ∧
          ((phdr image i).isLoad → elfPasses kernel kmalloc image size m vm i →
            (phdr image i).DataFits size) := by
  induction n with
  | zero =>
    intro s
    refine iff_of_true (fun r hr => ?_) fun i h1 h2 => by omega
    cases hr
  | succ n ih =>
    intro s
    rw [List.range'_succ, loadPhdrsReads]
    simp only [List.forall_mem_append]
    rw [phdrReads_within hs]
    have hpass : (loadPhdr kernel kmalloc image size (elfState kernel kmalloc image size m vm s).1
        (elfState kernel kmalloc image size m vm s).2 s).2.2 =
        elfPasses kernel kmalloc image size m vm s := rfl
    by_cases hp : elfPasses kernel kmalloc image size m vm s
    · have hdata : (∀ r ∈ (if (phdr image s).isLoad then segmentReads (phdr image s) else []),
          Within size r) ↔ ((phdr image s).isLoad → (phdr image s).DataFits size) := by
        by_cases hl : (phdr image s).isLoad
        · rw [if_pos hl, segmentReads_within hs (phdr_words ..) (loadPhdr_inBounds hl hp)]
          exact ⟨fun h _ => h, fun h => h hl⟩
        · rw [if_neg hl]
          exact iff_of_true (fun r hr => by cases hr) fun h => absurd h hl
      rw [hpass, if_pos hp]
      simp only [List.forall_mem_append]
      have ih' := ih (s + 1)
      simp only [elfState] at ih'
      rw [hdata, ih']
      constructor
      · rintro ⟨h1, h2, h3⟩ i hi hin hpre
        rcases Nat.eq_or_lt_of_le hi with rfl | hlt
        · exact ⟨h1, fun hl _ => h2 hl⟩
        · exact h3 i hlt (by omega) fun j hj hji => hpre j (by omega) hji
      · intro h
        obtain ⟨h1, h2⟩ := h s le_rfl (by omega) fun j h1 h2 => by omega
        refine ⟨h1, fun hl => h2 hl hp, fun i hi hin hpre => ?_⟩
        refine h i (by omega) (by omega) fun j hj hji => ?_
        rcases Nat.eq_or_lt_of_le hj with rfl | hlt
        · exact hp
        · exact hpre j hlt hji
    · rw [hpass, if_neg hp]
      constructor
      · rintro ⟨h1, -⟩ i hi _ hpre
        rcases Nat.eq_or_lt_of_le hi with rfl | hlt
        · exact ⟨h1, fun _ h => absurd h hp⟩
        · exact absurd (hpre s le_rfl hlt) hp
      · intro h
        exact ⟨(h s le_rfl (by omega) fun j h1 h2 => by omega).1, fun r hr => by cases hr⟩

end

end Kabanos
