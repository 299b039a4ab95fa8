/-
  What is in memory after `elf32_load`.

  A segment is loaded in whole pages, each into a new frame that is zeroed first.  So an address
  reads what the last segment with a page there put into that page, be it data or zero, even if
  the address itself belongs to an earlier segment.
-/
import Kabanos.Mm.CopyTo
import Kabanos.Mm.UserHalf

namespace Kabanos

variable {x elfSize : ℕ} {vm : Vmspace} {kmalloc : ℕ → Kmalloc}

/-- The byte at address `x` in a page of the segment. -/
def ProgHdr.byteAt (ph : ProgHdr) (image : Buf) (x : ℕ) : UInt8 :=
  if ph.vaddr ≤ x ∧ x < (ph.vaddr + ph.fileSize) % 2 ^ 32 then image (ph.off + (x - ph.vaddr))
  else 0

/-- The segment is loaded, and address `x` is in one of its pages. -/
def ProgHdr.Covers (ph : ProgHdr) (x : ℕ) : Prop :=
  ph.isLoad = true ∧ pagesStart ph.vaddr ≤ x ∧ x < pagesEnd ph.vaddr ph.memSize

instance ProgHdr.decidableCovers (ph : ProgHdr) (x : ℕ) : Decidable (ph.Covers x) :=
  inferInstanceAs (Decidable (_ ∧ _))

/-- The byte at address `x` after the first `n` program headers. -/
def loadedByte (image : Buf) : ℕ → ℕ → Option UInt8
  | 0, _ => none
  | n + 1, x =>
    if (phdr image n).Covers x then some ((phdr image n).byteAt image x) else loadedByte image n x

/-- Byte `x` of the segment as the file has it, with zeros behind the data. -/
def ProgHdr.wanted (ph : ProgHdr) (image : Buf) (x : ℕ) : UInt8 :=
  if x < ph.fileSize then image (ph.off + x) else 0

/-- The address range of segment `i` does not overlap that of another segment. -/
def ElfApart (image : Buf) (i : ℕ) : Prop :=
  ∀ j < (elfHeader image).phdrTableEntryCount, (phdr image j).isLoad = true → j ≠ i →
    (phdr image i).vaddr + (phdr image i).memSize ≤ (phdr image j).vaddr ∨
      (phdr image j).vaddr + (phdr image j).memSize ≤ (phdr image i).vaddr

/-- **The image is in memory**: each segment that overlaps no other one reads as the file has it. -/
def ElfFaithful (image : Buf) (m : Mm) (p : ℕ) : Prop :=
  ∀ i < (elfHeader image).phdrTableEntryCount, (phdr image i).isLoad = true → ElfApart image i →
    ∀ x < max (phdr image i).fileSize (phdr image i).memSize,
      readByte m p ((phdr image i).vaddr + x) = some ((phdr image i).wanted image x)

/-- The last segment with a page at address `y` has byte `c` there. -/
def LastByte (image : Buf) (y : ℕ) (c : UInt8) : Prop :=
  ∃ j < (elfHeader image).phdrTableEntryCount, (phdr image j).Covers y ∧
    (∀ l < (elfHeader image).phdrTableEntryCount, j < l → ¬ (phdr image l).Covers y) ∧
      (phdr image j).byteAt image y = c

/-- The segment that is loaded last into the page of a byte has the same byte there. -/
def ElfLayered (image : Buf) : Prop :=
  ∀ i < (elfHeader image).phdrTableEntryCount, (phdr image i).isLoad = true → ElfApart image i →
    ∀ x < max (phdr image i).fileSize (phdr image i).memSize,
      LastByte image ((phdr image i).vaddr + x) ((phdr image i).wanted image x)

instance ElfApart.decidable (image : Buf) (i : ℕ) : Decidable (ElfApart image i) :=
  inferInstanceAs (Decidable (∀ j < _, _ → _ → _))

instance LastByte.decidable (image : Buf) (y : ℕ) (c : UInt8) : Decidable (LastByte image y c) :=
  inferInstanceAs (Decidable (∃ j < _, _ ∧ (∀ l < _, _ → _) ∧ _))

/-- The segments end below `KERNEL_BASE`, with their data. -/
def ElfBelow (image : Buf) : Prop :=
  ∀ i < (elfHeader image).phdrTableEntryCount, (phdr image i).isLoad = true →
    (phdr image i).vaddr + max (phdr image i).fileSize (phdr image i).memSize ≤ kernelBase

theorem loadedByte_eq_some {image : Buf} {c : UInt8} (n : ℕ) : loadedByte image n x = some c ↔
      ∃ j < n, (phdr image j).Covers x ∧ (∀ l < n, j < l → ¬ (phdr image l).Covers x) ∧
        (phdr image j).byteAt image x = c := by
  induction n with
  | zero =>
    refine iff_of_false (fun h => by cases h) ?_
    rintro ⟨j, hj, -⟩
    omega
  | succ n ih =>
    rw [loadedByte]
    by_cases hc : (phdr image n).Covers x
    · rw [if_pos hc, Option.some.injEq]
      constructor
      · intro h
        exact ⟨n, by omega, hc, fun l h1 h2 => by omega, h⟩
      · rintro ⟨j, hj, -, hlast, h⟩
        rcases Nat.lt_or_ge j n with hlt | hge
        · exact absurd hc (hlast n (by omega) hlt)
        · obtain rfl : j = n := by omega
          exact h
    · rw [if_neg hc, ih]
      constructor
      · rintro ⟨j, hj, h1, h2, h3⟩
        refine ⟨j, by omega, h1, fun l hn hl => ?_, h3⟩
        rcases Nat.lt_or_ge l n with hlt | hge
        · exact h2 l hlt hl
        · obtain rfl : l = n := by omega
          exact hc
      · rintro ⟨j, hj, h1, h2, h3⟩
        have hjn : j ≠ n := by rintro rfl; exact hc h1
        exact ⟨j, by omega, h1, fun l hn hl => h2 l (by omega) hl, h3⟩

section
variable {m m' : Mm} {k : ℕ} {V : Finset ℕ} {p v f b n : ℕ} {image : Buf}

/-! ## The pages of one segment -/

/-- **One page of the copy loop** zeroes the frame of the page and copies the data of the page. -/
theorem loadPage_mem (hf : halVmVirtToPhys m p (v * 4096) = f) (hv : v + 1 < 2 ^ 20)
    (ph : ProgHdr) (image : Buf) (a : ℕ) :
    (loadPage p ph.vaddr (fun j => image (ph.off + j)) ph.fileSize m (v * 4096)).mem a =
      if f ≤ a ∧ a < f + 4096 then ph.byteAt image (v * 4096 + (a - f)) else m.mem a := by
  have hmod : (v * 4096 + 4096) % 2 ^ 32 = v * 4096 + 4096 := Nat.mod_eq_of_lt (by omega)
  simp only [loadPage, hf, hmod, ProgHdr.byteAt]
  generalize (ph.vaddr + ph.fileSize) % 2 ^ 32 = stop
  generalize v * 4096 = page
  split_ifs with h1 h2 h3 h4 h5
  · dsimp only
    rw [memcpy_in (by omega) (by omega)]
    have e : max page ph.vaddr - ph.vaddr + (a - (f + (max page ph.vaddr - page))) =
        page + (a - f) - ph.vaddr := by omega
    rw [e]
  · dsimp only
    rw [memcpy_out (by omega)]
    exact if_pos h2
  · dsimp only
    rw [memcpy_out (by omega)]
    exact if_neg h2
  · omega
  · exact if_pos h4
  · exact if_neg h4

/-- After `i` pages of the copy loop: the frames of these pages hold the segment, and the others
    what they held. -/
structure PagesLoaded (k : ℕ) (V : Finset ℕ) (p b : ℕ) (ph : ProgHdr) (image : Buf) (m₀ : Mm)
    (i : ℕ) (m : Mm) : Prop where
  writes : DataWrites k V m₀ m
  loaded : ∀ j < i, ∀ a < 4096,
    m.mem (pageOf (entry m₀ p (b + j)) + a) = ph.byteAt image ((b + j) * 4096 + a)
  others : ∀ g, g % 4096 = 0 → (∀ j < i, g ≠ pageOf (entry m₀ p (b + j))) → SameFrame m₀ m g

theorem loadPages_loaded (h : Dirs m k V) (hd : ∀ j < n, DataPage m k V p (b + j))
    (hinj : ∀ j < n, ∀ j' < n, pageOf (entry m p (b + j)) = pageOf (entry m p (b + j')) → j = j')
    (hbn : b + n < 2 ^ 20) (ph : ProgHdr) (image : Buf) :
    PagesLoaded k V p b ph image m n
      (loadPages p ph.vaddr (fun j => image (ph.off + j)) ph.fileSize m (b * 4096) n) := by
  have key : ∀ i ≤ n, PagesLoaded k V p b ph image m i
      (loadPages p ph.vaddr (fun j => image (ph.off + j)) ph.fileSize m (b * 4096) i) := by
    intro i
    induction i with
    | zero =>
      intro _
      exact ⟨.refl h, fun j hj => absurd hj (Nat.not_lt_zero j), fun g _ _ => .refl _ _⟩
    | succ i ih =>
      intro hi
      have hp := ih (by omega)
      have e : loadPages p ph.vaddr (fun j => image (ph.off + j)) ph.fileSize m (b * 4096) (i + 1) =
          loadPage p ph.vaddr (fun j => image (ph.off + j)) ph.fileSize
            (loadPages p ph.vaddr (fun j => image (ph.off + j)) ph.fileSize m (b * 4096) i)
            ((b + i) * 4096) := by
        rw [loadPages, List.range_succ, List.foldl_append, List.foldl_cons, List.foldl_nil,
          loadPages, Nat.add_mul]
      rw [e]
      generalize loadPages p ph.vaddr (fun j => image (ph.off + j)) ph.fileSize m (b * 4096) i = m1
        at hp
      have hdi := hd i (by omega)
      have hent : entry m1 p (b + i) = entry m p (b + i) :=
        hp.writes.entry p (mem_dirsOf hdi.dir) _ (by omega)
      have hphys : halVmVirtToPhys m1 p ((b + i) * 4096) = pageOf (entry m p (b + i)) := by
        rw [virtToPhys_eq, Nat.mul_div_cancel _ (by norm_num), Nat.mul_mod_left, Nat.add_zero, hent,
          if_neg hdi.mapped]
      have hmem := loadPage_mem hphys (by omega) ph image
      refine ⟨hp.writes.trans (loadPage_writes hp.writes.dirs (hp.writes.page hdi) (by omega) ..),
        fun j hj a ha => ?_, fun g hg hne a h1 h2 => ?_⟩
      · rw [hmem]
        rcases Nat.lt_succ_iff_lt_or_eq.1 hj with hj | rfl
        · have hne : pageOf (entry m p (b + j)) ≠ pageOf (entry m p (b + i)) := fun e => by
            have := hinj j (by omega) i (by omega) e
            omega
          rw [if_neg (not_in_frame (pageOf_aligned _) (pageOf_aligned _) hne (by omega) (by omega))]
          exact hp.loaded j hj a ha
        · rw [if_pos ⟨by omega, by omega⟩, Nat.add_sub_cancel_left]
      · rw [hmem, if_neg (not_in_frame (pageOf_aligned _) hg (hne i (by omega)) h1 h2)]
        exact hp.others g hg (fun j hj => hne j (by omega)) a h1 h2
  exact key n le_rfl

/-! ## The segments -/

/-- After the first `i` program headers: the pages of the process have frames of their own, and its
    addresses read what these headers say. -/
structure ElfLoaded (k : ℕ) (V : Finset ℕ) (p : ℕ) (image : Buf) (i : ℕ) (m : Mm) : Prop where
  dirs : Dirs m k V
  page : ∀ v < userPages, entry m p v ≠ 0 → DataPage m k V p v
  inj : ∀ v < userPages, ∀ u < userPages, entry m p v ≠ 0 → entry m p u ≠ 0 →
    pageOf (entry m p v) = pageOf (entry m p u) → v = u
  bytes : ∀ x < kernelBase, readByte m p x = loadedByte image i x

theorem ProgHdr.pages_below {ph : ProgHdr} (h : ph.vaddr + ph.memSize ≤ kernelBase) :
    ∃ b n, pagesStart ph.vaddr = b * 4096 ∧ pagesEnd ph.vaddr ph.memSize = (b + n) * 4096 ∧
      b + n ≤ userPages := by
  have hk : kernelBase = 0xC0000000 := rfl
  rw [hk] at h
  have e : pagesEnd ph.vaddr ph.memSize = (ph.vaddr + ph.memSize + 4095) / 4096 * 4096 := by
    rw [pagesEnd, Nat.mod_eq_of_lt (by omega), alignUp_eq (by omega)]
  refine ⟨ph.vaddr / 4096, (ph.vaddr + ph.memSize + 4095) / 4096 - ph.vaddr / 4096, rfl, ?_, ?_⟩
  · rw [e]; omega
  · rw [userPages]; omega

/-! ## The kernel heap -/

/-- The user half of the processes is as it was. -/
structure UserKept (k : ℕ) (V : Finset ℕ) (m m' : Mm) : Prop where
  dirs : Dirs m' k V
  entry : ∀ q ∈ V, ∀ u < userPages, entry m' q u = entry m q u
  held : ∀ a, m.pmm.Held a → m'.pmm.Held a
  table : ∀ a, IsTable m' (dirsOf k V) (procHome k) a →
    IsTable m (dirsOf k V) (procHome k) a ∨ ¬ m.pmm.Held a
  bytes : ∀ a, m.pmm.Held a → ¬ IsTable m (dirsOf k V) (procHome k) a → SameFrame m m' a

theorem UserKept.refl (h : Dirs m k V) : UserKept k V m m :=
  ⟨h, fun _ _ _ _ => rfl, fun _ ha => ha, fun _ => .inl, fun _ _ _ => .refl _ _⟩

/-- The page tables of the kernel half are shared, so it does not matter in which directory a page
    there is mapped. -/
theorem vaAllocPage_shared (h : Dirs m k V) (hp : p ∈ V) (h1 : userPages ≤ v) (hv : v + 1 < 2 ^ 20)
    (fl : ℕ) : vaAllocPage k fl m (v * 4096) = vaAllocPage p fl m (v * 4096) := by
  have hslot : 768 ≤ v / 1024 ∧ v / 1024 < 1024 := by rw [userPages] at h1; omega
  have hpr := h.upper _ hslot.1 hslot.2
  have hw : word m p (v / 1024) = word m k (v / 1024) := by
    rw [h.tables.shared p (mem_dirsOf hp) _ hslot.2, procHome_upper hslot.1]
  have h0 : pageOf (word m k (v / 1024)) ≠ 0 :=
    (h.tables.tables k (.inl rfl) _ hslot.2 (procHome_upper hslot.1 k k) hpr).isFrame.ne_zero
  unfold vaAllocPage
  rcases m.pmm.alloc_spec with ⟨e, -⟩ | ⟨s, f, e, ht⟩
  · simp only [e, if_true]
  have hmap : halVmMap { m with pmm := s } k (v * 4096) f fl =
      halVmMap { m with pmm := s } p (v * 4096) f fl := by
    have hf := ht.frame.lt h.tables.framed
    have hk := halVmMap_present (m := { m with pmm := s }) hv hpr h0 hf fl
    rw [← hw] at hpr h0
    have hp := halVmMap_present (m := { m with pmm := s }) hv hpr h0 hf fl
    rw [hk, hp]
    exact congrArg (fun w => (setWord { m with pmm := s } (pageOf w) (v % 1024)
      (makePte f (publicFlagsToArchFlags fl)), true)) hw.symm
  simp only [e, hmap]

/-- **`kmalloc`** leaves the user half alone, also when it takes a page for its heap. -/
theorem Kmalloc.run_kept (h : Dirs m k V) (hp : p ∈ V) (c : Kmalloc) :
    UserKept k V m (c.run k m).1 := by
  cases c with
  | fails => exact .refl h
  | slab => exact .refl h
  | page i contents =>
    have hi := i.isLt
    have hu : userPages = 786432 := rfl
    have hva : kernelHeapStart + i * 4096 = (0xE0000 + i) * 4096 := by rw [kernelHeapStart]; omega
    have hshared := vaAllocPage_shared h hp (v := 0xE0000 + i) (by omega) (by omega) 0x2
    rw [Kmalloc.run, heapPageAlloc, hva, hshared]
    rcases h.alloc_page hp (v := 0xE0000 + i) (by omega) 0x2 with
      ⟨m', e, hm⟩ | ⟨m', f, e, hg, hd, he⟩
    · simp only [e]
      exact ⟨hm.dirs h, fun q _ u _ => entry_of_mem hm.mem q u, fun a => (hm.held a).2,
        fun a ha => .inl ((isTable_of_mem hm.mem).1 ha), fun a _ _ b _ _ => by rw [hm.mem]⟩
    · simp only [e]
      have ha := hg.frame.aligned h.tables.framed
      have hphys : halVmVirtToPhys m' k ((0xE0000 + i) * 4096) = f := by
        have hent := he k (.inl rfl) (0xE0000 + i) (by omega)
        rw [if_pos ⟨rfl, by rw [procHome_upper (by omega), procHome_upper (by omega)]⟩] at hent
        rw [virtToPhys_eq, Nat.mul_div_cancel _ (by norm_num), Nat.mul_mod_left, Nat.add_zero, hent,
          if_neg (makePte_ne_zero _ _), pageOf_makePte ha]
      rw [hphys]
      have hmem : ∀ a, ¬ (f ≤ a ∧ a < f + 4096) →
          memcpy m'.mem f contents 0 4096 a = m'.mem a := fun a hout => memcpy_out (by omega)
      have hs : SameMaps k V m' { m' with mem := memcpy m'.mem f contents 0 4096 } :=
        hd.data_write hg.plain ha rfl hmem
      refine ⟨hs.dirs, fun q hq u hu' => ?_, hg.keep, fun a hT => hg.table a ((hs.table a).1 hT),
        fun a hheld hT b h1 h2 => ?_⟩
      · rw [hs.entry q (mem_dirsOf hq) u (by omega), he q (mem_dirsOf hq) u (by omega)]
        exact if_neg fun hc => by omega
      · have hne : a ≠ f := fun e => hg.fresh (e ▸ hheld)
        have hT' : ¬ IsTable m' (dirsOf k V) (procHome k) a := fun h' =>
          (hg.table a h').elim hT fun hn => hn hheld
        have haa := hheld.isFrame.aligned h.tables.framed
        exact (hmem b (not_in_frame ha haa hne h1 h2)).trans (hg.bytes a haa hT' b h1 h2)

/-- What is loaded stays when `kmalloc` is called. -/
theorem ElfLoaded.kept (h : ElfLoaded k V p image i m) (hp : p ∈ V) (hk : UserKept k V m m') :
    ElfLoaded k V p image i m' := by
  have hent : ∀ v < userPages, entry m' p v = entry m p v := hk.entry p hp
  refine ⟨hk.dirs, fun v hv hne => ?_, fun v hv u hu hne hne' e => ?_, fun x hx => ?_⟩
  · rw [hent v hv] at hne
    obtain ⟨-, h2, h3, h4, h5⟩ := h.page v hv hne
    refine ⟨hp, h2, ?_, ?_, ?_⟩ <;> rw [hent v hv]
    · exact h3
    · exact hk.held _ h4
    · exact fun hT => (hk.table _ hT).elim h5 fun hn => hn h4
  · rw [hent v hv] at hne e
    rw [hent u hu] at hne' e
    exact h.inj v hv u hu hne hne' e
  · have e1 : kernelBase = 0xC0000000 := rfl
    have e2 : userPages = 786432 := rfl
    have hv : x / 4096 < userPages := by omega
    have hm : x % 4096 < 4096 := Nat.mod_lt _ (by norm_num)
    rw [← h.bytes x hx, readByte, readByte, hent _ hv]
    by_cases hz : entry m p (x / 4096) = 0
    · rw [if_pos hz, if_pos hz]
    · have hpg := h.page _ hv hz
      rw [if_neg hz, if_neg hz, hk.bytes _ hpg.held hpg.plain _ (by omega) (by omega)]

section
variable {ph : ProgHdr} {i : ℕ}

/-- **One segment**: `m₁` is the machine with its pages, `m₂` that with the data in them. -/
theorem ElfLoaded.segment (h : ElfLoaded k V p image i m) (hp : p ∈ V) (hbn : b + n ≤ userPages)
    (hph : phdr image i = ph) (hl : ph.isLoad) (hs : pagesStart ph.vaddr = b * 4096)
    (he : pagesEnd ph.vaddr ph.memSize = (b + n) * 4096) {m1 m2 : Mm}
    (h₁ : Backed (dirsOf k V) (procHome k) p b m n m1)
    (h₂ : PagesLoaded k V p b ph image m1 n m2) : ElfLoaded k V p image (i + 1) m2 := by
  have hu : userPages = 786432 := rfl
  have hd1 := h₁.dirs h.dirs hp
  have hnew : ∀ j < n, DataPage m1 k V p (b + j) := fun j hj =>
    ⟨hp, by omega, h₁.mapped j hj, h₁.held j hj, h₁.plain j hj⟩
  have hent : ∀ v < userPages, entry m2 p v = entry m1 p v := fun v hv =>
    h₂.writes.entry p (mem_dirsOf hp) v (by omega)
  have hold : ∀ v < userPages, ¬ (b ≤ v ∧ v < b + n) → entry m1 p v = entry m p v := fun v hv hno =>
    h₁.rest p (mem_dirsOf hp) v (by omega) fun e => hno ⟨e.1, e.2.1⟩
  have hkeep : ∀ v < userPages, ¬ (b ≤ v ∧ v < b + n) → entry m p v ≠ 0 → DataPage m1 k V p v :=
    fun v hv hno hne => by
      obtain ⟨-, h2, h3, h4, h5⟩ := h.page v hv hne
      have e := hold v hv hno
      refine ⟨hp, h2, by rw [e]; exact h3, by rw [e]; exact h₁.keep _ h4, fun hT => ?_⟩
      rw [e] at hT
      exact (h₁.table _ hT).elim h5 fun hn => hn h4
  -- an old page and a new one
  have hapart : ∀ v < userPages, ¬ (b ≤ v ∧ v < b + n) → entry m p v ≠ 0 → ∀ j < n,
      pageOf (entry m p v) ≠ pageOf (entry m1 p (b + j)) := fun v hv _ hne j hj e =>
    h₁.fresh j hj (e ▸ (h.page v hv hne).held)
  refine ⟨h₂.writes.dirs, fun v hv hne => ?_, fun v hv u hv' hne hne' e => ?_, fun x hx => ?_⟩
  · rw [hent v hv] at hne
    refine h₂.writes.page ?_
    by_cases hin : b ≤ v ∧ v < b + n
    · obtain ⟨j, rfl⟩ := Nat.exists_eq_add_of_le hin.1
      exact hnew j (by omega)
    · exact hkeep v hv hin (by rw [← hold v hv hin]; exact hne)
  · rw [hent v hv] at hne e
    rw [hent u hv'] at hne' e
    by_cases hin : b ≤ v ∧ v < b + n <;> by_cases hin' : b ≤ u ∧ u < b + n
    · obtain ⟨j, rfl⟩ := Nat.exists_eq_add_of_le hin.1
      obtain ⟨j', rfl⟩ := Nat.exists_eq_add_of_le hin'.1
      rw [h₁.inj j (by omega) j' (by omega) e]
    · obtain ⟨j, rfl⟩ := Nat.exists_eq_add_of_le hin.1
      rw [hold u hv' hin'] at hne' e
      exact absurd e.symm (hapart u hv' hin' hne' j (by omega))
    · obtain ⟨j', rfl⟩ := Nat.exists_eq_add_of_le hin'.1
      rw [hold v hv hin] at hne e
      exact absurd e (hapart v hv hin hne j' (by omega))
    · rw [hold v hv hin] at hne e
      rw [hold u hv' hin'] at hne' e
      exact h.inj v hv u hv' hne hne' e
  · have hk : kernelBase = 0xC0000000 := rfl
    have hv : x / 4096 < userPages := by omega
    have hm : x % 4096 < 4096 := Nat.mod_lt _ (by norm_num)
    rw [loadedByte, hph]
    by_cases hin : b ≤ x / 4096 ∧ x / 4096 < b + n
    · have hc : ph.Covers x := ⟨hl, by omega, by omega⟩
      obtain ⟨j, hj⟩ := Nat.exists_eq_add_of_le hin.1
      have hjn : j < n := by omega
      rw [if_pos hc, readByte, hent _ hv, hj, if_neg (h₁.mapped j hjn), h₂.loaded j hjn _ hm]
      have hx : (b + j) * 4096 + x % 4096 = x := by omega
      rw [hx]
    · have hc : ¬ ph.Covers x := fun hc => hin (by have := hc.2; omega)
      rw [if_neg hc, ← h.bytes x hx, readByte, readByte, hent _ hv, hold _ hv hin]
      by_cases hz : entry m p (x / 4096) = 0
      · rw [if_pos hz, if_pos hz]
      · have hpg := h.page _ hv hz
        rw [if_neg hz, if_neg hz]
        have h1 := h₁.bytes _ hpg.held hpg.plain (pageOf (entry m p (x / 4096)) + x % 4096)
          (by omega) (by omega)
        have h2 := h₂.others _ (pageOf_aligned _) (hapart _ hv hin hz)
          (pageOf (entry m p (x / 4096)) + x % 4096) (by omega) (by omega)
        rw [h2, h1]

theorem ElfLoaded.skip (h : ElfLoaded k V p image i m) (hl : ¬ (phdr image i).isLoad) :
    ElfLoaded k V p image (i + 1) m :=
  ⟨h.dirs, h.page, h.inj, fun x hx => by
    rw [loadedByte, if_neg fun hc => hl hc.1, h.bytes x hx]⟩

theorem loadSegment_loaded {c : Kmalloc} {fl : ℕ}
    (h : (loadSegment k c m vm ph.vaddr ph.memSize (fun j => image (ph.off + j)) ph.fileSize
      fl).2.2) :
    (vaAllocRegion (c.run k m).1 vm.arch (pagesStart ph.vaddr)
        (sub32 (pagesEnd ph.vaddr ph.memSize) (pagesStart ph.vaddr)) (segmentFlags fl)).2 ∧
      (loadSegment k c m vm ph.vaddr ph.memSize (fun j => image (ph.off + j)) ph.fileSize fl).1 =
        loadPages vm.arch ph.vaddr (fun j => image (ph.off + j)) ph.fileSize
          (vaAllocRegion (c.run k m).1 vm.arch (pagesStart ph.vaddr)
            (sub32 (pagesEnd ph.vaddr ph.memSize) (pagesStart ph.vaddr)) (segmentFlags fl)).1
          (pagesStart ph.vaddr) ((pagesEnd ph.vaddr ph.memSize - pagesStart ph.vaddr) / 4096) ∧
      (loadSegment k c m vm ph.vaddr ph.memSize (fun j => image (ph.off + j)) ph.fileSize
        fl).2.1.arch = vm.arch := by
  unfold loadSegment at h ⊢
  generalize c.run k m = a at h ⊢
  obtain ⟨m0, _ | _⟩ := a
  · cases h
  · simp only [vmaCreate, if_true] at h ⊢
    generalize vaAllocRegion m0 vm.arch (pagesStart ph.vaddr)
      (sub32 (pagesEnd ph.vaddr ph.memSize) (pagesStart ph.vaddr)) (segmentFlags fl) = r at h ⊢
    obtain ⟨m', _ | _⟩ := r
    · cases h
    · exact ⟨rfl, rfl, rfl⟩

/-- **The body of the segment loop.** -/
theorem ElfLoaded.step (h : ElfLoaded k V p image i m) (hp : p ∈ V)
    (hvm : vm.arch = p) (hbelow : (phdr image i).isLoad →
      (phdr image i).vaddr + max (phdr image i).fileSize (phdr image i).memSize ≤ kernelBase)
    (hr : (loadPhdr k kmalloc image elfSize m vm i).2.2) :
    ElfLoaded k V p image (i + 1) (loadPhdr k kmalloc image elfSize m vm i).1 ∧
      (loadPhdr k kmalloc image elfSize m vm i).2.1.arch = p := by
  unfold loadPhdr at hr ⊢
  by_cases hl : (phdr image i).isLoad
  swap
  · simp only [Bool.not_eq_true _ ▸ hl, Bool.not_false, if_true]
    exact ⟨h.skip hl, hvm⟩
  simp only [hl, Bool.not_true, Bool.false_eq_true, if_false] at hr ⊢
  by_cases hb : elfSize < (phdr image i).off ∨
      elfSize < ((phdr image i).off + (phdr image i).fileSize) % 2 ^ 32
  · rw [if_pos hb] at hr
    cases hr
  rw [if_neg hb] at hr ⊢
  obtain ⟨b, n, hs, he, hbn⟩ := ProgHdr.pages_below (le_trans
    (Nat.add_le_add_left (le_max_right _ _) _) (hbelow hl))
  obtain ⟨h1, h2, h3⟩ := loadSegment_loaded hr
  have hu : userPages = 786432 := rfl
  have hsub : sub32 ((b + n) * 4096) (b * 4096) = n * 4096 := by
    unfold sub32
    omega
  have hdiv : ((b + n) * 4096 - b * 4096) / 4096 = n := by omega
  rw [hs, he, hsub, hvm] at h1 h2
  rw [hdiv] at h2
  replace h := h.kept hp (Kmalloc.run_kept h.dirs hp (kmalloc i))
  have hbk := vaAllocRegion_true h.dirs.tables (mem_dirsOf hp)
    (fun s hs => h.dirs.slot hp hs) (by omega) h1
  refine ⟨?_, h3.trans hvm⟩
  rw [h2]
  refine h.segment hp hbn rfl hl hs he hbk (loadPages_loaded (hbk.dirs h.dirs hp) (fun j hj => ?_)
    hbk.inj (by omega) _ _)
  exact ⟨hp, by omega, hbk.mapped j hj, hbk.held j hj, hbk.plain j hj⟩

theorem ElfLoaded.loop (hp : p ∈ V) (kmalloc : ℕ → Kmalloc) (elfSize n : ℕ) : ∀ s m (vm : Vmspace),
    ElfLoaded k V p image s m → vm.arch = p →
    (∀ i, s ≤ i → i < s + n → (phdr image i).isLoad →
      (phdr image i).vaddr + max (phdr image i).fileSize (phdr image i).memSize ≤ kernelBase) →
    (loadPhdrs k kmalloc image elfSize (List.range' s n) m vm).2.2 →
      ElfLoaded k V p image (s + n)
        (loadPhdrs k kmalloc image elfSize (List.range' s n) m vm).1 := by
  induction n with
  | zero => exact fun s m vm h _ _ _ => h
  | succ n ih =>
    intro s m vm h hvm hbelow hr
    rw [List.range'_succ, loadPhdrs] at hr ⊢
    by_cases hpass : (loadPhdr k kmalloc image elfSize m vm s).2.2
    · simp only [if_pos hpass] at hr ⊢
      obtain ⟨h1, h2⟩ := h.step hp hvm (hbelow s le_rfl (by omega)) hpass
      have := ih (s + 1) _ _ h1 h2 (fun i h3 h4 => hbelow i (by omega) (by omega)) hr
      rwa [Nat.add_right_comm] at this
    · simp only [if_neg hpass] at hr
      exact absurd hr hpass

end

/-- **What is in memory after `elf32_load`** of an image below `KERNEL_BASE` into a new address
    space. -/
theorem elf32Load_bytes (h : Dirs m k V) (hp : vm.arch ∈ V)
    (hfresh : ∀ v < userPages, entry m vm.arch v = 0) (hbelow : ElfBelow image)
    (hr : (elf32Load k kmalloc m vm image elfSize).2.2.isSome) (hx : x < kernelBase) :
    readByte (elf32Load k kmalloc m vm image elfSize).1 vm.arch x =
      loadedByte image (elfHeader image).phdrTableEntryCount x := by
  have h0 : ElfLoaded k V vm.arch image 0 m := by
    have hu : ∀ {y}, y < kernelBase → y / 4096 < userPages := fun {y} hy => by
      have e1 : kernelBase = 0xC0000000 := rfl
      have e2 : userPages = 786432 := rfl
      omega
    refine ⟨h, fun v hv hne => absurd (hfresh v hv) hne,
      fun v hv _ _ hne => absurd (hfresh v hv) hne, fun y hy => ?_⟩
    rw [readByte, hfresh _ (hu hy), if_pos rfl, loadedByte]
  unfold elf32Load at hr ⊢
  by_cases h1 : elfSize < elfHeaderSize
  · rw [if_pos h1] at hr; cases hr
  rw [if_neg h1] at hr ⊢
  by_cases h2 : (!(elfHeader image).valid)
  · rw [if_pos h2] at hr; cases hr
  rw [if_neg h2] at hr ⊢
  by_cases h3 : elfSize < (elfHeader image).phdrTablePos ∨
      elfSize < ((elfHeader image).phdrTablePos +
        (elfHeader image).phdrTableEntryCount * (elfHeader image).phdrTableEntrySize) % 2 ^ 32
  · simp only [if_pos h3] at hr; cases hr
  simp only [if_neg h3, List.range_eq_range'] at hr ⊢
  by_cases h4 : (loadPhdrs k kmalloc image elfSize
      (List.range' 0 (elfHeader image).phdrTableEntryCount) m vm).2.2
  · rw [if_pos h4]
    have := ElfLoaded.loop hp kmalloc elfSize _ 0 m vm h0 rfl
      (fun i _ hi => hbelow i (by omega)) h4
    rw [this.bytes x hx, Nat.zero_add]
  · rw [if_neg h4] at hr; cases hr

/-- **`elf32_load` is faithful** to an image below `KERNEL_BASE`, in a new address space, just when
    at each byte of a segment that overlaps no other one the segment that is loaded last into its
    page has the same byte. -/
theorem elf_load_faithful_iff (h : Dirs m k V) {vm : Vmspace} (hp : vm.arch ∈ V)
    (hfresh : ∀ v < userPages, entry m vm.arch v = 0) (hbelow : ElfBelow image)
    {kmalloc : ℕ → Kmalloc} {elfSize : ℕ}
    (hr : (elf32Load k kmalloc m vm image elfSize).2.2.isSome = true) :
    ElfFaithful image (elf32Load k kmalloc m vm image elfSize).1 vm.arch ↔ ElfLayered image := by
  have key : ∀ i < (elfHeader image).phdrTableEntryCount, (phdr image i).isLoad = true →
      ∀ x < max (phdr image i).fileSize (phdr image i).memSize,
        (readByte (elf32Load k kmalloc m vm image elfSize).1 vm.arch ((phdr image i).vaddr + x) =
            some ((phdr image i).wanted image x) ↔
          LastByte image ((phdr image i).vaddr + x) ((phdr image i).wanted image x)) :=
      fun i hi hl x hx => by
        have hlt : (phdr image i).vaddr + x < kernelBase := by have := hbelow i hi hl; omega
        rw [elf32Load_bytes h hp hfresh hbelow hr hlt, loadedByte_eq_some, LastByte]
  constructor
  · intro hf i hi hl ha x hx
    exact (key i hi hl x hx).1 (hf i hi hl ha x hx)
  · intro hlay i hi hl ha x hx
    exact (key i hi hl x hx).2 (hlay i hi hl ha x hx)

/-- An executable with two segments of 16 bytes: four bytes of data at `0x8048000`, and none at
    `vaddr`. -/
def twoSegments (vaddr : ℕ) : Buf :=
  [(0, 0x464C457F), (4, 0x101), (16, 0x30002), (28, 52), (40, 0x200000), (44, 2),
    (52, 1), (56, 116), (60, 0x8048000), (68, 4), (72, 16), (84, 1), (92, vaddr), (104, 16),
    (116, 0x44332211)].foldl (fun b w => putU32 b w.1 w.2) fun _ => 0

/-- Segments in different pages. -/
theorem elf_load_faithful_two_pages : ElfFaithful (twoSegments 0x8049000)
      (elf32Load 0x1000 (fun _ => .slab) demoUser.mm ⟨0x102000, []⟩ (twoSegments 0x8049000) 120).1
      0x102000 := by
  have hc : (vmspaceCreate (bootMm 0 0) 0x1000).2.map Vmspace.arch = some 0x102000 := by
    decide +kernel
  have hcr := bootMm_closed.toDirs.created hc
  have hfresh : ∀ v < userPages, entry demoUser.mm 0x102000 v = 0 := fun v hv => by
    have hv' := userPages_lt hv
    exact (hcr.empty v (by omega)).trans (if_pos hv)
  have hbelow : ElfBelow (twoSegments 0x8049000) := by
    unfold ElfBelow
    decide +kernel
  have hlay : ElfLayered (twoSegments 0x8049000) := by
    unfold ElfLayered
    decide +kernel
  have hp : (Vmspace.mk 0x102000 []).arch ∈ insert 0x102000 (∅ : Finset ℕ) :=
    Finset.mem_insert_self ..
  exact (elf_load_faithful_iff hcr.dirs hp hfresh hbelow (by decide +kernel)).2 hlay

/-- Segments in one page: the data of the first one is gone. -/
theorem elf_load_loses_data : ElfApart (twoSegments 0x8048800) 0 ∧
    (elf32Load 0x1000 (fun _ => .slab) demoUser.mm ⟨0x102000, []⟩ (twoSegments 0x8048800) 120).2.2 =
      some (0, 0) ∧
    (phdr (twoSegments 0x8048800) 0).wanted (twoSegments 0x8048800) 0 = 0x11 ∧
    readByte (elf32Load 0x1000 (fun _ => .slab) demoUser.mm ⟨0x102000, []⟩
      (twoSegments 0x8048800) 120).1 0x102000 0x8048000 = some 0 := by
  refine ⟨?_, ?_, ?_, ?_⟩ <;> decide +kernel

end

end Kabanos
