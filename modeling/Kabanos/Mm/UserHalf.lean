/-
  Mappings that a process asks for: the segments of an ELF image and the heap.

  A region is harmless to the kernel half if it ends below `KERNEL_BASE`, or if memory runs
  out before it gets there.
-/
import Kabanos.Mm.Elf
import Kabanos.Mm.Region

namespace Kabanos

variable {m'' : Mm} {start stop free : ℕ} {vm : Vmspace} {r : Mm × Vmspace × Bool} {image : Buf}

/-- The entries of the kernel half are as in `m₀`. -/
def SameUpper (k : ℕ) (V : Finset ℕ) (m₀ m : Mm) : Prop :=
  ∀ q ∈ dirsOf k V, ∀ v, userPages ≤ v → v < 2 ^ 20 → entry m q v = entry m₀ q v

/-- A region from `start` to `stop` does not reach the kernel half with `free` frames. -/
def InUserHalf (free start stop : ℕ) : Prop :=
  stop ≤ start ∨ stop ≤ kernelBase ∨ start + free * 4096 ≤ kernelBase

/-- What holds while `i` pages from page `b` on are backed. -/
structure Backing (k : ℕ) (V : Finset ℕ) (p b : ℕ) (m₀ : Mm) (i : ℕ) (m : Mm) : Prop where
  dirs : Dirs m k V
  ok : m.pmm.Ok
  upper : SameUpper k V m₀ m
  free : frameGetFreeCount m.pmm + i ≤ frameGetFreeCount m₀.pmm
  low : ∀ j < i, b + j < userPages
  page : ∀ j < i, DataPage m k V p (b + j)
  inj : ∀ j < i, ∀ j' < i, pageOf (entry m p (b + j)) = pageOf (entry m p (b + j')) → j = j'

/-- What holds while pages are cleaned up again, with those from `i` to `n` to go. -/
structure Cleaning (k : ℕ) (V : Finset ℕ) (p b n : ℕ) (m₀ : Mm) (i : ℕ) (m : Mm) : Prop where
  dirs : Dirs m k V
  ok : m.pmm.Ok
  upper : SameUpper k V m₀ m
  low : ∀ j < n, b + j < userPages
  page : ∀ j, i ≤ j → j < n → DataPage m k V p (b + j)
  inj : ∀ j, i ≤ j → j < n → ∀ j', i ≤ j' → j' < n →
    pageOf (entry m p (b + j)) = pageOf (entry m p (b + j')) → j = j'

section
variable {m m' m₀ : Mm} {k : ℕ} {V : Finset ℕ} {p q v u f fl b n i : ℕ}

theorem SameUpper.refl (m : Mm) : SameUpper k V m m := fun _ _ _ _ _ => rfl

theorem SameUpper.trans (h : SameUpper k V m₀ m) (h' : SameUpper k V m m') : SameUpper k V m₀ m' :=
  fun q hq v h1 h2 => (h' q hq v h1 h2).trans (h q hq v h1 h2)

theorem SameUpper.user_page (h : SameUpper k V m₀ m) (hv : v < userPages) {w : ℕ}
    (he : ∀ q ∈ dirsOf k V, ∀ u < 2 ^ 20, entry m' q u =
      if u = v ∧ procHome k q (v / 1024) = procHome k p (v / 1024) then w else entry m q u) :
    SameUpper k V m₀ m' := fun q hq u h1 h2 => by
  rw [he q hq u h2, if_neg fun e => by omega]
  exact h q hq u h1 h2

theorem Backing.step (h : Backing k V p b m₀ i m) (hp : p ∈ V) (hv : b + i + 1 < 2 ^ 20)
    (hlim : b + i < userPages ∨ b + frameGetFreeCount m₀.pmm ≤ userPages)
    (hr : (vaAllocPage p fl m ((b + i) * 4096)).2) :
    Backing k V p b m₀ (i + 1) (vaAllocPage p fl m ((b + i) * 4096)).1 := by
  rcases h.dirs.alloc_page hp hv fl with ⟨m', e, -⟩ | ⟨m', f, e, hg, hd, he⟩ <;> rw [e] at hr ⊢
  · cases hr
  have hfr := h.dirs.tables.framed
  have hfree := hg.free h.ok
  have h1 := h.free
  have hlow : b + i < userPages := by omega
  have hcount : frameGetFreeCount m'.pmm + (i + 1) ≤ frameGetFreeCount m₀.pmm := by omega
  obtain ⟨g1, g2⟩ := Gives.page hfr hg he hp (by omega)
  have hsame : ∀ j < i, entry m' p (b + j) = entry m p (b + j) := fun j hj => by
    rw [he p (mem_dirsOf hp) (b + j) (by omega), if_neg fun e => by omega]
  refine ⟨hd, hg.ok h.ok, h.upper.user_page hlow he, hcount, fun j hj => ?_, fun j hj => ?_,
    fun j hj j' hj' ej => ?_⟩
  · rcases Nat.lt_succ_iff_lt_or_eq.1 hj with hj | rfl
    · exact h.low j hj
    · exact hlow
  · rcases Nat.lt_succ_iff_lt_or_eq.1 hj with hj | rfl
    · exact ((h.page j hj).give hfr hg he).1
    · exact g1
  · -- the new frame was free, the others were not
    have hne : ∀ j < i, pageOf (entry m' p (b + j)) ≠ f := fun j hj e => by
      rw [hsame j hj] at e
      exact hg.fresh (e ▸ (h.page j hj).held)
    rcases Nat.lt_succ_iff_lt_or_eq.1 hj with hj | rfl <;>
      rcases Nat.lt_succ_iff_lt_or_eq.1 hj' with hj' | rfl
    · rw [hsame j hj, hsame j' hj'] at ej
      exact h.inj j hj j' hj' ej
    · exact absurd (ej.trans g2) (hne j hj)
    · exact absurd (ej.symm.trans g2) (hne j' hj')
    · rfl

theorem Cleaning.step (h : Cleaning k V p b n m₀ i m) (hp : p ∈ V) (hi : i < n) :
    Cleaning k V p b n m₀ (i + 1) (vaCleanPage p m ((b + i) * 4096)) := by
  have hlow := h.low i hi
  have hpg := h.page i le_rfl hi
  obtain ⟨g1, g2, g3, g5⟩ := h.dirs.clean_page hp (userPages_lt hlow) (.inr ⟨hpg.held, hpg.plain⟩)
  rw [if_neg hpg.mapped] at g2
  have hdr := Pmm.free_spec h.dirs.tables.framed hpg.held
  rw [← g2] at hdr
  have hsame : ∀ j, i + 1 ≤ j → j < n →
      entry (vaCleanPage p m ((b + i) * 4096)) p (b + j) = entry m p (b + j) := fun j h1 h2 => by
    rw [g5 p (mem_dirsOf hp) (b + j) (h.page j (by omega) h2).lt, if_neg fun e => by omega]
  refine ⟨g1, hdr.ok h.ok, h.upper.user_page hlow g5, h.low, fun j h1 h2 => ?_,
    fun j h1 h2 j' h1' h2' e => ?_⟩
  · have hj := h.page j (by omega) h2
    refine ⟨hp, hj.lt, ?_, ?_, ?_⟩ <;> rw [hsame j h1 h2]
    · exact hj.mapped
    · refine (hdr.held _).2 ⟨hj.held, fun e => ?_⟩
      have := h.inj j (by omega) h2 i le_rfl hi e
      omega
    · exact fun ht => hj.plain ((g3 _).1 ht)
  · rw [hsame j h1 h2, hsame j' h1' h2'] at e
    exact h.inj j (by omega) h2 j' (by omega) h2' e

theorem Backing.cleaning (h : Backing k V p b m₀ n m) (hu : Untouched m m') :
    Cleaning k V p b n m₀ 0 m' := by
  have he := fun q v => entry_of_mem hu.mem q v
  refine ⟨hu.dirs h.dirs, hu.ok h.ok, fun q hq v h1 h2 => (he q v).trans (h.upper q hq v h1 h2),
    h.low, fun j _ hj => ?_, fun j _ hj j' _ hj' e => ?_⟩
  · have := h.page j hj
    refine ⟨this.dir, this.lt, ?_, ?_, ?_⟩ <;> rw [he]
    · exact this.mapped
    · exact (hu.held _).2 this.held
    · exact fun ht => this.plain ((isTable_of_mem hu.mem).1 ht)
  · rw [he, he] at e
    exact h.inj j hj j' hj' e

/-- **`va_alloc_region` below the kernel half** does not change the kernel half, whether it
    succeeds or not. -/
theorem vaAllocRegion_user (h : Dirs m k V) (ho : m.pmm.Ok) (hp : p ∈ V) (hbn : b + n < 2 ^ 20)
    (hlim : b + n ≤ userPages ∨ b + frameGetFreeCount m.pmm ≤ userPages) (fl : ℕ) :
    Dirs (vaAllocRegion m p (b * 4096) (n * 4096) fl).1 k V ∧
      (vaAllocRegion m p (b * 4096) (n * 4096) fl).1.pmm.Ok ∧
      SameUpper k V m (vaAllocRegion m p (b * 4096) (n * 4096) fl).1 ∧
      ((vaAllocRegion m p (b * 4096) (n * 4096) fl).2 →
        Backing k V p b m n (vaAllocRegion m p (b * 4096) (n * 4096) fl).1) := by
  have h0 : Backing k V p b m 0 m :=
    ⟨h, ho, .refl m, le_rfl, fun j hj => absurd hj (Nat.not_lt_zero j),
    fun j hj => absurd hj (Nat.not_lt_zero j), fun j hj => absurd hj (Nat.not_lt_zero j)⟩
  rcases vaAllocRegion_rule (J := Backing k V p b m) hbn (fun i hi m' hJ hok =>
    hJ.step hp (by omega) (hlim.imp (fun h1 => by omega) id) hok) h0 with
    ⟨m', e, h1⟩ | ⟨j, hj, m1, m2, h1, h2, e⟩ <;> rw [e]
  · exact ⟨h1.dirs, h1.ok, h1.upper, fun _ => h1⟩
  · have hu : Untouched m1 m2 := by
      rcases h1.dirs.alloc_page hp (v := b + j) (by omega) fl with ⟨m', e', hu⟩ | ⟨_, _, e', -⟩ <;>
        rw [h2] at e'
      · cases e'
        exact hu
      · cases (Prod.mk.inj e').2
    have := vaClean_rule (J := Cleaning k V p b j m) (fun i hi m' hJ => hJ.step hp hi)
      (h1.cleaning hu)
    exact ⟨this.dirs, this.ok, this.upper, fun hf => by cases hf⟩

/-! ## Segments -/

/-- The machine after writes to data pages. -/
structure DataWrites (k : ℕ) (V : Finset ℕ) (m m' : Mm) : Prop extends SameMaps k V m m' where
  pmm : m'.pmm = m.pmm

theorem DataWrites.refl (h : Dirs m k V) : DataWrites k V m m := ⟨.refl h, rfl⟩

theorem DataWrites.trans (h : DataWrites k V m m') (h' : DataWrites k V m' m'') :
    DataWrites k V m m'' := ⟨h.toSameMaps.trans h'.toSameMaps, h'.pmm.trans h.pmm⟩

theorem DataWrites.page (h : DataWrites k V m m') (hd : DataPage m k V q u) :
    DataPage m' k V q u := by
  have e := h.entry q (mem_dirsOf hd.dir) u hd.lt
  refine ⟨hd.dir, hd.lt, ?_, ?_, ?_⟩ <;> rw [e]
  · exact hd.mapped
  · rw [h.pmm]; exact hd.held
  · exact fun ht => hd.plain ((h.table _).1 ht)

theorem loadPage_writes (h : Dirs m k V) (hd : DataPage m k V p v) (hv : v + 1 < 2 ^ 20)
    (vaStart : ℕ) (fileData : Buf) (fileSize : ℕ) :
    DataWrites k V m (loadPage p vaStart fileData fileSize m (v * 4096)) := by
  set f := pageOf (entry m p v) with hf
  have ephys : halVmVirtToPhys m p (v * 4096) = f := by
    rw [virtToPhys_eq, Nat.mul_div_cancel _ (by norm_num), Nat.mul_mod_left, Nat.add_zero,
      if_neg hd.mapped]
  have hpmm : (loadPage p vaStart fileData fileSize m (v * 4096)).pmm = m.pmm := by
    simp only [loadPage]
    split_ifs <;> rfl
  have hmem : ∀ a, ¬ (f ≤ a ∧ a < f + 4096) →
      (loadPage p vaStart fileData fileSize m (v * 4096)).mem a = m.mem a := by
    intro a ha
    have hset : memset m.mem f 0 4096 a = m.mem a := if_neg ha
    simp only [loadPage, ephys]
    split_ifs with hc
    · refine (memcpy_out ?_).trans hset
      have h1 : min ((v * 4096 + 4096) % 2 ^ 32) ((vaStart + fileSize) % 2 ^ 32) ≤
          v * 4096 + 4096 := by
        omega
      generalize min ((v * 4096 + 4096) % 2 ^ 32) ((vaStart + fileSize) % 2 ^ 32) = e at hc h1
      omega
    · exact hset
  exact ⟨h.data_write hd.plain (pageOf_aligned _) hpmm hmem, hpmm⟩

theorem loadPages_writes (h : Dirs m k V) (hd : ∀ j < n, DataPage m k V p (b + j))
    (hbn : b + n < 2 ^ 20) (vaStart : ℕ) (fileData : Buf) (fileSize : ℕ) :
    DataWrites k V m (loadPages p vaStart fileData fileSize m (b * 4096) n) := by
  have : ∀ i ≤ n, DataWrites k V m (loadPages p vaStart fileData fileSize m (b * 4096) i) := by
    intro i
    induction i with
    | zero => exact fun _ => .refl h
    | succ i ih =>
      intro hi
      have hw := ih (by omega)
      have e : loadPages p vaStart fileData fileSize m (b * 4096) (i + 1) =
          loadPage p vaStart fileData fileSize
            (loadPages p vaStart fileData fileSize m (b * 4096) i) ((b + i) * 4096) := by
        rw [loadPages, List.range_succ, List.foldl_append, List.foldl_cons, List.foldl_nil,
          loadPages, Nat.add_mul]
      rw [e]
      exact hw.trans (loadPage_writes hw.dirs (hw.page (hd i (by omega))) (by omega) ..)
  exact this n le_rfl

theorem vaAllocRegion_empty (h1 : start % 4096 = 0) (h2 : stop % 4096 = 0)
    (h3 : stop ≤ start) (h4 : start < 2 ^ 32) (m : Mm) (p fl : ℕ) :
    vaAllocRegion m p start (sub32 stop start) fl = (m, true) := by
  have e1 : alignDown start = start := by rw [alignDown]; omega
  have e2 : (start + sub32 stop start) % 2 ^ 32 = stop := by rw [sub32]; omega
  have e3 : alignUp stop = stop := by rw [alignUp, alignDown]; omega
  have e4 : (stop - start) / 4096 = 0 := by omega
  rw [vaAllocRegion, e1, e2, e3, e4]
  rfl

/-- What a call keeps: the directories, the allocator and the kernel half. -/
structure Keeps (k : ℕ) (V : Finset ℕ) (m m' : Mm) : Prop where
  dirs : Dirs m' k V
  ok : m'.pmm.Ok
  upper : SameUpper k V m m'

theorem Keeps.trans (h : Keeps k V m m') (h' : Keeps k V m' m'') : Keeps k V m m'' :=
  ⟨h'.dirs, h'.ok, h.upper.trans h'.upper⟩

/-- `kmalloc` does not take a new page for its heap. -/
def Kmalloc.InPlace : Kmalloc → Prop
  | .page _ _ => False
  | _ => True

theorem Kmalloc.InPlace.run {c : Kmalloc} (h : c.InPlace) (k : ℕ) (m : Mm) :
    c.run k m = (m, false) ∨ c.run k m = (m, true) := by
  cases c with
  | fails => exact .inl rfl
  | slab => exact .inr rfl
  | page i contents => exact h.elim

/-- **`load_segment`** below the kernel half. -/
theorem loadSegment_user (h : Dirs m k V) (ho : m.pmm.Ok) (hp : vm.arch ∈ V)
    {vaStart memSize : ℕ} (hva : vaStart < 2 ^ 32)
    (hlim : InUserHalf (frameGetFreeCount m.pmm) (pagesStart vaStart) (pagesEnd vaStart memSize))
    {kmalloc : Kmalloc} (hin : kmalloc.InPlace) (fileData : Buf) (fileSize flags : ℕ)
    (hr : loadSegment k kmalloc m vm vaStart memSize fileData fileSize flags = r) :
    Keeps k V m r.1 ∧ r.2.1.arch = vm.arch ∧
      (r.2.2 → frameGetFreeCount r.1.pmm ≤ frameGetFreeCount m.pmm) := by
  rw [loadSegment] at hr
  rcases hin.run k m with hk | hk <;> rw [hk] at hr
  · subst hr
    exact ⟨⟨h, ho, .refl m⟩, rfl, fun _ => le_rfl⟩
  · obtain ⟨start, hs⟩ : ∃ a, pagesStart vaStart = a := ⟨_, rfl⟩
    obtain ⟨stop, ht⟩ : ∃ a, pagesEnd vaStart memSize = a := ⟨_, rfl⟩
    have hs1 : start % 4096 = 0 ∧ start < 2 ^ 32 := by
      rw [← hs, pagesStart, alignDown]; omega
    have ht1 : stop % 4096 = 0 ∧ stop < 2 ^ 32 := by
      rw [← ht, pagesEnd, alignUp, alignDown]; omega
    rw [hs, ht] at hlim hr
    simp only [vmaCreate, if_true] at hr
    by_cases hle : stop ≤ start
    · rw [vaAllocRegion_empty hs1.1 ht1.1 hle hs1.2, Nat.sub_eq_zero_of_le hle] at hr
      subst hr
      exact ⟨⟨h, ho, .refl m⟩, rfl, fun _ => le_rfl⟩
    · obtain ⟨b, rfl⟩ : ∃ b, start = b * 4096 := ⟨start / 4096, by omega⟩
      obtain ⟨n, rfl⟩ : ∃ n, stop = (b + n) * 4096 := ⟨(stop - b * 4096) / 4096, by omega⟩
      have e1 : sub32 ((b + n) * 4096) (b * 4096) = n * 4096 := by rw [sub32]; omega
      have e2 : ((b + n) * 4096 - b * 4096) / 4096 = n := by omega
      rw [e1, e2] at hr
      have hlim' : b + n ≤ userPages ∨ b + frameGetFreeCount m.pmm ≤ userPages := by
        rw [userPages]
        rcases hlim with h1 | h1 | h1
        · exact absurd h1 hle
        · rw [kernelBase] at h1; omega
        · rw [kernelBase] at h1; omega
      obtain ⟨g1, g2, g3, g4⟩ := vaAllocRegion_user h ho hp (by omega) hlim' (segmentFlags flags)
      obtain ⟨a, ha⟩ :
          ∃ a, vaAllocRegion m vm.arch (b * 4096) (n * 4096) (segmentFlags flags) = a :=
        ⟨_, rfl⟩
      rw [ha] at hr g1 g2 g3 g4
      obtain ⟨m1, ok⟩ := a
      cases ok with
      | false =>
        subst hr
        exact ⟨⟨g1, g2, g3⟩, rfl, fun hf => by cases hf⟩
      | true =>
        have hb := g4 rfl
        have hw := loadPages_writes g1 hb.page (by omega) vaStart fileData fileSize
        simp only [Bool.not_true, Bool.false_eq_true, if_false] at hr
        subst hr
        refine ⟨⟨hw.dirs, ?_, fun q hq v h1 h2 => ?_⟩, rfl, fun _ => ?_⟩
        · show (loadPages _ _ _ _ _ _ _).pmm.Ok
          rw [hw.pmm]; exact g2
        · exact (hw.entry q hq v h2).trans (g3 q hq v h1 h2)
        · show frameGetFreeCount (loadPages _ _ _ _ _ _ _).pmm ≤ _
          rw [hw.pmm]
          have hfree : frameGetFreeCount m1.pmm + n ≤ frameGetFreeCount m.pmm := hb.free
          show frameGetFreeCount m1.pmm ≤ frameGetFreeCount m.pmm
          omega

theorem InUserHalf.mono {free' : ℕ} (h : InUserHalf free' start stop)
    (hle : free ≤ free') : InUserHalf free start stop := by
  rcases h with h | h | h
  · exact .inl h
  · exact .inr (.inl h)
  · exact .inr (.inr ((Nat.add_le_add_left (Nat.mul_le_mul_right 4096 hle) start).trans h))

/-- Every segment of the image stays below the kernel half. -/
def ElfLow (free : ℕ) (image : Buf) : Prop :=
  ∀ i < (elfHeader image).phdrTableEntryCount, (phdr image i).isLoad = true →
    InUserHalf free (pagesStart (phdr image i).vaddr)
      (pagesEnd (phdr image i).vaddr (phdr image i).memSize)

theorem loadPhdr_user (h : Dirs m k V) (ho : m.pmm.Ok) (hp : vm.arch ∈ V) {i : ℕ}
    (hlow : (phdr image i).isLoad →
      InUserHalf (frameGetFreeCount m.pmm) (pagesStart (phdr image i).vaddr)
        (pagesEnd (phdr image i).vaddr (phdr image i).memSize))
    {kmalloc : ℕ → Kmalloc} (hin : (kmalloc i).InPlace) (elfSize : ℕ)
    (hr : loadPhdr k kmalloc image elfSize m vm i = r) :
    Keeps k V m r.1 ∧ r.2.1.arch = vm.arch ∧
      (r.2.2 → frameGetFreeCount r.1.pmm ≤ frameGetFreeCount m.pmm) := by
  rw [loadPhdr] at hr
  by_cases h1 : (phdr image i).isLoad
  · have e : (!(phdr image i).isLoad) = false := by rw [h1]; rfl
    rw [e, if_neg Bool.false_ne_true] at hr
    by_cases h2 : elfSize < (phdr image i).off ∨
        elfSize < ((phdr image i).off + (phdr image i).fileSize) % 2 ^ 32
    · rw [if_pos h2] at hr
      subst hr
      exact ⟨⟨h, ho, .refl m⟩, rfl, fun _ => le_rfl⟩
    · rw [if_neg h2] at hr
      exact loadSegment_user h ho hp (getU32_lt _ _) (hlow h1) hin _ _ _ hr
  · have e : (!(phdr image i).isLoad) := by rw [Bool.eq_false_iff.2 h1]; rfl
    rw [e, if_pos rfl] at hr
    subst hr
    exact ⟨⟨h, ho, .refl m⟩, rfl, fun _ => le_rfl⟩

theorem loadPhdrs_user {kmalloc : ℕ → Kmalloc} (hin : ∀ i, (kmalloc i).InPlace) (elfSize : ℕ) :
    ∀ (l : List ℕ), (∀ i ∈ l, (phdr image i).isLoad →
      InUserHalf free (pagesStart (phdr image i).vaddr)
        (pagesEnd (phdr image i).vaddr (phdr image i).memSize)) →
    ∀ (m : Mm) (vm : Vmspace), Dirs m k V → m.pmm.Ok → vm.arch ∈ V →
      frameGetFreeCount m.pmm ≤ free →
    ∀ r, loadPhdrs k kmalloc image elfSize l m vm = r → Keeps k V m r.1 ∧ r.2.1.arch = vm.arch := by
  intro l
  induction l with
  | nil =>
    rintro - m vm h ho - - r rfl
    exact ⟨⟨h, ho, .refl m⟩, rfl⟩
  | cons i l ih =>
    intro hlow m vm h ho hp hfree r hr
    obtain ⟨r1, e⟩ : ∃ r1, loadPhdr k kmalloc image elfSize m vm i = r1 := ⟨_, rfl⟩
    obtain ⟨h1, h2, h3⟩ := loadPhdr_user h ho hp
      (fun hl => (hlow i List.mem_cons_self hl).mono hfree) (hin i) elfSize e
    simp only [loadPhdrs, e] at hr
    by_cases hc : r1.2.2
    · rw [if_pos hc] at hr
      obtain ⟨g1, g2⟩ :=
        ih (fun j hj => hlow j (List.mem_cons_of_mem i hj)) r1.1 r1.2.1 h1.dirs h1.ok
        (h2 ▸ hp) ((h3 hc).trans hfree) r hr
      exact ⟨h1.trans g1, g2.trans h2⟩
    · rw [if_neg hc] at hr
      subst hr
      exact ⟨h1, h2⟩

/-- **`elf32_load`** of an image with its segments below the kernel half. -/
theorem elf32Load_user (h : Dirs m k V) (ho : m.pmm.Ok) (hp : vm.arch ∈ V)
    (hlow : ElfLow (frameGetFreeCount m.pmm) image) {kmalloc : ℕ → Kmalloc}
    (hin : ∀ i, (kmalloc i).InPlace) (elfSize : ℕ) {r : Mm × Vmspace × Option (ℕ × ℕ)}
    (hr : elf32Load k kmalloc m vm image elfSize = r) :
    Keeps k V m r.1 ∧ r.2.1.arch = vm.arch := by
  have hsame : Keeps k V m m ∧ vm.arch = vm.arch := ⟨⟨h, ho, .refl m⟩, rfl⟩
  rw [elf32Load] at hr
  obtain ⟨a, e⟩ : ∃ a, loadPhdrs k kmalloc image elfSize
    (List.range (elfHeader image).phdrTableEntryCount) m vm = a := ⟨_, rfl⟩
  have := loadPhdrs_user hin elfSize _ (fun i hi => hlow i (List.mem_range.1 hi)) m vm h ho hp
    le_rfl a e
  simp only [e] at hr
  split_ifs at hr <;> subst hr
  · exact hsame
  · exact hsame
  · exact hsame
  · exact this
  · exact this

theorem sysSbrk_user (h : Dirs m k V) (ho : m.pmm.Ok) {proc : Proc} (hp : proc.vmspace.arch ∈ V)
    {increment : ℤ} (hlow : InUserHalf (frameGetFreeCount m.pmm) (alignUp proc.brk)
      (alignUp (newBreak proc.brk increment))) {r : Mm × Proc × Option ℕ}
    (hr : sysSbrk m proc increment = r) :
    Keeps k V m r.1 ∧ r.2.1.vmspace.arch = proc.vmspace.arch := by
  obtain ⟨h1, ⟨e, -⟩ | ⟨hlt, e⟩⟩ := sysSbrk_spec hr
  · rw [e]
    exact ⟨⟨h, ho, .refl m⟩, h1⟩
  · obtain ⟨a1, a2⟩ := alignUp_aligned proc.brk
    obtain ⟨b1, b2⟩ := alignUp_aligned (newBreak proc.brk increment)
    generalize alignUp proc.brk = old at *
    generalize alignUp (newBreak proc.brk increment) = new at *
    obtain ⟨b, rfl⟩ : ∃ b, old = b * 4096 := ⟨old / 4096, by omega⟩
    obtain ⟨n, rfl⟩ : ∃ n, new = (b + n) * 4096 := ⟨(new - b * 4096) / 4096, by omega⟩
    have e1 : (b + n) * 4096 - b * 4096 = n * 4096 := by omega
    have hlim : b + n ≤ userPages ∨ b + frameGetFreeCount m.pmm ≤ userPages := by
      rw [userPages]
      rcases hlow with h1 | h1 | h1
      · omega
      · rw [kernelBase] at h1; omega
      · rw [kernelBase] at h1; omega
    obtain ⟨g1, g2, g3, -⟩ := vaAllocRegion_user h ho hp (by omega) hlim userPageFlags
    rw [e1] at e
    rw [e] at g1 g2 g3
    exact ⟨⟨g1, g2, g3⟩, h1⟩

/-! ## Sequences of calls -/

/-- The machine and its processes. -/
structure UserRun where
  mm : Mm
  procs : ℕ → Proc

/-- `elf32_load` into the address space of process `p`, where `kmalloc i` is what happens to the
    request for the descriptor of segment `i`; and `sys_sbrk` of process `p`. -/
inductive UserCall
  | elf (p : ℕ) (kmalloc : ℕ → Kmalloc) (image : Buf) (elfSize : ℕ)
  | sbrk (p : ℕ) (increment : ℤ)

def UserCall.run (k : ℕ) (c : UserCall) (s : UserRun) : UserRun :=
  match c with
  | .elf p kmalloc image elfSize =>
    let r := elf32Load k kmalloc s.mm (s.procs p).vmspace image elfSize
    ⟨r.1, Function.update s.procs p ⟨r.2.1, (s.procs p).brk⟩⟩
  | .sbrk p increment =>
    let r := sysSbrk s.mm (s.procs p) increment
    ⟨r.1, Function.update s.procs p r.2.1⟩

/-- The region that the call asks for stays below the kernel half, or memory runs out before
    it gets there; and the kernel heap does not grow. -/
def UserCall.Low (s : UserRun) : UserCall → Prop
  | .elf _ kmalloc image _ =>
    ElfLow (frameGetFreeCount s.mm.pmm) image ∧ ∀ i, (kmalloc i).InPlace
  | .sbrk p increment => InUserHalf (frameGetFreeCount s.mm.pmm) (alignUp (s.procs p).brk)
      (alignUp (newBreak (s.procs p).brk increment))

/-- What holds along a run that begins with the machine `m₀`. -/
structure UserRun.Inv (k : ℕ) (V : Finset ℕ) (m₀ : Mm) (s : UserRun) : Prop where
  keeps : Keeps k V m₀ s.mm
  procs : ∀ p, (s.procs p).vmspace.arch ∈ V

theorem UserRun.Inv.step {s : UserRun} (h : s.Inv k V m₀) {c : UserCall} (hlow : c.Low s) :
    (c.run k s).Inv k V m₀ := by
  have hprocs : ∀ {p : ℕ} {proc : Proc}, proc.vmspace.arch = (s.procs p).vmspace.arch →
      ∀ q, (Function.update s.procs p proc q).vmspace.arch ∈ V := fun {p proc} e q => by
    by_cases hq : q = p
    · rw [hq, Function.update_self, e]; exact h.procs p
    · rw [Function.update_of_ne hq]; exact h.procs q
  cases c with
  | elf p kmalloc image elfSize =>
    obtain ⟨h1, h2⟩ := elf32Load_user h.keeps.dirs h.keeps.ok (h.procs p) hlow.1 hlow.2 elfSize rfl
    exact ⟨h.keeps.trans h1, hprocs h2⟩
  | sbrk p increment =>
    obtain ⟨h1, h2⟩ := sysSbrk_user h.keeps.dirs h.keeps.ok (h.procs p) hlow rfl
    exact ⟨h.keeps.trans h1, hprocs h2⟩

/-- **ELF images and breaks below the kernel half leave it alone**, while the kernel heap has room
    for the descriptors of the segments: in every address space,
    every address from `KERNEL_BASE` on has the translation it had, and its page table entry
    the user bit it had. -/
theorem kernel_half_unchanged {s s' : UserRun} (h : Dirs s.mm k V) (ho : s.mm.pmm.Ok)
    (hp : ∀ p, (s.procs p).vmspace.arch ∈ V) (hr : Runs (UserCall.run k) UserCall.Low s s')
    (hq : q ∈ dirsOf k V) {va : ℕ} (h1 : kernelBase ≤ va) (h2 : va < 2 ^ 32) :
    halVmVirtToPhys s'.mm q va = halVmVirtToPhys s.mm q va ∧
      isUser (entry s'.mm q (va / 4096)) = isUser (entry s.mm q (va / 4096)) := by
  have hinv : s'.Inv k V s.mm :=
    hr.invariant (I := UserRun.Inv k V s.mm) (fun _ _ hI hok => hI.step hok) ⟨⟨h, ho, .refl _⟩, hp⟩
  have hv : userPages ≤ va / 4096 := by rw [userPages]; rw [kernelBase] at h1; omega
  have e := hinv.keeps.upper q hq (va / 4096) hv (by omega)
  rw [virtToPhys_eq, virtToPhys_eq, e]
  exact ⟨rfl, rfl⟩

/-- An executable with one segment of a page at `vaddr`. -/
def demoImage (vaddr : ℕ) : Buf :=
  [(0, 0x464C457F), (4, 0x101), (16, 0x30002), (28, 52), (40, 0x200000), (44, 1), (52, 1),
    (60, vaddr), (72, 0x1000)].foldl (fun b w => putU32 b w.1 w.2) fun _ => 0

/-- A process with an empty address space. -/
def demoUser : UserRun :=
  ⟨(vmspaceCreate (bootMm 0 0) 0x1000).1, fun _ => ⟨⟨0x102000, []⟩, 0⟩⟩

theorem demoUser_dirs : Dirs demoUser.mm 0x1000 {0x102000} ∧ demoUser.mm.pmm.Ok := by
  have hb : Dirs (bootMm 0 0) 0x1000 ∅ := bootMm_dirs rfl (by norm_num) 0
  have h := hb.created (p := 0x102000) (by decide +kernel)
  exact ⟨h.dirs, h.taken.ok (bootMm_ok 0 0)⟩

/-- What loading an image into the process leaves, with room in a slab for the descriptors. -/
def demoLoaded (vaddr : ℕ) : Mm :=
  (UserCall.run 0x1000 (.elf 1 (fun _ => .slab) (demoImage vaddr) 84) demoUser).mm

theorem kernel_half_unchanged_low_image :
    halVmVirtToPhys (demoLoaded 0x8048000) 0x102000 0xD0000000 = 0 := by
  have hlow : UserCall.Low demoUser (.elf 1 (fun _ => .slab) (demoImage 0x8048000) 84) := by
    refine ⟨fun i hi _ => ?_, fun _ => trivial⟩
    have hc : (elfHeader (demoImage 0x8048000)).phdrTableEntryCount = 1 := by decide +kernel
    obtain rfl : i = 0 := by omega
    exact .inr (.inl (by decide +kernel))
  have h := (kernel_half_unchanged (k := 0x1000) demoUser_dirs.1 demoUser_dirs.2
    (fun _ => Finset.mem_singleton.2 rfl) (Relation.ReflTransGen.refl.tail ⟨_, hlow, rfl⟩)
    (by simp [dirsOf] : 0x102000 ∈ _) (by decide : _ ≤ 0xD0000000) (by decide)).1
  exact h.trans (by decide +kernel)

/-- An image with a segment in the kernel half: the page is mapped there, for the user, and
    in every address space.  And an image with a segment in the user half, for whose descriptor
    `kmalloc` takes a new page of the heap: that page is mapped in the kernel half. -/
theorem elf_maps_kernel_half : Dirs demoUser.mm 0x1000 {0x102000} ∧
    (halVmVirtToPhys demoUser.mm 0x102000 0xD0000000 = 0 ∧
      (elf32Load 0x1000 (fun _ => .slab) demoUser.mm (demoUser.procs 1).vmspace
        (demoImage 0xD0000000) 84).2.2 = some (0, 0) ∧
      halVmVirtToPhys (demoLoaded 0xD0000000) 0x102000 0xD0000000 = 0x103000 ∧
      isUser (entry (demoLoaded 0xD0000000) 0x102000 0xD0000) = true ∧
      halVmVirtToPhys (demoLoaded 0xD0000000) 0x1000 0xD0000000 = 0x103000) ∧
    halVmVirtToPhys demoUser.mm 0x102000 0xE0000000 = 0 ∧
      halVmVirtToPhys (UserCall.run 0x1000 (.elf 1 (fun _ => .page 0 fun _ => 0)
        (demoImage 0x8048000) 84) demoUser).mm 0x102000 0xE0000000 = 0x103000 :=
  ⟨demoUser_dirs.1, ⟨by decide +kernel, by decide +kernel, by decide +kernel, by decide +kernel,
    by decide +kernel⟩, by decide +kernel, by decide +kernel⟩

end

end Kabanos
