/-
  The address spaces of the processes: the lower 768 slots of a page directory are its
  own, the upper ones are shared with the kernel, whose page tables all exist from boot
  on.
-/
import Kabanos.Mm.Map
import Kabanos.Mm.Vmspace

namespace Kabanos

variable {i f : ℕ} {D : Set ℕ} {home : ℕ → ℕ → ℕ}

/-- The number of pages below `KERNEL_BASE`. -/
def userPages : ℕ := 786432

/-- The upper slots belong to the kernel's directory `k`. -/
def procHome (k p i : ℕ) : ℕ := if i < kernelPdStart then p else k

/-- The directories of the kernel and of the processes. -/
abbrev dirsOf (k : ℕ) (V : Finset ℕ) : Set ℕ := insert k ↑V

/-- The page directories `V` of the processes and `k` of the kernel. -/
structure Dirs (m : Mm) (k : ℕ) (V : Finset ℕ) : Prop where
  tables : Tables m (dirsOf k V) (procHome k)
  kernel : k ∉ V
  lower : ∀ i < 768, isPresent (word m k i) = false
  upper : ∀ i, 768 ≤ i → i < 1024 → isPresent (word m k i) = true

/-- Moreover, user pages are frames in use that hold no tables. -/
structure Spaces (m : Mm) (k : ℕ) (V : Finset ℕ) : Prop extends Dirs m k V where
  data : ∀ p ∈ V, ∀ v < userPages, entry m p v ≠ 0 →
    m.pmm.Held (pageOf (entry m p v)) ∧ ¬ IsTable m (dirsOf k V) (procHome k) (pageOf (entry m p v))

section
variable {m m' : Mm} {k : ℕ} {V : Finset ℕ} {p q v u fl : ℕ}

theorem userPages_slot (hv : v < userPages) : v / 1024 < 768 := by
  rw [userPages] at hv; omega

theorem userPages_lt (hv : v < userPages) : v + 1 < 2 ^ 20 := by
  rw [userPages] at hv; omega

theorem procHome_lower (hi : i < 768) (k p : ℕ) : procHome k p i = p := if_pos hi

theorem procHome_upper (hi : 768 ≤ i) (k p : ℕ) : procHome k p i = k :=
  if_neg (not_lt.2 hi)

theorem mem_dirsOf (hp : p ∈ V) : p ∈ dirsOf k V := .inr hp

theorem Dirs.ne_kernel (h : Dirs m k V) (hp : p ∈ V) : p ≠ k := fun e => h.kernel (e ▸ hp)

theorem procHome_user (hv : v < userPages) (k p : ℕ) : procHome k p (v / 1024) = p :=
  procHome_lower (userPages_slot hv) k p

theorem Dirs.slot (h : Dirs m k V) (hp : p ∈ V) (hi : i < 1024) :
    Sole (dirsOf k V) (procHome k) p i ∨ isPresent (word m p i) := by
  by_cases hl : i < 768
  · refine .inl ⟨procHome_lower hl k p, fun q _ e => ?_⟩
    rwa [procHome_lower hl] at e
  · right
    rw [h.tables.shared p (mem_dirsOf hp) i hi, procHome_upper (by omega)]
    exact h.upper i (by omega) hi

theorem Dirs.pmm (h : Dirs m k V) {s : Pmm} (hs : SameMemory m.pmm s)
    (hheld : ∀ t, IsTable m (dirsOf k V) (procHome k) t → s.Held t) :
    Dirs { m with pmm := s } k V :=
  ⟨h.tables.congr hs hheld fun _ _ _ _ => rfl, h.kernel, h.lower, h.upper⟩

/-- The page tables say the same. -/
structure SameMaps (k : ℕ) (V : Finset ℕ) (m m' : Mm) : Prop where
  dirs : Dirs m' k V
  table : ∀ t, IsTable m' (dirsOf k V) (procHome k) t ↔ IsTable m (dirsOf k V) (procHome k) t
  pde : ∀ q ∈ dirsOf k V, ∀ i < 1024, word m' q i = word m q i
  entry : ∀ q ∈ dirsOf k V, ∀ v < 2 ^ 20, entry m' q v = entry m q v

theorem SameMaps.refl (h : Dirs m k V) : SameMaps k V m m :=
  ⟨h, fun _ => Iff.rfl, fun _ _ _ _ => rfl, fun _ _ _ _ => rfl⟩

theorem SameMaps.trans {m'' : Mm} (h : SameMaps k V m m') (h' : SameMaps k V m' m'') :
    SameMaps k V m m'' :=
  ⟨h'.dirs, fun t => (h'.table t).trans (h.table t),
    fun q hq i hi => (h'.pde q hq i hi).trans (h.pde q hq i hi),
    fun q hq v hv => (h'.entry q hq v hv).trans (h.entry q hq v hv)⟩

/-- **A write to a frame that holds no table** is not seen in the page tables. -/
theorem Dirs.data_write (h : Dirs m k V)
    (hf : ¬ IsTable m (dirsOf k V) (procHome k) f) (ha : f % 4096 = 0) (hpmm : m'.pmm = m.pmm)
    (hmem : ∀ a, ¬ (f ≤ a ∧ a < f + 4096) → m'.mem a = m.mem a) : SameMaps k V m m' := by
  have hframe : ∀ t, IsTable m (dirsOf k V) (procHome k) t → SameFrame m m' t :=
    fun t ht a h1 h2 => hmem a (not_in_frame ha ((h.tables.isTable_held ht).isFrame.aligned
      h.tables.framed) (fun e => hf (e ▸ ht)) h1 h2)
  have hdir : ∀ q ∈ dirsOf k V, ∀ i < 1024, word m' q i = word m q i := fun q hq i hi =>
    (hframe q (h.tables.dir_isTable hq)).word hi
  have hk : k ∈ dirsOf k V := .inl rfl
  refine ⟨⟨h.tables.congr (by rw [hpmm]; exact .refl _) (fun t ht => ?_) hdir, h.kernel,
    fun i hi => ?_, fun i h1 h2 => ?_⟩, fun t => IsTable.congr hdir, hdir,
    fun q hq v hv => h.tables.entry_congr hframe hq hv⟩
  · rw [hpmm]; exact h.tables.isTable_held ht
  · rw [hdir k hk i (by omega)]; exact h.lower i hi
  · rw [hdir k hk i h2]; exact h.upper i h1 h2

/-! ## Single pages -/

theorem halVmMap_eq (m : Mm) (p pa fl : ℕ) (hv : v + 1 < 2 ^ 20) : halVmMap m p (v * 4096) pa fl =
      mapPageTableRange m p (v / 1024) (v % 1024) 1 pa (publicFlagsToArchFlags fl) := by
  have e1 : ((v * 4096 + 4096) % 2 ^ 32 - v * 4096) / 4096 = 1 := by omega
  have hn : ¬ (4096 = 0) := by decide
  simp only [halVmMap, halVmMapRange, if_neg hn, e1]
  rw [mapLoop_page one_ne_zero (c := 1) (by omega)]
  rcases mapPageTableRange m p (v / 1024) (v % 1024) 1 pa (publicFlagsToArchFlags fl) with ⟨m', r⟩
  cases r with
  | false => rfl
  | true =>
    show mapLoop m' _ _ _ (1 - 1) _ = _
    rw [mapLoop, dif_pos rfl]

theorem halVmUnmap_eq (m : Mm) (p : ℕ) (hv : v + 1 < 2 ^ 20) :
    halVmUnmap m p (v * 4096) = unmapPageTableRange m p (v / 1024) (v % 1024) 1 := by
  have e1 : ((v * 4096 + 4096) % 2 ^ 32 - v * 4096) / 4096 = 1 := by omega
  have hn : ¬ (4096 = 0) := by decide
  simp only [halVmUnmap, halVmUnmapRange, if_neg hn, e1]
  rw [unmapLoop_page one_ne_zero (c := 1) (by omega), unmapLoop, dif_pos (by norm_num)]

/-- **Mapping one page** fails and changes nothing, or changes one entry. -/
theorem Tables.map_page (h : Tables m D home) (hp : p ∈ D)
    (hv : v + 1 < 2 ^ 20) (ho : Sole D home p (v / 1024) ∨ isPresent (word m p (v / 1024)))
    {pa : ℕ} (hpa : pa % 4096 = 0) (hlt : pa < 2 ^ 32) (fl : ℕ) :
    halVmMap m p (v * 4096) pa fl = (m, false) ∨ ∃ m', halVmMap m p (v * 4096) pa fl = (m', true) ∧
      Tables m' D home ∧ Grow D home p m m' ∧
        ∀ q ∈ D, ∀ u < 2 ^ 20, entry m' q u =
          if u = v ∧ home q (v / 1024) = home p (v / 1024) then
            makePte pa (publicFlagsToArchFlags fl)
          else entry m q u := by
  rw [halVmMap_eq m p pa fl hv]
  have hi : v / 1024 < 1024 := by omega
  rcases mapPageTableRange_spec h hp hi ho (s := v % 1024) (n := 1)
    (by omega) hpa (publicFlagsToArchFlags fl) with e | ⟨m', e, h1, h2, h3⟩
  · exact .inl e
  refine .inr ⟨m', e, h1, h2, fun q hq u hu => ?_⟩
  rw [h3 q hq u hu]
  by_cases huv : u = v
  · subst huv
    have e1 : (pa + (u % 1024 - u % 1024) * 4096) % 2 ^ 32 = pa := by omega
    by_cases hh : home q (u / 1024) = home p (u / 1024)
    · rw [if_pos ⟨rfl, hh, le_rfl, by omega⟩, if_pos ⟨rfl, hh⟩, e1]
    · rw [if_neg fun e => hh e.2.1, if_neg fun e => hh e.2]
  · rw [if_neg (by omega), if_neg fun e => huv e.1]

/-- **Unmapping one page** changes one entry. -/
theorem Tables.unmap_page (h : Tables m D home) (hp : p ∈ D) (hv : v + 1 < 2 ^ 20) :
    Tables (halVmUnmap m p (v * 4096)) D home ∧ Grow D home p m (halVmUnmap m p (v * 4096)) ∧
      ∀ q ∈ D, ∀ u < 2 ^ 20, entry (halVmUnmap m p (v * 4096)) q u =
        if u = v ∧ home q (v / 1024) = home p (v / 1024) then 0 else entry m q u := by
  rw [halVmUnmap_eq m p hv]
  have hi : v / 1024 < 1024 := by omega
  obtain ⟨h1, h2, h3⟩ := unmapPageTableRange_spec h hp hi (s := v % 1024) (n := 1)
    (by omega) fun e => absurd e (by norm_num)
  refine ⟨h1, h2 (by norm_num), fun q hq u hu => ?_⟩
  rw [h3 q hq u hu]
  by_cases huv : u = v
  · subst huv
    by_cases hh : home q (u / 1024) = home p (u / 1024)
    · rw [if_pos ⟨rfl, hh, le_rfl, by omega⟩, if_pos ⟨rfl, hh⟩]
    · rw [if_neg fun e => hh e.2.1, if_neg fun e => hh e.2]
  · rw [if_neg (by omega), if_neg fun e => huv e.1]

/-! ## New address spaces -/

theorem word_memcpy_frame {src : Buf} {s t : ℕ} (hi : i < 1024) (m : Mm) :
    word { m with mem := memcpy m.mem t src s 4096 } t i = getU32 src (s + 4 * i) := by
  have h : ∀ j, 4 * i ≤ j → j < 4 * i + 4 → memcpy m.mem t src s 4096 (t + j) = src (s + j) :=
    fun j h1 h2 => by
      rw [memcpy_in (by omega) (by omega), Nat.add_sub_cancel_left]
  simp only [word, getU32, Nat.add_assoc]
  rw [h _ le_rfl (by omega), h _ (by omega) (by omega), h _ (by omega) (by omega),
    h _ (by omega) (by omega)]

/-- There is a new address space `p`, with the kernel in its upper half and nothing in its
    lower one. -/
structure Created (k : ℕ) (V : Finset ℕ) (p : ℕ) (m m' : Mm) : Prop where
  taken : Taken m.pmm m'.pmm p
  mem : ∀ a, ¬ (p ≤ a ∧ a < p + 4096) → m'.mem a = m.mem a
  dirs : Dirs m' k (insert p V)
  pde : ∀ q ∈ dirsOf k V, ∀ i < 1024, word m' q i = word m q i
  own : ∀ i < 1024, word m' p i = word m k i
  entry : ∀ q ∈ dirsOf k V, ∀ v < 2 ^ 20, entry m' q v = entry m q v
  empty : ∀ v < 2 ^ 20, Kabanos.entry m' p v = if v < userPages then 0 else Kabanos.entry m k v
  table : ∀ t, IsTable m' (dirsOf k (insert p V)) (procHome k) t ↔
    IsTable m (dirsOf k V) (procHome k) t ∨ t = p

theorem vmspaceCreate_cases (hf : m.pmm.Framed) (hk : m.pmm.Held k) (hka : k % 4096 = 0) :
    vmspaceCreate m k = (m, none) ∨ ∃ m' t, vmspaceCreate m k = (m', some ⟨t, []⟩) ∧
      Taken m.pmm m'.pmm t ∧ (∀ a, ¬ (t ≤ a ∧ a < t + 4096) → m'.mem a = m.mem a) ∧
        (∀ q, m.pmm.Held q → q % 4096 = 0 → ∀ i < 1024, word m' q i = word m q i) ∧
          ∀ i < 1024, word m' t i = word m k i := by
  unfold vmspaceCreate
  rcases allocatePageTable_cases m with e | ⟨s, t, e, ht⟩ <;>
    simp only [halVmEmptyArchVmCreate, e]
  · exact .inl rfl
  rw [if_neg ht.frame.ne_zero]
  have hta := ht.frame.aligned hf
  have hmem : ∀ a, ¬ (t ≤ a ∧ a < t + 4096) →
      (halVmArchCloneMapping ⟨s, memset m.mem t 0 4096⟩ t k).mem a = m.mem a :=
    fun a ha => (memcpy_out (by omega)).trans (if_neg ha)
  refine .inr ⟨_, t, rfl, ht, hmem, fun q hq hqa i hi => ?_, fun i hi => ?_⟩
  · exact SameFrame.word
      (fun a g1 g2 => hmem a (not_in_frame hta hqa (fun e => ht.fresh (e ▸ hq)) g1 g2)) hi
  · rw [halVmArchCloneMapping, word_memcpy_frame hi]
    exact SameFrame.word (fun a g1 g2 => if_neg (not_in_frame hta hka
      (fun e => ht.fresh (e ▸ hk)) g1 g2)) hi

/-- **`vmspace_create`** fails and changes nothing, or there is a new address space. -/
theorem Dirs.create (h : Dirs m k V) : vmspaceCreate m k = (m, none) ∨
      ∃ m' p, vmspaceCreate m k = (m', some ⟨p, []⟩) ∧ Created k V p m m' := by
  have hk : k ∈ dirsOf k V := .inl rfl
  have hkheld := h.tables.dirs k hk
  rcases vmspaceCreate_cases h.tables.framed hkheld (h.tables.dir_aligned hk) with
    e | ⟨m', t, e, ht, hmem, hdir, hword⟩
  · exact .inl e
  replace hdir :=
    fun q (hq : q ∈ dirsOf k V) => hdir q (h.tables.dirs q hq) (h.tables.dir_aligned hq)
  have hkt : k ≠ t := fun e => ht.fresh (e ▸ hkheld)
  have hown : ∀ i < 1024, procHome k t i = t →
      isPresent (word m' t i) = false := fun i hi hh => by
    by_cases hl : i < 768
    · rw [hword i hi]; exact h.lower i hl
    · rw [procHome_upper (by omega)] at hh
      exact absurd hh hkt
  have hshare : ∀ i < 1024, procHome k t i ≠ t → procHome k t i ∈ dirsOf k V ∧
      procHome k (procHome k t i) i = procHome k t i ∧
        word m' t i = word m (procHome k t i) i := fun i hi hh => by
    by_cases hl : i < 768
    · exact absurd (procHome_lower hl k t) hh
    · have hl' : 768 ≤ i := by omega
      rw [procHome_upper hl', procHome_upper hl']
      exact ⟨hk, rfl, hword i hi⟩
  obtain ⟨h1, h2, h3⟩ := h.tables.add_dir ht hmem hown hshare
  have hD : dirsOf k (insert t V) = insert t (dirsOf k V) := by
    rw [dirsOf, Finset.coe_insert, Set.insert_comm]
  refine .inr ⟨m', t, e, ht, hmem, ⟨by rw [hD]; exact h1, ?_, fun i hi => ?_, fun i g1 g2 => ?_⟩,
    hdir, hword, h2, fun v hv => ?_, fun a => ?_⟩
  · rw [Finset.mem_insert, not_or]
    exact ⟨hkt, h.kernel⟩
  · rw [hdir k hk i (by omega)]; exact h.lower i hi
  · rw [hdir k hk i g2]; exact h.upper i g1 g2
  · rw [h3 v hv]
    by_cases hu : v < userPages
    · rw [if_pos (procHome_user hu k t), if_pos hu]
    · have hi : 768 ≤ v / 1024 := by rw [userPages] at hu; omega
      rw [procHome_upper hi, if_neg hkt, if_neg hu]
  · rw [hD]
    constructor
    · rintro ⟨h0, q, rfl | hq, b, e⟩
      · cases b with
        | none => exact .inr e.symm
        | some i =>
          refine absurd (e.symm.trans (if_neg ?_)) h0
          rintro ⟨hi, hh, hr⟩
          rw [hown i hi hh] at hr; cases hr
      · exact .inl ⟨h0, q, hq, b, (holds_congr (hdir q hq) b).symm.trans e⟩
    · rintro (⟨h0, q, hq, b, e⟩ | rfl)
      · exact ⟨h0, q, .inr hq, b, (holds_congr (hdir q hq) b).trans e⟩
      · exact h1.dir_isTable (.inl rfl)

theorem Dirs.created (h : Dirs m k V) (hp : (vmspaceCreate m k).2.map Vmspace.arch = some p) :
    Created k V p m (vmspaceCreate m k).1 := by
  rcases h.create with e | ⟨m', q, e, h1⟩ <;> rw [e] at hp ⊢
  · cases hp
  · obtain rfl : q = p := Option.some.inj hp
    exact h1

theorem Spaces.created (h : Spaces m k V) (hc : Created k V p m m') : Spaces m' k (insert p V) := by
  refine ⟨hc.dirs, fun q hq v hv h0 => ?_⟩
  have hv' : v < 2 ^ 20 := by have := userPages_lt hv; omega
  rcases Finset.mem_insert.1 hq with rfl | hq
  · rw [hc.empty v hv', if_pos hv] at h0
    exact absurd rfl h0
  · rw [hc.entry q (mem_dirsOf hq) v hv'] at h0 ⊢
    obtain ⟨h1, h2⟩ := h.data q hq v hv h0
    refine ⟨(hc.taken.held _).2 (.inl h1), fun ht => ?_⟩
    rcases (hc.table _).1 ht with ht | e
    · exact h2 ht
    · exact hc.taken.fresh (e ▸ h1)

/-! ## What a process reads -/

/-- The byte at address `va`, if its page is mapped. -/
def readByte (m : Mm) (p va : ℕ) : Option UInt8 :=
  if entry m p (va / 4096) = 0 then none
  else some (m.mem (pageOf (entry m p (va / 4096)) + va % 4096))

/-! ## A machine after boot -/

theorem foldl_range_one {α : Type*} {f : α → ℕ → α} {a : α} {n : ℕ} (hi : i < n)
    (h1 : ∀ j < i, f a j = a) (h2 : ∀ j < n, i < j → f (f a i) j = f a i) :
    (List.range n).foldl f a = f a i := by
  induction n with
  | zero => exact absurd hi (Nat.not_lt_zero i)
  | succ n ih =>
    rw [List.range_succ, List.foldl_append, List.foldl_cons, List.foldl_nil]
    by_cases hn : i = n
    · have hpre : (List.range n).foldl f a = a :=
        List.foldlRecOn (motive := fun r => r = a) _ _ rfl fun r hr j hj => by
          rw [hr]; exact h1 j (hn ▸ List.mem_range.1 hj)
      rw [hpre, hn]
    · rw [ih (by omega) fun j hj => h2 j (by omega)]
      exact h2 n (by omega) (by omega)

/-- 512 frames from `start` on.  Frame 1 is the directory of the kernel, the next 256 ones
    are its page tables, and the others are free and hold `old`. -/
def bootMm (start : ℕ) (old : UInt8) : Mm where
  pmm := {
    bitmap := fun j => if j < 32 then 0xFF else if j = 32 then 0x03 else 0
    totalFrames := 512
    usedFrames := 258
    memoryRange := ⟨start, start + 0x200000⟩
    frameRefcounts := fun f => if f < 258 then 1 else 0 }
  mem := fun a =>
    if start + 4096 ≤ a ∧ a < start + 8192 then
      wordsBuf (fun i => if 768 ≤ i then start + (i - 766) * 4096 + 3 else 0) (a - (start + 4096))
    else if a < start + 258 * 4096 then 0 else old

theorem bootMm_word (start : ℕ) (hs : start < 0x80000000) (old : UInt8) (hi : i < 1024) :
    word (bootMm start old) (start + 4096) i =
      if 768 ≤ i then start + (i - 766) * 4096 + 3 else 0 := by
  set f : ℕ → ℕ := fun i => if 768 ≤ i then start + (i - 766) * 4096 + 3 else 0 with hf
  have h : ∀ j, j < 4096 → (bootMm start old).mem (start + 4096 + j) = wordsBuf f j :=
    fun j hj => by
    rw [show wordsBuf f j = wordsBuf f (start + 4096 + j - (start + 4096)) by
      rw [Nat.add_sub_cancel_left]]
    exact if_pos ⟨by omega, by omega⟩
  have e : word (bootMm start old) (start + 4096) i = getU32 (wordsBuf f) (4 * i) := by
    simp only [word, getU32, Nat.add_assoc]
    rw [← h _ (by omega), ← h _ (by omega), ← h _ (by omega), ← h _ (by omega)]
    simp only [Nat.add_assoc]
  rw [e, getU32_wordsBuf, Nat.mod_eq_of_lt]
  simp only [hf]
  split_ifs <;> omega

theorem bootMm_held (start : ℕ) (old : UInt8) (h1 : 1 ≤ f) (h2 : f < 258) :
    (bootMm start old).pmm.Held (start + f * 4096) := by
  refine ⟨f, h1, by simp only [bootMm]; omega, rfl, ?_⟩
  by_cases h : f < 256
  · have hb : (bootMm start old).pmm.bitmap (f / 8) = 0xFF := if_pos (by omega)
    have := isSet_of_full hb (Nat.mod_lt f (by norm_num))
    rwa [Nat.div_add_mod'] at this
  · have : ∀ f, f = 256 ∨ f = 257 → bitmapIsSet (bootMm start old).pmm.bitmap f := by
      rintro f (rfl | rfl) <;> simp only [bootMm] <;> decide
    exact this f (by omega)

theorem bootMm_ok (start : ℕ) (old : UInt8) : (bootMm start old).pmm.Ok := by
  have e : (bootMm start old).pmm.used = (bootMm 0 0).pmm.used := rfl
  refine ⟨?_, fun _ => ?_⟩
  · rw [e]
    show 258 = _
    decide +kernel
  · show bitmapIsSet (bootMm 0 0).pmm.bitmap 0
    decide +kernel

section
variable {start : ℕ} (ha : start % 4096 = 0) (hs : start < 0x80000000) (old : UInt8)
include ha hs

theorem bootMm_upper {i : ℕ} (h1 : 768 ≤ i) (h2 : i < 1024) :
    isPresent (word (bootMm start old) (start + 4096) i) ∧
      pageOf (word (bootMm start old) (start + 4096) i) = start + (i - 766) * 4096 := by
  have h3 : (start + (i - 766) * 4096) % 4096 = 0 := by omega
  rw [bootMm_word start hs old h2, if_pos h1, ← page_or h3 (by norm_num),
    pageOf_or h3 (by norm_num)]
  refine ⟨?_, rfl⟩
  rw [isPresent, testBit_page_or h3 (by norm_num)]
  rfl

omit ha in
theorem bootMm_lower {i : ℕ} (hi : i < 768) :
    isPresent (word (bootMm start old) (start + 4096) i) = false := by
  rw [bootMm_word start hs old (by omega), if_neg (by omega)]
  rfl

theorem bootMm_dirs : Dirs (bootMm start old) (start + 4096) ∅ := by
  have hup := fun {i} h1 h2 => bootMm_upper (i := i) ha hs old h1 h2
  have hlow := fun {i} h1 => bootMm_lower (i := i) hs old h1
  have hhome : ∀ i, procHome (start + 4096) (start + 4096) i = start + 4096 := fun i => by
    unfold procHome; split_ifs <;> rfl
  have hD : ∀ p, p ∈ dirsOf (start + 4096) ∅ ↔ p = start + 4096 := by simp [dirsOf]
  have hholds : ∀ a, holds (bootMm start old) (procHome (start + 4096)) (start + 4096) a =
      a.elim (start + 4096) fun i =>
        if 768 ≤ i ∧ i < 1024 then start + (i - 766) * 4096 else 0 := by
    intro a
    cases a with
    | none => rfl
    | some i =>
      by_cases hc : 768 ≤ i ∧ i < 1024
      · simp only [Option.elim_some, if_pos hc]
        rw [holds_table hc.2 (hhome i) (hup hc.1 hc.2).1, (hup hc.1 hc.2).2]
      · simp only [Option.elim_some, if_neg hc]
        refine if_neg fun e => hc ⟨?_, e.1⟩
        by_contra hl
        rw [hlow (by omega)] at e
        cases e.2.2
  have hone := bootMm_held start old (f := 1) le_rfl (by norm_num)
  rw [one_mul] at hone
  have hframed : (bootMm start old).pmm.Framed := by
    refine ⟨ha, ?_, ?_⟩
    · show start + 0x200000 = start + 512 * 4096
      omega
    · show start + 0x200000 ≤ 0xFFFFF000
      omega
  refine ⟨⟨hframed, ?_, ?_, ?_, ?_, ?_, ?_⟩, by simp, fun i hi => hlow hi,
    fun i h1 h2 => (hup h1 h2).1⟩
  · intro p hp
    rw [(hD p).1 hp]; exact hone
  · intro p hp i hi _ hr
    rw [(hD p).1 hp] at hr ⊢
    have h1 : 768 ≤ i := by
      by_contra hl
      rw [hlow (by omega)] at hr; cases hr
    rw [(hup h1 hi).2]
    exact bootMm_held start old (by omega) (by omega)
  · intro p hp q hq a b hne heq
    rw [(hD p).1 hp, (hD q).1 hq] at *
    rw [hholds, hholds] at heq
    rw [hholds] at hne
    refine ⟨rfl, ?_⟩
    cases a with
    | none =>
      cases b with
      | none => rfl
      | some j =>
        simp only [Option.elim_none, Option.elim_some] at heq
        split_ifs at heq
        omega
    | some i =>
      cases b with
      | none =>
        simp only [Option.elim_none, Option.elim_some] at heq
        split_ifs at heq
        omega
      | some j =>
        simp only [Option.elim_some] at heq hne
        have : i = j := by split_ifs at heq hne <;> omega
        rw [this]
  · intro p hp i _
    rw [(hD p).1 hp, hhome]
    exact .inl rfl
  · intro p hp i _
    rw [(hD p).1 hp, hhome, hhome]
  · intro p hp i _
    rw [(hD p).1 hp, hhome]

end

end

end Kabanos
