/-
  A region that `va_alloc_region` backs, page by page: the frames its pages get, the number of
  frames that this takes, and what the clean-up restores.

  A page takes a frame, and one more for the page table if its directory slot is empty.  The
  clean-up gives back the frames of the pages, but not the page tables.
-/
import Kabanos.Mm.Region

namespace Kabanos

/-- The `i` pages from page `b` on have frames of their own that were free in `m₀`; nothing else
    changed but for new page tables of `p`. -/
structure Backed (D : Set ℕ) (home : ℕ → ℕ → ℕ) (p b : ℕ) (m₀ : Mm) (i : ℕ) (m : Mm) : Prop where
  tables : Tables m D home
  same : SameMemory m₀.pmm m.pmm
  mapped : ∀ j < i, entry m p (b + j) ≠ 0
  held : ∀ j < i, m.pmm.Held (pageOf (entry m p (b + j)))
  fresh : ∀ j < i, ¬ m₀.pmm.Held (pageOf (entry m p (b + j)))
  one : ∀ j < i, m.pmm.refs (pageOf (entry m p (b + j))) = 1
  plain : ∀ j < i, ¬ IsTable m D home (pageOf (entry m p (b + j)))
  inj : ∀ j < i, ∀ j' < i, pageOf (entry m p (b + j)) = pageOf (entry m p (b + j')) → j = j'
  rest : ∀ q ∈ D, ∀ u < 2 ^ 20, ¬ (b ≤ u ∧ u < b + i ∧ home q (u / 1024) = home p (u / 1024)) →
    entry m q u = entry m₀ q u
  keep : ∀ a, m₀.pmm.Held a → m.pmm.Held a
  refs : ∀ a, m₀.pmm.Held a → m.pmm.refs a = m₀.pmm.refs a
  table : ∀ a, IsTable m D home a → IsTable m₀ D home a ∨ ¬ m₀.pmm.Held a
  bytes : ∀ a, m₀.pmm.Held a → ¬ IsTable m₀ D home a → SameFrame m₀ m a
  pde : ∀ q ∈ D, ∀ s < 1024, isPresent (word m₀ q s) = true → word m q s = word m₀ q s
  others : ∀ q ∈ D, q ≠ p → ∀ s < 1024, word m q s = word m₀ q s

/-- The frames that page `v` of `p` takes. -/
def pageNeed (m : Mm) (p v : ℕ) : ℕ := if isPresent (word m p (v / 1024)) then 1 else 2

/-- The empty slots of directory `p` among those of the `i` pages from page `b` on. -/
def missing (m : Mm) (p b i : ℕ) : Finset ℕ :=
  ((Finset.range i).image fun j => (b + j) / 1024).filter fun s => ¬ isPresent (word m p s) = true

/-- There are frames for the `i` pages from page `b` on and for the page tables they lack. -/
def Suffices (m : Mm) (p b i : ℕ) : Prop :=
  i + (missing m p b i).card ≤ frameGetFreeCount m.pmm

/-- The frames and slots after `i` pages. -/
structure Spent (p b : ℕ) (m₀ : Mm) (i : ℕ) (m : Mm) : Prop where
  ok : m.pmm.Ok
  free : frameGetFreeCount m.pmm + (i + (missing m₀ p b i).card) = frameGetFreeCount m₀.pmm
  slots : ∀ s < 1024, isPresent (word m p s) = true ↔
    isPresent (word m₀ p s) = true ∨ s ∈ missing m₀ p b i

/-! ## Numbers of free frames -/

section
variable {s s' : Pmm} {a : ℕ}

theorem Pmm.Ok.freeCount_congr (h : s.Ok) (h' : s'.Ok) (hs : SameMemory s s')
    (hheld : ∀ a, s'.Held a ↔ s.Held a) : frameGetFreeCount s' = frameGetFreeCount s := by
  have hu : s'.used = s.used := by
    ext f
    rw [Pmm.mem_used, Pmm.mem_used, hs.totalFrames]
    refine and_congr_right fun hf => ?_
    rcases Nat.eq_zero_or_pos f with rfl | h1
    · exact iff_of_true (h'.zero (by rw [hs.totalFrames]; exact hf)) (h.zero hf)
    · rw [← Pmm.held_addr h1 hf, ← Pmm.held_addr (s := s') h1 (by rw [hs.totalFrames]; exact hf),
        hs.addr, hheld]
  rw [frameGetFreeCount, frameGetFreeCount, hs.totalFrames, h.count, h'.count, hu]

theorem Pmm.Ok.used_le (h : s.Ok) : s.usedFrames ≤ s.totalFrames := by
  rw [h.count, Pmm.used]
  exact (Finset.card_filter_le ..).trans (Finset.card_range _).le

theorem Pmm.Ok.freeCount_free (h : s.Ok) (hs : s.Framed) (ha : s.Held a) (hr : s.refs a = 1) :
    frameGetFreeCount (pmmFrameFree s a) = frameGetFreeCount s + 1 := by
  obtain ⟨f, h1, h2, rfl, hb⟩ := ha
  rw [Pmm.refs_addr] at hr
  have hpos : 0 < s.usedFrames := by
    rw [h.count]
    exact Finset.card_pos.2 ⟨f, Pmm.mem_used.2 ⟨h2, hb⟩⟩
  have hle := h.used_le
  rw [frameFree_eq hs h1 h2, markFrameFree_last hb hr.le]
  simp only [frameGetFreeCount, Pmm.dropped]
  omega

end

section
variable {m m' m₀ m₁ : Mm} {D : Set ℕ} {home : ℕ → ℕ → ℕ} {p b i n v s t fl : ℕ}

/-! ## One page -/

theorem allocatePageTable_snd (m : Mm) : (allocatePageTable m).2 = (pmmFrameAlloc m.pmm).2 ∧
      (allocatePageTable m).1.pmm = (pmmFrameAlloc m.pmm).1 := by
  unfold allocatePageTable
  by_cases h : (pmmFrameAlloc m.pmm).2 = 0
  · simp only [h, if_true, and_self]
  · simp only [h, if_false, and_self]

/-- **`map_page_table_range`** fails if there is neither a table nor a frame for one. -/
theorem mapPageTableRange_count (h : Tables m D home) (hok : m.pmm.Ok) (hp : p ∈ D) (hi : i < 1024)
    (ho : Sole D home p i ∨ isPresent (word m p i)) {s n pa : ℕ} (hsn : s + n ≤ 1024)
    (hpa : pa % 4096 = 0) (fl : ℕ) {r : Mm × Bool}
    (hr : mapPageTableRange m p i s n pa fl = r) :
    (r.2 ↔ (if isPresent (word m p i) then 0 else 1) ≤ frameGetFreeCount m.pmm) ∧
      (r.2 →
        frameGetFreeCount r.1.pmm + (if isPresent (word m p i) then 0 else 1) =
            frameGetFreeCount m.pmm ∧
          ∀ j < 1024, isPresent (word r.1 p j) ↔ isPresent (word m p j) ∨ j = i) := by
  subst hr
  have hpmm : ∀ {m₁ : Mm} {t : ℕ}, t % 4096 = 0 →
      (fillPageTableEntries m₁ t s n pa fl).pmm = m₁.pmm :=
    fun ht => (fill_spec ht s pa fl hpa n hsn).1
  rcases getOrCreate_spec h hp hi ho fl with e | ⟨m₁, t, e, h0, h1, -, hpr, ht, -⟩
  · -- no table, and no frame
    have hno : ¬ isPresent (word m p i) := fun hpr => by
      rw [getOrCreatePageTable, if_pos hpr] at e
      exact (h.table_held hp hi hpr).isFrame.ne_zero (Prod.mk.inj e).2
    have hzero : frameGetFreeCount m.pmm = 0 := by
      by_contra hne
      have h2 := hok.alloc_count.1.2 (Nat.pos_of_ne_zero hne)
      rw [← (allocatePageTable_snd m).1] at h2
      rw [getOrCreatePageTable, if_neg hno] at e
      simp only [if_neg h2] at e
      exact h2 (Prod.mk.inj e).2
    have hf : (mapPageTableRange m p i s n pa fl).2 = false := by
      rw [mapPageTableRange, e]; rfl
    rw [if_neg hno, hf, hzero]
    exact ⟨by simp, fun h => by cases h⟩
  · have htrue : mapPageTableRange m p i s n pa fl =
        (fillPageTableEntries m₁ t s n pa fl, true) := by
      rw [mapPageTableRange, e]; exact if_neg h0
    subst ht
    have hne : pageOf (word m₁ p i) ≠ p := fun e => h1.table_ne_dir hp hi hpr hp e.symm
    have hdir : SameFrame m₁ (fillPageTableEntries m₁ (pageOf (word m₁ p i)) s n pa fl) p :=
      fun a g1 g2 => (fill_spec (m := m₁) (pageOf_aligned _) s pa fl hpa n hsn).2.1 a
        (not_in_frame (pageOf_aligned _) (h1.dir_aligned hp) hne.symm g1 g2)
    rw [htrue]
    simp only [hpmm (pageOf_aligned _), true_iff, true_implies]
    have hslots : ∀ j < 1024,
        isPresent (word (fillPageTableEntries m₁ (pageOf (word m₁ p i)) s n pa fl) p j) ↔
          isPresent (word m p j) ∨ j = i := fun j hj => by
      rw [hdir.word hj]
      by_cases hji : j = i
      · subst hji
        exact iff_of_true hpr (.inr rfl)
      · have h2 := getOrCreate_word h hp hi hj hji fl
        rw [e] at h2
        rw [h2, or_iff_left hji]
    refine and_assoc.1 ⟨?_, hslots⟩
    by_cases hpm : isPresent (word m p i)
    · have hm : m₁ = m := by
        rw [getOrCreatePageTable, if_pos hpm] at e
        exact (Prod.mk.inj e).1.symm
      rw [if_pos hpm, hm]
      exact ⟨Nat.zero_le _, rfl⟩
    · rw [if_neg hpm]
      obtain ⟨g1, g2⟩ := allocatePageTable_snd m
      obtain ⟨g3, g4⟩ := hok.alloc_count
      rw [getOrCreatePageTable, if_neg hpm] at e
      by_cases hz : (allocatePageTable m).2 = 0
      · simp only [if_pos hz] at e
        exact absurd (Prod.mk.inj e).2.symm h0
      · simp only [if_neg hz] at e
        have hm : m₁.pmm = (pmmFrameAlloc m.pmm).1 := by
          rw [← (Prod.mk.inj e).1, ← g2]; rfl
        have hpos := g3.1 (g1 ▸ hz)
        rw [hm, g4]
        exact ⟨hpos, by omega⟩

/-- **One page of `va_alloc_region`** succeeds just when there are frames for it. -/
theorem vaAllocPage_count (h : Tables m D home) (hok : m.pmm.Ok) (hp : p ∈ D) (hv : v + 1 < 2 ^ 20)
    (ho : Sole D home p (v / 1024) ∨ isPresent (word m p (v / 1024))) (fl : ℕ)
    {r : Mm × Bool} (hr : vaAllocPage p fl m (v * 4096) = r) :
    (r.2 ↔ pageNeed m p v ≤ frameGetFreeCount m.pmm) ∧
      (r.2 → frameGetFreeCount r.1.pmm + pageNeed m p v = frameGetFreeCount m.pmm ∧
        ∀ s < 1024, isPresent (word r.1 p s) ↔
          isPresent (word m p s) ∨ s = v / 1024) := by
  subst hr
  obtain ⟨g1, g2⟩ := hok.alloc_count
  have hone : pageNeed m p v = 1 + if isPresent (word m p (v / 1024)) then 0 else 1 := by
    unfold pageNeed
    split_ifs <;> rfl
  rw [vaAllocPage]
  rcases m.pmm.alloc_spec with ⟨e, -⟩ | ⟨s, f, e, ht⟩ <;> rw [e] at g1 g2 ⊢
  · have hz : frameGetFreeCount m.pmm = 0 := Nat.eq_zero_of_not_pos fun h1 => g1.2 h1 rfl
    simp only [if_true, Bool.false_eq_true, false_implies, and_true, false_iff]
    omega
  have hpos := g1.1 ht.frame.ne_zero
  have hd : Tables { m with pmm := s } D home :=
    h.congr ht.same (fun t hT => (ht.held t).2 (.inl (h.isTable_held hT))) fun _ _ _ _ => rfl
  have hi : v / 1024 < 1024 := by omega
  obtain ⟨k1, k2⟩ := mapPageTableRange_count hd (ht.ok hok) hp hi ho (s := v % 1024) (n := 1)
    (by omega) (ht.frame.aligned h.framed) (publicFlagsToArchFlags fl) rfl
  rw [← halVmMap_eq { m with pmm := s } p f fl hv] at k1 k2
  have hw : ∀ s', word { m with pmm := s } p s' = word m p s' := fun _ => rfl
  simp only [hw] at k1 k2
  rw [g2] at k1 k2
  simp only [if_neg ht.frame.ne_zero]
  generalize halVmMap { m with pmm := s } p (v * 4096) f fl = r at k1 k2
  obtain ⟨m', _ | _⟩ := r
  · simp only [Bool.false_eq_true, false_iff, false_implies, and_true] at k1 ⊢
    omega
  · simp only [true_iff, true_implies] at k1 k2 ⊢
    refine ⟨by omega, ?_, k2.2⟩
    have := k2.1
    omega

/-! ## A region -/

theorem Backed.start (h : Tables m D home) : Backed D home p b m 0 m where
  tables := h
  same := .refl _
  mapped := fun j hj => absurd hj (Nat.not_lt_zero j)
  held := fun j hj => absurd hj (Nat.not_lt_zero j)
  fresh := fun j hj => absurd hj (Nat.not_lt_zero j)
  one := fun j hj => absurd hj (Nat.not_lt_zero j)
  plain := fun j hj => absurd hj (Nat.not_lt_zero j)
  inj := fun j hj => absurd hj (Nat.not_lt_zero j)
  rest := fun _ _ _ _ _ => rfl
  keep := fun _ h => h
  refs := fun _ _ => rfl
  table := fun _ h => .inl h
  bytes := fun _ _ _ => .refl _ _
  pde := fun _ _ _ _ _ => rfl
  others := fun _ _ _ _ _ => rfl

theorem Backed.step (h : Backed D home p b m₀ i m) (hp : p ∈ D) (hv : b + i + 1 < 2 ^ 20)
    (ho : Sole D home p ((b + i) / 1024) ∨ isPresent (word m p ((b + i) / 1024)))
    (hr : (vaAllocPage p fl m ((b + i) * 4096)).2) :
    Backed D home p b m₀ (i + 1) (vaAllocPage p fl m ((b + i) * 4096)).1 := by
  rcases h.tables.alloc_page hp hv ho fl with ⟨m', e, -⟩ | ⟨m', f, e, hg, ht, hother, he⟩ <;>
    rw [e] at hr ⊢
  · cases hr
  have hfa := hg.frame.aligned h.tables.framed
  have hnew : entry m' p (b + i) = makePte f (publicFlagsToArchFlags fl) := by
    rw [he p hp (b + i) (by omega), if_pos ⟨rfl, rfl⟩]
  have hpage : pageOf (entry m' p (b + i)) = f := by rw [hnew, pageOf_makePte hfa]
  have hold : ∀ j < i, entry m' p (b + j) = entry m p (b + j) := fun j hj => by
    rw [he p hp (b + j) (by omega), if_neg fun e => by omega]
  have hne : ∀ j < i, pageOf (entry m p (b + j)) ≠ f := fun j hj e => hg.fresh (e ▸ h.held j hj)
  have hplain : ∀ a, m.pmm.Held a → ¬ IsTable m D home a → ¬ IsTable m' D home a :=
    fun a ha hn hT => (hg.table a hT).elim hn fun h1 => h1 ha
  refine ⟨ht, h.same.trans hg.same, fun j hj => ?_, fun j hj => ?_, fun j hj => ?_, fun j hj => ?_,
    fun j hj => ?_, fun j hj j' hj' ej => ?_, fun q hq u hu hn => ?_,
    fun a ha => hg.keep a (h.keep a ha),
    fun a ha => (hg.refs a (h.keep a ha)).trans (h.refs a ha), fun a hT => ?_, fun a ha hn => ?_,
    fun q hq s hs hpr => ?_,
    fun q hq hqp s hs => (hother q hq hqp s hs).trans (h.others q hq hqp s hs)⟩
  · rcases Nat.lt_succ_iff_lt_or_eq.1 hj with hj | rfl
    · rw [hold j hj]; exact h.mapped j hj
    · rw [hnew]; exact makePte_ne_zero _ _
  · rcases Nat.lt_succ_iff_lt_or_eq.1 hj with hj | rfl
    · rw [hold j hj]; exact hg.keep _ (h.held j hj)
    · rw [hpage]; exact hg.held
  · rcases Nat.lt_succ_iff_lt_or_eq.1 hj with hj | rfl
    · rw [hold j hj]; exact h.fresh j hj
    · rw [hpage]; exact fun h1 => hg.fresh (h.keep f h1)
  · rcases Nat.lt_succ_iff_lt_or_eq.1 hj with hj | rfl
    · rw [hold j hj, hg.refs _ (h.held j hj)]; exact h.one j hj
    · rw [hpage]; exact hg.one
  · rcases Nat.lt_succ_iff_lt_or_eq.1 hj with hj | rfl
    · rw [hold j hj]; exact hplain _ (h.held j hj) (h.plain j hj)
    · rw [hpage]; exact hg.plain
  · -- the new frame was free, the others were not
    rcases Nat.lt_succ_iff_lt_or_eq.1 hj with hj | rfl <;>
      rcases Nat.lt_succ_iff_lt_or_eq.1 hj' with hj' | rfl
    · rw [hold j hj, hold j' hj'] at ej
      exact h.inj j hj j' hj' ej
    · rw [hold j hj, hpage] at ej
      exact absurd ej (hne j hj)
    · rw [hold j' hj', hpage] at ej
      exact absurd ej.symm (hne j' hj')
    · rfl
  · rw [he q hq u hu, if_neg, h.rest q hq u hu fun e => hn ⟨e.1, by omega, e.2.2⟩]
    rintro ⟨rfl, e⟩
    exact hn ⟨by omega, by omega, e⟩
  · rcases hg.table a hT with h1 | h1
    · exact h.table a h1
    · exact .inr fun h2 => h1 (h.keep a h2)
  · have hm : ¬ IsTable m D home a := fun hT => (h.table a hT).elim hn fun h1 => h1 ha
    refine (h.bytes a ha hn).trans (hg.bytes a ?_ (hplain a (h.keep a ha) hm))
    exact (h.keep a ha).isFrame.aligned h.tables.framed
  · have h1 := h.pde q hq s hs hpr
    rw [hg.pde q hq s hs (by rw [h1]; exact hpr), h1]

theorem missing_succ (m : Mm) (p b i : ℕ) : missing m p b (i + 1) =
    if isPresent (word m p ((b + i) / 1024)) = true then missing m p b i
    else insert ((b + i) / 1024) (missing m p b i) := by
  rw [missing, Finset.range_add_one, Finset.image_insert, Finset.filter_insert, missing]
  split_ifs <;> simp_all

theorem missing_card_succ (m : Mm) (p b i : ℕ) : (missing m p b (i + 1)).card =
    (missing m p b i).card + if isPresent (word m p ((b + i) / 1024)) ∨
      (b + i) / 1024 ∈ missing m p b i then 0 else 1 := by
  rw [missing_succ]
  by_cases h1 : isPresent (word m p ((b + i) / 1024))
  · rw [if_pos h1, if_pos (.inl h1), Nat.add_zero]
  · rw [if_neg h1]
    by_cases h2 : (b + i) / 1024 ∈ missing m p b i
    · rw [if_pos (.inr h2), Finset.insert_eq_of_mem h2, Nat.add_zero]
    · rw [if_neg (fun h => h.elim h1 h2), Finset.card_insert_of_notMem h2]

theorem Spent.start (h : m.pmm.Ok) : Spent p b m 0 m where
  ok := h
  free := by simp [missing]
  slots := fun s _ => by simp [missing]

theorem Spent.need (h : Spent p b m₀ i m) (hv : b + i + 1 < 2 ^ 20) :
    i + (missing m₀ p b i).card + pageNeed m p (b + i) =
      i + 1 + (missing m₀ p b (i + 1)).card := by
  have hs := h.slots ((b + i) / 1024) (by omega)
  rw [missing_card_succ, pageNeed]
  by_cases hpr : isPresent (word m p ((b + i) / 1024))
  · rw [if_pos hpr, if_pos (hs.1 hpr)]
    omega
  · rw [if_neg hpr, if_neg fun e => hpr (hs.2 e)]
    omega

theorem Spent.step (h : Spent p b m₀ i m) (ht : Tables m D home) (hp : p ∈ D)
    (hv : b + i + 1 < 2 ^ 20)
    (ho : Sole D home p ((b + i) / 1024) ∨ isPresent (word m p ((b + i) / 1024)))
    (hr : (vaAllocPage p fl m ((b + i) * 4096)).2) :
    Spent p b m₀ (i + 1) (vaAllocPage p fl m ((b + i) * 4096)).1 := by
  obtain ⟨-, h2⟩ := vaAllocPage_count ht h.ok hp hv ho fl rfl
  obtain ⟨h3, h4⟩ := h2 hr
  have hok : (vaAllocPage p fl m ((b + i) * 4096)).1.pmm.Ok := by
    rcases ht.alloc_page hp hv ho fl with ⟨m', e, hu⟩ | ⟨m', f, e, hg, -⟩ <;> rw [e]
    · exact hu.ok h.ok
    · exact hg.ok h.ok
  refine ⟨hok, ?_, fun s hs => ?_⟩
  · have h5 := h.need hv
    have h6 := h.free
    omega
  · rw [h4 s hs, h.slots s hs, missing_succ]
    by_cases hpr : isPresent (word m₀ p ((b + i) / 1024))
    · rw [if_pos hpr]
      constructor
      · rintro ((h1 | h1) | rfl)
        · exact .inl h1
        · exact .inr h1
        · exact .inl hpr
      · exact .inl
    · rw [if_neg hpr, Finset.mem_insert]
      tauto

theorem Spent.next_iff (h : Spent p b m₀ i m) (ht : Tables m D home) (hp : p ∈ D)
    (hv : b + i + 1 < 2 ^ 20)
    (ho : Sole D home p ((b + i) / 1024) ∨ isPresent (word m p ((b + i) / 1024))) :
    (vaAllocPage p fl m ((b + i) * 4096)).2 ↔ Suffices m₀ p b (i + 1) := by
  obtain ⟨h1, -⟩ := vaAllocPage_count ht h.ok hp hv ho fl rfl
  have h2 := h.need hv
  have h3 := h.free
  rw [h1, Suffices]
  omega

/-- Every slot of directory `p` is its own, or it is in use. -/
def Slots (D : Set ℕ) (home : ℕ → ℕ → ℕ) (p : ℕ) (m : Mm) : Prop :=
  ∀ s < 1024, Sole D home p s ∨ isPresent (word m p s) = true

theorem Backed.slots (h : Backed D home p b m₀ i m) (hp : p ∈ D) (ho : Slots D home p m₀) :
    Slots D home p m := fun s hs =>
  (ho s hs).imp_right fun hpr => by rw [h.pde p hp s hs hpr]; exact hpr

/-- **A region that `va_alloc_region` gives.** -/
theorem vaAllocRegion_true (h : Tables m D home) (hp : p ∈ D) (ho : Slots D home p m)
    (hbn : b + n < 2 ^ 20) (hr : (vaAllocRegion m p (b * 4096) (n * 4096) fl).2) :
    Backed D home p b m n (vaAllocRegion m p (b * 4096) (n * 4096) fl).1 := by
  rcases vaAllocRegion_rule (J := Backed D home p b m) hbn (fun i hi m₁ h₁ hr1 =>
    h₁.step hp (by omega) (h₁.slots hp ho _ (by omega)) hr1) (Backed.start h) with
    ⟨m', e, h1⟩ | ⟨j, -, m₁, m2, -, -, e⟩ <;> rw [e] at hr ⊢
  · exact h1
  · cases hr

theorem Backed.dirs {k : ℕ} {V : Finset ℕ} (h : Backed (dirsOf k V) (procHome k) p b m₀ i m)
    (h0 : Dirs m₀ k V) (hp : p ∈ V) : Dirs m k V where
  tables := h.tables
  kernel := h0.kernel
  lower := fun s hs => by
    rw [h.others k (.inl rfl) (h0.ne_kernel hp).symm s (by omega)]
    exact h0.lower s hs
  upper := fun s h1 h2 => by
    rw [h.pde k (.inl rfl) s h2 (h0.upper s h1 h2)]
    exact h0.upper s h1 h2

theorem Backed.spaces {k : ℕ} {V : Finset ℕ} (h : Backed (dirsOf k V) (procHome k) p b m₀ i m)
    (h0 : Spaces m₀ k V) (hp : p ∈ V) : Spaces m k V := by
  refine ⟨h.dirs h0.toDirs hp, fun q hq v hv hne => ?_⟩
  have hv' := userPages_lt hv
  by_cases hin : b ≤ v ∧ v < b + i ∧ procHome k q (v / 1024) = procHome k p (v / 1024)
  · obtain ⟨h1, h2, h3⟩ := hin
    rw [procHome_user hv, procHome_user hv] at h3
    subst h3
    obtain ⟨j, rfl⟩ := Nat.exists_eq_add_of_le h1
    exact ⟨h.held j (by omega), h.plain j (by omega)⟩
  · rw [h.rest q (mem_dirsOf hq) v (by omega) hin] at hne ⊢
    obtain ⟨h1, h2⟩ := h0.data q hq v hv hne
    exact ⟨h.keep _ h1, fun hT => (h.table _ hT).elim h2 fun h3 => h3 h1⟩

/-- **`va_alloc_region`** succeeds if the frames suffice, and cleans up after the page for which
    they do not. -/
theorem vaAllocRegion_counted (h : Tables m D home) (hok : m.pmm.Ok) (hp : p ∈ D)
    (ho : Slots D home p m) (hbn : b + n < 2 ^ 20) (fl : ℕ) :
    (Suffices m p b n ∧ ∃ m', vaAllocRegion m p (b * 4096) (n * 4096) fl = (m', true)) ∨
      ∃ j < n, Suffices m p b j ∧ ¬ Suffices m p b (j + 1) ∧ ∃ m₁ m2, Backed D home p b m j m₁ ∧
        Spent p b m j m₁ ∧ Untouched m₁ m2 ∧
          vaAllocRegion m p (b * 4096) (n * 4096) fl = (vaClean m2 p (b * 4096) j, false) := by
  have hsuff : ∀ {i m₁}, Spent p b m i m₁ → Suffices m p b i := fun h₁ => by
    have := h₁.free
    rw [Suffices]
    omega
  rcases vaAllocRegion_rule (J := fun i m₁ => Backed D home p b m i m₁ ∧ Spent p b m i m₁) hbn
    (fun i hi m₁ h₁ hr1 => ⟨h₁.1.step hp (by omega) (h₁.1.slots hp ho _ (by omega)) hr1,
      h₁.2.step h₁.1.tables hp (by omega) (h₁.1.slots hp ho _ (by omega)) hr1⟩)
    ⟨Backed.start h, Spent.start hok⟩ with ⟨m', e, h1⟩ | ⟨j, hj, m₁, m2, h₁, hf, e⟩
  · exact .inl ⟨hsuff h1.2, m', e⟩
  have hslot := h₁.1.slots hp ho ((b + j) / 1024) (by omega)
  refine .inr ⟨j, hj, hsuff h₁.2, fun hs => ?_, m₁, m2, h₁.1, h₁.2, ?_, e⟩
  · have hgiven : (vaAllocPage p fl m₁ ((b + j) * 4096)).2 :=
      (h₁.2.next_iff h₁.1.tables hp (by omega) hslot).2 hs
    rw [hf] at hgiven
    cases hgiven
  · rcases h₁.1.tables.alloc_page hp (by omega) hslot fl with ⟨m', e', hu⟩ | ⟨m', f, e', -⟩
    · rw [hf] at e'
      rw [(Prod.mk.inj e').1]
      exact hu
    · rw [hf] at e'
      cases (Prod.mk.inj e').2

/-! ## Cleaning up -/

/-- After the clean-up of `i` pages of the `n` pages that were given in `m₁`. -/
structure Undone (D : Set ℕ) (home : ℕ → ℕ → ℕ) (p b n : ℕ) (m₁ : Mm) (i : ℕ) (m : Mm) : Prop where
  tables : Tables m D home
  ok : m.pmm.Ok
  free : frameGetFreeCount m.pmm = frameGetFreeCount m₁.pmm + i
  table : ∀ a, IsTable m D home a ↔ IsTable m₁ D home a
  held : ∀ j, i ≤ j → j < n → m.pmm.Held (pageOf (entry m₁ p (b + j)))
  one : ∀ j, i ≤ j → j < n → m.pmm.refs (pageOf (entry m₁ p (b + j))) = 1
  maps : ∀ q ∈ D, ∀ u < 2 ^ 20, entry m q u =
    if b ≤ u ∧ u < b + i ∧ home q (u / 1024) = home p (u / 1024) then 0 else entry m₁ q u

theorem Undone.start (h : Backed D home p b m₀ n m₁) (hok : m₁.pmm.Ok) (hu : Untouched m₁ m) :
    Undone D home p b n m₁ 0 m where
  tables := h.tables.congr hu.same (fun t ht => (hu.held t).2 (h.tables.isTable_held ht))
    fun _ _ _ _ => word_of_mem hu.mem ..
  ok := hu.ok hok
  free := hok.freeCount_congr (hu.ok hok) hu.same hu.held
  table := fun _ => isTable_of_mem hu.mem
  held := fun j _ hj => (hu.held _).2 (h.held j hj)
  one := fun j _ hj => (hu.refs _ (h.held j hj)).trans (h.one j hj)
  maps := fun q _ u _ => by rw [entry_of_mem hu.mem, if_neg (by omega)]

theorem Undone.step (h : Undone D home p b n m₁ i m) (h1 : Backed D home p b m₀ n m₁) (hp : p ∈ D)
    (hi : i < n) (hbn : b + n < 2 ^ 20) :
    Undone D home p b n m₁ (i + 1) (vaCleanPage p m ((b + i) * 4096)) := by
  have he : ∀ j, i ≤ j → j < n → entry m p (b + j) = entry m₁ p (b + j) := fun j hj hjn => by
    rw [h.maps p hp (b + j) (by omega), if_neg (by omega)]
  have hei := he i le_rfl hi
  have hheld := h.held i le_rfl hi
  have hone := h.one i le_rfl hi
  have hplain : ¬ IsTable m D home (pageOf (entry m₁ p (b + i))) := fun hT =>
    h1.plain i hi ((h.table _).1 hT)
  rw [← hei] at hheld hone hplain
  have hne : entry m p (b + i) ≠ 0 := by rw [hei]; exact h1.mapped i hi
  obtain ⟨g1, g2, g3, -, -, -, g7⟩ :=
    h.tables.clean_page hp (v := b + i) (by omega) (.inr ⟨hheld, hplain⟩)
  rw [if_neg hne] at g2
  have hdr := Pmm.free_spec h.tables.framed hheld
  have hother : ∀ j, i + 1 ≤ j → j < n →
      pageOf (entry m₁ p (b + j)) ≠ pageOf (entry m p (b + i)) := fun j hj hjn e => by
    rw [hei] at e
    have := h1.inj j hjn i hi e
    omega
  refine ⟨g1, ?_, ?_, fun a => (g3 a).trans (h.table a), fun j hj hjn => ?_, fun j hj hjn => ?_,
    fun q hq u hu => ?_⟩
  · rw [g2]; exact hdr.ok h.ok
  · rw [g2, h.ok.freeCount_free h.tables.framed hheld hone, h.free, Nat.add_assoc]
  · rw [g2, hdr.held]
    exact ⟨h.held j (by omega) hjn, fun e => absurd e (hother j hj hjn)⟩
  · rw [g2, hdr.refs _ (h.held j (by omega) hjn).isFrame (hother j hj hjn)]
    exact h.one j (by omega) hjn
  · rw [g7 q hq u hu, h.maps q hq u hu]
    by_cases hui : u = b + i ∧ home q ((b + i) / 1024) = home p ((b + i) / 1024)
    · obtain ⟨rfl, hh⟩ := hui
      rw [if_pos ⟨rfl, hh⟩, if_pos ⟨by omega, by omega, hh⟩]
    · rw [if_neg hui]
      refine if_congr ⟨fun e => ⟨e.1, by omega, e.2.2⟩, fun e => ⟨e.1, ?_, e.2.2⟩⟩ rfl rfl
      by_contra hlt
      have : u = b + i := by omega
      subst this
      exact hui ⟨rfl, e.2.2⟩

/-- **The clean-up** unmaps the pages again and gives their frames back. -/
theorem vaClean_undone (h1 : Backed D home p b m₀ n m₁) (hok : m₁.pmm.Ok) (hu : Untouched m₁ m)
    (hp : p ∈ D) (hbn : b + n < 2 ^ 20) :
    Undone D home p b n m₁ n (vaClean m p (b * 4096) n) :=
  vaClean_rule (J := Undone D home p b n m₁) (fun _ hi _ h => h.step h1 hp hi hbn)
    (Undone.start h1 hok hu)

end

end Kabanos
