/-
  Backing a region with frames: `va_alloc_region` page by page, and its clean-up.
-/
import Kabanos.Mm.Spaces

namespace Kabanos

variable {t b n : ℕ} {J : ℕ → Mm → Prop}

/-- The machine is as before, up to reference counts of free frames. -/
structure Untouched (m m' : Mm) : Prop where
  mem : m'.mem = m.mem
  same : SameMemory m.pmm m'.pmm
  ok : m.pmm.Ok → m'.pmm.Ok
  held : ∀ a, m'.pmm.Held a ↔ m.pmm.Held a
  refs : ∀ a, m.pmm.Held a → m'.pmm.refs a = m.pmm.refs a

/-- Frame `f` was free and is in use now, with one reference; moreover directory `p` may have
    got page tables. -/
structure Gives (D : Set ℕ) (home : ℕ → ℕ → ℕ) (f : ℕ) (m m' : Mm) : Prop where
  same : SameMemory m.pmm m'.pmm
  ok : m.pmm.Ok → m'.pmm.Ok
  free : m.pmm.Ok → frameGetFreeCount m'.pmm < frameGetFreeCount m.pmm
  frame : m.pmm.IsFrame f
  fresh : ¬ m.pmm.Held f
  held : m'.pmm.Held f
  one : m'.pmm.refs f = 1
  plain : ¬ IsTable m' D home f
  keep : ∀ a, m.pmm.Held a → m'.pmm.Held a
  refs : ∀ a, m.pmm.Held a → m'.pmm.refs a = m.pmm.refs a
  table : ∀ a, IsTable m' D home a → IsTable m D home a ∨ ¬ m.pmm.Held a
  bytes : ∀ a, a % 4096 = 0 → ¬ IsTable m' D home a → SameFrame m m' a
  pde : ∀ q ∈ D, ∀ i < 1024, isPresent (word m q i) = true → word m' q i = word m q i

/-- Page `v` of `p` is mapped to a frame in use that holds no table. -/
structure DataPage (m : Mm) (k : ℕ) (V : Finset ℕ) (p v : ℕ) : Prop where
  dir : p ∈ V
  lt : v < 2 ^ 20
  mapped : entry m p v ≠ 0
  held : m.pmm.Held (pageOf (entry m p v))
  plain : ¬ IsTable m (dirsOf k V) (procHome k) (pageOf (entry m p v))

section
variable {m m' : Mm} {k : ℕ} {V : Finset ℕ} {p q v u f fl : ℕ} {D : Set ℕ} {home : ℕ → ℕ → ℕ}

theorem IsTable.pmm (s : Pmm) : IsTable { m with pmm := s } D home t ↔ IsTable m D home t := Iff.rfl

theorem Gives.of_grow (h : Tables m D home) {s : Pmm} (ht : Taken m.pmm s f)
    (hg : Grow D home p { m with pmm := s } m') : Gives D home f m m' := by
  have hheld : s.Held f := (ht.held f).2 (.inr rfl)
  have hs : ∀ a, m.pmm.Held a → s.Held a := fun a ha => (ht.held a).2 (.inl ha)
  have hne : ∀ a, m.pmm.Held a → a ≠ f := fun a ha e => ht.fresh (e ▸ ha)
  refine ⟨ht.same.trans hg.same, fun ho => hg.ok (ht.ok ho), fun ho => ?_, ht.frame, ht.fresh,
    hg.keep f hheld, (hg.refs f hheld).trans ht.one, fun hT => ?_, fun a ha => hg.keep a (hs a ha),
    fun a ha => (hg.refs a (hs a ha)).trans (ht.refs a ha.isFrame (hne a ha)), fun a ha => ?_,
    hg.bytes, hg.dirs⟩
  · -- some frame was free, and one less is afterwards
    have hpos := ho.freeCount_pos.2 (by
      obtain ⟨g, h1, h2, rfl⟩ := ht.frame
      refine ⟨g, h1, h2, Bool.eq_false_iff.2 fun hb => ht.fresh ((Pmm.held_addr h1 h2).2 hb)⟩)
    have h1 := hg.free
    have h2 := ht.used
    have h3 := ht.same.totalFrames
    simp only [frameGetFreeCount] at hpos h1 ⊢
    omega
  · rcases hg.table f hT with h1 | h1
    · exact ht.fresh (h.isTable_held ((IsTable.pmm s).1 h1))
    · exact h1 hheld
  · exact (hg.table a ha).imp_right fun h1 h2 => h1 (hs a h2)

/-- **One page of `va_alloc_region`.** -/
theorem Tables.alloc_page (h : Tables m D home) (hp : p ∈ D) (hv : v + 1 < 2 ^ 20)
    (ho : Sole D home p (v / 1024) ∨ isPresent (word m p (v / 1024))) (fl : ℕ) :
    (∃ m', vaAllocPage p fl m (v * 4096) = (m', false) ∧ Untouched m m') ∨
      ∃ m' f, vaAllocPage p fl m (v * 4096) = (m', true) ∧ Gives D home f m m' ∧ Tables m' D home ∧
        (∀ q ∈ D, q ≠ p → ∀ i < 1024, word m' q i = word m q i) ∧
        ∀ q ∈ D, ∀ u < 2 ^ 20, entry m' q u =
          if u = v ∧ home q (v / 1024) = home p (v / 1024) then
            makePte f (publicFlagsToArchFlags fl)
          else entry m q u := by
  unfold vaAllocPage
  rcases m.pmm.alloc_spec with ⟨e, -⟩ | ⟨s, f, e, ht⟩ <;> rw [e]
  · exact .inl ⟨m, rfl, rfl, .refl _, id, fun _ => Iff.rfl, fun _ _ => rfl⟩
  have hs : ∀ a, m.pmm.Held a → s.Held a := fun a ha => (ht.held a).2 (.inl ha)
  have hd : Tables { m with pmm := s } D home :=
    h.congr ht.same (fun t hT => hs t (h.isTable_held hT)) fun _ _ _ _ => rfl
  have hf0 := ht.frame.ne_zero
  rcases hd.map_page hp hv ho (ht.frame.aligned h.framed) (ht.frame.lt h.framed) fl with
    e1 | ⟨m', e1, h1, h2, h3⟩
  · refine .inl ⟨{ m with pmm := pmmFrameFree s f }, ?_, ?_⟩
    · simp only [if_neg hf0, e1]
    have hdr := Pmm.free_spec (ht.same.framed h.framed) ((ht.held f).2 (.inr rfl))
    refine ⟨rfl, ht.same.trans hdr.same, fun ho => hdr.ok (ht.ok ho), fun a => ?_, fun a ha => ?_⟩
    · rw [hdr.held, ht.held, ht.one]
      constructor
      · rintro ⟨h1 | rfl, h2⟩
        · exact h1
        · exact absurd (h2 rfl) (by norm_num)
      · exact fun h1 => ⟨.inl h1, fun e => absurd (e ▸ h1) ht.fresh⟩
    · have hne : a ≠ f := fun e => ht.fresh (e ▸ ha)
      rw [hdr.refs a (ht.same.isFrame.2 ha.isFrame) hne, ht.refs a ha.isFrame hne]
  · refine .inr ⟨m', f, ?_, Gives.of_grow h ht h2, h1, h2.others, h3⟩
    simp only [if_neg hf0, e1]

theorem Dirs.alloc_page (h : Dirs m k V) (hp : p ∈ V) (hv : v + 1 < 2 ^ 20) (fl : ℕ) :
    (∃ m', vaAllocPage p fl m (v * 4096) = (m', false) ∧ Untouched m m') ∨
      ∃ m' f, vaAllocPage p fl m (v * 4096) = (m', true) ∧
        Gives (dirsOf k V) (procHome k) f m m' ∧ Dirs m' k V ∧
          ∀ q ∈ dirsOf k V, ∀ u < 2 ^ 20, entry m' q u =
            if u = v ∧ procHome k q (v / 1024) = procHome k p (v / 1024) then
              makePte f (publicFlagsToArchFlags fl)
            else entry m q u := by
  have hi : v / 1024 < 1024 := by omega
  rcases h.tables.alloc_page (mem_dirsOf hp) hv (h.slot hp hi) fl with
    h1 | ⟨m', f, e, hg, ht, hother, he⟩
  · exact .inl h1
  refine .inr ⟨m', f, e, hg, ⟨ht, h.kernel, fun i hi => ?_, fun i h1 h2 => ?_⟩, he⟩
  · rw [hother k (.inl rfl) (h.ne_kernel hp).symm i (by omega)]
    exact h.lower i hi
  · rw [hg.pde k (.inl rfl) i h2 (h.upper i h1 h2)]
    exact h.upper i h1 h2

theorem Untouched.dirs (h : Dirs m k V) (hu : Untouched m m') : Dirs m' k V := by
  have e : m' = { m with pmm := m'.pmm } := by rw [← hu.mem]
  rw [e]
  exact h.pmm hu.same fun t ht => (hu.held t).2 (h.tables.isTable_held ht)

theorem word_of_mem (h : m'.mem = m.mem) (t i : ℕ) : word m' t i = word m t i := by
  simp only [word, h]

theorem entry_of_mem (h : m'.mem = m.mem) (p v : ℕ) : entry m' p v = entry m p v := by
  simp only [entry, word_of_mem h]

theorem isTable_of_mem (h : m'.mem = m.mem) : IsTable m' D home t ↔ IsTable m D home t :=
  IsTable.congr fun _ _ _ _ => word_of_mem h ..

theorem Spaces.give (h : Spaces m k V)
    (hg : Gives (dirsOf k V) (procHome k) f m m') (hd : Dirs m' k V) {w : ℕ} (hw : pageOf w = f)
    (he : ∀ q ∈ dirsOf k V, ∀ u < 2 ^ 20, entry m' q u =
      if u = v ∧ procHome k q (v / 1024) = procHome k p (v / 1024) then w else entry m q u) :
    Spaces m' k V := by
  refine ⟨hd, fun q hq u hu h0 => ?_⟩
  have hu' := userPages_lt hu
  rw [he q (mem_dirsOf hq) u (by omega)] at h0 ⊢
  split_ifs at h0 ⊢ with hc
  · rw [hw]; exact ⟨hg.held, hg.plain⟩
  · obtain ⟨h1, h2⟩ := h.data q hq u hu h0
    exact ⟨hg.keep _ h1, fun hT => (hg.table _ hT).elim h2 fun h3 => h3 h1⟩

section
variable (hfr : m.pmm.Framed) (hg : Gives (dirsOf k V) (procHome k) f m m')
  (he : ∀ q ∈ dirsOf k V, ∀ u < 2 ^ 20, entry m' q u =
    if u = v ∧ procHome k q (v / 1024) = procHome k p (v / 1024) then makePte f fl else entry m q u)
include hfr hg he

theorem Gives.page (hp : p ∈ V) (hv : v < 2 ^ 20) :
    DataPage m' k V p v ∧ pageOf (entry m' p v) = f := by
  have e := he p (mem_dirsOf hp) v hv
  rw [if_pos ⟨rfl, rfl⟩] at e
  have hpg : pageOf (entry m' p v) = f := by rw [e]; exact pageOf_makePte (hg.frame.aligned hfr)
  refine ⟨⟨hp, hv, by rw [e]; exact makePte_ne_zero _ _, ?_, ?_⟩, hpg⟩
  · rw [hpg]; exact hg.held
  · rw [hpg]; exact hg.plain

theorem DataPage.give (h : DataPage m k V q u) : DataPage m' k V q u ∧ (pageOf (entry m' q u) = f ∨
      entry m' q u = entry m q u ∧ SameFrame m m' (pageOf (entry m q u))) := by
  have e := he q (mem_dirsOf h.dir) u h.lt
  by_cases hc : u = v ∧ procHome k q (v / 1024) = procHome k p (v / 1024)
  · rw [if_pos hc] at e
    have hpg : pageOf (entry m' q u) = f := by rw [e]; exact pageOf_makePte (hg.frame.aligned hfr)
    refine ⟨⟨h.dir, h.lt, by rw [e]; exact makePte_ne_zero _ _, ?_, ?_⟩, .inl hpg⟩
    · rw [hpg]; exact hg.held
    · rw [hpg]; exact hg.plain
  · rw [if_neg hc] at e
    have hn : ¬ IsTable m' (dirsOf k V) (procHome k) (pageOf (entry m q u)) := fun hT =>
      (hg.table _ hT).elim h.plain fun h1 => h1 h.held
    refine ⟨⟨h.dir, h.lt, ?_, ?_, ?_⟩, .inr ⟨e, hg.bytes _ (pageOf_aligned _) hn⟩⟩ <;> rw [e]
    · exact h.mapped
    · exact hg.keep _ h.held
    · exact hn

end

/-! ## Cleaning up -/

theorem clear_pmm (m : Mm) (t s n : ℕ) : (clearPageTableEntries m t s n).pmm = m.pmm := by
  unfold clearPageTableEntries
  induction n with
  | zero => rfl
  | succ n ih =>
    rw [List.range_succ, List.foldl_append, List.foldl_cons, List.foldl_nil]
    split_ifs <;> exact ih

theorem unmap_page_pmm (m : Mm) (p : ℕ) (hv : v + 1 < 2 ^ 20) :
    (halVmUnmap m p (v * 4096)).pmm = m.pmm := by
  rw [halVmUnmap_eq m p hv, unmapPageTableRange]
  have hn : ¬ (v % 1024 = 0 ∧ 1 = 1024) := by omega
  split_ifs
  · rfl
  · exact clear_pmm ..

/-- **The clean-up of one page** drops its frame and its entry. -/
theorem Tables.clean_page (h : Tables m D home) (hp : p ∈ D) (hv : v + 1 < 2 ^ 20)
    (hd : entry m p v = 0 ∨
      m.pmm.Held (pageOf (entry m p v)) ∧ ¬ IsTable m D home (pageOf (entry m p v))) :
    Tables (vaCleanPage p m (v * 4096)) D home ∧
      (vaCleanPage p m (v * 4096)).pmm =
        (if entry m p v = 0 then m.pmm else pmmFrameFree m.pmm (pageOf (entry m p v))) ∧
      (∀ t, IsTable (vaCleanPage p m (v * 4096)) D home t ↔ IsTable m D home t) ∧
      (∀ a, a % 4096 = 0 → ¬ IsTable m D home a → SameFrame m (vaCleanPage p m (v * 4096)) a) ∧
      (∀ q ∈ D, q ≠ p → ∀ i < 1024, word (vaCleanPage p m (v * 4096)) q i = word m q i) ∧
      (∀ q ∈ D, ∀ i < 1024, isPresent (word m q i) →
        word (vaCleanPage p m (v * 4096)) q i = word m q i) ∧
      ∀ q ∈ D, ∀ u < 2 ^ 20, entry (vaCleanPage p m (v * 4096)) q u =
        if u = v ∧ home q (v / 1024) = home p (v / 1024) then 0 else entry m q u := by
  obtain ⟨s, hs⟩ : ∃ s, (if entry m p v = 0 then m.pmm
    else pmmFrameFree m.pmm (pageOf (entry m p v))) = s := ⟨_, rfl⟩
  rw [hs]
  have ephys : halVmVirtToPhys m p (v * 4096) =
      if entry m p v = 0 then 0 else pageOf (entry m p v) := by
    rw [virtToPhys_eq, Nat.mul_div_cancel _ (by norm_num), Nat.mul_mod_left, Nat.add_zero]
  have hm : vaCleanPage p m (v * 4096) = halVmUnmap { m with pmm := s } p (v * 4096) := by
    unfold vaCleanPage
    rw [ephys]
    by_cases h0 : entry m p v = 0
    · rw [if_pos h0] at hs ⊢
      simp [← hs]
    · have hf := ((hd.resolve_left h0).1).isFrame.ne_zero
      rw [if_neg h0] at hs ⊢
      simp only [if_pos hf, hs]
  have hd' : Tables { m with pmm := s } D home := by
    by_cases h0 : entry m p v = 0
    · rw [if_pos h0] at hs
      rw [← hs]; exact h
    · obtain ⟨h1, h2⟩ := hd.resolve_left h0
      rw [if_neg h0] at hs
      have hdr := Pmm.free_spec h.framed h1
      rw [hs] at hdr
      exact h.congr hdr.same (fun t ht => (hdr.held t).2
        ⟨h.isTable_held ht, fun e => absurd (e ▸ ht) h2⟩) fun _ _ _ _ => rfl
  obtain ⟨k1, k2, k3⟩ := hd'.unmap_page hp hv
  have hpmm : (halVmUnmap { m with pmm := s } p (v * 4096)).pmm = s := unmap_page_pmm _ p hv
  -- no frame is allocated, so that no table is new
  have htab : ∀ t, IsTable (halVmUnmap { m with pmm := s } p (v * 4096)) D home t ↔
      IsTable m D home t := fun t =>
    ⟨fun ht => (k2.table t ht).resolve_right fun hn => hn (by
      have := k1.isTable_held ht
      rwa [hpmm] at this), fun ht => k2.isTable ht⟩
  rw [hm]
  exact ⟨k1, hpmm, htab, fun a ha hn => k2.bytes a ha fun ht => hn ((htab a).1 ht), k2.others,
    k2.dirs, k3⟩

theorem Dirs.clean_page (h : Dirs m k V) (hp : p ∈ V) (hv : v + 1 < 2 ^ 20)
    (hd : entry m p v = 0 ∨ m.pmm.Held (pageOf (entry m p v)) ∧
      ¬ IsTable m (dirsOf k V) (procHome k) (pageOf (entry m p v))) :
    Dirs (vaCleanPage p m (v * 4096)) k V ∧
      (vaCleanPage p m (v * 4096)).pmm =
        (if entry m p v = 0 then m.pmm else pmmFrameFree m.pmm (pageOf (entry m p v))) ∧
      (∀ t, IsTable (vaCleanPage p m (v * 4096)) (dirsOf k V) (procHome k) t ↔
        IsTable m (dirsOf k V) (procHome k) t) ∧
      ∀ q ∈ dirsOf k V, ∀ u < 2 ^ 20, entry (vaCleanPage p m (v * 4096)) q u =
        if u = v ∧ procHome k q (v / 1024) = procHome k p (v / 1024) then 0 else entry m q u := by
  obtain ⟨h1, h2, h3, -, h5, h6, h7⟩ := h.tables.clean_page (mem_dirsOf hp) hv hd
  refine ⟨⟨h1, h.kernel, fun i hi => ?_, fun i g1 g2 => ?_⟩, h2, h3, h7⟩
  · rw [h5 k (.inl rfl) (h.ne_kernel hp).symm i (by omega)]
    exact h.lower i hi
  · rw [h6 k (.inl rfl) i g2 (h.upper i g1 g2)]
    exact h.upper i g1 g2

/-! ## The loops -/

/-- **The loop of `va_alloc_region`**: what every page that is given keeps holds for the pages
    up to the one that fails. -/
theorem vaAllocLoop_rule
    (hok : ∀ i < n, ∀ m, J i m → (vaAllocPage p fl m ((b + i) * 4096)).2 →
      J (i + 1) (vaAllocPage p fl m ((b + i) * 4096)).1) :
    ∀ d i m, i + d = n → J i m →
      (∃ m', vaAllocLoop p fl d ((b + i) * 4096) m = (m', none) ∧ J n m') ∨
        ∃ j < n, ∃ m1 m', vaAllocLoop p fl d ((b + i) * 4096) m = (m', some ((b + j) * 4096)) ∧
          J j m1 ∧ vaAllocPage p fl m1 ((b + j) * 4096) = (m', false) := by
  intro d
  induction d with
  | zero =>
    rintro i m rfl hJ
    exact .inl ⟨m, rfl, hJ⟩
  | succ d ih =>
    intro i m hi hJ
    have hstep := hok i (by omega) m hJ
    rcases e : vaAllocPage p fl m ((b + i) * 4096) with ⟨m', r⟩
    rw [e] at hstep
    cases r with
    | false =>
      refine .inr ⟨i, by omega, m, m', ?_, hJ, e⟩
      simp only [vaAllocLoop, e]
    | true =>
      have e2 : vaAllocLoop p fl (d + 1) ((b + i) * 4096) m =
          vaAllocLoop p fl d ((b + (i + 1)) * 4096) m' := by
        simp only [vaAllocLoop, e]
        rw [show (b + i) * 4096 + 4096 = (b + (i + 1)) * 4096 by omega]
      rw [e2]
      exact ih (i + 1) m' (by omega) (hstep rfl)

/-- **`va_alloc_region`** gives all pages, or fails at one of them and cleans up those
    before it. -/
theorem vaAllocRegion_rule (hbn : b + n < 2 ^ 20)
    (hok : ∀ i < n, ∀ m, J i m → (vaAllocPage p fl m ((b + i) * 4096)).2 →
      J (i + 1) (vaAllocPage p fl m ((b + i) * 4096)).1) (hJ : J 0 m) :
    (∃ m', vaAllocRegion m p (b * 4096) (n * 4096) fl = (m', true) ∧ J n m') ∨
      ∃ j < n, ∃ m1 m2, J j m1 ∧ vaAllocPage p fl m1 ((b + j) * 4096) = (m2, false) ∧
        vaAllocRegion m p (b * 4096) (n * 4096) fl = (vaClean m2 p (b * 4096) j, false) := by
  have e1 : alignDown (b * 4096) = b * 4096 := by rw [alignDown]; omega
  have e2 : alignUp ((b * 4096 + n * 4096) % 2 ^ 32) = (b + n) * 4096 := by
    rw [alignUp, alignDown]; omega
  have e3 : ∀ j, ((b + j) * 4096 - b * 4096) / 4096 = j := fun j => by omega
  unfold vaAllocRegion
  simp only [e1, e2, e3]
  rcases vaAllocLoop_rule hok n 0 m (by omega) hJ with ⟨m', e, h⟩ | ⟨j, hj, m1, m2, e, h1, h2⟩ <;>
    rw [Nat.add_zero b] at e <;> rw [e]
  · exact .inl ⟨m', rfl, h⟩
  · refine .inr ⟨j, hj, m1, m2, h1, h2, ?_⟩
    simp only [e3]

theorem vaClean_rule
    (hok : ∀ i < n, ∀ m, J i m → J (i + 1) (vaCleanPage p m ((b + i) * 4096))) (hJ : J 0 m) :
    J n (vaClean m p (b * 4096) n) := by
  have : ∀ i ≤ n, J i (vaClean m p (b * 4096) i) := by
    intro i
    induction i with
    | zero => exact fun _ => hJ
    | succ i ih =>
      intro hi
      have e : vaClean m p (b * 4096) (i + 1) =
          vaCleanPage p (vaClean m p (b * 4096) i) ((b + i) * 4096) := by
        rw [vaClean, List.range_succ, List.foldl_append, List.foldl_cons, List.foldl_nil, vaClean,
          Nat.add_mul]
      rw [e]
      exact hok i (by omega) _ (ih (by omega))
  exact this n le_rfl

/-! ## The break -/

/-- The new break of `sys_sbrk`. -/
def newBreak (brk : ℕ) (increment : ℤ) : ℕ := ((brk + increment) % 2 ^ 32).toNat

theorem alignUp_aligned (a : ℕ) : alignUp a % 4096 = 0 ∧ alignUp a < 2 ^ 32 := by
  rw [alignUp, alignDown]
  omega

theorem alignUp_newBreak_zero (brk : ℕ) : alignUp (newBreak brk 0) = alignUp brk := by
  have e1 : newBreak brk 0 = brk % 2 ^ 32 := by rw [newBreak]; omega
  have e2 : (brk % 2 ^ 32 + 4096 - 1) % 2 ^ 32 = (brk + 4096 - 1) % 2 ^ 32 := by omega
  rw [e1, alignUp, alignUp, e2]

theorem vmspaceExtendHeap_spec {vm : Vmspace} {old new : ℕ} (hlt : old < new)
    {r : Mm × Vmspace × Bool} (hr : vmspaceExtendHeap m vm old new = r) :
    r.2.1.arch = vm.arch ∧ (r.1 = m ∧ r.2.2 = false ∨
      vaAllocRegion m vm.arch old (new - old) userPageFlags = (r.1, r.2.2)) := by
  rw [vmspaceExtendHeap, if_neg (not_le.2 hlt)] at hr
  by_cases hany : (!vm.vmaList.any Vma.isHeap)
  · rw [if_pos hany] at hr
    subst hr
    exact ⟨rfl, .inl ⟨rfl, rfl⟩⟩
  rw [if_neg hany] at hr
  obtain ⟨a, ha⟩ : ∃ a, vaAllocRegion m vm.arch old (new - old) userPageFlags = a := ⟨_, rfl⟩
  rw [ha] at hr ⊢
  obtain ⟨m1, ok⟩ := a
  cases ok <;> subst hr <;> exact ⟨rfl, .inr rfl⟩

/-- **`sys_sbrk`** keeps the address space and backs the pages between the old and the new
    break, if there are any. -/
theorem sysSbrk_spec {proc : Proc} {increment : ℤ} {r : Mm × Proc × Option ℕ}
    (hr : sysSbrk m proc increment = r) :
    r.2.1.vmspace.arch = proc.vmspace.arch ∧
      (r.1 = m ∧ (r.2.2.isSome → alignUp (newBreak proc.brk increment) ≤ alignUp proc.brk) ∨
        alignUp proc.brk < alignUp (newBreak proc.brk increment) ∧
          vaAllocRegion m proc.vmspace.arch (alignUp proc.brk)
            (alignUp (newBreak proc.brk increment) - alignUp proc.brk) userPageFlags =
              (r.1, r.2.2.isSome)) := by
  rw [sysSbrk] at hr
  by_cases h0 : increment = 0
  · rw [if_pos h0] at hr
    subst hr
    exact ⟨rfl, .inl ⟨rfl, fun _ => h0 ▸ (alignUp_newBreak_zero proc.brk).le⟩⟩
  rw [if_neg h0] at hr
  simp only [show ((proc.brk + increment) % 2 ^ 32).toNat =
    newBreak proc.brk increment from rfl] at hr
  by_cases hlt : alignUp proc.brk < alignUp (newBreak proc.brk increment)
  · rw [if_pos hlt] at hr
    obtain ⟨a, ha⟩ : ∃ a, vmspaceExtendHeap m proc.vmspace (alignUp proc.brk)
      (alignUp (newBreak proc.brk increment)) = a := ⟨_, rfl⟩
    obtain ⟨h1, h2⟩ := vmspaceExtendHeap_spec hlt ha
    rw [ha] at hr
    obtain ⟨m1, vm, ok⟩ := a
    cases ok <;> subst hr <;> refine ⟨h1, ?_⟩ <;> rcases h2 with ⟨e, e'⟩ | e
    · exact .inl ⟨e, fun hf => by cases hf⟩
    · exact .inr ⟨hlt, e⟩
    · cases e'
    · exact .inr ⟨hlt, e⟩
  · rw [if_neg hlt] at hr
    subst hr
    exact ⟨rfl, .inl ⟨rfl, fun _ => not_lt.1 hlt⟩⟩

end

end Kabanos
