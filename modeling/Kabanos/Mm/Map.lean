/-
  Mapping and unmapping ranges: which entries change, and what the allocator and the
  other frames see of it.
-/
import Kabanos.Mm.Tables

namespace Kabanos

/-- Slot `i` belongs to directory `p` alone. -/
def Sole (D : Set ℕ) (home : ℕ → ℕ → ℕ) (p i : ℕ) : Prop :=
  home p i = p ∧ ∀ q ∈ D, home q i = p → q = p

/-- Directory `p` may get page tables: they come from free frames, and nothing else is
    allocated. -/
structure Grow (D : Set ℕ) (home : ℕ → ℕ → ℕ) (p : ℕ) (m m' : Mm) : Prop where
  same : SameMemory m.pmm m'.pmm
  ok : m.pmm.Ok → m'.pmm.Ok
  free : frameGetFreeCount m'.pmm ≤ frameGetFreeCount m.pmm
  dirs : ∀ q ∈ D, ∀ i < 1024, isPresent (word m q i) = true → word m' q i = word m q i
  others : ∀ q ∈ D, q ≠ p → ∀ i < 1024, word m' q i = word m q i
  keep : ∀ a, m.pmm.Held a → m'.pmm.Held a
  refs : ∀ a, m.pmm.Held a → m'.pmm.refs a = m.pmm.refs a
  new : ∀ a, m'.pmm.Held a → ¬ m.pmm.Held a → m'.pmm.refs a = 1 ∧ IsTable m' D home a
  table : ∀ a, IsTable m' D home a → IsTable m D home a ∨ ¬ m.pmm.Held a
  bytes : ∀ a, a % 4096 = 0 → ¬ IsTable m' D home a → SameFrame m m' a

section
variable {m m' m'' : Mm} {D : Set ℕ} {home : ℕ → ℕ → ℕ} {p q i v t fl : ℕ}

theorem Grow.refl (m : Mm) : Grow D home p m m where
  same := .refl _
  ok := id
  free := le_rfl
  dirs := fun _ _ _ _ _ => rfl
  others := fun _ _ _ _ _ => rfl
  keep := fun _ => id
  refs := fun _ _ => rfl
  new := fun _ h h' => absurd h h'
  table := fun _ => .inl
  bytes := fun a _ _ => .refl m a

theorem Grow.isTable (h : Grow D home p m m') (ht : IsTable m D home t) : IsTable m' D home t := by
  obtain ⟨h0, q, hq, a, rfl⟩ := ht
  refine ⟨h0, q, hq, a, ?_⟩
  cases a with
  | none => rfl
  | some i =>
    by_cases hc : i < 1024 ∧ home q i = q ∧ isPresent (word m q i)
    · have e := h.dirs q hq i hc.1 hc.2.2
      simp only [holds, e]
    · exact absurd (if_neg hc) h0

theorem Grow.trans (h : Grow D home p m m') (h' : Grow D home p m' m'') : Grow D home p m m'' where
  same := h.same.trans h'.same
  ok := fun ho => h'.ok (h.ok ho)
  free := h'.free.trans h.free
  dirs := fun q hq i hi hpr => by
    have e := h.dirs q hq i hi hpr
    rw [h'.dirs q hq i hi (by rwa [e]), e]
  others := fun q hq hne i hi => (h'.others q hq hne i hi).trans (h.others q hq hne i hi)
  keep := fun a ha => h'.keep a (h.keep a ha)
  refs := fun a ha => (h'.refs a (h.keep a ha)).trans (h.refs a ha)
  new := fun a ha hn => by
    by_cases hm : m'.pmm.Held a
    · obtain ⟨h1, h2⟩ := h.new a hm hn
      exact ⟨(h'.refs a hm).trans h1, h'.isTable h2⟩
    · exact h'.new a ha hm
  table := fun a ha => by
    rcases h'.table a ha with h1 | h1
    · exact h.table a h1
    · exact .inr fun h2 => h1 (h.keep a h2)
  bytes := fun a ha hn =>
    (h.bytes a ha fun h1 => hn (h'.isTable h1)).trans (h'.bytes a ha hn)

theorem Tables.table_write_grow (h : Tables m D home) (hp : p ∈ D) (hi : i < 1024)
    (hpr : isPresent (word m p i)) (hpmm : m'.pmm = m.pmm)
    (hmem : ∀ a, ¬ (pageOf (word m p i) ≤ a ∧ a < pageOf (word m p i) + 4096) →
      m'.mem a = m.mem a) : Grow D home p m m' := by
  obtain ⟨-, hdir, -⟩ := h.table_write hp hi hpr hpmm hmem
  refine ⟨by rw [hpmm]; exact .refl _, by rw [hpmm]; exact id, by rw [hpmm],
    fun q hq j hj _ => hdir q hq j hj, fun q hq _ j hj => hdir q hq j hj, ?_, ?_, ?_, ?_, ?_⟩
  · rw [hpmm]; exact fun _ => id
  · rw [hpmm]; exact fun _ _ => rfl
  · rw [hpmm]; exact fun _ h1 h2 => absurd h1 h2
  · exact fun a ha => .inl ((IsTable.congr hdir).1 ha)
  · intro a ha hn b h1 h2
    refine hmem b (not_in_frame (pageOf_aligned _) ha ?_ h1 h2)
    rintro rfl
    exact hn ((IsTable.congr hdir).2 (h.table_isTable hp hi hpr))

/-! ## Getting a page table -/

theorem allocatePageTable_cases (m : Mm) :
    allocatePageTable m = (m, 0) ∨
      ∃ pmm t, allocatePageTable m = (⟨pmm, memset m.mem t 0 4096⟩, t) ∧
      Taken m.pmm pmm t := by
  unfold allocatePageTable
  rcases m.pmm.alloc_spec with ⟨e, -⟩ | ⟨pmm, t, e, ht⟩ <;> rw [e]
  · exact .inl rfl
  · exact .inr ⟨pmm, t, if_neg ht.frame.ne_zero, ht⟩

theorem Tables.shared_set (h : Tables m D home) (ho : Sole D home p i) {w : ℕ}
    (hdir : ∀ q ∈ D, ∀ j < 1024, word m' q j = if q = p ∧ j = i then w else word m q j) :
    ∀ q ∈ D, ∀ j < 1024, word m' q j = word m' (home q j) j := by
  intro q hq j hj
  rw [hdir q hq j hj, hdir _ (h.home_mem q hq j hj) j hj]
  by_cases hji : j = i
  · subst hji
    by_cases hqp : q = p
    · rw [hqp, ho.1]
    · have : home q j ≠ p := fun e => hqp (ho.2 q hq e)
      rw [if_neg fun e => hqp e.1, if_neg fun e => this e.1]
      exact h.shared q hq j hj
  · rw [if_neg fun e => hji e.2, if_neg fun e => hji e.2]
    exact h.shared q hq j hj

section
variable (h : Tables m D home) (hp : p ∈ D) (hi : i < 1024)
include h hp hi

/-- **A free frame `t` becomes the page table of an empty slot.**  `m1` is the machine with
    the new table filled in. -/
theorem Tables.link (ho : Sole D home p i) (hpr : isPresent (word m p i) = false) (m1 : Mm)
    (ht : Taken m.pmm m1.pmm t) (hmem : ∀ a, ¬ (t ≤ a ∧ a < t + 4096) → m1.mem a = m.mem a) {w : ℕ}
    (hw : w < 2 ^ 32) (hwp : isPresent w) (hwt : pageOf w = t) :
    Tables (setWord m1 p i w) D home ∧ Grow D home p m (setWord m1 p i w) ∧
      word (setWord m1 p i w) p i = w ∧
      ∀ q ∈ D, ∀ v < 2 ^ 20, entry (setWord m1 p i w) q v =
        if q = p ∧ v / 1024 = i then cut (word m1 t (v % 1024)) else entry m q v := by
  obtain ⟨m', hm'⟩ : ∃ m', setWord m1 p i w = m' := ⟨_, rfl⟩
  rw [hm']
  have hta : t % 4096 = 0 := ht.frame.aligned h.framed
  have hpa := h.dir_aligned hp
  have hne : ∀ q, m.pmm.Held q → q ≠ t := fun q hq e => ht.fresh (e ▸ hq)
  have hframe : ∀ a, a % 4096 = 0 → a ≠ t → SameFrame m m1 a := fun a ha hat b h1 h2 =>
    hmem b (not_in_frame hta ha hat h1 h2)
  have hframe' : ∀ a, a % 4096 = 0 → a ≠ t → a ≠ p → SameFrame m m' a := fun a ha h1 h2 => by
    rw [← hm']
    exact (hframe a ha h1).trans (setWord_sameFrame hpa ha hi h2)
  -- the directories afterwards, and the new table
  have hdir : ∀ q ∈ D, ∀ j < 1024, word m' q j = if q = p ∧ j = i then w else word m q j := by
    intro q hq j hj
    have hqa := h.dir_aligned hq
    rw [← hm', word_setWord hpa hqa hi hj hw, (hframe q hqa (hne q (h.dirs q hq))).word hj]
  have hnew : ∀ j < 1024, word m' t j = word m1 t j := fun j hj => by
    rw [← hm', word_setWord hpa hta hi hj hw, if_neg fun e => hne p (h.dirs p hp) e.1.symm]
  have hpi : word m' p i = w := by rw [hdir p hp i hi, if_pos ⟨rfl, rfl⟩]
  have hother : ∀ q ∈ D, ∀ j < 1024, ¬ (q = p ∧ j = i) → word m' q j = word m q j :=
    fun q hq j hj hn => by rw [hdir q hq j hj, if_neg hn]
  have hholds : ∀ q ∈ D, ∀ a, holds m' home q a =
      if q = p ∧ a = some i then t else holds m home q a := by
    intro q hq a
    cases a with
    | none => simp [holds]
    | some j =>
      by_cases hc : q = p ∧ j = i
      · obtain ⟨rfl, rfl⟩ := hc
        rw [if_pos ⟨rfl, rfl⟩, holds_table hi ho.1 (by rw [hpi]; exact hwp), hpi, hwt]
      · rw [if_neg fun e => hc ⟨e.1, Option.some.inj e.2⟩]
        by_cases hj : j < 1024
        · simp only [holds, hother q hq j hj hc]
        · simp only [holds, hj, false_and, if_false]
  have hpmm : m'.pmm = m1.pmm := by rw [← hm']; rfl
  have hun : Unowned D (holds m home) t := fun q hq a e =>
    hne _ (h.held hq (e ▸ ht.frame.ne_zero)) e
  have hT : Tables m' D home := by
    refine ⟨by rw [hpmm]; exact ht.same.framed h.framed, fun q hq => ?_, fun q hq j hj hh hr => ?_,
      ?_, h.home_mem, h.home_home, h.shared_set ho hdir⟩
    · rw [hpmm]; exact (ht.held q).2 (.inl (h.dirs q hq))
    · rw [hpmm, ht.held]
      by_cases hc : q = p ∧ j = i
      · obtain ⟨rfl, rfl⟩ := hc
        rw [hpi, hwt]; exact .inr rfl
      · rw [hother q hq j hj hc] at hr ⊢
        exact .inl (h.tables q hq j hj hh hr)
    · refine h.excl.step (t := p) (s := some i) hun fun q hq a ha => ?_
      rw [hholds q hq a]
      split_ifs with hc
      · exact .inr ⟨hc.1, hc.2, rfl⟩
      · exact .inl ⟨q, hq, rfl, rfl⟩
  have htable : ∀ a, IsTable m' D home a → IsTable m D home a ∨ a = t := by
    rintro a ⟨h0, q, hq, s, rfl⟩
    rw [hholds q hq s] at h0 ⊢
    split_ifs at h0 ⊢ with hc
    · exact .inr rfl
    · exact .inl ⟨h0, q, hq, s, rfl⟩
  have htnew : IsTable m' D home t :=
    ⟨ht.frame.ne_zero, p, hp, some i, by rw [hholds p hp, if_pos ⟨rfl, rfl⟩]⟩
  refine ⟨hT, ⟨by rw [hpmm]; exact ht.same, by rw [hpmm]; exact ht.ok, ?_, fun q hq j hj hr => ?_,
    fun q hq hqp j hj => hother q hq j hj fun e => hqp e.1, fun a ha => ?_, fun a ha => ?_,
    fun a ha hn => ?_, fun a ha => ?_, fun a ha hn => ?_⟩, hpi, fun q hq v hv => ?_⟩
  · have h1 := ht.same.totalFrames
    have h2 := ht.used
    simp only [hpmm, frameGetFreeCount]
    omega
  · refine hother q hq j hj ?_
    rintro ⟨rfl, rfl⟩
    rw [hpr] at hr; cases hr
  · rw [hpmm]; exact (ht.held a).2 (.inl ha)
  · rw [hpmm]; exact ht.refs a ha.isFrame (hne a ha)
  · rw [hpmm] at ha ⊢
    obtain rfl := ((ht.held a).1 ha).resolve_left hn
    exact ⟨ht.one, htnew⟩
  · rcases htable a ha with h1 | rfl
    · exact .inl h1
    · exact .inr ht.fresh
  · refine hframe' a ha ?_ ?_
    · rintro rfl; exact hn htnew
    · rintro rfl; exact hn (hT.dir_isTable hp)
  · have hj : v / 1024 < 1024 := by omega
    have hk : v % 1024 < 1024 := Nat.mod_lt _ (by norm_num)
    by_cases hc : q = p ∧ v / 1024 = i
    · obtain ⟨rfl, e⟩ := hc
      rw [if_pos ⟨rfl, e⟩, entry, e, hpi, if_pos hwp, hwt, hnew _ hk]
    · rw [if_neg hc]
      unfold entry
      rw [hother q hq _ hj hc]
      split_ifs with hqr
      · have hheld := h.table_held hq hj hqr
        rw [(hframe' _ (pageOf_aligned _) (hne _ hheld)
          (Ne.symm (h.table_ne_dir hq hj hqr hp))).word hk]
      · rfl

/-- **`get_or_create_page_table`** fails and changes nothing, or there is a table in the
    slot now. -/
theorem getOrCreate_spec (ho : Sole D home p i ∨ isPresent (word m p i)) (fl : ℕ) :
    getOrCreatePageTable m p i fl = (m, 0) ∨ ∃ m' t, getOrCreatePageTable m p i fl = (m', t) ∧
      t ≠ 0 ∧ Tables m' D home ∧ Grow D home p m m' ∧ isPresent (word m' p i) ∧
        pageOf (word m' p i) = t ∧ ∀ q ∈ D, ∀ v < 2 ^ 20, entry m' q v = entry m q v := by
  unfold getOrCreatePageTable
  by_cases hpr : isPresent (word m p i)
  · rw [if_pos hpr]
    exact .inr ⟨m, _, rfl, (h.table_held hp hi hpr).isFrame.ne_zero, h, .refl m, hpr, rfl,
      fun _ _ _ _ => rfl⟩
  rw [if_neg hpr]
  rcases allocatePageTable_cases m with e | ⟨pmm, t, e, ht⟩ <;> rw [e]
  · exact .inl rfl
  right
  have hta := ht.frame.aligned h.framed
  obtain ⟨hw, hwt⟩ := pde_spec hta (ht.frame.lt h.framed) fl
  set m1 : Mm := ⟨pmm, memset m.mem t 0 4096⟩ with hm1
  have hz : ∀ j < 1024, word m1 t j = 0 := fun j hj => getU32_zero fun a h1 h2 =>
    if_pos (by omega)
  have hpf := Bool.eq_false_iff.2 hpr
  obtain ⟨h1, h2, h3, h4⟩ := h.link hp hi (ho.resolve_right hpr) hpf m1 ht
    (fun a ha => if_neg ha) hw (isPresent_pde t fl) hwt
  refine ⟨_, t, if_neg ht.frame.ne_zero, ht.frame.ne_zero, h1, h2,
    by rw [h3]; exact isPresent_pde t fl, by rw [h3]; exact hwt, fun q hq v hv => ?_⟩
  rw [h4 q hq v hv]
  split_ifs with hc
  · obtain ⟨rfl, e⟩ := hc
    rw [hz _ (Nat.mod_lt _ (by norm_num)), entry, e, hpf]
    rfl
  · rfl

theorem getOrCreate_word {j : ℕ} (hj : j < 1024) (hne : j ≠ i) (fl : ℕ) :
    word (getOrCreatePageTable m p i fl).1 p j = word m p j := by
  unfold getOrCreatePageTable
  by_cases hpr : isPresent (word m p i)
  · rw [if_pos hpr]
  rw [if_neg hpr]
  rcases allocatePageTable_cases m with e | ⟨pmm, t, e, ht⟩ <;> simp only [e]
  · rfl
  rw [if_neg ht.frame.ne_zero]
  have hta := ht.frame.aligned h.framed
  have hpa := (h.dirs p hp).isFrame.aligned h.framed
  have hx := (pde_spec hta (ht.frame.lt h.framed) fl).1
  show word (setWord ⟨pmm, memset m.mem t 0 4096⟩ p i _) p j = _
  rw [word_setWord hpa hpa hi hj hx, if_neg fun e => hne e.2]
  exact SameFrame.word (fun a h1 h2 => if_neg (not_in_frame hta hpa
    (fun e => ht.fresh (e ▸ h.dirs p hp)) h1 h2)) hj

end

/-! ## The entries of one table -/

theorem fill_spec (ht : t % 4096 = 0) (s pa fl : ℕ) (hpa : pa % 4096 = 0) : ∀ n, s + n ≤ 1024 →
      (fillPageTableEntries m t s n pa fl).pmm = m.pmm ∧
        (∀ a, ¬ (t ≤ a ∧ a < t + 4096) → (fillPageTableEntries m t s n pa fl).mem a = m.mem a) ∧
          ∀ j < 1024, word (fillPageTableEntries m t s n pa fl) t j =
            if s ≤ j ∧ j < s + n then makePte ((pa + (j - s) * 4096) % 2 ^ 32) fl
            else word m t j := by
  intro n
  induction n with
  | zero => exact fun _ => ⟨rfl, fun _ _ => rfl, fun j _ => (if_neg (by omega)).symm⟩
  | succ n ih =>
    intro hn
    obtain ⟨h1, h2, h3⟩ := ih (by omega)
    have e : fillPageTableEntries m t s (n + 1) pa fl =
        setWord (fillPageTableEntries m t s n pa fl) t (s + n)
          (makePte ((pa + n * 4096) % 2 ^ 32) fl) := by
      simp only [fillPageTableEntries, List.range_succ, List.foldl_append, List.foldl_cons,
        List.foldl_nil]
    have hw : makePte ((pa + n * 4096) % 2 ^ 32) fl < 2 ^ 32 := makePte_lt (by omega) (by omega)
    rw [e]
    refine ⟨h1, fun a ha => (setWord_mem (by omega) ha).trans (h2 a ha), fun j hj => ?_⟩
    rw [word_setWord ht ht (by omega) hj hw, h3 j hj]
    by_cases hjn : j = s + n
    · subst hjn
      rw [if_pos ⟨rfl, rfl⟩, if_pos ⟨by omega, by omega⟩, Nat.add_sub_cancel_left]
    · rw [if_neg fun e => hjn e.2]
      by_cases hjs : s ≤ j ∧ j < s + n
      · rw [if_pos hjs, if_pos ⟨hjs.1, by omega⟩]
      · rw [if_neg hjs, if_neg (by omega)]

theorem clear_spec (ht : t % 4096 = 0) (s : ℕ) : ∀ n, s + n ≤ 1024 →
      (clearPageTableEntries m t s n).pmm = m.pmm ∧
        (∀ a, ¬ (t ≤ a ∧ a < t + 4096) → (clearPageTableEntries m t s n).mem a = m.mem a) ∧
          ∀ j < 1024, cut (word (clearPageTableEntries m t s n) t j) =
            if s ≤ j ∧ j < s + n then 0 else cut (word m t j) := by
  intro n
  induction n with
  | zero => exact fun _ => ⟨rfl, fun _ _ => rfl, fun j _ => (if_neg (by omega)).symm⟩
  | succ n ih =>
    intro hn
    obtain ⟨h1, h2, h3⟩ := ih (by omega)
    set m1 := clearPageTableEntries m t s n with hm1
    have e : clearPageTableEntries m t s (n + 1) =
        if isPresent (word m1 t (s + n)) then setWord m1 t (s + n) 0 else m1 := by
      simp only [hm1, clearPageTableEntries, List.range_succ, List.foldl_append, List.foldl_cons,
        List.foldl_nil]
    have hj3 : ∀ j, (if s ≤ j ∧ j < s + (n + 1) then 0 else cut (word m t j)) =
        if j = s + n then 0 else if s ≤ j ∧ j < s + n then 0 else cut (word m t j) := fun j => by
      split_ifs <;> omega
    rw [e]
    by_cases hpr : isPresent (word m1 t (s + n))
    · rw [if_pos hpr]
      refine ⟨h1, fun a ha => (setWord_mem (by omega) ha).trans (h2 a ha), fun j hj => ?_⟩
      rw [word_setWord ht ht (by omega) hj (by norm_num), hj3 j]
      by_cases hjn : j = s + n
      · rw [if_pos ⟨rfl, hjn⟩, if_pos hjn]
        rfl
      · rw [if_neg fun e => hjn e.2, if_neg hjn]
        exact h3 j hj
    · rw [if_neg hpr]
      refine ⟨h1, h2, fun j hj => ?_⟩
      rw [hj3 j]
      by_cases hjn : j = s + n
      · rw [if_pos hjn, hjn]
        exact if_neg hpr
      · rw [if_neg hjn]
        exact h3 j hj

section
variable (h : Tables m D home) (hp : p ∈ D) (hi : i < 1024)
include h hp hi

/-- **`map_page_table_range`** fails and changes nothing, or maps the pages of the range. -/
theorem mapPageTableRange_spec (ho : Sole D home p i ∨ isPresent (word m p i)) {s n pa : ℕ}
    (hsn : s + n ≤ 1024) (hpa : pa % 4096 = 0) (fl : ℕ) :
    mapPageTableRange m p i s n pa fl = (m, false) ∨
      ∃ m', mapPageTableRange m p i s n pa fl = (m', true) ∧ Tables m' D home ∧ Grow D home p m m' ∧
        ∀ q ∈ D, ∀ v < 2 ^ 20, entry m' q v =
          if v / 1024 = i ∧ home q i = home p i ∧ s ≤ v % 1024 ∧ v % 1024 < s + n then
            makePte ((pa + (v % 1024 - s) * 4096) % 2 ^ 32) fl
          else entry m q v := by
  unfold mapPageTableRange
  rcases getOrCreate_spec h hp hi ho fl with e | ⟨m1, t, e, h0, h1, h2, hpr, ht, h3⟩ <;> rw [e]
  · exact .inl rfl
  subst ht
  obtain ⟨k1, k2, k3⟩ := fill_spec (m := m1) (pageOf_aligned _) s pa fl hpa n hsn
  obtain ⟨j1, -, j3⟩ := h1.table_write hp hi hpr k1 k2
  have j2 := h1.table_write_grow hp hi hpr k1 k2
  refine .inr ⟨_, if_neg h0, j1, h2.trans j2, fun q hq v hv => ?_⟩
  rw [j3 q hq v hv, ← h3 q hq v hv]
  by_cases hc : v / 1024 = i ∧ home q i = home p i
  · rw [if_pos hc, k3 _ (Nat.mod_lt _ (by norm_num))]
    by_cases hs : s ≤ v % 1024 ∧ v % 1024 < s + n
    · rw [if_pos hs, if_pos ⟨hc.1, hc.2, hs⟩]
      exact cut_of_isPresent (isPresent_makePte ..)
    · rw [if_neg hs, if_neg fun e => hs e.2.2]
      exact (h1.entry_eq hp hq hi hpr hc.1 hc.2).symm
  · rw [if_neg hc, if_neg fun e => hc ⟨e.1, e.2.1⟩]

theorem Tables.unlink (ho : Sole D home p i) (hpr : isPresent (word m p i))
    (hz : ∀ j < 1024, cut (word m (pageOf (word m p i)) j) = 0)
    (hm' : m' = setWord { m with pmm := pmmFrameFree m.pmm (pageOf (word m p i)) } p i 0) :
    Tables m' D home ∧ ∀ q ∈ D, ∀ v < 2 ^ 20, entry m' q v = entry m q v := by
  set t := pageOf (word m p i) with ht
  have hpa := h.dir_aligned hp
  have hd := Pmm.free_spec h.framed (h.table_held hp hi hpr)
  have hpmm : m'.pmm = pmmFrameFree m.pmm t := by rw [hm']; rfl
  have hdir : ∀ q ∈ D, ∀ j < 1024, word m' q j = if q = p ∧ j = i then 0 else word m q j := by
    intro q hq j hj
    rw [hm', word_setWord hpa (h.dir_aligned hq) hi hj (by norm_num)]
    rfl
  have hpi : word m' p i = 0 := by rw [hdir p hp i hi, if_pos ⟨rfl, rfl⟩]
  have hother : ∀ q ∈ D, ∀ j < 1024, ¬ (q = p ∧ j = i) → word m' q j = word m q j :=
    fun q hq j hj hn => by rw [hdir q hq j hj, if_neg hn]
  have hp0 : isPresent 0 = false := rfl
  have hheld : ∀ a, m.pmm.Held a → a ≠ t → m'.pmm.Held a := fun a ha hne => by
    rw [hpmm, hd.held]; exact ⟨ha, fun e => absurd e hne⟩
  refine ⟨⟨by rw [hpmm]; exact hd.same.framed h.framed, fun q hq => ?_, fun q hq j hj hh hr => ?_,
    ?_, h.home_mem, h.home_home, h.shared_set ho hdir⟩, fun q hq v hv => ?_⟩
  · exact hheld q (h.dirs q hq) (h.table_ne_dir hp hi hpr hq)
  · have hc : ¬ (q = p ∧ j = i) := by
      rintro ⟨rfl, rfl⟩
      rw [hpi, hp0] at hr; cases hr
    rw [hother q hq j hj hc] at hr ⊢
    refine hheld _ (h.tables q hq j hj hh hr) fun e => hc ?_
    obtain ⟨h1, h2⟩ := h.table_inj hq hp hj hi hr hpr e
    rw [hh, ho.1] at h2
    exact ⟨h2, h1⟩
  · refine h.excl.mono fun q hq a ha => ⟨q, hq, rfl, ?_⟩
    cases a with
    | none => rfl
    | some j =>
      by_cases hj : j < 1024
      · have hc : ¬ (q = p ∧ j = i) := by
          rintro ⟨rfl, rfl⟩
          exact ha (if_neg fun e => by rw [hpi, hp0] at e; cases e.2.2)
        simp only [holds, hother q hq j hj hc]
      · exact absurd (if_neg fun e => hj e.1) ha
  · have hj : v / 1024 < 1024 := by omega
    have hk : v % 1024 < 1024 := Nat.mod_lt _ (by norm_num)
    by_cases hc : q = p ∧ v / 1024 = i
    · obtain ⟨rfl, e⟩ := hc
      rw [h.entry_eq hp hp hi hpr e rfl, hz _ hk, entry, e, hpi, hp0]
      rfl
    · unfold entry
      rw [hother q hq _ hj hc]
      split_ifs with hqr
      · have hf : SameFrame m m' (pageOf (word m q (v / 1024))) := by
          rw [hm']
          exact setWord_sameFrame (m := { m with pmm := pmmFrameFree m.pmm t }) hpa
            (pageOf_aligned _) hi (Ne.symm (h.table_ne_dir hq hj hqr hp))
        rw [hf.word hk]
      · rfl

theorem Tables.clear (hpr : isPresent (word m p i)) {s n : ℕ} (hsn : s + n ≤ 1024)
    (hm' : m' = clearPageTableEntries m (pageOf (word m p i)) s n) :
    Tables m' D home ∧ Grow D home p m m' ∧ word m' p i = word m p i ∧
      (∀ j < 1024, cut (word m' (pageOf (word m p i)) j) =
        if s ≤ j ∧ j < s + n then 0 else cut (word m (pageOf (word m p i)) j)) ∧
      ∀ q ∈ D, ∀ v < 2 ^ 20, entry m' q v =
        if v / 1024 = i ∧ home q i = home p i ∧ s ≤ v % 1024 ∧ v % 1024 < s + n then 0
        else entry m q v := by
  obtain ⟨k1, k2, k3⟩ := clear_spec (m := m) (pageOf_aligned (word m p i)) s n hsn
  rw [← hm'] at k1 k2 k3
  obtain ⟨j1, j2, j3⟩ := h.table_write hp hi hpr k1 k2
  refine ⟨j1, h.table_write_grow hp hi hpr k1 k2, j2 p hp i hi, k3, fun q hq v hv => ?_⟩
  rw [j3 q hq v hv]
  by_cases hc : v / 1024 = i ∧ home q i = home p i
  · rw [if_pos hc, k3 _ (Nat.mod_lt _ (by norm_num))]
    by_cases hs : s ≤ v % 1024 ∧ v % 1024 < s + n
    · rw [if_pos hs, if_pos ⟨hc.1, hc.2, hs⟩]
    · rw [if_neg hs, if_neg fun e => hs e.2.2]
      exact (h.entry_eq hp hq hi hpr hc.1 hc.2).symm
  · rw [if_neg hc, if_neg fun e => hc ⟨e.1, e.2.1⟩]

/-- **`unmap_page_table_range`** unmaps the pages of the range; a table that is covered
    completely is given back. -/
theorem unmapPageTableRange_spec {s n : ℕ} (hsn : s + n ≤ 1024) (ho : n = 1024 → Sole D home p i) :
    Tables (unmapPageTableRange m p i s n) D home ∧
      (n ≠ 1024 → Grow D home p m (unmapPageTableRange m p i s n)) ∧
      ∀ q ∈ D, ∀ v < 2 ^ 20, entry (unmapPageTableRange m p i s n) q v =
        if v / 1024 = i ∧ home q i = home p i ∧ s ≤ v % 1024 ∧ v % 1024 < s + n then 0
        else entry m q v := by
  by_cases hpr : isPresent (word m p i)
  · obtain ⟨h1, h2, h3, h4, h5⟩ := h.clear hp hi hpr hsn rfl
    by_cases hw : s = 0 ∧ n = 1024
    · set m1 := clearPageTableEntries m (pageOf (word m p i)) s n with hm1
      have e : unmapPageTableRange m p i s n =
          setWord { m1 with pmm := pmmFrameFree m1.pmm (pageOf (word m1 p i)) } p i 0 := by
        simp only [unmapPageTableRange, hpr, hw, Bool.not_true, Bool.false_eq_true, if_false, hm1,
          and_self, if_true]
        rw [← hw.1, ← hw.2, h3]
      obtain ⟨k1, k2⟩ := h1.unlink hp hi (ho hw.2) (by rw [h3]; exact hpr)
        (fun j hj => by rw [h3, h4 j hj, if_pos (by omega)]) e
      exact ⟨k1, fun hn => absurd hw.2 hn, fun q hq v hv => by rw [k2 q hq v hv, h5 q hq v hv]⟩
    · have e : unmapPageTableRange m p i s n =
          clearPageTableEntries m (pageOf (word m p i)) s n := by
        simp only [unmapPageTableRange, hpr, hw, Bool.not_true, Bool.false_eq_true, if_false]
      rw [e]
      exact ⟨h1, fun _ => h2, h5⟩
  · have e : unmapPageTableRange m p i s n = m := by
      simp only [unmapPageTableRange, hpr, Bool.not_false, if_true]
    rw [e]
    refine ⟨h, fun _ => .refl m, fun q hq v hv => ?_⟩
    split_ifs with hc
    · have hw : word m q i = word m p i := by
        rw [h.shared q hq i hi, h.shared p hp i hi, hc.2.1]
      rw [entry, hc.1, hw, if_neg hpr]
    · rfl

end

/-! ## Ranges -/

theorem mapLoop_page {n b c pa : ℕ} (hn : n ≠ 0) (hc : min (1024 - b % 1024) n = c) :
    mapLoop m p (b * 4096) pa n fl =
      match mapPageTableRange m p (b / 1024) (b % 1024) c pa fl with
      | (m, false) => (m, false)
      | (m, true) => mapLoop m p ((b + c) * 4096) ((pa + c * 4096) % 2 ^ 32) (n - c) fl := by
  have e1 : getPdIndex (b * 4096) = b / 1024 := by simp only [getPdIndex]; omega
  have e2 : getPtIndex (b * 4096) = b % 1024 := by simp only [getPtIndex]; omega
  have e := mapLoop.eq_def m p (b * 4096) pa n fl
  rw [dif_neg hn, e1, e2] at e
  simp only [hc, ← Nat.add_mul] at e
  exact e

theorem unmapLoop_page {n b c : ℕ} (hn : n ≠ 0) (hc : min (1024 - b % 1024) n = c) :
    unmapLoop m p (b * 4096) n =
      unmapLoop (unmapPageTableRange m p (b / 1024) (b % 1024) c) p ((b + c) * 4096) (n - c) := by
  have e1 : getPdIndex (b * 4096) = b / 1024 := by simp only [getPdIndex]; omega
  have e2 : getPtIndex (b * 4096) = b % 1024 := by simp only [getPtIndex]; omega
  rw [unmapLoop, dif_neg hn, e1, e2]
  simp only [hc, Nat.add_mul]

/-- **`hal_vm_map_range` maps its pages** and no others. -/
theorem mapLoop_spec (hp : p ∈ D) (fl : ℕ) : ∀ n b pa m, Tables m D home → pa % 4096 = 0 →
    b + n ≤ 2 ^ 20 →
    (∀ v, b ≤ v → v < b + n → Sole D home p (v / 1024) ∨ isPresent (word m p (v / 1024))) →
    ∃ m' r, mapLoop m p (b * 4096) pa n fl = (m', r) ∧ Tables m' D home ∧
      (∀ q ∈ D, ∀ v < 2 ^ 20, ¬ (b ≤ v ∧ v < b + n) → entry m' q v = entry m q v) ∧
      (r → ∀ q ∈ D, ∀ v, b ≤ v → v < b + n → entry m' q v =
        if home q (v / 1024) = home p (v / 1024) then makePte ((pa + (v - b) * 4096) % 2 ^ 32) fl
        else entry m q v) := by
  intro n
  induction n using Nat.strong_induction_on with
  | _ n ih =>
    intro b pa m h hpa hb ho
    by_cases hn : n = 0
    · rw [mapLoop, dif_pos hn]
      exact ⟨m, true, rfl, h, fun _ _ _ _ _ => rfl, fun _ q _ v h1 h2 => by omega⟩
    obtain ⟨c, hc⟩ : ∃ c, min (1024 - b % 1024) n = c := ⟨_, rfl⟩
    rw [mapLoop_page hn hc]
    have hcl : b % 1024 + c ≤ 1024 := by omega
    -- the pages of the chunk
    have hin : ∀ v, v / 1024 = b / 1024 ∧ b % 1024 ≤ v % 1024 ∧ v % 1024 < b % 1024 + c ↔
        b ≤ v ∧ v < b + c := by omega
    rcases mapPageTableRange_spec h hp (i := b / 1024) (by omega)
      (ho b le_rfl (by omega)) hcl hpa fl
      with e | ⟨m1, e, h1, h2, h3⟩ <;> rw [e]
    · exact ⟨m, false, rfl, h, fun _ _ _ _ _ => rfl, fun hf => by cases hf⟩
    have hchunk : ∀ q ∈ D, ∀ v < 2 ^ 20, entry m1 q v =
        if (b ≤ v ∧ v < b + c) ∧ home q (v / 1024) = home p (v / 1024) then
          makePte ((pa + (v - b) * 4096) % 2 ^ 32) fl else entry m q v := by
      intro q hq v hv
      rw [h3 q hq v hv]
      by_cases hv2 : b ≤ v ∧ v < b + c
      · obtain ⟨g1, g2, g3⟩ := (hin v).2 hv2
        have : v % 1024 - b % 1024 = v - b := by omega
        rw [g1, this]
        by_cases hh : home q (b / 1024) = home p (b / 1024)
        · rw [if_pos ⟨rfl, hh, g2, g3⟩, if_pos ⟨hv2, hh⟩]
        · rw [if_neg fun e => hh e.2.1, if_neg fun e => hh e.2]
      · rw [if_neg fun e => hv2 ((hin v).1 ⟨e.1, e.2.2⟩), if_neg fun e => hv2 e.1]
    obtain ⟨m', r, e', k1, k3, k4⟩ := ih (n - c) (by omega) (b + c) ((pa + c * 4096) % 2 ^ 32) m1
      h1 (by omega) (by omega) fun v hv1 hv2 => by
        refine (ho v (by omega) (by omega)).imp_right fun hpr => ?_
        rw [h2.dirs p hp _ (by omega) hpr]
        exact hpr
    refine ⟨m', r, e', k1, fun q hq v hv hout => ?_, fun hr q hq v hv1 hv2 => ?_⟩
    · rw [k3 q hq v hv (by omega), hchunk q hq v hv, if_neg (by omega)]
    · by_cases hv3 : v < b + c
      · rw [k3 q hq v (by omega) (by omega), hchunk q hq v (by omega)]
        by_cases hh : home q (v / 1024) = home p (v / 1024)
        · rw [if_pos ⟨⟨hv1, hv3⟩, hh⟩, if_pos hh]
        · rw [if_neg fun e => hh e.2, if_neg hh]
      · have hout : ¬ ((b ≤ v ∧ v < b + c) ∧ home q (v / 1024) = home p (v / 1024)) :=
          fun e => hv3 e.1.2
        have e4 : pa + c * 4096 + (v - (b + c)) * 4096 = pa + (v - b) * 4096 := by omega
        rw [k4 hr q hq v (by omega) (by omega), hchunk q hq v (by omega), if_neg hout,
          Nat.mod_add_mod, e4]

/-- **`hal_vm_unmap_range` unmaps its pages** and no others. -/
theorem unmapLoop_spec (hp : p ∈ D) : ∀ n b m, Tables m D home → b + n ≤ 2 ^ 20 →
    (∀ v, b ≤ v → v < b + n → Sole D home p (v / 1024)) →
    Tables (unmapLoop m p (b * 4096) n) D home ∧
      ∀ q ∈ D, ∀ v < 2 ^ 20, entry (unmapLoop m p (b * 4096) n) q v =
        if (b ≤ v ∧ v < b + n) ∧ home q (v / 1024) = home p (v / 1024) then 0
        else entry m q v := by
  intro n
  induction n using Nat.strong_induction_on with
  | _ n ih =>
    intro b m h hb ho
    by_cases hn : n = 0
    · rw [unmapLoop, dif_pos hn]
      exact ⟨h, fun q _ v _ => (if_neg (by omega)).symm⟩
    obtain ⟨c, hc⟩ : ∃ c, min (1024 - b % 1024) n = c := ⟨_, rfl⟩
    rw [unmapLoop_page hn hc]
    have hin : ∀ v, v / 1024 = b / 1024 ∧ b % 1024 ≤ v % 1024 ∧ v % 1024 < b % 1024 + c ↔
        b ≤ v ∧ v < b + c := by omega
    obtain ⟨h1, -, h3⟩ := unmapPageTableRange_spec h hp (i := b / 1024) (s := b % 1024) (n := c)
      (by omega) (by omega) fun _ => ho b le_rfl (by omega)
    obtain ⟨k1, k2⟩ := ih (n - c) (by omega) (b + c) _ h1 (by omega) fun v hv1 hv2 =>
      ho v (by omega) (by omega)
    refine ⟨k1, fun q hq v hv => ?_⟩
    rw [k2 q hq v hv, h3 q hq v hv]
    by_cases hh : home q (v / 1024) = home p (v / 1024)
    · by_cases hv1 : b ≤ v ∧ v < b + c
      · obtain ⟨g1, g2, g3⟩ := (hin v).2 hv1
        rw [if_neg (by omega), if_pos ⟨g1, by rw [← g1]; exact hh, g2, g3⟩, if_pos ⟨by omega, hh⟩]
      · by_cases hv2 : b + c ≤ v ∧ v < b + c + (n - c)
        · rw [if_pos ⟨hv2, hh⟩, if_pos ⟨by omega, hh⟩]
        · rw [if_neg fun e => hv2 e.1, if_neg fun e => hv1 ((hin v).1 ⟨e.1, e.2.2⟩),
            if_neg (by omega)]
    · rw [if_neg fun e => hh e.2, if_neg fun e => hh (by rw [e.1]; exact e.2.1),
        if_neg fun e => hh e.2]

/-! ## New directories -/

/-- **A new directory**: its own slots are empty, the others point where they do in the
    directory they belong to. -/
theorem Tables.add_dir (h : Tables m D home) (ht : Taken m.pmm m'.pmm t)
    (hmem : ∀ a, ¬ (t ≤ a ∧ a < t + 4096) → m'.mem a = m.mem a)
    (hown : ∀ i < 1024, home t i = t → isPresent (word m' t i) = false)
    (hshare : ∀ i < 1024, home t i ≠ t →
      home t i ∈ D ∧ home (home t i) i = home t i ∧ word m' t i = word m (home t i) i) :
    Tables m' (insert t D) home ∧ (∀ q ∈ D, ∀ v < 2 ^ 20, entry m' q v = entry m q v) ∧
      ∀ v < 2 ^ 20, entry m' t v =
        if home t (v / 1024) = t then 0 else entry m (home t (v / 1024)) v := by
  have hta := ht.frame.aligned h.framed
  have hne : ∀ q, m.pmm.Held q → q ≠ t := fun q hq e => ht.fresh (e ▸ hq)
  have hframe : ∀ a, a % 4096 = 0 → a ≠ t → SameFrame m m' a := fun a ha hat b h1 h2 =>
    hmem b (not_in_frame hta ha hat h1 h2)
  have htab : ∀ a, IsTable m D home a → SameFrame m m' a := fun a ha =>
    hframe a ((h.isTable_held ha).isFrame.aligned h.framed) (hne a (h.isTable_held ha))
  have hdir : ∀ q ∈ D, ∀ j < 1024, word m' q j = word m q j := fun q hq j hj =>
    (htab q (h.dir_isTable hq)).word hj
  have hold : ∀ a, m.pmm.Held a → m'.pmm.Held a := fun a ha => (ht.held a).2 (.inl ha)
  have hself : ∀ i, i < 1024 → home t i ≠ t → home t i ∈ insert t D := fun i hi hn =>
    .inr (hshare i hi hn).1
  have hentry : ∀ q ∈ D, ∀ v < 2 ^ 20, entry m' q v = entry m q v := fun q hq v hv =>
    h.entry_congr htab hq hv
  refine ⟨⟨ht.same.framed h.framed, ?_, ?_, ?_, ?_, ?_, ?_⟩, hentry, fun v hv => ?_⟩
  · rintro q (rfl | hq)
    · exact (ht.held q).2 (.inr rfl)
    · exact hold q (h.dirs q hq)
  · rintro q (rfl | hq) i hi hh hr
    · rw [hown i hi hh] at hr; cases hr
    · rw [hdir q hq i hi] at hr ⊢
      exact hold _ (h.tables q hq i hi hh hr)
  · refine h.excl.step (t := t) (s := none) (v := t) (fun q hq a e => ?_) fun q hq a ha => ?_
    · exact hne _ (h.held hq (e ▸ ht.frame.ne_zero)) e
    rcases hq with rfl | hq
    · cases a with
      | none => exact .inr ⟨rfl, rfl, rfl⟩
      | some i =>
        refine absurd (if_neg ?_) ha
        rintro ⟨hi, hh, hr⟩
        rw [hown i hi hh] at hr; cases hr
    · exact .inl ⟨q, hq, rfl, (holds_congr (hdir q hq) a).symm⟩
  · rintro q (rfl | hq) i hi
    · by_cases hh : home q i = q
      · exact .inl hh
      · exact hself i hi hh
    · exact .inr (h.home_mem q hq i hi)
  · rintro q (rfl | hq) i hi
    · by_cases hh : home q i = q
      · rw [hh, hh]
      · exact (hshare i hi hh).2.1
    · exact h.home_home q hq i hi
  · rintro q (rfl | hq) i hi
    · by_cases hh : home q i = q
      · rw [hh]
      · rw [(hshare i hi hh).2.2, hdir _ (hshare i hi hh).1 i hi]
    · rw [hdir q hq i hi, hdir _ (h.home_mem q hq i hi) i hi]
      exact h.shared q hq i hi
  · have hj : v / 1024 < 1024 := by omega
    by_cases hh : home t (v / 1024) = t
    · rw [if_pos hh, entry, hown _ hj hh]
      rfl
    · rw [if_neg hh, ← hentry _ (hshare _ hj hh).1 v hv]
      simp only [entry]
      rw [(hshare _ hj hh).2.2, hdir _ (hshare _ hj hh).1 _ hj]

end

end Kabanos
