/-
  The page tables of a set of address spaces.

  A page directory owns some of the tables it points to; the others belong to another
  directory, the kernel's, and are shared.  `home p i` is the directory that owns what
  slot `i` of directory `p` points to.  The directories and the tables they own are
  distinct frames that are in use, so that a write to one of them is seen through its
  own slot only.
-/
import Kabanos.Lib.Ownership
import Kabanos.Mm.Held
import Kabanos.Mm.Words

namespace Kabanos

/-- The frames directory `p` owns: its own one, and its page tables. -/
def holds (m : Mm) (home : ℕ → ℕ → ℕ) (p : ℕ) : Option ℕ → ℕ
  | none => p
  | some i => if i < 1024 ∧ home p i = p ∧ isPresent (word m p i) then pageOf (word m p i) else 0

/-- Frame `t` is a page directory or a page table. -/
def IsTable (m : Mm) (D : Set ℕ) (home : ℕ → ℕ → ℕ) (t : ℕ) : Prop :=
  t ≠ 0 ∧ ∃ p ∈ D, ∃ a, holds m home p a = t

/-- The directories and their tables. -/
structure Tables (m : Mm) (D : Set ℕ) (home : ℕ → ℕ → ℕ) : Prop where
  framed : m.pmm.Framed
  dirs : ∀ p ∈ D, m.pmm.Held p
  tables : ∀ p ∈ D, ∀ i < 1024, home p i = p → isPresent (word m p i) = true →
    m.pmm.Held (pageOf (word m p i))
  excl : Exclusive D id (holds m home)
  home_mem : ∀ p ∈ D, ∀ i < 1024, home p i ∈ D
  home_home : ∀ p ∈ D, ∀ i < 1024, home (home p i) i = home p i
  shared : ∀ p ∈ D, ∀ i < 1024, word m p i = word m (home p i) i

/-- An entry that is not present counts as none. -/
def cut (w : ℕ) : ℕ := if isPresent w then w else 0

/-- The entry of page `v`, `0` if the page is not mapped. -/
def entry (m : Mm) (p v : ℕ) : ℕ :=
  if isPresent (word m p (v / 1024)) then cut (word m (pageOf (word m p (v / 1024))) (v % 1024))
  else 0

section
variable {m m' : Mm} {D : Set ℕ} {home : ℕ → ℕ → ℕ} {p q i v t : ℕ}

theorem cut_of_isPresent {w : ℕ} (h : isPresent w) : cut w = w := if_pos h

theorem cut_lt {w : ℕ} (h : w < 2 ^ 32) : cut w < 2 ^ 32 := by
  unfold cut; split_ifs <;> omega

theorem isPresent_cut {w : ℕ} (h : cut w ≠ 0) : isPresent (cut w) := by
  unfold cut at h ⊢
  split_ifs at h ⊢ with h'
  · exact h'
  · exact absurd rfl h

theorem isPresent_entry (h : entry m p v ≠ 0) : isPresent (entry m p v) := by
  unfold entry at h ⊢
  split_ifs at h ⊢
  · exact isPresent_cut h
  · exact absurd rfl h

theorem entry_lt (m : Mm) (p v : ℕ) : entry m p v < 2 ^ 32 := by
  unfold entry
  split_ifs
  · exact cut_lt (word_lt ..)
  · norm_num

/-- **A translation reads the entry of the page.** -/
theorem virtToPhys_eq (m : Mm) (p va : ℕ) : halVmVirtToPhys m p va =
      if entry m p (va / 4096) = 0 then 0 else pageOf (entry m p (va / 4096)) + va % 4096 := by
  have e1 : getPdIndex va = va / 4096 / 1024 := by
    simp only [getPdIndex]; omega
  have e2 : getPtIndex va = va / 4096 % 1024 := rfl
  simp only [halVmVirtToPhys, entry, cut, e1, e2]
  by_cases h1 : isPresent (word m p (va / 4096 / 1024))
  · by_cases h2 : isPresent
        (word m (pageOf (word m p (va / 4096 / 1024))) (va / 4096 % 1024))
    · simp [h1, h2, ne_zero_of_isPresent h2]
    · simp [h1, h2]
  · simp [h1]

theorem holds_table (hi : i < 1024) (hh : home p i = p) (hp : isPresent (word m p i)) :
    holds m home p (some i) = pageOf (word m p i) :=
  if_pos ⟨hi, hh, hp⟩

section
variable (h : Tables m D home)
include h

theorem Tables.held (hp : p ∈ D) {a : Option ℕ} (ha : holds m home p a ≠ 0) :
    m.pmm.Held (holds m home p a) := by
  cases a with
  | none => exact h.dirs p hp
  | some i =>
    by_cases hc : i < 1024 ∧ home p i = p ∧ isPresent (word m p i)
    · rw [holds_table hc.1 hc.2.1 hc.2.2]
      exact h.tables p hp i hc.1 hc.2.1 hc.2.2
    · exact absurd (if_neg hc) ha

theorem Tables.isTable_held (ht : IsTable m D home t) : m.pmm.Held t := by
  obtain ⟨h0, p, hp, a, rfl⟩ := ht
  exact h.held hp h0

theorem Tables.dir_isTable (hp : p ∈ D) : IsTable m D home p :=
  ⟨(h.dirs p hp).isFrame.ne_zero, p, hp, none, rfl⟩

theorem Tables.dir_aligned (hp : p ∈ D) : p % 4096 = 0 :=
  (h.dirs p hp).isFrame.aligned h.framed

section
variable (hp : p ∈ D) (hi : i < 1024) (hpr : isPresent (word m p i))
include hp hi hpr

theorem Tables.home_table : holds m home (home p i) (some i) = pageOf (word m p i) := by
  have e := h.shared p hp i hi
  rw [e] at hpr ⊢
  exact holds_table hi (h.home_home p hp i hi) hpr

theorem Tables.table_held : m.pmm.Held (pageOf (word m p i)) := by
  have e := h.shared p hp i hi
  rw [e] at hpr ⊢
  exact h.tables _ (h.home_mem p hp i hi) i hi (h.home_home p hp i hi) hpr

theorem Tables.table_isTable : IsTable m D home (pageOf (word m p i)) :=
  ⟨(h.table_held hp hi hpr).isFrame.ne_zero, _, h.home_mem p hp i hi, some i,
    h.home_table hp hi hpr⟩

theorem Tables.table_ne_dir (hq : q ∈ D) : q ≠ pageOf (word m p i) := fun e => by
  have h0 := (h.dirs q hq).isFrame.ne_zero
  have := h.excl q hq (home p i) (h.home_mem p hp i hi) none (some i) h0
    (e.trans (h.home_table hp hi hpr).symm)
  exact absurd this.2 (by simp)

end

theorem Tables.table_inj (hp : p ∈ D) (hq : q ∈ D) (hi : i < 1024) {j : ℕ} (hj : j < 1024)
    (hpr : isPresent (word m p i)) (hqr : isPresent (word m q j))
    (e : pageOf (word m p i) = pageOf (word m q j)) : i = j ∧ home p i = home q j := by
  have h0 := (h.table_held hp hi hpr).isFrame.ne_zero
  rw [← h.home_table hp hi hpr] at h0 e
  rw [← h.home_table hq hj hqr] at e
  obtain ⟨h1, h2⟩ := h.excl _ (h.home_mem p hp i hi) _ (h.home_mem q hq j hj) _ _ h0 e
  exact ⟨Option.some.inj h2, h1⟩

end

theorem holds_congr (h : ∀ i < 1024, word m' p i = word m p i) (a : Option ℕ) :
    holds m' home p a = holds m home p a := by
  cases a with
  | none => rfl
  | some i =>
    by_cases hi : i < 1024
    · simp only [holds, h i hi]
    · simp only [holds, hi, false_and, if_false]

theorem Tables.congr (h : Tables m D home) (hs : SameMemory m.pmm m'.pmm)
    (hheld : ∀ t, IsTable m D home t → m'.pmm.Held t)
    (hdir : ∀ p ∈ D, ∀ i < 1024, word m' p i = word m p i) : Tables m' D home where
  framed := hs.framed h.framed
  dirs := fun p hp => hheld p (h.dir_isTable hp)
  tables := fun p hp i hi hh hpr => by
    rw [hdir p hp i hi] at hpr ⊢
    exact hheld _ (h.table_isTable hp hi hpr)
  excl := h.excl.mono fun p hp a ha => by
    refine ⟨p, hp, rfl, (holds_congr (hdir p hp) a).symm⟩
  home_mem := h.home_mem
  home_home := h.home_home
  shared := fun p hp i hi => by
    rw [hdir p hp i hi, hdir _ (h.home_mem p hp i hi) i hi]
    exact h.shared p hp i hi

theorem IsTable.congr (hdir : ∀ p ∈ D, ∀ i < 1024, word m' p i = word m p i) :
    IsTable m' D home t ↔ IsTable m D home t := by
  unfold IsTable
  refine and_congr_right fun _ => exists_congr fun p => and_congr_right fun hp =>
    exists_congr fun a => ?_
  rw [holds_congr (hdir p hp)]

theorem Tables.entry_congr (h : Tables m D home)
    (hmem : ∀ t, IsTable m D home t → SameFrame m m' t) (hp : p ∈ D) (hv : v < 2 ^ 20) :
    entry m' p v = entry m p v := by
  have hi : v / 1024 < 1024 := by omega
  have e : word m' p (v / 1024) = word m p (v / 1024) := (hmem p (h.dir_isTable hp)).word hi
  unfold entry
  rw [e]
  split_ifs with hpr
  · rw [(hmem _ (h.table_isTable hp hi hpr)).word (Nat.mod_lt _ (by norm_num))]
  · rfl

theorem Tables.entry_eq (h : Tables m D home) (hp : p ∈ D) (hq : q ∈ D) (hi : i < 1024)
    (hpr : isPresent (word m p i)) (hv : v / 1024 = i) (hh : home q i = home p i) :
    entry m q v = cut (word m (pageOf (word m p i)) (v % 1024)) := by
  have hw : word m q i = word m p i := by
    rw [h.shared q hq i hi, h.shared p hp i hi, hh]
  rw [entry, hv, hw, if_pos hpr]

/-- **A write to one page table is seen through its own slot only.** -/
theorem Tables.table_write (h : Tables m D home) (hp : p ∈ D) (hi : i < 1024)
    (hpr : isPresent (word m p i)) (hpmm : m'.pmm = m.pmm)
    (hmem : ∀ a, ¬ (pageOf (word m p i) ≤ a ∧ a < pageOf (word m p i) + 4096) →
      m'.mem a = m.mem a) :
    Tables m' D home ∧ (∀ q ∈ D, ∀ j < 1024, word m' q j = word m q j) ∧
      ∀ q ∈ D, ∀ v < 2 ^ 20, entry m' q v =
        if v / 1024 = i ∧ home q i = home p i then cut (word m' (pageOf (word m p i)) (v % 1024))
        else entry m q v := by
  have hframe : ∀ t, t % 4096 = 0 → t ≠ pageOf (word m p i) → SameFrame m m' t :=
    fun t ht hne a h1 h2 => hmem a (not_in_frame (pageOf_aligned _) ht hne h1 h2)
  have hdir : ∀ q ∈ D, ∀ j < 1024, word m' q j = word m q j := fun q hq j hj =>
    (hframe q (h.dir_aligned hq) (h.table_ne_dir hp hi hpr hq)).word hj
  refine ⟨h.congr (by rw [hpmm]; exact .refl _) (fun t ht => ?_) hdir, hdir, fun q hq v hv => ?_⟩
  · rw [hpmm]; exact h.isTable_held ht
  have hj : v / 1024 < 1024 := by omega
  unfold entry
  rw [hdir q hq _ hj]
  by_cases hqr : isPresent (word m q (v / 1024))
  · by_cases e : pageOf (word m q (v / 1024)) = pageOf (word m p i)
    · obtain ⟨h1, h2⟩ := h.table_inj hq hp hj hi hqr hpr e
      rw [if_pos hqr, if_pos ⟨h1, by rw [← h1] at h2 ⊢; exact h2⟩, e]
    · have hn : ¬ (v / 1024 = i ∧ home q i = home p i) := by
        rintro ⟨rfl, hh⟩
        refine e ?_
        rw [h.shared q hq _ hj, h.shared p hp _ hj, hh]
      rw [if_pos hqr, if_neg hn, if_pos hqr,
        (hframe _ (pageOf_aligned _) e).word (Nat.mod_lt _ (by norm_num))]
  · have hn : ¬ (v / 1024 = i ∧ home q i = home p i) := by
      rintro ⟨rfl, hh⟩
      rw [h.shared q hq _ hj, hh, ← h.shared p hp _ hj] at hqr
      exact hqr hpr
    rw [if_neg hqr, if_neg hn, if_neg hqr]

end

end Kabanos
