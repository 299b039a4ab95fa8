/-
  The bits of page table entries, and the words of a table after a write.
-/
import Kabanos.Mm.Paging

namespace Kabanos

/-! ## Bits -/

section
variable {a b w pa fl j : ℕ}

theorem testBit_page (h : a % 4096 = 0) (hj : j < 12) : a.testBit j = false := by
  obtain ⟨k, rfl⟩ : ∃ k, a = 2 ^ 12 * k := ⟨a / 4096, by omega⟩
  rw [Nat.testBit_two_pow_mul]
  simp [Nat.not_le.2 hj]

theorem pageOf_aligned (w : ℕ) : pageOf w % 4096 = 0 := Nat.mul_mod_left ..

section
variable (h : a % 4096 = 0)
include h

theorem page_or (hb : b < 4096) : a ||| b = a + b := by
  obtain ⟨k, rfl⟩ : ∃ k, a = 2 ^ 12 * k := ⟨a / 4096, by omega⟩
  exact (Nat.two_pow_add_eq_or_of_lt hb k).symm

theorem pageOf_or (hb : b < 4096) : pageOf (a ||| b) = a := by
  rw [page_or h hb, pageOf]; omega

theorem page_or_lt (ha : a < 2 ^ 32) (hb : b < 4096) : a ||| b < 2 ^ 32 := by
  rw [page_or h hb]; omega

theorem testBit_page_or (hj : j < 12) : (a ||| b).testBit j = b.testBit j := by
  rw [Nat.testBit_or, testBit_page h hj, Bool.false_or]

end

theorem pageOf_split (w : ℕ) : w = pageOf w ||| w % 4096 := by
  rw [page_or (pageOf_aligned w) (Nat.mod_lt _ (by norm_num)), pageOf, Nat.div_add_mod']

theorem pageOf_lt (h : w < 2 ^ 32) : pageOf w < 2 ^ 32 := by
  rw [pageOf]; omega

theorem ne_zero_of_isPresent (h : isPresent w) : w ≠ 0 := by
  rintro rfl
  simp [isPresent] at h

theorem makePte_eq (pa fl : ℕ) : makePte pa fl = pa ||| (fl &&& 0xFFF ||| 0x1) := Nat.or_assoc ..

theorem pteFlags_lt (fl : ℕ) : fl &&& 0xFFF ||| 0x1 < 4096 :=
  Nat.or_lt_two_pow (n := 12) (Nat.and_le_right.trans_lt (by norm_num)) (by norm_num)

theorem makePte_lt (h : pa % 4096 = 0) (hp : pa < 2 ^ 32) : makePte pa fl < 2 ^ 32 := by
  rw [makePte_eq]; exact page_or_lt h hp (pteFlags_lt fl)

theorem pageOf_makePte (h : pa % 4096 = 0) : pageOf (makePte pa fl) = pa := by
  rw [makePte_eq]; exact pageOf_or h (pteFlags_lt fl)

theorem isPresent_makePte (pa fl : ℕ) : isPresent (makePte pa fl) := by
  simp [isPresent, makePte]

theorem makePte_ne_zero (pa fl : ℕ) : makePte pa fl ≠ 0 :=
  ne_zero_of_isPresent (isPresent_makePte pa fl)

theorem pde_spec {pt : ℕ} (h : pt % 4096 = 0) (hlt : pt < 2 ^ 32) (fl : ℕ) :
    pt ||| 0x1 ||| 0x2 ||| (fl &&& 0x4) < 2 ^ 32 ∧
      pageOf (pt ||| 0x1 ||| 0x2 ||| (fl &&& 0x4)) = pt := by
  have hfl : 0x1 ||| (0x2 ||| (fl &&& 0x4)) < 4096 := Nat.or_lt_two_pow (n := 12) (by norm_num)
    (Nat.or_lt_two_pow (by norm_num) (Nat.and_le_right.trans_lt (by norm_num)))
  rw [Nat.or_assoc, Nat.or_assoc]
  exact ⟨page_or_lt h hlt hfl, pageOf_or h hfl⟩

theorem isPresent_pde (pt fl : ℕ) : isPresent (pt ||| 0x1 ||| 0x2 ||| (fl &&& 0x4)) := by
  simp [isPresent]

end

/-! ## Words -/

/-- The frame at `t` holds the same bytes. -/
def SameFrame (m m' : Mm) (t : ℕ) : Prop := ∀ a, t ≤ a → a < t + 4096 → m'.mem a = m.mem a

section
variable {m m' m'' : Mm} {t t' i i' w : ℕ}

theorem SameFrame.refl (m : Mm) (t : ℕ) : SameFrame m m t := fun _ _ _ => rfl

theorem SameFrame.trans (h : SameFrame m m' t) (h' : SameFrame m' m'' t) : SameFrame m m'' t :=
  fun a h1 h2 => (h' a h1 h2).trans (h a h1 h2)

theorem SameFrame.word (h : SameFrame m m' t) (hi : i < 1024) : word m' t i = word m t i :=
  getU32_congr fun j h1 h2 => h j (by omega) (by omega)

theorem word_lt (m : Mm) (t i : ℕ) : word m t i < 2 ^ 32 := getU32_lt ..

theorem word_setWord (ht : t % 4096 = 0) (ht' : t' % 4096 = 0) (hi : i < 1024) (hi' : i' < 1024)
    (hw : w < 2 ^ 32) :
    word (setWord m t i w) t' i' = if t' = t ∧ i' = i then w else word m t' i' := by
  split_ifs with h
  · obtain ⟨rfl, rfl⟩ := h
    exact getU32_putU32 _ _ hw
  · refine getU32_putU32_ne _ _ ?_
    omega

theorem setWord_mem (hi : i < 1024) {a : ℕ} (ha : ¬ (t ≤ a ∧ a < t + 4096)) :
    (setWord m t i w).mem a = m.mem a :=
  if_neg (by omega)

theorem not_in_frame (ht : t % 4096 = 0) (ht' : t' % 4096 = 0) (hne : t' ≠ t) {a : ℕ} (h1 : t' ≤ a)
    (h2 : a < t' + 4096) : ¬ (t ≤ a ∧ a < t + 4096) := by omega

theorem setWord_sameFrame (ht : t % 4096 = 0) (ht' : t' % 4096 = 0) (hi : i < 1024) (hne : t' ≠ t) :
    SameFrame m (setWord m t i w) t' :=
  fun _ h1 h2 => setWord_mem hi (not_in_frame ht ht' hne h1 h2)

theorem setCowEntry_mem (hj : i < 1024) {a : ℕ} (ha : ¬ (t ≤ a ∧ a < t + 4096)) (m : Mm) :
    (setCowEntry m t i).mem a = m.mem a := by
  unfold setCowEntry
  split_ifs
  · rfl
  · exact (setWord_mem hj ha).trans (setWord_mem hj ha)
  · rfl

theorem setCowEntry_word (hne : i' ≠ i) (m : Mm) (t : ℕ) :
    word (setCowEntry m t i) t i' = word m t i' := by
  unfold setCowEntry
  split_ifs
  · rfl
  · exact (getU32_putU32_ne _ _ (by omega)).trans (getU32_putU32_ne _ _ (by omega))
  · rfl

end

end Kabanos
