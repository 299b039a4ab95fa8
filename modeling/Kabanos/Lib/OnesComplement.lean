/-
  One's-complement sums of 16-bit words.

  A carry out of the sixteen bits is added back at the low end.  A sum is therefore a number
  modulo 65535, in which zero has the two forms 0 and 65535; the second is the sum of a text
  that carries its own checksum.
-/
import Mathlib.Data.Nat.ModEq
import Mathlib.Tactic.NormNum

namespace Kabanos

/-- One's-complement addition: the carry is added back. -/
def onesAdd (a b : ℕ) : ℕ := if 65535 < a + b then a + b - 65535 else a + b

/-- The one's-complement sum of some words -/
def onesSum (words : List ℕ) : ℕ := words.foldr onesAdd 0

/-- The 16-bit words of a text in network order, with a zero behind a text of odd length. -/
def netWords : List UInt8 → List ℕ
  | [] => []
  | [a] => [256 * a.toNat]
  | a :: b :: l => (256 * a.toNat + b.toNat) :: netWords l

theorem netWords_le (l : List UInt8) : ∀ w ∈ netWords l, w ≤ 65535 := by
  induction l using netWords.induct with
  | case1 => simp [netWords]
  | case2 a =>
    have := a.toNat_lt
    simp only [netWords, List.mem_singleton, forall_eq]
    omega
  | case3 a b l ih =>
    have := a.toNat_lt
    have := b.toNat_lt
    simp only [netWords, List.mem_cons, forall_eq_or_imp]
    exact ⟨by omega, ih⟩

theorem onesSum_spec {words : List ℕ} (h : ∀ w ∈ words, w ≤ 65535) :
    onesSum words ≤ 65535 ∧ onesSum words % 65535 = words.sum % 65535 ∧
      (onesSum words = 0 ↔ words.sum = 0) := by
  induction words with
  | nil => exact ⟨by decide, rfl, Iff.rfl⟩
  | cons w l ih =>
    obtain ⟨h1, h2, h3⟩ := ih fun x hx => h x (List.mem_cons_of_mem _ hx)
    have hw := h w List.mem_cons_self
    have e : onesSum (w :: l) = onesAdd w (onesSum l) := rfl
    rw [e, List.sum_cons, onesAdd]
    split_ifs
    · omega
    · omega

/-- **A sum of 65535** is one of words that are not all zero and add up to a multiple of 65535. -/
theorem onesSum_eq_full {words : List ℕ} (h : ∀ w ∈ words, w ≤ 65535) :
    onesSum words = 65535 ↔ words.sum ≠ 0 ∧ words.sum % 65535 = 0 := by
  obtain ⟨h1, h2, h3⟩ := onesSum_spec h
  constructor
  · intro e
    rw [e] at h2 h3
    omega
  · rintro ⟨h4, h5⟩
    omega

end Kabanos
