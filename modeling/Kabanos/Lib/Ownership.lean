/-
  Exclusive ownership.

  A family of stores `f x : S → ℕ`, one for each `x` of a set `live`, holds
  resource numbers in its slots, `0` meaning none.  Every member carries a tag;
  members with one tag are versions of one owner.  The family is exclusive if a
  number is stored in one slot of one owner only.
-/
import Mathlib

namespace Kabanos

variable {V S T : Type*}

/-- A number is stored in one slot of one owner only. -/
def Exclusive (live : Set V) (tag : V → T) (f : V → S → ℕ) : Prop :=
  ∀ x ∈ live, ∀ y ∈ live, ∀ a b, f x a ≠ 0 → f x a = f y b → tag x = tag y ∧ a = b

/-- The number `v` is stored nowhere. -/
def Unowned (live : Set V) (f : V → S → ℕ) (v : ℕ) : Prop := ∀ x ∈ live, ∀ a, f x a ≠ v

/-- **One step of an exclusive family**: every number stored afterwards was in the
    same slot of the same owner before, or it is one unowned number `v` stored in
    one slot `s` of one owner `t`. -/
theorem Exclusive.step {live live' : Set V} {tag : V → T} {f f' : V → S → ℕ}
    (h : Exclusive live tag f) {t : T} {s : S} {v : ℕ} (hv : Unowned live f v)
    (hs : ∀ y ∈ live', ∀ c, f' y c ≠ 0 →
      (∃ x ∈ live, tag x = tag y ∧ f x c = f' y c) ∨ (tag y = t ∧ c = s ∧ f' y c = v)) :
    Exclusive live' tag f' := by
  intro x hx y hy a b hne heq
  rcases hs x hx a hne with ⟨x', hx', ht, he⟩ | ⟨ht, rfl, he⟩ <;>
    rcases hs y hy b (heq ▸ hne) with ⟨y', hy', ht', he'⟩ | ⟨ht', rfl, he'⟩
  · obtain ⟨h1, h2⟩ := h x' hx' y' hy' a b (by rw [he]; exact hne) (by rw [he, he', heq])
    exact ⟨by rw [← ht, ← ht', h1], h2⟩
  · exact absurd (by rw [he, heq, he']) (hv x' hx' a)
  · exact absurd (by rw [he', ← heq, he]) (hv y' hy' b)
  · exact ⟨by rw [ht, ht'], rfl⟩

theorem Exclusive.mono {live live' : Set V} {tag : V → T} {f f' : V → S → ℕ}
    (h : Exclusive live tag f)
    (hs : ∀ y ∈ live', ∀ c, f' y c ≠ 0 → ∃ x ∈ live, tag x = tag y ∧ f x c = f' y c) :
    Exclusive live' tag f' := by
  intro x hx y hy a b hne heq
  obtain ⟨x', hx', ht, he⟩ := hs x hx a hne
  obtain ⟨y', hy', ht', he'⟩ := hs y hy b (heq ▸ hne)
  obtain ⟨h1, h2⟩ := h x' hx' y' hy' a b (by rw [he]; exact hne) (by rw [he, he', heq])
  exact ⟨by rw [← ht, ← ht', h1], h2⟩

end Kabanos
