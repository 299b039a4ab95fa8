/-
  Computations that may fail: `Returns r P` says that `r` has a result, and that it satisfies `P`.
-/
import Mathlib

namespace Kabanos

universe u

variable {α β : Type u} {r : Option α} {P P' : α → Prop} {Q : β → Prop} {a : α}

/-- The computation has a result, which satisfies `P`. -/
def Returns (r : Option α) (P : α → Prop) : Prop := ∃ a, r = some a ∧ P a

theorem Returns.pure (h : P a) : Returns (some a) P := ⟨a, rfl, h⟩

theorem Returns.mono (h : Returns r P) (hp : ∀ a, P a → P' a) : Returns r P' := by
  obtain ⟨a, hr, ha⟩ := h
  exact ⟨a, hr, hp a ha⟩

/-- **Composition** -/
theorem Returns.bind {f : α → Option β} (h : Returns r P) (hf : ∀ a, P a → Returns (f a) Q) :
    Returns (r >>= f) Q := by
  obtain ⟨a, rfl, ha⟩ := h
  exact hf a ha

theorem Returns.map {f : α → β} (h : Returns r P) (hf : ∀ a, P a → Q (f a)) :
    Returns (r.map f) Q := by
  obtain ⟨a, rfl, ha⟩ := h
  exact ⟨f a, rfl, hf a ha⟩

theorem Returns.ite {c : Prop} [Decidable c] {r' : Option α} (h : c → Returns r P)
    (h' : ¬ c → Returns r' P) : Returns (if c then r else r') P := by
  split_ifs with hc
  · exact h hc
  · exact h' hc

end Kabanos
