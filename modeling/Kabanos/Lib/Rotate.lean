/-
  Slots that are filled in turn.

  There are `n` slots and a position `next`: a new value goes to the slot at `next`, and `next`
  moves on modulo `n`.  The slots then hold the last `n` values.
-/
import Mathlib

namespace Kabanos

variable {α : Type*} {n next i j : ℕ} {slots : ℕ → Option α} {log : List α} {a : α}

/-- The slot that was filled `i` values ago. -/
def slotBack (n next i : ℕ) : ℕ := (next + (n - 1 - i)) % n

theorem slotBack_lt (h : next < n) : slotBack n next i < n := Nat.mod_lt _ (by omega)

theorem slotBack_zero (h : next < n) : slotBack n ((next + 1) % n) 0 = next := by
  rw [slotBack, Nat.mod_add_mod, show next + 1 + (n - 1 - 0) = next + n by omega,
    Nat.add_mod_right, Nat.mod_eq_of_lt h]

theorem slotBack_succ (hi : i + 1 < n) :
    slotBack n ((next + 1) % n) (i + 1) = slotBack n next i := by
  rw [slotBack, slotBack, Nat.mod_add_mod]
  congr 1
  omega

theorem slotBack_ne (h : next < n) (hi : i + 1 < n) : slotBack n next i ≠ next := by
  intro e
  have hmod : next + (n - 1 - i) ≡ next + 0 [MOD n] := by
    rw [Nat.ModEq, Nat.add_zero, Nat.mod_eq_of_lt h]
    exact e
  have := (Nat.ModEq.add_left_cancel' next hmod).eq_of_lt_of_lt (by omega) (by omega)
  omega

theorem exists_slotBack (h : next < n) (hj : j < n) : ∃ i < n, slotBack n next i = j := by
  rcases Nat.lt_or_ge j next with hlt | hge
  · refine ⟨next - 1 - j, by omega, ?_⟩
    rw [slotBack, show next + (n - 1 - (next - 1 - j)) = j + n by omega, Nat.add_mod_right,
      Nat.mod_eq_of_lt hj]
  · refine ⟨n - 1 - (j - next), by omega, ?_⟩
    rw [slotBack, show next + (n - 1 - (n - 1 - (j - next))) = j by omega, Nat.mod_eq_of_lt hj]

/-- The slots hold the values of `log`, of which the newest is the first. -/
structure Rotates (n : ℕ) (slots : ℕ → Option α) (next : ℕ) (log : List α) : Prop where
  next_lt : next < n
  slot : ∀ i < n, slots (slotBack n next i) = log[i]?

theorem Rotates.nil (h : next < n) (hs : ∀ j < n, slots j = none) : Rotates n slots next [] := by
  refine ⟨h, fun i _ => ?_⟩
  rw [hs _ (slotBack_lt h), List.getElem?_nil]

theorem Rotates.push (h : Rotates n slots next log) (a : α) :
    Rotates n (Function.update slots next (some a)) ((next + 1) % n) (a :: log) := by
  have hlt := h.next_lt
  refine ⟨Nat.mod_lt _ (by omega), fun i hi => ?_⟩
  cases i with
  | zero => rw [slotBack_zero hlt, Function.update_self, List.getElem?_cons_zero]
  | succ i =>
    rw [slotBack_succ hi, Function.update_of_ne (slotBack_ne hlt hi), h.slot i (by omega),
      List.getElem?_cons_succ]

/-- **The slots hold the last `n` values.** -/
theorem Rotates.mem_iff (h : Rotates n slots next log) :
    (∃ j < n, slots j = some a) ↔ a ∈ log.take n := by
  rw [List.mem_take_iff_getElem]
  constructor
  · rintro ⟨j, hj, hs⟩
    obtain ⟨i, hi, rfl⟩ := exists_slotBack h.next_lt hj
    rw [h.slot i hi] at hs
    obtain ⟨hlen, e⟩ := List.getElem?_eq_some_iff.1 hs
    exact ⟨i, by omega, e⟩
  · rintro ⟨i, hi, e⟩
    refine ⟨slotBack n next i, slotBack_lt h.next_lt, ?_⟩
    rw [h.slot i (by omega), List.getElem?_eq_some_iff]
    exact ⟨by omega, e⟩

theorem Rotates.slot_inj (h : Rotates n slots next log) (hn : (log.take n).Nodup) (hi : i < n)
    (hj : j < n) (ei : slots i = some a) (ej : slots j = some a) : i = j := by
  obtain ⟨x, hx, rfl⟩ := exists_slotBack h.next_lt hi
  obtain ⟨y, hy, rfl⟩ := exists_slotBack h.next_lt hj
  rw [h.slot x hx, ← List.getElem?_take_of_lt hx] at ei
  rw [h.slot y hy, ← List.getElem?_take_of_lt hy] at ej
  obtain ⟨hlen, -⟩ := List.getElem?_eq_some_iff.1 ei
  rw [(List.getElem?_inj hlen hn).1 (ei.trans ej.symm)]

end Kabanos
