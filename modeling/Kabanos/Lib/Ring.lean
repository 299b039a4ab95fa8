/-
  Queues in a ring of `n` cells.

  The elements are in the `count` cells from `tail` on, modulo `n`; `ring` lists them, the
  oldest first.
-/
import Mathlib

namespace Kabanos

variable {α : Type*} {n tail count : ℕ} {data : ℕ → α}

/-- The elements, the oldest first. -/
def ring (n : ℕ) (data : ℕ → α) (tail count : ℕ) : List α :=
  (List.range count).map fun i => data ((tail + i) % n)

@[simp]
theorem length_ring : (ring n data tail count).length = count := by simp [ring]

theorem ring_cell_ne {i : ℕ} (hi : i < count) (hc : count < n) :
    (tail + i) % n ≠ (tail + count) % n := by
  intro h
  have hmod : i ≡ count [MOD n] := Nat.ModEq.add_left_cancel' tail h
  have := Nat.ModEq.eq_of_lt_of_lt hmod (hi.trans hc) hc
  omega

theorem ring_push (hc : count < n) (a : α) :
    ring n (Function.update data ((tail + count) % n) a) tail (count + 1)
      = ring n data tail count ++ [a] := by
  rw [ring, List.range_succ, List.map_append, List.map_singleton, Function.update_self]
  congr 1
  refine List.map_congr_left fun i hi => ?_
  rw [Function.update_of_ne (ring_cell_ne (List.mem_range.1 hi) hc)]

theorem ring_pop (ht : tail < n) :
    ring n data tail (count + 1) = data tail :: ring n data ((tail + 1) % n) count := by
  rw [ring, List.range_succ_eq_map, List.map_cons, List.map_map, Nat.add_zero,
    Nat.mod_eq_of_lt ht]
  congr 1
  refine List.map_congr_left fun i _ => ?_
  simp only [Function.comp, Nat.mod_add_mod]
  rw [Nat.add_assoc, Nat.add_comm 1 i]

theorem ring_dropLast : (ring n data tail (count + 1)).dropLast = ring n data tail count := by
  rw [ring, List.range_succ, List.map_append, List.map_singleton, List.dropLast_concat, ring]

end Kabanos
