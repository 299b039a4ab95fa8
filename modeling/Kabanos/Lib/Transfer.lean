/-
  Bytes of a memory copied to other places of it, one after the other.
-/
import Kabanos.Lib.Bytes

namespace Kabanos

/-- The memory after the bytes at `src 0`, `src 1`, ... have been stored at `dst 0`, `dst 1`, ...,
    one after the other.  The bytes are those of the memory at the start. -/
def transfer (src dst : ℕ → ℕ) (mem : Buf) : ℕ → Buf
  | 0 => mem
  | n + 1 => Function.update (transfer src dst mem n) (dst n) (mem (src n))

section
variable {src dst src' dst' : ℕ → ℕ} {mem mem' : Buf} {a i n : ℕ}

theorem transfer_other (h : ∀ i < n, dst i ≠ a) : transfer src dst mem n a = mem a := by
  induction n with
  | zero => rfl
  | succ n ih =>
    rw [transfer, Function.update_of_ne (h n (Nat.lt_succ_self n)).symm]
    exact ih fun i hi => h i (by omega)

theorem transfer_last (hi : i < n) (h : ∀ j, i < j → j < n → dst j ≠ dst i) :
    transfer src dst mem n (dst i) = mem (src i) := by
  induction n with
  | zero => omega
  | succ n ih =>
    rcases Nat.lt_succ_iff_lt_or_eq.1 hi with hi | rfl
    · rw [transfer, Function.update_of_ne (h n hi (Nat.lt_succ_self n)).symm]
      exact ih hi fun j h1 h2 => h j h1 (by omega)
    · exact Function.update_self ..

theorem transfer_congr (hs : ∀ i < n, src i = src' i) (hd : ∀ i < n, dst i = dst' i)
    (hm : ∀ i < n, mem (src i) = mem' (src i)) (ha : mem a = mem' a) :
    transfer src dst mem n a = transfer src' dst' mem' n a := by
  induction n with
  | zero => exact ha
  | succ n ih =>
    have ih := ih (fun i hi => hs i (by omega)) (fun i hi => hd i (by omega))
      (fun i hi => hm i (by omega))
    have hn := Nat.lt_succ_self n
    simp only [transfer, ← hs n hn, ← hd n hn, ← hm n hn, Function.update_apply, ih]

theorem transfer_add {d : ℕ} (h : ∀ i < d, ∀ j < n, dst i ≠ src (d + j)) :
    transfer (fun j => src (d + j)) (fun j => dst (d + j)) (transfer src dst mem d) n =
      transfer src dst mem (d + n) := by
  induction n with
  | zero => rfl
  | succ n ih =>
    rw [transfer, ih fun i hi j hj => h i hi j (by omega),
      transfer_other fun i hi => h i hi n (Nat.lt_succ_self n), ← Nat.add_assoc, transfer]

end

end Kabanos
