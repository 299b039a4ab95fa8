/-
  Byte buffers.

  A buffer is a function from offsets to bytes; its length is carried by the
  code that uses it.  `memcpy` and `memset` are the C functions, `getU32` and
  `putU32` read and write a little-endian 32-bit word.
-/
import Mathlib

namespace Kabanos

variable {dst src b : Buf} {off k n j : ℕ}

/-- A byte buffer. -/
abbrev Buf := ℕ → UInt8

/-- `memcpy(dst + off, src + k, n)` -/
def memcpy (dst : Buf) (off : ℕ) (src : Buf) (k n : ℕ) : Buf :=
  fun j => if off ≤ j ∧ j < off + n then src (k + (j - off)) else dst j

/-- `memset(dst + off, v, n)` -/
def memset (dst : Buf) (off : ℕ) (v : UInt8) (n : ℕ) : Buf :=
  fun j => if off ≤ j ∧ j < off + n then v else dst j

/-- The 32-bit word at offset `off`. -/
def getU32 (b : Buf) (off : ℕ) : ℕ :=
  (b off).toNat + 256 * (b (off + 1)).toNat + 65536 * (b (off + 2)).toNat +
    16777216 * (b (off + 3)).toNat

/-- Store the 32-bit word `v` at offset `off`. -/
def putU32 (b : Buf) (off v : ℕ) : Buf :=
  fun j => if off ≤ j ∧ j < off + 4 then UInt8.ofNat (v / 256 ^ (j - off)) else b j

/-- The 16-bit word at offset `off`. -/
def getU16 (b : Buf) (off : ℕ) : ℕ := (b off).toNat + 256 * (b (off + 1)).toNat

/-- `strcmp(b + off, s) == 0`, for a string without its terminating zero -/
def strEq (b : Buf) : ℕ → List UInt8 → Bool
  | off, [] => b off == 0
  | off, c :: s => b off == c && strEq b (off + 1) s

/-- The buffer of the little-endian 32-bit words `f 0`, `f 1`, ... -/
def wordsBuf (f : ℕ → ℕ) : Buf := fun k => UInt8.ofNat (f (k / 4) / 256 ^ (k % 4))

theorem memcpy_in (h : off ≤ j) (h' : j < off + n) :
    memcpy dst off src k n j = src (k + (j - off)) := by
  simp [memcpy, h, h']

theorem memcpy_out (h : j < off ∨ off + n ≤ j) : memcpy dst off src k n j = dst j := by
  simp only [memcpy]; rw [if_neg]; omega

theorem memcpy_zero (dst : Buf) (off : ℕ) (src : Buf) (k : ℕ) : memcpy dst off src k 0 = dst :=
  funext fun _ => memcpy_out (by omega)

/-- A copy in two parts. -/
theorem memcpy_append (dst : Buf) (off : ℕ) (src : Buf) (k m n : ℕ) :
    memcpy (memcpy dst off src k m) (off + m) src (k + m) n = memcpy dst off src k (m + n) := by
  funext j
  simp only [memcpy]
  by_cases h : off + m ≤ j ∧ j < off + m + n
  · rw [if_pos h, if_pos (by omega)]
    congr 1
    omega
  · rw [if_neg h]
    exact if_congr (by omega) rfl rfl

theorem memcpy_congr {src' : Buf} {k' : ℕ} (h : ∀ j < n, src (k + j) = src' (k' + j)) :
    memcpy dst off src k n = memcpy dst off src' k' n := by
  funext j
  simp only [memcpy]
  split_ifs with hj
  · exact h _ (by omega)
  · rfl

theorem getU32_lt (b : Buf) (off : ℕ) : getU32 b off < 2 ^ 32 := by
  have h0 := (b off).toNat_lt
  have h1 := (b (off + 1)).toNat_lt
  have h2 := (b (off + 2)).toNat_lt
  have h3 := (b (off + 3)).toNat_lt
  simp only [getU32]; omega

theorem getU32_congr {b' : Buf} (h : ∀ j, off ≤ j → j < off + 4 → b' j = b j) :
    getU32 b' off = getU32 b off := by
  simp only [getU32]
  rw [h off (by omega) (by omega), h (off + 1) (by omega) (by omega),
    h (off + 2) (by omega) (by omega), h (off + 3) (by omega) (by omega)]

theorem getU32_putU32_mod (b : Buf) (off v : ℕ) : getU32 (putU32 b off v) off = v % 2 ^ 32 := by
  have e0 : putU32 b off v off = UInt8.ofNat v := by simp [putU32]
  have e1 : putU32 b off v (off + 1) = UInt8.ofNat (v / 256) := by simp [putU32]
  have e2 : putU32 b off v (off + 2) = UInt8.ofNat (v / 65536) := by simp [putU32]
  have e3 : putU32 b off v (off + 3) = UInt8.ofNat (v / 16777216) := by simp [putU32]
  simp only [getU32, e0, e1, e2, e3, UInt8.toNat_ofNat']
  omega

theorem getU32_putU32 (b : Buf) (off : ℕ) {v : ℕ} (hv : v < 2 ^ 32) :
    getU32 (putU32 b off v) off = v :=
  (getU32_putU32_mod b off v).trans (Nat.mod_eq_of_lt hv)

theorem getU32_putU32_ne (b : Buf) {off' : ℕ} (v : ℕ) (h : off + 4 ≤ off' ∨ off' + 4 ≤ off) :
    getU32 (putU32 b off v) off' = getU32 b off' := by
  refine getU32_congr fun j h1 h2 => ?_
  simp only [putU32]; rw [if_neg]; omega

theorem getU32_wordsBuf (f : ℕ → ℕ) (w : ℕ) : getU32 (wordsBuf f) (4 * w) = f w % 2 ^ 32 := by
  have e0 : wordsBuf f (4 * w) = UInt8.ofNat (f w) := by
    simp [wordsBuf]
  have e1 : wordsBuf f (4 * w + 1) = UInt8.ofNat (f w / 256) := by
    simp only [wordsBuf]; congr 2
    · rw [show (4 * w + 1) / 4 = w by omega]
    · rw [show (4 * w + 1) % 4 = 1 by omega]; rfl
  have e2 : wordsBuf f (4 * w + 2) = UInt8.ofNat (f w / 65536) := by
    simp only [wordsBuf]; congr 2
    · rw [show (4 * w + 2) / 4 = w by omega]
    · rw [show (4 * w + 2) % 4 = 2 by omega]; rfl
  have e3 : wordsBuf f (4 * w + 3) = UInt8.ofNat (f w / 16777216) := by
    simp only [wordsBuf]; congr 2
    · rw [show (4 * w + 3) / 4 = w by omega]
    · rw [show (4 * w + 3) % 4 = 3 by omega]; rfl
  simp only [getU32, e0, e1, e2, e3, UInt8.toNat_ofNat']
  omega

theorem getU32_zero (h : ∀ j, off ≤ j → j < off + 4 → b j = 0) : getU32 b off = 0 :=
  getU32_congr (b := fun _ => 0) h

end Kabanos
