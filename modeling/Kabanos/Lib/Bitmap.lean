/-
  Bitmaps stored in byte buffers, one bit per number, and the search for the
  first clear bit.
-/
import Kabanos.Lib.Bytes

namespace Kabanos

variable {a b byte bit bStart n size start : ℕ} {bitmap : Buf}

/-- `1 << (num % 8)` -/
def bitMask (num : ℕ) : UInt8 := 1 <<< UInt8.ofNat (num % 8)

/-- `bitmap[num / 8] |= (1 << (num % 8))` -/
def bitmapSet (bitmap : Buf) (num : ℕ) : Buf :=
  fun j => if j = num / 8 then bitmap j ||| bitMask num else bitmap j

/-- `bitmap[num / 8] &= ~(1 << (num % 8))` -/
def bitmapClear (bitmap : Buf) (num : ℕ) : Buf :=
  fun j => if j = num / 8 then bitmap j &&& ~~~ bitMask num else bitmap j

/-- `bitmap[num / 8] & (1 << (num % 8))` -/
def bitmapIsSet (bitmap : Buf) (num : ℕ) : Bool :=
  bitmap (num / 8) &&& bitMask num != 0

/-- The first clear bit of `bitmap[byte]` from bit `bStart` on: the inner loop of
    `find_first_empty_bit`. -/
def findEmptyInByte (bitmap : Buf) (byte bStart : ℕ) : Option ℕ :=
  if bitmap byte = 0xFF then none
  else (List.range' bStart (8 - bStart)).findSome? fun bit =>
    if bitmap byte &&& bitMask bit = 0 then some (byte * 8 + bit) else none

/-- `find_first_empty_bit`; `none` is the result `-1`. -/
def findFirstEmptyBit (bitmap : Buf) (sizeInBytes startBit : ℕ) : Option ℕ :=
  let byteStart := startBit / 8
  let bitStart := startBit % 8
  (List.range' byteStart (sizeInBytes - byteStart)).findSome? fun byte =>
    findEmptyInByte bitmap byte (if byte = byteStart then bitStart else 0)

/-! ## Single bits -/

theorem bitMask_testBit (a j : ℕ) (hj : j < 8) :
    (bitMask a).toBitVec.getLsbD j = decide (j = a % 8) := by
  have h : a % 8 < 8 := Nat.mod_lt _ (by norm_num)
  have key : ∀ i < 8, ∀ j < 8,
      ((1 : UInt8) <<< UInt8.ofNat i).toBitVec.getLsbD j = decide (j = i) := by decide
  exact key _ h _ hj

theorem isSet_iff (bitmap : Buf) (num : ℕ) :
    bitmapIsSet bitmap num = (bitmap (num / 8)).toBitVec.getLsbD (num % 8) := by
  have h : num % 8 < 8 := Nat.mod_lt _ (by norm_num)
  rw [Bool.eq_iff_iff]
  simp only [bitmapIsSet, bne_iff_ne, ne_eq]
  constructor
  · intro hne
    by_contra hz
    apply hne
    apply UInt8.toBitVec_inj.1
    apply BitVec.eq_of_getLsbD_eq
    intro j hj
    simp only [UInt8.toBitVec_and, BitVec.getLsbD_and, bitMask_testBit num j hj]
    by_cases e : j = num % 8
    · subst e; simpa using hz
    · simp [e]
  · intro hb h0
    have := congrArg (fun x : UInt8 => x.toBitVec.getLsbD (num % 8)) h0
    simp [bitMask_testBit num _ h, hb] at this

theorem isSet_set (bitmap : Buf) (a b : ℕ) :
    bitmapIsSet (bitmapSet bitmap a) b = (decide (a = b) || bitmapIsSet bitmap b) := by
  have hb : b % 8 < 8 := Nat.mod_lt _ (by norm_num)
  rw [isSet_iff, isSet_iff]
  simp only [bitmapSet]
  split_ifs with h
  · simp only [UInt8.toBitVec_or, BitVec.getLsbD_or, bitMask_testBit a _ hb]
    have : (b % 8 = a % 8) ↔ a = b := by omega
    simp [this, Bool.or_comm]
  · have : a ≠ b := fun e => h (by rw [e])
    simp [this]

theorem isSet_clear (bitmap : Buf) (a b : ℕ) :
    bitmapIsSet (bitmapClear bitmap a) b = (!decide (a = b) && bitmapIsSet bitmap b) := by
  have hb : b % 8 < 8 := Nat.mod_lt _ (by norm_num)
  rw [isSet_iff, isSet_iff]
  simp only [bitmapClear]
  split_ifs with h
  · simp only [UInt8.toBitVec_and, UInt8.toBitVec_not, BitVec.getLsbD_and, BitVec.getLsbD_not,
      bitMask_testBit a _ hb, hb, decide_true, Bool.true_and]
    have : (b % 8 = a % 8) ↔ a = b := by omega
    simp [this, Bool.and_comm]
  · have : a ≠ b := fun e => h (by rw [e])
    simp [this]

theorem isSet_set_self (bitmap : Buf) (a : ℕ) : bitmapIsSet (bitmapSet bitmap a) a := by
  simp [isSet_set]

theorem isSet_set_ne (bitmap : Buf) (h : a ≠ b) :
    bitmapIsSet (bitmapSet bitmap a) b = bitmapIsSet bitmap b := by
  simp [isSet_set, h]

theorem isSet_clear_self (bitmap : Buf) (a : ℕ) : bitmapIsSet (bitmapClear bitmap a) a = false := by
  simp [isSet_clear]

theorem isSet_clear_ne (bitmap : Buf) (h : a ≠ b) :
    bitmapIsSet (bitmapClear bitmap a) b = bitmapIsSet bitmap b := by
  simp [isSet_clear, h]

/-! ## The first clear bit -/

theorem isSet_of_full (h : bitmap byte = 0xFF) (hb : bit < 8) :
    bitmapIsSet bitmap (byte * 8 + bit) := by
  have e1 : (byte * 8 + bit) / 8 = byte := by omega
  have e2 : (byte * 8 + bit) % 8 = bit := by omega
  rw [isSet_iff, e1, e2, h]
  have key : ∀ j < 8, (0xFF : UInt8).toBitVec.getLsbD j := by decide
  exact key bit hb

theorem mask_eq_zero_iff (bitmap : Buf) (hb : bit < 8) :
    bitmap byte &&& bitMask bit = 0 ↔ bitmapIsSet bitmap (byte * 8 + bit) = false := by
  have e1 : (byte * 8 + bit) / 8 = byte := by omega
  have e2 : bitMask (byte * 8 + bit) = bitMask bit := by
    simp only [bitMask]; congr 2; omega
  simp [bitmapIsSet, e1, e2]

theorem findEmptyInByte_some
    (h : findEmptyInByte bitmap byte bStart = some n) :
    n / 8 = byte ∧ bStart ≤ n % 8 ∧ bitmapIsSet bitmap n = false := by
  unfold findEmptyInByte at h
  split_ifs at h
  obtain ⟨bit, hmem, hbit⟩ := List.exists_of_findSome?_eq_some h
  split_ifs at hbit with hz
  rw [List.mem_range'_1] at hmem
  have hb : bit < 8 := by omega
  cases hbit
  refine ⟨by omega, by omega, (mask_eq_zero_iff bitmap hb).1 hz⟩

theorem findFirstEmptyBit_some
    (h : findFirstEmptyBit bitmap size start = some n) :
    start ≤ n ∧ n < 8 * size ∧ bitmapIsSet bitmap n = false := by
  unfold findFirstEmptyBit at h
  obtain ⟨byte, hmem, hbyte⟩ := List.exists_of_findSome?_eq_some h
  rw [List.mem_range'_1] at hmem
  obtain ⟨h1, h2, h3⟩ := findEmptyInByte_some hbyte
  refine ⟨?_, by omega, h3⟩
  split_ifs at h2 with hb <;> omega

theorem findFirstEmptyBit_start (hs : start < 8 * size)
    (h : bitmapIsSet bitmap start = false) : findFirstEmptyBit bitmap size start = some start := by
  have hb : start % 8 < 8 := Nat.mod_lt _ (by norm_num)
  have e : start / 8 * 8 + start % 8 = start := Nat.div_add_mod' start 8
  rw [← e] at h
  have hbyte : findEmptyInByte bitmap (start / 8) (start % 8) = some start := by
    have hne : ¬ bitmap (start / 8) = 0xFF := fun hf => by rw [isSet_of_full hf hb] at h; cases h
    rw [findEmptyInByte, if_neg hne, show 8 - start % 8 = 7 - start % 8 + 1 by omega,
      List.range'_succ, List.findSome?_cons, if_pos ((mask_eq_zero_iff bitmap hb).2 h), e]
  simp only [findFirstEmptyBit]
  rw [show size - start / 8 = size - start / 8 - 1 + 1 by omega, List.range'_succ,
    List.findSome?_cons, if_pos rfl, hbyte]

end Kabanos
