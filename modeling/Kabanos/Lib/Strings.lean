/-
  C strings and wide words in byte buffers.

  `SameOutside lo hi b b'` says that `b'` is `b` outside the bytes from `lo` up to `hi`, and `StrAt`
  that a string stands at an offset, with its terminating zero.
-/
import Kabanos.Lib.Bytes
import Kabanos.Lib.Loop

namespace Kabanos

/-! ## Writes that stay in a region -/

/-- Only the bytes from `lo` up to `hi` may differ. -/
def SameOutside (lo hi : ℕ) (b b' : Buf) : Prop := ∀ j, j < lo ∨ hi ≤ j → b' j = b j

section
variable {b b' b'' src : Buf} {lo hi lo' hi' off k n v : ℕ}

theorem SameOutside.refl (lo hi : ℕ) (b : Buf) : SameOutside lo hi b b := fun _ _ => rfl

theorem SameOutside.trans (h : SameOutside lo hi b b') (h' : SameOutside lo hi b' b'') :
    SameOutside lo hi b b'' :=
  fun j hj => (h' j hj).trans (h j hj)

theorem SameOutside.mono (h : SameOutside lo hi b b') (hl : lo' ≤ lo) (hh : hi ≤ hi') :
    SameOutside lo' hi' b b' :=
  fun j hj => h j (hj.imp (fun hj => by omega) fun hj => by omega)

theorem SameOutside.getU32 (h : SameOutside lo hi b b') (ho : off + 4 ≤ lo ∨ hi ≤ off) :
    getU32 b' off = getU32 b off :=
  getU32_congr fun j h1 h2 => h j (ho.imp (fun ho => by omega) fun ho => by omega)

theorem keeps_putU32 (b : Buf) (off v : ℕ) : SameOutside off (off + 4) b (putU32 b off v) := by
  intro j hj
  simp only [putU32]
  rw [if_neg (by omega)]

theorem keeps_memset (b : Buf) (off : ℕ) (x : UInt8) (n : ℕ) :
    SameOutside off (off + n) b (memset b off x n) := by
  intro j hj
  simp only [memset]
  rw [if_neg (by omega)]

end

/-! ## 64-bit words -/

/-- The 64-bit word at offset `off`. -/
def getU64 (b : Buf) (off : ℕ) : ℕ := getU32 b off + 2 ^ 32 * getU32 b (off + 4)

/-- Store the 64-bit word `v` at offset `off`. -/
def putU64 (b : Buf) (off v : ℕ) : Buf := putU32 (putU32 b off v) (off + 4) (v / 2 ^ 32)

section
variable {b b' : Buf} {lo hi off v : ℕ}

theorem SameOutside.getU64 (h : SameOutside lo hi b b') (ho : off + 8 ≤ lo ∨ hi ≤ off) :
    getU64 b' off = getU64 b off := by
  simp only [Kabanos.getU64]
  rw [h.getU32 (ho.imp (fun ho => by omega) fun ho => by omega),
    h.getU32 (ho.imp (fun ho => by omega) fun ho => by omega)]

theorem keeps_putU64 (b : Buf) (off v : ℕ) : SameOutside off (off + 8) b (putU64 b off v) :=
  ((keeps_putU32 b off v).mono le_rfl (by omega)).trans
    ((keeps_putU32 _ (off + 4) _).mono (by omega) (by omega))

theorem getU64_putU64 (b : Buf) (off : ℕ) (hv : v < 2 ^ 64) : getU64 (putU64 b off v) off = v := by
  rw [getU64, putU64, (keeps_putU32 _ (off + 4) _).getU32 (Or.inl le_rfl), getU32_putU32_mod,
    getU32_putU32_mod]
  omega

end

/-! ## Strings -/

/-- A C string without its terminating zero. -/
structure CStr where
  bytes : List UInt8
  nonzero : ∀ c ∈ bytes, c ≠ 0

/-- `strlen(s)` -/
def CStr.length (s : CStr) : ℕ := s.bytes.length

/-- The byte `s[i]`; the one after the last is zero. -/
def CStr.get (s : CStr) (i : ℕ) : UInt8 := s.bytes.getD i 0

/-- The bytes of the string with the terminating zero. -/
def CStr.terminated (s : CStr) : List UInt8 := s.bytes ++ [0]

/-- `strcpy(dst + off, s)` -/
def strcpy (dst : Buf) (off : ℕ) (s : CStr) : Buf :=
  fun j => if off ≤ j ∧ j < off + (s.length + 1) then s.get (j - off) else dst j

/-- `strlen(b + off)`, if the string ends within `n` bytes -/
def strlen (n : ℕ) (b : Buf) (off : ℕ) : Option ℕ := (List.range n).find? fun i => b (off + i) == 0

/-- The string stands at `off`. -/
def StrAt (b : Buf) (off : ℕ) (s : CStr) : Prop := ∀ i ≤ s.length, b (off + i) = s.get i

section
variable {b b' dst : Buf} {lo hi off k n len : ℕ} {s s' : CStr}

theorem CStr.get_lt (s : CStr) {i : ℕ} (h : i < s.length) : s.get i ≠ 0 := by
  have hi : s.get i = s.bytes[i] := by rw [get, List.getD_eq_getElem _ _ h]
  rw [hi]
  exact s.nonzero _ (List.getElem_mem h)

theorem CStr.get_length (s : CStr) : s.get s.length = 0 := by
  rw [get, length, List.getD_eq_default _ _ le_rfl]

theorem CStr.length_terminated (s : CStr) : s.terminated.length = s.length + 1 := List.length_append

theorem CStr.getD_terminated (s : CStr) {i : ℕ} (h : i ≤ s.length) (x : UInt8) :
    s.terminated.getD i x = s.get i := by
  rcases Nat.lt_or_eq_of_le h with h | rfl
  · rw [terminated, get, List.getD_append _ _ _ _ h, List.getD_eq_getElem _ _ h,
      List.getD_eq_getElem _ _ h]
  · rw [get_length, terminated, length, List.getD_append_right _ _ _ _ le_rfl, Nat.sub_self]
    rfl

theorem strcpy_add (b : Buf) (off : ℕ) (s : CStr) (j : ℕ) :
    strcpy b off s (off + j) = s.terminated.getD j (b (off + j)) := by
  simp only [strcpy, Nat.le_add_right, true_and, Nat.add_lt_add_iff_left, Nat.add_sub_cancel_left]
  split_ifs with hj
  · rw [s.getD_terminated (Nat.le_of_lt_succ hj)]
  · rw [List.getD_eq_default _ _ (by rw [s.length_terminated]; omega)]

theorem StrAt.congr (h : StrAt b off s) (he : ∀ i ≤ s.length, b' (off + i) = b (off + i)) :
    StrAt b' off s := fun i hi => (he i hi).trans (h i hi)

theorem SameOutside.strAt (hk : SameOutside lo hi b b') (h : StrAt b off s)
    (ho : off + s.length < lo ∨ hi ≤ off) : StrAt b' off s :=
  h.congr fun i hi => hk _ (ho.imp (fun ho => by omega) fun ho => by omega)

theorem strAt_strcpy (b : Buf) (off : ℕ) (s : CStr) : StrAt (strcpy b off s) off s := by
  intro i hi
  simp only [strcpy]
  rw [if_pos (by omega), Nat.add_sub_cancel_left]

theorem keeps_strcpy (b : Buf) (off : ℕ) (s : CStr) :
    SameOutside off (off + (s.length + 1)) b (strcpy b off s) := by
  intro j hj
  simp only [strcpy]
  rw [if_neg (by omega)]

theorem StrAt.yields_strlen (h : StrAt b off s) : Yields (fun n => strlen n b off) s.length := by
  refine ⟨s.length + 1, fun n hn => ?_⟩
  show strlen n b off = some s.length
  rw [strlen, List.find?_range_eq_some]
  refine ⟨?_, ?_, fun i hi => ?_⟩
  · rw [h _ le_rfl, s.get_length]
    rfl
  · exact List.mem_range.2 (by omega)
  · rw [h i hi.le]
    simpa using s.get_lt hi

theorem strAt_of_strlen (h : strlen n b off = some len) :
    ∃ s : CStr, s.length = len ∧ StrAt b off s := by
  rw [strlen, List.find?_range_eq_some] at h
  obtain ⟨h0, -, hne⟩ := h
  refine ⟨⟨(List.range len).map fun i => b (off + i), fun c hc => ?_⟩, ?_, fun i hi => ?_⟩
  · obtain ⟨i, hi, rfl⟩ := List.mem_map.1 hc
    simpa using hne i (List.mem_range.1 hi)
  · simp [CStr.length]
  · simp only [CStr.length, List.length_map, List.length_range] at hi
    rcases Nat.lt_or_eq_of_le hi with hi | rfl
    · simp [CStr.get, List.getD, hi]
    · simpa [CStr.get, List.getD] using h0

theorem StrAt.memcpy (h : StrAt b k s) (dst : Buf) (off : ℕ) :
    memcpy dst off b k (s.length + 1) = strcpy dst off s := by
  funext j
  simp only [Kabanos.memcpy, strcpy]
  split_ifs with hj
  · exact h _ (by omega)
  · rfl

end

/-! ## Comparison -/

/-- The loop of `strcmp(a, b)` and the difference it returns. -/
def strcmpFrom : List UInt8 → List UInt8 → ℤ
  | [], b => 0 - ((b.headD 0).toNat : ℤ)
  | x :: a, b =>
    if x ≠ 0 ∧ x = b.headD 0 then strcmpFrom a b.tail
    else (x.toNat : ℤ) - ((b.headD 0).toNat : ℤ)

/-- `strcmp(a, b)` -/
def strcmp (a b : CStr) : ℤ := strcmpFrom a.bytes b.bytes

/-- The loop of `strncmp(a, b, n)` and what it returns: at `n = 0` the counter wraps around,
    which stands for a match of all `n` bytes. -/
def strncmpFrom : ℕ → List UInt8 → List UInt8 → ℤ
  | 0, _, _ => 0
  | n + 1, a, b =>
    if a.headD 0 ≠ 0 ∧ a.headD 0 = b.headD 0 then strncmpFrom n a.tail b.tail
    else ((a.headD 0).toNat : ℤ) - ((b.headD 0).toNat : ℤ)

/-- `strncmp(a, b, n)` -/
def strncmp (a b : CStr) (n : ℕ) : ℤ := strncmpFrom n a.bytes b.bytes

section
variable {a b : List UInt8}

theorem toNat_sub_ne_zero {x y : UInt8} (h : x ≠ y) : (x.toNat : ℤ) - (y.toNat : ℤ) ≠ 0 := by
  intro h0
  exact h (UInt8.toNat_inj.1 (by omega))

theorem strcmpFrom_eq_zero (ha : ∀ c ∈ a, c ≠ 0) (hb : ∀ c ∈ b, c ≠ 0) :
    strcmpFrom a b = 0 ↔ a = b := by
  induction a generalizing b with
  | nil =>
    cases b with
    | nil => simp [strcmpFrom]
    | cons y b =>
      have hy : y ≠ 0 := hb y (by simp)
      simpa [strcmpFrom] using toNat_sub_ne_zero (Ne.symm hy)
  | cons x a ih =>
    have hx : x ≠ 0 := ha x (by simp)
    cases b with
    | nil => simpa [strcmpFrom, hx] using toNat_sub_ne_zero hx
    | cons y b =>
      by_cases hxy : x = y
      · subst hxy
        have hab := ih (b := b) (fun c hc => ha c (by simp [hc])) fun c hc => hb c (by simp [hc])
        simpa [strcmpFrom, hx] using hab
      · simpa [strcmpFrom, hxy] using toNat_sub_ne_zero hxy

theorem strcmp_eq_zero (s t : CStr) : strcmp s t = 0 ↔ s.bytes = t.bytes :=
  strcmpFrom_eq_zero s.nonzero t.nonzero

theorem strncmpFrom_eq_zero (hb : ∀ c ∈ b, c ≠ 0) : strncmpFrom b.length a b = 0 ↔ b <+: a := by
  induction b generalizing a with
  | nil => simp [strncmpFrom]
  | cons y b ih =>
    have hy : y ≠ 0 := hb y (by simp)
    cases a with
    | nil => simpa [strncmpFrom] using toNat_sub_ne_zero (Ne.symm hy)
    | cons x a =>
      by_cases hxy : x = y
      · subst hxy
        have hab := ih (a := a) fun c hc => hb c (by simp [hc])
        simpa [strncmpFrom, hy, List.cons_prefix_cons] using hab
      · have hne : ¬ (y :: b <+: x :: a) := fun h => hxy (List.cons_prefix_cons.1 h).1.symm
        simpa [strncmpFrom, hxy, hne] using toNat_sub_ne_zero hxy

theorem strncmp_eq_zero (s t : CStr) : strncmp s t t.length = 0 ↔ t.bytes <+: s.bytes :=
  strncmpFrom_eq_zero t.nonzero

end

end Kabanos
