/-
  `cmdline_get_arg`: the value of a key on the kernel command line.

  The command line is scanned for a position at its beginning or behind a space where the key
  and an equals sign stand.  That is the first of its tokens that begins with them.
-/
import Kabanos.Lib.Strings
import Kabanos.Lib.Tokens

namespace Kabanos

/-- `strcspn(s, reject)` -/
def strcspn : List UInt8 → List UInt8 → ℕ
  | [], _ => 0
  | c :: s, reject => if c ∈ reject then 0 else strcspn s reject + 1

/-- `cmdline_get_arg`: where the value begins, and `val_len`. -/
def cmdlineGetArg (cmdline key : CStr) : Option (ℕ × ℕ) :=
  let keyLen := key.length
  -- `while (*p)`: the first position that matches
  ((List.range cmdline.length).find? fun p =>
    (p == 0 || cmdline.get (p - 1) == 32) &&
      strncmpFrom keyLen (cmdline.bytes.drop p) key.bytes == 0 &&
      cmdline.get (p + keyLen) == 61).map fun p =>
  (p + keyLen + 1, strcspn (cmdline.bytes.drop (p + keyLen + 1)) [32])

/-- The tokens of a command line. -/
def CStr.words (s : CStr) : List (List UInt8) := tokens (· == 32) s.bytes

section
variable {cmdline key : CStr} {p : ℕ}

theorem strcspn_eq (s reject : List UInt8) :
    strcspn s reject = (s.takeWhile fun c => !decide (c ∈ reject)).length := by
  induction s with
  | nil => rfl
  | cons c s ih =>
    rw [strcspn, List.takeWhile_cons]
    by_cases hc : c ∈ reject
    · simp [hc]
    · simp [hc, ih]

theorem CStr.get_add (s : CStr) (p i : ℕ) : s.get (p + i) = (s.bytes.drop p).getD i 0 := by
  rw [get, List.getD_eq_getElem?_getD, List.getD_eq_getElem?_getD, List.getElem?_drop]

theorem key_at_iff (cmdline key : CStr) (p : ℕ) :
    (strncmpFrom key.length (cmdline.bytes.drop p) key.bytes == 0 &&
      cmdline.get (p + key.length) == 61) =
        (key.bytes ++ [61]).isPrefixOf (cmdline.bytes.drop p) := by
  rw [Bool.eq_iff_iff, Bool.and_eq_true, beq_iff_eq, beq_iff_eq, List.isPrefixOf_iff_prefix,
    CStr.length, strncmpFrom_eq_zero key.nonzero, CStr.get_add]
  constructor
  · rintro ⟨⟨r, hr⟩, h⟩
    rw [← hr] at h ⊢
    rw [List.getD_append_right _ _ _ _ le_rfl, Nat.sub_self] at h
    cases r with
    | nil => exact absurd h (by decide)
    | cons c r =>
      obtain rfl : c = 61 := h
      exact ⟨r, by simp⟩
  · rintro ⟨r, hr⟩
    rw [← hr]
    refine ⟨⟨61 :: r, by simp⟩, ?_⟩
    rw [List.append_assoc, List.getD_append_right _ _ _ _ le_rfl, Nat.sub_self]
    rfl

theorem begins_at_iff (hp : p < cmdline.length) :
    (p == 0 || cmdline.get (p - 1) == 32) = beginsPiece (· == 32) true cmdline.bytes p := by
  cases p with
  | zero => rfl
  | succ p =>
    have hlt : p < cmdline.bytes.length := by
      rw [CStr.length] at hp
      omega
    simp [beginsPiece, CStr.get, hlt]

/-- **The value of a key**: `cmdline_get_arg` returns one just if some token is the key followed
    by an equals sign and more, and it is the rest of the first such token. -/
theorem cmdline_get_arg_tokens (cmdline key : CStr) (hkey : (32 : UInt8) ∉ key.bytes) :
    ((cmdlineGetArg cmdline key).isSome ↔ ∃ t ∈ cmdline.words, key.bytes ++ [61] <+: t) ∧
    ∀ start len, cmdlineGetArg cmdline key = some (start, len) →
      start + len ≤ cmdline.length ∧ cmdline.words.find? (key.bytes ++ [61]).isPrefixOf =
        some (key.bytes ++ [61] ++ (cmdline.bytes.drop start).take len) := by
  have hsep : ∀ c ∈ key.bytes ++ [61], (c == (32 : UInt8)) = false := by
    intro c hc
    rw [beq_eq_false_iff_ne]
    rintro rfl
    rcases List.mem_append.1 hc with hc | hc
    · exact hkey hc
    · exact absurd (List.mem_singleton.1 hc) (by decide)
  have htok := find_token (by simp) hsep cmdline.bytes
  have hscan : cmdlineGetArg cmdline key = ((List.range cmdline.length).find? fun p =>
      beginsPiece (· == 32) true cmdline.bytes p &&
        (key.bytes ++ [61]).isPrefixOf (cmdline.bytes.drop p)).map fun p =>
      (p + key.length + 1, strcspn (cmdline.bytes.drop (p + key.length + 1)) [32]) := by
    refine congrArg (Option.map _) (List.find?_congr fun p hp => ?_)
    rw [Bool.and_assoc, key_at_iff, begins_at_iff (List.mem_range.1 hp)]
  rw [hscan]
  constructor
  · rw [Option.isSome_map, CStr.words, ← Option.isSome_map, CStr.length, htok, List.find?_isSome]
    simp only [List.isPrefixOf_iff_prefix]
  · intro start len h
    obtain ⟨p, hp, e⟩ := Option.map_eq_some_iff.1 h
    cases e
    rw [show cmdline.bytes.length = cmdline.length from rfl, hp, Option.map_some] at htok
    -- the token is the key, the sign, and what follows up to the next space
    have hpre := List.find?_some hp
    rw [Bool.and_eq_true, List.isPrefixOf_iff_prefix] at hpre
    obtain ⟨r, hr⟩ := hpre.2
    have hlen : (key.bytes ++ [61]).length = key.length + 1 := by simp [CStr.length]
    have hrest : cmdline.bytes.drop (p + key.length + 1) = r := by
      rw [Nat.add_assoc, ← List.drop_drop, ← hr, ← hlen, List.drop_left]
    have hval : strcspn r [32] = (r.takeWhile fun c => !(c == 32)).length := by
      rw [strcspn_eq]
      simp only [List.mem_singleton]
      rfl
    have hbound : (cmdline.bytes.drop p).length = key.length + 1 + r.length := by
      rw [← hr, List.length_append, hlen]
    rw [hrest, hval]
    have hpiece : (r.takeWhile fun c => !(c == 32)) <+: r := List.takeWhile_prefix _
    constructor
    · have hle := hpiece.length_le
      rw [List.length_drop] at hbound
      simp only [CStr.length] at hbound ⊢
      omega
    · rw [CStr.words, ← htok, ← hr, List.takeWhile_append_of_pos fun c hc => by rw [hsep c hc]; rfl,
        ← List.prefix_iff_eq_take.1 hpiece]

/-- The command line `quiet root=hd0` -/
def demoCmdline : CStr :=
  ⟨[113, 117, 105, 101, 116, 32, 114, 111, 111, 116, 61, 104, 100, 48], by simp⟩

/-- The key `root` -/
theorem cmdline_get_arg_root : (cmdlineGetArg demoCmdline ⟨[114, 111, 111, 116], by simp⟩).isSome :=
  (cmdline_get_arg_tokens demoCmdline ⟨[114, 111, 111, 116], by simp⟩ (by decide)).1.2
    ⟨[114, 111, 111, 116, 61, 104, 100, 48], by decide +kernel, by decide +kernel⟩

end

end Kabanos
