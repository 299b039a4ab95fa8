/-
  The search of `fat_find_file` in a directory.

  `memcmp` asks whether the count of `repe cmpsb` has come down to zero, which it also has when
  the very last byte differs: names are compared in ten of their eleven bytes.
-/
import Kabanos.Fat.Fat
import Kabanos.Lib.Loop

namespace Kabanos

/-! ## Names -/

/-- A name of at most 8 characters, with at most 3 characters after a dot. -/
structure Name83 where
  base : List UInt8
  ext : Option (List UInt8)
  base_length : base.length ≤ 8
  base_dot : 0x2E ∉ base
  ext_length : ∀ e ∈ ext, e.length ≤ 3

/-- The string that is passed to `fat_find_file`. -/
def Name83.text (name : Name83) : List UInt8 := name.base ++ name.ext.elim [] (0x2E :: ·)

/-- The 11 bytes of the name in a directory: in upper case, padded with spaces. -/
def Name83.form (name : Name83) : List UInt8 :=
  (name.base.map toupper).rightpad 8 0x20 ++ ((name.ext.getD []).map toupper).rightpad 3 0x20

/-! ## The entries of a directory -/

/-- The `k`-th entry from the current position on, if the directory has so many. -/
def entryAt (v : FatVolume) : ℕ → FatFileData → Option FatDirent
  | 0, fd => (fatReadEntry v fd).2
  | k + 1, fd => if (fatReadEntry v fd).2 = none then none else entryAt v k (fatReadEntry v fd).1

/-- The first entry with the property. -/
def FirstEntry (v : FatVolume) (fd : FatFileData) (P : FatDirent → Prop) (e : FatDirent) : Prop :=
  ∃ k, entryAt v k fd = some e ∧ P e ∧ ∀ j < k, ∀ e', entryAt v j fd = some e' → ¬ P e'

/-- The entry has the name. -/
def HasName (name : Name83) (e : FatDirent) : Prop := e.take 11 = name.form

/-- The entry has the name but for the last byte. -/
def AlmostHasName (name : Name83) (e : FatDirent) : Prop := e.take 10 = name.form.take 10

/-- **The search is exact**: it finds the first entry with the name, and it fails just when there
    is none in a directory that ends. -/
def FindsExactly (v : FatVolume) (fd : FatFileData) (name : Name83) : Prop :=
  (∀ e, (∃ fd', Yields (fun n => fatFindFile v name.text n fd) (fd', some e)) ↔
    FirstEntry v fd (HasName name) e) ∧
  ((∃ fd', Yields (fun n => fatFindFile v name.text n fd) (fd', none)) ↔
    (∃ k, entryAt v k fd = none) ∧ ∀ e, ¬ FirstEntry v fd (HasName name) e)

section
variable {v : FatVolume} {fd fd' : FatFileData} {P : FatDirent → Prop} {e : FatDirent}
  {name : Name83}

/-! ## Comparing -/

theorem repeCmpsb_eq_zero (p1 p2 : Buf) (n : ℕ) : ∀ i,
    repeCmpsb p1 p2 i (n + 1) = 0 ↔ ∀ j < n, p1 (i + j) = p2 (i + j) := by
  induction n with
  | zero =>
    intro i
    simp [repeCmpsb]
  | succ n ih =>
    intro i
    rw [repeCmpsb]
    split_ifs with h
    · rw [ih (i + 1)]
      constructor
      · rintro hall (_ | j) hj
        · exact h
        · have := hall j (by omega)
          rwa [Nat.add_assoc, Nat.add_comm 1 j] at this
      · intro hall j hj
        have := hall (j + 1) (by omega)
        rwa [Nat.add_assoc, Nat.add_comm 1 j]
    · exact iff_of_false id fun hall => h (hall 0 (Nat.succ_pos n))

/-- **`memcmp`** does not see the last byte. -/
theorem memcmp_eq_zero (p1 p2 : Buf) (n : ℕ) :
    memcmp p1 p2 (n + 1) = 0 ↔ ∀ i < n, p1 i = p2 i := by
  have h := repeCmpsb_eq_zero p1 p2 n 0
  simp only [Nat.zero_add] at h
  rw [← h]
  unfold memcmp
  dsimp only
  split_ifs with h0 h1
  · exact iff_of_true rfl h0
  · exact iff_of_false (by decide) h0
  · exact iff_of_false (by decide) h0

theorem Name83.form_length (name : Name83) : name.form.length = 11 := by
  have h1 := name.base_length
  have h2 : (name.ext.getD []).length ≤ 3 := by
    cases he : name.ext with
    | none => exact Nat.zero_le 3
    | some e => exact name.ext_length e he
  simp [Name83.form]
  omega

theorem getD_rightpad_upper (l : List UInt8) (n i : ℕ) (hi : i < n) :
    ((l.map toupper).rightpad n 0x20).getD i 0 =
      if i < l.length then toupper (l.getD i 0) else 0x20 := by
  rw [List.rightpad, List.getD_eq_getElem?_getD]
  split_ifs with h
  · rw [List.getElem?_append_left (by simpa using h), List.getElem?_map,
      List.getD_eq_getElem?_getD, List.getElem?_eq_getElem h]
    rfl
  · rw [List.getElem?_append_right (by simpa using h), List.getElem?_replicate,
      if_pos (by simp only [List.length_map]; omega)]
    rfl

theorem Name83.form_getD (name : Name83) {i : ℕ} (hi : i < 11) : name.form.getD i 0 =
    if i < 8 then (if i < name.base.length then toupper (name.base.getD i 0) else 0x20)
    else if i - 8 < (name.ext.getD []).length then toupper ((name.ext.getD []).getD (i - 8) 0)
    else 0x20 := by
  have hpad : ((name.base.map toupper).rightpad 8 0x20).length = 8 := by
    simp [name.base_length]
  rw [Name83.form]
  by_cases h8 : i < 8
  · rw [if_pos h8, List.getD_append _ _ _ _ (by omega), getD_rightpad_upper _ _ _ h8]
  · rw [if_neg h8, List.getD_append_right _ _ _ _ (by omega), hpad,
      getD_rightpad_upper _ _ _ (by omega)]

/-- **The name that `fat_find_file` looks for** is the 8.3 form. -/
theorem fatName_eq (name : Name83) {i : ℕ} (hi : i < 11) :
    fatName name.text i = name.form.getD i 0 := by
  have hb := name.base_length
  have hdot : ∀ c ∈ name.base, (c == 0x2E) = false := fun c hc => by
    simpa using fun e : c = 0x2E => name.base_dot (e ▸ hc)
  rw [name.form_getD hi]
  cases he : name.ext with
  | none =>
    have htext : name.text = name.base := by simp [Name83.text, he]
    have hfind : name.base.findIdx? (· == 0x2E) = none := by
      simpa [List.findIdx?_eq_none_iff] using hdot
    simp only [fatName, htext, hfind]
    rw [List.take_of_length_le (by omega : name.base.length ≤ 11),
      List.take_of_length_le (by omega : name.base.length ≤ 8)]
    simp only [copyUpper, Nat.zero_le, true_and, Nat.zero_add, Nat.sub_zero, if_pos hi,
      Option.getD_none, List.length_nil, Nat.not_lt_zero, if_false]
    by_cases h8 : i < 8
    · rw [if_pos h8]
    · rw [if_neg h8, if_neg (by omega)]
  | some x =>
    have hx : x.length ≤ 3 := name.ext_length x he
    have htext : name.text = name.base ++ 0x2E :: x := by simp [Name83.text, he]
    have hfind : (name.base ++ 0x2E :: x).findIdx? (· == 0x2E) = some name.base.length := by
      rw [List.findIdx?_append, List.findIdx?_eq_none_iff.2 hdot]
      simp [List.findIdx?_cons]
    simp only [fatName, htext, hfind]
    have hdrop : (name.base ++ 0x2E :: x).drop (name.base.length + 1) = x := by
      rw [← List.drop_drop, List.drop_left]
      rfl
    rw [List.take_left, List.take_of_length_le hb, if_pos (by omega), hdrop,
      List.take_of_length_le hx]
    simp only [copyUpper, Nat.zero_le, true_and, Nat.zero_add, Nat.sub_zero, if_pos hi,
      Option.getD_some]
    by_cases h8 : i < 8
    · rw [if_pos h8, if_neg (by omega)]
    · rw [if_neg h8]
      by_cases hext : i - 8 < x.length
      · rw [if_pos hext, if_pos (by omega)]
      · rw [if_neg hext, if_neg (by omega), if_neg (by omega)]

/-- The comparison of `fat_find_file` -/
theorem memcmp_fatName (name : Name83) (e : FatDirent) (he : e.length = 32) :
    memcmp (fatName name.text) (fun i => e.getD i 0) 11 = 0 ↔ AlmostHasName name e := by
  have hlen := name.form_length
  rw [memcmp_eq_zero]
  constructor
  · intro h
    refine List.ext_getElem (by simp [he, hlen]) fun i h1 h2 => ?_
    have hi : i < 10 := by
      rw [List.length_take] at h1
      omega
    have := h i hi
    rw [fatName_eq name (by omega), List.getD_eq_getElem _ _ (by omega),
      List.getD_eq_getElem _ _ (by omega)] at this
    rw [List.getElem_take, List.getElem_take, this]
  · intro h i hi
    rw [fatName_eq name (by omega)]
    have := congrArg (fun l : List UInt8 => l.getD i 0) h
    simp only [List.getD_eq_getElem?_getD, List.getElem?_take, if_pos hi] at this
    rw [List.getD_eq_getElem?_getD, List.getD_eq_getElem?_getD]
    exact this.symm

/-! ## Searching -/

theorem fatReadEntry_length (h : fatReadEntry v fd = (fd', some e)) :
    e.length = 32 := by
  have h' : (if (fatRead v fd 32).2.length = 32 then some (fatRead v fd 32).2 else none) = some e :=
    congrArg Prod.snd h
  by_cases h32 : (fatRead v fd 32).2.length = 32
  · rw [if_pos h32] at h'
    exact Option.some.inj h' ▸ h32
  · rw [if_neg h32] at h'
    cases h'

theorem entryAt_zero_some (h : fatReadEntry v fd = (fd', some e)) :
    entryAt v 0 fd = some e := congrArg Prod.snd h

theorem entryAt_succ_some (h : fatReadEntry v fd = (fd', some e)) (k : ℕ) :
    entryAt v (k + 1) fd = entryAt v k fd' := by
  rw [entryAt, h, if_neg (by simp)]

theorem entryAt_none (h : fatReadEntry v fd = (fd', none)) (k : ℕ) :
    entryAt v k fd = none := by
  cases k with
  | zero => exact congrArg Prod.snd h
  | succ k => rw [entryAt, h, if_pos rfl]

/-- What a search for `P` returns: the first entry with `P`, or nothing in a directory that ends
    without one. -/
def Finds (v : FatVolume) (fd : FatFileData) (P : FatDirent → Prop) (r : Option FatDirent) :
    Prop :=
  r.elim ((∃ k, entryAt v k fd = none) ∧ ∀ k e, entryAt v k fd = some e → ¬ P e)
    (FirstEntry v fd P)

theorem Finds.of_succ {r : Option FatDirent}
    (h : fatReadEntry v fd = (fd', some e)) (hP : ¬ P e) : Finds v fd P r ↔ Finds v fd' P r := by
  have h0 := entryAt_zero_some h
  have hs := entryAt_succ_some h
  cases r with
  | none =>
    constructor
    · rintro ⟨⟨k, hk⟩, hall⟩
      cases k with
      | zero => rw [h0] at hk; cases hk
      | succ k => exact ⟨⟨k, (hs k).symm.trans hk⟩, fun k e he => hall (k + 1) e ((hs k).trans he)⟩
    · rintro ⟨⟨k, hk⟩, hall⟩
      refine ⟨⟨k + 1, (hs k).trans hk⟩, fun k e' he => ?_⟩
      cases k with
      | zero =>
        rw [h0] at he
        cases he
        exact hP
      | succ k => exact hall k e' ((hs k).symm.trans he)
  | some r =>
    constructor
    · rintro ⟨k, hk, hr, hall⟩
      cases k with
      | zero =>
        rw [h0] at hk
        cases hk
        exact absurd hr hP
      | succ k =>
        exact ⟨k, (hs k).symm.trans hk, hr, fun j hj e' he =>
          hall (j + 1) (by omega) e' ((hs j).trans he)⟩
    · rintro ⟨k, hk, hr, hall⟩
      refine ⟨k + 1, (hs k).trans hk, hr, fun j hj e' he => ?_⟩
      cases j with
      | zero =>
        rw [h0] at he
        cases he
        exact hP
      | succ j => exact hall j (by omega) e' ((hs j).symm.trans he)

theorem exists_firstEntry {k : ℕ} (hk : entryAt v k fd = some e) (he : P e) :
    ∃ e', FirstEntry v fd P e' := by
  induction k using Nat.strong_induction_on generalizing e with
  | _ k ih =>
    by_cases h : ∃ j < k, ∃ e', entryAt v j fd = some e' ∧ P e'
    · obtain ⟨j, hj, e', hj', he'⟩ := h
      exact ih j hj hj' he'
    · exact ⟨e, k, hk, he, fun j hj e' hj' he' => h ⟨j, hj, e', hj', he'⟩⟩

theorem FirstEntry.unique {e' : FatDirent} (h : FirstEntry v fd P e) (h' : FirstEntry v fd P e') :
    e = e' := by
  obtain ⟨k, hk, he, hall⟩ := h
  obtain ⟨k', hk', he', hall'⟩ := h'
  rcases lt_trichotomy k k' with hlt | rfl | hlt
  · exact absurd he (hall' k hlt e hk)
  · exact Option.some.inj (hk.symm.trans hk')
  · exact absurd he' (hall k' hlt e' hk')

theorem fatFindFile_succ_none {text : List UInt8}
    (h : fatReadEntry v fd = (fd', none)) (n : ℕ) :
    fatFindFile v text (n + 1) fd = some (fd', none) := by
  rw [fatFindFile, h]

theorem fatFindFile_succ_some {text : List UInt8}
    (h : fatReadEntry v fd = (fd', some e)) (n : ℕ) : fatFindFile v text (n + 1) fd =
      if memcmp (fatName text) (fun i => e.getD i 0) 11 = 0 then some (fd', some e)
      else fatFindFile v text n fd' := by
  rw [fatFindFile, h]

/-- **What `fat_find_file` returns** is what a search for the first ten bytes finds. -/
theorem finds_of_fatFindFile {n : ℕ} {r : FatFileData × Option FatDirent}
    (h : fatFindFile v name.text n fd = some r) : Finds v fd (AlmostHasName name) r.2 := by
  induction n generalizing fd with
  | zero => cases h
  | succ n ih =>
    rcases hr : fatReadEntry v fd with ⟨fd', _ | e⟩
    · rw [fatFindFile_succ_none hr] at h
      cases h
      exact ⟨⟨0, entryAt_none hr 0⟩, fun k e he => by
        rw [entryAt_none hr k] at he
        cases he⟩
    · have hmem := memcmp_fatName name e (fatReadEntry_length hr)
      rw [fatFindFile_succ_some hr] at h
      by_cases h0 : memcmp (fatName name.text) (fun i => e.getD i 0) 11 = 0
      · rw [if_pos h0] at h
        cases h
        exact ⟨0, entryAt_zero_some hr, hmem.1 h0, fun j hj => absurd hj (Nat.not_lt_zero j)⟩
      · rw [if_neg h0] at h
        exact (Finds.of_succ hr (mt hmem.2 h0)).2 (ih h)

theorem yields_stop {text : List UInt8} (h : fatReadEntry v fd = (fd', none)) :
    Yields (fun n => fatFindFile v text n fd) (fd', none) :=
  .succ ⟨0, fun n _ => fatFindFile_succ_none h n⟩

theorem yields_hit (h : fatReadEntry v fd = (fd', some e))
    (hP : AlmostHasName name e) :
    Yields (fun n => fatFindFile v name.text n fd) (fd', some e) :=
  .succ ⟨0, fun n _ => (fatFindFile_succ_some h n).trans
    (if_pos ((memcmp_fatName name e (fatReadEntry_length h)).2 hP))⟩

theorem yields_miss {r : FatFileData × Option FatDirent}
    (h : fatReadEntry v fd = (fd', some e)) (hP : ¬ AlmostHasName name e)
    (hr : Yields (fun n => fatFindFile v name.text n fd') r) :
    Yields (fun n => fatFindFile v name.text n fd) r := by
  obtain ⟨n, hn⟩ := hr
  exact .succ ⟨n, fun m hm => ((fatFindFile_succ_some h m).trans
    (if_neg (mt (memcmp_fatName name e (fatReadEntry_length h)).1 hP))).trans (hn m hm)⟩

/-- **`fat_find_file` returns** if the search ends. -/
theorem yields_fatFindFile {r : Option FatDirent} (h : Finds v fd (AlmostHasName name) r) :
    ∃ fd', Yields (fun n => fatFindFile v name.text n fd) (fd', r) := by
  -- the number of entries before the end of the search
  obtain ⟨k, hk⟩ : ∃ k, entryAt v k fd = r := by
    cases r with
    | none => exact h.1
    | some e => exact h.imp fun k hk => hk.1
  induction k generalizing fd with
  | zero =>
    rcases hr : fatReadEntry v fd with ⟨fd', _ | e⟩
    · obtain rfl : none = r := (entryAt_none hr 0).symm.trans hk
      exact ⟨fd', yields_stop hr⟩
    · obtain rfl : some e = r := (entryAt_zero_some hr).symm.trans hk
      obtain ⟨-, -, hP, -⟩ := h
      exact ⟨fd', yields_hit hr hP⟩
  | succ k ih =>
    rcases hr : fatReadEntry v fd with ⟨fd', _ | e⟩
    · obtain rfl : none = r := (entryAt_none hr (k + 1)).symm.trans hk
      exact ⟨fd', yields_stop hr⟩
    by_cases hP : AlmostHasName name e
    · -- the first entry is the one
      cases r with
      | none => exact absurd hP (h.2 0 e (entryAt_zero_some hr))
      | some e' =>
        have hfirst : FirstEntry v fd (AlmostHasName name) e :=
          ⟨0, entryAt_zero_some hr, hP, fun j hj => absurd hj (Nat.not_lt_zero j)⟩
        obtain rfl : e = e' := hfirst.unique h
        exact ⟨fd', yields_hit hr hP⟩
    · obtain ⟨fd'', hy⟩ :=
        ih ((Finds.of_succ hr hP).1 h) ((entryAt_succ_some hr k).symm.trans hk)
      exact ⟨fd'', yields_miss hr hP hy⟩

theorem yields_fatFindFile_iff {r : Option FatDirent} :
    (∃ fd', Yields (fun n => fatFindFile v name.text n fd) (fd', r)) ↔
      Finds v fd (AlmostHasName name) r := by
  refine ⟨?_, yields_fatFindFile⟩
  rintro ⟨fd', n, hn⟩
  exact finds_of_fatFindFile (hn n le_rfl)

theorem HasName.almost (h : HasName name e) : AlmostHasName name e := by
  rw [AlmostHasName, ← h, List.take_take]
  rfl

/-- The name `KERNEL.BIN`, as the configuration file may write it. -/
def demoName : Name83 where
  base := [0x6B, 0x65, 0x72, 0x6E, 0x65, 0x6C]
  ext := some [0x62, 0x69, 0x6E]
  base_length := by decide
  base_dot := by decide
  ext_length := by decide

/-- The entry of an empty file `KERNEL.BIO`. -/
def demoEntry : FatDirent :=
  [0x4B, 0x45, 0x52, 0x4E, 0x45, 0x4C, 0x20, 0x20, 0x42, 0x49, 0x4F] ++ List.replicate 21 0

/-- A root directory with this entry. -/
def demoDirectory : FatFileData :=
  ⟨fun i => demoEntry.getD i 0, ⟨rootDirectoryHandle, true, 0, 32⟩, true, 19, 19, 0⟩

end

end Kabanos
