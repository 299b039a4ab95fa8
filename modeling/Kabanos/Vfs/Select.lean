/-
  `vfs_find_mount_point` of `vfs.c` on C strings, with `strncmp` and `strcmp` as `string.c`
  computes them.  On the texts of `Kabanos.Vfs.Path` it is `vfsFindMountPoint`.
-/
import Kabanos.Lib.Strings
import Kabanos.Vfs.Mounts

namespace Kabanos

/-- What `vfs_find_mount_point` uses of `mount_point_t`: `char path[256]` and what is mounted
    there. -/
structure MountRecord (α : Type*) where
  path : CStr
  path_lt : path.length < pathLenMax
  fsRoot : α

def slashStr : CStr := ⟨[47], by simp⟩

/-- The variables of `vfs_find_mount_point` in its loop. -/
structure Best (α : Type*) where
  bestMatch : Option (MountRecord α)
  bestMatchLen : ℕ

section
variable {α : Type*}

/-- The test for a mount path that the path begins with. -/
def mountMatches (path mountPath : CStr) : Prop :=
  strncmp path mountPath mountPath.length = 0 ∧
    (path.get mountPath.length = 47 ∨ path.get mountPath.length = 0 ∨
      strcmp mountPath slashStr = 0)

instance (path mountPath : CStr) : Decidable (mountMatches path mountPath) :=
  inferInstanceAs (Decidable (_ ∧ _))

/-- One round of the loop of `vfs_find_mount_point`. -/
def findMountRound (path : CStr) (best : Best α) (mount : MountRecord α) : Best α :=
  let mountLen := mount.path.length
  if mountMatches path mount.path then
    if best.bestMatchLen < mountLen then ⟨some mount, mountLen⟩ else best
  else best

def findMountPoint (mounts : List (MountRecord α)) (path : CStr) : Option (MountRecord α) :=
  (mounts.foldl (findMountRound path) ⟨none, 0⟩).bestMatch

/-- **A mount path that covers `path`**: the root, the path itself, or a beginning of it that is
    followed by a slash. -/
def MountCovers (mountPath path : CStr) : Prop :=
  mountPath.bytes ≠ [] ∧
    (mountPath.bytes = [47] ∨ mountPath.bytes = path.bytes ∨
      mountPath.bytes ++ [47] <+: path.bytes)

instance (mountPath path : CStr) : Decidable (MountCovers mountPath path) :=
  inferInstanceAs (Decidable (_ ∧ _))

/-! ## The test -/

section
variable {path m : CStr}

theorem CStr.get_of_append {l : List UInt8} (h : path.bytes = m.bytes ++ l) :
    path.get m.length = l.headD 0 := by
  rw [CStr.get, CStr.length, h, List.getD_append_right _ _ _ _ le_rfl, Nat.sub_self]
  cases l <;> rfl

theorem mountMatches_iff (hp : path.get 0 = 47) (hm : 0 < m.length) :
    mountMatches path m ↔ MountCovers m path := by
  have hne : m.bytes ≠ [] := List.length_pos_iff.1 hm
  rw [mountMatches, strncmp_eq_zero, strcmp_eq_zero]
  constructor
  · rintro ⟨⟨l, hl⟩, h⟩
    refine ⟨hne, ?_⟩
    rw [CStr.get_of_append hl.symm] at h
    rcases h with h | h | h
    · cases l with
      | nil => cases h
      | cons y l =>
        obtain rfl : y = 47 := h
        exact Or.inr (Or.inr ⟨l, by simpa using hl⟩)
    · cases l with
      | nil => exact Or.inr (Or.inl (by simpa using hl))
      | cons y l => exact absurd h (path.nonzero y (by rw [← hl]; simp))
    · exact Or.inl h
  · rintro ⟨-, h | h | ⟨l, hl⟩⟩
    · refine ⟨?_, Or.inr (Or.inr h)⟩
      rw [h]
      cases hb : path.bytes with
      | nil => simp [CStr.get, hb] at hp
      | cons x l =>
        obtain rfl : x = 47 := by simpa [CStr.get, hb] using hp
        exact ⟨l, rfl⟩
    · refine ⟨h ▸ List.prefix_rfl, Or.inr (Or.inl ?_)⟩
      rw [CStr.length, h]
      exact path.get_length
    · have hl' : path.bytes = m.bytes ++ 47 :: l := by simpa using hl.symm
      refine ⟨⟨_, hl'.symm⟩, Or.inl ?_⟩
      rw [CStr.get_of_append hl']
      rfl

end

/-! ## The loop -/

/-- **The best match of a list**: an entry that covers the path and is as long as any other
    one, or nothing at all if there is no such entry. -/
structure BestOf (path : CStr) (mounts : List (MountRecord α)) (best : Best α) : Prop where
  len : best.bestMatchLen = (best.bestMatch.map (·.path.length)).getD 0
  found : ∀ m, best.bestMatch = some m → m ∈ mounts ∧ MountCovers m.path path
  longest : ∀ m ∈ mounts, MountCovers m.path path → m.path.length ≤ best.bestMatchLen

variable {path : CStr} {mounts : List (MountRecord α)} {best : Best α}

theorem MountCovers.pos {m : CStr} (h : MountCovers m path) : 0 < m.length :=
  List.length_pos_iff.2 h.1

theorem BestOf.round (h : BestOf path mounts best) (hp : path.get 0 = 47) (mount : MountRecord α) :
    BestOf path (mounts ++ [mount]) (findMountRound path best mount) := by
  have hle : ∀ n, best.bestMatchLen ≤ n → (MountCovers mount.path path → mount.path.length ≤ n) →
      ∀ m ∈ mounts ++ [mount], MountCovers m.path path → m.path.length ≤ n := by
    intro n hn hmount m hm hc
    rcases List.mem_append.1 hm with hm | hm
    · exact (h.longest m hm hc).trans hn
    · rw [List.mem_singleton.1 hm] at hc ⊢
      exact hmount hc
  have hstay : (MountCovers mount.path path → mount.path.length ≤ best.bestMatchLen) →
      BestOf path (mounts ++ [mount]) best := fun hmount =>
    ⟨h.len, fun m hm => ⟨List.mem_append_left _ (h.found m hm).1, (h.found m hm).2⟩,
      hle _ le_rfl hmount⟩
  simp only [findMountRound]
  split_ifs with hc hlt
  · have hcov := (mountMatches_iff hp (Nat.zero_lt_of_lt hlt)).1 hc
    refine ⟨rfl, ?_, hle _ hlt.le fun _ => le_rfl⟩
    rintro m ⟨⟩
    exact ⟨List.mem_append_right _ (List.mem_singleton_self _), hcov⟩
  · exact hstay fun _ => not_lt.1 hlt
  · exact hstay fun hcov => absurd ((mountMatches_iff hp hcov.pos).2 hcov) hc

theorem BestOf.foldl (h : BestOf path mounts best) (hp : path.get 0 = 47)
    (rest : List (MountRecord α)) :
    BestOf path (mounts ++ rest) (rest.foldl (findMountRound path) best) := by
  induction rest generalizing mounts best with
  | nil => simpa using h
  | cons a rest ih => simpa using ih (h.round hp a)

theorem bestOf_findMount (hp : path.get 0 = 47) (mounts : List (MountRecord α)) :
    BestOf path mounts (mounts.foldl (findMountRound path) ⟨none, 0⟩) := by
  have h0 : BestOf path ([] : List (MountRecord α)) ⟨none, 0⟩ :=
    ⟨rfl, nofun, nofun⟩
  simpa using h0.foldl hp mounts

/-! ## Texts -/

def byteChar (c : UInt8) : Char := Char.ofNat c.toNat

theorem byteChar_injective : Function.Injective byteChar := by
  intro x y h
  have hx : ∀ c : UInt8, (byteChar c).toNat = c.toNat := by
    intro c
    have hc := c.toNat_lt
    rw [byteChar, Char.toNat_ofNat, if_pos (Or.inl (by omega))]
  exact UInt8.toNat_inj.1 (by rw [← hx x, ← hx y, h])

/-- A C string as a text. -/
def CStr.text (s : CStr) : Text := s.bytes.map byteChar

/-- A mount point with its path as a text. -/
def MountRecord.point (m : MountRecord α) : MountPoint α := ⟨m.path.text, m.fsRoot⟩

theorem CStr.text_length (s : CStr) : s.text.length = s.length := List.length_map _

theorem mountMatches_text (path m : CStr) :
    (m.text <+: path.text ∧ ((path.text.drop m.text.length).head? = some '/' ∨
      (path.text.drop m.text.length).head? = none ∨ m.text = ['/'])) ↔ mountMatches path m := by
  have hpre : m.text <+: path.text ↔ m.bytes <+: path.bytes :=
    List.prefix_map_iff_of_injective byteChar_injective
  have hroot : m.text = ['/'] ↔ m.bytes = slashStr.bytes :=
    (List.map_injective_iff.2 byteChar_injective).eq_iff (b := [47])
  rw [mountMatches, strncmp_eq_zero, strcmp_eq_zero, hpre, hroot]
  refine and_congr_right ?_
  rintro ⟨l, hl⟩
  have htext : path.text = m.text ++ l.map byteChar := by
    rw [CStr.text, ← hl, List.map_append]
    rfl
  have hdrop : path.text.drop m.text.length = l.map byteChar := by
    rw [htext, List.drop_left]
  rw [hdrop, CStr.get_of_append hl.symm, ← or_assoc, ← or_assoc]
  refine or_congr_left ?_
  cases l with
  | nil => simp
  | cons y l =>
    have hy : y ≠ 0 := path.nonzero y (by rw [← hl]; simp)
    have h47 : byteChar y = '/' ↔ y = 47 := byteChar_injective.eq_iff (b := 47)
    simp [hy, h47]

theorem betterMount_point (hlen : best.bestMatchLen = (best.bestMatch.map (·.path.length)).getD 0)
    (mount : MountRecord α) :
    betterMount path.text (best.bestMatch.map MountRecord.point) mount.point =
      (findMountRound path best mount).bestMatch.map MountRecord.point := by
  have hbest : ((best.bestMatch.map MountRecord.point).map (·.path.length)).getD 0 =
      best.bestMatchLen := by
    rw [hlen, Option.map_map]
    simp only [Function.comp_def, MountRecord.point, CStr.text_length]
  have htest := mountMatches_text path mount.path
  simp only [betterMount, findMountRound, hbest, ← and_assoc]
  by_cases hm : mountMatches path mount.path
  · have hl : mount.point.path.length = mount.path.length := mount.path.text_length
    rw [if_pos hm]
    by_cases hlt : best.bestMatchLen < mount.path.length
    · rw [if_pos hlt, if_pos ⟨htest.2 hm, hl ▸ hlt⟩]
      rfl
    · rw [if_neg hlt, if_neg fun h => hlt (hl ▸ h.2)]
  · rw [if_neg hm, if_neg fun h => hm (htest.1 h.1)]

/-- **On the texts of the paths, the loop is `vfsFindMountPoint`.** -/
theorem findMountPoint_text (mounts : List (MountRecord α)) (path : CStr) :
    vfsFindMountPoint (mounts.map MountRecord.point) path.text =
      (findMountPoint mounts path).map MountRecord.point := by
  have hfold : ∀ (mounts : List (MountRecord α)) (best : Best α),
      best.bestMatchLen = (best.bestMatch.map (·.path.length)).getD 0 →
      (mounts.map MountRecord.point).foldl (betterMount path.text)
          (best.bestMatch.map MountRecord.point) =
        (mounts.foldl (findMountRound path) best).bestMatch.map MountRecord.point := by
    intro mounts
    induction mounts with
    | nil => intro best _; rfl
    | cons a l ih =>
      intro best hlen
      rw [List.map_cons, List.foldl_cons, List.foldl_cons, betterMount_point hlen]
      refine ih _ ?_
      simp only [findMountRound]
      split_ifs
      · rfl
      · exact hlen
      · exact hlen
  rw [vfsFindMountPoint_eq, findMountPoint]
  exact hfold mounts ⟨none, 0⟩ rfl

/-- **Mount selection**: on an absolute path, `vfs_find_mount_point` returns nothing iff no
    mount path covers it, and otherwise one of the longest that do. -/
theorem find_mount_point_longest (mounts : List (MountRecord α)) (path : CStr)
    (habs : path.get 0 = 47) :
    (findMountPoint mounts path = none ↔ ∀ m ∈ mounts, ¬ MountCovers m.path path) ∧
    ∀ m, findMountPoint mounts path = some m →
      m ∈ mounts ∧ MountCovers m.path path ∧
        ∀ m' ∈ mounts, MountCovers m'.path path → m'.path.length ≤ m.path.length := by
  have h := bestOf_findMount habs mounts
  refine ⟨⟨fun hnone m hm hc => ?_, fun hnone => ?_⟩, fun m hm => ?_⟩
  · have hlen := h.len
    have hlt := hc.pos.trans_le (h.longest m hm hc)
    rw [findMountPoint] at hnone
    rw [hlen, hnone] at hlt
    exact absurd hlt (lt_irrefl _)
  · rw [findMountPoint, Option.eq_none_iff_forall_ne_some]
    intro m hm
    exact hnone m (h.found m hm).1 (h.found m hm).2
  · rw [findMountPoint] at hm
    have hlen := h.len
    rw [hm] at hlen
    refine ⟨(h.found m hm).1, (h.found m hm).2, fun m' hm' hc => ?_⟩
    have hle := h.longest m' hm' hc
    rw [hlen] at hle
    exact hle

end

/-- The path `/mnt2`, and file systems mounted at `/mnt` and `/`. -/
def mnt2Str : CStr := ⟨[47, 109, 110, 116, 50], by simp⟩
def mntRecords : List (MountRecord ℕ) :=
  [⟨⟨[47, 109, 110, 116], by simp⟩, by decide, 1⟩, ⟨slashStr, by decide, 0⟩]

/-- `/mnt2` is on the root file system, not on the one mounted at `/mnt`. -/
theorem find_mount_point_longest_mnt : (findMountPoint mntRecords mnt2Str).map (·.fsRoot) = some 0 ∧
    ∀ m, findMountPoint mntRecords mnt2Str = some m → MountCovers m.path mnt2Str :=
  ⟨by decide, fun m hm =>
    ((find_mount_point_longest mntRecords mnt2Str (by decide)).2 m hm).2.1⟩

end Kabanos
