/-
  The mount table: `vfs_mount`, `vfs_umount` and `vfs_remove_mount_point` of `vfs.c`.

  A superblock is a number, which also stands for its root vnode in the mount table;
  `vfs_mount` takes a new one.  `killed` lists the superblocks that were handed to `kill_sb`.
-/
import Kabanos.Lib.Runs
import Kabanos.Vfs.Path

namespace Kabanos

/-- The mount table, the superblocks that are gone, and the next new superblock. -/
structure Mounts where
  table : List (MountPoint ℕ)
  killed : List ℕ
  nextSb : ℕ

/-- What `vfs_mount` needs besides its arguments: the device and the driver are there, memory
    for both records, and `fill_sb` does not fail. -/
structure MountEnv where
  hasDev : Bool
  hasFsType : Bool
  hasMem : Bool
  fills : Bool

def vfsMount (s : Mounts) (env : MountEnv) (targetPath : Text) : Mounts × Int :=
  if !env.hasDev then (s, -19)
  else if !env.hasFsType then (s, -19)
  else if !env.hasMem then (s, -12)
  else if !env.fills then (s, -5)
  else
    ({ s with
      table := ⟨targetPath.take (pathLenMax - 1), s.nextSb⟩ :: s.table
      nextSb := s.nextSb + 1 }, 0)

def vfsRemoveMountPoint (table : List (MountPoint ℕ)) (path : Text) : List (MountPoint ℕ) :=
  table.eraseP fun mount => mount.path = path

/-- The superblock that `vfs_umount` kills; `base` is the one of the base node.  If nothing is
    found, a null pointer is used. -/
def umountSb (s : Mounts) (target : Text) (base : Option ℕ) : Option ℕ :=
  match base with
  | some sb => some sb
  | none => (vfsFindMountPoint s.table target).map MountPoint.fsRoot

def vfsUmount (s : Mounts) (target : Text) (base : Option ℕ) : Option (Mounts × Int) :=
  (umountSb s target base).map fun sb =>
    ({ s with table := vfsRemoveMountPoint s.table target, killed := sb :: s.killed }, 0)

/-- Unmounting affects its target only: it kills the superblock of an entry for the target
    and removes that entry, or there is none and it fails without a change. -/
def Unmounts (s : Mounts) (target : Text) (r : Option (Mounts × Int)) : Prop :=
  (∃ l₁ m l₂, s.table = l₁ ++ m :: l₂ ∧ m.path = target ∧
    r = some ({ s with table := l₁ ++ l₂, killed := m.fsRoot :: s.killed }, 0)) ∨
  (∀ m ∈ s.table, m.path ≠ target) ∧ ∃ code < 0, r = some (s, code)

def Mounts.entry (s : Mounts) (target : Text) : Option (MountPoint ℕ) :=
  s.table.find? fun mount => mount.path = target

/-- The target is mounted, and the base node, if there is one, lies on its file system. -/
def OnTarget (s : Mounts) (target : Text) (base : Option ℕ) : Prop :=
  ∃ m, s.entry target = some m ∧
    match base with
    | some sb => sb = m.fsRoot
    | none => target ≠ []

section
variable {α : Type*} {mounts : List (MountPoint α)} {path : Text}

/-- One round of `vfs_find_mount_point`. -/
def betterMount (path : Text) (best : Option (MountPoint α)) (mount : MountPoint α) :
    Option (MountPoint α) :=
  let after := (path.drop mount.path.length).head?
  if mount.path <+: path ∧ (after = some '/' ∨ after = none ∨ mount.path = ['/']) ∧
      (best.map (·.path.length)).getD 0 < mount.path.length then some mount
  else best

theorem vfsFindMountPoint_eq (mounts : List (MountPoint α)) (path : Text) :
    vfsFindMountPoint mounts path = mounts.foldl (betterMount path) none := rfl

theorem betterMount_whole {m : MountPoint α} (hm : m.path = path) (mount : MountPoint α) :
    betterMount path (some m) mount = some m := by
  refine if_neg ?_
  rintro ⟨h, -, hlt⟩
  have := h.length_le
  simp only [Option.map_some, Option.getD_some, hm] at hlt
  omega

theorem foldl_betterMount_whole {m : MountPoint α} (hm : m.path = path)
    (mounts : List (MountPoint α)) : mounts.foldl (betterMount path) (some m) = some m := by
  induction mounts with
  | nil => rfl
  | cons a l ih => rw [List.foldl_cons, betterMount_whole hm, ih]

/-- **A path that is mounted is found.** -/
theorem foldl_betterMount_find {m : MountPoint α} {best : Option (MountPoint α)}
    (hb : (best.map (·.path.length)).getD 0 < path.length)
    (h : (mounts.find? fun mount => mount.path = path) = some m) :
    mounts.foldl (betterMount path) best = some m := by
  induction mounts generalizing best with
  | nil => cases h
  | cons a l ih =>
    rw [List.foldl_cons]
    by_cases ha : a.path = path
    · rw [List.find?_cons_of_pos (by simpa using ha)] at h
      obtain rfl := Option.some.inj h
      have e : betterMount path best a = some a := by
        refine if_pos ⟨ha ▸ List.prefix_rfl, Or.inr (Or.inl ?_), ha ▸ hb⟩
        rw [ha, List.drop_length]
        rfl
      rw [e, foldl_betterMount_whole ha]
    · rw [List.find?_cons_of_neg (by simpa using ha)] at h
      refine ih ?_ h
      unfold betterMount
      simp only
      split_ifs with hc
      · -- a proper beginning of the path
        refine lt_of_le_of_ne hc.1.length_le fun e => ha ?_
        exact hc.1.eq_of_length e
      · exact hb

theorem vfsFindMountPoint_empty (mounts : List (MountPoint α)) :
    vfsFindMountPoint mounts [] = none := by
  rw [vfsFindMountPoint_eq]
  induction mounts with
  | nil => rfl
  | cons a l ih =>
    have e : betterMount [] none a = none := by
      refine if_neg ?_
      rintro ⟨h, -, hlt⟩
      rw [List.prefix_nil.1 h] at hlt
      exact absurd hlt (lt_irrefl _)
    rw [List.foldl_cons, e, ih]

end

section
variable {s : Mounts} {target : Text} {base : Option ℕ}

theorem find_of_eraseP {p : MountPoint ℕ → Bool} {l1 l2 : List (MountPoint ℕ)} {m : MountPoint ℕ}
    (hm : p m) (h : (l1 ++ m :: l2).eraseP p = l1 ++ l2) : (l1 ++ m :: l2).find? p = some m := by
  induction l1 with
  | nil => simp [hm]
  | cons a l ih =>
    by_cases ha : p a
    · rw [List.cons_append, List.eraseP_cons_of_pos ha] at h
      rw [List.cons_append, List.find?_cons_of_pos ha]
      have hp : (m :: (l ++ l2)).Perm (a :: (l ++ l2)) :=
        List.perm_middle.symm.trans (List.Perm.of_eq h)
      have hc := Multiset.coe_eq_coe.2 hp
      rw [← Multiset.cons_coe, ← Multiset.cons_coe, Multiset.cons_inj_left] at hc
      rw [hc]
    · rw [List.cons_append, List.eraseP_cons_of_neg ha, List.cons_append, List.cons.injEq] at h
      rw [List.cons_append, List.find?_cons_of_neg ha]
      exact ih h.2

theorem OnTarget.umountSb (h : OnTarget s target base) :
    ∃ m, s.entry target = some m ∧ Kabanos.umountSb s target base = some m.fsRoot := by
  obtain ⟨m, hm, hb⟩ := h
  refine ⟨m, hm, ?_⟩
  cases base with
  | some sb => exact congrArg some hb
  | none =>
    have e : vfsFindMountPoint s.table target = some m :=
      foldl_betterMount_find (List.length_pos_of_ne_nil hb) hm
    rw [Kabanos.umountSb, e]
    rfl

theorem umountSb_empty (s : Mounts) : umountSb s [] none = none := by
  rw [umountSb, vfsFindMountPoint_empty]
  rfl

/-- **What `vfs_umount` does to the mount table.** -/
theorem unmounts_iff (s : Mounts) (target : Text) (base : Option ℕ) :
    Unmounts s target (vfsUmount s target base) ↔ OnTarget s target base := by
  constructor
  · rintro (⟨l1, m, l2, ht, hp, hr⟩ | ⟨-, code, hc, hr⟩)
    · obtain ⟨sb, hsb, e⟩ := Option.map_eq_some_iff.1 hr
      simp only [Prod.mk.injEq, Mounts.mk.injEq, List.cons.injEq, and_true] at e
      obtain ⟨he, rfl⟩ := e
      refine ⟨m, ?_, ?_⟩
      · rw [Mounts.entry, ht]
        rw [vfsRemoveMountPoint, ht] at he
        exact find_of_eraseP (by simpa using hp) he
      · cases base with
        | some sb => exact Option.some.inj hsb
        | none =>
          rintro rfl
          rw [umountSb_empty] at hsb
          cases hsb
    · obtain ⟨sb, -, e⟩ := Option.map_eq_some_iff.1 hr
      simp only [Prod.mk.injEq] at e
      omega
  · intro h
    obtain ⟨m, hm, hsb⟩ := h.umountSb
    obtain ⟨hp, l1, l2, ht, hl⟩ := List.find?_eq_some_iff_append.1 hm
    refine Or.inl ⟨l1, m, l2, ht, by simpa using hp, ?_⟩
    have he : vfsRemoveMountPoint s.table target = l1 ++ l2 := by
      rw [vfsRemoveMountPoint, ht, List.eraseP_append_right _ fun b hb => by simpa using hl b hb,
        List.eraseP_cons_of_pos (by simpa using hp)]
    rw [vfsUmount, hsb, he]
    rfl

/-! ## Runs -/

/-- A call on the mount table. -/
inductive MountCall where
  | mount (env : MountEnv) (targetPath : Text)
  | umount (target : Text) (base : Option ℕ)

def MountCall.run : MountCall → Mounts → Mounts
  | .mount env targetPath, s => (vfsMount s env targetPath).1
  | .umount target base, s => ((vfsUmount s target base).map Prod.fst).getD s

/-- Every call of `vfs_umount` is made on its target. -/
def MountCall.Ok (s : Mounts) : MountCall → Prop
  | .mount _ _ => True
  | .umount target base => OnTarget s target base

def Mounts.start : Mounts := ⟨[], [], 0⟩

/-- The entries have superblocks of their own, which have not been killed. -/
structure Mounts.Live (s : Mounts) : Prop where
  nodup : (s.table.map MountPoint.fsRoot).Nodup
  live : ∀ m ∈ s.table, m.fsRoot ∉ s.killed
  table_lt : ∀ m ∈ s.table, m.fsRoot < s.nextSb
  killed_lt : ∀ sb ∈ s.killed, sb < s.nextSb

theorem Mounts.Live.mount (h : s.Live) (env : MountEnv) (targetPath : Text) :
    (vfsMount s env targetPath).1.Live := by
  unfold vfsMount
  split_ifs
  iterate 4 exact h
  refine ⟨?_, ?_, ?_, fun sb hsb => Nat.lt_succ_of_lt (h.killed_lt sb hsb)⟩
  · refine List.nodup_cons.2 ⟨fun hm => ?_, h.nodup⟩
    obtain ⟨m, hm, e⟩ := List.mem_map.1 hm
    exact absurd (h.table_lt m hm) (by simp [e])
  · intro m hm hk
    rcases List.mem_cons.1 hm with rfl | hm
    · exact absurd (h.killed_lt _ hk) (lt_irrefl _)
    · exact h.live m hm hk
  · intro m hm
    rcases List.mem_cons.1 hm with rfl | hm
    · exact Nat.lt_succ_self _
    · exact Nat.lt_succ_of_lt (h.table_lt m hm)

theorem Mounts.Live.umount (h : s.Live) {l1 l2 : List (MountPoint ℕ)} {m : MountPoint ℕ}
    (ht : s.table = l1 ++ m :: l2) :
    Mounts.Live { s with table := l1 ++ l2, killed := m.fsRoot :: s.killed } := by
  have hsub : ∀ a ∈ l1 ++ l2, a ∈ s.table := fun a ha => by
    rw [ht]
    rcases List.mem_append.1 ha with ha | ha
    · exact List.mem_append_left _ ha
    · exact List.mem_append_right _ (List.mem_cons_of_mem _ ha)
  have hn := h.nodup
  rw [ht, List.map_append, List.map_cons, List.nodup_middle, ← List.map_append,
    List.nodup_cons] at hn
  refine ⟨hn.2, fun a ha hk => ?_, fun a ha => h.table_lt a (hsub a ha), fun sb hsb => ?_⟩
  · rcases List.mem_cons.1 hk with e | hk
    · exact hn.1 (List.mem_map.2 ⟨a, ha, e⟩)
    · exact h.live a (hsub a ha) hk
  · rcases List.mem_cons.1 hsb with rfl | hsb
    · exact h.table_lt m (ht ▸ List.mem_append_right _ List.mem_cons_self)
    · exact h.killed_lt sb hsb

theorem Mounts.Live.step (h : s.Live) {c : MountCall} (hc : c.Ok s) : (c.run s).Live := by
  cases c with
  | mount env targetPath => exact h.mount env targetPath
  | umount target base =>
    rcases (unmounts_iff s target base).2 hc with ⟨l1, m, l2, ht, -, hr⟩ | ⟨-, code, -, hr⟩
    · simp only [MountCall.run, hr]
      exact h.umount ht
    · simp only [MountCall.run, hr]
      exact h

theorem Mounts.Live.start : Mounts.start.Live :=
  ⟨List.nodup_nil, fun _ h => absurd h List.not_mem_nil, fun _ h => absurd h List.not_mem_nil,
    fun _ h => absurd h List.not_mem_nil⟩

/-- **Unmounting affects its target only** iff it is called on its target, and in a run of such
    calls every entry of the mount table has a superblock that was not killed. -/
theorem umount_affects_target_iff (s : Mounts) (target : Text) (base : Option ℕ) :
    (Unmounts s target (vfsUmount s target base) ↔ OnTarget s target base) ∧
    (Runs MountCall.run (fun s c => c.Ok s) Mounts.start s →
      ∀ m ∈ s.table, m.fsRoot ∉ s.killed) :=
  ⟨unmounts_iff s target base, fun h =>
    (h.invariant (fun _ _ hs hc => hs.step hc) Mounts.Live.start).live⟩

/-! ## Two mounted file systems -/

/-- Everything is there. -/
def goodEnv : MountEnv := ⟨true, true, true, true⟩

/-- The root file system is superblock 0, the one on `/mnt` superblock 1, and the one that was on
    `/tmp` superblock 2. -/
def demoMounts : Mounts := ⟨[⟨"/mnt".toList, 1⟩, ⟨"/".toList, 0⟩], [2], 3⟩

theorem demoMounts_runs : Runs MountCall.run (fun s c => c.Ok s) Mounts.start demoMounts := by
  have h1 : Runs MountCall.run (fun s c => c.Ok s) Mounts.start ⟨[⟨"/".toList, 0⟩], [], 1⟩ :=
    .single ⟨.mount goodEnv "/".toList, trivial, rfl⟩
  have h2 : Runs MountCall.run (fun s c => c.Ok s) Mounts.start
      ⟨[⟨"/mnt".toList, 1⟩, ⟨"/".toList, 0⟩], [], 2⟩ :=
    h1.tail ⟨.mount goodEnv "/mnt".toList, trivial, rfl⟩
  have h3 : Runs MountCall.run (fun s c => c.Ok s) Mounts.start
      ⟨[⟨"/tmp".toList, 2⟩, ⟨"/mnt".toList, 1⟩, ⟨"/".toList, 0⟩], [], 3⟩ :=
    h2.tail ⟨.mount goodEnv "/tmp".toList, trivial, rfl⟩
  exact h3.tail ⟨.umount "/tmp".toList (some 2), ⟨⟨"/tmp".toList, 2⟩, rfl, rfl⟩, rfl⟩

/-- `/mnt` is unmounted without a base node. -/
theorem umount_mnt : Unmounts demoMounts "/mnt".toList (vfsUmount demoMounts "/mnt".toList none) ∧
    ∀ m ∈ demoMounts.table, m.fsRoot ∉ demoMounts.killed :=
  have h := umount_affects_target_iff demoMounts "/mnt".toList none
  ⟨h.1.2 ⟨⟨"/mnt".toList, 1⟩, rfl, by decide⟩, h.2 demoMounts_runs⟩

/-- `/mnt` is unmounted by a process in a directory of the root file system: the root file
    system is killed, and its entry stays. -/
theorem umount_kills_root : (vfsUmount demoMounts "/mnt".toList (some 0)).map (fun r =>
      (r.1.table.map fun m => (m.path, m.fsRoot), r.1.killed, r.2)) =
      some ([("/".toList, 0)], [0, 2], 0) := by
  decide +kernel

end

end Kabanos
