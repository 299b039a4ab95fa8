/-
  The ledger of the references on vnodes.

  `Ledger con s ex` says that the count of every vnode covers its holders and the references of
  the list `ex`, which the kernel itself owns in the middle of a call.  The vnode `con` of the
  console is apart: `vfs_init_stdio` gives it two files and one reference.
-/
import Kabanos.Vfs.RefWalk

namespace Kabanos

namespace RefState

/-- The references on a vnode; none if it is freed. -/
def refs (s : RefState) (p : ℕ) : ℕ := ((s.heap p).map VnodeObj.refcount).getD 0

/-- The holders of a vnode: superblocks, working directories and open files. -/
def holders (s : RefState) (p : ℕ) : ℕ :=
  (s.mounts.map MountPoint.fsRoot).count p + s.cwd.count (some p) +
    (s.fdTable.map (Option.map FileObj.vnode)).count (some p)

def heldVnodes (s : RefState) : List ℕ :=
  s.mounts.map MountPoint.fsRoot ++ s.cwd.filterMap id ++
    (s.fdTable.map (Option.map FileObj.vnode)).filterMap id

/-- The ledger.  The console is neither a root nor a working directory. -/
structure Ledger (con : ℕ) (s : RefState) (ex : List ℕ) : Prop where
  held : ∀ p, p ≠ con → s.holders p + ex.count p ≤ s.refs p
  root : ∀ m ∈ s.mounts, m.fsRoot ≠ con
  cwd : some con ∉ s.cwd
  live : s.heap con ≠ none

variable {out : Outside} {s s' t : RefState} {v a c con n : ℕ} {o : VnodeObj} {ex ex' : List ℕ}
  {base : Option ℕ}

theorem refs_of (h : s.heap v = some o) : s.refs v = o.refcount := by simp [refs, h]

theorem refs_eq_zero (h : s.heap v = none) : s.refs v = 0 := by simp [refs, h]

theorem holders_pos_iff {p : ℕ} : 0 < s.holders p ↔ p ∈ s.heldVnodes := by
  have e : ∀ l : List (Option ℕ), p ∈ l.filterMap id ↔ 0 < l.count (some p) := fun l => by
    rw [List.count_pos_iff]
    simp
  rw [heldVnodes, List.mem_append, List.mem_append, e, e, ← List.count_pos_iff, holders]
  omega

theorem Ledger.of_held (h : ∀ p ∈ s.heldVnodes, p ≠ con → s.holders p ≤ s.refs p)
    (hr : ∀ m ∈ s.mounts, m.fsRoot ≠ con) (hc : some con ∉ s.cwd) (hl : s.heap con ≠ none) :
    Ledger con s [] := by
  refine ⟨fun p hp => ?_, hr, hc, hl⟩
  by_cases hm : p ∈ s.heldVnodes
  · exact h p hm hp
  · have := mt holders_pos_iff.1 hm
    rw [List.count_nil]
    omega

theorem Ledger.forget (h : Ledger con s ex) : Ledger con s [] :=
  ⟨fun p hp => (Nat.le_add_right _ _).trans (h.held p hp), h.root, h.cwd, h.live⟩

theorem Ledger.perm (h : Ledger con s ex) (hp : ex.Perm ex') : Ledger con s ex' :=
  ⟨fun p hc => hp.count_eq p ▸ h.held p hc, h.root, h.cwd, h.live⟩

theorem Ledger.tick (h : Ledger con s ex) : Ledger con s.tick ex := ⟨h.held, h.root, h.cwd, h.live⟩

/-! ## Moving a reference -/

theorem holders_congr (h1 : s'.mounts = s.mounts) (h2 : s'.cwd = s.cwd)
    (h3 : s'.fdTable = s.fdTable) (p : ℕ) : s'.holders p = s.holders p := by
  simp only [holders, h1, h2, h3]

theorem Ledger.extends (h : Ledger con s ex) (he : Extends s s') : Ledger con s' ex := by
  refine ⟨fun p hp => ?_, fun m hm => h.root m (he.mounts ▸ hm), he.cwd ▸ h.cwd, ?_⟩
  · rw [holders_congr he.mounts he.cwd he.fdTable]
    have := h.held p hp
    rcases hh : s.heap p with _ | o
    · rw [refs_eq_zero hh] at this
      omega
    · rwa [refs_of hh, ← refs_of (he.heap p o hh)] at this
  · exact fun e => h.live (he.fresh e)

theorem Ledger.getRef (h : Ledger con s ex) (hv : s.Usable 1 v) :
    Ledger con (s.vnodeGetRef v) (v :: ex) := by
  obtain ⟨o, h1, h2, h3⟩ := hv
  rw [vnodeGetRef_eq h1 (by omega)]
  refine ⟨fun p hp => ?_, h.root, h.cwd, ?_⟩
  · have := h.held p hp
    by_cases e : p = v
    · subst e
      rw [refs_of h1] at this
      rw [refs_of (Function.update_self ..), List.count_cons_self]
      show s.holders p + _ ≤ o.refcount + 1
      omega
    · simpa [refs, holders, Function.update_of_ne e, Ne.symm e] using this
  · by_cases e : con = v
    · subst e
      simp
    · simpa [Function.update_of_ne e] using h.live

theorem Ledger.put (h : Ledger con s (v :: ex)) (hc : v ≠ con)
    (hb : ∀ o, s.heap v = some o → o.refcount ≤ 2 ^ 32) : Ledger con (s.vnodePut v) ex := by
  have hv := h.held v hc
  rw [List.count_cons_self] at hv
  rcases h1 : s.heap v with _ | o
  · rw [refs_eq_zero h1] at hv
    omega
  rw [refs_of h1] at hv
  obtain ⟨x, e, hx⟩ : ∃ x, s.vnodePut v = s.set v x ∧
      (x.map VnodeObj.refcount).getD 0 = o.refcount - 1 := by
    rcases (show o.refcount = 1 ∨ 2 ≤ o.refcount by omega) with h2 | h2
    · exact ⟨none, vnodePut_last h1 h2, by simp [h2]⟩
    · exact ⟨_, vnodePut_eq h1 h2 (hb o h1), rfl⟩
  rw [e]
  refine ⟨fun p hp => ?_, h.root, h.cwd, by simpa [Function.update_of_ne hc.symm] using h.live⟩
  by_cases e : p = v
  · subst e
    have : (s.set p x).refs p = o.refcount - 1 := by simp [refs, hx]
    rw [this]
    show s.holders p + _ ≤ _
    omega
  · have := h.held p hp
    rw [List.count_cons_of_ne (Ne.symm e)] at this
    simpa [refs, holders, Function.update_of_ne e] using this

theorem Ledger.looked {r : Option ℕ} (h : Ledger con s ex) (hl : Looked base s s' r) :
    Ledger con s' (r.toList ++ ex) := by
  cases hl with
  | nothing he => exact h.extends he
  | old hb hv he => exact (h.getRef hv).extends he
  | @new v o hv he h' hr =>
    have hs := h.extends he
    refine ⟨fun p hp => ?_, hs.root, hs.cwd, hs.live⟩
    by_cases e : p = v
    · subst e
      have := h.held p hp
      rw [refs_eq_zero hv, ← holders_congr he.mounts he.cwd he.fdTable] at this
      rw [refs_of h', hr, Option.toList_some, List.singleton_append, List.count_cons_self]
      omega
    · simpa [List.count_cons_of_ne (Ne.symm e)] using hs.held p hp

theorem Looked.ne_con (hl : Looked base s s' (some v)) (h : Ledger con s ex)
    (hb : base ≠ some con) : v ≠ con := by
  rintro rfl
  cases hl with
  | old hs _ _ =>
    rcases hs with e | ⟨m, hm, e⟩
    · exact hb e
    · exact h.root m hm e
  | new hv _ _ _ => exact h.live hv

/-! ## Holders -/

theorem count_set_add {α : Type*} [BEq α] [LawfulBEq α] {l : List α} {i : ℕ} {a b : α} (x : α)
    (h : l[i]? = some a) : (l.set i b).count x + [a].count x = l.count x + [b].count x := by
  obtain ⟨hi, rfl⟩ := List.getElem?_eq_some_iff.1 h
  have hle : (if l[i] == x then 1 else 0) ≤ l.count x := by
    split_ifs with e
    · exact List.count_pos_iff.2 (eq_of_beq e ▸ List.getElem_mem hi)
    · exact Nat.zero_le _
  rw [List.count_set hi, List.count_singleton, List.count_singleton]
  omega

theorem Ledger.setCwd (pid : ℕ) (h : Ledger con s (v :: ex)) (hc : v ≠ con) :
    Ledger con { s with cwd := s.cwd.set pid (some v) } ((s.cwdOf pid).toList ++ ex) := by
  rcases hp : s.cwd[pid]? with _ | old
  · have e : s.cwd.set pid (some v) = s.cwd :=
      List.set_eq_of_length_le (List.getElem?_eq_none_iff.1 hp)
    have : s.cwdOf pid = none := by simp [cwdOf, hp]
    rw [e, this]
    exact ⟨fun p hpc => (h.held p hpc).trans' (by simp [List.count_cons]), h.root, h.cwd, h.live⟩
  · have ho : s.cwdOf pid = old := by simp [cwdOf, hp]
    rw [ho]
    refine ⟨fun p hpc => ?_, h.root, fun hm => ?_, h.live⟩
    · have h1 := h.held p hpc
      have h2 := count_set_add (b := some v) (some p) hp
      have h3 : [old].count (some p) = old.toList.count p := by
        cases old <;> simp [List.count_singleton]
      have h4 : [some v].count (some p) = [v].count p := by simp [List.count_singleton]
      have h5 : (v :: ex).count p = [v].count p + ex.count p := by
        rw [← List.singleton_append, List.count_append]
      simp only [holders, List.count_append] at h1 ⊢
      show _ ≤ s.refs p
      omega
    · rcases List.mem_or_eq_of_mem_set hm with hm | hm
      · exact h.cwd hm
      · exact hc (Option.some.inj hm).symm

theorem Ledger.addCwd (h : Ledger con s (v :: ex)) (hc : v ≠ con) :
    Ledger con { s with cwd := s.cwd ++ [some v] } ex := by
  refine ⟨fun p hpc => ?_, h.root, fun hm => ?_, h.live⟩
  · have h1 := h.held p hpc
    have h4 : [some v].count (some p) = [v].count p := by simp [List.count_singleton]
    have h5 : (v :: ex).count p = [v].count p + ex.count p := by
      rw [← List.singleton_append, List.count_append]
    simp only [holders, List.count_append] at h1 ⊢
    show _ ≤ s.refs p
    omega
  · rcases List.mem_append.1 hm with hm | hm
    · exact h.cwd hm
    · exact hc (Option.some.inj (List.mem_singleton.1 hm)).symm

/-- What `vfs_bind_vnode_to_fd` does: a free descriptor, or nothing. -/
structure Bound (s s' : RefState) (v : ℕ) (r : Except ℤ ℕ) : Prop where
  heap : s'.heap = s.heap
  mounts : s'.mounts = s.mounts
  cwd : s'.cwd = s.cwd
  fds : (∃ code, r = .error code ∧ s'.fdTable = s.fdTable) ∨
    ∃ fd, r = .ok fd ∧ s.fdTable[fd]? = some none ∧ s'.fdTable = s.fdTable.set fd (some ⟨v, 1⟩)

theorem bindVnodeToFd_bound (out : Outside) (s : RefState) (v : ℕ) :
    Bound s (s.bindVnodeToFd out v).1 v (s.bindVnodeToFd out v).2 := by
  unfold bindVnodeToFd
  split
  · rcases h : s.fdTable.findIdx? Option.isNone with _ | fd
    · exact ⟨rfl, rfl, rfl, Or.inl ⟨_, rfl, rfl⟩⟩
    · obtain ⟨hi, he, -⟩ := List.findIdx?_eq_some_iff_getElem.1 h
      refine ⟨rfl, rfl, rfl, Or.inr ⟨fd, rfl, ?_, rfl⟩⟩
      rw [List.getElem?_eq_getElem hi, Option.isNone_iff_eq_none.1 he]
  · exact ⟨rfl, rfl, rfl, Or.inl ⟨_, rfl, rfl⟩⟩

theorem Bound.kept {r : Except ℤ ℕ} (h : Bound s s' v r) : Kept s s' :=
  ⟨fun _ _ hp => h.heap ▸ hp, h.mounts, h.cwd⟩

theorem map_set_add {l : List (Option FileObj)} {i p : ℕ} {x y : Option FileObj}
    (h : l[i]? = some x) : ((l.set i y).map (Option.map FileObj.vnode)).count (some p) +
      [x.map FileObj.vnode].count (some p) =
      (l.map (Option.map FileObj.vnode)).count (some p) + [y.map FileObj.vnode].count (some p) := by
  rw [List.map_set]
  exact count_set_add (a := x.map FileObj.vnode) (some p)
    (by rw [List.getElem?_map, h, Option.map_some])

theorem Ledger.bound {r : Except ℤ ℕ} (h : Ledger con s (v :: ex)) (hb : Bound s s' v r) :
    Ledger con s' ex := by
  refine ⟨fun p hpc => ?_, fun m hm => h.root m (hb.mounts ▸ hm), hb.cwd ▸ h.cwd, hb.heap ▸ h.live⟩
  have h1 := h.held p hpc
  have h5 : (v :: ex).count p = [v].count p + ex.count p := by
    rw [← List.singleton_append, List.count_append]
  have h6 : s'.refs p = s.refs p := by simp only [refs, hb.heap]
  rw [h6]
  rcases hb.fds with ⟨_, -, e⟩ | ⟨fd, -, hfd, e⟩
  · rw [holders_congr hb.mounts hb.cwd e]
    omega
  · have h2 := map_set_add (p := p) (y := some ⟨v, 1⟩) hfd
    have h3 : [Option.map FileObj.vnode (some ⟨v, 1⟩)].count (some p) = [v].count p := by
      simp [List.count_singleton]
    have h4 : [Option.map FileObj.vnode none].count (some p) = 0 := by simp
    simp only [holders, hb.mounts, hb.cwd, e] at h1 ⊢
    omega

theorem Ledger.close {fd : ℕ} (h : Ledger con s []) (hc : s.fdVnode fd ≠ some con)
    (hb : ∀ p, s.fdVnode fd = some p → ∀ o, s.heap p = some o → o.refcount ≤ 2 ^ 32) :
    Ledger con (s.close fd) [] := by
  unfold RefState.close
  split
  · next file hf =>
    have hne : file.vnode ≠ con := fun e => hc (by simp [fdVnode, hf, e])
    have hs : Ledger con { s with fdTable := s.fdTable.set fd none } [file.vnode] := by
      refine ⟨fun p hpc => ?_, h.root, h.cwd, h.live⟩
      have h1 := h.held p hpc
      have h2 := map_set_add (p := p) (y := none) hf
      have h3 : [Option.map FileObj.vnode (some file)].count (some p) = [file.vnode].count p := by
        simp [List.count_singleton]
      have h4 : [Option.map FileObj.vnode none].count (some p) = 0 := by simp
      simp only [holders, List.count_nil] at h1 ⊢
      show _ ≤ s.refs p
      omega
    simp only
    split
    · exact hs.put hne (hb _ (by simp [fdVnode, hf]))
    · exact hs.forget
  · exact h

end RefState

end Kabanos
