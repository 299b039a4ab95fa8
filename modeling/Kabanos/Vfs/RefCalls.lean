/-
  The calls on paths keep the ledger of the references, apart from `sys_getcwd`.
-/
import Kabanos.Vfs.RefLedger

namespace Kabanos

variable {k : ℕ} {r : Option ℕ}

namespace RefState
variable {out : Outside} {s s' s₁ s₂ t t' : RefState} {v a c con n p : ℕ} {o : VnodeObj}
  {ex : List ℕ} {base : Option ℕ} {path : Text} {code : ℤ}

/-- No count of a vnode that is held is close to the end of an `int`. -/
def Roomy (s : RefState) : Prop := ∀ p ∈ s.heldVnodes, s.refs p + 4 < 2 ^ 31

theorem Ledger.usable (h : Ledger con s []) (hr : s.Roomy) (hp : p ∈ s.heldVnodes) (hc : p ≠ con) :
    s.Usable 4 p := by
  have h0 := holders_pos_iff.2 hp
  have h1 := h.held p hc
  have h2 := hr p hp
  rcases hh : s.heap p with _ | o
  · rw [refs_eq_zero hh] at h1
    omega
  · rw [refs_of hh] at h1 h2
    rw [List.count_nil] at h1
    exact ⟨o, hh, by omega, h2⟩

theorem mem_heldVnodes_of_cwd (h : some p ∈ s.cwd) : p ∈ s.heldVnodes := by
  simp [heldVnodes, h]

theorem mem_heldVnodes_of_root {m : MountPoint ℕ} (h : m ∈ s.mounts) : m.fsRoot ∈ s.heldVnodes := by
  simp only [heldVnodes, List.mem_append]
  exact Or.inl (Or.inl (List.mem_map_of_mem h))

theorem mem_heldVnodes_of_fd {fd : ℕ} (h : s.fdVnode fd = some p) : p ∈ s.heldVnodes := by
  obtain ⟨file, hf, rfl⟩ := Option.map_eq_some_iff.1 h
  obtain ⟨x, hx, rfl⟩ := Option.bind_eq_some_iff.1 hf
  simp only [heldVnodes, List.mem_append, List.mem_filterMap]
  exact Or.inr ⟨_, List.mem_map_of_mem (List.mem_of_getElem? hx), rfl⟩

theorem mem_of_cwdOf {pid : ℕ} (h : s.cwdOf pid = some p) : some p ∈ s.cwd := by
  obtain ⟨x, hx, rfl⟩ := Option.bind_eq_some_iff.1 h
  exact List.mem_of_getElem? hx

theorem Ledger.ready (h : Ledger con s []) (hr : s.Roomy)
    (hb : ∀ p, base = some p → some p ∈ s.cwd) :
    s.Ready 4 base := by
  rintro p (hp | ⟨m, hm, rfl⟩)
  · exact h.usable hr (mem_heldVnodes_of_cwd (hb p hp)) fun e => h.cwd (e ▸ hb p hp)
  · exact h.usable hr (mem_heldVnodes_of_root hm) (h.root m hm)

theorem Ready.mono {k' : ℕ} (h : s.Ready k base) (hk : k' ≤ k) : s.Ready k' base :=
  fun v hv => (h v hv).mono hk

theorem Looked.usable (h : Looked base s s' r) (hu : s.Usable (k + 1) p) : s'.Usable k p := by
  cases h with
  | nothing h => exact (hu.kept h.toKept).mono (Nat.le_succ k)
  | old _ _ h => exact (hu.vnodeGetRef _).kept h.toKept
  | new _ h _ _ => exact (hu.kept h.toKept).mono (Nat.le_succ k)

theorem Looked.mounts (h : Looked base s s' r) : s'.mounts = s.mounts := by
  cases h with
  | nothing h => exact h.mounts
  | @old v _ _ h =>
    obtain ⟨x, e⟩ := exists_vnodeGetRef s v
    exact h.mounts.trans (by rw [e, set_mounts])
  | new _ h _ _ => exact h.mounts

theorem Looked.ready (h : Looked base s s' r) (hr : s.Ready (k + 1) base) : s'.Ready k base := by
  intro v hv
  unfold Start at hv
  rw [h.mounts] at hv
  exact h.usable (hr v hv)

theorem Looked.bound (hk : k < 4) (h : Looked base s s' (some v))
    (hr : s.Ready (k + 1) base) : s'.Usable k v := by
  cases h with
  | old hb hv h =>
    exact ((hr v hb).vnodeGetRef v).kept h.toKept
  | new _ _ h' hr' => exact ⟨_, h', by omega, by omega⟩

theorem Usable.le (h : s.Usable k v) : ∀ o, s.heap v = some o → o.refcount ≤ 2 ^ 32 := by
  intro o ho
  obtain ⟨o', h1, -, h3⟩ := h
  rw [ho] at h1
  cases h1
  omega

theorem vnodePut_le (h : ∀ o, s.heap v = some o → o.refcount ≤ 2 ^ 32) :
    ∀ o, (s.vnodePut a).heap v = some o → o.refcount ≤ 2 ^ 32 := by
  intro o ho
  by_cases e : v = a
  · subst e
    rcases hh : s.heap v with _ | o'
    · simp [vnodePut, hh] at ho
    · simp only [vnodePut, hh, set_heap, Function.update_self] at ho
      split at ho
      · cases ho
      · cases ho
        exact (Nat.mod_lt _ (by norm_num)).le
  · exact h o (vnodePut_heap_of_ne e ▸ ho)

theorem vnodeGetRef_withCwd (s : RefState) (l : List (Option ℕ)) :
    { s with cwd := l }.vnodeGetRef v = { s.vnodeGetRef v with cwd := l } := by
  unfold vnodeGetRef
  rcases s.heap v with _ | o <;> rfl

theorem vnodeGetRef_cwd : (s.vnodeGetRef v).cwd = s.cwd := by
  obtain ⟨x, e⟩ := exists_vnodeGetRef s v
  rw [e, set_cwd]

/-! ## Operations on paths -/

theorem parentOperation_extends (hr : s.Ready 1 base)
    (h : s.parentOperation out n path base = some (s', code)) : Extends s s' := by
  unfold parentOperation at h
  split at h
  · cases h
    exact .refl s
  split at h
  · cases h
    exact (Extends.refl s).tick
  have ht : Extends s s.tick := (Extends.refl s).tick
  split at h
  · cases h
    exact ht.tick
  · simp only [Option.map_eq_some_iff] at h
    obtain ⟨⟨s₁, r⟩, hl, h⟩ := h
    have hl := lookupPath_looked (hr.kept ht.toKept) hl
    rcases r with _ | v
    · cases h
      cases hl with
      | nothing he => exact ht.trans he
    · cases h
      exact ht.trans hl.tick.put

theorem Ledger.openPath {flags : OpenFlags} {r : Except ℤ ℕ} (h : Ledger con s [])
    (hr : s.Ready 1 base) (e : s.openPath out n path base flags = some (s', r)) :
    Ledger con s' [] := by
  have bind : ∀ {t : RefState} {v : ℕ}, Ledger con t [v] →
      Ledger con (t.bindVnodeToFd out v).1 [] := fun ht => ht.bound (bindVnodeToFd_bound out _ _)
  simp only [RefState.openPath, Option.bind_eq_some_iff] at e
  obtain ⟨⟨s₁, r1⟩, hl, e⟩ := e
  have hl := lookupPath_looked hr hl
  have hs := h.looked hl
  rcases r1 with _ | v
  · cases hl with
    | nothing he =>
      simp only at e
      split at e
      · cases e
        exact hs
      · simp only [Option.bind_eq_some_iff] at e
        obtain ⟨⟨s₂, res⟩, hc, e⟩ := e
        have hr1 := hr.kept he.toKept
        have hx := parentOperation_extends hr1 hc
        simp only at e
        split at e
        · cases e
          exact hs.extends hx
        · simp only [Option.map_eq_some_iff] at e
          obtain ⟨⟨s3, r3⟩, hl3, e⟩ := e
          have hs3 := (hs.extends hx).looked (lookupPath_looked (hr1.kept hx.toKept) hl3)
          rcases r3 with _ | v
          · cases e
            exact hs3
          · obtain ⟨rfl, -⟩ := Prod.ext_iff.1 e
            exact bind hs3
  · simp only at e
    split at e
    · cases e
      exact hs.forget
    · obtain ⟨rfl, -⟩ := Prod.ext_iff.1 (Option.some.inj e)
      exact bind hs

theorem Ledger.rename {newpath : Text} (h : Ledger con s []) (hr : s.Ready 4 base)
    (hb : base ≠ some con) (e : s.rename out n path newpath base = some (s', code)) :
    Ledger con s' [] := by
  unfold RefState.rename at e
  split at e
  swap
  · cases e
    exact h
  simp only [Option.bind_eq_some_iff, Option.map_eq_some_iff] at e
  obtain ⟨⟨s₁, r1⟩, e1, ⟨s₂, r2⟩, e2, e⟩ := e
  have hl1 := lookupPath_looked (hr.mono (by omega)) e1
  have hr1 : s₁.Ready 3 base := hl1.ready hr
  have hl2 := lookupPath_looked (hr1.mono (by omega)) e2
  have hs1 := h.looked hl1
  have hs2 := hs1.looked hl2
  rcases r1 with _ | v <;> rcases r2 with _ | w <;> cases e
  · exact hs2
  · exact hs1.extends hl2.put
  · have hv : s₁.Usable 1 v := hl1.bound (by omega) (hr.mono (by omega))
    exact hs2.put (hl1.ne_con h hb) (hl2.usable hv).le
  · have hv : s₁.Usable 1 v := hl1.bound (by omega) (hr.mono (by omega))
    have hw : s₂.Usable 0 w := hl2.bound (by omega) (hr1.mono (by omega))
    have hs := (hs2.perm (List.Perm.swap v w [])).tick.put (hl1.ne_con h hb) (hl2.usable hv).le
    exact hs.put (hl2.ne_con hs1 hb) (vnodePut_le hw.le)

theorem Looked.cwd (h : Looked base s s' r) : s'.cwd = s.cwd := by
  cases h with
  | nothing h => exact h.cwd
  | old _ _ h =>
    exact h.cwd.trans vnodeGetRef_cwd
  | new _ h _ _ => exact h.cwd

section
variable {pid : ℕ}

theorem Ledger.cwdOf_ready (h : Ledger con s []) (hr : s.Roomy) (pid : ℕ) :
    s.Ready 4 (s.cwdOf pid) := h.ready hr fun _ hp => mem_of_cwdOf hp

theorem Ledger.cwdOf_ne (h : Ledger con s []) : s.cwdOf pid ≠ some con :=
  fun hp => h.cwd (mem_of_cwdOf hp)

theorem Ledger.chdir (h : Ledger con s []) (hr : s.Roomy)
    (e : s.chdir out n pid path = some (s', code)) : Ledger con s' [] := by
  have hr := h.cwdOf_ready hr pid
  simp only [RefState.chdir, Option.map_eq_some_iff] at e
  obtain ⟨⟨s₁, r⟩, e1, e⟩ := e
  have hl := lookupPath_looked (hr.mono (by omega)) e1
  have hs := h.looked hl
  rcases r with _ | v
  · cases e
    exact hs
  simp only at e
  split at e
  swap
  · cases e
    exact h.extends hl.put
  cases e
  have hcwd : s₁.cwdOf pid = s.cwdOf pid := by simp only [cwdOf, hl.cwd]
  have hs' := hs.setCwd pid (hl.ne_con h h.cwdOf_ne)
  rw [hcwd] at hs' ⊢
  rcases hold : s.cwdOf pid with _ | u
  · simpa [hold] using hs'
  · rw [hold] at hs'
    have hu : s₁.Usable 3 u := hl.usable (hr u (Or.inl hold))
    exact hs'.put (fun e => h.cwdOf_ne (e ▸ hold)) hu.le

theorem Ledger.fork (h : Ledger con s []) (hr : s.Roomy)
    (e : s.fork out n pid = some (s', code)) : Ledger con s' [] := by
  have hr := h.cwdOf_ready hr pid
  have hr0 : s.Ready 1 none := fun v hv => (hr v (Or.inr (hv.resolve_left nofun))).mono (by omega)
  simp only [RefState.fork, Option.map_eq_some_iff] at e
  obtain ⟨⟨s₁, r⟩, e1, e⟩ := e
  have hl := lookupPath_looked hr0 e1
  have hs := (h.looked hl).forget
  cases e
  have hcwd : s₁.cwdOf pid = s.cwdOf pid := by simp only [cwdOf, hl.cwd]
  rw [hcwd]
  rcases hold : s.cwdOf pid with _ | u
  · exact ⟨fun p hp => by simpa [holders, refs] using hs.held p hp, hs.root,
      by simpa using hs.cwd, hs.live⟩
  · have hu : s₁.Usable 3 u := hl.usable (hr u (Or.inl hold))
    have := (hs.getRef (hu.mono (by omega))).addCwd fun e => h.cwdOf_ne (e ▸ hold)
    simpa only [Option.elim_some, vnodeGetRef_withCwd, vnodeGetRef_cwd] using this

end

end RefState

end Kabanos
