/-
  What a walk does to the reference counts.

  The vnodes that are there before a call keep their counts, apart from the one that is
  returned.  That one has a reference more, or it is new and has two; the other new vnodes are
  left behind with one.
-/
import Kabanos.Vfs.Refs

namespace Kabanos

open Function (update update_of_ne update_self)

variable {k : ℕ} {r : Option ℕ} {path : Text} {follow : Bool}

namespace RefState
variable {out : Outside} {s s' s₁ s₂ : RefState} {v a c : ℕ} {o : VnodeObj} {x : Option VnodeObj}
  {base : Option ℕ}

@[simp] theorem set_heap : (s.set v x).heap = update s.heap v x := rfl
@[simp] theorem set_fdTable : (s.set v x).fdTable = s.fdTable := rfl
@[simp] theorem set_mounts : (s.set v x).mounts = s.mounts := rfl
@[simp] theorem set_cwd : (s.set v x).cwd = s.cwd := rfl
@[simp] theorem tick_heap : s.tick.heap = s.heap := rfl
@[simp] theorem tick_fdTable : s.tick.fdTable = s.fdTable := rfl
@[simp] theorem tick_mounts : s.tick.mounts = s.mounts := rfl
@[simp] theorem tick_cwd : s.tick.cwd = s.cwd := rfl

theorem vnodeGetRef_eq (h : s.heap v = some o) (hr : o.refcount + 1 < 2 ^ 32) :
    s.vnodeGetRef v = s.set v (some { o with refcount := o.refcount + 1 }) := by
  simp only [vnodeGetRef, h, Nat.mod_eq_of_lt hr]

theorem vnodePut_eq (h : s.heap v = some o) (h0 : 2 ≤ o.refcount) (hr : o.refcount ≤ 2 ^ 32) :
    s.vnodePut v = s.set v (some { o with refcount := o.refcount - 1 }) := by
  have e : (o.refcount + (2 ^ 32 - 1)) % 2 ^ 32 = o.refcount - 1 := by omega
  simp only [vnodePut, h, e]
  rw [if_neg (by omega)]

theorem vnodePut_last (h : s.heap v = some o) (h1 : o.refcount = 1) :
    s.vnodePut v = s.set v none := by
  simp [vnodePut, h, h1]

theorem set_self (h : s.heap v = x) : s.set v x = s := by
  subst h
  simp [set]

theorem exists_vnodePut (s : RefState) (v : ℕ) : ∃ x, s.vnodePut v = s.set v x := by
  rcases h : s.heap v with _ | o
  · exact ⟨none, by simp only [vnodePut, h, set_self h]⟩
  · exact ⟨_, by simp only [vnodePut, h]; rfl⟩

theorem exists_vnodeGetRef (s : RefState) (v : ℕ) : ∃ x, s.vnodeGetRef v = s.set v x := by
  rcases h : s.heap v with _ | o
  · exact ⟨none, by simp only [vnodeGetRef, h, set_self h]⟩
  · exact ⟨_, by simp only [vnodeGetRef, h]; rfl⟩

@[simp] theorem vnodePut_fdTable : (s.vnodePut v).fdTable = s.fdTable := by
  obtain ⟨x, e⟩ := exists_vnodePut s v
  rw [e, set_fdTable]

@[simp] theorem vnodeGetRef_fdTable : (s.vnodeGetRef v).fdTable = s.fdTable := by
  obtain ⟨x, e⟩ := exists_vnodeGetRef s v
  rw [e, set_fdTable]

theorem vnodePut_heap_of_ne (h : a ≠ v) : (s.vnodePut v).heap a = s.heap a := by
  obtain ⟨x, e⟩ := exists_vnodePut s v
  rw [e, set_heap, update_of_ne h]

theorem vnodeGetRef_heap_of_ne (h : a ≠ v) : (s.vnodeGetRef v).heap a = s.heap a := by
  obtain ⟨x, e⟩ := exists_vnodeGetRef s v
  rw [e, set_heap, update_of_ne h]

/-! ## Leaving the old vnodes as they are -/

/-- All vnodes of `s` are in `s'` with their counts, and so are the roots and the working
    directories. -/
structure Kept (s s' : RefState) : Prop where
  heap : ∀ p o, s.heap p = some o → s'.heap p = some o
  mounts : s'.mounts = s.mounts
  cwd : s'.cwd = s.cwd

namespace Kept

theorem refl (s : RefState) : Kept s s := ⟨fun _ _ h => h, rfl, rfl⟩

theorem trans (h : Kept s s₁) (h' : Kept s₁ s₂) : Kept s s₂ :=
  ⟨fun p o hp => h'.heap p o (h.heap p o hp), h'.mounts.trans h.mounts, h'.cwd.trans h.cwd⟩

section
variable (h : Kept s s')
include h

theorem tick : Kept s s'.tick := ⟨h.heap, h.mounts, h.cwd⟩

theorem withFds (F : List (Option FileObj)) : Kept s { s' with fdTable := F } :=
  ⟨h.heap, h.mounts, h.cwd⟩

theorem fresh (ha : s'.heap a = none) : s.heap a = none := by
  rcases hs : s.heap a with _ | o
  · rfl
  · exact absurd (h.heap a o hs) (by simp [ha])

theorem set (ha : s.heap a = none) (x : Option VnodeObj) : Kept s (s'.set a x) := by
  refine ⟨fun p o hp => ?_, h.mounts, h.cwd⟩
  have : p ≠ a := fun e => by simp [e, ha] at hp
  simpa [update_of_ne this] using h.heap p o hp

theorem vnodePut (ha : s.heap a = none) : Kept s (s'.vnodePut a) := by
  obtain ⟨x, e⟩ := exists_vnodePut s' a
  exact e ▸ h.set ha x

theorem vnodeGetRef (ha : s.heap a = none) : Kept s (s'.vnodeGetRef a) := by
  obtain ⟨x, e⟩ := exists_vnodeGetRef s' a
  exact e ▸ h.set ha x

end

theorem drop (hv : s.heap v = some o) (hr : o.refcount + 1 < 2 ^ 32) (h0 : 0 < o.refcount)
    (h : Kept (s.vnodeGetRef v) s') : Kept s (s'.vnodePut v) := by
  rw [vnodeGetRef_eq hv hr] at h
  have hs := h.heap v { o with refcount := o.refcount + 1 } (by simp)
  rw [vnodePut_eq hs (by simp; omega) (by simp; omega)]
  refine ⟨fun p o' hp => ?_, h.mounts, h.cwd⟩
  by_cases e : p = v
  · subst e
    simpa [hv] using hp
  · have := h.heap p o' (by simpa [update_of_ne e] using hp)
    simpa [update_of_ne e] using this

end Kept

/-- The descriptors are the same, too. -/
structure Extends (s s' : RefState) : Prop extends Kept s s' where
  fdTable : s'.fdTable = s.fdTable

namespace Extends

theorem refl (s : RefState) : Extends s s := ⟨.refl s, rfl⟩

theorem trans (h : Extends s s₁) (h' : Extends s₁ s₂) : Extends s s₂ :=
  ⟨h.toKept.trans h'.toKept, h'.fdTable.trans h.fdTable⟩

theorem tick (h : Extends s s') : Extends s s'.tick := ⟨h.toKept.tick, h.fdTable⟩

theorem vnodePut (h : Extends s s') (ha : s.heap a = none) : Extends s (s'.vnodePut a) :=
  ⟨h.toKept.vnodePut ha, vnodePut_fdTable.trans h.fdTable⟩

end Extends

/-! ## Lookups -/

/-- A vnode that can take `k` more references. -/
def Usable (s : RefState) (k v : ℕ) : Prop :=
  ∃ o, s.heap v = some o ∧ 0 < o.refcount ∧ o.refcount + k < 2 ^ 31

theorem Usable.mono {k' : ℕ} (h : s.Usable k v) (hk : k' ≤ k) : s.Usable k' v := by
  obtain ⟨o, h1, h2, h3⟩ := h
  exact ⟨o, h1, h2, by omega⟩

theorem Usable.kept (h : s.Usable k v) (he : Kept s s') : s'.Usable k v := by
  obtain ⟨o, h1, h2⟩ := h
  exact ⟨o, he.heap v o h1, h2⟩

theorem Usable.vnodeGetRef (h : s.Usable (k + 1) v) (a : ℕ) : (s.vnodeGetRef a).Usable k v := by
  obtain ⟨o, h1, h2, h3⟩ := h
  by_cases e : v = a
  · subst e
    rw [vnodeGetRef_eq h1 (by omega)]
    exact ⟨{ o with refcount := o.refcount + 1 }, by simp, by simp, by simp; omega⟩
  · obtain ⟨x, hx⟩ := exists_vnodeGetRef s a
    exact ⟨o, by simp [hx, update_of_ne e, h1], h2, by omega⟩

/-- The walk may start at `v`: a root of a file system, or the base node. -/
def Start (s : RefState) (base : Option ℕ) (v : ℕ) : Prop :=
  base = some v ∨ ∃ m ∈ s.mounts, m.fsRoot = v

def Ready (s : RefState) (k : ℕ) (base : Option ℕ) : Prop := ∀ v, s.Start base v → s.Usable k v

theorem Ready.kept (h : s.Ready k base) (he : Kept s s') : s'.Ready k base := by
  intro v hv
  unfold Start at hv
  rw [he.mounts] at hv
  exact (h v hv).kept he

/-- What a lookup leaves: an old vnode has one reference more, a new one has two. -/
inductive Looked (base : Option ℕ) (s s' : RefState) : Option ℕ → Prop
  | nothing (h : Extends s s') : Looked base s s' none
  | old {v : ℕ} (hb : s.Start base v) (hv : s.Usable 1 v) (h : Extends (s.vnodeGetRef v) s') :
      Looked base s s' (some v)
  | new {v : ℕ} {o : VnodeObj} (hv : s.heap v = none) (h : Extends s s')
      (h' : s'.heap v = some o) (hr : o.refcount = 2) : Looked base s s' (some v)

namespace Looked

theorem getRef (h : Extends s s') (hb : s.Start base v) (hv : s.Usable 1 v) :
    Looked base s (s'.vnodeGetRef v) (some v) := by
  obtain ⟨o, h1, h2, h3⟩ := id hv
  refine .old hb hv ?_
  rw [vnodeGetRef_eq h1 (by omega), vnodeGetRef_eq (h.heap v o h1) (by omega)]
  refine ⟨⟨fun p o' hp => ?_, h.mounts, h.cwd⟩, h.fdTable⟩
  by_cases e : p = v
  · subst e
    simpa using hp
  · simp only [set_heap, update_of_ne e] at hp ⊢
    exact h.heap p o' hp

theorem tick (h : Looked base s s' r) : Looked base s s'.tick r := by
  cases h with
  | nothing h => exact .nothing h.tick
  | old hb hv h => exact .old hb hv h.tick
  | new hv h h' hr => exact .new hv h.tick h' hr

theorem live (h : Looked base s s' (some v)) : s'.heap v ≠ none := by
  cases h with
  | old hb hv h =>
    obtain ⟨o, h1, -, h3⟩ := hv
    rw [vnodeGetRef_eq h1 (by omega)] at h
    rw [h.heap v { o with refcount := o.refcount + 1 } (by simp)]
    simp
  | new _ _ h' _ => simp [h']

theorem fresh (h : Looked base s s' r) (ha : s'.heap a = none) : s.heap a = none := by
  cases h with
  | nothing h => exact h.fresh ha
  | new _ h _ _ => exact h.fresh ha
  | @old v hb hv h =>
    obtain ⟨o, h1, -, h3⟩ := hv
    rw [vnodeGetRef_eq h1 (by omega)] at h
    have := h.fresh ha
    by_cases e : a = v
    · simp [e] at this
    · simpa [update_of_ne e] using this

theorem set (h : Looked base s s' (some c)) (ha : s.heap a = none) (hc : a ≠ c)
    (x : Option VnodeObj) : Looked base s (s'.set a x) (some c) := by
  cases h with
  | old hb hv h =>
    refine .old hb hv ⟨h.toKept.set ?_ x, h.fdTable⟩
    obtain ⟨o, h1, -, h3⟩ := hv
    rw [vnodeGetRef_eq h1 (by omega)]
    simpa [update_of_ne hc] using ha
  | new hv h h' hr =>
    exact .new hv ⟨h.toKept.set ha x, h.fdTable⟩
      (by simpa [update_of_ne hc.symm] using h') hr

theorem vnodePut (h : Looked base s s' (some c)) (ha : s.heap a = none) (hc : a ≠ c) :
    Looked base s (s'.vnodePut a) (some c) := by
  obtain ⟨x, e⟩ := exists_vnodePut s' a
  exact e ▸ h.set ha hc x

/-- **The vnode that was found is dropped again.** -/
theorem put (h : Looked base s s' (some c)) : Extends s (s'.vnodePut c) := by
  cases h with
  | old hb hv h =>
    obtain ⟨o, h1, h2, h3⟩ := hv
    exact ⟨Kept.drop h1 (by omega) h2 h.toKept, by simpa using h.fdTable⟩
  | new hv h _ _ => exact h.vnodePut hv

end Looked

/-! ## The walk -/

/-- The invariant of the loop of `vfs_walk`: the current vnode is as if it were returned. -/
def Walking (base : Option ℕ) (s : RefState) (x : RefState × Lookup ℕ) : Prop :=
  match x.2 with
  | .ret r => Looked base s x.1 r
  | .walk w => Looked base s x.1 (some w.current)

theorem walkStart_walking (h : Extends s s₁) (hb : s.Start base v) (hv : s.Usable 1 v)
    (path : Text) :
    Walking base s (s₁.walkStart out v path) := by
  have hl := Looked.getRef h hb hv
  simp only [walkStart]
  split
  · unfold vfsWalk
    split <;> exact hl.tick
  · exact .nothing hl.tick.put

theorem pathStart_walking {base' : Option ℕ} (h : Extends s s₁) (hr : s.Ready 1 base)
    (hb : ∀ v, base' = some v → base = some v) (path : Text) :
    Walking base s (s₁.pathStart out path base') := by
  unfold pathStart
  split
  · split
    · exact .nothing h
    · next m hm =>
      have hs : s.Start base m.fsRoot :=
        Or.inr ⟨m, h.mounts ▸ (vfsFindMountPoint_spec hm).1, rfl⟩
      exact walkStart_walking h hs (hr _ hs) _
  · split
    · exact .nothing h
    · next v =>
      have hs : s.Start base v := Or.inl (hb v rfl)
      exact walkStart_walking h hs (hr v hs) _

theorem lookup_eq (out : Outside) (s : RefState) (dir : ℕ) (name : Text) :
    s.lookup out dir name = (s.tick, none) ∨
    ∃ v o sb ino, s.heap v = none ∧ o.refcount = 1 ∧
      out.lookup s.clock sb ino name = some (o.ino, o.kind) ∧
      s.lookup out dir name = (s.tick.set v (some o), some v) := by
  unfold lookup
  repeat' split
  all_goals first
    | exact Or.inl rfl
    | exact Or.inr ⟨_, _, _, _, by assumption, rfl, by assumption, rfl⟩

theorem followLink_walking {w : Walk ℕ} (h : Looked base s s₁ (some w.current))
    (hr : s.Ready 1 base) (target : Text) : Walking base s (s₁.followLink out w target) := by
  unfold followLink
  simp only
  split
  · exact pathStart_walking h.put hr (by simp) _
  · split
    · exact h.tick
    · exact .nothing h.tick.put

theorem visit_walking {w : Walk ℕ}
    (h : Looked base s s₁ (some w.current)) (hr : s.Ready 1 base) (ha : s.heap a = none)
    (hc : a ≠ w.current) (h1 : s₁.heap a = some o) (h2 : o.refcount = 2) :
    Walking base s (s₁.visit out follow w a) := by
  have hput : (s₁.vnodePut w.current).heap a = some o := by
    obtain ⟨x, e⟩ := exists_vnodePut s₁ w.current
    simpa [e, update_of_ne hc] using h1
  unfold visit
  rw [h1]
  simp only
  split_ifs
  · exact .new ha h.put hput h2
  · exact .nothing (h.vnodePut ha hc).put
  · split
    · exact .nothing (h.tick.vnodePut ha hc).put
    · exact followLink_walking (h.tick.vnodePut ha hc) hr _
  · exact .new ha h.put hput h2

/-- **One round keeps the invariant.** -/
theorem walkRound_walking {x y : RefState × Lookup ℕ}
    (hr : s.Ready 1 base) (h : Walking base s x) (hb : walkRound out follow x = some y) :
    Walking base s y := by
  obtain ⟨s₁, l⟩ := x
  unfold walkRound at hb
  rcases l with r | w
  · cases hb
  simp only at hb
  have hw : Looked base s s₁ (some w.current) := h
  have hlive := hw.live
  split at hb
  · cases hb
    exact hw
  · next token _ =>
    rcases lookup_eq out s₁ w.current token with e | ⟨a, o, _, _, ha, ho, -, e⟩
    · simp only [e, Option.some.injEq] at hb
      subst hb
      exact .nothing hw.tick.put
    · simp only [e, Option.some.injEq] at hb
      subst hb
      have hc : a ≠ w.current := fun e => hlive (e ▸ ha)
      have hs := hw.fresh ha
      have hl : (s₁.tick.set a (some o)).heap a = some o := by simp
      rw [vnodeGetRef_eq hl (by omega)]
      exact visit_walking ((hw.tick.set hs hc _).set hs hc _) hr hs hc (update_self ..)
        (by simp [ho])

/-- **What `vfs_lookup_path` leaves.** -/
theorem lookupPath_looked {n : ℕ}
    (hr : s.Ready 1 base) (h : s.lookupPath out n path base follow = some (s', r)) :
    Looked base s s' r := by
  simp only [lookupPath, Option.bind_eq_some_iff] at h
  obtain ⟨⟨s₁, l⟩, hl, h⟩ := h
  have hw : Walking base s (s₁, l) := by
    have hreach := (yields_of_loop hl).reach.1
    clear hl h
    generalize (s₁, l) = x at hreach
    induction hreach with
    | refl => exact pathStart_walking (.refl s) hr (fun _ e => e) path
    | tail _ hb ih => exact walkRound_walking hr ih hb
  rcases l with r' | w
  · cases h
    exact hw
  · cases h

end RefState

end Kabanos
