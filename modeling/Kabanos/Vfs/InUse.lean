/-
  A vnode is not freed while it is in use.

  Every call keeps the ledger of the references, with two exceptions.  `sys_getcwd` takes one
  reference on the working directory and spends it twice, for a descriptor and at the end, when
  its first round does not leave the working directory; and closing a descriptor of the console
  frees the vnode that the other one still uses.
-/
import Kabanos.Vfs.RefCalls

namespace Kabanos

variable {curr i fd : ℕ} {path : Text} {r : Climb} {go : Prop}

namespace RefState
variable {out : Outside} {s s' s₁ s₂ t t' : RefState} {v a c con n p : ℕ} {o : VnodeObj}
  {base : Option ℕ}

/-! ## `sys_getcwd` -/

/-- No entry for the parent is a link. -/
def NoLinks (out : Outside) : Prop :=
  ∀ time sb ino i kind, out.lookup time sb ino dotdotPath = some (i, kind) → kind ≠ .lnk

/-- The walk to the parent looks up one name, and then it stands at a new vnode. -/
def ToParent (s : RefState) : Lookup ℕ → Prop
  | .ret r => ∀ v, r = some v → s.heap v = none
  | .walk w => w.saveptr = [] ∧
      (w.token = some dotdotPath ∨ w.token = none ∧ s.heap w.current = none)

theorem toParent_start (s : RefState) (curr : ℕ) :
    ToParent s (s.pathStart out dotdotPath (some curr)).2 := by
  have hp : dotdotPath.head? ≠ some '/' := by decide
  rw [pathStart, if_neg hp]
  simp only [walkStart]
  split
  · exact ⟨show (strtokR dotdotPath).2 = [] by decide,
      Or.inl (show (strtokR dotdotPath).1 = some dotdotPath by decide)⟩
  · intro v e
    cases e

theorem toParent_round {x y : RefState × Lookup ℕ} (hlink : NoLinks out)
    (hw : Walking base s x) (h : ToParent s x.2) (hb : walkRound out true x = some y) :
    ToParent s y.2 := by
  obtain ⟨s₁, l⟩ := x
  unfold walkRound at hb
  rcases l with r | w
  · cases hb
  obtain ⟨hsave, h⟩ := h
  rcases h with ht | ⟨ht, hn⟩ <;> simp only [ht] at hb
  · have hfresh : ∀ {a}, s₁.heap a = none → s.heap a = none := fun ha => Looked.fresh hw ha
    rcases lookup_eq out s₁ w.current dotdotPath with e | ⟨a, o, _, _, ha, ho, hk, e⟩
    · simp only [e, Option.some.injEq] at hb
      subst hb
      exact fun v e => nomatch e
    · simp only [e, Option.some.injEq] at hb
      subst hb
      have hl : (s₁.tick.set a (some o)).heap a = some o := by simp
      rw [vnodeGetRef_eq hl (by omega), visit]
      simp only [set_heap, Function.update_self, hlink _ _ _ _ _ hk, if_false, hsave]
      exact ⟨show (strtokR []).2 = [] by decide,
        Or.inr ⟨show (strtokR []).1 = none by decide, hfresh ha⟩⟩
  · cases hb
    intro v e
    exact Option.some.inj e ▸ hn

theorem lookupPath_dotdot (hlink : NoLinks out) (hr : s.Ready 1 (some curr))
    (h : s.lookupPath out n dotdotPath (some curr) true = some (s', some v)) : s.heap v = none := by
  simp only [lookupPath, Option.bind_eq_some_iff] at h
  obtain ⟨⟨s₁, l⟩, hl, h⟩ := h
  have hw : ∀ x, Reach (walkRound out true) (s.pathStart out dotdotPath (some curr)) x →
      Walking (some curr) s x ∧ ToParent s x.2 := by
    intro x hx
    induction hx with
    | refl =>
      exact ⟨pathStart_walking (.refl s) hr (fun _ e => e) dotdotPath, toParent_start s curr⟩
    | tail _ hb ih => exact ⟨walkRound_walking hr ih.1 hb, toParent_round hlink ih.1 ih.2 hb⟩
  rcases l with r' | w
  · cases h
    exact (hw _ (yields_of_loop hl).reach.1).2 v rfl
  · cases h

theorem openPath_dotdot {r : Except ℤ ℕ} (hlink : NoLinks out) (hr : s.Ready 1 (some curr))
    (h : s.openPath out n dotdotPath (some curr) ⟨false, false⟩ = some (s', r)) :
    (∃ code, r = .error code ∧ Extends s s') ∨ ∃ fd q o s₁, r = .ok fd ∧ s.heap q = none ∧
      Extends s s₁ ∧ s₁.heap q = some o ∧ o.refcount = 2 ∧ Bound s₁ s' q (.ok fd) := by
  simp only [RefState.openPath, Option.bind_eq_some_iff] at h
  obtain ⟨⟨s₁, r1⟩, e1, h⟩ := h
  have hl := lookupPath_looked hr e1
  rcases r1 with _ | v
  · simp only [if_true] at h
    cases h
    cases hl with
    | nothing he => exact Or.inl ⟨_, rfl, he⟩
  · have hv := lookupPath_dotdot hlink hr e1
    simp only [Bool.and_self, Bool.false_eq_true, if_false, Option.some.injEq] at h
    have hB := bindVnodeToFd_bound out s₁ v
    rw [h] at hB
    cases hl with
    | old _ hu _ =>
      obtain ⟨o, ho, -⟩ := hu
      exact absurd ho (by simp [hv])
    | new _ he h' hrc =>
      rcases hB.fds with ⟨code, rfl, e⟩ | ⟨fd, rfl, -, -⟩
      · exact Or.inl ⟨code, rfl, he.trans ⟨hB.kept, e⟩⟩
      · exact Or.inr ⟨fd, v, _, s₁, rfl, hv, he, h', hrc, hB⟩

/-! ### One round -/

/-- Both descriptors of a round are open. -/
structure BothOpen (t u : RefState) (curr : ℕ) (currFd : Except ℤ ℕ) (fd q : ℕ) : Prop where
  kept : Kept t u
  fresh : t.heap q = none
  two : ∃ o, u.heap q = some o ∧ o.refcount = 2
  parent : u.fdTable[fd]? = some (some ⟨q, 1⟩)
  child : (∃ code, currFd = .error code ∧ u.fdTable.set fd none = t.fdTable) ∨
    ∃ i, currFd = .ok i ∧ i ≠ fd ∧ u.fdTable[i]? = some (some ⟨curr, 1⟩) ∧
      (u.fdTable.set i none).set fd none = t.fdTable

/-- The descriptor of the parent could not be opened. -/
structure OneOpen (t u : RefState) (curr : ℕ) (currFd : Except ℤ ℕ) : Prop where
  kept : Kept t u
  child : (∃ code, currFd = .error code ∧ u.fdTable = t.fdTable) ∨
    ∃ i, currFd = .ok i ∧ u.fdTable[i]? = some (some ⟨curr, 1⟩) ∧ u.fdTable.set i none = t.fdTable

theorem set_self_of_getElem? {α : Type*} {l : List α} {a : α} (h : l[i]? = some a) :
    l.set i a = l := by
  obtain ⟨hi, rfl⟩ := List.getElem?_eq_some_iff.1 h
  exact List.set_getElem_self hi

theorem set_set_self {α : Type*} {l : List α} {a b : α} (h : l[i]? = some a) :
    (l.set i b)[i]? = some b ∧ (l.set i b).set i a = l := by
  obtain ⟨hi, -⟩ := List.getElem?_eq_some_iff.1 h
  exact ⟨List.getElem?_set_self hi, by rw [List.set_set, set_self_of_getElem? h]⟩

theorem round_opens {currFd r : Except ℤ ℕ} (hlink : NoLinks out)
    (hr : t.Ready 1 (some curr)) (hB : Bound t s₁ curr currFd)
    (h : s₁.tick.openPath out n dotdotPath (some curr) ⟨false, false⟩ = some (s₂, r)) :
    (∃ code, r = .error code ∧ OneOpen t s₂ curr currFd) ∨
    ∃ fd q, r = .ok fd ∧ BothOpen t s₂ curr currFd fd q := by
  have hk : Kept t s₁.tick := hB.kept.tick
  rcases openPath_dotdot hlink (hr.kept hk) h with ⟨code, rfl, he⟩ |
    ⟨fd, q, o, s3, rfl, hq, he, ho, hrc, hB'⟩
  · refine Or.inl ⟨code, rfl, hk.trans he.toKept, ?_⟩
    rw [he.fdTable, tick_fdTable]
    rcases hB.fds with ⟨c, rfl, e⟩ | ⟨i, rfl, hi, e⟩
    · exact Or.inl ⟨c, rfl, e⟩
    · exact Or.inr ⟨i, rfl, e ▸ (set_set_self hi).1, e ▸ (set_set_self hi).2⟩
  · obtain ⟨_, e', -⟩ | ⟨fd', e', hfd, e2⟩ := hB'.fds
    · cases e'
    cases e'
    rw [he.fdTable, tick_fdTable] at hfd e2
    obtain ⟨hset, hback⟩ := set_set_self (b := some ⟨q, 1⟩) hfd
    refine Or.inr ⟨fd, q, rfl, hk.trans (he.toKept.trans hB'.kept), hk.fresh hq,
      ⟨o, hB'.heap ▸ ho, hrc⟩, e2 ▸ hset, ?_⟩
    rcases hB.fds with ⟨c, rfl, e⟩ | ⟨i, rfl, hi, e⟩
    · exact Or.inl ⟨c, rfl, by rw [e2, hback, e]⟩
    · obtain ⟨hseti, hbacki⟩ := set_set_self (b := some ⟨curr, 1⟩) hi
      have hne : i ≠ fd := by
        rintro rfl
        rw [e, hseti] at hfd
        cases hfd
      refine Or.inr ⟨i, rfl, hne, ?_, ?_⟩
      · rw [e2, List.getElem?_set_ne hne.symm, e, hseti]
      · rw [e, List.getElem?_set_ne hne] at hfd
        rw [e2, List.set_comm _ _ hne.symm, List.set_set, e, hbacki, set_self_of_getElem? hfd]

/-! ### The end of a round -/

theorem close_fdTable (s : RefState) (fd : ℕ) : (s.close fd).fdTable = s.fdTable.set fd none := by
  unfold RefState.close
  rcases h : s.fdTable[fd]? with _ | _ | file
  · exact (List.set_eq_of_length_le (List.getElem?_eq_none_iff.1 h)).symm
  · exact (set_self_of_getElem? h).symm
  · simp only
    split <;> simp

theorem close_eq (h : s.fdTable[fd]? = some (some ⟨v, 1⟩)) :
    s.close fd = { s with fdTable := s.fdTable.set fd none }.vnodePut v := by
  simp only [RefState.close, h]
  rw [if_pos (by norm_num)]

theorem Kept.close (h : Kept s t) (hf : t.fdTable[fd]? = some (some ⟨v, 1⟩))
    (hv : s.heap v = none) : Kept s (t.close fd) := by
  rw [close_eq hf]
  exact (h.withFds _).vnodePut hv

theorem Usable.ne_fresh {k : ℕ} (h : s.Usable k v) (ha : s.heap a = none) : v ≠ a := by
  rintro rfl
  obtain ⟨o, ho, -⟩ := h
  simp [ha] at ho

section
variable {u : RefState} {curr fd q : ℕ} {currFd : Except ℤ ℕ}

theorem getElem?_close_parent (hne : i ≠ fd) (hi : u.fdTable[i]? = some (some ⟨curr, 1⟩)) :
    ((u.vnodeGetRef q).close fd).fdTable[i]? = some (some ⟨curr, 1⟩) := by
  rw [close_fdTable, vnodeGetRef_fdTable, List.getElem?_set_ne hne.symm, hi]

namespace BothOpen
variable (h : BothOpen t u curr currFd fd q)
include h

theorem fds₁ : ((u.closeResult currFd).close fd).fdTable = t.fdTable := by
  rw [close_fdTable]
  rcases h.child with ⟨_, rfl, e⟩ | ⟨i, rfl, -, -, e⟩
  · exact e
  · rw [closeResult, close_fdTable, e]

theorem fds₂ : (((u.vnodeGetRef q).close fd).closeResult currFd).fdTable = t.fdTable := by
  rcases h.child with ⟨_, rfl, e⟩ | ⟨i, rfl, hne, -, e⟩
  · rw [closeResult, close_fdTable, vnodeGetRef_fdTable, e]
  · rw [closeResult, close_fdTable, close_fdTable, vnodeGetRef_fdTable, List.set_comm _ _ hne.symm,
      e]

theorem kept₁ (hs : Kept s t) (hc : s.heap curr = none) :
    Kept s ((u.closeResult currFd).close fd) := by
  have hq := hs.fresh h.fresh
  have hu := hs.trans h.kept
  rcases h.child with ⟨_, rfl, -⟩ | ⟨i, rfl, hne, hi, -⟩
  · exact hu.close h.parent hq
  · refine Kept.close (hu.close hi hc) ?_ hq
    rw [closeResult, close_fdTable, List.getElem?_set_ne hne, h.parent]

theorem keptParent : Kept t ((u.vnodeGetRef q).close fd) :=
  (h.kept.vnodeGetRef h.fresh).close (by rw [vnodeGetRef_fdTable, h.parent]) h.fresh

theorem kept₂ (hs : Kept s t) (hc : s.heap curr = none) :
    Kept s (((u.vnodeGetRef q).close fd).closeResult currFd) := by
  have hp := hs.trans h.keptParent
  rcases h.child with ⟨_, rfl, -⟩ | ⟨i, rfl, hne, hi, -⟩
  · exact hp
  · exact hp.close (getElem?_close_parent hne hi) hc

theorem usable (hc : curr ≠ q) : (((u.vnodeGetRef q).close fd).closeResult currFd).Usable 1 q := by
  obtain ⟨o, ho, hrc⟩ := h.two
  have hp : ((u.vnodeGetRef q).close fd).Usable 1 q := by
    have hf : (u.vnodeGetRef q).fdTable[fd]? = some (some ⟨q, 1⟩) := by
      rw [vnodeGetRef_fdTable, h.parent]
    rw [close_eq hf, vnodeGetRef_eq ho (by omega)]
    rw [vnodePut_eq (o := { o with refcount := o.refcount + 1 }) (by simp) (by simp; omega)
      (by simp; omega)]
    exact ⟨o, by simp, by omega, by omega⟩
  rcases h.child with ⟨_, rfl, -⟩ | ⟨i, rfl, hne, hi, -⟩
  · exact hp
  · obtain ⟨o', ho', h2⟩ := hp
    rw [closeResult, close_eq (getElem?_close_parent hne hi)]
    exact ⟨o', by rw [vnodePut_heap_of_ne hc.symm, ← ho'], h2⟩

end BothOpen

theorem OneOpen.fds (h : OneOpen t u curr currFd) : (u.closeResult currFd).fdTable = t.fdTable := by
  rcases h.child with ⟨_, rfl, e⟩ | ⟨i, rfl, -, e⟩
  · exact e
  · rw [closeResult, close_fdTable, e]

theorem OneOpen.keptClose (h : OneOpen t u curr currFd) (hs : Kept s t) (hc : s.heap curr = none) :
    Kept s (u.closeResult currFd) := by
  rcases h.child with ⟨_, rfl, -⟩ | ⟨i, rfl, hi, -⟩
  · exact hs.trans h.kept
  · exact (hs.trans h.kept).close hi hc

/-! ### The rounds -/

/-- The first round of `sys_getcwd` goes on: the parent can be opened and is another directory,
    and the name fits.  Otherwise it must have failed to open the working directory. -/
def leaves (out : Outside) (n : ℕ) (t : RefState) (curr : ℕ) (path : Text) : Bool :=
  let bound := t.bindVnodeToFd out curr
  let currIno := bound.1.fstatIno out bound.2
  match bound.2 with
  | .error _ => true
  | .ok _ =>
    match bound.1.tick.openPath out n dotdotPath (some curr) ⟨false, false⟩ with
    | some (u, .ok fd) => currIno ≠ u.fstatIno out (.ok fd) ∧
        (u.entryName out fd currIno).all fun name => path.length + name.length + 1 < maxPath
    | _ => false

/-- How a round ends; `go` says that it should not end early. -/
inductive RoundEnd (t : RefState) (curr : ℕ) (currFd : Except ℤ ℕ) (go : Prop) :
    RefState → Climb → Prop
  | noParent {u : RefState} {r : Except ℤ Text} (h : OneOpen t u curr currFd)
      (hg : ∀ i, currFd = .ok i → ¬ go) :
      RoundEnd t curr currFd go ((u.closeResult currFd).vnodePut curr) (.done r)
  | stop {u : RefState} {fd q : ℕ} {r : Except ℤ Text} (h : BothOpen t u curr currFd fd q)
      (hg : ∀ i, currFd = .ok i → ¬ go) :
      RoundEnd t curr currFd go (((u.closeResult currFd).close fd).vnodePut curr) (.done r)
  | lost {u : RefState} {fd q : ℕ} {r : Except ℤ Text} (h : BothOpen t u curr currFd fd q) :
      RoundEnd t curr currFd go
        ((((u.vnodeGetRef q).close fd).closeResult currFd).vnodePut q) (.done r)
  | up {u : RefState} {fd q : ℕ} {path : Text} (h : BothOpen t u curr currFd fd q) :
      RoundEnd t curr currFd go (((u.vnodeGetRef q).close fd).closeResult currFd) (.up q path)

theorem leaves_opened {parentFd : Except ℤ ℕ}
    (hi : (t.bindVnodeToFd out curr).2 = .ok i) (hl : leaves out n t curr path)
    (e : (t.bindVnodeToFd out curr).1.tick.openPath out n dotdotPath (some curr) ⟨false, false⟩ =
      some (u, parentFd)) :
    ∃ fd, parentFd = .ok fd ∧
      (t.bindVnodeToFd out curr).1.fstatIno out (.ok i) ≠ u.fstatIno out (.ok fd) ∧
      ∀ name, u.entryName out fd ((t.bindVnodeToFd out curr).1.fstatIno out (.ok i)) = some name →
        path.length + name.length + 1 < maxPath := by
  simp only [leaves, hi, e] at hl
  rcases parentFd with code | fd
  · cases hl
  · obtain ⟨h1, h2⟩ := of_decide_eq_true hl
    refine ⟨fd, rfl, h1, fun name hn => ?_⟩
    rw [hn] at h2
    exact of_decide_eq_true h2

theorem getcwdRound_end (hlink : NoLinks out)
    (hr : t.Ready 1 (some curr)) (h : t.getcwdRound out n curr path = some (t', r)) :
    RoundEnd t curr (t.bindVnodeToFd out curr).2 (leaves out n t curr path) t' r := by
  simp only [getcwdRound, Option.bind_eq_some_iff] at h
  obtain ⟨⟨u, parentFd⟩, e, h⟩ := h
  rcases round_opens hlink hr (bindVnodeToFd_bound out t curr) e with
    ⟨code, rfl, ho⟩ | ⟨fd, q, rfl, hb⟩
  · cases h
    refine .noParent ho fun i hi hl => ?_
    obtain ⟨fd, e', -⟩ := leaves_opened hi hl e
    cases e'
  · have hv : u.fdVnode fd = some q := by simp [fdVnode, hb.parent]
    simp only [hv, Option.map_some] at h
    split at h
    · next heq =>
      cases h
      refine .stop hb fun i hi hl => ?_
      obtain ⟨fd', e', hne, -⟩ := leaves_opened hi hl e
      cases e'
      exact hne (hi ▸ heq)
    split at h
    · cases h
      exact .lost hb
    · next name hname =>
      split at h
      · next hlong =>
        cases h
        refine .stop hb fun i hi hl => ?_
        obtain ⟨fd', e', -, hfit⟩ := leaves_opened hi hl e
        cases e'
        have := hfit name (hi ▸ hname)
        omega
      · cases h
        exact .up hb

theorem RoundEnd.new (h : RoundEnd t curr currFd go t' r) (hs : Kept s t)
    (hc : s.heap curr = none) (hu : t.Usable 1 curr) : Kept s t' ∧ t'.fdTable = t.fdTable ∧
      ∀ q path, r = .up q path → s.heap q = none ∧ t'.Usable 1 q := by
  cases h with
  | noParent h _ =>
    exact ⟨(h.keptClose hs hc).vnodePut hc, vnodePut_fdTable.trans h.fds, fun _ _ e => nomatch e⟩
  | stop h _ =>
    exact ⟨(h.kept₁ hs hc).vnodePut hc, vnodePut_fdTable.trans h.fds₁, fun _ _ e => nomatch e⟩
  | lost h =>
    exact ⟨(h.kept₂ hs hc).vnodePut (hs.fresh h.fresh), vnodePut_fdTable.trans h.fds₂,
      fun _ _ e => nomatch e⟩
  | up h =>
    refine ⟨h.kept₂ hs hc, h.fds₂, fun q path e => ?_⟩
    cases e
    exact ⟨hs.fresh h.fresh, h.usable (hu.ne_fresh h.fresh)⟩

/-- **The later rounds keep the counts of the old vnodes.** -/
theorem getcwdLoop_kept {r : Except ℤ Text} (hlink : NoLinks out)
    (hr : s.Ready 1 none) (hs : Kept s t) (hc : s.heap curr = none) (hu : t.Usable 1 curr)
    (h : getcwdLoop out n t curr path = some (t', r)) : Kept s t' ∧ t'.fdTable = t.fdTable := by
  induction n generalizing t curr path with
  | zero => cases h
  | succ n ih =>
    simp only [getcwdLoop, Option.bind_eq_some_iff] at h
    obtain ⟨⟨t1, r1⟩, e, h⟩ := h
    have hready : t.Ready 1 (some curr) := by
      rintro v (e | hm)
      · exact Option.some.inj e ▸ hu
      · exact hr.kept hs v (Or.inr hm)
    obtain ⟨h1, h2, h3⟩ := (getcwdRound_end hlink hready e).new hs hc hu
    rcases r1 with r1 | ⟨q, path'⟩
    · cases h
      exact ⟨h1, h2⟩
    · obtain ⟨h4, h5⟩ := h3 q path' rfl
      obtain ⟨h6, h7⟩ := ih h1 h4 h5 h
      exact ⟨h6, h7.trans h2⟩

theorem RoundEnd.first (hc : s.Usable 2 curr)
    (h : RoundEnd (s.vnodeGetRef curr) curr currFd go t' r) (hg : go) :
    ∃ b, (b = s ∨ b = s.vnodeGetRef curr) ∧ Kept b t' ∧ t'.fdTable = s.fdTable ∧
      ∀ q path, r = .up q path → b.heap q = none ∧ t'.Usable 1 q := by
  obtain ⟨o, h1, h2, h3⟩ := id hc
  have hdrop : ∀ {w}, Kept (s.vnodeGetRef curr) w → Kept s (w.vnodePut curr) :=
    fun hw => Kept.drop h1 (by omega) h2 hw
  have hne : ∀ {q}, (s.vnodeGetRef curr).heap q = none → curr ≠ q :=
    fun hq => ((hc.mono (by omega)).vnodeGetRef (k := 1) curr).ne_fresh hq
  have hold : ∀ {q}, (s.vnodeGetRef curr).heap q = none → s.heap q = none := fun hq => by
    rwa [vnodeGetRef_heap_of_ne (hne hq).symm] at hq
  cases h with
  | noParent h hn =>
    rcases h.child with ⟨_, rfl, e⟩ | ⟨i, e, -⟩
    · exact ⟨s, Or.inl rfl, hdrop h.kept, by simpa [closeResult] using e, fun _ _ e => nomatch e⟩
    · exact absurd hg (hn i e)
  | stop h hn =>
    have hf := h.fds₁
    rcases h.child with ⟨_, rfl, e⟩ | ⟨i, e, -⟩
    · exact ⟨s, Or.inl rfl, hdrop (h.kept.close h.parent h.fresh), by simpa using hf,
        fun _ _ e => nomatch e⟩
    · exact absurd hg (hn i e)
  | lost h =>
    have hf := h.fds₂
    have hp := h.keptParent
    rcases h.child with ⟨_, rfl, e⟩ | ⟨i, rfl, hi, hi', -⟩
    · exact ⟨_, Or.inr rfl, hp.vnodePut h.fresh, by simpa using hf, fun _ _ e => nomatch e⟩
    · refine ⟨s, Or.inl rfl, Kept.vnodePut ?_ (hold h.fresh), by simpa using hf,
        fun _ _ e => nomatch e⟩
      rw [closeResult, close_eq (getElem?_close_parent hi hi')]
      exact hdrop (hp.withFds _)
  | up h =>
    have hf := h.fds₂
    have hp := h.keptParent
    have hu := h.usable (hne h.fresh)
    rcases h.child with ⟨_, rfl, e⟩ | ⟨i, rfl, hi, hi', -⟩
    · refine ⟨_, Or.inr rfl, hp, by simpa using hf, fun q path e => ?_⟩
      cases e
      exact ⟨h.fresh, hu⟩
    · refine ⟨s, Or.inl rfl, ?_, by simpa using hf, fun q path e => ?_⟩
      · rw [closeResult, close_eq (getElem?_close_parent hi hi')]
        exact hdrop (hp.withFds _)
      · cases e
        exact ⟨hold h.fresh, hu⟩

/-- **`sys_getcwd` keeps the ledger if its first round leaves the working directory.** -/
theorem Ledger.getcwd {pid size : ℕ} {r : Except ℤ Text} (h : Ledger con s []) (hr : s.Roomy)
    (hlink : NoLinks out)
    (hg : ∀ curr, s.cwdOf pid = some curr →
      leaves out (n - 1) (s.vnodeGetRef curr) curr [])
    (e : s.getcwd out n pid size = some (s', r)) : Ledger con s' [] := by
  simp only [RefState.getcwd, Option.bind_eq_some_iff, Option.map_eq_some_iff] at e
  obtain ⟨curr, hcwd, ⟨t, r'⟩, e, he⟩ := e
  cases he
  have hready := h.cwdOf_ready hr pid
  have hu : s.Usable 4 curr := hready curr (Or.inl hcwd)
  have hgo := hg curr hcwd
  rcases n with _ | n
  · cases e
  simp only [getcwdLoop, Option.bind_eq_some_iff] at e
  obtain ⟨⟨t1, r1⟩, e1, e⟩ := e
  have hmounts : (s.vnodeGetRef curr).mounts = s.mounts := by
    obtain ⟨x, hx⟩ := exists_vnodeGetRef s curr
    rw [hx, set_mounts]
  have hready' : (s.vnodeGetRef curr).Ready 3 (some curr) := by
    rintro v (hv | ⟨m, hm, hv⟩)
    · exact Option.some.inj hv ▸ hu.vnodeGetRef curr
    · exact (hready v (Or.inr ⟨m, hmounts ▸ hm, hv⟩)).vnodeGetRef curr
  have hend := getcwdRound_end hlink (hready'.mono (by omega)) e1
  obtain ⟨b, hb, hk, hfd, hup⟩ := hend.first (hu.mono (by omega)) hgo
  -- the ledger and the roots of both states that the later rounds may start from
  obtain ⟨hs, hroots, hbfd⟩ : Ledger con b [] ∧ b.Ready 1 none ∧ b.fdTable = s.fdTable := by
    rcases hb with rfl | rfl
    · exact ⟨h, fun v hv => (hready v (Or.inr (hv.resolve_left nofun))).mono (by omega), rfl⟩
    · exact ⟨(h.getRef (hu.mono (by omega))).forget,
        fun v hv => (hready' v (Or.inr (hv.resolve_left nofun))).mono (by omega),
        vnodeGetRef_fdTable⟩
  rcases r1 with r1 | ⟨q, path⟩
  · cases e
    exact hs.extends ⟨hk, hfd.trans hbfd.symm⟩
  · obtain ⟨hq, huq⟩ := hup q path rfl
    obtain ⟨hk', hfd'⟩ := getcwdLoop_kept hlink hroots hk hq huq e
    exact hs.extends ⟨hk', hfd'.trans (hfd.trans hbfd.symm)⟩

end

end RefState

/-! ## Runs -/

open RefState

/-- The calls; `pid` is the process that makes it. -/
inductive RefCall
  | chdir (pid : ℕ) (path : Text)
  | getcwd (pid size : ℕ)
  | fork (pid : ℕ)
  | openPath (pid : ℕ) (path : Text) (flags : OpenFlags)
  | close (fd : ℕ)
  | create (pid : ℕ) (path : Text)
  | mkdir (pid : ℕ) (path : Text)
  | unlink (pid : ℕ) (path : Text)
  | rename (pid : ℕ) (oldpath newpath : Text)

/-- A call with its answers from outside and a bound on its loops; `none` if the bound is too
    small. -/
def RefCall.exec (out : Outside) (n : ℕ) (s : RefState) : RefCall → Option RefState
  | chdir pid path => (s.chdir out n pid path).map Prod.fst
  | getcwd pid size => (s.getcwd out n pid size).map Prod.fst
  | fork pid => (s.fork out n pid).map Prod.fst
  | openPath pid path flags => (s.openPath out n path (s.cwdOf pid) flags).map Prod.fst
  | close fd => some (s.close fd)
  | create pid path => (s.create out n path (s.cwdOf pid)).map Prod.fst
  | mkdir pid path => (s.mkdir out n path (s.cwdOf pid)).map Prod.fst
  | unlink pid path => (s.unlink out n path (s.cwdOf pid)).map Prod.fst
  | rename pid oldpath newpath =>
    (s.rename out n oldpath newpath (s.cwdOf pid)).map Prod.fst

/-- A call that returns. -/
structure RefStep where
  call : RefCall
  out : Outside
  bound : ℕ

def RefStep.run (c : RefStep) (s : RefState) : RefState := (c.call.exec c.out c.bound s).getD s

/-- The counts have room, `sys_getcwd` can leave the working directory, and no descriptor of the
    console is closed. -/
def RefStep.Fits (con : ℕ) (s : RefState) (c : RefStep) : Prop :=
  (c.call.exec c.out c.bound s).isSome ∧ s.Roomy ∧
  match c.call with
  | .getcwd pid _ => NoLinks c.out ∧ ∀ curr, s.cwdOf pid = some curr →
      leaves c.out (c.bound - 1) (s.vnodeGetRef curr) curr [] = true
  | .close fd => s.fdVnode fd ≠ some con
  | _ => True

theorem RefStep.keeps {con : ℕ} {s : RefState} {c : RefStep} (h : Ledger con s [])
    (hc : c.Fits con s) : Ledger con (c.run s) [] := by
  obtain ⟨call, out, n⟩ := c
  obtain ⟨hret, hroom, hfit⟩ := hc
  obtain ⟨s', hs'⟩ := Option.isSome_iff_exists.1 hret
  rw [show RefStep.run ⟨call, out, n⟩ s = s' from (congrArg (Option.getD · s) hs' :)]
  have parent : ∀ {pid path code}, s.parentOperation out n path (s.cwdOf pid) = some (s', code) →
      Ledger con s' [] := fun e =>
    h.extends (parentOperation_extends ((h.cwdOf_ready hroom _).mono (by omega)) e)
  cases call with
  | close fd =>
    cases hs'
    exact h.close hfit fun p hp => (h.usable hroom (mem_heldVnodes_of_fd hp)
      fun e => hfit (e ▸ hp)).le
  | chdir pid path =>
    obtain ⟨⟨_, code⟩, e, rfl⟩ := Option.map_eq_some_iff.1 hs'
    exact h.chdir hroom e
  | getcwd pid size =>
    obtain ⟨⟨_, code⟩, e, rfl⟩ := Option.map_eq_some_iff.1 hs'
    exact h.getcwd hroom hfit.1 hfit.2 e
  | fork pid =>
    obtain ⟨⟨_, code⟩, e, rfl⟩ := Option.map_eq_some_iff.1 hs'
    exact h.fork hroom e
  | openPath pid path flags =>
    obtain ⟨⟨_, code⟩, e, rfl⟩ := Option.map_eq_some_iff.1 hs'
    exact h.openPath ((h.cwdOf_ready hroom pid).mono (by omega)) e
  | create pid path | mkdir pid path | unlink pid path =>
    obtain ⟨⟨_, code⟩, e, rfl⟩ := Option.map_eq_some_iff.1 hs'
    exact parent e
  | rename pid oldpath newpath =>
    obtain ⟨⟨_, code⟩, e, rfl⟩ := Option.map_eq_some_iff.1 hs'
    exact h.rename (h.cwdOf_ready hroom pid) h.cwdOf_ne e

/-- **A vnode is not freed while it is in use**: in all runs whose calls fit, the count of every
    vnode but the console's covers its holders. -/
theorem vnode_refs_cover_holders {con : ℕ} {s₀ s : RefState} (h₀ : Ledger con s₀ [])
    (h : Runs RefStep.run (RefStep.Fits con) s₀ s) (p : ℕ) (hp : p ≠ con) :
    s.holders p ≤ s.refs p := by
  have hs := h.invariant (I := fun s => Ledger con s []) (fun _ _ hs hc => RefStep.keeps hs hc) h₀
  exact hs.held p hp

/-! ## The system after its start -/

/-- The vnodes of the keyboard, the console, the serial line and the root. -/
def bootHeap : ℕ → Option VnodeObj
  | 0 => some ⟨0, 0, .other, 1⟩
  | 1 => some ⟨1, 0, .other, 1⟩
  | 2 => some ⟨2, 0, .other, 1⟩
  | 3 => some ⟨3, 0, .dir, 2⟩
  | _ => none

/-- After `vfs_init_stdio`, `vfs_mount` and the start of the first process; `junk` is what the
    files of `vfs_init_stdio` have as their counts. -/
def bootState (junk : ℕ) : RefState where
  heap := bootHeap
  fdTable := [some ⟨0, junk⟩, some ⟨1, junk⟩, some ⟨1, junk⟩, some ⟨2, junk⟩] ++
    List.replicate 60 none
  mounts := [⟨['/'], 3⟩]
  cwd := [some 3]
  clock := 0

/-- A file system with one directory `a` below its root, and memory enough. -/
def demoOutside : Outside where
  lookup _ _ ino name :=
    if name = dotdotPath then some (0, .dir)
    else if ino = 0 ∧ name = ['a'] then some (1, .dir)
    else none
  readlink _ _ _ := none
  getdents _ _ ino := if ino = 0 then [(0, dotdotPath), (1, ['a'])] else [(0, dotdotPath)]
  fstats _ := true
  stale _ := 0
  op _ := -1
  kmalloc time := some (time + 10)
  strdup _ := true
  opens _ := true

theorem demoOutside_noLinks : NoLinks demoOutside := by
  intro time sb ino i kind h
  simp only [demoOutside, if_true, Option.some.injEq, Prod.mk.injEq] at h
  rw [← h.2]
  decide

theorem bootState_sound : Ledger 1 (bootState 1) [] :=
  .of_held (by decide) (by decide) (by decide) (by decide)

def cdStep : RefStep := ⟨.chdir 0 ['a'], demoOutside, 9⟩
def pwdStep : RefStep := ⟨.getcwd 0 64, demoOutside, 9⟩

theorem cdStep_fits : cdStep.Fits 1 (bootState 1) :=
  ⟨by decide +kernel, by unfold Roomy; decide +kernel, trivial⟩

theorem pwdStep_fits : pwdStep.Fits 1 (cdStep.run (bootState 1)) := by
  refine ⟨by decide +kernel, by unfold Roomy; decide +kernel, demoOutside_noLinks, fun curr h => ?_⟩
  have hc : (cdStep.run (bootState 1)).cwdOf 0 = some 11 := by decide +kernel
  obtain rfl : 11 = curr := Option.some.inj (hc.symm.trans h)
  decide +kernel

/-- `cd a`, and then its path is asked for: the root still has its references. -/
theorem vnode_refs_cover_holders_subdirectory : (pwdStep.run (cdStep.run (bootState 1))).holders 3 ≤
      (pwdStep.run (cdStep.run (bootState 1))).refs 3 :=
  vnode_refs_cover_holders bootState_sound
    (.head ⟨cdStep, cdStep_fits, rfl⟩ (.head ⟨pwdStep, pwdStep_fits, rfl⟩ .refl)) 3 (by decide)

/-- Descriptors 1 and 2 share one reference on the console; and after `sys_getcwd` was called
    twice in the root, the root is freed, while it still is the root and the working
    directory. -/
theorem getcwd_frees_root : ((bootState 1).refs 1, (bootState 1).holders 1) = (1, 2) ∧
    ((pwdStep.run (pwdStep.run (bootState 1))).heap 3,
      (pwdStep.run (pwdStep.run (bootState 1))).holders 3) = (none, 2) := by
  decide +kernel

end Kabanos
