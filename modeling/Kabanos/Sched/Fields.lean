/-
  What the functions of the scheduler write to the threads, apart from their links.
-/
import Kabanos.Sched.Sched

namespace Kabanos

/-- The fields of a thread without its link. -/
def Thread.bare (t : Thread) : Thread := { t with next := 0 }

def Sched.bare (s : Sched) (t : ℕ) : Thread := (s.threads t).bare

section
variable {s s' : Sched} {t i p n prev : ℕ} {f : Thread → Thread}

theorem Sched.bare_set (s : Sched) (t : ℕ) (f : Thread → Thread) :
    (s.set t f).bare = Function.update s.bare t (f (s.threads t)).bare := by
  funext x
  by_cases h : x = t
  · subst h
    simp [Sched.bare, Sched.set]
  · simp [Sched.bare, Sched.set, h]

theorem Sched.bare_setNext (s : Sched) (t n : ℕ) : (s.setNext t n).bare = s.bare := by
  rw [Sched.setNext, Sched.bare_set]
  exact Function.update_eq_self t s.bare

theorem bare_addToBack (s : Sched) (p t : ℕ) : (addToBack s p t).bare = s.bare := by
  unfold addToBack
  split_ifs
  · rfl
  · exact s.bare_setNext _ _

theorem bare_removeNext (s : Sched) (i prev curr : ℕ) :
    (removeNext s i prev curr).bare = s.bare := by
  unfold removeNext
  by_cases h : prev = 0
  · simp only [h, ne_eq, not_true_eq_false, if_false]
    split_ifs <;> rfl
  · simp only [h, ne_eq, not_false_eq_true, if_true]
    split_ifs
    · exact s.bare_setNext _ _
    · exact s.bare_setNext _ _

theorem timeTick_addToBack (s : Sched) (p t : ℕ) : (addToBack s p t).timeTick = s.timeTick := by
  unfold addToBack
  split_ifs <;> rfl

/-- A thread that has been enqueued: it has a new slice, and its estimate is that slice. -/
def Sched.enqueued (s : Sched) (t : ℕ) : Thread :=
  { s.bare t with
    state := .ready
    currTimeQuantum := timeQuantums (s.bare t).priority
    burstTicksEstimate := timeQuantums (s.bare t).priority
    lastEnqueueTick := timerTickGet s }

/-- **`sched_enqueue`** -/
theorem bare_schedEnqueue (h0 : t ≠ 0) (htid : (s.bare t).tid ≠ 0) (hp : (s.bare t).priority < 4) :
    (schedEnqueue s t).bare = Function.update s.bare t (s.enqueued t) := by
  have hpr : ¬ threadNumPriorities ≤ (s.threads t).priority := not_le.2 hp
  have htid' : (s.threads t).tid ≠ 0 := htid
  unfold schedEnqueue
  rw [if_neg (not_or.2 ⟨h0, htid'⟩)]
  simp only [if_neg hpr]
  obtain ⟨s1, hs1⟩ : ∃ s1, s1 = s.set t fun x => { x with state := .ready, next := 0 } := ⟨_, rfl⟩
  rw [← hs1]
  obtain ⟨s2, hs2⟩ : ∃ s2, s2 = addToBack s1 (s.threads t).priority t := ⟨_, rfl⟩
  have hb : s2.bare = Function.update s.bare t { s.bare t with state := .ready } := by
    rw [hs2, bare_addToBack, hs1, Sched.bare_set]
    rfl
  have ht : s2.timeTick = s.timeTick := by
    rw [hs2, timeTick_addToBack, hs1]
    rfl
  have hx : (s2.threads t).bare = { s.bare t with state := .ready } :=
    (congrFun hb t).trans (Function.update_self ..)
  rw [← hs2, Sched.bare_set, hb, Function.update_idem]
  congr 1
  simp only [timerTickGet, ht]
  exact congrArg (fun x : Thread => { x with
    currTimeQuantum := timeQuantums (s.threads t).priority
    burstTicksEstimate := timeQuantums (s.threads t).priority
    lastEnqueueTick := s.timeTick % 2 ^ 32 }) hx

theorem timeTick_schedEnqueue (s : Sched) (t : ℕ) : (schedEnqueue s t).timeTick = s.timeTick := by
  unfold schedEnqueue
  by_cases h : t = 0 ∨ (s.threads t).tid = 0
  · rw [if_pos h]
  · rw [if_neg h]
    exact timeTick_addToBack _ _ _

/-- **`sched_pick_next`** prepares the thread that it returns. -/
theorem bare_schedPickNext (s : Sched) : (schedPickNext s).1.bare =
    match (List.range threadNumPriorities).find? fun p => s.readyQueueHeads p ≠ 0 with
    | none => s.bare
    | some p => Function.update s.bare (s.readyQueueHeads p)
        (schedPrepareForCpuBurst (s.bare (s.readyQueueHeads p))) := by
  unfold schedPickNext
  cases (List.range threadNumPriorities).find? fun p => decide (s.readyQueueHeads p ≠ 0) with
  | none => rfl
  | some p =>
    simp only
    obtain ⟨x, hx⟩ : ∃ x, s.readyQueueHeads p = x := ⟨_, rfl⟩
    obtain ⟨s1, hs1⟩ : ∃ s1, s1 =
      if (s.setHead p (s.threads x).next).readyQueueHeads p = 0 then
        (s.setHead p (s.threads x).next).setTail p 0 else s.setHead p (s.threads x).next := ⟨_, rfl⟩
    have hb : s1.bare = s.bare := by
      rw [hs1]
      split_ifs <;> rfl
    rw [hx, ← hs1, Sched.bare_set, Sched.bare_setNext, hb]
    congr 1
    have hbx : ((s1.setNext x 0).threads x).bare = s.bare x :=
      congrFun ((s1.bare_setNext x 0).trans hb) x
    rw [← hbx]
    rfl

/-! ## Aging -/

/-- The fields that aging does not change. -/
def Thread.ageless (t : Thread) : Thread := { t.bare with priority := 0, lastEnqueueTick := 0 }

theorem bare_promote (s : Sched) (i t : ℕ) : (promote s i t).bare = Function.update s.bare t
      { s.bare t with priority := i - 1, lastEnqueueTick := timerTickGet s } := by
  rw [promote, bare_addToBack, Sched.bare_set]
  rfl

theorem ageless_agingRound {x y : Sched × ℕ × ℕ} (h : agingRound i x = some y) (t : ℕ) :
    (y.1.bare t).ageless = (x.1.bare t).ageless := by
  unfold agingRound at h
  split_ifs at h with h0 hold
  · cases h
    show ((promote (removeNext x.1 i x.2.1 x.2.2) i x.2.2).bare t).ageless = _
    rw [bare_promote, bare_removeNext, Function.update_apply]
    split_ifs with ht
    · rw [ht]
      rfl
    · rfl
  · cases h
    rfl

theorem ageless_agingPass (h : agingPass n i s = some s') (t : ℕ) :
    (s'.bare t).ageless = (s.bare t).ageless := by
  obtain ⟨x, hx, rfl⟩ := Option.map_eq_some_iff.1 h
  have hr := (yields_of_loop hx).reach.1
  clear h hx
  induction hr with
  | refl => rfl
  | tail _ hb ih => exact (ageless_agingRound hb t).trans ih

/-- **`sched_apply_aging`** changes priorities and enqueue times only. -/
theorem ageless_schedApplyAging (h : schedApplyAging n s = some s') (t : ℕ) :
    (s'.bare t).ageless = (s.bare t).ageless := by
  obtain ⟨s1, h1, h⟩ := Option.bind_eq_some_iff.1 h
  obtain ⟨s2, h2, h3⟩ := Option.bind_eq_some_iff.1 h
  rw [ageless_agingPass h3, ageless_agingPass h2, ageless_agingPass h1]

end

end Kabanos
