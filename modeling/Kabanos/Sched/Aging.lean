/-
  Aging and waiting: how long a thread has waited when `sched_apply_aging` raises its priority.

  The run of the scheduler is followed by a clock for each thread, which counts the ticks since
  the thread was last enqueued or promoted.  The clocks are no part of the scheduler, which has
  `last_enqueue_tick` for this purpose.
-/
import Kabanos.Sched.Fifo

namespace Kabanos

/-- `AGING_THRESHOLD_MS`; a tick is a millisecond. -/
def agingThresholdMs : ℕ := 500

/-- The priority of thread `t` is raised: `0` is the highest one. -/
def Raised (s s' : Sched) (t : ℕ) : Prop := (s'.threads t).priority < (s.threads t).priority

instance (s s' : Sched) (t : ℕ) : Decidable (Raised s s' t) := inferInstanceAs (Decidable (_ < _))

/-- The scheduler with its lists, and the clocks of the threads. -/
structure Clocked where
  sched : Sched
  queues : Queues
  waited : ℕ → ℕ

/-- The clocks after a call that leads from `s` to `s'`. -/
def SchedCall.clocks (c : SchedCall) (s s' : Sched) (waited : ℕ → ℕ) : ℕ → ℕ :=
  match c with
  | .enqueue t => Function.update waited t 0
  | .tick _ => fun t => waited t + 1
  | .applyAging => fun t => if Raised s s' t then 0 else waited t
  | _ => waited

/-- A call that returns, with the clocks; the tick counter goes up by one. -/
def ClockedStep (x y : Clocked) : Prop :=
  ∃ c : SchedCall, c.Legal x.sched x.queues ∧
    (∀ now, c = .tick now → now = (x.sched.timeTick + 1) % 2 ^ 32) ∧
    (∃ r, Yields (c.exec x.sched) (y.sched, r)) ∧ y.queues = (c.spec x.sched x.queues).1 ∧
    y.waited = c.clocks x.sched y.sched x.waited

section
variable {s s' s₀ : Sched} {q : Queues} {t idle : ℕ} {waited : ℕ → ℕ} {x : Clocked}

/-- The threshold in ticks is `0`, so every thread has waited long enough. -/
theorem overThreshold_all (s : Sched) (t : ℕ) : overThreshold s t := Nat.zero_le _

theorem ClockedStep.run
    (hr : Relation.ReflTransGen ClockedStep ⟨schedInit s₀ idle, fun _ => [], waited⟩ x) :
    Ready x.sched x.queues := by
  have h : Relation.ReflTransGen SchedStep (schedInit s₀ idle, fun _ => [])
      (x.sched, x.queues) := by
    refine hr.lift (fun x : Clocked => (x.sched, x.queues)) ?_
    rintro x y ⟨c, hc, -, hy, hq, -⟩
    exact ⟨c, hc, hy, hq⟩
  exact (SchedStep.run h).1

theorem mem_age_above {old : ℕ → Prop} [DecidablePred old] {p : ℕ} (h1 : 1 ≤ p) (hp : p < 4)
    (ht : t ∈ q p) (hold : old t) : t ∈ q.age old (p - 1) := by
  refine List.mem_append_right _ ?_
  rw [if_pos (by omega), Nat.sub_add_cancel h1]
  exact List.mem_filter.2 ⟨ht, by simpa using hold⟩

/-- **`sched_apply_aging`** raises the priority of every thread that waits below the first
    queue. -/
theorem raised_iff (h : Ready s q) (ha : Yields (fun n => schedApplyAging n s) s') :
    Raised s s' t ↔ ∃ p, 1 ≤ p ∧ p < 4 ∧ t ∈ q p := by
  obtain ⟨s1, hy, hr, -, hb⟩ := h.age
  obtain rfl := ha.unique hy
  constructor
  · intro hlt
    by_contra hno
    have e := hb t fun p h1 hp ht => hno ⟨p, h1, hp, ht⟩
    have hprio : (s'.threads t).priority = (s.threads t).priority :=
      (congrArg Thread.priority e :)
    exact absurd hlt (by rw [Raised, hprio]; exact lt_irrefl _)
  · rintro ⟨p, h1, hp, ht⟩
    have hnew := hr.priority (p - 1) (by omega) t
      (mem_age_above h1 hp ht (overThreshold_all s t))
    rw [Raised, hnew, h.priority p hp t ht]
    omega

/-- **Aging rewards waiting** only if everybody below the first queue has waited: the threads
    that `sched_apply_aging` promotes have waited for the threshold iff all of them have. -/
theorem aging_after_waiting_iff
    (hr : Relation.ReflTransGen ClockedStep ⟨schedInit s₀ idle, fun _ => [], waited⟩ x)
    (ha : Yields (fun n => schedApplyAging n x.sched) s') :
    (∀ t, Raised x.sched s' t → agingThresholdMs ≤ x.waited t) ↔
      ∀ p, 1 ≤ p → p < 4 → ∀ t ∈ x.queues p, agingThresholdMs ≤ x.waited t := by
  have h := ClockedStep.run hr
  constructor
  · intro hall p h1 hp t ht
    exact hall t ((raised_iff h ha).2 ⟨p, h1, hp, ht⟩)
  · intro hall t ht
    obtain ⟨p, h1, hp, hm⟩ := (raised_iff h ha).1 ht
    exact hall p h1 hp t hm

/-! ## A thread that waits -/

/-- A tick of the timer. -/
def Clocked.tick (x : Clocked) : Clocked :=
  ⟨{ x.sched with timeTick := (x.sched.timeTick + 1) % 2 ^ 32 }, x.queues,
    fun t => x.waited t + 1⟩

theorem Clocked.tick_step (x : Clocked) : ClockedStep x x.tick :=
  ⟨.tick _, trivial, fun _ e => (SchedCall.tick.inj e).symm, ⟨none, .pure _⟩, rfl, rfl⟩

theorem Clocked.ticks_run (x : Clocked) (n : ℕ) :
    Relation.ReflTransGen ClockedStep x (tick^[n] x) := by
  induction n with
  | zero => exact .refl
  | succ n ih =>
    rw [Function.iterate_succ_apply']
    exact ih.tail (tick_step _)

theorem Clocked.ticks_same (x : Clocked) (n : ℕ) :
    (tick^[n] x).queues = x.queues ∧ ∀ t, (tick^[n] x).waited t = x.waited t + n := by
  induction n with
  | zero => exact ⟨rfl, fun _ => rfl⟩
  | succ n ih =>
    rw [Function.iterate_succ_apply']
    exact ⟨ih.1, fun t => congrArg (· + 1) (ih.2 t)⟩

/-- Tick 99, with nobody ready. -/
def demoClocked : Clocked :=
  ⟨schedInit { demoThreads with timeTick := 99 } 1, fun _ => [], fun _ => 0⟩

/-- Thread `5` has been enqueued, with priority `1`. -/
def demoWaiting : Clocked :=
  ⟨schedEnqueue demoClocked.sched 5, Queues.enqueue (fun _ => []) 1 5,
    Function.update (fun _ => 0) 5 0⟩

theorem demoWaiting_run (n : ℕ) :
    Relation.ReflTransGen ClockedStep demoClocked (Clocked.tick^[n] demoWaiting) := by
  have h : ClockedStep demoClocked demoWaiting :=
    ⟨.enqueue 5, ⟨by decide, by decide, by decide, by decide⟩, fun _ e => (by cases e),
      ⟨none, .pure _⟩, rfl, rfl⟩
  exact (Relation.ReflTransGen.single h).trans (demoWaiting.ticks_run n)

/-- A thread that has waited for half a second is promoted. -/
theorem aging_after_waiting_half_second : ∃ s',
    Yields (fun n => schedApplyAging n (Clocked.tick^[500] demoWaiting).sched) s' ∧
      ∀ t, Raised (Clocked.tick^[500] demoWaiting).sched s' t →
        agingThresholdMs ≤ (Clocked.tick^[500] demoWaiting).waited t := by
  obtain ⟨s', hy, -⟩ := (ClockedStep.run (demoWaiting_run 500)).age
  refine ⟨s', hy, (aging_after_waiting_iff (demoWaiting_run 500) hy).2 fun p _ _ t _ => ?_⟩
  rw [(demoWaiting.ticks_same 500).2 t]
  exact Nat.le_add_left 500 _

/-- Thread `5` is promoted at tick 100, a tick after it was enqueued. -/
theorem aging_after_one_tick : ∃ s', timerTickGet demoWaiting.tick.sched = 100 ∧
    Relation.ReflTransGen ClockedStep demoClocked demoWaiting.tick ∧
    Yields (fun n => schedApplyAging n demoWaiting.tick.sched) s' ∧
      Raised demoWaiting.tick.sched s' 5 ∧ demoWaiting.tick.waited 5 = 1 := by
  have h := ClockedStep.run (demoWaiting_run 1)
  obtain ⟨s', hy, -⟩ := h.age
  refine ⟨s', by decide, demoWaiting_run 1, hy, (raised_iff h hy).2 ⟨1, le_rfl, by decide, ?_⟩, rfl⟩
  decide

end

end Kabanos
