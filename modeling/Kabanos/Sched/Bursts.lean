/-
  CPU bursts and their estimates: what `sched_prepare_for_cpu_burst` makes of the past of a thread.

  A run of the kernel is followed by a log of the bursts of each thread.  A burst begins when
  `sched_pick_next` takes the thread from a ready queue, and the log notes what is stored then and
  the ticks that are charged to the thread from then on.
-/
import Kabanos.Sched.SleepTime

namespace Kabanos

/-- A burst: the estimate and the priority that are stored when the thread is picked, and the
    ticks for which it runs. -/
structure Burst where
  estimate : ℕ
  priority : ℕ
  ran : ℕ
  deriving DecidableEq

def Burst.tick (b : Burst) : Burst := { b with ran := b.ran + 1 }

/-- The bursts of each thread, the last one first. -/
abbrev Bursts := ℕ → List Burst

/-- The burst that begins with `t`. -/
def Thread.burst (t : Thread) : Burst := ⟨t.burstTicksEstimate, t.priority, 0⟩

/-- The log after a call of `sched_pick_next`; the idle thread has no bursts. -/
def logPick (s : Sched) (b : Bursts) : Bursts :=
  let (s', t) := schedPickNext s
  if t = s.kernelIdleTask then b else Function.update b t ((s'.threads t).burst :: b t)

/-- The log after a tick is charged to thread `t`. -/
def logTick (b : Bursts) (t : ℕ) : Bursts := Function.update b t ((b t).modifyHead Burst.tick)

/-- The log after the lines of `sched_on_timer_tick` about the running thread. -/
def logTickCurrent (c : CpuState) (b : Bursts) : Bursts :=
  if c.current = 0 ∨ (c.sched.threads c.current).state ≠ .running then b
  else
    let c := chargeCurrent c
    let b := logTick b c.current
    if remainTime c ≤ 0 then logPick (schedEnqueue c.sched c.current) b else b

/-- The log after a call; the system calls that sleep end in a switch. -/
def CpuCall.log (call : CpuCall) (c : CpuState) (b : Bursts) (n : ℕ) : Bursts :=
  match call with
  | .enqueue _ => b
  | .switchNext => logPick c.sched b
  | .sleep _ => logPick c.sched b
  | .nanosleep _ => logPick (blockCurrent c).sched b
  | .tick => (wakeAndAge n (timeTickInc c)).elim b fun c => logTickCurrent c b

/-- A call that returns, with the log. -/
def BurstStep (x y : CpuState × Bursts) : Prop :=
  ∃ call : CpuCall, call.Legal x.1 ∧
    Yields (fun n => (call.exec x.1 n).map fun c => (c, call.log x.1 x.2 n)) y

/-! ## What the log says about the threads -/

/-- Thread `t` is in a ready queue. -/
def InQueue (s : Sched) (t : ℕ) : Prop := ∃ q, Ready s q ∧ ∃ p < 4, t ∈ q p

/-- The last burst of thread `t` is `x`.  As long as the thread is not enqueued again its priority
    and its slice are those of the burst, and there is time left; afterwards its estimate is the
    slice. -/
structure LastBurst (s : Sched) (t : ℕ) (x : Burst) : Prop where
  tid : (s.bare t).tid ≠ 0
  ran : (s.bare t).currTimeQuantumTicksPassed = x.ran
  ran_le : x.ran ≤ timeQuantums x.priority
  outside : ¬ InQueue s t → (s.bare t).priority = x.priority ∧
    (s.bare t).currTimeQuantum = timeQuantums x.priority ∧ x.ran < timeQuantums x.priority
  inside : InQueue s t → (s.bare t).burstTicksEstimate = timeQuantums x.priority

/-- The estimate of a burst is the mean of the ticks of the burst before it and of the slice that
    it had. -/
def FollowsSlice (new old : Burst) : Prop :=
  new.estimate = (old.ran + timeQuantums old.priority) / 2

/-- The log is that of the threads. -/
structure Logged (s : Sched) (b : Bursts) : Prop where
  last : ∀ t x, (b t).head? = some x → LastBurst s t x
  chain : ∀ t, (b t).IsChain FollowsSlice

section
variable {s s' : Sched} {q q' : Queues} {l : List ℕ} {t p n : ℕ} {x : Burst} {b : Bursts}
  {c c' : CpuState}

theorem timeQuantums_le (p : ℕ) : timeQuantums p ≤ 200 := by
  unfold timeQuantums
  rcases p with _ | _ | _ | _ | p <;> simp

theorem timeQuantums_pos (h : p < 4) : 0 < timeQuantums p := by
  interval_cases p <;> decide

theorem Ready.inQueue_iff (h : Ready s q) : InQueue s t ↔ ∃ p < 4, t ∈ q p := by
  constructor
  · rintro ⟨q', h', p, hp, ht⟩
    exact ⟨p, hp, (h.queue p hp).seg.unique (h'.queue p hp).seg (h.queue p hp).not_nil
      (h'.queue p hp).not_nil ▸ ht⟩
  · exact fun ht => ⟨q, h, ht⟩

/-- The fields that the log is about. -/
structure SameBurst (s s' : Sched) (t : ℕ) : Prop where
  tid : (s'.bare t).tid = (s.bare t).tid
  passed : (s'.bare t).currTimeQuantumTicksPassed = (s.bare t).currTimeQuantumTicksPassed
  quantum : (s'.bare t).currTimeQuantum = (s.bare t).currTimeQuantum
  estimate : (s'.bare t).burstTicksEstimate = (s.bare t).burstTicksEstimate
  priority : ¬ InQueue s t → (s'.bare t).priority = (s.bare t).priority
  queue : InQueue s' t ↔ InQueue s t

theorem SameBurst.of_bare (h : s'.bare t = s.bare t) (hq : InQueue s' t ↔ InQueue s t) :
    SameBurst s s' t := by
  constructor <;> simp [h, hq]

theorem LastBurst.congr (h : LastBurst s t x) (e : SameBurst s s' t) : LastBurst s' t x := by
  refine ⟨e.tid ▸ h.tid, e.passed.trans h.ran, h.ran_le, fun hq => ?_, fun hq => ?_⟩
  · have hq' := mt e.queue.2 hq
    obtain ⟨h1, h2, h3⟩ := h.outside hq'
    exact ⟨(e.priority hq').trans h1, e.quantum.trans h2, h3⟩
  · exact e.estimate.trans (h.inside (e.queue.1 hq))

theorem Logged.congr (h : Logged s b) (e : ∀ t, SameBurst s s' t) : Logged s' b :=
  ⟨fun t x hx => (h.last t x hx).congr (e t), h.chain⟩

/-! ## Enqueueing and picking -/

/-- **`sched_enqueue`** of a loose thread: the estimate becomes the slice of its burst. -/
theorem Logged.of_enqueue (ha : Apart s q l) (ht : Loose s q l t)
    (hother : ∀ y x, y ≠ t → (b y).head? = some x → LastBurst s y x)
    (hself : ∀ x, (b t).head? = some x → (s.bare t).currTimeQuantumTicksPassed = x.ran ∧
      x.ran ≤ timeQuantums x.priority ∧ (s.bare t).priority = x.priority)
    (hchain : ∀ t, (b t).IsChain FollowsSlice) : Logged (schedEnqueue s t) b := by
  have hb := bare_schedEnqueue ht.ne ht.tid ht.priority
  have hr := (ha.enqueue ht).ready
  refine ⟨fun y x hx => ?_, hchain⟩
  by_cases e : y = t
  · subst e
    obtain ⟨h1, h2, h3⟩ := hself x hx
    have hy : (schedEnqueue s y).bare y = s.enqueued y := by rw [hb, Function.update_self]
    have hin : InQueue (schedEnqueue s y) y :=
      hr.inQueue_iff.2 ⟨_, ht.priority, by simp [Queues.enqueue]⟩
    refine ⟨hy ▸ ht.tid, hy ▸ h1, h2, fun hq => absurd hin hq, fun _ => ?_⟩
    rw [hy]
    exact congrArg timeQuantums h3
  · refine (hother y x e hx).congr (.of_bare (by rw [hb, Function.update_of_ne e]) ?_)
    rw [hr.inQueue_iff, ha.ready.inQueue_iff]
    refine exists_congr fun p => and_congr_right fun _ => ⟨fun hm => ?_, fun hm => ?_⟩
    · exact (mem_enqueue hm).resolve_right e
    · unfold Queues.enqueue
      rw [Function.update_apply]
      split_ifs with hp
      · exact List.mem_append_left _ (hp ▸ hm)
      · exact hm

theorem Loose.not_inQueue (h : Loose s q l t) (hr : Ready s q) : ¬ InQueue s t := fun hq => by
  obtain ⟨p, hp, hm⟩ := hr.inQueue_iff.1 hq
  exact h.queues p hp hm

theorem Logged.enqueue (h : Logged s b) (ha : Apart s q l) (ht : Loose s q l t) :
    Logged (schedEnqueue s t) b :=
  .of_enqueue ha ht (fun y x _ hx => h.last y x hx) (fun x hx =>
    ⟨(h.last t x hx).ran, (h.last t x hx).ran_le,
      ((h.last t x hx).outside (ht.not_inQueue ha.ready)).1⟩) h.chain

theorem Logged.enqueue_all (d : List ℕ) : ∀ (s : Sched) (q : Queues), Apart s q (d ++ l) →
    0 ∉ d → (d ++ l).Nodup → Logged s b → Logged (d.foldl schedEnqueue s) b := by
  induction d with
  | nil => exact fun _ _ _ _ _ h => h
  | cons t d ih =>
    intro s q ha h0 hnd h
    obtain ⟨ht, hnd'⟩ := List.nodup_cons.1 hnd
    have hl : Loose s q (d ++ l) t := ha.loose (fun e => h0 (by simp [e])) ht
    have ha' := ha.mono fun x hx => List.mem_cons_of_mem t hx
    exact ih _ _ (ha'.enqueue hl) (fun hm => h0 (List.mem_cons_of_mem t hm)) hnd'
      (h.enqueue ha' hl)

theorem prepare_estimate (t : Thread)
    (h : t.currTimeQuantumTicksPassed + t.burstTicksEstimate ≤ 400) :
    (schedPrepareForCpuBurst t).burstTicksEstimate =
      (t.currTimeQuantumTicksPassed + t.burstTicksEstimate) / 2 := by
  simp only [schedPrepareForCpuBurst]
  rw [toInt, if_pos (by omega), Int.emod_eq_of_lt (by omega) (by omega), Int.toNat_natCast]

/-- **`sched_pick_next`** begins a burst. -/
theorem Logged.pick (h : Logged s b) (ha : Apart s q l) :
    Logged (schedPickNext s).1 (logPick s b) := by
  rcases ha.ready.pick_cases with ⟨-, e⟩ | ⟨p, t, r, hp, hq, ht, hr, -, hb⟩
  · rw [logPick, e]
    simp only [if_true]
    exact h
  have hmem : t ∈ q p := hq ▸ List.mem_cons_self
  have hne : t ≠ s.kernelIdleTask := by
    rintro rfl
    exact ha.ready.tid p hp _ hmem ha.idle
  have hlog : logPick s b = Function.update b t (((schedPickNext s).1.threads t).burst :: b t) := by
    unfold logPick
    simp only [ht, if_neg hne]
  have hin : InQueue s t := ha.ready.inQueue_iff.2 ⟨p, hp, hmem⟩
  have hgone : ¬ InQueue (schedPickNext s).1 t := fun hm => by
    obtain ⟨p', hp', hm⟩ := hr.inQueue_iff.1 hm
    exact ha.ready.not_mem_rest hp (k := []) hq p' hp' hm
  have hbt : (schedPickNext s).1.bare t = schedPrepareForCpuBurst (s.bare t) := by
    rw [hb, Function.update_self]
  have hburst : ((schedPickNext s).1.threads t).burst = ((schedPickNext s).1.bare t).burst := rfl
  rw [hlog]
  refine ⟨fun y x hx => ?_, fun y => ?_⟩
  · by_cases e : y = t
    · subst e
      rw [Function.update_self, List.head?_cons, Option.some.injEq, hburst, hbt] at hx
      subst hx
      have hprio := prepare_priority (s.bare y)
      refine ⟨?_, ?_, Nat.zero_le _, fun _ => ⟨?_, ?_, timeQuantums_pos hprio⟩,
        fun hq' => absurd hq' hgone⟩
      · rw [hbt]
        exact ha.ready.tid p hp y hmem
      all_goals
        rw [hbt]
        rfl
    · rw [Function.update_of_ne e] at hx
      refine (h.last y x hx).congr (.of_bare (by rw [hb, Function.update_of_ne e]) ?_)
      rw [hr.inQueue_iff, ha.ready.inQueue_iff]
      refine exists_congr fun p' => and_congr_right fun _ => ?_
      rw [Function.update_apply]
      split_ifs with hp'
      · rw [hp', hq, List.mem_cons, or_iff_right e]
      · rfl
  · by_cases e : y = t
    · subst e
      rw [Function.update_self, hburst, hbt]
      cases hl : b y with
      | nil => exact .singleton _
      | cons x l =>
        have hlast := h.last y x (by rw [hl]; rfl)
        have hest := hlast.inside hin
        have hle := timeQuantums_le x.priority
        have hran := hlast.ran
        have hran' := hlast.ran_le
        refine .cons_cons ?_ (hl ▸ h.chain y)
        have he := prepare_estimate (s.bare y) (by rw [hran, hest]; omega)
        rw [hran, hest] at he
        exact he
    · rw [Function.update_of_ne e]
      exact h.chain y

/-- A new state of a thread is not in the log. -/
theorem Logged.set_state (h : Logged s b) (hr : Ready s q) (t : ℕ) (st : ThreadState) :
    Logged (s.set t fun x => { x with state := st }) b := by
  have hr' : Ready (s.set t fun x => { x with state := st }) q :=
    hr.set fun _ _ _ => ⟨rfl, rfl, rfl⟩
  refine h.congr fun y => ?_
  have hq : InQueue (s.set t fun x => { x with state := st }) y ↔ InQueue s y := by
    rw [hr'.inQueue_iff, hr.inQueue_iff]
  by_cases e : y = t
  · subst e
    have hb : (s.set y fun x => { x with state := st }).bare y = { s.bare y with state := st } := by
      rw [Sched.bare_set, Function.update_self]
      rfl
    refine ⟨?_, ?_, ?_, ?_, fun _ => ?_, hq⟩ <;> rw [hb]
  · exact .of_bare (by rw [Sched.bare_set, Function.update_of_ne e]) hq

/-- **`sched_switch_next`** -/
theorem Logged.switch (h : Logged c.sched b) (ha : Apart c.sched q l) :
    Logged (schedSwitchNext c).sched (logPick c.sched b) :=
  (h.pick ha).set_state ha.ready.pick.1 _ _

/-! ## The timer -/

theorem Logged.inc (h : Logged c.sched b) (hr : Ready c.sched q) :
    Logged (timeTickInc c).sched b := by
  have hr' : Ready (timeTickInc c).sched q := ⟨hr.queue, hr.priority, hr.tid⟩
  exact h.congr fun t => .of_bare rfl (by rw [hr'.inQueue_iff, hr.inQueue_iff])

theorem queued_age {old : ℕ → Prop} [DecidablePred old] :
    (∃ p < 4, t ∈ q.age old p) ↔ ∃ p < 4, t ∈ q p := by
  constructor
  · rintro ⟨p, hp, hm⟩
    rcases mem_age hm with hm | ⟨hp3, hm⟩
    · exact ⟨p, hp, hm⟩
    · exact ⟨p + 1, by omega, hm⟩
  · rintro ⟨p, hp, hm⟩
    by_cases h : p = 0 ∨ ¬ old t
    · exact ⟨p, hp, List.mem_append_left _ (List.mem_filter.2 ⟨hm, by simpa using h⟩)⟩
    · obtain ⟨h0, hold⟩ := not_or.1 h
      refine ⟨p - 1, by omega, List.mem_append_right _ ?_⟩
      rw [if_pos (by omega), Nat.sub_add_cancel (by omega)]
      exact List.mem_filter.2 ⟨hm, by simpa using hold⟩

/-- **`sched_apply_aging`** writes no estimate. -/
theorem Logged.age (h : Logged s b) (hr : Ready s q)
    (ha : Yields (fun n => schedApplyAging n s) s') : Logged s' b := by
  obtain ⟨s1, hy, hr', -, hb⟩ := hr.age
  obtain rfl := ha.unique hy
  obtain ⟨n, hn⟩ := hy
  refine h.congr fun t => ?_
  have e := ageless_schedApplyAging (hn n le_rfl) t
  refine ⟨(congrArg Thread.tid e :), (congrArg Thread.currTimeQuantumTicksPassed e :),
    (congrArg Thread.currTimeQuantum e :), (congrArg Thread.burstTicksEstimate e :),
    fun hq => ?_, ?_⟩
  · rw [hb t fun p _ hp hm => hq (hr.inQueue_iff.2 ⟨p, hp, hm⟩)]
  · rw [hr'.inQueue_iff, hr.inQueue_iff, queued_age]

/-- **The first part of `sched_on_timer_tick`** begins no burst. -/
theorem Logged.wake_and_age (h : Logged c.sched b) (hc : Scheduled c q l)
    (hy : Yields (fun n => wakeAndAge n c) c') : Logged c'.sched b := by
  obtain ⟨w, hw, -, -, hsched⟩ := hc.sleep.wake (timerTickGet c.sched)
  obtain ⟨hsub, hnd, h0⟩ := hc.sleep.due (timerTickGet c.sched)
  have ha := hc.apart.mono hsub
  have hlog : Logged w.sched b := by
    rw [hsched]
    exact Logged.enqueue_all _ _ _ ha h0 hnd h
  obtain ⟨q1, ha1, -⟩ := ha.enqueue_all _ _ _ h0 hnd
  rw [← hsched] at ha1
  by_cases hage : timerTickGet w.sched % 100 = 0
  · obtain ⟨s2, q2, hy2, -⟩ := ha1.age
    have hy' : Yields (fun n => wakeAndAge n c) ⟨{ w with sched := s2 }, c.current⟩ := by
      unfold wakeAndAge
      refine hw.bind ?_
      simp only [if_pos hage]
      exact hy2.map _
    rw [hy.unique hy']
    exact hlog.age ha1.ready hy2
  · have hy' : Yields (fun n => wakeAndAge n c) ⟨w, c.current⟩ := by
      unfold wakeAndAge
      refine hw.bind ?_
      simp only [if_neg hage]
      exact .pure _
    rw [hy.unique hy']
    exact hlog

theorem isChain_modifyHead (l : List Burst) (h : l.IsChain FollowsSlice) :
    (l.modifyHead Burst.tick).IsChain FollowsSlice := by
  cases l with
  | nil => exact h
  | cons x l =>
    cases l with
    | nil => exact .singleton _
    | cons y l =>
      obtain ⟨h1, h2⟩ := List.isChain_cons_cons.1 h
      exact .cons_cons h1 h2

theorem chain_logTick (h : ∀ t, (b t).IsChain FollowsSlice) (y t : ℕ) :
    (logTick b t y).IsChain FollowsSlice := by
  rw [logTick, Function.update_apply]
  split_ifs with e
  · exact isChain_modifyHead _ (h t)
  · exact h y

theorem head_logTick (hx : (logTick b t t).head? = some x) :
    ∃ y, (b t).head? = some y ∧ x = y.tick := by
  rw [logTick, Function.update_self] at hx
  cases hl : b t with
  | nil => rw [hl] at hx; cases hx
  | cons y l =>
    rw [hl] at hx
    exact ⟨y, rfl, (Option.some.inj hx).symm⟩

/-- A tick is charged to a thread that is in no queue: it has run for one tick more, and its slice
    is that of its burst. -/
theorem Logged.charged (h : Logged c.sched b) (hq : ¬ InQueue c.sched c.current)
    (hx : (logTick b c.current c.current).head? = some x) :
    ((chargeCurrent c).sched.bare c.current).currTimeQuantumTicksPassed = x.ran ∧
      x.ran ≤ timeQuantums x.priority ∧
      ((chargeCurrent c).sched.bare c.current).priority = x.priority ∧
      ((chargeCurrent c).sched.bare c.current).currTimeQuantum = timeQuantums x.priority ∧
      (c.sched.bare c.current).tid ≠ 0 := by
  obtain ⟨y, hy, rfl⟩ := head_logTick hx
  have hl := h.last _ _ hy
  obtain ⟨h1, h2, h3⟩ := hl.outside hq
  have hle := timeQuantums_le y.priority
  have hran := hl.ran
  have hmod : (y.ran + 1) % 2 ^ 32 = y.ran + 1 := Nat.mod_eq_of_lt (by omega)
  rw [bare_chargeCurrent, Function.update_self]
  refine ⟨?_, h3, h1, h2, hl.tid⟩
  show ((c.sched.bare c.current).currTimeQuantumTicksPassed + 1) % 2 ^ 32 = y.ran + 1
  rw [hran, hmod]

theorem Logged.charge_other (h : Logged c.sched b) (hc : Scheduled c q l) {y : ℕ}
    (hne : y ≠ c.current) (hx : (logTick b c.current y).head? = some x) :
    LastBurst (chargeCurrent c).sched y x := by
  rw [logTick, Function.update_of_ne hne] at hx
  refine (h.last y x hx).congr (.of_bare ?_ ?_)
  · rw [bare_chargeCurrent, Function.update_of_ne hne]
  · rw [hc.charge.apart.ready.inQueue_iff, hc.apart.ready.inQueue_iff]

theorem remainTime_charged {a r : ℕ} (hq : (c.sched.bare c.current).currTimeQuantum = a)
    (hp : (c.sched.bare c.current).currTimeQuantumTicksPassed = r) (ha : a ≤ 200) (hr : r ≤ a) :
    remainTime c ≤ 0 ↔ a ≤ r := by
  have e : remainTime c = Int.bmod ((a : ℤ) - r) (2 ^ 32) := by
    rw [← hq, ← hp]
    rfl
  rw [e, Int.bmod_eq_of_le (by omega) (by omega)]
  omega

/-- The slice goes on. -/
theorem Logged.charge (h : Logged c.sched b) (hc : Scheduled c q l)
    (hq : ¬ InQueue c.sched c.current) (hrem : ¬ remainTime (chargeCurrent c) ≤ 0) :
    Logged (chargeCurrent c).sched (logTick b c.current) := by
  refine ⟨fun y x hx => ?_, fun y => chain_logTick h.chain y c.current⟩
  by_cases e : y = c.current
  · subst e
    obtain ⟨h1, h2, h3, h4, h5⟩ := h.charged hq hx
    have hleft := mt (remainTime_charged h4 h1 (timeQuantums_le _) h2).2 hrem
    have hq' : ¬ InQueue (chargeCurrent c).sched c.current := by
      rw [hc.charge.apart.ready.inQueue_iff, ← hc.apart.ready.inQueue_iff]
      exact hq
    refine ⟨?_, h1, h2, fun _ => ⟨h3, h4, not_le.1 hleft⟩, fun hin => absurd hin hq'⟩
    rw [bare_chargeCurrent, Function.update_self]
    exact h5
  · exact h.charge_other hc e hx

/-- The slice ends: the thread is enqueued. -/
theorem Logged.requeue (h : Logged c.sched b) (hc : Scheduled c q l)
    (hl : Loose c.sched q l c.current) (hl' : Loose (chargeCurrent c).sched q l c.current) :
    Logged (schedEnqueue (chargeCurrent c).sched c.current) (logTick b c.current) := by
  refine .of_enqueue hc.charge.apart hl' (fun y x e hx => h.charge_other hc e hx) (fun x hx => ?_)
    fun y => chain_logTick h.chain y c.current
  obtain ⟨h1, h2, h3, -⟩ := h.charged (hl.not_inQueue hc.apart.ready) hx
  exact ⟨h1, h2, h3⟩

/-- The idle thread has no bursts. -/
theorem Logged.idle (h : Logged s b) (ht : (s.bare t).tid = 0) : b t = [] := by
  cases hl : b t with
  | nil => rfl
  | cons x l => exact absurd ht (h.last t x (by rw [hl]; rfl)).tid

theorem Logged.charge_idle (h : Logged c.sched b) (hc : Scheduled c q l)
    (ht : (c.sched.bare c.current).tid = 0) :
    Logged (chargeCurrent c).sched (logTick b c.current) := by
  refine ⟨fun y x hx => ?_, fun y => chain_logTick h.chain y c.current⟩
  by_cases e : y = c.current
  · subst e
    obtain ⟨z, hz, -⟩ := head_logTick hx
    rw [h.idle ht] at hz
    cases hz
  · exact h.charge_other hc e hx

/-- **The second part of `sched_on_timer_tick`** -/
theorem Logged.tick_current (h : Logged c.sched b) (hc : Scheduled c q l) :
    Logged (tickCurrent c).sched (logTickCurrent c b) := by
  unfold tickCurrent logTickCurrent
  by_cases hrun : c.current = 0 ∨ (c.sched.threads c.current).state ≠ .running
  · rw [if_pos hrun, if_pos hrun]
    exact h
  rw [if_neg hrun, if_neg hrun]
  have hst : (c.sched.bare c.current).state = .running := not_not.1 (not_or.1 hrun).2
  have hst' : ((chargeCurrent c).sched.bare c.current).state = .running := by
    rw [bare_chargeCurrent, Function.update_self]
    exact hst
  have htid' : ((chargeCurrent c).sched.bare c.current).tid = (c.sched.bare c.current).tid := by
    rw [bare_chargeCurrent, Function.update_self]
  by_cases htid : (c.sched.bare c.current).tid = 0
  · -- the idle thread is not enqueued
    have hlog := h.charge_idle hc htid
    have e : schedEnqueue (chargeCurrent c).sched c.current = (chargeCurrent c).sched :=
      if_pos (.inr (htid'.trans htid))
    by_cases hrem : remainTime (chargeCurrent c) ≤ 0
    · simp only [if_pos hrem]
      show Logged (schedSwitchNext { chargeCurrent c with
        sched := schedEnqueue (chargeCurrent c).sched c.current }).sched
        (logPick (schedEnqueue (chargeCurrent c).sched c.current) (logTick b c.current))
      rw [e]
      exact hlog.switch hc.charge.apart
    · simp only [if_neg hrem]
      exact hlog
  · have hl := hc.running hst htid
    by_cases hrem : remainTime (chargeCurrent c) ≤ 0
    · have hl' := hc.charge.running hst' (htid'.symm ▸ htid)
      simp only [if_pos hrem]
      exact Logged.switch (c := { chargeCurrent c with
        sched := schedEnqueue (chargeCurrent c).sched c.current })
        (h.requeue hc hl hl') (hc.charge.apart.enqueue hl')
    · simp only [if_neg hrem]
      exact h.charge hc (hl.not_inQueue hc.apart.ready) hrem

/-! ## Runs -/

/-- A system call that sleeps. -/
theorem Logged.sleep_until (h : Logged c.sched b) (ha : Apart c.sched q l)
    (hs : SleepList c.toSleepers l) (hl : Loose c.sched q l c.current) {w : ℕ}
    (hy : Yields (fun n => sleepUntil n c w) c') : Logged c'.sched (logPick c.sched b) := by
  obtain ⟨k, r, rfl, hk, hr⟩ := hs.split w
  obtain ⟨s', hy', -, -, hsched⟩ := hs.enqueue hl.list hl.ne hk hr
  have e : c' = schedSwitchNext ⟨s', c.current⟩ := hy.unique (hy'.map _)
  have h' : Logged s'.sched b := hsched ▸ h
  have ha' : Apart s'.sched q (k ++ r) := hsched ▸ ha
  rw [e, ← hsched]
  exact Logged.switch (c := ⟨s', c.current⟩) h' ha'

/-- The log does not disturb the run. -/
theorem BurstStep.cpuStep {x y : CpuState × Bursts} (h : BurstStep x y) : CpuStep x.1 y.1 := by
  obtain ⟨call, hlegal, n, hn⟩ := h
  refine ⟨call, hlegal, n, fun m hm => ?_⟩
  obtain ⟨c, hc, e⟩ := Option.map_eq_some_iff.1 (hn m hm)
  rw [hc, ← e]

/-- **One call** keeps the log. -/
theorem Logged.call (h : Logged c.sched b) (hc : Scheduled c q l) {call : CpuCall}
    (hlegal : call.Legal c) : ∃ c' b',
    Yields (fun n => (call.exec c n).map fun c' => (c', call.log c b n)) (c', b') ∧
      Logged c'.sched b' := by
  cases call with
  | enqueue t =>
    exact ⟨{ c with sched := schedEnqueue c.sched t }, b, ⟨0, fun _ _ => rfl⟩,
      h.enqueue hc.apart (hc.loose hlegal)⟩
  | switchNext =>
    exact ⟨schedSwitchNext c, logPick c.sched b, ⟨0, fun _ _ => rfl⟩, h.switch hc.apart⟩
  | sleep seconds =>
    obtain ⟨c', -, -, hy, -⟩ := hc.sleeps hlegal (.inl ⟨seconds, rfl⟩)
    exact ⟨c', logPick c.sched b, hy.map fun c' => (c', logPick c.sched b),
      h.sleep_until hc.apart hc.sleep (hc.running hlegal.1 hlegal.2) hy⟩
  | nanosleep req =>
    obtain ⟨c', -, -, hy, -⟩ := hc.sleeps hlegal (.inr ⟨req, rfl⟩)
    have hblock : Logged (blockCurrent c).sched b := h.set_state hc.apart.ready _ _
    exact ⟨c', logPick (blockCurrent c).sched b,
      hy.map fun c' => (c', logPick (blockCurrent c).sched b),
      hblock.sleep_until (c := blockCurrent c) hc.apart.block (hc.sleep.withSched _)
        (hc.running hlegal.1 hlegal.2).block hy⟩
  | tick =>
    obtain ⟨c1, q1, hy, -, -, hc1⟩ := hc.inc.wake_and_age rfl
    have h1 := (h.inc hc.apart.ready).wake_and_age hc.inc hy
    obtain ⟨n, hn⟩ := hy
    refine ⟨tickCurrent c1, logTickCurrent c1 b, ⟨n, fun m hm => ?_⟩, h1.tick_current hc1⟩
    simp only [CpuCall.exec, CpuCall.log, timerOnTick, schedOnTimerTick, hn m hm, Option.map_some,
      Option.elim_some]

/-- **A run** keeps the log. -/
theorem Logged.run {c₀ : CpuState} (h : Booted c₀) {y : CpuState × Bursts}
    (hr : Relation.ReflTransGen BurstStep (c₀, fun _ => []) y) : Logged y.1.sched y.2 := by
  induction hr with
  | refl => exact ⟨fun t x hx => (by cases hx), fun t => .nil⟩
  | tail hr hstep ih =>
    obtain ⟨q, l, hc⟩ := Scheduled.run h (hr.lift Prod.fst fun _ _ => BurstStep.cpuStep)
    obtain ⟨call, hlegal, hy⟩ := hstep
    obtain ⟨c', b', hy', hlog⟩ := ih.call hc hlegal
    rw [hy.unique hy']
    exact hlog

/-- **The estimate of a burst** is the mean of the ticks and the slice of the burst before it, and
    so it is the mean of these ticks and the estimate of the burst before it iff that estimate
    is the slice, or is next to it with the right parity. -/
theorem burst_estimate_iff {c₀ : CpuState} (h : Booted c₀)
    (hr : Relation.ReflTransGen BurstStep (c₀, fun _ => []) (c, b)) {k : ℕ} {new old : Burst}
    (hnew : (b t)[k]? = some new) (hold : (b t)[k + 1]? = some old) :
    new.estimate = (old.ran + timeQuantums old.priority) / 2 ∧
      (new.estimate = (old.ran + old.estimate) / 2 ↔
        old.estimate = timeQuantums old.priority ∨
        old.estimate + 1 = timeQuantums old.priority ∧ Even (old.ran + old.estimate) ∨
        old.estimate = timeQuantums old.priority + 1 ∧
          Even (old.ran + timeQuantums old.priority)) := by
  have hchain := (Logged.run h hr).chain t
  obtain ⟨hk, e⟩ := List.getElem?_eq_some_iff.1 hold
  have hf : FollowsSlice new old := by
    have := List.isChain_iff_getElem.1 hchain k hk
    rwa [e, (List.getElem?_eq_some_iff.1 hnew).2] at this
  refine ⟨hf, ?_⟩
  rw [hf, Nat.even_iff, Nat.even_iff]
  omega

/-! ## Two bursts -/

/-- Thread `t` is enqueued and gets the CPU. -/
def CpuState.enqueueAndSwitch (c : CpuState) (t : ℕ) : CpuState :=
  schedSwitchNext { c with sched := schedEnqueue c.sched t }

/-- The log of two bursts of thread `t` without a tick. -/
def demoBursts (t : ℕ) : Bursts :=
  logPick (schedEnqueue (demoBoot.enqueueAndSwitch t).sched t)
    (logPick (schedEnqueue demoBoot.sched t) fun _ => [])

theorem enqueueAndSwitch_run {y : CpuState × Bursts}
    (hr : Relation.ReflTransGen BurstStep y (c, b)) (hl : (CpuCall.enqueue t).Legal c) :
    Relation.ReflTransGen BurstStep y
      (c.enqueueAndSwitch t, logPick (schedEnqueue c.sched t) b) := by
  have h : Relation.ReflTransGen BurstStep y ({ c with sched := schedEnqueue c.sched t }, b) :=
    hr.tail ⟨.enqueue t, hl, 0, fun _ _ => rfl⟩
  exact h.tail ⟨.switchNext, trivial, 0, fun _ _ => rfl⟩

theorem Scheduled.enqueue_legal (h : Scheduled c q l) (ht : Loose c.sched q l t) :
    (CpuCall.enqueue t).Legal c := by
  refine ⟨ht.ne, ht.tid, ht.priority, fun hq => ?_, fun hs => ht.list (h.asleep_iff.1 hs)⟩
  obtain ⟨p, hp, hm⟩ := h.queued_iff.1 hq
  exact ht.queues p hp hm

theorem demoBursts_run (h0 : t ≠ 0) (htid : (demoBoot.sched.bare t).tid ≠ 0)
    (hp : (demoBoot.sched.bare t).priority < 4)
    (hcur : (demoBoot.enqueueAndSwitch t).current = t)
    (hst : ((demoBoot.enqueueAndSwitch t).sched.bare t).state = .running)
    (htid' : ((demoBoot.enqueueAndSwitch t).sched.bare t).tid ≠ 0) :
    Relation.ReflTransGen BurstStep (demoBoot, fun _ => [])
      ((demoBoot.enqueueAndSwitch t).enqueueAndSwitch t, demoBursts t) := by
  have h1 := enqueueAndSwitch_run (b := fun _ => []) .refl <|
    demoBoot_booted.scheduled.enqueue_legal (t := t)
      ⟨h0, htid, hp, fun _ _ => List.not_mem_nil, List.not_mem_nil⟩
  obtain ⟨q, l, hs⟩ :=
    Scheduled.run demoBoot_booted (h1.lift Prod.fst fun _ _ => BurstStep.cpuStep)
  have hloose := hs.running (by rw [hcur]; exact hst) (by rw [hcur]; exact htid')
  rw [hcur] at hloose
  exact enqueueAndSwitch_run h1 (hs.enqueue_legal hloose)

/-- The first burst of thread `5` has its slice as estimate. -/
theorem burst_estimate_five : demoBursts 5 5 = [⟨20, 0, 0⟩, ⟨40, 0, 0⟩] ∧ 20 = (0 + 40) / 2 := by
  have e : demoBursts 5 5 = [⟨20, 0, 0⟩, ⟨40, 0, 0⟩] := by decide
  have hr := demoBursts_run (t := 5) (by decide) (by decide) (by decide) (by decide) (by decide)
    (by decide)
  exact ⟨e, ((burst_estimate_iff demoBoot_booted hr (k := 0) (by rw [e]; rfl) (by rw [e]; rfl)).2).2
    (.inl rfl)⟩

/-- The first burst of thread `7` has half its slice as estimate, and so has the second one,
    although the thread has not run at all. -/
theorem burst_estimate_forgotten : Relation.ReflTransGen BurstStep (demoBoot, fun _ => [])
      ((demoBoot.enqueueAndSwitch 7).enqueueAndSwitch 7, demoBursts 7) ∧
    demoBursts 7 7 = [⟨20, 0, 0⟩, ⟨20, 0, 0⟩] ∧ 20 ≠ (0 + 20) / 2 :=
  ⟨demoBursts_run (by decide) (by decide) (by decide) (by decide) (by decide) (by decide),
    by decide, by decide⟩

end

end Kabanos
