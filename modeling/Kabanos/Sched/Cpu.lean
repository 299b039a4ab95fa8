/-
  The running thread and the timer interrupt: `dispatcher.c`, `timer.c`, `sched_on_timer_tick`
  and the system calls of `sleep.c`.

  A thread is in one place at a time: in a ready queue, on the sleep list, running, or somewhere
  that the scheduler does not know.  Every call keeps this, and ends.
-/
import Kabanos.Sched.Fifo
import Kabanos.Sched.Sleep

namespace Kabanos

/-- The scheduler and the sleepers, with `g_current_thread`. -/
structure CpuState extends Sleepers where
  current : ℕ

/-! ## The functions -/

def dispatchSwitchTo (c : CpuState) (next : ℕ) : CpuState :=
  { c with
    sched := c.sched.set next fun t => { t with state := .running }
    current := next }

def schedSwitchNext (c : CpuState) : CpuState :=
  dispatchSwitchTo { c with sched := (schedPickNext c.sched).1 } (schedPickNext c.sched).2

/-- The lines of `sched_on_timer_tick` about the other threads. -/
def wakeAndAge (n : ℕ) (c : CpuState) : Option CpuState :=
  (wakeUpSleeping n (timerTickGet c.sched) c.toSleepers).bind fun r =>
    if timerTickGet r.1.sched % 100 = 0 then
      (schedApplyAging n r.1.sched).map fun sched => ⟨{ r.1 with sched := sched }, c.current⟩
    else some ⟨r.1, c.current⟩

/-- `current->rt_ticks++` and `current->curr_time_quantum_ticks_passed++` -/
def chargeCurrent (c : CpuState) : CpuState :=
  { c with sched := c.sched.set c.current fun t => { t with
      rtTicks := (t.rtTicks + 1) % 2 ^ 32
      currTimeQuantumTicksPassed := (t.currTimeQuantumTicksPassed + 1) % 2 ^ 32 } }

/-- `remain_time`, an `int` -/
def remainTime (c : CpuState) : ℤ :=
  Int.bmod ((c.sched.threads c.current).currTimeQuantum -
    (c.sched.threads c.current).currTimeQuantumTicksPassed) (2 ^ 32)

/-- The lines of `sched_on_timer_tick` about the running thread. -/
def tickCurrent (c : CpuState) : CpuState :=
  if c.current = 0 ∨ (c.sched.threads c.current).state ≠ .running then c
  else
    let c := chargeCurrent c
    if remainTime c ≤ 0 then
      schedSwitchNext { c with sched := schedEnqueue c.sched c.current }
    else c

def schedOnTimerTick (n : ℕ) (c : CpuState) : Option CpuState := (wakeAndAge n c).map tickCurrent

/-- `g_time_tick++` -/
def timeTickInc (c : CpuState) : CpuState :=
  { c with sched := { c.sched with timeTick := (c.sched.timeTick + 1) % 2 ^ 32 } }

def timerOnTick (n : ℕ) (c : CpuState) : Option CpuState := schedOnTimerTick n (timeTickInc c)

structure Timespec where
  tvSec : ℕ
  tvNsec : ℤ

/-- `curr_tick + ((seconds * 1000) / TIMER_TICK_MS)`: the macro stands for `1000 / TIMER_HZ`,
    without parentheses. -/
def sleepTick (currTick seconds : ℕ) : ℕ :=
  (currTick + seconds * 1000 % 2 ^ 32 / 1000 / 1000) % 2 ^ 32

def deltaTicks (req : Timespec) : ℕ :=
  (((req.tvSec : ℤ) * 1000000000 + req.tvNsec) % 2 ^ 64).toNat * 1000 % 2 ^ 64 / 1000000000

/-- `start_tick + delta_ticks`, as a `uint32_t` -/
def nanosleepTick (startTick : ℕ) (req : Timespec) : ℕ := (startTick + deltaTicks req) % 2 ^ 32

/-- `enqueue_sleeper(current, wake_up_time)` and `sched_switch_next()` -/
def sleepUntil (n : ℕ) (c : CpuState) (wakeUpTime : ℕ) : Option CpuState :=
  (enqueueSleeper n c.toSleepers c.current wakeUpTime).map fun s => schedSwitchNext ⟨s, c.current⟩

def sysSleep (n : ℕ) (c : CpuState) (seconds : ℕ) : Option CpuState :=
  sleepUntil n c (sleepTick (timerTickGet c.sched) seconds)

/-- `current->state = THREAD_STATE_BLOCKED` -/
def blockCurrent (c : CpuState) : CpuState :=
  { c with sched := c.sched.set c.current fun t => { t with state := .blocked } }

/-- `sys_nanosleep` with a `req` that is not `NULL`; a busy wait changes nothing. -/
def sysNanosleep (n : ℕ) (c : CpuState) (req : Timespec) : Option CpuState :=
  sleepUntil n (blockCurrent c) (nanosleepTick (timerTickGet c.sched) req)

/-! ## Where the threads are -/

/-- The ready queues are `q`, and the threads of `l` are in none of them. -/
structure Apart (s : Sched) (q : Queues) (l : List ℕ) : Prop where
  ready : Ready s q
  idle : (s.bare s.kernelIdleTask).tid = 0
  ids : ∀ t ∈ l, (s.bare t).tid ≠ 0 ∧ (s.bare t).priority < 4
  apart : ∀ t ∈ l, ∀ p < 4, t ∉ q p

/-- Thread `t` is in none of the ready queues and not in `l`, and may be enqueued. -/
structure Loose (s : Sched) (q : Queues) (l : List ℕ) (t : ℕ) : Prop where
  ne : t ≠ 0
  tid : (s.bare t).tid ≠ 0
  priority : (s.bare t).priority < 4
  queues : ∀ p < 4, t ∉ q p
  list : t ∉ l

/-- The ready queues are `q`, the sleep list is `l`, and the running thread is in neither. -/
structure Scheduled (c : CpuState) (q : Queues) (l : List ℕ) : Prop where
  apart : Apart c.sched q l
  sleep : SleepList c.toSleepers l
  running : (c.sched.bare c.current).state = .running → (c.sched.bare c.current).tid ≠ 0 →
    Loose c.sched q l c.current

section
variable {s s' : Sched} {q : Queues} {l l' : List ℕ} {t x p : ℕ} {c : CpuState}

theorem SleepList.withSched {sl : Sleepers} (h : SleepList sl l) (s : Sched) :
    SleepList { sl with sched := s } l := ⟨h.seg, h.not_nil, h.nodup, h.sorted⟩

theorem SameIds.tid_bare (h : SameIds s s') (t : ℕ) : (s'.bare t).tid = (s.bare t).tid := h.tid t

theorem SameIds.idle_bare (h : SameIds s s') (hi : (s.bare s.kernelIdleTask).tid = 0) :
    (s'.bare s'.kernelIdleTask).tid = 0 := by
  rw [h.idle, h.tid_bare]
  exact hi

theorem Apart.mono (h : Apart s q l) (hl : ∀ x ∈ l', x ∈ l) : Apart s q l' :=
  ⟨h.ready, h.idle, fun t ht => h.ids t (hl t ht), fun t ht => h.apart t (hl t ht)⟩

theorem Loose.mono (h : Loose s q l t) (hl : ∀ x ∈ l', x ∈ l) : Loose s q l' t :=
  ⟨h.ne, h.tid, h.priority, h.queues, fun ht => h.list (hl t ht)⟩

theorem mem_enqueue {p' : ℕ} : x ∈ q.enqueue p' t p → x ∈ q p ∨ x = t := by
  rw [Queues.enqueue, Function.update_apply]
  split_ifs with h
  · intro hx
    rw [h]
    simpa using hx
  · exact .inl

theorem Apart.congr (h : Apart s q l) {q' : Queues} (hr : Ready s' q') (hs : SameIds s s')
    (hb : ∀ x ∈ l, s'.bare x = s.bare x) (hq : ∀ x ∈ l, ∀ p < 4, x ∉ q' p) : Apart s' q' l :=
  ⟨hr, hs.idle_bare h.idle, fun t ht => by rw [hb t ht]; exact h.ids t ht, hq⟩

/-- **`sched_enqueue`** of a loose thread. -/
theorem Apart.enqueue (h : Apart s q l) (ht : Loose s q l t) :
    Apart (schedEnqueue s t) (q.enqueue (s.bare t).priority t) l := by
  obtain ⟨hr, hs⟩ := h.ready.enqueue ht.queues ht.ne ht.tid ht.priority
  refine h.congr hr hs (fun x hx => ?_) fun x hx p hp hm => ?_
  · rw [bare_schedEnqueue ht.ne ht.tid ht.priority,
      Function.update_of_ne (fun e : x = t => ht.list (e ▸ hx))]
  · rcases mem_enqueue hm with hm | rfl
    · exact h.apart x hx p hp hm
    · exact ht.list hx

theorem Loose.enqueue (hx : Loose s q l x) (ht : Loose s q l t) (hne : x ≠ t) :
    Loose (schedEnqueue s t) (q.enqueue (s.bare t).priority t) l x := by
  have hb : (schedEnqueue s t).bare x = s.bare x := by
    rw [bare_schedEnqueue ht.ne ht.tid ht.priority, Function.update_of_ne hne]
  refine ⟨hx.ne, by rw [hb]; exact hx.tid, by rw [hb]; exact hx.priority, fun p hp hm => ?_,
    hx.list⟩
  rcases mem_enqueue hm with hm | e
  · exact hx.queues p hp hm
  · exact hne e

theorem Apart.loose (h : Apart s q (t :: l)) (h0 : t ≠ 0) (hl : t ∉ l) : Loose s q l t := by
  obtain ⟨h1, h2⟩ := h.ids t List.mem_cons_self
  exact ⟨h0, h1, h2, h.apart t List.mem_cons_self, hl⟩

/-- The threads `d` have joined the queues, and nothing else has happened to the threads. -/
structure Joined (s : Sched) (q : Queues) (d : List ℕ) (s' : Sched) (q' : Queues) : Prop where
  ids : SameIds s s'
  other : ∀ x, x ∉ d → s'.bare x = s.bare x
  enqueued : ∀ x ∈ d, s'.bare x = s.enqueued x
  only : ∀ p x, x ∈ q' p → x ∈ q p ∨ x ∈ d

/-- **`sched_enqueue` for several threads.** -/
theorem Apart.enqueue_all (d : List ℕ) : ∀ (s : Sched) (q : Queues), Apart s q (d ++ l) →
    0 ∉ d → (d ++ l).Nodup →
    ∃ q', Apart (d.foldl schedEnqueue s) q' l ∧ Joined s q d (d.foldl schedEnqueue s) q' := by
  induction d with
  | nil =>
    intro s q h _ _
    exact ⟨q, h, .refl s, fun _ _ => rfl, by simp, fun _ _ hx => .inl hx⟩
  | cons t d ih =>
    intro s q h h0 hnd
    obtain ⟨ht, hnd'⟩ := List.nodup_cons.1 hnd
    have hl : Loose s q (d ++ l) t := h.loose (fun e => h0 (by simp [e])) ht
    have h' := (h.mono fun x hx => List.mem_cons_of_mem t hx).enqueue hl
    obtain ⟨q', ha, hj⟩ := ih _ _ h' (fun hm => h0 (List.mem_cons_of_mem t hm)) hnd'
    have hs := (h.ready.enqueue hl.queues hl.ne hl.tid hl.priority).2
    have hb := bare_schedEnqueue hl.ne hl.tid hl.priority
    refine ⟨q', ha, hs.trans hj.ids, fun x hx => ?_, fun x hx => ?_, fun p x hx => ?_⟩
    · have hne : x ≠ t := fun e => hx (e ▸ List.mem_cons_self)
      rw [List.foldl_cons, hj.other x fun hm => hx (List.mem_cons_of_mem t hm), hb,
        Function.update_of_ne hne]
    · rcases List.mem_cons.1 hx with rfl | hx
      · rw [List.foldl_cons, hj.other x fun hm => ht (List.mem_append_left _ hm), hb,
          Function.update_self]
      · have hne : x ≠ t := fun e => ht (e ▸ List.mem_append_left _ hx)
        rw [List.foldl_cons, hj.enqueued x hx]
        simp only [Sched.enqueued, hb, Function.update_of_ne hne, timerTickGet, hs.tick]
    · rcases hj.only p x hx with hx | hx
      · rcases mem_enqueue hx with hx | rfl
        · exact .inl hx
        · exact .inr List.mem_cons_self
      · exact .inr (List.mem_cons_of_mem t hx)

/-- **`sched_pick_next`** returns the idle thread, or the first thread of a queue. -/
theorem Ready.pick_cases (h : Ready s q) :
    ((∀ p < 4, q p = []) ∧ schedPickNext s = (s, s.kernelIdleTask)) ∨
      ∃ p t r, p < 4 ∧ q p = t :: r ∧ (schedPickNext s).2 = t ∧
        Ready (schedPickNext s).1 (Function.update q p r) ∧ SameIds s (schedPickNext s).1 ∧
        (schedPickNext s).1.bare =
          Function.update s.bare t (schedPrepareForCpuBurst (s.bare t)) := by
  obtain ⟨h1, h2, h3⟩ := h.pick
  have hb := bare_schedPickNext s
  rw [h.first] at hb
  unfold Queues.pick at h1 h2
  rcases hf : (List.range 4).find? fun p => decide (q p ≠ []) with _ | p
  · refine .inl ⟨fun p hp => ?_, ?_⟩
    · simpa using List.find?_eq_none.1 hf p (List.mem_range.2 hp)
    · unfold schedPickNext
      rw [h.first, hf]
  · have hp : p < 4 := List.mem_range.1 (List.mem_of_find?_eq_some hf)
    obtain ⟨t, r, hq⟩ :=
      List.exists_cons_of_ne_nil (show q p ≠ [] by simpa using List.find?_some hf)
    have hqueue := h.queue p hp
    rw [hq] at hqueue
    rw [hf] at h1 h2 hb
    simp only [hq, List.tail_cons, List.headD_cons, hqueue.seg.1] at h1 h2 hb
    exact .inr ⟨p, t, r, hp, hq, h2, h1, h3, hb⟩

theorem prepare_priority (t : Thread) : (schedPrepareForCpuBurst t).priority < 4 := by
  simp only [schedPrepareForCpuBurst]
  cases hf : (List.range threadNumPriorities).find? fun i =>
      decide (toInt ((t.currTimeQuantumTicksPassed + t.burstTicksEstimate) / 2) ≤
        timeQuantums i) with
  | none => decide
  | some p => exact List.mem_range.1 (List.mem_of_find?_eq_some hf)

/-- What a switch does to the threads: `t` runs now. -/
structure Switched (c : CpuState) (q : Queues) (l : List ℕ) (c' : CpuState) (q' : Queues) :
    Prop where
  apart : Apart c'.sched q' l
  ids : SameIds c.sched c'.sched
  gone : ∀ p < 4, c'.current ∉ q' p
  idle : (c.sched.bare c'.current).tid = 0 ∨
    (c'.sched.bare c'.current).priority < 4 ∧ ∃ p < 4, c'.current ∈ q p

/-- **`sched_switch_next`** -/
theorem Apart.switch (h : Apart c.sched q l) : ∃ q', Switched c q l (schedSwitchNext c) q' := by
  obtain ⟨c', hc'⟩ : ∃ c', c' = schedSwitchNext c := ⟨_, rfl⟩
  have hcur : c'.current = (schedPickNext c.sched).2 := by rw [hc']; rfl
  have hsched : c'.sched = (schedPickNext c.sched).1.set c'.current fun t =>
      { t with state := .running } := by
    rw [hcur, hc']
    rfl
  have hset : ∀ {q' : Queues}, Ready (schedPickNext c.sched).1 q' → Ready c'.sched q' :=
    fun hr => by
    rw [hsched]
    exact hr.set fun p hp hm => ⟨rfl, rfl, rfl⟩
  have hids : SameIds (schedPickNext c.sched).1 c'.sched := by
    rw [hsched]
    exact .set rfl
  have hbare : c'.sched.bare = Function.update (schedPickNext c.sched).1.bare c'.current
      { (schedPickNext c.sched).1.bare c'.current with state := .running } := by
    rw [hsched, Sched.bare_set]
    rfl
  rw [← hc']
  rcases h.ready.pick_cases with ⟨hempty, e⟩ | ⟨p, t, r, hp, hq, ht, hr, hs, hb⟩
  · -- nobody is ready
    rw [e] at hcur hset hids hbare
    have hnot : ∀ p < 4, c'.current ∉ q p := fun p hp hm => by
      rw [hempty p hp] at hm
      cases hm
    have hne : ∀ x ∈ l, x ≠ c'.current := by
      rintro x hx rfl
      rw [hcur] at hx
      exact (h.ids _ hx).1 h.idle
    refine ⟨q, h.congr (hset h.ready) hids (fun x hx => ?_) h.apart, hids, hnot, .inl ?_⟩
    · rw [hbare, Function.update_of_ne (hne x hx)]
    · rw [hcur]
      exact h.idle
  · rw [ht] at hcur
    have hmem : c'.current ∈ q p := by
      rw [hcur, hq]
      exact List.mem_cons_self
    have hsub : ∀ p' x, x ∈ Function.update q p r p' → x ∈ q p' := fun p' x hx => by
      rw [Function.update_apply] at hx
      split_ifs at hx with e
      · rw [e, hq]
        exact List.mem_cons_of_mem t hx
      · exact hx
    have hgone : ∀ p' < 4, c'.current ∉ Function.update q p r p' := by
      rw [hcur]
      exact h.ready.not_mem_rest hp (k := []) hq
    have hother : ∀ x, x ≠ c'.current → c'.sched.bare x = c.sched.bare x := fun x hx => by
      rw [hbare, Function.update_of_ne hx, hb, Function.update_of_ne (hcur ▸ hx)]
    have hne : ∀ x ∈ l, x ≠ c'.current := by
      rintro x hx rfl
      exact h.apart _ hx p hp hmem
    refine ⟨Function.update q p r,
      h.congr (hset hr) (hs.trans hids) (fun x hx => hother x (hne x hx))
        fun x hx p' hp' hm => h.apart x hx p' hp' (hsub p' x hm),
      hs.trans hids, hgone, .inr ⟨?_, p, hp, hmem⟩⟩
    rw [hbare, Function.update_self, hb, hcur, Function.update_self]
    exact prepare_priority _

theorem Switched.running {c' : CpuState} {q' : Queues} (h : Switched c q l c' q')
    (ha : Apart c.sched q l) (ht : (c'.sched.bare c'.current).tid ≠ 0) :
    Loose c'.sched q' l c'.current := by
  rcases h.idle with h0 | ⟨hprio, p, hp, hm⟩
  · rw [h.ids.tid_bare] at ht
    exact absurd h0 ht
  · exact ⟨ha.ready.ne_zero hp hm, ht, hprio, h.gone, fun hl => ha.apart _ hl p hp hm⟩

theorem Apart.scheduled_switch (h : Apart c.sched q l) (hs : SleepList c.toSleepers l) :
    ∃ q', Scheduled (schedSwitchNext c) q' l := by
  obtain ⟨q', h'⟩ := h.switch
  exact ⟨q', h'.apart, hs.withSched _, fun _ ht => h'.running h ht⟩

/-! ## The timer -/

theorem mem_age {old : ℕ → Prop} [DecidablePred old] :
    x ∈ q.age old p → x ∈ q p ∨ p < 3 ∧ x ∈ q (p + 1) := by
  rw [Queues.age, List.mem_append]
  rintro (hx | hx)
  · exact .inl (List.mem_of_mem_filter hx)
  · split_ifs at hx with hp
    · exact .inr ⟨hp, List.mem_of_mem_filter hx⟩
    · cases hx

/-- What aging does to the threads. -/
structure Aged (s : Sched) (q : Queues) (s' : Sched) (q' : Queues) : Prop where
  ids : SameIds s s'
  ageless : ∀ x, (s'.bare x).ageless = (s.bare x).ageless
  other : ∀ x, (∀ p < 4, x ∉ q p) → s'.bare x = s.bare x
  mem : ∀ x, ∀ p < 4, x ∈ q' p → ∃ p < 4, x ∈ q p

/-- **`sched_apply_aging`** -/
theorem Apart.age (h : Apart s q l) : ∃ s' q', Yields (fun n => schedApplyAging n s) s' ∧
    Apart s' q' l ∧ Aged s q s' q' := by
  obtain ⟨s', hy, hr, hs, hb⟩ := h.ready.age
  have hmem : ∀ x, ∀ p < 4, x ∈ q.age (overThreshold s) p → ∃ p < 4, x ∈ q p := by
    intro x p hp hx
    rcases mem_age hx with hx | ⟨hp3, hx⟩
    · exact ⟨p, hp, hx⟩
    · exact ⟨p + 1, by omega, hx⟩
  have hout : ∀ x, (∀ p < 4, x ∉ q p) → s'.bare x = s.bare x := fun x hx =>
    hb x fun p _ hp => hx p hp
  obtain ⟨n, hn⟩ := hy
  refine ⟨s', _, ⟨n, hn⟩, h.congr hr hs (fun x hx => hout x (h.apart x hx)) fun x hx p hp hm => ?_,
    hs, ageless_schedApplyAging (hn n le_rfl), hout, hmem⟩
  obtain ⟨p', hp', hm'⟩ := hmem x p hp hm
  exact h.apart x hx p' hp' hm'

theorem Loose.congr (h : Loose s q l t) {q' : Queues} (hb : s'.bare t = s.bare t)
    (hq : ∀ p < 4, t ∉ q' p) : Loose s' q' l t :=
  ⟨h.ne, by rw [hb]; exact h.tid, by rw [hb]; exact h.priority, hq, h.list⟩

/-- The threads that are due, and those that sleep on. -/
theorem SleepList.due {sl : Sleepers} (h : SleepList sl l) (now : ℕ) :
    (∀ x ∈ (l.filter fun x => sl.wakeupTime x ≤ now) ++ l.filter fun x => now < sl.wakeupTime x,
      x ∈ l) ∧
    ((l.filter fun x => sl.wakeupTime x ≤ now) ++
      l.filter fun x => now < sl.wakeupTime x).Nodup ∧
    0 ∉ l.filter fun x => sl.wakeupTime x ≤ now := by
  refine ⟨fun x hx => ?_, List.nodup_append.2 ⟨h.nodup.filter _, h.nodup.filter _, ?_⟩,
    fun hm => h.not_nil (List.mem_of_mem_filter hm)⟩
  · rcases List.mem_append.1 hx with hx | hx <;> exact List.mem_of_mem_filter hx
  · rintro a ha b hb rfl
    have h1 := (List.mem_filter.1 ha).2
    have h2 := (List.mem_filter.1 hb).2
    simp only [decide_eq_true_eq] at h1 h2
    omega

/-- **The first part of `sched_on_timer_tick`** wakes the threads that are due. -/
theorem Scheduled.wake_and_age (h : Scheduled c q l) {now : ℕ} (hnow : timerTickGet c.sched = now) :
    ∃ c' q', Yields (fun n => wakeAndAge n c) c' ∧
      c'.wakeupTime = c.wakeupTime ∧ c'.sched.timeTick = c.sched.timeTick ∧
      Scheduled c' q' (l.filter fun x => now < c.wakeupTime x) := by
  obtain ⟨w, hy, hlist, htimes, hsched⟩ := h.sleep.wake now
  obtain ⟨d, hd⟩ : ∃ d, d = l.filter fun x => c.wakeupTime x ≤ now := ⟨_, rfl⟩
  obtain ⟨l', hl'⟩ : ∃ l', l' = l.filter fun x => now < c.wakeupTime x := ⟨_, rfl⟩
  rw [← hd] at hy hsched
  rw [← hl'] at hlist ⊢
  obtain ⟨hsub, hnd, h0⟩ : (∀ x ∈ d ++ l', x ∈ l) ∧ (d ++ l').Nodup ∧ 0 ∉ d := by
    rw [hd, hl']
    exact h.sleep.due now
  obtain ⟨q1, ha, hj⟩ := (h.apart.mono hsub).enqueue_all d _ _ h0 hnd
  rw [← hsched] at ha hj
  -- the running thread is not among the sleepers
  have hrun : (c.sched.bare c.current).state = .running → (c.sched.bare c.current).tid ≠ 0 →
      w.sched.bare c.current = c.sched.bare c.current ∧ Loose w.sched q1 l' c.current := by
    intro hst htid
    have hl := h.running hst htid
    have hnd : c.current ∉ d := fun hm => hl.list (hsub _ (List.mem_append_left _ hm))
    refine ⟨hj.other _ hnd, (hl.congr (hj.other _ hnd) fun p hp hm => ?_).mono fun x hx =>
      hsub x (List.mem_append_right _ hx)⟩
    rcases hj.only p _ hm with hm | hm
    · exact hl.queues p hp hm
    · exact hnd hm
  have hstate : ∀ s' : Sched, (s'.bare c.current).ageless = (w.sched.bare c.current).ageless →
      (s'.bare c.current).state = .running → (s'.bare c.current).tid ≠ 0 →
      (c.sched.bare c.current).state = .running ∧ (c.sched.bare c.current).tid ≠ 0 := by
    intro s' he hst htid
    have e1 : (s'.bare c.current).state = (w.sched.bare c.current).state :=
      (congrArg Thread.state he :)
    have e2 : (s'.bare c.current).tid = (w.sched.bare c.current).tid :=
      (congrArg Thread.tid he :)
    rw [e1] at hst
    rw [e2] at htid
    by_cases hm : c.current ∈ d
    · rw [hj.enqueued _ hm] at hst
      cases hst
    · rw [hj.other _ hm] at hst htid
      exact ⟨hst, htid⟩
  by_cases hage : timerTickGet w.sched % 100 = 0
  · obtain ⟨s2, q2, hy2, ha2, hag⟩ := ha.age
    refine ⟨⟨{ w with sched := s2 }, c.current⟩, q2, ?_,
      htimes, hag.ids.tick.trans hj.ids.tick, ha2,
      hlist.withSched _, fun hst htid => ?_⟩
    · unfold wakeAndAge
      rw [hnow]
      refine hy.bind ?_
      simp only [if_pos hage]
      exact hy2.map _
    · obtain ⟨h1, h2⟩ := hstate s2 (hag.ageless _) hst htid
      obtain ⟨-, hl⟩ := hrun h1 h2
      refine hl.congr (hag.other _ hl.queues) fun p hp hm => ?_
      obtain ⟨p', hp', hm'⟩ := hag.mem _ p hp hm
      exact hl.queues p' hp' hm'
  · refine ⟨⟨w, c.current⟩, q1, ?_, htimes, hj.ids.tick, ha, hlist,
      fun hst htid => ?_⟩
    · unfold wakeAndAge
      rw [hnow]
      refine hy.bind ?_
      simp only [if_neg hage]
      exact .pure _
    · obtain ⟨h1, h2⟩ := hstate w.sched rfl hst htid
      exact (hrun h1 h2).2

theorem Apart.set (h : Apart s q l) {f : Thread → Thread} (hn : ∀ x, (f x).next = x.next)
    (hp : ∀ x, (f x).priority = x.priority) (hid : ∀ x, (f x).tid = x.tid) :
    Apart (s.set t f) q l := by
  have hb : ∀ x, ((s.set t f).bare x).tid = (s.bare x).tid ∧
      ((s.set t f).bare x).priority = (s.bare x).priority := by
    intro x
    rw [Sched.bare_set, Function.update_apply]
    split_ifs with e
    · rw [e]
      exact ⟨hid _, hp _⟩
    · exact ⟨rfl, rfl⟩
  refine ⟨h.ready.set fun p _ _ => ⟨hn _, hp _, hid _⟩, ?_, fun x hx => ?_, h.apart⟩
  · rw [(hb _).1]
    exact h.idle
  · rw [(hb x).1, (hb x).2]
    exact h.ids x hx

theorem bare_chargeCurrent (c : CpuState) : (chargeCurrent c).sched.bare =
    Function.update c.sched.bare c.current { c.sched.bare c.current with
      rtTicks := ((c.sched.bare c.current).rtTicks + 1) % 2 ^ 32
      currTimeQuantumTicksPassed :=
        ((c.sched.bare c.current).currTimeQuantumTicksPassed + 1) % 2 ^ 32 } := by
  rw [chargeCurrent, Sched.bare_set]
  rfl

theorem Scheduled.charge (h : Scheduled c q l) : Scheduled (chargeCurrent c) q l := by
  have ha : Apart (chargeCurrent c).sched q l := by
    dsimp only [chargeCurrent]
    apply h.apart.set <;> exact fun _ => rfl
  refine ⟨ha, h.sleep.withSched _, fun hst htid => ?_⟩
  have e : (chargeCurrent c).sched.bare c.current = { c.sched.bare c.current with
      rtTicks := ((c.sched.bare c.current).rtTicks + 1) % 2 ^ 32
      currTimeQuantumTicksPassed :=
        ((c.sched.bare c.current).currTimeQuantumTicksPassed + 1) % 2 ^ 32 } := by
    rw [bare_chargeCurrent, Function.update_self]
  have hst' : ((chargeCurrent c).sched.bare c.current).state = .running := hst
  have htid' : ((chargeCurrent c).sched.bare c.current).tid ≠ 0 := htid
  rw [e] at hst' htid'
  have hl := h.running hst' htid'
  exact ⟨hl.ne, htid, by
    show ((chargeCurrent c).sched.bare c.current).priority < 4
    rw [e]
    exact hl.priority, hl.queues, hl.list⟩

/-- **The second part of `sched_on_timer_tick`**: nothing, one more tick for the running thread,
    or the end of its slice. -/
theorem tickCurrent_cases (c : CpuState) :
    tickCurrent c = c ∨ (c.sched.bare c.current).state = .running ∧
      (tickCurrent c = chargeCurrent c ∨ tickCurrent c = schedSwitchNext { chargeCurrent c with
        sched := schedEnqueue (chargeCurrent c).sched c.current }) := by
  unfold tickCurrent
  by_cases h : c.current = 0 ∨ (c.sched.threads c.current).state ≠ .running
  · exact .inl (if_pos h)
  · rw [if_neg h]
    refine .inr ⟨not_not.1 (not_or.1 h).2, ?_⟩
    by_cases hr : remainTime (chargeCurrent c) ≤ 0
    · exact .inr (if_pos hr)
    · exact .inl (if_neg hr)

theorem Scheduled.requeue (h : Scheduled c q l) (hst : (c.sched.bare c.current).state = .running) :
    ∃ q', Apart (schedEnqueue c.sched c.current) q' l := by
  by_cases htid : (c.sched.bare c.current).tid = 0
  · have e : schedEnqueue c.sched c.current = c.sched := if_pos (.inr htid)
    exact ⟨q, by rw [e]; exact h.apart⟩
  · exact ⟨_, h.apart.enqueue (h.running hst htid)⟩

theorem Scheduled.tick_current (h : Scheduled c q l) : ∃ q', Scheduled (tickCurrent c) q' l := by
  rcases tickCurrent_cases c with e | ⟨hst, e | e⟩
  · exact ⟨q, by rw [e]; exact h⟩
  · exact ⟨q, by rw [e]; exact h.charge⟩
  · have hst' : ((chargeCurrent c).sched.bare c.current).state = .running := by
      rw [bare_chargeCurrent, Function.update_self]
      exact hst
    obtain ⟨q1, ha⟩ := h.charge.requeue hst'
    rw [e]
    exact Apart.scheduled_switch (c := { chargeCurrent c with
      sched := schedEnqueue (chargeCurrent c).sched c.current }) ha
      (h.sleep.withSched _)

theorem Scheduled.inc (h : Scheduled c q l) : Scheduled (timeTickInc c) q l :=
  ⟨⟨⟨h.apart.ready.queue, h.apart.ready.priority, h.apart.ready.tid⟩, h.apart.idle, h.apart.ids,
    h.apart.apart⟩, h.sleep.withSched _,
    fun hst htid =>
      ⟨(h.running hst htid).ne, (h.running hst htid).tid, (h.running hst htid).priority,
      (h.running hst htid).queues, (h.running hst htid).list⟩⟩

theorem timeTick_schedPickNext (s : Sched) : (schedPickNext s).1.timeTick = s.timeTick := by
  unfold schedPickNext
  cases (List.range threadNumPriorities).find? fun p => decide (s.readyQueueHeads p ≠ 0) with
  | none => rfl
  | some p =>
    simp only
    split_ifs <;> rfl

theorem timeTick_switch (c : CpuState) : (schedSwitchNext c).sched.timeTick = c.sched.timeTick :=
  timeTick_schedPickNext c.sched

theorem tickCurrent_same (c : CpuState) : (tickCurrent c).wakeupTime = c.wakeupTime ∧
    (tickCurrent c).sched.timeTick = c.sched.timeTick := by
  rcases tickCurrent_cases c with e | ⟨-, e | e⟩ <;> rw [e]
  · exact ⟨rfl, rfl⟩
  · exact ⟨rfl, rfl⟩
  · exact ⟨rfl, (timeTick_switch _).trans (timeTick_schedEnqueue _ _)⟩

/-- **`timer_on_tick`** returns, and the threads that are due have left the sleep list. -/
theorem Scheduled.tick (h : Scheduled c q l) {now : ℕ}
    (hnow : timerTickGet (timeTickInc c).sched = now) :
    ∃ c' q', Yields (fun n => timerOnTick n c) c' ∧
      Scheduled c' q' (l.filter fun x => now < c.wakeupTime x) ∧
      c'.wakeupTime = c.wakeupTime ∧ timerTickGet c'.sched = now := by
  obtain ⟨c1, q1, hy, htimes, htick, h1⟩ := h.inc.wake_and_age hnow
  obtain ⟨q', h'⟩ := h1.tick_current
  obtain ⟨e1, e2⟩ := tickCurrent_same c1
  refine ⟨tickCurrent c1, q', hy.map tickCurrent, h', ?_, ?_⟩
  · rw [e1, htimes]
    rfl
  · rw [← hnow, timerTickGet, e2, htick]
    rfl

/-! ## Going to sleep -/

theorem Apart.insert (h : Apart s q l) (ht : Loose s q l t) (hl : ∀ x ∈ l', x ∈ l ∨ x = t) :
    Apart s q l' := by
  refine ⟨h.ready, h.idle, fun x hx => ?_, fun x hx => ?_⟩
  · rcases hl x hx with hx | rfl
    · exact h.ids x hx
    · exact ⟨ht.tid, ht.priority⟩
  · rcases hl x hx with hx | rfl
    · exact h.apart x hx
    · exact ht.queues

/-- **`enqueue_sleeper` and `sched_switch_next`** for a thread that is loose. -/
theorem Scheduled.sleep_until (ha : Apart c.sched q l) (hs : SleepList c.toSleepers l)
    (hl : Loose c.sched q l c.current) (w : ℕ) :
    ∃ c' q' l', Yields (fun n => sleepUntil n c w) c' ∧ Scheduled c' q' l' ∧
      (∀ x, x ∈ l' ↔ x ∈ l ∨ x = c.current) ∧
      c'.wakeupTime = Function.update c.wakeupTime c.current w ∧
      c'.sched.timeTick = c.sched.timeTick := by
  obtain ⟨k, r, rfl, hk, hr⟩ := hs.split w
  obtain ⟨s', hy, hlist, htimes, hsched⟩ := hs.enqueue hl.list hl.ne hk hr
  have hmem : ∀ x, x ∈ k ++ c.current :: r ↔ x ∈ k ++ r ∨ x = c.current := by
    intro x
    simp only [List.mem_append, List.mem_cons]
    tauto
  have ha' : Apart s'.sched q (k ++ c.current :: r) := by
    rw [hsched]
    exact ha.insert hl fun x hx => (hmem x).1 hx
  obtain ⟨q', h'⟩ := Apart.scheduled_switch (c := ⟨s', c.current⟩) ha' hlist
  refine ⟨_, q', _, hy.map _, h', hmem, htimes, ?_⟩
  rw [timeTick_switch, hsched]

/-! ## Runs -/

/-- Thread `t` is in a ready queue. -/
def Queued (c : CpuState) (t : ℕ) : Prop := ∃ q, Ready c.sched q ∧ ∃ p < 4, t ∈ q p

/-- Thread `t` is on the sleep list. -/
def Asleep (c : CpuState) (t : ℕ) : Prop := ∃ l, SleepList c.toSleepers l ∧ t ∈ l

inductive CpuCall
  | enqueue (t : ℕ)
  | switchNext
  | sleep (seconds : ℕ)
  | nanosleep (req : Timespec)
  | tick

def CpuCall.exec (call : CpuCall) (c : CpuState) (n : ℕ) : Option CpuState :=
  match call with
  | .enqueue t => some { c with sched := schedEnqueue c.sched t }
  | .switchNext => some (schedSwitchNext c)
  | .sleep seconds => sysSleep n c seconds
  | .nanosleep req => sysNanosleep n c req
  | .tick => timerOnTick n c

/-- The running thread makes a system call. -/
def CallsSystem (c : CpuState) : Prop :=
  (c.sched.bare c.current).state = .running ∧ (c.sched.bare c.current).tid ≠ 0

/-- Threads are enqueued that are not idle, have one of the four priorities, and are neither
    queued nor asleep. -/
def CpuCall.Legal (c : CpuState) : CpuCall → Prop
  | .enqueue t => t ≠ 0 ∧ (c.sched.bare t).tid ≠ 0 ∧ (c.sched.bare t).priority < 4 ∧
      ¬ Queued c t ∧ ¬ Asleep c t
  | .sleep _ => CallsSystem c
  | .nanosleep _ => CallsSystem c
  | _ => True

/-- The wake-up time that a system call asks for. -/
def CpuCall.wakeTick (c : CpuState) : CpuCall → ℕ
  | .sleep seconds => sleepTick (timerTickGet c.sched) seconds
  | .nanosleep req => nanosleepTick (timerTickGet c.sched) req
  | _ => 0

/-- A call that returns. -/
def CpuStep (c c' : CpuState) : Prop := ∃ call : CpuCall, call.Legal c ∧ Yields (call.exec c) c'

theorem Scheduled.queued_iff (h : Scheduled c q l) : Queued c t ↔ ∃ p < 4, t ∈ q p := by
  constructor
  · rintro ⟨q', hr, p, hp, ht⟩
    have hq := h.apart.ready.queue p hp
    have hq' := hr.queue p hp
    exact ⟨p, hp, hq.seg.unique hq'.seg hq.not_nil hq'.not_nil ▸ ht⟩
  · exact fun ht => ⟨q, h.apart.ready, ht⟩

theorem Scheduled.asleep_iff (h : Scheduled c q l) : Asleep c t ↔ t ∈ l := by
  constructor
  · rintro ⟨l', hl, ht⟩
    exact h.sleep.seg.unique hl.seg h.sleep.not_nil hl.not_nil ▸ ht
  · exact fun ht => ⟨l, h.sleep, ht⟩

theorem Scheduled.loose (h : Scheduled c q l) (hl : (CpuCall.enqueue t).Legal c) :
    Loose c.sched q l t := by
  obtain ⟨h0, htid, hp, hq, hs⟩ := hl
  exact ⟨h0, htid, hp, fun p hp hm => hq (h.queued_iff.2 ⟨p, hp, hm⟩),
    fun hm => hs (h.asleep_iff.2 hm)⟩

theorem Scheduled.enqueue (h : Scheduled c q l) (ht : Loose c.sched q l t) :
    Scheduled { c with sched := schedEnqueue c.sched t }
      (q.enqueue (c.sched.bare t).priority t) l := by
  refine ⟨h.apart.enqueue ht, h.sleep.withSched _,
    fun hst htid => ?_⟩
  have hb := bare_schedEnqueue ht.ne ht.tid ht.priority
  by_cases e : c.current = t
  · -- a thread that has just been enqueued is ready, not running
    have hst' : ((schedEnqueue c.sched t).bare t).state = .running := e ▸ hst
    rw [hb, Function.update_self] at hst'
    cases hst'
  · have e' : (schedEnqueue c.sched t).bare c.current = c.sched.bare c.current := by
      rw [hb, Function.update_of_ne e]
    have hst' : ((schedEnqueue c.sched t).bare c.current).state = .running := hst
    have htid' : ((schedEnqueue c.sched t).bare c.current).tid ≠ 0 := htid
    rw [e'] at hst' htid'
    exact (h.running hst' htid').enqueue ht e

theorem Loose.block (h : Loose c.sched q l c.current) :
    Loose (blockCurrent c).sched q l c.current := by
  have e : (blockCurrent c).sched.bare c.current =
      { c.sched.bare c.current with state := .blocked } := by
    rw [blockCurrent, Sched.bare_set, Function.update_self]
    rfl
  exact ⟨h.ne, by rw [e]; exact h.tid, by rw [e]; exact h.priority, h.queues, h.list⟩

theorem Apart.block (h : Apart c.sched q l) : Apart (blockCurrent c).sched q l := by
  dsimp only [blockCurrent]
  apply h.set <;> exact fun _ => rfl

/-- **A system call that sleeps** puts the running thread on the sleep list. -/
theorem Scheduled.sleeps (h : Scheduled c q l) (hc : CallsSystem c) {call : CpuCall}
    (hcall : (∃ seconds, call = .sleep seconds) ∨ ∃ req, call = .nanosleep req) :
    ∃ c' q' l', Yields (call.exec c) c' ∧ Scheduled c' q' l' ∧
      (∀ x, x ∈ l' ↔ x ∈ l ∨ x = c.current) ∧
      c'.wakeupTime = Function.update c.wakeupTime c.current (call.wakeTick c) ∧
      c'.sched.timeTick = c.sched.timeTick := by
  have hl := h.running hc.1 hc.2
  rcases hcall with ⟨seconds, rfl⟩ | ⟨req, rfl⟩
  · exact Scheduled.sleep_until h.apart h.sleep hl (sleepTick (timerTickGet c.sched) seconds)
  · exact Scheduled.sleep_until (c := blockCurrent c) h.apart.block
      (h.sleep.withSched _) hl.block
      (nanosleepTick (timerTickGet c.sched) req)

/-- **A call other than the timer's** returns, and all sleepers sleep on. -/
theorem Scheduled.call_other (h : Scheduled c q l) {call : CpuCall} (hc : call.Legal c)
    (hne : call ≠ .tick) :
    ∃ c' q' l', Yields (call.exec c) c' ∧ Scheduled c' q' l' ∧
      (∀ x ∈ l, x ∈ l' ∧ c'.wakeupTime x = c.wakeupTime x) ∧
      c'.sched.timeTick = c.sched.timeTick := by
  -- a thread that goes to sleep was not asleep
  have hkeep : ∀ {c' : CpuState} {l' : List ℕ} {w : ℕ}, CallsSystem c →
      (∀ x, x ∈ l' ↔ x ∈ l ∨ x = c.current) →
      c'.wakeupTime = Function.update c.wakeupTime c.current w →
      ∀ x ∈ l, x ∈ l' ∧ c'.wakeupTime x = c.wakeupTime x := by
    intro c' l' w hc hmem ht x hx
    refine ⟨(hmem x).2 (.inl hx), ?_⟩
    rw [ht, Function.update_of_ne]
    rintro rfl
    exact (h.running hc.1 hc.2).list hx
  cases call with
  | enqueue t =>
    exact ⟨_, _, l, .pure _, h.enqueue (h.loose hc), fun x hx => ⟨hx, rfl⟩,
      timeTick_schedEnqueue _ _⟩
  | switchNext =>
    obtain ⟨q', h'⟩ := h.apart.scheduled_switch h.sleep
    exact ⟨_, q', l, .pure _, h', fun x hx => ⟨hx, rfl⟩, timeTick_switch c⟩
  | sleep seconds =>
    obtain ⟨c', q', l', hy, h', hmem, ht, hk⟩ := h.sleeps hc (.inl ⟨seconds, rfl⟩)
    exact ⟨c', q', l', hy, h', hkeep hc hmem ht, hk⟩
  | nanosleep req =>
    obtain ⟨c', q', l', hy, h', hmem, ht, hk⟩ := h.sleeps hc (.inr ⟨req, rfl⟩)
    exact ⟨c', q', l', hy, h', hkeep hc hmem ht, hk⟩
  | tick => exact absurd rfl hne

/-- **Every call returns and keeps everybody in one place.** -/
theorem Scheduled.call (h : Scheduled c q l) {call : CpuCall} (hc : call.Legal c) :
    ∃ c' q' l', Yields (call.exec c) c' ∧ Scheduled c' q' l' := by
  by_cases hne : call = .tick
  · subst hne
    obtain ⟨c', q', hy, h', -⟩ := h.tick rfl
    exact ⟨c', q', _, hy, h'⟩
  · obtain ⟨c', q', l', hy, h', -⟩ := h.call_other hc hne
    exact ⟨c', q', l', hy, h'⟩

/-- After `sched_init` nobody is ready, asleep or running but the thread that boots. -/
structure Booted (c : CpuState) : Prop where
  sched : ∃ s idle, c.sched = schedInit s idle
  sleep : c.sleepQueueHead = 0
  current : (c.sched.bare c.current).tid = 0

theorem Booted.scheduled (h : Booted c) : Scheduled c (fun _ => []) [] := by
  obtain ⟨s, idle, e⟩ := h.sched
  obtain ⟨hr, hi⟩ := schedInit_ready s idle
  refine ⟨⟨e ▸ hr, ?_, by simp, by simp⟩, ⟨h.sleep, List.not_mem_nil, List.nodup_nil, .nil⟩,
    fun _ htid => absurd h.current htid⟩
  rw [e]
  exact hi

theorem Scheduled.run (h : Booted c) {c' : CpuState} (hr : Relation.ReflTransGen CpuStep c c') :
    ∃ q l, Scheduled c' q l := by
  induction hr with
  | refl => exact ⟨_, _, h.scheduled⟩
  | tail _ hstep ih =>
    obtain ⟨q, l, h⟩ := ih
    obtain ⟨call, hc, hy⟩ := hstep
    obtain ⟨c', q', l', hy', h'⟩ := h.call hc
    rw [hy.unique hy']
    exact ⟨q', l', h'⟩

end

end Kabanos
