/-
  How long `sys_sleep` and `sys_nanosleep` sleep.

  A thread is woken at the first tick, counted from the call on, at which the tick counter is
  not below its wake-up time.  The counter and the wake-up time are 32-bit numbers, and the
  ticks of `sys_sleep` are divided by the macro `TIMER_TICK_MS` without parentheses, that is by
  `TIMER_HZ` once too often.
-/
import Kabanos.Sched.Cpu

namespace Kabanos

/-- The calls of `sleep.c`, with arguments of the types they have there and a valid
    `timespec_t`. -/
inductive SleepsFor : CpuCall → Prop
  | sleep (seconds : ℕ) (h : seconds < 2 ^ 32) : SleepsFor (.sleep seconds)
  | nanosleep (req : Timespec) (h : req.tvSec < 2 ^ 64) (h0 : 0 ≤ req.tvNsec)
      (h1 : req.tvNsec < 1000000000) : SleepsFor (.nanosleep req)

/-- The time that is asked for in ticks of `TIMER_HZ` per second, rounded down. -/
def CpuCall.requested : CpuCall → ℕ
  | .sleep seconds => seconds * 1000
  | .nanosleep req => (((req.tvSec : ℤ) * 1000000000 + req.tvNsec) * 1000 / 1000000000).toNat
  | _ => 0

/-- A run of calls, with the number of timer ticks in it. -/
inductive TickRun (c : CpuState) : ℕ → CpuState → Prop
  | refl : TickRun c 0 c
  | other {k : ℕ} {c' c'' : CpuState} {call : CpuCall} : TickRun c k c' → call ≠ .tick →
      call.Legal c' → Yields (call.exec c') c'' → TickRun c k c''
  | tick {k : ℕ} {c' c'' : CpuState} : TickRun c k c' → Yields (fun n => timerOnTick n c') c'' →
      TickRun c (k + 1) c''

/-- Thread `t` sleeps until tick `w`, and it is tick `now`. -/
def Dozes (c : CpuState) (t w now : ℕ) : Prop :=
  ∃ q l, Scheduled c q l ∧ t ∈ l ∧ c.wakeupTime t = w ∧ timerTickGet c.sched = now

section
variable {c c' c₁ : CpuState} {t w now k : ℕ} {call : CpuCall}

theorem Dozes.other (h : Dozes c t w now) (hc : call.Legal c) (hne : call ≠ .tick)
    (hy : Yields (call.exec c) c') : Dozes c' t w now := by
  obtain ⟨q, l, hs, ht, hw, hn⟩ := h
  obtain ⟨c'', q', l', hy', hs', hkeep, hk⟩ := hs.call_other hc hne
  obtain rfl := hy.unique hy'
  obtain ⟨hm, e⟩ := hkeep t ht
  refine ⟨q', l', hs', hm, e.trans hw, ?_⟩
  rw [timerTickGet, hk]
  exact hn

theorem timerTickGet_inc (c : CpuState) :
    timerTickGet (timeTickInc c).sched = (timerTickGet c.sched + 1) % 2 ^ 32 := by
  simp only [timerTickGet, timeTickInc]
  omega

section
variable (h : Dozes c t w now)
include h

/-- **A tick** wakes the thread just if it is due. -/
theorem Dozes.tick (hy : Yields (fun n => timerOnTick n c) c') :
    (Asleep c' t ↔ (now + 1) % 2 ^ 32 < w) ∧
      ((now + 1) % 2 ^ 32 < w → Dozes c' t w ((now + 1) % 2 ^ 32)) := by
  obtain ⟨q, l, hs, ht, hw, hn⟩ := h
  have hnow : timerTickGet (timeTickInc c).sched = (now + 1) % 2 ^ 32 := by
    rw [timerTickGet_inc, hn]
  obtain ⟨c'', q', hy', hs', htimes, htick⟩ := hs.tick hnow
  obtain rfl := hy.unique hy'
  have hmem : t ∈ (l.filter fun x => decide ((now + 1) % 2 ^ 32 < c.wakeupTime x)) ↔
      (now + 1) % 2 ^ 32 < w := by
    simp only [List.mem_filter, ht, true_and, hw, decide_eq_true_eq]
  refine ⟨hs'.asleep_iff.trans hmem, fun hlt => ⟨q', _, hs', hmem.2 hlt, ?_, htick⟩⟩
  rw [htimes, hw]

theorem Dozes.asleep : Asleep c t ∧ ¬ Queued c t := by
  obtain ⟨q, l, hs, ht, -⟩ := h
  refine ⟨hs.asleep_iff.2 ht, fun hq => ?_⟩
  obtain ⟨p, hp, hm⟩ := hs.queued_iff.1 hq
  exact hs.apart.apart t ht p hp hm

/-- **A run**: the thread sleeps as long as no tick has reached its time. -/
theorem Dozes.run (hr : TickRun c k c') (hw : ∀ i, 1 ≤ i → i ≤ k → (now + i) % 2 ^ 32 < w) :
    Dozes c' t w ((now + k) % 2 ^ 32) := by
  have hnow : now % 2 ^ 32 = now := by
    obtain ⟨q, l, -, -, -, hn⟩ := h
    rw [← hn, timerTickGet, Nat.mod_mod]
  induction hr with
  | refl =>
    rw [Nat.add_zero, hnow]
    exact h
  | other _ hne hc hy ih => exact (ih hw).other hc hne hy
  | @tick k c' c'' _ hy ih =>
    have ih := ih fun i h1 h2 => hw i h1 (by omega)
    have e : ((now + k) % 2 ^ 32 + 1) % 2 ^ 32 = (now + (k + 1)) % 2 ^ 32 := by omega
    have h1 := hw (k + 1) (by omega) le_rfl
    have h2 := (ih.tick hy).2
    rw [e] at h2
    exact h2 h1

theorem Dozes.ticks (k : ℕ) : (∃ c', TickRun c k c' ∧ Dozes c' t w ((now + k) % 2 ^ 32)) ∨
      ∃ i ≤ k, ∃ c', TickRun c i c' ∧ ¬ Asleep c' t := by
  have hnow : now % 2 ^ 32 = now := by
    obtain ⟨q, l, -, -, -, hn⟩ := h
    rw [← hn, timerTickGet, Nat.mod_mod]
  induction k with
  | zero => exact .inl ⟨c, .refl, by rwa [Nat.add_zero, hnow]⟩
  | succ k ih =>
    rcases ih with ⟨c', hr, hd⟩ | ⟨i, hi, hr⟩
    · obtain ⟨q, l, hs, -⟩ := id hd
      obtain ⟨c'', q', hy, -⟩ := hs.tick rfl
      obtain ⟨hiff, hnext⟩ := hd.tick hy
      have e : ((now + k) % 2 ^ 32 + 1) % 2 ^ 32 = (now + (k + 1)) % 2 ^ 32 := by omega
      rw [e] at hiff hnext
      by_cases hlt : (now + (k + 1)) % 2 ^ 32 < w
      · exact .inl ⟨c'', hr.tick hy, hnext hlt⟩
      · exact .inr ⟨k + 1, le_rfl, c'', hr.tick hy, fun ha => hlt (hiff.1 ha)⟩
    · exact .inr ⟨i, by omega, hr⟩

/-- **A thread sleeps for `n` ticks** in every run just if its time is not reached before. -/
theorem Dozes.sleeps_iff (n : ℕ) : (∀ k c', TickRun c k c' → k < n → Asleep c' t ∧ ¬ Queued c' t) ↔
      ∀ i, 1 ≤ i → i < n → (now + i) % 2 ^ 32 < w := by
  constructor
  · intro hall i h1 hi
    rcases h.ticks i with ⟨c', hr, hd⟩ | ⟨j, hj, c', hr, hn⟩
    · obtain ⟨j, rfl⟩ : ∃ j, i = j + 1 := ⟨i - 1, by omega⟩
      by_contra hlt
      -- the tick before already has a successor at which the thread is woken
      rcases h.ticks j with ⟨c2, hr2, hd2⟩ | ⟨m, hm, c2, hr2, hn2⟩
      · obtain ⟨q, l, hs, -⟩ := id hd2
        obtain ⟨c3, q', hy, -⟩ := hs.tick rfl
        have e : ((now + j) % 2 ^ 32 + 1) % 2 ^ 32 = (now + (j + 1)) % 2 ^ 32 := by omega
        have hiff := (hd2.tick hy).1
        rw [e] at hiff
        exact hlt (hiff.1 (hall _ _ (hr2.tick hy) hi).1)
      · exact hn2 (hall m c2 hr2 (by omega)).1
    · exact absurd (hall j c' hr (by omega)).1 hn
  · intro hw k c' hr hk
    exact (h.run hr fun i h1 h2 => hw i h1 (by omega)).asleep

end

/-! ## The arithmetic -/

/-- The condition under which a sleep that is called at tick `now` is long enough. -/
def CpuCall.InTime (now : ℕ) : CpuCall → Prop
  | .sleep seconds => seconds = 0 ∨ now = 2 ^ 32 - 1 ∧ seconds < 1000
  | .nanosleep req =>
      let ticks := (CpuCall.nanosleep req).requested
      ticks ≤ 1 ∨ now + ticks < 2 ^ 32 ∨ now = 2 ^ 32 - 1 ∧ ticks ≤ 2 ^ 32
  | _ => True

theorem ticks_below_iff {now d n : ℕ} (hn : now < 2 ^ 32) (hd : d < 2 ^ 32) :
    (∀ i, 1 ≤ i → i < n → (now + i) % 2 ^ 32 < (now + d) % 2 ^ 32) ↔
      n ≤ 1 ∨ n ≤ d ∧ now + d < 2 ^ 32 ∨
        now = 2 ^ 32 - 1 ∧ (n ≤ d ∨ d = 0 ∧ n ≤ 2 ^ 32) := by
  constructor
  · intro h
    by_cases h1 : n ≤ 1
    · exact .inl h1
    have a := h 1 le_rfl (by omega)
    have b := h d
    have e := h (2 ^ 32)
    by_cases hnow : now = 2 ^ 32 - 1
    · omega
    · omega
  · rintro (h | ⟨h, h'⟩ | ⟨rfl, h | ⟨rfl, h⟩⟩) i h1 hi <;> omega

theorem inTime_iff (hcall : SleepsFor call) (c : CpuState) :
    (∀ i, 1 ≤ i → i < call.requested → (timerTickGet c.sched + i) % 2 ^ 32 < call.wakeTick c) ↔
      call.InTime (timerTickGet c.sched) := by
  have hnow : timerTickGet c.sched < 2 ^ 32 := Nat.mod_lt _ (by norm_num)
  cases hcall with
  | sleep seconds h =>
    have hd : seconds * 1000 % 2 ^ 32 / 1000 / 1000 < 2 ^ 32 := by omega
    refine (ticks_below_iff hnow hd).trans ?_
    simp only [CpuCall.requested, CpuCall.InTime]
    by_cases hlt : seconds * 1000 < 2 ^ 32
    · rw [Nat.mod_eq_of_lt hlt]
      omega
    · have hle := Nat.mod_lt (seconds * 1000) (show 0 < 2 ^ 32 by norm_num)
      generalize seconds * 1000 % 2 ^ 32 = r at *
      omega
  | nanosleep req h h0 h1 =>
    obtain ⟨nsec, hn⟩ := Int.eq_ofNat_of_zero_le h0
    obtain ⟨ns, hns⟩ : ∃ ns, ns = req.tvSec * 1000000000 + nsec := ⟨_, rfl⟩
    have e : (req.tvSec : ℤ) * 1000000000 + req.tvNsec = (ns : ℤ) := by
      rw [hn, hns]
      push_cast
      ring
    -- the ticks that the code computes, and those that are asked for
    have hdelta : deltaTicks req = ns % 2 ^ 64 * 1000 % 2 ^ 64 / 1000000000 := by
      rw [deltaTicks, e]
      rfl
    have hreq : (CpuCall.nanosleep req).requested = ns * 1000 / 1000000000 := by
      rw [CpuCall.requested, e]
      rfl
    have hwake : (CpuCall.nanosleep req).wakeTick c =
        (timerTickGet c.sched + deltaTicks req % 2 ^ 32) % 2 ^ 32 := by
      rw [CpuCall.wakeTick, nanosleepTick, Nat.add_mod_mod]
    rw [hwake, hreq, hdelta]
    refine (ticks_below_iff hnow (Nat.mod_lt _ (by norm_num))).trans ?_
    simp only [CpuCall.InTime, hreq]
    by_cases hlt : ns * 1000 < 2 ^ 64
    · rw [Nat.mod_eq_of_lt (show ns < 2 ^ 64 by omega), Nat.mod_eq_of_lt hlt]
      omega
    · -- the ticks asked for exceed every 32-bit number
      have hbig : 2 ^ 32 < ns * 1000 / 1000000000 := by omega
      have hle := Nat.mod_lt (ns % 2 ^ 64 * 1000 % 2 ^ 64 / 1000000000)
        (show 0 < 2 ^ 32 by norm_num)
      generalize ns % 2 ^ 64 * 1000 % 2 ^ 64 / 1000000000 % 2 ^ 32 = r at *
      omega

theorem Scheduled.dozes {q : Queues} {l : List ℕ} (hs : Scheduled c q l) (hc : CallsSystem c)
    (hcall : SleepsFor call) :
    ∃ c₁, Yields (call.exec c) c₁ ∧
      Dozes c₁ c.current (call.wakeTick c) (timerTickGet c.sched) := by
  have hsleeps : (∃ seconds, call = .sleep seconds) ∨ ∃ req, call = .nanosleep req := by
    cases hcall with
    | sleep seconds _ => exact .inl ⟨seconds, rfl⟩
    | nanosleep req _ _ _ => exact .inr ⟨req, rfl⟩
  obtain ⟨c', q', l', hy, hs', hmem, htimes, htick⟩ := hs.sleeps hc hsleeps
  refine ⟨c', hy, q', l', hs', (hmem _).2 (.inr rfl), ?_, ?_⟩
  · rw [htimes, Function.update_self]
  · rw [timerTickGet, htick]
    rfl

end

/-- **A thread sleeps long enough** in every run just when its call is in time: the thread that
    calls `sys_sleep` or `sys_nanosleep` stays on the sleep list, and out of the ready queues,
    until the requested number of ticks has passed. -/
theorem sleep_long_enough_iff {c₀ c c₁ : CpuState} {call : CpuCall} (hb : Booted c₀)
    (hr : Relation.ReflTransGen CpuStep c₀ c) (hc : CallsSystem c) (hcall : SleepsFor call)
    (hy : Yields (call.exec c) c₁) :
    (∀ k c₂, TickRun c₁ k c₂ → k < call.requested →
      Asleep c₂ c.current ∧ ¬ Queued c₂ c.current) ↔ call.InTime (timerTickGet c.sched) := by
  obtain ⟨q, l, hs⟩ := Scheduled.run hb hr
  obtain ⟨c', hy', hd⟩ := hs.dozes hc hcall
  obtain rfl := hy.unique hy'
  exact (hd.sleeps_iff call.requested).trans (inTime_iff hcall c)

/-- The machine after boot, and with thread `5` running. -/
def demoBoot : CpuState := ⟨⟨schedInit demoThreads 1, 0, fun _ => 0, fun _ => 0⟩, 1⟩
def demoRunning : CpuState :=
  schedSwitchNext { demoBoot with sched := schedEnqueue demoBoot.sched 5 }

theorem demoBoot_booted : Booted demoBoot := ⟨⟨demoThreads, 1, rfl⟩, rfl, by decide⟩

theorem demoRunning_run : Relation.ReflTransGen CpuStep demoBoot demoRunning := by
  have hs := demoBoot_booted.scheduled
  have hq : ¬ Queued demoBoot 5 := fun h => by
    obtain ⟨p, -, hm⟩ := hs.queued_iff.1 h
    cases hm
  have hl : (CpuCall.enqueue 5).Legal demoBoot :=
    ⟨by decide, by decide, by decide, hq, fun h => by cases hs.asleep_iff.1 h⟩
  exact .tail (.single ⟨.enqueue 5, hl, .pure _⟩) ⟨.switchNext, trivial, .pure _⟩

theorem demoRunning_calls : CallsSystem demoRunning ∧ demoRunning.current = 5 ∧
    timerTickGet demoRunning.sched = 0 := by
  refine ⟨⟨?_, ?_⟩, ?_, ?_⟩ <;> decide +kernel

/-- Two milliseconds. -/
theorem sleep_long_enough_two :
    ∃ c₁, Yields ((CpuCall.nanosleep ⟨0, 2000000⟩).exec demoRunning) c₁ ∧ ∀ k c₂, TickRun c₁ k c₂ →
      k < 2 → Asleep c₂ demoRunning.current ∧ ¬ Queued c₂ demoRunning.current := by
  have hcall : SleepsFor (.nanosleep ⟨0, 2000000⟩) :=
    .nanosleep _ (by norm_num) (by norm_num) (by norm_num)
  obtain ⟨q, l, hs⟩ := Scheduled.run demoBoot_booted demoRunning_run
  obtain ⟨c₁, hy, -⟩ := hs.dozes demoRunning_calls.1 hcall
  refine ⟨c₁, hy, (sleep_long_enough_iff demoBoot_booted demoRunning_run demoRunning_calls.1 hcall
    hy).2 ?_⟩
  rw [demoRunning_calls.2.2]
  exact .inr (.inl (by decide))

/-- Five seconds, five thousand ticks: the first tick wakes the thread. -/
theorem sleep_five_seconds_one_tick : (CpuCall.sleep 5).requested = 5000 ∧ Booted demoBoot ∧
    Relation.ReflTransGen CpuStep demoBoot demoRunning ∧ CallsSystem demoRunning ∧
    ∃ c₁ c₂, Yields ((CpuCall.sleep 5).exec demoRunning) c₁ ∧
      Yields (fun n => timerOnTick n c₁) c₂ ∧ ¬ Asleep c₂ demoRunning.current := by
  obtain ⟨hc, hcur, hnow⟩ := demoRunning_calls
  obtain ⟨q, l, hs⟩ := Scheduled.run demoBoot_booted demoRunning_run
  obtain ⟨c₁, hy, hd⟩ := hs.dozes hc (.sleep 5 (by norm_num))
  obtain ⟨q1, l1, hs1, -⟩ := id hd
  obtain ⟨c₂, q2, hy2, -⟩ := hs1.tick rfl
  refine ⟨rfl, demoBoot_booted, demoRunning_run, hc, c₁, c₂, hy, hy2, fun ha => ?_⟩
  have hlt := (hd.tick hy2).1.1 ha
  rw [CpuCall.wakeTick, hnow] at hlt
  exact absurd hlt (by decide)

end Kabanos
