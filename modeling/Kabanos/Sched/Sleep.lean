/-
  The sleeping threads: `wake_up_sleeping` and `enqueue_sleeper` of `sleep.c`.

  The list is linked through `next_sleep`.  Beside it stands the list of the sleepers in the
  order in which they came, each with its wake-up time: the sleep list is that one, sorted by
  time, where threads with one time keep their order.
-/
import Kabanos.Lib.Chain
import Kabanos.Sched.Sched

namespace Kabanos

open Function (update update_of_ne update_self)

/-- The scheduler, `sleep_queue_head`, and the fields `wakeup_time` and `next_sleep` of the
    threads. -/
structure Sleepers where
  sched : Sched
  sleepQueueHead : ℕ
  wakeupTime : ℕ → ℕ
  nextSleep : ℕ → ℕ

/-- One round of `wake_up_sleeping`; the list is that of the threads it has passed to
    `sched_enqueue`. -/
def wakeUpRound (gCurrTick : ℕ) (x : Sleepers × List ℕ) : Option (Sleepers × List ℕ) :=
  if x.1.sleepQueueHead ≠ 0 ∧ x.1.wakeupTime x.1.sleepQueueHead ≤ gCurrTick then
    let threadToWake := x.1.sleepQueueHead
    some ({ x.1 with
      sched := schedEnqueue x.1.sched threadToWake
      sleepQueueHead := x.1.nextSleep threadToWake
      nextSleep := update x.1.nextSleep threadToWake 0 }, x.2 ++ [threadToWake])
  else none

def wakeUpSleeping (n gCurrTick : ℕ) (s : Sleepers) : Option (Sleepers × List ℕ) :=
  loop (wakeUpRound gCurrTick) n (s, [])

/-- The search of `enqueue_sleeper` for the thread before `t`. -/
def searchSleeper (s : Sleepers) (t n curr : ℕ) : Option ℕ :=
  loop (fun curr =>
    if s.nextSleep curr ≠ 0 ∧ s.wakeupTime (s.nextSleep curr) ≤ s.wakeupTime t then
      some (s.nextSleep curr)
    else none) n curr

def enqueueSleeper (n : ℕ) (s : Sleepers) (t wakeUpTime : ℕ) : Option Sleepers :=
  let s := { s with
    wakeupTime := update s.wakeupTime t wakeUpTime
    nextSleep := update s.nextSleep t 0 }
  if s.sleepQueueHead = 0 ∨ s.wakeupTime t < s.wakeupTime s.sleepQueueHead then
    some { s with
      nextSleep := update s.nextSleep t s.sleepQueueHead
      sleepQueueHead := t }
  else
    (searchSleeper s t n s.sleepQueueHead).map fun curr =>
      { s with
        nextSleep := update (update s.nextSleep t (s.nextSleep curr)) curr t }

/-! ## The list -/

/-- The sleep list is `l`, and it is sorted by wake-up time. -/
structure SleepList (s : Sleepers) (l : List ℕ) : Prop where
  seg : Seg s.nextSleep s.sleepQueueHead l 0
  not_nil : 0 ∉ l
  nodup : l.Nodup
  sorted : l.Pairwise fun a b => s.wakeupTime a ≤ s.wakeupTime b

section
variable {s s' : Sleepers} {l k r : List ℕ} {t w now : ℕ}

theorem SleepList.split (h : SleepList s l) (w : ℕ) : ∃ k r, l = k ++ r ∧
    (∀ x ∈ k, s.wakeupTime x ≤ w) ∧ ∀ x ∈ r, w < s.wakeupTime x := by
  have hs := h.sorted
  clear h
  induction l with
  | nil => exact ⟨[], [], rfl, by simp, by simp⟩
  | cons x l ih =>
    obtain ⟨hx, hl⟩ := List.pairwise_cons.1 hs
    by_cases hw : s.wakeupTime x ≤ w
    · obtain ⟨k, r, rfl, hk, hr⟩ := ih hl
      refine ⟨x :: k, r, rfl, ?_, hr⟩
      rintro y (_ | ⟨_, hy⟩)
      · exact hw
      · exact hk y hy
    · refine ⟨[], x :: l, rfl, by simp, ?_⟩
      rintro y (_ | ⟨_, hy⟩)
      · omega
      · have := hx y hy
        omega

/-- **The search of `enqueue_sleeper`** stops at the last thread that is not later. -/
theorem searchSleeper_spec {y a : ℕ} (h : Seg s.nextSleep a (k ++ y :: r) 0)
    (h0 : 0 ∉ k ++ y :: r) (hk : ∀ x ∈ k ++ [y], s.wakeupTime x ≤ s.wakeupTime t)
    (hr : ∀ x ∈ r, s.wakeupTime t < s.wakeupTime x) :
    Yields (fun n => searchSleeper s t n a) y := by
  induction k generalizing a with
  | nil =>
    obtain ⟨rfl, h2⟩ := h
    refine yields_loop_end (if_neg ?_)
    rintro ⟨hn, hle⟩
    cases r with
    | nil => exact hn h2
    | cons x r =>
      obtain ⟨e, -⟩ := h2
      have := hr x List.mem_cons_self
      rw [e] at hle
      omega
  | cons x k ih =>
    obtain ⟨rfl, h2⟩ := h
    have hmem : s.nextSleep a ∈ k ++ [y] := by
      cases k with
      | nil =>
        rw [h2.1]
        exact List.mem_cons_self
      | cons z k =>
        rw [h2.1]
        exact List.mem_cons_self
    have hmem' : s.nextSleep a ∈ k ++ y :: r := by
      rcases List.mem_append.1 hmem with hm | hm
      · exact List.mem_append_left _ hm
      · rw [List.mem_singleton.1 hm]
        exact List.mem_append_right _ List.mem_cons_self
    have hn : s.nextSleep a ≠ 0 := fun e => h0 (List.mem_cons_of_mem a (e ▸ hmem'))
    have hle := hk _ (List.mem_cons_of_mem a hmem)
    exact yields_loop_step (if_pos ⟨hn, hle⟩) (ih h2 (fun hm => h0 (List.mem_cons_of_mem a hm))
      fun x hx => hk x (List.mem_cons_of_mem a hx))

/-- **`enqueue_sleeper`** puts the thread behind those that wake up no later. -/
theorem SleepList.enqueue (h : SleepList s (k ++ r)) (ht : t ∉ k ++ r) (h0 : t ≠ 0)
    (hk : ∀ x ∈ k, s.wakeupTime x ≤ w) (hr : ∀ x ∈ r, w < s.wakeupTime x) :
    ∃ s', Yields (fun n => enqueueSleeper n s t w) s' ∧ SleepList s' (k ++ t :: r) ∧
      s'.wakeupTime = update s.wakeupTime t w ∧ s'.sched = s.sched := by
  -- the thread is not in the list, so its own fields do not matter
  obtain ⟨s1, hs1⟩ : ∃ s1 : Sleepers, s1 = { s with
    wakeupTime := update s.wakeupTime t w
    nextSleep := update s.nextSleep t 0 } := ⟨_, rfl⟩
  have hw : ∀ x ∈ k ++ r, s1.wakeupTime x = s.wakeupTime x := fun x hx => by
    rw [hs1]
    exact update_of_ne (fun e : x = t => ht (e ▸ hx)) ..
  have hwt : s1.wakeupTime t = w := by
    rw [hs1]
    exact update_self ..
  have hseg : Seg s1.nextSleep s.sleepQueueHead (k ++ r) 0 := h.seg.congr fun x hx => by
    rw [hs1]
    exact update_of_ne (fun e : x = t => ht (e ▸ hx)) ..
  have hk' : ∀ x ∈ k, s1.wakeupTime x ≤ w := fun x hx => by
    rw [hw x (List.mem_append_left _ hx)]
    exact hk x hx
  have hr' : ∀ x ∈ r, w < s1.wakeupTime x := fun x hx => by
    rw [hw x (List.mem_append_right _ hx)]
    exact hr x hx
  have hnot : 0 ∉ k ++ t :: r := by
    simp only [List.mem_append, List.mem_cons, not_or]
    exact ⟨fun hm => h.not_nil (List.mem_append_left _ hm), h0.symm,
      fun hm => h.not_nil (List.mem_append_right _ hm)⟩
  have hnd : (k ++ t :: r).Nodup := by
    rw [List.nodup_middle, List.nodup_cons]
    exact ⟨ht, h.nodup⟩
  have hsort : (k ++ t :: r).Pairwise fun a b => s1.wakeupTime a ≤ s1.wakeupTime b := by
    have hs : (k ++ r).Pairwise fun a b => s1.wakeupTime a ≤ s1.wakeupTime b :=
      h.sorted.imp_of_mem fun ha hb hab => by
        rw [hw _ ha, hw _ hb]
        exact hab
    obtain ⟨p1, p2, p3⟩ := List.pairwise_append.1 hs
    refine List.pairwise_append.2 ⟨p1, List.pairwise_cons.2 ⟨fun x hx => ?_, p2⟩, ?_⟩
    · rw [hwt]
      exact (hr' x hx).le
    · rintro a ha b (_ | ⟨_, hb⟩)
      · rw [hwt]
        exact hk' a ha
      · exact p3 a ha b hb
  have heq : ∀ n, enqueueSleeper n s t w =
      if s1.sleepQueueHead = 0 ∨ s1.wakeupTime t < s1.wakeupTime s1.sleepQueueHead then
        some { s1 with
          nextSleep := update s1.nextSleep t s1.sleepQueueHead
          sleepQueueHead := t }
      else
        (searchSleeper s1 t n s1.sleepQueueHead).map fun curr =>
          { s1 with nextSleep :=
              update (update s1.nextSleep t (s1.nextSleep curr)) curr t } := by
    intro n
    rw [hs1]
    rfl
  simp only [heq]
  rw [show s.sleepQueueHead = s1.sleepQueueHead by rw [hs1]] at hseg
  rcases List.eq_nil_or_concat' k with rfl | ⟨k, y, rfl⟩
  · -- in front
    have hcond : s1.sleepQueueHead = 0 ∨ s1.wakeupTime t < s1.wakeupTime s1.sleepQueueHead := by
      cases r with
      | nil => exact .inl hseg
      | cons x r =>
        rw [hwt, hseg.1]
        exact .inr (hr' x List.mem_cons_self)
    simp only [if_pos hcond]
    refine ⟨_, .pure _, ⟨⟨rfl, ?_⟩, hnot, hnd, hsort⟩, by rw [hs1], by rw [hs1]⟩
    show Seg (update s1.nextSleep t s1.sleepQueueHead)
      (update s1.nextSleep t s1.sleepQueueHead t) r 0
    rw [update_self]
    exact hseg.congr fun x hx => update_of_ne (fun e : x = t => ht (e ▸ hx)) ..
  · -- behind `y`
    have hhead : s1.sleepQueueHead ∈ k ++ [y] := by
      rw [hseg.head_eq]
      cases k <;> simp
    have hcond : ¬ (s1.sleepQueueHead = 0 ∨
        s1.wakeupTime t < s1.wakeupTime s1.sleepQueueHead) := by
      rintro (e | hlt)
      · exact h.not_nil (List.mem_append_left _ (e ▸ hhead))
      · have := hk' _ hhead
        rw [hwt] at hlt
        omega
    simp only [if_neg hcond]
    rw [List.append_assoc] at hseg h ht
    have hy := searchSleeper_spec (t := t) hseg h.not_nil (by rwa [hwt]) (by rwa [hwt])
    refine ⟨_, hy.map _, ⟨?_, hnot, hnd, hsort⟩, by rw [hs1], by rw [hs1]⟩
    rw [List.append_assoc]
    exact hseg.insert h.nodup ht

/-- **The loop of `wake_up_sleeping`.** -/
theorem SleepList.wake_loop (now : ℕ) (l : List ℕ) : ∀ (s : Sleepers) (woken : List ℕ),
    SleepList s l →
    ∃ s', Yields (fun n => loop (wakeUpRound now) n (s, woken))
        (s', woken ++ l.filter fun x => s.wakeupTime x ≤ now) ∧
      SleepList s' (l.filter fun x => now < s.wakeupTime x) ∧ s'.wakeupTime = s.wakeupTime ∧
      s'.sched = (l.filter fun x => s.wakeupTime x ≤ now).foldl schedEnqueue s.sched := by
  induction l with
  | nil =>
    intro s woken h
    refine ⟨s, ?_, h, rfl, rfl⟩
    rw [List.filter_nil, List.append_nil]
    exact yields_loop_end (if_neg fun hc => hc.1 h.seg)
  | cons x l ih =>
    intro s woken h
    obtain ⟨hx, hseg⟩ := h.seg
    obtain ⟨hle, hsort⟩ := List.pairwise_cons.1 h.sorted
    obtain ⟨hxl, hnd⟩ := List.nodup_cons.1 h.nodup
    by_cases hw : s.wakeupTime x ≤ now
    · have hcond : s.sleepQueueHead ≠ 0 ∧ s.wakeupTime s.sleepQueueHead ≤ now := by
        rw [hx]
        exact ⟨fun e => h.not_nil (by simp [e]), hw⟩
      obtain ⟨s1, hs1⟩ : ∃ s1 : Sleepers, s1 = { s with
        sched := schedEnqueue s.sched x
        sleepQueueHead := s.nextSleep x
        nextSleep := update s.nextSleep x 0 } := ⟨_, rfl⟩
      have hround : wakeUpRound now (s, woken) = some (s1, woken ++ [x]) := by
        rw [wakeUpRound, if_pos hcond, hs1]
        simp only [hx]
      have hw1 : s1.wakeupTime = s.wakeupTime := by rw [hs1]
      have h1 : SleepList s1 l := by
        rw [hs1]
        exact ⟨hseg.congr fun y hy => update_of_ne (fun e : y = x => hxl (e ▸ hy)) ..,
          fun hm => h.not_nil (List.mem_cons_of_mem x hm), hnd, hsort⟩
      obtain ⟨s', hy, h', hwt, hsched⟩ := ih s1 (woken ++ [x]) h1
      rw [hw1] at hy h' hwt hsched
      rw [List.filter_cons_of_pos (by simpa using hw),
        List.filter_cons_of_neg (by simpa using hw)]
      refine ⟨s', yields_loop_step hround ?_, h', hwt, ?_⟩
      · rwa [List.append_assoc] at hy
      · rw [hsched, List.foldl_cons, hs1]
    · -- the first thread sleeps on, and with it all others
      have hall : ∀ y ∈ x :: l, now < s.wakeupTime y := by
        rintro y (_ | ⟨_, hy⟩)
        · omega
        · have := hle y hy
          omega
      have hnone : (x :: l).filter (fun y => decide (s.wakeupTime y ≤ now)) = [] :=
        List.filter_eq_nil_iff.2 fun y hy => by simpa using hall y hy
      have hfull : (x :: l).filter (fun y => decide (now < s.wakeupTime y)) = x :: l :=
        List.filter_eq_self.2 fun y hy => by simpa using hall y hy
      rw [hnone, hfull, List.append_nil]
      refine ⟨s, yields_loop_end (if_neg ?_), h, rfl, rfl⟩
      rw [hx]
      exact fun hc => hw hc.2

/-- **`wake_up_sleeping`** passes the threads that are due to `sched_enqueue`, in the order of
    the list, and keeps the others. -/
theorem SleepList.wake (h : SleepList s l) (now : ℕ) :
    ∃ s', Yields (fun n => wakeUpSleeping n now s) (s', l.filter fun x => s.wakeupTime x ≤ now) ∧
      SleepList s' (l.filter fun x => now < s.wakeupTime x) ∧ s'.wakeupTime = s.wakeupTime ∧
      s'.sched = (l.filter fun x => s.wakeupTime x ≤ now).foldl schedEnqueue s.sched := by
  obtain ⟨s', hy, h'⟩ := SleepList.wake_loop now l s [] h
  exact ⟨s', hy, h'⟩

end

/-! ## Runs -/

/-- The sleepers with their wake-up times, in the order in which they came. -/
abbrev Arrivals := List (ℕ × ℕ)

inductive SleepCall
  | enqueue (t wakeUpTime : ℕ)
  | wakeUp (now : ℕ)

/-- The state after the call, and the threads that it passes to `sched_enqueue`. -/
def SleepCall.exec (c : SleepCall) (s : Sleepers) (n : ℕ) : Option (Sleepers × List ℕ) :=
  match c with
  | .enqueue t w => (enqueueSleeper n s t w).map fun s => (s, [])
  | .wakeUp now => wakeUpSleeping n now s

/-- What the call does to the sleepers. -/
def SleepCall.spec (c : SleepCall) (a : Arrivals) : Arrivals :=
  match c with
  | .enqueue t w => a ++ [(t, w)]
  | .wakeUp now => a.filter fun x => now < x.2

/-- A thread that goes to sleep is not asleep. -/
def SleepCall.Legal (a : Arrivals) : SleepCall → Prop
  | .enqueue t _ => t ≠ 0 ∧ t ∉ a.map Prod.fst
  | .wakeUp _ => True

/-- A call that returns, next to what it does to the sleepers. -/
def SleepStep (x y : Sleepers × Arrivals) : Prop :=
  ∃ c : SleepCall, c.Legal x.2 ∧ (∃ woken, Yields (c.exec x.1) (y.1, woken)) ∧ y.2 = c.spec x.2

/-- Threads with one wake-up time stand in the list in the order in which they came. -/
def Stable (s : Sleepers) (l : List ℕ) (a : Arrivals) : Prop :=
  ∀ w, (l.filter fun x => s.wakeupTime x = w) = (a.filter fun x => x.2 = w).map Prod.fst

section
variable {s : Sleepers} {l k r : List ℕ} {a : Arrivals} {t w now : ℕ}

theorem Stable.mem_iff (h : Stable s l a) : t ∈ l ↔ t ∈ a.map Prod.fst := by
  have hw := fun w => congrArg (t ∈ ·) (h w)
  simp only [List.mem_filter, List.mem_map, decide_eq_true_eq, eq_iff_iff] at hw
  constructor
  · intro ht
    obtain ⟨x, hx, rfl⟩ := (hw (s.wakeupTime t)).1 ⟨ht, rfl⟩
    exact List.mem_map_of_mem hx.1
  · intro ht
    obtain ⟨x, hx, rfl⟩ := List.mem_map.1 ht
    exact ((hw x.2).2 ⟨x, ⟨hx, rfl⟩, rfl⟩).1

theorem Stable.enqueue (h : Stable s (k ++ r) a) (ht : t ∉ k ++ r)
    (hr : ∀ x ∈ r, w < s.wakeupTime x) {s' : Sleepers}
    (hs' : s'.wakeupTime = update s.wakeupTime t w) :
    Stable s' (k ++ t :: r) (a ++ [(t, w)]) := by
  intro v
  have hsame : ∀ l : List ℕ, (∀ x ∈ l, x ≠ t) → l.filter (fun x => decide (s'.wakeupTime x = v)) =
      l.filter fun x => decide (s.wakeupTime x = v) := by
    intro l hl
    refine List.filter_congr fun x hx => ?_
    rw [hs', update_of_ne (hl x hx)]
  have hk : ∀ x ∈ k, x ≠ t := fun x hx e => ht (e ▸ List.mem_append_left _ hx)
  have hr' : ∀ x ∈ r, x ≠ t := fun x hx e => ht (e ▸ List.mem_append_right _ hx)
  have ha := h v
  rw [List.filter_append] at ha
  rw [List.filter_append, List.filter_append, List.map_append, ← ha, hsame k hk,
    List.filter_cons, hsame r hr', hs', update_self]
  by_cases hv : w = v
  · -- no later thread has the time of the new one
    have hnone : r.filter (fun x => decide (s.wakeupTime x = v)) = [] :=
      List.filter_eq_nil_iff.2 fun x hx => by
        have := hr x hx
        simp only [decide_eq_true_eq]
        omega
    simp [hnone, hv]
  · simp [hv]

theorem filter_later {α : Type*} (f : α → ℕ) (l : List α) (now v : ℕ) :
    ((l.filter fun x => now < f x).filter fun x => f x = v) =
      if now < v then l.filter fun x => f x = v else [] := by
  rw [List.filter_filter]
  split_ifs with hv
  · refine List.filter_congr fun x _ => ?_
    by_cases e : f x = v <;> simp [e, hv]
  · refine List.filter_eq_nil_iff.2 fun x _ => ?_
    simp only [Bool.and_eq_true, decide_eq_true_eq]
    omega

theorem Stable.wake (h : Stable s l a) (now : ℕ) {s' : Sleepers}
    (hs' : s'.wakeupTime = s.wakeupTime) :
    Stable s' (l.filter fun x => now < s.wakeupTime x) (a.filter fun x => now < x.2) := by
  intro v
  rw [hs', filter_later s.wakeupTime, filter_later Prod.snd, h v]
  split_ifs <;> rfl

/-- **One call** returns and keeps the list sorted and stable. -/
theorem SleepList.call (h : SleepList s l) (ha : Stable s l a) {c : SleepCall} (hc : c.Legal a) :
    ∃ s' woken l', Yields (c.exec s) (s', woken) ∧ SleepList s' l' ∧ Stable s' l' (c.spec a) := by
  cases c with
  | enqueue t w =>
    obtain ⟨h0, ht⟩ := hc
    obtain ⟨k, r, rfl, hk, hr⟩ := h.split w
    rw [← ha.mem_iff] at ht
    obtain ⟨s', hy, h', hw, -⟩ := h.enqueue ht h0 hk hr
    exact ⟨s', [], _, hy.map _, h', ha.enqueue ht hr hw⟩
  | wakeUp now =>
    obtain ⟨s', hy, h', hw, -⟩ := h.wake now
    exact ⟨s', _, _, hy, h', ha.wake now hw⟩

theorem sleepList_of_run {s0 : Sleepers} (h0 : s0.sleepQueueHead = 0) {x : Sleepers × Arrivals}
    (hr : Relation.ReflTransGen SleepStep (s0, []) x) :
    ∃ l, SleepList x.1 l ∧ Stable x.1 l x.2 := by
  induction hr with
  | refl =>
    exact ⟨[], ⟨h0, List.not_mem_nil, List.nodup_nil, .nil⟩, fun w => rfl⟩
  | tail _ hstep ih =>
    obtain ⟨l, h, ha⟩ := ih
    obtain ⟨c, hc, ⟨woken, hy⟩, e⟩ := hstep
    obtain ⟨s', woken', l', hy', h', ha'⟩ := h.call ha hc
    have es : _ = s' := congrArg Prod.fst (hy.unique hy')
    rw [e, es]
    exact ⟨l', h', ha'⟩

end

/-- **The sleep list.**  After any run it is sorted by wake-up time, with threads of one time in
    the order in which they came, and `wake_up_sleeping` passes to `sched_enqueue` the threads
    that are due, each once and in the order of the list, and keeps the others on it. -/
theorem sleep_list_sorted {s₀ s : Sleepers} {a : Arrivals} (h₀ : s₀.sleepQueueHead = 0)
    (hr : Relation.ReflTransGen SleepStep (s₀, []) (s, a)) :
    ∃ l, Seg s.nextSleep s.sleepQueueHead l 0 ∧ l.Nodup ∧ (∀ t, t ∈ l ↔ t ∈ a.map Prod.fst) ∧
      (l.Pairwise fun x y => s.wakeupTime x ≤ s.wakeupTime y) ∧ Stable s l a ∧
      (∀ t w, t ≠ 0 → t ∉ l → ∃ s', Yields (fun n => enqueueSleeper n s t w) s') ∧
      ∀ now, ∃ s', Yields (fun n => wakeUpSleeping n now s)
          (s', l.filter fun t => s.wakeupTime t ≤ now) ∧
        s'.sched = (l.filter fun t => s.wakeupTime t ≤ now).foldl schedEnqueue s.sched ∧
        Seg s'.nextSleep s'.sleepQueueHead (l.filter fun t => now < s.wakeupTime t) 0 := by
  obtain ⟨l, h, ha⟩ := sleepList_of_run h₀ hr
  refine ⟨l, h.seg, h.nodup, fun t => ha.mem_iff, h.sorted, ha, fun t w ht0 ht => ?_, fun now => ?_⟩
  · obtain ⟨k, r, rfl, hk, hr⟩ := h.split w
    obtain ⟨s', hy, -⟩ := h.enqueue ht ht0 hk hr
    exact ⟨s', hy⟩
  · obtain ⟨s', hy, h', -, hs⟩ := h.wake now
    exact ⟨s', hy, hs, h'.seg⟩

/-- Nobody sleeps. -/
def demoAwake : Sleepers :=
  ⟨⟨fun t => ⟨t, 0, 0, 0, 0, 0, .running, 1, 0⟩, fun _ => 0, fun _ => 0, 1, 0⟩, 0, fun _ => 0,
    fun _ => 0⟩

/-- The threads `5` and `8` sleep until tick `7`, and thread `6` until tick `3`, at which it is
    woken up. -/
theorem demoAwake_run :
    ∃ s, Relation.ReflTransGen SleepStep (demoAwake, []) (s, [(5, 7), (8, 7)]) := by
  have hstep {s : Sleepers} {a : Arrivals} (c : SleepCall) (hc : c.Legal a)
      (hr : Relation.ReflTransGen SleepStep (demoAwake, []) (s, a)) :
      ∃ s', Relation.ReflTransGen SleepStep (demoAwake, []) (s', c.spec a) := by
    obtain ⟨l, h, ha⟩ := sleepList_of_run rfl hr
    obtain ⟨s', woken, -, hy, -⟩ := h.call ha hc
    exact ⟨s', hr.tail ⟨c, hc, ⟨woken, hy⟩, rfl⟩⟩
  obtain ⟨s1, h₁⟩ := hstep (.enqueue 5 7) ⟨by decide, by decide⟩ .refl
  obtain ⟨s2, h₂⟩ := hstep (.enqueue 6 3) ⟨by decide, by decide⟩ h₁
  obtain ⟨s3, h₃⟩ := hstep (.enqueue 8 7) ⟨by decide, by decide⟩ h₂
  exact hstep (.wakeUp 3) trivial h₃

/-- They wake up at tick `7`, in the order in which they came. -/
theorem sleep_list_sorted_tie :
    ∃ s s', Relation.ReflTransGen SleepStep (demoAwake, []) (s, [(5, 7), (8, 7)]) ∧
      Yields (fun n => wakeUpSleeping n 7 s) (s', [5, 8]) := by
  obtain ⟨s, hr⟩ := demoAwake_run
  obtain ⟨l, -, -, hmem, -, hst, -, hwake⟩ := sleep_list_sorted rfl hr
  obtain ⟨s', hy, -⟩ := hwake 7
  have hseven : (l.filter fun t => s.wakeupTime t = 7) = [5, 8] := hst 7
  have hdue : (l.filter fun t => s.wakeupTime t ≤ 7) = [5, 8] := by
    rw [← hseven]
    refine List.filter_congr fun t ht => ?_
    have ht' : t = 5 ∨ t = 8 := by simpa using (hmem t).1 ht
    have hin : t ∈ l.filter fun t => s.wakeupTime t = 7 := by
      rw [hseven]
      simpa using ht'
    have h7 : s.wakeupTime t = 7 := by simpa using (List.mem_filter.1 hin).2
    simp [h7]
  rw [hdue] at hy
  exact ⟨s, s', hr, hy⟩

end Kabanos
