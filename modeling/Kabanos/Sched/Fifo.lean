/-
  The ready queues are four first-in first-out lists.

  `Ready s q` relates the linked lists to the lists `q`.  Each function of the scheduler keeps
  it, with its own operation on the lists (`Queues`), and its loops end.
-/
import Kabanos.Lib.Chain
import Kabanos.Sched.Fields

namespace Kabanos

variable {f : Thread → Thread} {l : List ℕ} {old : ℕ → Prop} {a : ℕ}

/-- A list of threads for each priority. -/
abbrev Queues := ℕ → List ℕ

def Queues.enqueue (q : Queues) (p t : ℕ) : Queues := Function.update q p (q p ++ [t])

def Queues.dequeue (q : Queues) (t : ℕ) : Queues := fun p => (q p).erase t

/-- The threads of list `i` that are `old` go to the back of the list above. -/
def Queues.ageOne (q : Queues) (old : ℕ → Prop) [DecidablePred old] (i : ℕ) : Queues :=
  Function.update (Function.update q i ((q i).filter fun t => ¬ old t)) (i - 1)
    (q (i - 1) ++ (q i).filter fun t => old t)

/-- All lists but the first one lose their `old` threads to the list above, at the same
    time. -/
def Queues.age (q : Queues) (old : ℕ → Prop) [DecidablePred old] : Queues := fun p =>
  ((q p).filter fun t => p = 0 ∨ ¬ old t) ++ if p < 3 then (q (p + 1)).filter fun t => old t else []

/-- The first thread of the first list that is not empty, or `idle`. -/
def Queues.pick (q : Queues) (idle : ℕ) : Queues × ℕ :=
  match (List.range 4).find? fun p => q p ≠ [] with
  | none => (q, idle)
  | some p => (Function.update q p (q p).tail, (q p).headD 0)

def Sched.next (s : Sched) (t : ℕ) : ℕ := (s.threads t).next

/-- The ready queues of `s` are the lists `q`. -/
structure Ready (s : Sched) (q : Queues) : Prop where
  queue : ∀ p < 4, Queue s.next 0 (s.readyQueueHeads p) (s.readyQueueTails p) (q p)
  priority : ∀ p < 4, ∀ t ∈ q p, (s.threads t).priority = p
  tid : ∀ p < 4, ∀ t ∈ q p, (s.threads t).tid ≠ 0

/-- The same thread ids, at the same time. -/
structure SameIds (s s' : Sched) : Prop where
  idle : s'.kernelIdleTask = s.kernelIdleTask
  tick : s'.timeTick = s.timeTick
  tid : ∀ t, (s'.threads t).tid = (s.threads t).tid

/-- Only links change, and heads and tails. -/
structure SameButLinks (s s' : Sched) : Prop extends SameIds s s' where
  priority : ∀ t, (s'.threads t).priority = (s.threads t).priority
  last : ∀ t, (s'.threads t).lastEnqueueTick = (s.threads t).lastEnqueueTick

section
variable {s s' s'' : Sched} {q q' : Queues} {t p i prev : ℕ} {k r : List ℕ}

theorem SameIds.refl (s : Sched) : SameIds s s := ⟨rfl, rfl, fun _ => rfl⟩

theorem SameIds.trans (h : SameIds s s') (h' : SameIds s' s'') : SameIds s s'' :=
  ⟨h'.idle.trans h.idle, h'.tick.trans h.tick, fun t => (h'.tid t).trans (h.tid t)⟩

@[simp]
theorem Sched.threads_set (f : Thread → Thread) :
    (s.set t f).threads = Function.update s.threads t (f (s.threads t)) := rfl

theorem Sched.next_set (f : Thread → Thread) :
    (s.set t f).next = Function.update s.next t (f (s.threads t)).next := by
  funext x
  by_cases h : x = t
  · subst h
    simp [Sched.next]
  · simp [Sched.next, h]

theorem SameIds.set (hf : (f (s.threads t)).tid = (s.threads t).tid) : SameIds s (s.set t f) := by
  refine ⟨rfl, rfl, fun x => ?_⟩
  by_cases h : x = t
  · subst h
    rw [Sched.threads_set, Function.update_self, hf]
  · rw [Sched.threads_set, Function.update_of_ne h]

theorem Ready.mem_unique (h : Ready s q) {p' : ℕ} (hp : p < 4) (hp' : p' < 4) (ht : t ∈ q p)
    (ht' : t ∈ q p') : p = p' :=
  (h.priority p hp t ht).symm.trans (h.priority p' hp' t ht')

theorem Ready.ne_zero (h : Ready s q) (hp : p < 4) (ht : t ∈ q p) : t ≠ 0 := fun e =>
  (h.queue p hp).not_nil (e ▸ ht)

theorem Ready.congr_lists (h : Ready s q) (hq : ∀ p < 4, q' p = q p) : Ready s q' :=
  ⟨fun p hp => by rw [hq p hp]; exact h.queue p hp,
    fun p hp t ht => h.priority p hp t (hq p hp ▸ ht), fun p hp t ht => h.tid p hp t (hq p hp ▸ ht)⟩

theorem Ready.set (h : Ready s q)
    (ht : ∀ p < 4, t ∈ q p → (f (s.threads t)).next = (s.threads t).next ∧
      (f (s.threads t)).priority = (s.threads t).priority ∧
        (f (s.threads t)).tid = (s.threads t).tid) :
    Ready (s.set t f) q := by
  have hx : ∀ p < 4, ∀ x ∈ q p, (s.set t f).next x = s.next x ∧
      ((s.set t f).threads x).priority = (s.threads x).priority ∧
        ((s.set t f).threads x).tid = (s.threads x).tid := fun p hp x hx => by
    by_cases e : x = t
    · subst e
      rw [Sched.next_set, Sched.threads_set, Function.update_self, Function.update_self]
      exact ht p hp hx
    · rw [Sched.next_set, Sched.threads_set, Function.update_of_ne e, Function.update_of_ne e]
      exact ⟨rfl, rfl, rfl⟩
  refine ⟨fun p hp => (h.queue p hp).congr fun x hm => (hx p hp x hm).1, fun p hp x hm => ?_,
    fun p hp x hm => ?_⟩
  · rw [(hx p hp x hm).2.1]; exact h.priority p hp x hm
  · rw [(hx p hp x hm).2.2]; exact h.tid p hp x hm

theorem Ready.update (h : Ready s q) (hp : p < 4) (hs : SameButLinks s s')
    (hq : Queue s'.next 0 (s'.readyQueueHeads p) (s'.readyQueueTails p) l)
    (hl : ∀ t ∈ l, (s.threads t).priority = p ∧ (s.threads t).tid ≠ 0)
    (hother : ∀ p' < 4, p' ≠ p → s'.readyQueueHeads p' = s.readyQueueHeads p' ∧
      s'.readyQueueTails p' = s.readyQueueTails p' ∧ ∀ x ∈ q p', s'.next x = s.next x) :
    Ready s' (Function.update q p l) := by
  refine ⟨fun p' hp' => ?_, fun p' hp' x hx => ?_, fun p' hp' x hx => ?_⟩ <;> by_cases e : p' = p
  · subst e
    rw [Function.update_self]; exact hq
  · obtain ⟨h1, h2, h3⟩ := hother p' hp' e
    rw [Function.update_of_ne e, h1, h2]
    exact (h.queue p' hp').congr h3
  · subst e
    rw [Function.update_self] at hx
    rw [hs.priority]; exact (hl x hx).1
  · rw [Function.update_of_ne e] at hx
    rw [hs.priority]; exact h.priority p' hp' x hx
  · subst e
    rw [Function.update_self] at hx
    rw [hs.tid]; exact (hl x hx).2
  · rw [Function.update_of_ne e] at hx
    rw [hs.tid]; exact h.tid p' hp' x hx

theorem SameButLinks.refl (s : Sched) : SameButLinks s s :=
  ⟨.refl s, fun _ => rfl, fun _ => rfl⟩

theorem Sched.next_setNext (s : Sched) (t n : ℕ) :
    (s.setNext t n).next = Function.update s.next t n := Sched.next_set _

theorem SameButLinks.setNext (s : Sched) (t n : ℕ) : SameButLinks s (s.setNext t n) := by
  have h : ∀ x, (s.setNext t n).threads x = s.threads x ∨
      (s.setNext t n).threads x = { s.threads x with next := n } := fun x => by
    by_cases hx : x = t
    · subst hx; exact .inr (Function.update_self ..)
    · exact .inl (Function.update_of_ne hx _ _)
  refine ⟨SameIds.set rfl, fun x => ?_, fun x => ?_⟩ <;> rcases h x with e | e <;> rw [e]

theorem SameButLinks.ends (h : SameButLinks s s') (hs tl : ℕ → ℕ) :
    SameButLinks s { s' with readyQueueHeads := hs, readyQueueTails := tl } :=
  ⟨⟨h.idle, h.tick, h.tid⟩, h.priority, h.last⟩

/-- **A thread at the back of a queue.** -/
theorem Ready.add_to_back (h : Ready s q) (hp : p < 4) (ht : ∀ p < 4, t ∉ q p) (h0 : t ≠ 0)
    (hn : s.next t = 0) (hpr : (s.threads t).priority = p) (htid : (s.threads t).tid ≠ 0) :
    Ready (addToBack s p t) (q.enqueue p t) ∧ SameButLinks s (addToBack s p t) := by
  have hq := (h.queue p hp).push (ht p hp) h0 hn
  have hl : ∀ x ∈ q p ++ [t], (s.threads x).priority = p ∧ (s.threads x).tid ≠ 0 := fun x hx => by
    rcases List.mem_append.1 hx with hx | hx
    · exact ⟨h.priority p hp x hx, h.tid p hp x hx⟩
    · rw [List.mem_singleton.1 hx]; exact ⟨hpr, htid⟩
  unfold addToBack
  by_cases hz : s.readyQueueTails p = 0
  · rw [if_pos hz, if_pos hz] at hq
    rw [if_pos hz]
    have hs : SameButLinks s ((s.setHead p t).setTail p t) := (SameButLinks.refl s).ends _ _
    refine ⟨h.update hp hs ?_ hl fun p' _ hne => ⟨?_, ?_, fun _ _ => rfl⟩, hs⟩
    · simp only [Sched.setHead, Sched.setTail, Function.update_self]
      exact hq
    · exact Function.update_of_ne hne _ _
    · exact Function.update_of_ne hne _ _
  · rw [if_neg hz, if_neg hz] at hq
    rw [if_neg hz]
    have hs := (SameButLinks.setNext s (s.readyQueueTails p) t).ends s.readyQueueHeads
      (Function.update s.readyQueueTails p t)
    refine ⟨h.update hp hs ?_ hl fun p' hp' hne => ⟨rfl, ?_, fun x hx => ?_⟩, hs⟩
    · rw [← Sched.next_setNext] at hq
      show Queue (s.setNext (s.readyQueueTails p) t).next 0 (s.readyQueueHeads p)
        (Function.update s.readyQueueTails p t p) _
      rw [Function.update_self]
      exact hq
    · exact Function.update_of_ne hne _ _
    · have hne' : x ≠ s.readyQueueTails p := fun e =>
        hne (h.mem_unique hp' hp hx (e ▸ (h.queue p hp).tail_mem hz))
      show (s.setNext (s.readyQueueTails p) t).next x = s.next x
      rw [Sched.next_setNext, Function.update_of_ne hne']

theorem removeNext_eq (s : Sched) (i prev curr : ℕ) : removeNext s i prev curr =
    { if prev = 0 then s else s.setNext prev (s.next curr) with
      readyQueueHeads := if prev = 0 then Function.update s.readyQueueHeads i (s.next curr)
        else s.readyQueueHeads
      readyQueueTails := if s.readyQueueTails i = curr then Function.update s.readyQueueTails i prev
        else s.readyQueueTails } := by
  unfold removeNext
  by_cases h : prev = 0
  · simp only [h, ne_eq, not_true_eq_false, if_false, if_true, Sched.setHead]
    split_ifs <;> rfl
  · simp only [h, ne_eq, not_false_eq_true, if_false, if_true, Sched.setNext, Sched.set]
    split_ifs <;> rfl

/-- **A thread is taken out of its queue.** -/
theorem Ready.remove_next (h : Ready s q) (hp : p < 4) (e : q p = k ++ t :: r)
    (hprev : prev = k.getLast?.getD 0) :
    Ready (removeNext s p prev t) (Function.update q p (k ++ r)) ∧
      SameButLinks s (removeNext s p prev t) ∧ (removeNext s p prev t).next t = s.next t := by
  have hold := h.queue p hp
  rw [e] at hold
  have hq := hold.unlink hprev
  have hl : ∀ x ∈ k ++ r, (s.threads x).priority = p ∧ (s.threads x).tid ≠ 0 := fun x hx => by
    have hm : x ∈ q p := by
      rw [e]
      exact ((List.sublist_cons_self t r).append_left k).subset hx
    exact ⟨h.priority p hp x hm, h.tid p hp x hm⟩
  have hmem : prev ≠ 0 → prev ∈ k := fun hz => by
    rw [hprev] at hz ⊢
    exact (getLast_cases k 0).resolve_left fun e => hz e.2
  have hne : prev ≠ 0 → prev ≠ t := fun hz e =>
    (List.nodup_append.1 hold.nodup).2.2 prev (hmem hz) t List.mem_cons_self e
  have hnext : (removeNext s p prev t).next =
      if prev = 0 then s.next else Function.update s.next prev (s.next t) := by
    rw [removeNext_eq, ← Sched.next_setNext]
    split_ifs <;> rfl
  have hs : SameButLinks s (removeNext s p prev t) := by
    rw [removeNext_eq]
    split_ifs
    · exact (SameButLinks.refl s).ends _ _
    · exact (SameButLinks.refl s).ends _ _
    · exact (SameButLinks.setNext s prev (s.next t)).ends _ _
    · exact (SameButLinks.setNext s prev (s.next t)).ends _ _
  refine ⟨h.update hp hs ?_ hl fun p' hp' hpp => ⟨?_, ?_, fun x hx => ?_⟩, hs, ?_⟩
  · rw [hnext]
    simp only [removeNext_eq]
    have e1 : (if prev = 0 then Function.update s.readyQueueHeads p (s.next t)
        else s.readyQueueHeads) p = if prev = 0 then s.next t else s.readyQueueHeads p := by
      split_ifs
      · exact Function.update_self ..
      · rfl
    have e2 : (if s.readyQueueTails p = t then Function.update s.readyQueueTails p prev
        else s.readyQueueTails) p =
          if s.readyQueueTails p = t then prev else s.readyQueueTails p := by
      split_ifs
      · exact Function.update_self ..
      · rfl
    rw [e1, e2]
    exact hq
  · simp only [removeNext_eq]
    split_ifs
    · exact Function.update_of_ne hpp _ _
    · rfl
  · simp only [removeNext_eq]
    split_ifs
    · exact Function.update_of_ne hpp _ _
    · rfl
  · rw [hnext]
    split_ifs with hz
    · rfl
    have hx' : x ≠ prev := fun e' => hpp (h.mem_unique hp' hp hx (by
      rw [e', e]
      exact List.mem_append_left _ (hmem hz)))
    exact Function.update_of_ne hx' _ _
  · rw [hnext]
    split_ifs with hz
    · rfl
    · exact Function.update_of_ne (hne hz).symm _ _

theorem Ready.not_mem_rest (h : Ready s q) (hp : p < 4) (e : q p = k ++ t :: r) :
    ∀ p' < 4, t ∉ Function.update q p (k ++ r) p' := fun p' hp' hmem => by
  by_cases hpp : p' = p
  · subst hpp
    rw [Function.update_self] at hmem
    have hnd := (h.queue p' hp').nodup
    rw [e] at hnd
    exact (List.nodup_cons.1 (List.nodup_middle.1 hnd)).1 hmem
  · rw [Function.update_of_ne hpp] at hmem
    exact hpp (h.mem_unique hp' hp hmem (by rw [e]; simp))

/-! ## The functions -/

theorem Ready.enqueue (h : Ready s q) (ht : ∀ p < 4, t ∉ q p) (h0 : t ≠ 0)
    (htid : (s.threads t).tid ≠ 0) (hpr : (s.threads t).priority < 4) :
    Ready (schedEnqueue s t) (q.enqueue (s.threads t).priority t) ∧
      SameIds s (schedEnqueue s t) := by
  unfold schedEnqueue
  rw [if_neg (not_or.2 ⟨h0, htid⟩)]
  simp only [if_neg (show ¬ threadNumPriorities ≤ (s.threads t).priority from not_le.2 hpr)]
  obtain ⟨s1, hs1⟩ : ∃ s1, s1 = s.set t fun x => { x with state := .ready, next := 0 } := ⟨_, rfl⟩
  rw [← hs1]
  have ht1 : s1.threads t = { s.threads t with state := .ready, next := 0 } := by
    rw [hs1]; exact Function.update_self ..
  have h1 : Ready s1 q := hs1 ▸ h.set fun p hp hm => absurd hm (ht p hp)
  have hi1 : SameIds s s1 := hs1 ▸ .set rfl
  obtain ⟨h2, hi2⟩ := h1.add_to_back hpr ht h0 (by rw [Sched.next, ht1]) (by rw [ht1])
    (by rw [ht1]; exact htid)
  exact ⟨h2.set fun p hp hm => ⟨rfl, rfl, rfl⟩, (hi1.trans hi2.toSameIds).trans (.set rfl)⟩

theorem Ready.promoted (h : Ready s q) (hi : 1 ≤ i) (hi4 : i < 4) (e : q i = k ++ t :: r)
    (hprev : prev = k.getLast?.getD 0) {s1 : Sched} (hs1 : removeNext s i prev t = s1) :
    Ready (promote s1 i t) (Queues.enqueue (Function.update q i (k ++ r)) (i - 1) t) ∧
      SameIds s (promote s1 i t) ∧ ∀ x, x ≠ t → (promote s1 i t).bare x = s.bare x := by
  obtain ⟨h1, hsame, -⟩ := h.remove_next hi4 e hprev
  have hb1 : s1.bare = s.bare := hs1 ▸ bare_removeNext s i prev t
  rw [hs1] at h1 hsame
  have hb : ∀ x, x ≠ t → (promote s1 i t).bare x = s.bare x := fun x hx => by
    rw [bare_promote, Function.update_of_ne hx, hb1]
  have hm : t ∈ q i := by rw [e]; simp
  have hout := h.not_mem_rest hi4 e
  unfold promote at hb ⊢
  obtain ⟨s2, hs2⟩ : ∃ s2, s2 = s1.set t fun x =>
    { x with priority := i - 1, next := 0, lastEnqueueTick := timerTickGet s1 } := ⟨_, rfl⟩
  rw [← hs2] at hb ⊢
  have ht2 : s2.threads t = { s1.threads t with
      priority := i - 1, next := 0, lastEnqueueTick := timerTickGet s1 } := by
    rw [hs2]; exact Function.update_self ..
  have h2 : Ready s2 (Function.update q i (k ++ r)) :=
    hs2 ▸ h1.set fun p hp hm => absurd hm (hout p hp)
  obtain ⟨h3, hsame3⟩ := h2.add_to_back (p := i - 1) (by omega) hout (h.ne_zero hi4 hm)
    (by rw [Sched.next, ht2]) (by rw [ht2])
    (by rw [ht2]; exact (hsame.tid t).trans_ne (h.tid i hi4 t hm))
  have hi2 : SameIds s1 s2 := hs2 ▸ .set rfl
  exact ⟨h3, (hsame.toSameIds.trans hi2).trans hsame3.toSameIds, hb⟩

theorem overThreshold_congr (h : s'.timeTick = s.timeTick) (hb : s'.bare t = s.bare t) :
    overThreshold s' t ↔ overThreshold s t := by
  have hl : (s'.bare t).lastEnqueueTick = (s.bare t).lastEnqueueTick := by rw [hb]
  simp only [Sched.bare, Thread.bare] at hl
  simp only [overThreshold, timerTickGet, h, hl]

/-- **The loop over queue `i` of `sched_apply_aging`**, where `k` are the threads that stay and
    `r` are to go. -/
theorem agingLoop_spec [DecidablePred old] (hi : 1 ≤ i) (hi4 : i < 4) :
    ∀ (r k : List ℕ) (s : Sched) (q : Queues), Ready s q → q i = k ++ r →
      (∀ t ∈ r, overThreshold s t ↔ old t) →
      ∃ s' prev, Yields (fun n => loop (agingRound i) n (s, k.getLast?.getD 0, r.head?.getD 0))
          (s', prev, 0) ∧
        Ready s' (Function.update (Function.update q i (k ++ r.filter fun t => ¬ old t)) (i - 1)
          (q (i - 1) ++ r.filter fun t => old t)) ∧
        SameIds s s' ∧ ∀ x ∉ r, s'.bare x = s.bare x := by
  intro r
  induction r with
  | nil =>
    intro k s q h e _
    refine ⟨s, _, yields_loop_end (if_pos rfl), h.congr_lists fun p hp => ?_, .refl s,
      fun _ _ => rfl⟩
    rw [List.append_nil] at e
    by_cases hp1 : p = i - 1
    · rw [hp1]; simp
    · rw [Function.update_of_ne hp1]
      by_cases hp2 : p = i
      · rw [hp2]; simp [e]
      · rw [Function.update_of_ne hp2]
  | cons t r ih =>
    intro k s q h e hold
    have hm : t ∈ q i := by rw [e]; simp
    have h0 := h.ne_zero hi4 hm
    have hq := h.queue i hi4
    rw [e] at hq
    have hnd : t ∉ r := (List.nodup_cons.1 (List.nodup_append.1 hq.nodup).2.1).1
    have hnext : s.next t = r.head?.getD 0 := hq.next_eq
    by_cases ht : old t
    · obtain ⟨s1, hs1⟩ : ∃ s1, removeNext s i (k.getLast?.getD 0) t = s1 := ⟨_, rfl⟩
      obtain ⟨h2, e2, e3⟩ := h.promoted hi hi4 e rfl hs1
      have hq2 : Queues.enqueue (Function.update q i (k ++ r)) (i - 1) t i = k ++ r := by
        rw [Queues.enqueue, Function.update_of_ne (by omega), Function.update_self]
      obtain ⟨s', prev, h3, h4, h5, h7⟩ := ih k _ _ h2 hq2 fun x hx => by
        rw [overThreshold_congr e2.tick (e3 x fun e => hnd (e ▸ hx))]
        exact hold x (List.mem_cons_of_mem t hx)
      refine ⟨s', prev, yields_loop_step (?_ : _ = some (promote s1 i t, k.getLast?.getD 0,
        r.head?.getD 0)) h3,
        ?_, e2.trans h5, fun x hx => ?_⟩
      · have hcurr : (s1.threads t).next = r.head?.getD 0 := by
          rw [← hnext, ← hs1]
          exact (h.remove_next hi4 e rfl).2.2
        simp only [agingRound, List.head?_cons, Option.getD_some, if_neg h0,
          if_pos ((hold t List.mem_cons_self).2 ht), hs1, hcurr]
      · refine h4.congr_lists fun p hp => ?_
        by_cases hp1 : p = i - 1
        · subst hp1
          simp [Queues.enqueue, ht, show i - 1 ≠ i by omega]
        · by_cases hp2 : p = i
          · subst hp2
            simp [hp1, ht]
          · simp [Queues.enqueue, hp1, hp2]
      · rw [h7 x fun hm => hx (List.mem_cons_of_mem t hm)]
        exact e3 x fun e => hx (e ▸ List.mem_cons_self)
    · obtain ⟨s', prev, h3, h4, h5, h7⟩ := ih (k ++ [t]) s q h (by rw [e]; simp) fun x hx =>
        hold x (List.mem_cons_of_mem t hx)
      rw [List.getLast?_concat, Option.getD_some] at h3
      refine ⟨s', prev, yields_loop_step (?_ : _ = some (s, t, r.head?.getD 0)) h3,
        ?_, h5, fun x hx => h7 x fun hm => hx (List.mem_cons_of_mem t hm)⟩
      · have hno : ¬ overThreshold s t := fun h => ht ((hold t List.mem_cons_self).1 h)
        rw [← hnext, agingRound]
        exact (if_neg h0).trans (if_neg hno)
      · simpa [ht] using h4

/-- **One pass of `sched_apply_aging`.** -/
theorem agingPass_spec [DecidablePred old] (h : Ready s q) (hi : 1 ≤ i)
    (hi4 : i < 4) (hold : ∀ t ∈ q i, overThreshold s t ↔ old t) :
    ∃ s', Yields (fun n => agingPass n i s) s' ∧ Ready s' (q.ageOne old i) ∧
      SameIds s s' ∧ ∀ x ∉ q i, s'.bare x = s.bare x := by
  obtain ⟨s', prev, h1, h2, h3⟩ := agingLoop_spec hi hi4 (q i) [] s q h rfl hold
  refine ⟨s', ?_, h2, h3⟩
  have := h1.map Prod.fst
  rwa [← (h.queue i hi4).seg.head_eq] at this

/-- **`sched_apply_aging`** -/
theorem Ready.age (h : Ready s q) : ∃ s', Yields (fun n => schedApplyAging n s) s' ∧
    Ready s' (q.age (overThreshold s)) ∧ SameIds s s' ∧
      ∀ x, (∀ p, 1 ≤ p → p < 4 → x ∉ q p) → s'.bare x = s.bare x := by
  obtain ⟨s1, y1, h1, t1, l1⟩ := agingPass_spec (i := 1) h le_rfl (by norm_num)
    fun t _ => (.rfl : overThreshold s t ↔ overThreshold s t)
  -- the lists further down are as they were
  have q1 : ∀ p, 1 < p → q.ageOne (overThreshold s) 1 p = q p := fun p hp => by
    simp [Queues.ageOne, show p ≠ 0 by omega, show p ≠ 1 by omega]
  have o1 : ∀ p < 4, 1 < p → ∀ t ∈ q p, overThreshold s1 t ↔ overThreshold s t :=
    fun p hp hp1 t ht =>
    overThreshold_congr t1.tick (l1 t fun hm => by
      have := h.mem_unique hp (by norm_num) ht hm
      omega)
  obtain ⟨s2, y2, h2, t2, l2⟩ := agingPass_spec (i := 2) h1 (by norm_num) (by norm_num)
    fun t ht => o1 2 (by norm_num) (by norm_num) t (q1 2 (by norm_num) ▸ ht)
  have q2 : (q.ageOne (overThreshold s) 1).ageOne (overThreshold s) 2 3 = q 3 := by
    simp [Queues.ageOne]
  obtain ⟨s3, y3, h3, t3, l3⟩ := agingPass_spec (i := 3) h2 (by norm_num) (by norm_num)
    fun t ht => show _ ↔ overThreshold s t by
      rw [q2] at ht
      rw [← o1 3 (by norm_num) (by norm_num) t ht]
      refine overThreshold_congr t2.tick (l2 t fun hm => ?_)
      rw [q1 2 (by norm_num)] at hm
      exact absurd (h.mem_unique (by norm_num) (by norm_num) ht hm) (by norm_num)
  refine ⟨s3, y1.bind (y2.bind y3), h3.congr_lists fun p hp => ?_, (t1.trans t2).trans t3,
    fun x hx => ?_⟩
  · interval_cases p <;> simp [Queues.age, Queues.ageOne]
  · have hx1 : x ∉ q 1 := hx 1 (by norm_num) (by norm_num)
    have hx2 : x ∉ q.ageOne (overThreshold s) 1 2 := by
      rw [q1 2 (by norm_num)]
      exact hx 2 (by norm_num) (by norm_num)
    have hx3 : x ∉ (q.ageOne (overThreshold s) 1).ageOne (overThreshold s) 2 3 := by
      rw [q2]
      exact hx 3 (by norm_num) (by norm_num)
    rw [l3 x hx3, l2 x hx2, l1 x hx1]

theorem Ready.first (h : Ready s q) :
    ((List.range threadNumPriorities).find? fun p => decide (s.readyQueueHeads p ≠ 0)) =
      (List.range 4).find? fun p => decide (q p ≠ []) := by
  refine List.find?_congr fun p hp => ?_
  simp only [ne_eq, (h.queue p (List.mem_range.1 hp)).head_eq_nil]

/-- **`sched_pick_next`** -/
theorem Ready.pick (h : Ready s q) : Ready (schedPickNext s).1 (q.pick s.kernelIdleTask).1 ∧
    (schedPickNext s).2 = (q.pick s.kernelIdleTask).2 ∧
      SameIds s (schedPickNext s).1 := by
  unfold schedPickNext Queues.pick
  rw [h.first]
  rcases hf : (List.range 4).find? fun p => decide (q p ≠ []) with _ | p
  · exact ⟨h, rfl, .refl s⟩
  · have hp4 : p < 4 := List.mem_range.1 (List.mem_of_find?_eq_some hf)
    have hne : q p ≠ [] := by simpa using List.find?_some hf
    obtain ⟨t, r, hq⟩ : ∃ t r, q p = t :: r := List.exists_cons_of_ne_nil hne
    have hqueue := h.queue p hp4
    rw [hq] at hqueue
    have hhead : s.readyQueueHeads p = t := hqueue.seg.1
    obtain ⟨h1, hsame, -⟩ := h.remove_next hp4 (k := []) hq rfl
    have hout := h.not_mem_rest hp4 (k := []) hq
    have hrem : (if (s.setHead p (s.threads t).next).readyQueueHeads p = 0 then
        (s.setHead p (s.threads t).next).setTail p 0 else s.setHead p (s.threads t).next) =
          removeNext s p 0 t := by
      have h0 : (s.setHead p (s.threads t).next).readyQueueHeads p = (s.threads t).next :=
        Function.update_self ..
      simp only [h0, removeNext, ne_eq, not_true_eq_false, if_false]
      exact if_congr hqueue.next_eq_nil rfl rfl
    simp only [hhead, hrem, hq, List.tail_cons, List.headD_cons]
    refine ⟨?_, trivial, (hsame.toSameIds.trans (.set rfl)).trans (.set rfl)⟩
    have h2 : Ready ((removeNext s p 0 t).setNext t 0) _ := h1.set fun p' hp' hm =>
      absurd hm (hout p' hp')
    exact h2.set fun p' hp' hm => absurd hm (hout p' hp')

theorem searchBefore_not_mem (h : Seg s.next a l 0) (h0 : 0 ∉ l) (ht : t ∉ l)
    (ht0 : t ≠ 0) : Yields (fun n => searchBefore s t n a) 0 := by
  induction l generalizing a with
  | nil =>
    obtain rfl : a = 0 := h
    exact yields_loop_end (if_neg fun h => h.1 rfl)
  | cons x l ih =>
    obtain ⟨rfl, h2⟩ := h
    have hx : a ≠ 0 := fun e => h0 (by simp [e])
    have hn : s.next a ≠ t := by
      rw [h2.head_eq]
      cases l with
      | nil => exact ht0.symm
      | cons y l => exact fun e => ht (by simp [← e])
    exact yields_loop_step (if_pos ⟨hx, hn⟩) (ih h2 (fun hm => h0 (List.mem_cons_of_mem a hm))
      fun hm => ht (List.mem_cons_of_mem a hm))

theorem searchBefore_mem (h : Seg s.next a (k ++ prev :: t :: r) 0)
    (h0 : 0 ∉ k ++ prev :: t :: r) (hnd : (k ++ prev :: t :: r).Nodup) :
    Yields (fun n => searchBefore s t n a) prev := by
  induction k generalizing a with
  | nil =>
    obtain ⟨rfl, h2⟩ := h
    exact yields_loop_end (if_neg fun h => h.2 h2.1)
  | cons x k ih =>
    obtain ⟨rfl, h2⟩ := h
    have hx : a ≠ 0 := fun e => h0 (by simp [e])
    have hn : s.next a ≠ t := fun e => by
      have ht : t ∉ k ++ [prev] := fun hm =>
        (List.nodup_append.1 (show ((k ++ [prev]) ++ t :: r).Nodup by
          simpa using (List.nodup_cons.1 hnd).2)).2.2 t hm t List.mem_cons_self rfl
      rw [h2.head_eq] at e
      refine ht ?_
      rw [← e]
      cases k <;> simp
    exact yields_loop_step (if_pos ⟨hx, hn⟩) (ih h2 (fun hm => h0 (List.mem_cons_of_mem a hm))
      (List.nodup_cons.1 hnd).2)

theorem Ready.dequeue (h : Ready s q) (t : ℕ) : ∃ s', Yields (fun n => schedDequeue n s t) s' ∧
    Ready s' (q.dequeue t) ∧ SameIds s s' := by
  have hgone : (∀ p < 4, t ∉ q p) → ∀ p < 4, q.dequeue t p = q p := fun hn p hp =>
    List.erase_of_not_mem (hn p hp)
  unfold schedDequeue
  by_cases h1 : t = 0 ∨ (s.threads t).tid = 0
  · simp only [if_pos h1]
    refine ⟨s, .pure s, h.congr_lists (hgone fun p hp hm => ?_), .refl s⟩
    exact h1.elim (h.ne_zero hp hm) (h.tid p hp t hm)
  simp only [if_neg h1]
  obtain ⟨ht0, -⟩ := not_or.1 h1
  by_cases h2 : threadNumPriorities ≤ (s.threads t).priority
  · simp only [if_pos h2]
    refine ⟨s, .pure s, h.congr_lists (hgone fun p hp hm => ?_), .refl s⟩
    rw [h.priority p hp t hm] at h2
    exact absurd hp (not_lt.2 h2)
  simp only [if_neg h2]
  obtain ⟨p, hpr⟩ : ∃ p, (s.threads t).priority = p := ⟨_, rfl⟩
  have hp : p < 4 := hpr ▸ not_le.1 h2
  rw [hpr]
  have hqueue := h.queue p hp
  by_cases hm : t ∈ q p
  · obtain ⟨k, r, e⟩ := List.append_of_mem hm
    rw [e] at hqueue
    have hk : t ∉ k :=
      fun hm => (List.nodup_append.1 hqueue.nodup).2.2 t hm t List.mem_cons_self rfl
    obtain ⟨h₁, hsame, -⟩ := h.remove_next hp e (rfl : k.getLast?.getD 0 = _)
    have hout := h.not_mem_rest hp e
    refine ⟨_, Yields.map (a := removeNext s p (k.getLast?.getD 0) t) ?_ _,
      Ready.congr_lists (h₁.set fun p' hp' hm => absurd hm (hout p' hp')) fun p' hp' => ?_,
      hsame.toSameIds.trans (.set rfl)⟩
    · unfold removeThread
      rcases List.eq_nil_or_concat' k with rfl | ⟨k', prev, rfl⟩
      · simp only [if_pos hqueue.seg.1]
        exact .pure _
      · rw [List.append_assoc] at hqueue
        have hhead : s.readyQueueHeads p ≠ t := fun e => hk (by
          rw [← e, hqueue.seg.head_eq]
          cases k' <;> simp)
        have hprev : prev ≠ 0 := fun e => hqueue.not_nil (by simp [e])
        have hy := (searchBefore_mem hqueue.seg hqueue.not_nil hqueue.nodup).map fun curr =>
          if curr ≠ 0 then removeNext s p curr t else s
        simp only [if_neg hhead, List.getLast?_concat, Option.getD_some]
        rwa [if_pos hprev] at hy
    · rw [Queues.dequeue]
      by_cases hpp : p' = p
      · subst hpp
        rw [Function.update_self, e, List.erase_append_right _ hk, List.erase_cons_head]
      · rw [Function.update_of_ne hpp]
        exact List.erase_of_not_mem fun hm' => hpp (h.mem_unique hp' hp hm' hm)
  · have hn : ∀ p' < 4, t ∉ q p' := fun p' hp' hm' =>
      hm ((h.priority p' hp' t hm').symm.trans hpr ▸ hm')
    refine ⟨_, Yields.map (a := s) ?_ _, (h.set fun p' hp' hm => absurd hm (hn p' hp')).congr_lists
      (hgone hn), .set rfl⟩
    have hhead : s.readyQueueHeads p ≠ t := fun e => by
      rw [hqueue.seg.head_eq] at e
      cases hq : q p with
      | nil => exact ht0 (by rw [← e, hq]; rfl)
      | cons x l => exact hm (by rw [← e, hq]; simp)
    simp only [removeThread, if_neg hhead]
    have := (searchBefore_not_mem hqueue.seg hqueue.not_nil hm ht0).map fun curr =>
      if curr ≠ 0 then removeNext s p curr t else s
    simpa using this

theorem Queues.pick_eq_idle (q : Queues) {idle : ℕ} (h : ∀ p < 4, idle ∉ q p) :
    (q.pick idle).2 = idle ↔ ∀ p < 4, q p = [] := by
  unfold Queues.pick
  rcases hf : (List.range 4).find? fun p => decide (q p ≠ []) with _ | p
  · refine iff_of_true rfl fun p hp => ?_
    simpa using List.find?_eq_none.1 hf p (List.mem_range.2 hp)
  · have hp : p < 4 := List.mem_range.1 (List.mem_of_find?_eq_some hf)
    have hne : q p ≠ [] := by simpa using List.find?_some hf
    obtain ⟨t, r, e⟩ := List.exists_cons_of_ne_nil hne
    refine iff_of_false (fun ht => h p hp ?_) fun hall => hne (hall p hp)
    rw [e]
    simp only [e, List.headD_cons] at ht
    rw [ht]
    exact List.mem_cons_self

end

/-! ## Runs -/

/-- The calls.  Between them the tick counter may take any value, and other code may write
    thread structures. -/
inductive SchedCall
  | enqueue (t : ℕ)
  | dequeue (t : ℕ)
  | pickNext
  | applyAging
  | tick (now : ℕ)
  | write (t : ℕ) (thread : Thread)

/-- The state after the call, and the thread that `sched_pick_next` returns. -/
def SchedCall.exec (c : SchedCall) (s : Sched) (n : ℕ) : Option (Sched × Option ℕ) :=
  match c with
  | .enqueue t => some (schedEnqueue s t, none)
  | .dequeue t => (schedDequeue n s t).map fun s => (s, none)
  | .pickNext => some ((schedPickNext s).1, some (schedPickNext s).2)
  | .applyAging => (schedApplyAging n s).map fun s => (s, none)
  | .tick now => some ({ s with timeTick := now }, none)
  | .write t thread => some (s.set t fun _ => thread, none)

/-- What the call does to the lists. -/
def SchedCall.spec (c : SchedCall) (s : Sched) (q : Queues) : Queues × Option ℕ :=
  match c with
  | .enqueue t => (q.enqueue (s.threads t).priority t, none)
  | .dequeue t => (q.dequeue t, none)
  | .pickNext => ((q.pick s.kernelIdleTask).1, some (q.pick s.kernelIdleTask).2)
  | .applyAging => (q.age (overThreshold s), none)
  | .tick _ => (q, none)
  | .write _ _ => (q, none)

/-- Threads are enqueued that are not idle, have one of the four priorities and are not
    queued.  Other code leaves the links, priorities and ids of queued threads alone, and the
    id of the idle thread. -/
def SchedCall.Legal (s : Sched) (q : Queues) : SchedCall → Prop
  | .enqueue t => t ≠ 0 ∧ (s.threads t).tid ≠ 0 ∧ (s.threads t).priority < 4 ∧ ∀ p < 4, t ∉ q p
  | .write t thread => (t = s.kernelIdleTask → thread.tid = 0) ∧ ∀ p < 4, t ∈ q p →
      thread.next = (s.threads t).next ∧ thread.priority = (s.threads t).priority ∧
        thread.tid = (s.threads t).tid
  | _ => True

/-- A call that returns, next to what it does to the lists. -/
def SchedStep (x y : Sched × Queues) : Prop :=
  ∃ c : SchedCall, c.Legal x.1 x.2 ∧ (∃ r, Yields (c.exec x.1) (y.1, r)) ∧ y.2 = (c.spec x.1 x.2).1

section
variable {s : Sched} {q : Queues}

/-- The idle thread has id `0`. -/
def IdleId (s : Sched) : Prop := (s.threads s.kernelIdleTask).tid = 0

theorem SameIds.idleId {s' : Sched} (h : SameIds s s') (hid : IdleId s) : IdleId s' := by
  rw [IdleId, h.idle, h.tid]
  exact hid

/-- **One call**: it returns, with the lists that it should have. -/
theorem Ready.call (h : Ready s q) (hid : IdleId s) {c : SchedCall} (hc : c.Legal s q) :
    ∃ s', Yields (c.exec s) (s', (c.spec s q).2) ∧ Ready s' (c.spec s q).1 ∧ IdleId s' := by
  cases c with
  | enqueue t =>
    obtain ⟨h0, htid, hp, hn⟩ := hc
    obtain ⟨h1, h2⟩ := h.enqueue hn h0 htid hp
    exact ⟨_, .pure _, h1, h2.idleId hid⟩
  | dequeue t =>
    obtain ⟨s', h1, h2, h3⟩ := h.dequeue t
    exact ⟨s', h1.map _, h2, h3.idleId hid⟩
  | pickNext =>
    obtain ⟨h1, h2, h3⟩ := h.pick
    refine ⟨_, ?_, h1, h3.idleId hid⟩
    rw [SchedCall.spec, ← h2]
    exact .pure _
  | applyAging =>
    obtain ⟨s', h1, h2, h3, -⟩ := h.age
    exact ⟨s', h1.map _, h2, h3.idleId hid⟩
  | tick now => exact ⟨_, .pure _, ⟨h.queue, h.priority, h.tid⟩, hid⟩
  | write t thread =>
    refine ⟨_, .pure _, h.set hc.2, ?_⟩
    by_cases e : s.kernelIdleTask = t
    · rw [IdleId, Sched.threads_set, show (s.set t fun _ => thread).kernelIdleTask = t from e,
        Function.update_self]
      exact hc.1 e.symm
    · rw [IdleId, Sched.threads_set, Function.update_of_ne (show
        (s.set t fun _ => thread).kernelIdleTask ≠ t from e)]
      exact hid

theorem schedInit_ready (s : Sched) (idle : ℕ) :
    Ready (schedInit s idle) (fun _ => []) ∧ IdleId (schedInit s idle) := by
  refine ⟨⟨fun p _ => .empty _ 0, ?_, ?_⟩, ?_⟩
  · exact fun p _ t ht => absurd ht List.not_mem_nil
  · exact fun p _ t ht => absurd ht List.not_mem_nil
  · simp [IdleId, schedInit]

/-- **A run of calls** keeps the lists. -/
theorem SchedStep.run {s₀ : Sched} {idle : ℕ} {x : Sched × Queues}
    (hr : Relation.ReflTransGen SchedStep (schedInit s₀ idle, fun _ => []) x) :
    Ready x.1 x.2 ∧ IdleId x.1 := by
  induction hr with
  | refl => exact schedInit_ready s₀ idle
  | tail _ hstep ih =>
    obtain ⟨c, hc, ⟨r, hy⟩, e⟩ := hstep
    obtain ⟨s', h1, h2, h3⟩ := ih.1.call ih.2 hc
    have es := congrArg Prod.fst (hy.unique h1)
    simp only at es
    rw [e, es]
    exact ⟨h2, h3⟩

/-- **The ready queues are four first-in first-out lists.**  After any run of calls the
    linked lists are the lists that the calls should give, every call returns, and
    `sched_pick_next` returns the idle thread just when all four lists are empty. -/
theorem ready_queues_fifo {s₀ : Sched} {idle : ℕ}
    (hr : Relation.ReflTransGen SchedStep (schedInit s₀ idle, fun _ => []) (s, q)) :
    Ready s q ∧
      (∀ c : SchedCall, c.Legal s q →
        ∃ s', Yields (c.exec s) (s', (c.spec s q).2) ∧ Ready s' (c.spec s q).1) ∧
      ((schedPickNext s).2 = s.kernelIdleTask ↔ ∀ p < 4, q p = []) := by
  obtain ⟨h, hid⟩ := SchedStep.run hr
  refine ⟨h, fun c hc => ?_, ?_⟩
  · obtain ⟨s', h1, h2, -⟩ := h.call hid hc
    exact ⟨s', h1, h2⟩
  · rw [h.pick.2.1]
    exact q.pick_eq_idle fun p hp hm => h.tid p hp _ hm hid

/-- Threads of priority `1`, but for thread `7` of priority `0`, each with its address as id. -/
def demoThreads : Sched :=
  ⟨fun t => ⟨t, 0, 0, 0, 0, 0, .new, if t = 7 then 0 else 1, 0⟩, fun _ => 0, fun _ => 0, 0, 0⟩

/-- The threads `5`, `6` and `7` are enqueued. -/
def demoQueued : Sched := [5, 6, 7].foldl schedEnqueue (schedInit demoThreads 1)

def demoQueues : Queues := fun p => if p = 0 then [7] else if p = 1 then [5, 6] else []

theorem demoQueued_run : Relation.ReflTransGen SchedStep (schedInit demoThreads 1, fun _ => [])
    (demoQueued, demoQueues) := by
  have hstep (s : Sched) (q : Queues) (t : ℕ) (hc : (SchedCall.enqueue t).Legal s q) :
      SchedStep (s, q) (schedEnqueue s t, q.enqueue (s.threads t).priority t) :=
    ⟨.enqueue t, hc, ⟨none, .pure _⟩, rfl⟩
  have h5 := hstep (schedInit demoThreads 1) (fun _ => []) 5
    ⟨by decide, by decide, by decide, by decide⟩
  have h6 := hstep (schedEnqueue (schedInit demoThreads 1) 5) (Queues.enqueue (fun _ => []) 1 5) 6
    ⟨by decide, by decide, by decide, by decide⟩
  have h7 := hstep ([5, 6].foldl schedEnqueue (schedInit demoThreads 1))
    (Queues.enqueue (Queues.enqueue (fun _ => []) 1 5) 1 6) 7
    ⟨by decide, by decide, by decide, by decide⟩
  have hq : demoQueues =
      Queues.enqueue (Queues.enqueue (Queues.enqueue (fun _ => []) 1 5) 1 6) 0 7 := by
    funext p
    by_cases h0 : p = 0 <;> by_cases h1 : p = 1 <;>
      simp [demoQueues, Queues.enqueue, Function.update_apply, h0, h1]
  rw [hq]
  exact .tail (.tail (.single h5) h6) h7

/-- Thread `7` is picked first, and then `5`, which came before `6`. -/
theorem ready_queues_fifo_three :
    (∃ s, Yields (SchedCall.pickNext.exec demoQueued) (s, some 7)) ∧
      ∃ s, Yields (SchedCall.pickNext.exec (schedPickNext demoQueued).1) (s, some 5) := by
  obtain ⟨-, hcall, -⟩ := ready_queues_fifo demoQueued_run
  obtain ⟨s, hy, -⟩ := hcall .pickNext trivial
  have hr : Relation.ReflTransGen SchedStep (schedInit demoThreads 1, fun _ => [])
      ((schedPickNext demoQueued).1, (SchedCall.pickNext.spec demoQueued demoQueues).1) :=
    demoQueued_run.tail ⟨.pickNext, trivial, ⟨_, .pure _⟩, rfl⟩
  obtain ⟨-, hcall', -⟩ := ready_queues_fifo hr
  obtain ⟨s', hy', -⟩ := hcall' .pickNext trivial
  exact ⟨⟨s, hy⟩, s', hy'⟩

end

end Kabanos
