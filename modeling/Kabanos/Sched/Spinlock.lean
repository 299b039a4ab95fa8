/-
  Spinlocks on one processor: `spinlock.c`, and the code that runs between its calls.

  The code of a function is the list of its steps, of which only those of `spinlock_acquire`
  and `spinlock_release` matter here; a context is a function that is being executed, with
  the local variable `interrupts` of the two and the interrupt flag that its return restores.
  A thread has a stack of contexts, the interrupt handlers on top of what they interrupted.
  The gates are trap gates, so that a handler begins with interrupts enabled, and a context
  switch keeps the interrupt flag.

  `held` is not a variable of the kernel: it lists the locks that are held, the last acquired
  one first.
-/
import Kabanos.Lib.Runs

namespace Kabanos

open Function (update update_apply update_of_ne update_self)

variable {Λ : Type*} [DecidableEq Λ]

/-- A step of a function. -/
inductive Op (Λ : Type*)
  /-- `interrupts = hal_interrupts_state_get()` -/
  | getState
  /-- `hal_interrupts_disable()` -/
  | disable
  /-- the loop that sets `val` from 0 to 1 -/
  | cas (l : Λ)
  /-- `lock->interrupts = interrupts` -/
  | save (l : Λ)
  /-- `interrupts = lock->interrupts` -/
  | load (l : Λ)
  /-- the loop that sets `val` from 1 to 0 -/
  | unlock (l : Λ)
  /-- `if (interrupts) hal_interrupts_enable()` -/
  | restore
  /-- `dispatch_switch_to` -/
  | switch
  /-- anything else -/
  | work
  deriving DecidableEq

def spinlockAcquire (l : Λ) : List (Op Λ) := [.getState, .disable, .cas l, .save l]

def spinlockRelease (l : Λ) : List (Op Λ) := [.load l, .unlock l, .restore]

/-- `spinlock_t` -/
structure SpinLock where
  val : Bool
  interrupts : Bool

/-- A function that is being executed. -/
structure Context (Λ : Type*) where
  code : List (Op Λ)
  interrupts : Bool
  flag : Bool

/-- The processor: the locks, the interrupt flag, the running thread and the stacks. -/
structure Cpu (Λ : Type*) where
  lock : Λ → SpinLock
  enabled : Bool
  current : ℕ
  frames : ℕ → List (Context Λ)
  held : List Λ

/-- What happens next: a step of the running context (`next` is the thread that a switch
    picks), an interrupt, a call from user mode, or a change of the interrupt flag in user
    mode. -/
inductive Move (Λ : Type*)
  | exec (next : ℕ)
  | interrupt (code : List (Op Λ))
  | enter (code : List (Op Λ))
  | setFlag (b : Bool)

/-- The context on top of the running thread's stack goes on with `code`. -/
def Cpu.resume (s : Cpu Λ) (rest : List (Context Λ)) (c : Context Λ) : Cpu Λ :=
  { s with frames := update s.frames s.current (c :: rest) }

def Cpu.setLock (s : Cpu Λ) (l : Λ) (x : SpinLock) : Cpu Λ :=
  { s with lock := update s.lock l x }

/-- One step of the context on top; a loop that waits for a lock stays where it is. -/
def Cpu.execOp (s : Cpu Λ) (next : ℕ) (rest : List (Context Λ)) (reg fl : Bool)
    (code : List (Op Λ)) : Op Λ → Cpu Λ
  | .getState => s.resume rest ⟨code, s.enabled, fl⟩
  | .disable => { s.resume rest ⟨code, reg, fl⟩ with enabled := false }
  | .cas l =>
    if (s.lock l).val then s
    else { (s.resume rest ⟨code, reg, fl⟩).setLock l { s.lock l with val := true } with
      held := l :: s.held }
  | .save l => (s.resume rest ⟨code, reg, fl⟩).setLock l { s.lock l with interrupts := reg }
  | .load l => s.resume rest ⟨code, (s.lock l).interrupts, fl⟩
  | .unlock l =>
    if (s.lock l).val then
      { (s.resume rest ⟨code, reg, fl⟩).setLock l { s.lock l with val := false } with
        held := s.held.erase l }
    else s
  | .restore => { s.resume rest ⟨code, reg, fl⟩ with enabled := s.enabled || reg }
  | .switch => { s.resume rest ⟨code, reg, fl⟩ with current := next }
  | .work => s.resume rest ⟨code, reg, fl⟩

/-- One move.  A return to what was interrupted, or to user mode, restores the flag. -/
def Move.run : Move Λ → Cpu Λ → Cpu Λ
  | .exec next, s =>
    match s.frames s.current with
    | [] => s
    | ⟨[], _, fl⟩ :: rest =>
      { s with frames := update s.frames s.current rest, enabled := fl }
    | ⟨op :: code, reg, fl⟩ :: rest => s.execOp next rest reg fl code op
  | .interrupt code, s | .enter code, s => s.resume (s.frames s.current) ⟨code, false, s.enabled⟩
  | .setFlag b, s => { s with enabled := b }

/-- The next step of the running context. -/
def Cpu.nextOp (s : Cpu Λ) : Option (Op Λ) := (s.frames s.current).head?.bind fun c => c.code.head?

/-- The moves that are possible: `handler` and `call` are the functions that interrupts and
    user mode start. -/
def Move.Possible (handler call : List (Op Λ) → Prop) (s : Cpu Λ) : Move Λ → Prop
  | .exec _ => True
  | .interrupt code => s.enabled = true ∧ handler code
  | .enter code => s.frames s.current = [] ∧ call code
  | .setFlag _ => s.frames s.current = []

/-- A lock that is released before a later one has saved that interrupts were disabled. -/
def Move.Nested (s : Cpu Λ) : Move Λ → Prop
  | .exec _ =>
    ∀ l, s.nextOp = some (.load l) → s.held.head? ≠ some l → (s.lock l).interrupts = false
  | _ => True

/-! ## Balanced code -/

/-- The code of a function that holds the locks in the list: they are released in the
    reverse order, or the other way round for two of them, and a thread is switched only when
    no lock is held. -/
inductive Balanced : List Λ → List (Op Λ) → Prop
  | nil : Balanced [] []
  | work {H c} : Balanced H c → Balanced H (.work :: c)
  | switch {c} : Balanced [] c → Balanced [] (.switch :: c)
  | acquire {H c l} : l ∉ H → Balanced (l :: H) c →
      Balanced H (.getState :: .disable :: .cas l :: .save l :: c)
  | release {H c l} : Balanced H c → Balanced (l :: H) (.load l :: .unlock l :: .restore :: c)
  | handOver {c q l} : q ≠ l → Balanced [q] c →
      Balanced [q, l] (.load l :: .unlock l :: .restore :: c)

/-- All but the first lock that was acquired have saved that interrupts were disabled. -/
def Inner (lock : Λ → SpinLock) : List Λ → Prop
  | [] => True
  | [_] => True
  | l :: l' :: H => (lock l).interrupts = false ∧ Inner lock (l' :: H)

/-- A context that waits, and holds no lock. -/
def Waiting (c : Context Λ) : Prop :=
  Balanced [] c.code ∨
    ∃ l code, c.code = .disable :: .cas l :: .save l :: code ∧ Balanced [l] code

/-- Where the running context is, between the steps of the spinlock functions. -/
inductive Running (lock : Λ → SpinLock) (enabled : Bool) : List Λ → Context Λ → Prop
  | between {H code reg fl} : Balanced H code → Inner lock H →
      Running lock enabled H ⟨code, reg, fl⟩
  | gotState {H l code reg fl} : l ∉ H → Balanced (l :: H) code → Inner lock H →
      (H ≠ [] → reg = false) →
      Running lock enabled H ⟨.disable :: .cas l :: .save l :: code, reg, fl⟩
  | disabled {H l code reg fl} : l ∉ H → Balanced (l :: H) code → Inner lock H →
      (H ≠ [] → reg = false) → enabled = false →
      Running lock enabled H ⟨.cas l :: .save l :: code, reg, fl⟩
  | locked {H l code reg fl} : Balanced (l :: H) code → Inner lock H →
      (H ≠ [] → reg = false) → Running lock enabled (l :: H) ⟨.save l :: code, reg, fl⟩
  | loaded {H l code reg fl} : l ∈ H → Balanced (H.erase l) code → Inner lock (H.erase l) →
      (H.erase l ≠ [] → reg = false) →
      Running lock enabled H ⟨.unlock l :: .restore :: code, reg, fl⟩
  | unlocked {H code reg fl} : Balanced H code → Inner lock H → (H ≠ [] → reg = false) →
      enabled = false → Running lock enabled H ⟨.restore :: code, reg, fl⟩

/-- **The invariant**: interrupts are disabled while a lock is held, and only the running
    context holds locks. -/
structure Cpu.Locked (s : Cpu Λ) : Prop where
  val : ∀ l, (s.lock l).val = true ↔ l ∈ s.held
  nodup : s.held.Nodup
  disabled : s.held ≠ [] → s.enabled = false
  user : s.frames s.current = [] → s.held = []
  top : ∀ c rest, s.frames s.current = c :: rest → Running s.lock s.enabled s.held c
  below : ∀ c rest, s.frames s.current = c :: rest → ∀ d ∈ rest, Waiting d
  others : ∀ t ≠ s.current, ∀ d ∈ s.frames t, Waiting d

section
variable {s s' : Cpu Λ} {c c' : Context Λ} {rest : List (Context Λ)} {H : List Λ} {l : Λ}
  {lock lock' : Λ → SpinLock} {enabled : Bool}

omit [DecidableEq Λ] in
theorem Inner.tail (h : Inner lock (l :: H)) : Inner lock H := by
  cases H with
  | nil => trivial
  | cons l' H => exact h.2

omit [DecidableEq Λ] in
theorem Inner.congr (h : Inner lock H) (he : ∀ l ∈ H, (lock' l).interrupts = (lock l).interrupts) :
    Inner lock' H := by
  induction H with
  | nil => trivial
  | cons l H ih =>
    cases H with
    | nil => trivial
    | cons l' H =>
      exact ⟨(he l List.mem_cons_self).trans h.1,
        ih h.2 fun k hk => he k (List.mem_cons_of_mem _ hk)⟩

omit [DecidableEq Λ] in
theorem Inner.cons (h : Inner lock H) (hr : H ≠ [] → (lock l).interrupts = false) :
    Inner lock (l :: H) := by
  cases H with
  | nil => trivial
  | cons l' H => exact ⟨hr (List.cons_ne_nil _ _), h⟩

omit [DecidableEq Λ] in
theorem Inner.head (h : Inner lock (l :: H)) (hne : H ≠ []) : (lock l).interrupts = false := by
  cases H with
  | nil => exact absurd rfl hne
  | cons l' H => exact h.1

theorem interrupts_update_val (l : Λ) (b : Bool) (k : Λ) :
    (update lock l { lock l with val := b } k).interrupts = (lock k).interrupts := by
  rw [update_apply]
  split_ifs with hk
  · rw [hk]
  · rfl

theorem Waiting.running (h : Waiting c) : Running lock enabled [] c := by
  obtain ⟨code, reg, fl⟩ := c
  rcases h with h | ⟨l, code, rfl, h⟩
  · exact .between h trivial
  · exact .gotState List.not_mem_nil h trivial fun hne => absurd rfl hne

section
variable (h : s.Locked)
include h

theorem Cpu.Locked.waiting (he : s.enabled) (hs : s.frames s.current = c :: rest) :
    s.held = [] ∧ Waiting c := by
  have h0 : s.held = [] := by
    by_contra hne
    rw [h.disabled hne] at he
    cases he
  refine ⟨h0, ?_⟩
  have ht := h.top c rest hs
  rw [h0, he] at ht
  cases ht with
  | between hb _ => exact Or.inl hb
  | gotState _ hb _ _ => exact Or.inr ⟨_, _, rfl, hb⟩
  | disabled _ _ _ _ hf => cases hf
  | loaded hl _ _ _ => cases hl
  | unlocked _ _ _ hf => cases hf

theorem Cpu.Locked.next (hs : s.frames s.current = c :: rest) (hc : s'.current = s.current)
    (hf : s'.frames = update s.frames s.current (c' :: rest))
    (hv : ∀ l, (s'.lock l).val ↔ l ∈ s'.held) (hn : s'.held.Nodup)
    (hd : s'.held ≠ [] → s'.enabled = false) (hr : Running s'.lock s'.enabled s'.held c') :
    s'.Locked := by
  have e : s'.frames s'.current = c' :: rest := by rw [hc, hf, update_self]
  refine ⟨hv, hn, hd, fun h0 => ?_, fun d r hd => ?_, fun d r hd => ?_, fun t ht d hd => ?_⟩
  · rw [e] at h0
    cases h0
  · rw [e] at hd
    cases hd
    exact hr
  · rw [e] at hd
    cases hd
    exact h.below c rest hs
  · rw [hc] at ht
    rw [hf, update_of_ne ht] at hd
    exact h.others t ht d hd

theorem Cpu.Locked.ret {reg fl : Bool} (hs : s.frames s.current = ⟨[], reg, fl⟩ :: rest) :
    Cpu.Locked { s with frames := update s.frames s.current rest, enabled := fl } := by
  have h0 : s.held = [] := by
    have ht := h.top _ _ hs
    generalize s.held = H at ht
    cases ht with
    | between hb _ => cases hb; rfl
  have e : update s.frames s.current rest s.current = rest := update_self ..
  have hb := h.below _ _ hs
  refine ⟨h.val, h.nodup, fun hne => absurd h0 hne, fun _ => h0, fun d r hd => ?_,
    fun d r hd => ?_, fun t ht d hd => ?_⟩
  · simp only [e] at hd
    rw [h0]
    exact (hb d (hd ▸ List.mem_cons_self)).running
  · simp only [e] at hd
    exact fun d' hd' => hb d' (hd ▸ List.mem_cons_of_mem _ hd')
  · simp only [update_of_ne ht] at hd
    exact h.others t ht d hd

theorem Cpu.Locked.taken (l : Λ) (b : Bool) (k : Λ) :
    (update s.lock l ⟨true, b⟩ k).val ↔ k ∈ l :: s.held := by
  rw [update_apply, List.mem_cons]
  split_ifs with hk
  · exact ⟨fun _ => Or.inl hk, fun _ => rfl⟩
  · exact (h.val k).trans ⟨Or.inr, fun h => h.resolve_left hk⟩

theorem Cpu.Locked.freed (l : Λ) (b : Bool) (k : Λ) :
    (update s.lock l ⟨false, b⟩ k).val ↔ k ∈ s.held.erase l := by
  rw [update_apply, h.nodup.mem_erase_iff]
  split_ifs with hk
  · exact ⟨fun h => absurd h (by decide), fun h => absurd hk h.1⟩
  · exact (h.val k).trans ⟨fun h => ⟨hk, h⟩, And.right⟩

theorem Cpu.Locked.switch {code : List (Op Λ)} {reg fl : Bool} (hs : s.frames s.current = c :: rest)
    (h0 : s.held = []) (hb : Balanced [] code) (next : ℕ) :
    Cpu.Locked { s.resume rest ⟨code, reg, fl⟩ with current := next } := by
  have hw : ∀ t, ∀ d ∈ (s.resume rest ⟨code, reg, fl⟩).frames t, Waiting d := by
    intro t d hd
    by_cases ht : t = s.current
    · subst ht
      simp only [Cpu.resume, update_self] at hd
      rcases List.mem_cons.1 hd with rfl | hd
      · exact Or.inl hb
      · exact h.below c rest hs d hd
    · simp only [Cpu.resume, update_of_ne ht] at hd
      exact h.others t ht d hd
  refine ⟨h.val, h.nodup, h.disabled, fun _ => h0, fun d r hd => ?_, fun d r hd d' hd' => ?_,
    fun t _ => hw t⟩
  · show Running s.lock s.enabled s.held d
    rw [h0]
    exact (hw next d (hd ▸ List.mem_cons_self)).running
  · exact hw next d' (hd ▸ List.mem_cons_of_mem _ hd')

/-- **A step keeps the invariant**, if no lock that has saved enabled interrupts is released
    before a later one. -/
theorem Cpu.Locked.exec {next : ℕ} (hok : Move.Nested s (.exec next)) :
    (Move.run (.exec next) s).Locked := by
  rcases hs : s.frames s.current with _ | ⟨⟨_ | ⟨op, code⟩, reg, fl⟩, rest⟩
  · simp only [Move.run, hs]
    exact h
  · simp only [Move.run, hs]
    exact h.ret hs
  have hnext : s.nextOp = some op := by simp [Cpu.nextOp, hs]
  have ht := h.top _ _ hs
  simp only [Move.run, hs]
  generalize hH : s.held = H at ht
  cases ht with
  | between hb hi =>
    cases hb with
    | work hb => exact h.next hs rfl rfl h.val h.nodup h.disabled (hH ▸ .between hb hi)
    | switch hb => exact h.switch hs hH hb next
    | acquire hl hb =>
      refine h.next hs rfl rfl h.val h.nodup h.disabled ?_
      exact hH ▸ .gotState hl hb hi fun hne => h.disabled (hH ▸ hne)
    | @release H code l hb =>
      refine h.next hs rfl rfl h.val h.nodup h.disabled ?_
      show Running s.lock s.enabled s.held _
      rw [hH]
      refine .loaded List.mem_cons_self ?_ ?_ ?_ <;> rw [List.erase_cons_head]
      · exact hb
      · exact hi.tail
      · exact hi.head
    | @handOver code q l hq hb =>
      refine h.next hs rfl rfl h.val h.nodup h.disabled ?_
      show Running s.lock s.enabled s.held _
      rw [hH]
      have e : [q, l].erase l = [q] := by
        rw [List.erase_cons_tail (by simpa using hq), List.erase_cons_head]
      refine .loaded (List.mem_cons_of_mem _ List.mem_cons_self) ?_ ?_ ?_ <;> rw [e]
      · exact hb
      · trivial
      · -- here interrupts would be enabled while `q` is held
        exact fun _ => hok l hnext (by simpa [hH] using hq)
  | gotState hl hb hi hreg =>
    refine h.next hs rfl rfl h.val h.nodup (fun _ => rfl) ?_
    exact hH ▸ .disabled hl hb hi hreg rfl
  | @disabled H l code reg fl hl hb hi hreg hf =>
    have hv : (s.lock l).val = false := Bool.eq_false_iff.2 fun hv => hl (hH ▸ (h.val l).1 hv)
    simp only [Cpu.execOp, hv, Bool.false_eq_true, if_false]
    refine h.next hs rfl rfl (h.taken l _) (List.nodup_cons.2 ⟨hH ▸ hl, h.nodup⟩)
      (fun _ => hf) ?_
    show Running _ s.enabled (l :: s.held) _
    rw [hH]
    exact .locked hb (hi.congr fun k _ => interrupts_update_val l true k) hreg
  | @locked H l code reg fl hb hi hreg =>
    have hl : l ∉ H := (List.nodup_cons.1 (hH ▸ h.nodup)).1
    refine h.next hs rfl rfl (fun k => ?_) h.nodup h.disabled ?_
    · refine Iff.trans ?_ (h.val k)
      show (update s.lock l _ k).val ↔ _
      rw [update_apply]
      split_ifs with hk
      · rw [hk]
      · rfl
    · show Running (update s.lock l { s.lock l with interrupts := reg }) s.enabled s.held _
      rw [hH]
      refine .between hb (Inner.cons (hi.congr fun k hk => ?_) fun hne => ?_)
      · have hkl : k ≠ l := fun e => hl (e ▸ hk)
        rw [update_of_ne hkl]
      · rw [update_self]
        exact hreg hne
  | @loaded H l code reg fl hl hb hi hreg =>
    have hv : (s.lock l).val := (h.val l).2 (hH ▸ hl)
    have hf : s.enabled = false := h.disabled (hH ▸ List.ne_nil_of_mem hl)
    simp only [Cpu.execOp, hv, if_true]
    refine h.next hs rfl rfl (h.freed l _) (h.nodup.erase l) (fun _ => hf) ?_
    show Running _ s.enabled (s.held.erase l) _
    rw [hH]
    exact .unlocked hb (hi.congr fun k _ => interrupts_update_val l false k) hreg hf
  | unlocked hb hi hreg hf =>
    refine h.next hs rfl rfl h.val h.nodup (fun hne => ?_) (hH ▸ .between hb hi)
    show (s.enabled || reg) = false
    rw [hf, hreg (hH ▸ hne)]
    rfl

theorem Cpu.Locked.push {code : List (Op Λ)} (h0 : s.held = [])
    (hw : ∀ d ∈ s.frames s.current, Waiting d) (hb : Balanced [] code) :
    (s.resume (s.frames s.current) ⟨code, false, s.enabled⟩).Locked := by
  have e : (s.resume (s.frames s.current) ⟨code, false, s.enabled⟩).frames s.current
      = ⟨code, false, s.enabled⟩ :: s.frames s.current := update_self ..
  refine ⟨h.val, h.nodup, h.disabled, fun _ => h0, fun d r hd => ?_, fun d r hd => ?_,
    fun t ht d hd => ?_⟩
  · cases e.symm.trans hd
    exact h0 ▸ .between hb trivial
  · cases e.symm.trans hd
    exact hw
  · have ht' : t ≠ s.current := ht
    simp only [Cpu.resume, update_of_ne ht'] at hd
    exact h.others t ht' d hd

end

/-- **Every move keeps the invariant**, of balanced code in which no lock that has saved enabled
    interrupts is released before a later one. -/
theorem Cpu.Locked.step {handler call : List (Op Λ) → Prop}
    (hh : ∀ code, handler code → Balanced [] code) (hc : ∀ code, call code → Balanced [] code)
    (h : s.Locked) {m : Move Λ} (hp : m.Possible handler call s) (hok : m.Nested s) :
    (m.run s).Locked := by
  cases m with
  | exec next => exact h.exec hok
  | interrupt code =>
    obtain ⟨he, hcode⟩ := hp
    rcases hs : s.frames s.current with _ | ⟨c, rest⟩
    · refine h.push (h.user hs) (fun d hd => ?_) (hh code hcode)
      rw [hs] at hd
      cases hd
    · obtain ⟨h0, hw⟩ := h.waiting he hs
      refine h.push h0 (fun d hd => ?_) (hh code hcode)
      rw [hs] at hd
      rcases List.mem_cons.1 hd with rfl | hd
      · exact hw
      · exact h.below c rest hs d hd
  | enter code =>
    obtain ⟨hs, hcode⟩ := hp
    refine h.push (h.user hs) (fun d hd => ?_) (hc code hcode)
    rw [hs] at hd
    cases hd
  | setFlag b =>
    have hs : s.frames s.current = [] := hp
    refine ⟨h.val, h.nodup, fun hne => absurd (h.user hs) hne, h.user, fun c rest hc => ?_,
      fun c rest hc => ?_, h.others⟩
    · cases hs.symm.trans hc
    · cases hs.symm.trans hc

/-- No lock is held and no function is being executed; interrupts may be enabled or not. -/
structure Cpu.Idle (s : Cpu Λ) : Prop where
  free : ∀ l, (s.lock l).val = false
  held : s.held = []
  frames : ∀ t, s.frames t = []

theorem Cpu.Idle.locked (h : s.Idle) : s.Locked := by
  refine ⟨fun l => ?_, ?_, fun hne => absurd h.held hne, fun _ => h.held, fun c rest hc => ?_,
    fun c rest hc => ?_, fun t _ d hd => ?_⟩
  · rw [h.free l, h.held]
    exact ⟨fun h => absurd h (by decide), fun h => absurd h List.not_mem_nil⟩
  · rw [h.held]
    exact List.nodup_nil
  · cases (h.frames s.current).symm.trans hc
  · cases (h.frames s.current).symm.trans hc
  · rw [h.frames t] at hd
    cases hd

theorem Cpu.Locked.free (h : s.Locked) (hn : s.nextOp = some (.cas l)) :
    (s.lock l).val = false := by
  rcases hs : s.frames s.current with _ | ⟨⟨_ | ⟨op, code⟩, reg, fl⟩, rest⟩
  · simp [Cpu.nextOp, hs] at hn
  · simp [Cpu.nextOp, hs] at hn
  · have hop : op = .cas l := by simpa [Cpu.nextOp, hs] using hn
    subst hop
    have ht := h.top _ _ hs
    generalize hH : s.held = H at ht
    cases ht with
    | between hb _ => cases hb
    | disabled hl _ _ _ _ => exact Bool.eq_false_iff.2 fun hv => hl (hH ▸ (h.val l).1 hv)

end

end Kabanos
