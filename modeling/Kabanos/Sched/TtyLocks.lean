/-
  The spinlocks of the terminal: the lock of the terminal, that of the wait queue of its
  device and that of the scheduler, as `tty_input`, `tty_read`, `wait_on_queue` and
  `wake_up_queue` use them.

  The steps of a function are given for each way through it, so that its branches are
  parameters.
-/
import Kabanos.Sched.Spinlock

namespace Kabanos

/-- `g_tty.lock`, `dev->waitq.lock` and `sched_lock` -/
inductive TtyLock
  | tty
  | waitq
  | sched
  deriving DecidableEq

instance : Fintype TtyLock := ⟨{.tty, .waitq, .sched}, fun l => by cases l <;> decide⟩

/-! ## The functions -/

/-- `sched_enqueue`; nothing happens for the idle thread -/
def schedEnqueueOps (idle : Bool) : List (Op TtyLock) :=
  if idle then [] else spinlockAcquire .sched ++ .work :: spinlockRelease .sched

def schedPickNextOps : List (Op TtyLock) :=
  spinlockAcquire .sched ++ .work :: spinlockRelease .sched

/-- `wake_up_queue`; `head` says that a thread waits, and `idle` that it is the idle one -/
def wakeUpQueueOps (head idle : Bool) : List (Op TtyLock) :=
  spinlockAcquire .waitq ++ (if head then .work :: schedEnqueueOps idle else []) ++
    spinlockRelease .waitq

/-- `wait_on_queue`, with the lock of the terminal as the condition lock -/
def waitOnQueueOps : List (Op TtyLock) :=
  spinlockAcquire .waitq ++ .work :: spinlockRelease .tty ++ spinlockRelease .waitq ++
    schedPickNextOps ++ .switch :: spinlockAcquire .tty

def ttyInputOps (icanon : Bool) (keyAscii : ℕ) (head idle : Bool) : List (Op TtyLock) :=
  spinlockAcquire .tty ++
    .work :: (if !icanon || keyAscii == 10 then wakeUpQueueOps head idle else []) ++
    spinlockRelease .tty

/-- One round of the loop of `tty_read`: it waits as long as there is no input. -/
def ttyReadByteOps (waits : ℕ) : List (Op TtyLock) :=
  spinlockAcquire .tty ++ (List.replicate waits waitOnQueueOps).flatten ++
    .work :: spinlockRelease .tty ++ [.work]

/-- `tty_read`; how often each of its rounds waits -/
def ttyReadOps (rounds : List ℕ) : List (Op TtyLock) := (rounds.map ttyReadByteOps).flatten

def wakeUpSleepingOps (sleepers : List Bool) : List (Op TtyLock) :=
  (sleepers.map fun idle => .work :: schedEnqueueOps idle).flatten

/-- `sched_on_timer_tick`; `preempt` says that the time slice of the thread has expired -/
def schedOnTimerTickOps (sleepers : List Bool) (aging preempt idle : Bool) : List (Op TtyLock) :=
  wakeUpSleepingOps sleepers ++
    (if aging then spinlockAcquire .sched ++ .work :: spinlockRelease .sched else []) ++
    .work :: (if preempt then schedEnqueueOps idle ++ schedPickNextOps ++ [.switch] else [])

/-- The interrupt handlers: the keyboard's, the timer's and those that take no lock. -/
inductive TtyHandler : List (Op TtyLock) → Prop
  | keyboard (icanon : Bool) (keyAscii : ℕ) (head idle : Bool) :
      TtyHandler (ttyInputOps icanon keyAscii head idle)
  | timer (sleepers : List Bool) (aging preempt idle : Bool) :
      TtyHandler (schedOnTimerTickOps sleepers aging preempt idle)
  | other (n : ℕ) : TtyHandler (List.replicate n .work)

/-- The functions that a system call starts: `tty_read`, and `wake_up_queue` from
    `tty_ioctl`. -/
inductive TtyCall : List (Op TtyLock) → Prop
  | read (rounds : List ℕ) : TtyCall (ttyReadOps rounds)
  | wakeUp (head idle : Bool) : TtyCall (wakeUpQueueOps head idle)
  | other (n : ℕ) : TtyCall (List.replicate n .work)

/-! ## They are balanced -/

section
variable {H : List TtyLock} {c : List (Op TtyLock)} {l : TtyLock}

theorem balanced_acquire (hl : l ∉ H) (h : Balanced (l :: H) c) :
    Balanced H (spinlockAcquire l ++ c) := .acquire hl h

theorem balanced_release (h : Balanced H c) : Balanced (l :: H) (spinlockRelease l ++ c) :=
  .release h

theorem balanced_critical (hl : l ∉ H) (h : Balanced H c) :
    Balanced H (spinlockAcquire l ++ .work :: spinlockRelease l ++ c) :=
  .acquire hl (.work (.release h))

theorem balanced_schedEnqueue (idle : Bool) (hs : .sched ∉ H) (h : Balanced H c) :
    Balanced H (schedEnqueueOps idle ++ c) := by
  cases idle with
  | true => exact h
  | false => exact balanced_critical hs h

theorem balanced_schedPickNext (hs : .sched ∉ H) (h : Balanced H c) :
    Balanced H (schedPickNextOps ++ c) := balanced_critical hs h

theorem balanced_wakeUpQueue (head idle : Bool) (hw : .waitq ∉ H) (hs : .sched ∉ H)
    (h : Balanced H c) : Balanced H (wakeUpQueueOps head idle ++ c) := by
  rw [wakeUpQueueOps, List.append_assoc, List.append_assoc]
  refine balanced_acquire hw ?_
  cases head with
  | true =>
    refine .work (balanced_schedEnqueue idle ?_ (balanced_release h))
    rw [List.mem_cons]
    rintro (h | h)
    · cases h
    · exact hs h
  | false => exact balanced_release h

theorem balanced_waitOnQueue (h : Balanced [.tty] c) : Balanced [.tty] (waitOnQueueOps ++ c) := by
  refine .acquire (by decide) (.work (.handOver (by decide) (.release ?_)))
  exact balanced_schedPickNext (by decide) (.switch (.acquire (by decide) h))

theorem balanced_ttyInput (icanon : Bool) (keyAscii : ℕ) (head idle : Bool) :
    Balanced [] (ttyInputOps icanon keyAscii head idle) := by
  rw [ttyInputOps, List.append_assoc]
  refine balanced_acquire (by decide) (.work ?_)
  have hr : Balanced [TtyLock.tty] (spinlockRelease .tty) := .release .nil
  split_ifs
  · exact balanced_wakeUpQueue head idle (by decide) (by decide) hr
  · exact hr

theorem balanced_ttyReadByte (waits : ℕ) (h : Balanced [] c) :
    Balanced [] (ttyReadByteOps waits ++ c) := by
  rw [ttyReadByteOps]
  simp only [List.append_assoc]
  refine balanced_acquire (by decide) ?_
  induction waits with
  | zero => exact .work (.release (.work h))
  | succ n ih =>
    rw [List.replicate_succ, List.flatten_cons, List.append_assoc]
    exact balanced_waitOnQueue ih

theorem balanced_ttyRead (rounds : List ℕ) : Balanced [] (ttyReadOps rounds) := by
  induction rounds with
  | nil => exact .nil
  | cons n rounds ih => exact balanced_ttyReadByte n ih

theorem balanced_wakeUpSleeping (sleepers : List Bool) (h : Balanced [] c) :
    Balanced [] (wakeUpSleepingOps sleepers ++ c) := by
  induction sleepers with
  | nil => exact h
  | cons idle sleepers ih =>
    rw [wakeUpSleepingOps, List.map_cons, List.flatten_cons, List.append_assoc]
    exact .work (balanced_schedEnqueue idle List.not_mem_nil ih)

theorem balanced_schedOnTimerTick (sleepers : List Bool) (aging preempt idle : Bool) :
    Balanced [] (schedOnTimerTickOps sleepers aging preempt idle) := by
  have hp : Balanced [] (.work :: (if preempt then
      schedEnqueueOps idle ++ schedPickNextOps ++ [.switch] else [])) := by
    refine .work ?_
    split_ifs
    · rw [List.append_assoc]
      exact balanced_schedEnqueue idle List.not_mem_nil
        (balanced_schedPickNext List.not_mem_nil (.switch .nil))
    · exact .nil
  rw [schedOnTimerTickOps, List.append_assoc]
  refine balanced_wakeUpSleeping sleepers ?_
  cases aging with
  | true => exact balanced_critical List.not_mem_nil hp
  | false => exact hp

theorem balanced_replicate_work (n : ℕ) :
    Balanced ([] : List TtyLock) (List.replicate n .work) := by
  induction n with
  | zero => exact .nil
  | succ n ih => exact .work ih

theorem TtyHandler.balanced (h : TtyHandler c) : Balanced [] c := by
  cases h with
  | keyboard => exact balanced_ttyInput ..
  | timer => exact balanced_schedOnTimerTick ..
  | other n => exact balanced_replicate_work n

theorem TtyCall.balanced (h : TtyCall c) : Balanced [] c := by
  cases h with
  | read => exact balanced_ttyRead _
  | wakeUp head idle =>
    have h := balanced_wakeUpQueue head idle List.not_mem_nil List.not_mem_nil Balanced.nil
    rwa [List.append_nil] at h
  | other n => exact balanced_replicate_work n

end

/-! ## The runs -/

/-- **Interrupts stay off while a spinlock is held**, and no context waits for a lock, if
    `wait_on_queue` releases the condition lock only when that lock has saved that interrupts
    were disabled. -/
theorem tty_locks_keep_interrupts_off {s s' : Cpu TtyLock} (h : s.Idle)
    (hr : Runs Move.run (fun s m => m.Possible TtyHandler TtyCall s ∧ m.Nested s) s s') :
    (∀ l, (s'.lock l).val = true → s'.enabled = false) ∧
      ∀ l, s'.nextOp = some (.cas l) → (s'.lock l).val = false := by
  have hl : s'.Locked := hr.invariant
    (fun s m hs hm => hs.step (fun _ => TtyHandler.balanced) (fun _ => TtyCall.balanced) hm.1 hm.2)
    h.locked
  exact ⟨fun l hv => hl.disabled (List.ne_nil_of_mem ((hl.val l).1 hv)), fun l => hl.free⟩

instance (s : Cpu TtyLock) (next : ℕ) : Decidable (Move.Nested s (.exec next)) :=
  inferInstanceAs (Decidable (∀ l, s.nextOp = some (.load l) → s.held.head? ≠ some l →
    (s.lock l).interrupts = false))

/-- No function is being executed, with interrupts enabled or not. -/
def idleCpu (enabled : Bool) : Cpu TtyLock where
  lock _ := ⟨false, false⟩
  enabled := enabled
  current := 0
  frames _ := []
  held := []

theorem idleCpu_idle (enabled : Bool) : (idleCpu enabled).Idle :=
  ⟨fun _ => rfl, rfl, fun _ => rfl⟩

/-- `tty_read` up to the release of the condition lock in `wait_on_queue`. -/
def readUntilHandOver : List (Move TtyLock) :=
  .enter (ttyReadOps [1]) :: List.replicate 12 (.exec 0)

/-- Entered with interrupts disabled, `tty_read` waits with interrupts off. -/
theorem tty_locks_keep_interrupts_off_disabled : (idleCpu false).Idle ∧
      ((readUntilHandOver.foldl (fun s m => m.run s) (idleCpu false)).lock .waitq).val = true ∧
      (readUntilHandOver.foldl (fun s m => m.run s) (idleCpu false)).enabled = false := by
  have hv : ((readUntilHandOver.foldl (fun s m => m.run s) (idleCpu false)).lock .waitq).val
      = true := by decide +kernel
  have ha : Allowed Move.run (fun s m => m.Possible TtyHandler TtyCall s ∧ m.Nested s)
      (idleCpu false) readUntilHandOver := by
    refine ⟨⟨⟨rfl, .read [1]⟩, trivial⟩, ?_⟩
    simp only [Allowed, Move.Possible, List.replicate, true_and]
    decide +kernel
  exact ⟨idleCpu_idle false, hv,
    (tty_locks_keep_interrupts_off (idleCpu_idle false) ha.runs).1 _ hv⟩

/-- A key pressed right after that, up to the loop in which `wake_up_queue` acquires the lock
    of the wait queue. -/
def newlineUntilWakeUp : List (Move TtyLock) :=
  .interrupt (ttyInputOps true 10 true false) :: List.replicate 7 (.exec 0)

/-- Entered with interrupts enabled, `tty_read` enables them when it hands the lock of the
    terminal over, while it holds the lock of the wait queue; the keyboard handler then waits
    for that lock forever. -/
theorem tty_read_enables_interrupts : ∃ s s' : Cpu TtyLock,
      Runs Move.run (fun s m => m.Possible TtyHandler TtyCall s) (idleCpu true) s ∧
      (s.lock .waitq).val = true ∧ s.enabled = true ∧
      Runs Move.run (fun s m => m.Possible TtyHandler TtyCall s) s s' ∧
      s'.nextOp = some (.cas .waitq) ∧ (s'.lock .waitq).val = true := by
  have ha : Allowed Move.run (fun s m => m.Possible TtyHandler TtyCall s) (idleCpu true)
      readUntilHandOver := ⟨⟨rfl, .read [1]⟩, by simp [Allowed, Move.Possible, List.replicate]⟩
  have hb : Allowed Move.run (fun s m => m.Possible TtyHandler TtyCall s)
      (readUntilHandOver.foldl (fun s m => m.run s) (idleCpu true)) newlineUntilWakeUp :=
    ⟨⟨by decide +kernel, .keyboard true 10 true false⟩,
      by simp [Allowed, Move.Possible, List.replicate]⟩
  exact ⟨_, _, ha.runs, by decide +kernel, by decide +kernel, hb.runs, by decide +kernel,
    by decide +kernel⟩

end Kabanos
