/-
  The scheduler: `sched.c`.

  Threads are cells with links, at addresses other than `0`; the four ready queues are
  linked through `next`.  A loop along a queue ends only if the queue does, so the functions
  with such loops have a bound on the rounds.
-/
import Kabanos.Lib.Loop

namespace Kabanos

inductive ThreadState
  | new | ready | running | dead | blocked
  deriving DecidableEq

/-- `thread_t`, the part that the scheduler uses. -/
structure Thread where
  tid : ℕ
  rtTicks : ℕ
  currTimeQuantum : ℕ
  currTimeQuantumTicksPassed : ℕ
  burstTicksEstimate : ℕ
  lastEnqueueTick : ℕ
  state : ThreadState
  priority : ℕ
  next : ℕ

/-- `THREAD_PRIORITY_MEDIUM`, `THREAD_PRIORITY_LOW` and `THREAD_NUM_PRIORITIES` -/
def threadPriorityMedium : ℕ := 2
def threadPriorityLow : ℕ := 3
def threadNumPriorities : ℕ := 4

def timeQuantums (priority : ℕ) : ℕ := [40, 80, 120, 200].getD priority 0

/-- `AGING_THRESHOLD_MS / TIMER_TICK_MS`: the second macro stands for `1000 / TIMER_HZ`,
    without parentheses. -/
def agingThreshold : ℕ := 500 / 1000 / 1000

/-- The threads, the ready queues and the tick counter. -/
structure Sched where
  threads : ℕ → Thread
  readyQueueHeads : ℕ → ℕ
  readyQueueTails : ℕ → ℕ
  kernelIdleTask : ℕ
  timeTick : ℕ

/-- Assignments to fields of thread `t`. -/
def Sched.set (s : Sched) (t : ℕ) (f : Thread → Thread) : Sched :=
  { s with threads := Function.update s.threads t (f (s.threads t)) }

def Sched.setNext (s : Sched) (t n : ℕ) : Sched := s.set t fun x => { x with next := n }

def Sched.setHead (s : Sched) (priority t : ℕ) : Sched :=
  { s with readyQueueHeads := Function.update s.readyQueueHeads priority t }

def Sched.setTail (s : Sched) (priority t : ℕ) : Sched :=
  { s with readyQueueTails := Function.update s.readyQueueTails priority t }

def timerTickGet (s : Sched) : ℕ := s.timeTick % 2 ^ 32

/-- `sched_init`, with the thread that `thread_create_kernel` made. -/
def schedInit (s : Sched) (idle : ℕ) : Sched :=
  let s := s.set idle fun t =>
    { t with tid := 0, priority := threadPriorityLow, currTimeQuantum := 0 }
  { s with kernelIdleTask := idle, readyQueueHeads := fun _ => 0, readyQueueTails := fun _ => 0 }

/-- The lines of `sched_enqueue` and `sched_apply_aging` that add a thread to the back of a
    queue. -/
def addToBack (s : Sched) (priority t : ℕ) : Sched :=
  if s.readyQueueTails priority = 0 then (s.setHead priority t).setTail priority t
  else (s.setNext (s.readyQueueTails priority) t).setTail priority t

def schedEnqueue (s : Sched) (t : ℕ) : Sched :=
  if t = 0 ∨ (s.threads t).tid = 0 then s
  else
    let priority := if threadNumPriorities ≤ (s.threads t).priority then threadPriorityMedium
      else (s.threads t).priority
    let s := s.set t fun x => { x with state := .ready, next := 0 }
    let s := addToBack s priority t
    s.set t fun x => { x with
      currTimeQuantum := timeQuantums priority
      burstTicksEstimate := timeQuantums priority
      lastEnqueueTick := timerTickGet s }

/-- The conversion of a `double` to an `int`: too large values give the least `int`. -/
def toInt (n : ℕ) : ℤ := if n < 2 ^ 31 then n else -2 ^ 31

/-- `sched_prepare_for_cpu_burst`; the products and the sum of doubles are exact. -/
def schedPrepareForCpuBurst (t : Thread) : Thread :=
  let nextBurstTicksEstimate := toInt ((t.currTimeQuantumTicksPassed + t.burstTicksEstimate) / 2)
  let priority := ((List.range threadNumPriorities).find? fun i =>
    decide (nextBurstTicksEstimate ≤ timeQuantums i)).getD threadPriorityLow
  { t with
    priority := priority
    burstTicksEstimate := (nextBurstTicksEstimate % 2 ^ 32).toNat
    currTimeQuantum := timeQuantums priority
    currTimeQuantumTicksPassed := 0 }

/-- `wait_time >= AGING_THRESHOLD_MS / TIMER_TICK_MS` -/
def overThreshold (s : Sched) (t : ℕ) : Prop :=
  agingThreshold ≤ (timerTickGet s + 2 ^ 32 - (s.threads t).lastEnqueueTick % 2 ^ 32) % 2 ^ 32

instance (s : Sched) (t : ℕ) : Decidable (overThreshold s t) :=
  inferInstanceAs (Decidable (_ ≤ _))

/-- The lines of `sched_apply_aging` and `sched_dequeue` that take `curr` out of queue `i`,
    with its predecessor `prev`. -/
def removeNext (s : Sched) (i prev curr : ℕ) : Sched :=
  let s := if prev ≠ 0 then s.setNext prev (s.threads curr).next
    else s.setHead i (s.threads curr).next
  if s.readyQueueTails i = curr then s.setTail i prev else s

/-- The lines of `sched_apply_aging` that promote `curr` from queue `i`. -/
def promote (s : Sched) (i curr : ℕ) : Sched :=
  let s := s.set curr fun x =>
    { x with priority := i - 1, next := 0, lastEnqueueTick := timerTickGet s }
  addToBack s (i - 1) curr

/-- One round of the loop over queue `i` in `sched_apply_aging`, on `prev` and `curr`. -/
def agingRound (i : ℕ) (x : Sched × ℕ × ℕ) : Option (Sched × ℕ × ℕ) :=
  if x.2.2 = 0 then none
  else if overThreshold x.1 x.2.2 then
    let s := removeNext x.1 i x.2.1 x.2.2
    some (promote s i x.2.2, x.2.1, (s.threads x.2.2).next)
  else some (x.1, x.2.2, (x.1.threads x.2.2).next)

/-- The pass over queue `i`. -/
def agingPass (n i : ℕ) (s : Sched) : Option Sched :=
  (loop (agingRound i) n (s, 0, s.readyQueueHeads i)).map Prod.fst

def schedApplyAging (n : ℕ) (s : Sched) : Option Sched :=
  (agingPass n 1 s).bind fun s => (agingPass n 2 s).bind fun s => agingPass n 3 s

def schedPickNext (s : Sched) : Sched × ℕ :=
  match (List.range threadNumPriorities).find? fun p => s.readyQueueHeads p ≠ 0 with
  | none => (s, s.kernelIdleTask)
  | some priority =>
    let next := s.readyQueueHeads priority
    let s := s.setHead priority (s.threads next).next
    let s := if s.readyQueueHeads priority = 0 then s.setTail priority 0 else s
    let s := s.setNext next 0
    (s.set next schedPrepareForCpuBurst, next)

/-- The search of `sched_dequeue` for the thread before `t`. -/
def searchBefore (s : Sched) (t n curr : ℕ) : Option ℕ :=
  loop (fun curr =>
    if curr ≠ 0 ∧ (s.threads curr).next ≠ t then some (s.threads curr).next else none)
    n curr

/-- The lines of `sched_dequeue` that take `t` out of a queue. -/
def removeThread (n : ℕ) (s : Sched) (priority t : ℕ) : Option Sched :=
  if s.readyQueueHeads priority = t then
    some (removeNext s priority 0 t)
  else (searchBefore s t n (s.readyQueueHeads priority)).map fun curr =>
    if curr ≠ 0 then removeNext s priority curr t else s

def schedDequeue (n : ℕ) (s : Sched) (t : ℕ) : Option Sched :=
  if t = 0 ∨ (s.threads t).tid = 0 then some s
  else if threadNumPriorities ≤ (s.threads t).priority then some s
  else (removeThread n s (s.threads t).priority t).map fun s =>
    s.set t fun x => { x with next := 0, state := .dead }

end Kabanos
