/-
  Terminal input: `tty.c` and the queue of `circular_buffer.c`.

  A character goes into the queue as it is typed, and `tty_read` takes the characters out one
  by one, each under the lock of the terminal; what lies between two of these steps of one
  thread is open to the others.  The echo is left out.
-/
import Kabanos.Lib.Ring
import Kabanos.Lib.Runs

namespace Kabanos

/-! ## The queue -/

def queueSize : ℕ := 256

structure CircularBuff (α : Type*) where
  data : ℕ → α
  head : ℕ
  tail : ℕ
  count : ℕ
  tail_lt : tail < queueSize
  count_le : count ≤ queueSize
  head_eq : head = (tail + count) % queueSize

section
variable {α : Type*}

def circularBuffInit (data : ℕ → α) : CircularBuff α where
  data := data
  head := 0
  tail := 0
  count := 0
  tail_lt := by decide
  count_le := by decide
  head_eq := rfl

def circularBuffIsEmpty (cb : CircularBuff α) : Bool := cb.count == 0

def circularBuffIsFull (cb : CircularBuff α) : Bool := cb.count == queueSize

def circularBuffEnqueue (cb : CircularBuff α) (val : α) : CircularBuff α :=
  if h : circularBuffIsFull cb then cb
  else
    { data := Function.update cb.data cb.head val
      head := (cb.head + 1) % queueSize
      tail := cb.tail
      count := cb.count + 1
      tail_lt := cb.tail_lt
      count_le := by
        have := cb.count_le
        simp only [circularBuffIsFull, beq_iff_eq] at h
        omega
      head_eq := by rw [cb.head_eq, Nat.mod_add_mod, Nat.add_assoc] }

/-- `circular_buff_dequeue`; `none` is the null pointer -/
def circularBuffDequeue (cb : CircularBuff α) : Option α × CircularBuff α :=
  if h : circularBuffIsEmpty cb then (none, cb)
  else
    (some (cb.data cb.tail),
      { cb with
        tail := (cb.tail + 1) % queueSize
        count := cb.count - 1
        tail_lt := Nat.mod_lt _ (by decide)
        count_le := (Nat.sub_le _ _).trans cb.count_le
        head_eq := by
          simp only [circularBuffIsEmpty, beq_iff_eq] at h
          rw [cb.head_eq, Nat.mod_add_mod]
          congr 1
          omega })

def circularBuffDequeueLast (cb : CircularBuff α) : Bool × CircularBuff α :=
  if h : cb.count = 0 then (false, cb)
  else
    (true,
      { cb with
        head := if cb.head = 0 then queueSize - 1 else cb.head - 1
        count := cb.count - 1
        count_le := (Nat.sub_le _ _).trans cb.count_le
        head_eq := by
          have hc := cb.count_le
          have ht := cb.tail_lt
          have hh := cb.head_eq
          simp only [queueSize] at *
          split_ifs <;> omega })

end

/-! ## The terminal -/

/-- The part of `tty_t` that is read here; `icanon` is `conf.c_lflag & TTY_ICANON`. -/
structure Tty where
  queue : CircularBuff UInt8
  icanon : Bool

/-- `key_ascii == '\b' || key_ascii == 127` -/
def isErase (keyAscii : UInt8) : Bool := keyAscii == 8 || keyAscii == 127

/-- `'\n'` -/
def newline : UInt8 := 10

def ttyInput (tty : Tty) (keyAscii : UInt8) : Tty :=
  if tty.icanon && isErase keyAscii then
    { tty with queue := (circularBuffDequeueLast tty.queue).2 }
  else { tty with queue := circularBuffEnqueue tty.queue keyAscii }

/-- A call of `tty_read`: the arguments and what it has read; `stop` says that it has left
    the loop at the end of a line. -/
structure TtyRead where
  size : ℕ
  out : List UInt8
  stop : Bool

/-- `tty_read` goes on with its loop. -/
def TtyRead.wants (r : TtyRead) : Bool := r.out.length < r.size && !r.stop

/-- The terminal with the calls of `tty_read` that have not returned, one for each thread at
    most, and what has happened: the characters typed, those taken out of the queue and what
    `tty_read` has returned. -/
structure TtySys where
  tty : Tty
  reading : ℕ → Option TtyRead
  input : List UInt8
  taken : List UInt8
  returned : List (List UInt8)

/-- The round of the loop of `tty_read` from the first lock on: it waits while there is no
    input, and takes the first character. -/
def ttyReadByte (s : TtySys) (t : ℕ) (r : TtyRead) : TtySys :=
  match circularBuffDequeue s.tty.queue with
  | (none, _) => s
  | (some c, queue) =>
    { s with
      tty := { s.tty with queue := queue }
      reading := Function.update s.reading t
        (some { r with out := r.out ++ [c], stop := s.tty.icanon && c == newline })
      taken := s.taken ++ [c] }

/-- What happens: a character is typed, a thread calls `tty_read`, or a call of `tty_read`
    goes on. -/
inductive TtyStep
  | input (keyAscii : UInt8)
  | read (t size : ℕ)
  | go (t : ℕ)

def TtyStep.run : TtyStep → TtySys → TtySys
  | .input keyAscii, s =>
    { s with tty := ttyInput s.tty keyAscii, input := s.input ++ [keyAscii] }
  | .read t size, s =>
    match s.reading t with
    | none => { s with reading := Function.update s.reading t (some ⟨size, [], false⟩) }
    | some _ => s
  | .go t, s =>
    match s.reading t with
    | none => s
    | some r =>
      if r.wants then ttyReadByte s t r
      else
        { s with
          reading := Function.update s.reading t none
          returned := s.returned ++ [r.out] }

/-- After `tty_init`, with `TTY_ICANON` set. -/
def TtySys.init (data : ℕ → UInt8) : TtySys where
  tty := ⟨circularBuffInit data, true⟩
  reading _ := none
  input := []
  taken := []
  returned := []

end Kabanos
