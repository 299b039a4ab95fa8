/-
  `circular_buffer.c` against a bounded double-ended list.

  Head and tail go round the cells, the head in both directions; the list is what lies between
  them, from the tail on.  A call is run on the buffer and on the list, and every sequence of
  calls returns the same on both.
-/
import Kabanos.Tty.Tty

namespace Kabanos

section
variable {α : Type*} {cb : CircularBuff α}

/-- The elements of the queue, the oldest first. -/
def CircularBuff.toList (cb : CircularBuff α) : List α := ring queueSize cb.data cb.tail cb.count

@[simp]
theorem CircularBuff.length_toList (cb : CircularBuff α) : cb.toList.length = cb.count :=
  length_ring

theorem circularBuffIsEmpty_iff : circularBuffIsEmpty cb ↔ cb.toList.length = 0 := by
  rw [circularBuffIsEmpty, beq_iff_eq, cb.length_toList]

theorem circularBuffIsFull_iff : circularBuffIsFull cb ↔ cb.toList.length = queueSize := by
  rw [circularBuffIsFull, beq_iff_eq, cb.length_toList]

theorem toList_circularBuffEnqueue (cb : CircularBuff α) (val : α) :
    (circularBuffEnqueue cb val).toList =
      if cb.toList.length = queueSize then cb.toList else cb.toList ++ [val] := by
  by_cases h : circularBuffIsFull cb
  · rw [circularBuffEnqueue, dif_pos h, if_pos (circularBuffIsFull_iff.1 h)]
  · rw [circularBuffEnqueue, dif_neg h, if_neg (mt circularBuffIsFull_iff.2 h)]
    simp only [CircularBuff.toList, cb.head_eq]
    refine ring_push (lt_of_le_of_ne cb.count_le ?_) val
    simpa [circularBuffIsFull] using h

theorem circularBuffDequeue_spec (cb : CircularBuff α) :
    (circularBuffDequeue cb = (none, cb) ∧ cb.toList = []) ∨
      ∃ c queue, circularBuffDequeue cb = (some c, queue) ∧ cb.toList = c :: queue.toList := by
  rw [circularBuffDequeue]
  by_cases h : circularBuffIsEmpty cb
  · left
    rw [dif_pos h]
    exact ⟨rfl, List.length_eq_zero_iff.1 (circularBuffIsEmpty_iff.1 h)⟩
  · right
    rw [dif_neg h]
    simp only [circularBuffIsEmpty, beq_iff_eq] at h
    refine ⟨_, _, rfl, ?_⟩
    obtain ⟨n, hn⟩ := Nat.exists_eq_succ_of_ne_zero h
    simp only [CircularBuff.toList, hn]
    exact ring_pop cb.tail_lt

theorem circularBuffDequeueLast_spec (cb : CircularBuff α) :
    (circularBuffDequeueLast cb).1 = !cb.toList.isEmpty ∧
      (circularBuffDequeueLast cb).2.toList = cb.toList.dropLast := by
  rw [circularBuffDequeueLast]
  by_cases h : cb.count = 0
  · rw [dif_pos h]
    simp [CircularBuff.toList, h, ring]
  · rw [dif_neg h]
    obtain ⟨n, hn⟩ := Nat.exists_eq_succ_of_ne_zero h
    refine ⟨?_, ?_⟩
    · simp [CircularBuff.toList, hn, ring]
    · simp only [CircularBuff.toList, hn]
      exact ring_dropLast.symm

end

/-! ## Sequences of calls -/

inductive BuffCall (α : Type*)
  | enqueue (val : α)
  | dequeue
  | dequeueLast

/-- What a call returns. -/
inductive BuffResult (α : Type*)
  | done
  | value (val : Option α)
  | removed (found : Bool)

section
variable {α : Type*}

def BuffCall.run : BuffCall α → StateM (CircularBuff α) (BuffResult α)
  | .enqueue val => fun cb => (.done, circularBuffEnqueue cb val)
  | .dequeue => fun cb => (circularBuffDequeue cb).map .value id
  | .dequeueLast => fun cb => (circularBuffDequeueLast cb).map .removed id

/-- The call on a list of at most `QUEUE_SIZE` elements. -/
def BuffCall.onList : BuffCall α → StateM (List α) (BuffResult α)
  | .enqueue val => fun l => (.done, if l.length = queueSize then l else l ++ [val])
  | .dequeue => fun l => (.value l.head?, l.tail)
  | .dequeueLast => fun l => (.removed !l.isEmpty, l.dropLast)

theorem BuffCall.onList_toList (call : BuffCall α) (cb : CircularBuff α) :
    call.onList.run cb.toList = (call.run.run cb).map id CircularBuff.toList := by
  cases call with
  | enqueue val =>
    exact congrArg (Prod.mk _) (toList_circularBuffEnqueue cb val).symm
  | dequeue =>
    rcases circularBuffDequeue_spec cb with ⟨hq, hl⟩ | ⟨c, queue, hq, hl⟩
    · show (BuffResult.value cb.toList.head?, cb.toList.tail) =
        ((circularBuffDequeue cb).map .value id).map id CircularBuff.toList
      rw [hq, hl]
      exact congrArg (Prod.mk _) hl.symm
    · show (BuffResult.value cb.toList.head?, cb.toList.tail) =
        ((circularBuffDequeue cb).map .value id).map id CircularBuff.toList
      rw [hq, hl]
      rfl
  | dequeueLast =>
    obtain ⟨h1, h2⟩ := circularBuffDequeueLast_spec cb
    exact Prod.ext (congrArg BuffResult.removed h1.symm) h2.symm

/-- **The circular buffer is a bounded double-ended list**: after `circular_buff_init`, every
    sequence of calls returns what it returns on the list that starts empty, and leaves that
    list. -/
theorem circularBuff_refines_list (data : ℕ → α) (calls : List (BuffCall α)) :
    let b := (calls.mapM BuffCall.run).run (circularBuffInit data)
    let l := (calls.mapM BuffCall.onList).run []
    b.1 = l.1 ∧ b.2.toList = l.2 ∧ (circularBuffIsEmpty b.2 = true ↔ l.2.length = 0) ∧
      (circularBuffIsFull b.2 = true ↔ l.2.length = queueSize) := by
  intro b l
  have h : l = b.map id CircularBuff.toList :=
    mapM_simulates (fun c _ => BuffCall.onList_toList c) (circularBuffInit data)
  rw [h]
  exact ⟨rfl, rfl, circularBuffIsEmpty_iff, circularBuffIsFull_iff⟩

end

end Kabanos
