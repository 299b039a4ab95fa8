/-
  Canonical input: what `tty_read` hands out against the lines that were typed.

  `Lines` says what canonical input is for: a backspace edits the line being typed, and only
  completed lines are read.  `tty.c` has one queue for both and does not mark where a line
  ends, so this is what it does only as long as no step acts on the wrong side of the last
  newline (`TtyStep.InLine`).
-/
import Kabanos.Tty.CircularBuffer

namespace Kabanos

/-! ## Lines -/

/-- The lines typed so far and the one being typed. -/
structure Lines where
  completed : List (List UInt8)
  typing : List UInt8
  ended : ∀ line ∈ completed, ∃ body, line = body ++ [newline]
  pending : newline ∉ typing

def Lines.text (l : Lines) : List UInt8 := l.completed.flatten

/-- A character is typed: a backspace deletes the last one of the line being typed. -/
def Lines.type (l : Lines) (c : UInt8) : Lines :=
  if isErase c then
    { l with
      typing := l.typing.dropLast
      pending := fun h => l.pending (List.dropLast_subset _ h) }
  else if hc : c = newline then
    { completed := l.completed ++ [l.typing ++ [newline]]
      typing := []
      ended := by
        intro line h
        rcases List.mem_append.1 h with h | h
        · exact l.ended line h
        · exact ⟨l.typing, List.mem_singleton.1 h⟩
      pending := List.not_mem_nil }
  else
    { l with
      typing := l.typing ++ [c]
      pending := by
        rw [List.mem_append, List.mem_singleton]
        rintro (h | h)
        · exact l.pending h
        · exact hc h.symm }

def Lines.ofInput (input : List UInt8) : Lines :=
  input.foldl Lines.type ⟨[], [], by simp, List.not_mem_nil⟩

section
variable {l : Lines} {c : UInt8}

theorem Lines.ofInput_concat (input : List UInt8) (c : UInt8) :
    Lines.ofInput (input ++ [c]) = (Lines.ofInput input).type c := by
  rw [ofInput, List.foldl_append]
  rfl

theorem Lines.getLast?_text (h : l.text ≠ []) : l.text.getLast? = some newline := by
  rcases List.eq_nil_or_concat' l.completed with hc | ⟨lines, line, hc⟩
  · exact absurd (by rw [text, hc, List.flatten_nil]) h
  · obtain ⟨body, hb⟩ := l.ended line (by rw [hc]; simp)
    have ht : l.text = lines.flatten ++ body ++ [newline] := by
      rw [text, hc, hb]
      simp
    rw [ht, List.getLast?_concat]

theorem Lines.type_erase (h : isErase c) :
    (l.type c).text = l.text ∧ (l.type c).typing = l.typing.dropLast := by
  rw [type, if_pos h]
  exact ⟨rfl, rfl⟩

theorem Lines.type_other (h : isErase c = false) : l.text <+: (l.type c).text ∧
      (l.type c).text ++ (l.type c).typing = l.text ++ l.typing ++ [c] := by
  rw [type, if_neg (by rw [h]; exact Bool.false_ne_true)]
  by_cases hc : c = newline
  · rw [dif_pos hc]
    refine ⟨⟨l.typing ++ [newline], ?_⟩, ?_⟩
    · simp [text]
    · simp [text, hc]
  · rw [dif_neg hc]
    exact ⟨List.prefix_rfl, (List.append_assoc ..).symm⟩

end

/-! ## The runs -/

/-- The characters that have been typed and not been taken out of the queue. -/
def TtySys.pending (s : TtySys) : List UInt8 := s.tty.queue.toList

/-- The text of the lines completed so far. -/
def TtySys.text (s : TtySys) : List UInt8 := (Lines.ofInput s.input).text

/-- Fewer than `QUEUE_SIZE` characters are pending when one is typed. -/
def TtyStep.Room (s : TtySys) : TtyStep → Prop
  | .input _ => s.tty.queue.count < queueSize
  | _ => True

/-- A backspace does not find a newline at the end of the queue, and a character is taken only
    when a newline is pending. -/
def TtyStep.InLine (s : TtySys) : TtyStep → Prop
  | .input c => isErase c = true → s.pending.getLast? ≠ some newline
  | .go t => ∀ r, s.reading t = some r → r.wants = true → s.pending ≠ [] → newline ∈ s.pending
  | _ => True

instance (s : TtySys) (m : TtyStep) : Decidable (m.Room s) := by
  cases m <;> unfold TtyStep.Room <;> infer_instance

instance (s : TtySys) : ∀ m : TtyStep, Decidable (m.InLine s)
  | .input c => inferInstanceAs (Decidable (isErase c = true → s.pending.getLast? ≠ some newline))
  | .read _ _ => isTrue trivial
  | .go t => inferInstanceAs (Decidable (∀ r ∈ s.reading t, r.wants = true → s.pending ≠ [] →
      newline ∈ s.pending))

/-- No two calls of `tty_read` overlap. -/
def TtyStep.Alone (s : TtySys) : TtyStep → Prop
  | .read _ _ => ∀ t, s.reading t = none
  | _ => True

/-- The queue holds what is left of the completed lines and the line being typed. -/
structure TtySys.Cooked (s : TtySys) : Prop where
  icanon : s.tty.icanon = true
  queued : s.taken ++ s.pending = s.text ++ (Lines.ofInput s.input).typing
  taken : s.taken <+: s.text

/-- What has been taken has been returned, or is in the buffer of the only reader. -/
structure TtySys.OneReader (s : TtySys) : Prop where
  idle : (∀ t, s.reading t = none) → s.returned.flatten = s.taken
  busy : ∀ t r, s.reading t = some r →
    (∀ t' ≠ t, s.reading t' = none) ∧ s.returned.flatten ++ r.out = s.taken

section
variable {s : TtySys} {c : UInt8} {t size : ℕ} {r : TtyRead}

section
variable (h : s.Cooked)
include h

theorem TtySys.Cooked.split :
    ∃ rest, s.text = s.taken ++ rest ∧ s.pending = rest ++ (Lines.ofInput s.input).typing ∧
      (rest ≠ [] → rest.getLast? = some newline) := by
  obtain ⟨rest, hrest⟩ := h.taken
  have hq := h.queued
  rw [← hrest, List.append_assoc] at hq
  refine ⟨rest, hrest.symm, List.append_cancel_left hq, fun hne => ?_⟩
  have hl : s.text.getLast? = some newline :=
    Lines.getLast?_text (by rw [← TtySys.text, ← hrest]; simp [hne])
  rwa [← hrest, List.getLast?_append_of_ne_nil _ hne] at hl

theorem TtySys.Cooked.erase (hl : s.pending.getLast? ≠ some newline) :
    s.taken ++ s.pending.dropLast = s.text ++ (Lines.ofInput s.input).typing.dropLast := by
  obtain ⟨rest, htext, hpend, hend⟩ := h.split
  rw [hpend, htext, List.append_assoc]
  congr 1
  rcases List.eq_nil_or_concat' (Lines.ofInput s.input).typing with ht | ⟨body, x, ht⟩
  · -- with nothing typed the last pending character would be the newline of a line
    have hr : rest = [] := by
      by_contra hne
      rw [hpend, ht, List.append_nil] at hl
      exact hl (hend hne)
    rw [ht, hr]
    rfl
  · rw [ht, ← List.append_assoc, List.dropLast_concat, List.dropLast_concat]

theorem TtySys.Cooked.take (hn : newline ∈ s.pending) {queue : List UInt8}
    (hp : s.pending = c :: queue) : s.taken ++ [c] <+: s.text := by
  obtain ⟨rest, htext, hpend, _⟩ := h.split
  cases rest with
  | nil =>
    rw [hpend] at hn
    exact absurd hn (Lines.ofInput s.input).pending
  | cons x rest =>
    rw [hpend] at hp
    obtain rfl : x = c := (List.cons.inj hp).1
    rw [htext]
    exact ⟨rest, by simp⟩

/-- **A character typed keeps the lines.** -/
theorem TtySys.Cooked.input (hroom : TtyStep.Room s (.input c))
    (hin : TtyStep.InLine s (.input c)) :
    (TtyStep.run (.input c) s).Cooked := by
  have hi : (TtyStep.run (.input c) s).input = s.input ++ [c] := rfl
  cases hc : isErase c with
  | true =>
    obtain ⟨ht, hy⟩ := Lines.type_erase (l := Lines.ofInput s.input) hc
    refine ⟨?_, ?_, ?_⟩
    · simp only [TtyStep.run, ttyInput]
      split_ifs <;> exact h.icanon
    · rw [TtySys.text, hi, Lines.ofInput_concat, ht, hy]
      refine Eq.trans ?_ (h.erase (hin hc))
      simp only [TtySys.pending, TtyStep.run, ttyInput, h.icanon, hc, Bool.and_self, if_true]
      rw [(circularBuffDequeueLast_spec _).2]
    · rw [TtySys.text, hi, Lines.ofInput_concat, ht]
      exact h.taken
  | false =>
    obtain ⟨ht, hy⟩ := Lines.type_other (l := Lines.ofInput s.input) hc
    refine ⟨?_, ?_, ?_⟩
    · simp only [TtyStep.run, ttyInput]
      split_ifs <;> exact h.icanon
    · rw [TtySys.text, hi, Lines.ofInput_concat, hy, ← TtySys.text, ← h.queued]
      simp only [TtySys.pending, TtyStep.run, ttyInput, hc, Bool.and_false, Bool.false_eq_true,
        if_false]
      rw [toList_circularBuffEnqueue, if_neg (by rw [CircularBuff.length_toList]; exact hroom.ne),
        List.append_assoc]
    · rw [TtySys.text, hi, Lines.ofInput_concat]
      exact h.taken.trans ht

/-- **A character read keeps the lines.** -/
theorem TtySys.Cooked.readByte (hin : s.pending ≠ [] → newline ∈ s.pending) :
    (ttyReadByte s t r).Cooked := by
  rcases circularBuffDequeue_spec s.tty.queue with ⟨hq, _⟩ | ⟨c, queue, hq, hp⟩
  · rw [ttyReadByte, hq]
    exact h
  · rw [ttyReadByte, hq]
    have hne : s.pending ≠ [] := by rw [TtySys.pending, hp]; exact List.cons_ne_nil _ _
    refine ⟨h.icanon, ?_, h.take (hin hne) hp⟩
    have hqueued := h.queued
    rw [TtySys.pending, hp] at hqueued
    rw [← List.append_cons]
    exact hqueued

theorem TtySys.Cooked.step {m : TtyStep} (hroom : m.Room s) (hin : m.InLine s) :
    (m.run s).Cooked := by
  cases m with
  | input c => exact h.input hroom hin
  | read t size =>
    rw [TtyStep.run]
    split
    · exact ⟨h.icanon, h.queued, h.taken⟩
    · exact h
  | go t =>
    cases hr : s.reading t with
    | none =>
      simp only [TtyStep.run, hr]
      exact h
    | some r =>
      simp only [TtyStep.run, hr]
      split_ifs with hw
      · exact h.readByte (hin r hr hw)
      · exact ⟨h.icanon, h.queued, h.taken⟩

end

theorem TtySys.OneReader.update (h : s.OneReader) (hr : s.reading t = some r) {s' : TtySys}
    {r' : TtyRead} (hs : s'.reading = Function.update s.reading t (some r'))
    (ht : s'.returned.flatten ++ r'.out = s'.taken) : s'.OneReader := by
  have hself : s'.reading t = some r' := by rw [hs, Function.update_self]
  have hothers : ∀ t' ≠ t, s'.reading t' = none := by
    intro t' ht'
    rw [hs, Function.update_of_ne ht']
    exact (h.busy t r hr).1 t' ht'
  refine ⟨fun hnone => ?_, fun t' q hq => ?_⟩
  · rw [hnone t] at hself
    cases hself
  · by_cases htt : t' = t
    · subst htt
      rw [hself] at hq
      cases hq
      exact ⟨hothers, ht⟩
    · rw [hothers t' htt] at hq
      cases hq

theorem TtySys.OneReader.step (h : s.OneReader) {m : TtyStep} (ha : m.Alone s) :
    (m.run s).OneReader := by
  cases m with
  | input c => exact ⟨h.idle, h.busy⟩
  | read t size =>
    have hnone : ∀ t, s.reading t = none := ha
    simp only [TtyStep.run, hnone t]
    refine ⟨fun hn => ?_, fun t' r hr => ?_⟩
    · have := hn t
      simp only [Function.update_self] at this
      cases this
    · by_cases ht : t' = t
      · subst ht
        simp only [Function.update_self] at hr
        cases hr
        refine ⟨fun k hk => ?_, ?_⟩
        · simp only [Function.update_of_ne hk]
          exact hnone k
        · rw [List.append_nil]
          exact h.idle hnone
      · simp only [Function.update_of_ne ht, hnone t'] at hr
        cases hr
  | go t =>
    cases hr : s.reading t with
    | none =>
      simp only [TtyStep.run, hr]
      exact h
    | some r =>
      obtain ⟨hothers, htaken⟩ := h.busy t r hr
      simp only [TtyStep.run, hr]
      split_ifs with hw
      · rcases circularBuffDequeue_spec s.tty.queue with ⟨hq, _⟩ | ⟨c, queue, hq, _⟩
        · rw [ttyReadByte, hq]
          exact h
        · rw [ttyReadByte, hq]
          refine h.update hr rfl ?_
          show s.returned.flatten ++ (r.out ++ [c]) = s.taken ++ [c]
          rw [← htaken, List.append_assoc]
      · -- the call returns, and nothing is being read
        refine ⟨fun _ => ?_, fun t' q hq => ?_⟩
        · simpa using htaken
        · by_cases ht : t' = t
          · subst ht
            simp only [Function.update_self] at hq
            cases hq
          · simp only [Function.update_of_ne ht, hothers t' ht] at hq
            cases hq

theorem TtySys.OneReader.returned_of_taken (h : s.OneReader) : s.returned.flatten <+: s.taken := by
  by_cases hb : ∃ t r, s.reading t = some r
  · obtain ⟨t, r, hr⟩ := hb
    exact ⟨r.out, (h.busy t r hr).2⟩
  · rw [h.idle fun t => Option.eq_none_iff_forall_ne_some.2 fun r hr => hb ⟨t, r, hr⟩]

theorem cooked_init (data : ℕ → UInt8) : (TtySys.init data).Cooked :=
  ⟨rfl, rfl, List.prefix_rfl⟩

theorem oneReader_init (data : ℕ → UInt8) : (TtySys.init data).OneReader :=
  ⟨fun _ => rfl, fun _ _ h => nomatch h⟩

/-- **Canonical input**: the characters that `tty_read` takes are, in order, the beginning of
    the text of the completed lines, and so is what it returns if its calls do not overlap, in
    every run in which a backspace never finds a newline last in the queue and a character is
    taken only when a newline is pending. -/
theorem canonical_input_by_lines {alone : Prop} {data : ℕ → UInt8} {s : TtySys}
    (hr : Runs TtyStep.run (fun s m => m.Room s ∧ m.InLine s ∧ (alone → m.Alone s))
      (TtySys.init data) s) :
    s.taken <+: s.text ∧ (alone → s.returned.flatten <+: s.text) := by
  have hc : s.Cooked := hr.invariant (fun _ _ h hm => h.step hm.1 hm.2.1) (cooked_init data)
  refine ⟨hc.taken, fun ha => ?_⟩
  have ho : s.OneReader := hr.invariant (fun _ _ h hm => h.step (hm.2.2 ha)) (oneReader_init data)
  exact ho.returned_of_taken.trans hc.taken

/-- The line `ab`, corrected while it is typed, and a call that reads it. -/
def readLine : List TtyStep :=
  [.input 97, .input 99, .input 8, .input 98, .input 10, .read 0 4, .go 0, .go 0, .go 0, .go 0]

/-- A line is read after it was completed. -/
theorem canonical_input_line :
    (readLine.foldl (fun s m => m.run s) (TtySys.init fun _ => 0)).returned = [[97, 98, 10]] ∧
    (readLine.foldl (fun s m => m.run s) (TtySys.init fun _ => 0)).returned.flatten <+:
      (readLine.foldl (fun s m => m.run s) (TtySys.init fun _ => 0)).text := by
  have hroom : Allowed TtyStep.run (fun s m => m.Room s) (TtySys.init fun _ => 0) readLine := by
    decide +kernel
  have hin : Allowed TtyStep.run (fun s m => m.InLine s) (TtySys.init fun _ => 0) readLine := by
    decide +kernel
  have hal : Allowed TtyStep.run (fun s m => True → m.Alone s) (TtySys.init fun _ => 0) readLine :=
    ⟨fun _ => trivial, fun _ => trivial, fun _ => trivial, fun _ => trivial, fun _ => trivial,
      fun _ _ => rfl, fun _ => trivial, fun _ => trivial, fun _ => trivial, fun _ => trivial,
      trivial⟩
  exact ⟨by decide +kernel, (canonical_input_by_lines (hroom.and (hin.and hal)).runs).2 trivial⟩

/-- The character `a`, read before its line is completed. -/
def readEarly : List TtyStep := [.input 97, .read 0 1, .go 0, .go 0]

/-- The line `a`, a backspace, the line `b`, and a call that reads. -/
def eraseLate : List TtyStep :=
  [.input 97, .input 10, .input 8, .input 98, .input 10, .read 0 8, .go 0, .go 0, .go 0, .go 0]

/-- `tty_read` hands out a character of a line that is not complete, and a backspace deletes
    the newline of a line that is. -/
theorem tty_read_ignores_lines :
    (∃ s, Runs TtyStep.run (fun s m => m.Room s ∧ m.Alone s) (TtySys.init fun _ => 0) s ∧
      s.returned = [[97]] ∧ s.text = []) ∧
    ∃ s, Runs TtyStep.run (fun s m => m.Room s ∧ m.Alone s) (TtySys.init fun _ => 0) s ∧
      s.returned = [[97, 98, 10]] ∧ s.text = [97, 10, 98, 10] := by
  have hroom : Allowed TtyStep.run (fun s m => m.Room s) (TtySys.init fun _ => 0) readEarly := by
    decide +kernel
  have hal : Allowed TtyStep.run (fun s m => m.Alone s) (TtySys.init fun _ => 0) readEarly :=
    ⟨trivial, fun _ => rfl, trivial, trivial, trivial⟩
  have hroom' : Allowed TtyStep.run (fun s m => m.Room s) (TtySys.init fun _ => 0) eraseLate := by
    decide +kernel
  have hal' : Allowed TtyStep.run (fun s m => m.Alone s) (TtySys.init fun _ => 0) eraseLate :=
    ⟨trivial, trivial, trivial, trivial, trivial, fun _ => rfl, trivial, trivial, trivial,
      trivial, trivial⟩
  exact ⟨⟨_, (hroom.and hal).runs, by decide +kernel, by decide +kernel⟩,
    _, (hroom'.and hal').runs, by decide +kernel, by decide +kernel⟩

end

end Kabanos
