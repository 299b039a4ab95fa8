/-
  Undo as a stack.

  The history is a ring of `UNDO_DEPTH` buffers that is indexed by a counter of the pushes that
  are not undone.  A push at a height of `UNDO_DEPTH` or more overwrites the buffer of an earlier
  one, and the counter does not tell.
-/
import Kabanos.Vi.Editor

namespace Kabanos.Vi

/-- An edit of the buffer, or a call of `undo_push` or `undo_pop`. -/
inductive UndoOp where
  | edit (buf : List CStr)
  | push
  | pop

/-- The editor, and the buffers that were pushed and not popped, the last one first. -/
structure History where
  editor : Editor
  stack : List (List CStr)

def UndoOp.exec (h : History) : UndoOp → Option History
  | .edit buf => some { h with editor := { h.editor with buf := buf } }
  | .push => (undoPush h.editor).map fun e => ⟨e, h.editor.buf :: h.stack⟩
  | .pop => some ⟨undoPop h.editor, h.stack.tail⟩

def execOps (h : History) (ops : List UndoOp) : Option History := ops.foldlM UndoOp.exec h

/-- **Pops in a row** give back the buffers of the stack: each one the next buffer, or it leaves
    the buffer as it is and reports that this is the oldest change. -/
def History.UndoesRight (h : History) : Prop :=
  ∀ k, h.stack[k]? = some (undoPop (undoPop^[k] h.editor)).buf ∨
    (undoPop (undoPop^[k] h.editor)).buf = (undoPop^[k] h.editor).buf ∧
      (undoPop (undoPop^[k] h.editor)).status = .oldest

/-- The pushed buffer does not take the place of another one that is still on the stack. -/
def History.PushFits (h : History) : Prop :=
  h.editor.undoTop + 1 < 2 ^ 31 ∧
    (h.editor.undoTop < undoDepth ∨ h.stack[undoDepth - 1]? = some h.editor.buf)

/-- The ring holds the stack; the buffer pushed at height `p` is in slot `p % UNDO_DEPTH`. -/
structure History.Holds (h : History) : Prop where
  top : h.editor.undoTop = h.stack.length
  slot : ∀ k p, k + p + 1 = h.stack.length →
    h.stack[k]? = some (h.editor.undoStack (p % undoDepth))

section
variable {h h' : History} {ops : List UndoOp}

theorem undoPop_zero {e : Editor} (he : e.undoTop = 0) : undoPop e = { e with status := .oldest } :=
  if_pos he

theorem undoPop_succ {e : Editor} (he : e.undoTop ≠ 0) :
    (undoPop e).undoTop = e.undoTop - 1 ∧ (undoPop e).undoStack = e.undoStack ∧
      (undoPop e).buf = e.undoStack ((e.undoTop - 1) % undoDepth) ∧ (undoPop e).status = .undo := by
  rw [undoPop, if_neg he]
  exact ⟨rfl, rfl, rfl, rfl⟩

theorem undoPop_iterate (e : Editor) (k : ℕ) :
    (undoPop^[k] e).undoTop = e.undoTop - k ∧ (undoPop^[k] e).undoStack = e.undoStack := by
  induction k with
  | zero => exact ⟨rfl, rfl⟩
  | succ k ih =>
    rw [Function.iterate_succ_apply']
    by_cases hk : (undoPop^[k] e).undoTop = 0
    · rw [undoPop_zero hk]
      exact ⟨by show (undoPop^[k] e).undoTop = _; omega, ih.2⟩
    · obtain ⟨ht, hs, -⟩ := undoPop_succ hk
      rw [ht, hs]
      exact ⟨by omega, ih.2⟩

/-- **Pops are right just if the ring holds the stack.** -/
theorem History.undoesRight_iff (ht : h.editor.undoTop = h.stack.length) :
    h.UndoesRight ↔ h.Holds := by
  have hpop : ∀ k < h.stack.length, (undoPop (undoPop^[k] h.editor)).buf =
      h.editor.undoStack ((h.stack.length - k - 1) % undoDepth) ∧
      (undoPop (undoPop^[k] h.editor)).status = .undo := by
    intro k hk
    obtain ⟨htop, hstack⟩ := undoPop_iterate h.editor k
    obtain ⟨-, -, hb, hs⟩ := undoPop_succ (e := undoPop^[k] h.editor) (by omega)
    rw [hb, hs, hstack, htop, ht]
    exact ⟨rfl, rfl⟩
  constructor
  · intro hr
    refine ⟨ht, fun k p hkp => ?_⟩
    obtain ⟨hb, hs⟩ := hpop k (by omega)
    rcases hr k with h' | ⟨-, h'⟩
    · rw [h', hb, show h.stack.length - k - 1 = p by omega]
    · rw [hs] at h'
      cases h'
  · intro hh k
    by_cases hk : k < h.stack.length
    · left
      rw [(hpop k hk).1]
      exact hh.slot k _ (by omega)
    · right
      rw [undoPop_zero (by rw [(undoPop_iterate h.editor k).1]; omega)]
      exact ⟨rfl, rfl⟩

theorem History.holds_nil {e : Editor} (he : e.undoTop = 0) : History.Holds ⟨e, []⟩ :=
  ⟨he, fun k p hkp => absurd hkp (by simp)⟩

theorem History.Holds.pop (hh : h.Holds) : History.Holds ⟨undoPop h.editor, h.stack.tail⟩ := by
  cases hs : h.stack with
  | nil =>
    have ht : h.editor.undoTop = 0 := by rw [hh.top, hs]; rfl
    rw [undoPop_zero ht]
    exact holds_nil ht
  | cons b stack =>
    have ht : h.editor.undoTop = stack.length + 1 := by rw [hh.top, hs]; rfl
    obtain ⟨htop, hstack, -⟩ := undoPop_succ (e := h.editor) (by omega)
    refine ⟨by rw [htop, ht]; rfl, fun k p hkp => ?_⟩
    have hslot := hh.slot (k + 1) p (by
      have hkp' : k + p + 1 = stack.length := hkp
      rw [hs, List.length_cons]
      omega)
    rw [hs, List.getElem?_cons_succ] at hslot
    rw [List.tail_cons, hstack]
    exact hslot

/-- The editor after a push. -/
def Editor.pushed (e : Editor) : Editor :=
  { e with
    undoStack := Function.update e.undoStack (e.undoTop % undoDepth) e.buf
    undoTop := e.undoTop + 1 }

theorem exec_push (ht : h.editor.undoTop + 1 < 2 ^ 31) :
    UndoOp.exec h .push = some ⟨h.editor.pushed, h.editor.buf :: h.stack⟩ := by
  rw [UndoOp.exec, undoPush, if_neg (by omega)]
  rfl

theorem History.Holds.push_iff (hh : h.Holds) (ht : h.editor.undoTop + 1 < 2 ^ 31) :
    History.Holds ⟨h.editor.pushed, h.editor.buf :: h.stack⟩ ↔ h.PushFits := by
  have htop := hh.top
  constructor
  · intro hh'
    refine ⟨ht, or_iff_not_imp_left.2 fun hd => ?_⟩
    -- the buffer at the height `UNDO_DEPTH` below is in the same slot
    have hslot := hh'.slot undoDepth (h.stack.length - undoDepth)
      (by rw [List.length_cons]; simp only [undoDepth] at *; omega)
    have hmod : (h.stack.length - undoDepth) % undoDepth = h.editor.undoTop % undoDepth := by
      simp only [undoDepth] at *
      omega
    rw [hmod] at hslot
    exact hslot.trans (congrArg some (Function.update_self _ _ _))
  · rintro ⟨-, hfit⟩
    refine ⟨congrArg (· + 1) htop, fun k p hkp => ?_⟩
    show (h.editor.buf :: h.stack)[k]? = some (Function.update h.editor.undoStack
      (h.editor.undoTop % undoDepth) h.editor.buf (p % undoDepth))
    rw [List.length_cons] at hkp
    cases k with
    | zero =>
      rw [show p = h.editor.undoTop by omega, Function.update_self, List.getElem?_cons_zero]
    | succ k =>
      have hslot := hh.slot k p (by omega)
      rw [List.getElem?_cons_succ, Function.update_apply]
      split_ifs with hp
      · rcases hfit with hlt | hsame
        · simp only [undoDepth] at hp hlt
          omega
        · have hold := hh.slot (undoDepth - 1) (h.stack.length - undoDepth)
            (by simp only [undoDepth] at hp ⊢; omega)
          rw [hslot, hp, ← hsame, hold]
          simp only [undoDepth] at hp ⊢
          congr 2
          omega
      · exact hslot

theorem UndoOp.exec_cases (hh : h.Holds) (op : UndoOp) :
    (∃ h', op.exec h = some h' ∧ h'.editor.undoTop = h'.stack.length ∧
      (h'.Holds ↔ (op = .push → h.PushFits))) ∨
    op.exec h = none ∧ op = .push ∧ ¬ h.PushFits := by
  cases op with
  | edit buf => exact .inl ⟨_, rfl, hh.top, iff_of_true ⟨hh.top, hh.slot⟩ nofun⟩
  | pop => exact .inl ⟨_, rfl, hh.pop.top, iff_of_true hh.pop nofun⟩
  | push =>
    by_cases ht : h.editor.undoTop + 1 < 2 ^ 31
    · refine .inl ⟨_, exec_push ht, congrArg (· + 1) hh.top, ?_⟩
      rw [hh.push_iff ht]
      exact ⟨fun hf _ => hf, fun hf => hf rfl⟩
    · refine .inr ⟨?_, rfl, fun hf => ht hf.1⟩
      rw [UndoOp.exec, undoPush, if_pos (by omega)]
      rfl

theorem History.Holds.run_iff (hh : h.Holds) (ops : List UndoOp) :
    (∀ pre, pre <+: ops → ∃ h', execOps h pre = some h' ∧ h'.UndoesRight) ↔
      ∀ pre, pre ++ [.push] <+: ops → ∀ h', execOps h pre = some h' → h'.PushFits := by
  induction ops generalizing h with
  | nil =>
    constructor
    · intro _ pre hp
      simp at hp
    · intro _ pre hp
      rw [List.prefix_nil.1 hp]
      exact ⟨h, rfl, (undoesRight_iff hh.top).2 hh⟩
  | cons op ops ih =>
    rcases op.exec_cases hh with ⟨h1, he, ht, hiff⟩ | ⟨he, rfl, hn⟩
    · have hcons : ∀ pre, execOps h (op :: pre) = execOps h1 pre := fun pre => by
        rw [execOps, List.foldlM_cons, he]
        rfl
      constructor
      · intro hall
        have h₁h : h1.Holds := by
          obtain ⟨h', he', hr⟩ := hall [op] (by simp)
          rw [hcons] at he'
          cases he'
          exact (undoesRight_iff ht).1 hr
        have hrest := (ih h₁h).1 fun pre hp => hcons pre ▸ hall (op :: pre) (by simpa using hp)
        intro pre hp h' hx
        cases pre with
        | nil =>
          cases hx
          exact hiff.1 h₁h (List.cons_prefix_cons.1 hp).1.symm
        | cons op' pre =>
          obtain ⟨rfl, hp'⟩ := List.cons_prefix_cons.1 hp
          rw [hcons] at hx
          exact hrest pre hp' h' hx
      · intro hall
        have h₁h : h1.Holds := hiff.2 fun e => hall [] (by simp [e]) h rfl
        have hrest := (ih h₁h).2 fun pre hp h' hx =>
          hall (op :: pre) (by simpa using hp) h' (hcons pre ▸ hx)
        intro pre hp
        cases pre with
        | nil => exact ⟨h, rfl, (undoesRight_iff hh.top).2 hh⟩
        | cons op' pre =>
          obtain ⟨rfl, hp'⟩ := List.cons_prefix_cons.1 hp
          rw [hcons]
          exact hrest pre hp'
    · constructor
      · intro hall
        obtain ⟨h', he', -⟩ := hall [.push] (by simp)
        rw [execOps, List.foldlM_cons, he] at he'
        cases he'
      · intro hall
        exact absurd (hall [] (by simp) h rfl) hn

end

/-- **Undo gives back the pushed buffers in reverse**, in every state of a run of edits, pushes
    and pops, just if every push of the run fits. -/
theorem undo_restores_iff {e : Editor} (he : e.undoTop = 0) (ops : List UndoOp) :
    (∀ pre, pre <+: ops → ∃ h, execOps ⟨e, []⟩ pre = some h ∧ h.UndoesRight) ↔
      ∀ pre, pre ++ [.push] <+: ops → ∀ h, execOps ⟨e, []⟩ pre = some h → h.PushFits :=
  (History.holds_nil he).run_iff ops

/-- An editor with an empty line. -/
def demoEditor : Editor where
  buf := [ofBytes []]
  cx := 0
  cy := 0
  mode := .normal
  filename := ofBytes []
  dirty := false
  status := .ready
  cmdbuf := []
  undoStack _ := []
  undoTop := 0
  search := ofBytes []
  searchDir := 1
  yankLine := none
  gPending := false
  dPending := false
  yPending := false
  countBuf := 0

/-- Two changes, of which the second is undone, and a third one. -/
def demoChanges : List UndoOp :=
  [.push, .edit [ofBytes [97]], .push, .edit [], .pop, .push, .edit [ofBytes [98]]]

theorem undo_restores_changes :
    ∃ h, execOps ⟨demoEditor, []⟩ demoChanges = some h ∧ h.UndoesRight := by
  refine (undo_restores_iff (show demoEditor.undoTop = 0 from rfl) demoChanges).2
    (fun pre hp h hx => ?_) _ (List.prefix_refl _)
  have hlen : pre.length < 7 := by simpa [demoChanges] using hp.length_le
  have hpre : pre = demoChanges.take pre.length :=
    List.prefix_iff_eq_take.1 ((List.prefix_append pre [.push]).trans hp)
  generalize pre.length = k at hlen hpre
  subst hpre
  interval_cases k <;> cases hx <;> exact ⟨by decide, .inl (by decide)⟩

/-- Pushes of buffers of one line, two lines, and so on. -/
def demoPushes (n : ℕ) : List UndoOp :=
  (List.range n).flatMap fun i => [.edit (List.replicate (i + 1) (ofBytes [])), .push]

theorem demoPushes_lines : (execOps ⟨demoEditor, []⟩ (demoPushes 101)).map (fun h =>
    (h.stack[100]?.map List.length, (undoPop^[100] h.editor).buf.length,
      (undoPop^[101] h.editor).buf.length)) = some (some 1, 2, 101) := by
  decide +kernel

theorem undo_wraps_around : ∃ h, execOps ⟨demoEditor, []⟩ (demoPushes 101) = some h ∧
    h.stack[100]?.map List.length = some 1 ∧ (undoPop^[100] h.editor).buf.length = 2 ∧
    (undoPop^[101] h.editor).buf.length = 101 ∧ ¬ h.UndoesRight := by
  obtain ⟨h, he, hl⟩ := Option.map_eq_some_iff.1 demoPushes_lines
  obtain ⟨h1, h23⟩ := Prod.mk.inj hl
  obtain ⟨h2, h3⟩ := Prod.mk.inj h23
  refine ⟨h, he, h1, h2, h3, fun hr => ?_⟩
  rw [Function.iterate_succ_apply'] at h3
  rcases hr 100 with e | ⟨e, -⟩
  · rw [e, Option.map_some, h3] at h1
    exact absurd h1 (by decide)
  · rw [e, h2] at h3
    exact absurd h3 (by decide)

end Kabanos.Vi
