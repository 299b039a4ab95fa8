/-
  Runs of a system that is driven by calls.

  `run c s` is the state after call `c` in state `s`, and `ok s c` says that the
  call may be made there.
-/
import Mathlib

namespace Kabanos

universe u

variable {S C : Type*} {run : C → S → S} {ok ok' : S → C → Prop}

def Call (run : C → S → S) (ok : S → C → Prop) (s s' : S) : Prop := ∃ c, ok s c ∧ run c s = s'

/-- Any number of calls. -/
abbrev Runs (run : C → S → S) (ok : S → C → Prop) : S → S → Prop :=
  Relation.ReflTransGen (Call run ok)

/-- **What every call keeps holds after every run.** -/
theorem Runs.invariant {I : S → Prop} (step : ∀ s c, I s → ok s c → I (run c s)) {s s' : S}
    (h : Runs run ok s s') (h0 : I s) : I s' := by
  induction h with
  | refl => exact h0
  | tail _ hc ih =>
    obtain ⟨c, hok, rfl⟩ := hc
    exact step _ c ih hok

/-- The calls of the list may be made, one after the other. -/
def Allowed (run : C → S → S) (ok : S → C → Prop) : S → List C → Prop
  | _, [] => True
  | s, c :: cs => ok s c ∧ Allowed run ok (run c s) cs

instance [∀ s c, Decidable (ok s c)] : ∀ (s : S) (cs : List C), Decidable (Allowed run ok s cs)
  | _, [] => isTrue trivial
  | s, c :: cs =>
    have : Decidable (Allowed run ok (run c s) cs) := instDecidableAllowed (run c s) cs
    inferInstanceAs (Decidable (ok s c ∧ Allowed run ok (run c s) cs))

theorem Allowed.and {s : S} {cs : List C} (h : Allowed run ok s cs) (h' : Allowed run ok' s cs) :
    Allowed run (fun s c => ok s c ∧ ok' s c) s cs := by
  induction cs generalizing s with
  | nil => trivial
  | cons c cs ih => exact ⟨⟨h.1, h'.1⟩, ih h.2 h'.2⟩

theorem Allowed.runs {s : S} {cs : List C} (h : Allowed run ok s cs) :
    Runs run ok s (cs.foldl (fun s c => run c s) s) := by
  induction cs generalizing s with
  | nil => exact .refl
  | cons c cs ih => exact .head ⟨c, h.1, rfl⟩ (ih h.2)

/-- **A simulation of single calls is one of a whole sequence of them**, with the same results. -/
theorem mapM_simulates {S T R : Type u} {C : Type*} {step : C → StateM S R} {step' : C → StateM T R}
    {abs : S → T} {cs : List C}
    (h : ∀ c ∈ cs, ∀ s, (step' c).run (abs s) = ((step c).run s).map id abs) (s : S) :
    (cs.mapM step').run (abs s) = ((cs.mapM step).run s).map id abs := by
  induction cs generalizing s with
  | nil => rfl
  | cons c cs ih =>
    have ih := ih (fun c hc => h c (List.mem_cons_of_mem _ hc)) ((step c).run s).2
    simp only [List.mapM_cons, StateT.run_bind, h c List.mem_cons_self]
    exact congrArg (fun r : List R × T => (((step c).run s).1 :: r.1, r.2)) ih

end Kabanos
