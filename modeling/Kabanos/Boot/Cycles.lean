/-
  Module loading on an arbitrary registry.

  `module_load` marks a module with `MODULE_LOADING` before it turns to the modules that it
  requires, but it only tests for `MODULE_LOADED`.  So it follows a cycle of required modules
  forever, and on a registry without one it ends as the dependencies do.
-/
import Kabanos.Boot.Modules

namespace Kabanos

open Relation

variable {K : Type}

section
variable (reg : List (Module K))

/-- Only loaded modules have had their `init` called, and each once. -/
def InitOnce (s : Loader K reg.length) : Prop :=
  ∀ i, s.log.count (.called i) ≤ if s.state i = .loaded then 1 else 0

/-- No module on a cycle is loaded. -/
def CyclesOpen (s : Loader K reg.length) : Prop :=
  ∀ c, TransGen (CallsFor reg) c c → s.state c ≠ .loaded

variable {reg} {s : Loader K reg.length} {i : Fin reg.length}

/-! ## Without a cycle -/

theorem InitOnce.finishLoad (h : InitOnce reg s) (hi : s.state i ≠ .loaded) :
    InitOnce reg (finishLoad reg i s) := by
  intro a
  have ha := h a
  rw [finishLoad_log, finishLoad_state, List.count_append, Function.update_apply]
  by_cases hai : a = i
  · subst hai
    rw [if_neg hi] at ha
    rcases hin : (reg.get a).init with _ | f <;> simp [Nat.le_zero.1 ha]
  · rcases hin : (reg.get i).init with _ | f <;> simpa [hai, Ne.symm hai] using ha

/-! ## On a cycle -/

theorem cycle_next (h : TransGen (CallsFor reg) i i) :
    ∃ j, CallsFor reg i j ∧ TransGen (CallsFor reg) j j := by
  obtain ⟨j, hij, hji⟩ := TransGen.head'_iff.1 h
  exact ⟨j, hij, TransGen.tail'_iff.2 ⟨i, hji, hij⟩⟩

/-- **`module_load`** does not return for a module on a cycle, and marks none. -/
theorem moduleLoad_cycle (fuel : ℕ) : ∀ (i : Fin reg.length) (s : Loader K reg.length),
    CyclesOpen reg s → (TransGen (CallsFor reg) i i → moduleLoad reg fuel i s = none) ∧
      ∀ s', moduleLoad reg fuel i s = some s' → CyclesOpen reg s' := by
  induction fuel with
  | zero => exact fun i s _ => ⟨fun _ => rfl, fun s' e => nomatch e⟩
  | succ fuel ih =>
    intro i s h
    by_cases hi : s.state i = .loaded
    · simp only [moduleLoad, if_pos hi]
      refine ⟨fun hc => absurd hi (h i hc), fun s' e => ?_⟩
      cases e
      exact h
    have h1 : CyclesOpen reg { s with state := Function.update s.state i .loading } := by
      intro c hc
      show Function.update s.state i .loading c ≠ .loaded
      rw [Function.update_apply]
      split_ifs
      · exact ModuleState.noConfusion
      · exact h c hc
    have hnone : TransGen (CallsFor reg) i i → moduleLoad reg (fuel + 1) i s = none := by
      intro hc
      obtain ⟨j, ⟨name, hname, hf⟩, hj⟩ := cycle_next hc
      simp only [moduleLoad, if_neg hi]
      refine Option.map_eq_none_iff.2
        (foldlM_eq_none (I := CyclesOpen reg) (fun t ht name _ t' e => ?_) hname ?_ h1)
      · -- a round for another module keeps the cycles open
        split at e
        · exact (ih _ t ht).2 t' e
        · cases e
          exact ht
      · intro t ht
        simp only [hf]
        exact (ih j t ht).1 hj
    refine ⟨hnone, fun s' e => ?_⟩
    by_cases hc : TransGen (CallsFor reg) i i
    · rw [hnone hc] at e
      cases e
    simp only [moduleLoad, if_neg hi] at e
    obtain ⟨t, et, rfl⟩ := Option.map_eq_some_iff.1 e
    have ht : CyclesOpen reg t := by
      refine foldlM_invariant (fun t ht name _ t' e => ?_) h1 et
      split at e
      · exact (ih _ t ht).2 t' e
      · cases e
        exact ht
    intro c hcc
    rw [finishLoad_state, Function.update_apply, if_neg (by rintro rfl; exact hc hcc)]
    exact ht c hcc

/-- **`modules_load`** never returns on a registry with a cycle. -/
theorem modulesLoad_cycle (hc : TransGen (CallsFor reg) i i) (k : K) (fuel : ℕ) :
    modulesLoad reg fuel (Loader.start reg k) = none :=
  foldlM_eq_none (I := CyclesOpen reg) (fun t ht a _ t' e => (moduleLoad_cycle fuel a t ht).2 t' e)
    (List.mem_finRange i) (fun t ht => (moduleLoad_cycle fuel i t ht).1 hc)
    fun _ _ => ModuleState.noConfusion

end

/-- **Module loading terminates, with each `init` called at most once, just when no module
    requires itself**, directly or through others. -/
theorem modules_load_returns_iff (reg : List (Module K)) (k : K) :
    (∃ s, Yields (fun fuel => modulesLoad reg fuel (Loader.start reg k)) s ∧
      ∀ i, s.log.count (.called i) ≤ 1) ↔ ∀ i, ¬ TransGen (CallsFor reg) i i := by
  constructor
  · rintro ⟨s, ⟨n, hn⟩, -⟩ i hc
    have e : modulesLoad reg n (Loader.start reg k) = some s := hn n le_rfl
    rw [modulesLoad_cycle hc k n] at e
    cases e
  · intro hac
    obtain ⟨s, hy, hs, -⟩ := yields_foldlM (I := InitOnce reg) (D := fun _ _ => True)
      (L := List.finRange reg.length) (f := fun fuel s i => moduleLoad reg fuel i s)
      (fun s hs i _ => by
        obtain ⟨s', hy, hl, -⟩ := moduleLoad_rule hac (fun _ _ hs hi _ => hs.finishLoad hi) i hs
        exact ⟨s', hy, hl.inv, trivial, fun _ hb => hb⟩)
      (s := Loader.start reg k) fun i => by simp [Loader.start]
    refine ⟨s, hy, fun i => (hs i).trans ?_⟩
    split_ifs <;> decide

/-- Two modules that require each other. -/
def demoCycle : List (Module Unit) := [⟨"vfs", ["myfs"], some id⟩, ⟨"myfs", ["vfs"], some id⟩]

theorem modules_load_hangs : CallsFor demoCycle ⟨0, by decide⟩ ⟨1, by decide⟩ ∧
    CallsFor demoCycle ⟨1, by decide⟩ ⟨0, by decide⟩ ∧
    ∀ fuel, modulesLoad demoCycle fuel (Loader.start demoCycle ()) = none := by
  have h1 : CallsFor demoCycle ⟨0, by decide⟩ ⟨1, by decide⟩ := by decide +kernel
  have h2 : CallsFor demoCycle ⟨1, by decide⟩ ⟨0, by decide⟩ := by decide +kernel
  exact ⟨h1, h2, modulesLoad_cycle (.tail (.single h1) h2) ()⟩

end Kabanos
