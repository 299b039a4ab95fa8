/-
  Loops that need not end.

  A computation whose loops have a bound on their rounds is a function of that bound, and
  `Yields f a` says that it returns `a` whenever the bound is large enough.
-/
import Mathlib

namespace Kabanos

variable {σ α β : Type*} {f : ℕ → Option α} {g : α → ℕ → Option β} {a a' : α} {b : β}

/-- A loop of less than `n` rounds; it ends where `body` is `none`. -/
def loop (body : σ → Option σ) : ℕ → σ → Option σ
  | 0, _ => none
  | n + 1, s =>
    match body s with
    | none => some s
    | some s' => loop body n s'

def Yields (f : ℕ → Option α) (a : α) : Prop := ∃ n, ∀ m, n ≤ m → f m = some a

theorem Yields.pure (a : α) : Yields (fun _ => some a) a := ⟨0, fun _ _ => rfl⟩

theorem Yields.bind (h : Yields f a) (h' : Yields (g a) b) :
    Yields (fun n => (f n).bind fun a => g a n) b := by
  obtain ⟨n, hn⟩ := h
  obtain ⟨n', hn'⟩ := h'
  refine ⟨max n n', fun m hm => ?_⟩
  show (f m).bind (fun a => g a m) = some b
  rw [hn m (le_of_max_le_left hm)]
  exact hn' m (le_of_max_le_right hm)

theorem Yields.map (h : Yields f a) (φ : α → β) : Yields (fun n => (f n).map φ) (φ a) := by
  obtain ⟨n, hn⟩ := h
  exact ⟨n, fun m hm => congrArg (Option.map φ) (hn m hm)⟩

theorem Yields.succ (h : Yields (fun n => f (n + 1)) a) : Yields f a := by
  obtain ⟨n, hn⟩ := h
  refine ⟨n + 1, fun m hm => ?_⟩
  obtain ⟨k, rfl⟩ := Nat.exists_eq_add_of_le' (Nat.one_le_of_lt hm)
  exact hn k (Nat.le_of_succ_le_succ hm)

/-- **A pass over a list returns** if each round does; `D s a` is what the round for `a` has
    achieved, and what no later round undoes. -/
theorem yields_foldlM {f : ℕ → σ → α → Option σ} {I : σ → Prop} {D : σ → α → Prop} {L : List α}
    (step : ∀ s, I s → ∀ a ∈ L, ∃ s', Yields (fun n => f n s a) s' ∧ I s' ∧ D s' a ∧
      ∀ b, D s b → D s' b) {s : σ} (h : I s) :
    ∃ s', Yields (fun n => L.foldlM (f n) s) s' ∧ I s' ∧ (∀ a ∈ L, D s' a) ∧
      ∀ b, D s b → D s' b := by
  induction L generalizing s with
  | nil => exact ⟨s, .pure s, h, fun _ ha => absurd ha List.not_mem_nil, fun _ hb => hb⟩
  | cons a L ih =>
    obtain ⟨s1, y1, i1, d1, m1⟩ := step s h a List.mem_cons_self
    obtain ⟨s2, y2, i2, d2, m2⟩ :=
      ih (fun s hs b hb => step s hs b (List.mem_cons_of_mem a hb)) i1
    refine ⟨s2, ?_, i2, fun b hb => ?_, fun b hb => m2 b (m1 b hb)⟩
    · simp only [List.foldlM_cons]
      exact y1.bind y2
    · rcases List.mem_cons.1 hb with rfl | hb
      · exact m2 _ d1
      · exact d2 b hb

theorem foldlM_invariant {f : σ → α → Option σ} {I : σ → Prop} {L : List α}
    (step : ∀ s, I s → ∀ a ∈ L, ∀ s', f s a = some s' → I s') {s s' : σ} (h : I s)
    (e : L.foldlM f s = some s') : I s' := by
  induction L generalizing s with
  | nil =>
    cases e
    exact h
  | cons a L ih =>
    rw [List.foldlM_cons] at e
    obtain ⟨s1, e1, e2⟩ := Option.bind_eq_some_iff.1 e
    exact ih (fun s hs b hb => step s hs b (List.mem_cons_of_mem a hb))
      (step s h a List.mem_cons_self s1 e1) e2

theorem foldlM_eq_none {f : σ → α → Option σ} {I : σ → Prop} {L : List α} {a : α}
    (step : ∀ s, I s → ∀ a ∈ L, ∀ s', f s a = some s' → I s') (ha : a ∈ L)
    (hn : ∀ s, I s → f s a = none) {s : σ} (h : I s) : L.foldlM f s = none := by
  obtain ⟨L1, L2, rfl⟩ := List.append_of_mem ha
  rw [List.foldlM_append]
  cases e : L1.foldlM f s with
  | none => rfl
  | some s' =>
    have h' : I s' :=
      foldlM_invariant (fun s hs b hb => step s hs b (List.mem_append_left _ hb)) h e
    show (a :: L2).foldlM f s' = none
    rw [List.foldlM_cons, hn s' h']
    rfl

theorem Yields.unique (h : Yields f a) (h' : Yields f a') : a = a' := by
  obtain ⟨n, hn⟩ := h
  obtain ⟨n', hn'⟩ := h'
  exact Option.some.inj ((hn _ (le_max_left n n')).symm.trans (hn' _ (le_max_right n n')))

section
variable {body : σ → Option σ} {s s' t : σ}

theorem yields_loop_end (h : body s = none) : Yields (fun n => loop body n s) s := by
  refine ⟨1, fun m hm => ?_⟩
  obtain ⟨n, rfl⟩ := Nat.exists_eq_add_of_le' hm
  simp only [loop, h]

theorem yields_loop_step (h : body s = some s') (h' : Yields (fun n => loop body n s') t) :
    Yields (fun n => loop body n s) t := by
  obtain ⟨n, hn⟩ := h'
  refine ⟨n + 1, fun m hm => ?_⟩
  obtain ⟨m, rfl⟩ := Nat.exists_eq_add_of_le' (show 1 ≤ m by omega)
  simp only [loop, h]
  exact hn m (by omega)

theorem yields_of_loop {n : ℕ} (h : loop body n s = some t) :
    Yields (fun n => loop body n s) t := by
  induction n generalizing s with
  | zero => cases h
  | succ n ih =>
    simp only [loop] at h
    rcases hb : body s with _ | s' <;> rw [hb] at h
    · cases h
      exact yields_loop_end hb
    · exact yields_loop_step hb (ih h)

/-- The states that the loop comes to. -/
abbrev Reach (body : σ → Option σ) : σ → σ → Prop :=
  Relation.ReflTransGen fun a b => body a = some b

theorem yields_loop_iff (h : body s = some s') :
    Yields (fun n => loop body n s) t ↔ Yields (fun n => loop body n s') t := by
  refine ⟨fun ⟨n, hn⟩ => ⟨n, fun m hm => ?_⟩, yields_loop_step h⟩
  have := hn (m + 1) (by omega)
  simp only [loop, h] at this
  exact this

theorem Reach.yields_iff (h : Reach body s s') :
    Yields (fun n => loop body n s) t ↔ Yields (fun n => loop body n s') t := by
  induction h with
  | refl => rfl
  | tail _ hb ih => exact ih.trans (yields_loop_iff hb)

theorem Reach.mem {L : List σ} (hL : ∀ x ∈ L, ∀ y, body x = some y → y ∈ L) (hs : s ∈ L)
    (h : Reach body s t) : t ∈ L := by
  induction h with
  | refl => exact hs
  | tail _ hb ih => exact hL _ ih _ hb

theorem Yields.reach (h : Yields (fun n => loop body n s) t) : Reach body s t ∧ body t = none := by
  obtain ⟨n, hn⟩ := h
  have e := hn n le_rfl
  clear hn
  induction n generalizing s with
  | zero => cases e
  | succ n ih =>
    simp only [loop] at e
    rcases hb : body s with _ | s' <;> rw [hb] at e
    · cases e
      exact ⟨.refl, hb⟩
    · obtain ⟨h1, h2⟩ := ih e
      exact ⟨.head hb h1, h2⟩

theorem loop_eq_none {I : σ → Prop} (step : ∀ s, I s → ∃ s', body s = some s' ∧ I s') (h : I s)
    (n : ℕ) : loop body n s = none := by
  induction n generalizing s with
  | zero => rfl
  | succ n ih =>
    obtain ⟨s', hb, h'⟩ := step s h
    simp only [loop, hb]
    exact ih h'

/-- **A loop with a measure returns.** -/
theorem yields_of_measure {I : σ → Prop} (μ : σ → ℕ)
    (step : ∀ s, I s → ∀ s', body s = some s' → I s' ∧ μ s' < μ s) (h : I s) :
    ∃ t, Yields (fun n => loop body n s) t ∧ I t := by
  induction hm : μ s using Nat.strong_induction_on generalizing s with
  | _ m ih =>
    rcases hb : body s with _ | s'
    · exact ⟨s, yields_loop_end hb, h⟩
    · obtain ⟨h1, h2⟩ := step s h s' hb
      obtain ⟨t, h3, h4⟩ := ih (μ s') (hm ▸ h2) h1 rfl
      exact ⟨t, yields_loop_step hb h3, h4⟩

end

/-! ## Loops of C -/

section
variable {σ : Type*}

/-- `for (int i = start; i < stop; i++)` -/
def forRange (start stop : ℤ) (body : σ → ℤ → σ) (s : σ) : σ :=
  (List.range (stop - start).toNat).foldl (fun s (i : ℕ) => body s (start + i)) s

/-- `do ... while (cond)`, of at most `n` rounds -/
def doWhile (body : σ → Option σ) (cond : σ → Bool) : ℕ → σ → Option σ
  | 0, _ => none
  | n + 1, s => (body s).bind fun s => if cond s then doWhile body cond n s else some s

theorem forRange_invariant {start stop : ℤ} {body : σ → ℤ → σ} {I : σ → Prop}
    (step : ∀ s i, I s → start ≤ i → i < stop → I (body s i)) {s : σ} (h : I s) :
    I (forRange start stop body s) := by
  refine List.foldlRecOn _ _ h fun s hs i hi => step s _ hs (by omega) ?_
  have := List.mem_range.1 hi
  omega

end

end Kabanos
