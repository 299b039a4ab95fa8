/-
  Kernel modules: the dependency-ordered initialization of `modules.c`, for any registry.

  A module is a place in the registry, and `K` is the state of the kernel that the `init`
  functions work on.  `module_load` calls itself for the modules that a module requires; on
  a cycle it does not return, so it has a bound on the depth of its calls here.
-/
import Kabanos.Lib.Loop

namespace Kabanos

open Relation

variable {K : Type}

inductive ModuleState where
  | loading
  | loaded
  deriving DecidableEq

/-- `module_t`; a missing list of required modules is the empty one. -/
structure Module (K : Type) where
  name : String
  requiredModulesNames : List String
  init : Option (K → K)

/-- A call of an `init` function, or its return. -/
inductive InitEvent (n : ℕ) where
  | called (i : Fin n)
  | returned (i : Fin n)
  deriving DecidableEq

/-- The states of the modules, the kernel, and the calls of `init` so far. -/
structure Loader (K : Type) (n : ℕ) where
  kernel : K
  state : Fin n → ModuleState
  log : List (InitEvent n)

section
variable (reg : List (Module K))

def findModuleByName (name : String) : Option (Fin reg.length) :=
  reg.findFinIdx? fun mod => mod.name == name

/-- `mod->init(mod)` -/
def callInit (i : Fin reg.length) (s : Loader K reg.length) : Loader K reg.length :=
  match (reg.get i).init with
  | some init => { s with kernel := init s.kernel, log := s.log ++ [.called i, .returned i] }
  | none => s

/-- The end of `module_load`: call `init` and mark the module. -/
def finishLoad (i : Fin reg.length) (s : Loader K reg.length) : Loader K reg.length :=
  let s := callInit reg i s
  { s with state := Function.update s.state i .loaded }

/-- `module_load`, with less than the given number of nested calls -/
def moduleLoad : ℕ → Fin reg.length → Loader K reg.length → Option (Loader K reg.length)
  | 0, _, _ => none
  | fuel + 1, i, s =>
    if s.state i = .loaded then some s
    else
      let s := { s with state := Function.update s.state i .loading }
      ((reg.get i).requiredModulesNames.foldlM (fun s name =>
        match findModuleByName reg name with
        | some dep => moduleLoad fuel dep s
        | none => some s) s).map (finishLoad reg i)

def modulesLoad (fuel : ℕ) (s : Loader K reg.length) : Option (Loader K reg.length) :=
  (List.finRange reg.length).foldlM (fun s i => moduleLoad reg fuel i s) s

/-- Nothing is loaded. -/
def Loader.start (k : K) : Loader K reg.length := ⟨k, fun _ => .loading, []⟩

/-! ## Dependencies -/

/-- Module `i` requires module `j`. -/
def Requires (i j : Fin reg.length) : Prop :=
  (reg.get j).name ∈ (reg.get i).requiredModulesNames

instance (i j : Fin reg.length) : Decidable (Requires reg i j) :=
  inferInstanceAs (Decidable (_ ∈ _))

/-- `module_load` of module `i` comes to `module_load` of module `j`. -/
def CallsFor (i j : Fin reg.length) : Prop :=
  ∃ name ∈ (reg.get i).requiredModulesNames, findModuleByName reg name = some j

instance (i j : Fin reg.length) : Decidable (CallsFor reg i j) :=
  inferInstanceAs (Decidable (∃ name ∈ _, _))

/-- The inits called so far are those of the loaded modules, each once, and each after
    everything that the module requires. -/
structure InOrder (s : Loader K reg.length) : Prop where
  closed : ∀ i j, s.state i = .loaded → Requires reg i j → s.state j = .loaded
  called : ∀ i, s.log.count (.called i) =
    if s.state i = .loaded ∧ (reg.get i).init.isSome then 1 else 0
  returned : ∀ i, s.log.count (.returned i) =
    if s.state i = .loaded ∧ (reg.get i).init.isSome then 1 else 0
  order : ∀ l₁ i l₂, s.log = l₁ ++ .called i :: l₂ →
    ∀ j, TransGen (Requires reg) i j → (reg.get j).init.isSome → .returned j ∈ l₁

variable {reg} {s : Loader K reg.length} {i j : Fin reg.length}

theorem findModuleByName_some {name : String} (h : findModuleByName reg name = some j) :
    (reg.get j).name = name := by
  have h' := (List.findFinIdx?_eq_some_iff.1 h).1
  exact eq_of_beq h'

theorem CallsFor.requires (h : CallsFor reg i j) : Requires reg i j := by
  obtain ⟨name, hname, hf⟩ := h
  rw [Requires, findModuleByName_some hf]
  exact hname

theorem findModuleByName_name (hn : (reg.map Module.name).Nodup) (j : Fin reg.length) :
    findModuleByName reg (reg.get j).name = some j := by
  refine List.findFinIdx?_eq_some_iff.2 ⟨beq_self_eq_true _, fun k hk hk' => hk.ne ?_⟩
  have hc : reg.length = (reg.map Module.name).length := (List.length_map ..).symm
  have e : (reg.map Module.name).get (k.cast hc) = (reg.map Module.name).get (j.cast hc) := by
    simpa using hk'
  exact Fin.cast_injective hc (List.nodup_iff_injective_get.1 hn e)

theorem InOrder.start (k : K) : InOrder reg (Loader.start reg k) where
  closed _ _ h := nomatch h
  called _ := by simp [Loader.start]
  returned _ := by simp [Loader.start]
  order l1 _ _ h := by simp [Loader.start] at h

theorem InOrder.closed_trans (h : InOrder reg s) (hi : s.state i = .loaded)
    (hij : TransGen (Requires reg) i j) : s.state j = .loaded := by
  induction hij with
  | single hr => exact h.closed _ _ hi hr
  | tail _ hr ih => exact h.closed _ _ ih hr

theorem InOrder.mem_log (h : InOrder reg s) (hj : s.state j = .loaded)
    (hin : (reg.get j).init.isSome) : .returned j ∈ s.log := by
  have hc := h.returned j
  rw [if_pos ⟨hj, hin⟩] at hc
  exact List.count_pos_iff.1 (by omega)

@[simp] theorem finishLoad_state (i : Fin reg.length) (s : Loader K reg.length) :
    (finishLoad reg i s).state = Function.update s.state i .loaded := by
  unfold finishLoad callInit
  split <;> rfl

theorem finishLoad_log (i : Fin reg.length) (s : Loader K reg.length) : (finishLoad reg i s).log =
      s.log ++ if (reg.get i).init.isSome then [.called i, .returned i] else [] := by
  unfold finishLoad callInit
  split <;> simp_all

theorem append_split {α : Type*} {l1 l2 L M : List α} {x : α} (h : L ++ M = l1 ++ x :: l2) :
    (∃ l, L = l1 ++ x :: l) ∨ ∃ l, l1 = L ++ l ∧ M = l ++ x :: l2 := by
  rcases List.append_eq_append_iff.1 h with ⟨l, rfl, hM⟩ | ⟨l, rfl, hl⟩
  · exact Or.inr ⟨l, rfl, hM⟩
  · rcases l with _ | ⟨y, l⟩
    · exact Or.inr ⟨[], by simp, by simpa using hl.symm⟩
    · obtain ⟨rfl, -⟩ : x = y ∧ _ := by simpa using hl
      exact Or.inl ⟨l, rfl⟩

theorem InOrder.finishLoad (h : InOrder reg s) (hi : s.state i ≠ .loaded)
    (hd : ∀ j, Requires reg i j → s.state j = .loaded) : InOrder reg (finishLoad reg i s) where
  closed a b ha hab := by
    rw [finishLoad_state, Function.update_apply] at ha ⊢
    split_ifs with hb
    · rfl
    split_ifs at ha with ha'
    · exact hd b (ha' ▸ hab)
    · exact h.closed a b ha hab
  called a := by
    rw [finishLoad_log, finishLoad_state, List.count_append, h.called, Function.update_apply]
    by_cases ha : a = i
    · subst ha
      rcases hin : (reg.get a).init with _ | f <;> simp [hi]
    · rcases hin : (reg.get i).init with _ | f <;> simp [ha, Ne.symm ha]
  returned a := by
    rw [finishLoad_log, finishLoad_state, List.count_append, h.returned, Function.update_apply]
    by_cases ha : a = i
    · subst ha
      rcases hin : (reg.get a).init with _ | f <;> simp [hi]
    · rcases hin : (reg.get i).init with _ | f <;> simp [ha, Ne.symm ha]
  order l1 a l2 hl j haj hin := by
    rw [finishLoad_log] at hl
    rcases append_split hl with ⟨l, hl⟩ | ⟨l, rfl, hl⟩
    · exact h.order l1 a l hl j haj hin
    · -- the new call: everything that `i` requires is loaded
      refine List.mem_append_left _ (h.mem_log ?_ hin)
      have ha : a = i := by
        split_ifs at hl
        · rcases l with _ | ⟨x, _ | ⟨y, l⟩⟩ <;> simp_all
        · simp at hl
      subst ha
      obtain ⟨k, hk, hkj⟩ := TransGen.head'_iff.1 haj
      rcases reflTransGen_iff_eq_or_transGen.1 hkj with rfl | hkj
      · exact hd _ hk
      · exact h.closed_trans (hd k hk) hkj

/-! ## Loading -/

/-- What loading the modules in `A` does: nothing is unloaded, and nothing else is loaded. -/
structure Loads (J : Loader K reg.length → Prop) (A : Fin reg.length → Prop)
    (s s' : Loader K reg.length) : Prop where
  inv : J s'
  keeps : ∀ j, s.state j = .loaded → s'.state j = .loaded
  only : ∀ j, s'.state j = .loaded → s.state j = .loaded ∨ A j

variable {J : Loader K reg.length → Prop} {A B : Fin reg.length → Prop}
  {s' s'' : Loader K reg.length}

theorem Loads.refl (h : J s) : Loads J A s s := ⟨h, fun _ hj => hj, fun _ => Or.inl⟩

theorem Loads.trans (h : Loads J A s s') (h' : Loads J B s' s'') (hBA : ∀ j, B j → A j) :
    Loads J A s s'' where
  inv := h'.inv
  keeps j hj := h'.keeps j (h.keeps j hj)
  only j hj := (h'.only j hj).elim (h.only j) fun hB => Or.inr (hBA j hB)

theorem Loads.finishLoad (h : Loads J (TransGen (CallsFor reg) i) s s')
    (hJ : J (Kabanos.finishLoad reg i s')) :
    Loads J (ReflTransGen (CallsFor reg) i) s (Kabanos.finishLoad reg i s') where
  inv := hJ
  keeps j hj := by
    rw [finishLoad_state, Function.update_apply]
    split_ifs
    · rfl
    · exact h.keeps j hj
  only j hj := by
    rw [finishLoad_state, Function.update_apply] at hj
    split_ifs at hj with hji
    · exact Or.inr (hji ▸ .refl)
    · exact (h.only j hj).imp_right TransGen.to_reflTransGen

theorem wellFounded_of_acyclic {r : Fin reg.length → Fin reg.length → Prop}
    (hac : ∀ i, ¬ TransGen r i i) : WellFounded fun a b => TransGen r b a :=
  have : IsTrans (Fin reg.length) fun a b => TransGen r b a := ⟨fun _ _ _ h h' => h'.trans h⟩
  have : Std.Irrefl fun a b => TransGen r b a := ⟨hac⟩
  Finite.wellFounded_of_trans_of_irrefl _

/-- **`module_load` returns**, and what every end of a load keeps holds. -/
theorem moduleLoad_rule (hac : ∀ i, ¬ TransGen (CallsFor reg) i i)
    (hfin : ∀ i s, J s → s.state i ≠ .loaded → (∀ j, CallsFor reg i j → s.state j = .loaded) →
      J (finishLoad reg i s)) (i : Fin reg.length) {s : Loader K reg.length} (h : J s) :
    ∃ s', Yields (fun fuel => moduleLoad reg fuel i s) s' ∧
      Loads J (ReflTransGen (CallsFor reg) i) s s' ∧ s'.state i = .loaded := by
  induction i using (wellFounded_of_acyclic hac).induction generalizing s with
  | _ i ih =>
    by_cases hi : s.state i = .loaded
    · refine ⟨s, Yields.succ ?_, .refl h, hi⟩
      simp only [moduleLoad, if_pos hi]
      exact .pure s
    · have hst : Function.update s.state i .loading = s.state := by
        refine Function.update_eq_self_iff.2 ?_
        cases hs : s.state i with
        | loading => rfl
        | loaded => exact absurd hs hi
      -- the pass over the required modules
      obtain ⟨t, hy, ht, hd, -⟩ := yields_foldlM
        (I := Loads J (TransGen (CallsFor reg) i) s)
        (D := fun t name => ∀ dep, findModuleByName reg name = some dep → t.state dep = .loaded)
        (L := (reg.get i).requiredModulesNames)
        (f := fun fuel t name => match findModuleByName reg name with
          | some dep => moduleLoad reg fuel dep t
          | none => some t) (fun t ht name hname => by
          cases hf : findModuleByName reg name with
          | none =>
            exact ⟨t, .pure t, ht, fun dep hdep => (nomatch hdep), fun _ hb => hb⟩
          | some dep =>
            have hr : CallsFor reg i dep := ⟨name, hname, hf⟩
            obtain ⟨t', hy, hl, hdep⟩ := ih dep (.single hr) ht.inv
            refine ⟨t', hy, ht.trans hl fun j hj => .head' hr hj, fun dep' e => ?_,
              fun name' hb dep' e => hl.keeps dep' (hb dep' e)⟩
            cases e
            exact hdep) (Loads.refl h)
      refine ⟨finishLoad reg i t, Yields.succ ?_, ht.finishLoad (hfin i t ht.inv
        (fun hit => (ht.only i hit).elim hi (hac i)) fun j ⟨name, hname, hf⟩ => hd name hname j hf),
        by simp⟩
      simp only [moduleLoad, if_neg hi, hst]
      exact hy.map _

theorem moduleLoad_spec (hn : (reg.map Module.name).Nodup)
    (hac : ∀ i, ¬ TransGen (Requires reg) i i) (i : Fin reg.length) (h : InOrder reg s) :
    ∃ s', Yields (fun fuel => moduleLoad reg fuel i s) s' ∧
      Loads (InOrder reg) (ReflTransGen (CallsFor reg) i) s s' ∧ s'.state i = .loaded :=
  moduleLoad_rule (fun i hc => hac i (TransGen.mono (fun _ _ => CallsFor.requires) i i hc))
    (fun _ _ hs hi hd => hs.finishLoad hi fun j hj => hd j ⟨_, hj, findModuleByName_name hn j⟩) i h

/-- **Dependency-ordered initialization.** -/
theorem modules_load_in_order (reg : List (Module K)) (hn : (reg.map Module.name).Nodup)
    (hac : ∀ i, ¬ TransGen (Requires reg) i i) (k : K) :
    ∃ s, Yields (fun fuel => modulesLoad reg fuel (Loader.start reg k)) s ∧
      (∀ i, s.log.count (.called i) = if (reg.get i).init.isSome then 1 else 0) ∧
      ∀ l₁ i l₂, s.log = l₁ ++ .called i :: l₂ →
        ∀ j, TransGen (Requires reg) i j → (reg.get j).init.isSome → .returned j ∈ l₁ := by
  have step : ∀ s, InOrder reg s → ∀ i ∈ List.finRange reg.length,
      ∃ s', Yields (fun fuel => moduleLoad reg fuel i s) s' ∧ InOrder reg s' ∧
        s'.state i = .loaded ∧ ∀ j, s.state j = .loaded → s'.state j = .loaded := by
    intro s hs i _
    obtain ⟨s', hy, hl, hi⟩ := moduleLoad_spec hn hac i hs
    exact ⟨s', hy, hl.inv, hi, hl.keeps⟩
  obtain ⟨s, hy, hs, hl, -⟩ := yields_foldlM (D := fun s i => s.state i = .loaded) step
    (InOrder.start k)
  refine ⟨s, hy, fun i => ?_, hs.order⟩
  rw [hs.called]
  simp [hl i (List.mem_finRange i)]

/-- Three modules of the kernel, each before the ones it requires; an `init` leaves the name
    of its module behind. -/
def demoRegistry : List (Module (List String)) :=
  [⟨"rtl8139", ["hal", "devices"], some ("rtl8139" :: ·)⟩,
    ⟨"devices", ["hal"], some ("devices" :: ·)⟩,
    ⟨"hal", [], some ("hal" :: ·)⟩]

theorem demoRegistry_acyclic (i : Fin demoRegistry.length) :
    ¬ TransGen (Requires demoRegistry) i i := fun h => by
  have up : ∀ i j, Requires demoRegistry i j → i < j := by decide +kernel
  have hlt : ∀ {j}, TransGen (Requires demoRegistry) i j → i < j := fun h => by
    induction h with
    | single h => exact up _ _ h
    | tail _ h ih => exact ih.trans (up _ _ h)
  exact lt_irrefl i (hlt h)

theorem modules_load_demo :
    ∃ s, Yields (fun fuel => modulesLoad demoRegistry fuel (Loader.start demoRegistry [])) s ∧
      (∀ i, s.log.count (.called i) = if (demoRegistry.get i).init.isSome then 1 else 0) ∧
      ∀ l₁ i l₂, s.log = l₁ ++ .called i :: l₂ →
        ∀ j, TransGen (Requires demoRegistry) i j → (demoRegistry.get j).init.isSome →
          .returned j ∈ l₁ :=
  modules_load_in_order demoRegistry (by decide +kernel) demoRegistry_acyclic []

example : (modulesLoad demoRegistry 4 (Loader.start demoRegistry [])).map Loader.kernel =
    some ["rtl8139", "devices", "hal"] := by
  decide +kernel

end

end Kabanos
