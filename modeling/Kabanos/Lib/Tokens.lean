/-
  Tokens: the longest non-empty pieces of a list that have no separator in them.

  `tokens_next` takes the tokens one by one, and `find_token` says that a search for the first
  position that begins a piece and goes on with given elements is a search for the first token
  that begins with them.
-/
import Mathlib

namespace Kabanos

variable {α : Type*} {sep : α → Bool} {k l : List α} {c : α}

/-- The longest non-empty pieces without a separator. -/
def tokens (sep : α → Bool) (l : List α) : List (List α) :=
  (l.splitOnP sep).filter fun t => !t.isEmpty

/-! ## One token after the other -/

/-- The first token, and the list behind the separator that ends it. -/
def nextToken (sep : α → Bool) (l : List α) : Option (List α) × List α :=
  let l := l.dropWhile sep
  if l = [] then (none, [])
  else (some (l.takeWhile fun c => !sep c), (l.dropWhile fun c => !sep c).tail)

@[simp]
theorem tokens_nil : tokens sep [] = [] := by simp [tokens]

theorem tokens_append (hc : sep c) (k l : List α) :
    tokens sep (k ++ c :: l) = tokens sep k ++ tokens sep l := by
  rw [tokens, List.splitOnP_append_cons k l hc, List.filter_append]
  rfl

theorem tokens_dropWhile (sep : α → Bool) (l : List α) :
    tokens sep (l.dropWhile sep) = tokens sep l := by
  induction l with
  | nil => rfl
  | cons c l ih =>
    cases hc : sep c with
    | true =>
      rw [List.dropWhile_cons_of_pos hc, ih, ← List.nil_append (c :: l), tokens_append hc,
        tokens_nil, List.nil_append]
    | false => rw [List.dropWhile_cons_of_neg (by simp [hc])]

theorem tokens_single (hl : ∀ c ∈ l, sep c = false) (h0 : l ≠ []) : tokens sep l = [l] := by
  rw [tokens, List.splitOnP_eq_singleton (by simpa using hl),
    List.filter_cons_of_pos (by simpa using h0)]
  rfl

/-- **The tokens are taken one by one.** -/
theorem tokens_next (sep : α → Bool) (l : List α) :
    tokens sep l = (nextToken sep l).1.toList ++ tokens sep (nextToken sep l).2 := by
  rw [← tokens_dropWhile sep l, nextToken]
  generalize hs : l.dropWhile sep = k
  by_cases h : k = []
  · rw [if_pos h, h]
    rfl
  rw [if_neg h]
  have hne : (k.takeWhile fun c => !sep c) ≠ [] := by
    obtain ⟨c, u, rfl⟩ := List.exists_cons_of_ne_nil h
    have hc := List.head?_dropWhile_not sep l
    rw [hs] at hc
    rw [List.takeWhile_cons_of_pos (by simpa using hc)]
    exact List.cons_ne_nil _ _
  have hno : ∀ c ∈ k.takeWhile fun c => !sep c, sep c = false := fun c hc => by
    simpa using List.mem_takeWhile_imp hc
  conv_lhs => rw [← List.takeWhile_append_dropWhile (p := fun c => !sep c) (l := k)]
  rcases hd : k.dropWhile (fun c => !sep c) with _ | ⟨c, u⟩
  · rw [List.append_nil, tokens_single hno hne]
    rfl
  · have hc : sep c := by
      have hc := List.head?_dropWhile_not (fun c => !sep c) k
      rw [hd] at hc
      simpa using hc
    rw [tokens_append hc, tokens_single hno hne]
    rfl

theorem getElem?_tokens (sep : α → Bool) (l : List α) : (tokens sep l)[0]? = (nextToken sep l).1 ∧
      ∀ i, (tokens sep l)[i + 1]? = (tokens sep (nextToken sep l).2)[i]? := by
  have h := tokens_next sep l
  cases hn : (nextToken sep l).1 with
  | none =>
    have h2 : (nextToken sep l).2 = [] := by
      simp only [nextToken] at hn ⊢
      split_ifs at hn ⊢
      rfl
    rw [h, hn, h2]
    simp
  | some t =>
    rw [hn] at h
    rw [h]
    simp

/-! ## Searching -/

theorem splitOnP_head (sep : α → Bool) (l : List α) :
    ∃ rest, l.splitOnP sep = (l.takeWhile fun c => !sep c) :: rest := by
  induction l with
  | nil => exact ⟨[], List.splitOnP_nil⟩
  | cons c l ih =>
    obtain ⟨rest, e⟩ := ih
    rw [List.splitOnP_cons_eq_if_modifyHead, List.takeWhile_cons]
    cases hc : sep c with
    | true => exact ⟨_, rfl⟩
    | false =>
      refine ⟨rest, ?_⟩
      simp [e]

theorem prefix_takeWhile_iff (hs : ∀ c ∈ k, sep c = false) :
    k <+: (l.takeWhile fun c => !sep c) ↔ k <+: l := by
  constructor
  · intro h
    exact h.trans (List.takeWhile_prefix _)
  · rintro ⟨r, rfl⟩
    rw [List.takeWhile_append_of_pos fun c hc => by simp [hs c hc]]
    exact List.prefix_append _ _

/-- Position `p` begins a piece; `start` says whether the list does. -/
def beginsPiece (sep : α → Bool) (start : Bool) (l : List α) : ℕ → Bool
  | 0 => start
  | p + 1 => l[p]?.any sep

theorem beginsPiece_cons (sep : α → Bool) (start : Bool) (c : α) (l : List α) (p : ℕ) :
    beginsPiece sep start (c :: l) (p + 1) = beginsPiece sep (sep c) l p := by
  cases p <;> rfl

section
variable [DecidableEq α]

theorem isPrefixOf_nil_of_ne (hk : k ≠ []) : k.isPrefixOf [] = false := by
  rw [← Bool.not_eq_true, List.isPrefixOf_iff_prefix, List.prefix_nil]
  exact hk

theorem find_piece_cons (sep : α → Bool) (k : List α) (start : Bool) (c : α) (l : List α) :
    ((List.range (c :: l).length).find? fun p =>
      beginsPiece sep start (c :: l) p && k.isPrefixOf ((c :: l).drop p)) =
    if (start && k.isPrefixOf (c :: l)) = true then some 0
    else ((List.range l.length).find? fun p =>
      beginsPiece sep (sep c) l p && k.isPrefixOf (l.drop p)).map Nat.succ := by
  rw [List.length_cons, List.range_succ_eq_map, List.find?_cons, List.find?_map]
  have h0 : beginsPiece sep start (c :: l) 0 = start := rfl
  simp only [Function.comp_def, Nat.succ_eq_add_one, beginsPiece_cons, List.drop_succ_cons, h0,
    List.drop_zero]
  cases start && k.isPrefixOf (c :: l) <;> rfl

theorem find_piece (hk : k ≠ []) (hs : ∀ c ∈ k, sep c = false) (start : Bool) (l : List α) :
    ((List.range l.length).find? fun p => beginsPiece sep start l p && k.isPrefixOf (l.drop p)).map
      (fun p => (l.drop p).takeWhile fun c => !sep c) =
    (if start then l.splitOnP sep else (l.splitOnP sep).tail).find? k.isPrefixOf := by
  induction l generalizing start with
  | nil => cases start <;> simp [isPrefixOf_nil_of_ne hk]
  | cons c l ih =>
    rw [find_piece_cons, List.splitOnP_cons_eq_if_modifyHead]
    cases hc : sep c with
    | true =>
      -- `k` does not begin with a separator
      have hn : k.isPrefixOf (c :: l) = false := by
        rw [← Bool.not_eq_true, List.isPrefixOf_iff_prefix]
        intro hp
        obtain ⟨x, k, rfl⟩ := List.exists_cons_of_ne_nil hk
        obtain ⟨rfl, -⟩ := List.cons_prefix_cons.1 hp
        rw [hs x List.mem_cons_self] at hc
        cases hc
      rw [hn, Bool.and_false, if_neg Bool.false_ne_true, Option.map_map, if_pos rfl]
      refine (ih true).trans ?_
      cases start
      · rfl
      · rw [if_pos rfl, if_pos rfl, List.find?_cons, isPrefixOf_nil_of_ne hk]
    | false =>
      obtain ⟨rest, e⟩ := splitOnP_head sep l
      have ih := ih false
      rw [if_neg Bool.false_ne_true, e, List.tail_cons] at ih
      rw [if_neg Bool.false_ne_true, e, List.modifyHead_cons, List.tail_cons]
      have hhead : k.isPrefixOf (c :: l.takeWhile fun c => !sep c) = k.isPrefixOf (c :: l) := by
        have hw : (c :: l).takeWhile (fun c => !sep c) = c :: l.takeWhile fun c => !sep c := by
          simp [hc]
        rw [Bool.eq_iff_iff, List.isPrefixOf_iff_prefix, List.isPrefixOf_iff_prefix, ← hw]
        exact prefix_takeWhile_iff hs
      cases hp : (start && k.isPrefixOf (c :: l)) with
      | true =>
        rw [Bool.and_eq_true] at hp
        rw [if_pos rfl, if_pos hp.1, List.find?_cons, hhead, hp.2, Option.map_some, List.drop_zero]
        simp [hc]
      | false =>
        rw [if_neg Bool.false_ne_true, Option.map_map]
        refine ih.trans ?_
        cases start
        · rfl
        · rw [if_pos rfl, List.find?_cons, hhead, show k.isPrefixOf (c :: l) = false from hp]

/-- **The first token that begins with `k`** is what stands at the first position that begins a
    piece and goes on with `k`. -/
theorem find_token (hk : k ≠ []) (hs : ∀ c ∈ k, sep c = false) (l : List α) :
    ((List.range l.length).find? fun p => beginsPiece sep true l p && k.isPrefixOf (l.drop p)).map
      (fun p => (l.drop p).takeWhile fun c => !sep c) = (tokens sep l).find? k.isPrefixOf := by
  rw [find_piece hk hs, if_pos rfl, tokens, List.find?_filter]
  refine congrArg (fun f => List.find? f _) (funext fun t => ?_)
  cases t with
  | nil => simp [isPrefixOf_nil_of_ne hk]
  | cons c t => rw [List.isEmpty_cons, Bool.not_false, Bool.decide_and, Bool.decide_eq_true,
      Bool.decide_eq_true, Bool.true_and]

end

end Kabanos
