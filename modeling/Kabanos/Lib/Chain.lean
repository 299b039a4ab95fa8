/-
  Linked lists.

  `Seg next a l b` says that from `a` the links `next` lead along the cells `l` to `b`, and
  `Queue next nil head tail l` that the list from `head` on is `l` and `tail` its last cell.
  A cell is taken out with its predecessor, `nil` for the first one.
-/
import Mathlib

namespace Kabanos

open Function (update update_of_ne update_self)

variable {α : Type*} {next next' : α → α} {nil a b head tail t : α} {l k r : List α}

def Seg (next : α → α) : α → List α → α → Prop
  | a, [], b => a = b
  | a, x :: l, b => a = x ∧ Seg next (next x) l b

theorem Seg.congr (h : Seg next a l b) (hn : ∀ x ∈ l, next' x = next x) : Seg next' a l b := by
  induction l generalizing a with
  | nil => exact h
  | cons x l ih =>
    refine ⟨h.1, ?_⟩
    rw [hn x List.mem_cons_self]
    exact ih h.2 fun y hy => hn y (List.mem_cons_of_mem x hy)

theorem seg_append : Seg next a (k ++ r) b ↔ ∃ c, Seg next a k c ∧ Seg next c r b := by
  induction k generalizing a with
  | nil => exact ⟨fun h => ⟨a, rfl, h⟩, fun ⟨_, e, h⟩ => e ▸ h⟩
  | cons x k ih =>
    rw [List.cons_append]
    simp only [Seg, ih]
    exact ⟨fun ⟨e, c, h, h'⟩ => ⟨c, ⟨e, h⟩, h'⟩, fun ⟨c, ⟨e, h⟩, h'⟩ => ⟨e, c, h, h'⟩⟩

theorem Seg.unique (h : Seg next a l nil) (h' : Seg next a k nil) (hl : nil ∉ l) (hk : nil ∉ k) :
    l = k := by
  induction l generalizing a k with
  | nil =>
    cases k with
    | nil => rfl
    | cons y k =>
      obtain rfl : a = nil := h
      exact absurd (h'.1 ▸ List.mem_cons_self) hk
  | cons x l ih =>
    obtain ⟨rfl, h⟩ := h
    cases k with
    | nil =>
      obtain rfl : a = nil := h'
      exact absurd List.mem_cons_self hl
    | cons y k =>
      obtain ⟨rfl, h'⟩ := h'
      rw [ih h h' (fun hm => hl (List.mem_cons_of_mem a hm))
        fun hm => hk (List.mem_cons_of_mem a hm)]

/-- **A cell is put behind another one.** -/
theorem Seg.insert [DecidableEq α] {y : α} (h : Seg next a (k ++ y :: r) b)
    (hnd : (k ++ y :: r).Nodup) (ht : t ∉ k ++ y :: r) :
    Seg (update (update next t (next y)) y t) a (k ++ y :: t :: r) b := by
  have hother : ∀ x, x ≠ y → x ≠ t →
      update (update next t (next y)) y t x = next x := fun x hy ht => by
    rw [update_of_ne hy, update_of_ne ht]
  obtain ⟨hk, hyr, hd⟩ := List.nodup_append.1 hnd
  have hty : t ≠ y := fun e => ht (by simp [e])
  obtain ⟨c, hk', rfl, hr⟩ := seg_append.1 h
  refine seg_append.2 ⟨c, hk'.congr fun x hx => hother x ?_ ?_, rfl, ?_⟩
  · exact hd x hx c List.mem_cons_self
  · exact fun e => ht (e ▸ List.mem_append_left _ hx)
  rw [update_self]
  refine ⟨rfl, ?_⟩
  rw [update_of_ne hty, update_self]
  refine hr.congr fun x hx => hother x ?_ ?_
  · exact fun e => (List.nodup_cons.1 hyr).1 (e ▸ hx)
  · exact fun e => ht (e ▸ List.mem_append_right _ (List.mem_cons_of_mem c hx))

structure Queue (next : α → α) (nil head tail : α) (l : List α) : Prop where
  seg : Seg next head l nil
  not_nil : nil ∉ l
  nodup : l.Nodup
  last : tail = l.getLast?.getD nil

theorem Queue.empty (next : α → α) (nil : α) : Queue next nil nil nil [] :=
  ⟨rfl, List.not_mem_nil, List.nodup_nil, rfl⟩

theorem Queue.congr (h : Queue next nil head tail l) (hn : ∀ x ∈ l, next' x = next x) :
    Queue next' nil head tail l :=
  ⟨h.seg.congr hn, h.not_nil, h.nodup, h.last⟩

theorem Seg.head_eq (h : Seg next a l nil) : a = l.head?.getD nil := by
  cases l with
  | nil => exact h
  | cons x l => exact h.1

theorem Queue.next_eq (h : Queue next nil head tail (k ++ t :: r)) : next t = r.head?.getD nil := by
  obtain ⟨c, -, -, h2⟩ := seg_append.1 h.seg
  exact h2.head_eq

theorem Queue.head_eq_nil (h : Queue next nil head tail l) : head = nil ↔ l = [] := by
  cases l with
  | nil => exact ⟨fun _ => rfl, fun _ => h.seg⟩
  | cons x l =>
    refine ⟨fun e => absurd ?_ h.not_nil, fun e => by cases e⟩
    rw [← e, h.seg.1]
    exact List.mem_cons_self

theorem getLast_cases (l : List α) (nil : α) : l = [] ∧ l.getLast?.getD nil = nil ∨
    l.getLast?.getD nil ∈ l := by
  rcases List.eq_nil_or_concat' l with rfl | ⟨l, x, rfl⟩
  · exact .inl ⟨rfl, rfl⟩
  · right
    rw [List.getLast?_concat, Option.getD_some]
    simp

theorem Queue.tail_mem (h : Queue next nil head tail l) (ht : tail ≠ nil) : tail ∈ l := by
  rw [h.last] at ht ⊢
  exact (getLast_cases l nil).resolve_left fun e => ht e.2

theorem Queue.tail_eq_nil (h : Queue next nil head tail l) : tail = nil ↔ l = [] := by
  refine ⟨fun e => ?_, fun e => by rw [h.last, e]; rfl⟩
  rw [h.last] at e
  exact ((getLast_cases l nil).resolve_right fun hm => h.not_nil (e ▸ hm)).1

theorem Queue.next_eq_nil (h : Queue next nil head tail (t :: r)) : next t = nil ↔ tail = t := by
  rcases List.eq_nil_or_concat' r with rfl | ⟨r', y, rfl⟩
  · exact ⟨fun _ => h.last, fun _ => h.seg.2⟩
  have e : tail = y := by
    rw [h.last, ← List.cons_append, List.getLast?_concat, Option.getD_some]
  refine iff_of_false (fun hn => h.not_nil ?_) fun ht => (List.nodup_cons.1 h.nodup).1 ?_
  · rw [← hn, h.seg.2.head_eq]
    cases r' <;> simp
  · rw [← ht, e]
    simp

section
variable [DecidableEq α]

/-- **A cell is added at the back.** -/
theorem Queue.push (h : Queue next nil head tail l) (ht : t ∉ l) (h0 : t ≠ nil)
    (hn : next t = nil) :
    Queue (if tail = nil then next else update next tail t) nil
      (if tail = nil then t else head) t (l ++ [t]) := by
  have hlast : t = (l ++ [t]).getLast?.getD nil := by rw [List.getLast?_concat, Option.getD_some]
  have hnot : nil ∉ l ++ [t] := by
    rw [List.mem_append, List.mem_singleton]
    exact fun e => e.elim h.not_nil (Ne.symm h0)
  have hnd : (l ++ [t]).Nodup := by
    rw [← List.concat_eq_append]
    exact h.nodup.concat ht
  refine ⟨?_, hnot, hnd, hlast⟩
  rcases List.eq_nil_or_concat' l with rfl | ⟨l', x, rfl⟩
  · rw [if_pos (h.tail_eq_nil.2 rfl), if_pos (h.tail_eq_nil.2 rfl)]
    exact ⟨rfl, hn⟩
  · have hx : tail = x := by rw [h.last, List.getLast?_concat, Option.getD_some]
    have hne : ¬ tail = nil := fun e => by have := h.tail_eq_nil.1 e; simp at this
    rw [if_neg hne, if_neg hne, hx]
    obtain ⟨c, h1, rfl, h2⟩ := seg_append.1 h.seg
    have hcl : c ∉ l' := fun hm =>
      (List.nodup_append.1 h.nodup).2.2 c hm c (List.mem_singleton_self c) rfl
    have htx : t ≠ c := fun e => ht (by simp [e])
    refine seg_append.2 ⟨t, seg_append.2 ⟨c, h1.congr fun y hy => ?_, rfl, ?_⟩, rfl, ?_⟩
    · have hne : y ≠ c := fun e => hcl (e ▸ hy)
      exact update_of_ne hne _ _
    · exact update_self c t next
    · rw [update_of_ne htx]
      exact hn

/-- **A cell is taken out.** -/
theorem Queue.unlink (h : Queue next nil head tail (k ++ t :: r)) {prev : α}
    (hp : prev = k.getLast?.getD nil) :
    Queue (if prev = nil then next else update next prev (next t)) nil
      (if prev = nil then next t else head) (if tail = t then prev else tail) (k ++ r) := by
  obtain ⟨c, h1, rfl, h2⟩ := seg_append.1 h.seg
  have hnot : nil ∉ k ++ r := fun hm => h.not_nil <| by
    rcases List.mem_append.1 hm with hm | hm
    · exact List.mem_append_left _ hm
    · exact List.mem_append_right _ (List.mem_cons_of_mem c hm)
  have hk : nil ∉ k := fun hm => hnot (List.mem_append_left _ hm)
  have hnd : (k ++ r).Nodup := h.nodup.sublist ((List.sublist_cons_self c r).append_left k)
  have hsplit := List.nodup_append.1 h.nodup
  have hlast : (if tail = c then prev else tail) = (k ++ r).getLast?.getD nil := by
    rcases List.eq_nil_or_concat' r with rfl | ⟨r', y, rfl⟩
    · rw [if_pos (by rw [h.last]; simp), List.append_nil, hp]
    · have e : tail = y := by
        rw [h.last, ← List.cons_append, ← List.append_assoc, List.getLast?_concat, Option.getD_some]
      have hy : y ≠ c := fun e => by
        have := (List.nodup_cons.1 hsplit.2.1).1
        simp [e] at this
      rw [if_neg (by rw [e]; exact hy), e]
      simp
  refine ⟨?_, hnot, hnd, hlast⟩
  rcases List.eq_nil_or_concat' k with rfl | ⟨k', x, rfl⟩
  · rw [if_pos (by simpa using hp), if_pos (by simpa using hp)]
    exact h2
  · have hx : prev = x := by rw [hp, List.getLast?_concat, Option.getD_some]
    subst hx
    have hne : ¬ prev = nil := fun e => hk (by simp [e])
    rw [if_neg hne, if_neg hne]
    obtain ⟨d, h3, rfl, h4⟩ := seg_append.1 h1
    have hdk : d ∉ k' := fun hm =>
      (List.nodup_append.1 hsplit.1).2.2 d hm d (List.mem_singleton_self d) rfl
    have hdr : d ∉ r := fun hm =>
      hsplit.2.2 d (by simp) d (List.mem_cons_of_mem c hm) rfl
    rw [List.append_assoc]
    refine seg_append.2 ⟨d, h3.congr fun y hy => ?_, rfl, ?_⟩
    · have hne : y ≠ d := fun e => hdk (e ▸ hy)
      exact update_of_ne hne _ _
    · rw [update_self]
      refine h2.congr fun y hy => ?_
      have hne : y ≠ d := fun e => hdr (e ▸ hy)
      exact update_of_ne hne _ _

end

end Kabanos
