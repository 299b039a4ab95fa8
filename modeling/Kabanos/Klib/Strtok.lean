/-
  `strtok_r` of `string.c`, on memory.

  The string is cut in place: the delimiter behind a token becomes its terminating zero, and the
  pointer that is kept for the next call goes behind it.  So what has been overwritten lies in
  front of the pointer, and behind it the original string stands.
-/
import Kabanos.Lib.Strings
import Kabanos.Lib.Tokens

namespace Kabanos

open Function (update update_self update_of_ne)

/-- `strchr(delim, c) != NULL` -/
def strchrFinds (delim : List UInt8) (c : UInt8) : Bool := delim.any (· == c)

/-- What `strtok_r` changes: memory, and `*saveptr`. -/
structure StrtokState where
  mem : Buf
  saveptr : ℕ

/-- `while (*str && go(*str)) str++` -/
def scan (mem : Buf) (go : UInt8 → Bool) (n str : ℕ) : Option ℕ :=
  loop (fun str => if mem str ≠ 0 ∧ go (mem str) then some (str + 1) else none) n str

/-- `strtok_r(str, delim, saveptr)`, with loops of less than `n` rounds; a null pointer is
    `none`. -/
def strtokRCall (n : ℕ) (delim : List UInt8) (str : Option ℕ) (s : StrtokState) :
    Option (Option ℕ × StrtokState) := do
  let str := str.getD s.saveptr
  let str ← scan s.mem (strchrFinds delim) n str
  if s.mem str = 0 then some (none, ⟨s.mem, str⟩)
  else
    let token := str
    let str ← scan s.mem (fun c => !strchrFinds delim c) n str
    if s.mem str ≠ 0 then some (some token, ⟨update s.mem str 0, str + 1⟩)
    else some (some token, ⟨s.mem, str⟩)

/-- `k` calls, the later ones with `str == NULL`: what each returns, and the state it leaves. -/
def strtokRCalls (n : ℕ) (delim : List UInt8) :
    ℕ → Option ℕ → StrtokState → Option (List (Option ℕ × StrtokState))
  | 0, _, _ => some []
  | k + 1, str, s => do
    let r ← strtokRCall n delim str s
    let rs ← strtokRCalls n delim k none r.2
    some (r :: rs)

/-! ## Strings in memory -/

/-- The string `l` stands at `p`, with its terminating zero. -/
def StringAt (mem : Buf) (p : ℕ) (l : List UInt8) : Prop :=
  ∃ h : ∀ c ∈ l, c ≠ 0, StrAt mem p ⟨l, h⟩

section
variable {mem : Buf} {p q n : ℕ} {k l : List UInt8} {c : UInt8} {go : UInt8 → Bool}

@[simp]
theorem stringAt_nil : StringAt mem p [] ↔ mem p = 0 := by
  constructor
  · rintro ⟨_, h⟩
    exact h 0 le_rfl
  · refine fun h => ⟨by simp, fun i hi => ?_⟩
    obtain rfl : i = 0 := Nat.le_zero.1 hi
    exact h

@[simp]
theorem stringAt_cons :
    StringAt mem p (c :: l) ↔ c ≠ 0 ∧ mem p = c ∧ StringAt mem (p + 1) l := by
  constructor
  · rintro ⟨hne, h⟩
    refine ⟨hne c List.mem_cons_self, h 0 (Nat.zero_le _),
      fun d hd => hne d (List.mem_cons_of_mem c hd), fun i hi => ?_⟩
    rw [Nat.add_assoc, Nat.add_comm 1]
    exact h (i + 1) (Nat.succ_le_succ hi)
  · rintro ⟨h0, h1, hne, h⟩
    refine ⟨fun d hd => ?_, fun i hi => ?_⟩
    · rcases List.mem_cons.1 hd with rfl | hd
      · exact h0
      · exact hne d hd
    · cases i with
      | zero => exact h1
      | succ i =>
        have e : p + (i + 1) = p + 1 + i := by omega
        rw [e]
        exact h i (Nat.le_of_succ_le_succ hi)

theorem StringAt.right (h : StringAt mem p (k ++ l)) : StringAt mem (p + k.length) l := by
  induction k generalizing p with
  | nil => exact h
  | cons c k ih =>
    have := ih (stringAt_cons.1 h).2.2
    rwa [Nat.add_assoc, Nat.add_comm 1] at this

theorem StringAt.update (h : StringAt mem p l) (hq : q < p) (x : UInt8) :
    StringAt (update mem q x) p l := by
  obtain ⟨hne, h⟩ := h
  exact ⟨hne, h.congr fun i _ => update_of_ne (by omega) ..⟩

theorem StringAt.cut (h : StringAt mem p (k ++ l)) :
    StringAt (Function.update mem (p + k.length) 0) p k := by
  induction k generalizing p with
  | nil => exact stringAt_nil.2 (update_self ..)
  | cons c k ih =>
    have e : p + (c :: k).length = p + 1 + k.length := by
      rw [List.length_cons]
      omega
    obtain ⟨h0, h1, h2⟩ := stringAt_cons.1 h
    rw [e]
    exact stringAt_cons.2 ⟨h0, (update_of_ne (by omega) ..).trans h1, ih h2⟩

theorem StringAt.scan (h : StringAt mem p l) (go : UInt8 → Bool) :
    Yields (fun n => scan mem go n p) (p + (l.takeWhile go).length) := by
  induction l generalizing p with
  | nil => exact yields_loop_end (if_neg fun hc => hc.1 (stringAt_nil.1 h))
  | cons c l ih =>
    obtain ⟨h0, h1, h2⟩ := stringAt_cons.1 h
    cases hc : go c with
    | true =>
      rw [List.takeWhile_cons_of_pos hc, List.length_cons, Nat.add_comm _ 1, ← Nat.add_assoc]
      exact yields_loop_step (if_pos (by simp [h1, h0, hc])) (ih h2)
    | false =>
      rw [List.takeWhile_cons_of_neg (by simp [hc])]
      exact yields_loop_end (if_neg (by simp [h1, hc]))

end

/-! ## One call -/

/-- What a call returns for the token `t` of the string `s` at `off`, and what it leaves: the
    token is a string of its own, and the pointer is at what stands in `s` behind the delimiter
    that ends the token. -/
def TokenReturned (delim s : List UInt8) (off : ℕ) (r : Option ℕ × StrtokState) :
    Option (List UInt8) → Prop
  | none => r.1 = none
  | some t => ∃ front back, s = front ++ t ++ back ∧ (∀ c ∈ back.head?, c ∈ delim) ∧
      r.1 = some (off + front.length) ∧ StringAt r.2.mem (off + front.length) t ∧
        r.2.saveptr = off + (front ++ t ++ back.take 1).length ∧
          StringAt r.2.mem r.2.saveptr back.tail

section
variable {delim s l : List UInt8} {off p : ℕ} {mem : Buf} {str : Option ℕ} {saveptr : ℕ}

theorem strchrFinds_iff {c : UInt8} : strchrFinds delim c ↔ c ∈ delim := by
  simp [strchrFinds]

theorem strtokRCall_spec (delim : List UInt8) (h : StringAt mem p l) (hp : str.getD saveptr = p) :
    ∃ r, Yields (fun n => strtokRCall n delim str ⟨mem, saveptr⟩) r ∧
      TokenReturned delim l p r (nextToken (strchrFinds delim) l).1 ∧
        ∃ front, l = front ++ (nextToken (strchrFinds delim) l).2 ∧
          r.2.saveptr = p + front.length ∧
            StringAt r.2.mem r.2.saveptr (nextToken (strchrFinds delim) l).2 := by
  set sep := strchrFinds delim with hsep
  have y1 := h.scan sep
  have hl : l.takeWhile sep ++ l.dropWhile sep = l := List.takeWhile_append_dropWhile
  have hu : StringAt mem (p + (l.takeWhile sep).length) (l.dropWhile sep) := (hl ▸ h).right
  rw [nextToken]
  generalize l.takeWhile sep = a at hl y1 hu
  generalize l.dropWhile sep = u at hl hu
  subst hl
  cases u with
  | nil =>
    refine ⟨(none, ⟨mem, p + a.length⟩), ?_, rfl, a, rfl, rfl, hu⟩
    simp only [strtokRCall, hp]
    exact y1.bind (by simpa [stringAt_nil.1 hu] using Yields.pure _)
  | cons c u =>
    obtain ⟨h0, h1, -⟩ := stringAt_cons.1 hu
    have hc : mem (p + a.length) ≠ 0 := h1 ▸ h0
    have y2 := hu.scan fun c => !sep c
    rw [if_neg (List.cons_ne_nil c u)]
    generalize c :: u = u at hu y2
    have ht : (u.takeWhile fun c => !sep c) ++ (u.dropWhile fun c => !sep c) = u :=
      List.takeWhile_append_dropWhile
    have hback := (ht ▸ hu).right
    have hd := List.head?_dropWhile_not (fun c => !sep c) u
    simp only
    generalize (u.takeWhile fun c => !sep c) = t at ht y2 hback
    generalize (u.dropWhile fun c => !sep c) = back at ht hback hd
    subst ht
    cases back with
    | nil =>
      refine ⟨(some (p + a.length), ⟨mem, p + a.length + t.length⟩), ?_, ?_, ?_⟩
      · simp only [strtokRCall, hp]
        refine y1.bind ?_
        simp only [if_neg hc]
        exact y2.bind (by simpa [stringAt_nil.1 hback] using Yields.pure _)
      · refine ⟨a, [], by simp, by simp, rfl, by simpa using hu, by simp [Nat.add_assoc], hback⟩
      · exact ⟨a ++ t, by simp, by simp [Nat.add_assoc], hback⟩
    | cons d back =>
      obtain ⟨b0, b1, b2⟩ := stringAt_cons.1 hback
      refine ⟨(some (p + a.length), ⟨update mem (p + a.length + t.length) 0,
        p + a.length + t.length + 1⟩), ?_, ?_, ?_⟩
      · simp only [strtokRCall, hp]
        refine y1.bind ?_
        simp only [if_neg hc]
        refine y2.bind ?_
        simp only [if_pos (show mem (p + a.length + t.length) ≠ 0 from b1 ▸ b0)]
        exact .pure _
      · refine ⟨a, d :: back, by simp, ?_, rfl, hu.cut, by simp [Nat.add_assoc],
          b2.update (by omega) 0⟩
        rintro _ ⟨⟩
        exact strchrFinds_iff.1 (by simpa using hd)
      · exact ⟨a ++ t ++ [d], by simp, by simp [Nat.add_assoc], b2.update (by omega) 0⟩

theorem TokenReturned.behind {front : List UInt8} {r : Option ℕ × StrtokState}
    {x : Option (List UInt8)} (h : TokenReturned delim l (p + front.length) r x) :
    TokenReturned delim (front ++ l) p r x := by
  cases x with
  | none => exact h
  | some t =>
    obtain ⟨k, back, rfl, hd, h1, h2, h3, h4⟩ := h
    have e : p + front.length + k.length = p + (front ++ k).length := by simp [Nat.add_assoc]
    refine ⟨front ++ k, back, by simp, hd, by rw [← e]; exact h1, by rw [← e]; exact h2, ?_, h4⟩
    rw [h3]
    simp [Nat.add_assoc]

theorem strtokRCalls_spec (delim : List UInt8) (k : ℕ) {l : List UInt8} {mem : Buf} {p : ℕ}
    {str : Option ℕ} {saveptr : ℕ} (h : StringAt mem p l) (hp : str.getD saveptr = p) :
    ∃ rs : List (Option ℕ × StrtokState),
      Yields (fun n => strtokRCalls n delim k str ⟨mem, saveptr⟩) rs ∧ rs.length = k ∧
        ∀ (i : ℕ) r, rs[i]? = some r →
          TokenReturned delim l p r (tokens (strchrFinds delim) l)[i]? := by
  induction k generalizing l mem p str saveptr with
  | zero => exact ⟨[], .pure _, rfl, fun i r hr => by simp at hr⟩
  | succ k ih =>
    obtain ⟨r, y, hr, front, hl, hs, hat⟩ := strtokRCall_spec delim h hp
    obtain ⟨rs, ys, hlen, hrs⟩ := ih hat (rfl : none.getD r.2.saveptr = _)
    obtain ⟨t0, t1⟩ := getElem?_tokens (strchrFinds delim) l
    refine ⟨r :: rs, y.bind (ys.bind (.pure _)), by rw [List.length_cons, hlen], ?_⟩
    intro i r' hi
    cases i with
    | zero =>
      obtain rfl : r = r' := by simpa using hi
      rw [t0]
      exact hr
    | succ i =>
      have := hrs i r' (by simpa using hi)
      rw [hs] at this
      rw [t1, hl]
      exact hl ▸ this.behind

/-- **`strtok_r` splits the string into its tokens**: the calls return the tokens of the string
    one after the other, and then the null pointer. -/
theorem strtok_r_splits (delim : List UInt8) {s : List UInt8} {mem : Buf} {off : ℕ}
    (h : StringAt mem off s) (saveptr k : ℕ) :
    ∃ rs : List (Option ℕ × StrtokState),
      Yields (fun n => strtokRCalls n delim k (some off) ⟨mem, saveptr⟩) rs ∧ rs.length = k ∧
        ∀ (i : ℕ) r, rs[i]? = some r →
          TokenReturned delim s off r (tokens (strchrFinds delim) s)[i]? :=
  strtokRCalls_spec delim k h rfl

/-- The path `/a//bc` -/
def pathBytes : List UInt8 := [47, 97, 47, 47, 98, 99]

theorem strtok_r_splits_path :
    StringAt (fun j => pathBytes.getD j 0) 0 pathBytes ∧ ∃ rs : List (Option ℕ × StrtokState),
      Yields (fun n => strtokRCalls n [47] 3 (some 0) ⟨fun j => pathBytes.getD j 0, 0⟩) rs ∧
        rs.length = 3 ∧
          ∀ (i : ℕ) r, rs[i]? = some r → TokenReturned [47] pathBytes 0 r [[97], [98, 99]][i]? := by
  have h : StringAt (fun j => pathBytes.getD j 0) 0 pathBytes := by simp [pathBytes]
  refine ⟨h, ?_⟩
  have e : tokens (strchrFinds [47]) pathBytes = [[97], [98, 99]] := by decide
  rw [← e]
  exact strtok_r_splits [47] h 0 3

end

end Kabanos
