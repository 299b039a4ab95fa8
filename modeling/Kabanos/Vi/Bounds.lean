/-
  The cursor of `vi` stays in the text.

  A position is a `Spot` of a buffer if its row is a line and its column is not behind the
  terminator of this line.  The operations of the editor lead from spots to spots and access
  nothing but the text.
-/
import Kabanos.Lib.Returns
import Kabanos.Vi.Keys

namespace Kabanos.Vi

variable {k n c nc : ℕ} {P : Editor → Prop} {y x d dir : ℤ} {p : UInt8 → Bool} {b : List CStr}

/-! ## Positions -/

/-- `y` is the row of a line. -/
structure Row (b : List CStr) (y : ℤ) : Prop where
  nonneg : 0 ≤ y
  lt : y < b.length

/-- `(y, x)` is a position in the text; the end of a line is one. -/
structure Spot (b : List CStr) (y x : ℤ) : Prop where
  row : Row b y
  nonneg : 0 ≤ x
  le : ∀ s, b[y.toNat]? = some s → x ≤ s.length

/-- The buffers that can be popped are not empty, and a search goes forward. -/
structure Stored (stack : ℕ → List CStr) (top : ℕ) (dir : ℤ) : Prop where
  undo : ∀ p < top, stack (p % undoDepth) ≠ []
  dir : dir = 1

structure OnLine (e : Editor) : Prop where
  row : Row e.buf e.cy
  stored : Stored e.undoStack e.undoTop e.searchDir

/-- **The cursor is in the text.** -/
structure Inside (e : Editor) : Prop where
  spot : Spot e.buf e.cy e.cx
  stored : Stored e.undoStack e.undoTop e.searchDir

theorem Inside.onLine {e : Editor} (h : Inside e) : OnLine e := ⟨h.spot.row, h.stored⟩

section
variable {b b' : List CStr} {s t : CStr} {y x n : ℤ} {l r : List UInt8} {c : UInt8}

theorem Row.line (h : Row b y) : ∃ s, b[y.toNat]? = some s ∧ lineAt b y = some s := by
  have hn := h.nonneg
  have hl := h.lt
  have hlt : y.toNat < b.length := by omega
  refine ⟨b.get ⟨y.toNat, hlt⟩, by simp [hlt], ?_⟩
  rw [lineAt, if_neg (by omega)]
  simp [hlt]

theorem Row.of_line (hs : b[y.toNat]? = some s) (hy : 0 ≤ y) : Row b y := by
  obtain ⟨hlt, -⟩ := List.getElem?_eq_some_iff.1 hs
  exact ⟨hy, by omega⟩

theorem Spot.of_line (hs : b[y.toNat]? = some s) (hy : 0 ≤ y) (hx : 0 ≤ x) (hx' : x ≤ s.length) :
    Spot b y x := by
  refine ⟨.of_line hs hy, hx, fun t ht => ?_⟩
  obtain rfl := Option.some.inj (hs.symm.trans ht)
  exact hx'

theorem Row.zero (hb : b ≠ []) : Row b 0 := by
  have := List.length_pos_iff.2 hb
  exact ⟨le_rfl, by omega⟩

theorem Row.ne_nil (h : Row b y) : b ≠ [] := by
  have hn := h.nonneg
  have hl := h.lt
  exact List.length_pos_iff.1 (by omega)

theorem Row.spot (h : Row b y) : Spot b y 0 := by
  obtain ⟨s, hs, -⟩ := h.line
  exact .of_line hs h.nonneg le_rfl (by omega)

theorem Spot.line (h : Spot b y x) : ∃ s, b[y.toNat]? = some s ∧ lineAt b y = some s ∧
    0 ≤ y ∧ y < b.length ∧ 0 ≤ x ∧ x ≤ s.length := by
  obtain ⟨s, hs, hl⟩ := h.row.line
  exact ⟨s, hs, hl, h.row.nonneg, h.row.lt, h.nonneg, h.le s hs⟩

theorem charAt_eq (hx : 0 ≤ x) (hx' : x ≤ s.length) : charAt s x = some (s.get x.toNat) :=
  if_neg (by omega)

theorem bytesAt_eq (hx : 0 ≤ x) (hn : 0 ≤ n) (hle : x + n ≤ s.length + 1) :
    bytesAt s x n = some (((s.bytes ++ [0]).drop x.toNat).take n.toNat) :=
  if_neg (by omega)

theorem setChar_eq (hx : 0 ≤ x) (hx' : x ≤ s.length) :
    setChar s x c = some (ofBytes ((s.bytes ++ [0]).set x.toNat c)) :=
  if_neg (by omega)

theorem strFrom_eq (hx : 0 ≤ x) (hx' : x ≤ s.length) :
    strFrom s x = some (ofBytes (s.bytes.drop x.toNat)) :=
  if_neg (by omega)

theorem bufSetLine_eq (h : Row b y) (s : CStr) : bufSetLine b y s = some (b.set y.toNat s) := by
  have hn := h.nonneg
  have hl := h.lt
  exact if_neg (by omega)

theorem bufDeleteLine_eq (h : Row b y) : bufDeleteLine b y = some (b.eraseIdx y.toNat) := by
  have hn := h.nonneg
  have hl := h.lt
  exact if_neg (by omega)

theorem bufInsertLine_eq (hy : 0 ≤ y) (hle : y ≤ b.length) (s : CStr) :
    bufInsertLine b y s = some (b.insertIdx y.toNat s) :=
  if_neg (by omega)

theorem Row.getElem?_set (h : Row b y) (s : CStr) : (b.set y.toNat s)[y.toNat]? = some s := by
  have hn := h.nonneg
  have hl := h.lt
  have hlt : y.toNat < b.length := by omega
  simp [hlt]

/-! ## Strings -/

theorem le_ofBytes_length (hl : ∀ c ∈ l, c ≠ 0) : l.length ≤ (ofBytes (l ++ r)).length := by
  show l.length ≤ ((l ++ r).takeWhile (fun c => decide (c ≠ 0))).length
  rw [List.takeWhile_append_of_pos fun c hc => by simpa using hl c hc, List.length_append]
  omega

theorem mem_take_ne_zero (s : CStr) (k : ℕ) : ∀ c ∈ s.bytes.take k, c ≠ 0 :=
  fun c hc => s.nonzero c (List.mem_of_mem_take hc)

theorem take_terminated (hk : k ≤ s.length) : (s.bytes ++ [0]).take k = s.bytes.take k :=
  List.take_append_of_le_length hk

end

/-! ## Movement -/

section
variable {L : Libc} {e : Editor} {s : CStr}

theorem curLineLen_eq (h : Row e.buf e.cy) (hs : e.buf[e.cy.toNat]? = some s) :
    curLineLen e = some (s.length : ℤ) := by
  obtain ⟨t, ht, hl⟩ := h.line
  obtain rfl := Option.some.inj (hs.symm.trans ht)
  have hlt := h.lt
  rw [curLineLen, if_neg (by omega), hl]
  rfl

theorem OnLine.clampCx (h : OnLine e) : Returns (clampCx e) Inside := by
  obtain ⟨s, hs, -⟩ := h.row.line
  simp only [Vi.clampCx, curLineLen_eq h.row hs, Option.bind_eq_bind, Option.bind_some]
  refine .pure ⟨.of_line hs h.row.nonneg ?_ ?_, h.stored⟩
  · dsimp only
    split_ifs <;> omega
  · dsimp only
    split_ifs <;> omega

theorem repeatKey_returns {f : Editor → Option Editor}
    (hf : ∀ e, P e → Returns (f e) P) (n : ℕ) (h : P e) : Returns (repeatKey f n e) P := by
  induction n generalizing e with
  | zero => exact .pure h
  | succ n ih => exact (hf e h).bind fun e' he' => ih he'

theorem Inside.moveLeft (h : Inside e) : Returns (moveLeft e) Inside := by
  refine .pure ?_
  split_ifs with hx
  · have hspot : Spot e.buf e.cy (e.cx - 1) :=
      ⟨h.spot.row, by omega, fun s hs => by have := h.spot.le s hs; omega⟩
    exact ⟨hspot, h.stored⟩
  · exact h

theorem Inside.moveRight (h : Inside e) : Returns (moveRight e) Inside := by
  obtain ⟨s, hs, -⟩ := h.spot.row.line
  have hx := h.spot.nonneg
  simp only [Vi.moveRight, curLineLen_eq h.spot.row hs, Option.bind_eq_bind, Option.bind_some]
  refine .pure ?_
  generalize hm : (if (s.length : ℤ) - 1 < 0 then 0 else (s.length : ℤ) - 1) = m
  split_ifs with hlt
  · have hspot : Spot e.buf e.cy (e.cx + 1) :=
      .of_line hs h.spot.row.nonneg (by omega) (by split_ifs at hm <;> omega)
    exact ⟨hspot, h.stored⟩
  · exact h

section
variable (h : OnLine e)
include h

theorem OnLine.moveDown : Returns (moveDown e) OnLine := by
  have hn := h.row.nonneg
  refine .pure ?_
  split_ifs with hy
  · exact ⟨⟨by dsimp only; omega, by dsimp only; omega⟩, h.stored⟩
  · exact h

theorem OnLine.moveUp : Returns (moveUp e) OnLine := by
  have hl := h.row.lt
  refine .pure ?_
  split_ifs with hy
  · exact ⟨⟨by dsimp only; omega, by dsimp only; omega⟩, h.stored⟩
  · exact h

theorem OnLine.goRow (hy : 0 ≤ y) :
    Row e.buf (if e.buf.length ≤ y then (e.buf.length : ℤ) - 1 else y) := by
  have hn := h.row.nonneg
  have hl := h.row.lt
  split_ifs
  · exact ⟨by omega, by omega⟩
  · exact ⟨by omega, by omega⟩

theorem OnLine.pageDown : Returns (pageDown e) Inside := by
  have hn := h.row.nonneg
  exact OnLine.clampCx ⟨h.goRow (by simp only [screenrows]; omega), h.stored⟩

theorem OnLine.pageUp : Returns (pageUp e) Inside := by
  have hn := h.row.nonneg
  have hl := h.row.lt
  refine OnLine.clampCx ⟨?_, h.stored⟩
  dsimp only [screenrows]
  split_ifs
  · exact ⟨le_rfl, by omega⟩
  · exact ⟨by omega, by omega⟩

theorem OnLine.goToLine (rep : ℕ) : Inside (goToLine e rep) := by
  have hn := h.row.nonneg
  have hl := h.row.lt
  refine ⟨Row.spot ?_, h.stored⟩
  exact h.goRow (by split_ifs <;> omega)

end

/-! ## Words -/

theorem skipForward_returns (hx : 0 ≤ x) (hle : x ≤ s.length)
    (hn : s.length ≤ x + n) : Returns (skipForward p s n x) fun x' => 0 ≤ x' ∧ x' ≤ s.length := by
  induction n generalizing x with
  | zero =>
    rw [skipForward, if_neg (by omega)]
    exact .pure ⟨hx, hle⟩
  | succ n ih =>
    rw [skipForward]
    refine .ite (fun hlt => ?_) fun _ => .pure ⟨hx, hle⟩
    rw [charAt_eq hx hle]
    exact .ite (fun _ => ih (by omega) (by omega) (by omega)) fun _ => .pure ⟨hx, hle⟩

theorem Inside.wordForward (h : Inside e) : Returns (wordForward L e) Inside := by
  obtain ⟨s, hs, hl, hy, -, hx, hle⟩ := h.spot.line
  rw [Vi.wordForward, hl]
  refine (skipForward_returns hx hle (by omega)).bind fun x ⟨hx, hle⟩ => ?_
  refine (skipForward_returns hx hle (by omega)).bind fun x ⟨hx, hle⟩ => .pure ?_
  split_ifs with hc
  · exact ⟨Row.spot ⟨by dsimp only; omega, hc.2⟩, h.stored⟩
  · exact ⟨.of_line hs hy hx hle, h.stored⟩

theorem skipBack_returns {x : ℕ} (hd : 0 ≤ d) (hd' : d ≤ 1)
    (hx : (x : ℤ) - d ≤ s.length) : Returns (skipBack p s d x) fun x' => x' ≤ x := by
  induction x with
  | zero => exact .pure le_rfl
  | succ x ih =>
    rw [skipBack, charAt_eq (by omega) (by push_cast at hx; omega)]
    refine .ite (fun _ => ?_) fun _ => .pure le_rfl
    exact (ih (by push_cast at hx; omega)).mono fun x' hx' => by omega

theorem wordStart_returns (hx : 0 ≤ x) (hle : x ≤ s.length + 1) :
    Returns (wordStart L s x) fun x' => 0 ≤ x' ∧ x' ≤ x := by
  rw [wordStart]
  generalize hz : (if 0 < x then x - 1 else x) = z
  have hz' : 0 ≤ z ∧ z ≤ x ∧ z ≤ s.length := by
    rw [← hz]
    split_ifs <;> omega
  refine .ite (fun _ => .pure ⟨hz'.1, hz'.2.1⟩) fun _ => ?_
  refine (skipBack_returns le_rfl (by omega) (by omega)).bind fun y hy => ?_
  refine (skipBack_returns (by omega) le_rfl (by omega)).bind fun w hw => .pure ⟨by omega, by omega⟩

/-- The line before is at most one character longer, if `b` goes there. -/
def BackFit (e : Editor) : Prop :=
  e.cx = 0 → 0 < e.cy → ∀ s t, lineAt e.buf (e.cy - 1) = some s → lineAt e.buf e.cy = some t →
    s.length ≤ t.length + 1

theorem Inside.wordBack (h : Inside e) (hb : BackFit e) : Returns (wordBack L e) Inside := by
  obtain ⟨s, hs, hl, hy, hlt, hx, hle⟩ := h.spot.line
  rw [Vi.wordBack, hl]
  refine .ite (fun hc => ?_) fun _ => ?_
  · obtain ⟨t, ht, hl'⟩ := (Row.mk (b := e.buf) (y := e.cy - 1) (by omega) (by omega)).line
    have hle := hb hc.1 hc.2 t s hl' hl
    rw [hl']
    refine (wordStart_returns (by omega) (by omega)).bind fun x ⟨hx, hx'⟩ => .pure ?_
    have hspot : Spot e.buf (e.cy - 1) x := .of_line ht (by omega) hx hx'
    exact ⟨hspot, h.stored⟩
  · refine (wordStart_returns hx (by omega)).bind fun x ⟨hx, hx'⟩ => .pure ?_
    have hspot : Spot e.buf e.cy x := .of_line hs hy hx (by omega)
    exact ⟨hspot, h.stored⟩

/-! ## Undo -/

theorem Stored.push {stack : ℕ → List CStr} {top : ℕ} (h : Stored stack top dir) (hb : b ≠ []) :
    Stored (Function.update stack (top % undoDepth) b) (top + 1) dir := by
  refine ⟨fun p hp => ?_, h.dir⟩
  rw [Function.update_apply]
  split_ifs with hpt
  · exact hb
  · exact h.undo p (by
      rcases Nat.lt_succ_iff_lt_or_eq.1 hp with hp | rfl
      · exact hp
      · exact absurd rfl hpt)

theorem undoPush_returns (ht : e.undoTop + 1 < 2 ^ 31) (hp : P { e with
      undoStack := Function.update e.undoStack (e.undoTop % undoDepth) e.buf
      undoTop := e.undoTop + 1 }) : Returns (undoPush e) P := by
  rw [undoPush, if_neg (by omega)]
  exact .pure hp

theorem Inside.push (h : Inside e) (ht : e.undoTop + 1 < 2 ^ 31) :
    Returns (undoPush e) fun e' => Inside e' ∧ e'.buf = e.buf ∧ e'.cy = e.cy ∧ e'.cx = e.cx ∧
      e'.yankLine = e.yankLine :=
  undoPush_returns ht ⟨⟨h.spot, h.stored.push h.spot.row.ne_nil⟩, rfl, rfl, rfl, rfl⟩

theorem OnLine.undoPop (h : OnLine e) : OnLine (undoPop e) := by
  rw [Vi.undoPop]
  split_ifs with ht
  · exact ⟨h.row, h.stored⟩
  · have hne := h.stored.undo (e.undoTop - 1) (by omega)
    have hpos := List.length_pos_iff.2 hne
    have hy := h.row.nonneg
    refine ⟨?_, ⟨fun p hp => h.stored.undo p (by dsimp only at hp; omega), h.stored.dir⟩⟩
    dsimp only
    split_ifs
    · exact ⟨le_rfl, by omega⟩
    · exact ⟨by omega, by omega⟩
    · exact ⟨le_rfl, by omega⟩
    · exact ⟨by omega, by omega⟩

/-! ## Editing -/

theorem row_set (h : Row b y) (s : CStr) : Row (b.set k s) y :=
  ⟨h.nonneg, by rw [List.length_set]; exact h.lt⟩

theorem length_insertIdx_row (hy : 0 ≤ y) (hle : y ≤ b.length) (s : CStr) :
    (b.insertIdx y.toNat s).length = b.length + 1 :=
  List.length_insertIdx_of_le_length (by omega) _

theorem length_eraseIdx_row (h : Row b y) : (b.eraseIdx y.toNat).length = b.length - 1 := by
  have hn := h.nonneg
  have hl := h.lt
  exact List.length_eraseIdx_of_lt (by omega)

theorem getElem?_eraseIdx_row {z : ℤ} (hy : 0 ≤ y) (hz : y < z) :
    (b.eraseIdx z.toNat)[y.toNat]? = b[y.toNat]? :=
  List.getElem?_eraseIdx_of_lt (by omega)

theorem Inside.insertChar (h : Inside e) (hc : UInt8.ofNat c ≠ 0) :
    Returns (insertChar e c) Inside := by
  obtain ⟨s, hs, hl, hy, hlt, hx, hle⟩ := h.spot.line
  have hcx : (if (s.length : ℤ) < e.cx then (s.length : ℤ) else e.cx) = e.cx := if_neg (by omega)
  have hfirst : bytesAt s 0 e.cx = some _ := bytesAt_eq le_rfl hx (by omega)
  have hrest : bytesAt s e.cx (s.length - e.cx) = some _ := bytesAt_eq hx (by omega) (by omega)
  simp only [Vi.insertChar, if_neg (not_le.2 hlt), hl, hcx, Option.bind_eq_bind, Option.bind_some,
    hfirst, hrest, bufSetLine_eq h.spot.row]
  refine .pure ⟨.of_line (h.spot.row.getElem?_set _) hy (by dsimp only; omega) ?_, h.stored⟩
  -- the new line begins with the characters before the cursor and the new one
  have hnz : ∀ d ∈ s.bytes.take e.cx.toNat ++ [UInt8.ofNat c], d ≠ 0 := by
    intro d hd
    rcases List.mem_append.1 hd with hd | hd
    · exact mem_take_ne_zero s _ d hd
    · rw [List.mem_singleton.1 hd]
      exact hc
  have hlen := le_ofBytes_length (r := List.take ((s.length : ℤ) - e.cx).toNat
    (List.drop e.cx.toNat (s.bytes ++ [0])) ++ [0]) hnz
  have htake : (s.bytes.take e.cx.toNat).length = e.cx.toNat := by
    rw [List.length_take]
    rw [CStr.length] at hle
    omega
  rw [List.length_append, htake, List.length_singleton, ← List.append_assoc] at hlen
  rw [Int.toNat_zero, List.drop_zero, take_terminated (by omega)]
  dsimp only
  omega

theorem Inside.insertNewline (h : Inside e) : Returns (insertNewline e) Inside := by
  obtain ⟨s, hs, hl, hy, hlt, hx, hle⟩ := h.spot.line
  have hins : e.cy + 1 ≤ ((e.buf.set e.cy.toNat (ofBytes (List.take e.cx.toNat
      (List.drop (0 : ℤ).toNat (s.bytes ++ [0]))))).length : ℤ) := by
    rw [List.length_set]
    omega
  have hfirst : bytesAt s 0 e.cx = some _ := bytesAt_eq le_rfl hx (by omega)
  simp only [Vi.insertNewline, hl, Option.bind_eq_bind, Option.bind_some, strFrom_eq hx hle,
    hfirst, bufSetLine_eq h.spot.row, bufInsertLine_eq (show 0 ≤ e.cy + 1 by omega) hins]
  refine .pure ⟨Row.spot ⟨by dsimp only; omega, ?_⟩, h.stored⟩
  dsimp only
  rw [length_insertIdx_row (by omega) hins, List.length_set]
  omega

theorem length_strcat (s t : CStr) : (strcat s t).length = s.length + t.length := by
  have hnz : ∀ c ∈ s.bytes ++ t.bytes, c ≠ 0 := by
    intro c hc
    rcases List.mem_append.1 hc with hc | hc
    · exact s.nonzero c hc
    · exact t.nonzero c hc
  have hkeep : (ofBytes (s.bytes ++ t.bytes)).bytes = s.bytes ++ t.bytes :=
    List.takeWhile_eq_self_iff.2 fun c hc => by simpa using hnz c hc
  rw [strcat, CStr.length, hkeep, List.length_append]
  rfl

theorem Inside.deleteCharAtCursor (h : Inside e) : Returns (deleteCharAtCursor e) Inside := by
  obtain ⟨s, hs, hl, hy, hlt, hx, hle⟩ := h.spot.line
  rw [Vi.deleteCharAtCursor, if_neg (not_le.2 hlt), hl]
  refine .ite (fun hend => .ite (fun hnext => ?_) fun _ => .pure h) fun hin => ?_
  · have hrow : Row e.buf (e.cy + 1) := ⟨by omega, hnext⟩
    obtain ⟨t, ht, hl'⟩ := hrow.line
    simp only [hl', bufSetLine_eq h.spot.row, bufDeleteLine_eq (row_set hrow _),
      Option.bind_eq_bind, Option.bind_some]
    refine .pure ⟨.of_line (s := strcat s t) ?_ hy hx ?_, h.stored⟩
    · dsimp only
      rw [getElem?_eraseIdx_row hy (by omega), h.spot.row.getElem?_set]
    · rw [length_strcat]
      dsimp only
      omega
  · have hmoved : bytesAt s (e.cx + 1) (s.length - e.cx) = some _ :=
      bytesAt_eq (by omega) (by omega) (by omega)
    have hdest : bytesAt s e.cx (s.length - e.cx) = some _ := bytesAt_eq hx (by omega) (by omega)
    simp only [hmoved, hdest, bufSetLine_eq h.spot.row, Option.bind_eq_bind, Option.bind_some]
    refine .pure ⟨.of_line (h.spot.row.getElem?_set _) hy hx ?_, h.stored⟩
    have hlen := le_ofBytes_length (r := List.take ((s.length : ℤ) - e.cx).toNat
      (List.drop (e.cx + 1).toNat (s.bytes ++ [0]))) (mem_take_ne_zero s e.cx.toNat)
    rw [List.length_take] at hlen
    rw [CStr.length] at hle
    dsimp only
    omega

theorem Inside.backspace (h : Inside e) : Returns (backspace e) Inside := by
  obtain ⟨s, hs, hl, hy, hlt, hx, hle⟩ := h.spot.line
  rw [Vi.backspace]
  refine .ite (fun _ => .pure h) fun h0 => .ite (fun hpos => ?_) fun hz => ?_
  · have hmoved : bytesAt s e.cx (s.length - e.cx + 1) = some _ :=
      bytesAt_eq hx (by omega) (by omega)
    have hdest : bytesAt s (e.cx - 1) (s.length - e.cx + 1) = some _ :=
      bytesAt_eq (by omega) (by omega) (by omega)
    simp only [hl, hmoved, hdest, bufSetLine_eq h.spot.row, Option.bind_eq_bind, Option.bind_some]
    refine .pure ⟨.of_line (h.spot.row.getElem?_set _) hy (by dsimp only; omega) ?_, h.stored⟩
    have hlen := le_ofBytes_length (r := List.take ((s.length : ℤ) - e.cx + 1).toNat
      (List.drop e.cx.toNat (s.bytes ++ [0]))) (mem_take_ne_zero s (e.cx - 1).toNat)
    rw [List.length_take] at hlen
    rw [CStr.length] at hle
    dsimp only
    omega
  · have hrow : Row e.buf (e.cy - 1) := ⟨by omega, by omega⟩
    obtain ⟨t, ht, hl'⟩ := hrow.line
    simp only [hl', hl, bufSetLine_eq hrow, bufDeleteLine_eq (row_set h.spot.row _),
      Option.bind_eq_bind, Option.bind_some]
    refine .pure ⟨.of_line (s := strcat t s) ?_ (by dsimp only; omega) (by dsimp only; omega) ?_,
      h.stored⟩
    · dsimp only
      rw [getElem?_eraseIdx_row (by omega) (by omega), hrow.getElem?_set]
    · rw [length_strcat]
      dsimp only
      omega

/-! ## Lines -/

theorem OnLine.insertLine (h : OnLine e) (hd : 0 ≤ d) (hd' : d ≤ 1) (s : CStr) :
    Returns (bufInsertLine e.buf (e.cy + d) s) fun b => Row b (e.cy + d) := by
  have hy := h.row.nonneg
  have hlt := h.row.lt
  rw [bufInsertLine_eq (by omega) (by omega)]
  refine .pure ⟨by omega, ?_⟩
  rw [length_insertIdx_row (by omega) (by omega)]
  omega

theorem Inside.yank (h : Inside e) : Returns (yank e) OnLine := by
  obtain ⟨s, -, hl⟩ := h.spot.row.line
  rw [Vi.yank, hl]
  exact .pure ⟨h.spot.row, h.stored⟩

section
variable (h : Inside e) (ht : e.undoTop + 1 < 2 ^ 31)
include h ht

theorem Inside.openBelow : Returns (openBelow e) OnLine := by
  refine (h.push ht).bind fun e' ⟨h', _⟩ => ?_
  obtain ⟨s, hs, -⟩ := h'.spot.row.line
  rw [curLineLen_eq h'.spot.row hs]
  exact (h'.onLine.insertLine (by omega) le_rfl _).bind fun b hb => .pure ⟨hb, h'.stored⟩

theorem Inside.openAbove : Returns (openAbove e) OnLine := by
  refine (h.push ht).bind fun e' ⟨h', _⟩ => ?_
  have hins := h'.onLine.insertLine le_rfl (by omega) (ofBytes [])
  rw [Int.add_zero] at hins
  exact hins.bind fun b hb => .pure ⟨hb, h'.stored⟩

theorem Inside.paste (hd : 0 ≤ d) (hd' : d ≤ 1) : Returns (paste d e) OnLine := by
  rw [Vi.paste]
  cases e.yankLine with
  | none => exact .pure h.onLine
  | some line =>
    refine (h.push ht).bind fun e' ⟨h', _⟩ => ?_
    exact (h'.onLine.insertLine hd hd' line).bind fun b hb => .pure ⟨hb, h'.stored⟩

omit h ht in
theorem ensureLine_returns (b : List CStr) : Returns (ensureLine b) fun b' => b' ≠ [] := by
  refine .ite (fun _ => ?_) fun hz => .pure (List.length_pos_iff.1 (by omega))
  rw [bufInsertLine_eq le_rfl (by omega)]
  exact .pure (List.length_pos_iff.1 (by rw [length_insertIdx_row le_rfl (by omega)]; omega))

omit h ht in
theorem OnLine.deleteLine (h : OnLine e) : Returns (deleteLine e) OnLine := by
  obtain ⟨s, -, hl⟩ := h.row.line
  have hy := h.row.nonneg
  rw [Vi.deleteLine, hl, bufDeleteLine_eq h.row]
  refine (ensureLine_returns _).bind fun b hb => .pure ⟨?_, h.stored⟩
  have hpos := List.length_pos_iff.2 hb
  dsimp only
  split_ifs
  · exact ⟨by omega, by omega⟩
  · exact ⟨hy, by omega⟩

theorem Inside.deleteLines (rep : ℕ) : Returns (deleteLines e rep) OnLine := by
  refine (h.push ht).bind fun e' ⟨h', _⟩ => ?_
  refine (repeatKey_returns (fun _ h => OnLine.deleteLine h) rep h'.onLine).bind fun e'' h'' => ?_
  exact .pure ⟨h''.row, h''.stored⟩

theorem Inside.deleteToEnd : Returns (deleteToEnd e) OnLine := by
  refine (h.push ht).bind fun e' ⟨h', _⟩ => ?_
  obtain ⟨s, -, hl, -, -, hx, hle⟩ := h'.spot.line
  simp only [hl, setChar_eq hx hle, bufSetLine_eq h'.spot.row, Option.bind_eq_bind,
    Option.bind_some]
  exact .pure ⟨row_set h'.spot.row _, h'.stored⟩

theorem Inside.replaceChar (nc : ℕ) : Returns (replaceChar e nc) OnLine := by
  refine .ite (fun _ => .pure h.onLine) fun _ => ?_
  refine (h.push ht).bind fun e' ⟨h', _⟩ => ?_
  obtain ⟨s, -, hl, -, -, hx, hle⟩ := h'.spot.line
  rw [hl]
  refine .ite (fun _ => ?_) fun _ => .pure h'.onLine
  simp only [setChar_eq hx hle, bufSetLine_eq h'.spot.row, Option.bind_eq_bind, Option.bind_some]
  exact .pure ⟨row_set h'.spot.row _, h'.stored⟩

theorem Inside.toggleCase : Returns (toggleCase L e) OnLine := by
  obtain ⟨s, hs, hl⟩ := h.spot.row.line
  rw [Vi.toggleCase, hl]
  refine .ite (fun _ => ?_) fun _ => .pure h.onLine
  refine (h.push ht).bind fun e' ⟨h', hb, hcy, _⟩ => ?_
  have hs' : e'.buf[e'.cy.toNat]? = some s := by rw [hb, hcy, hs]
  have hle := h'.spot.le s hs'
  simp only [charAt_eq h'.spot.nonneg hle, setChar_eq h'.spot.nonneg hle,
    bufSetLine_eq h'.spot.row, Option.bind_eq_bind, Option.bind_some]
  exact .pure ⟨row_set h'.spot.row _, h'.stored⟩

theorem Inside.joinLines : Returns (joinLines e) OnLine := by
  refine .ite (fun hnext => ?_) fun _ => .pure h.onLine
  refine (h.push ht).bind fun e' ⟨h', hb, hcy, _⟩ => ?_
  rw [← hb, ← hcy] at hnext
  have hrow : Row e'.buf (e'.cy + 1) := ⟨by have := h'.spot.row.nonneg; omega, hnext⟩
  obtain ⟨s, hs, hl⟩ := h'.spot.row.line
  obtain ⟨t, ht, hl'⟩ := hrow.line
  simp only [hl, hl', bufSetLine_eq h'.spot.row, bufDeleteLine_eq (row_set hrow _),
    Option.bind_eq_bind, Option.bind_some]
  refine .pure ⟨⟨h'.spot.row.nonneg, ?_⟩, h'.stored⟩
  dsimp only
  rw [length_eraseIdx_row (row_set hrow _), List.length_set]
  omega

end

/-! ## Search, files and commands -/

theorem strstr_le {s t : CStr} {p : ℕ} (h : strstr s t = some p) : p ≤ s.length := by
  have := List.mem_range.1 (List.mem_of_find?_eq_some h)
  omega

theorem search_row {count : ℕ} {i : ℕ} (hy : 0 ≤ y) (hlt : y < count)
    (hdir : dir = 1 ∨ dir = -1) (hi : i < count) :
    0 ≤ (y + dir * (i + 1) + count * 10).tmod count ∧
      (y + dir * (i + 1) + count * 10).tmod count < count := by
  have hnn : 0 ≤ y + dir * (i + 1) + count * 10 := by
    rcases hdir with rfl | rfl <;> omega
  exact ⟨Int.tmod_nonneg _ hnn, Int.tmod_lt_of_pos _ (by omega)⟩

theorem Inside.searchRows (h : Inside e) (hdir : dir = 1 ∨ dir = -1) (is : List ℕ)
    (his : ∀ i ∈ is, i < e.buf.length) : Returns (searchRows e dir is) Inside := by
  induction is with
  | nil => exact .pure ⟨h.spot, h.stored⟩
  | cons i is ih =>
    obtain ⟨h0, h1⟩ := search_row h.spot.row.nonneg h.spot.row.lt hdir (his i List.mem_cons_self)
    obtain ⟨s, hs, hl⟩ := (Row.mk h0 h1).line
    rw [Vi.searchRows, hl]
    simp only [Option.bind_eq_bind, Option.bind_some]
    cases hp : strstr s e.search with
    | none => exact ih fun j hj => his j (List.mem_cons_of_mem _ hj)
    | some p =>
      have hle := strstr_le hp
      have hspot : Spot e.buf ((e.cy + dir * (i + 1) + e.buf.length * 10).tmod e.buf.length) p :=
        .of_line hs h0 (by omega) (by omega)
      exact .pure ⟨hspot, h.stored⟩

theorem Inside.doSearch (h : Inside e) (hdir : dir = 1 ∨ dir = -1) :
    Returns (doSearch e dir) Inside :=
  .ite (fun _ => .pure h) fun _ => h.searchRows hdir _ fun _ hi => List.mem_range.1 hi

theorem fileOpen_returns (e : Editor) (fname : CStr) (file : Option (List CStr)) :
    Returns (fileOpen e fname file) fun e' => e'.buf ≠ [] ∧ e'.undoStack = e.undoStack ∧
      e'.undoTop = e.undoTop ∧ e'.searchDir = e.searchDir ∧ e'.cx = e.cx ∧ e'.cy = e.cy := by
  cases file with
  | none =>
    simp only [fileOpen, bufInsertLine_eq le_rfl (Int.natCast_nonneg _), Option.bind_eq_bind,
      Option.bind_some]
    refine .pure ⟨List.length_pos_iff.1 ?_, rfl, rfl, rfl, rfl, rfl⟩
    dsimp only
    rw [length_insertIdx_row le_rfl (by omega)]
    omega
  | some lines =>
    have hread : ∀ b : List CStr, Returns (lines.foldlM (fun b l =>
        bufInsertLine b b.length (stripLine l)) b) fun _ => True := by
      induction lines with
      | nil => exact fun b => .pure trivial
      | cons l lines ih =>
        intro b
        rw [List.foldlM_cons, bufInsertLine_eq (Int.natCast_nonneg _) le_rfl]
        exact ih _
    refine (hread e.buf).bind fun b _ => (ensureLine_returns b).bind fun b' hb' => ?_
    exact .pure ⟨hb', rfl, rfl, rfl, rfl, rfl⟩

theorem fileSave_inside (h : Inside e) (writable : Bool) : Inside (fileSave e writable).1 := by
  rw [fileSave]
  split_ifs <;> exact ⟨h.spot, h.stored⟩

/-- The editor has ended, or its cursor is in the text. -/
def Outcome.Inside : Outcome → Prop
  | .running e => Vi.Inside e
  | .exit => True

theorem Inside.execCommand (h : Inside e) (i : Input) :
    Returns (execCommand L e i) Outcome.Inside := by
  have hm : Inside { e with mode := .normal } := ⟨h.spot, h.stored⟩
  rw [Vi.execCommand]
  refine .ite (fun _ => ?_) fun _ => .ite (fun _ => .pure trivial) fun _ => .ite (fun _ => ?_)
    fun _ => .ite (fun _ => ?_) fun _ => .ite (fun _ => ?_) fun _ => .ite (fun _ => ?_)
    fun _ => .ite (fun _ => ?_) fun _ => .ite (fun hpos => ?_) fun _ => ?_
  · refine .pure ?_
    split_ifs
    · exact ⟨h.spot, h.stored⟩
    · exact trivial
  · refine .pure ?_
    split_ifs
    · exact trivial
    · exact fileSave_inside hm i.writable
  · have hw : Inside { e with
        mode := .normal
        filename := ofBytes (((ofBytes e.cmdbuf).bytes.drop 2).take 255) } := ⟨h.spot, h.stored⟩
    exact .pure (fileSave_inside hw i.writable)
  · exact .pure (fileSave_inside hm i.writable)
  · refine (fileOpen_returns _ _ i.file).bind fun e' ⟨hne, hs, ht, hd, _⟩ => .pure ?_
    have hst : Stored e'.undoStack e'.undoTop e'.searchDir := by
      rw [hs, ht, hd]
      exact h.stored
    exact ⟨(Row.zero hne).spot, hst⟩
  · have hs : Inside { e with
        mode := .normal
        search := ofBytes (((ofBytes e.cmdbuf).bytes.drop 1).take 255)
        searchDir := 1 } := ⟨h.spot, ⟨h.stored.undo, rfl⟩⟩
    exact (hs.doSearch (.inl rfl)).bind fun e' h' => .pure h'
  · refine .pure ⟨Row.spot ?_, h.stored⟩
    exact h.onLine.goRow (by omega)
  · exact .pure ⟨h.spot, h.stored⟩

end

/-! ## Keys -/

/-- Each of `n` repetitions of `b` fits. -/
def BackFits (L : Libc) : ℕ → Editor → Prop
  | 0, _ => True
  | n + 1, e => BackFit e ∧ ∀ e', wordBack L e = some e' → BackFits L n e'

/-- The condition on a key: `E.undo_top` is not the largest `int`, and `b` fits. -/
structure Fits (L : Libc) (e : Editor) (i : Input) : Prop where
  undo : e.undoTop + 1 < 2 ^ 31
  back : e.mode = .normal → i.key.code = 'b'.toNat → BackFits L e.rep { e with countBuf := 0 }

section
variable {L : Libc} {e : Editor}

theorem Inside.wordBacks (h : Inside e) (hb : BackFits L n e) :
    Returns (repeatKey (Vi.wordBack L) n e) Inside := by
  induction n generalizing e with
  | zero => exact .pure h
  | succ n ih =>
    obtain ⟨e', he', h'⟩ := h.wordBack (L := L) hb.1
    rw [repeatKey, he']
    exact ih h' (hb.2 e' he')

theorem Inside.normalReturns (h : Inside e) {e' : Editor}
    (he : normalReturns e c = some e') : Inside e' := by
  rw [Vi.normalReturns] at he
  split_ifs at he
  · rw [← Option.some.inj he]
    exact ⟨(Row.zero h.spot.row.ne_nil).spot, h.stored⟩
  all_goals
    rw [← Option.some.inj he]
    exact ⟨h.spot, h.stored⟩

/-- **A key of normal mode** leaves the cursor on a line. -/
theorem Inside.normalCommand (h : Inside e) (ht : e.undoTop + 1 < 2 ^ 31) {rep : ℕ}
    (hb : c = 'b'.toNat → BackFits L rep e) : Returns (normalCommand L e c nc rep) OnLine := by
  obtain ⟨s, hs, -⟩ := h.spot.row.line
  have hlen := curLineLen_eq h.spot.row hs
  have hon := h.onLine
  have hin : ∀ {r : Option Editor}, Returns r Inside → Returns r OnLine :=
    fun hr => hr.mono fun _ => Inside.onLine
  rw [Vi.normalCommand, hlen]
  -- one branch for each command, in the order of the source
  refine .ite (fun _ => hin (repeatKey_returns (fun _ h => h.moveLeft) rep h)) fun _ => ?_
  refine .ite (fun _ => hin (repeatKey_returns (fun _ h => h.moveRight) rep h)) fun _ => ?_
  refine .ite (fun _ => hin ((repeatKey_returns (fun _ h => h.moveDown) rep hon).bind
    fun _ h => h.clampCx)) fun _ => ?_
  refine .ite (fun _ => hin ((repeatKey_returns (fun _ h => h.moveUp) rep hon).bind
    fun _ h => h.clampCx)) fun _ => ?_
  refine .ite (fun _ => .pure ⟨h.spot.row, h.stored⟩) fun _ => ?_
  refine .ite (fun _ => .pure ⟨h.spot.row, h.stored⟩) fun _ => ?_
  refine .ite (fun _ => hin ((repeatKey_returns (fun _ h => h.wordForward) rep h).bind
    fun _ h => h.onLine.clampCx)) fun _ => ?_
  refine .ite (fun hc => hin (h.wordBacks (hb hc))) fun _ => ?_
  refine .ite (fun _ => .pure (hon.goToLine rep).onLine) fun _ => ?_
  refine .ite (fun _ => hin hon.pageDown) fun _ => ?_
  refine .ite (fun _ => hin hon.pageUp) fun _ => ?_
  refine .ite (fun _ => .pure ⟨h.spot.row, h.stored⟩) fun _ => ?_
  refine .ite (fun _ => .pure ⟨h.spot.row, h.stored⟩) fun _ => ?_
  refine .ite (fun _ => .pure ⟨h.spot.row, h.stored⟩) fun _ => ?_
  refine .ite (fun _ => .pure ⟨h.spot.row, h.stored⟩) fun _ => ?_
  refine .ite (fun _ => h.openBelow ht) fun _ => ?_
  refine .ite (fun _ => h.openAbove ht) fun _ => ?_
  refine .ite (fun _ => hin (((h.push ht).bind fun _ h => repeatKey_returns
    (fun _ h => h.deleteCharAtCursor) rep h.1).bind fun _ h => h.onLine.clampCx)) fun _ => ?_
  refine .ite (fun _ => h.deleteLines ht rep) fun _ => ?_
  refine .ite (fun _ => h.deleteToEnd ht) fun _ => ?_
  refine .ite (fun _ => h.yank) fun _ => ?_
  refine .ite (fun _ => h.paste ht (by decide) (by decide)) fun _ => ?_
  refine .ite (fun _ => h.paste ht (by decide) (by decide)) fun _ => ?_
  refine .ite (fun _ => .pure hon.undoPop) fun _ => ?_
  refine .ite (fun _ => h.replaceChar ht nc) fun _ => ?_
  refine .ite (fun _ => h.toggleCase ht) fun _ => ?_
  refine .ite (fun _ => hin (h.doSearch (.inl h.stored.dir))) fun _ => ?_
  refine .ite (fun _ => hin (h.doSearch (.inr (by rw [h.stored.dir])))) fun _ => ?_
  refine .ite (fun _ => hin hon.pageDown) fun _ => ?_
  refine .ite (fun _ => hin hon.pageUp) fun _ => ?_
  exact .ite (fun _ => h.joinLines ht) fun _ => .pure hon

theorem Inside.normalKey (h : Inside e) (ht : e.undoTop + 1 < 2 ^ 31)
    (hb : c = 'b'.toNat → BackFits L e.rep { e with countBuf := 0 }) :
    Returns (normalKey L e c nc) Inside := by
  have hz : Inside { e with countBuf := 0 } := ⟨h.spot, h.stored⟩
  rw [Vi.normalKey]
  refine .ite (fun _ => .pure ⟨h.spot, h.stored⟩) fun _ =>
    .ite (fun _ => .pure ⟨h.spot, h.stored⟩) fun _ => ?_
  dsimp only
  cases hr : Vi.normalReturns { e with countBuf := 0 } c with
  | some e' => exact .pure (hz.normalReturns hr)
  | none =>
    refine (hz.normalCommand ht hb).bind fun e' h' => ?_
    exact OnLine.clampCx ⟨h'.row, h'.stored⟩

theorem key_char_ne_zero (k : Key) (hc : L.iscntrl k.code = false) : UInt8.ofNat k.code ≠ 0 := by
  have h0 : k.code ≠ 0 := fun h => by
    rw [h, L.iscntrl_zero] at hc
    cases hc
  have hv := k.valid
  intro hz
  have hz' := congrArg UInt8.toNat hz
  rw [UInt8.toNat_ofNat'] at hz'
  simp at hz'
  omega

/-- **A key of insert mode** leaves the cursor in the text. -/
theorem Inside.insertKey (h : Inside e) (ht : e.undoTop + 1 < 2 ^ 31) (k : Key) :
    Returns (insertKey L e k.code) Inside := by
  obtain ⟨s, hs, -, hy, hlt, hx, hle⟩ := h.spot.line
  have hlen := curLineLen_eq h.spot.row hs
  rw [Vi.insertKey, hlen]
  refine .ite (fun _ => OnLine.clampCx ⟨h.spot.row, h.stored⟩) fun _ => ?_
  refine .ite (fun _ => h.backspace) fun _ => .ite (fun _ => h.deleteCharAtCursor) fun _ => ?_
  refine .ite (fun _ => (h.push ht).bind fun _ h => h.1.insertNewline) fun _ => ?_
  refine .ite (fun _ => OnLine.clampCx ⟨?_, h.stored⟩) fun _ => ?_
  · dsimp only
    split_ifs
    · exact ⟨le_rfl, by omega⟩
    · exact ⟨by omega, by omega⟩
  refine .ite (fun _ => OnLine.clampCx ⟨h.onLine.goRow (by omega), h.stored⟩) fun _ => ?_
  refine .ite (fun _ => .pure ⟨.of_line hs hy ?_ ?_, h.stored⟩) fun _ => ?_
  · dsimp only
    split_ifs <;> omega
  · dsimp only
    split_ifs <;> omega
  refine .ite (fun _ => .pure ⟨.of_line hs hy ?_ ?_, h.stored⟩) fun _ => ?_
  · dsimp only
    split_ifs <;> omega
  · dsimp only
    split_ifs <;> omega
  refine .ite (fun _ => .pure ⟨h.spot.row.spot, h.stored⟩) fun _ => ?_
  refine .ite (fun _ => .pure ⟨.of_line hs hy (by dsimp only; omega) le_rfl, h.stored⟩) fun _ => ?_
  refine .ite (fun hc => ?_) fun _ => .pure h
  have hpush : Returns (pushOnEmptyLine e) Inside := by
    rw [pushOnEmptyLine, hlen]
    exact .ite (fun _ => .ite (fun _ => (h.push ht).mono fun _ h => h.1) fun _ => .pure h)
      fun _ => .pure h
  exact hpush.bind fun e' h' => h'.insertChar (key_char_ne_zero k (by simpa using hc))

theorem Inside.commandKey (h : Inside e) (i : Input) :
    Returns (commandKey L e i) Outcome.Inside := by
  rw [Vi.commandKey]
  refine .ite (fun _ => .pure ⟨h.spot, h.stored⟩) fun _ => ?_
  refine .ite (fun _ => h.execCommand i) fun _ => ?_
  refine .ite (fun _ => .pure ⟨h.spot, h.stored⟩) fun _ => ?_
  exact .ite (fun _ => .pure ⟨h.spot, h.stored⟩) fun _ => .pure h

/-- **A key** that fits leaves the cursor in the text. -/
theorem Inside.processKey (h : Inside e) {i : Input} (hf : Fits L e i) :
    Returns (processKey L e i) Outcome.Inside := by
  rw [Vi.processKey]
  cases hm : e.mode with
  | normal =>
    refine .ite (fun _ => .pure ⟨h.spot, h.stored⟩) fun _ => ?_
    exact (h.normalKey hf.undo (hf.back hm)).map fun _ h => h
  | insert => exact (h.insertKey hf.undo i.key).map fun _ h => h
  | command => exact h.commandKey i

theorem start_returns (fname : Option CStr) (file : Option (List CStr)) :
    Returns (start fname file) Inside := by
  have hstored : Stored (fun _ => []) 0 1 := ⟨fun p hp => absurd hp (by omega), rfl⟩
  cases fname with
  | some fname =>
    refine (fileOpen_returns _ fname file).map fun e ⟨hne, hs, ht, hd, hx, hy⟩ => ?_
    have hspot : Spot e.buf e.cy e.cx := by
      rw [hx, hy]
      exact (Row.zero hne).spot
    have hst : Stored e.undoStack e.undoTop e.searchDir := by
      rw [hs, ht, hd]
      exact hstored
    exact ⟨hspot, hst⟩
  | none => exact .pure ⟨(Row.zero (List.cons_ne_nil _ _)).spot, hstored⟩

end

/-! ## Runs -/

/-- `process_key`, until the editor has ended -/
def Outcome.step (L : Libc) : Outcome → Input → Option Outcome
  | .running e, i => processKey L e i
  | .exit, _ => some .exit

def runKeys (L : Libc) (o : Outcome) (is : List Input) : Option Outcome :=
  is.foldlM (Outcome.step L) o

/-- Every key fits where it is pressed. -/
def AllFit (L : Libc) : Outcome → List Input → Prop
  | .running e, i :: is => Fits L e i ∧ ∀ o, processKey L e i = some o → AllFit L o is
  | _, _ => True

theorem runKeys_inside {L : Libc} {o : Outcome} (h : o.Inside) {is : List Input}
    (hf : AllFit L o is) : Returns (runKeys L o is) Outcome.Inside := by
  induction is generalizing o with
  | nil => exact .pure h
  | cons i is ih =>
    rw [runKeys, List.foldlM_cons]
    cases o with
    | exit => exact ih (o := .exit) trivial (by cases is <;> trivial)
    | running e =>
      obtain ⟨o', he, h'⟩ := Inside.processKey h hf.1
      rw [Outcome.step, he]
      exact ih h' (hf.2 o' he)

/-- **The cursor of `vi` stays in the text**, for every file and every keys that fit: no key
    accesses a line or a character out of bounds, and after the keys the row of the cursor is that
    of a line and its column at most the end of this line. -/
theorem vi_cursor_in_text (L : Libc) (fname : Option CStr) (file : Option (List CStr))
    (is : List Input) (hf : ∀ e, start fname file = some e → AllFit L (.running e) is) :
    ∃ e o, start fname file = some e ∧ runKeys L (.running e) is = some o ∧
      ∀ e', o = .running e' → 0 ≤ e'.cy ∧ e'.cy < e'.buf.length ∧ 0 ≤ e'.cx ∧
        ∀ s, lineAt e'.buf e'.cy = some s → e'.cx ≤ s.length := by
  obtain ⟨e, he, h⟩ := start_returns fname file
  obtain ⟨o, ho, h'⟩ := runKeys_inside (o := .running e) h (hf e he)
  refine ⟨e, o, he, ho, fun e' heq => ?_⟩
  subst heq
  have hspot : Spot e'.buf e'.cy e'.cx := h'.spot
  refine ⟨hspot.row.nonneg, hspot.row.lt, hspot.nonneg, fun s hs => hspot.le s ?_⟩
  rwa [lineAt, if_neg (not_lt.2 hspot.row.nonneg)] at hs

/-- The functions of the C library on ASCII characters. -/
def asciiLibc : Libc where
  isspace c := c == 32 || (9 ≤ c && c ≤ 13)
  isupper c := 65 ≤ c && c ≤ 90
  tolower c := if 65 ≤ c ∧ c ≤ 90 then c + 32 else c
  toupper c := if 97 ≤ c ∧ c ≤ 122 then c - 32 else c
  iscntrl c := c < 32 || c == 127
  atoi s := s.bytes.foldl (fun n c => n * 10 + ((c.toNat : ℤ) - 48)) 0
  iscntrl_zero := rfl

/-- A key, and nothing else from outside. -/
def demoKey (c : Char) (h : c.toNat < 256) : Input :=
  ⟨⟨c.toNat, .inl h⟩, ⟨27, by simp⟩, none, false⟩

/-- In the second line, `b` goes to the line above, which is not longer. -/
theorem vi_cursor_in_text_back :
    ∃ e o, start (some (ofBytes (text "f"))) (some [ofBytes (text "ab"), ofBytes (text "cde")])
        = some e ∧
      runKeys asciiLibc (.running e) [demoKey 'j' (by decide), demoKey 'b' (by decide)] = some o ∧
      ∀ e', o = .running e' → 0 ≤ e'.cx ∧ ∀ s, lineAt e'.buf e'.cy = some s → e'.cx ≤ s.length := by
  obtain ⟨e, o, he, ho, h⟩ := vi_cursor_in_text asciiLibc (some (ofBytes (text "f")))
    (some [ofBytes (text "ab"), ofBytes (text "cde")])
    [demoKey 'j' (by decide), demoKey 'b' (by decide)] fun e he => by
      cases he
      refine ⟨⟨by decide, fun _ h => absurd h (by decide)⟩, fun o ho => ?_⟩
      cases ho
      refine ⟨⟨by decide, fun _ _ => ⟨fun _ _ s t hs ht => ?_, fun _ _ => trivial⟩⟩,
        fun o _ => by cases o <;> trivial⟩
      cases hs
      cases ht
      decide
  exact ⟨e, o, he, ho, fun e' heq => (h e' heq).2.2⟩

theorem vi_word_back_overruns :
    ((start (some (ofBytes (text "f"))) (some [ofBytes (text "abc"), ofBytes []])).map fun e =>
      (runKeys asciiLibc (.running e)
        [demoKey 'j' (by decide), demoKey 'b' (by decide)]).isNone) = some true := by
  decide +kernel

end Kabanos.Vi
