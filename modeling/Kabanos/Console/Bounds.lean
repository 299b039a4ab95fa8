/-
  The console stays on the screen: whatever is written to it, every call returns, the cursor stays
  on the screen, and so does every access to the VGA buffer.
-/
import Kabanos.Console.Console

namespace Kabanos

def OnScreen (x y : ℤ) : Prop := 0 ≤ x ∧ x < screenWidth ∧ 0 ≤ y ∧ y < screenHeight

/-- All accesses are to cells of the screen. -/
def Vga.Inside (v : Vga) : Prop := ∀ p ∈ v.cells, OnScreen p.1 p.2

/-- The cursor and all accesses are on the screen, and the parameters are those that there are. -/
structure Console.Ok (s : Console) : Prop where
  cursor : OnScreen s.x s.y
  idx : s.paramIdx ≤ 3
  inside : s.vga.Inside

section
variable {v : Vga} {s : Console} {x y : ℤ} {c : UInt8}

/-! ## The VGA buffer -/

theorem Vga.Inside.touch (h : v.Inside) (hxy : OnScreen x y) : (v.touch x y).Inside := by
  intro p hp
  rcases List.mem_cons.1 hp with rfl | hp
  · exact hxy
  · exact h p hp

theorem Vga.Inside.writeChar (h : v.Inside) (hxy : OnScreen x y) (c : UInt8) :
    (vgaWriteChar v x y c).Inside := h.touch hxy

theorem Vga.Inside.writeColor (h : v.Inside) (hxy : OnScreen x y) (color : UInt8) :
    (vgaWriteColor v x y color).Inside := h.touch hxy

theorem Vga.Inside.cursorSet (h : v.Inside) (x y : ℤ) : (vgaCursorSet v x y).Inside := h

/-- Two loops over the rows and the columns of the screen. -/
theorem Vga.Inside.forCells {start : ℤ} (h0 : 0 ≤ start) {body : Vga → ℤ → ℤ → Vga}
    (step : ∀ v x y, v.Inside → start ≤ y → OnScreen x y → (body v x y).Inside) (h : v.Inside) :
    (forRange start screenHeight
      (fun v y => forRange 0 screenWidth (fun v x => body v x y) v) v).Inside := by
  refine forRange_invariant (I := Vga.Inside) (fun v y hv hy1 hy2 => ?_) h
  refine forRange_invariant (I := Vga.Inside) (fun v x hv hx1 hx2 => ?_) hv
  exact step v x y hv hy1 ⟨hx1, hx2, h0.trans hy1, hy2⟩

theorem Vga.Inside.scroll (h : v.Inside) (color : UInt8) : (vgaScroll v 1 color).Inside := by
  unfold vgaScroll
  refine forCells (by decide) (fun v x y hv _ hxy => (hv.writeChar hxy _).writeColor hxy _)
    (forCells (by decide) (fun v x y hv hy hxy => ?_) h)
  have hup : OnScreen x (y - 1) := by
    obtain ⟨h1, h2, -, h4⟩ := hxy
    exact ⟨h1, h2, by omega, by omega⟩
  exact (((hv.touch hxy).writeChar hup _).touch hxy).writeColor hup _

theorem Vga.Inside.clear (h : v.Inside) (color : UInt8) : (vgaClear v color).Inside := by
  unfold vgaClear
  refine cursorSet (forCells le_rfl (fun v x y hv _ hxy => ?_) h) 0 0
  exact (hv.writeChar hxy _).writeColor hxy _

/-! ## The console -/

theorem conCursorSet_ok (hidx : s.paramIdx ≤ 3) (hin : s.vga.Inside) (x y : ℤ) :
    (conCursorSet s x y).Ok := by
  refine ⟨?_, hidx, hin⟩
  simp only [conCursorSet, OnScreen, screenWidth, screenHeight]
  refine ⟨?_, ?_, ?_, ?_⟩ <;> split_ifs <;> omega

theorem conClear_ok (hidx : s.paramIdx ≤ 3) (hin : s.vga.Inside) : (conClear s).Ok :=
  ⟨⟨le_rfl, by simp [conClear, screenWidth], le_rfl, by simp [conClear, screenHeight]⟩, hidx,
    (hin.clear _).cursorSet 0 0⟩

theorem Console.Ok.write (h : s.Ok) (hxy : OnScreen x y) (c : UInt8) : (conWrite s x y c).Ok :=
  ⟨h.cursor, h.idx, (h.inside.writeChar hxy c).writeColor hxy _⟩

theorem Console.Ok.selectColor (h : s.Ok) (p : ℤ) : (selectColor s p).Ok := by
  unfold Kabanos.selectColor
  split_ifs <;> exact ⟨h.cursor, h.idx, h.inside⟩

/-- **The escape sequences** -/
theorem Console.Ok.handleCsiCommand (h : s.Ok) (c : UInt8) : (handleCsiCommand s c).Ok := by
  unfold Kabanos.handleCsiCommand
  split_ifs
  · exact ⟨h.cursor, h.idx, h.inside⟩
  · exact conCursorSet_ok h.idx h.inside _ _
  · exact conCursorSet_ok h.idx h.inside _ _
  · exact conClear_ok h.idx h.inside
  · exact h
  · -- the rest of the line is cleared
    have hx := h.cursor.1
    refine (forRange_invariant (I := fun s' : Console => s'.Ok ∧ s'.y = s.y)
      (fun s' i hs h1 h2 => ⟨hs.1.write ⟨hx.trans h1, h2, ?_⟩ _, hs.2⟩) ⟨h, rfl⟩).1
    exact hs.1.cursor.2.2
  · exact List.foldlRecOn _ _ h fun s hs i _ => hs.selectColor _
  · exact h

theorem Console.Ok.erase (h : s.Ok) : (conErase s).Ok := by
  have hw := h.write h.cursor 0x20
  exact ⟨hw.cursor, hw.idx, hw.inside.cursorSet _ _⟩

theorem Console.Ok.backspace (h : s.Ok) : (conBackspace s).Ok := by
  obtain ⟨h1, h2, h3, h4⟩ := h.cursor
  unfold conBackspace
  split_ifs with hx hy
  · exact erase ⟨⟨by simp only; omega, by simp only; omega, h3, h4⟩, h.idx, h.inside⟩
  · exact erase ⟨⟨by simp [screenWidth], by simp [screenWidth], by simp only; omega,
      by simp only; omega⟩, h.idx, h.inside⟩
  · exact h

/-- **The first part of `con_putc`**; where it goes on, no sequence is open. -/
theorem Console.Ok.escape (h : s.Ok) (c : UInt8) : (conEscape s c).1.Ok ∧
    ((conEscape s c).2 = false → (conEscape s c).1.state = .normal) := by
  unfold conEscape
  split
  next hst =>
    split_ifs
    · exact ⟨⟨h.cursor, h.idx, h.inside⟩, fun e => (by cases e)⟩
    · exact ⟨h, fun _ => hst⟩
  next =>
    split_ifs
    · exact ⟨⟨h.cursor, Nat.zero_le 3, h.inside⟩, fun e => (by cases e)⟩
    · exact ⟨⟨h.cursor, h.idx, h.inside⟩, fun e => (by cases e)⟩
    · have := conCursorSet_ok h.idx h.inside s.savedX s.savedY
      exact ⟨⟨this.cursor, this.idx, this.inside⟩, fun e => (by cases e)⟩
    · exact ⟨⟨h.cursor, h.idx, h.inside⟩, fun _ => rfl⟩
  next =>
    split_ifs with h1 h2 h3 h4
    · exact ⟨⟨h.cursor, h.idx, h.inside⟩, fun e => (by cases e)⟩
    · exact ⟨⟨h.cursor, h3, h.inside⟩, fun e => (by cases e)⟩
    · exact ⟨h, fun e => (by cases e)⟩
    · exact ⟨h, fun e => (by cases e)⟩
    · have := h.handleCsiCommand c
      exact ⟨⟨this.cursor, this.idx, this.inside⟩, fun e => (by cases e)⟩

/-- Scrolling brings back a cursor that is one row too far. -/
theorem conScrollRow_ok (hx : 0 ≤ s.x) (hx' : s.x < screenWidth) (hy : 0 ≤ s.y)
    (hidx : s.paramIdx ≤ 3) (hin : s.vga.Inside) :
    (conScrollRow s).Ok ∧ (conScrollRow s).state = s.state ∧ (conScrollRow s).x = s.x := by
  unfold conScrollRow
  split_ifs with h
  · exact ⟨⟨⟨hx, hx', by simp [screenHeight], by simp [screenHeight]⟩, hidx, hin.scroll _⟩,
      rfl, rfl⟩
  · exact ⟨⟨⟨hx, hx', hy, not_le.1 h⟩, hidx, hin⟩, rfl, rfl⟩

/-- **Wrapping and scrolling** -/
theorem conWrap_ok (hx : 0 ≤ s.x) (hy : 0 ≤ s.y) (hidx : s.paramIdx ≤ 3) (hin : s.vga.Inside) :
    (conWrap s).Ok ∧ (conWrap s).state = s.state ∧
      (conWrap s).x = if screenWidth ≤ s.x then 0 else s.x := by
  have hscroll : (conScrollRow (conWrapColumn s)).Ok ∧
      (conScrollRow (conWrapColumn s)).state = s.state ∧
      (conScrollRow (conWrapColumn s)).x = if screenWidth ≤ s.x then 0 else s.x := by
    unfold conWrapColumn
    split_ifs with h
    · exact conScrollRow_ok le_rfl (by simp [screenWidth]) (by simp only; omega) hidx hin
    · exact conScrollRow_ok hx (not_le.1 h) hy hidx hin
  obtain ⟨hok, hst, hx'⟩ := hscroll
  exact ⟨⟨hok.cursor, hok.idx, hok.inside.cursorSet _ _⟩, hst, hx'⟩

/-- A printed character moves the cursor on. -/
theorem Console.Ok.print (h : s.Ok) (c : UInt8) : (conPrint s c).Ok ∧
    (conPrint s c).state = s.state ∧
      (conPrint s c).x = if screenWidth ≤ s.x + 1 then 0 else s.x + 1 := by
  have hw := h.write h.cursor c
  obtain ⟨h1, -, h3, -⟩ := h.cursor
  exact conWrap_ok (s := { conWrite s s.x s.y c with x := s.x + 1 }) (by simp only; omega) h3
    hw.idx hw.inside

/-! ## Calls -/

theorem conPutc_space (h : s.state = .normal) (n : ℕ) :
    conPutc (n + 1) s 0x20 = some (conPrint s 0x20) := by
  have he : conEscape s 0x20 = (s, false) := by
    unfold conEscape
    rw [h]
    rfl
  rw [conPutc, he]
  rfl

/-- **The loop of a tab** ends at the next tab stop, which is `d` columns away. -/
theorem tab_ok (d : ℕ) : ∀ s : Console, s.Ok → s.state = .normal → 1 ≤ d → s.x % 4 = 4 - d →
    ∃ s' : Console, s'.Ok ∧ ∀ k n, d ≤ k →
      doWhile (fun s => conPutc (n + 1) s 0x20) (fun s => s.x.tmod 4 ≠ 0) k s = some s' := by
  induction d with
  | zero => exact fun s _ _ h => absurd h (by decide)
  | succ d ih =>
    intro s hs hst _ hx
    obtain ⟨hok, hst', hx'⟩ := hs.print 0x20
    obtain ⟨h1, h2, -⟩ := hs.cursor
    have hw : screenWidth = 80 := rfl
    have hmod : (conPrint s 0x20).x.tmod 4 = (s.x + 1) % 4 := by
      rw [Int.tmod_eq_emod_of_nonneg hok.cursor.1, hx']
      split_ifs with h
      · rw [show s.x + 1 = 80 by omega]
        rfl
      · rfl
    -- one round prints a space
    have hround (k n : ℕ) : doWhile (fun s => conPutc (n + 1) s 0x20) (fun s => s.x.tmod 4 ≠ 0)
        (k + 1) s = if (s.x + 1) % 4 ≠ 0 then doWhile (fun s => conPutc (n + 1) s 0x20)
          (fun s => s.x.tmod 4 ≠ 0) k (conPrint s 0x20) else some (conPrint s 0x20) := by
      simp only [doWhile, conPutc_space hst, Option.bind_some, hmod, decide_eq_true_eq]
    rcases Nat.eq_zero_or_pos d with rfl | hd
    · refine ⟨_, hok, fun k n hk => ?_⟩
      obtain ⟨k, rfl⟩ := Nat.exists_eq_add_of_le' hk
      rw [hround, if_neg (by omega)]
    · have hx4 : (conPrint s 0x20).x % 4 = 4 - d := by
        rw [← Int.tmod_eq_emod_of_nonneg hok.cursor.1, hmod]
        omega
      obtain ⟨s', hok', he⟩ := ih _ hok (hst'.trans hst) hd hx4
      refine ⟨s', hok', fun k n hk => ?_⟩
      obtain ⟨k, rfl⟩ := Nat.exists_eq_add_of_le' (Nat.one_le_of_lt hk)
      rw [hround, if_pos (by omega)]
      exact he k n (Nat.le_of_succ_le_succ hk)

/-- The second part of `con_putc`. -/
theorem conPutc_succ {s1 : Console} (h : conEscape s c = (s1, false)) (n : ℕ) :
    conPutc (n + 1) s c =
      if c = 0x0A then some (conWrap { s1 with x := 0, y := s1.y + 1 })
      else if c = 0x0D then some (conWrap { s1 with x := 0 })
      else if c = 0x09 then doWhile (fun s => conPutc n s 0x20) (fun s => s.x.tmod 4 ≠ 0) n s1
      else if c = 0x08 then some (conBackspace s1)
      else some (conPrint s1 c) := by
  rw [conPutc, h]
  rfl

/-- **`con_putc`** returns, and the console stays on the screen. -/
theorem Console.Ok.putc (h : s.Ok) (c : UInt8) :
    ∃ s' : Console, Yields (fun n => conPutc n s c) s' ∧ s'.Ok := by
  obtain ⟨he, hst⟩ := h.escape c
  have hpure (s' : Console) (hs : ∀ n, conPutc (n + 1) s c = some s') :
      Yields (fun n => conPutc n s c) s' := .succ ⟨0, fun n _ => hs n⟩
  rcases hr : conEscape s c with ⟨s1, returns⟩
  rw [hr] at he hst
  obtain ⟨hx, hy⟩ : 0 ≤ s1.x ∧ 0 ≤ s1.y := ⟨he.cursor.1, he.cursor.2.2.1⟩
  cases returns with
  | true => exact ⟨s1, hpure _ fun n => by rw [conPutc, hr]; rfl, he⟩
  | false =>
    have hput := conPutc_succ hr
    by_cases h1 : c = 0x0A
    · simp only [if_pos h1] at hput
      exact ⟨_, hpure _ hput, (conWrap_ok (s := { s1 with x := 0, y := s1.y + 1 }) le_rfl
        (show 0 ≤ s1.y + 1 by omega) he.idx he.inside).1⟩
    simp only [if_neg h1] at hput
    by_cases h2 : c = 0x0D
    · simp only [if_pos h2] at hput
      exact ⟨_, hpure _ hput, (conWrap_ok (s := { s1 with x := 0 }) le_rfl hy he.idx he.inside).1⟩
    simp only [if_neg h2] at hput
    by_cases h3 : c = 0x09
    · simp only [if_pos h3] at hput
      obtain ⟨d, hd⟩ : ∃ d : ℕ, d = (4 - s1.x % 4).toNat := ⟨_, rfl⟩
      obtain ⟨s', hok, htab⟩ := tab_ok d s1 he (hst rfl) (by omega) (by omega)
      refine ⟨s', ⟨d + 2, fun m hm => ?_⟩, hok⟩
      obtain ⟨m, rfl⟩ := Nat.exists_eq_add_of_le' (show 2 ≤ m by omega)
      exact (hput (m + 1)).trans (htab (m + 1) m (by omega))
    simp only [if_neg h3] at hput
    by_cases h4 : c = 0x08
    · simp only [if_pos h4] at hput
      exact ⟨_, hpure _ hput, he.backspace⟩
    · simp only [if_neg h4] at hput
      exact ⟨_, hpure _ hput, (he.print c).1⟩

end

inductive ConCall
  | putc (c : UInt8)
  | backspace

def ConCall.exec (n : ℕ) (s : Console) : ConCall → Option Console
  | .putc c => conPutc n s c
  | .backspace => some (conBackspace s)

/-- **The console is safe**: after `con_module_init` any sequence of calls returns, and then the
    cursor, the number of parameters and all accesses to the buffer are in their bounds. -/
theorem console_safe (buf : ℤ → UInt8) (cursor : ℤ) (calls : List ConCall) :
    ∃ s : Console, Yields (fun n => calls.foldlM (ConCall.exec n)
        (conModuleInit (.static ⟨buf, [], cursor⟩))) s ∧
      (0 ≤ s.x ∧ s.x < screenWidth) ∧ (0 ≤ s.y ∧ s.y < screenHeight) ∧ s.paramIdx ≤ 3 ∧
      ∀ p ∈ s.vga.cells, (0 ≤ p.1 ∧ p.1 < screenWidth) ∧ 0 ≤ p.2 ∧ p.2 < screenHeight := by
  have hinit : (conModuleInit (.static ⟨buf, [], cursor⟩)).Ok :=
    conClear_ok (Nat.zero_le 3) fun p hp => absurd hp List.not_mem_nil
  obtain ⟨s, hy, hs, -⟩ := yields_foldlM (f := ConCall.exec) (I := Console.Ok)
    (D := fun _ _ => True) (L := calls) (fun s hs call _ => by
      cases call with
      | putc c =>
        obtain ⟨s', hy, hs'⟩ := hs.putc c
        exact ⟨s', hy, hs', trivial, fun _ _ => trivial⟩
      | backspace => exact ⟨_, .pure _, hs.backspace, trivial, fun _ _ => trivial⟩) hinit
  obtain ⟨h1, h2, h3, h4⟩ := hs.cursor
  refine ⟨s, hy, ⟨h1, h2⟩, ⟨h3, h4⟩, hs.idx, fun p hp => ?_⟩
  obtain ⟨k1, k2, k3, k4⟩ := hs.inside p hp
  exact ⟨⟨k1, k2⟩, k3, k4⟩

end Kabanos
