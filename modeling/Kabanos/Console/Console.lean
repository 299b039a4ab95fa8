/-
  The text console: `console.c` on top of `vga.c`.

  The VGA buffer notes every cell that is read or written.  `con_putc` calls itself for a tab, in
  a loop that ends at the next tab stop; it has a bound on calls and rounds.
-/
import Kabanos.Lib.Loop

namespace Kabanos

/-! ## The VGA buffer -/

def screenWidth : ℤ := 80
def screenHeight : ℤ := 25

/-- The text buffer, two bytes for each cell; the cells that have been accessed, as column and
    row; and the position of the cursor in the registers of the device. -/
structure Vga where
  buf : ℤ → UInt8
  cells : List (ℤ × ℤ)
  cursor : ℤ

/-- An access to the cell in column `x` and row `y`. -/
def Vga.touch (v : Vga) (x y : ℤ) : Vga := { v with cells := (x, y) :: v.cells }

def Vga.store (v : Vga) (i : ℤ) (b : UInt8) : Vga := { v with buf := Function.update v.buf i b }

def vgaWriteChar (v : Vga) (x y : ℤ) (c : UInt8) : Vga :=
  (v.touch x y).store (2 * (y * screenWidth + x)) c

def vgaWriteColor (v : Vga) (x y : ℤ) (color : UInt8) : Vga :=
  (v.touch x y).store (2 * (y * screenWidth + x) + 1) color

def vgaReadChar (v : Vga) (x y : ℤ) : UInt8 × Vga :=
  (v.buf (2 * (y * screenWidth + x)), v.touch x y)

def vgaReadColor (v : Vga) (x y : ℤ) : UInt8 × Vga :=
  (v.buf (2 * (y * screenWidth + x) + 1), v.touch x y)

/-- The two bytes that `vga_cursor_set` writes to the ports. -/
def vgaCursorSet (v : Vga) (x y : ℤ) : Vga := { v with cursor := (y * screenWidth + x) % 2 ^ 16 }

def vgaScroll (v : Vga) (lines : ℤ) (backColor : UInt8) : Vga :=
  let v := forRange lines screenHeight (fun v y => forRange 0 screenWidth (fun v x =>
    let (c, v) := vgaReadChar v x y
    let v := vgaWriteChar v x (y - lines) c
    let (color, v) := vgaReadColor v x y
    vgaWriteColor v x (y - lines) color) v) v
  forRange (screenHeight - lines) screenHeight (fun v y => forRange 0 screenWidth (fun v x =>
    vgaWriteColor (vgaWriteChar v x y 0) x y backColor) v) v

def vgaClear (v : Vga) (backColor : UInt8) : Vga :=
  let v := forRange 0 screenHeight (fun v y => forRange 0 screenWidth (fun v x =>
    vgaWriteColor (vgaWriteChar v x y 0x20) x y backColor) v) v
  vgaCursorSet v 0 0

/-! ## The console -/

/-- Where the console is in an escape sequence. -/
inductive ConState
  | normal | bracket | params
  deriving DecidableEq

inductive ConMode
  | dark | light
  deriving DecidableEq

def ansiToVgaLookup : ConMode → List UInt8
  | .dark => [0x0, 0x4, 0x2, 0x6, 0x1, 0x5, 0x3, 0x7]
  | .light => [0x0, 0x4, 0x2, 0x6, 0x1, 0x5, 0x3, 0x7]

/-- `VGA_MAKE_COLOR(fg, bg)` -/
def vgaMakeColor (fg bg : UInt8) : UInt8 := (bg <<< 4) ||| fg

/-- `DARK_MODE` and `LIGHT_MODE` -/
def ConMode.color : ConMode → UInt8
  | .dark => vgaMakeColor 0x7 0x0
  | .light => vgaMakeColor 0x0 0xF

/-- The variables of `console.c`, with the VGA buffer. -/
structure Console where
  mode : ConMode
  state : ConState
  params : ℕ → ℤ
  paramIdx : ℕ
  x : ℤ
  y : ℤ
  savedX : ℤ
  savedY : ℤ
  color : UInt8
  defaultColor : UInt8
  vga : Vga

/-- Arithmetic of type `int`, which wraps. -/
def toInt32 (n : ℤ) : ℤ := Int.bmod n (2 ^ 32)

def conCursorSet (s : Console) (x y : ℤ) : Console :=
  let x := if x < 0 then 0 else x
  let x := if screenWidth ≤ x then screenWidth - 1 else x
  let y := if y < 0 then 0 else y
  let y := if screenHeight ≤ y then screenHeight - 1 else y
  { s with x := x, y := y, vga := vgaCursorSet s.vga x y }

def conClear (s : Console) : Console :=
  { s with x := 0, y := 0, vga := vgaCursorSet (vgaClear s.vga s.color) 0 0 }

/-- `vga_write_char(x, y, c)` and `vga_write_color(x, y, g_con_color)` -/
def conWrite (s : Console) (x y : ℤ) (c : UInt8) : Console :=
  { s with vga := vgaWriteColor (vgaWriteChar s.vga x y c) x y s.color }

/-- The color after the parameter `p` of the sequence that ends in `m`. -/
def selectColor (s : Console) (p : ℤ) : Console :=
  if p = 0 then { s with color := s.defaultColor }
  else if 30 ≤ p ∧ p ≤ 37 then
    let fg : UInt8 := (ansiToVgaLookup s.mode).getD (p - 30).toNat 0
    { s with color := s.color &&& (0xF0 : UInt8) ||| fg }
  else if 40 ≤ p ∧ p ≤ 47 then
    let bg : UInt8 := (ansiToVgaLookup s.mode).getD (p - 40).toNat 0
    { s with color := s.color &&& (0x0F : UInt8) ||| bg <<< 4 }
  else s

def handleCsiCommand (s : Console) (c : UInt8) : Console :=
  if c = 0x73 then { s with savedX := s.x, savedY := s.y } -- s
  else if c = 0x75 then conCursorSet s s.savedX s.savedY -- u
  else if c = 0x48 ∨ c = 0x66 then -- H, f
    conCursorSet s (toInt32 (s.params 1 - 1)) (toInt32 (s.params 0 - 1))
  else if c = 0x4A then (if s.params 0 = 2 then conClear s else s) -- J
  else if c = 0x4B then -- K
    forRange s.x screenWidth (fun s i => conWrite s i s.y 0x20) s
  else if c = 0x6D then -- m
    (List.range (s.paramIdx + 1)).foldl (fun s i => selectColor s (s.params i)) s
  else s

/-- The end of `con_backspace`: the character at the cursor is cleared. -/
def conErase (s : Console) : Console :=
  let s := conWrite s s.x s.y 0x20
  { s with vga := vgaCursorSet s.vga s.x s.y }

def conBackspace (s : Console) : Console :=
  if 0 < s.x then conErase { s with x := s.x - 1 }
  else if 0 < s.y then conErase { s with x := screenWidth - 1, y := s.y - 1 }
  else s

/-- The first part of `con_putc`: the state after the character `c`, and whether `con_putc`
    returns there. -/
def conEscape (s : Console) (c : UInt8) : Console × Bool :=
  match s.state with
  | .normal => if c = 0x1B then ({ s with state := .bracket }, true) else (s, false)
  | .bracket =>
    if c = 0x5B then -- [
      ({ s with state := .params, params := fun _ => 0, paramIdx := 0 }, true)
    else if c = 0x37 then -- 7
      ({ s with savedX := s.x, savedY := s.y, state := .normal }, true)
    else if c = 0x38 then -- 8
      ({ conCursorSet s s.savedX s.savedY with state := .normal }, true)
    else ({ s with state := .normal }, false)
  | .params =>
    if 0x30 ≤ c ∧ c ≤ 0x39 then
      let p := toInt32 (s.params s.paramIdx * 10 + (c.toNat - 0x30))
      ({ s with params := Function.update s.params s.paramIdx p }, true)
    else if c = 0x3B then -- ;
      (if s.paramIdx < 3 then { s with paramIdx := s.paramIdx + 1 } else s, true)
    else if c = 0x3F then (s, true) -- ?
    else ({ handleCsiCommand s c with state := .normal }, true)

/-- A cursor behind the last column goes to the next row. -/
def conWrapColumn (s : Console) : Console :=
  if screenWidth ≤ s.x then { s with x := 0, y := s.y + 1 } else s

/-- A cursor below the last row scrolls the screen. -/
def conScrollRow (s : Console) : Console :=
  if screenHeight ≤ s.y then
    { s with vga := vgaScroll s.vga 1 s.color, y := screenHeight - 1 }
  else s

/-- The end of `con_putc`: wrapping and scrolling. -/
def conWrap (s : Console) : Console :=
  let s := conScrollRow (conWrapColumn s)
  { s with vga := vgaCursorSet s.vga s.x s.y }

/-- A character that is printed. -/
def conPrint (s : Console) (c : UInt8) : Console :=
  let s := conWrite s s.x s.y c
  conWrap { s with x := s.x + 1 }

/-- `con_putc` -/
def conPutc : ℕ → Console → UInt8 → Option Console
  | 0, _, _ => none
  | n + 1, s, c =>
    let (s, returns) := conEscape s c
    if returns then some s
    else if c = 0x0A then some (conWrap { s with x := 0, y := s.y + 1 })
    else if c = 0x0D then some (conWrap { s with x := 0 })
    else if c = 0x09 then doWhile (fun s => conPutc n s 0x20) (fun s => s.x.tmod 4 ≠ 0) n s
    else if c = 0x08 then some (conBackspace s)
    else some (conPrint s c)

/-- The variables before `con_module_init`, with any contents of the screen. -/
def Console.static (vga : Vga) : Console :=
  ⟨.dark, .normal, fun _ => 0, 0, 0, 0, 0, 0, 0, 0, vga⟩

def conModuleInit (s : Console) : Console :=
  conClear { s with mode := .dark, defaultColor := ConMode.dark.color, color := ConMode.dark.color }

end Kabanos
