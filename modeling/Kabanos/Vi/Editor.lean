/-
  The editor `vi`: its state, the helpers for buffers, and the undo history.

  A line is a C string.  An access to a line that is not there, or to a character behind the
  terminator of a line, is `none`.  The C library is not part of the program: what it decides is a
  parameter.  The output to the screen is left out, with the fields that only it reads.
-/
import Kabanos.Lib.Strings

namespace Kabanos.Vi

/-- What `vi.c` takes from the C library. -/
structure Libc where
  isspace : UInt8 → Bool
  isupper : UInt8 → Bool
  tolower : UInt8 → UInt8
  toupper : UInt8 → UInt8
  iscntrl : ℕ → Bool
  atoi : CStr → ℤ
  iscntrl_zero : iscntrl 0 = true

inductive Mode where
  | normal
  | insert
  | command
  deriving DecidableEq

/-- `E.status` -/
inductive Message where
  /-- The empty text -/
  | empty
  /-- "mivim ready  --  :w save  :q quit  i insert  ESC normal" -/
  | ready
  /-- "Already at oldest change" -/
  | oldest
  /-- "Undo" -/
  | undo
  /-- "1 line yanked" -/
  | yanked
  /-- "/%s" -/
  | found (search : CStr)
  /-- "Pattern not found: %s" -/
  | notFound (search : CStr)
  /-- "No write since last change (use :q! to force)" -/
  | noWrite
  /-- "No filename (use :w <file>)" -/
  | noFilename
  /-- "Can't write: %s" -/
  | cantWrite (filename : CStr)
  /-- "\"%s\" %dL written" -/
  | written (filename : CStr) (count : ℕ)
  /-- "Unknown command: %s" -/
  | unknown (cmd : CStr)

/-- `Editor`, and the variables of `normal_key` between keys.  `cmdbuf` has `cmdlen` bytes. -/
structure Editor where
  buf : List CStr
  cx : ℤ
  cy : ℤ
  mode : Mode
  filename : CStr
  dirty : Bool
  status : Message
  cmdbuf : List UInt8
  undoStack : ℕ → List CStr
  undoTop : ℕ
  search : CStr
  searchDir : ℤ
  yankLine : Option CStr
  gPending : Bool
  dPending : Bool
  yPending : Bool
  countBuf : ℤ

abbrev screenrows : ℤ := 23

/-! ## Accesses -/

/-- The C string that begins with these bytes. -/
def ofBytes (l : List UInt8) : CStr where
  bytes := l.takeWhile (· ≠ 0)
  nonzero c hc := by simpa using List.mem_takeWhile_imp hc

/-- `lines[y]` -/
def lineAt (b : List CStr) (y : ℤ) : Option CStr := if y < 0 then none else b[y.toNat]?

/-- `line[x]` -/
def charAt (s : CStr) (x : ℤ) : Option UInt8 :=
  if x < 0 ∨ s.length < x then none else some (s.get x.toNat)

/-- `n` bytes from `line + x` on, the terminator included. -/
def bytesAt (s : CStr) (x n : ℤ) : Option (List UInt8) :=
  if x < 0 ∨ n < 0 ∨ s.length + 1 < x + n then none
  else some (((s.bytes ++ [0]).drop x.toNat).take n.toNat)

/-- `line[x] = c` -/
def setChar (s : CStr) (x : ℤ) (c : UInt8) : Option CStr :=
  if x < 0 ∨ s.length < x then none else some (ofBytes ((s.bytes ++ [0]).set x.toNat c))

def bufInsertLine (b : List CStr) (row : ℤ) (txt : CStr) : Option (List CStr) :=
  if row < 0 ∨ b.length < row then none else some (b.insertIdx row.toNat txt)

def bufDeleteLine (b : List CStr) (row : ℤ) : Option (List CStr) :=
  if row < 0 ∨ b.length ≤ row then none else some (b.eraseIdx row.toNat)

def bufSetLine (b : List CStr) (row : ℤ) (txt : CStr) : Option (List CStr) :=
  if row < 0 ∨ b.length ≤ row then none else some (b.set row.toNat txt)

/-! ## Undo -/

abbrev undoDepth : ℕ := 100

/-- `undo_push`; `E.undo_top++` is not defined at the largest `int`. -/
def undoPush (e : Editor) : Option Editor :=
  if 2 ^ 31 ≤ e.undoTop + 1 then none
  else some { e with
    undoStack := Function.update e.undoStack (e.undoTop % undoDepth) e.buf
    undoTop := e.undoTop + 1 }

def undoPop (e : Editor) : Editor :=
  if e.undoTop = 0 then { e with status := .oldest }
  else
    let buf := e.undoStack ((e.undoTop - 1) % undoDepth)
    let cy := if buf.length ≤ e.cy then (buf.length : ℤ) - 1 else e.cy
    { e with
      undoTop := e.undoTop - 1
      buf := buf
      cy := if cy < 0 then 0 else cy
      dirty := true
      status := .undo }

end Kabanos.Vi
