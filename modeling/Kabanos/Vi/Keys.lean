/-
  The keys of `vi`: the editing operations, the search, the commands of the command line, and
  `normal_key` and `process_key`.

  `none` is an access that is out of bounds.  What comes from outside while a key is handled (the
  character for `r`, the contents of a file, whether a file can be written) is part of the input.
-/
import Kabanos.Vi.Editor

namespace Kabanos.Vi

/-- What `read_key` returns: a byte, or one of the keys from `KEY_UP` to `KEY_PGDN`. -/
structure Key where
  code : ℕ
  valid : code < 256 ∨ 1000 ≤ code ∧ code ≤ 1008

abbrev keyEsc : ℕ := 27
abbrev keyUp : ℕ := 1000
abbrev keyDown : ℕ := 1001
abbrev keyLeft : ℕ := 1002
abbrev keyRight : ℕ := 1003
abbrev keyDel : ℕ := 1004
abbrev keyHome : ℕ := 1005
abbrev keyEnd : ℕ := 1006
abbrev keyPgup : ℕ := 1007
abbrev keyPgdn : ℕ := 1008
abbrev keyBackspace : ℕ := 127
abbrev keyCtrlH : ℕ := 8

/-- A key, the key after it, what `fgets` returns if a file is read, and whether a file can be
    written. -/
structure Input where
  key : Key
  nextKey : Key
  file : Option (List CStr)
  writable : Bool

/-- The bytes of a text. -/
def text (s : String) : List UInt8 := s.toList.map fun c => UInt8.ofNat c.toNat

/-- `line + x` as a string -/
def strFrom (s : CStr) (x : ℤ) : Option CStr :=
  if x < 0 ∨ s.length < x then none else some (ofBytes (s.bytes.drop x.toNat))

/-- `strcat(strcpy(joined, s), t)` -/
def strcat (s t : CStr) : CStr := ofBytes (s.bytes ++ t.bytes)

def strstr (s pattern : CStr) : Option ℕ :=
  (List.range (s.length + 1)).find? fun p => pattern.bytes.isPrefixOf (s.bytes.drop p)

/-- `for (int i = 0; i < n; i++) f()` -/
def repeatKey (f : Editor → Option Editor) : ℕ → Editor → Option Editor
  | 0, e => some e
  | n + 1, e => (f e).bind (repeatKey f n)

/-! ## Files -/

/-- The end of line that `fgets` leaves is cut off. -/
def stripLine (l : CStr) : CStr :=
  let l := if l.bytes.getLast? = some 10 then l.bytes.dropLast else l.bytes
  ofBytes (if l.getLast? = some 13 then l.dropLast else l)

/-- `if (E.buf.count == 0) buf_insert_line(&E.buf, 0, "")` -/
def ensureLine (b : List CStr) : Option (List CStr) :=
  if b.length = 0 then bufInsertLine b 0 (ofBytes []) else some b

def fileOpen (e : Editor) (fname : CStr) (file : Option (List CStr)) : Option Editor :=
  let e := { e with filename := ofBytes (fname.bytes.take 255) }
  match file with
  | none => do
    let buf ← bufInsertLine e.buf 0 (ofBytes [])
    return { e with buf := buf }
  | some lines => do
    let buf ← lines.foldlM (fun b l => bufInsertLine b b.length (stripLine l)) e.buf
    let buf ← ensureLine buf
    return { e with buf := buf }

/-- `file_save`: the editor, and whether the file was saved. -/
def fileSave (e : Editor) (writable : Bool) : Editor × Bool :=
  if e.filename.bytes = [] then ({ e with status := .noFilename }, false)
  else if !writable then ({ e with status := .cantWrite e.filename }, false)
  else ({ e with dirty := false, status := .written e.filename e.buf.length }, true)

/-! ## The cursor -/

def curLineLen (e : Editor) : Option ℤ :=
  if e.buf.length ≤ e.cy then some 0 else (lineAt e.buf e.cy).map fun s => (s.length : ℤ)

def clampCx (e : Editor) : Option Editor := do
  let len ← curLineLen e
  let max := if e.mode ≠ .insert ∧ 0 < len then len - 1 else len
  let max := if max < 0 then 0 else max
  let cx := if max < e.cx then max else e.cx
  return { e with cx := if cx < 0 then 0 else cx }

/-! ## Editing -/

def insertChar (e : Editor) (c : ℕ) : Option Editor := do
  let buf ← if e.buf.length ≤ e.cy then bufInsertLine e.buf e.buf.length (ofBytes [])
    else some e.buf
  let line ← lineAt buf e.cy
  let cx := if line.length < e.cx then (line.length : ℤ) else e.cx
  let first ← bytesAt line 0 cx
  let rest ← bytesAt line cx (line.length - cx)
  let buf ← bufSetLine buf e.cy (ofBytes (first ++ [UInt8.ofNat c] ++ rest ++ [0]))
  return { e with buf := buf, cx := cx + 1, dirty := true }

def insertNewline (e : Editor) : Option Editor := do
  let line ← lineAt e.buf e.cy
  let rest ← strFrom line e.cx
  let first ← bytesAt line 0 e.cx
  let buf ← bufSetLine e.buf e.cy (ofBytes first)
  let buf ← bufInsertLine buf (e.cy + 1) rest
  return { e with buf := buf, cy := e.cy + 1, cx := 0, dirty := true }

def deleteCharAtCursor (e : Editor) : Option Editor :=
  if e.buf.length ≤ e.cy then some e
  else do
    let line ← lineAt e.buf e.cy
    if line.length ≤ e.cx then
      -- join with the next line
      if e.cy + 1 < e.buf.length then
        let next ← lineAt e.buf (e.cy + 1)
        let buf ← bufSetLine e.buf e.cy (strcat line next)
        let buf ← bufDeleteLine buf (e.cy + 1)
        return { e with buf := buf, dirty := true }
      else return e
    else
      -- `memmove(line + cx, line + cx + 1, len - cx)`
      let moved ← bytesAt line (e.cx + 1) (line.length - e.cx)
      let _ ← bytesAt line e.cx (line.length - e.cx)
      let buf ← bufSetLine e.buf e.cy (ofBytes (line.bytes.take e.cx.toNat ++ moved))
      return { e with buf := buf, dirty := true }

def backspace (e : Editor) : Option Editor :=
  if e.cx = 0 ∧ e.cy = 0 then some e
  else if 0 < e.cx then do
    let line ← lineAt e.buf e.cy
    -- `memmove(line + cx - 1, line + cx, len - cx + 1)`
    let moved ← bytesAt line e.cx (line.length - e.cx + 1)
    let _ ← bytesAt line (e.cx - 1) (line.length - e.cx + 1)
    let buf ← bufSetLine e.buf e.cy (ofBytes (line.bytes.take (e.cx - 1).toNat ++ moved))
    return { e with buf := buf, cx := e.cx - 1, dirty := true }
  else do
    -- join with the line before
    let prev ← lineAt e.buf (e.cy - 1)
    let cur ← lineAt e.buf e.cy
    let buf ← bufSetLine e.buf (e.cy - 1) (strcat prev cur)
    let buf ← bufDeleteLine buf e.cy
    return { e with buf := buf, cy := e.cy - 1, cx := prev.length, dirty := true }

/-! ## Search and commands -/

/-- The rounds of the loop of `do_search` that are left. -/
def searchRows (e : Editor) (dir : ℤ) : List ℕ → Option Editor
  | [] => some { e with status := .notFound e.search }
  | i :: is => do
    let row := (e.cy + dir * (i + 1) + e.buf.length * 10).tmod e.buf.length
    let line ← lineAt e.buf row
    match strstr line e.search with
    | some p => return { e with cy := row, cx := p, status := .found e.search }
    | none => searchRows e dir is

def doSearch (e : Editor) (dir : ℤ) : Option Editor :=
  if e.search.bytes = [] then some e else searchRows e dir (List.range e.buf.length)

/-- The editor goes on, or `exit(0)` is called. -/
inductive Outcome where
  | running (e : Editor)
  | exit

def execCommand (L : Libc) (e : Editor) (i : Input) : Option Outcome :=
  let cmd := ofBytes e.cmdbuf
  let e := { e with mode := .normal }
  if cmd.bytes = text "q" then
    some (if e.dirty then .running { e with status := .noWrite } else .exit)
  else if cmd.bytes = text "q!" then some .exit
  else if cmd.bytes = text "wq" ∨ cmd.bytes = text "x" then
    some (if (fileSave e i.writable).2 then .exit else .running (fileSave e i.writable).1)
  else if text "w " <+: cmd.bytes then
    let e := { e with filename := ofBytes ((cmd.bytes.drop 2).take 255) }
    some (.running (fileSave e i.writable).1)
  else if cmd.bytes = text "w" then some (.running (fileSave e i.writable).1)
  else if text "e " <+: cmd.bytes then do
    let e ← fileOpen { e with buf := [] } (ofBytes (cmd.bytes.drop 2)) i.file
    return .running { e with cx := 0, cy := 0, dirty := false }
  else if text "/" <+: cmd.bytes then do
    let e ← doSearch
      { e with search := ofBytes ((cmd.bytes.drop 1).take 255), searchDir := 1 } 1
    return .running e
  else
    let lineno := L.atoi cmd
    if 0 < lineno then
      let cy := lineno - 1
      let cy := if e.buf.length ≤ cy then (e.buf.length : ℤ) - 1 else cy
      some (.running { e with cy := cy, cx := 0, status := .empty })
    else some (.running { e with status := .unknown cmd })

/-! ## Normal mode -/

/-- `h` -/
def moveLeft (e : Editor) : Option Editor :=
  some (if 0 < e.cx then { e with cx := e.cx - 1 } else e)

/-- `l` -/
def moveRight (e : Editor) : Option Editor := do
  let len ← curLineLen e
  let max := if len - 1 < 0 then 0 else len - 1
  return if e.cx < max then { e with cx := e.cx + 1 } else e

/-- `j` -/
def moveDown (e : Editor) : Option Editor :=
  some (if e.cy < e.buf.length - 1 then { e with cy := e.cy + 1 } else e)

/-- `k` -/
def moveUp (e : Editor) : Option Editor := some (if 0 < e.cy then { e with cy := e.cy - 1 } else e)

/-- `while (x < len && p(line[x])) x++`; a line of `n` characters ends it after `n` rounds. -/
def skipForward (p : UInt8 → Bool) (s : CStr) : ℕ → ℤ → Option ℤ
  | 0, x => if x < s.length then none else some x
  | n + 1, x =>
    if x < s.length then do
      let c ← charAt s x
      if p c then skipForward p s n (x + 1) else some x
    else some x

/-- `while (x > 0 && p(line[x - d])) x--` -/
def skipBack (p : UInt8 → Bool) (s : CStr) (d : ℤ) : ℕ → Option ℕ
  | 0 => some 0
  | x + 1 => do
    let c ← charAt s (x + 1 - d)
    if p c then skipBack p s d x else some (x + 1)

/-- `w` -/
def wordForward (L : Libc) (e : Editor) : Option Editor := do
  let line ← lineAt e.buf e.cy
  let x ← skipForward (fun c => !L.isspace c) line line.length e.cx
  let x ← skipForward L.isspace line line.length x
  return if line.length ≤ x ∧ e.cy + 1 < e.buf.length then { e with cy := e.cy + 1, cx := 0 }
    else { e with cx := x }

/-- The loops of `b`, in the line that the cursor was on. -/
def wordStart (L : Libc) (line : CStr) (x : ℤ) : Option ℤ := do
  let x := if 0 < x then x - 1 else x
  if x ≤ 0 then return x
  let y ← skipBack L.isspace line 0 x.toNat
  let z ← skipBack (fun c => !L.isspace c) line 1 y
  return z

/-- `b` -/
def wordBack (L : Libc) (e : Editor) : Option Editor := do
  let line ← lineAt e.buf e.cy
  if e.cx = 0 ∧ 0 < e.cy then
    let prev ← lineAt e.buf (e.cy - 1)
    let x ← wordStart L line prev.length
    return { e with cy := e.cy - 1, cx := x }
  else
    let x ← wordStart L line e.cx
    return { e with cx := x }

/-- `G` -/
def goToLine (e : Editor) (rep : ℕ) : Editor :=
  let cy := if 1 < rep then (rep : ℤ) - 1 else (e.buf.length : ℤ) - 1
  { e with cy := if e.buf.length ≤ cy then (e.buf.length : ℤ) - 1 else cy, cx := 0 }

/-- `KEY_PGDN` and control-F -/
def pageDown (e : Editor) : Option Editor :=
  let cy := e.cy + screenrows
  clampCx { e with cy := if e.buf.length ≤ cy then (e.buf.length : ℤ) - 1 else cy }

/-- `KEY_PGUP` and control-B -/
def pageUp (e : Editor) : Option Editor :=
  let cy := e.cy - screenrows
  clampCx { e with cy := if cy < 0 then 0 else cy }

/-- `o` -/
def openBelow (e : Editor) : Option Editor := do
  let e ← undoPush e
  let _ ← curLineLen e
  let buf ← bufInsertLine e.buf (e.cy + 1) (ofBytes [])
  return { e with buf := buf, cy := e.cy + 1, cx := 0, mode := .insert, dirty := true }

/-- `O` -/
def openAbove (e : Editor) : Option Editor := do
  let e ← undoPush e
  let buf ← bufInsertLine e.buf e.cy (ofBytes [])
  return { e with buf := buf, cx := 0, mode := .insert, dirty := true }

/-- A round of the loop of `dd` -/
def deleteLine (e : Editor) : Option Editor := do
  let line ← lineAt e.buf e.cy
  let buf ← bufDeleteLine e.buf e.cy
  let buf ← ensureLine buf
  return { e with
    yankLine := some line
    buf := buf
    cy := if buf.length ≤ e.cy then (buf.length : ℤ) - 1 else e.cy }

/-- `dd` -/
def deleteLines (e : Editor) (rep : ℕ) : Option Editor := do
  let e ← undoPush e
  let e ← repeatKey deleteLine rep e
  return { e with dirty := true, dPending := false }

/-- `D` -/
def deleteToEnd (e : Editor) : Option Editor := do
  let e ← undoPush e
  let line ← lineAt e.buf e.cy
  let line ← setChar line e.cx 0
  let buf ← bufSetLine e.buf e.cy line
  return { e with buf := buf, dirty := true }

/-- `yy` -/
def yank (e : Editor) : Option Editor := do
  let line ← lineAt e.buf e.cy
  return { e with yankLine := some line, status := .yanked, yPending := false }

/-- `p`, `down = 1`, and `P`, `down = 0` -/
def paste (down : ℤ) (e : Editor) : Option Editor :=
  match e.yankLine with
  | none => some e
  | some line => do
    let e ← undoPush e
    let buf ← bufInsertLine e.buf (e.cy + down) line
    return { e with buf := buf, cy := e.cy + down, cx := 0, dirty := true }

/-- `r` -/
def replaceChar (e : Editor) (nc : ℕ) : Option Editor :=
  if nc = keyEsc then some e
  else do
    let e ← undoPush e
    let line ← lineAt e.buf e.cy
    if e.cx < line.length then
      let line ← setChar line e.cx (UInt8.ofNat nc)
      let buf ← bufSetLine e.buf e.cy line
      return { e with buf := buf, dirty := true }
    else return e

/-- `~` -/
def toggleCase (L : Libc) (e : Editor) : Option Editor := do
  let line ← lineAt e.buf e.cy
  if e.cx < line.length then
    let e ← undoPush e
    let c ← charAt line e.cx
    let line' ← setChar line e.cx (if L.isupper c then L.tolower c else L.toupper c)
    let buf ← bufSetLine e.buf e.cy line'
    return { e with
      buf := buf
      cx := if e.cx < line.length - 1 then e.cx + 1 else e.cx
      dirty := true }
  else return e

/-- `J` -/
def joinLines (e : Editor) : Option Editor :=
  if e.cy + 1 < e.buf.length then do
    let e ← undoPush e
    let line ← lineAt e.buf e.cy
    let next ← lineAt e.buf (e.cy + 1)
    let joined := if next.length = 0 then line
      else ofBytes (line.bytes ++ [32] ++ next.bytes)
    let buf ← bufSetLine e.buf e.cy joined
    let buf ← bufDeleteLine buf (e.cy + 1)
    return { e with buf := buf, cx := line.length, dirty := true }
  else some e

/-- The keys of `normal_key` that return at once. -/
def normalReturns (e : Editor) (c : ℕ) : Option Editor :=
  if c = 'g'.toNat then
    some (if e.gPending then { e with cy := 0, cx := 0, gPending := false }
      else { e with gPending := true })
  else if c = 'd'.toNat ∧ !e.dPending then some { e with dPending := true }
  else if c = 'y'.toNat ∧ !e.yPending then some { e with yPending := true }
  else if c = '/'.toNat then some { e with mode := .command, cmdbuf := text "/" }
  else if c = ':'.toNat then some { e with mode := .command, cmdbuf := [], status := .empty }
  else none

/-- The other keys of `normal_key` -/
def normalCommand (L : Libc) (e : Editor) (c nc rep : ℕ) : Option Editor :=
  if c = 'h'.toNat ∨ c = keyLeft then repeatKey moveLeft rep e
  else if c = 'l'.toNat ∨ c = keyRight then repeatKey moveRight rep e
  else if c = 'j'.toNat ∨ c = keyDown then (repeatKey moveDown rep e).bind clampCx
  else if c = 'k'.toNat ∨ c = keyUp then (repeatKey moveUp rep e).bind clampCx
  else if c = '0'.toNat ∨ c = keyHome then some { e with cx := 0 }
  else if c = '$'.toNat ∨ c = keyEnd then
    (curLineLen e).map fun len => { e with cx := if 0 < len then len - 1 else 0 }
  else if c = 'w'.toNat then (repeatKey (wordForward L) rep e).bind clampCx
  else if c = 'b'.toNat then repeatKey (wordBack L) rep e
  else if c = 'G'.toNat then some (goToLine e rep)
  else if c = keyPgdn then pageDown e
  else if c = keyPgup then pageUp e
  else if c = 'i'.toNat then some { e with mode := .insert }
  else if c = 'I'.toNat then some { e with cx := 0, mode := .insert }
  else if c = 'a'.toNat then
    (curLineLen e).map fun len =>
      { e with cx := if e.cx < len then e.cx + 1 else e.cx, mode := .insert }
  else if c = 'A'.toNat then (curLineLen e).map fun len => { e with cx := len, mode := .insert }
  else if c = 'o'.toNat then openBelow e
  else if c = 'O'.toNat then openAbove e
  else if c = 'x'.toNat then
    ((undoPush e).bind (repeatKey deleteCharAtCursor rep)).bind clampCx
  else if c = 'd'.toNat then deleteLines e rep
  else if c = 'D'.toNat then deleteToEnd e
  else if c = 'y'.toNat then yank e
  else if c = 'p'.toNat then paste 1 e
  else if c = 'P'.toNat then paste 0 e
  else if c = 'u'.toNat then some (undoPop e)
  else if c = 'r'.toNat then replaceChar e nc
  else if c = '~'.toNat then toggleCase L e
  else if c = 'n'.toNat then doSearch e e.searchDir
  else if c = 'N'.toNat then doSearch e (-e.searchDir)
  else if c = 6 then pageDown e
  else if c = 2 then pageUp e
  else if c = 'J'.toNat then joinLines e
  else some e

def normalEnd (e : Editor) : Option Editor :=
  clampCx { e with gPending := false, dPending := false, yPending := false }

/-- The repeat count -/
def Editor.rep (e : Editor) : ℕ := if 0 < e.countBuf then e.countBuf.toNat else 1

def normalKey (L : Libc) (e : Editor) (c nc : ℕ) : Option Editor :=
  if '1'.toNat ≤ c ∧ c ≤ '9'.toNat ∧ !e.gPending ∧ !e.dPending ∧ !e.yPending then
    some { e with countBuf := (e.countBuf * 10 + (c - '0'.toNat : ℕ)).bmod (2 ^ 32) }
  else if c = '0'.toNat ∧ 0 < e.countBuf then
    some { e with countBuf := (e.countBuf * 10).bmod (2 ^ 32) }
  else
    let rep := e.rep
    let e := { e with countBuf := 0 }
    match normalReturns e c with
    | some e => some e
    | none => (normalCommand L e c nc rep).bind normalEnd

/-! ## All modes -/

/-- `if (E.cx == 0 && cur_line_len() == 0) undo_push()` -/
def pushOnEmptyLine (e : Editor) : Option Editor :=
  if e.cx = 0 then (curLineLen e).bind fun len => if len = 0 then undoPush e else some e
  else some e

/-- `process_key` in insert mode -/
def insertKey (L : Libc) (e : Editor) (c : ℕ) : Option Editor :=
  if c = keyEsc then
    clampCx { e with cx := if 0 < e.cx then e.cx - 1 else e.cx, mode := .normal }
  else if c = keyBackspace ∨ c = keyCtrlH then backspace e
  else if c = keyDel then deleteCharAtCursor e
  else if c = 13 ∨ c = 10 then (undoPush e).bind insertNewline
  else if c = keyUp then
    clampCx { e with cy := if e.cy - 1 < 0 then 0 else e.cy - 1 }
  else if c = keyDown then
    clampCx { e with cy := if e.buf.length ≤ e.cy + 1 then (e.buf.length : ℤ) - 1 else e.cy + 1 }
  else if c = keyLeft then some { e with cx := if 0 < e.cx then e.cx - 1 else e.cx }
  else if c = keyRight then
    (curLineLen e).map fun len => { e with cx := if e.cx < len then e.cx + 1 else e.cx }
  else if c = keyHome then some { e with cx := 0 }
  else if c = keyEnd then (curLineLen e).map fun len => { e with cx := len }
  else if !L.iscntrl c then (pushOnEmptyLine e).bind fun e => insertChar e c
  else some e

/-- `process_key` in command mode -/
def commandKey (L : Libc) (e : Editor) (i : Input) : Option Outcome :=
  let c := i.key.code
  if c = keyEsc then some (.running { e with mode := .normal, cmdbuf := [] })
  else if c = 13 ∨ c = 10 then execCommand L e i
  else if c = keyBackspace ∧ 0 < e.cmdbuf.length then
    let cmdbuf := e.cmdbuf.dropLast
    some (.running { e with
      cmdbuf := cmdbuf
      mode := if cmdbuf.length = 0 then .normal else e.mode })
  else if !L.iscntrl c ∧ e.cmdbuf.length < 255 then
    some (.running { e with cmdbuf := e.cmdbuf ++ [UInt8.ofNat c] })
  else some (.running e)

def processKey (L : Libc) (e : Editor) (i : Input) : Option Outcome :=
  match e.mode with
  | .normal =>
    if i.key.code = keyEsc then
      some (.running { e with
        gPending := false, dPending := false, yPending := false, countBuf := 0, status := .empty })
    else (normalKey L e i.key.code i.nextKey.code).map .running
  | .insert => (insertKey L e i.key.code).map .running
  | .command => commandKey L e i

/-- The state in which `main` enters its loop; `file` is what `fgets` returns for the file that
    is named, if one is. -/
def start (fname : Option CStr) (file : Option (List CStr)) : Option Editor :=
  let e : Editor :=
    { buf := [], cx := 0, cy := 0, mode := .normal, filename := ofBytes [], dirty := false
      status := .empty, cmdbuf := [], undoStack := fun _ => [], undoTop := 0
      search := ofBytes [], searchDir := 1, yankLine := none, gPending := false
      dPending := false, yPending := false, countBuf := 0 }
  match fname with
  | some fname => (fileOpen e fname file).map fun e => { e with status := .ready }
  | none => (bufInsertLine e.buf 0 (ofBytes [])).map fun b => { e with buf := b, status := .ready }

end Kabanos.Vi
