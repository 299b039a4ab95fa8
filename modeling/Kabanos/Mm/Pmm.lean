/-
  The physical frame allocator: `pmm.c`, with the ranges of `range.c` and the alignment
  helpers of `utils/math.h`.

  A frame is 4096 bytes.  The allocator keeps a bitmap of used frames, a counter of
  used frames and a 16-bit reference count for each frame.
-/
import Kabanos.Lib.Bitmap

namespace Kabanos

/-! ## Ranges -/

/-- `range_t`: the addresses from `start` up to, but not including, `stop`. -/
structure Range where
  start : ℕ
  stop : ℕ
  deriving DecidableEq

/-- `align_down(num, PAGE_SIZE)` -/
def alignDown (num : ℕ) : ℕ := num / 4096 * 4096

/-- `align_up(num, PAGE_SIZE)` on 32-bit addresses -/
def alignUp (num : ℕ) : ℕ := alignDown ((num + 4096 - 1) % 2 ^ 32)

/-- Subtraction of 32-bit numbers. -/
def sub32 (a b : ℕ) : ℕ := (a + 2 ^ 32 - b) % 2 ^ 32

def rangeClamp (src boundry : Range) : Range :=
  ⟨max src.start boundry.start, min src.stop boundry.stop⟩

/-- `range_align_outward(range, FRAME_SIZE)` -/
def rangeAlignOutward (range : Range) : Range := ⟨alignDown range.start, alignUp range.stop⟩

def inRange (addr : ℕ) (range : Range) : Bool := range.start ≤ addr && addr < range.stop

/-! ## The allocator -/

/-- The static variables of `pmm.c`. -/
structure Pmm where
  bitmap : Buf
  totalFrames : ℕ
  usedFrames : ℕ
  memoryRange : Range
  frameRefcounts : ℕ → ℕ

/-- `pmm_frame_refcount_inc`: the index does not take the start of the memory range
    into account. -/
def pmmFrameRefcountInc (s : Pmm) (frameAddr : ℕ) : Pmm :=
  let frameIdx := frameAddr / 4096
  if frameIdx < s.totalFrames then
    { s with frameRefcounts :=
        Function.update s.frameRefcounts frameIdx ((s.frameRefcounts frameIdx + 1) % 2 ^ 16) }
  else s

def pmmFrameRefcountGet (s : Pmm) (frameAddr : ℕ) : ℕ :=
  let frameIdx := frameAddr / 4096
  if frameIdx < s.totalFrames then s.frameRefcounts frameIdx else 0

def markFrameUsed (s : Pmm) (frameIdx : ℕ) : Pmm :=
  if !bitmapIsSet s.bitmap frameIdx then
    { s with
      bitmap := bitmapSet s.bitmap frameIdx
      usedFrames := s.usedFrames + 1
      frameRefcounts := Function.update s.frameRefcounts frameIdx 1 }
  else s

def alignedAddrToFrame (s : Pmm) (addr : ℕ) : ℕ := (addr - s.memoryRange.start) / 4096

def frameToAlignedAddr (s : Pmm) (frame : ℕ) : ℕ := s.memoryRange.start + frame * 4096

def pmmMarkRangeUsed (s : Pmm) (range : Range) : Pmm :=
  let range := rangeClamp (rangeAlignOutward range) s.memoryRange
  if range.stop ≤ range.start then s
  else
    let startFrame := alignedAddrToFrame s range.start
    let endFrame := min (alignedAddrToFrame s range.stop) s.totalFrames
    (List.range' startFrame (endFrame - startFrame)).foldl markFrameUsed s

/-- `mark_frame_free`: drop one reference, and the frame with the last one. -/
def markFrameFree (s : Pmm) (frame : ℕ) : Pmm :=
  if !bitmapIsSet s.bitmap frame then s
  else
    let count := s.frameRefcounts frame - 1
    let s := { s with frameRefcounts := Function.update s.frameRefcounts frame count }
    if count = 0 then
      { s with bitmap := bitmapClear s.bitmap frame, usedFrames := s.usedFrames - 1 }
    else s

/-- `pmm_frame_alloc`: the address of a fresh frame, `0` if there is none. -/
def pmmFrameAlloc (s : Pmm) : Pmm × ℕ :=
  match (List.range' 1 (s.totalFrames - 1)).find? fun frame => !bitmapIsSet s.bitmap frame with
  | some frame => (markFrameUsed s frame, frameToAlignedAddr s frame)
  | none => (s, 0)

def pmmFrameFree (s : Pmm) (frameAddr : ℕ) : Pmm :=
  if frameAddr = 0 ∨ frameAddr % 4096 ≠ 0 then s
  else if !inRange frameAddr s.memoryRange then s
  else
    let frame := alignedAddrToFrame s frameAddr
    if s.totalFrames ≤ frame then s else markFrameFree s frame

/-- The body of the loop of `pmm_mark_range_free`. -/
def releaseFrame (s : Pmm) (f : ℕ) : Pmm :=
  if f = 0 then s
  else if bitmapIsSet s.bitmap f then
    { s with
      bitmap := bitmapClear s.bitmap f
      frameRefcounts := Function.update s.frameRefcounts f 0
      usedFrames := s.usedFrames - 1 }
  else s

def pmmMarkRangeFree (s : Pmm) (range : Range) : Pmm :=
  let start := alignUp range.start
  let stop := alignDown range.stop
  if stop ≤ start then s
  else
    let startFrame := sub32 start s.memoryRange.start / 4096
    let endFrame := min (sub32 stop s.memoryRange.start / 4096) s.totalFrames
    (List.range' startFrame (endFrame - startFrame)).foldl releaseFrame s

/-- `pmm_init`; `s` is what the static variables held before. -/
def pmmInit (s : Pmm) (totalRange : Range) (usableRanges criticalRanges : List Range) : Pmm :=
  let totalFrames := sub32 totalRange.stop totalRange.start / 4096
  let s : Pmm := { s with
    memoryRange := totalRange
    totalFrames := totalFrames
    bitmap := memset s.bitmap 0 0xFF ((totalFrames + 7) / 8)
    usedFrames := totalFrames }
  criticalRanges.foldl pmmMarkRangeUsed (usableRanges.foldl pmmMarkRangeFree s)

def frameGetFreeCount (s : Pmm) : ℕ := s.totalFrames - s.usedFrames

end Kabanos
