import Mathlib
import Lasagne.Library.CInt

namespace Lasagne.Console
open CInt

inductive TtyColor where
  | black | blue | green | cyan | red | magenta | brown | lightGrey
  | darkGrey | lightBlue | lightGreen | lightCyan | lightRed | lightMagenta | lightBrown | white
  deriving DecidableEq, Repr

def TtyColor.value : TtyColor → Nat
  | .black => 0
  | .blue => 1
  | .green => 2
  | .cyan => 3
  | .red => 4
  | .magenta => 5
  | .brown => 6
  | .lightGrey => 7
  | .darkGrey => 8
  | .lightBlue => 9
  | .lightGreen => 10
  | .lightCyan => 11
  | .lightRed => 12
  | .lightMagenta => 13
  | .lightBrown => 14
  | .white => 15

structure TtyStyle where
  fg : TtyColor
  bg : TtyColor
  deriving DecidableEq, Repr

abbrev Cell := BitVec 16

-- ttyBuffer is the video memory, buffer the ring of lines
structure Tty where
  row : Int
  col : Int
  width : Int
  height : Int
  bufferRow : Int
  bufferHeight : Int
  tab : Int
  style : TtyStyle
  buffer : Nat → Nat → Cell
  ttyBuffer : Nat → Cell

def bufferRows : Nat := 30

def bufferColumns : Nat := 80

def screenCells : Nat := 2000

def bufferRowUp (t : Tty) : Option Tty := do
  let bufferRow ← remainder (t.bufferRow + 1) t.bufferHeight
  let i ← index bufferRow bufferRows
  return { t with bufferRow, buffer := Function.update t.buffer i fun _ => 0 }

def overwrite (cells : Nat → Cell) (start count : Nat) (f : Nat → Cell) : Nat → Cell :=
  fun x => if start ≤ x ∧ x < start + count then f (x - start) else cells x

-- the memcpy of a buffer line to the screen; a cell outside either array is undefined
def copyCells (t : Tty) (start line : Int) : Option Tty := do
  let i ← index line bufferRows
  if 0 ≤ start ∧ start + bufferColumns ≤ screenCells then
    some { t with ttyBuffer := overwrite t.ttyBuffer start.toNat bufferColumns (t.buffer i) }
  else none

-- the memset of screen cells
def clearCells (t : Tty) (start count : Int) : Option Tty :=
  if 0 ≤ start ∧ 0 ≤ count ∧ start + count ≤ screenCells then
    some { t with ttyBuffer := overwrite t.ttyBuffer start.toNat count.toNat fun _ => 0 }
  else none

def copyLines : Nat → Tty → Int → Int → Option (Tty × Int)
  | 0, _, _, _ => none
  | n + 1, t, i, row =>
    if i ≠ t.bufferRow then do
      let t ← copyCells t (t.width * row) i
      let i ← remainder (i + 1) t.bufferHeight
      copyLines n t i (row + 1)
    else some (t, row)

def scroll (t : Tty) : Option Tty := do
  let startLine ← remainder (t.bufferRow - t.height + 1) t.bufferHeight
  let startLine := if startLine < 0 then startLine + t.bufferHeight else startLine
  let (t, row) ← copyLines (bufferRows + 1) t startLine 0
  clearCells t (t.width * row) t.width

def lineUp (t : Tty) : Option Tty := do
  let t ← bufferRowUp t
  if t.row < t.height - 1 then some { t with row := t.row + 1 } else scroll t

def tabulate (t : Tty) : Option Tty := do
  let past ← remainder t.col t.tab
  let t := { t with col := t.col + (t.tab - past) }
  if t.col + 1 > t.width then do
    let col ← remainder t.col t.width
    lineUp { t with col }
  else some t

def specialChar (t : Tty) (c : Nat) : Option Tty :=
  if c = 10 then (lineUp t).map fun t => { t with col := 0 }
  else if c = 13 then some { t with col := 0 }
  else if c = 9 then tabulate t
  else some t

def styled (style : TtyStyle) (c : Nat) : Cell :=
  BitVec.ofNat 16 (style.fg.value <<< 8 ||| style.bg.value <<< 12 ||| c)

def writeCell (t : Tty) (c : Nat) : Option Tty := do
  let ch := styled t.style c
  let x ← index (t.row * t.width + t.col) screenCells
  let i ← index t.bufferRow bufferRows
  let j ← index t.col bufferColumns
  return { t with
    ttyBuffer := Function.update t.ttyBuffer x ch
    buffer := Function.update t.buffer i (Function.update (t.buffer i) j ch)
    col := t.col + 1 }

def putChar (t : Tty) (c : Nat) : Option Tty :=
  if t.col = t.width then (lineUp t).bind fun t => writeCell { t with col := 0 } c
  else writeCell t c

def ttyPutchar (t : Tty) (c : Nat) : Option Tty :=
  if c > 0xff then some t
  else if c < 0x20 then specialChar t c
  else putChar t c

def ttySetColor (t : Tty) (foreground background : TtyColor) : Tty :=
  { t with style := ⟨foreground, background⟩ }

def ttySetTabSize (t : Tty) (size : Int) : Tty :=
  if size > 0 ∧ size < t.width then { t with tab := size } else t

def ttyClear (t : Tty) : Option Tty := do
  let t ← bufferRowUp t
  let t ← clearCells t 0 (t.width * t.height)
  return { t with col := 0, row := 0 }

def ttyInitialize (t : Tty) : Option Tty :=
  ttyClear { t with
    row := 0, col := 0, bufferRow := 0, bufferHeight := 30, width := 80, height := 25, tab := 8
    style := ⟨.white, .black⟩
    buffer := fun _ _ => 0 }

inductive Call where
  | putchar (c : BitVec 32)
  | setColor (foreground background : TtyColor)
  | setTabSize (size : BitVec 32)
  | clear
  deriving DecidableEq, Repr

def call (t : Tty) : Call → Option Tty
  | .putchar c => ttyPutchar t c.toNat
  | .setColor foreground background => some (ttySetColor t foreground background)
  | .setTabSize size => some (ttySetTabSize t size.toInt)
  | .clear => ttyClear t

end Lasagne.Console
