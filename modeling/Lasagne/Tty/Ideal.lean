import Mathlib
import Lasagne.Tty.Console

namespace Lasagne.Console

structure Glyph where
  char : BitVec 8
  style : TtyStyle
  deriving DecidableEq, Repr

-- the colours of text mode by the four bits of an attribute
def palette : List TtyColor :=
  [.black, .blue, .green, .cyan, .red, .magenta, .brown, .lightGrey,
    .darkGrey, .lightBlue, .lightGreen, .lightCyan, .lightRed, .lightMagenta, .lightBrown, .white]

-- how the display reads a cell: the character, then the foreground and the background
def Depicts (cell : Cell) : Option Glyph → Prop
  | none => cell = 0
  | some g => cell.extractLsb' 0 8 = g.char ∧
      palette[(cell.extractLsb' 8 4).toNat]? = some g.style.fg ∧
      palette[(cell.extractLsb' 12 4).toNat]? = some g.style.bg

abbrev Line := Nat → Option Glyph

-- a terminal that keeps every line since the last clear, the newest first
structure Terminal where
  line : Line
  earlier : List Line
  col : Nat
  tab : Nat
  style : TtyStyle

namespace Terminal

def blank : Line := fun _ => none

def start : Terminal := ⟨blank, [], 0, 8, ⟨.white, .black⟩⟩

def lines (s : Terminal) : List Line := s.line :: s.earlier

def newline (s : Terminal) : Terminal := { s with line := blank, earlier := s.lines }

def write (s : Terminal) (c : Nat) : Terminal :=
  { s with line := Function.update s.line s.col (some ⟨BitVec.ofNat 8 c, s.style⟩), col := s.col + 1 }

def tabulate (s : Terminal) : Terminal :=
  let col := s.col + (s.tab - s.col % s.tab)
  if col < 80 then { s with col } else { s.newline with col := col % 80 }

def putchar (s : Terminal) (c : Nat) : Terminal :=
  if c > 0xff then s
  else if c = 10 then { s.newline with col := 0 }
  else if c = 13 then { s with col := 0 }
  else if c = 9 then s.tabulate
  else if c < 0x20 then s
  else if s.col = 80 then { s.newline with col := 0 }.write c
  else s.write c

def next (s : Terminal) : Call → Terminal
  | .putchar c => s.putchar c.toNat
  | .setColor foreground background => { s with style := ⟨foreground, background⟩ }
  | .setTabSize size =>
    if 0 < size.toInt ∧ size.toInt < 80 then { s with tab := size.toInt.toNat } else s
  | .clear => { s with line := blank, earlier := [], col := 0 }

end Terminal

end Lasagne.Console
