import FpgaLabs.Sync.Hd44780
import FpgaLabs.Sync.Run
import Mathlib.Logic.Function.Iterate
import Mathlib.Tactic.SplitIfs

/-! The panel driver of the HAL, `altera_avalon_lcd_16207.c`: a terminal of two
lines of 80 characters on a panel of two lines of 16. The program writes text;
an alarm scrolls and repaints, and may come between any two steps of a write. -/

namespace FpgaLabs.Hal.Lcd
open Sync

abbrev Byte := BitVec 8

/-- `ALT_LCD_HEIGHT`, `ALT_LCD_WIDTH` and `ALT_LCD_VIRTUAL_WIDTH`. -/
def height : Nat := 2
def width : Nat := 16
def virtualWidth : Nat := 80

def cmdWriteData : Byte := 0x80
def cmdFunctionSet : Byte := 0x20
def cmd8Bit : Byte := 0x10
def cmdTwoLine : Byte := 0x08
def cmdOnOff : Byte := 0x08
def cmdEnableDisp : Byte := 0x04
def cmdModes : Byte := 0x04
def cmdModeInc : Byte := 0x02
def cmdClear : Byte := 0x01

/-- Where in the memory of the panel the rows start. -/
def colstart (y : Nat) : Nat := [0x00, 0x40, 0x20, 0x60].getD y 0

/-- An element of `line`: 16 cells of `visible` and 81 of `data`. -/
structure Line where
  visible : Nat → Byte
  data : Nat → Byte
  width : Nat
  speed : Nat

/-- `altera_avalon_lcd_16207_state`, with the panel and the number of waits for
it so far. `escape` is the sequence read so far: none when `esccount` is -1. -/
structure State where
  broken : Bool
  x : Nat
  y : Nat
  address : Nat
  escape : Option (List Byte)
  scrollpos : Nat
  scrollmax : Int
  active : Bool
  line : Nat → Line
  panel : Hd44780
  waits : Nat

/-! ## The panel

`busy n` says that the `n`-th wait finds the panel busy at every poll. -/

section Panel
variable (busy : Nat → Bool)

/-- `IOWR_ALTERA_AVALON_LCD_16207_COMMAND`. -/
def iowrCommand (s : State) (command : Byte) : State :=
  { s with panel := s.panel.command command }

def writeCommand (s : State) (command : Byte) : State :=
  if s.broken then s
  else if busy s.waits then { s with broken := true, waits := s.waits + 1 }
  else iowrCommand { s with waits := s.waits + 1 } command

def writeData (s : State) (data : Byte) : State :=
  if s.broken then s
  else if busy s.waits then { s with broken := true, waits := s.waits + 1 }
  else
    { s with waits := s.waits + 1, panel := s.panel.data data, address := s.address + 1 }

def memset (dst : Nat → Byte) (off : Nat) (c : Byte) (n : Nat) : Nat → Byte := fun i =>
  if off ≤ i ∧ i < off + n then c else dst i

def memcpy (dst src : Nat → Byte) (n : Nat) : Nat → Byte := fun i =>
  if i < n then src i else dst i

def clearScreen (s : State) : State :=
  let s := writeCommand busy s cmdClear
  { s with
    x := 0, y := 0, address := 0
    line := fun y =>
      { s.line y with
        data := memset (s.line y).data 0 0x20 (virtualWidth + 1)
        visible := memset (s.line y).visible 0 0x20 width
        width := 0 } }

/-- `(scrollpos * speed) >> 8`, and 0 past the end of the line. -/
def offset (scrollpos : Nat) (l : Line) : Nat :=
  if (scrollpos * l.speed) >>> 8 ≥ l.width then 0 else (scrollpos * l.speed) >>> 8

/-- What cell `x` of a line is to show. Undefined when the width is 0 or the
index past the end of `data`. -/
def glyph (scrollpos : Nat) (l : Line) (x : Nat) : Option Byte :=
  if l.width = 0 then none
  else
    let i := (x + offset scrollpos l) % l.width
    if i < virtualWidth + 1 then some (l.data i) else none

def setVisible (s : State) (y x : Nat) (c : Byte) : State :=
  let l := s.line y
  { s with line := Function.update s.line y { l with visible := Function.update l.visible x c } }

/-- Address and data of a cell that changes. -/
def putCell (s : State) (y x : Nat) (c : Byte) : State :=
  let address := x + colstart y
  let s :=
    if address ≠ s.address then
      { writeCommand busy s (cmdWriteData ||| BitVec.ofNat 8 address) with address := address }
    else s
  setVisible (writeData busy s c) y x c

/-- The inner body of `lcd_repaint_screen`. -/
def paintCell (scrollpos : Nat) (s : State) (cell : Nat × Nat) : Option State :=
  (glyph scrollpos (s.line cell.1) cell.2).map fun c =>
    if (s.line cell.1).visible cell.2 ≠ c then putCell busy s cell.1 cell.2 c else s

/-- The cells in the order of the two loops. -/
def cells : List (Nat × Nat) :=
  (List.range height).flatMap fun y => (List.range width).map fun x => (y, x)

def repaintScreen (s : State) : Option State := cells.foldlM (paintCell busy s.scrollpos) s

def scrollUp (s : State) : State :=
  { s with
    line := fun y =>
      if y < height - 1 then
        { s.line y with data := memcpy (s.line y).data (s.line (y + 1)).data virtualWidth }
      else { s.line y with data := memset (s.line y).data 0 0x20 virtualWidth }
    y := s.y - 1 }

/-! ## Characters -/

def isdigit (c : Byte) : Bool := 0x30 ≤ c.toNat && c.toNat ≤ 0x39
def isprint (c : Byte) : Bool := 0x20 ≤ c.toNat && c.toNat ≤ 0x7e

/-- `while (isdigit(*ptr)) parm = (parm * 10) + (*ptr++ - '0')`. -/
def number (s : List Byte) : Nat :=
  (s.takeWhile isdigit).foldl (fun parm c => parm * 10 + (c.toNat - 0x30)) 0

/-- `parm1` and `parm2`. -/
def parms (escape : List Byte) : Int × Nat :=
  match escape with
  | 0x5b#8 :: s =>
    match s.dropWhile isdigit with
    | 0x3b#8 :: s' => (number s, number s')
    | _ => (number s, 0)
  | _ => (-1, 0)

/-- Cursor to a location. A row below the screen scrolls it up. -/
def moveCursor (s : State) (parm1 : Int) (parm2 : Nat) : State :=
  let s := if 0 < parm2 then { s with x := (parm2 - 1) % 256 } else s
  if 0 < parm1 then
    let y := min ((parm1.toNat - 1) % 256) (height * 2)
    scrollUp^[y - height] { s with y := y }
  else s

/-- Clear to the end of the line. -/
def eraseLine (s : State) : Option State :=
  if s.x < virtualWidth then
    if s.y < height then
      let l := s.line s.y
      some { s with
        line := Function.update s.line s.y
          { l with data := memset l.data s.x 0x20 (virtualWidth - s.x) } }
    else none
  else some s

def handleEscape (s : State) (escape : List Byte) (c : Byte) : Option State :=
  let parm := parms escape
  if c = 0x48 ∨ c = 0x66 then some (moveCursor s parm.1 parm.2)
  else if c = 0x4a then if parm.1 = 2 then some (clearScreen busy s) else some s
  else if c = 0x4b then if parm.1 < 1 then eraseLine s else some s
  else some s

/-- Whether `c` ends the escape sequence. -/
def endsEscape (escape : List Byte) (c : Byte) : Bool :=
  if escape = [] then c != 0x5b else !isdigit c && c != 0x3b

/-- A printable character goes to the cursor. -/
def printChar (s : State) (c : Byte) : Option State :=
  let s := if s.y ≥ height then scrollUp s else s
  if s.x < virtualWidth then
    if s.y < height then
      let l := s.line s.y
      some { s with
        line := Function.update s.line s.y { l with data := Function.update l.data s.x c }
        x := (s.x + 1) % 256 }
    else none
  else some { s with x := (s.x + 1) % 256 }

/-- The body of the loop of `altera_avalon_lcd_16207_write`. -/
def putChar (s : State) (c : Byte) : Option State :=
  match s.escape with
  | some escape =>
    if endsEscape escape c then
      (handleEscape busy s escape c).map fun s => { s with escape := none }
    else if escape.length < 7 then some { s with escape := some (escape ++ [c]) }
    else some s
  | none =>
    if c = 27 then some { s with escape := some [] }
    else if c = 0x0d then some { s with x := 0 }
    else if c = 0x0a then
      let s := { s with x := 0, y := s.y + 1 }
      some (if s.y > height then scrollUp s else s)
    else if c = 0x08 then some (if s.x > 0 then { s with x := s.x - 1 } else s)
    else if isprint c then printChar s c
    else some s

/-! ## Scrolling -/

/-- The loop that looks for the last character of a line. -/
def trim (data : Nat → Byte) : Nat → Nat
  | 0 => 0
  | width + 1 => if data width ≠ 0x20 then width + 1 else trim data width

def length (l : Line) : Nat := trim l.data virtualWidth

def lineWidth (l : Line) : Nat := if length l ≤ width then width else length l + 1

def widthmax (s : State) : Nat := max (max width (lineWidth (s.line 0))) (lineWidth (s.line 1))

def lineSpeed (s : State) (l : Line) : Nat :=
  if widthmax s ≤ width then 0
  else if lineWidth l > width then 256 * lineWidth l / (widthmax s * 2) % 256
  else 0

/-- "Recalculate the scrolling parameters". `scrollmax` is a signed char. -/
def layout (s : State) : State :=
  { s with
    line := fun y =>
      { s.line y with width := lineWidth (s.line y), speed := lineSpeed s (s.line y) }
    scrollmax := if widthmax s ≤ width then 0 else (BitVec.ofNat 8 (widthmax s * 2)).toInt }

/-- "Update the scrolling position". -/
def scroll (s : State) : State :=
  { s with scrollpos := if (s.scrollpos + 1 : Int) ≥ s.scrollmax then 0 else s.scrollpos + 1 }

def timeout (s : State) : Option State :=
  let s := scroll s
  if s.scrollmax > 0 ∧ s.active = false then repaintScreen busy s else some s

def init (s : State) : State :=
  let s := { s with broken := false }
  let s := iowrCommand s (cmdFunctionSet ||| cmd8Bit)
  let s := iowrCommand s (cmdFunctionSet ||| cmd8Bit)
  let s := iowrCommand s (cmdFunctionSet ||| cmd8Bit)
  let s := writeCommand busy s (cmdFunctionSet ||| cmd8Bit ||| cmdTwoLine)
  let s := writeCommand busy s cmdOnOff
  let s := clearScreen busy s
  let s := writeCommand busy s (cmdModes ||| cmdModeInc)
  let s := writeCommand busy s (cmdOnOff ||| cmdEnableDisp)
  { s with escape := none, scrollpos := 0, scrollmax := 0, active := false }

/-! ## The program and the alarm -/

/-- Where a call of `altera_avalon_lcd_16207_write` is; `old` is `old_scrollpos`. -/
inductive Phase
  | idle
  | text (rest : List Byte)
  | save
  | paint (old : Nat)
  | release (old : Nat)
  | test (old : Nat)
  | again

structure Sys where
  sp : State
  phase : Phase

inductive Event
  | write (bytes : List Byte)
  | run
  | tick

/-- The next step of a write. -/
def foreground (s : State) : Phase → Option Sys
  | .idle => some ⟨s, .idle⟩
  | .text (c :: rest) => (putChar busy s c).map (⟨·, .text rest⟩)
  | .text [] => some ⟨layout s, .save⟩
  | .save => some ⟨s, .paint s.scrollpos⟩
  | .paint old => (repaintScreen busy s).map (⟨·, .release old⟩)
  | .release old => some ⟨{ s with active := false }, .test old⟩
  | .test old => some (if s.scrollpos = old then ⟨s, .idle⟩ else ⟨s, .again⟩)
  | .again => some ⟨{ s with active := true }, .save⟩

/-- A write is called when none is in progress. -/
def next (s : Sys) : Event → Option Sys
  | .write bytes =>
    match s.phase with
    | .idle => some ⟨{ s.sp with active := true }, .text bytes⟩
    | _ => some s
  | .run => foreground busy s.sp s.phase
  | .tick => (timeout busy s.sp).map (⟨·, s.phase⟩)

/-- A step of the whole; nothing is said of a run after undefined behaviour. -/
def step (s : Option Sys) (e : Event) : Option Sys := s.bind fun s => next busy s e

/-- The states of any run from the end of `init`. -/
def Reached (s : Option Sys) : Prop :=
  Reachable (step busy) (fun o => ∃ t, o = some ⟨init busy t, .idle⟩) s

end Panel

/-- The zeroed memory of the driver, and a panel. -/
def State.zero : State where
  broken := false
  x := 0
  y := 0
  address := 0
  escape := none
  scrollpos := 0
  scrollmax := 0
  active := false
  line := fun _ => ⟨fun _ => 0, fun _ => 0, 0, 0⟩
  panel := ⟨0, false, fun _ => 0, fun _ => 0⟩
  waits := 0

/-- A run with a panel that is always ready. -/
def ready : Nat → Bool := fun _ => false
def after (es : List Event) : Option Sys := run (step ready) (some ⟨init ready .zero, .idle⟩) es

theorem after_reached (es : List Event) : Reached ready (after es) :=
  ⟨_, es, ⟨.zero, rfl⟩, rfl⟩

end FpgaLabs.Hal.Lcd
