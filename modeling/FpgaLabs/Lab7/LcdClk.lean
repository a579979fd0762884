import FpgaLabs.Lab7.Clock
import FpgaLabs.Sync.Hd44780
import FpgaLabs.Sync.Strobe

/-! The LCD part of lab 7's `lcdclk.vhd`: the prescaler, the display state
machine of 44 states, and the text it shows. Each of its 42 writing states sets
the bus and raises the strobe; the shared states TOGGLE_E and WAITUP follow. -/

namespace FpgaLabs.Lab7
open Sync

abbrev Byte := BitVec 8

inductive StateType
  | initialStart | funcSet | modeSet | waitup | toggleE | home | clear
  | state1 | state2 | state3 | state4 | state5 | state6 | state7 | state8
  | state9 | state10 | state11 | state12 | state13 | state14 | state15 | state16
  | state17 | state18 | state19 | state20 | state21 | state22 | state23 | state24
  | state25 | state26 | state27 | state28 | state29 | state30 | state31
  | line2 | dispOff | initial2 | initial3 | dispOn | state32
  deriving DecidableEq, Repr

/-- What the machine reads besides its own registers: the switch and the
outputs of the clock. -/
structure Env where
  sw0 : Bool
  digit : Digit → Nat
  hflag : Bool

def Clock.env (s : Clock) (sw0 : Bool) : Env := ⟨sw0, s.digit, s.hflag⟩

/-- `name1` to `name11`, by the process on `SW0`. -/
def name (e : Env) (i : Nat) : Byte :=
  if e.sw0 = false then
    [0x4A, 0x65, 0x66, 0x66, 0x4B, 0x69, 0x74, 0x63, 0x68, 0x65, 0x6E].getD (i - 1) 0
  else [0x50, 0x61, 0x75, 0x6C, 0x4B, 0x61, 0x66, 0x6B, 0x61, 0x20, 0x20].getD (i - 1) 0

/-- The process on `hflag`. -/
def amOrPm (hflag : Bool) : Byte := if hflag = false then 0x41 else 0x51

/-- `s1_ascii`, `s2_ascii`, ...: one `translate` for each digit. -/
def ascii (d : Digit) (e : Env) : Byte := translate (e.digit d)

/-- One branch of `CASE now_state`. -/
inductive Branch
  | write (rs : Bool) (data : Env → Byte) (next : StateType)
  | toggleE
  | waitup

/-- `CASE now_state`: register select, data and `next_state` of each branch. -/
def branch : StateType → Branch
  | .initialStart => .write false (fun _ => 0x38) .initial2
  | .initial2 => .write false (fun _ => 0x38) .initial3
  | .initial3 => .write false (fun _ => 0x38) .funcSet
  | .funcSet => .write false (fun _ => 0x38) .dispOff
  | .dispOff => .write false (fun _ => 0x08) .clear
  | .clear => .write false (fun _ => 0x01) .dispOn
  | .dispOn => .write false (fun _ => 0x0C) .modeSet
  | .modeSet => .write false (fun _ => 0x06) .home
  | .home => .write false (fun _ => 0b10000000) .state1
  | .toggleE => .toggleE
  | .waitup => .waitup
  | .state1 => .write true (name · 1) .state2
  | .state2 => .write true (name · 2) .state3
  | .state3 => .write true (name · 3) .state4
  | .state4 => .write true (name · 4) .state5
  | .state5 => .write true (fun _ => 0x20) .state6
  | .state6 => .write true (name · 5) .state7
  | .state7 => .write true (name · 6) .state8
  | .state8 => .write true (name · 7) .state9
  | .state9 => .write true (name · 8) .state10
  | .state10 => .write true (name · 9) .state11
  | .state11 => .write true (name · 10) .state12
  | .state12 => .write true (name · 11) .state13
  | .state13 => .write true (fun _ => 0x20) .state14
  | .state14 => .write true (fun _ => 0x20) .state15
  | .state15 => .write true (fun _ => 0x20) .state16
  | .state16 => .write true (fun _ => 0x20) .line2
  | .line2 => .write false (fun _ => 0xC0) .state17
  | .state17 => .write true (ascii .hrmsb) .state18
  | .state18 => .write true (ascii .hrlsb) .state19
  | .state19 => .write true (fun _ => 0b00111010) .state20
  | .state20 => .write true (ascii .minmsb) .state21
  | .state21 => .write true (ascii .minlsb) .state22
  | .state22 => .write true (fun _ => 0b00111010) .state23
  | .state23 => .write true (ascii .secmsb) .state24
  | .state24 => .write true (ascii .seclsb) .state25
  | .state25 => .write true (fun _ => 0x20) .state26
  | .state26 => .write true (fun e => amOrPm e.hflag) .state27
  | .state27 => .write true (fun _ => 0b01001101) .state28
  | .state28 => .write true (fun _ => 0x20) .state29
  | .state29 => .write true (fun _ => 0x20) .state30
  | .state30 => .write true (fun _ => 0x20) .state31
  | .state31 => .write true (fun _ => 0x20) .state32
  | .state32 => .write true (fun _ => 0x20) .home

/-- The registers of the display process. -/
structure Display where
  nowState : StateType
  nextState : StateType
  lcdEn : Bool
  lcdRs : Bool
  lcdRwInt : Bool
  lcdDataValue : Byte

/-- One step of the display process, with `cntr_clk` high. -/
def caseNowState (d : Display) (e : Env) : Display :=
  match branch d.nowState with
  | .write rs data next =>
    { lcdEn := true, lcdRs := rs, lcdRwInt := false, lcdDataValue := data e,
      nowState := .toggleE, nextState := next }
  | .toggleE => { d with lcdEn := false, nowState := .waitup }
  | .waitup => { d with nowState := d.nextState }

/-- Register select and data, as the LCD sees them while `LCD_RW` is low. -/
def Display.bus (d : Display) : Bool × Byte := (d.lcdRs, d.lcdDataValue)

/-- `LCD_DATA <= LCD_DATA_VALUE WHEN LCD_RW_INT = '0' ELSE "ZZZZZZZZ"`. -/
def Display.lcdData (d : Display) : Option Byte :=
  if d.lcdRwInt = false then some d.lcdDataValue else none

/-- The display process with the prescaler `count_clk`, `cntr_clk`. -/
structure LcdClk where
  countClk : Nat
  cntrClk : Bool
  display : Display

/-- A rising edge of CLOCK_50. -/
def edge50 (s : LcdClk) (e : Env) : LcdClk where
  countClk := if s.countClk = 380000 then 0 else s.countClk + 1
  cntrClk := s.countClk = 380000
  display := if s.cntrClk then caseNowState s.display e else s.display

/-- The declared initial values; the other registers hold anything. -/
structure PowerUp (s : LcdClk) : Prop where
  countClk : s.countClk = 0
  cntrClk : s.cntrClk = false
  nowState : s.display.nowState = .initialStart
  lcdRwInt : s.display.lcdRwInt = false

end FpgaLabs.Lab7
